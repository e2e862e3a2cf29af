import Espalier.Proofs.Picks
import Espalier.Proofs.Registration
import Mathlib.Logic.Hydra

/-!
# Rules that can be ranked

A growth goes on as long as its productions append nothing, and each of them may register any number
of buds, so nothing about the size of the queue goes down. Where the rules can be ranked such that
a production that appends nothing registers buds of lower rank only (`Grammar.Ranked`), a turn takes
one rank out of the queue and puts lower ones in its place, wherever in the queue the bud was. That
is a step down in the order of multisets (`Relation.CutExpand`), which has no endless descents.

`Again` is one turn that leads on to the next, without any bound on their number. If no chain of
such turns goes on for ever, some patience is enough and more of it changes nothing
(`exists_enough`). `growth_ends` is the result for ranked rules.
-/

namespace Espalier

variable {N R ρ κ : Type}

/-! ## Ranks -/

section Ranks

variable [RandomSource ρ]

/-- Where a production for a bud of the rule `name` appends nothing, the buds it registers in a
phase have rules of lower rank. -/
def Production.Lowers (ρ : Type) [RandomSource ρ] (body : Production N) (g : Grammar N R)
    (phase : Phase) (rank : String → Nat) (name : String) : Prop :=
  ∀ (node : NodeId) (view : View N) (source : ρ),
    ((body node).harvest view source).nodes = [] →
      ∀ bud ∈ ((body node).harvest view source).buds, g.phaseOf bud = phase →
        rank bud.rule < rank name

/-- All productions that append nothing lower the rank of their rule in a phase. -/
def Grammar.Ranked (ρ : Type) [RandomSource ρ] (g : Grammar N R) (phase : Phase)
    (rank : String → Nat) : Prop :=
  ∀ (name : String) (rule : Rule N R), g.rule? name = some rule →
    ∀ choice ∈ rule.choices, choice.body.Lowers ρ g phase rank name

/-- The ranks of the buds that are open in a phase. -/
def Particle.ranks (p : Particle N R) (phase : Phase) (rank : String → Nat) : Multiset Nat :=
  (p.buds phase).toList.map fun bud => rank bud.rule

end Ranks

namespace Particle

variable [Scalar R] [RandomSource ρ] {g : Grammar N R} {phase : Phase} {start : Nat}

/-! ## Turn after turn -/

/-- A turn of a growth, from the particle and the source before it to those after it. -/
inductive Again (g : Grammar N R) (phase : Phase) (start : Nat) :
    Particle N R × ρ → Particle N R × ρ → Prop where
  | turn {p q : Particle N R} {source drawn chosen : ρ} {place : Nat} {bud : Bud}
    {choice : Choice N R} (size : p.growth.size = start)
    (draw : Selection.pickUniform R (p.buds phase).size source = (some place, drawn))
    (take : p.takeBud phase place = some (bud, q))
    (sample : g.sample bud.rule drawn = (.ok choice, chosen)) :
    Again g phase start (p, source) (q.apply g choice.body bud.node chosen)

/-- A growth that does not end takes the bud it has drawn and goes on as the choice for it says. -/
theorem expand_turn {p q : Particle N R} {source drawn : ρ} {place : Nat} {bud : Bud}
    (hgoes : ¬ (p.growth.size ≠ start ∨ (p.buds phase).isEmpty))
    (hdraw : Selection.pickUniform R (p.buds phase).size source = (some place, drawn))
    (htake : p.takeBud phase place = some (bud, q)) (patience : Nat) :
    expand g phase start (patience + 1) p source
      = match g.sample bud.rule drawn with
        | (.error failure, source) => (.error failure, q, source)
        | (.ok choice, source) => expand g phase start patience
          (q.apply g choice.body bud.node source).1 (q.apply g choice.body bud.node source).2 := by
  rw [expand, if_neg hgoes, hdraw]
  dsimp only
  rewrite [Option.bind_some, htake]
  rfl

/-- A growth takes a turn and goes on from there, or else it ends, and not for want of patience. -/
theorem again_or_ends (g : Grammar N R) (phase : Phase) (start : Nat) (p : Particle N R)
    (source : ρ) :
    (∃ next, Again g phase start (p, source) next ∧ ∀ patience,
      expand g phase start (patience + 1) p source = expand g phase start patience next.1 next.2) ∨
    ∃ result : Except (Failure R) Unit × Particle N R × ρ, result.1 ≠ .error .stalled ∧
      ∀ patience, expand g phase start (patience + 1) p source = result := by
  by_cases hstop : p.growth.size ≠ start ∨ (p.buds phase).isEmpty
  · refine .inr ⟨(.ok (), p, source), by simp, fun patience => ?_⟩
    unfold expand
    exact if_pos hstop
  · obtain ⟨hsize, hopen⟩ := not_or.mp hstop
    obtain ⟨place, ⟨bud, q⟩, hplace, htake⟩ := exists_takeBud (Bool.eq_false_iff.mpr hopen) source
    obtain ⟨drawn, hdraw⟩ : ∃ drawn, Selection.pickUniform R (p.buds phase).size source
        = (some place, drawn) := ⟨_, Prod.ext hplace rfl⟩
    have hexpand (patience : Nat) := expand_turn (g := g) hstop hdraw htake patience
    cases hsample : g.sample bud.rule drawn with
    | mk result chosen =>
      simp only [hsample] at hexpand
      cases result with
      | ok choice => exact .inl ⟨_, .turn (not_not.mp hsize) hdraw htake hsample, hexpand⟩
      | error failure =>
        refine .inr ⟨_, fun hstalled => ?_, hexpand⟩
        have hfailure : failure = .stalled := Except.error.inj hstalled
        rcases Grammar.sample_failure (congrArg Prod.fst hsample) with h | ⟨h, -⟩
        all_goals exact absurd (h.symm.trans hfailure) (by simp)

/-- If no chain of turns goes on for ever, there is enough patience for all of them, and more of it
makes no difference. -/
theorem exists_enough {state : Particle N R × ρ}
    (h : Acc (fun next now => Again g phase start now next) state) :
    ∃ (enough : Nat) (result : Except (Failure R) Unit × Particle N R × ρ),
      result.1 ≠ .error .stalled ∧
        ∀ patience ≥ enough, expand g phase start patience state.1 state.2 = result := by
  induction h with
  | intro state _ ih =>
    rcases again_or_ends g phase start state.1 state.2 with
      ⟨next, hagain, hexpand⟩ | ⟨result, hresult, hexpand⟩
    · obtain ⟨enough, result, hresult, hrest⟩ := ih next hagain
      refine ⟨enough + 1, result, hresult, fun patience hpatience => ?_⟩
      obtain ⟨more, rfl⟩ := Nat.exists_eq_add_of_le' hpatience
      rw [← Nat.add_assoc, hexpand]
      exact hrest _ (Nat.le_add_left enough more)
    · refine ⟨1, result, hresult, fun patience hpatience => ?_⟩
      obtain ⟨more, rfl⟩ := Nat.exists_eq_add_of_le' hpatience
      exact hexpand more

/-! ## The descent -/

variable {rank : String → Nat}

/-- A turn that appends nothing takes one rank away and brings lower ones. -/
theorem cutExpand_ranks (hranked : g.Ranked ρ phase rank) {now next : Particle N R × ρ}
    (h : Again g phase start now next) (hsize : next.1.growth.size = start) :
    Relation.CutExpand (· < ·) (next.1.ranks phase rank) (now.1.ranks phase rank) := by
  cases h with
  | @turn p q source drawn chosen place bud choice size draw take sample =>
    obtain ⟨-, -, hgrowth, hperm, -⟩ := takeBud_spec take
    obtain ⟨rule, hrule, hchoice⟩ := Grammar.mem_of_sample (congrArg Prod.fst sample)
    obtain ⟨h, hharvest⟩ : ∃ h : Harvest N, (choice.body bud.node).harvest q.view chosen = h :=
      ⟨_, rfl⟩
    have happly : (q.apply g choice.body bud.node chosen).1 = q.gain g h := by
      rw [← hharvest]
      exact perform_eq g _ q chosen
    dsimp only at hsize ⊢
    rw [happly] at hsize ⊢
    have hnone : h.nodes = [] := by
      have hlength := size_of_append (toList_gain q g h)
      rw [hsize, hgrowth, size] at hlength
      exact List.eq_nil_of_length_eq_zero (Nat.left_eq_add.mp hlength)
    have hlower := hranked bud.rule rule hrule choice hchoice bud.node q.view chosen
    rw [hharvest] at hlower
    -- What is registered comes in place of the bud that was taken.
    refine ⟨((h.buds.filter fun new => g.phaseOf new == phase).map fun new => rank new.rule),
      rank bud.rule, fun lower hmem => ?_, ?_⟩
    · obtain ⟨new, hnew, rfl⟩ := List.mem_map.mp (Multiset.mem_coe.mp hmem)
      obtain ⟨hbud, hphase⟩ := List.mem_filter.mp hnew
      exact hlower hnone new hbud (beq_iff_eq.mp hphase)
    · have hbefore : p.ranks phase rank = rank bud.rule ::ₘ q.ranks phase rank :=
        Multiset.coe_eq_coe.mpr (hperm.map _)
      have hafter : (q.gain g h).ranks phase rank = q.ranks phase rank
          + ((h.buds.filter fun new => g.phaseOf new == phase).map fun new => rank new.rule) := by
        unfold ranks
        rw [buds_gain, List.map_append, Multiset.coe_add]
      rw [hbefore, hafter, ← Multiset.singleton_add, add_comm, add_assoc]

/-- Where rules are ranked, no chain of turns goes on for ever. -/
theorem acc_again (hranked : g.Ranked ρ phase rank) (state : Particle N R × ρ) :
    Acc (fun next now => Again g phase start now next) state := by
  have hwf : WellFounded (Relation.CutExpand fun a b : Nat => a < b) := wellFounded_lt.cutExpand
  induction hstate : state.1.ranks phase rank using hwf.induction generalizing state with
  | _ ranks ih =>
    refine .intro state fun next hagain => ?_
    by_cases hsize : next.1.growth.size = start
    · exact ih _ (hstate ▸ cutExpand_ranks hranked hagain hsize) next rfl
    · -- A node has come with this turn, so there is no other.
      refine .intro next fun later hlater => ?_
      cases hlater with
      | turn size => exact absurd size hsize

/-- A growth that comes to an end of its own. -/
structure Ends (g : Grammar N R) (phase : Phase) (p : Particle N R) (source : ρ) : Prop where
  /-- No chain of turns from the particle on goes on for ever. -/
  finite : Acc (fun next now => Again g phase p.growth.size now next) (p, source)
  /-- There is enough patience for its turns, so that it never stalls, and with more it expands the
  same buds to the same end, by whichever model it is judged. -/
  enough : ∃ enough, ∀ patience ≥ enough,
    (expand g phase p.growth.size patience p source).1 ≠ .error .stalled ∧
    expand g phase p.growth.size patience p source
      = expand g phase p.growth.size enough p source ∧
    ∀ {κ : Type} [CostModel κ N R] (useHeuristic : Bool) (model : κ),
      (p.grow g phase useHeuristic patience model source).1 ≠ .error .stalled ∧
      p.grow g phase useHeuristic patience model source
        = p.grow g phase useHeuristic enough model source

/-- Every growth by ranked rules ends, however many buds are open and are registered on the way. -/
theorem growth_ends (hranked : g.Ranked ρ phase rank) (p : Particle N R) (source : ρ) :
    Ends g phase p source := by
  have hfinite : Acc (fun next now => Again g phase p.growth.size now next) (p, source) :=
    acc_again hranked (p, source)
  obtain ⟨enough, result, hresult, hexpand⟩ := exists_enough hfinite
  refine ⟨hfinite, enough, fun patience hpatience => ?_⟩
  have hsame : expand g phase p.growth.size patience p source
      = expand g phase p.growth.size enough p source :=
    (hexpand patience hpatience).trans (hexpand enough (Nat.le_refl _)).symm
  have hends : (expand g phase p.growth.size patience p source).1 ≠ .error .stalled := by
    rw [hexpand patience hpatience]
    exact hresult
  refine ⟨hends, hsame, fun useHeuristic model => ⟨?_, ?_⟩⟩
  · exact fun hstalled => hends (grow_failure_iff.mp hstalled).2
  · unfold grow
    dsimp only
    rw [hsame]

end Particle

/-! ## Registering ranked rules -/

section Define

variable [RandomSource ρ] {g : Grammar N R} {phase : Phase} {rank : String → Nat}

theorem Grammar.ranked_empty : (empty : Grammar N R).Ranked ρ phase rank := by
  intro name rule hrule
  exact absurd hrule (by simp [empty, rule?])

/-- A production that lowers the rank of its rule may be added. -/
theorem Grammar.ranked_define [Arithmetic R] (hranked : g.Ranked ρ phase rank) {name : String}
    {body : Production N} (hbody : body.Lowers ρ g phase rank name) :
    (g.define name body).Ranked ρ phase rank := by
  intro other rule hrule choice hchoice
  have hlowers : choice.body.Lowers ρ g phase rank other := by
    unfold define at hrule
    rw [rule?_addChoices] at hrule
    by_cases hname : name = other
    · subst hname
      rw [if_pos rfl] at hrule
      obtain rfl := Option.some.inj hrule
      rcases Array.mem_push.mp hchoice with hbefore | rfl
      · cases hfound : g.rule? name with
        | none =>
          rw [hfound] at hbefore
          exact absurd hbefore (Array.not_mem_empty choice)
        | some before =>
          rw [hfound] at hbefore
          exact hranked name before hfound choice hbefore
      · exact hbody
    · rw [if_neg hname] at hrule
      exact hranked other rule hrule choice hchoice
  exact hlowers

end Define

namespace Sample

/-- A tangle is two knots at one node, and a knot is a place for a stem. -/
def tangledGrammar : Grammar String Binary64 :=
  (Grammar.empty : Grammar String Binary64)
    |>.define "stem" (fun _ => do Expansion.addBud "stem" (← Expansion.append "stem"))
    |>.define "knot" (fun node => Expansion.addBud "stem" node)
    |>.define "tangle" (fun node => do
        Expansion.addBud "knot" node
        Expansion.addBud "knot" node)

/-- How deep a rule is tangled. -/
def tangledRank (name : String) : Nat :=
  if name = "tangle" then 2 else if name = "knot" then 1 else 0

theorem ranked_tangledGrammar : tangledGrammar.Ranked Source .skeleton tangledRank := by
  refine Grammar.ranked_define (Grammar.ranked_define (Grammar.ranked_define Grammar.ranked_empty
    ?stem) ?knot) ?tangle
  case stem =>
    -- A stem appends itself, so that the next one may follow.
    intro node view source hnone
    exact nomatch hnone
  case knot =>
    intro node view source _ bud hbud _
    rw [List.mem_singleton.mp hbud]
    exact (by decide : tangledRank "stem" < tangledRank "knot")
  case tangle =>
    intro node view source _ bud hbud _
    have hrule : bud.rule = "knot" := by
      rcases List.mem_cons.mp hbud with rfl | hrest
      · rfl
      · rw [List.mem_singleton.mp hrest]
    rw [hrule]
    exact (by decide : tangledRank "knot" < tangledRank "tangle")

/-- A growth of three tangles. -/
theorem growth_ends_tangled : tangledGrammar.Ranked Source .skeleton tangledRank ∧
    Particle.Ends tangledGrammar .skeleton ((Particle.ofRoot 0 "root").setBuds .skeleton
      #[⟨"tangle", 0⟩, ⟨"tangle", 0⟩, ⟨"tangle", 0⟩]) (Source.split 0) :=
  ⟨ranked_tangledGrammar, Particle.growth_ends ranked_tangledGrammar _ _⟩

end Sample

end Espalier
