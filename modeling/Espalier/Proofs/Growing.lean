import Espalier.Growing
import Mathlib.Data.List.Perm.Basic

/-!
# What a growth does to a particle

Growing and closing are loops over productions. `Expansion.harvest` tells what one production
appends and registers, and `Particle.perform_eq` says that nothing else about the particle changes.
A `Turn` is a bud that was taken out of its queue and the production that was applied there, and
`expansions` and `closings` list the turns of one growth and of one closing.

`Accounts` is the balance over a list of turns: what the particle has gained is what the turns
appended, and what was open in a phase or was registered there has either had its turn or is open
still. `accounts_expand`, `grow_spec` and `accounts_close` are the results.
-/

namespace Espalier

variable {N R ρ κ α : Type}

/-- What a production appends and which buds it registers, both in order. -/
structure Harvest (N : Type) where
  nodes : List N
  buds : List Bud

/-- Nothing appended and nothing registered. -/
def Harvest.none : Harvest N := ⟨[], []⟩

/-- The phase in which a bud is expanded. -/
def Grammar.phaseOf (g : Grammar N R) (bud : Bud) : Phase :=
  if g.isDetail bud.rule then .detail else .skeleton

/-- Any buds are those of one phase and those of the other. -/
theorem Grammar.perm_phases (g : Grammar N R) {phase other : Phase} (hne : other ≠ phase)
    (buds : List Bud) : buds.Perm ((buds.filter fun bud => g.phaseOf bud == phase)
      ++ buds.filter fun bud => g.phaseOf bud == other) := by
  have hsplit : (buds.filter fun bud => g.phaseOf bud == other)
      = buds.filter fun bud => !(g.phaseOf bud == phase) := by
    refine List.filter_congr fun bud _ => ?_
    cases g.phaseOf bud <;> cases phase <;> cases other <;>
      first | rfl | exact absurd rfl hne
  rw [hsplit]
  exact (List.filter_append_perm _ _).symm

/-- What a program appends and registers when it is carried out. -/
def Expansion.harvest [RandomSource ρ] : Expansion N α → View N → ρ → Harvest N
  | done _, _, _ => .none
  | look next, view, source => (next view).harvest view source
  | push node next, view, source =>
    let rest := (next view.growth.size).harvest { view with growth := view.growth.push node } source
    { rest with nodes := node :: rest.nodes }
  | sprout bud next, view, source =>
    let rest := next.harvest view source
    { rest with buds := bud :: rest.buds }
  | draw next, view, source =>
    let (word, source) := RandomSource.next source
    (next word).harvest view source

namespace Particle

/-- What a production sees of the particle. -/
def view (p : Particle N R) : View N := ⟨p.id, p.growth⟩

/-- The buds that are open, whatever the phase. -/
def openBuds (p : Particle N R) : List Bud := p.skeleton.toList ++ p.details.toList

theorem isComplete_iff (p : Particle N R) : p.isComplete = true ↔ p.openBuds = [] := by
  simp [isComplete, openBuds]

/-- Open buds are those of one phase and those of the other. -/
theorem openBuds_perm {phase other : Phase} (hne : other ≠ phase) (p : Particle N R) :
    p.openBuds.Perm ((p.buds phase).toList ++ (p.buds other).toList) := by
  cases phase <;> cases other
  case skeleton.detail => exact List.Perm.refl _
  case detail.skeleton => exact List.perm_append_comm
  all_goals exact absurd rfl hne

/-- The particle with a harvest added to what it has. -/
def gain (p : Particle N R) (g : Grammar N R) (h : Harvest N) : Particle N R :=
  { p with
    growth := h.nodes.foldl Growth.push p.growth
    skeleton := p.skeleton ++ h.buds.filter fun bud => g.phaseOf bud == .skeleton
    details := p.details ++ h.buds.filter fun bud => g.phaseOf bud == .detail }

theorem gain_none (p : Particle N R) (g : Grammar N R) : p.gain g .none = p := by
  simp [gain, Harvest.none]

/-- A bud registered first comes before the rest of the harvest. -/
theorem gain_addBud (p : Particle N R) (g : Grammar N R) (bud : Bud) (h : Harvest N) :
    (p.addBud g bud).gain g h = p.gain g { h with buds := bud :: h.buds } := by
  unfold addBud gain
  cases hdetail : g.isDetail bud.rule
  case false =>
    have hphase : g.phaseOf bud = .skeleton := by simp [Grammar.phaseOf, hdetail]
    simp [hphase]
  case true =>
    have hphase : g.phaseOf bud = .detail := by simp [Grammar.phaseOf, hdetail]
    simp [hphase]

/-- All that carrying out a program changes about a particle is what it gains. -/
theorem perform_eq [RandomSource ρ] (g : Grammar N R) (x : Expansion N α) (p : Particle N R)
    (source : ρ) : (perform g x p source).2.1 = p.gain g (x.harvest p.view source) := by
  induction x generalizing p source with
  | done _ => exact (gain_none p g).symm
  | look _ ih => exact ih _ p source
  | push node _ ih => exact ih _ _ source
  | sprout bud _ ih =>
    refine (ih _ source).trans ?_
    have hview : (p.addBud g bud).view = p.view := by
      unfold addBud view
      cases g.isDetail bud.rule <;> rfl
    rw [hview]
    exact gain_addBud p g bud _
  | draw _ ih => exact ih _ p _

/-- A harvest freezes nothing. -/
theorem frozen_gain (p : Particle N R) (g : Grammar N R) (h : Harvest N) :
    (p.gain g h).growth.frozen = p.growth.frozen :=
  List.foldlRecOn (motive := fun growth : Growth N => growth.frozen = p.growth.frozen) h.nodes _
    rfl fun _ hgrowth _ _ => hgrowth

theorem toList_gain (p : Particle N R) (g : Grammar N R) (h : Harvest N) :
    (p.gain g h).growth.toList = p.growth.toList ++ h.nodes := by
  have hpush : ∀ (nodes : List N) (growth : Growth N),
      (nodes.foldl Growth.push growth).toList = growth.toList ++ nodes := by
    intro nodes
    induction nodes with
    | nil => simp
    | cons node nodes ih => simp [ih]
  exact hpush h.nodes p.growth

/-- A harvest adds to each queue the buds of its phase. -/
theorem buds_gain (p : Particle N R) (g : Grammar N R) (h : Harvest N) (phase : Phase) :
    ((p.gain g h).buds phase).toList
      = (p.buds phase).toList ++ h.buds.filter fun bud => g.phaseOf bud == phase := by
  cases phase <;> simp [gain, buds]

end Particle

/-! ## Turns -/

/-- A bud that was taken out of its queue, and what was done about it. -/
structure Turn (N ρ : Type) where
  bud : Bud
  /-- The production that was applied, unless there was none. -/
  body : Option (Production N)
  /-- What the production saw of the particle. -/
  view : View N
  /-- Where it drew its random words. -/
  source : ρ

namespace Turn

variable [RandomSource ρ]

/-- What a turn adds to the particle. -/
def harvest (t : Turn N ρ) : Harvest N :=
  match t.body with
  | none => .none
  | some body => (body t.bud.node).harvest t.view t.source

/-- The buds of a phase that some turns registered. -/
def sprouts (g : Grammar N R) (phase : Phase) (turns : List (Turn N ρ)) : List Bud :=
  (turns.flatMap (·.harvest.buds)).filter fun bud => g.phaseOf bud == phase

/-- The nodes that some turns appended. -/
def nodes (turns : List (Turn N ρ)) : List N := turns.flatMap (·.harvest.nodes)

theorem sprouts_cons (g : Grammar N R) (phase : Phase) (t : Turn N ρ) (turns : List (Turn N ρ)) :
    sprouts g phase (t :: turns)
      = (t.harvest.buds.filter fun bud => g.phaseOf bud == phase) ++ sprouts g phase turns := by
  simp [sprouts]

/-- Turns register nothing in the skeleton when they register details only. -/
theorem sprouts_eq_nil_iff (g : Grammar N R) (turns : List (Turn N ρ)) :
    sprouts g .skeleton turns = [] ↔
      ∀ t ∈ turns, ∀ bud ∈ t.harvest.buds, g.isDetail bud.rule = true := by
  have hphase : ∀ bud : Bud,
      ¬ (g.phaseOf bud == .skeleton) = true ↔ g.isDetail bud.rule = true := by
    intro bud
    unfold Grammar.phaseOf
    cases g.isDetail bud.rule <;> decide
  unfold sprouts
  rw [List.filter_eq_nil_iff]
  constructor
  · intro h t ht bud hbud
    exact (hphase bud).mp (h bud (List.mem_flatMap.mpr ⟨t, ht, hbud⟩))
  · intro h bud hbud
    obtain ⟨t, ht, hmem⟩ := List.mem_flatMap.mp hbud
    exact (hphase bud).mpr (h t ht bud hmem)

/-- A turn that did what the grammar has for its bud: a choice of the bud's rule or the rule's
closing production was applied. -/
def Apt (g : Grammar N R) (t : Turn N ρ) : Prop :=
  ∃ body, t.body = some body ∧
    ((∃ rule, g.rule? t.bud.rule = some rule ∧ ∃ choice ∈ rule.choices, choice.body = body) ∨
      g.closings[t.bud.rule]? = some body)

end Turn

/-- A choice that was drawn is one of its rule. -/
theorem Grammar.mem_of_sample [Scalar R] [RandomSource ρ] {g : Grammar N R} {name : String}
    {source : ρ} {choice : Choice N R} (h : (g.sample name source).1 = .ok choice) :
    ∃ rule, g.rule? name = some rule ∧ choice ∈ rule.choices := by
  unfold sample at h
  cases hindex : g.sampleIndex name source with
  | mk result source =>
    rw [hindex] at h
    cases result with
    | error failure => exact absurd h (by simp)
    | ok index =>
      dsimp only at h
      cases hchoice : (g.rule? name).bind (·.choices[index]?) with
      | none =>
        rw [hchoice] at h
        exact absurd h (by simp)
      | some found =>
        rw [hchoice] at h
        obtain ⟨rule, hrule, hget⟩ := Option.bind_eq_some_iff.mp hchoice
        have heq : found = choice := Except.ok.inj h
        exact ⟨rule, hrule, heq ▸ Array.mem_of_getElem? hget⟩

/-- The balance of a particle over some turns in a phase. The cost is left out. -/
structure Accounts [RandomSource ρ] (g : Grammar N R) (phase : Phase) (p : Particle N R)
    (turns : List (Turn N ρ)) (p' : Particle N R) : Prop where
  id : p'.id = p.id
  parent : p'.parent = p.parent
  nodes : p'.growth.toList = p.growth.toList ++ Turn.nodes turns
  frozen : p'.growth.frozen = p.growth.frozen
  /-- What was open in the phase or was registered there has had its turn or is open. -/
  queue : ((p.buds phase).toList ++ Turn.sprouts g phase turns).Perm
    (turns.map (·.bud) ++ (p'.buds phase).toList)
  /-- In the other phase buds are only registered. -/
  others : ∀ other, other ≠ phase →
    (p'.buds other).toList = (p.buds other).toList ++ Turn.sprouts g other turns

namespace Particle

variable [RandomSource ρ]

theorem accounts_refl (g : Grammar N R) (phase : Phase) (p : Particle N R) :
    Accounts (ρ := ρ) g phase p [] p := by
  constructor <;> simp [Turn.nodes, Turn.sprouts]

/-- A turn before others. -/
theorem accounts_cons {g : Grammar N R} {phase : Phase} {p q p' : Particle N R}
    {t : Turn N ρ} {turns : List (Turn N ρ)} (hid : q.id = p.id) (hparent : q.parent = p.parent)
    (hgrowth : q.growth = p.growth)
    (hbud : (p.buds phase).toList.Perm (t.bud :: (q.buds phase).toList))
    (hothers : ∀ other, other ≠ phase → q.buds other = p.buds other)
    (hrest : Accounts g phase (q.gain g t.harvest) turns p') :
    Accounts g phase p (t :: turns) p' := by
  constructor
  case id => exact hrest.id.trans hid
  case parent => exact hrest.parent.trans hparent
  case nodes =>
    rw [hrest.nodes, toList_gain, hgrowth, List.append_assoc]
    simp [Turn.nodes]
  case frozen => rw [hrest.frozen, frozen_gain, hgrowth]
  case queue =>
    -- The bud leaves the queue, and what its turn registers has joined it for the other turns.
    have hqueue := hrest.queue
    rw [buds_gain, List.append_assoc] at hqueue
    rw [Turn.sprouts_cons, List.map_cons, List.cons_append]
    exact (hbud.append_right _).trans (hqueue.cons _)
  case others =>
    intro other hother
    rw [hrest.others other hother, buds_gain, hothers other hother, Turn.sprouts_cons,
      List.append_assoc]

/-- What takes a bud out of its queue leaves the rest of the particle as it was, but for the
probability of the pick. -/
theorem takeBud_spec [Scalar R] {p q : Particle N R} {phase : Phase} {index : Nat} {bud : Bud}
    (h : p.takeBud phase index = some (bud, q)) :
    q.id = p.id ∧ q.parent = p.parent ∧ q.growth = p.growth ∧
      (p.buds phase).toList.Perm (bud :: (q.buds phase).toList) ∧
      ∀ other, other ≠ phase → q.buds other = p.buds other := by
  obtain ⟨found, hfound, heq⟩ := Option.map_eq_some_iff.mp h
  obtain ⟨rfl, rfl⟩ := Prod.mk.inj heq
  obtain ⟨hlt, hget⟩ := Array.getElem?_eq_some_iff.mp hfound
  have hperm : (p.buds phase).toList.Perm
      (found :: ((p.buds phase).eraseIdxIfInBounds index).toList) := by
    rw [Array.eraseIdxIfInBounds, dif_pos hlt, Array.toList_eraseIdx, ← hget,
      ← Array.getElem_toList]
    exact (List.getElem_cons_eraseIdx_perm _).symm
  cases phase with
  | skeleton =>
    refine ⟨rfl, rfl, rfl, hperm, fun other hother => ?_⟩
    cases other with
    | skeleton => exact absurd rfl hother
    | detail => rfl
  | detail =>
    refine ⟨rfl, rfl, rfl, hperm, fun other hother => ?_⟩
    cases other with
    | skeleton => rfl
    | detail => exact absurd rfl hother

theorem cost_takeBud [Scalar R] {p q : Particle N R} {phase : Phase} {index : Nat} {bud : Bud}
    (h : p.takeBud phase index = some (bud, q)) : q.cost = p.cost := by
  obtain ⟨found, -, heq⟩ := Option.map_eq_some_iff.mp h
  obtain ⟨-, rfl⟩ := Prod.mk.inj heq
  cases phase <;> rfl

/-- The turns of a growth, in order. -/
def expansions [Scalar R] (g : Grammar N R) (phase : Phase) (start : Nat) :
    (patience : Nat) → Particle N R → ρ → List (Turn N ρ)
  | patience, p, source =>
    if p.growth.size ≠ start ∨ (p.buds phase).isEmpty then [] else
    match patience with
    | 0 => []
    | patience + 1 =>
      let (index, source) := Selection.pickUniform R (p.buds phase).size source
      match index.bind (p.takeBud phase) with
      | none => []
      | some (bud, p) =>
        match g.sample bud.rule source with
        | (.error _, source) => [⟨bud, none, p.view, source⟩]
        | (.ok choice, source) =>
          let (p', source') := p.apply g choice.body bud.node source
          ⟨bud, some choice.body, p.view, source⟩ :: expansions g phase start patience p' source'

/-- What expanding buds does to a particle is what its turns add up to. -/
theorem accounts_expand [Scalar R] (g : Grammar N R) (phase : Phase) (start patience : Nat)
    (p : Particle N R) (source : ρ) :
    Accounts g phase p (expansions g phase start patience p source)
      (expand g phase start patience p source).2.1 := by
  induction patience generalizing p source with
  | zero =>
    unfold expand expansions
    split <;> exact accounts_refl g phase p
  | succ patience ih =>
    unfold expand expansions
    by_cases hstop : p.growth.size ≠ start ∨ (p.buds phase).isEmpty
    · rw [if_pos hstop, if_pos hstop]
      exact accounts_refl g phase p
    · rw [if_neg hstop, if_neg hstop]
      dsimp only
      cases hpick : Selection.pickUniform R (p.buds phase).size source with
      | mk index source =>
        dsimp only
        cases htake : index.bind (p.takeBud phase) with
        | none => exact accounts_refl g phase p
        | some taken =>
          obtain ⟨bud, q⟩ := taken
          obtain ⟨place, -, hplace⟩ := Option.bind_eq_some_iff.mp htake
          obtain ⟨hid, hparent, hgrowth, hbud, hothers⟩ := takeBud_spec hplace
          dsimp only
          cases hsample : g.sample bud.rule source with
          | mk result source =>
            cases result with
            | error failure =>
              -- A bud that fails has had its turn and brings nothing.
              refine accounts_cons hid hparent hgrowth hbud hothers ?_
              exact (gain_none q g).symm ▸ accounts_refl g phase q
            | ok choice =>
              refine accounts_cons hid hparent hgrowth hbud hothers ?_
              have happly : (q.apply g choice.body bud.node source).1
                  = q.gain g (Turn.harvest ⟨bud, some choice.body, q.view, source⟩) :=
                perform_eq g _ q source
              dsimp only
              rw [← happly]
              exact ih _ _

/-- When no bud fails, every turn of a growth applies a choice of its bud's rule. -/
theorem apt_expansions [Scalar R] (g : Grammar N R) (phase : Phase) (start patience : Nat)
    (p : Particle N R) (source : ρ)
    (h : (expand g phase start patience p source).1 = .ok ()) :
    ∀ t ∈ expansions g phase start patience p source, t.Apt g := by
  induction patience generalizing p source with
  | zero =>
    unfold expansions
    split <;> simp
  | succ patience ih =>
    unfold expand at h
    unfold expansions
    by_cases hstop : p.growth.size ≠ start ∨ (p.buds phase).isEmpty
    · rw [if_pos hstop]
      simp
    · rw [if_neg hstop] at h ⊢
      dsimp only at h ⊢
      cases hpick : Selection.pickUniform R (p.buds phase).size source with
      | mk index source =>
        rw [hpick] at h
        dsimp only at h ⊢
        cases htake : index.bind (p.takeBud phase) with
        | none => simp
        | some taken =>
          obtain ⟨bud, q⟩ := taken
          rw [htake] at h
          dsimp only at h ⊢
          cases hsample : g.sample bud.rule source with
          | mk result source' =>
            rw [hsample] at h
            cases result with
            | error failure => exact absurd h (by simp)
            | ok choice =>
              obtain ⟨rule, hrule, hmem⟩ := Grammar.mem_of_sample (congrArg Prod.fst hsample)
              intro t ht
              rcases List.mem_cons.mp ht with rfl | hrest
              · exact ⟨choice.body, rfl, Or.inl ⟨rule, hrule, choice, hmem, rfl⟩⟩
              · exact ih _ _ h t hrest

/-- A new cost does not matter to the balance. -/
theorem accounts_cost {g : Grammar N R} {phase : Phase} {p p' : Particle N R}
    {turns : List (Turn N ρ)} (h : Accounts g phase p turns p') (cost : Cost R) :
    Accounts g phase p turns { p' with cost } := by
  have hbuds : ∀ ph, ({ p' with cost } : Particle N R).buds ph = p'.buds ph := by
    intro ph
    cases ph <;> rfl
  refine ⟨h.id, h.parent, h.nodes, h.frozen, ?_, fun other hother => ?_⟩
  · rw [hbuds]
    exact h.queue
  · rw [hbuds]
    exact h.others other hother

section Grow

variable [Scalar R] [CostModel κ N R]

/-- The call to the cost model that a growth ends with, if it comes to that. -/
def judgement (g : Grammar N R) (phase : Phase) (useHeuristic : Bool) (patience : Nat)
    (p : Particle N R) (source : ρ) : Option (CostCall N R) :=
  if (p.buds phase).isEmpty then none else
  match expand g phase p.growth.size patience p source with
  | (.error _, _, _) => none
  | (.ok (), p', _) =>
    some ⟨p', ⟨p.growth.size, (p'.growth.appendedSince p.growth.size).getD #[]⟩, useHeuristic⟩

/-- A growth does to the particle what its turns add up to, and asks the cost model what its
judgement says. -/
theorem grow_spec (g : Grammar N R) (phase : Phase) (useHeuristic : Bool) (patience : Nat)
    (p : Particle N R) (model : κ) (source : ρ) :
    Accounts g phase p (expansions g phase p.growth.size patience p source)
        (p.grow g phase useHeuristic patience model source).2.1 ∧
      (p.grow g phase useHeuristic patience model source).2.2.1
        = (match p.judgement g phase useHeuristic patience source with
          | none => model
          | some call =>
            (CostModel.evaluate model call.particle call.batch call.useHeuristic).2) := by
  unfold grow judgement
  by_cases hempty : (p.buds phase).isEmpty
  · have hnone : expansions g phase p.growth.size patience p source = [] := by
      unfold expansions
      rw [if_pos (Or.inr hempty)]
    rw [if_pos hempty, if_pos hempty, hnone]
    exact ⟨accounts_refl g phase p, rfl⟩
  · rw [if_neg hempty, if_neg hempty]
    have haccounts := accounts_expand g phase p.growth.size patience p source
    dsimp only
    cases hexpand : expand g phase p.growth.size patience p source with
    | mk result rest =>
      obtain ⟨q, source'⟩ := rest
      rw [hexpand] at haccounts
      cases result with
      | error failure => exact ⟨haccounts, rfl⟩
      | ok done => exact ⟨accounts_cost haccounts _, rfl⟩

/-- A growth that succeeds has apt turns. -/
theorem apt_grow {g : Grammar N R} {phase : Phase} {useHeuristic : Bool} {patience : Nat}
    {p : Particle N R} {model : κ} {source : ρ} {pushed : Bool}
    (h : (p.grow g phase useHeuristic patience model source).1 = .ok pushed) :
    ∀ t ∈ expansions g phase p.growth.size patience p source, t.Apt g := by
  unfold grow at h
  by_cases hempty : (p.buds phase).isEmpty
  · unfold expansions
    rw [if_pos (Or.inr hempty)]
    simp
  · rw [if_neg hempty] at h
    dsimp only at h
    refine apt_expansions g phase p.growth.size patience p source ?_
    cases hexpand : expand g phase p.growth.size patience p source with
    | mk result rest =>
      rw [hexpand] at h
      cases result with
      | error failure => exact absurd h (by simp)
      | ok done => rfl

/-- The particle that is judged is the one that has grown, with its old cost. -/
theorem judgement_spec {g : Grammar N R} {phase : Phase} {useHeuristic : Bool} {patience : Nat}
    {p : Particle N R} {source : ρ} {call : CostCall N R}
    (h : p.judgement g phase useHeuristic patience source = some call) :
    Accounts g phase p (expansions g phase p.growth.size patience p source) call.particle := by
  unfold judgement at h
  by_cases hempty : (p.buds phase).isEmpty
  · rw [if_pos hempty] at h
    exact absurd h (by simp)
  · rw [if_neg hempty] at h
    have haccounts := accounts_expand g phase p.growth.size patience p source
    cases hexpand : expand g phase p.growth.size patience p source with
    | mk result rest =>
      rw [hexpand] at h haccounts
      cases result with
      | error failure => exact absurd h (by simp)
      | ok done =>
        rw [← Option.some.inj h]
        exact haccounts

end Grow

/-! ## Closing -/

/-- The turn of a closing, if a bud is open. -/
def closings (g : Grammar N R) (p : Particle N R) (source : ρ) : List (Turn N ρ) :=
  match p.skeleton.back? with
  | none => []
  | some bud =>
    [⟨bud, (g.closings[bud.rule]?), { p with skeleton := p.skeleton.pop }.view, source⟩]

/-- What closing does to a particle is what its turn adds. -/
theorem accounts_close (g : Grammar N R) (p : Particle N R) (source : ρ) :
    Accounts g .skeleton p (closings g p source) (p.close g source).2.1 := by
  unfold close closings
  cases hback : p.skeleton.back? with
  | none => exact accounts_refl g .skeleton p
  | some bud =>
    have hbud : p.skeleton.toList.Perm (bud :: p.skeleton.pop.toList) := by
      obtain ⟨rest, hrest⟩ := Array.back?_eq_some_iff.mp hback
      rw [hrest, Array.pop_push, Array.toList_push]
      exact List.perm_append_comm
    dsimp only
    refine accounts_cons (q := { p with skeleton := p.skeleton.pop }) rfl rfl rfl hbud
      (fun other hother => ?_) ?_
    · cases other with
      | skeleton => exact absurd rfl hother
      | detail => rfl
    · unfold Grammar.closingFor
      cases hclosing : g.closings[bud.rule]? with
      | none =>
        have hnone := gain_none { p with skeleton := p.skeleton.pop } g
        exact hnone.symm ▸ accounts_refl g .skeleton _
      | some body =>
        have happly := perform_eq g (body bud.node) { p with skeleton := p.skeleton.pop } source
        show Accounts g .skeleton _ [] (perform g (body bud.node) _ source).2.1
        rw [happly]
        exact accounts_refl g .skeleton _

/-- A closing that succeeds has an apt turn, if any. -/
theorem apt_close {g : Grammar N R} {p : Particle N R} {source : ρ} {closed : Option Bud}
    (h : (p.close g source).1 = .ok closed) : ∀ t ∈ closings g p source, t.Apt g := by
  unfold close at h
  unfold closings
  cases hback : p.skeleton.back? with
  | none => simp
  | some bud =>
    rw [hback] at h
    dsimp only at h
    unfold Grammar.closingFor at h
    cases hclosing : g.closings[bud.rule]? with
    | none =>
      rw [hclosing] at h
      exact absurd h (by simp)
    | some body =>
      intro t ht
      rw [List.mem_singleton.mp ht]
      exact ⟨body, hclosing, Or.inr hclosing⟩

/-- Closing reports no bud when none is open, and then it changes nothing. -/
theorem skeleton_of_close {g : Grammar N R} {p : Particle N R} {source : ρ}
    (h : (p.close g source).1 = .ok none) :
    p.skeleton = #[] ∧ (p.close g source).2.1 = p := by
  unfold close at h ⊢
  cases hback : p.skeleton.back? with
  | none => exact ⟨Array.back?_eq_none_iff.mp hback, rfl⟩
  | some bud =>
    rw [hback] at h
    dsimp only at h
    cases hclosing : g.closingFor bud.rule with
    | error failure =>
      rw [hclosing] at h
      exact absurd h (by simp)
    | ok body =>
      rw [hclosing] at h
      exact absurd h (by simp)

end Particle

end Espalier
