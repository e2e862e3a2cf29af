import Espalier.Proofs.Judging
import Espalier.Proofs.Patience

/-!
# One growth, pick by pick

A growth that comes to an end has made some picks, one after the other, and its first node came
with the last of them. `Picks` is such a chain: each pick draws an index from the queue as the pick
before has left it, then a choice of the bud's rule, and applies that choice to the bud's node. Only
a pick after which nothing has been appended is followed by another (`exists_picks`), so all nodes
of a growth come from one production, and the cost model is asked once, when that production is
through (`grows_once`).

What the model is shown is the unfrozen end of the particle. `Raised` lists all the ways there are
to come by a particle, forks among them, and none freezes more than there is (`Raised.frozen_le`).
-/

namespace Espalier

variable {N R ρ κ : Type}

/-- A bud that was picked in a growth: the particle just before, and the bud's turn. -/
structure Pick (N R ρ : Type) where
  before : Particle N R
  turn : Turn N ρ

namespace Particle

variable [Scalar R] [RandomSource ρ]

/-- Particles as they come to be: new ones, and what registering, productions, growing, closing and
forking make of others, by whatever grammars, cost models and random sources. -/
inductive Raised : Particle N R → Prop where
  | root (id : ParticleId) (root : N) : Raised (ofRoot id root)
  | seed (id : ParticleId) (start : String) (root : N) : Raised (seed id start root)
  | restarted {p : Particle N R} (origin : Raised p) (start : String) (root : N) :
    Raised (p.restart start root)
  | registered {p : Particle N R} (origin : Raised p) (g : Grammar N R) (bud : Bud) :
    Raised (p.addBud g bud)
  | performed {ρ α : Type} [RandomSource ρ] {p : Particle N R} (origin : Raised p)
    (g : Grammar N R) (x : Expansion N α) (source : ρ) : Raised (perform g x p source).2.1
  | grown {ρ κ : Type} [RandomSource ρ] [CostModel κ N R] {p : Particle N R} (origin : Raised p)
    (g : Grammar N R) (phase : Phase) (useHeuristic : Bool) (patience : Nat) (model : κ)
    (source : ρ) : Raised (p.grow g phase useHeuristic patience model source).2.1
  | closed {ρ : Type} [RandomSource ρ] {p : Particle N R} (origin : Raised p) (g : Grammar N R)
    (source : ρ) : Raised (p.close g source).2.1
  | forked {p : Particle N R} (origin : Raised p) (id : ParticleId) (mark : HistoryMark) :
    Raised (p.fork id mark).1
  | fork {p : Particle N R} (origin : Raised p) (id : ParticleId) (mark : HistoryMark) :
    Raised (p.fork id mark).2

omit [Scalar R] in
theorem size_of_append {p q : Particle N R} {nodes : List N}
    (h : q.growth.toList = p.growth.toList ++ nodes) :
    q.growth.size = p.growth.size + nodes.length := by
  rw [← Growth.length_toList, h, List.length_append, Growth.length_toList]

omit [Scalar R] in
/-- Where nodes were only appended, still no more is frozen than there is. -/
theorem frozen_le_of_append {p q : Particle N R} {nodes : List N}
    (hnodes : q.growth.toList = p.growth.toList ++ nodes)
    (hfrozen : q.growth.frozen = p.growth.frozen) (h : p.growth.frozen ≤ p.growth.size) :
    q.growth.frozen ≤ q.growth.size := by
  rw [hfrozen, size_of_append hnodes]
  exact Nat.le_add_right_of_le h

/-- No more of a particle is frozen than there is of it. -/
theorem Raised.frozen_le {p : Particle N R} (h : p.Raised) :
    p.growth.frozen ≤ p.growth.size := by
  induction h with
  | root | seed | restarted => exact Nat.zero_le _
  | @registered p origin g bud ih =>
    have hgrowth : (p.addBud g bud).growth = p.growth := by
      unfold addBud
      split <;> rfl
    rw [hgrowth]
    exact ih
  | performed _ g x source ih =>
    rw [perform_eq]
    exact frozen_le_of_append (toList_gain _ g _) (frozen_gain _ g _) ih
  | @grown ρ κ _ _ p _ g phase useHeuristic patience model source ih =>
    obtain ⟨haccounts, -⟩ := grow_spec g phase useHeuristic patience p model source
    exact frozen_le_of_append haccounts.nodes haccounts.frozen ih
  | @closed ρ _ p _ g source ih =>
    have haccounts := accounts_close g p source
    exact frozen_le_of_append haccounts.nodes haccounts.frozen ih
  | forked _ _ mark ih | fork _ _ mark ih => exact Growth.frozen_freeze mark ih

/-- Picks from a phase, from the first particle and source to the last ones. -/
inductive Picks (g : Grammar N R) (phase : Phase) :
    Particle N R → ρ → List (Pick N R ρ) → Particle N R → ρ → Prop where
  | none (p : Particle N R) (source : ρ) : Picks g phase p source [] p source
  | pick {p q last : Particle N R} {source drawn chosen rest : ρ} {place : Nat} {bud : Bud}
    {choice : Choice N R} {picks : List (Pick N R ρ)}
    (draw : Selection.pickUniform R (p.buds phase).size source = (some place, drawn))
    (take : p.takeBud phase place = some (bud, q))
    (sample : g.sample bud.rule drawn = (.ok choice, chosen))
    (more : Picks g phase (q.apply g choice.body bud.node chosen).1
      (q.apply g choice.body bud.node chosen).2 picks last rest) :
    Picks g phase p source (⟨p, ⟨bud, some choice.body, q.view, chosen⟩⟩ :: picks) last rest

section Picks

variable {g : Grammar N R} {phase : Phase} {p q : Particle N R} {source rest : ρ}
  {picks : List (Pick N R ρ)}

omit [Scalar R] in
/-- Applying a production to a bud gives the particle what the turn brings. -/
theorem apply_eq_gain (g : Grammar N R) (p : Particle N R) (bud : Bud) (body : Production N)
    (source : ρ) : (p.apply g body bud.node source).1
      = p.gain g (Turn.harvest ⟨bud, some body, p.view, source⟩) :=
  perform_eq g _ p source

/-- Picks append what their turns bring. -/
theorem Picks.nodes (h : Picks g phase p source picks q rest) :
    q.growth.toList = p.growth.toList ++ Turn.nodes (picks.map (·.turn)) := by
  induction h with
  | none => simp [Turn.nodes]
  | pick _ take _ _ ih =>
    obtain ⟨-, -, hgrowth, -⟩ := takeBud_spec take
    rw [ih, apply_eq_gain, toList_gain, hgrowth, List.append_assoc]
    rfl

theorem Picks.cost (h : Picks g phase p source picks q rest) : q.cost = p.cost := by
  induction h with
  | none => rfl
  | pick _ take _ _ ih =>
    rw [ih, apply_eq_gain, ← cost_takeBud take]
    rfl

/-- Each pick costs the logarithm of the number of buds it was made from. -/
theorem Picks.logProbability (h : Picks g phase p source picks q rest) :
    q.logProbability = picks.foldl
      (fun sum pick => sum - Scalar.ln (((pick.before.buds phase).size : Nat) : R))
      p.logProbability := by
  induction h with
  | none => rfl
  | pick _ take _ _ ih =>
    rw [ih, apply_eq_gain, List.foldl_cons]
    obtain ⟨found, -, heq⟩ := Option.map_eq_some_iff.mp take
    obtain ⟨-, rfl⟩ := Prod.mk.inj heq
    rfl

/-- Expanding buds to the end makes picks of which only the last may append anything. -/
theorem exists_picks {start patience : Nat} (hstart : p.growth.size = start)
    (hopen : (p.buds phase).isEmpty = false)
    (h : expand g phase start patience p source = (.ok (), q, rest)) :
    ∃ picks last, Picks g phase p source (picks ++ [last]) q rest ∧
      (∀ pick ∈ picks, pick.turn.harvest.nodes = []) ∧
      (q.growth.size ≠ start ∨ (q.buds phase).isEmpty = true) := by
  have hgoes : ¬ (p.growth.size ≠ start ∨ (p.buds phase).isEmpty = true) := by simp [hstart, hopen]
  induction patience generalizing p source with
  | zero =>
    unfold expand at h
    rw [if_neg hgoes] at h
    cases congrArg Prod.fst h
  | succ patience ih =>
    unfold expand at h
    rw [if_neg hgoes] at h
    obtain ⟨place, ⟨bud, taken⟩, hplace, htake⟩ := exists_takeBud hopen source
    cases hdraw : Selection.pickUniform R (p.buds phase).size source with
    | mk index drawn =>
      rw [hdraw] at hplace h
      obtain rfl : index = some place := hplace
      dsimp only at h
      rw [Option.bind_some, htake] at h
      dsimp only at h
      cases hsample : g.sample bud.rule drawn with
      | mk result chosen =>
        rw [hsample] at h
        cases result with
        | error failure => cases congrArg Prod.fst h
        | ok choice =>
          dsimp only at h
          by_cases hstop : (taken.apply g choice.body bud.node chosen).1.growth.size ≠ start ∨
              ((taken.apply g choice.body bud.node chosen).1.buds phase).isEmpty = true
          · have hend : expand g phase start patience
                (taken.apply g choice.body bud.node chosen).1
                (taken.apply g choice.body bud.node chosen).2
                = (.ok (), (taken.apply g choice.body bud.node chosen).1,
                  (taken.apply g choice.body bud.node chosen).2) := by
              unfold expand
              exact if_pos hstop
            obtain ⟨rfl, rfl⟩ := Prod.mk.inj (congrArg Prod.snd (hend.symm.trans h))
            exact ⟨[], _, .pick hdraw htake hsample (.none _ _), by simp, hstop⟩
          · -- There is another pick, so this one has appended nothing.
            obtain ⟨hsize, hmore⟩ := not_or.mp hstop
            obtain ⟨picks, last, hpicks, hidle, hq⟩ :=
              ih (not_not.mp hsize) (Bool.eq_false_iff.mpr hmore) h hstop
            refine ⟨_ :: picks, last, .pick hdraw htake hsample hpicks, ?_, hq⟩
            intro pick hpick
            rcases List.mem_cons.mp hpick with rfl | hlater
            · have hpicked := (Picks.pick hdraw htake hsample (.none _ _)).nodes
              have hlength := size_of_append hpicked
              rw [not_not.mp hsize, hstart] at hlength
              have hnone : Turn.nodes [(⟨bud, some choice.body, taken.view, chosen⟩ : Turn N ρ)]
                  = [] := List.eq_nil_of_length_eq_zero (Nat.left_eq_add.mp hlength)
              simpa [Turn.nodes] using hnone
            · exact hidle pick hlater

end Picks

/-- What a growth has done by the time it is judged: `picks` without effect, and a last one. -/
structure Grown (g : Grammar N R) (phase : Phase) (p : Particle N R) (source : ρ)
    (picks : List (Pick N R ρ)) (last : Pick N R ρ) (q : Particle N R) (rest : ρ) : Prop where
  chain : Picks g phase p source (picks ++ [last]) q rest
  /-- Nothing was appended before the last pick. -/
  idle : ∀ pick ∈ picks, pick.turn.harvest.nodes = []
  nodes : q.growth.toList = p.growth.toList ++ last.turn.harvest.nodes
  /-- Without a node there were no buds left. -/
  emptied : last.turn.harvest.nodes = [] → (q.buds phase).isEmpty = true
  cost : q.cost = p.cost
  logProbability : q.logProbability = (picks ++ [last]).foldl
    (fun sum pick => sum - Scalar.ln (((pick.before.buds phase).size : Nat) : R)) p.logProbability

variable {g : Grammar N R} {phase : Phase} {useHeuristic : Bool} {patience : Nat}
  {p : Particle N R} {source : ρ}

/-- Expanding buds to the end. -/
theorem exists_grown {q : Particle N R} {rest : ρ} (hopen : (p.buds phase).isEmpty = false)
    (h : expand g phase p.growth.size patience p source = (.ok (), q, rest)) :
    ∃ picks last, Grown g phase p source picks last q rest := by
  obtain ⟨picks, last, hpicks, hidle, hend⟩ := exists_picks rfl hopen h
  have hnodes : q.growth.toList = p.growth.toList ++ last.turn.harvest.nodes := by
    have hbefore : Turn.nodes (picks.map (·.turn)) = [] := by
      refine List.flatMap_eq_nil_iff.mpr fun t ht => ?_
      obtain ⟨pick, hpick, rfl⟩ := List.mem_map.mp ht
      exact hidle pick hpick
    have hall : Turn.nodes ((picks ++ [last]).map (·.turn)) = last.turn.harvest.nodes := by
      unfold Turn.nodes at hbefore ⊢
      rw [List.map_append, List.flatMap_append, hbefore]
      simp
    rw [← hall]
    exact hpicks.nodes
  refine ⟨picks, last, hpicks, hidle, hnodes, fun hnone => ?_, hpicks.cost, hpicks.logProbability⟩
  rcases hend with hsize | hempty
  · exact absurd (by rw [size_of_append hnodes, hnone]; rfl) hsize
  · exact hempty

section Grow

variable [CostModel κ N R] {model : κ}

/-- A growth that expands buds to the end asks the model for a cost. -/
theorem grow_of_expand {q : Particle N R} {rest : ρ} (useHeuristic : Bool) (model : κ)
    (hopen : (p.buds phase).isEmpty = false)
    (h : expand g phase p.growth.size patience p source = (.ok (), q, rest)) (batch : Batch N)
    (hfirst : batch.first = p.growth.size)
    (hnodes : q.growth.appendedSince p.growth.size = some batch.nodes) :
    p.grow g phase useHeuristic patience model source
      = (.ok (decide (p.growth.size < q.growth.size)),
        { q with cost := (CostModel.evaluate model q batch useHeuristic).1 },
        (CostModel.evaluate model q batch useHeuristic).2, rest) := by
  obtain ⟨first, nodes⟩ := batch
  obtain rfl : first = p.growth.size := hfirst
  unfold grow
  rw [hopen, if_neg Bool.false_ne_true]
  dsimp only
  rw [h]
  dsimp only
  rw [hnodes]
  rfl

/-- A growth without buds does nothing. Any other that comes to an end has made picks of which only
the last appended nodes, and has then asked the cost model once, showing it those nodes and the cost
from before. Whether there were any is its answer. -/
theorem grows_once (hp : p.Raised) :
    ((p.buds phase).isEmpty = true →
      p.grow g phase useHeuristic patience model source = (.ok false, p, model, source)) ∧
    ∀ pushed, (p.buds phase).isEmpty = false →
      (p.grow g phase useHeuristic patience model source).1 = .ok pushed →
      ∃ picks last q rest batch, Grown g phase p source picks last q rest ∧
        (pushed = true ↔ last.turn.harvest.nodes ≠ []) ∧
        batch.first = p.growth.size ∧ batch.nodes.toList = last.turn.harvest.nodes ∧
        p.grow g phase useHeuristic patience model source
          = (.ok pushed, { q with cost := (CostModel.evaluate model q batch useHeuristic).1 },
            (CostModel.evaluate model q batch useHeuristic).2, rest) ∧
        ∀ calls, (p.grow g phase useHeuristic patience (⟨model, calls⟩ : Recorded κ N R)
          source).2.2.1.calls = calls.push ⟨q, batch, useHeuristic⟩ := by
  refine ⟨grow_nothing, fun pushed hopen hpushed => ?_⟩
  cases hexpand : expand g phase p.growth.size patience p source with
  | mk result finish =>
    obtain ⟨q, rest⟩ := finish
    cases result with
    | error failure =>
      have hfails : (p.grow g phase useHeuristic patience model source).1 = .error failure :=
        grow_failure_iff.mpr ⟨hopen, congrArg Prod.fst hexpand⟩
      exact nomatch hfails.symm.trans hpushed
    | ok done =>
      obtain ⟨picks, last, hgrown⟩ := exists_grown hopen hexpand
      have hfrozen : q.growth.frozen ≤ p.growth.size := by
        have haccounts := accounts_expand g phase p.growth.size patience p source
        rw [hexpand] at haccounts
        exact haccounts.frozen ▸ hp.frozen_le
      obtain ⟨found, hfound, hnodes⟩ := Growth.appendedSince_of_append hgrown.nodes hfrozen
      have hgrow := grow_of_expand useHeuristic model hopen hexpand ⟨_, found⟩ rfl hfound
      obtain rfl : pushed = decide (p.growth.size < q.growth.size) :=
        Except.ok.inj (hpushed.symm.trans (congrArg Prod.fst hgrow))
      refine ⟨picks, last, q, rest, ⟨_, found⟩, hgrown, ?_, rfl, hnodes, hgrow, fun calls => ?_⟩
      · rw [decide_eq_true_iff, size_of_append hgrown.nodes, Nat.lt_add_right_iff_pos,
          List.length_pos_iff]
      · rw [grow_of_expand useHeuristic (⟨model, calls⟩ : Recorded κ N R) hopen hexpand ⟨_, found⟩
          rfl hfound]
        rfl

end Grow

end Particle

namespace Sample

/-- The sample grammar with a knot, which is nothing but a place for a stem. -/
def knottedGrammar : Grammar String Binary64 :=
  grammar.define "knot" (fun node => Expansion.addBud "stem" node)

/-- A fork of a seed with a knot. -/
def knotted : Particle String Binary64 := ((Particle.seed 0 "knot" "root").fork 1 1).2

/-- The growth of a fork, whose root is history that it shares with its parent. -/
theorem knotted_grows_once : ∃ pushed, knotted.Raised ∧
    (knotted.buds .skeleton).isEmpty = false ∧
    (knotted.grow knottedGrammar .skeleton false 10 (⟨⟩ : NoCost String Binary64)
      (.cycle #[] 0 : Source)).1 = .ok pushed ∧
    ∃ picks last q rest batch,
      Particle.Grown knottedGrammar .skeleton knotted (.cycle #[] 0 : Source) picks last q rest ∧
      (pushed = true ↔ last.turn.harvest.nodes ≠ []) ∧
      batch.first = 1 ∧ batch.nodes.toList = last.turn.harvest.nodes ∧
      knotted.grow knottedGrammar .skeleton false 10 (⟨⟩ : NoCost String Binary64) (.cycle #[] 0)
        = (.ok pushed, { q with
            cost := (CostModel.evaluate (⟨⟩ : NoCost String Binary64) q batch false).1 },
          ⟨⟩, rest) ∧
      ∀ calls, (knotted.grow knottedGrammar .skeleton false 10
        (⟨⟨⟩, calls⟩ : Recorded (NoCost String Binary64) String Binary64)
        (.cycle #[] 0 : Source)).2.2.1.calls = calls.push ⟨q, batch, false⟩ := by
  have hraised : knotted.Raised := .fork (.seed 0 "knot" "root") 1 1
  have hopen : (knotted.buds .skeleton).isEmpty = false := rfl
  have hok : (knotted.grow knottedGrammar .skeleton false 10 (⟨⟩ : NoCost String Binary64)
      (.cycle #[] 0 : Source)).1.isOk = true := by decide +kernel
  obtain ⟨pushed, hpushed⟩ := Search.exists_ok hok
  exact ⟨pushed, hraised, hopen, hpushed,
    (Particle.grows_once hraised).2 pushed hopen hpushed⟩

end Sample

end Espalier
