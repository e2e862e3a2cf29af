import Espalier.Proofs.Growing

/-!
# What a cost model is shown

A growth that comes to its end is judged once, and then the model is shown the nodes it appended:
all of them, from where the particle ended before (`judgement_batch`). The nodes are taken from the
part of the particle that is not frozen, which is where a growth appends. A growth that is not
judged has appended nothing (`nodes_of_not_judged`), since only the last production of a growth
appends, and it leaves the cost as it was (`cost_grow`).
-/

namespace Espalier

variable {N R ρ κ : Type}

/-- The nodes from a place on are there to be reported when none of them is frozen. -/
theorem Growth.appendedSince_of_append {g g' : Growth N} {nodes : List N}
    (hnodes : g'.toList = g.toList ++ nodes) (hfrozen : g'.frozen ≤ g.size) :
    ∃ found, g'.appendedSince g.size = some found ∧ found.toList = nodes := by
  have hsize : g'.size = g.size + nodes.length := by
    rw [← Growth.length_toList, hnodes, List.length_append, Growth.length_toList]
  have hstart : ¬ (g.size < g'.frozen ∨ g'.size < g.size) := by omega
  have hfound : g'.appendedSince g.size = some (g'.nodes.extract g.size g'.size) := if_neg hstart
  refine ⟨_, hfound, ?_⟩
  rw [Growth.toList_appendedSince hfound, hnodes, ← Growth.length_toList, List.drop_left]

namespace Particle

variable [Scalar R] [RandomSource ρ]

/-- Expanding buds leaves the cost alone, and it fails only as long as nothing has been appended. -/
theorem expand_kept (g : Grammar N R) (phase : Phase) (start patience : Nat) (p : Particle N R)
    (source : ρ) : (expand g phase start patience p source).2.1.cost = p.cost ∧
      ∀ failure, (expand g phase start patience p source).1 = .error failure →
        (expand g phase start patience p source).2.1.growth.size = start := by
  induction patience generalizing p source with
  | zero =>
    unfold expand
    by_cases hstop : p.growth.size ≠ start ∨ (p.buds phase).isEmpty
    · rw [if_pos hstop]
      exact ⟨rfl, fun failure hfailed => absurd hfailed (by simp)⟩
    · rw [if_neg hstop]
      exact ⟨rfl, fun _ _ => Decidable.not_not.mp fun hsize => hstop (Or.inl hsize)⟩
  | succ patience ih =>
    unfold expand
    by_cases hstop : p.growth.size ≠ start ∨ (p.buds phase).isEmpty
    · rw [if_pos hstop]
      exact ⟨rfl, fun failure hfailed => absurd hfailed (by simp)⟩
    · rw [if_neg hstop]
      have hsize : p.growth.size = start := Decidable.not_not.mp fun hsize => hstop (Or.inl hsize)
      dsimp only
      cases hpick : Selection.pickUniform R (p.buds phase).size source with
      | mk index source =>
        dsimp only
        cases htake : index.bind (p.takeBud phase) with
        | none => exact ⟨rfl, fun failure hfailed => absurd hfailed (by simp)⟩
        | some taken =>
          obtain ⟨bud, q⟩ := taken
          obtain ⟨place, -, hplace⟩ := Option.bind_eq_some_iff.mp htake
          have hgrowth : q.growth = p.growth := (takeBud_spec hplace).2.2.1
          have hcost : q.cost = p.cost := cost_takeBud hplace
          dsimp only
          cases hsample : g.sample bud.rule source with
          | mk result source =>
            cases result with
            | error failure => exact ⟨hcost, fun _ _ => hgrowth ▸ hsize⟩
            | ok choice =>
              have happly : (q.apply g choice.body bud.node source).1.cost = q.cost := by
                unfold apply
                rw [perform_eq]
                rfl
              obtain ⟨hkept, hfails⟩ := ih (q.apply g choice.body bud.node source).1
                (q.apply g choice.body bud.node source).2
              exact ⟨hkept.trans (happly.trans hcost), hfails⟩

section Judged

variable [CostModel κ N R] {g : Grammar N R} {phase : Phase} {useHeuristic : Bool}
  {patience : Nat} {p : Particle N R} {source : ρ}

omit [CostModel κ N R] in
/-- The model is shown the nodes that the growth appended, and the cost of the time before. -/
theorem judgement_batch {call : CostCall N R}
    (h : p.judgement g phase useHeuristic patience source = some call)
    (hfrozen : p.growth.frozen ≤ p.growth.size) :
    call.particle.cost = p.cost ∧ call.batch.first = p.growth.size ∧
      call.batch.nodes.toList
        = Turn.nodes (expansions g phase p.growth.size patience p source) := by
  have haccounts := judgement_spec h
  have hcost := (expand_kept g phase p.growth.size patience p source).1
  unfold judgement at h
  by_cases hempty : (p.buds phase).isEmpty
  · rw [if_pos hempty] at h
    exact absurd h (by simp)
  · rw [if_neg hempty] at h
    cases hexpand : expand g phase p.growth.size patience p source with
    | mk result rest =>
      rw [hexpand] at h hcost
      cases result with
      | error failure => exact absurd h (by simp)
      | ok done =>
        obtain rfl := Option.some.inj h
        have hunfrozen : rest.1.growth.frozen ≤ p.growth.size := haccounts.frozen ▸ hfrozen
        obtain ⟨found, hfound, hnodes⟩ :=
          Growth.appendedSince_of_append haccounts.nodes hunfrozen
        refine ⟨hcost, rfl, ?_⟩
        show ((rest.1.growth.appendedSince p.growth.size).getD #[]).toList = _
        rw [hfound]
        exact hnodes

omit [CostModel κ N R] in
/-- A growth that is not judged has appended nothing. -/
theorem nodes_of_not_judged (h : p.judgement g phase useHeuristic patience source = none) :
    Turn.nodes (expansions g phase p.growth.size patience p source) = [] := by
  unfold judgement at h
  by_cases hempty : (p.buds phase).isEmpty
  · unfold expansions
    rw [if_pos (Or.inr hempty)]
    rfl
  · rw [if_neg hempty] at h
    have hnodes := (accounts_expand g phase p.growth.size patience p source).nodes
    have hkept := (expand_kept g phase p.growth.size patience p source).2
    cases hexpand : expand g phase p.growth.size patience p source with
    | mk result rest =>
      rw [hexpand] at h hnodes hkept
      cases result with
      | ok done => exact absurd h (by simp)
      | error failure =>
        have hsize : rest.1.growth.size = p.growth.size := hkept failure rfl
        have hlength := congrArg List.length hnodes
        rw [List.length_append, Growth.length_toList, Growth.length_toList, hsize] at hlength
        exact List.eq_nil_of_length_eq_zero (by omega)

/-- A growth leaves the cost that the model gives, if it comes to a judgement. -/
theorem cost_grow (model : κ) : (p.grow g phase useHeuristic patience model source).2.1.cost
    = (match p.judgement g phase useHeuristic patience source with
      | none => p.cost
      | some call => (CostModel.evaluate model call.particle call.batch call.useHeuristic).1) := by
  unfold grow judgement
  by_cases hempty : (p.buds phase).isEmpty
  · rw [if_pos hempty, if_pos hempty]
  · rw [if_neg hempty, if_neg hempty]
    have hcost := (expand_kept g phase p.growth.size patience p source).1
    dsimp only
    cases hexpand : expand g phase p.growth.size patience p source with
    | mk result rest =>
      rw [hexpand] at hcost
      cases result with
      | error failure => exact hcost
      | ok done => rfl

end Judged

end Particle

end Espalier
