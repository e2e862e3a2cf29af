import Espalier.Grammar

/-!
# Drawing a choice

A choice of a rule is drawn by adding up its weights until a share of their total is reached. The
total was added up in the same way (`Rule.Summed`), so the sum over all choices is the total itself,
and a choice is found as soon as no share exceeds the whole: `exists_sample`. Rounding does not
matter here, whatever it does to the sum.

The other outcomes are a name without a rule (`sample_of_none`) and a share that no sum comes to
(`sample_of_not_found`).
-/

namespace Espalier

variable {N R ρ : Type}

namespace Selection

/-- Weights that add up to the target or more come to it somewhere. -/
theorem exists_reachedAt [Arithmetic R] {target : R} {weights : List R} (hne : weights ≠ [])
    (reached : R) (h : target ≤ weights.foldl (· + ·) reached) :
    ∃ index < weights.length, reachedAt target reached weights = some index := by
  induction weights generalizing reached with
  | nil => exact absurd rfl hne
  | cons weight weights ih =>
    unfold reachedAt
    dsimp only
    by_cases hnow : target ≤ reached + weight
    · rw [if_pos hnow]
      exact ⟨0, Nat.succ_pos _, rfl⟩
    · rw [if_neg hnow]
      cases weights with
      | nil => exact absurd h hnow
      | cons next weights =>
        obtain ⟨index, hlt, hindex⟩ := ih (List.cons_ne_nil _ _) (reached + weight) h
        rw [hindex]
        exact ⟨index + 1, Nat.succ_lt_succ hlt, rfl⟩

/-- A target that nothing comes to is not found. -/
theorem reachedAt_eq_none [Arithmetic R] {target : R} (h : ∀ reached, ¬ target ≤ reached)
    (weights : List R) (reached : R) : reachedAt target reached weights = none := by
  induction weights generalizing reached with
  | nil => rfl
  | cons weight weights ih =>
    unfold reachedAt
    dsimp only
    rw [if_neg (h _), ih]
    rfl

end Selection

/-- The total of a rule is what its weights come to when they are added up one after the other. -/
def Rule.Summed [Arithmetic R] (rule : Rule N R) : Prop :=
  rule.totalWeight = rule.weights.foldl (· + ·) 0

theorem Rule.summed_empty [Arithmetic R] : (empty : Rule N R).Summed := rfl

theorem Rule.weights_push [Arithmetic R] (rule : Rule N R) (weight : R) (body : Production N) :
    (rule.push weight body).weights = rule.weights ++ [weight] := by
  unfold Rule.weights Rule.push
  rw [Array.toList_push, List.map_append]
  rfl

theorem Rule.Summed.push [Arithmetic R] {rule : Rule N R} (h : rule.Summed) (weight : R)
    (body : Production N) : (rule.push weight body).Summed := by
  unfold Rule.Summed at h ⊢
  rw [Rule.weights_push, List.foldl_append, ← h]
  rfl

theorem Grammar.contains_iff {g : Grammar N R} {name : String} :
    g.contains name = true ↔ g.rule? name ≠ none := by
  unfold contains rule?
  rw [← Std.ExtTreeMap.mem_iff_contains, Std.ExtTreeMap.mem_iff_isSome_getElem?,
    Option.isSome_iff_ne_none]

/-- A name without a rule is unknown, and nothing is drawn for it. -/
theorem Grammar.sample_of_none [Arithmetic R] [RandomSource ρ] {g : Grammar N R} {name : String}
    (hrule : g.rule? name = none) (source : ρ) :
    g.sample name source = (.error (.unknownRule name), source) := by
  unfold sample sampleIndex
  rw [hrule]

/-- Where a share of the total is not found, nothing is selected. -/
theorem Grammar.sample_of_not_found [Arithmetic R] [RandomSource ρ] {g : Grammar N R}
    {name : String} {rule : Rule N R} (hrule : g.rule? name = some rule) (source : ρ)
    (hindex : rule.indexFor (unitShare (RandomSource.next source).1) = none) :
    (g.sample name source).1 = .error (.noChoice name) := by
  unfold sample sampleIndex drawShare
  rw [hrule]
  dsimp only
  rw [hindex]

/-- Where a share does not exceed the total, a rule with choices is not left without one. -/
theorem Grammar.exists_sample [Arithmetic R] [RandomSource ρ] {g : Grammar N R} {name : String}
    {rule : Rule N R} (hrule : g.rule? name = some rule) (hsummed : rule.Summed)
    (hne : rule.choices ≠ #[]) (source : ρ)
    (hshare : unitShare (RandomSource.next source).1 * rule.totalWeight ≤ rule.totalWeight) :
    ∃ choice ∈ rule.choices, (g.sample name source).1 = .ok choice := by
  have hweights : rule.weights ≠ [] := by
    unfold Rule.weights
    rw [Ne, List.map_eq_nil_iff, Array.toList_eq_nil_iff]
    exact hne
  rw [hsummed] at hshare
  obtain ⟨index, hlt, hindex⟩ := Selection.exists_reachedAt hweights 0 hshare
  have hfound : rule.indexFor (unitShare (RandomSource.next source).1) = some index := by
    unfold Rule.indexFor
    rw [hsummed]
    exact hindex
  unfold Rule.weights at hlt
  rw [List.length_map, Array.length_toList] at hlt
  refine ⟨rule.choices[index], Array.getElem_mem hlt, ?_⟩
  unfold sample sampleIndex drawShare
  rw [hrule]
  dsimp only
  rw [hfound]
  dsimp only
  rw [Option.bind_some, Array.getElem?_eq_getElem hlt]

end Espalier
