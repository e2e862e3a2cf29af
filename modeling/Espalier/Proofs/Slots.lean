import Mathlib.Algebra.Order.BigOperators.Group.List
import Mathlib.Tactic.Linarith
import Mathlib.Tactic.NormNum
import Mathlib.Tactic.Positivity
import Mathlib.Tactic.Ring
import Espalier.Proofs.Grammar
import Espalier.Proofs.Number.Exact

/-!
# Two scans of the weights

A share of the total is turned into a place in two ways: a rule adds its weights up until they come
to the share (`reachedAt`), and resampling takes the weights away from it until nothing is left
(`spentAt`). Without rounding, what is left in one scan is what is missing in the other, so at every
weight both stop or both go on (`spentAt_eq_reachedAt`).

The weights divide their total into slots, one after the other, and a scan stops in the slot that
the share is in (`spentAt_eq_some_iff`). A slot has its upper end but not its lower one, except for
the first, which has both. So all of the total is in some slot, no scan comes to its end, and a slot
is as long as its weight (`scans_agree`).
-/

namespace Espalier

open scoped Exact

/-- Without rounding, the share a word stands for is in the unit interval. -/
theorem unitShare_mem (word : UInt64) : 0 ≤ (unitShare word : ℚ) ∧ (unitShare word : ℚ) < 1 := by
  have hshift : (word >>> 11).toNat = word.toNat / 2 ^ 11 := by
    rw [UInt64.toNat_shiftRight, Nat.shiftRight_eq_div_pow]
    rfl
  have hlt : (word >>> 11).toNat < 0x20000000000000 := by
    have hword := word.toNat_lt
    omega
  unfold unitShare
  exact ⟨by positivity, (div_lt_one (by norm_num)).mpr (Nat.cast_lt.mpr hlt)⟩

namespace Selection

/-! ## Slots -/

/-- What the weights before a place add up to. -/
def below (weights : List ℚ) (place : Nat) : ℚ := (weights.take place).sum

/-- Whether an amount is in the slot of a place: it is more than the weights before it, but not more
than these and its own. Nothing at all is in the first slot. -/
structure InSlot (weights : List ℚ) (amount : ℚ) (place : Nat) : Prop where
  lt_length : place < weights.length
  above : below weights place < amount ∨ place = 0 ∧ amount = 0
  within : amount ≤ below weights (place + 1)

theorem below_cons (weight : ℚ) (weights : List ℚ) (place : Nat) :
    below (weight :: weights) (place + 1) = weight + below weights place := by
  unfold below
  rw [List.take_succ_cons, List.sum_cons]

theorem below_length (weights : List ℚ) : below weights weights.length = weights.sum := by
  unfold below
  rw [List.take_length]

theorem below_nonneg {weights : List ℚ} (h : ∀ weight ∈ weights, 0 < weight) (place : Nat) :
    0 ≤ below weights place :=
  List.sum_nonneg fun weight hweight => (h weight (List.mem_of_mem_take hweight)).le

/-- A slot is as long as the weight at its place. -/
theorem below_succ {weights : List ℚ} {place : Nat} {weight : ℚ}
    (h : weights[place]? = some weight) :
    below weights (place + 1) = below weights place + weight := by
  unfold below
  rw [List.take_add_one, h, List.sum_append, Option.toList_some, List.sum_singleton]

theorem inSlot_zero_iff {weight : ℚ} {weights : List ℚ} {amount : ℚ} (h : 0 ≤ amount) :
    InSlot (weight :: weights) amount 0 ↔ amount ≤ weight := by
  have hend : below (weight :: weights) (0 + 1) = weight :=
    (below_cons weight weights 0).trans (add_zero weight)
  constructor
  · intro hslot
    exact hend ▸ hslot.within
  · intro hle
    refine ⟨Nat.succ_pos _, ?_, hend.symm ▸ hle⟩
    rcases h.eq_or_lt with hzero | hpos
    · exact .inr ⟨rfl, hzero.symm⟩
    · exact .inl hpos

/-- What is in a later slot is there when the first weight has been taken away. -/
theorem inSlot_succ_iff {weight : ℚ} {weights : List ℚ} (h : ∀ weight ∈ weights, 0 < weight)
    {amount : ℚ} {place : Nat} :
    InSlot (weight :: weights) amount (place + 1)
      ↔ weight < amount ∧ InSlot weights (amount - weight) place := by
  have hbelow := below_nonneg h place
  have hstart := below_cons weight weights place
  have hend := below_cons weight weights (place + 1)
  constructor
  · rintro ⟨hlt, habove, hwithin⟩
    obtain hmore | ⟨hplace, -⟩ := habove
    · exact ⟨by linarith, Nat.lt_of_succ_lt_succ hlt, .inl (by linarith), by linarith⟩
    · exact nomatch hplace
  · rintro ⟨hmore, hlt, habove, hwithin⟩
    refine ⟨Nat.succ_lt_succ hlt, .inl ?_, by linarith⟩
    obtain hmore' | ⟨-, hnone⟩ := habove
    · linarith
    · exact absurd hmore (by linarith)

/-! ## Scans -/

/-- Adding up from what was reached, and taking away from what is missing to the target, come to the
same place. -/
theorem spentAt_eq_reachedAt (weights : List ℚ) (reached roll : ℚ) :
    spentAt weights roll = reachedAt (reached + roll) reached weights := by
  induction weights generalizing reached roll with
  | nil => rfl
  | cons weight weights ih =>
    have hstop : roll - weight ≤ 0 ↔ reached + roll ≤ reached + weight := by
      rw [sub_nonpos, add_le_add_iff_left]
    have hmissing : reached + weight + (roll - weight) = reached + roll := by ring
    unfold spentAt reachedAt
    dsimp only
    rw [ih (reached + weight), hmissing]
    by_cases h : roll - weight ≤ 0
    · rw [if_pos h, if_pos (hstop.mp h)]
    · rw [if_neg h, if_neg (mt hstop.mpr h)]

/-- A roll is used up in the slot that it is in. -/
theorem spentAt_eq_some_iff {weights : List ℚ} (h : ∀ weight ∈ weights, 0 < weight) {roll : ℚ}
    (hroll : 0 ≤ roll) {place : Nat} :
    spentAt weights roll = some place ↔ InSlot weights roll place := by
  induction weights generalizing roll place with
  | nil => exact ⟨nofun, fun hslot => absurd hslot.lt_length (Nat.not_lt_zero place)⟩
  | cons weight weights ih =>
    obtain ⟨-, hweights⟩ := List.forall_mem_cons.mp h
    unfold spentAt
    dsimp only
    by_cases hspent : roll - weight ≤ 0
    · rw [if_pos hspent, Option.some.injEq]
      have hle : roll ≤ weight := sub_nonpos.mp hspent
      cases place with
      | zero => exact iff_of_true rfl ((inSlot_zero_iff hroll).mpr hle)
      | succ place =>
        refine iff_of_false nofun fun hslot => ?_
        exact absurd ((inSlot_succ_iff hweights).mp hslot).1 hle.not_gt
    · rw [if_neg hspent, Option.map_eq_some_iff]
      have hmore : 0 < roll - weight := lt_of_not_ge hspent
      cases place with
      | zero =>
        refine iff_of_false (fun ⟨_, _, hnone⟩ => nomatch hnone) fun hslot => ?_
        exact absurd ((inSlot_zero_iff hroll).mp hslot) (sub_pos.mp hmore).not_ge
      | succ place =>
        rw [inSlot_succ_iff hweights, and_iff_right (sub_pos.mp hmore), ← ih hweights hmore.le]
        exact ⟨fun ⟨_, hplace, hsucc⟩ => Nat.succ.inj hsucc ▸ hplace,
          fun hplace => ⟨_, hplace, rfl⟩⟩

/-- Where the roll is used up, the choice is made. -/
theorem weightedIndex_of_spentAt {weights : List ℚ} (hne : weights ≠ []) {sum share : ℚ}
    {place : Nat} (h : spentAt weights (share * sum) = some place) :
    weightedIndex weights sum share = some place := by
  unfold weightedIndex
  rw [if_neg (by simpa using hne), h]
  rfl

/-- A roll that is not more than all weights is used up at one of them. -/
theorem exists_spentAt {weights : List ℚ} (hne : weights ≠ []) {roll : ℚ}
    (h : roll ≤ weights.sum) : ∃ place, spentAt weights roll = some place := by
  have hsum : weights.foldl (· + ·) 0 = weights.sum := List.sum_eq_foldl.symm
  obtain ⟨place, -, hplace⟩ := exists_reachedAt hne 0 (hsum.symm ▸ h)
  exact ⟨place, by rw [spentAt_eq_reachedAt weights 0 roll, zero_add]; exact hplace⟩

end Selection

namespace Rule

open Selection

variable {N : Type}

/-- A rule finds the choice at which its share of the total would be used up. -/
theorem indexFor_eq_spentAt (rule : Rule N ℚ) (share : ℚ) :
    rule.indexFor share = spentAt rule.weights (share * rule.totalWeight) := by
  rw [spentAt_eq_reachedAt _ 0, zero_add]
  rfl

/-- The share of the total at which the slot of a place begins. -/
def edge (rule : Rule N ℚ) (place : Nat) : ℚ := below rule.weights place / rule.totalWeight

/-- Both scans turn a share of the total into the place whose slot it is in. -/
structure Slotted (rule : Rule N ℚ) : Prop where
  /-- Every share is in one slot. -/
  unique : ∀ share, 0 ≤ share → share < 1 →
    ∃! place, InSlot rule.weights (share * rule.totalWeight) place
  adding : ∀ share, 0 ≤ share → share < 1 → ∀ place,
    rule.indexFor share = some place ↔ InSlot rule.weights (share * rule.totalWeight) place
  /-- The roll is used up at some weight, so the last place is never a last resort. -/
  taking : ∀ share, 0 ≤ share → share < 1 → ∀ place,
    spentAt rule.weights (share * rule.totalWeight) = some place
      ↔ InSlot rule.weights (share * rule.totalWeight) place
  agree : ∀ share, 0 ≤ share → share < 1 →
    weightedIndex rule.weights rule.totalWeight share = rule.indexFor share
  /-- So resampling draws what the rule finds for the same word. -/
  drawn : ∀ {ρ : Type} [RandomSource ρ] (source : ρ),
    pickWeighted rule.weights rule.totalWeight source
      = (rule.indexFor (unitShare (RandomSource.next source).1), (RandomSource.next source).2)
  /-- The slots are intervals of shares. -/
  interval : ∀ share, 0 ≤ share → share < 1 → ∀ place < rule.weights.length,
    rule.indexFor share = some place
      ↔ (rule.edge place < share ∨ place = 0 ∧ share = 0) ∧ share ≤ rule.edge (place + 1)
  edges : rule.edge 0 = 0 ∧ rule.edge rule.weights.length = 1
  length : ∀ place weight, rule.weights[place]? = some weight →
    rule.edge (place + 1) - rule.edge place = weight / rule.totalWeight

/-- Without rounding, adding positive weights up and taking them away find the same place for every
share of their total: that of the slot the share is in. -/
theorem scans_agree {rule : Rule N ℚ} (hne : rule.weights ≠ [])
    (hpos : ∀ weight ∈ rule.weights, 0 < weight)
    (htotal : rule.totalWeight = rule.weights.sum) : rule.Slotted := by
  have htotal_pos : 0 < rule.totalWeight := htotal ▸ List.sum_pos _ hpos hne
  have hspent {share : ℚ} (h : share < 1) :
      ∃ place, spentAt rule.weights (share * rule.totalWeight) = some place :=
    exists_spentAt hne (htotal ▸ mul_le_of_le_one_left htotal_pos.le h.le)
  have htaking {share : ℚ} (h : 0 ≤ share) (place : Nat) :
      spentAt rule.weights (share * rule.totalWeight) = some place
        ↔ InSlot rule.weights (share * rule.totalWeight) place :=
    spentAt_eq_some_iff hpos (mul_nonneg h htotal_pos.le)
  have hagree {share : ℚ} (h : share < 1) :
      weightedIndex rule.weights rule.totalWeight share = rule.indexFor share := by
    obtain ⟨place, hplace⟩ := hspent h
    rw [weightedIndex_of_spentAt hne hplace, indexFor_eq_spentAt, hplace]
  constructor
  case unique =>
    intro share hnonneg hlt
    obtain ⟨place, hplace⟩ := hspent hlt
    refine ⟨place, (htaking hnonneg place).mp hplace, fun other hother => ?_⟩
    have hsame := (htaking hnonneg other).mpr hother
    exact Option.some.inj (hsame.symm.trans hplace)
  case adding =>
    intro share hnonneg _ place
    rw [indexFor_eq_spentAt]
    exact htaking hnonneg place
  case taking => exact fun share hnonneg _ place => htaking hnonneg place
  case agree => exact fun share _ hlt => hagree hlt
  case drawn =>
    intro ρ _ source
    unfold pickWeighted
    rw [if_neg (by simpa using hne)]
    exact Prod.ext (hagree (unitShare_mem _).2) rfl
  case interval =>
    intro share hnonneg _ place hplace
    unfold edge
    rw [indexFor_eq_spentAt, htaking hnonneg, div_lt_iff₀ htotal_pos, le_div_iff₀ htotal_pos]
    have hzero : share * rule.totalWeight = 0 ↔ share = 0 :=
      mul_eq_zero_iff_right htotal_pos.ne'
    rw [← hzero]
    exact ⟨fun hslot => ⟨hslot.above, hslot.within⟩, fun ⟨habove, hwithin⟩ =>
      ⟨hplace, habove, hwithin⟩⟩
  case edges =>
    unfold edge
    rw [below_length, ← htotal]
    exact ⟨zero_div _, div_self htotal_pos.ne'⟩
  case length =>
    intro place weight hweight
    unfold edge
    rw [← sub_div, below_succ hweight, add_sub_cancel_left]

/-- A rule with two choices, of which the second is three times as likely as the first. -/
def lopsided : Rule String ℚ := (empty.push 1 .absent).push 3 .absent

/-- The first of the two is drawn up to a quarter and no further. -/
theorem scans_agree_lopsided : lopsided.weights ≠ [] ∧ (∀ weight ∈ lopsided.weights, 0 < weight) ∧
    lopsided.totalWeight = lopsided.weights.sum ∧
    weightedIndex lopsided.weights lopsided.totalWeight (1 / 4) = some 0 ∧
    weightedIndex lopsided.weights lopsided.totalWeight (13 / 50) = some 1 := by
  have hne : lopsided.weights ≠ [] := by decide
  have hpos : ∀ weight ∈ lopsided.weights, 0 < weight := by decide
  have htotal : lopsided.totalWeight = lopsided.weights.sum := by decide +kernel
  have hslotted := scans_agree hne hpos htotal
  refine ⟨hne, hpos, htotal, ?_, ?_⟩
  · rw [hslotted.agree _ (by norm_num) (by norm_num),
      hslotted.interval _ (by norm_num) (by norm_num) 0 (by decide)]
    decide +kernel
  · rw [hslotted.agree _ (by norm_num) (by norm_num),
      hslotted.interval _ (by norm_num) (by norm_num) 1 (by decide)]
    decide +kernel

end Rule

end Espalier
