import Espalier.Proofs.Number.Sums

/-!
# Totals of weights

What the total of a list is like when no number in it is below zero. It is not less than any of
them (`le_total`), however it is rounded. When they are at most one it is finite (`isFinite_total`):
a sum that has come to `2 ^ 54` stays there when such a number is added (`Capped.add`).

Of a total a share is taken. It does not exceed the total, unless the total is infinite and nothing
is taken of it, since nothing times infinity is no number (`unitShare_mul_cases`). Of a total that
is one or more it is zero only for the least words (`unitShare_mul_nonpos_iff`).
-/

namespace Espalier.Binary64

open Float.Model Float.Model.UnpackedFloat

variable {x y : Binary64} {weights : List Binary64}

theorem add_nonneg (hx : 0 ≤ x) (hy : 0 ≤ y) : 0 ≤ x + y := atLeastZero_iff.mpr (sum_add hx hy).sign

/-- A sum is not less than where it starts, and not less than anything that is added. -/
theorem foldl_bounds (h : ∀ w ∈ weights, 0 ≤ w) {start : Binary64} (hstart : 0 ≤ start) :
    start ≤ weights.foldl (· + ·) start ∧ ∀ w ∈ weights, w ≤ weights.foldl (· + ·) start := by
  induction weights generalizing start with
  | nil => exact ⟨le_refl (isNaN_of_le hstart).2, nofun⟩
  | cons weight weights ih =>
    obtain ⟨hweight, hweights⟩ := List.forall_mem_cons.mp h
    obtain ⟨hbefore, hafter⟩ := le_add hstart hweight
    obtain ⟨hle, hall⟩ := ih hweights (add_nonneg hstart hweight)
    exact ⟨le_trans hbefore hle, List.forall_mem_cons.mpr ⟨le_trans hafter hle, hall⟩⟩

theorem le_total (h : ∀ w ∈ weights, 0 ≤ w) : ∀ w ∈ weights, w ≤ total weights := by
  cases weights with
  | nil => exact nofun
  | cons weight weights =>
    obtain ⟨hweight, hweights⟩ := List.forall_mem_cons.mp h
    exact List.forall_mem_cons.mpr (foldl_bounds hweights hweight)

/-! ## Totals of numbers up to one -/

/-- A number is at most `2 ^ 54`, which adding numbers up to one does not lead beyond. -/
structure Capped (x : Binary64) : Prop where
  nonneg : 0 ≤ x
  high : units x.unpacked ≤ ceiling (53 + 1022)

theorem unpacked_one :
    (1 : Binary64).unpacked = .finite .positive (2 ^ 52) (-52) (by decide) := rfl

theorem units_of_le_one (h : x ≤ 1) : units x.unpacked < (2 ^ (53 + 1022) : Nat) := by
  rw [le_iff_units (isNaN_of_le h).1 (isNaN_of_le h).2, unpacked_one, units_positive] at h
  refine Int.lt_of_le_of_lt h (Int.ofNat_lt.mpr ?_)
  rw [← ceiling_eq]
  exact lt_ceiling (by decide) (Nat.le_refl 1022)

namespace Capped

theorem of_le_one (hx : 0 ≤ x) (h : x ≤ 1) : Capped x := by
  have hunits := Int.le_of_lt (units_of_le_one h)
  exact ⟨hx, Int.le_trans hunits (Int.ofNat_le.mpr (two_pow_le_ceiling _))⟩

theorem add (hx : Capped x) (hy : 0 ≤ y) (h : y ≤ 1) : Capped (x + y) :=
  ⟨add_nonneg hx.nonneg hy,
    (sum_add hx.nonneg hy).high (53 + 1022) (by decide) hx.high (units_of_le_one h)⟩

theorem isFinite (h : Capped x) : x.isFinite = true := by
  have hhigh := h.high
  have hsign := atLeastZero_iff.mp h.nonneg
  rw [isFinite_eq]
  generalize x.unpacked = u at hhigh hsign
  cases hsign with
  | zero | finite => rfl
  | infinity =>
    exact absurd (Int.ofNat_le.mp hhigh) (Nat.not_le_of_lt (ceiling_lt (by decide)))

theorem foldl (h : ∀ w ∈ weights, 0 ≤ w ∧ w ≤ 1) (hx : Capped x) :
    Capped (weights.foldl (· + ·) x) := by
  induction weights generalizing x with
  | nil => exact hx
  | cons weight weights ih =>
    obtain ⟨⟨hweight, hone⟩, hweights⟩ := List.forall_mem_cons.mp h
    exact ih hweights (hx.add hweight hone)

end Capped

theorem isFinite_total (h : ∀ w ∈ weights, 0 ≤ w ∧ w ≤ 1) : (total weights).isFinite = true := by
  cases weights with
  | nil => rfl
  | cons weight weights =>
    obtain ⟨⟨hweight, hone⟩, hweights⟩ := List.forall_mem_cons.mp h
    exact (Capped.foldl hweights (.of_le_one hweight hone)).isFinite

theorem foldl_eq_zero (h : ∀ w ∈ weights, w = 0) : weights.foldl (· + ·) (0 : Binary64) = 0 := by
  induction weights with
  | nil => rfl
  | cons weight weights ih =>
    obtain ⟨rfl, hweights⟩ := List.forall_mem_cons.mp h
    exact ih hweights

theorem total_eq_zero (h : ∀ w ∈ weights, w = 0) : total weights = 0 := by
  cases weights with
  | nil => rfl
  | cons weight weights =>
    obtain ⟨rfl, hweights⟩ := List.forall_mem_cons.mp h
    exact foldl_eq_zero hweights

/-! ## Shares of a total -/

theorem pos_of_repacked {m : Nat} {e : Int} (pos : 0 < m) (low : 2 ^ 52 ≤ m) (high : m < 2 ^ 53)
    (least : -1074 ≤ e) (h : x.unpacked = repacked (.finite .positive m e pos)) : 0 < x := by
  rw [lt_iff, h]
  rcases repacked_full .positive pos low high least with hsame | hinfinity
  · rw [hsame]
    rfl
  · rw [hinfinity]
    rfl

/-- A number that is not below zero and not above it is a zero. -/
theorem exists_zero (h : 0 ≤ x) (hpos : ¬ 0 < x) : ∃ s, x.unpacked = .zero s := by
  have hsign := atLeastZero_iff.mp h
  rw [lt_iff] at hpos
  generalize x.unpacked = u at hsign hpos ⊢
  cases hsign with
  | zero s => exact ⟨s, rfl⟩
  | finite | infinity => exact absurd rfl hpos

/-- A finite number that is one or more has a full mantissa. -/
theorem exists_full (h : 1 ≤ x) (hfinite : x.isFinite = true) :
    ∃ m e, ∃ pos : 0 < m, x.unpacked = .finite .positive m e pos ∧ 2 ^ 52 ≤ m ∧ -52 ≤ e := by
  have hcanonical := x.canonical_unpacked
  rw [le_iff_units (isNaN_of_le h).1 (isNaN_of_le h).2, unpacked_one, units_positive] at h
  rw [isFinite_eq] at hfinite
  have hpos : 0 < 2 ^ 52 * 2 ^ ((-52 : Int) + 1074).toNat :=
    Nat.mul_pos (Nat.two_pow_pos _) (Nat.two_pow_pos _)
  generalize x.unpacked = u at hcanonical hfinite h ⊢
  cases u with
  | notANumber | infinity => exact nomatch hfinite
  | zero s =>
    rw [units_zero] at h
    omega
  | finite s m e pos =>
    cases s with
    | negative =>
      rw [units_negative] at h
      omega
    | positive =>
      obtain ⟨high, least, -, low⟩ := hcanonical.bounds
      -- With a lesser exponent there would be too few units for one.
      have hleast : -52 ≤ e := Int.not_lt.mp fun hlt =>
        absurd (Int.ofNat_le.mp h) (Nat.not_le_of_lt
          (units_lt_of_exponent high (Nat.le_refl _) least hlt))
      exact ⟨m, e, pos, rfl, low (by omega), hleast⟩

/-- A share of a finite number that is one or more is not lost to rounding. -/
theorem unitShare_mul_pos (h : 1 ≤ x) (hfinite : x.isFinite = true) {word : UInt64}
    (hword : ¬ word < 2048) : 0 < unitShare word * x := by
  obtain ⟨M, E, Pos, hx, Low, Least⟩ := exists_full h hfinite
  rcases unpacked_unitShare word with ⟨hsmall, -⟩ | ⟨-, m, e, pos, hshare, low, high, least, -⟩
  · exact absurd hsmall hword
  have hmul : (unitShare word * x).unpacked
      = repacked (roundWithAccuracy .binary64 .positive (m * M) (e + E) .exact) := by
    rw [unpacked_mul (by rw [hshare]; rfl) (by rw [hx]; rfl), hshare, hx]
    rfl
  -- The product has digits enough to fill a mantissa again, with an exponent far from the least.
  have hproduct : 2 ^ 52 * 2 ^ 52 ≤ m * M := Nat.mul_le_mul low Low
  have hlog : 104 ≤ (m * M).log2 := (Nat.le_log2 (by omega)).mpr hproduct
  obtain ⟨k, q, hk, -, hle, hfull, hround⟩ := exists_rounded (e := e + E) .positive
    (show 0 < m * M by omega) (show 52 ≤ (m * M).log2 by omega)
  have hq : 2 ^ 52 ≤ q := hfull (by omega)
  rw [hround, dif_neg (show q ≠ 0 by omega)] at hmul
  by_cases hfits : q < 2 ^ 53
  · rw [if_pos hfits] at hmul
    exact pos_of_repacked _ hq hfits (by omega) hmul
  · rw [if_neg hfits] at hmul
    exact pos_of_repacked _ (Nat.le_refl _) (by decide) (by omega) hmul

/-- A share of a finite number that is one or more is above zero, but for the least one. -/
theorem unitShare_mul_nonpos_iff (h : 1 ≤ x) (hfinite : x.isFinite = true) {word : UInt64} :
    unitShare word * x ≤ 0 ↔ word < 2048 := by
  constructor
  · intro hle
    by_contra hword
    exact not_le_of_lt (unitShare_mul_pos h hfinite hword) hle
  · intro hword
    obtain ⟨m, e, pos, hx, -⟩ := exists_full h hfinite
    rcases unpacked_unitShare word with ⟨-, hshare⟩ | ⟨hlarge, -⟩
    · rw [le_iff, unpacked_mul (by rw [hshare]; rfl) (by rw [hx]; rfl), hshare, hx]
      exact (unpack_pack (.zero .positive)).symm ▸ rfl
    · exact absurd hword hlarge

/-- A share of a sum is not greater than the sum, unless nothing is taken of an infinite one. -/
theorem unitShare_mul_cases (hx : 0 ≤ x) (word : UInt64) :
    (x.isFinite = false ∧ word < 2048) ∧ (unitShare word * x).unpacked = .notANumber ∨
      ¬ (x.isFinite = false ∧ word < 2048) ∧ unitShare word * x ≤ x := by
  obtain ⟨u, hvalue⟩ : ∃ u, x.unpacked = u := ⟨_, rfl⟩
  have hfinite : x.isFinite = u.isFinite := hvalue ▸ x.isFinite_eq
  rw [hfinite]
  rw [atLeastZero_iff, hvalue] at hx
  cases hx with
  | finite pos => exact .inr ⟨fun h => Bool.noConfusion h.1, unitShare_mul_le hvalue word⟩
  | zero s =>
    refine .inr ⟨fun h => Bool.noConfusion h.1, ?_⟩
    have hzero : (unitShare word * x).unpacked = .zero (Sign.positive * s) := by
      rcases unpacked_unitShare word with ⟨-, hshare⟩ | ⟨-, m, e, pos, hshare, -⟩
      all_goals
        rw [unpacked_mul (by rw [hshare]; rfl) (by rw [hvalue]; rfl), hshare, hvalue]
        exact repacked_eq (.zero (Sign.positive * s))
    rw [le_iff, hzero, hvalue]
    rfl
  | infinity =>
    rcases unpacked_unitShare word with ⟨hword, hshare⟩ | ⟨hword, m, e, pos, hshare, -⟩
    · refine .inl ⟨⟨rfl, hword⟩, ?_⟩
      rw [unpacked_mul (by rw [hshare]; rfl) (by rw [hvalue]; rfl), hshare, hvalue]
      rfl
    · refine .inr ⟨fun h => hword h.2, ?_⟩
      rw [le_iff, unpacked_mul (by rw [hshare]; rfl) (by rw [hvalue]; rfl), hshare, hvalue]
      exact (unpack_pack (.infinity .positive)).symm ▸ rfl

end Espalier.Binary64
