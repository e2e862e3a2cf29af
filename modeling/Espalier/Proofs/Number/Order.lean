import Espalier.Proofs.Number.Shares

/-!
# The order of doubles

Every finite double is a whole number of times the least one, `2 ^ -1074`. `units` counts how many
times that is, with the infinities beyond all others, and `compare_eq` says that doubles are ordered
as these counts are. So facts about the order of doubles, which is defined by sign, exponent and
mantissa, become facts about whole numbers: `le_iff_units` and `lt_iff_units`.
-/

namespace Espalier.Binary64

open Float.Model Float.Model.UnpackedFloat

/-- The first number that no mantissa comes to with an exponent. -/
def ceiling (exponent : Nat) : Nat := 2 ^ 53 * 2 ^ exponent

theorem ceiling_eq (exponent : Nat) : ceiling exponent = 2 ^ (53 + exponent) :=
  (Nat.pow_add 2 53 exponent).symm

theorem ceiling_mono {e E : Nat} (h : e ≤ E) : ceiling e ≤ ceiling E :=
  Nat.mul_le_mul_left _ (Nat.pow_le_pow_right (by decide) h)

theorem lt_ceiling {m e E : Nat} (hm : m < 2 ^ 53) (he : e ≤ E) : m * 2 ^ e < ceiling E :=
  Nat.lt_of_lt_of_le (Nat.mul_lt_mul_of_pos_right hm (Nat.two_pow_pos e)) (ceiling_mono he)

theorem two_pow_le_ceiling (exponent : Nat) : 2 ^ exponent ≤ ceiling exponent :=
  Nat.le_mul_of_pos_left _ (by decide)

theorem ceiling_pos (exponent : Nat) : 0 < ceiling exponent :=
  Nat.mul_pos (by decide) (Nat.two_pow_pos exponent)

theorem ceiling_lt {e E : Nat} (h : e < E) : ceiling e < ceiling E :=
  Nat.mul_lt_mul_of_pos_left (Nat.pow_lt_pow_right (by decide) h) (by decide)

/-- What fills a mantissa comes to it with any greater exponent. -/
theorem ceiling_le {m e E : Nat} (hm : 2 ^ 52 ≤ m) (h : e < E) : ceiling e ≤ m * 2 ^ E := by
  calc ceiling e = 2 ^ 52 * 2 ^ (e + 1) := by
        unfold ceiling
        rw [Nat.pow_succ 2 e]
        omega
    _ ≤ m * 2 ^ E := Nat.mul_le_mul hm (Nat.pow_le_pow_right (by decide) h)

/-- More units than any finite double is. -/
def beyond : Nat := ceiling 2045

/-- How many times the least positive double a value is. -/
def units : UnpackedFloat → Int
  | .notANumber | .zero _ => 0
  | .infinity s => s.apply beyond
  | .finite s m e _ => s.apply ((m * 2 ^ (e + 1074).toNat : Nat) : Int)

theorem units_zero (s : Sign) : units (.zero s) = 0 := rfl

theorem units_positive {m : Nat} {e : Int} {pos : 0 < m} :
    units (.finite .positive m e pos) = ((m * 2 ^ (e + 1074).toNat : Nat) : Int) := rfl

theorem units_negative {m : Nat} {e : Int} {pos : 0 < m} :
    units (.finite .negative m e pos) = -((m * 2 ^ (e + 1074).toNat : Nat) : Int) := rfl

/-- Values as words stand for them have 53 digits, and their exponents are between two bounds. -/
theorem Canonical.bounds {s : Sign} {m : Nat} {e : Int} {pos : 0 < m}
    (h : Canonical (.finite s m e pos)) :
    m < 2 ^ 53 ∧ -1074 ≤ e ∧ e ≤ 971 ∧ (-1074 < e → 2 ^ 52 ≤ m) := by
  cases h with
  | subnormal _ _ high =>
    exact ⟨by omega, Int.le_refl _, by decide, fun h => absurd h (Int.lt_irrefl _)⟩
  | normal _ _ low high least greatest => exact ⟨high, least, greatest, fun _ => low⟩

/-- A value with a lesser exponent is fewer units. -/
theorem units_lt_of_exponent {m M : Nat} {e E : Int} (high : m < 2 ^ 53) (low : 2 ^ 52 ≤ M)
    (least : -1074 ≤ e) (h : e < E) :
    m * 2 ^ (e + 1074).toNat < M * 2 ^ (E + 1074).toNat := by
  exact Nat.lt_of_lt_of_le (lt_ceiling high (Nat.le_refl _)) (ceiling_le low (by omega))

/-- Positive finite values are compared as their units are. -/
theorem compare_finite {m M : Nat} {e E : Int} {pos : 0 < m} {Pos : 0 < M}
    (h : Canonical (.finite .positive m e pos)) (H : Canonical (.finite .positive M E Pos)) :
    (compare e E).then (compare m M) = compare ((m * 2 ^ (e + 1074).toNat : Nat) : Int)
      ((M * 2 ^ (E + 1074).toNat : Nat) : Int) := by
  obtain ⟨high, least, -, low⟩ := h.bounds
  obtain ⟨High, Least, -, Low⟩ := H.bounds
  rcases Int.lt_trichotomy e E with hlt | rfl | hgt
  · have hunits := units_lt_of_exponent high (Low (by omega)) least hlt
    rw [Int.compare_eq_lt.mpr hlt, Int.compare_eq_lt.mpr (Int.ofNat_lt.mpr hunits)]
    rfl
  · have hpow := Nat.two_pow_pos (e + 1074).toNat
    rw [Int.compare_eq_eq.mpr rfl]
    rcases Nat.lt_trichotomy m M with hlt | rfl | hgt
    · have hunits := Nat.mul_lt_mul_of_pos_right hlt hpow
      rw [Nat.compare_eq_lt.mpr hlt, Int.compare_eq_lt.mpr (Int.ofNat_lt.mpr hunits)]
      rfl
    · rw [Nat.compare_eq_eq.mpr rfl, Int.compare_eq_eq.mpr rfl]
      rfl
    · have hunits := Nat.mul_lt_mul_of_pos_right hgt hpow
      rw [Nat.compare_eq_gt.mpr hgt, Int.compare_eq_gt.mpr (Int.ofNat_lt.mpr hunits)]
      rfl
  · have hunits := units_lt_of_exponent High (low (by omega)) Least hgt
    rw [Int.compare_eq_gt.mpr hgt, Int.compare_eq_gt.mpr (Int.ofNat_lt.mpr hunits)]
    rfl

theorem compare_neg (a b : Int) : compare (-a) (-b) = (compare a b).swap := by
  rcases Int.lt_trichotomy a b with hlt | rfl | hgt
  · rw [Int.compare_eq_lt.mpr hlt, Int.compare_eq_gt.mpr (Int.neg_lt_neg hlt)]
    rfl
  · rw [Int.compare_eq_eq.mpr rfl, Int.compare_eq_eq.mpr rfl]
    rfl
  · rw [Int.compare_eq_gt.mpr hgt, Int.compare_eq_lt.mpr (Int.neg_lt_neg hgt)]
    rfl

/-- What a sign does not matter to. -/
theorem Canonical.withSign {s : Sign} {m : Nat} {e : Int} {pos : 0 < m}
    (h : Canonical (.finite s m e pos)) (s' : Sign) : Canonical (.finite s' m e pos) := by
  cases h with
  | subnormal _ _ high => exact .subnormal s' pos high
  | normal _ _ low high least greatest => exact .normal s' pos low high least greatest

theorem units_finite_lt {s : Sign} {m : Nat} {e : Int} {pos : 0 < m}
    (h : Canonical (.finite s m e pos)) : m * 2 ^ (e + 1074).toNat < beyond := by
  obtain ⟨high, least, greatest, -⟩ := h.bounds
  exact lt_ceiling high (by omega)

/-- Finite values are between the infinities. -/
theorem units_between {u : UnpackedFloat} (h : Canonical u) (hfinite : u.isFinite = true) :
    -(beyond : Int) < units u ∧ units u < beyond := by
  have hbeyond : 0 < beyond := ceiling_pos 2045
  cases u with
  | notANumber | infinity => exact nomatch hfinite
  | zero s =>
    rw [units_zero]
    omega
  | finite s m e pos =>
    have hlt := units_finite_lt h
    cases s with
    | positive =>
      rw [units_positive]
      omega
    | negative =>
      rw [units_negative]
      omega

theorem units_le_beyond {u : UnpackedFloat} (h : Canonical u) : units u ≤ beyond := by
  cases u with
  | notANumber => exact Int.natCast_nonneg beyond
  | zero | finite => exact Int.le_of_lt (units_between h rfl).2
  | infinity s =>
    cases s with
    | positive => exact Int.le_refl _
    | negative =>
      exact Int.le_trans (Int.neg_nonpos_of_nonneg (Int.natCast_nonneg _)) (Int.natCast_nonneg _)

/-- Values are compared as their units are. -/
theorem compare_eq {u v : UnpackedFloat} (hu : Canonical u) (hv : Canonical v)
    (hunan : u.isNaN = false) (hvnan : v.isNaN = false) :
    u.compare v = some (compare (units u) (units v)) := by
  have hlt {x y : Int} (h : x < y) : some Ordering.lt = some (compare x y) :=
    congrArg some (Int.compare_eq_lt.mpr h).symm
  have hgt {x y : Int} (h : y < x) : some Ordering.gt = some (compare x y) :=
    congrArg some (Int.compare_eq_gt.mpr h).symm
  have hbeyond : (0 : Int) < beyond := Int.natCast_pos.mpr (ceiling_pos 2045)
  have hsize {m : Nat} (e : Int) (pos : 0 < m) : (0 : Int) < (m * 2 ^ (e + 1074).toNat : Nat) :=
    Int.natCast_pos.mpr (Nat.mul_pos pos (Nat.two_pow_pos _))
  cases u with
  | notANumber => exact nomatch hunan
  | infinity s =>
    cases v with
    | notANumber => exact nomatch hvnan
    | infinity s' =>
      cases s <;> cases s'
      case positive.negative => exact hgt (Int.lt_trans (Int.neg_neg_of_pos hbeyond) hbeyond)
      case negative.positive => exact hlt (Int.lt_trans (Int.neg_neg_of_pos hbeyond) hbeyond)
      all_goals exact congrArg some (Int.compare_eq_eq.mpr rfl).symm
    | zero | finite =>
      obtain ⟨hlow, hhigh⟩ := units_between hv rfl
      cases s with
      | positive => exact hgt hhigh
      | negative => exact hlt hlow
  | zero s =>
    cases v with
    | notANumber => exact nomatch hvnan
    | zero s' => rfl
    | infinity s' =>
      cases s' with
      | positive => exact hlt hbeyond
      | negative => exact hgt (Int.neg_neg_of_pos hbeyond)
    | finite s' m e pos =>
      cases s' with
      | positive => exact hlt (hsize e pos)
      | negative => exact hgt (Int.neg_neg_of_pos (hsize e pos))
  | finite s m e pos =>
    -- Only of two finite values of the same sign are the sizes compared.
    cases v with
    | notANumber => exact nomatch hvnan
    | infinity s' =>
      obtain ⟨hlow, hhigh⟩ := units_between hu rfl
      cases s' with
      | positive => cases s <;> exact hlt hhigh
      | negative => cases s <;> exact hgt hlow
    | zero s' =>
      cases s with
      | positive => exact hgt (hsize e pos)
      | negative => exact hlt (Int.neg_neg_of_pos (hsize e pos))
    | finite s' m' e' pos' =>
      have hsame := compare_finite (hu.withSign .positive) (hv.withSign .positive)
      cases s <;> cases s'
      case positive.positive => exact congrArg some hsame
      case negative.negative =>
        refine congrArg some ?_
        rw [hsame, ← compare_neg]
        rfl
      case positive.negative =>
        exact hgt (Int.lt_trans (Int.neg_neg_of_pos (hsize e' pos')) (hsize e pos))
      case negative.positive =>
        exact hlt (Int.lt_trans (Int.neg_neg_of_pos (hsize e pos)) (hsize e' pos'))

/-! ## The order -/

variable {x y z : Binary64}

theorem le_iff_units (hx : x.isNaN = false) (hy : y.isNaN = false) :
    x ≤ y ↔ units x.unpacked ≤ units y.unpacked := by
  rw [le_iff]
  unfold UnpackedFloat.le
  rw [compare_eq x.canonical_unpacked y.canonical_unpacked (x.isNaN_eq ▸ hx) (y.isNaN_eq ▸ hy)]
  exact Int.isLE_compare

theorem lt_iff_units (hx : x.isNaN = false) (hy : y.isNaN = false) :
    x < y ↔ units x.unpacked < units y.unpacked := by
  rw [lt_iff]
  unfold UnpackedFloat.lt
  rw [compare_eq x.canonical_unpacked y.canonical_unpacked (x.isNaN_eq ▸ hx) (y.isNaN_eq ▸ hy)]
  rw [beq_iff_eq, Option.some_inj, Int.compare_eq_lt]

/-- Only numbers are in order. -/
theorem isNaN_of_le (h : x ≤ y) : x.isNaN = false ∧ y.isNaN = false := by
  rw [isNaN_eq, isNaN_eq]
  rw [le_iff] at h
  unfold UnpackedFloat.le at h
  cases hx : x.unpacked with
  | notANumber =>
    rw [hx] at h
    exact nomatch h
  | _ =>
    cases hy : y.unpacked with
    | notANumber =>
      rw [hx, hy] at h
      exact nomatch h
    | _ => exact ⟨rfl, rfl⟩

theorem le_refl (hx : x.isNaN = false) : x ≤ x := (le_iff_units hx hx).mpr (Int.le_refl _)

theorem le_trans (hxy : x ≤ y) (hyz : y ≤ z) : x ≤ z := by
  obtain ⟨hx, hy⟩ := isNaN_of_le hxy
  obtain ⟨-, hz⟩ := isNaN_of_le hyz
  rw [le_iff_units hx hy] at hxy
  rw [le_iff_units hy hz] at hyz
  rw [le_iff_units hx hz]
  exact Int.le_trans hxy hyz

theorem le_of_lt (h : x < y) : x ≤ y := by
  rw [lt_iff] at h
  rw [le_iff]
  unfold UnpackedFloat.lt at h
  unfold UnpackedFloat.le
  rw [beq_iff_eq.mp h]
  rfl

theorem not_le_of_lt (h : x < y) : ¬ y ≤ x := by
  intro hle
  obtain ⟨hy, hx⟩ := isNaN_of_le hle
  rw [le_iff_units hy hx] at hle
  rw [lt_iff_units hx hy] at h
  exact Int.not_le_of_gt h hle

/-- Of two numbers one is not above the other. -/
theorem le_of_not_lt (hx : x.isNaN = false) (hy : y.isNaN = false) (h : ¬ x < y) : y ≤ x := by
  rw [lt_iff_units hx hy] at h
  exact (le_iff_units hy hx).mpr (Int.not_lt.mp h)

theorem pos_of_one_le (h : 1 ≤ x) : 0 < x := by
  obtain ⟨hone, hx⟩ := isNaN_of_le h
  have hzero : (0 : Binary64) < 1 := by decide
  rw [lt_iff_units rfl hone] at hzero
  rw [le_iff_units hone hx] at h
  exact (lt_iff_units rfl hx).mpr (Int.lt_of_lt_of_le hzero h)

/-- A number is known by what its word stands for. -/
theorem eq_of_unpacked (h : x.unpacked = y.unpacked) (hx : x.isNaN = false) : x = y := by
  have hbits {z : Binary64} (hz : z.unpacked.isNaN = false) :
      UnpackedFloat.pack .binary64 z.unpacked = z.bits.toBitVec := by
    have hpack : UnpackedFloat.pack .binary64 z.unpacked = _ :=
      @pack_unpack .binary64 z.bits.toBitVec (by decide)
    split at hpack
    · -- A word for no number would not have come out as a number.
      have hself : unpack .binary64 (UnpackedFloat.pack .binary64 z.unpacked) = z.unpacked :=
        unpack_pack z.canonical_unpacked
      rw [← hself, hpack, unpack_packedNaN] at hz
      exact nomatch hz
    · exact hpack
  rw [isNaN_eq] at hx
  obtain ⟨⟨bits⟩⟩ := x
  obtain ⟨⟨bits'⟩⟩ := y
  have hboth := (hbits hx).symm.trans ((congrArg _ h).trans (hbits (h ▸ hx)))
  exact congrArg _ (congrArg _ hboth)

/-- What is a number is finite, unless it is one of the infinite ones. -/
theorem finite_or_infinite (x : Binary64) :
    x.isNaN = true ∨ x.isFinite = true ∨ x = infinity ∨ x = -infinity := by
  have hsame {y : Binary64} (h : x.unpacked = y.unpacked) (hnumber : y.unpacked.isNaN = false) :
      x = y := eq_of_unpacked h (by rw [isNaN_eq, h]; exact hnumber)
  cases hx : x.unpacked with
  | notANumber => exact .inl (by rw [isNaN_eq, hx]; rfl)
  | zero | finite => exact .inr (.inl (by rw [isFinite_eq, hx]; rfl))
  | infinity s =>
    cases s with
    | positive => exact .inr (.inr (.inl (hsame hx rfl)))
    | negative => exact .inr (.inr (.inr (hsame hx rfl)))

theorem isNaN_of_isFinite (h : x.isFinite = true) : x.isNaN = false := by
  rw [isFinite_eq] at h
  rw [isNaN_eq]
  generalize x.unpacked = u at h
  cases u with
  | notANumber | infinity => exact nomatch h
  | zero | finite => rfl

/-- Nothing finite is beyond what is infinite. -/
theorem isFinite_of_infinity_le (h : infinity ≤ x) : x.isFinite = false := by
  obtain ⟨hinfinity, hx⟩ := isNaN_of_le h
  rw [le_iff_units hinfinity hx] at h
  rw [isFinite_eq, Bool.eq_false_iff]
  exact fun hfinite => absurd h (Int.not_le_of_gt (units_between x.canonical_unpacked hfinite).2)

end Espalier.Binary64
