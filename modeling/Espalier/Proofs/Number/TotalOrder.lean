import Espalier.Proofs.Number.Order

/-!
# The order of all doubles

Numbers are ordered by size, but zeros of both signs are equal in that order and values that are no
numbers have no place in it. `InOrder` is the total order of IEEE 754, which has a place for every
word: negative zero comes before zero, and what is no number comes before or after all numbers by
its sign, and among its like by its payload.

`rank` reads a word as a whole number, and `rank_le_iff` says that this is the total order. The
words of positive numbers count up as the numbers grow (`unitsOf_strictMono`), across the borders
between exponents as well, and those of negative ones count down.
-/

namespace Espalier.Binary64

open Float.Model Float.Model.UnpackedFloat

/-- A word without its sign. -/
def digits (x : Binary64) : Nat := x.bits.toNat % 2 ^ 63

/-- What a value carries that is no number. The first bit tells quiet values from signalling
ones. -/
def payload (x : Binary64) : Nat := (x.bits &&& 0xfffffffffffff).toNat

/-- The total order of IEEE 754: two values in order are the same or stand in one of these ways. -/
inductive InOrder : Binary64 → Binary64 → Prop where
  | refl (x : Binary64) : InOrder x x
  /-- Numbers are ordered by size. -/
  | less {x y : Binary64} (lt : x < y) : InOrder x y
  | zeros : InOrder (-0) 0
  /-- A negative value that is none comes before all numbers. -/
  | before {x y : Binary64} (none : x.isNaN = true) (negative : x.isNegative = true)
    (number : y.isNaN = false) : InOrder x y
  /-- A positive value that is none comes after all numbers. -/
  | after {x y : Binary64} (number : x.isNaN = false) (none : y.isNaN = true)
    (positive : y.isNegative = false) : InOrder x y
  | across {x y : Binary64} (none : x.isNaN = true) (negative : x.isNegative = true)
    (none' : y.isNaN = true) (positive : y.isNegative = false) : InOrder x y
  /-- Positive values that are none are ordered by payload, so signalling ones come first. -/
  | up {x y : Binary64} (none : x.isNaN = true) (positive : x.isNegative = false)
    (none' : y.isNaN = true) (positive' : y.isNegative = false) (lt : x.payload < y.payload) :
    InOrder x y
  /-- Negative ones are ordered the other way round. -/
  | down {x y : Binary64} (none : x.isNaN = true) (negative : x.isNegative = true)
    (none' : y.isNaN = true) (negative' : y.isNegative = true) (lt : y.payload < x.payload) :
    InOrder x y

/-! ## Words -/

variable {x y : Binary64}

theorem isNegative_iff (x : Binary64) : x.isNegative = true ↔ 2 ^ 63 ≤ x.bits.toNat := by
  unfold isNegative
  rw [decide_eq_true_iff, UInt64.le_iff_toNat_le]
  rfl

/-- Words are signs and digits. -/
theorem eq_of_digits (hsign : x.isNegative = y.isNegative) (h : x.digits = y.digits) : x = y := by
  have hx := x.isNegative_iff
  have hy := y.isNegative_iff
  rw [← hsign] at hy
  have hxlt := x.bits.toNat_lt
  have hylt := y.bits.toNat_lt
  unfold digits at h
  obtain ⟨bits⟩ := x
  obtain ⟨bits'⟩ := y
  have hbits : bits.toNat = bits'.toNat := by
    dsimp only at *
    have hsame := hx.symm.trans hy
    omega
  exact congrArg _ (UInt64.toNat_inj.mp hbits)

/-- A word is ranked by its digits, those of a negative one the other way round. -/
theorem rank_eq (x : Binary64) :
    x.rank = if x.isNegative then -(x.digits : Int) - 1 else x.digits := by
  have hx := x.isNegative_iff
  have hlt := x.bits.toNat_lt
  unfold rank digits
  split
  case isTrue h =>
    have := hx.mp h
    omega
  case isFalse h =>
    have := mt hx.mpr h
    omega

theorem isNaN_iff_digits (x : Binary64) : x.isNaN = true ↔ 2047 * 2 ^ 52 < x.digits := by
  unfold isNaN digits
  rw [decide_eq_true_iff, UInt64.lt_iff_toNat_lt, x.toNat_digits]
  rfl

/-- What is a number has no more digits than what is infinite. -/
theorem digits_le (h : x.isNaN = false) : x.digits ≤ 2047 * 2 ^ 52 :=
  Nat.not_lt.mp fun hlt => Bool.false_ne_true (h.symm.trans (x.isNaN_iff_digits.mpr hlt))

/-- The digits of what is no number are its payload after the greatest exponent. -/
theorem digits_of_isNaN (h : x.isNaN = true) : x.digits = 2047 * 2 ^ 52 + x.payload := by
  have hpayload : x.payload = x.bits.toNat % 2 ^ 52 := by
    unfold payload
    rw [UInt64.toNat_and]
    exact Nat.and_two_pow_sub_one_eq_mod x.bits.toNat 52
  have hdigits := x.isNaN_iff_digits.mp h
  unfold digits at hdigits ⊢
  omega

/-! ## Units -/

/-- How many units a positive number with some digits is. -/
def unitsOf (digits : Nat) : Nat :=
  if digits < 2 ^ 52 then digits else (2 ^ 52 + digits % 2 ^ 52) * 2 ^ (digits / 2 ^ 52 - 1)

/-- Numbers grow with their digits. -/
theorem unitsOf_strictMono : StrictMono unitsOf := by
  refine strictMono_nat_of_lt_succ fun d => ?_
  unfold unitsOf
  by_cases hsmall : d < 2 ^ 52
  · rw [if_pos hsmall]
    by_cases hnext : d + 1 < 2 ^ 52
    · rw [if_pos hnext]
      exact Nat.lt_succ_self d
    · obtain rfl : d = 2 ^ 52 - 1 := by omega
      decide
  · rw [if_neg hsmall, if_neg (by omega)]
    obtain ⟨e, he⟩ : ∃ e, d / 2 ^ 52 = e + 1 := ⟨d / 2 ^ 52 - 1, by omega⟩
    by_cases hborder : d % 2 ^ 52 + 1 < 2 ^ 52
    · have hdiv : (d + 1) / 2 ^ 52 = e + 1 := by omega
      have hmod : (d + 1) % 2 ^ 52 = d % 2 ^ 52 + 1 := by omega
      rw [he, hdiv, hmod]
      exact Nat.mul_lt_mul_of_pos_right (by omega) (Nat.two_pow_pos _)
    · -- The last mantissa with one exponent is followed by the first one with the next.
      have hdiv : (d + 1) / 2 ^ 52 = e + 2 := by omega
      have hmod : (d + 1) % 2 ^ 52 = 0 := by omega
      rw [he, hdiv, hmod, Nat.add_sub_cancel, Nat.add_zero]
      calc (2 ^ 52 + d % 2 ^ 52) * 2 ^ e
        _ < 2 ^ 53 * 2 ^ e := Nat.mul_lt_mul_of_pos_right (by omega) (Nat.two_pow_pos e)
        _ = 2 ^ 52 * 2 ^ (e + 2 - 1) := by
          rw [show e + 2 - 1 = e + 1 from rfl, Nat.pow_succ 2 e]
          omega

/-- The first number with an exponent. -/
theorem unitsOf_border (e : Nat) : unitsOf ((e + 2) * 2 ^ 52) = ceiling e := by
  have hdiv : (e + 2) * 2 ^ 52 / 2 ^ 52 = e + 2 := Nat.mul_div_cancel _ (Nat.two_pow_pos 52)
  have hmod : (e + 2) * 2 ^ 52 % 2 ^ 52 = 0 := Nat.mul_mod_left _ _
  unfold unitsOf ceiling
  rw [if_neg (by omega), hdiv, hmod, show e + 2 - 1 = e + 1 from rfl, Nat.pow_succ 2 e]
  omega

theorem sign_eq (x : Binary64) : Sign.ofBitVec (@unpackSign .binary64 x.bits.toBitVec)
    = if x.isNegative then .negative else .positive := by
  have hnat : (@unpackSign .binary64 x.bits.toBitVec).toNat = x.bits.toNat / 2 ^ 63 % 2 := by
    simp [unpackSign, Nat.shiftRight_eq_div_pow]
  have hx := x.isNegative_iff
  have hlt := x.bits.toNat_lt
  unfold Sign.ofBitVec
  by_cases hnegative : x.isNegative = true
  · have hle := hx.mp hnegative
    rw [if_pos hnegative, if_neg fun hzero => ?_]
    rw [hzero] at hnat
    exact absurd hnat (by change ¬ 0 = _; omega)
  · have hgt := mt hx.mpr hnegative
    rw [if_neg hnegative, if_pos]
    refine BitVec.eq_of_toNat_eq (hnat.trans ?_)
    change _ = 0
    omega

/-- The units of a number are those of its digits, with its sign. -/
theorem units_eq (h : x.isNaN = false) : units x.unpacked
    = if x.isNegative then -(unitsOf x.digits : Int) else unitsOf x.digits := by
  have hle := digits_le h
  have hsign : ∀ n : Nat, (Sign.ofBitVec (@unpackSign .binary64 x.bits.toBitVec)).apply (n : Int)
      = if x.isNegative then -(n : Int) else n := by
    intro n
    rw [sign_eq]
    split <;> rfl
  have hmantissa : (@unpackMantissa .binary64 x.bits.toBitVec).toNat = x.digits % 2 ^ 52 := by
    unfold digits
    simp [unpackMantissa]
  have hexponent : (@unpackExponent .binary64 x.bits.toBitVec).toNat = x.digits / 2 ^ 52 := by
    unfold digits
    simp [unpackExponent, Nat.shiftRight_eq_div_pow]
    omega
  unfold unpacked UnpackedFloat.unpack
  dsimp only
  by_cases hall : @unpackExponent .binary64 x.bits.toBitVec = -1#11
  · -- With the greatest exponent, only what is infinite is a number.
    rw [hall] at hexponent
    have hgreatest : 2047 = x.digits / 2 ^ 52 := hexponent
    have hdigits : x.digits = 2047 * 2 ^ 52 := by omega
    have hzero : @unpackMantissa .binary64 x.bits.toBitVec = 0#52 :=
      BitVec.eq_of_toNat_eq (hmantissa.trans (by rw [hdigits]; rfl))
    have hunits : unitsOf x.digits = beyond := by
      rw [hdigits]
      exact unitsOf_border 2045
    rw [if_pos hall, if_pos hzero, hunits]
    exact hsign beyond
  · rw [if_neg hall]
    by_cases hnone : @unpackExponent .binary64 x.bits.toBitVec = 0#11
    · rw [hnone] at hexponent
      have hleast : 0 = x.digits / 2 ^ 52 := hexponent
      have hunits : unitsOf x.digits = x.digits := if_pos (by omega)
      rw [if_pos hnone, hunits]
      by_cases hzero : @unpackMantissa .binary64 x.bits.toBitVec = 0#52
      · rw [hzero] at hmantissa
        have hdigits : 0 = x.digits % 2 ^ 52 := hmantissa
        obtain hnil : x.digits = 0 := by omega
        rw [dif_pos hzero, hnil]
        split <;> rfl
      · rw [dif_neg hzero, hnone]
        show (Sign.ofBitVec _).apply (((@unpackMantissa .binary64 x.bits.toBitVec).toNat * 1 : Nat)
          : Int) = _
        rw [hsign, hmantissa, Nat.mul_one, Nat.mod_eq_of_lt (by omega)]
    · have hpos : x.digits / 2 ^ 52 ≠ 0 := fun hzero =>
        hnone (BitVec.eq_of_toNat_eq (hexponent.trans hzero))
      have hunits : unitsOf x.digits
          = (2 ^ 52 + x.digits % 2 ^ 52) * 2 ^ (x.digits / 2 ^ 52 - 1) := if_neg (by omega)
      have hpower : (((@unpackExponent .binary64 x.bits.toBitVec).toNat : Int)
          - ((1023 : Nat) + (52 : Nat)) + 1074).toNat = x.digits / 2 ^ 52 - 1 := by
        rw [hexponent]
        omega
      rw [if_neg hnone, hunits, ← hpower, ← hmantissa,
        ← toNat_one_append (@unpackMantissa .binary64 x.bits.toBitVec)]
      exact hsign _

/-! ## Ranks -/

/-- The smaller of two numbers is ranked lower. -/
theorem rank_lt (h : x < y) : x.rank < y.rank := by
  obtain ⟨hx, hy⟩ := isNaN_of_le (le_of_lt h)
  rw [lt_iff_units hx hy, units_eq hx, units_eq hy] at h
  have hdigits : unitsOf x.digits < unitsOf y.digits ↔ x.digits < y.digits :=
    unitsOf_strictMono.lt_iff_lt
  have hdigits' : unitsOf y.digits < unitsOf x.digits ↔ y.digits < x.digits :=
    unitsOf_strictMono.lt_iff_lt
  rw [rank_eq, rank_eq]
  cases hsx : x.isNegative <;> cases hsy : y.isNegative <;>
    simp only [hsx, hsy, if_true, if_false, Bool.false_eq_true] at h ⊢ <;> omega

/-- Of two numbers that are ranked in order the first is smaller, unless they are the same or zeros
of both signs. -/
theorem eq_or_zeros (hx : x.isNaN = false) (hy : y.isNaN = false) (hle : x.rank ≤ y.rank)
    (h : ¬ x < y) : x = y ∨ x = -0 ∧ y = 0 := by
  have hdigits {a b : Nat} (hab : unitsOf a ≤ unitsOf b) : a ≤ b :=
    unitsOf_strictMono.le_iff_le.mp hab
  rw [lt_iff_units hx hy, units_eq hx, units_eq hy] at h
  rw [rank_eq, rank_eq] at hle
  cases hsx : x.isNegative <;> cases hsy : y.isNegative <;>
    simp only [hsx, hsy, if_true, if_false, Bool.false_eq_true] at h hle
  case false.true => omega
  case false.false =>
    have hback : y.digits ≤ x.digits := hdigits (by omega)
    exact .inl (eq_of_digits (hsx.trans hsy.symm) (by omega))
  case true.true =>
    have hback : x.digits ≤ y.digits := hdigits (by omega)
    exact .inl (eq_of_digits (hsx.trans hsy.symm) (by omega))
  case true.false =>
    have hxzero : x.digits ≤ 0 := hdigits (b := 0) (show _ ≤ 0 by omega)
    have hyzero : y.digits ≤ 0 := hdigits (b := 0) (show _ ≤ 0 by omega)
    exact .inr ⟨eq_of_digits hsx (Nat.le_zero.mp hxzero), eq_of_digits hsy (Nat.le_zero.mp hyzero)⟩

/-- Values are in the total order as they are ranked. -/
theorem rank_le_iff : x.rank ≤ y.rank ↔ InOrder x y := by
  constructor
  · intro hle
    by_cases hx : x.isNaN = true
    · have hxdigits := x.isNaN_iff_digits.mp hx
      have hxpayload := digits_of_isNaN hx
      by_cases hy : y.isNaN = true
      · have hypayload := digits_of_isNaN hy
        rw [rank_eq, rank_eq] at hle
        cases hsx : x.isNegative <;> cases hsy : y.isNegative <;>
          simp only [hsx, hsy, if_true, if_false, Bool.false_eq_true] at hle
        case false.true => omega
        case true.false => exact .across hx hsx hy hsy
        case false.false =>
          by_cases hsame : x.digits = y.digits
          · exact eq_of_digits (hsx.trans hsy.symm) hsame ▸ .refl x
          · exact .up hx hsx hy hsy (by omega)
        case true.true =>
          by_cases hsame : x.digits = y.digits
          · exact eq_of_digits (hsx.trans hsy.symm) hsame ▸ .refl x
          · exact .down hx hsx hy hsy (by omega)
      · have hydigits := digits_le (Bool.eq_false_iff.mpr hy)
        refine .before hx ?_ (Bool.eq_false_iff.mpr hy)
        rw [rank_eq, rank_eq] at hle
        cases hsx : x.isNegative <;> cases hsy : y.isNegative <;>
          simp only [hsx, hsy, if_true, if_false, Bool.false_eq_true] at hle ⊢ <;> omega
    · have hx := Bool.eq_false_iff.mpr hx
      have hxdigits := digits_le hx
      by_cases hy : y.isNaN = true
      · have hydigits := y.isNaN_iff_digits.mp hy
        refine .after hx hy ?_
        rw [rank_eq, rank_eq] at hle
        cases hsx : x.isNegative <;> cases hsy : y.isNegative <;>
          simp only [hsx, hsy, if_true, if_false, Bool.false_eq_true] at hle ⊢ <;> omega
      · have hy := Bool.eq_false_iff.mpr hy
        by_cases hlt : x < y
        · exact .less hlt
        · rcases eq_or_zeros hx hy hle hlt with rfl | ⟨rfl, rfl⟩
          · exact .refl x
          · exact .zeros
  · intro h
    cases h with
    | refl => exact Int.le_refl _
    | less lt => exact Int.le_of_lt (rank_lt lt)
    | zeros => decide
    | before none negative number =>
      have hxdigits := x.isNaN_iff_digits.mp none
      have hydigits := digits_le number
      rw [rank_eq, rank_eq, negative]
      cases y.isNegative <;> simp only [if_true, if_false, Bool.false_eq_true] <;> omega
    | after number none positive =>
      have hxdigits := digits_le number
      have hydigits := y.isNaN_iff_digits.mp none
      rw [rank_eq, rank_eq, positive]
      cases x.isNegative <;> simp only [if_true, if_false, Bool.false_eq_true] <;> omega
    | across none negative none' positive =>
      rw [rank_eq, rank_eq, negative, positive]
      simp only [if_true, if_false, Bool.false_eq_true]
      omega
    | up none positive none' positive' lt =>
      have hxpayload := digits_of_isNaN none
      have hypayload := digits_of_isNaN none'
      rw [rank_eq, rank_eq, positive, positive']
      simp only [if_false, Bool.false_eq_true]
      omega
    | down none negative none' negative' lt =>
      have hxpayload := digits_of_isNaN none
      have hypayload := digits_of_isNaN none'
      rw [rank_eq, rank_eq, negative, negative']
      simp only [if_true]
      omega

end Espalier.Binary64
