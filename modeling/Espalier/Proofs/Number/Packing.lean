import Espalier.Number.Binary64
import Mathlib

/-!
# Double-precision numbers, taken apart

Arithmetic on numbers takes their words apart into sign, mantissa and exponent, works on those and
puts the result into a word again. `Binary64.unpacked` is what a word stands for, and `unpack_pack`
says that whatever a word can stand for (`Canonical`) survives the way through a word. So a sequence
of operations can be followed on sign, mantissa and exponent alone: `unpacked_add`, `unpacked_mul`,
`unpacked_div`, `le_iff` and `lt_iff` say what they do there, `isNaN_eq` which words they pass
through and `isFinite_eq` which ones stand for something finite.
-/

namespace Espalier.Binary64

open Float.Model Float.Model.UnpackedFloat

/-! ## Words -/

theorem exponentBias_eq : ((Format.binary64.exponentBias : Nat) : Int) = 1023 := rfl

theorem mantissaBits_eq : Format.binary64.mantissaBits = 53 := rfl

/-- The first digit of a mantissa, which words leave out. -/
theorem toNat_one_append {w : Nat} (v : BitVec w) : (1#1 ++ v).toNat = 2 ^ w + v.toNat := by
  rw [BitVec.toNat_append, ← Nat.shiftLeft_add_eq_or_of_lt v.isLt]
  simp [Nat.shiftLeft_eq]

/-- The values a word can stand for. -/
inductive Canonical : UnpackedFloat → Prop where
  | notANumber : Canonical .notANumber
  | infinity (s : Sign) : Canonical (.infinity s)
  | zero (s : Sign) : Canonical (.zero s)
  | subnormal (s : Sign) {m : Nat} (pos : 0 < m) (high : m < 2 ^ 52) :
    Canonical (.finite s m (-1074) pos)
  | normal (s : Sign) {m : Nat} {e : Int} (pos : 0 < m) (low : 2 ^ 52 ≤ m) (high : m < 2 ^ 53)
    (least : -1074 ≤ e) (greatest : e ≤ 971) : Canonical (.finite s m e pos)

/-- What a word stands for is one of them. -/
theorem canonical_unpack (b : BitVec 64) : Canonical (unpack .binary64 b) := by
  have hm : (@unpackMantissa .binary64 b).toNat < 2 ^ 52 := (unpackMantissa _).isLt
  have he : (@unpackExponent .binary64 b).toNat < 2 ^ 11 := (unpackExponent _).isLt
  unfold UnpackedFloat.unpack
  dsimp only
  rw [exponentBias_eq]
  by_cases hall : @unpackExponent .binary64 b = -1#11
  · rw [if_pos hall]
    split
    · exact .infinity _
    · exact .notANumber
  · rw [if_neg hall]
    have hne : (@unpackExponent .binary64 b).toNat ≠ 2047 := fun h =>
      hall (BitVec.eq_of_toNat_eq h)
    by_cases hnone : @unpackExponent .binary64 b = 0#11
    · rw [if_pos hnone]
      split
      · exact .zero _
      · rw [hnone]
        exact .subnormal _ _ hm
    · rw [if_neg hnone]
      have hpos : (@unpackExponent .binary64 b).toNat ≠ 0 := fun h =>
        hnone (BitVec.eq_of_toNat_eq h)
      have happ := toNat_one_append (@unpackMantissa .binary64 b)
      have hpow : (2 : Nat) ^ Format.binary64.mantissaBitsWithoutImplicit = 2 ^ 52 := rfl
      refine .normal _ _ ?_ ?_ ?_ ?_
      · omega
      · omega
      · show (-1074 : Int) ≤ (@unpackExponent .binary64 b).toNat - (1023 + (52 : Nat))
        omega
      · show ((@unpackExponent .binary64 b).toNat : Int) - (1023 + (52 : Nat)) ≤ 971
        omega

/-- What a word can stand for survives being put into one. -/
theorem unpack_pack {u : UnpackedFloat} (h : Canonical u) :
    unpack .binary64 (UnpackedFloat.pack .binary64 u) = u := by
  cases h with
  | notANumber => rfl
  | infinity s => cases s <;> rfl
  | zero s => cases s <;> rfl
  | @subnormal s m pos high =>
    have hlog : m.log2 < 52 := (Nat.log2_lt (Nat.ne_of_gt pos)).mpr high
    have hmantissa : (BitVec.ofNat 52 m).toNat = m := Nat.mod_eq_of_lt high
    have hne : BitVec.ofNat 52 m ≠ 0#52 := fun h => by
      rw [h] at hmantissa
      exact Nat.ne_of_lt pos hmantissa
    unfold UnpackedFloat.pack
    dsimp only
    rw [mantissaBits_eq, if_neg (by decide), if_neg (show ¬ m.log2 + 1 = 53 by omega)]
    unfold UnpackedFloat.unpack
    simp only [unpackMantissa_packComponents, unpackExponent_packComponents,
      unpackSign_packComponents, Sign.ofBitVec_toBitVec]
    rw [if_neg (by decide), if_pos trivial, dif_neg hne]
    simp only [hmantissa]
    rfl
  | @normal s m e pos low high least greatest =>
    have hlog : m.log2 = 52 := (Nat.log2_eq_iff (Nat.ne_of_gt pos)).mpr ⟨low, high⟩
    have hbiased : (e + Format.binary64.exponentBias + Format.binary64.mantissaBitsWithoutImplicit)
        = ((e + 1075).toNat : Int) := by
      show e + (1023 : Nat) + (52 : Nat) = _
      omega
    have hexponent : (BitVec.ofNat 11 (e + 1075).toNat).toNat = (e + 1075).toNat :=
      Nat.mod_eq_of_lt (by omega)
    have hall : BitVec.ofNat 11 (e + 1075).toNat ≠ -1#11 := fun h => by
      rw [h] at hexponent
      have heq : (2047 : Nat) = (e + 1075).toNat := hexponent
      omega
    have hnone : BitVec.ofNat 11 (e + 1075).toNat ≠ 0#11 := fun h => by
      rw [h] at hexponent
      have heq : (0 : Nat) = (e + 1075).toNat := hexponent
      omega
    have hmantissa : (1#1 ++ BitVec.ofNat 52 m).toNat = m := by
      rw [toNat_one_append, BitVec.toNat_ofNat]
      omega
    unfold UnpackedFloat.pack
    dsimp only
    rw [hbiased, mantissaBits_eq, Int.toNat_natCast,
      if_neg (show ¬ 2 ^ 11 ≤ (e + 1075).toNat + 1 by omega),
      if_pos (show m.log2 + 1 = 53 by omega)]
    unfold UnpackedFloat.unpack
    simp only [unpackMantissa_packComponents, unpackExponent_packComponents,
      unpackSign_packComponents, Sign.ofBitVec_toBitVec]
    rw [if_neg hall, if_neg hnone]
    simp only [hmantissa, hexponent]
    congr 1
    show ((e + 1075).toNat : Int) - (1023 + (52 : Nat)) = e
    omega

/-! ## Numbers -/

/-- What a double-precision number stands for. -/
def unpacked (x : Binary64) : UnpackedFloat := unpack .binary64 x.bits.toBitVec

theorem canonical_unpacked (x : Binary64) : Canonical x.unpacked := canonical_unpack _

theorem unpack_toFloat (x : Binary64) : x.toFloat.toModel.unpack = x.unpacked :=
  unpack_pack x.canonical_unpacked

theorem unpacked_ofFloat (x : Float) : (ofFloat x).unpacked = x.toModel.unpack := rfl

/-- The digits of a word without its sign. -/
theorem toNat_digits (x : Binary64) :
    (x.bits &&& 0x7fffffffffffffff).toNat = x.bits.toNat % 2 ^ 63 := by
  rw [UInt64.toNat_and]
  exact Nat.and_two_pow_sub_one_eq_mod x.bits.toNat 63

/-- The greatest exponent is for what is not finite. -/
theorem unpackExponent_eq_iff (x : Binary64) :
    @unpackExponent .binary64 x.bits.toBitVec = -1#11 ↔ x.bits.toNat / 2 ^ 52 % 2 ^ 11 = 2047 := by
  have he : (@unpackExponent .binary64 x.bits.toBitVec).toNat
      = x.bits.toNat / 2 ^ 52 % 2 ^ 11 := by
    simp [unpackExponent, Nat.shiftRight_eq_div_pow]
  rw [← he]
  exact ⟨fun h => congrArg BitVec.toNat h, fun h => BitVec.eq_of_toNat_eq h⟩

theorem unpackMantissa_eq_iff (x : Binary64) :
    @unpackMantissa .binary64 x.bits.toBitVec = 0#52 ↔ x.bits.toNat % 2 ^ 52 = 0 := by
  have hm : (@unpackMantissa .binary64 x.bits.toBitVec).toNat = x.bits.toNat % 2 ^ 52 := by
    simp [unpackMantissa]
  rw [← hm]
  exact ⟨fun h => congrArg BitVec.toNat h, fun h => BitVec.eq_of_toNat_eq h⟩

/-- A word is told to be no number by its digits. -/
theorem isNaN_eq (x : Binary64) : x.isNaN = x.unpacked.isNaN := by
  have hlt : (0x7ff0000000000000 < x.bits &&& 0x7fffffffffffffff)
      ↔ 2047 * 2 ^ 52 < x.bits.toNat % 2 ^ 63 := by
    rw [UInt64.lt_iff_toNat_lt, x.toNat_digits]
    rfl
  unfold isNaN unpacked UnpackedFloat.unpack
  dsimp only
  rw [decide_eq_decide.mpr hlt]
  by_cases hexp : x.bits.toNat / 2 ^ 52 % 2 ^ 11 = 2047
  · rw [if_pos (x.unpackExponent_eq_iff.mpr hexp)]
    by_cases hmant : x.bits.toNat % 2 ^ 52 = 0
    · rw [if_pos (x.unpackMantissa_eq_iff.mpr hmant)]
      exact decide_eq_false (by omega)
    · rw [if_neg fun h => hmant (x.unpackMantissa_eq_iff.mp h)]
      exact decide_eq_true (by omega)
  · rw [if_neg fun h => hexp (x.unpackExponent_eq_iff.mp h), decide_eq_false (by omega)]
    split
    · split <;> rfl
    · rfl

/-- A word is told to be finite by its digits. -/
theorem isFinite_eq (x : Binary64) : x.isFinite = x.unpacked.isFinite := by
  have hlt : ((x.bits &&& 0x7fffffffffffffff) < 0x7ff0000000000000)
      ↔ x.bits.toNat % 2 ^ 63 < 2047 * 2 ^ 52 := by
    rw [UInt64.lt_iff_toNat_lt, x.toNat_digits]
    rfl
  unfold isFinite unpacked UnpackedFloat.unpack
  dsimp only
  rw [decide_eq_decide.mpr hlt]
  by_cases hexp : x.bits.toNat / 2 ^ 52 % 2 ^ 11 = 2047
  · rw [if_pos (x.unpackExponent_eq_iff.mpr hexp), decide_eq_false (by omega)]
    split <;> rfl
  · rw [if_neg fun h => hexp (x.unpackExponent_eq_iff.mp h), decide_eq_true (by omega)]
    split
    · split <;> rfl
    · rfl

theorem unpacked_ofResult (x : Float) : (ofResult x).unpacked = x.toModel.unpack := by
  unfold ofResult
  split
  case isTrue h =>
    have hnan : x.toModel.unpack = .notANumber := isNaN_iff.mp h
    rw [hnan]
    rfl
  case isFalse => rfl

/-- An operation on two numbers is that on what they stand for. -/
theorem unpacked_lift₂ {f : Float → Float → Float}
    {g : UnpackedFloat → UnpackedFloat → UnpackedFloat}
    (hf : ∀ a b, (f a b).toModel = .pack (g a.toModel.unpack b.toModel.unpack)) {x y : Binary64}
    (hx : x.unpacked.isNaN = false) (hy : y.unpacked.isNaN = false) :
    (lift₂ f x y).unpacked
      = unpack .binary64 (UnpackedFloat.pack .binary64 (g x.unpacked y.unpacked)) := by
  unfold lift₂
  rw [isNaN_eq, isNaN_eq, hx, hy, if_neg Bool.false_ne_true, if_neg Bool.false_ne_true,
    unpacked_ofResult, hf, unpack_toFloat, unpack_toFloat]
  rfl

theorem unpacked_mul {x y : Binary64} (hx : x.unpacked.isNaN = false)
    (hy : y.unpacked.isNaN = false) : (x * y).unpacked = unpack .binary64
      (UnpackedFloat.pack .binary64 (UnpackedFloat.mul .binary64 x.unpacked y.unpacked)) :=
  unpacked_lift₂ (fun _ _ => rfl) hx hy

theorem unpacked_div {x y : Binary64} (hx : x.unpacked.isNaN = false)
    (hy : y.unpacked.isNaN = false) : (x / y).unpacked = unpack .binary64
      (UnpackedFloat.pack .binary64 (UnpackedFloat.div .binary64 x.unpacked y.unpacked)) :=
  unpacked_lift₂ (fun _ _ => rfl) hx hy

theorem unpacked_add {x y : Binary64} (hx : x.unpacked.isNaN = false)
    (hy : y.unpacked.isNaN = false) : (x + y).unpacked = unpack .binary64
      (UnpackedFloat.pack .binary64 (UnpackedFloat.add .binary64 x.unpacked y.unpacked)) :=
  unpacked_lift₂ (fun _ _ => rfl) hx hy

theorem le_iff (x y : Binary64) : x ≤ y ↔ x.unpacked.le y.unpacked = true := by
  rw [← unpack_toFloat x, ← unpack_toFloat y]
  show (decide (x.toFloat.toModel ≤ y.toFloat.toModel) = true) ↔ _
  rw [decide_eq_true_iff]
  rfl

theorem lt_iff (x y : Binary64) : x < y ↔ x.unpacked.lt y.unpacked = true := by
  rw [← unpack_toFloat x, ← unpack_toFloat y]
  show (decide (x.toFloat.toModel < y.toFloat.toModel) = true) ↔ _
  rw [decide_eq_true_iff]
  rfl

end Espalier.Binary64
