import Espalier.Proofs.Number.Packing
import Espalier.Random

/-!
# Shares of a number

A share of the unit interval is below one, so a share of a number should not exceed the number. In
double precision the product is rounded, and the shift, the rounding and the carry of
`roundWithAccuracy` have to be followed for that. `shiftToTargetExponent_eq` is the shift in closed
form and `roundWithAccuracy_eq` the rest; `mul_le_of_lt_one` is the argument: a product that is as
large as the number is rounded on the number's own grid, where it lies below it.

`unpacked_unitShare` reads off what words shares are, and `unitShare_mul_le` is the result.
-/

namespace Espalier.Binary64

open Float.Model Float.Model.UnpackedFloat

/-! ## Rounding -/

theorem minExponent_eq : Format.binary64.minExponent = -1074 := rfl

theorem targetExponent_eq (t : Int) : Format.binary64.targetExponent t = max (t - 53) (-1074) := by
  unfold Format.targetExponent
  rw [mantissaBits_eq, minExponent_eq]
  rfl

theorem mantissa_shiftRight (em : ExtendedMantissa) (k : Nat) :
    (em >>> k).mantissa = em.mantissa / 2 ^ k := by
  induction k with
  | zero => exact (Nat.div_one _).symm
  | succ k ih =>
    show (em >>> k).mantissa / 2 = _
    rw [ih, Nat.div_div_eq_div_mul, Nat.pow_succ]

/-- Shifting out zeros loses nothing. -/
theorem exact_shiftRight (m k : Nat) :
    (ExtendedMantissa.mk (m * 2 ^ k) false false) >>> k = .mk m false false := by
  induction k generalizing m with
  | zero => rw [Nat.pow_zero, Nat.mul_one]; rfl
  | succ k ih =>
    have hsplit : m * 2 ^ (k + 1) = m * 2 * 2 ^ k := by
      rw [Nat.pow_succ, Nat.mul_comm (2 ^ k) 2, Nat.mul_assoc]
    show ExtendedMantissa.shiftRightOne
      ((ExtendedMantissa.mk (m * 2 ^ (k + 1)) false false) >>> k) = _
    rw [hsplit, ih]
    unfold ExtendedMantissa.shiftRightOne
    dsimp only
    rw [Nat.mul_div_cancel m (by decide), Nat.mul_mod_left]
    rfl

/-- Rounding cuts the digits off or adds one to the last. -/
theorem roundedMantissa_bounds (em : ExtendedMantissa) :
    em.mantissa ≤ em.roundedMantissa ∧ em.roundedMantissa ≤ em.mantissa + 1 := by
  obtain ⟨m, roundBit, stickyBit⟩ := em
  unfold ExtendedMantissa.roundedMantissa ExtendedMantissa.accuracy
  cases roundBit <;> cases stickyBit <;> dsimp only [Accuracy.roundToNearestEven] <;> omega

/-- How far the mantissa is shifted: until it has 53 digits, or to the least exponent there is. -/
theorem shiftToTargetExponent_eq (m : Nat) (e : Int) :
    shiftToTargetExponent .binary64 m e .exact =
      ((ExtendedMantissa.mk m false false) >>> (max (m.log2 + 1 + e - 53) (-1074) - e).toNat,
        e + ((max (m.log2 + 1 + e - 53) (-1074) - e).toNat : Nat)) := by
  unfold shiftToTargetExponent shiftToExponent totalExponent
  rw [targetExponent_eq]
  rfl

/-- A mantissa that fits is not shifted. -/
theorem shiftToTargetExponent_of_fits {m : Nat} {e : Int} (hm : m < 2 ^ 53) (he : -1074 ≤ e) :
    shiftToTargetExponent .binary64 m e .exact = (.mk m false false, e) := by
  have hlog : m.log2 ≤ 52 := by
    by_cases hzero : m = 0
    · rw [hzero]
      decide
    · exact Nat.le_of_lt_succ ((Nat.log2_lt hzero).mpr hm)
  have hshift : (max ((m.log2 : Int) + 1 + e - 53) (-1074) - e).toNat = 0 := by omega
  rw [shiftToTargetExponent_eq, hshift]
  exact congrArg _ (Int.add_zero e)

/-- A mantissa with more digits than fit is shifted until they do. -/
theorem shiftToTargetExponent_of_exact {m : Nat} {e : Int} (k : Nat) (low : 2 ^ 52 ≤ m)
    (high : m < 2 ^ 53) (he : -1074 ≤ e + k) :
    shiftToTargetExponent .binary64 (m * 2 ^ k) e .exact = (.mk m false false, e + k) := by
  have hlog : (m * 2 ^ k).log2 = 52 + k := by
    have hpos : 0 < m * 2 ^ k := Nat.mul_pos (by omega) (Nat.two_pow_pos k)
    refine (Nat.log2_eq_iff (Nat.ne_of_gt hpos)).mpr ⟨?_, ?_⟩
    · rw [Nat.pow_add]
      exact Nat.mul_le_mul_right _ low
    · rw [Nat.add_right_comm, Nat.pow_add]
      exact Nat.mul_lt_mul_of_pos_right high (Nat.two_pow_pos k)
  have hshift : (max (((52 + k : Nat) : Int) + 1 + e - 53) (-1074) - e).toNat = k := by omega
  rw [shiftToTargetExponent_eq, hlog, hshift, exact_shiftRight]

/-- What rounding comes to once the mantissa has been shifted and rounded: if it now has a digit too
many, it is a power of two. -/
theorem roundWithAccuracy_eq {m : Nat} {e t : Int} {em : ExtendedMantissa} (s : Sign)
    (hshift : shiftToTargetExponent .binary64 m e .exact = (em, t)) (he : -1074 ≤ t)
    (hq : em.roundedMantissa ≤ 2 ^ 53) :
    roundWithAccuracy .binary64 s m e .exact =
      if hzero : em.roundedMantissa = 0 then .zero s
      else if em.roundedMantissa < 2 ^ 53 then
        .finite s em.roundedMantissa t (Nat.pos_of_ne_zero hzero)
      else .finite s (2 ^ 52) (t + 1) (by decide) := by
  unfold roundWithAccuracy
  rw [hshift]
  dsimp only
  by_cases hfits : em.roundedMantissa < 2 ^ 53
  · rw [shiftToTargetExponent_of_fits hfits he]
    simp only [hfits, if_true]
  · have hcarry : em.roundedMantissa = 2 ^ 52 * 2 ^ 1 := by omega
    rw [hcarry, shiftToTargetExponent_of_exact 1 (Nat.le_refl _) (by decide) (by omega)]
    rfl

/-- A value that loses nothing in the shift is left as it is. -/
theorem roundWithAccuracy_of_shift {m m' : Nat} {e t : Int} (s : Sign)
    (hshift : shiftToTargetExponent .binary64 m' e .exact = (.mk m false false, t)) (pos : 0 < m)
    (high : m < 2 ^ 53) (he : -1074 ≤ t) :
    roundWithAccuracy .binary64 s m' e .exact = .finite s m t pos := by
  have hrounded : (ExtendedMantissa.mk m false false).roundedMantissa = m := rfl
  rw [roundWithAccuracy_eq s hshift he (Nat.le_of_lt high)]
  simp only [hrounded, Nat.ne_of_gt pos, high, dif_neg, if_true, not_false_eq_true]

/-- A mantissa that fits is canonical if it is not shorter than it need be. -/
theorem Canonical.of_fits {s : Sign} {m : Nat} {e : Int} (pos : 0 < m) (high : m < 2 ^ 53)
    (least : -1074 ≤ e) (greatest : e ≤ 971) (hsub : -1074 < e → 2 ^ 52 ≤ m) :
    Canonical (.finite s m e pos) := by
  by_cases hm : 2 ^ 52 ≤ m
  · exact .normal s pos hm high least greatest
  · obtain rfl : e = -1074 := by omega
    exact .subnormal s pos (by omega)

/-- Of canonical numbers the one with the lesser exponent is the lesser. -/
theorem finite_le {m M : Nat} {e E : Int} {pos : 0 < m} {Pos : 0 < M}
    (h : e < E ∨ e = E ∧ m ≤ M) :
    (UnpackedFloat.finite .positive m e pos).le (.finite .positive M E Pos) = true := by
  show ((compare e E).then (compare m M)).isLE = true
  rcases h with h | ⟨rfl, h⟩
  · rw [Int.compare_eq_lt.mpr h]
    rfl
  · rw [Int.compare_eq_eq.mpr rfl]
    exact Nat.isLE_compare.mpr h

/-- Rounding a mantissa that has digits enough: `k` of them are cut off, and what is left is a
mantissa that fits, or is the first that does not. -/
theorem exists_rounded {m : Nat} {e : Int} (s : Sign) (hm : 0 < m) (hlog : 52 ≤ m.log2) :
    ∃ k q : Nat, e + k = max (m.log2 + 1 + e - 53) (-1074) ∧ q ≤ m / 2 ^ k + 1 ∧ q ≤ 2 ^ 53 ∧
      (-1074 < e + k → 2 ^ 52 ≤ q) ∧
      roundWithAccuracy .binary64 s m e .exact =
        if hzero : q = 0 then .zero s
        else if q < 2 ^ 53 then .finite s q (e + k) (Nat.pos_of_ne_zero hzero)
        else .finite s (2 ^ 52) (e + k + 1) (by decide) := by
  obtain ⟨k, hk⟩ : ∃ k : Nat, (k : Int) = max (m.log2 + 1 + e - 53) (-1074) - e :=
    ⟨_, Int.toNat_of_nonneg (by omega)⟩
  have hshift := shiftToTargetExponent_eq m e
  rw [← hk, Int.toNat_natCast] at hshift
  have hbounds := roundedMantissa_bounds ((ExtendedMantissa.mk m false false) >>> k)
  rw [mantissa_shiftRight] at hbounds
  dsimp only at hbounds
  have hfits : m / 2 ^ k < 2 ^ 53 := by
    rw [Nat.div_lt_iff_lt_mul (Nat.two_pow_pos k), ← Nat.pow_add]
    exact (Nat.log2_lt (Nat.ne_of_gt hm)).mp (by omega)
  have hnormal : -1074 < e + k → 2 ^ 52 ≤ m / 2 ^ k := by
    intro h
    rw [Nat.le_div_iff_mul_le (Nat.two_pow_pos k), ← Nat.pow_add]
    exact (Nat.le_log2 (Nat.ne_of_gt hm)).mp (by omega)
  exact ⟨k, _, by omega, hbounds.2, by omega, fun h => Nat.le_trans (hnormal h) hbounds.1,
    roundWithAccuracy_eq s hshift (by omega) (by omega)⟩

/-- A number times something below one is not greater than the number, as rounded as it may be. -/
theorem mul_le_of_lt_one {m M j : Nat} {E : Int} (pos : 0 < m) (hm : m < 2 ^ j) (Pos : 0 < M)
    (low : 2 ^ 52 ≤ M) (high : M < 2 ^ 53) (least : -1074 ≤ E) (greatest : E ≤ 971) :
    let r := roundWithAccuracy .binary64 .positive (m * M) (-j + E) .exact
    Canonical r ∧ r.le (.finite .positive M E Pos) = true := by
  intro r
  have hlt : m * M < 2 ^ j * M := Nat.mul_lt_mul_of_pos_right hm Pos
  have hpos : 0 < m * M := Nat.mul_pos pos Pos
  have hlow : 52 ≤ (m * M).log2 :=
    (Nat.le_log2 (Nat.ne_of_gt hpos)).mpr (Nat.le_trans low (Nat.le_mul_of_pos_left M pos))
  have hhigh : (m * M).log2 < j + 53 := by
    refine (Nat.log2_lt (Nat.ne_of_gt hpos)).mpr (Nat.lt_of_lt_of_le hlt ?_)
    rw [Nat.pow_add]
    exact Nat.mul_le_mul_left _ (Nat.le_of_lt high)
  obtain ⟨k, q, hk, hq, hfits, hnormal, hr⟩ :=
    exists_rounded (e := -j + E) .positive hpos hlow
  -- On the grid of the number itself the product is below it.
  have hsame : -(j : Int) + E + k = E → q ≤ M := by
    intro h
    have hkj : k = j := by omega
    have hbelow : m * M / 2 ^ k < M := by
      rw [hkj, Nat.div_lt_iff_lt_mul (Nat.two_pow_pos j), Nat.mul_comm M]
      exact hlt
    omega
  rw [show r = _ from hr]
  split
  case isTrue => exact ⟨.zero _, rfl⟩
  case isFalse hne =>
    split
    case isTrue hshort =>
      exact ⟨.of_fits _ hshort (by omega) (by omega) hnormal, finite_le (by omega)⟩
    case isFalse hlong =>
      exact ⟨.of_fits _ (by decide) (by omega) (by omega) (by omega), finite_le (by omega)⟩

/-- The same of a number too small to be written in full: its grid is the finest there is. -/
theorem mul_le_of_subnormal {m M j : Nat} (pos : 0 < m) (hm : m < 2 ^ j) (Pos : 0 < M)
    (high : M < 2 ^ 52) :
    let r := roundWithAccuracy .binary64 .positive (m * M) (-j + -1074) .exact
    Canonical r ∧ r.le (.finite .positive M (-1074) Pos) = true := by
  intro r
  have hlt : m * M < 2 ^ j * M := Nat.mul_lt_mul_of_pos_right hm Pos
  have hlog : (m * M).log2 < j + 52 := by
    refine (Nat.log2_lt (Nat.ne_of_gt (Nat.mul_pos pos Pos))).mpr (Nat.lt_of_lt_of_le hlt ?_)
    rw [Nat.pow_add]
    exact Nat.mul_le_mul_left _ (Nat.le_of_lt high)
  have hk : (max (((m * M).log2 : Int) + 1 + (-j + -1074) - 53) (-1074) - (-j + -1074)).toNat = j := by
    omega
  have hshift := shiftToTargetExponent_eq (m * M) (-j + -1074)
  rw [hk] at hshift
  have hbounds := roundedMantissa_bounds ((ExtendedMantissa.mk (m * M) false false) >>> j)
  rw [mantissa_shiftRight] at hbounds
  dsimp only at hbounds
  have hbelow : m * M / 2 ^ j < M := by
    rw [Nat.div_lt_iff_lt_mul (Nat.two_pow_pos j), Nat.mul_comm M]
    exact hlt
  have hr := roundWithAccuracy_eq .positive hshift (by omega) (by omega)
  rw [show r = _ from hr]
  split
  case isTrue => exact ⟨.zero _, rfl⟩
  case isFalse hne =>
    rw [if_pos (by omega)]
    exact ⟨.of_fits _ (by omega) (by omega) (by omega) (by omega), finite_le (by omega)⟩

/-- A count that fits a mantissa needs no rounding. -/
theorem ofNat_eq {n k : Nat} (hn : 0 < n) (hk : n.log2 + k = 52) :
    2 ^ 52 ≤ n * 2 ^ k ∧ n * 2 ^ k < 2 ^ 53 ∧ ∀ pos : 0 < n * 2 ^ k,
      UnpackedFloat.ofNat .binary64 n = .finite .positive (n * 2 ^ k) (-k) pos := by
  have hlow : 2 ^ 52 ≤ n * 2 ^ k := by
    rw [← hk, Nat.pow_add]
    exact Nat.mul_le_mul_right _ (Nat.log2_self_le (Nat.ne_of_gt hn))
  have hhigh : n * 2 ^ k < 2 ^ 53 := by
    have hlt := Nat.mul_lt_mul_of_pos_right (Nat.lt_log2_self (n := n)) (Nat.two_pow_pos k)
    rw [← Nat.pow_add] at hlt
    exact (show n.log2 + 1 + k = 53 by omega) ▸ hlt
  refine ⟨hlow, hhigh, fun pos => ?_⟩
  have htarget : (0 - max ((n.log2 : Int) + 1 + 0 - 53) (-1074)).toNat = k := by omega
  have hshift := shiftToTargetExponent_of_fits (e := 0 - k) hhigh (by omega)
  unfold UnpackedFloat.ofNat UnpackedFloat.ofInt UnpackedFloat.normalize
  rw [Int.compare_eq_gt.mpr (by omega)]
  show UnpackedFloat.round .binary64 .positive n 0 = _
  unfold UnpackedFloat.round decreaseExponent totalExponent
  dsimp only
  rw [targetExponent_eq, htarget, Nat.shiftLeft_eq,
    roundWithAccuracy_of_shift .positive hshift pos hhigh (by omega), Int.zero_sub]

/-- Dividing by a power of two changes the exponent only. -/
theorem div_denominator {m : Nat} {e : Int} (pos : 0 < m) (low : 2 ^ 52 ≤ m) (high : m < 2 ^ 53)
    (least : -1000 ≤ e) : UnpackedFloat.div .binary64 (.finite .positive m e pos)
      (.finite .positive (2 ^ 52) 1 (by decide)) = .finite .positive m (e - 53) pos := by
  have hlog : m.log2 = 52 := (Nat.log2_eq_iff (Nat.ne_of_gt pos)).mpr ⟨low, high⟩
  have hcore : divCore .binary64 m e (2 ^ 52) 1 = (m * 2 ^ 1, e - 54, .exact) := by
    have htarget : min (e - 1) (max ((((52 : Nat) : Int) + 1 + e)
        - (((52 : Nat) : Int) + 1 + 1) - 53) (-1074)) = e - 54 := by omega
    have hamount : (e - 1 - (e - 54)).toNat = 53 := by omega
    have hscaled : m <<< 53 = m * 2 ^ 1 * 2 ^ 52 := by
      rw [Nat.shiftLeft_eq, Nat.mul_assoc, ← Nat.pow_add]
    unfold divCore totalExponent
    dsimp only
    rw [targetExponent_eq, hlog, Nat.log2_two_pow, htarget, hamount, hscaled,
      Nat.mul_div_cancel _ (by decide), Nat.mul_mod_left]
    rfl
  have hshift := shiftToTargetExponent_of_exact (e := e - 54) 1 low high (by omega)
  show (let (m, e, acc) := divCore .binary64 m e (2 ^ 52) 1
    roundWithAccuracy .binary64 .positive m e acc) = _
  rw [hcore]
  dsimp only
  rw [roundWithAccuracy_of_shift .positive hshift pos high (by omega)]
  congr 1
  omega

/-! ## Shares -/

/-- Counts that fit a mantissa are exact. -/
theorem unpacked_natCast {n : Nat} (hn : 0 < n) (hlt : n < 2 ^ 53) :
    ∃ (m : Nat) (e : Int) (pos : 0 < m), (n : Binary64).unpacked = .finite .positive m e pos ∧
      2 ^ 52 ≤ m ∧ m < 2 ^ 53 ∧ -52 ≤ e ∧ e ≤ 0 := by
  have hlog : n.log2 < 53 := (Nat.log2_lt (Nat.ne_of_gt hn)).mpr hlt
  obtain ⟨k, hk⟩ : ∃ k, n.log2 + k = 52 := ⟨52 - n.log2, by omega⟩
  have hword : n < UInt64.size := Nat.lt_trans hlt (by decide)
  have hfloat : (n : Binary64).unpacked = unpack .binary64 (UnpackedFloat.pack .binary64
      (UnpackedFloat.ofNat .binary64 n)) := by
    show (ofNat n).unpacked = _
    unfold Binary64.ofNat
    rw [if_pos hword, unpacked_ofFloat]
    show unpack .binary64 (UnpackedFloat.pack .binary64
      (UnpackedFloat.ofNat .binary64 n.toUInt64.toNat)) = _
    rw [show n.toUInt64.toNat = n from Nat.mod_eq_of_lt hword]
  obtain ⟨hlow, hhigh, hexact⟩ := ofNat_eq hn hk
  have hpos : 0 < n * 2 ^ k := Nat.lt_of_lt_of_le (by decide) hlow
  refine ⟨n * 2 ^ k, -k, hpos, ?_, hlow, hhigh, by omega, by omega⟩
  rw [hfloat, hexact hpos]
  exact unpack_pack (.of_fits _ hhigh (by omega) (by omega) (fun _ => hlow))

/-- What the upper bits of a word are divided by. -/
theorem unpacked_denominator : ((0x20000000000000 : Nat) : Binary64).unpacked
    = .finite .positive (2 ^ 52) 1 (by decide) := rfl

/-- A share of the unit interval is zero, if the upper bits of the word are, or else a full mantissa
with an exponent that puts it below one. -/
theorem unpacked_unitShare (word : UInt64) :
    word < 2048 ∧ (unitShare word : Binary64).unpacked = .zero .positive ∨
      ¬ word < 2048 ∧ ∃ (m : Nat) (e : Int) (pos : 0 < m), (unitShare word : Binary64).unpacked
        = .finite .positive m e pos ∧ 2 ^ 52 ≤ m ∧ m < 2 ^ 53 ∧ -105 ≤ e ∧ e ≤ -53 := by
  obtain ⟨n, hn⟩ : ∃ n, n = (word >>> 11).toNat := ⟨_, rfl⟩
  have hshift : n = word.toNat / 2 ^ 11 := by
    rw [hn, UInt64.toNat_shiftRight, Nat.shiftRight_eq_div_pow]
    rfl
  have hlt : n < 2 ^ 53 := by
    have hword : word.toNat < 2 ^ 64 := word.toNat_lt
    omega
  have hupper : word < 2048 ↔ n = 0 := by
    rw [UInt64.lt_iff_toNat_lt, show (2048 : UInt64).toNat = 2048 from rfl]
    omega
  have hshare : (unitShare word : Binary64)
      = (n : Binary64) / ((0x20000000000000 : Nat) : Binary64) := by
    rw [hn]
    rfl
  rcases Nat.eq_zero_or_pos n with hzero | hpos
  · refine .inl ⟨hupper.mpr hzero, ?_⟩
    rw [hshare, hzero]
    rfl
  · obtain ⟨m, e, pos, hunpacked, low, high, least, greatest⟩ := unpacked_natCast hpos hlt
    refine .inr ⟨fun h => Nat.ne_of_gt hpos (hupper.mp h), m, e - 53, pos, ?_, low, high, by omega,
      by omega⟩
    rw [hshare, unpacked_div (by rw [hunpacked]; rfl) rfl, hunpacked, unpacked_denominator,
      div_denominator pos low high (by omega)]
    exact unpack_pack (.of_fits pos high (by omega) (by omega) (fun _ => low))

/-- A share of a positive number is not greater than the number. -/
theorem unitShare_mul_le {x : Binary64} {m : Nat} {e : Int} {pos : 0 < m}
    (hx : x.unpacked = .finite .positive m e pos) (word : UInt64) : unitShare word * x ≤ x := by
  have hcanonical := x.canonical_unpacked
  rw [hx] at hcanonical
  rcases unpacked_unitShare word with ⟨-, hzero⟩ | ⟨-, k, f, hk, hshare, -, hlt, -, hsmall⟩
  · rw [le_iff, unpacked_mul (by rw [hzero]; rfl) (by rw [hx]; rfl), hzero, hx]
    exact (unpack_pack (.zero .positive)).symm ▸ rfl
  · obtain ⟨j, rfl⟩ : ∃ j : Nat, f = -j := ⟨(-f).toNat, by omega⟩
    have hkj : k < 2 ^ j := Nat.lt_of_lt_of_le hlt (Nat.pow_le_pow_right (by decide) (by omega))
    have hmul : Canonical (UnpackedFloat.mul .binary64 (.finite .positive k (-j) hk)
          (.finite .positive m e pos)) ∧ (UnpackedFloat.mul .binary64 (.finite .positive k (-j) hk)
          (.finite .positive m e pos)).le (.finite .positive m e pos) = true := by
      cases hcanonical with
      | subnormal _ _ high => exact mul_le_of_subnormal hk hkj pos high
      | normal _ _ low high least greatest =>
        exact mul_le_of_lt_one hk hkj pos low high least greatest
    rw [le_iff, unpacked_mul (by rw [hshare]; rfl) (by rw [hx]; rfl), hshare, hx]
    exact (unpack_pack hmul.1).symm ▸ hmul.2

end Espalier.Binary64
