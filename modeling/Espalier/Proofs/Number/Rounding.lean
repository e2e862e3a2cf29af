import Espalier.Proofs.Number.Order

/-!
# How sums are rounded

A sum of two finite doubles is a whole number of units again, of which at most 53 digits are kept.
`Rounded V j q` says that `q` is what is left of `V` units when the last digit kept stands for
`2 ^ j` of them, and `exists_word` that words for sums are found so.

Two bounds follow. What fits a word is not greater than a rounded sum if it was not greater than
the sum itself (`Rounded.le_of_le`). And what lies less than half a digit above a power of two is
rounded down to it (`Rounded.le_ceiling`).
-/

namespace Espalier.Binary64

open Float.Model Float.Model.UnpackedFloat

/-- `q` is what `V` comes to in steps of `2 ^ j`, which leave 53 digits. -/
structure Rounded (V j q : Nat) : Prop where
  below : V / 2 ^ j ≤ q
  above : q ≤ V / 2 ^ j + 1
  short : V / 2 ^ j < 2 ^ 53
  full : 0 < j → 2 ^ 52 ≤ V / 2 ^ j
  exact : j = 0 → q = V
  /-- Where the first digit cut off is zero, the others do not count. -/
  down : ∀ i, j = i + 1 → V / 2 ^ i % 2 = 0 → q = V / 2 ^ j

namespace Rounded

variable {V j q : Nat}

theorem le (h : Rounded V j q) : q ≤ 2 ^ 53 := Nat.le_trans h.above h.short

theorem pos (h : Rounded V j q) (hV : 0 < V) : 0 < q := by
  by_cases hj : j = 0
  · rw [h.exact hj]
    exact hV
  · have hfull := h.full (Nat.pos_of_ne_zero hj)
    have hbelow := h.below
    omega

/-- What has 53 digits and is not greater before rounding is not greater after. -/
theorem le_of_le (h : Rounded V j q) {m i : Nat} (hm : m < 2 ^ 53) (hle : m * 2 ^ i ≤ V) :
    m * 2 ^ i ≤ q * 2 ^ j := by
  by_cases hji : j ≤ i
  · -- Its digits are among those kept.
    obtain ⟨d, rfl⟩ := Nat.exists_eq_add_of_le' hji
    have hkept : m * 2 ^ d ≤ V / 2 ^ j := by
      rw [Nat.le_div_iff_mul_le (Nat.two_pow_pos j), Nat.mul_assoc, ← Nat.pow_add]
      exact hle
    rw [Nat.pow_add, ← Nat.mul_assoc]
    exact Nat.mul_le_mul_right _ (Nat.le_trans hkept h.below)
  · have hq : 2 ^ 52 ≤ q := Nat.le_trans (h.full (by omega)) h.below
    have hlt := lt_ceiling hm (Nat.le_refl i)
    exact Nat.le_of_lt (Nat.lt_of_lt_of_le hlt (ceiling_le hq (by omega)))

/-- What is less than half a step above a power of two is rounded to at most that. -/
theorem le_ceiling (h : Rounded V j q) {i : Nat} (hV : V < ceiling i + 2 ^ i) :
    q * 2 ^ j ≤ ceiling i := by
  rw [ceiling_eq] at hV ⊢
  have hdigits : V < 2 ^ (53 + j) := by
    rw [Nat.pow_add, ← Nat.div_lt_iff_lt_mul (Nat.two_pow_pos j)]
    exact h.short
  by_cases hlow : V < 2 ^ (53 + i)
  · by_cases hj : j = 0
    · rw [h.exact hj, hj, Nat.pow_zero, Nat.mul_one]
      exact Nat.le_of_lt hlow
    · have hfull := h.full (Nat.pos_of_ne_zero hj)
      rw [Nat.le_div_iff_mul_le (Nat.two_pow_pos j), ← Nat.pow_add] at hfull
      have hji : 52 + j < 53 + i :=
        (Nat.pow_lt_pow_iff_right (by decide)).mp (Nat.lt_of_le_of_lt hfull hlow)
      obtain ⟨d, hd⟩ : ∃ d, 53 + i = d + j := ⟨53 + i - j, by omega⟩
      have hquotient : V / 2 ^ j < 2 ^ d := by
        rw [Nat.div_lt_iff_lt_mul (Nat.two_pow_pos j), ← Nat.pow_add, ← hd]
        exact hlow
      rw [hd, Nat.pow_add]
      exact Nat.mul_le_mul_right _ (Nat.le_trans h.above hquotient)
  · -- The power of two itself has one digit more than are kept.
    have hhigh : 2 ^ (53 + i) ≤ V := Nat.le_of_not_lt hlow
    have hij : 53 + i < 53 + j :=
      (Nat.pow_lt_pow_iff_right (by decide)).mp (Nat.lt_of_le_of_lt hhigh hdigits)
    have hfull := h.full (by omega)
    rw [Nat.le_div_iff_mul_le (Nat.two_pow_pos j), ← Nat.pow_add] at hfull
    have htwice : V < 2 ^ (53 + i + 1) := by
      have hless : 2 ^ i ≤ 2 ^ (53 + i) := Nat.pow_le_pow_right (by decide) (by omega)
      rw [Nat.pow_succ]
      omega
    have hji : 52 + j < 53 + i + 1 :=
      (Nat.pow_lt_pow_iff_right (by decide)).mp (Nat.lt_of_le_of_lt hfull htwice)
    obtain rfl : j = i + 1 := by omega
    have hhalf : V / 2 ^ i = 2 ^ 53 := by
      rw [Nat.div_eq_iff (Nat.two_pow_pos i), ← Nat.pow_add]
      omega
    have hq : q = 2 ^ 52 := by
      rw [h.down i rfl (by omega), Nat.pow_succ, ← Nat.div_div_eq_div_mul, hhalf]
      decide
    rw [hq, ← Nat.pow_add]
    exact Nat.pow_le_pow_right (by decide) (by omega)

end Rounded

/-! ## Into a word -/

/-- A mantissa whose first digit cut off is zero is rounded down. -/
theorem roundedMantissa_of_even {em : ExtendedMantissa} {i : Nat}
    (h : em.mantissa / 2 ^ i % 2 = 0) :
    (em >>> (i + 1)).roundedMantissa = em.mantissa / 2 ^ (i + 1) := by
  have hmantissa := mantissa_shiftRight em (i + 1)
  have hbit : (em >>> (i + 1)).roundBit = false := by
    show ((em >>> i).mantissa % 2 != 0) = false
    rw [mantissa_shiftRight, h]
    rfl
  cases hshift : em >>> (i + 1) with
  | mk m roundBit stickyBit =>
    rw [hshift] at hmantissa hbit
    obtain rfl : roundBit = false := hbit
    rw [← hmantissa]
    cases stickyBit <;> rfl

theorem log2_mul_two_pow {m : Nat} (hm : 0 < m) (l : Nat) : (m * 2 ^ l).log2 = m.log2 + l := by
  have hpos : 0 < m * 2 ^ l := Nat.mul_pos hm (Nat.two_pow_pos l)
  refine (Nat.log2_eq_iff (Nat.ne_of_gt hpos)).mpr ⟨?_, ?_⟩
  · rw [Nat.pow_add]
    exact Nat.mul_le_mul_right _ (Nat.log2_self_le (Nat.ne_of_gt hm))
  · rw [Nat.add_right_comm, Nat.pow_add]
    exact Nat.mul_lt_mul_of_pos_right Nat.lt_log2_self (Nat.two_pow_pos l)

/-- The same quotient of powers of two, written with other ones. -/
theorem mul_div_two_pow {a k j l : Nat} (m : Nat) (h : a + k = j + l) :
    m * 2 ^ l / 2 ^ k = m * 2 ^ a / 2 ^ j := by
  have hsame : 2 ^ l * 2 ^ j = 2 ^ a * 2 ^ k := by
    rw [← Nat.pow_add, ← Nat.pow_add, h, Nat.add_comm]
  rw [← Nat.mul_div_mul_right (m * 2 ^ l) _ (Nat.two_pow_pos j),
    ← Nat.mul_div_mul_right (m * 2 ^ a) _ (Nat.two_pow_pos k), Nat.mul_assoc, Nat.mul_assoc,
    hsame, Nat.mul_comm (2 ^ k)]

/-- The step in which a value is rounded, and what it comes to in such steps. -/
theorem exists_round (s : Sign) {m : Nat} {e : Int} (hm : 0 < m) (he : -1074 ≤ e) :
    ∃ j q : Nat, ∃ pos : 0 < q, Rounded (m * 2 ^ (e + 1074).toNat) j q ∧
      UnpackedFloat.round .binary64 s m e = if q < 2 ^ 53 then .finite s q (j - 1074) pos
        else .finite s (2 ^ 52) (j - 1073) (by decide) := by
  obtain ⟨j, hj⟩ : ∃ j : Nat, (j : Int) - 1074 = max (m.log2 + 1 + e - 53) (-1074) :=
    ⟨(max (m.log2 + 1 + e - 53) (-1074) + 1074).toNat, by omega⟩
  obtain ⟨a, rfl⟩ : ∃ a : Nat, e = a - 1074 := ⟨(e + 1074).toNat, by omega⟩
  rw [show ((a : Int) - 1074 + 1074).toNat = a by omega]
  -- The mantissa is given `l` digits more, or else `k` of its digits are cut off.
  obtain ⟨l, hl⟩ : ∃ l : Nat, l = a - j := ⟨_, rfl⟩
  obtain ⟨k, hk⟩ : ∃ k : Nat, k = j - a := ⟨_, rfl⟩
  have hround : UnpackedFloat.round .binary64 s m (a - 1074)
      = roundWithAccuracy .binary64 s (m * 2 ^ l) (a - 1074 - l) .exact := by
    unfold UnpackedFloat.round decreaseExponent totalExponent
    dsimp only
    rw [targetExponent_eq, ← hj, Nat.shiftLeft_eq,
      show ((a : Int) - 1074 - ((j : Int) - 1074)).toNat = l by omega]
  have hshift : shiftToTargetExponent .binary64 (m * 2 ^ l) (a - 1074 - l) .exact
      = ((ExtendedMantissa.mk (m * 2 ^ l) false false) >>> k, (j : Int) - 1074) := by
    rw [shiftToTargetExponent_eq, log2_mul_two_pow hm]
    have hamount : (max (((m.log2 + l : Nat) : Int) + 1 + (a - 1074 - l) - 53) (-1074)
        - (a - 1074 - l)).toNat = k := by omega
    rw [hamount]
    congr 1
    omega
  have hsteps : m * 2 ^ l / 2 ^ k = m * 2 ^ a / 2 ^ j := mul_div_two_pow m (by omega)
  have hbounds := roundedMantissa_bounds ((ExtendedMantissa.mk (m * 2 ^ l) false false) >>> k)
  rw [mantissa_shiftRight] at hbounds
  dsimp only at hbounds
  rw [hsteps] at hbounds
  have hrounded : Rounded (m * 2 ^ a) j
      ((ExtendedMantissa.mk (m * 2 ^ l) false false) >>> k).roundedMantissa := by
    constructor
    case below => exact hbounds.1
    case above => exact hbounds.2
    case short =>
      rw [Nat.div_lt_iff_lt_mul (Nat.two_pow_pos j), ← Nat.pow_add]
      exact Nat.lt_of_lt_of_le (Nat.mul_lt_mul_of_pos_right Nat.lt_log2_self (Nat.two_pow_pos a))
        (by rw [← Nat.pow_add]; exact Nat.pow_le_pow_right (by decide) (by omega))
    case full =>
      intro hpos
      rw [Nat.le_div_iff_mul_le (Nat.two_pow_pos j), ← Nat.pow_add]
      refine Nat.le_trans ?_ (Nat.mul_le_mul_right _ (Nat.log2_self_le (Nat.ne_of_gt hm)))
      rw [← Nat.pow_add]
      exact Nat.pow_le_pow_right (by decide) (by omega)
    case exact =>
      intro hzero
      obtain rfl : k = 0 := by omega
      obtain rfl : l = a := by omega
      rfl
    case down =>
      rintro i rfl heven
      cases k with
      | zero =>
        rw [← hsteps, Nat.pow_zero, Nat.div_one]
        rfl
      | succ k =>
        rw [← mul_div_two_pow m (show a + k = i + l by omega)] at heven
        rw [← hsteps]
        exact roundedMantissa_of_even heven
  have hpos := hrounded.pos (Nat.mul_pos hm (Nat.two_pow_pos a))
  refine ⟨j, _, hpos, hrounded, ?_⟩
  rw [hround, roundWithAccuracy_eq s hshift (by omega) hrounded.le, dif_neg (Nat.ne_of_gt hpos),
    show (j : Int) - 1074 + 1 = j - 1073 by omega]

/-- What a value is when it has been put into a word. -/
def repacked (u : UnpackedFloat) : UnpackedFloat :=
  unpack .binary64 (UnpackedFloat.pack .binary64 u)

theorem repacked_eq {u : UnpackedFloat} (h : Canonical u) : repacked u = u := unpack_pack h

/-- An exponent beyond the greatest one makes a value infinite. -/
theorem repacked_of_great {s : Sign} {m : Nat} {e : Int} {pos : 0 < m} (h : 971 < e) :
    repacked (.finite s m e pos) = .infinity s := by
  have hgreat : 2 ^ 11 ≤ (e + (1023 : Nat) + (52 : Nat)).toNat + 1 := by omega
  have hpack : UnpackedFloat.pack .binary64 (.finite s m e pos)
      = UnpackedFloat.pack .binary64 (.infinity s) := if_pos hgreat
  unfold repacked
  rw [hpack]
  exact unpack_pack (.infinity s)

/-- A full mantissa is kept as it is, unless its exponent is too great. -/
theorem repacked_full (s : Sign) {m : Nat} {e : Int} (pos : 0 < m) (low : 2 ^ 52 ≤ m)
    (high : m < 2 ^ 53) (least : -1074 ≤ e) :
    repacked (.finite s m e pos) = .finite s m e pos ∨
      repacked (.finite s m e pos) = .infinity s := by
  by_cases hgreat : 971 < e
  · exact Or.inr (repacked_of_great hgreat)
  · exact Or.inl (repacked_eq (.of_fits pos high least (Int.not_lt.mp hgreat) fun _ => low))

/-- What a rounded value is in a word: so many steps, or infinite if the steps are too great. -/
theorem exists_word (s : Sign) {m : Nat} {e : Int} (hm : 0 < m) (he : -1074 ≤ e) :
    ∃ j q : Nat, Rounded (m * 2 ^ (e + 1074).toNat) j q ∧
      ((beyond ≤ q * 2 ^ j ∧ repacked (UnpackedFloat.round .binary64 s m e) = .infinity s) ∨
        ∃ M E, ∃ pos : 0 < M, M * 2 ^ (E + 1074).toNat = q * 2 ^ j ∧
          repacked (UnpackedFloat.round .binary64 s m e) = .finite s M E pos) := by
  obtain ⟨j, q, pos, hrounded, hround⟩ := exists_round s hm he
  refine ⟨j, q, hrounded, ?_⟩
  rw [hround]
  by_cases hfits : q < 2 ^ 53
  · rw [if_pos hfits]
    by_cases hgreat : 971 < (j : Int) - 1074
    · refine Or.inl ⟨?_, repacked_of_great hgreat⟩
      have hfull : 2 ^ 52 ≤ q := Nat.le_trans (hrounded.full (by omega)) hrounded.below
      exact ceiling_le hfull (by omega)
    · have hexponent : ((j : Int) - 1074 + 1074).toNat = j := by omega
      refine Or.inr ⟨q, j - 1074, pos, by rw [hexponent], ?_⟩
      refine repacked_eq (.of_fits pos hfits (by omega) (by omega) fun hleast => ?_)
      exact Nat.le_trans (hrounded.full (by omega)) hrounded.below
  · rw [if_neg hfits]
    have hq : q = 2 ^ 53 := Nat.le_antisymm hrounded.le (Nat.le_of_not_lt hfits)
    by_cases hgreat : 971 < (j : Int) - 1073
    · refine Or.inl ⟨?_, repacked_of_great hgreat⟩
      rw [hq]
      exact ceiling_mono (by omega)
    · refine Or.inr ⟨2 ^ 52, j - 1073, by decide, ?_, ?_⟩
      · rw [hq, show ((j : Int) - 1073 + 1074).toNat = j + 1 by omega, Nat.pow_succ]
        omega
      · exact repacked_eq (.of_fits (by decide) (by decide) (by omega) (by omega) fun _ =>
          Nat.le_refl _)

end Espalier.Binary64
