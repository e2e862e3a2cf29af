import Espalier.Proofs.Number.Rounding

/-!
# Sums and differences

What rounding leaves of the laws of addition. A sum of numbers that are not negative is not less
than either of them (`le_add`), and what is added to a power of two does not count when it is small
enough (`Sum.high`). A difference has the sign it should have (`sub_nonpos`), and a number without
itself is exactly zero (`sub_self`). Two numbers have no sum only if they are infinite and of
opposite sign (`isNaN_add_iff`).
-/

namespace Espalier.Binary64

open Float.Model Float.Model.UnpackedFloat

variable {x y : Binary64}

/-! ## Signs -/

/-- The numbers that are not below zero. -/
inductive AtLeastZero : UnpackedFloat → Prop where
  | zero (s : Sign) : AtLeastZero (.zero s)
  | finite {m : Nat} {e : Int} (pos : 0 < m) : AtLeastZero (.finite .positive m e pos)
  | infinity : AtLeastZero (.infinity .positive)

theorem AtLeastZero.isNaN {u : UnpackedFloat} (h : AtLeastZero u) : u.isNaN = false := by
  cases h <;> rfl

theorem atLeastZero_iff : 0 ≤ x ↔ AtLeastZero x.unpacked := by
  rw [le_iff]
  show (UnpackedFloat.zero .positive).le x.unpacked = true ↔ _
  cases x.unpacked with
  | notANumber => exact ⟨nofun, nofun⟩
  | zero s => exact ⟨fun _ => .zero s, fun _ => rfl⟩
  | infinity s =>
    cases s with
    | positive => exact ⟨fun _ => .infinity, fun _ => rfl⟩
    | negative => exact ⟨nofun, nofun⟩
  | finite s m e pos =>
    cases s with
    | positive => exact ⟨fun _ => .finite pos, fun _ => rfl⟩
    | negative => exact ⟨nofun, nofun⟩

/-- The numbers that are not above zero. -/
inductive AtMostZero : UnpackedFloat → Prop where
  | zero (s : Sign) : AtMostZero (.zero s)
  | finite {m : Nat} {e : Int} (pos : 0 < m) : AtMostZero (.finite .negative m e pos)
  | infinity : AtMostZero (.infinity .negative)

theorem atMostZero_iff : x ≤ 0 ↔ AtMostZero x.unpacked := by
  rw [le_iff]
  show x.unpacked.le (UnpackedFloat.zero .positive) = true ↔ _
  cases x.unpacked with
  | notANumber => exact ⟨nofun, nofun⟩
  | zero s => exact ⟨fun _ => .zero s, fun _ => rfl⟩
  | infinity s =>
    cases s with
    | positive => exact ⟨nofun, nofun⟩
    | negative => exact ⟨fun _ => .infinity, fun _ => rfl⟩
  | finite s m e pos =>
    cases s with
    | positive => exact ⟨nofun, nofun⟩
    | negative => exact ⟨fun _ => .finite pos, fun _ => rfl⟩

/-! ## Sums -/

/-- A finite value on a finer grid. -/
theorem units_aligned (m : Nat) {e c : Int} (hce : c ≤ e) (hc : -1074 ≤ c) :
    m <<< (e - c).toNat * 2 ^ (c + 1074).toNat = m * 2 ^ (e + 1074).toNat := by
  rw [Nat.shiftLeft_eq, Nat.mul_assoc, ← Nat.pow_add]
  congr 2
  omega

theorem normalize_of_pos {m : Nat} (h : 0 < m) (e : Int) (s : Sign) :
    UnpackedFloat.normalize .binary64 m e s = UnpackedFloat.round .binary64 .positive m e := by
  unfold UnpackedFloat.normalize
  rw [Int.compare_eq_gt.mpr (Int.natCast_pos.mpr h)]
  rfl

/-- What a sum of numbers that are not negative is like. -/
structure Sum (u v w : UnpackedFloat) : Prop where
  sign : AtLeastZero w
  left : units u ≤ units w
  right : units v ≤ units w
  /-- What does not count next to a power of two does not lead beyond it. -/
  high : ∀ i, i < 2045 → units u ≤ ceiling i → units v < (2 ^ i : Nat) → units w ≤ ceiling i

theorem Sum.of_infinity {u v : UnpackedFloat} (hu : Canonical u) (hv : Canonical v)
    (h : u = .infinity .positive ∨ v = .infinity .positive) : Sum u v (.infinity .positive) := by
  refine ⟨.infinity, units_le_beyond hu, units_le_beyond hv, fun i hi hle hlt => ?_⟩
  have hceiling : (ceiling i : Int) < beyond := Int.ofNat_lt.mpr (ceiling_lt hi)
  have hpow : ((2 ^ i : Nat) : Int) ≤ ceiling i := Int.ofNat_le.mpr (two_pow_le_ceiling i)
  have hinfinity : units (.infinity .positive) = beyond := rfl
  rcases h with rfl | rfl
  · rw [hinfinity] at hle
    omega
  · rw [hinfinity] at hlt
    omega

/-- The sum of two positive finite numbers is that of their units, rounded. -/
theorem sum_finite {m m' : Nat} {e e' : Int} {pos : 0 < m} {pos' : 0 < m'}
    (hx : x.unpacked = .finite .positive m e pos) (hy : y.unpacked = .finite .positive m' e' pos') :
    Sum x.unpacked y.unpacked (x + y).unpacked := by
  -- Both are brought to the lesser exponent before they are added.
  obtain ⟨high, least, -⟩ := (hx ▸ x.canonical_unpacked : Canonical _).bounds
  obtain ⟨high', least', -⟩ := (hy ▸ y.canonical_unpacked : Canonical _).bounds
  obtain ⟨c, hc⟩ : ∃ c, c = min e e' := ⟨_, rfl⟩
  have hpos : 0 < m <<< (e - c).toNat + m' <<< (e' - c).toNat := by
    refine Nat.add_pos_left ?_ _
    rw [Nat.shiftLeft_eq]
    exact Nat.mul_pos pos (Nat.two_pow_pos _)
  have hadd : (x + y).unpacked = repacked (UnpackedFloat.round .binary64 .positive
      (m <<< (e - c).toNat + m' <<< (e' - c).toNat) c) := by
    rw [unpacked_add (by rw [hx]; rfl) (by rw [hy]; rfl), hx, hy,
      ← normalize_of_pos hpos c .positive, hc]
    rfl
  obtain ⟨j, q, hrounded, hword⟩ := exists_word .positive hpos (show -1074 ≤ c by omega)
  rw [Nat.add_mul, units_aligned m (by omega) (by omega),
    units_aligned m' (by omega) (by omega)] at hrounded
  rw [← hadd] at hword
  have hhigh {i : Nat} (hle : units x.unpacked ≤ ceiling i)
      (hlt : units y.unpacked < (2 ^ i : Nat)) : q * 2 ^ j ≤ ceiling i := by
    rw [hx, units_positive] at hle
    rw [hy, units_positive] at hlt
    exact hrounded.le_ceiling (by omega)
  rcases hword with ⟨hgreat, hword⟩ | ⟨M, E, Pos, hunits, hword⟩
  · rw [hword]
    refine ⟨.infinity, units_le_beyond x.canonical_unpacked, units_le_beyond y.canonical_unpacked,
      fun i hi hle hlt => ?_⟩
    exact absurd (Nat.le_trans hgreat (hhigh hle hlt)) (Nat.not_le_of_lt (ceiling_lt hi))
  · have hw : units (x + y).unpacked = ((q * 2 ^ j : Nat) : Int) := by
      rw [hword, units_positive, hunits]
    refine ⟨hword ▸ .finite Pos, ?_, ?_, fun i _ hle hlt => ?_⟩
    · rw [hw, hx, units_positive]
      exact Int.ofNat_le.mpr (hrounded.le_of_le high (Nat.le_add_right _ _))
    · rw [hw, hy, units_positive]
      exact Int.ofNat_le.mpr (hrounded.le_of_le high' (Nat.le_add_left _ _))
    · rw [hw]
      exact Int.ofNat_le.mpr (hhigh hle hlt)

/-- Numbers that are not negative are added up so. -/
theorem sum_add (hx : 0 ≤ x) (hy : 0 ≤ y) : Sum x.unpacked y.unpacked (x + y).unpacked := by
  rw [atLeastZero_iff] at hx hy
  have hadd {w : UnpackedFloat} (hw : UnpackedFloat.add .binary64 x.unpacked y.unpacked = w)
      (hcanonical : Canonical w) : (x + y).unpacked = w := by
    rw [unpacked_add hx.isNaN hy.isNaN, hw]
    exact repacked_eq hcanonical
  have hcx := x.canonical_unpacked
  have hcy := y.canonical_unpacked
  obtain ⟨u, hu⟩ : ∃ u, x.unpacked = u := ⟨_, rfl⟩
  obtain ⟨v, hv⟩ : ∃ v, y.unpacked = v := ⟨_, rfl⟩
  rw [hu] at hx hcx
  rw [hv] at hy hcy
  rw [hu, hv] at hadd ⊢
  cases hx with
  | infinity =>
    rw [hadd (by cases hy <;> rfl) (.infinity _)]
    exact .of_infinity hcx hcy (.inl rfl)
  | zero s =>
    cases hy with
    | infinity =>
      rw [hadd rfl (.infinity _)]
      exact .of_infinity hcx hcy (.inr rfl)
    | zero s' =>
      have hzero : ∃ z, (x + y).unpacked = .zero z := by
        cases s <;> cases s' <;> exact ⟨_, hadd rfl (.zero _)⟩
      obtain ⟨z, hz⟩ := hzero
      rw [hz]
      exact ⟨.zero z, Int.le_refl _, Int.le_refl _, fun _ _ hle _ => hle⟩
    | finite pos' =>
      rw [hadd rfl hcy]
      refine ⟨.finite pos', Int.natCast_nonneg _, Int.le_refl _, fun i _ _ hlt => ?_⟩
      exact Int.le_trans (Int.le_of_lt hlt) (Int.ofNat_le.mpr (two_pow_le_ceiling i))
  | finite pos =>
    cases hy with
    | infinity =>
      rw [hadd rfl (.infinity _)]
      exact .of_infinity hcx hcy (.inr rfl)
    | zero s' =>
      rw [hadd rfl hcx]
      exact ⟨.finite pos, Int.le_refl _, Int.natCast_nonneg _, fun _ _ hle _ => hle⟩
    | finite pos' =>
      rw [← hu, ← hv]
      exact sum_finite hu hv

/-- A sum is not less than what has been added to it. -/
theorem le_add (hx : 0 ≤ x) (hy : 0 ≤ y) : x ≤ x + y ∧ y ≤ x + y := by
  have hsum := sum_add hx hy
  have hadd : (x + y).isNaN = false := (isNaN_eq _).trans hsum.sign.isNaN
  rw [le_iff_units (isNaN_of_le hx).2 hadd, le_iff_units (isNaN_of_le hy).2 hadd]
  exact ⟨hsum.left, hsum.right⟩

/-! ## Differences -/

theorem unpacked_sub (hx : x.unpacked.isNaN = false) (hy : y.unpacked.isNaN = false) :
    (x - y).unpacked = repacked (UnpackedFloat.sub .binary64 x.unpacked y.unpacked) :=
  unpacked_lift₂ (fun _ _ => rfl) hx hy

/-- The difference of two finite numbers is that of their units, before it is rounded. -/
theorem sub_finite {s s' : Sign} {m m' : Nat} {e e' : Int} {pos : 0 < m} {pos' : 0 < m'}
    (hx : x.unpacked = .finite s m e pos) (hy : y.unpacked = .finite s' m' e' pos') :
    ∃ d c : Int, -1074 ≤ c ∧
      d * (2 ^ (c + 1074).toNat : Nat) = units x.unpacked - units y.unpacked ∧
      (x - y).unpacked = repacked (UnpackedFloat.normalize .binary64 d c .positive) := by
  obtain ⟨-, least, -⟩ := (hx ▸ x.canonical_unpacked : Canonical _).bounds
  obtain ⟨-, least', -⟩ := (hy ▸ y.canonical_unpacked : Canonical _).bounds
  obtain ⟨c, hc⟩ : ∃ c, c = min e e' := ⟨_, rfl⟩
  have hunits (s : Sign) {m : Nat} {e : Int} (pos : 0 < m) (hce : c ≤ e) :
      s.apply ((m <<< (e - c).toNat : Nat) : Int) * ((2 ^ (c + 1074).toNat : Nat) : Int)
        = units (.finite s m e pos) := by
    have haligned := congrArg (Nat.cast : Nat → Int) (units_aligned m hce (by omega))
    rw [Int.natCast_mul] at haligned
    cases s with
    | positive => exact haligned
    | negative => exact (Int.neg_mul _ _).trans (congrArg Neg.neg haligned)
  refine ⟨s.apply (m <<< (e - c).toNat : Nat) - s'.apply (m' <<< (e' - c).toNat : Nat), c,
    by omega, ?_, ?_⟩
  · rw [Int.sub_mul, hunits s pos (by omega), hunits s' pos' (by omega), hx, hy]
  · rw [unpacked_sub (by rw [hx]; rfl) (by rw [hy]; rfl), hx, hy, hc]
    rfl

theorem repacked_atMostZero {d c : Int} (hd : d ≤ 0) (hc : -1074 ≤ c) :
    AtMostZero (repacked (UnpackedFloat.normalize .binary64 d c .positive)) := by
  unfold UnpackedFloat.normalize
  cases hcompare : compare d 0 with
  | gt => exact absurd (Int.compare_eq_gt.mp hcompare) (Int.not_lt.mpr hd)
  | eq => exact (repacked_eq (.zero .positive)).symm ▸ .zero .positive
  | lt =>
    have hlt := Int.compare_eq_lt.mp hcompare
    obtain ⟨j, q, -, ⟨-, hword⟩ | ⟨M, E, pos, -, hword⟩⟩ :=
      exists_word .negative (show 0 < (-d).toNat by omega) hc
    · exact hword ▸ .infinity
    · exact hword ▸ .finite pos

/-- What is no number is none when it has been made quiet. -/
theorem isNaN_quiet (h : x.isNaN = true) : x.quiet.isNaN = true := by
  unfold isNaN at h ⊢
  unfold quiet
  rw [decide_eq_true_iff, UInt64.lt_iff_toNat_lt, UInt64.toNat_and] at h ⊢
  rw [UInt64.toNat_or, Nat.and_or_distrib_right]
  exact Nat.lt_of_lt_of_le h Nat.left_le_or

/-- Without a zero a number is above zero exactly when it was before. -/
theorem sub_zero_nonpos_iff {s : Sign} (hy : y.unpacked = .zero s) : x - y ≤ 0 ↔ x ≤ 0 := by
  by_cases hx : x.isNaN = true
  · have hsub : x - y = x.quiet := if_pos hx
    refine ⟨fun hle => ?_, fun hle => ?_⟩
    · have := (isNaN_of_le hle).1
      rw [hsub, isNaN_quiet hx] at this
      exact nomatch this
    · have := (isNaN_of_le hle).1
      rw [hx] at this
      exact nomatch this
  · rw [isNaN_eq, Bool.not_eq_true] at hx
    have hsub : (x - y).unpacked = repacked (UnpackedFloat.sub .binary64 x.unpacked (.zero s)) := by
      rw [unpacked_sub hx (by rw [hy]; rfl), hy]
    have hcanonical := x.canonical_unpacked
    rw [atMostZero_iff, atMostZero_iff, hsub]
    generalize x.unpacked = u at hx hcanonical
    cases u with
    | notANumber => exact nomatch hx
    | infinity | finite => exact iff_of_eq (congrArg AtMostZero (repacked_eq hcanonical))
    | zero s' =>
      refine iff_of_true ?_ (.zero s')
      cases s <;> cases s' <;> exact (repacked_eq (.zero _)).symm ▸ .zero _

/-- What is not above a finite number is not above zero when that is subtracted. -/
theorem sub_nonpos (h : x ≤ y) (hfinite : y.isFinite = true) : x - y ≤ 0 := by
  obtain ⟨hx, hy⟩ := isNaN_of_le h
  rw [le_iff_units hx hy] at h
  rw [isFinite_eq] at hfinite
  have hcx := x.canonical_unpacked
  have hcy := y.canonical_unpacked
  cases hv : y.unpacked with
  | notANumber | infinity => exact nomatch hv ▸ hfinite
  | zero s' =>
    rw [hv, units_zero] at h
    exact (sub_zero_nonpos_iff hv).mpr ((le_iff_units hx rfl).mpr h)
  | finite s' m' e' pos' =>
    rw [hv] at hcy
    rw [isNaN_eq] at hx
    have hsub {w : UnpackedFloat} (hw : UnpackedFloat.sub .binary64 x.unpacked y.unpacked = w)
        (hcanonical : Canonical w) : (x - y).unpacked = w := by
      rw [unpacked_sub hx (by rw [hv]; rfl), hw, repacked_eq hcanonical]
    have hsize : 0 < m' * 2 ^ (e' + 1074).toNat := Nat.mul_pos pos' (Nat.two_pow_pos _)
    rw [atMostZero_iff]
    cases hu : x.unpacked with
    | notANumber => exact nomatch hu ▸ hx
    | zero s =>
      rw [hu, hv, units_zero] at h
      cases s' with
      | positive =>
        rw [hsub (by rw [hu, hv]; rfl) (hcy.withSign .negative)]
        exact .finite pos'
      | negative =>
        rw [units_negative] at h
        omega
    | infinity s =>
      cases s with
      | positive =>
        rw [hu, hv] at h
        exact absurd h (Int.not_le_of_gt (units_between hcy rfl).2)
      | negative =>
        rw [hsub (by rw [hu, hv]; rfl) (.infinity .negative)]
        exact .infinity
    | finite s m e pos =>
      -- Only here there is something to round.
      obtain ⟨d, c, hc, hunits, hword⟩ := sub_finite hu hv
      rw [hword]
      refine repacked_atMostZero (Int.not_lt.mp fun hd => ?_) hc
      have hpos := Int.mul_pos hd (Int.natCast_pos.mpr (Nat.two_pow_pos (c + 1074).toNat))
      omega

/-- A finite number without itself is zero, the one without a sign. -/
theorem sub_self (h : x.isFinite = true) : x - x = 0 := by
  have hzero : (x - x).unpacked = .zero .positive := by
    rw [isFinite_eq] at h
    cases hu : x.unpacked with
    | notANumber | infinity => exact nomatch hu ▸ h
    | zero s =>
      rw [unpacked_sub (by rw [hu]; rfl) (by rw [hu]; rfl), hu]
      cases s <;> exact repacked_eq (.zero _)
    | finite s m e pos =>
      obtain ⟨d, c, -, hunits, hword⟩ := sub_finite hu hu
      rw [Int.sub_self] at hunits
      rcases Int.mul_eq_zero.mp hunits with rfl | hpow
      · rw [hword]
        exact repacked_eq (.zero _)
      · exact absurd hpow (Int.natCast_ne_zero.mpr (Nat.ne_of_gt (Nat.two_pow_pos _)))
  exact eq_of_unpacked hzero (by rw [isNaN_eq, hzero]; rfl)

/-- Nothing finite that is subtracted from an infinite number matters. -/
theorem sub_of_infinite {s : Sign} (hx : x.unpacked = .infinity s) (hfinite : y.isFinite = true) :
    x - y = x := by
  have hsub : (x - y).unpacked = .infinity s := by
    rw [isFinite_eq] at hfinite
    cases hv : y.unpacked with
    | notANumber | infinity => exact nomatch hv ▸ hfinite
    | zero | finite =>
      rw [unpacked_sub (by rw [hx]; rfl) (by rw [hv]; rfl), hx, hv]
      exact repacked_eq (.infinity s)
  exact eq_of_unpacked (hsub.trans hx.symm) (by rw [isNaN_eq, hsub]; rfl)

/-! ## Sums that are no numbers -/

/-- However many steps there are, rounding them gives a number. -/
theorem isNaN_repacked (d : Int) {c : Int} (hc : -1074 ≤ c) (s : Sign) :
    (repacked (UnpackedFloat.normalize .binary64 d c s)).isNaN = false := by
  have hround (s : Sign) {m : Nat} (hm : 0 < m) :
      (repacked (UnpackedFloat.round .binary64 s m c)).isNaN = false := by
    obtain ⟨j, q, -, ⟨-, hword⟩ | ⟨M, E, pos, -, hword⟩⟩ := exists_word s hm hc
    · rw [hword]
      rfl
    · rw [hword]
      rfl
  unfold UnpackedFloat.normalize
  cases hcompare : compare d 0 with
  | lt =>
    have hlt := Int.compare_eq_lt.mp hcompare
    exact hround .negative (by omega)
  | eq => exact (repacked_eq (.zero s)).symm ▸ rfl
  | gt =>
    have hgt := Int.compare_eq_gt.mp hcompare
    exact hround .positive (by omega)

/-- What stands for something infinite is infinite. -/
theorem eq_infinity_of_unpacked {s : Sign} (h : x.unpacked = .infinity s) :
    x = match s with
      | .positive => infinity
      | .negative => -infinity := by
  have hnumber : x.isNaN = false := by
    rw [isNaN_eq, h]
    rfl
  cases s with
  | positive => exact eq_of_unpacked (y := infinity) h hnumber
  | negative => exact eq_of_unpacked (y := -infinity) h hnumber

/-- The sum of two numbers is none exactly when they are infinite and of opposite sign. -/
theorem isNaN_add_iff (hx : x.isNaN = false) (hy : y.isNaN = false) :
    (x + y).isNaN = true ↔ x = infinity ∧ y = -infinity ∨ x = -infinity ∧ y = infinity := by
  constructor
  · intro hsum
    rw [isNaN_eq] at hx hy hsum
    rw [unpacked_add hx hy] at hsum
    have hcx := x.canonical_unpacked
    have hcy := y.canonical_unpacked
    have hnumber {w : UnpackedFloat}
        (hw : UnpackedFloat.add .binary64 x.unpacked y.unpacked = w) (hcanonical : Canonical w)
        (h : w.isNaN = false) : False := by
      rw [hw, unpack_pack hcanonical, h] at hsum
      exact nomatch hsum
    cases hu : x.unpacked with
    | notANumber => exact nomatch hu ▸ hx
    | zero s =>
      cases hv : y.unpacked with
      | notANumber => exact nomatch hv ▸ hy
      | infinity s' => exact (hnumber (by rw [hu, hv]; rfl) (.infinity s') rfl).elim
      | zero s' =>
        refine (hnumber (w := .zero (if s == s' then s else .positive)) ?_ (.zero _) rfl).elim
        rw [hu, hv]
        cases s <;> cases s' <;> rfl
      | finite => exact (hnumber (by rw [hu, hv]; rfl) (hv ▸ hcy) rfl).elim
    | infinity s =>
      cases hv : y.unpacked with
      | notANumber => exact nomatch hv ▸ hy
      | zero | finite => exact (hnumber (by rw [hu, hv]; rfl) (.infinity s) rfl).elim
      | infinity s' =>
        rw [eq_infinity_of_unpacked hu, eq_infinity_of_unpacked hv]
        cases s <;> cases s'
        case positive.negative => exact .inl ⟨rfl, rfl⟩
        case negative.positive => exact .inr ⟨rfl, rfl⟩
        all_goals exact (hnumber (by rw [hu, hv]; rfl) (.infinity _) rfl).elim
    | finite s m e pos =>
      cases hv : y.unpacked with
      | notANumber => exact nomatch hv ▸ hy
      | zero => exact (hnumber (by rw [hu, hv]; rfl) (hu ▸ hcx) rfl).elim
      | infinity s' => exact (hnumber (by rw [hu, hv]; rfl) (.infinity s') rfl).elim
      | finite s' m' e' pos' =>
        -- Only here there is something to round.
        obtain ⟨-, least, -⟩ := (hu ▸ hcx : Canonical _).bounds
        obtain ⟨-, least', -⟩ := (hv ▸ hcy : Canonical _).bounds
        rw [hu, hv] at hsum
        have hrounded := isNaN_repacked (s.apply (m <<< (e - min e e').toNat : Nat)
          + s'.apply (m' <<< (e' - min e e').toNat : Nat)) (c := min e e') (by omega) .positive
        exact nomatch hsum.symm.trans hrounded
  · rintro (⟨rfl, rfl⟩ | ⟨rfl, rfl⟩) <;> decide

/-- A sum of numbers that is none is the negative value without payload. -/
theorem add_eq_invalid (hx : x.isNaN = false) (hy : y.isNaN = false)
    (h : (x + y).isNaN = true) : x + y = invalid := by
  rcases (isNaN_add_iff hx hy).mp h with ⟨rfl, rfl⟩ | ⟨rfl, rfl⟩ <;> decide

end Espalier.Binary64
