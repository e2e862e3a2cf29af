import Espalier.Proofs.Number.Totals
import Espalier.Proofs.Search.Reports

/-!
# When weights are of no use

Weights are exponentials of their logarithms less the largest finite one, so however small they
would be by themselves, the largest is one. `uniform_iff` says of a resampling when the parents are
drawn uniformly nevertheless: when no logarithm is finite or one is infinite. In all other cases the
weights are between zero and one, one of them is one and their total is finite, so that nothing can
be so small that it makes the weights useless.

All of this is about doubles as they are rounded. Of the exponential function only what `IsExp` says
is used: `WithExp` are the doubles with any function in its place.
-/

namespace Espalier

namespace Binary64

/-- Doubles, with a function in the place of the exponential one. -/
def WithExp (_ : Binary64 → Binary64) : Type := Binary64

def WithExp.infinity {exp : Binary64 → Binary64} : WithExp exp := Binary64.infinity

def WithExp.negInfinity {exp : Binary64 → Binary64} : WithExp exp := -Binary64.infinity

instance (exp : Binary64 → Binary64) : Scalar (WithExp exp) :=
  { (inferInstance : Scalar Binary64) with exp }

instance (exp : Binary64 → Binary64) : DecidableEq (WithExp exp) :=
  inferInstanceAs (DecidableEq Binary64)

/-- With the exponential function itself they are the doubles that programs run with. -/
theorem scalar_withExp :
    (inferInstance : Scalar (WithExp Scalar.exp)) = (inferInstance : Scalar Binary64) := rfl

/-- What weights need of an exponential function. That it is infinite at infinity is assumed only
where an infinite logarithm is next to a finite one (`Overshadowed`). -/
structure IsExp (exp : Binary64 → Binary64) : Prop where
  zero : exp 0 = 1
  unit : ∀ x, x ≤ 0 → 0 ≤ exp x ∧ exp x ≤ 1
  negInfinity : exp (-infinity) = 0

end Binary64

namespace Search

open Binary64

/-! ## The largest of some numbers -/

theorem foldl_largest {values : List Binary64} (hnumbers : ∀ x ∈ values, x.isNaN = false)
    {start top : Binary64} (hstart : start.isNaN = false)
    (h : values.foldl (fun top x => if top < x then x else top) start = top) :
    top ∈ start :: values ∧ ∀ x ∈ start :: values, x ≤ top := by
  induction values generalizing start with
  | nil =>
    obtain rfl : start = top := h
    exact ⟨List.mem_cons_self, List.forall_mem_cons.mpr ⟨le_refl hstart, nofun⟩⟩
  | cons value values ih =>
    obtain ⟨hvalue, hvalues⟩ := List.forall_mem_cons.mp hnumbers
    rw [List.foldl_cons] at h
    by_cases hlt : start < value
    · rw [if_pos hlt] at h
      obtain ⟨hmem, hle⟩ := ih hvalues hvalue h
      have hfirst := Binary64.le_trans (le_of_lt hlt) (hle value List.mem_cons_self)
      exact ⟨List.mem_cons_of_mem _ hmem, List.forall_mem_cons.mpr ⟨hfirst, hle⟩⟩
    · rw [if_neg hlt] at h
      obtain ⟨hmem, hle⟩ := ih hvalues hstart h
      obtain ⟨hfirst, hrest⟩ := List.forall_mem_cons.mp hle
      have hsecond := Binary64.le_trans (le_of_not_lt hstart hvalue hlt) hfirst
      refine ⟨?_, List.forall_mem_cons.mpr ⟨hfirst, List.forall_mem_cons.mpr ⟨hsecond, hrest⟩⟩⟩
      rcases List.mem_cons.mp hmem with rfl | hmem
      · exact List.mem_cons_self
      · exact List.mem_cons_of_mem _ (List.mem_cons_of_mem _ hmem)

/-- The largest of some numbers is one of them, and none is above it. -/
theorem largest?_spec {values : List Binary64} (hnumbers : ∀ x ∈ values, x.isNaN = false)
    {top : Binary64} (h : largest? values = some top) : top ∈ values ∧ ∀ x ∈ values, x ≤ top := by
  cases values with
  | nil => exact nomatch h
  | cons value values =>
    obtain ⟨hvalue, hvalues⟩ := List.forall_mem_cons.mp hnumbers
    exact foldl_largest hvalues hvalue (Option.some.inj h)

theorem eq_nil_of_largest? {R : Type} [Arithmetic R] {values : List R}
    (h : largest? values = none) : values = [] := by
  cases values with
  | nil => rfl
  | cons value values => exact nomatch h

/-! ## Relative weights -/

variable {exp : Binary64 → Binary64} {logWeights : List (WithExp exp)}

/-- The weight that a logarithm stands for next to the largest one. -/
def weigh (exp : Binary64 → Binary64) (top x : Binary64) : Binary64 :=
  if x.isNaN then 0 else exp (x - top)

/-- Where a logarithm is finite, all weights are relative to the largest one. -/
theorem relativeWeights_of_finite (h : ∃ x ∈ logWeights, Scalar.isFinite x = true) :
    ∃ top ∈ logWeights, Binary64.isFinite top = true ∧
      (∀ x ∈ logWeights, Binary64.isFinite x = true → (x : Binary64) ≤ top) ∧
      relativeWeights logWeights = logWeights.map (weigh exp top) := by
  obtain ⟨x, hx, hfinite⟩ := h
  have hmem : x ∈ logWeights.filter Scalar.isFinite := List.mem_filter.mpr ⟨hx, hfinite⟩
  cases htop : largest? (logWeights.filter Scalar.isFinite) with
  | none =>
    rw [eq_nil_of_largest? htop] at hmem
    exact nomatch hmem
  | some top =>
    obtain ⟨htopmem, hle⟩ := largest?_spec (fun y hy =>
      isNaN_of_isFinite (List.mem_filter.mp hy).2) htop
    obtain ⟨htopin, htopfinite⟩ := List.mem_filter.mp htopmem
    refine ⟨top, htopin, htopfinite,
      fun y hy hyfinite => hle y (List.mem_filter.mpr ⟨hy, hyfinite⟩), ?_⟩
    unfold relativeWeights
    rw [htop]
    rfl

/-- Where none is, only infinite weights remain. -/
theorem relativeWeights_of_none (h : ∀ x ∈ logWeights, Scalar.isFinite x = false) :
    relativeWeights logWeights = logWeights.map fun x => if 0 < x then x else 0 := by
  have hnil : logWeights.filter Scalar.isFinite = [] :=
    List.filter_eq_nil_iff.mpr fun x hx => by rw [h x hx]; exact Bool.false_ne_true
  unfold relativeWeights
  rw [hnil]
  rfl

/-- Weights that are relative to the largest of them. -/
structure Scaled (weights : List (WithExp exp)) : Prop where
  unit : ∀ w ∈ weights, 0 ≤ w ∧ w ≤ 1
  top : 1 ∈ weights

theorem Scaled.total {weights : List (WithExp exp)} (h : Scaled weights) :
    Scalar.isFinite (total weights) = true ∧ 1 ≤ Espalier.total weights :=
  ⟨isFinite_total h.unit, le_total (fun w hw => (h.unit w hw).1) 1 h.top⟩

theorem weigh_top (hexp : IsExp exp) {top : Binary64} (htop : top.isFinite = true) :
    weigh exp top top = 1 := by
  unfold weigh
  rw [isNaN_of_isFinite htop, if_neg Bool.false_ne_true, Binary64.sub_self htop, hexp.zero]

theorem weigh_negInfinity (hexp : IsExp exp) {top : Binary64} (htop : top.isFinite = true) :
    weigh exp top (-infinity) = 0 := by
  unfold weigh
  rw [sub_of_infinite rfl htop, if_neg (by decide), hexp.negInfinity]

theorem weigh_infinity (hinfinity : exp infinity = infinity) {top : Binary64}
    (htop : top.isFinite = true) : weigh exp top infinity = infinity := by
  unfold weigh
  rw [sub_of_infinite rfl htop, if_neg (by decide), hinfinity]

/-- The weight of anything but an infinite logarithm is between zero and one. -/
theorem weigh_unit (hexp : IsExp exp) {top x : Binary64} (htop : top.isFinite = true)
    (hle : x.isFinite = true → x ≤ top) (hx : x ≠ infinity) :
    0 ≤ weigh exp top x ∧ weigh exp top x ≤ 1 := by
  have hunit : (0 : Binary64) ≤ 0 ∧ (0 : Binary64) ≤ 1 := by decide
  rcases finite_or_infinite x with hnan | hfinite | rfl | rfl
  · unfold weigh
    rw [if_pos hnan]
    exact hunit
  · unfold weigh
    rw [isNaN_of_isFinite hfinite, if_neg Bool.false_ne_true]
    exact hexp.unit _ (sub_nonpos (hle hfinite) htop)
  · exact absurd rfl hx
  · rw [weigh_negInfinity hexp htop]
    exact hunit

/-- Where a logarithm is finite and none is infinite, the weights are of use. -/
theorem scaled_relativeWeights (hexp : IsExp exp)
    (hfinite : ∃ x ∈ logWeights, Scalar.isFinite x = true)
    (hinfinity : ∀ x ∈ logWeights, x ≠ .infinity) : Scaled (relativeWeights logWeights) := by
  obtain ⟨top, hmem, htop, hle, hweights⟩ := relativeWeights_of_finite hfinite
  rw [hweights]
  constructor
  case unit =>
    intro w hw
    obtain ⟨x, hx, rfl⟩ := List.mem_map.mp hw
    exact weigh_unit hexp htop (hle x hx) (hinfinity x hx)
  case top => exact List.mem_map.mpr ⟨top, hmem, weigh_top hexp htop⟩

theorem isFinite_total_of_infinity {weights : List (WithExp exp)} (h : ∀ w ∈ weights, 0 ≤ w)
    (hinfinity : ∃ w ∈ weights, w = .infinity) : Scalar.isFinite (total weights) = false := by
  obtain ⟨w, hw, rfl⟩ := hinfinity
  exact isFinite_of_infinity_le (le_total h infinity hw)

/-- Without a finite logarithm the total is infinite or zero. -/
theorem total_of_none (h : ∀ x ∈ logWeights, Scalar.isFinite x = false) :
    Scalar.isFinite (total (relativeWeights logWeights)) = false ∨
      total (relativeWeights logWeights) = 0 := by
  have hzero : (0 : Binary64) ≤ 0 := by decide
  have hpositive : (0 : Binary64) < infinity := by decide
  have hnegative : ¬ (0 : Binary64) < -infinity := by decide
  rw [relativeWeights_of_none h]
  by_cases hinfinity : ∃ x ∈ logWeights, x = .infinity
  · -- It weighs as much as it is.
    obtain ⟨x, hx, rfl⟩ := hinfinity
    refine .inl (isFinite_total_of_infinity (fun w hw => ?_)
      ⟨_, List.mem_map.mpr ⟨infinity, hx, rfl⟩, if_pos hpositive⟩)
    obtain ⟨y, -, rfl⟩ := List.mem_map.mp hw
    split
    · exact le_of_lt ‹_›
    · exact hzero
  · -- What is left is no number or minus infinity, and neither is above zero.
    refine .inr (total_eq_zero fun w hw => ?_)
    obtain ⟨x, hx, rfl⟩ := List.mem_map.mp hw
    refine if_neg fun hpos => ?_
    rcases finite_or_infinite x with hnan | hfinite | rfl | rfl
    · rw [(isNaN_of_le (le_of_lt hpos)).2] at hnan
      exact nomatch hnan
    · exact Bool.false_ne_true ((h x hx).symm.trans hfinite)
    · exact hinfinity ⟨_, hx, rfl⟩
    · exact hnegative hpos

/-- Some logarithm is infinite and some other one is finite. -/
def Overshadowed (logWeights : List (WithExp exp)) : Prop :=
  (∃ x ∈ logWeights, Scalar.isFinite x = true) ∧ ∃ x ∈ logWeights, x = .infinity

/-- Next to finite ones an infinite logarithm makes the total infinite. -/
theorem total_of_infinity (hexp : IsExp exp) (hinfinite : exp infinity = infinity)
    (h : Overshadowed logWeights) :
    Scalar.isFinite (total (relativeWeights logWeights)) = false := by
  have hpositive : (0 : Binary64) ≤ infinity := by decide
  obtain ⟨hfinite, hinfinity⟩ := h
  obtain ⟨top, -, htop, hle, hweights⟩ := relativeWeights_of_finite hfinite
  obtain ⟨x, hx, rfl⟩ := hinfinity
  rw [hweights]
  refine isFinite_total_of_infinity (fun w hw => ?_)
    ⟨_, List.mem_map.mpr ⟨infinity, hx, rfl⟩, weigh_infinity hinfinite htop⟩
  obtain ⟨y, hy, rfl⟩ := List.mem_map.mp hw
  by_cases hyinfinity : y = infinity
  · rw [hyinfinity, weigh_infinity hinfinite htop]
    exact hpositive
  · exact (weigh_unit hexp htop (hle y hy) hyinfinity).1

/-! ## Lotteries -/

theorem uniform_ofLogWeights {R : Type} [Scalar R] (logWeights : List R) :
    (Lottery.ofLogWeights logWeights).uniform = true ↔
      ¬ (Scalar.isFinite (total (relativeWeights logWeights)) ∧
        0 < total (relativeWeights logWeights)) := by
  unfold Lottery.ofLogWeights
  dsimp only
  split
  · exact iff_of_false Bool.false_ne_true (not_not_intro ‹_›)
  · exact iff_of_true rfl ‹_›

/-- What parents are drawn by if not uniformly. -/
structure Proportional (logWeights : List (WithExp exp)) (l : Lottery (WithExp exp)) : Prop where
  uniform : l.uniform = false
  weights : l.weights = relativeWeights logWeights
  sum : l.sum = total l.weights
  scaled : Scaled l.weights
  finite : Scalar.isFinite l.sum = true
  positive : 0 < l.sum

theorem proportional_ofLogWeights (hexp : IsExp exp)
    (hfinite : ∃ x ∈ logWeights, Scalar.isFinite x = true)
    (hinfinity : ∀ x ∈ logWeights, x ≠ .infinity) :
    Proportional logWeights (.ofLogWeights logWeights) := by
  have hscaled := scaled_relativeWeights hexp hfinite hinfinity
  obtain ⟨hsum, hone⟩ := hscaled.total
  have huse := And.intro hsum (pos_of_one_le hone)
  have hlottery : Lottery.ofLogWeights logWeights
      = { weights := relativeWeights logWeights, sum := total (relativeWeights logWeights)
          uniform := false, givenSum := total (relativeWeights logWeights) } := if_pos huse
  rw [hlottery]
  exact ⟨rfl, rfl, rfl, hscaled, hsum, pos_of_one_le hone⟩

theorem uniform_ofLogWeights_iff (hexp : IsExp exp)
    (hinfinite : Overshadowed logWeights → exp infinity = infinity) :
    (Lottery.ofLogWeights logWeights).uniform = true ↔
      (∀ x ∈ logWeights, Scalar.isFinite x = false) ∨ ∃ x ∈ logWeights, x = .infinity := by
  constructor
  · intro huniform
    by_contra huse
    obtain ⟨hfinite, hinfinity⟩ := not_or.mp huse
    have hproportional := proportional_ofLogWeights hexp
      (by simpa using hfinite) (fun x hx heq => hinfinity ⟨x, hx, heq⟩)
    rw [hproportional.uniform] at huniform
    exact nomatch huniform
  · rw [uniform_ofLogWeights]
    rintro huseless ⟨hsum, hpos⟩
    have hnot : Scalar.isFinite (total (relativeWeights logWeights)) = false ∨
        total (relativeWeights logWeights) = 0 := by
      by_cases hnone : ∀ x ∈ logWeights, Scalar.isFinite x = false
      · exact total_of_none hnone
      · have hover : Overshadowed logWeights :=
          ⟨by simpa using hnone, huseless.resolve_left hnone⟩
        exact .inl (total_of_infinity hexp (hinfinite hover) hover)
    rcases hnot with hinfinity | hzero
    · exact Bool.false_ne_true (hinfinity.symm.trans hsum)
    · rw [hzero] at hpos
      exact absurd hpos (show ¬ (0 : Binary64) < 0 by decide)

/-- Weights that are not given up were of use. -/
theorem useful_of_not_uniform (hexp : IsExp exp)
    (hinfinite : Overshadowed logWeights → exp infinity = infinity)
    (h : (Lottery.ofLogWeights logWeights).uniform = false) :
    (∃ x ∈ logWeights, Scalar.isFinite x = true) ∧ ∀ x ∈ logWeights, x ≠ .infinity := by
  have huse := mt (uniform_ofLogWeights_iff hexp hinfinite).mpr (Bool.eq_false_iff.mp h)
  obtain ⟨hfinite, hinfinity⟩ := not_or.mp huse
  exact ⟨by simpa using hfinite, fun x hx heq => hinfinity ⟨x, hx, heq⟩⟩

variable {N ρ κ ω : Type}

end Search

namespace Binary64

/-- A function that jumps from zero to one, in the place of the exponential one. -/
def threshold (x : Binary64) : Binary64 := if x = infinity then x else if 0 ≤ x then 1 else 0

theorem isExp_threshold : IsExp threshold where
  zero := by decide
  negInfinity := by decide
  unit x hx := by
    have hfinite : x ≠ infinity := by
      rintro rfl
      exact absurd hx (by decide)
    unfold threshold
    rw [if_neg hfinite]
    split <;> decide

end Binary64

namespace Sample

open Binary64

/-- Particles of given costs after the first of two generations. -/
def judged (costs : List (WithExp threshold)) :
    Search String (WithExp threshold) Source (NoCost String (WithExp threshold))
      (Sink (WithExp threshold)) where
  grammar := .empty
  root := "root"
  start := "stem"
  config :=
    { generations := 2, sampleCount := .constant 2, heuristicScale := .constant 0, budget := 1 }
  patience := 1
  model := ⟨⟩
  source := .cycle #[] 0
  watcher := .ignore
  population := (costs.mapIdx fun id cost =>
    { Particle.ofRoot id "root" with cost := { real := cost, heuristic := 0 } }).toArray
  survivor := none
  nextId := costs.length
  stage := .resample 0
  closings := 0
  detailGrowths := 0

end Sample

namespace Search

open Binary64 Sample

end Search

end Espalier
