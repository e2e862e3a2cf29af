import Espalier.Proofs.Number.Sums
import Espalier.Proofs.Search.Survival

/-!
# Totals that are no numbers

When a population is resampled, a cost that is no number weighs nothing. The survivor is chosen by
the total order instead, in which a value that is no number comes after all numbers or before all of
them, by its sign. So a particle whose total is a negative value that is no number `Undercuts` every
particle that has a cost, and that is the only way for one without a cost to survive one that has a
cost (`numberless_survives_iff`).

The sign is nobody's choice: adding up infinite parts of opposite sign gives a negative one
(`undercuts_iff`).
-/

namespace Espalier

namespace Binary64

variable {x y : Binary64}

/-- What is no number comes before a number only if it is negative. -/
theorem InOrder.isNegative (h : InOrder x y) (hx : x.isNaN = true) (hy : y.isNaN = false) :
    x.isNegative = true := by
  cases h with
  | refl => exact absurd (hx.symm.trans hy) (by simp)
  | less lt => exact absurd (hx.symm.trans (isNaN_of_le (le_of_lt lt)).1) (by simp)
  | zeros => exact absurd hx (by decide)
  | before _ negative _ | across _ negative _ _ | down _ negative _ _ _ => exact negative
  | after _ none _ | up _ _ none _ _ => exact absurd (none.symm.trans hy) (by simp)

/-- Before a negative value that is no number there are only values that are none. -/
theorem InOrder.isNaN (h : InOrder x y) (hy : y.isNaN = true) (hnegative : y.isNegative = true) :
    x.isNaN = true := by
  cases h with
  | refl => exact hy
  | less lt => exact absurd (hy.symm.trans (isNaN_of_le (le_of_lt lt)).2) (by simp)
  | zeros => exact absurd hy (by decide)
  | before none _ _ | across none _ _ _ | up none _ _ _ _ | down none _ _ _ _ => exact none
  | after _ _ positive => exact absurd (hnegative.symm.trans positive) (by simp)

/-- Making a value quiet leaves its sign. -/
theorem isNegative_quiet (x : Binary64) : x.quiet.isNegative = x.isNegative := by
  have hx := x.isNegative_iff
  have hquiet := x.quiet.isNegative_iff
  have hbits : x.quiet.bits.toNat = x.bits.toNat ||| 2 ^ 51 := UInt64.toNat_or _ _
  have hsign : x.quiet.bits.toNat / 2 ^ 63 = x.bits.toNat / 2 ^ 63 := by
    rw [hbits, Nat.or_div_two_pow]
    exact Nat.or_zero _
  rw [Bool.eq_iff_iff, hx, hquiet]
  omega

end Binary64

namespace Cost

open Binary64

/-- A cost with a total that comes before all numbers: a part of it is a negative value that is no
number, or its parts are infinite and of opposite sign. -/
inductive Undercuts (c : Cost Binary64) : Prop where
  | real (none : c.real.isNaN = true) (negative : c.real.isNegative = true)
  | heuristic (number : c.real.isNaN = false) (none : c.heuristic.isNaN = true)
    (negative : c.heuristic.isNegative = true)
  | falling (real : c.real = infinity) (heuristic : c.heuristic = -infinity)
  | rising (real : c.real = -infinity) (heuristic : c.heuristic = infinity)

/-- The total of a cost is a negative value that is no number in these cases and in no others. -/
theorem undercuts_iff (c : Cost Binary64) :
    c.Undercuts ↔ c.total.isNaN = true ∧ c.total.isNegative = true := by
  by_cases hreal : c.real.isNaN = true
  · have htotal : c.total = c.real.quiet := if_pos hreal
    rw [htotal, isNegative_quiet]
    constructor
    · intro h
      cases h with
      | real _ negative => exact ⟨isNaN_quiet hreal, negative⟩
      | heuristic number => exact absurd (hreal.symm.trans number) (by simp)
      | falling real | rising real => exact absurd (real ▸ hreal) (by decide)
    · exact fun h => .real hreal h.2
  · have hnumber : c.real.isNaN = false := Bool.eq_false_iff.mpr hreal
    by_cases hheuristic : c.heuristic.isNaN = true
    · have htotal : c.total = c.heuristic.quiet := (if_neg hreal).trans (if_pos hheuristic)
      rw [htotal, isNegative_quiet]
      constructor
      · intro h
        cases h with
        | real none => exact absurd none hreal
        | heuristic _ _ negative => exact ⟨isNaN_quiet hheuristic, negative⟩
        | falling _ heuristic | rising _ heuristic =>
          exact absurd (heuristic ▸ hheuristic) (by decide)
      · exact fun h => .heuristic hnumber hheuristic h.2
    · -- Two numbers have a number for their total, unless they are infinite.
      have hnumber' : c.heuristic.isNaN = false := Bool.eq_false_iff.mpr hheuristic
      constructor
      · intro h
        have hopposite : c.real = infinity ∧ c.heuristic = -infinity ∨
            c.real = -infinity ∧ c.heuristic = infinity := by
          cases h with
          | real none => exact absurd none hreal
          | heuristic _ none => exact absurd none hheuristic
          | falling real heuristic => exact .inl ⟨real, heuristic⟩
          | rising real heuristic => exact .inr ⟨real, heuristic⟩
        have hnone : c.total.isNaN = true := (isNaN_add_iff hnumber hnumber').mpr hopposite
        have hinvalid : c.total = invalid := add_eq_invalid hnumber hnumber' hnone
        exact ⟨hnone, hinvalid ▸ by decide⟩
      · rintro ⟨hnone, -⟩
        rcases (isNaN_add_iff hnumber hnumber').mp hnone with ⟨hr, hh⟩ | ⟨hr, hh⟩
        · exact .falling hr hh
        · exact .rising hr hh

end Cost

namespace Search

variable {N ρ κ ω : Type} {s : Search N Binary64 ρ κ ω}

/-- Where some particle has a cost, one without a cost survives exactly if there is one that
undercuts. -/
theorem numberless_survives_iff [RandomSource ρ] [CostModel κ N Binary64] [Watcher ω N Binary64]
    (h : s.stage = .selectSurvivor) (hcost : ∃ q ∈ s.population, q.cost.total.isNaN = false) :
    ∃ p ∈ s.population, s.step.1 = .ok .pending ∧ s.step.2.survivor = some p ∧
      (p.cost.total.isNaN = true ↔ ∃ q ∈ s.population, q.cost.Undercuts) := by
  obtain ⟨alive, halive, hnumber⟩ := hcost
  obtain ⟨p, hp⟩ := fittest?_of_mem halive
  obtain ⟨place, hcheapest⟩ := cheapest_of_fittest hp
  obtain ⟨w, -, hstep⟩ := step_select h hp
  have hmem : p ∈ s.population := Array.mem_of_getElem? hcheapest.found
  refine ⟨p, hmem, by rw [hstep], by rw [hstep], fun hnone => ?_, ?_⟩
  · have hnegative := (hcheapest.least alive halive).isNegative hnone hnumber
    exact ⟨p, hmem, p.cost.undercuts_iff.mpr ⟨hnone, hnegative⟩⟩
  · rintro ⟨q, hq, hundercuts⟩
    obtain ⟨hnone, hnegative⟩ := q.cost.undercuts_iff.mp hundercuts
    exact (hcheapest.least q hq).isNaN hnone hnegative

open Sample in
/-- Of three particles, one has a cost, one a positive value that is no number, and one adds up
infinite parts of opposite sign. The last one survives. -/
theorem numberless_survives_iff_opposite : ∃ s,
    priced [⟨-.invalid, 0⟩, ⟨0, 0⟩, ⟨-.infinity, .infinity⟩] = .ok s ∧
      (s.after 5).stage = .selectSurvivor ∧
      (∃ q ∈ (s.after 5).population, q.cost.total.isNaN = false) ∧
      ∃ p ∈ (s.after 5).population, (s.after 5).step.1 = .ok .pending ∧
        (s.after 5).step.2.survivor = some p ∧ p.cost.total.isNaN = true := by
  have hrun : ((priced [⟨-.invalid, 0⟩, ⟨0, 0⟩, ⟨-.infinity, .infinity⟩]).toOption.map
      fun s => ((s.after 5).stage, (s.after 5).population.map (·.cost)))
        = some (.selectSurvivor, #[⟨-.invalid, 0⟩, ⟨0, 0⟩, ⟨-.infinity, .infinity⟩]) := by
    decide +kernel
  obtain ⟨s, hnew, hseen⟩ := exists_of_toOption_map hrun
  obtain ⟨hstage, hcosts⟩ := Prod.mk.inj hseen
  have hpriced (cost : Cost Binary64)
      (h : cost ∈ (#[⟨-.invalid, 0⟩, ⟨0, 0⟩, ⟨-.infinity, .infinity⟩] : Array (Cost Binary64))) :
      ∃ q ∈ (s.after 5).population, q.cost = cost :=
    Array.mem_map.mp (hcosts ▸ h)
  have hcost : ∃ q ∈ (s.after 5).population, q.cost.total.isNaN = false := by
    obtain ⟨q, hq, hzero⟩ := hpriced ⟨0, 0⟩ (by simp)
    exact ⟨q, hq, hzero ▸ by decide⟩
  obtain ⟨p, hp, hpending, hsurvivor, hiff⟩ := numberless_survives_iff hstage hcost
  obtain ⟨q, hq, hopposite⟩ := hpriced ⟨-.infinity, .infinity⟩ (by simp)
  exact ⟨s, hnew, hstage, hcost, p, hp, hpending, hsurvivor,
    hiff.mpr ⟨q, hq, hopposite ▸ .rising rfl rfl⟩⟩

open Sample in
/-- A particle without a cost survives one that costs nothing. -/
theorem numberless_survives : ∃ s, priced [⟨.infinity + -.infinity, 0⟩, ⟨0, 0⟩] = .ok s ∧
    (s.after 4).stage = .selectSurvivor ∧
    (s.after 4).population.map (·.cost.total.isNaN) = #[true, false] ∧
    (s.after 5).survivor.map (·.cost.total.isNaN) = some true := by
  have hrun : ((priced [⟨.infinity + -.infinity, 0⟩, ⟨0, 0⟩]).toOption.map
      fun s => ((s.after 4).stage, (s.after 4).population.map (·.cost.total.isNaN),
        (s.after 5).survivor.map (·.cost.total.isNaN)))
          = some (.selectSurvivor, #[true, false], some true) := by
    decide +kernel
  obtain ⟨s, hnew, hseen⟩ := exists_of_toOption_map hrun
  obtain ⟨hstage, hrest⟩ := Prod.mk.inj hseen
  exact ⟨s, hnew, hstage, Prod.mk.inj hrest⟩

end Search

end Espalier
