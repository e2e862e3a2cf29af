import Espalier.Proofs.Search.Weights
import Espalier.Proofs.Search.Generations

/-!
# Whose forks there are

A share of the total is reduced by one weight after the other, and the particle at which it is used
up is forked. A particle without weight takes nothing away, so the share cannot be used up there
(`weightless_spentAt`), unless there was nothing of it to begin with: the first particle is drawn
whenever the share is zero, whatever it weighs. And where rounding leaves something over after the
last weight, the last particle is drawn, whatever that weighs. These are all the forks of weightless
particles there are (`weightless_drawn_iff`).
-/

namespace Espalier

variable {N R ρ κ ω : Type}

/-- The word that a source gives after `k` others. -/
def wordAt [RandomSource ρ] : Nat → ρ → UInt64
  | 0, source => (RandomSource.next source).1
  | k + 1, source => wordAt k (RandomSource.next source).2

/-- Whether there is a weight at a place and it is not above zero. -/
def Weightless [Arithmetic R] (weights : List R) (place : Nat) : Prop :=
  ∃ w, weights[place]? = some w ∧ ¬ 0 < w

namespace Selection

open Binary64

/-! ## One draw -/

/-- A roll is used up at a place without weight only if it was used up from the start. -/
theorem weightless_spentAt {weights : List Binary64} (h : ∀ w ∈ weights, 0 ≤ w) {roll : Binary64}
    {place : Nat} (hspent : spentAt weights roll = some place) (hplace : Weightless weights place) :
    place = 0 ∧ roll ≤ 0 := by
  induction weights generalizing roll place with
  | nil => exact nomatch hspent
  | cons weight weights ih =>
    obtain ⟨hweight, hweights⟩ := List.forall_mem_cons.mp h
    unfold spentAt at hspent
    dsimp only at hspent
    by_cases hle : roll - weight ≤ 0
    · rw [if_pos hle] at hspent
      obtain rfl : 0 = place := Option.some.inj hspent
      obtain ⟨w, hw, hpos⟩ := hplace
      obtain rfl : weight = w := Option.some.inj hw
      obtain ⟨s, hs⟩ := exists_zero hweight hpos
      exact ⟨rfl, (sub_zero_nonpos_iff hs).mp hle⟩
    · -- Without weight at the place itself, it would have been used up before.
      rw [if_neg hle] at hspent
      obtain ⟨rest, hrest, rfl⟩ := Option.map_eq_some_iff.mp hspent
      exact absurd (ih hweights hrest hplace).2 hle

/-- A roll that is used up from the start is used up at a first place without weight. -/
theorem spentAt_of_nonpos {weights : List Binary64} (h : ∀ w ∈ weights, 0 ≤ w) {roll : Binary64}
    (hroll : roll ≤ 0) (hfirst : Weightless weights 0) : spentAt weights roll = some 0 := by
  obtain ⟨w, hw, hpos⟩ := hfirst
  cases weights with
  | nil => exact nomatch hw
  | cons weight weights =>
    obtain rfl : weight = w := Option.some.inj hw
    obtain ⟨s, hs⟩ := exists_zero (h weight List.mem_cons_self) hpos
    exact if_pos ((sub_zero_nonpos_iff hs).mpr hroll)

/-- A place without weight is chosen only as the first one, when nothing is rolled, or as the last
one, when something is left over. -/
theorem weightless_weightedIndex_iff {weights : List Binary64} (h : ∀ w ∈ weights, 0 ≤ w)
    {sum share : Binary64} {place : Nat} (hplace : weightedIndex weights sum share = some place) :
    Weightless weights place ↔ share * sum ≤ 0 ∧ Weightless weights 0 ∨
      spentAt weights (share * sum) = none ∧ Weightless weights (weights.length - 1) := by
  unfold weightedIndex at hplace
  split at hplace
  · exact nomatch hplace
  · rw [← Option.some.inj hplace]
    cases hspent : spentAt weights (share * sum) with
    | none =>
      refine ⟨fun hlast => .inr ⟨rfl, hlast⟩, ?_⟩
      rintro (⟨hroll, hfirst⟩ | ⟨-, hlast⟩)
      · rw [spentAt_of_nonpos h hroll hfirst] at hspent
        exact nomatch hspent
      · exact hlast
    | some index =>
      constructor
      · intro hindex
        obtain ⟨hfirst, hroll⟩ := weightless_spentAt h hspent hindex
        exact .inl ⟨hroll, hfirst ▸ hindex⟩
      · rintro (⟨hroll, hfirst⟩ | ⟨hnone, -⟩)
        · rw [spentAt_of_nonpos h hroll hfirst] at hspent
          rw [← Option.some.inj hspent]
          exact hfirst
        · exact nomatch hnone

end Selection

namespace Search

open Binary64

/-! ## All draws -/

/-- The place drawn after `k` others is the one that the word after `k` others stands for. -/
theorem getElem?_drawParents [Scalar R] [RandomSource ρ] {l : Lottery R} (hne : l.weights ≠ [])
    {count k : Nat} (hk : k < count) (source : ρ) :
    (drawParents l count source).1[k]?
      = Selection.weightedIndex l.weights l.sum (unitShare (wordAt k source)) := by
  induction count generalizing k source with
  | zero => exact absurd hk (Nat.not_lt_zero k)
  | succ count ih =>
    obtain ⟨place, hplace, -⟩ := Selection.weightedIndex_lt hne l.sum
      (unitShare (wordAt 0 source))
    have hpick : Selection.pickWeighted l.weights l.sum source
        = (some place, (RandomSource.next source).2) := by
      rw [← hplace]
      exact if_neg (by simpa using hne)
    unfold drawParents
    rw [hpick]
    cases k with
    | zero => exact hplace.symm
    | succ k => exact ih (Nat.lt_of_succ_lt_succ hk) _

/-- The fork after `k` others is one of the particle that the word after `k` others stands for. -/
theorem fork_of_word [Scalar R] [RandomSource ρ] {s : Search N R ρ κ ω} {g : Nat}
    (hne : (s.lottery g).weights ≠ []) {k : Nat} {q : Particle N R}
    (hq : (s.drawn g)[k]? = some q) :
    ∃ place p, Selection.weightedIndex (s.lottery g).weights (s.lottery g).sum
        (unitShare (wordAt k s.source)) = some place ∧
      s.population[place]? = some p ∧ IsFork p q := by
  have hpos : 0 < s.population.size :=
    s.length_weights_lottery g ▸ List.length_pos_iff.mpr hne
  obtain ⟨hsize, hspec⟩ := drawn_of_pos (g := g) hpos
  obtain ⟨-, place, p, hplace, hp, hfork⟩ := hspec k q hq
  obtain ⟨hk, -⟩ := Array.getElem?_eq_some_iff.mp hq
  have hdraw := getElem?_drawParents hne (hsize ▸ hk) s.source
  exact ⟨place, p, hdraw.symm.trans hplace, hp, hfork⟩

variable {exp : Binary64 → Binary64} {logWeights : List (WithExp exp)}

/-- What is no number weighs nothing, and neither does what is infinitely unlikely. -/
theorem weightless_relativeWeights (hexp : IsExp exp)
    (hfinite : ∃ x ∈ logWeights, Scalar.isFinite x = true) {place : Nat} {x : WithExp exp}
    (hx : logWeights[place]? = some x) (h : Scalar.isNaN x = true ∨ x = .negInfinity) :
    Weightless (relativeWeights logWeights) place := by
  have hzero : ¬ (0 : Binary64) < 0 := by decide
  obtain ⟨top, -, htop, -, hweights⟩ := relativeWeights_of_finite hfinite
  rw [hweights]
  have hweight : weigh exp top x = 0 := by
    rcases h with hnan | rfl
    · exact if_pos hnan
    · exact weigh_negInfinity hexp htop
  refine ⟨weigh exp top x, List.getElem?_map.trans (congrArg (Option.map _) hx), ?_⟩
  rw [hweight]
  exact hzero

/-- Where parents are drawn by their weights, the new particles are forks of weightless ones in two
cases: when nothing is rolled and the first particle is weightless, or when something is left over
and the last one is. -/
theorem weightless_drawn_iff [RandomSource ρ] [Watcher ω N (WithExp exp)] (hexp : IsExp exp)
    {s : Search N (WithExp exp) ρ κ ω} {g : Nat}
    (hinfinite : Overshadowed (s.logWeights g) → exp infinity = infinity)
    (huniform : (s.lottery g).uniform = false) :
    let weights := (s.lottery g).weights
    s.DrawsBy g (s.lottery g) ∧
    weights = relativeWeights (s.logWeights g) ∧
    (∀ place p, s.population[place]? = some p →
      Scalar.isNaN (p.logWeight (s.config.heuristicScaleAt g)) = true ∨
        p.logWeight (s.config.heuristicScaleAt g) = .negInfinity → Weightless weights place) ∧
    ∀ k q, (s.resample g).population[k]? = some q → ∃ place p,
      s.population[place]? = some p ∧ IsFork p q ∧
      (Weightless weights place ↔
        wordAt k s.source < 2048 ∧ Weightless weights 0 ∨
        Selection.spentAt weights (unitShare (wordAt k s.source) * (s.lottery g).sum) = none ∧
          Weightless weights (weights.length - 1)) := by
  obtain ⟨hfinite, hinfinity⟩ := useful_of_not_uniform hexp hinfinite huniform
  have huse := proportional_ofLogWeights hexp hfinite hinfinity
  have hnonneg : ∀ w ∈ (s.lottery g).weights, 0 ≤ w := fun w hw => (huse.scaled.unit w hw).1
  have hsum : 1 ≤ (s.lottery g).sum := huse.sum.symm ▸ huse.scaled.total.2
  have hne : (s.lottery g).weights ≠ [] := List.ne_nil_of_mem huse.scaled.top
  refine ⟨s.drawsBy_lottery g, huse.weights, fun place p hp h => ?_, fun k q hq => ?_⟩
  · have hx : (s.logWeights g)[place]? = some (p.logWeight (s.config.heuristicScaleAt g)) := by
      unfold logWeights
      rw [List.getElem?_map, Array.getElem?_toList, hp]
      rfl
    have hweightless := weightless_relativeWeights hexp hfinite hx h
    rw [← huse.weights] at hweightless
    exact hweightless
  · rw [population_resample] at hq
    obtain ⟨place, p, hdraw, hp, hfork⟩ := fork_of_word hne hq
    refine ⟨place, p, hp, hfork, ?_⟩
    rw [← unitShare_mul_nonpos_iff hsum huse.finite]
    exact Selection.weightless_weightedIndex_iff hnonneg hdraw

open Sample

/-- A share of nothing is used up at the first of two particles, which weighs nothing. -/
theorem weightless_drawn_small :
    ∃ q, ((judged [.infinity, 0]).resample 0).population[0]? = some q ∧
      ∃ place p, (judged [.infinity, 0]).population[place]? = some p ∧ IsFork p q ∧
        Weightless ((judged [.infinity, 0]).lottery 0).weights place := by
  have huniform : ((judged [.infinity, 0]).lottery 0).uniform = false := by decide +kernel
  have hfirst : Weightless ((judged [.infinity, 0]).lottery 0).weights 0 :=
    ⟨0, by decide +kernel, by decide +kernel⟩
  obtain ⟨-, -, -, hforks⟩ := weightless_drawn_iff isExp_threshold (fun _ => by decide) huniform
  have hsize : 0 < ((judged [.infinity, 0]).resample 0).population.size := by decide +kernel
  have hq := Array.getElem?_eq_getElem hsize
  obtain ⟨place, p, hp, hfork, hiff⟩ := hforks 0 _ hq
  exact ⟨_, hq, place, p, hp, hfork, hiff.mpr (.inl ⟨by decide, hfirst⟩)⟩

/-- A fork of no particle that has a weight, although one has. -/
theorem weightless_drawn :
    (judged [.infinity, 0]).DrawsBy 0 ((judged [.infinity, 0]).lottery 0) ∧
    ((judged [.infinity, 0]).lottery 0).uniform = false ∧
    ∃ q ∈ ((judged [.infinity, 0]).resample 0).population, ∀ place p,
      (judged [.infinity, 0]).population[place]? = some p → IsFork p q →
        Weightless ((judged [.infinity, 0]).lottery 0).weights place := by
  have hweights : ((judged [.infinity, 0]).lottery 0).weights = [0, 1] := by decide +kernel
  have hids : (judged [.infinity, 0]).population.map (·.id) = #[0, 1] := by decide +kernel
  have hparents : ((judged [.infinity, 0]).resample 0).population[0]?.map (·.parent)
      = some (some 0) := by
    decide +kernel
  obtain ⟨q, hq, hparent⟩ := Option.map_eq_some_iff.mp hparents
  refine ⟨drawsBy_lottery _ 0, by decide +kernel, q, Array.mem_of_getElem? hq,
    fun place p hp hfork => ?_⟩
  have hid : p.id = 0 := Option.some.inj (hfork.parent.symm.trans hparent)
  have hplace : #[0, 1][place]? = some 0 := by
    rw [← hids, Array.getElem?_map, hp, ← hid]
    rfl
  rw [hweights]
  match place, hplace with
  | 0, _ => exact ⟨0, rfl, by decide +kernel⟩
  | 1, hone => exact nomatch hone
  | _ + 2, hnone => exact nomatch hnone

end Search

end Espalier
