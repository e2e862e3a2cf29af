import Espalier.Search.Resampling
import Mathlib.Data.Finset.Card
import Mathlib.Data.Finset.Dedup

/-!
# Resampling keeps the count

A population that is not empty is resampled into exactly as many forks as were asked for: every
index that is drawn is the place of a particle (`weightedIndex_lt`), so no draw is in vain
(`drawParents_spec`), and `forkDrawn_copies` says what the forks are, one for each draw, numbered in
the order of the draws. `distinctCount_eq` counts the particles that have a fork.
-/

namespace Espalier

variable {N R ρ : Type}

namespace Selection

theorem spentAt_lt [Arithmetic R] {weights : List R} {roll : R} {index : Nat}
    (h : spentAt weights roll = some index) : index < weights.length := by
  induction weights generalizing roll index with
  | nil => exact absurd h (by simp [spentAt])
  | cons weight weights ih =>
    unfold spentAt at h
    dsimp only at h
    by_cases hspent : roll - weight ≤ 0
    · rw [if_pos hspent] at h
      rw [← Option.some.inj h]
      exact Nat.succ_pos _
    · rw [if_neg hspent] at h
      obtain ⟨rest, hrest, rfl⟩ := Option.map_eq_some_iff.mp h
      exact Nat.succ_lt_succ (ih hrest)

/-- An index chosen in proportion to weights is the place of one of them. -/
theorem weightedIndex_lt [Arithmetic R] {weights : List R} (hne : weights ≠ []) (sum share : R) :
    ∃ index, weightedIndex weights sum share = some index ∧ index < weights.length := by
  have hlength := List.length_pos_iff.mpr hne
  unfold weightedIndex
  rw [if_neg (by simpa using hne)]
  refine ⟨_, rfl, ?_⟩
  cases h : spentAt weights (share * sum) with
  | none =>
    show weights.length - 1 < weights.length
    omega
  | some index => exact spentAt_lt h

/-- The place of the lowest of some values is one of their places. -/
theorem lowestFrom_lt [Scalar R] (best : R) (place index : Nat) (values : List R)
    (hplace : place < index) : lowestFrom best place index values < index + values.length := by
  induction values generalizing best place index with
  | nil => exact hplace
  | cons value values ih =>
    unfold lowestFrom
    rw [List.length_cons]
    split
    · have := ih value index (index + 1) (Nat.lt_succ_self index)
      omega
    · have := ih best place (index + 1) (Nat.lt_succ_of_lt hplace)
      omega

theorem lowestIndex_lt [Scalar R] {values : List R} {index : Nat}
    (h : lowestIndex values = some index) : index < values.length := by
  cases values with
  | nil => exact absurd h (by simp [lowestIndex])
  | cons value values =>
    have hlt := lowestFrom_lt value 0 1 values Nat.one_pos
    rw [← Option.some.inj h, List.length_cons]
    omega

/-- Only an empty list has no lowest value. -/
theorem eq_nil_of_lowestIndex [Scalar R] {values : List R} (h : lowestIndex values = none) :
    values = [] := by
  cases values with
  | nil => rfl
  | cons value values => exact absurd h (by simp [lowestIndex])

end Selection

namespace Search

theorem length_weights_ofLogWeights [Scalar R] (logWeights : List R) :
    (Lottery.ofLogWeights logWeights).weights.length = logWeights.length := by
  have hrelative : (relativeWeights logWeights).length = logWeights.length := by
    unfold relativeWeights
    split <;> exact List.length_map _
  unfold Lottery.ofLogWeights
  dsimp only
  split
  · exact hrelative
  · exact List.length_replicate

/-- As many places are drawn as were asked for, each the place of a weight. -/
theorem drawParents_spec [Scalar R] [RandomSource ρ] {l : Lottery R} (hne : l.weights ≠ [])
    (count : Nat) (source : ρ) :
    (drawParents l count source).1.length = count ∧
      ∀ place ∈ (drawParents l count source).1, place < l.weights.length := by
  induction count generalizing source with
  | zero => exact ⟨rfl, fun place h => absurd h (by simp [drawParents])⟩
  | succ count ih =>
    unfold drawParents Selection.pickWeighted
    rw [if_neg (by simpa using hne)]
    obtain ⟨index, hindex, hlt⟩ :=
      Selection.weightedIndex_lt hne l.sum (drawShare (R := R) source).1
    dsimp only
    rw [hindex]
    obtain ⟨hlength, hplaces⟩ := ih (drawShare (R := R) source).2
    refine ⟨congrArg Nat.succ hlength, fun place hplace => ?_⟩
    rcases List.mem_cons.mp hplace with rfl | hrest
    · exact hlt
    · exact hplaces place hrest

/-- One particle is a fork of another: it has its nodes, frozen, its buds and its cost. -/
structure IsFork (p q : Particle N R) : Prop where
  parent : q.parent = some p.id
  nodes : q.growth.toList = p.growth.toList
  buds : ∀ phase, q.buds phase = p.buds phase
  cost : q.cost = p.cost
  growth : ∃ mark, q.growth = p.growth.freeze mark

/-- The second half of a fork is a fork. -/
theorem isFork_fork (p : Particle N R) (id : ParticleId) (mark : HistoryMark) :
    IsFork p (p.fork id mark).2 := by
  refine ⟨rfl, Growth.toList_freeze p.growth mark, fun phase => ?_, rfl, mark, rfl⟩
  cases phase <;> rfl

/-- What is forked from a particle that has been forked before might have been forked from the one
it was. -/
theorem fork_fork (p : Particle N R) (id other : ParticleId) (mark late : HistoryMark) :
    ((p.fork id mark).1.fork other late).2 = (p.fork other mark).2 :=
  congrArg (fun growth => ({ p with id := other, parent := some p.id, growth } : Particle N R))
    (p.growth.freeze_freeze mark late)

/-- The forks follow what there was, one for each place, numbered in turn. -/
theorem forkDrawn_copies (nextId : ParticleId) (places : List Nat)
    (population forks : Array (Particle N R)) (h : ∀ place ∈ places, place < population.size) :
    ∃ new : List (Particle N R),
      (forkDrawn nextId places population forks).toList = forks.toList ++ new ∧
      new.length = places.length ∧
      ∀ (k : Nat) (q : Particle N R), new[k]? = some q → ∃ place p mark,
        places[k]? = some place ∧ population[place]? = some p ∧
          q = (p.fork (nextId + k) mark).2 := by
  induction places generalizing nextId population forks with
  | nil => exact ⟨[], (List.append_nil _).symm, rfl, fun k q hq => absurd hq (by simp)⟩
  | cons place places ih =>
    have hplace := h place List.mem_cons_self
    unfold forkDrawn
    rw [Array.getElem?_eq_getElem hplace]
    dsimp only
    -- The place is frozen by its fork, so what is drawn there again is a fork of a fork.
    have hsize : ∀ other ∈ places, other
        < (population.setIfInBounds place (population[place].fork nextId nextId).1).size := by
      intro other hother
      rw [Array.size_setIfInBounds]
      exact h other (List.mem_cons_of_mem _ hother)
    obtain ⟨new, hnew, hlength, hspec⟩ := ih (nextId + 1) _
      (forks.push (population[place].fork nextId nextId).2) hsize
    refine ⟨(population[place].fork nextId nextId).2 :: new, ?_, congrArg Nat.succ hlength, ?_⟩
    · rw [hnew, Array.toList_push, List.append_assoc]
      rfl
    · intro k q hq
      cases k with
      | zero =>
        exact ⟨place, population[place], nextId, rfl, Array.getElem?_eq_getElem hplace,
          (Option.some.inj hq).symm⟩
      | succ k =>
        obtain ⟨other, p, mark, hother, hp, rfl⟩ := hspec k q hq
        rw [Nat.succ_add_eq_add_succ]
        rw [Array.getElem?_setIfInBounds] at hp
        by_cases hsame : place = other
        · subst hsame
          rw [if_pos rfl, if_pos hplace] at hp
          rw [← Option.some.inj hp, fork_fork]
          exact ⟨place, population[place], nextId, hother, Array.getElem?_eq_getElem hplace, rfl⟩
        · rw [if_neg hsame] at hp
          exact ⟨other, p, mark, hother, hp, rfl⟩

/-! ## How many different places are drawn -/

/-- Marks the places that were drawn. -/
def marked (drawn : Array Bool) (places : List Nat) : Array Bool :=
  places.foldl (fun drawn place => drawn.setIfInBounds place true) drawn

/-- A place is marked by the first draw of it alone. -/
theorem count_marked {drawn : Array Bool} {places : List Nat}
    (h : ∀ place ∈ places, place < drawn.size) : (marked drawn places).count true
      = drawn.count true
        + (places.toFinset.filter fun place => drawn[place]? = some false).card := by
  induction places generalizing drawn with
  | nil => rfl
  | cons place places ih =>
    obtain ⟨hplace, hplaces⟩ := List.forall_mem_cons.mp h
    have hset : drawn.setIfInBounds place true = drawn.set place true hplace := dif_pos hplace
    have hbounds : ∀ other ∈ places, other < (drawn.set place true hplace).size := by
      rwa [Array.size_set]
    have hrest := ih hbounds
    have hfalse (other : Nat) : (drawn.set place true hplace)[other]? = some false ↔
        drawn[other]? = some false ∧ other ≠ place := by
      rw [Array.getElem?_set]
      by_cases hother : place = other
      · simp [hother]
      · simp [hother, Ne.symm hother]
    have hmarked : marked drawn (place :: places)
        = marked (drawn.set place true hplace) places := by
      rw [← hset]
      rfl
    have hsplit : (places.toFinset.filter fun other =>
        (drawn.set place true hplace)[other]? = some false)
          = (places.toFinset.filter fun other => drawn[other]? = some false).erase place := by
      ext other
      simp only [Finset.mem_filter, Finset.mem_erase, hfalse]
      tauto
    rw [hmarked, hrest, hsplit, Array.count_set, List.toFinset_cons, Finset.filter_insert,
      Array.getElem?_eq_getElem hplace]
    cases hbefore : drawn[place] with
    | false =>
      rw [if_pos rfl, ← Finset.card_erase_add_one (Finset.mem_insert_self _ _),
        Finset.erase_insert_eq_erase]
      simp only [beq_self_eq_true, if_true, Bool.false_eq_true, beq_iff_eq, if_false]
      omega
    | true =>
      have hnot : place ∉ places.toFinset.filter fun other => drawn[other]? = some false := by
        simp [Array.getElem?_eq_getElem hplace, hbefore]
      have hpos : 0 < drawn.count true :=
        Array.count_pos_iff.mpr (Array.mem_of_getElem hbefore)
      rw [if_neg (by simp : ¬ some true = some false), Finset.erase_eq_of_notMem hnot]
      simp only [beq_self_eq_true, if_true]
      omega

/-- The number of places that were drawn, each counted once. -/
theorem distinctCount_eq {size : Nat} {places : List Nat} (h : ∀ place ∈ places, place < size) :
    distinctCount size places = places.toFinset.card := by
  have hbounds : ∀ place ∈ places, place < (Array.replicate size false).size := by
    rwa [Array.size_replicate]
  have hcount := count_marked hbounds
  have hnone : (Array.replicate size false).count true = 0 := Array.count_replicate
  have hall : (places.toFinset.filter fun place =>
      (Array.replicate size false)[place]? = some false) = places.toFinset := by
    refine Finset.filter_eq_self.mpr fun place hplace => ?_
    rw [Array.getElem?_replicate, if_pos (h place (List.mem_toFinset.mp hplace))]
  rw [hnone, Nat.zero_add, hall] at hcount
  exact hcount

/-- Of the places at least one was drawn, and no more than there are and no more than were drawn. -/
theorem distinctCount_spec {size : Nat} {places : List Nat} (hne : places ≠ [])
    (h : ∀ place ∈ places, place < size) : 1 ≤ distinctCount size places ∧
      distinctCount size places ≤ size ∧ distinctCount size places ≤ places.length := by
  rw [distinctCount_eq h]
  refine ⟨Finset.card_pos.mpr ((List.toFinset_nonempty_iff places).mpr hne), ?_,
    List.toFinset_card_le places⟩
  have hsubset : places.toFinset ⊆ Finset.range size := fun place hplace =>
    Finset.mem_range.mpr (h place (List.mem_toFinset.mp hplace))
  exact (Finset.card_le_card hsubset).trans_eq (Finset.card_range size)

end Search

end Espalier
