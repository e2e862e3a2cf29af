import Espalier.Proofs.Household
import Espalier.Proofs.Search.Drawing
import Espalier.Proofs.Search.Lineage

/-!
# Siblings

A population that is drawn anew consists of copies, several of which may be of the same particle.
`Redraws` says of a resampling whose copies they are, that their numbers are new, what is reported
of them, and that they may be forked in one store with the particles they were drawn from and then
go separate ways: whatever is done to one of them, its siblings keep what they have.

That holds of every population whose particles are `Numbered`, and `OnTime.numbered` says that all
populations of a run are.
-/

namespace Espalier

variable {N R ρ κ ω : Type}

/-- A particle has all that another one has, but for its number and its parent. -/
structure Particle.CopyOf (p q : Particle N R) (id : ParticleId) : Prop where
  id : q.id = id
  parent : q.parent = some p.id
  nodes : q.growth.toList = p.growth.toList
  cost : q.cost = p.cost
  logProbability : q.logProbability = p.logProbability
  skeleton : q.skeleton = p.skeleton
  details : q.details = p.details

theorem Particle.copyOf_fork (p : Particle N R) (id : ParticleId) (mark : HistoryMark) :
    p.CopyOf (p.fork id mark).2 id :=
  ⟨rfl, rfl, Growth.toList_freeze p.growth mark, rfl, rfl, rfl, rfl⟩

namespace Search

/-- The particles of a population have numbers of their own, and the next number is a new one. -/
structure Numbered (s : Search N R ρ κ ω) : Prop where
  below : ∀ p ∈ s.population, p.id < s.nextId
  distinct : (s.population.toList.map (·.id)).Nodup

variable [Scalar R] [RandomSource ρ]

/-- As many particles have a fork as there are different parents in the new population. -/
theorem card_parents {s : Search N R ρ κ ω} {g : Nat} (hpos : 0 < s.population.size)
    (hs : s.Numbered) : ((s.drawn g).toList.map (·.parent)).toFinset.card
      = distinctCount s.population.size (s.draws g).1 := by
  obtain ⟨hlength, hplaces⟩ := draws_of_pos (g := g) hpos
  obtain ⟨hsize, hcopies⟩ := drawn_copies (g := g) hpos
  let parent : Nat → Option ParticleId := fun place => s.population[place]?.map (·.id)
  have hparents : (s.drawn g).toList.map (·.parent) = (s.draws g).1.map parent := by
    refine List.ext_getElem? fun k => ?_
    rw [List.getElem?_map, List.getElem?_map, Array.getElem?_toList]
    cases hq : (s.drawn g)[k]? with
    | none =>
      have hout := Array.getElem?_eq_none_iff.mp hq
      rw [List.getElem?_eq_none (by omega)]
      rfl
    | some q =>
      obtain ⟨place, p, mark, hplace, hp, rfl⟩ := hcopies k q hq
      rw [hplace]
      show some (some p.id) = some (s.population[place]?.map (·.id))
      rw [hp]
      rfl
  have hinjective : Set.InjOn parent (s.draws g).1.toFinset := by
    intro place hplace other _ hsame
    have hids (j : Nat) : (s.population.toList.map (·.id))[j]? = parent j := by
      rw [List.getElem?_map, Array.getElem?_toList]
    have hlt : place < (s.population.toList.map (·.id)).length := by
      rw [List.length_map, Array.length_toList]
      exact hplaces place (List.mem_toFinset.mp hplace)
    refine (List.getElem?_inj hlt hs.distinct).mp ?_
    rw [hids, hids]
    exact hsame
  have himage : ((s.draws g).1.map parent).toFinset = (s.draws g).1.toFinset.image parent := by
    ext id
    simp only [List.mem_toFinset, List.mem_map, Finset.mem_image]
  rw [distinctCount_eq hplaces, hparents, himage, Finset.card_image_of_injOn hinjective]

section Runs

variable [CostModel κ N R] [Watcher ω N R]

/-- All that a resampling does to a population. -/
structure Redraws (s : Search N R ρ κ ω) (g : Nat) : Prop where
  size : (s.resample g).population.size = s.config.sampleCountAt (g + 1)
  /-- The copy after `k` others is one of the particle that the word after `k` others stands for. -/
  copies : ∀ k < s.config.sampleCountAt (g + 1), ∃ place p q,
    Selection.weightedIndex (s.lottery g).weights (s.lottery g).sum (unitShare (wordAt k s.source))
        = some place ∧
      s.population[place]? = some p ∧ (s.resample g).population[k]? = some q ∧
      p.CopyOf q (s.nextId + k)
  fresh : ∀ p ∈ s.population, ∀ q ∈ (s.resample g).population, p.id < q.id
  /-- The watcher is told how many different parents there are. -/
  reported : (s.resample g).watcher = Watcher.generation
    (((if (s.lottery g).uniform then [degenerate g (s.lottery g).givenSum] else [])
      ++ [Event.resampled g s.population.size (s.resample g).population.size
          ((s.resample g).population.toList.map (·.parent)).toFinset.card
          (s.lottery g).effectiveSize (s.lottery g).uniform]).foldl (offer N) s.watcher)
    g (s.resample g).population
  /-- There is a store for the population, with names to spare for the next one. -/
  room : ∃ (h : Household N R) (names copies : List String), h.Sound ∧
    h.Houses names s.population ∧ (names ++ copies).Nodup ∧
    copies.length = (s.resample g).population.size
  /-- In any such store the particles may be forked as they are drawn and given up, and what is done
  to the copies after that changes no other copy, nor what the store has for it. -/
  siblings : ∀ (h : Household N R) (names copies : List String), h.Sound →
    h.Houses names s.population → (names ++ copies).Nodup →
    copies.length = (s.resample g).population.size →
    let redrawn := h.after s.grammar
      (Household.redraw names s.nextId (s.draws g).1 copies : List (Deed ρ κ))
    redrawn.Houses copies (s.resample g).population ∧
      ∀ (deeds : List (Deed ρ κ)) (j : Nat) (name : String) (q : Particle N R),
        copies[j]? = some name → (s.resample g).population[j]? = some q →
        (∀ deed ∈ deeds, name ∉ deed.touched) →
        (redrawn.after s.grammar deeds).particle name = some q ∧
          (redrawn.after s.grammar deeds).store.StandsFor name (some q.growth.toList)

theorem redraws {s : Search N R ρ κ ω} (hpos : 0 < s.population.size) (hs : s.Numbered) (g : Nat) :
    s.Redraws g := by
  obtain ⟨hlength, hplaces⟩ := draws_of_pos (g := g) hpos
  obtain ⟨hsize, hcopies⟩ := drawn_copies (g := g) hpos
  have hpopulation := population_resample s g
  constructor
  case size => rw [hpopulation, hsize]
  case copies =>
    intro k hk
    obtain ⟨q, hq⟩ : ∃ q, (s.drawn g)[k]? = some q :=
      ⟨_, Array.getElem?_eq_getElem (hsize ▸ hk)⟩
    obtain ⟨place, p, mark, hplace, hp, heq⟩ := hcopies k q hq
    have hdraw := getElem?_drawParents (weights_lottery_ne_nil g hpos) hk s.source
    rw [hpopulation]
    refine ⟨place, p, q, hdraw.symm.trans hplace, hp, hq, ?_⟩
    rw [heq]
    exact p.copyOf_fork _ mark
  case fresh =>
    intro p hp q hq
    obtain ⟨k, hk⟩ := Array.mem_iff_getElem?.mp (hpopulation ▸ hq)
    obtain ⟨place, parent, mark, -, -, rfl⟩ := hcopies k q hk
    exact Nat.lt_of_lt_of_le (hs.below p hp) (Nat.le_add_right s.nextId k)
  case reported =>
    rw [watcher_resample, hpopulation, card_parents hpos hs]
    rfl
  case room =>
    obtain ⟨h, names, hsound, hhouses⟩ := Household.exists_houses s.population
    obtain ⟨copies, hcount, hfresh⟩ :=
      Household.exists_fresh hhouses.nodup (s.resample g).population.size
    exact ⟨h, names, copies, hsound, hhouses, hfresh, hcount⟩
  case siblings =>
    intro h names copies hsound hhouses hfresh hcount redrawn
    have hdrawn : redrawn.Houses copies (s.drawn g) :=
      hhouses.redrawn hfresh (by rw [hcount, hpopulation, hsize, hlength]) hplaces s.nextId
    rw [hpopulation]
    refine ⟨hdrawn, fun deeds j name q hname hq huntouched => ?_⟩
    have hkept := (Household.particle_after (g := s.grammar) huntouched).trans
      (hdrawn.particle hname hq)
    exact ⟨hkept, ((hsound.after _).after deeds).standsFor hkept⟩

omit [RandomSource ρ] [CostModel κ N R] [Watcher ω N R] in
/-- Before every resampling there are particles, with the numbers they were given in turn. -/
theorem OnTime.numbered {s : Search N R ρ κ ω} (hs : s.OnTime) {g : Nat}
    (h : s.stage = .resample g) : 0 < s.population.size ∧ s.Numbered := by
  obtain ⟨-, hgen, -, hnext⟩ := hs.holds_at h
  refine ⟨hgen.size ▸ s.config.sampleCountAt_pos g, fun p hp => ?_, ?_⟩
  · exact hnext ▸ (hgen.belong p hp).high
  · have hids : s.population.toList.map (·.id)
        = (List.range s.population.size).map (s.config.firstId g + ·) := by
      refine List.ext_getElem (by simp) fun j hj _ => ?_
      rw [List.length_map, Array.length_toList] at hj
      rw [List.getElem_map, List.getElem_map, List.getElem_range, Array.getElem_toList]
      exact hgen.number j _ (Array.getElem?_eq_getElem hj)
    rw [hids]
    exact List.nodup_range.map fun _ _ => Nat.add_left_cancel

/-- The next number is larger than all that have been given so far. -/
theorem id_lt_nextId {s : Search N R ρ κ ω} (hs : s.OnTime) {m n g : Nat}
    (h : (s.after n).stage = .resample g) (hm : m ≤ n) {p : Particle N R}
    (hp : p ∈ (s.after m).particles) : p.id < (s.after n).nextId := by
  obtain ⟨-, -, -, hnext⟩ := (onTime_after hs n).holds_at h
  obtain ⟨g', hstarted, hbelongs⟩ := belongs_after hs hp
  have hnow : (s.after n).started = g + 1 := by
    unfold started
    rw [h]
    rfl
  have hle : g' + 1 ≤ g + 1 := hstarted ▸ hnow ▸ started_le hs hm
  rw [hnext, (sameTask_after s n).config]
  exact Nat.lt_of_lt_of_le hbelongs.high (s.config.firstId_le hle)

/-- A population with particles is redrawn as its draws say, into copies that have nothing to do
with one another any more. In a run this is so at every resampling, and the numbers are new. -/
theorem resampling_copies :
    (∀ {s : Search N R ρ κ ω}, 0 < s.population.size → s.Numbered → ∀ g, s.Redraws g) ∧
    ∀ {grammar : Grammar N R} {root : N} {start : String} {config : Config R} {patience : Nat}
      {model : κ} {source : ρ} {watcher : ω} {s : Search N R ρ κ ω},
      Search.new grammar root start config patience model source watcher = .ok s →
        ∀ n g, (s.after n).stage = .resample g →
          s.after (n + 1) = (s.after n).resample g ∧ (s.after n).Redraws g ∧
          ∀ m ≤ n, ∀ p ∈ (s.after m).particles, p.id < (s.after n).nextId := by
  refine ⟨fun hpos hs g => redraws hpos hs g, fun {_ _ _ _ _ _ _ _ s} hnew n g hstage => ?_⟩
  have hs := onTime_new hnew
  obtain ⟨hpos, hnumbered⟩ := (onTime_after hs n).numbered hstage
  refine ⟨?_, redraws hpos hnumbered g, fun m hm p hp => id_lt_nextId hs hstage hm hp⟩
  show (s.after n).step.2 = _
  unfold step
  rw [hstage]

end Runs

end Search

namespace Sample

/-- A search for a stem in doubles, whose first population is redrawn. -/
def paired : Except (Failure Binary64)
    (Search String Binary64 Source (NoCost String Binary64) (Sink Binary64)) :=
  Search.new grammar "root" "stem" config 10 ⟨⟩ (.cycle #[] 0) .ignore

end Sample

namespace Search

open Binary64 Sample

/-- Zeros draw twins of the first particle, of this population and of one in a run. -/
theorem resampling_copies_twins : (judged [.infinity, 0]).Redraws 0 ∧
    ((judged [.infinity, 0]).resample 0).population.toList.map (·.parent) = [some 0, some 0] ∧
    ∃ s, paired = .ok s ∧ (s.after 4).stage = .resample 0 ∧ (s.after 4).Redraws 0 := by
  obtain ⟨hjudged, -⟩ := resampling_copies (N := String) (R := WithExp threshold) (ρ := Source)
    (κ := NoCost String (WithExp threshold)) (ω := Sink (WithExp threshold))
  obtain ⟨-, hruns⟩ := resampling_copies (N := String) (R := Binary64) (ρ := Source)
    (κ := NoCost String Binary64) (ω := Sink Binary64)
  have hnumbered : (judged [.infinity, 0]).Numbered := ⟨by decide +kernel, by decide +kernel⟩
  have hrun : (paired.toOption.map fun s => (s.after 4).stage) = some (.resample 0) := by
    decide +kernel
  refine ⟨hjudged (by decide +kernel) hnumbered 0, by decide +kernel, ?_⟩
  obtain ⟨s, hnew, hstage⟩ := exists_of_toOption_map hrun
  obtain ⟨-, hredraws, -⟩ := hruns hnew 4 0 hstage
  exact ⟨s, hnew, hstage, hredraws⟩

end Search

end Espalier
