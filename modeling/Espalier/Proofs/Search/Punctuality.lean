import Espalier.Proofs.Search.Showings
import Espalier.Proofs.Search.Readings

/-!
# Searches keep their timetable

`OnSchedule` collects what the configuration settles about a run without failures: the stages it
goes through, when the survivor is chosen, how large the population is, whose turn it is, which
populations the watcher is shown, and that no schedule is read past the last generation.
`keeps_timetable` is the result.
-/

namespace Espalier.Search

variable {N R ρ κ ω : Type} [Scalar R] [RandomSource ρ] [CostModel κ N R] [Watcher ω N R]
  {s : Search N R ρ κ ω}

/-- What the configuration settles about the first steps of a search. -/
structure OnSchedule (s : Search N R ρ κ ω) (n : Nat) : Prop where
  /-- The stages follow the timetable, then come closings, details and the end. -/
  stages : ∃ closings details,
    s.stages n ++ [(s.after n).stage] <+: s.config.wholeRun closings details
  /-- The survivor is chosen after one step to populate, one for each particle and one for the
  end of each generation, and one for each resampling. -/
  selects : ∀ m ≤ n, (s.after m).stage = .selectSurvivor ↔
    m = 1 + ((List.range s.config.generations).map fun g => s.config.sampleCountAt g + 1).sum
      + (s.config.generations - 1)
  /-- The population has the size of its generation and is not empty. -/
  sizes : ∀ m ≤ n, ∀ g, (∃ next, (s.after m).stage = .grow g next) ∨
      (s.after m).stage = .resample g →
    (s.after m).population.size = s.config.sampleCountAt g ∧ 0 < s.config.sampleCountAt g
  /-- A particle that is due is the only one that grows. -/
  grows : ∀ m < n, ∀ g next, (s.after m).stage = .grow g next → next < s.config.sampleCountAt g →
    ∃ p, (s.after m).population[next]? = some p ∧
      (s.after (m + 1)).population = (s.after m).population.setIfInBounds next
        ((s.after m).growth .skeleton ((s.after m).heuristicCounts g) p).2.1
  /-- At the end of a generation none grows. -/
  ends : ∀ m < n, ∀ g, (s.after m).stage = .grow g (s.config.sampleCountAt g) →
    (s.after (m + 1)).population = (s.after m).population
  /-- The watcher is shown one population for each generation, the last one when the survivor is
  about to be chosen. -/
  shown : ∃ log, Heard N R s.watcher log (s.after n).watcher ∧
    Search.sizes log <+: s.config.showings ∧
    (s.config.stepsToSelect ≤ n → Search.sizes log = s.config.showings)
  /-- What the schedules say past the last generation makes no difference. -/
  reads : ∀ c, SameConfig s.config c → c.validate = s.config.validate ∧
    ∀ m ≤ n, (s.withConfig c).after m = (s.after m).withConfig c ∧
      ((s.withConfig c).after m).step.1 = (s.after m).step.1

/-- The particle that is due grows, and the others stay as they are. -/
theorem population_grow (hs : s.OnTime) {g next : Nat} (h : s.stage = .grow g next)
    (hnext : next < s.config.sampleCountAt g) :
    ∃ p, s.population[next]? = some p ∧ s.step.2.population
      = s.population.setIfInBounds next (s.growth .skeleton (s.heuristicCounts g) p).2.1 := by
  obtain ⟨-, -, hgen, -⟩ := hs.holds_at h
  have hp := Array.getElem?_eq_getElem (hgen.size.symm ▸ hnext)
  refine ⟨_, hp, ?_⟩
  rw [step_grow h hp]

/-- When all have grown, none does. -/
theorem population_endGeneration (hs : s.OnTime) {g : Nat}
    (h : s.stage = .grow g (s.config.sampleCountAt g)) : s.step.2.population = s.population := by
  obtain ⟨-, -, hgen, -⟩ := hs.holds_at h
  have hp : s.population[s.config.sampleCountAt g]? = none :=
    Array.getElem?_eq_none_iff.mpr (Nat.le_of_eq hgen.size)
  obtain ⟨w, -, hstep⟩ := step_endGeneration h hp
  rw [hstep]

/-- The watcher is shown what the configuration lists, in order, and all of it by the choice of the
survivor. -/
theorem showings_heard (hs : s.OnTime) (hstart : s.stage = .populate) {n : Nat}
    (hok : s.Succeeds n) :
    ∃ log, Heard N R s.watcher log (s.after n).watcher ∧ sizes log <+: s.config.showings ∧
      (s.config.stepsToSelect ≤ n → sizes log = s.config.showings) := by
  have hconfig := (s.sameTask_after n).config
  have hholds := (onTime_after hs n).holds
  have hpast : Past (s.after n).config (s.after n).stage (s.stages n) :=
    hconfig.symm ▸ past_after hs hstart hok
  obtain ⟨log, hheard, hsizes⟩ := heard_after hs hok
  obtain ⟨closings, details, hwhole⟩ := wholeRun_of_past hholds hpast
  rw [hconfig] at hwhole
  have hbegins : sizes log <+: s.config.showings := by
    rw [hsizes, ← flatMap_shows_wholeRun s.config closings details]
    exact List.IsPrefix.flatMap ((List.prefix_append _ _).trans hwhole) _
  refine ⟨log, hheard, hbegins, fun hlate => ?_⟩
  have hgrowing : s.config.growing <+: s.stages n := by
    have hafter := growing_of_late hholds hpast
    rw [hconfig, length_stages] at hafter
    exact hafter hlate
  -- Generations show everything there is to show, and no more than that is shown in all.
  refine List.IsPrefix.eq_of_length_le hbegins (List.IsPrefix.length_le ?_)
  rw [hsizes, ← flatMap_shows_growing]
  exact List.IsPrefix.flatMap hgrowing _

/-- A search without failures keeps its timetable. -/
theorem keeps_timetable {grammar : Grammar N R} {root : N} {start : String} {config : Config R}
    {patience : Nat} {model : κ} {source : ρ} {watcher : ω}
    (hnew : Search.new grammar root start config patience model source watcher = .ok s)
    {n : Nat} (hok : s.Succeeds n) : s.OnSchedule n := by
  have hs := onTime_new hnew
  have hstart := stage_new hnew
  have hconfig : ∀ m, (s.after m).config = s.config := fun m => (s.sameTask_after m).config
  have hpast : ∀ m ≤ n, Past (s.after m).config (s.after m).stage (s.stages m) := fun m hm => by
    rw [hconfig]
    exact past_after hs hstart fun l hl => hok l (Nat.lt_of_lt_of_le hl hm)
  have hholds : ∀ m, (s.after m).Holds (s.after m).stage := fun m => (onTime_after hs m).holds
  constructor
  case stages =>
    rw [← hconfig n]
    exact wholeRun_of_past (hholds n) (hpast n (Nat.le_refl n))
  case selects =>
    intro m hm
    have hselect := select_iff_of_past (hholds m) (hpast m hm)
    rw [length_stages, hconfig] at hselect
    exact hselect
  case sizes =>
    intro m _ g hstage
    have hgen : IsGeneration (s.after m).config g (s.after m).population := by
      refine (onTime_after hs m).generation ?_
      rcases hstage with hgrow | hresample
      · exact Or.inl hgrow
      · exact Or.inr (Or.inl hresample)
    rw [hconfig] at hgen
    exact ⟨hgen.size, s.config.sampleCountAt_pos g⟩
  case grows =>
    intro m _ g next hstage hnext
    rw [← hconfig m] at hnext
    exact population_grow (onTime_after hs m) hstage hnext
  case ends =>
    intro m _ g hstage
    rw [← hconfig m] at hstage
    exact population_endGeneration (onTime_after hs m) hstage
  case shown => exact showings_heard hs hstart hok
  case reads =>
    intro c hc
    exact ⟨validate_of_same hc, fun m _ => after_withConfig hs hc m⟩

/-- Two particles are grown and redrawn and grown again, the survivor is chosen, nothing closed and
one detail grown. -/
theorem keeps_timetable_small : ∃ s : Search String Sample.Whole Source
    (NoCost String Sample.Whole) (Sink Sample.Whole), Sample.search ⟨⟩ = .ok s ∧
      s.Succeeds 12 ∧ (s.after 12).stage = .done ∧ s.OnSchedule 12 := by
  have hrun : ((Sample.search (⟨⟩ : NoCost String Sample.Whole)).toOption.map fun s =>
      (decide (s.Succeeds 12), (s.after 12).stage)) = some (true, .done) := by
    decide +kernel
  obtain ⟨s, hnew, hseen⟩ := exists_of_toOption_map hrun
  obtain ⟨hsucceeds, hdone⟩ := Prod.mk.inj hseen
  have hok : s.Succeeds 12 := of_decide_eq_true hsucceeds
  exact ⟨s, hnew, hok, hdone, keeps_timetable hnew hok⟩

end Espalier.Search
