import Espalier.Proofs.Search.Generations

/-!
# What a search reads of its schedules

Two configurations that agree up to the last generation cannot be told apart: a search with the one
and a search with the other go through the same steps with the same results (`after_withConfig`).
So a schedule is read for the generations there are and never past them.
-/

namespace Espalier.Search

variable {N R ρ κ ω : Type} [Scalar R] [RandomSource ρ] [CostModel κ N R] [Watcher ω N R]
  {s : Search N R ρ κ ω}

/-- Two schedules for so many generations have the same values for them. -/
structure SameSchedule (generations : Nat) (schedule schedule' : Schedule R) : Prop where
  empty : schedule'.isEmpty = schedule.isEmpty
  values : ∀ g < generations,
    schedule'.valueAt g generations = schedule.valueAt g generations

/-- Two configurations that differ at most in what their schedules say past the last generation. -/
structure SameConfig (c c' : Config R) : Prop where
  generations : c'.generations = c.generations
  sampleCount : SameSchedule c.generations c.sampleCount c'.sampleCount
  heuristicScale : SameSchedule c.generations c.heuristicScale c'.heuristicScale
  budget : c'.budget = c.budget

theorem sampleCountAt_of_same {c c' : Config R} (h : SameConfig c c') {g : Nat}
    (hg : g < c.generations) : c'.sampleCountAt g = c.sampleCountAt g := by
  unfold Config.sampleCountAt Schedule.countAt
  rw [h.generations, h.sampleCount.values g hg]

theorem heuristicScaleAt_of_same {c c' : Config R} (h : SameConfig c c') {g : Nat}
    (hg : g < c.generations) : c'.heuristicScaleAt g = c.heuristicScaleAt g := by
  unfold Config.heuristicScaleAt
  rw [h.generations, h.heuristicScale.values g hg]

/-- A schedule is checked for its generations alone. -/
theorem check_of_same {generations : Nat} {schedule schedule' : Schedule R} (name : ScheduleName)
    (h : SameSchedule generations schedule schedule') :
    schedule'.check name generations = schedule.check name generations := by
  have hfrom : ∀ left g, g + left = generations →
      schedule'.checkFrom name generations left g = schedule.checkFrom name generations left g := by
    intro left
    induction left with
    | zero => exact fun g _ => rfl
    | succ left ih =>
      intro g hg
      unfold Schedule.checkFrom
      rw [h.values g (by omega), ih (g + 1) (by omega)]
  unfold Schedule.check
  rw [h.empty, hfrom generations 0 (Nat.zero_add _)]

theorem validate_of_same {c c' : Config R} (h : SameConfig c c') : c'.validate = c.validate := by
  unfold Config.validate
  rw [h.generations, h.budget, check_of_same _ h.sampleCount, check_of_same _ h.heuristicScale]

/-- The search with another configuration. -/
def withConfig (s : Search N R ρ κ ω) (c : Config R) : Search N R ρ κ ω := { s with config := c }

omit [Scalar R] [RandomSource ρ] [CostModel κ N R] in
/-- An event reaches the watcher alone. -/
theorem emit_eq (s : Search N R ρ κ ω) (event : Event R) : s.emit event = { s with
    watcher := if Watcher.wants N R s.watcher event.kind then Watcher.send N s.watcher event
      else s.watcher } := by
  unfold emit
  split <;> rfl

omit [RandomSource ρ] [CostModel κ N R] in
theorem populate_withConfig {c : Config R} (hc : SameConfig s.config c)
    (hpos : 0 < s.config.generations) :
    (s.withConfig c).populate = s.populate.withConfig c := by
  have hcount := sampleCountAt_of_same hc hpos
  have hseeds : (s.withConfig c).seeds = s.seeds := by
    unfold seeds
    simp only [withConfig]
    rw [hcount]
  unfold populate
  rw [hseeds]
  simp only [emit_eq, withConfig, hc.generations]
  rw [hcount]

omit [RandomSource ρ] [CostModel κ N R] in
theorem finishGeneration_withConfig {c : Config R} (hc : SameConfig s.config c) {g : Nat}
    (hg : g < s.config.generations) :
    (s.withConfig c).finishGeneration g = (s.finishGeneration g).withConfig c := by
  have hscale := heuristicScaleAt_of_same hc hg
  have hgrown : (s.withConfig c).grown g = s.grown g := by
    have htotals : (s.withConfig c).totals = s.totals := rfl
    unfold grown
    rw [htotals]
    simp only [withConfig, hscale]
  unfold finishGeneration
  rw [hgrown]
  simp only [emit_eq, withConfig, hc.generations]
  split <;> rfl

omit [CostModel κ N R] in
theorem resample_withConfig {c : Config R} (hc : SameConfig s.config c) {g : Nat}
    (hg : g + 1 < s.config.generations) :
    (s.withConfig c).resample g = (s.resample g).withConfig c := by
  have hlottery : (s.withConfig c).lottery g = s.lottery g := by
    have hscale := heuristicScaleAt_of_same hc (Nat.lt_of_succ_lt hg)
    unfold lottery logWeights
    simp only [withConfig, hscale]
  have hdraws : (s.withConfig c).draws g = s.draws g := by
    have hcount := sampleCountAt_of_same hc hg
    unfold draws
    rw [hlottery]
    simp only [withConfig, hcount]
  unfold resample
  rw [hlottery, hdraws]
  simp only [emit_eq, withConfig]
  by_cases huniform : (s.lottery g).uniform
  · simp only [if_pos huniform]
    rfl
  · simp only [if_neg huniform]
    rfl

/-- A step does not tell two such configurations apart. -/
theorem step_withConfig (hs : s.OnTime) {c : Config R} (hc : SameConfig s.config c) :
    (s.withConfig c).step = (s.step.1, s.step.2.withConfig c) := by
  have hstage : (s.withConfig c).stage = s.stage := rfl
  -- The step lemmas hide which values are read, so the stages are opened here once more.
  unfold step
  rw [hstage]
  cases h : s.stage with
  | populate =>
    dsimp only
    rw [populate_withConfig hc hs.generations]
  | grow g next =>
    have hholds := hs.holds_at h
    have hscale := heuristicScaleAt_of_same hc hholds.1
    have hpopulation : (s.withConfig c).population = s.population := rfl
    unfold growNext
    dsimp only
    rw [finishGeneration_withConfig hc hholds.1, hpopulation]
    cases s.population[next]? with
    | none => rfl
    | some p =>
      simp only [withConfig, hscale]
      split <;> rfl
  | resample g =>
    have hholds := hs.holds_at h
    dsimp only
    rw [resample_withConfig hc hholds.1]
  | selectSurvivor =>
    have hfittest : (s.withConfig c).fittest? = s.fittest? := rfl
    unfold selectSurvivor
    rw [hfittest]
    simp only [emit_eq, withConfig]
    split <;> rfl
  | close =>
    have hsurvivor : (s.withConfig c).survivor = s.survivor := rfl
    unfold closeNext
    rw [hsurvivor]
    dsimp only
    split
    · rfl
    · simp only [withConfig]
      split <;> rfl
  | detail =>
    have hsurvivor : (s.withConfig c).survivor = s.survivor := rfl
    unfold growDetail
    rw [hsurvivor]
    dsimp only
    split
    · rfl
    · split
      · unfold finish
        simp only [emit_eq, withConfig]
      · simp only [withConfig]
        split <;> rfl
  | done => rfl

theorem after_withConfig (hs : s.OnTime) {c : Config R} (hc : SameConfig s.config c) (n : Nat) :
    (s.withConfig c).after n = (s.after n).withConfig c ∧
      ((s.withConfig c).after n).step.1 = (s.after n).step.1 := by
  have hafter : (s.withConfig c).after n = (s.after n).withConfig c := by
    induction n with
    | zero => rfl
    | succ n ih =>
      have hconfig := (s.sameTask_after n).config
      show ((s.withConfig c).after n).step.2 = (s.after n).step.2.withConfig c
      rw [ih, step_withConfig (onTime_after hs n) (hconfig ▸ hc)]
  refine ⟨hafter, ?_⟩
  have hconfig := (s.sameTask_after n).config
  rw [hafter, step_withConfig (onTime_after hs n) (hconfig ▸ hc)]

end Espalier.Search
