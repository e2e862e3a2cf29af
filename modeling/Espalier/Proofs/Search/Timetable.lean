import Espalier.Proofs.Search.Generations
import Mathlib.Data.List.Infix

/-!
# The timetable of a search

How many steps a search takes until it has a survivor, and which, depends on its configuration
alone. `Config.timetable` lists the stages up to the choice of the survivor.

> `Past`: the stages a search was in before its stage are a beginning of the timetable, or all of it
> and then closings and details.

`past_step` keeps it as long as no step fails and `past_after` is the run; `past_cases` and what
follows it read off where in the timetable a search is.
-/

namespace Espalier

variable {N R ρ κ ω : Type} [Scalar R]

namespace Config

/-- The stages of one generation: every particle, the end, and the resampling unless it is the
last. -/
def stagesOf (c : Config R) (g : Nat) : List Stage :=
  (List.range (c.sampleCountAt g + 1)).map (.grow g)
    ++ if g + 1 < c.generations then [.resample g] else []

/-- The stages before the survivor is chosen. -/
def growing (c : Config R) : List Stage :=
  .populate :: (List.range c.generations).flatMap c.stagesOf

/-- The stages until the survivor is chosen. -/
def timetable (c : Config R) : List Stage := c.growing ++ [.selectSurvivor]

/-- All stages, with so many closings and detail growths before the last ones that find nothing
to do. -/
def wholeRun (c : Config R) (closings details : Nat) : List Stage :=
  c.timetable ++ List.replicate (closings + 1) .close ++ List.replicate (details + 1) .detail
    ++ [.done]

/-- What the watcher is shown over a whole search: for each generation the size of the population
it ends with, which is the next one except for the last. -/
def showings (c : Config R) : List (Nat × Nat) :=
  (List.range c.generations).map fun g =>
    (g, if g + 1 < c.generations then c.sampleCountAt (g + 1) else c.sampleCountAt g)

/-- How many steps come before the survivor is chosen. -/
def stepsToSelect (c : Config R) : Nat :=
  1 + ((List.range c.generations).map fun g => c.sampleCountAt g + 1).sum + (c.generations - 1)

theorem length_stagesOf (c : Config R) (g : Nat) : (c.stagesOf g).length
    = c.sampleCountAt g + 1 + if g + 1 < c.generations then 1 else 0 := by
  unfold stagesOf
  rw [List.length_append, List.length_map, List.length_range]
  split <;> rfl

/-- The first generations take a step for each particle and one for their end, and all but the last
one more. -/
theorem length_stagesOf_range (c : Config R) {g : Nat} (hg : g ≤ c.generations) :
    ((List.range g).flatMap c.stagesOf).length
      = ((List.range g).map fun h => c.sampleCountAt h + 1).sum + min g (c.generations - 1) := by
  induction g with
  | zero => simp
  | succ g ih =>
    have hlength := c.length_stagesOf g
    rw [List.range_succ, List.flatMap_append, List.map_append, List.sum_append, List.length_append,
      ih (by omega), List.flatMap_singleton, List.map_singleton, List.sum_singleton, hlength]
    split <;> omega

theorem length_growing (c : Config R) : c.growing.length = c.stepsToSelect := by
  unfold growing stepsToSelect
  rw [List.length_cons, c.length_stagesOf_range (Nat.le_refl _)]
  omega

/-- The stages of a generation come after those of the generations before. -/
theorem growing_begins (c : Config R) {g : Nat} (hg : g < c.generations) :
    .populate :: ((List.range g).flatMap c.stagesOf ++ c.stagesOf g) <+: c.growing := by
  obtain ⟨rest, hrest⟩ := Nat.exists_eq_add_of_le (Nat.succ_le_of_lt hg)
  unfold growing
  rw [hrest, List.range_add, List.flatMap_append, List.range_succ, List.flatMap_append,
    List.flatMap_singleton]
  exact List.prefix_append _ _

end Config

namespace Search

/-- The stages a search was in before it came to one, if no step failed. -/
def Past (c : Config R) : Stage → List Stage → Prop
  | .populate, past => past = []
  | .grow g next, past =>
    past = .populate :: ((List.range g).flatMap c.stagesOf ++ (List.range next).map (.grow g))
  | .resample g, past =>
    past = .populate :: ((List.range g).flatMap c.stagesOf
      ++ (List.range (c.sampleCountAt g + 1)).map (.grow g))
  | .selectSurvivor, past => past = c.growing
  | .close, past => ∃ closings, past = c.timetable ++ List.replicate closings .close
  | .detail, past => ∃ closings details, past = c.timetable
      ++ List.replicate (closings + 1) .close ++ List.replicate details .detail
  | .done, past => ∃ closings details, past = c.timetable
      ++ List.replicate (closings + 1) .close ++ List.replicate (details + 1) .detail

variable [RandomSource ρ] [CostModel κ N R] [Watcher ω N R] {s : Search N R ρ κ ω}

/-- The stages a search is in before each of its first steps. -/
def stages (s : Search N R ρ κ ω) (n : Nat) : List Stage :=
  (List.range n).map fun m => (s.after m).stage

omit [RandomSource ρ] [CostModel κ N R] [Watcher ω N R] in
/-- The end of a generation has the past of the resampling that follows, or of the choice of the
survivor after the last generation. -/
theorem past_endGeneration (hs : s.OnTime) {g next : Nat} (h : s.stage = .grow g next)
    (hp : s.population[next]? = none) {past : List Stage}
    (hpast : Past s.config (.grow g next) past) :
    Past s.config (s.afterGeneration g) (past ++ [.grow g next]) := by
  obtain ⟨hg, -⟩ := hs.holds_at h
  obtain rfl := hpast
  rw [hs.next_eq h hp]
  unfold afterGeneration
  by_cases hmore : g + 1 < s.config.generations
  · rw [if_pos hmore]
    simp [Past, List.range_succ]
  · have hlast : s.config.generations = g + 1 := Nat.le_antisymm (Nat.le_of_not_lt hmore) hg
    have hstages : s.config.stagesOf g
        = (List.range (s.config.sampleCountAt g + 1)).map (.grow g) := by
      unfold Config.stagesOf
      rw [if_neg hmore, List.append_nil]
    rw [if_neg hmore]
    show _ = s.config.growing
    unfold Config.growing
    rw [hlast, List.range_succ, List.flatMap_append, List.flatMap_singleton, hstages,
      List.range_succ]
    simp

/-- A step that succeeds adds the stage to the past of the stage it leads to. -/
theorem past_step (hs : s.OnTime) (hok : s.step.1.isOk = true) {past : List Stage}
    (hpast : Past s.config s.stage past) :
    Past s.config s.step.2.stage (past ++ [s.stage]) := by
  cases s.situation with
  | populate h =>
    obtain ⟨w, -, hstep⟩ := step_populate h
    rw [hstep, h]
    rw [h] at hpast
    obtain rfl := hpast
    rfl
  | grow g next p h hp =>
    rw [step_grow h hp, isOk_map] at hok
    rw [step_grow h hp, h]
    rw [h] at hpast
    obtain rfl := hpast
    dsimp only
    rw [if_pos hok]
    simp [Past, List.range_succ]
  | endGeneration g next h hp =>
    obtain ⟨w, -, hstep⟩ := step_endGeneration h hp
    rw [h] at hpast
    rw [hstep, h]
    exact past_endGeneration hs h hp hpast
  | resample g h =>
    obtain ⟨w, -, hstep⟩ := step_resample h
    rw [h] at hpast
    have hholds := hs.holds_at h
    obtain rfl := hpast
    rw [hstep, h]
    simp [Past, Config.stagesOf, hholds.1, List.range_succ]
  | select p h hp =>
    obtain ⟨w, -, hstep⟩ := step_select h hp
    rw [h] at hpast
    obtain rfl := hpast
    rw [hstep, h]
    exact ⟨0, (List.append_nil _).symm⟩
  | close p h hp =>
    rw [h] at hpast
    obtain ⟨closings, rfl⟩ := hpast
    have hmore : s.config.timetable ++ List.replicate closings .close ++ [.close]
        = s.config.timetable ++ List.replicate (closings + 1) .close := by
      rw [List.append_assoc, ← List.replicate_succ']
    rw [step_close h hp, h, hmore]
    dsimp only
    unfold afterClosing
    split
    · exact ⟨closings, 0, (List.append_nil _).symm⟩
    · exact ⟨closings + 1, rfl⟩
  | detail p h hp hopen =>
    rw [h] at hpast
    obtain ⟨closings, details, rfl⟩ := hpast
    rw [step_detail h hp hopen, h]
    exact ⟨closings, details + 1, by rw [List.append_assoc, ← List.replicate_succ']⟩
  | finish p h hp hclosed =>
    obtain ⟨w, -, hstep⟩ := step_finish h hp hclosed
    rw [h] at hpast
    obtain ⟨closings, details, rfl⟩ := hpast
    rw [hstep, h]
    exact ⟨closings, details, by rw [List.append_assoc, ← List.replicate_succ']⟩
  | idle hstep _ =>
    rw [hstep] at hok
    exact absurd hok (by simp [Except.isOk, Except.toBool])

theorem length_stages (s : Search N R ρ κ ω) (n : Nat) : (s.stages n).length = n := by
  unfold stages
  rw [List.length_map, List.length_range]

theorem stages_succ (s : Search N R ρ κ ω) (n : Nat) :
    s.stages (n + 1) = s.stages n ++ [(s.after n).stage] := by
  unfold stages
  rw [List.range_succ, List.map_append, List.map_singleton]

/-- A search that is on time at its beginning has the past of its stage after every number of
steps. -/
theorem past_after (hs : s.OnTime) (hstart : s.stage = .populate) {n : Nat}
    (hok : s.Succeeds n) : Past s.config (s.after n).stage (s.stages n) := by
  induction n with
  | zero =>
    show Past s.config s.stage []
    rw [hstart]
    rfl
  | succ n ih =>
    have hpast := ih fun m hm => hok m (Nat.lt_succ_of_lt hm)
    have hconfig := (s.sameTask_after n).config
    rw [← hconfig] at hpast ⊢
    rw [stages_succ]
    exact past_step (onTime_after hs n) (hok n (Nat.lt_succ_self n)) hpast

/-! ## What the past tells -/

omit [RandomSource ρ] [CostModel κ N R] [Watcher ω N R] in
/-- As long as generations grow, the past and the stage are in the timetable. -/
theorem growing_of_past {stage : Stage} {past : List Stage} (hholds : s.Holds stage)
    (hpast : Past s.config stage past)
    (hstage : stage = .populate ∨ (∃ g next, stage = .grow g next) ∨ ∃ g, stage = .resample g) :
    past ++ [stage] <+: s.config.growing := by
  rcases hstage with rfl | ⟨g, next, rfl⟩ | ⟨g, rfl⟩
  · obtain rfl := hpast
    exact ⟨_, rfl⟩
  · obtain rfl := hpast
    obtain ⟨hg, hbound, -⟩ := hholds
    obtain ⟨rest, hrest⟩ : ∃ rest, s.config.sampleCountAt g + 1 = next + 1 + rest :=
      Nat.exists_eq_add_of_le (Nat.succ_le_succ hbound)
    have hmore : (List.range next).map (.grow g) ++ [.grow g next] <+: s.config.stagesOf g := by
      unfold Config.stagesOf
      rw [hrest, List.range_add, List.map_append, List.range_succ, List.map_append,
        List.append_assoc (_ ++ _)]
      exact List.prefix_append _ _
    refine List.IsPrefix.trans ?_ (s.config.growing_begins hg)
    rw [List.cons_append, List.append_assoc]
    exact List.prefix_cons_inj _ |>.mpr ((List.prefix_append_right_inj _).mpr hmore)
  · obtain rfl := hpast
    obtain ⟨hg, -⟩ := hholds
    refine List.IsPrefix.trans ?_ (s.config.growing_begins (Nat.lt_of_succ_lt hg))
    unfold Config.stagesOf
    rw [if_pos hg, List.cons_append, List.append_assoc]

omit [RandomSource ρ] [CostModel κ N R] [Watcher ω N R] in
/-- A stage comes before the choice of the survivor, is that choice or comes after it. -/
theorem past_cases {stage : Stage} {past : List Stage} (hholds : s.Holds stage)
    (hpast : Past s.config stage past) :
    (stage ≠ .selectSurvivor ∧ past ++ [stage] <+: s.config.growing) ∨
      (stage = .selectSurvivor ∧ past = s.config.growing) ∨
      (stage ≠ .selectSurvivor ∧ s.config.timetable <+: past ∧
        ∃ closings details, past ++ [stage] <+: s.config.wholeRun closings details) := by
  cases stage with
  | populate => exact Or.inl ⟨by simp, growing_of_past hholds hpast (Or.inl rfl)⟩
  | grow g next =>
    exact Or.inl ⟨by simp, growing_of_past hholds hpast (Or.inr (Or.inl ⟨g, next, rfl⟩))⟩
  | resample g =>
    exact Or.inl ⟨by simp, growing_of_past hholds hpast (Or.inr (Or.inr ⟨g, rfl⟩))⟩
  | selectSurvivor => exact Or.inr (Or.inl ⟨rfl, hpast⟩)
  | close =>
    obtain ⟨closings, rfl⟩ := hpast
    refine Or.inr (Or.inr ⟨by simp, List.prefix_append _ _, closings, 0, ?_⟩)
    unfold Config.wholeRun
    rw [List.append_assoc, ← List.replicate_succ', List.append_assoc]
    exact List.prefix_append _ _
  | detail =>
    obtain ⟨closings, details, rfl⟩ := hpast
    refine Or.inr (Or.inr ⟨by simp, ?_, closings, details, ?_⟩)
    · rw [List.append_assoc]
      exact List.prefix_append _ _
    · unfold Config.wholeRun
      rw [List.append_assoc _ _ [Stage.detail], ← List.replicate_succ']
      exact List.prefix_append _ _
  | done =>
    obtain ⟨closings, details, rfl⟩ := hpast
    refine Or.inr (Or.inr ⟨by simp, ?_, closings, details, List.prefix_rfl⟩)
    rw [List.append_assoc]
    exact List.prefix_append _ _

omit [RandomSource ρ] [CostModel κ N R] [Watcher ω N R] in
/-- The past and the stage are the beginning of a whole run. -/
theorem wholeRun_of_past {stage : Stage} {past : List Stage} (hholds : s.Holds stage)
    (hpast : Past s.config stage past) :
    ∃ closings details, past ++ [stage] <+: s.config.wholeRun closings details := by
  have hwhole : s.config.timetable <+: s.config.wholeRun 0 0 := by
    unfold Config.wholeRun
    rw [List.append_assoc, List.append_assoc]
    exact List.prefix_append _ _
  rcases past_cases hholds hpast with ⟨-, hgrowing⟩ | ⟨rfl, rfl⟩ | ⟨-, -, hafter⟩
  · exact ⟨0, 0, (hgrowing.trans (List.prefix_append _ _)).trans hwhole⟩
  · exact ⟨0, 0, hwhole⟩
  · exact hafter

omit [RandomSource ρ] [CostModel κ N R] [Watcher ω N R] in
/-- The survivor is chosen after the steps its configuration gives, and at no other time. -/
theorem select_iff_of_past {stage : Stage} {past : List Stage} (hholds : s.Holds stage)
    (hpast : Past s.config stage past) :
    stage = .selectSurvivor ↔ past.length = s.config.stepsToSelect := by
  rw [← s.config.length_growing]
  rcases past_cases hholds hpast with ⟨hne, hgrowing⟩ | ⟨rfl, rfl⟩ | ⟨hne, hafter, -⟩
  · have hlength := hgrowing.length_le
    rw [List.length_append, List.length_singleton] at hlength
    exact ⟨fun h => absurd h hne, fun h => absurd hlength (by omega)⟩
  · exact ⟨fun _ => rfl, fun _ => rfl⟩
  · have hlength := hafter.length_le
    unfold Config.timetable at hlength
    rw [List.length_append, List.length_singleton] at hlength
    exact ⟨fun h => absurd h hne, fun h => absurd hlength (by omega)⟩

omit [RandomSource ρ] [CostModel κ N R] [Watcher ω N R] in
/-- A past long enough has all generations in it. -/
theorem growing_of_late {stage : Stage} {past : List Stage} (hholds : s.Holds stage)
    (hpast : Past s.config stage past) (hlate : s.config.stepsToSelect ≤ past.length) :
    s.config.growing <+: past := by
  rcases past_cases hholds hpast with ⟨-, hgrowing⟩ | ⟨-, rfl⟩ | ⟨-, hafter, -⟩
  · have hlength := hgrowing.length_le
    rw [List.length_append, List.length_singleton, s.config.length_growing] at hlength
    omega
  · exact List.prefix_rfl
  · exact (List.prefix_append _ _).trans hafter

end Search

end Espalier
