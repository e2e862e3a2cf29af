import Espalier.Proofs.Search.Timetable

/-!
# What the watcher of a search is shown

A population is shown once for each generation: the next one when it has been drawn, and the last
one when it has been grown. `Heard` relates a watcher to what it is after some populations and any
events in between; `heard_after` lists the populations of a run without failures, stage by stage,
and `flatMap_shows_wholeRun` adds them up over a whole run.
-/

namespace Espalier.Search

variable {N R ρ κ ω : Type} [Scalar R] [RandomSource ρ] [CostModel κ N R] [Watcher ω N R]
  {s : Search N R ρ κ ω}

/-- What the watcher is shown in a stage. -/
def shows (c : Config R) : Stage → List (Nat × Nat)
  | .resample g => [(g, c.sampleCountAt (g + 1))]
  | .grow g next =>
    if next = c.sampleCountAt g ∧ ¬ g + 1 < c.generations then [(g, c.sampleCountAt g)] else []
  | _ => []

/-- A watcher before and after it was shown populations, with any events in between. -/
inductive Heard (N R : Type) [Watcher ω N R] :
    ω → List (Nat × Array (Particle N R)) → ω → Prop where
  | told {w w' : ω} (events : Told N R w w') : Heard N R w [] w'
  | shown {w w' w'' : ω} {log : List (Nat × Array (Particle N R))} (g : Nat)
    (population : Array (Particle N R)) (before : Heard N R w log w')
    (events : Told N R (Watcher.generation w' g population) w'') :
    Heard N R w (log ++ [(g, population)]) w''

/-- The sizes of the populations shown. -/
def sizes (log : List (Nat × Array (Particle N R))) : List (Nat × Nat) :=
  log.map fun entry => (entry.1, entry.2.size)

omit [Scalar R] [RandomSource ρ] [CostModel κ N R] in
theorem told_trans {w w' w'' : ω} (h : Told N R w w') (h' : Told N R w' w'') :
    Told N R w w'' := by
  induction h' with
  | nothing => exact h
  | event event _ ih => exact .event event ih

omit [Scalar R] [RandomSource ρ] [CostModel κ N R] in
theorem heard_trans {w w' w'' : ω} {log log' : List (Nat × Array (Particle N R))}
    (h : Heard N R w log w') (h' : Heard N R w' log' w'') : Heard N R w (log ++ log') w'' := by
  induction h' with
  | told events =>
    rw [List.append_nil]
    cases h with
    | told before => exact .told (told_trans before events)
    | shown g population before middle =>
      exact .shown g population before (told_trans middle events)
  | shown g population _ events ih =>
    rw [← List.append_assoc]
    exact .shown g population ih events

/-- A step that succeeds shows the watcher what its stage does. -/
theorem heard_step (hs : s.OnTime) (hok : s.step.1.isOk = true) :
    ∃ log, Heard N R s.watcher log s.step.2.watcher ∧ sizes log = shows s.config s.stage := by
  cases s.situation with
  | populate h =>
    obtain ⟨w, htold, hstep⟩ := step_populate h
    rw [hstep, h]
    exact ⟨[], .told htold, rfl⟩
  | grow g next p h hp =>
    obtain ⟨-, -, hgen, -⟩ := hs.holds_at h
    obtain ⟨hlt, -⟩ := Array.getElem?_eq_some_iff.mp hp
    rw [step_grow h hp, h]
    refine ⟨[], .told (.nothing s.watcher), ?_⟩
    rw [hgen.size] at hlt
    simp [shows, sizes, Nat.ne_of_lt hlt]
  | endGeneration g next h hp =>
    obtain ⟨w, htold, hstep⟩ := step_endGeneration h hp
    obtain ⟨-, -, hgen, -⟩ := hs.holds_at h
    have hend := hs.next_eq h hp
    rw [hstep, h]
    unfold shownLast
    by_cases hmore : g + 1 < s.config.generations
    · rw [if_pos hmore]
      exact ⟨[], .told htold, by simp [shows, sizes, hmore]⟩
    · rw [if_neg hmore]
      refine ⟨[(g, s.population)], .shown g s.population (.told htold) (.nothing _), ?_⟩
      simp [shows, sizes, hend, hmore, hgen.size]
  | resample g h =>
    obtain ⟨w, htold, hstep⟩ := step_resample h
    obtain ⟨-, hgen, -, hnext⟩ := hs.holds_at h
    obtain ⟨hdrawn, -⟩ := isGeneration_drawn hgen hnext
    rw [hstep, h]
    refine ⟨[(g, s.drawn g)], .shown g (s.drawn g) (.told htold) (.nothing _), ?_⟩
    simp [shows, sizes, hdrawn.size]
  | select p h hp =>
    obtain ⟨w, htold, hstep⟩ := step_select h hp
    rw [hstep, h]
    exact ⟨[], .told htold, rfl⟩
  | close p h hp =>
    rw [step_close h hp, h]
    exact ⟨[], .told (.nothing s.watcher), rfl⟩
  | detail p h hp hopen =>
    rw [step_detail h hp hopen, h]
    exact ⟨[], .told (.nothing s.watcher), rfl⟩
  | finish p h hp hclosed =>
    obtain ⟨w, htold, hstep⟩ := step_finish h hp hclosed
    rw [hstep, h]
    exact ⟨[], .told htold, rfl⟩
  | idle hstep _ =>
    rw [hstep] at hok
    exact absurd hok (by simp [Except.isOk, Except.toBool])

/-- A search without failures shows the watcher what the stages it has been through do. -/
theorem heard_after (hs : s.OnTime) {n : Nat} (hok : s.Succeeds n) :
    ∃ log, Heard N R s.watcher log (s.after n).watcher ∧
      sizes log = (s.stages n).flatMap (shows s.config) := by
  induction n with
  | zero => exact ⟨[], .told (.nothing s.watcher), rfl⟩
  | succ n ih =>
    obtain ⟨log, hlog, hsizes⟩ := ih fun m hm => hok m (Nat.lt_succ_of_lt hm)
    obtain ⟨new, hnew, hshown⟩ := heard_step (onTime_after hs n) (hok n (Nat.lt_succ_self n))
    refine ⟨log ++ new, heard_trans hlog hnew, ?_⟩
    unfold sizes at hsizes hshown ⊢
    rw [List.map_append, hsizes, hshown, stages_succ, List.flatMap_append, List.flatMap_singleton,
      (s.sameTask_after n).config]

omit [RandomSource ρ] [CostModel κ N R] [Watcher ω N R] in
/-- A generation shows one population. -/
theorem flatMap_shows_stagesOf (c : Config R) (g : Nat) : (c.stagesOf g).flatMap (shows c)
    = [(g, if g + 1 < c.generations then c.sampleCountAt (g + 1) else c.sampleCountAt g)] := by
  have hnone : ((List.range (c.sampleCountAt g)).map (Stage.grow g)).flatMap (shows c) = [] := by
    rw [List.flatMap_eq_nil_iff]
    intro stage hstage
    obtain ⟨next, hnext, rfl⟩ := List.mem_map.mp hstage
    simp [shows, Nat.ne_of_lt (List.mem_range.mp hnext)]
  unfold Config.stagesOf
  rw [List.range_succ, List.map_append, List.flatMap_append, List.flatMap_append, hnone]
  by_cases hmore : g + 1 < c.generations
  · simp [shows, hmore]
  · simp [shows, hmore]

theorem flatMap_shows_growing (c : Config R) : c.growing.flatMap (shows c) = c.showings := by
  unfold Config.growing Config.showings
  rw [List.flatMap_cons, List.flatMap_assoc, List.map_eq_flatMap]
  exact congrArg ((List.range c.generations).flatMap ·) (funext fun g => flatMap_shows_stagesOf c g)

/-- After the choice of the survivor nothing is shown. -/
theorem flatMap_shows_wholeRun (c : Config R) (closings details : Nat) :
    (c.wholeRun closings details).flatMap (shows c) = c.showings := by
  unfold Config.wholeRun Config.timetable
  rw [List.flatMap_append, List.flatMap_append, List.flatMap_append, List.flatMap_append,
    flatMap_shows_growing]
  simp [shows, List.flatMap_replicate]

end Espalier.Search
