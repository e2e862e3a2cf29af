import Espalier.Proofs.Search.Run

/-!
# Who looks on makes no difference

A search with one watcher and the same search with another go through the same steps with the same
results (`after_withWatcher`): a watcher is told things and shown things, and nothing is asked of
it but what it wants to be told.
-/

namespace Espalier.Search

variable {N R ρ κ ω ω' : Type} [Scalar R] [RandomSource ρ] [CostModel κ N R] [Watcher ω N R]
  [Watcher ω' N R]

/-- The search with another watcher. -/
def withWatcher (s : Search N R ρ κ ω) (w : ω') : Search N R ρ κ ω' := { s with watcher := w }

omit [RandomSource ρ] [CostModel κ N R] [Watcher ω N R] [Watcher ω' N R] in
/-- Whether there is a search is no matter of its watcher. -/
theorem new_withWatcher (grammar : Grammar N R) (root : N) (start : String) (config : Config R)
    (patience : Nat) (model : κ) (source : ρ) (w : ω) (w' : ω') :
    Search.new grammar root start config patience model source w'
      = (Search.new grammar root start config patience model source w).map (·.withWatcher w') := by
  unfold new
  cases config.validate with
  | error fault => rfl
  | ok =>
    dsimp only
    split <;> rfl

/-- A step does to a search what it does to the one with another watcher. -/
theorem step_withWatcher (s : Search N R ρ κ ω) (w : ω') :
    ∃ w' : ω', (s.withWatcher w).step = (s.step.1, s.step.2.withWatcher w') := by
  -- Each lemma on a step names all that the step changes, and leaves open the watcher alone.
  have hsame {result : Except (Failure R) (Step (Outcome N R))} {t : Search N R ρ κ ω} {w' : ω'}
      (hstep : s.step = (result, t))
      (hstep' : (s.withWatcher w).step = (result, t.withWatcher w')) :
      ∃ w' : ω', (s.withWatcher w).step = (s.step.1, s.step.2.withWatcher w') :=
    ⟨w', by rw [hstep, hstep']⟩
  cases h : s.stage with
  | populate =>
    obtain ⟨_, -, hstep⟩ := step_populate h
    obtain ⟨_, -, hstep'⟩ := step_populate (s := s.withWatcher w) h
    exact hsame hstep hstep'
  | grow g next =>
    cases hp : s.population[next]? with
    | some p => exact hsame (step_grow h hp) (step_grow (s := s.withWatcher w) h hp)
    | none =>
      obtain ⟨_, -, hstep⟩ := step_endGeneration h hp
      obtain ⟨_, -, hstep'⟩ := step_endGeneration (s := s.withWatcher w) h hp
      exact hsame hstep hstep'
  | resample g =>
    obtain ⟨_, -, hstep⟩ := step_resample h
    obtain ⟨_, -, hstep'⟩ := step_resample (s := s.withWatcher w) h
    exact hsame hstep hstep'
  | selectSurvivor =>
    cases hp : s.fittest? with
    | none => exact hsame (step_select_none h hp) (step_select_none (s := s.withWatcher w) h hp)
    | some p =>
      obtain ⟨_, -, hstep⟩ := step_select h hp
      obtain ⟨_, -, hstep'⟩ := step_select (s := s.withWatcher w) h hp
      exact hsame hstep hstep'
  | close =>
    cases hp : s.survivor with
    | none => exact hsame (step_close_none h hp) (step_close_none (s := s.withWatcher w) h hp)
    | some p => exact hsame (step_close h hp) (step_close (s := s.withWatcher w) h hp)
  | detail =>
    cases hp : s.survivor with
    | none => exact hsame (step_detail_none h hp) (step_detail_none (s := s.withWatcher w) h hp)
    | some p =>
      cases hopen : p.details.isEmpty with
      | false =>
        exact hsame (step_detail h hp hopen) (step_detail (s := s.withWatcher w) h hp hopen)
      | true =>
        obtain ⟨_, -, hstep⟩ := step_finish h hp hopen
        obtain ⟨_, -, hstep'⟩ := step_finish (s := s.withWatcher w) h hp hopen
        exact hsame hstep hstep'
  | done => exact hsame (step_done h) (step_done (s := s.withWatcher w) h)

/-- After any number of steps the two searches differ in their watchers alone. -/
theorem after_withWatcher (s : Search N R ρ κ ω) (w : ω') (n : Nat) :
    ∃ w' : ω', (s.withWatcher w).after n = (s.after n).withWatcher w' := by
  induction n with
  | zero => exact ⟨w, rfl⟩
  | succ n ih =>
    obtain ⟨v, hv⟩ := ih
    obtain ⟨w', hstep⟩ := (s.after n).step_withWatcher v
    refine ⟨w', ?_⟩
    show ((s.withWatcher w).after n).step.2 = (s.after n).step.2.withWatcher w'
    rw [hv, hstep]

end Espalier.Search
