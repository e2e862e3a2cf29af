import Espalier.Proofs.Search.Onlookers
import Espalier.Proofs.Search.Readings
import Espalier.Proofs.Search.Showings

/-!
# What a step reports

`reports` lists the events that the next step offers its watcher, in order, and `watcher_step` says
that the step changes the watcher by these and by the population it may show, and by nothing else.
Of a resampling `DrawsBy` says both what it returns and what it reports.

`Traced` is a watcher that keeps a list of all that is sent to another one. It does not get in the
way: the search it watches is the search that the other one would watch (`untraced_after`). Of a
watcher that wants everything (`Eager`) it keeps what the steps report (`events_step`).
-/

namespace Espalier.Search

variable {N R ρ κ ω : Type} [Scalar R] [RandomSource ρ] [CostModel κ N R] [Watcher ω N R]

/-! ## Reports -/

/-- What is reported of a population that has been drawn. -/
def resampling (s : Search N R ρ κ ω) (g : Nat) : Event R :=
  .resampled g s.population.size (s.drawn g).size
    (distinctCount s.population.size (s.draws g).1) (s.lottery g).effectiveSize
    (s.lottery g).uniform

/-- The events that the next step offers the watcher. -/
def reports (s : Search N R ρ κ ω) : List (Event R) :=
  match s.stage with
  | .populate => [.runStarted s.start s.config.generations (s.config.sampleCountAt 0)]
  | .grow g next => if s.population[next]?.isSome then [] else [s.grown g]
  | .resample g =>
    (if (s.lottery g).uniform then [degenerate g (s.lottery g).givenSum] else [])
      ++ [s.resampling g]
  | .selectSurvivor =>
    s.fittest?.toList.map fun p => .survivorSelected p.id p.cost p.growth.size
  | .detail =>
    s.survivor.toList.flatMap fun p => if p.details.isEmpty then
      [.finalized s.closings s.detailGrowths, .runFinished p.growth.size p.cost] else []
  | .close | .done => []

/-- The watcher after an event it is offered: it takes what it wants. -/
def offer (N : Type) [Watcher ω N R] (w : ω) (event : Event R) : ω :=
  if Watcher.wants N R w event.kind then Watcher.send N w event else w

/-- The watcher after the population that the next step may show. -/
def showing (s : Search N R ρ κ ω) (w : ω) : ω :=
  match s.stage with
  | .grow g next => if s.population[next]?.isSome then w else s.shownLast w g
  | .resample g => Watcher.generation w g (s.drawn g)
  | _ => w

omit [CostModel κ N R] in
/-- A watcher is shown a population or it is not. -/
theorem showing_cases (s : Search N R ρ κ ω) (w : ω) :
    s.showing w = w ∨ ∃ (g : Nat) (population : Array (Particle N R)),
      s.showing w = Watcher.generation w g population := by
  unfold showing shownLast
  cases s.stage with
  | grow g next =>
    dsimp only
    split
    · exact .inl rfl
    · split
      · exact .inl rfl
      · exact .inr ⟨g, s.population, rfl⟩
  | resample g => exact .inr ⟨g, s.drawn g, rfl⟩
  | populate | selectSurvivor | close | detail | done => exact .inl rfl

omit [RandomSource ρ] [CostModel κ N R] [Scalar R] in
theorem emit_eq_offer (s : Search N R ρ κ ω) (event : Event R) :
    s.emit event = { s with watcher := offer N s.watcher event } :=
  emit_eq s event

omit [RandomSource ρ] [CostModel κ N R] in
theorem watcher_finishGeneration (s : Search N R ρ κ ω) (g : Nat) :
    (s.finishGeneration g).watcher = s.shownLast (offer N s.watcher (s.grown g)) g := by
  unfold finishGeneration shownLast
  simp only [emit_eq_offer]
  split <;> rfl

omit [CostModel κ N R] in
theorem watcher_resample (s : Search N R ρ κ ω) (g : Nat) :
    (s.resample g).watcher = Watcher.generation
      (((if (s.lottery g).uniform then [degenerate g (s.lottery g).givenSum] else [])
        ++ [s.resampling g]).foldl (offer N) s.watcher) g (s.drawn g) := by
  unfold resample resampling drawn
  simp only [emit_eq_offer]
  by_cases huniform : (s.lottery g).uniform
  · simp only [if_pos huniform]
    rfl
  · simp only [if_neg huniform]
    rfl

omit [CostModel κ N R] in
theorem population_resample (s : Search N R ρ κ ω) (g : Nat) :
    (s.resample g).population = s.drawn g := by
  unfold resample drawn
  simp only [emit_eq_offer]
  split <;> rfl

/-- A resampling draws the parents of its copies by a lottery, and the watcher is told which one. -/
structure DrawsBy (s : Search N R ρ κ ω) (g : Nat) (l : Lottery R) : Prop where
  population : (s.resample g).population = forkDrawn s.nextId
    (drawParents l (s.config.sampleCountAt (g + 1)) s.source).1 s.population #[]
  watcher : (s.resample g).watcher = Watcher.generation
    (((if l.uniform then [degenerate g l.givenSum] else [])
      ++ [Event.resampled g s.population.size (s.resample g).population.size
          (distinctCount s.population.size
            (drawParents l (s.config.sampleCountAt (g + 1)) s.source).1)
          l.effectiveSize l.uniform]).foldl (offer N) s.watcher)
    g (s.resample g).population

omit [CostModel κ N R] in
theorem drawsBy_lottery (s : Search N R ρ κ ω) (g : Nat) : s.DrawsBy g (s.lottery g) := by
  have hpopulation := population_resample s g
  constructor
  case population => exact hpopulation
  case watcher =>
    rw [hpopulation]
    exact watcher_resample s g

omit [RandomSource ρ] [CostModel κ N R] in
theorem watcher_selectSurvivor (s : Search N R ρ κ ω) :
    s.selectSurvivor.2.watcher = (s.fittest?.toList.map fun p =>
      Event.survivorSelected p.id p.cost p.growth.size).foldl (offer N) s.watcher := by
  cases hp : s.fittest? with
  | none =>
    unfold selectSurvivor
    rw [hp]
    rfl
  | some p =>
    unfold selectSurvivor
    rw [hp]
    simp only [emit_eq_offer]
    rfl

theorem watcher_growDetail (s : Search N R ρ κ ω) :
    s.growDetail.2.watcher = (s.survivor.toList.flatMap fun p => if p.details.isEmpty then
      [Event.finalized s.closings s.detailGrowths, .runFinished p.growth.size p.cost]
        else []).foldl (offer N) s.watcher := by
  unfold growDetail
  cases s.survivor with
  | none => rfl
  | some p =>
    rw [Option.toList_some, List.flatMap_singleton]
    dsimp only
    by_cases hopen : p.details.isEmpty = true
    · rw [if_pos hopen, if_pos hopen]
      unfold finish
      simp only [emit_eq_offer]
      rfl
    · rw [if_neg hopen, if_neg hopen]
      split <;> rfl

/-- All that a step does to the watcher. -/
theorem watcher_step (s : Search N R ρ κ ω) :
    s.step.2.watcher = s.showing (s.reports.foldl (offer N) s.watcher) := by
  unfold step reports showing
  cases s.stage with
  | populate =>
    dsimp only
    unfold populate
    simp only [emit_eq_offer]
    rfl
  | grow g next =>
    dsimp only
    unfold growNext
    cases s.population[next]? with
    | some p =>
      dsimp only
      split <;> rfl
    | none => exact watcher_finishGeneration s g
  | resample g => exact watcher_resample s g
  | selectSurvivor => exact watcher_selectSurvivor s
  | close =>
    dsimp only
    unfold closeNext
    split
    · rfl
    · dsimp only
      split <;> rfl
  | detail => exact watcher_growDetail s
  | done => rfl

/-! ## Images of watchers -/

section Images

variable {ω' : Type} [Watcher ω' N R]

/-- What `f` takes of a watcher is a watcher that goes along with it: it wants what the other one
wants and becomes what is taken of the other one. -/
structure Mirrors (N R : Type) {ω ω' : Type} [Watcher ω N R] [Watcher ω' N R] (f : ω → ω') :
    Prop where
  wants : ∀ w kind, Watcher.wants N R (f w) kind = Watcher.wants N R w kind
  send : ∀ (w : ω) (event : Event R), f (Watcher.send N w event) = Watcher.send N (f w) event
  generation : ∀ (w : ω) (g : Nat) (population : Array (Particle N R)),
    f (Watcher.generation w g population) = Watcher.generation (f w) g population

variable {f : ω → ω'}

omit [Scalar R] in
theorem Mirrors.offers (hf : Mirrors N R f) (events : List (Event R)) (w : ω) :
    f (events.foldl (offer N) w) = events.foldl (offer N) (f w) := by
  induction events generalizing w with
  | nil => rfl
  | cons event events ih =>
    have hoffer : f (offer N w event) = offer N (f w) event := by
      unfold offer
      rw [hf.wants]
      split
      · exact hf.send w event
      · rfl
    rw [List.foldl_cons, List.foldl_cons, ih, hoffer]

omit [CostModel κ N R] in
theorem Mirrors.showing (hf : Mirrors N R f) (s : Search N R ρ κ ω) (w : ω) (w' : ω') :
    f (s.showing w) = (s.withWatcher w').showing (f w) := by
  have hstage : (s.withWatcher w').stage = s.stage := rfl
  unfold Search.showing
  rw [hstage]
  cases s.stage with
  | grow g next =>
    have hpopulation : (s.withWatcher w').population = s.population := rfl
    have hconfig : (s.withWatcher w').config = s.config := rfl
    unfold shownLast
    dsimp only
    rw [hpopulation, hconfig]
    split
    · rfl
    · split
      · rfl
      · exact hf.generation w g s.population
  | resample g => exact hf.generation w g (s.drawn g)
  | populate | selectSurvivor | close | detail | done => rfl

/-- An image of the watcher sees of a step what the watcher does. -/
theorem step_image (hf : Mirrors N R f) (s : Search N R ρ κ ω) :
    (s.withWatcher (f s.watcher)).step = (s.step.1, s.step.2.withWatcher (f s.step.2.watcher)) := by
  obtain ⟨w, hstep⟩ := s.step_withWatcher (f s.watcher)
  have hreports : (s.withWatcher (f s.watcher)).reports = s.reports := rfl
  have hwatcher : w = f s.step.2.watcher := by
    have hw : (s.withWatcher (f s.watcher)).step.2.watcher = w := by rw [hstep]; rfl
    rw [watcher_step, hreports] at hw
    rw [watcher_step, hf.showing s _ (f s.watcher), hf.offers]
    exact hw.symm
  rw [hstep, hwatcher]

/-- An image of the watcher sees of a run what the watcher does. -/
theorem after_image (s : Search N R ρ κ ω) (hf : Mirrors N R f) (n : Nat) :
    (s.withWatcher (f s.watcher)).after n = (s.after n).withWatcher (f (s.after n).watcher) := by
  induction n with
  | zero => rfl
  | succ n ih =>
    show ((s.withWatcher (f s.watcher)).after n).step.2
      = (s.after n).step.2.withWatcher (f (s.after n).step.2.watcher)
    rw [ih, step_image hf]

end Images

/-! ## Watchers that keep what they are sent -/

/-- A watcher together with the events that were sent to it, in order. -/
structure Traced (ω R : Type) where
  inner : ω
  events : List (Event R)

instance : Watcher (Traced ω R) N R where
  wants t kind := Watcher.wants N R t.inner kind
  send t event := { inner := Watcher.send N t.inner event, events := t.events ++ [event] }
  generation t g population := { t with inner := Watcher.generation t.inner g population }

omit [Scalar R] in
theorem mirrors_inner : Mirrors N R (Traced.inner : Traced ω R → ω) where
  wants _ _ := rfl
  send _ _ := rfl
  generation _ _ _ := rfl

/-- A watcher wants everything, whatever it is sent and shown. -/
def Eager (N R : Type) [Watcher ω N R] (w : ω) : Prop :=
  ∀ log w', Heard N R w log w' → ∀ kind, Watcher.wants N R w' kind = true

omit [Scalar R] [RandomSource ρ] [CostModel κ N R] in
theorem Eager.wants {w : ω} (h : Eager N R w) (kind : EventKind) :
    Watcher.wants N R w kind = true :=
  h [] w (.told (.nothing w)) kind

omit [Scalar R] [RandomSource ρ] [CostModel κ N R] in
theorem Eager.send {w : ω} (h : Eager N R w) (event : Event R) :
    Eager N R (Watcher.send N w event) :=
  fun log w' hheard => h log w' (heard_trans (.told (.event event (.nothing w))) hheard)

omit [Scalar R] [RandomSource ρ] [CostModel κ N R] in
theorem Eager.generation {w : ω} (h : Eager N R w) (g : Nat) (population : Array (Particle N R)) :
    Eager N R (Watcher.generation w g population) :=
  fun log w' hheard => h ([(g, population)] ++ log) w'
    (heard_trans (.shown g population (.told (.nothing w)) (.nothing _)) hheard)

omit [Scalar R] [RandomSource ρ] [CostModel κ N R] in
/-- A collector is eager, and stays one. -/
theorem eager_collect (events : Array (Event R)) : Eager N R (Sink.collect events) := by
  have htold {w w' : Sink R} (h : Told N R w w') (hw : ∃ events, w = .collect events) :
      ∃ events, w' = .collect events := by
    induction h with
    | nothing => exact hw
    | event event _ ih =>
      obtain ⟨before, rfl⟩ := ih
      exact ⟨before.push event, rfl⟩
  have hheard {w w' : Sink R} {log : List (Nat × Array (Particle N R))}
      (h : Heard N R w log w') (hw : ∃ events, w = .collect events) :
      ∃ events, w' = .collect events := by
    induction h with
    | told events => exact htold events hw
    | shown g population _ events ih => exact htold events ih
  -- What a collector has heard makes a collector of it, and that wants every kind.
  intro log w' h kind
  obtain ⟨events', rfl⟩ := hheard h ⟨events, rfl⟩
  rfl

omit [Scalar R] in
/-- An eager watcher takes all that it is offered. -/
theorem events_offer (events : List (Event R)) {t : Traced ω R} (h : Eager N R t.inner) :
    (events.foldl (offer N) t).events = t.events ++ events ∧
      Eager N R (events.foldl (offer N) t).inner := by
  induction events generalizing t with
  | nil => exact ⟨(List.append_nil _).symm, h⟩
  | cons event events ih =>
    have hoffer : offer N t event
        = { inner := Watcher.send N t.inner event, events := t.events ++ [event] } :=
      if_pos (h.wants event.kind)
    obtain ⟨hevents, heager⟩ := ih (t := offer N t event) (hoffer ▸ h.send event)
    refine ⟨?_, heager⟩
    rw [List.foldl_cons, hevents, hoffer, List.append_assoc]
    rfl

section Traced

variable {s : Search N R ρ κ (Traced ω R)}

omit [CostModel κ N R] in
/-- Populations that are shown are not events. -/
theorem events_showing (s : Search N R ρ κ (Traced ω R)) {t : Traced ω R}
    (h : Eager N R t.inner) :
    (s.showing t).events = t.events ∧ Eager N R (s.showing t).inner := by
  rcases s.showing_cases t with hsame | ⟨g, population, hshown⟩
  · rw [hsame]
    exact ⟨rfl, h⟩
  · rw [hshown]
    exact ⟨rfl, h.generation g population⟩

/-- An eager watcher is sent what the steps report. -/
theorem events_step (h : Eager N R s.watcher.inner) :
    s.step.2.watcher.events = s.watcher.events ++ s.reports ∧
      Eager N R s.step.2.watcher.inner := by
  obtain ⟨hevents, heager⟩ := events_offer s.reports h
  rw [watcher_step]
  obtain ⟨hsame, heager'⟩ := s.events_showing heager
  exact ⟨hsame.trans hevents, heager'⟩

theorem eager_after (h : Eager N R s.watcher.inner) (n : Nat) :
    Eager N R (s.after n).watcher.inner := by
  induction n with
  | zero => exact h
  | succ n ih => exact (events_step ih).2

/-- The search that the other watcher watches. -/
def untraced (s : Search N R ρ κ (Traced ω R)) : Search N R ρ κ ω :=
  { s with watcher := s.watcher.inner }

/-- A search is the same whether or not it is traced. -/
theorem untraced_after (s : Search N R ρ κ (Traced ω R)) (n : Nat) :
    (s.after n).untraced = s.untraced.after n :=
  (s.after_image mirrors_inner n).symm

end Traced

end Espalier.Search
