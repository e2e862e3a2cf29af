import Espalier.Proofs.Search.CacheKeys
import Espalier.Proofs.Search.Reports
import Espalier.Proofs.Sinks

/-!
# What gets through a filter

`trace` is all that the first steps report, whoever listens. A sink is sent what it wants of it, in
order (`sink_after`), so a filter of sinks passes on what is of its kinds and wanted behind it.

`Filtered` puts a filter before a watcher of any type, whose wishes may change as it goes along.
There every event is judged when its turn comes (`events_filtered`).

`observers_only_observe` puts both beside the fact that no watcher has a say in the search.
-/

namespace Espalier.Search

variable {N R ρ κ ω : Type} [Scalar R] [RandomSource ρ] [CostModel κ N R] [Watcher ω N R]

/-- All that the first steps report. -/
def trace (s : Search N R ρ κ ω) (n : Nat) : List (Event R) :=
  (List.range n).flatMap fun m => (s.after m).reports

theorem trace_succ (s : Search N R ρ κ ω) (n : Nat) :
    s.trace (n + 1) = s.trace n ++ (s.after n).reports := by
  unfold trace
  rw [List.range_succ, List.flatMap_append, List.flatMap_singleton]

/-- What a search reports does not depend on who listens. -/
theorem reports_withWatcher {ω' : Type} [Watcher ω' N R] (s : Search N R ρ κ ω) (w : ω') (m : Nat) :
    ((s.withWatcher w).after m).reports = (s.after m).reports := by
  obtain ⟨w', hafter⟩ := s.after_withWatcher w m
  rw [hafter]
  rfl

theorem trace_withWatcher {ω' : Type} [Watcher ω' N R] (s : Search N R ρ κ ω) (w : ω') (n : Nat) :
    (s.withWatcher w).trace n = s.trace n :=
  List.flatMap_congr fun m _ => s.reports_withWatcher w m

/-! ## Sinks -/

section Sinks

omit [Scalar R] in
/-- Of what a sink is offered it takes what it wants. -/
theorem offers_sink (events : List (Event R)) (sink : Sink R) :
    events.foldl (offer N) sink
      = sink.sendMany (events.filter fun event => sink.wants event.kind) := by
  induction events generalizing sink with
  | nil => rfl
  | cons event events ih =>
    have hoffer : offer N sink event
        = if sink.wants event.kind then sink.send event else sink := rfl
    rw [List.foldl_cons, ih, hoffer, List.filter_cons]
    split
    · simp only [Sink.wants_send]
      rfl
    · rfl

/-- A sink is sent what it wants of the trace. -/
theorem sink_after (s : Search N R ρ κ (Sink R)) (n : Nat) : (s.after n).watcher
    = s.watcher.sendMany ((s.trace n).filter fun event => s.watcher.wants event.kind) := by
  induction n with
  | zero => rfl
  | succ n ih =>
    have hshowing (sink : Sink R) : (s.after n).showing sink = sink := by
      rcases (s.after n).showing_cases sink with h | ⟨g, population, h⟩
      · exact h
      · exact h
    show (s.after n).step.2.watcher = _
    rw [watcher_step, hshowing, offers_sink, ih, trace_succ, List.filter_append]
    simp only [Sink.wants_sendMany]
    exact List.foldl_append.symm

omit [Scalar R] in
theorem mirrors_sink : Mirrors N R (Observer.sink : Observer N R → Sink R) where
  wants _ _ := rfl
  send _ _ := rfl
  generation _ _ _ := rfl

end Sinks

/-! ## Filters before any watcher -/

section Filtered

/-- A filter by kinds before a watcher. -/
structure Filtered (ω : Type) where
  kinds : List EventKind
  inner : ω

instance : Watcher (Filtered ω) N R where
  wants f kind := f.kinds.contains kind && Watcher.wants N R f.inner kind
  send f event :=
    if f.kinds.contains event.kind && Watcher.wants N R f.inner event.kind then
      { f with inner := Watcher.send N f.inner event }
    else f
  generation f g population := { f with inner := Watcher.generation f.inner g population }

/-- Those of the events offered to a watcher that it wants when their turn comes. -/
def taken (N : Type) [Watcher ω N R] (w : ω) : List (Event R) → List (Event R)
  | [] => []
  | event :: events =>
    (if Watcher.wants N R w event.kind then [event] else []) ++ taken N (offer N w event) events

omit [Scalar R] in
theorem events_offers (events : List (Event R)) (t : Traced ω R) :
    (events.foldl (offer N) t).events = t.events ++ taken N t.inner events := by
  induction events generalizing t with
  | nil => exact (List.append_nil _).symm
  | cons event events ih =>
    have hinner : (offer N t event).inner = offer N t.inner event :=
      mirrors_inner.offers [event] t
    have hevents : (offer N t event).events
        = t.events ++ if Watcher.wants N R t.inner event.kind then [event] else [] := by
      show (if Watcher.wants N R t.inner event.kind then _ else t).events = _
      split
      · rfl
      · exact (List.append_nil _).symm
    rw [List.foldl_cons, ih, hinner, hevents, List.append_assoc]
    rfl

omit [Scalar R] in
/-- Behind a filter, an event of other kinds is not offered at all. -/
theorem offer_filtered (f : Filtered ω) (event : Event R) :
    offer N f event = { f with
      inner := if f.kinds.contains event.kind then offer N f.inner event else f.inner } := by
  have hwants : Watcher.wants N R f event.kind
      = (f.kinds.contains event.kind && Watcher.wants N R f.inner event.kind) := rfl
  have hsend : Watcher.send N f event
      = if f.kinds.contains event.kind && Watcher.wants N R f.inner event.kind then
        { f with inner := Watcher.send N f.inner event } else f := rfl
  unfold offer
  rw [hwants, hsend]
  by_cases hkind : f.kinds.contains event.kind = true
  · by_cases hinner : Watcher.wants N R f.inner event.kind = true
    · simp only [hkind, hinner, Bool.and_self, if_true]
    · simp only [hkind, hinner, Bool.and_false, if_true, if_false, Bool.false_eq_true]
  · simp only [hkind, Bool.false_and, if_false, Bool.false_eq_true]

omit [Scalar R] in
theorem offers_filtered (events : List (Event R)) (f : Filtered ω) :
    events.foldl (offer N) f = { f with
      inner := (events.filter fun event => f.kinds.contains event.kind).foldl (offer N)
        f.inner } := by
  induction events generalizing f with
  | nil => rfl
  | cons event events ih =>
    rw [List.foldl_cons, ih, offer_filtered, List.filter_cons]
    split <;> rfl

/-- In a step the watcher behind a filter takes what is of the filter's kinds and wanted. -/
theorem events_filtered_step (s : Search N R ρ κ (Filtered (Traced ω R))) :
    s.step.2.watcher.kinds = s.watcher.kinds ∧ s.step.2.watcher.inner.events
      = s.watcher.inner.events ++ taken N s.watcher.inner.inner
        (s.reports.filter fun event => s.watcher.kinds.contains event.kind) := by
  have hshowing (f : Filtered (Traced ω R)) : (s.showing f).kinds = f.kinds ∧
      (s.showing f).inner.events = f.inner.events := by
    rcases s.showing_cases f with h | ⟨g, population, h⟩
    · rw [h]
      exact ⟨rfl, rfl⟩
    · rw [h]
      exact ⟨rfl, rfl⟩
  obtain ⟨hkinds, hevents⟩ := hshowing (s.reports.foldl (offer N) s.watcher)
  rw [watcher_step, hkinds, hevents, offers_filtered]
  exact ⟨rfl, events_offers _ _⟩

/-- The watcher behind a filter takes of every step what is of the filter's kinds and wanted. -/
theorem events_filtered (s : Search N R ρ κ (Filtered (Traced ω R))) (n : Nat) :
    (s.after n).watcher.kinds = s.watcher.kinds ∧ (s.after n).watcher.inner.events
      = s.watcher.inner.events ++ (List.range n).flatMap fun m =>
        taken N (s.after m).watcher.inner.inner
          ((s.after m).reports.filter fun event => s.watcher.kinds.contains event.kind) := by
  induction n with
  | zero => exact ⟨rfl, (List.append_nil _).symm⟩
  | succ n ih =>
    obtain ⟨hkinds, hevents⟩ := ih
    obtain ⟨hkinds', hevents'⟩ := (s.after n).events_filtered_step
    refine ⟨hkinds'.trans hkinds, ?_⟩
    show (s.after n).step.2.watcher.inner.events = _
    rw [hevents', hevents, hkinds, List.range_succ, List.flatMap_append, List.flatMap_singleton,
      List.append_assoc]

end Filtered

/-! ## Observers -/

/-- How the first steps of a search go whoever watches it, and what its watchers get of them. -/
structure Unmoved (s : Search N R ρ κ ω) (n : Nat) : Prop where
  /-- With any other watcher the search differs in its watcher alone. -/
  states : ∀ {ω' : Type} [Watcher ω' N R] (w : ω'),
    ∃ w' : ω', (s.withWatcher w).after n = (s.after n).withWatcher w'
  /-- The next step has the same result: it fails alike, goes on alike, or ends with the same. -/
  results : ∀ {ω' : Type} [Watcher ω' N R] (w : ω'),
    ((s.withWatcher w).after n).step.1 = (s.after n).step.1
  /-- The cost model has been asked the same. -/
  calls : ∀ {ω' : Type} [Watcher ω' N R] (w : ω'), (s.withWatcher w).calls n = s.calls n
  /-- A collector has the whole trace. -/
  collected : ((s.withWatcher (Sink.collect #[])).after n).watcher = .collect (s.trace n).toArray
  /-- Through a filter a sink has been sent what is of the filter's kinds and wanted by the sink,
  whether or not the populations are logged beside it. -/
  passed : ∀ (kinds : List EventKind) (inner : Sink R)
    (log : Option (Array (Nat × Array (Particle N R)))),
    ((s.withWatcher ({ sink := .filter kinds inner, log } : Observer N R)).after n).watcher.sink
      = .filter kinds (inner.sendMany ((s.trace n).filter fun event =>
          kinds.contains event.kind && inner.wants event.kind))
  /-- And so has any watcher, where what it wants may differ from one event to the next. -/
  filtered : ∀ {ω' : Type} [Watcher ω' N R] (kinds : List EventKind) (inner : ω'),
    let filtered := s.withWatcher
      ({ kinds, inner := { inner, events := [] } } : Filtered (Traced ω' R))
    (filtered.after n).watcher.inner.events = (List.range n).flatMap fun m =>
      taken N (filtered.after m).watcher.inner.inner
        ((s.after m).reports.filter fun event => kinds.contains event.kind)

theorem unmoved (s : Search N R ρ κ ω) (n : Nat) : s.Unmoved n := by
  constructor
  case states => exact fun w => s.after_withWatcher w n
  case results =>
    intro ω' _ w
    obtain ⟨w', hafter⟩ := s.after_withWatcher w n
    obtain ⟨w'', hstep⟩ := (s.after n).step_withWatcher w'
    rw [hafter, hstep]
  case calls =>
    intro ω' _ w
    refine List.flatMap_congr fun m _ => ?_
    obtain ⟨w', hafter⟩ := s.after_withWatcher w m
    rw [hafter]
    rfl
  case collected =>
    have hall : (s.trace n).filter (fun event => (Sink.collect #[] : Sink R).wants event.kind)
        = s.trace n := List.filter_eq_self.mpr fun _ _ => rfl
    rw [sink_after, trace_withWatcher]
    show (Sink.collect #[]).sendMany ((s.trace n).filter fun event =>
      (Sink.collect #[] : Sink R).wants event.kind) = _
    rw [hall, Sink.sendMany_collect, Array.empty_append]
  case passed =>
    intro kinds inner log
    have himage := (s.withWatcher ({ sink := .filter kinds inner, log } : Observer N R)).after_image
      mirrors_sink n
    have hsink := congrArg Search.watcher himage
    rw [sink_after] at hsink
    refine hsink.symm.trans ?_
    show (Sink.filter kinds inner).sendMany
      (((s.withWatcher (Sink.filter kinds inner)).trace n).filter _) = _
    rw [trace_withWatcher]
    exact Sink.sendMany_filter fun event hevent => (List.mem_filter.mp hevent).2
  case filtered =>
    intro ω' _ kinds inner filtered
    have hevents := (filtered.events_filtered n).2
    rw [hevents]
    exact List.flatMap_congr fun m _ => congrArg _ (congrArg _ (s.reports_withWatcher _ m))

/-- Watchers have no influence on a search, and a filter passes on its part of what all watchers
are offered. -/
theorem observers_only_observe {grammar : Grammar N R} {root : N} {start : String}
    {config : Config R} {patience : Nat} {model : κ} {source : ρ} {watcher : ω}
    {s : Search N R ρ κ ω}
    (hnew : Search.new grammar root start config patience model source watcher = .ok s) :
    (∀ {ω' : Type} (w : ω'), Search.new grammar root start config patience model source w
      = .ok (s.withWatcher w)) ∧ ∀ n, s.Unmoved n := by
  refine ⟨fun w => ?_, s.unmoved⟩
  rw [new_withWatcher grammar root start config patience model source watcher w, hnew]
  rfl

/-- The sample search, which reports seven events in all, one of them of its resampling. -/
theorem observers_only_observe_small : ∃ s : Search String Sample.Whole Source
    (NoCost String Sample.Whole) (Sink Sample.Whole), Sample.search ⟨⟩ = .ok s ∧
      (s.trace 12).map (·.kind) = [.runStarted, .generationGrown, .resampled, .generationGrown,
        .survivorSelected, .finalized, .runFinished] ∧
      (∀ {ω' : Type} (w : ω'), Search.new Sample.grammar "root" "stem" Sample.config 10 ⟨⟩
        (.cycle #[] 0) w = .ok (s.withWatcher w)) ∧ ∀ n, s.Unmoved n := by
  have hrun : ((Sample.search (⟨⟩ : NoCost String Sample.Whole)).toOption.map fun s =>
      (s.trace 12).map (·.kind)) = some [.runStarted, .generationGrown, .resampled,
        .generationGrown, .survivorSelected, .finalized, .runFinished] := by
    decide +kernel
  obtain ⟨s, hnew, hkinds⟩ := exists_of_toOption_map hrun
  exact ⟨s, hnew, hkinds, observers_only_observe hnew⟩

end Espalier.Search
