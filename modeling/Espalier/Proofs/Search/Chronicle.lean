import Espalier.Proofs.Search.Completeness
import Espalier.Proofs.Search.Reports

/-!
# The chronicle of a search

What an eager watcher is told follows one pattern: the start, a chapter for each generation but the
last, the end of the last, the survivor, and the two events of the end. `Before`, `Through`,
`Chosen` and `Whole` are the pattern up to the four points where a search can stand, and
`toldBy_step` is the step lemma that takes a search from one to the next.

Every beginning of the pattern can be continued to a whole (`ToldBy.begins`), so a search that stops
early has told the beginning of a chronicle, wherever it stops.
-/

namespace Espalier.Search

variable {N R ρ κ ω : Type} [Scalar R]

/-! ## The pattern -/

section Pattern

variable (c : Config R) (start : String)

/-- What is told of a generation that another one follows. A warning goes with a population that is
drawn uniformly, and only with that. -/
inductive Chapter (g : Nat) : List (Event R) → Prop where
  | mk (best : Cost R) (mean sum size : R) (uniform : Bool) {parents : Nat} (low : 1 ≤ parents)
    (high : parents ≤ min (c.sampleCountAt g) (c.sampleCountAt (g + 1))) :
    Chapter g (.generationGrown g (c.sampleCountAt g) (c.heuristicScaleAt g) best mean ::
      ((if uniform then [degenerate g sum] else []) ++
        [.resampled g (c.sampleCountAt g) (c.sampleCountAt (g + 1)) parents size uniform]))

/-- The chapters of the generations before one. -/
inductive Chapters : Nat → List (Event R) → Prop where
  | none : Chapters 0 []
  | next {g : Nat} {events new : List (Event R)} (before : Chapters g events)
    (chapter : Chapter c g new) : Chapters (g + 1) (events ++ new)

/-- What is told before a generation grows. -/
def Before (g : Nat) (events : List (Event R)) : Prop :=
  ∃ chapters, Chapters c g chapters ∧
    events = .runStarted start c.generations (c.sampleCountAt 0) :: chapters

/-- What is told when a generation has grown. -/
def Through (g : Nat) (events : List (Event R)) : Prop :=
  ∃ before best mean, Before c start g before ∧ events
    = before ++ [.generationGrown g (c.sampleCountAt g) (c.heuristicScaleAt g) best mean]

/-- What is told when the survivor has been chosen. -/
def Chosen (survivor : ParticleId) (events : List (Event R)) : Prop :=
  ∃ before last cost nodes, c.generations = last + 1 ∧ Through c start last before ∧
    events = before ++ [.survivorSelected survivor cost nodes]

/-- All that is told of a search that ends. -/
def Whole (survivor : ParticleId) (closings details nodes : Nat) (cost : Cost R)
    (events : List (Event R)) : Prop :=
  ∃ before, Chosen c start survivor before ∧
    events = before ++ [.finalized closings details, .runFinished nodes cost]

/-- What begins a whole chronicle. -/
def Begins (events : List (Event R)) : Prop :=
  ∃ survivor closings details nodes cost more,
    Whole c start survivor closings details nodes cost (events ++ more)

end Pattern

variable {c : Config R} {start : String} {g : Nat} {events : List (Event R)}

theorem Begins.of_append {new : List (Event R)} (h : Begins c start (events ++ new)) :
    Begins c start events := by
  obtain ⟨survivor, closings, details, nodes, cost, more, hwhole⟩ := h
  exact ⟨survivor, closings, details, nodes, cost, new ++ more,
    List.append_assoc events new more ▸ hwhole⟩

theorem Chosen.begins {survivor : ParticleId} (h : Chosen c start survivor events) :
    Begins c start events :=
  ⟨survivor, 0, 0, 0, .zero, _, events, h, rfl⟩

theorem Through.begins_last (h : Through c start g events) (hlast : c.generations = g + 1) :
    Begins c start events := by
  have hchosen : Chosen c start 0 (events ++ [.survivorSelected 0 .zero 0]) :=
    ⟨events, g, .zero, 0, hlast, h, rfl⟩
  exact hchosen.begins.of_append

/-- A generation that is followed by another closes its chapter. -/
theorem Through.next (h : Through c start g events) (sum size : R) (uniform : Bool)
    {parents : Nat} (low : 1 ≤ parents)
    (high : parents ≤ min (c.sampleCountAt g) (c.sampleCountAt (g + 1))) :
    Before c start (g + 1) (events ++ ((if uniform then [degenerate g sum] else []) ++
      [.resampled g (c.sampleCountAt g) (c.sampleCountAt (g + 1)) parents size uniform])) := by
  obtain ⟨before, best, mean, ⟨chapters, hchapters, rfl⟩, rfl⟩ := h
  refine ⟨_, .next hchapters (.mk best mean sum size uniform low high), ?_⟩
  simp only [List.cons_append, List.append_assoc, List.nil_append]

/-- One particle at least has a fork, and there is room for it in both populations. -/
theorem one_le_min (c : Config R) (g : Nat) :
    1 ≤ min (c.sampleCountAt g) (c.sampleCountAt (g + 1)) :=
  Nat.le_min.mpr ⟨c.sampleCountAt_pos g, c.sampleCountAt_pos (g + 1)⟩

/-- The generations that are left can be told. -/
theorem Before.begins (h : Before c start g events) (hg : g < c.generations) :
    Begins c start events := by
  -- Any chapters will do for the generations that are left, so they are made up from zeros.
  obtain ⟨left, hleft⟩ := Nat.exists_eq_add_of_lt hg
  induction left generalizing g events with
  | zero =>
    have hthrough : Through c start g
        (events ++ [.generationGrown g (c.sampleCountAt g) (c.heuristicScaleAt g) .zero 0]) :=
      ⟨events, .zero, 0, h, rfl⟩
    exact (hthrough.begins_last hleft).of_append
  | succ left ih =>
    have hthrough : Through c start g
        (events ++ [.generationGrown g (c.sampleCountAt g) (c.heuristicScaleAt g) .zero 0]) :=
      ⟨events, .zero, 0, h, rfl⟩
    have hnext := hthrough.next 0 0 false (Nat.le_refl 1) (one_le_min c g)
    exact (ih hnext (by omega) (by omega)).of_append.of_append

theorem Through.begins (h : Through c start g events) (hg : g < c.generations) :
    Begins c start events := by
  by_cases hlast : c.generations = g + 1
  · exact h.begins_last hlast
  · have hnext := h.next 0 0 false (Nat.le_refl 1) (one_le_min c g)
    exact (hnext.begins (by omega)).of_append

/-! ## Along a run -/

/-- What has been told when a search stands in a stage. -/
def ToldBy (c : Config R) (start : String) (survivor : Option (Particle N R))
    (events : List (Event R)) : Stage → Prop
  | .populate => events = []
  | .grow g _ => Before c start g events
  | .resample g => Through c start g events
  | .selectSurvivor => ∃ g, c.generations = g + 1 ∧ Through c start g events
  | .close | .detail => ∃ p, survivor = some p ∧ Chosen c start p.id events
  | .done => ∃ survivor closings details nodes cost,
    Whole c start survivor closings details nodes cost events

section Run

variable [RandomSource ρ] [CostModel κ N R] [Watcher ω N R] {s : Search N R ρ κ (Traced ω R)}

omit [CostModel κ N R] [Watcher ω N R] in
/-- What is reported of a population that was drawn says how large the two are and bounds how many
particles have a fork. -/
theorem resampling_eq {s : Search N R ρ κ ω} (hs : s.OnTime) (h : s.stage = .resample g) :
    ∃ parents, 1 ≤ parents ∧
      parents ≤ min (s.config.sampleCountAt g) (s.config.sampleCountAt (g + 1)) ∧
      s.resampling g = .resampled g (s.config.sampleCountAt g) (s.config.sampleCountAt (g + 1))
        parents (s.lottery g).effectiveSize (s.lottery g).uniform := by
  obtain ⟨-, hgen, -, hnext⟩ := hs.holds_at h
  obtain ⟨hlength, hplaces⟩ := draws_spec hgen
  obtain ⟨hdrawn, -⟩ := isGeneration_drawn hgen hnext
  have hne : (s.draws g).1 ≠ [] :=
    List.length_pos_iff.mp (hlength ▸ s.config.sampleCountAt_pos (g + 1))
  obtain ⟨hlow, hbefore, hafter⟩ := distinctCount_spec hne hplaces
  refine ⟨_, hlow, Nat.le_min.mpr ⟨hgen.size ▸ hbefore, hlength ▸ hafter⟩, ?_⟩
  unfold resampling
  rw [hgen.size, hdrawn.size]

omit [CostModel κ N R] [Watcher ω N R] in
theorem reports_finish {s : Search N R ρ κ ω} (h : s.stage = .detail) {p : Particle N R}
    (hp : s.survivor = some p) (hclosed : p.details.isEmpty = true) :
    s.reports = [.finalized s.closings s.detailGrowths, .runFinished p.growth.size p.cost] := by
  unfold reports
  rw [h]
  dsimp only
  rw [hp, Option.toList_some, List.flatMap_singleton, if_pos hclosed]

/-- Every step tells what comes next in the chronicle. -/
theorem toldBy_step (hs : s.OnTime) (heager : Eager N R s.watcher.inner)
    (h : ToldBy s.config s.start s.survivor s.watcher.events s.stage) :
    ToldBy s.step.2.config s.step.2.start s.step.2.survivor s.step.2.watcher.events
      s.step.2.stage := by
  have hevents := (events_step heager).1
  cases s.situation with
  | populate hstage =>
    obtain ⟨w, -, hstep⟩ := step_populate hstage
    rw [hstage] at h
    rw [hstep] at hevents ⊢
    dsimp only at hevents ⊢
    rw [hevents, show s.watcher.events = [] from h]
    exact ⟨[], .none, by simp [reports, hstage]⟩
  | grow g next p hstage hp =>
    rw [hstage] at h
    rw [step_grow hstage hp] at hevents ⊢
    dsimp only at hevents ⊢
    split <;> exact h
  | endGeneration g next hstage hp =>
    obtain ⟨w, -, hstep⟩ := step_endGeneration hstage hp
    obtain ⟨hg, -, hgen, -⟩ := hs.holds_at hstage
    obtain ⟨best, mean, hreports⟩ : ∃ best mean, s.reports = [.generationGrown g
        (s.config.sampleCountAt g) (s.config.heuristicScaleAt g) best mean] := by
      unfold reports grown
      rw [hstage]
      dsimp only
      rw [hp, hgen.size]
      exact ⟨_, _, rfl⟩
    rw [hstage] at h
    rw [hstep] at hevents ⊢
    dsimp only at hevents ⊢
    have hthrough : Through s.config s.start g (s.watcher.events ++ s.reports) :=
      ⟨_, best, mean, h, by rw [hreports]⟩
    rw [hevents]
    -- The last generation is not resampled, so its chapter stays open.
    unfold afterGeneration
    split
    · exact hthrough
    · exact ⟨g, by omega, hthrough⟩
  | resample g hstage =>
    obtain ⟨w, -, hstep⟩ := step_resample hstage
    obtain ⟨parents, hlow, hhigh, hresampling⟩ := resampling_eq hs hstage
    have hreports : s.reports = (if (s.lottery g).uniform then
        [degenerate g (s.lottery g).givenSum] else []) ++ [s.resampling g] := by
      unfold reports
      rw [hstage]
    rw [hstage] at h
    rw [hstep] at hevents ⊢
    dsimp only at hevents ⊢
    rw [hevents, hreports, hresampling]
    exact h.next _ _ _ hlow hhigh
  | select p hstage hp =>
    obtain ⟨w, -, hstep⟩ := step_select hstage hp
    rw [hstage] at h
    obtain ⟨g, hlast, hthrough⟩ := h
    have hreports : s.reports = [.survivorSelected p.id p.cost p.growth.size] := by
      unfold reports
      rw [hstage]
      dsimp only
      rw [hp]
      rfl
    rw [hstep] at hevents ⊢
    dsimp only at hevents ⊢
    rw [hevents, hreports]
    exact ⟨p, rfl, _, g, _, _, hlast, hthrough, rfl⟩
  | close p hstage hp =>
    rw [hstage] at h
    obtain ⟨p', hp', hchosen⟩ := h
    obtain rfl : p = p' := Option.some.inj (hp.symm.trans hp')
    have hid := (Particle.accounts_close s.grammar p s.source).id
    rw [step_close hstage hp] at hevents ⊢
    dsimp only at hevents ⊢
    unfold afterClosing
    split <;> exact ⟨_, rfl, hid.symm ▸ hchosen⟩
  | detail p hstage hp hopen =>
    rw [hstage] at h
    obtain ⟨p', hp', hchosen⟩ := h
    obtain rfl : p = p' := Option.some.inj (hp.symm.trans hp')
    have hid := (accounts_growth s .detail false p).id
    rw [step_detail hstage hp hopen] at hevents ⊢
    dsimp only at hevents ⊢
    rw [hstage]
    exact ⟨_, rfl, hid.symm ▸ hchosen⟩
  | finish p hstage hp hclosed =>
    obtain ⟨w, -, hstep⟩ := step_finish hstage hp hclosed
    rw [hstage] at h
    obtain ⟨p', hp', hchosen⟩ := h
    rw [hstep] at hevents ⊢
    dsimp only at hevents ⊢
    rw [hevents, reports_finish hstage hp hclosed]
    exact ⟨p'.id, _, _, _, _, _, hchosen, rfl⟩
  | idle hstep _ =>
    rw [hstep]
    exact h

theorem toldBy_after (hs : s.OnTime) (heager : Eager N R s.watcher.inner)
    (h : ToldBy s.config s.start s.survivor s.watcher.events s.stage) (n : Nat) :
    ToldBy s.config s.start (s.after n).survivor (s.after n).watcher.events (s.after n).stage := by
  -- A step speaks of the settings it finds; that they are those of the beginning comes after.
  have hafter : ToldBy (s.after n).config (s.after n).start (s.after n).survivor
      (s.after n).watcher.events (s.after n).stage := by
    induction n with
    | zero => exact h
    | succ n ih => exact toldBy_step (onTime_after hs n) (eager_after heager n) ih
  have hsame := s.sameTask_after n
  rwa [hsame.config, hsame.start] at hafter

omit [RandomSource ρ] [CostModel κ N R] [Watcher ω N R] in
/-- Wherever a search stands, what it has told begins a whole chronicle. -/
theorem ToldBy.begins (hs : s.OnTime)
    (h : ToldBy s.config s.start s.survivor s.watcher.events s.stage) :
    Begins s.config s.start s.watcher.events := by
  cases hstage : s.stage with
  | populate =>
    rw [hstage] at h
    have hopening : Before s.config s.start 0
        ([] ++ [.runStarted s.start s.config.generations (s.config.sampleCountAt 0)]) :=
      ⟨[], .none, rfl⟩
    rw [show s.watcher.events = [] from h]
    exact (hopening.begins hs.generations).of_append
  | grow g next =>
    rw [hstage] at h
    exact Before.begins h (hs.holds_at hstage).1
  | resample g =>
    rw [hstage] at h
    exact Through.begins h (Nat.lt_of_succ_lt (hs.holds_at hstage).1)
  | selectSurvivor =>
    rw [hstage] at h
    obtain ⟨g, hlast, hthrough⟩ := h
    exact hthrough.begins_last hlast
  | close | detail =>
    rw [hstage] at h
    obtain ⟨p, -, hchosen⟩ := h
    exact hchosen.begins
  | done =>
    rw [hstage] at h
    obtain ⟨survivor, closings, details, nodes, cost, hwhole⟩ := h
    exact ⟨survivor, closings, details, nodes, cost, [], by rwa [List.append_nil]⟩

/-! ## What is counted -/

section Counts

variable {s : Search N R ρ κ ω}

/-- The next step applies a closing production. -/
def closes (s : Search N R ρ κ ω) : Bool :=
  decide (s.stage = .close) && s.turns.any (·.body.isSome)

/-- The next step is one for the details, and not the last one. -/
def growsDetails (s : Search N R ρ κ ω) : Bool :=
  decide (s.stage = .detail) && match s.step.1 with
    | .ok .pending => true
    | _ => false

omit [Scalar R] in
/-- A closing reports a bud when its turn applied a production. -/
theorem any_closings {g : Grammar N R} {p : Particle N R} {source : ρ} :
    (p.closings g source).any (·.body.isSome) = match (p.close g source).1 with
      | .ok (some _) => true
      | _ => false := by
  unfold Particle.closings Particle.close Grammar.closingFor
  cases p.skeleton.back? with
  | none => rfl
  | some bud =>
    dsimp only
    cases g.closings[bud.rule]? <;> rfl

/-- A step adds to a count what it does. -/
theorem counts_step (s : Search N R ρ κ ω) :
    s.step.2.closings = s.closings + s.closes.toNat ∧
      s.step.2.detailGrowths = s.detailGrowths + s.growsDetails.toNat := by
  unfold closes growsDetails
  cases s.situation with
  | populate h =>
    obtain ⟨w, -, hstep⟩ := step_populate h
    simp [hstep, h]
  | grow g next p h hp => simp [step_grow h hp, h]
  | endGeneration g next h hp =>
    obtain ⟨w, -, hstep⟩ := step_endGeneration h hp
    simp [hstep, h]
  | resample g h =>
    obtain ⟨w, -, hstep⟩ := step_resample h
    simp [hstep, h]
  | select p h hp =>
    obtain ⟨w, -, hstep⟩ := step_select h hp
    simp [hstep, h]
  | close p h hp =>
    obtain ⟨-, -, hturns⟩ := acting_close h hp
    rw [hturns, any_closings, step_close h hp, h]
    rcases (p.close s.grammar s.source).1 with failure | _ | bud <;> exact ⟨rfl, rfl⟩
  | detail p h hp hopen =>
    rw [step_detail h hp hopen, h]
    rcases (s.growth .detail false p).1 with failure | grown <;> exact ⟨rfl, rfl⟩
  | finish p h hp hclosed =>
    obtain ⟨w, -, hstep⟩ := step_finish h hp hclosed
    simp [hstep, h]
  | idle hstep hactor => simp [hstep, turns_eq_nil hactor]

theorem counts_after (s : Search N R ρ κ ω) (n : Nat) :
    (s.after n).closings = s.closings + (List.range n).countP (fun m => (s.after m).closes) ∧
      (s.after n).detailGrowths
        = s.detailGrowths + (List.range n).countP (fun m => (s.after m).growsDetails) := by
  induction n with
  | zero => exact ⟨rfl, rfl⟩
  | succ n ih =>
    have hstep := counts_step (s.after n)
    have hcount (b : Bool) : (if b = true then 1 else 0) = b.toNat := by
      cases b <;> rfl
    simp only [List.range_succ, List.countP_append, List.countP_singleton, hcount]
    exact ⟨hstep.1.trans (by omega), hstep.2.trans (by omega)⟩

end Counts

/-! ## The chronicle -/

/-- What an eager watcher has been told after some steps. -/
structure Chronicled (s : Search N R ρ κ (Traced ω R)) (n : Nat) : Prop where
  /-- It is the beginning of a whole chronicle. -/
  begins : Begins s.config s.start (s.after n).watcher.events
  /-- The step that ends the search tells the rest of it: who survived, how many closing productions
  were applied and how many steps grew details, and what the search ends with. -/
  ends : ∀ result, (s.after n).step.1 = .ok (.done result) →
    Whole s.config s.start result.particle
      ((List.range n).countP fun m => (s.after m).closes)
      ((List.range n).countP fun m => (s.after m).growsDetails)
      result.growth.size result.cost (s.after (n + 1)).watcher.events
  /-- Nothing is told after the end. -/
  quiet : (s.after n).stage = .done → (s.after (n + 1)).watcher.events = (s.after n).watcher.events
  /-- The watcher sees the run that it would see if nobody kept what it is sent. -/
  untraced : (s.after n).untraced = s.untraced.after n

/-- What an eager watcher is told of a run follows the chronicle, to its end if the run comes to
an end and up to where it stops otherwise. -/
theorem tells_chronicle {grammar : Grammar N R} {root : N} {start : String} {config : Config R}
    {patience : Nat} {model : κ} {source : ρ} {watcher : ω}
    (hnew : Search.new grammar root start config patience model source
      ({ inner := watcher, events := [] } : Traced ω R) = .ok s)
    (heager : Eager N R watcher) (n : Nat) : s.Chronicled n := by
  have hs := onTime_new hnew
  obtain ⟨heq, -⟩ := new_spec hnew
  have heager' : Eager N R s.watcher.inner := by
    rw [heq]
    exact heager
  have hstart : ToldBy s.config s.start s.survivor s.watcher.events s.stage := by
    rw [heq]
    rfl
  have hzero : s.closings = 0 ∧ s.detailGrowths = 0 := by
    rw [heq]
    exact ⟨rfl, rfl⟩
  have htold := toldBy_after hs heager' hstart n
  have hsame := s.sameTask_after n
  constructor
  case begins =>
    rw [← hsame.config, ← hsame.start] at htold ⊢
    exact htold.begins (onTime_after hs n)
  case ends =>
    intro result hdone
    obtain ⟨p, hstage, hp, hdetails, rfl⟩ := finish_of_done hdone
    have hevents := (events_step (eager_after heager' n)).1
    rw [reports_finish hstage hp (by rw [hdetails]; rfl)] at hevents
    obtain ⟨hclosings, hgrowths⟩ := s.counts_after n
    rw [hzero.1, Nat.zero_add] at hclosings
    rw [hzero.2, Nat.zero_add] at hgrowths
    rw [hstage] at htold
    obtain ⟨p', hp', hchosen⟩ := htold
    obtain rfl : p = p' := Option.some.inj (hp.symm.trans hp')
    -- What the event carries are the counters of the search, which count what its steps did.
    rw [← hclosings, ← hgrowths]
    exact ⟨_, hchosen, hevents⟩
  case quiet =>
    intro hstage
    show (s.after n).step.2.watcher.events = _
    rw [step_done hstage]
  case untraced => exact s.untraced_after n

end Run

/-- A collector is told the chronicle of the sample search, from its start to its end. -/
theorem tells_chronicle_small : ∃ s : Search String Sample.Whole Source
    (NoCost String Sample.Whole) (Traced (Sink Sample.Whole) Sample.Whole),
    Search.new Sample.grammar "root" "stem" Sample.config 10 ⟨⟩ (.cycle #[] 0)
        { inner := .collect #[], events := [] } = .ok s ∧
      Eager String Sample.Whole (Sink.collect #[] : Sink Sample.Whole) ∧
      (s.after 12).stage = .done ∧ ∀ n, s.Chronicled n := by
  have hrun : ((Search.new Sample.grammar "root" "stem" Sample.config 10
      (⟨⟩ : NoCost String Sample.Whole) (.cycle #[] 0 : Source)
      ({ inner := .collect #[], events := [] } : Traced (Sink Sample.Whole) Sample.Whole)
        ).toOption.map fun s => (s.after 12).stage) = some .done := by
    decide +kernel
  obtain ⟨s, hnew, hdone⟩ := exists_of_toOption_map hrun
  exact ⟨s, hnew, eager_collect #[], hdone, tells_chronicle hnew (eager_collect #[])⟩

end Espalier.Search
