import Espalier.Number.Binary64
import Espalier.Search
import Espalier.Proofs.Growing

/-!
# The steps of a search

One lemma for each stage says all that a step does there (`step_populate`, `step_grow`,
`step_endGeneration`, `step_resample`, `step_select`, `step_close`, `step_detail`, `step_finish`),
so that no proof about runs opens the steps again. Events change the watcher alone; `Told` relates
what it was to what it is after any number of them.

`Search.after` is the run: it goes on after a step that failed, so what holds of it holds whether
or not a caller stops there.
-/

namespace Espalier.Search

variable {N R ρ κ ω : Type} [Scalar R] [RandomSource ρ] [CostModel κ N R] [Watcher ω N R]
  {s : Search N R ρ κ ω} {g next : Nat}

/-- The search after so many steps. -/
def after (s : Search N R ρ κ ω) : Nat → Search N R ρ κ ω
  | 0 => s
  | n + 1 => (s.after n).step.2

/-- No one of the first steps fails. -/
def Succeeds (s : Search N R ρ κ ω) (n : Nat) : Prop := ∀ m < n, (s.after m).step.1.isOk = true

instance (s : Search N R ρ κ ω) (n : Nat) : Decidable (s.Succeeds n) := Nat.decidableBallLT n _

/-! ## Results of steps -/

omit [Scalar R] in
theorem isOk_map {α β : Type} (result : Except (Failure R) α) (f : α → β) :
    (result.map f).isOk = result.isOk := by
  cases result <;> rfl

omit [Scalar R] in
theorem exists_ok {α : Type} {result : Except (Failure R) α} (h : result.isOk = true) :
    ∃ a, result = .ok a := by
  cases result with
  | error failure => exact absurd h Bool.false_ne_true
  | ok a => exact ⟨a, rfl⟩

omit [Scalar R] in
/-- What can be read off a result was read off a success. -/
theorem exists_of_toOption_map {α β : Type} {result : Except (Failure R) α} {f : α → β} {b : β}
    (h : result.toOption.map f = some b) : ∃ a, result = .ok a ∧ f a = b := by
  cases result with
  | error failure => exact absurd h.symm (Option.some_ne_none b)
  | ok a => exact ⟨a, rfl, Option.some.inj h⟩

omit [Scalar R] in
/-- A step that goes on is not the last. -/
theorem map_pending_ne_done {α O : Type} (result : Except (Failure R) α) (output : O) :
    result.map (fun _ => Step.pending) ≠ .ok (.done output) := by
  cases result <;> exact nofun

/-! ## What the watcher is told -/

/-- A watcher before and after it was sent events. -/
inductive Told (N R : Type) [Watcher ω N R] : ω → ω → Prop where
  | nothing (w : ω) : Told N R w w
  | event {w w' : ω} (event : Event R) (before : Told N R w w') :
    Told N R w (Watcher.send N w' event)

omit [RandomSource ρ] [CostModel κ N R] [Scalar R] in
theorem emit_told {w : ω} (h : Told N R w s.watcher) (event : Event R) :
    ∃ w' : ω, Told N R w w' ∧ s.emit event = { s with watcher := w' } := by
  unfold emit
  split
  · exact ⟨_, .event event h, rfl⟩
  · exact ⟨_, h, rfl⟩

/-! ## What a step does in each stage -/

theorem step_populate (h : s.stage = .populate) : ∃ w, Told N R s.watcher w ∧
    s.step = (.ok .pending, { s with
      population := s.seeds, nextId := s.nextId + s.config.sampleCountAt 0
      stage := .grow 0 0, watcher := w }) := by
  obtain ⟨w, htold, hemit⟩ := emit_told (s := { s with
    population := s.seeds, nextId := s.nextId + s.config.sampleCountAt 0 }) (.nothing s.watcher)
    (.runStarted s.start s.config.generations (s.config.sampleCountAt 0))
  refine ⟨w, htold, ?_⟩
  have hpopulate : s.populate = { s with
      population := s.seeds, nextId := s.nextId + s.config.sampleCountAt 0
      stage := .grow 0 0, watcher := w } := by
    unfold populate
    dsimp only
    rw [hemit]
  unfold step
  rw [h, ← hpopulate]

/-- One growth of a particle, from the model and the source as they are. -/
def growth (s : Search N R ρ κ ω) (phase : Phase) (useHeuristic : Bool) (p : Particle N R) :
    Except (Failure R) Bool × Particle N R × κ × ρ :=
  p.grow s.grammar phase useHeuristic s.patience s.model s.source

/-- Whether the cost model is told to count the heuristic in a generation. -/
def heuristicCounts (s : Search N R ρ κ ω) (g : Nat) : Bool :=
  isZero (s.config.heuristicScaleAt g)

theorem step_grow (h : s.stage = .grow g next) {p : Particle N R}
    (hp : s.population[next]? = some p) :
    s.step = ((s.growth .skeleton (s.heuristicCounts g) p).1.map fun _ => .pending, { s with
      population := s.population.setIfInBounds next
        (s.growth .skeleton (s.heuristicCounts g) p).2.1
      model := (s.growth .skeleton (s.heuristicCounts g) p).2.2.1
      source := (s.growth .skeleton (s.heuristicCounts g) p).2.2.2
      stage := if (s.growth .skeleton (s.heuristicCounts g) p).1.isOk then .grow g (next + 1)
        else .grow g next }) := by
  unfold step growNext
  rw [h]
  dsimp only
  rw [hp]
  show _ = (Except.map _ (s.growth .skeleton (s.heuristicCounts g) p).1, _)
  cases hgrowth : s.growth .skeleton (s.heuristicCounts g) p with
  | mk result rest =>
    unfold growth heuristicCounts at hgrowth
    dsimp only
    rw [hgrowth]
    cases result with
    | error failure => rfl
    | ok pushed => rfl

/-- Where a generation leads that has been grown. -/
def afterGeneration (s : Search N R ρ κ ω) (g : Nat) : Stage :=
  if g + 1 < s.config.generations then .resample g else .selectSurvivor

/-- The watcher at the end of a generation: the last one shows its population here. -/
def shownLast (s : Search N R ρ κ ω) (w : ω) (g : Nat) : ω :=
  if g + 1 < s.config.generations then w else Watcher.generation w g s.population

theorem step_endGeneration (h : s.stage = .grow g next) (hp : s.population[next]? = none) :
    ∃ w, Told N R s.watcher w ∧
      s.step = (.ok .pending, { s with
        stage := s.afterGeneration g, watcher := s.shownLast w g }) := by
  obtain ⟨w, htold, hemit⟩ := emit_told (s := s) (.nothing s.watcher) (s.grown g)
  refine ⟨w, htold, ?_⟩
  have hfinish : s.finishGeneration g = { s with
      stage := s.afterGeneration g, watcher := s.shownLast w g } := by
    unfold finishGeneration afterGeneration shownLast
    dsimp only
    rw [hemit]
    split <;> rfl
  unfold step growNext
  rw [h]
  dsimp only
  rw [hp, hfinish]
  rfl

/-- The population drawn after a generation. -/
def drawn (s : Search N R ρ κ ω) (g : Nat) : Array (Particle N R) :=
  forkDrawn s.nextId (s.draws g).1 s.population #[]

theorem step_resample (h : s.stage = .resample g) : ∃ w, Told N R s.watcher w ∧
    s.step = (.ok .pending, { s with
      population := s.drawn g, source := (s.draws g).2, nextId := s.nextId + (s.drawn g).size
      stage := .grow (g + 1) 0, watcher := Watcher.generation w g (s.drawn g) }) := by
  -- The warning comes first, if there is one.
  obtain ⟨w, htold, hwarned⟩ : ∃ w, Told N R s.watcher w ∧
      (if (s.lottery g).uniform then s.emit (degenerate g (s.lottery g).givenSum) else s)
        = { s with watcher := w } := by
    split
    · exact emit_told (.nothing s.watcher) _
    · exact ⟨s.watcher, .nothing s.watcher, rfl⟩
  obtain ⟨w', htold', hemit⟩ := emit_told (s := { s with
    watcher := w, population := s.drawn g, source := (s.draws g).2
    nextId := s.nextId + (s.drawn g).size }) htold
    (.resampled g s.population.size (s.drawn g).size
      (distinctCount s.population.size (s.draws g).1) (s.lottery g).effectiveSize
      (s.lottery g).uniform)
  refine ⟨w', htold', ?_⟩
  have hresample : s.resample g = { s with
      population := s.drawn g, source := (s.draws g).2, nextId := s.nextId + (s.drawn g).size
      stage := .grow (g + 1) 0, watcher := Watcher.generation w' g (s.drawn g) } := by
    unfold resample
    unfold drawn at hemit ⊢
    dsimp only
    rw [hwarned]
    dsimp only
    rw [hemit]
    rfl
  unfold step
  rw [h, ← hresample]

theorem step_select (h : s.stage = .selectSurvivor) {p : Particle N R}
    (hp : s.fittest? = some p) : ∃ w, Told N R s.watcher w ∧
      s.step = (.ok .pending, { s with
        population := #[], survivor := some p, stage := .close, watcher := w }) := by
  obtain ⟨w, htold, hemit⟩ := emit_told (s := { s with population := #[] }) (.nothing s.watcher)
    (.survivorSelected p.id p.cost p.growth.size)
  refine ⟨w, htold, ?_⟩
  have hselect : s.selectSurvivor = (.ok (), { s with
      population := #[], survivor := some p, stage := .close, watcher := w }) := by
    unfold selectSurvivor
    rw [hp]
    dsimp only
    rw [hemit]
  unfold step
  rw [h]
  dsimp only
  rw [hselect]
  rfl

theorem step_select_none (h : s.stage = .selectSurvivor) (hp : s.fittest? = none) :
    s.step = (.error .emptyPopulation, s) := by
  unfold step selectSurvivor
  rw [h]
  dsimp only
  rw [hp]
  rfl

/-- Where closing leads: to the details when no bud was left to close. -/
def afterClosing : Except (Failure R) (Option Bud) → Stage
  | .ok none => .detail
  | _ => .close

theorem step_close (h : s.stage = .close) {p : Particle N R} (hp : s.survivor = some p) :
    s.step = ((p.close s.grammar s.source).1.map fun _ => .pending, { s with
      survivor := some (p.close s.grammar s.source).2.1, source := (p.close s.grammar s.source).2.2
      stage := afterClosing (p.close s.grammar s.source).1
      closings := match (p.close s.grammar s.source).1 with
        | .ok (some _) => s.closings + 1
        | _ => s.closings }) := by
  unfold step closeNext
  rw [h]
  dsimp only
  rw [hp]
  dsimp only
  rcases p.close s.grammar s.source with ⟨_ | _ | bud, q, source⟩ <;> rfl

theorem step_close_none (h : s.stage = .close) (hp : s.survivor = none) :
    s.step = (.error .noSurvivor, s) := by
  unfold step closeNext
  rw [h]
  dsimp only
  rw [hp]
  rfl

theorem step_detail (h : s.stage = .detail) {p : Particle N R} (hp : s.survivor = some p)
    (hopen : p.details.isEmpty = false) :
    s.step = ((s.growth .detail false p).1.map fun _ => .pending, { s with
      survivor := some (s.growth .detail false p).2.1
      model := (s.growth .detail false p).2.2.1, source := (s.growth .detail false p).2.2.2
      detailGrowths := if (s.growth .detail false p).1.isOk then s.detailGrowths + 1
        else s.detailGrowths }) := by
  unfold step growDetail
  rw [h]
  dsimp only
  rw [hp]
  dsimp only
  rw [if_neg (by rw [hopen]; exact Bool.false_ne_true)]
  show _ = (Except.map _ (s.growth .detail false p).1, _)
  cases hgrowth : s.growth .detail false p with
  | mk result rest =>
    unfold growth at hgrowth
    rw [hgrowth]
    cases result with
    | error failure => rfl
    | ok pushed => rfl

/-- What the search ends with. -/
def outcome (p : Particle N R) : Outcome N R :=
  { growth := p.growth, cost := p.cost, probability := p.probability, particle := p.id }

theorem step_finish (h : s.stage = .detail) {p : Particle N R} (hp : s.survivor = some p)
    (hclosed : p.details.isEmpty = true) : ∃ w, Told N R s.watcher w ∧
      s.step = (.ok (.done (outcome p)), { s with
        survivor := none, stage := .done, watcher := w }) := by
  obtain ⟨w, htold, hemit⟩ := emit_told (s := { s with survivor := none, stage := .done })
    (.nothing s.watcher) (.finalized s.closings s.detailGrowths)
  obtain ⟨w', htold', hemit'⟩ := emit_told (s := { s with
    survivor := none, stage := .done, watcher := w }) htold (.runFinished p.growth.size p.cost)
  refine ⟨w', htold', ?_⟩
  have hfinish : s.finish p = (outcome p, { s with
      survivor := none, stage := .done, watcher := w' }) := by
    unfold finish
    dsimp only
    rw [hemit, hemit']
    rfl
  unfold step growDetail
  rw [h]
  dsimp only
  rw [hp]
  dsimp only
  rw [if_pos hclosed, hfinish]

theorem step_detail_none (h : s.stage = .detail) (hp : s.survivor = none) :
    s.step = (.error .noSurvivor, s) := by
  unfold step growDetail
  rw [h]
  dsimp only
  rw [hp]

theorem step_done (h : s.stage = .done) : s.step = (.error .alreadyFinished, s) := by
  unfold step
  rw [h]

/-! ## Who acts -/

/-- The particle that the next step lets grow or closes. -/
def actor? (s : Search N R ρ κ ω) : Option (Particle N R) :=
  match s.stage with
  | .grow _ next => s.population[next]?
  | .close | .detail => s.survivor
  | _ => none

/-- The phase the next step works in. -/
def phase (s : Search N R ρ κ ω) : Phase :=
  match s.stage with
  | .detail => .detail
  | _ => .skeleton

/-- The turns the next step takes. -/
def turns (s : Search N R ρ κ ω) : List (Turn N ρ) :=
  match s.stage, s.actor? with
  | .close, some p => p.closings s.grammar s.source
  | _, some p => p.expansions s.grammar s.phase p.growth.size s.patience s.source
  | _, none => []

omit [CostModel κ N R] [Watcher ω N R] in
/-- Where nobody acts nothing is done. -/
theorem turns_eq_nil (h : s.actor? = none) : s.turns = [] := by
  unfold turns
  rw [h]
  cases s.stage <;> rfl

omit [CostModel κ N R] [Watcher ω N R] in
theorem acting_grow (h : s.stage = .grow g next) {p : Particle N R}
    (hp : s.population[next]? = some p) : s.actor? = some p ∧ s.phase = .skeleton ∧
      s.turns = p.expansions s.grammar .skeleton p.growth.size s.patience s.source := by
  have hactor : s.actor? = some p := by simp [actor?, h, hp]
  have hphase : s.phase = .skeleton := by simp [phase, h]
  exact ⟨hactor, hphase, by simp [turns, h, hactor, hphase]⟩

omit [CostModel κ N R] [Watcher ω N R] in
theorem acting_close (h : s.stage = .close) {p : Particle N R} (hp : s.survivor = some p) :
    s.actor? = some p ∧ s.phase = .skeleton ∧ s.turns = p.closings s.grammar s.source := by
  have hactor : s.actor? = some p := by simp [actor?, h, hp]
  exact ⟨hactor, by simp [phase, h], by simp [turns, h, hactor]⟩

omit [CostModel κ N R] [Watcher ω N R] in
theorem acting_detail (h : s.stage = .detail) {p : Particle N R} (hp : s.survivor = some p) :
    s.actor? = some p ∧ s.phase = .detail ∧
      s.turns = p.expansions s.grammar .detail p.growth.size s.patience s.source := by
  have hactor : s.actor? = some p := by simp [actor?, h, hp]
  have hphase : s.phase = .detail := by simp [phase, h]
  exact ⟨hactor, hphase, by simp [turns, h, hactor, hphase]⟩

omit [Watcher ω N R] in
/-- What a growth does to a particle is what its turns add up to. -/
theorem accounts_growth (s : Search N R ρ κ ω) (phase : Phase) (useHeuristic : Bool)
    (p : Particle N R) :
    Accounts s.grammar phase p
      (p.expansions s.grammar phase p.growth.size s.patience s.source)
      (s.growth phase useHeuristic p).2.1 :=
  (Particle.grow_spec s.grammar phase useHeuristic s.patience p s.model s.source).1

/-- All particles there are. -/
def particles (s : Search N R ρ κ ω) : List (Particle N R) :=
  s.population.toList ++ s.survivor.toList

/-- What a step may find. -/
inductive Situation (s : Search N R ρ κ ω) : Prop where
  | populate (stage : s.stage = .populate)
  | grow (g next : Nat) (p : Particle N R) (stage : s.stage = .grow g next)
    (actor : s.population[next]? = some p)
  | endGeneration (g next : Nat) (stage : s.stage = .grow g next)
    (actor : s.population[next]? = none)
  | resample (g : Nat) (stage : s.stage = .resample g)
  | select (p : Particle N R) (stage : s.stage = .selectSurvivor) (fittest : s.fittest? = some p)
  | close (p : Particle N R) (stage : s.stage = .close) (survivor : s.survivor = some p)
  | detail (p : Particle N R) (stage : s.stage = .detail) (survivor : s.survivor = some p)
    (details : p.details.isEmpty = false)
  | finish (p : Particle N R) (stage : s.stage = .detail) (survivor : s.survivor = some p)
    (details : p.details.isEmpty = true)
  /-- Nothing to work on: the step fails and changes nothing. -/
  | idle {failure : Failure R} (step : s.step = (.error failure, s)) (actor : s.actor? = none)

theorem situation (s : Search N R ρ κ ω) : s.Situation := by
  cases h : s.stage with
  | populate => exact .populate h
  | grow g next =>
    cases hp : s.population[next]? with
    | none => exact .endGeneration g next h hp
    | some p => exact .grow g next p h hp
  | resample g => exact .resample g h
  | selectSurvivor =>
    cases hp : s.fittest? with
    | none => exact .idle (step_select_none h hp) (by simp [actor?, h])
    | some p => exact .select p h hp
  | close =>
    cases hp : s.survivor with
    | none => exact .idle (step_close_none h hp) (by simp [actor?, h, hp])
    | some p => exact .close p h hp
  | detail =>
    cases hp : s.survivor with
    | none => exact .idle (step_detail_none h hp) (by simp [actor?, h, hp])
    | some p =>
      cases hopen : p.details.isEmpty with
      | false => exact .detail p h hp hopen
      | true => exact .finish p h hp hopen
  | done => exact .idle (step_done h) (by simp [actor?, h])

/-! ## What no step changes -/

/-- Two moments of one search: grammar, root, start rule, configuration and patience agree. -/
structure SameTask (s t : Search N R ρ κ ω) : Prop where
  grammar : t.grammar = s.grammar
  root : t.root = s.root
  start : t.start = s.start
  config : t.config = s.config
  patience : t.patience = s.patience

theorem sameTask_step (s : Search N R ρ κ ω) : s.SameTask s.step.2 := by
  cases s.situation with
  | populate h =>
    obtain ⟨w, -, hstep⟩ := step_populate h
    rw [hstep]
    constructor <;> rfl
  | grow g next p h hp =>
    rw [step_grow h hp]
    constructor <;> rfl
  | endGeneration g next h hp =>
    obtain ⟨w, -, hstep⟩ := step_endGeneration h hp
    rw [hstep]
    constructor <;> rfl
  | resample g h =>
    obtain ⟨w, -, hstep⟩ := step_resample h
    rw [hstep]
    constructor <;> rfl
  | select p h hp =>
    obtain ⟨w, -, hstep⟩ := step_select h hp
    rw [hstep]
    constructor <;> rfl
  | close p h hp =>
    rw [step_close h hp]
    constructor <;> rfl
  | detail p h hp hopen =>
    rw [step_detail h hp hopen]
    constructor <;> rfl
  | finish p h hp hclosed =>
    obtain ⟨w, -, hstep⟩ := step_finish h hp hclosed
    rw [hstep]
    constructor <;> rfl
  | idle hstep _ =>
    rw [hstep]
    constructor <;> rfl

theorem sameTask_after (s : Search N R ρ κ ω) (n : Nat) : s.SameTask (s.after n) := by
  induction n with
  | zero => constructor <;> rfl
  | succ n ih =>
    have hstep := sameTask_step (s.after n)
    constructor
    case grammar => exact hstep.grammar.trans ih.grammar
    case root => exact hstep.root.trans ih.root
    case start => exact hstep.start.trans ih.start
    case config => exact hstep.config.trans ih.config
    case patience => exact hstep.patience.trans ih.patience

end Espalier.Search

/-! ## A small search -/

namespace Espalier.Sample

/-- Whole numbers, in which sums are exact. -/
structure Whole where
  value : Int
deriving DecidableEq

/-- No two whole numbers are told apart by a probability: each weighs one. -/
instance : Scalar Whole where
  zero := ⟨0⟩
  one := ⟨1⟩
  add x y := ⟨x.value + y.value⟩
  sub x y := ⟨x.value - y.value⟩
  mul x y := ⟨x.value * y.value⟩
  div x y := ⟨x.value / y.value⟩
  natCast n := ⟨n⟩
  le x y := x.value ≤ y.value
  lt x y := x.value < y.value
  decideLe x y := inferInstanceAs (Decidable (x.value ≤ y.value))
  decideLt x y := inferInstanceAs (Decidable (x.value < y.value))
  exp _ := ⟨1⟩
  ln _ := ⟨0⟩
  isNaN _ := false
  isFinite _ := true
  rank x := x.value
  floorCount x := x.value.toNat
  roundCount x := x.value.toNat
  text x := toString x.value

variable {R : Type} [Scalar R]

/-- A stem bears a leaf, which is a detail, and the leaf bears a shoot, which is none. -/
def grammar : Grammar String R :=
  (Grammar.empty : Grammar String R)
    |>.define "stem" (fun _ => do Expansion.addBud "leaf" (← Expansion.append "stem"))
    |>.define "leaf" (fun _ => do Expansion.addBud "shoot" (← Expansion.append "leaf"))
    |>.define "shoot" (fun _ => do let _ ← Expansion.append "shoot")
    |>.close "shoot" (fun _ => do let _ ← Expansion.append "shoot")
    |>.detail "leaf"

/-- Two generations of two particles. -/
def config : Config R :=
  { generations := 2, sampleCount := .constant ((2 : Nat) : R), heuristicScale := .constant 0
    budget := 1 }

/-- A search for a stem in whole numbers that draws nothing but zeros. -/
def search {κ : Type} (model : κ) :
    Except (Failure Whole) (Search String Whole Source κ (Sink Whole)) :=
  Search.new grammar "root" "stem" config 10 model (.cycle #[] 0) .ignore

/-- The same in doubles, with one particle that is grown once. -/
def brief {κ : Type} (model : κ) :
    Except (Failure Binary64) (Search String Binary64 Source κ (Sink Binary64)) :=
  Search.new grammar "root" "stem" { config with generations := 1, sampleCount := .constant 1 } 10
    model (.cycle #[] 0) .ignore

end Espalier.Sample
