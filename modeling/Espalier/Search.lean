import Espalier.Schedule
import Espalier.Search.Resampling
import Espalier.Sink
import Espalier.Task

/-!
# The search

A `Search` keeps a population of particles. In every generation each particle grows once, and
then the population is drawn anew in proportion to the particles' weights, so that cheap
candidates multiply and expensive ones die out. After the last generation the cheapest particle
survives: its open skeleton buds are closed, and its details grow without judgement.

The search is a machine that `Search.step` advances by one growth, one resampling, one closing
or one detail growth at a time. Whatever it depends on is part of its state: the random source,
the cost model, and the watcher that events and populations are reported to.
-/

namespace Espalier

/-- An onlooker of a search with a state of type `ω`. -/
class Watcher (ω N R : Type) where
  wants : ω → EventKind → Bool
  send : ω → Event R → ω
  /-- Receives the population a generation ends with. -/
  generation : ω → Nat → Array (Particle N R) → ω

instance {N R : Type} : Watcher (Sink R) N R where
  wants := Sink.wants
  send sink event := sink.send event
  generation sink _ _ := sink

/-- A sink for events together with a log of the populations, if one is kept. -/
structure Observer (N R : Type) where
  sink : Sink R
  log : Option (Array (Nat × Array (Particle N R)))

instance {N R : Type} : Watcher (Observer N R) N R where
  wants observer kind := observer.sink.wants kind
  send observer event := { observer with sink := observer.sink.send event }
  generation observer generation population :=
    { observer with log := observer.log.map (·.push (generation, population)) }

/-- Where a search is. -/
inductive Stage where
  | populate
  /-- Growing the particle at `next` in a generation. -/
  | grow (generation next : Nat)
  /-- Resampling after a generation has grown. -/
  | resample (generation : Nat)
  | selectSurvivor
  | close
  | detail
  | done
deriving DecidableEq, Repr

/-- The share of all generations grown so far. -/
def Stage.progress (R : Type) [Arithmetic R] (stage : Stage) (generations population : Nat) : R :=
  let all : R := ((max generations 1 : Nat) : R)
  match stage with
  | .populate => 0
  | .grow generation next =>
    ((generation : R) + (next : R) / ((max population 1 : Nat) : R)) / all
  | .resample generation => ((generation + 1 : Nat) : R) / all
  | _ => 1

/-- What a search ends with. -/
structure Outcome (N R : Type) where
  /-- The survivor's growth, closed and with its details. -/
  growth : Growth N
  /-- The survivor's cost when it was last judged. -/
  cost : Cost R
  probability : R
  particle : ParticleId

/-- One search, with its random source `ρ`, cost model `κ` and watcher `ω`. -/
structure Search (N R ρ κ ω : Type) where
  grammar : Grammar N R
  root : N
  start : String
  config : Config R
  /-- How many productions one growth may try. -/
  patience : Nat
  model : κ
  source : ρ
  watcher : ω
  population : Array (Particle N R)
  survivor : Option (Particle N R)
  nextId : ParticleId
  stage : Stage
  /-- The closing productions applied so far. -/
  closings : Nat
  detailGrowths : Nat

namespace Search

variable {N R ρ κ ω : Type}

/-- Prepares a search of a start rule from a root. A configuration that is not valid is refused
first, a rule that is not defined second. -/
def new [Scalar R] (grammar : Grammar N R) (root : N) (start : String) (config : Config R)
    (patience : Nat) (model : κ) (source : ρ) (watcher : ω) :
    Except (Failure R) (Search N R ρ κ ω) :=
  match config.validate with
  | .error fault => .error (.invalidConfig fault)
  | .ok () =>
    if !grammar.contains start then .error (.unknownRule start) else
    .ok { grammar, root, start, config, patience, model, source, watcher,
          population := #[], survivor := none, nextId := 0, stage := .populate,
          closings := 0, detailGrowths := 0 }

/-- The share of all generations grown so far, in the numbers of the search or in any others. -/
def progress (s : Search N R ρ κ ω) (Q : Type := R) [Arithmetic Q] : Q :=
  s.stage.progress Q s.config.generations s.population.size

/-- Sends an event to the watcher if it wants such events. -/
def emit [Watcher ω N R] (s : Search N R ρ κ ω) (event : Event R) : Search N R ρ κ ω :=
  if Watcher.wants N R s.watcher event.kind then
    { s with watcher := Watcher.send N s.watcher event }
  else s

/-- Shows the watcher the population a generation ends with. -/
def showGeneration [Watcher ω N R] (s : Search N R ρ κ ω) (generation : Nat) :
    Search N R ρ κ ω :=
  { s with watcher := Watcher.generation s.watcher generation s.population }

/-- The first population. -/
def seeds [Scalar R] (s : Search N R ρ κ ω) : Array (Particle N R) :=
  Array.ofFn fun i : Fin (s.config.sampleCountAt 0) => Particle.seed (s.nextId + i) s.start s.root

def populate [Scalar R] [Watcher ω N R] (s : Search N R ρ κ ω) : Search N R ρ κ ω :=
  let count := s.config.sampleCountAt 0
  let s := { s with population := s.seeds, nextId := s.nextId + count }
  let s := s.emit (.runStarted s.start s.config.generations count)
  { s with stage := .grow 0 0 }

/-- The totals of the costs in the population. -/
def totals [Add R] (s : Search N R ρ κ ω) : List R :=
  s.population.toList.map (·.cost.total)

/-- What is reported of a generation that has been grown. -/
def grown [Scalar R] (s : Search N R ρ κ ω) (generation : Nat) : Event R :=
  let count := s.population.size
  let best := ((Selection.lowestIndex s.totals).bind fun i => s.population[i]?.map (·.cost)).getD
    .zero
  let mean := total s.totals / ((max count 1 : Nat) : R)
  .generationGrown generation count (s.config.heuristicScaleAt generation) best mean

/-- Ends a generation all particles of which have grown. -/
def finishGeneration [Scalar R] [Watcher ω N R] (s : Search N R ρ κ ω) (generation : Nat) :
    Search N R ρ κ ω :=
  let s := s.emit (s.grown generation)
  if generation + 1 < s.config.generations then { s with stage := .resample generation }
  else { s.showGeneration generation with stage := .selectSurvivor }

/-- Lets the next particle of a generation grow, or ends the generation. The cost model is told
to count the heuristic when the generation's scale is zero. -/
def growNext [Scalar R] [RandomSource ρ] [CostModel κ N R] [Watcher ω N R]
    (s : Search N R ρ κ ω) (generation next : Nat) :
    Except (Failure R) Unit × Search N R ρ κ ω :=
  match s.population[next]? with
  | none => (.ok (), s.finishGeneration generation)
  | some particle =>
    let useHeuristic := isZero (s.config.heuristicScaleAt generation)
    let (result, particle, model, source) :=
      particle.grow s.grammar .skeleton useHeuristic s.patience s.model s.source
    let population := s.population.setIfInBounds next particle
    let s := { s with population, model, source }
    match result with
    | .error failure => (.error failure, s)
    | .ok _ => (.ok (), { s with stage := .grow generation (next + 1) })

/-- The logarithms of the particles' weights after a generation. -/
def logWeights [Arithmetic R] (s : Search N R ρ κ ω) (generation : Nat) : List R :=
  s.population.toList.map (·.logWeight (s.config.heuristicScaleAt generation))

/-- The lottery that parents are drawn by after a generation. -/
def lottery [Scalar R] (s : Search N R ρ κ ω) (generation : Nat) : Lottery R :=
  .ofLogWeights (s.logWeights generation)

/-- The places of the parents drawn for the next population, and the source after the draws. -/
def draws [Scalar R] [RandomSource ρ] (s : Search N R ρ κ ω) (generation : Nat) : List Nat × ρ :=
  drawParents (s.lottery generation) (s.config.sampleCountAt (generation + 1)) s.source

/-- The warning that a generation is drawn uniformly. -/
def degenerate [Scalar R] (generation : Nat) (sum : R) : Event R :=
  .warning ("generation " ++ toString generation)
    ("total resampling weight " ++ Scalar.text sum ++ " is degenerate; resampled uniformly")

/-- Draws a population anew from the one that has grown. -/
def resample [Scalar R] [RandomSource ρ] [Watcher ω N R] (s : Search N R ρ κ ω)
    (generation : Nat) : Search N R ρ κ ω :=
  let before := s.population.size
  let lottery := s.lottery generation
  let (places, source) := s.draws generation
  let s := if lottery.uniform then s.emit (degenerate generation lottery.givenSum) else s
  let population := forkDrawn s.nextId places s.population #[]
  let s := { s with population, source, nextId := s.nextId + population.size }
  let s := s.emit (.resampled generation before population.size (distinctCount before places)
    lottery.effectiveSize lottery.uniform)
  { s.showGeneration generation with stage := .grow (generation + 1) 0 }

/-- The particle with the lowest total. -/
def fittest? [Scalar R] (s : Search N R ρ κ ω) : Option (Particle N R) :=
  (Selection.lowestIndex s.totals).bind (s.population[·]?)

/-- Lets the particle with the lowest total survive. -/
def selectSurvivor [Scalar R] [Watcher ω N R] (s : Search N R ρ κ ω) :
    Except (Failure R) Unit × Search N R ρ κ ω :=
  match s.fittest? with
  | none => (.error .emptyPopulation, s)
  | some survivor =>
    let s := { s with population := #[] }
    let s := s.emit (.survivorSelected survivor.id survivor.cost survivor.growth.size)
    (.ok (), { s with survivor := some survivor, stage := .close })

/-- Closes one bud of the survivor; without any, its details are next. -/
def closeNext [RandomSource ρ] (s : Search N R ρ κ ω) :
    Except (Failure R) Unit × Search N R ρ κ ω :=
  match s.survivor with
  | none => (.error .noSurvivor, s)
  | some survivor =>
    let (result, survivor, source) := survivor.close s.grammar s.source
    let s := { s with survivor := some survivor, source }
    match result with
    | .error failure => (.error failure, s)
    | .ok (some _) => (.ok (), { s with closings := s.closings + 1 })
    | .ok none => (.ok (), { s with stage := .detail })

def finish [Scalar R] [Watcher ω N R] (s : Search N R ρ κ ω) (survivor : Particle N R) :
    Outcome N R × Search N R ρ κ ω :=
  let s := { s with survivor := none, stage := .done }
  let s := s.emit (.finalized s.closings s.detailGrowths)
  let s := s.emit (.runFinished survivor.growth.size survivor.cost)
  ({ growth := survivor.growth, cost := survivor.cost, probability := survivor.probability,
     particle := survivor.id }, s)

/-- Lets the survivor's details grow once, or ends the search when there are none left. -/
def growDetail [Scalar R] [RandomSource ρ] [CostModel κ N R] [Watcher ω N R]
    (s : Search N R ρ κ ω) : Except (Failure R) (Step (Outcome N R)) × Search N R ρ κ ω :=
  match s.survivor with
  | none => (.error .noSurvivor, s)
  | some survivor =>
    if survivor.details.isEmpty then
      let (outcome, s) := s.finish survivor
      (.ok (.done outcome), s)
    else
      let (result, survivor, model, source) :=
        survivor.grow s.grammar .detail false s.patience s.model s.source
      let s := { s with survivor := some survivor, model, source }
      match result with
      | .error failure => (.error failure, s)
      | .ok _ => (.ok .pending, { s with detailGrowths := s.detailGrowths + 1 })

def step [Scalar R] [RandomSource ρ] [CostModel κ N R] [Watcher ω N R] (s : Search N R ρ κ ω) :
    Except (Failure R) (Step (Outcome N R)) × Search N R ρ κ ω :=
  let pending (r : Except (Failure R) Unit × Search N R ρ κ ω) :
      Except (Failure R) (Step (Outcome N R)) × Search N R ρ κ ω :=
    (r.1.map fun _ => .pending, r.2)
  match s.stage with
  | .populate => (.ok .pending, s.populate)
  | .grow generation next => pending (s.growNext generation next)
  | .resample generation => (.ok .pending, s.resample generation)
  | .selectSurvivor => pending s.selectSurvivor
  | .close => pending s.closeNext
  | .detail => s.growDetail
  | .done => (.error .alreadyFinished, s)

instance [Scalar R] [RandomSource ρ] [CostModel κ N R] [Watcher ω N R] :
    Stepwise (Search N R ρ κ ω) R (Outcome N R) where
  step s :=
    let (result, state) := s.step
    { state, result, cancels := false }

end Search

end Espalier
