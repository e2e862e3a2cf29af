import Espalier.Number.Binary64
import Espalier.Search

/-!
# Settings

The numbers of a search that are tuned without touching its grammar or its costs. A `Settings`
becomes a configuration by `Settings.config`; the time one burst may take is set in milliseconds
there, and what is no usable time becomes none at all, which a search then refuses.
-/

namespace Espalier

/-- The settings of a search. -/
structure Settings where
  start : String
  generations : Nat
  sampleCount : Schedule Binary64
  heuristicScale : Schedule Binary64
  /-- The time one burst may take, in milliseconds. -/
  burstMilliseconds : Binary64
  seed : UInt64

namespace Settings

/-- A number of seconds as nanoseconds, to the nearest one, unless there are too many seconds for
a word. -/
def nanoseconds? (seconds : Binary64) : Option Nat :=
  if !seconds.isFinite || (seconds.isNegative && !seconds.isZero) then none
  else
    let fraction := seconds.ratio
    let count := Decimal.Ratio.nearest ⟨fraction.num * 1000000000, fraction.den⟩
    if count < UInt64.size * 1000000000 then some count else none

/-- The time one burst may take, in nanoseconds. -/
def budget (s : Settings) : Nat :=
  let milliseconds := if 0 < s.burstMilliseconds then s.burstMilliseconds else 0
  (nanoseconds? (milliseconds / Binary64.ofNat 1000)).getD 0

def config (s : Settings) : Config Binary64 :=
  { generations := s.generations
    sampleCount := s.sampleCount
    heuristicScale := s.heuristicScale
    budget := s.budget }

/-- Prepares the search that the settings describe, with the source that their seed grows. -/
def search {N κ ω : Type} (s : Settings) (grammar : Grammar N Binary64) (root : N)
    (patience : Nat) (model : κ) (watcher : ω) :
    Except (Failure Binary64) (Search N Binary64 Source κ ω) :=
  Search.new grammar root s.start s.config patience model (.ofSeed s.seed) watcher

end Settings

end Espalier
