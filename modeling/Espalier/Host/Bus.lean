import Espalier.Sink

/-!
# The bus

All jobs of a host report onto one `Bus`, which keeps their events in the order they came until
they are received. A bus can be told which kinds of events jobs should report; that is handed to
each job's sink when the job starts, so jobs already running are not affected by another bus.
-/

namespace Espalier

/-- The number of an entity that jobs are attached to. -/
abbrev Entity := Nat

/-- The channel from jobs to whoever receives their events. -/
structure Bus (R : Type) where
  /-- The kinds jobs should report, if not all. -/
  kinds : Option (List EventKind)
  /-- The events not received yet, the oldest first. -/
  waiting : Array (Entity × Event R)

namespace Bus

variable {R : Type}

def standard : Bus R := { kinds := none, waiting := #[] }

def withKinds (b : Bus R) (kinds : List EventKind) : Bus R := { b with kinds := some kinds }

def sink (b : Bus R) : Sink R := .channel b.kinds #[]

/-- Puts events of an entity's job onto the bus. -/
def post (b : Bus R) (entity : Entity) (events : Array (Event R)) : Bus R :=
  { b with waiting := b.waiting ++ events.map fun event => (entity, event) }

def receive (b : Bus R) : Array (Entity × Event R) × Bus R :=
  (b.waiting, { b with waiting := #[] })

end Bus

end Espalier
