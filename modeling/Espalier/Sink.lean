import Espalier.Event

/-!
# Sinks

A `Sink` is a tree that events are sent into. Its leaves keep what reaches them: collectors,
callbacks (what a callback was called with is all the tree knows of it) and the ends of
channels. Inner nodes filter by kind or pass an event on to several sinks. `wants` tells whether
anything in a sink is interested in a kind, and a filter or a fan-out does not pass on what its
sinks do not want.
-/

namespace Espalier

/-- A tree that events are sent into. -/
inductive Sink (R : Type) where
  /-- Wants nothing and ignores everything. -/
  | ignore
  | collect (events : Array (Event R))
  /-- Calls back with every event; the events are those it was called with. -/
  | callback (events : Array (Event R))
  /-- Passes events into a channel, where `waiting` have not been received yet. Only some kinds
  are wanted if `kinds` lists them, but whatever is sent is passed on. -/
  | channel (kinds : Option (List EventKind)) (waiting : Array (Event R))
  | filter (kinds : List EventKind) (inner : Sink R)
  /-- Passes events on to every sink that wants them. -/
  | fanOut (sinks : List (Sink R))
deriving Inhabited

namespace Sink

variable {R : Type}

/-- Whether a channel restricted to some kinds wants one. -/
def admits (kinds : Option (List EventKind)) (kind : EventKind) : Bool :=
  match kinds with
  | none => true
  | some kinds => kinds.contains kind

mutual

/-- Whether anything in the sink is interested in a kind of event. -/
def wants : Sink R → EventKind → Bool
  | .ignore, _ => false
  | .collect _, _ => true
  | .callback _, _ => true
  | .channel kinds _, kind => admits kinds kind
  | .filter kinds inner, kind => kinds.contains kind && inner.wants kind
  | .fanOut sinks, kind => anyWants sinks kind

/-- Whether one of several sinks is interested in a kind of event. -/
def anyWants : List (Sink R) → EventKind → Bool
  | [], _ => false
  | sink :: sinks, kind => sink.wants kind || anyWants sinks kind

end

mutual

def send (event : Event R) : Sink R → Sink R
  | .ignore => .ignore
  | .collect events => .collect (events.push event)
  | .callback events => .callback (events.push event)
  | .channel kinds waiting => .channel kinds (waiting.push event)
  | .filter kinds inner =>
    if kinds.contains event.kind && inner.wants event.kind then .filter kinds (inner.send event)
    else .filter kinds inner
  | .fanOut sinks => .fanOut (sendAll event sinks)

/-- Sends an event into those of several sinks that want it. -/
def sendAll (event : Event R) : List (Sink R) → List (Sink R)
  | [] => []
  | sink :: sinks =>
    (if sink.wants event.kind then sink.send event else sink) :: sendAll event sinks

end

def sendMany (sink : Sink R) (events : List (Event R)) : Sink R :=
  events.foldl (fun sink event => sink.send event) sink

mutual

/-- The collectors and callbacks of a sink, from left to right. -/
def leaves : Sink R → List (Sink R)
  | .ignore => []
  | .collect events => [.collect events]
  | .callback events => [.callback events]
  | .channel _ _ => []
  | .filter _ inner => inner.leaves
  | .fanOut sinks => leavesOfAll sinks

def leavesOfAll : List (Sink R) → List (Sink R)
  | [] => []
  | sink :: sinks => sink.leaves ++ leavesOfAll sinks

end

mutual

/-- Empties the collector that is the leaf with a number. -/
def clear : Sink R → Nat → Sink R
  | .collect events, place => .collect (if place = 0 then #[] else events)
  | .filter kinds inner, place => .filter kinds (inner.clear place)
  | .fanOut sinks, place => .fanOut (clearAll sinks place)
  | sink, _ => sink

/-- Empties the collector that is the leaf with a number, counted through several sinks. -/
def clearAll : List (Sink R) → Nat → List (Sink R)
  | [], _ => []
  | sink :: sinks, place =>
    if place < sink.leaves.length then sink.clear place :: sinks
    else sink :: clearAll sinks (place - sink.leaves.length)

end

def events : Sink R → Array (Event R)
  | .collect events | .callback events | .channel _ events => events
  | _ => #[]

/-- Takes the waiting events out of a channel. -/
def receive : Sink R → Array (Event R) × Sink R
  | .channel kinds waiting => (waiting, .channel kinds #[])
  | sink => (#[], sink)

end Sink

end Espalier
