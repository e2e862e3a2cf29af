import Espalier.Host.Bus

/-!
# Setting up a host

A host is set up by adding a plugin for every type of node that is to be grown there. The first
one also brings the parts that all of them share: a bus, the message queue its events are drained
into, the observer that cancels jobs and the loader of settings files. Whether a plugin is the
first one is told by the presence of a bus.
-/

namespace Espalier

/-- The number of a type of nodes. -/
abbrev NodeType := Nat

/-- What has been registered so far: the bus, and how often each shared part was. -/
structure Setup (R : Type) where
  bus : Option (Bus R)
  /-- The types of nodes with a plugin, in the order the plugins were added. -/
  nodeTypes : List NodeType
  messageQueues : Nat
  drains : Nat
  cancelObservers : Nat
  settingsLoaders : Nat

namespace Setup

variable {R : Type}

def empty : Setup R :=
  { bus := none, nodeTypes := [], messageQueues := 0, drains := 0, cancelObservers := 0,
    settingsLoaders := 0 }

/-- Registers the shared parts and a bus, unless there is a bus already. -/
def share (s : Setup R) : Setup R :=
  match s.bus with
  | some _ => s
  | none =>
    { s with
      bus := some .standard
      messageQueues := s.messageQueues + 1
      drains := s.drains + 1
      cancelObservers := s.cancelObservers + 1
      settingsLoaders := s.settingsLoaders + 1 }

/-- Adds the plugin of a type of nodes. -/
def addPlugin (s : Setup R) (nodeType : NodeType) : Setup R :=
  let s := s.share
  { s with nodeTypes := s.nodeTypes ++ [nodeType] }

/-- Puts a bus in place of the one there was. -/
def insertBus (s : Setup R) (bus : Bus R) : Setup R := { s with bus := some bus }

end Setup

end Espalier
