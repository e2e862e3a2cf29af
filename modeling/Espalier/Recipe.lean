import Espalier.Expansion

/-!
# Recipes

A recipe is a production written down as data: a list of actions that append tagged nodes,
register buds and branch on random shares or on what has grown. `Recipe.production` gives a
recipe its meaning, so a grammar can be read from a file instead of being programmed.

Actions may refer to the node appended last by the same recipe. That memory is threaded through
nested actions, and as long as nothing has been appended it stands for the bud's own node.
-/

namespace Espalier

/-- A node with a tag, the node it hangs from and a value. -/
structure TaggedNode (R : Type) where
  tag : String
  parent : Option NodeId
  value : R
deriving DecidableEq

namespace Recipe

/-- A node an action refers to. -/
inductive Place where
  /-- The node the bud hangs from. -/
  | here
  /-- The node this recipe appended last, or else the node the bud hangs from. -/
  | last
  /-- The last node of the growth. -/
  | latest
  /-- A node by number, whether it exists or not. -/
  | number (id : NodeId)
deriving DecidableEq, Repr

/-- How the value of a new node is found. -/
inductive Value (R : Type) where
  | given (x : R)
  /-- One more than the value of the node the bud hangs from, which counts as zero if there is
  no such node. -/
  | depth
  /-- A random share of the unit interval. -/
  | share
  | between (low high : R)
  /-- The upper 24 bits of a random word. -/
  | word
  | particle
  | size

/-- A question about a random share or about what has grown. -/
inductive Test (R : Type) where
  | share (bound : R)
  /-- Whether the bud's node exists and has a tag. -/
  | tag (tag : String)
  /-- Whether the bud's node exists and its value is below a bound. -/
  | value (bound : R)
  | size (bound : Nat)

/-- One thing a recipe does. -/
inductive Action (R : Type) where
  /-- Finds a value and appends a node with it. -/
  | push (tag : String) (value : Value R) (parent : Place)
  | bud (rule : String) (place : Place)
  | branch (test : Test R) (yes no : List (Action R))
  | times (count : Nat) (body : List (Action R))

variable {R : Type}

/-- The number of the node a place stands for. -/
def Place.resolve (here : NodeId) (last : Option NodeId) : Place → Expansion (TaggedNode R) NodeId
  | .here => pure here
  | .last => pure (last.getD here)
  | .latest => do return (← Expansion.view).growth.latestId
  | .number id => pure id

def Value.evaluate [Arithmetic R] (here : NodeId) : Value R → Expansion (TaggedNode R) R
  | .given x => pure x
  | .depth => do return ((← Expansion.node? here).map (·.value)).getD 0 + 1
  | .share => .share R
  | .between low high => .between low high
  | .word => do return (((← Expansion.word) >>> 40).toNat : R)
  | .particle => do return ((← Expansion.view).particle : R)
  | .size => do return ((← Expansion.view).growth.size : R)

def Test.holds [Arithmetic R] (here : NodeId) : Test R → Expansion (TaggedNode R) Bool
  | .share bound => do return decide ((← Expansion.share R) < bound)
  | .tag wanted => do return (← Expansion.node? here).any (·.tag == wanted)
  | .value bound => do return (← Expansion.node? here).any fun node => decide (node.value < bound)
  | .size bound => do return decide ((← Expansion.view).growth.size < bound)

/-- Does the same a number of times, each time with what the time before left. -/
def iterate {N α : Type} (act : α → Expansion N α) : (count : Nat) → α → Expansion N α
  | 0, a => pure a
  | count + 1, a => do iterate act count (← act a)

mutual

/-- Carries out an action; the argument and the answer are the node appended last. -/
def Action.run [Arithmetic R] (here : NodeId) :
    Action R → Option NodeId → Expansion (TaggedNode R) (Option NodeId)
  | .push tag value parent, last => do
    let value ← value.evaluate here
    let parent ← parent.resolve here last
    return some (← Expansion.append { tag, parent := some parent, value })
  | .bud rule place, last => do
    Expansion.addBud rule (← place.resolve here last)
    return last
  | .branch test yes no, last => do
    if ← test.holds here then runAll here yes last else runAll here no last
  | .times count body, last => iterate (runAll here body) count last

def runAll [Arithmetic R] (here : NodeId) :
    List (Action R) → Option NodeId → Expansion (TaggedNode R) (Option NodeId)
  | [], last => pure last
  | action :: actions, last => do runAll here actions (← action.run here last)

end

def production [Arithmetic R] (actions : List (Action R)) : Production (TaggedNode R) :=
  fun here => do let _ ← runAll here actions none

end Recipe

end Espalier
