import Espalier.Growth
import Espalier.Random

/-!
# Production bodies

A production expands one bud of a particle. All it can do is look at what has grown, append
nodes, register further buds and draw random words; `Expansion` is the tree of those requests,
with a branch for every answer. Since nothing else can be asked for, whatever holds of every
`Expansion` holds of every production: nodes are only ever appended, and buds are only ever
registered at the end of a queue.

`Expansion` is a monad, so productions are written as programs, and a lawful one, so programs may
be taken apart at any request.
-/

namespace Espalier

/-- The number of a particle. -/
abbrev ParticleId := Nat

def ParticleId.text (id : ParticleId) : String := "p" ++ toString id

/-- A pending expansion: the rule to expand and the node it hangs from. -/
structure Bud where
  rule : String
  node : NodeId
deriving DecidableEq, Repr

/-- What a production sees of the particle it expands. -/
structure View (N : Type) where
  particle : ParticleId
  growth : Growth N

/-- A program over the requests a production can make. -/
inductive Expansion (N : Type) (α : Type) : Type where
  | done (result : α)
  | look (next : View N → Expansion N α)
  /-- Appends a node; the answer is its place. -/
  | push (node : N) (next : NodeId → Expansion N α)
  | sprout (bud : Bud) (next : Expansion N α)
  | draw (next : UInt64 → Expansion N α)

namespace Expansion

variable {N α β : Type}

def bind : Expansion N α → (α → Expansion N β) → Expansion N β
  | done result, f => f result
  | look next, f => look fun view => (next view).bind f
  | push node next, f => push node fun id => (next id).bind f
  | sprout bud next, f => sprout bud (next.bind f)
  | draw next, f => draw fun word => (next word).bind f

instance : Monad (Expansion N) where
  pure := done
  bind := bind

/-- Doing nothing more after a program changes nothing. -/
theorem bind_done (x : Expansion N α) : x.bind done = x := by
  induction x with
  | done _ => rfl
  | look _ ih => exact congrArg look (funext ih)
  | push node _ ih => exact congrArg (push node) (funext ih)
  | sprout bud _ ih => exact congrArg (sprout bud) ih
  | draw _ ih => exact congrArg draw (funext ih)

theorem bind_assoc {γ : Type} (x : Expansion N α) (f : α → Expansion N β)
    (g : β → Expansion N γ) : (x.bind f).bind g = x.bind fun a => (f a).bind g := by
  induction x with
  | done _ => rfl
  | look _ ih => exact congrArg look (funext ih)
  | push node _ ih => exact congrArg (push node) (funext ih)
  | sprout bud _ ih => exact congrArg (sprout bud) ih
  | draw _ ih => exact congrArg draw (funext ih)

instance : LawfulMonad (Expansion N) :=
  LawfulMonad.mk' _ bind_done (fun _ _ => rfl) bind_assoc

def view : Expansion N (View N) := look done

/-- The node at a place, if there is one. -/
def node? (id : NodeId) : Expansion N (Option N) := look fun view => done (view.growth.get? id)

def append (node : N) : Expansion N NodeId := push node done

/-- Registers a bud of a rule at a node. -/
def addBud (rule : String) (node : NodeId) : Expansion N Unit := sprout ⟨rule, node⟩ (done ())

def word : Expansion N UInt64 := draw done

def share (R : Type) [Arithmetic R] : Expansion N R := draw fun word => done (unitShare word)

/-- Draws a number between two others; the upper one is not reached. -/
def between {R : Type} [Arithmetic R] (low high : R) : Expansion N R :=
  draw fun word => done (low + (high - low) * unitShare word)

end Expansion

/-- A production: for the node a bud hangs from, what to do there. -/
abbrev Production (N : Type) := NodeId → Expansion N Unit

def Production.absent {N : Type} : Production N := fun _ => .done ()

end Espalier
