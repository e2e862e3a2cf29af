/-!
# What has grown

A `Growth` is an append-only sequence of nodes. Forking it gives two sequences with the same
nodes so far, which then grow apart. The nodes present at the last fork are frozen: they are
history the sequence may share with others, and `appendedSince` reports only nodes that came
later. Sequences that descend from one another by forks carry the same mark, which is how
`sharesHistory` recognises relatives.
-/

namespace Espalier

/-- The place of a node in its growth, counted from the root, which is node zero. -/
abbrev NodeId := Nat

def NodeId.text (id : NodeId) : String := "#" ++ toString id

/-- The mark shared by growths with a common frozen history. -/
abbrev HistoryMark := Nat

/-- An append-only sequence of nodes. -/
structure Growth (N : Type) where
  /-- All nodes, the root first. -/
  nodes : Array N
  frozen : Nat
  /-- The mark of the frozen history, once there is any. -/
  mark : Option HistoryMark

namespace Growth

variable {N : Type}

def ofRoot (root : N) : Growth N := { nodes := #[root], frozen := 0, mark := none }

def size (g : Growth N) : Nat := g.nodes.size

/-- The node at a place, if there is one. -/
def get? (g : Growth N) (id : NodeId) : Option N := g.nodes[id]?

def toList (g : Growth N) : List N := g.nodes.toList

def latest? (g : Growth N) : Option N := g.nodes.back?

def latestId (g : Growth N) : NodeId := g.size - 1

/-- Appends a node; its place is the size before. -/
def push (g : Growth N) (node : N) : Growth N := { g with nodes := g.nodes.push node }

/-- Freezes all nodes. A growth without history starts one with the mark `fresh`. -/
def freeze (g : Growth N) (fresh : HistoryMark) : Growth N :=
  if g.frozen < g.size then { g with frozen := g.size, mark := g.mark <|> some fresh } else g

/-- The growth after a fork, and the fork. -/
def fork (g : Growth N) (fresh : HistoryMark) : Growth N × Growth N :=
  (g.freeze fresh, g.freeze fresh)

/-- The nodes from a place on, provided that none of them is frozen. -/
def appendedSince (g : Growth N) (start : NodeId) : Option (Array N) :=
  if start < g.frozen ∨ g.size < start then none else some (g.nodes.extract start g.size)

/-- Whether two growths have frozen history in common. -/
def sharesHistory (g h : Growth N) : Bool := g.mark.isSome && g.mark == h.mark

/-! ## As a list of nodes -/

@[simp] theorem toList_ofRoot (root : N) : (ofRoot root).toList = [root] := rfl

@[simp] theorem toList_push (g : Growth N) (node : N) :
    (g.push node).toList = g.toList ++ [node] := by
  simp [push, toList]

@[simp] theorem length_toList (g : Growth N) : g.toList.length = g.size := rfl

theorem get?_eq_getElem? (g : Growth N) (id : NodeId) : g.get? id = g.toList[id]? := by
  simp [get?, toList]

@[simp] theorem toList_freeze (g : Growth N) (fresh : HistoryMark) :
    (g.freeze fresh).toList = g.toList := by
  unfold freeze
  split <;> rfl

/-- There is nothing left to freeze a second time. -/
theorem freeze_freeze (g : Growth N) (fresh other : HistoryMark) :
    (g.freeze fresh).freeze other = g.freeze fresh := by
  by_cases h : g.frozen < g.size
  · have hfreeze : g.freeze fresh = { g with frozen := g.size, mark := g.mark <|> some fresh } :=
      if_pos h
    rw [hfreeze]
    exact if_neg (Nat.lt_irrefl _)
  · have hfreeze : g.freeze fresh = g := if_neg h
    rw [hfreeze]
    exact if_neg h

/-- No more is frozen than there is. -/
theorem frozen_freeze {g : Growth N} (fresh : HistoryMark) (h : g.frozen ≤ g.size) :
    (g.freeze fresh).frozen ≤ (g.freeze fresh).size := by
  unfold freeze
  split
  · exact Nat.le_refl _
  · exact h

/-- What is reported from a place on is the end of the list from there. -/
theorem toList_appendedSince {g : Growth N} {start : NodeId} {nodes : Array N}
    (h : g.appendedSince start = some nodes) : nodes.toList = g.toList.drop start := by
  unfold appendedSince at h
  split at h
  · exact absurd h (by simp)
  · rw [← Option.some.inj h, Array.toList_extract, List.extract]
    exact List.take_of_length_le (by simp [size])

end Growth

end Espalier
