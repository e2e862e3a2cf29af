import Espalier.Growth
import Std.Data.ExtTreeMap

/-!
# Growths that share their history

A `Store` keeps many growths by name without copying what they have in common. The frozen part
of a growth is a chain of segments, each of which continues its parent; only the tail is the
growth's own. Every segment counts its holders: the growths whose chain it heads and the
segments that continue it.

Freezing a tail extends the head segment when nobody else holds it and otherwise adds a segment.
A fork then folds into the head every ancestor that only the chain itself still holds, so a chain
gets longer only where histories part. A segment without holders is removed, and its hold on its
parent with it. `Store.toList` is the plain sequence a growth stands for.
-/

namespace Espalier

/-- The number of a segment. A segment is younger than its parent, so its number is greater. -/
abbrev SegmentId := Nat

/-- A run of frozen nodes. -/
structure Segment (N : Type) where
  /-- The segment this one continues. -/
  parent : Option SegmentId
  /-- The place of its first node. -/
  start : Nat
  nodes : Array N
  /-- How many growths and segments refer to it. -/
  holders : Nat

/-- The segments of a store. -/
abbrev Segments (N : Type) := Std.ExtTreeMap SegmentId (Segment N)

namespace Segments

variable {N : Type}

/-- A segment and its ancestors, the youngest first. -/
def chain (s : Segments N) (id : SegmentId) : List (Segment N) :=
  match s[id]? with
  | none => []
  | some segment =>
    match segment.parent with
    | none => [segment]
    | some parent => if parent < id then segment :: chain s parent else [segment]
termination_by id

/-- The numbers of a segment and its ancestors, the youngest first. -/
def lineage (s : Segments N) (id : SegmentId) : List SegmentId :=
  match s[id]? with
  | none => []
  | some segment =>
    match segment.parent with
    | none => [id]
    | some parent => if parent < id then id :: lineage s parent else [id]
termination_by id

/-- The node at a place of the chain that a segment heads. -/
def get? (s : Segments N) (id : SegmentId) (place : Nat) : Option N :=
  match s[id]? with
  | none => none
  | some segment =>
    if segment.start ≤ place then segment.nodes[place - segment.start]? else
    match segment.parent with
    | none => none
    | some parent => if parent < id then get? s parent place else none
termination_by id

def hold (s : Segments N) (id : SegmentId) : Segments N :=
  match s[id]? with
  | none => s
  | some segment => s.insert id { segment with holders := segment.holders + 1 }

/-- Takes a holder away from a segment. The last one takes the segment along, and with it a
holder of its parent. -/
def release (s : Segments N) (id : SegmentId) : Segments N :=
  match s[id]? with
  | none => s
  | some segment =>
    if 1 < segment.holders then s.insert id { segment with holders := segment.holders - 1 } else
    match segment.parent with
    | none => s.erase id
    | some parent => if parent < id then release (s.erase id) parent else s.erase id
termination_by id

/-- Folds into a segment its parent, the number of which is `parent`, as long as nobody else
holds it, and goes on with the next ancestor. -/
def absorb (s : Segments N) (segment : Segment N) (parent : SegmentId) : Segments N × Segment N :=
  match s[parent]? with
  | none => (s, segment)
  | some older =>
    if older.holders ≠ 1 then (s, segment) else
    let s := s.erase parent
    let merged := { segment with
      parent := older.parent, start := older.start, nodes := older.nodes ++ segment.nodes }
    match older.parent with
    | none => (s, merged)
    | some next => if next < parent then absorb s merged next else (s, merged)
termination_by parent

/-- Folds into a segment that has only one holder every ancestor that only the chain holds. -/
def compact (s : Segments N) (id : SegmentId) : Segments N :=
  match s[id]? with
  | none => s
  | some segment =>
    if segment.holders ≠ 1 then s else
    match segment.parent with
    | none => s
    | some parent =>
      let (s, merged) := absorb s segment parent
      s.insert id merged

end Segments

/-- A growth in a store: the head of its frozen chain, how many nodes that has, and the nodes
that came later. -/
structure Branch (N : Type) where
  head : Option SegmentId
  frozen : Nat
  tail : Array N

namespace Branch

variable {N : Type}

def size (b : Branch N) : Nat := b.frozen + b.tail.size

end Branch

/-- Growths by name, with the segments they share. -/
structure Store (N : Type) where
  segments : Segments N
  branches : Std.ExtTreeMap String (Branch N)
  /-- The number the next segment gets. -/
  fresh : SegmentId

namespace Store

variable {N : Type}

def empty : Store N := { segments := ∅, branches := ∅, fresh := 0 }

def drop (s : Store N) (name : String) : Store N :=
  match s.branches[name]? with
  | none => s
  | some branch =>
    { s with
      segments := match branch.head with
        | none => s.segments
        | some head => s.segments.release head
      branches := s.branches.erase name }

/-- Lets a name stand for a branch, in place of what it stood for. -/
def put (s : Store N) (name : String) (branch : Branch N) : Store N :=
  let s := s.drop name
  { s with branches := s.branches.insert name branch }

/-- Lets a name stand for a new growth that is only a root. -/
def plant (s : Store N) (name : String) (root : N) : Store N :=
  s.put name { head := none, frozen := 0, tail := #[root] }

def push (s : Store N) (name : String) (node : N) : Store N :=
  { s with branches := s.branches.modify name fun b => { b with tail := b.tail.push node } }

/-- Starts a segment with the tail of a branch, which continues the branch's head. The branch's
hold on its head passes to the new segment. -/
def startSegment (s : Store N) (branch : Branch N) : Store N × Branch N :=
  ({ s with
      segments := s.segments.insert s.fresh
        { parent := branch.head, start := branch.frozen, nodes := branch.tail, holders := 1 }
      fresh := s.fresh + 1 },
    { head := some s.fresh, frozen := branch.size, tail := #[] })

def freeze (s : Store N) (branch : Branch N) : Store N × Branch N :=
  if branch.tail.isEmpty then (s, branch) else
  match branch.head with
  | none => s.startSegment branch
  | some head =>
    match s.segments[head]? with
    | none => s.startSegment branch
    | some segment =>
      if segment.holders ≠ 1 then s.startSegment branch else
      ({ s with
          segments := s.segments.modify head fun segment =>
            { segment with nodes := segment.nodes ++ branch.tail } },
        { head := some head, frozen := branch.size, tail := #[] })

/-- Freezes a growth and lets another name stand for a fork of it. -/
def fork (s : Store N) (name copy : String) : Store N :=
  match s.branches[name]? with
  | none => s
  | some branch =>
    let (s, branch) := s.freeze branch
    let segments := match branch.head with
      | none => s.segments
      | some head => (s.segments.compact head).hold head
    { s with segments, branches := s.branches.insert name branch }.put copy
      { branch with tail := #[] }

/-- Lets another name stand for a copy of a growth, the tail included. -/
def clone (s : Store N) (name copy : String) : Store N :=
  match s.branches[name]? with
  | none => s
  | some branch =>
    let segments := match branch.head with
      | none => s.segments
      | some head => s.segments.hold head
    { s with segments }.put copy branch

/-- Lets a growth start anew from a root. -/
def reset (s : Store N) (name : String) (root : N) : Store N :=
  if name ∈ s.branches then s.plant name root else s

def count (s : Store N) : Nat := s.branches.size

def size (s : Store N) (name : String) : Nat := (s.branches[name]?.map Branch.size).getD 0

/-- The node at a place of a growth. -/
def get? (s : Store N) (name : String) (id : NodeId) : Option N :=
  match s.branches[name]? with
  | none => none
  | some branch =>
    if branch.frozen ≤ id then branch.tail[id - branch.frozen]? else
    match branch.head with
    | none => none
    | some head => s.segments.get? head id

def branchNodes (s : Store N) (branch : Branch N) : List N :=
  let frozen := match branch.head with
    | none => []
    | some head => s.segments.chain head
  (frozen.reverse.map (·.nodes.toList)).flatten ++ branch.tail.toList

/-- The plain sequence of nodes a name stands for. -/
def toList (s : Store N) (name : String) : List N :=
  match s.branches[name]? with
  | none => []
  | some branch => s.branchNodes branch

def isEmpty (s : Store N) (name : String) : Bool := s.size name == 0

def root? (s : Store N) (name : String) : Option N := s.get? name 0

def latestId? (s : Store N) (name : String) : Option NodeId :=
  if s.size name = 0 then none else some (s.size name - 1)

def latest? (s : Store N) (name : String) : Option N :=
  match s.size name with
  | 0 => none
  | last + 1 => s.get? name last

/-- The nodes of a growth with their places. -/
def entries (s : Store N) (name : String) : List (NodeId × N) :=
  (s.toList name).zipIdx.map fun (node, id) => (id, node)

/-- Appends a node to a growth and tells its place. -/
def append (s : Store N) (name : String) (node : N) : Option NodeId × Store N :=
  let s := s.push name node
  (s.latestId? name, s)

/-- The nodes from a place on, provided that all of them are in the tail. -/
def appendedSince (s : Store N) (name : String) (start : NodeId) : Option (Array N) :=
  match s.branches[name]? with
  | none => none
  | some branch =>
    if start < branch.frozen ∨ branch.size < start then none
    else some (branch.tail.extract (start - branch.frozen) branch.tail.size)

/-- The numbers of the segments in the frozen chain of a growth. -/
def lineage (s : Store N) (name : String) : List SegmentId :=
  match s.branches[name]?.bind (·.head) with
  | none => []
  | some head => s.segments.lineage head

/-- Whether two growths have a segment in common. -/
def sharesHistory (s : Store N) (a b : String) : Bool :=
  let other := s.lineage b
  (s.lineage a).any fun id => other.contains id

/-- How many segments the frozen chain of a growth has. -/
def depth (s : Store N) (name : String) : Nat := (s.lineage name).length

end Store

end Espalier
