import Espalier.Particle
import Espalier.Tree.Segment
import Mathlib.Logic.Function.Basic

/-!
# Trees that hang together

A tree is a list of segments, the root first, with a joint for every other one: the place of an
earlier segment that it hangs off. `HangsTogether` says that each starts where the segment at its
joint ends, and that its part and its depth fit there.

While a tree grows there are buds, and `Tended` is what holds of a tree and its buds: every bud is
at a segment that may carry it, and every branch and every tip has its leaf or the bud of one.

> `Tended.append`: a segment that hangs off another one and brings the buds of its part with it
> leaves a tree tended.

A tended tree is `Whole` when all its leaves have grown.
-/

namespace Espalier.Tree

/-! ## Parts and buds -/

/-- Which parts hang off which. -/
def Part.bears : Part → Part → Bool
  | .root, .trunk | .trunk, .trunk => true
  | .trunk, .branch | .branch, .branch => true
  | .trunk, .tip | .branch, .tip => true
  | .branch, .leaf | .tip, .leaf => true
  | _, _ => false

/-- Whether a part carries a leaf. -/
def Part.leafy : Part → Bool
  | .branch | .tip => true
  | .root | .trunk | .leaf => false

/-- What buds grow into. -/
inductive Kind where
  | trunk
  | branch
  | leaf
deriving DecidableEq

namespace Kind

/-- The rule of the buds of a kind. -/
def name : Kind → String
  | trunk => "trunk"
  | branch => "branch"
  | leaf => "leaf"

def part : Kind → Part
  | trunk => .trunk
  | branch => .branch
  | leaf => .leaf

def phase : Kind → Phase
  | trunk | branch => .skeleton
  | leaf => .detail

def bud (kind : Kind) (node : NodeId) : Bud := ⟨kind.name, node⟩

end Kind

/-- Which buds a part carries. -/
def Part.carries : Part → Kind → Bool
  | .root, .trunk | .trunk, .trunk => true
  | .trunk, .branch | .branch, .branch => true
  | .branch, .leaf | .tip, .leaf => true
  | _, _ => false

/-- What a bud grows into fits where the bud is. -/
theorem Part.bears_of_carries {part : Part} {kind : Kind} (h : part.carries kind = true) :
    part.bears kind.part = true := by
  cases part <;> cases kind <;> first | rfl | exact absurd h Bool.false_ne_true

/-- What may be closed may bear a tip, but for the root. -/
theorem Part.bears_tip {part : Part} {kind : Kind} (h : part.carries kind = true)
    (hphase : kind.phase = .skeleton) (hroot : part ≠ .root) : part.bears .tip = true := by
  cases part <;> cases kind <;> simp_all [carries, bears, Kind.phase]

/-- What is searched for grows from wood. -/
theorem Part.wood_of_carries {part : Part} {kind : Kind} (h : part.carries kind = true)
    (hphase : kind.phase = .skeleton) : part ≠ .tip ∧ part ≠ .leaf := by
  cases part <;> cases kind <;> simp_all [carries, Kind.phase]

/-- The buds that a new segment brings with it. -/
inductive Sprouting : Part → List Kind → Prop where
  | trunk : Sprouting .trunk [.trunk]
  | fork : Sprouting .trunk [.trunk, .branch]
  | ending : Sprouting .trunk [.branch, .branch]
  | branch : Sprouting .branch [.branch, .leaf]
  | split : Sprouting .branch [.branch, .branch, .leaf]
  | tip : Sprouting .tip [.leaf]
  | leaf : Sprouting .leaf []

/-- The buds of a phase that come with the segment at a node. -/
def sprouts (kinds : List Kind) (node : NodeId) (phase : Phase) : List Bud :=
  (kinds.filter fun kind => kind.phase == phase).map (·.bud node)

section Sprouting

variable {part : Part} {kinds : List Kind} (h : Sprouting part kinds)
include h

theorem Sprouting.carries {kind : Kind} (hkind : kind ∈ kinds) : part.carries kind = true := by
  revert kind
  cases h <;> decide

/-- A segment has the bud of a leaf with it exactly if it is to carry one. -/
theorem Sprouting.length_details (node : NodeId) :
    (sprouts kinds node .detail).length = if part.leafy then 1 else 0 := by
  cases h <;> rfl

theorem Sprouting.length_skeleton (node : NodeId) : (sprouts kinds node .skeleton).length ≤ 2 := by
  cases h <;> exact Nat.le_of_ble_eq_true rfl

end Sprouting

theorem node_of_sprouts {kinds : List Kind} {node : NodeId} {phase : Phase} {bud : Bud}
    (h : bud ∈ sprouts kinds node phase) : bud.node = node := by
  obtain ⟨kind, -, rfl⟩ := List.mem_map.mp h
  rfl

/-! ## Joints -/

/-- A segment that starts where another one ends, a step further from the root unless it is a
leaf. -/
structure Joined (parent child : Segment) : Prop where
  start : child.start = parent.stop
  depth : child.depth = if child.part = .leaf then parent.depth else parent.depth + 1

/-- Every segment but the first hangs off the one at its joint. -/
structure HangsTogether (nodes : List Segment) (joint : Nat → Nat) : Prop where
  earlier : ∀ i, 0 < i → i < nodes.length → joint i < i
  joined : ∀ i child, 0 < i → nodes[i]? = some child → ∃ parent,
    nodes[joint i]? = some parent ∧ Joined parent child ∧ parent.part.bears child.part = true

/-- What hangs off something is no root. -/
theorem HangsTogether.part_ne_root {nodes : List Segment} {joint : Nat → Nat}
    (h : HangsTogether nodes joint) {i : Nat} (hpos : 0 < i) {segment : Segment}
    (hi : nodes[i]? = some segment) : segment.part ≠ .root := by
  obtain ⟨parent, -, -, hbears⟩ := h.joined i segment hpos hi
  intro hroot
  rw [hroot] at hbears
  revert hbears
  cases parent.part <;> exact Bool.false_ne_true

/-- How many leaves hang off the segment at a node. -/
def leavesAt (nodes : List Segment) (joint : Nat → Nat) (node : NodeId) : Nat :=
  (List.range nodes.length).countP fun i =>
    decide (joint i = node ∧ nodes[i]?.map (·.part) = some .leaf)

/-- How many segments of a part there are. -/
def number (part : Part) (nodes : List Segment) : Nat :=
  nodes.countP fun segment => decide (segment.part = part)

theorem number_append (part : Part) (nodes : List Segment) (child : Segment) :
    number part (nodes ++ [child]) = number part nodes + if child.part = part then 1 else 0 := by
  unfold number
  rw [List.countP_append, List.countP_singleton]
  simp only [decide_eq_true_eq]

section Append

variable {nodes : List Segment} {joint : Nat → Nat} {parent child : Segment} {node : NodeId}

theorem getElem?_append_of_some {i : Nat} {segment : Segment} (h : nodes[i]? = some segment) :
    (nodes ++ [child])[i]? = some segment :=
  (List.getElem?_append_left (List.getElem?_eq_some_iff.mp h).1).trans h

/-- A segment after another one has been appended is that one or was there before. -/
theorem getElem?_append_cases {i : Nat} {segment : Segment}
    (h : (nodes ++ [child])[i]? = some segment) :
    i < nodes.length ∧ nodes[i]? = some segment ∨ i = nodes.length ∧ segment = child := by
  rcases Nat.lt_trichotomy i nodes.length with hlt | rfl | hgt
  · exact .inl ⟨hlt, (List.getElem?_append_left hlt).symm.trans h⟩
  · rw [List.getElem?_concat_length] at h
    exact .inr ⟨rfl, (Option.some.inj h).symm⟩
  · rw [List.getElem?_eq_none (by rw [List.length_append, List.length_singleton]; omega)] at h
    exact nomatch h

theorem HangsTogether.append (h : HangsTogether nodes joint) (hnode : nodes[node]? = some parent)
    (hjoined : Joined parent child) (hbears : parent.part.bears child.part = true) :
    HangsTogether (nodes ++ [child]) (Function.update joint nodes.length node) where
  earlier i hpos hlt := by
    rw [List.length_append, List.length_singleton] at hlt
    by_cases hi : i = nodes.length
    · rw [hi, Function.update_self]
      exact (List.getElem?_eq_some_iff.mp hnode).1
    · rw [Function.update_of_ne hi]
      exact h.earlier i hpos (by omega)
  joined i segment hpos hsegment := by
    rcases getElem?_append_cases hsegment with ⟨hlt, hbefore⟩ | ⟨rfl, rfl⟩
    · rw [Function.update_of_ne (Nat.ne_of_lt hlt)]
      obtain ⟨other, hother, hboth⟩ := h.joined i segment hpos hbefore
      exact ⟨other, getElem?_append_of_some hother, hboth⟩
    · rw [Function.update_self]
      exact ⟨parent, getElem?_append_of_some hnode, hjoined, hbears⟩

/-- A new segment changes the leaves at its joint, and only if it is one. -/
theorem leavesAt_append (nodes : List Segment) (joint : Nat → Nat) (child : Segment)
    (node i : NodeId) : leavesAt (nodes ++ [child]) (Function.update joint nodes.length node) i
      = leavesAt nodes joint i + if node = i ∧ child.part = .leaf then 1 else 0 := by
  have hbefore : (List.range nodes.length).countP (fun k => decide
        (Function.update joint nodes.length node k = i
          ∧ (nodes ++ [child])[k]?.map (·.part) = some .leaf)) = leavesAt nodes joint i := by
    refine List.countP_congr fun k hk => ?_
    have hlt := List.mem_range.mp hk
    rw [Function.update_of_ne (Nat.ne_of_lt hlt), List.getElem?_append_left hlt]
  unfold leavesAt at hbefore ⊢
  rw [List.length_append, List.length_singleton, List.range_succ, List.countP_append, hbefore,
    List.countP_singleton, Function.update_self, List.getElem?_concat_length, Option.map_some]
  simp only [decide_eq_true_eq, Option.some.injEq]

/-- Nothing hangs off a segment that is not there yet. -/
theorem leavesAt_length {place : Point} (h : HangsTogether nodes joint)
    (hroot : nodes[0]? = some (.root place)) : leavesAt nodes joint nodes.length = 0 := by
  refine List.countP_eq_zero.mpr fun i hi => ?_
  have hlt := List.mem_range.mp hi
  rw [decide_eq_true_iff]
  rintro ⟨hjoint, hleaf⟩
  rcases Nat.eq_zero_or_pos i with rfl | hpos
  · rw [hroot] at hleaf
    exact absurd hleaf (by simp [Segment.root])
  · have hearlier := h.earlier i hpos hlt
    omega

end Append

/-! ## Trees with buds -/

/-- A bud for a phase, at a segment that carries such buds. -/
inductive Pending (nodes : List Segment) (phase : Phase) : Bud → Prop where
  | mk {kind : Kind} {node : NodeId} {parent : Segment} (due : kind.phase = phase)
    (there : nodes[node]? = some parent) (carried : parent.part.carries kind = true) :
    Pending nodes phase (kind.bud node)

theorem Pending.node_lt {nodes : List Segment} {phase : Phase} {bud : Bud}
    (h : Pending nodes phase bud) : bud.node < nodes.length := by
  cases h with
  | mk _ there => exact (List.getElem?_eq_some_iff.mp there).1

theorem Pending.append {nodes : List Segment} {phase : Phase} {bud : Bud}
    (h : Pending nodes phase bud) (child : Segment) : Pending (nodes ++ [child]) phase bud := by
  cases h with
  | mk due there carried => exact .mk due (getElem?_append_of_some there) carried

/-- The buds a new segment brings with it are at that segment. -/
theorem Sprouting.pending {child : Segment} {kinds : List Kind} (h : Sprouting child.part kinds)
    (nodes : List Segment) {phase : Phase} {bud : Bud}
    (hbud : bud ∈ sprouts kinds nodes.length phase) : Pending (nodes ++ [child]) phase bud := by
  obtain ⟨kind, hkind, rfl⟩ := List.mem_map.mp hbud
  obtain ⟨hmem, hphase⟩ := List.mem_filter.mp hkind
  exact .mk (eq_of_beq hphase) List.getElem?_concat_length (h.carries hmem)

/-- A tree from a root at a place, with the buds of both phases: it hangs together as far as it has
grown, and all leaves that are still missing have their buds. -/
structure Tended (place : Point) (nodes : List Segment) (skeleton details : List Bud)
    (joint : Nat → Nat) : Prop where
  root : nodes[0]? = some (.root place)
  hangs : HangsTogether nodes joint
  growing : ∀ bud ∈ skeleton, Pending nodes .skeleton bud
  missing : ∀ bud ∈ details, Pending nodes .detail bud
  /-- Every branch and every tip has a leaf or the bud of one, and not both. -/
  owed : ∀ i segment, nodes[i]? = some segment → segment.part.leafy = true →
    leavesAt nodes joint i + details.countP (fun bud => decide (bud.node = i)) = 1
  balance : number .leaf nodes + details.length = number .branch nodes + number .tip nodes

section Tended

variable {place : Point} {nodes : List Segment} {skeleton details : List Bud} {joint : Nat → Nat}

/-- A tree is tended whatever order its buds are in, and also without those of the skeleton. -/
theorem Tended.of_buds {skeleton' details' : List Bud}
    (h : Tended place nodes skeleton details joint) (hskeleton : skeleton' ⊆ skeleton)
    (hdetails : details.Perm details') :
    Tended place nodes skeleton' details' joint where
  root := h.root
  hangs := h.hangs
  growing bud hbud := h.growing bud (hskeleton hbud)
  missing bud hbud := h.missing bud (hdetails.mem_iff.mpr hbud)
  owed i segment hi hleafy := by
    rw [← hdetails.countP_eq]
    exact h.owed i segment hi hleafy
  balance := hdetails.length_eq ▸ h.balance

/-- The buds that come with a segment are all at one node. -/
theorem countP_sprouts (kinds : List Kind) (node i : NodeId) (phase : Phase) :
    (sprouts kinds node phase).countP (fun bud => decide (bud.node = i))
      = if node = i then (sprouts kinds node phase).length else 0 := by
  by_cases hi : node = i
  · rw [if_pos hi]
    exact List.countP_eq_length.mpr fun bud hbud => decide_eq_true ((node_of_sprouts hbud).trans hi)
  · rw [if_neg hi]
    refine List.countP_eq_zero.mpr fun bud hbud hnode => hi ?_
    exact (node_of_sprouts hbud).symm.trans (of_decide_eq_true hnode)

/-- A segment with its buds leaves a tree tended. A leaf takes the place of its bud. -/
theorem Tended.append {taken : List Bud} {parent child : Segment} {node : NodeId}
    {kinds : List Kind} (h : Tended place nodes skeleton (taken ++ details) joint)
    (hnode : nodes[node]? = some parent) (hjoined : Joined parent child)
    (hbears : parent.part.bears child.part = true) (hkinds : Sprouting child.part kinds)
    (htaken : taken = if child.part = .leaf then [Kind.leaf.bud node] else []) :
    Tended place (nodes ++ [child]) (skeleton ++ sprouts kinds nodes.length .skeleton)
      (details ++ sprouts kinds nodes.length .detail)
      (Function.update joint nodes.length node) := by
  have hlt : node < nodes.length := (List.getElem?_eq_some_iff.mp hnode).1
  constructor
  case root => exact getElem?_append_of_some h.root
  case hangs => exact h.hangs.append hnode hjoined hbears
  case growing =>
    intro bud hbud
    rcases List.mem_append.mp hbud with hold | hnew
    · exact (h.growing bud hold).append child
    · exact hkinds.pending nodes hnew
  case missing =>
    intro bud hbud
    rcases List.mem_append.mp hbud with hold | hnew
    · exact (h.missing bud (List.mem_append_right _ hold)).append child
    · exact hkinds.pending nodes hnew
  case owed =>
    intro i segment hi hleafy
    rw [leavesAt_append, List.countP_append, countP_sprouts, hkinds.length_details]
    rcases getElem?_append_cases hi with ⟨hold, hbefore⟩ | ⟨rfl, rfl⟩
    · -- At an old segment a leaf may have taken the place of its bud.
      have howed := h.owed i segment hbefore hleafy
      have htook : taken.countP (fun bud => decide (bud.node = i))
          = if node = i ∧ child.part = .leaf then 1 else 0 := by
        rw [htaken]
        by_cases hleaf : child.part = .leaf
        · simp [hleaf, Kind.bud, List.countP_singleton]
        · simp [hleaf]
      rw [List.countP_append, htook] at howed
      rw [if_neg (show ¬ nodes.length = i by omega)]
      omega
    · -- The new segment has nothing yet but the bud it brings.
      have hnone : details.countP (fun bud => decide (bud.node = nodes.length)) = 0 := by
        refine List.countP_eq_zero.mpr fun bud hbud => ?_
        have hbelow := (h.missing bud (List.mem_append_right _ hbud)).node_lt
        rw [decide_eq_true_iff]
        exact Nat.ne_of_lt hbelow
      rw [leavesAt_length h.hangs h.root, if_neg fun hboth => Nat.ne_of_lt hlt hboth.1, hnone,
        if_pos rfl, if_pos hleafy]
  case balance =>
    have hbalance := h.balance
    have htook : taken.length = if child.part = .leaf then 1 else 0 := by
      rw [htaken]
      split <;> rfl
    rw [List.length_append, htook] at hbalance
    rw [number_append, number_append, number_append, List.length_append, hkinds.length_details]
    revert hbalance
    cases child.part <;> simp only [Part.leafy, reduceCtorEq, if_true, if_false] <;> omega

end Tended

/-! ## How far from the root -/

/-- Wood is at most `d` steps from the root, and everything else one more. -/
structure Within (d : Nat) (nodes : List Segment) : Prop where
  all : ∀ segment ∈ nodes, segment.depth ≤ d + 1
  wood : ∀ segment ∈ nodes, segment.part ≠ .tip → segment.part ≠ .leaf → segment.depth ≤ d

theorem Within.mono {d e : Nat} {nodes : List Segment} (h : Within d nodes) (hle : d ≤ e) :
    Within e nodes where
  all segment hmem := Nat.le_trans (h.all segment hmem) (Nat.succ_le_succ hle)
  wood segment hmem htip hleaf := Nat.le_trans (h.wood segment hmem htip hleaf) hle

theorem Within.append {d : Nat} {nodes : List Segment} {child : Segment} (h : Within d nodes)
    (hall : child.depth ≤ d + 1)
    (hwood : child.part ≠ .tip → child.part ≠ .leaf → child.depth ≤ d) :
    Within d (nodes ++ [child]) where
  all segment hmem := by
    rcases List.mem_append.mp hmem with hold | hnew
    · exact h.all segment hold
    · exact List.mem_singleton.mp hnew ▸ hall
  wood segment hmem := by
    rcases List.mem_append.mp hmem with hold | hnew
    · exact h.wood segment hold
    · exact List.mem_singleton.mp hnew ▸ hwood

/-! ## Whole trees -/

/-- A tree from a root at a place that hangs together and has all its leaves. -/
structure Whole (place : Point) (nodes : List Segment) (joint : Nat → Nat) : Prop where
  root : nodes[0]? = some (.root place)
  hangs : HangsTogether nodes joint
  /-- Every branch and every tip has exactly one leaf. -/
  leaves : ∀ i segment, nodes[i]? = some segment →
    segment.part = .branch ∨ segment.part = .tip → leavesAt nodes joint i = 1
  balance : number .leaf nodes = number .branch nodes + number .tip nodes

/-- A tended tree is whole when there are no details left to grow. -/
theorem Tended.whole {place : Point} {nodes : List Segment} {skeleton : List Bud}
    {joint : Nat → Nat} (h : Tended place nodes skeleton [] joint) : Whole place nodes joint where
  root := h.root
  hangs := h.hangs
  leaves i segment hi hpart :=
    h.owed i segment hi (by rcases hpart with hpart | hpart <;> rw [hpart] <;> rfl)
  balance := h.balance

end Espalier.Tree
