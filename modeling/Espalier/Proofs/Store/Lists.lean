import Espalier.Proofs.Store.Names

/-!
# Stores as plain lists

A store shares segments and folds them together, and nobody can tell: every growth in it is the
plain list that the same operations make when a fork and a clone copy the whole list.

Each operation keeps a store sound and does to its lists what its plain counterpart does
(`Sound.fork`, `Sound.clone`, `Sound.push`, `Sound.reset`, and from these `Sound.run`).
`run_as_lists` is the result for every sequence of operations: what can be observed of a growth
(`AsList`) is that of its list, and no operation changes the list of a growth but its target.
-/

namespace Espalier.Store

open Segments

variable {N : Type} {s : Store N} {name : String} {branch : Branch N}

/-! ## Operations and what they do to plain lists -/

/-- An operation on a store. -/
inductive Op (N : Type) where
  | plant (name : String) (root : N)
  | push (name : String) (node : N)
  | fork (name copy : String)
  | clone (name copy : String)
  | reset (name : String) (root : N)
  | drop (name : String)

namespace Op

/-- The operation on a store. -/
def run (s : Store N) : Op N → Store N
  | plant name root => s.plant name root
  | push name node => s.push name node
  | fork name copy => s.fork name copy
  | clone name copy => s.clone name copy
  | reset name root => s.reset name root
  | drop name => s.drop name

/-- The operation on lists by name, where a fork and a clone copy the whole list. -/
def plain (lists : String → Option (List N)) : Op N → String → Option (List N)
  | plant name root => assign lists name (some [root])
  | push name node =>
    match lists name with
    | none => lists
    | some nodes => assign lists name (some (nodes ++ [node]))
  | fork name copy | clone name copy =>
    match lists name with
    | none => lists
    | some nodes => assign lists copy (some nodes)
  | reset name root =>
    match lists name with
    | none => lists
    | some _ => assign lists name (some [root])
  | drop name => assign lists name none

/-- The growth an operation makes, changes or removes. A fork and a clone make their copy. -/
def target : Op N → String
  | plant name _ | push name _ | reset name _ | drop name => name
  | fork _ copy | clone _ copy => copy

end Op

/-- Forking copies a list. -/
theorem Sound.fork (hs : s.Sound none) (h : s.branches[name]? = some branch) (copy : String) :
    (s.fork name copy).Sound none ∧ (s.fork name copy).view = assign s.view copy (s.view name) := by
  have hseg := hs.segments
  rw [headCount_of_there h, withHold_none] at hseg
  have hsettled := settled_freeze hseg (hs.frozen name branch h)
  unfold Store.fork
  rw [h]
  dsimp only
  obtain ⟨t, ht⟩ : ∃ t : Store N, (s.freeze branch).1 = t := ⟨_, rfl⟩
  obtain ⟨frozen, hfrozen⟩ : ∃ frozen : Branch N, (s.freeze branch).2 = frozen := ⟨_, rfl⟩
  rw [ht, hfrozen] at hsettled ⊢
  obtain ⟨hheld, hkept⟩ := hsettled.segments.compact_hold_head
  have hown := hheld.upTo_kept hkept
    fun (id : SegmentId) (hid : frozen.head = some id) => withHold_pos hid
  have htail : ({ frozen with tail := #[] } : Branch N) = frozen := by
    rw [← hsettled.tail]
  rw [htail, hsettled.branches]
  refine hs.share hheld ?_ ?_ (fun head hroot => ?_) copy
  · rw [hown]
    exact hsettled.frozen
  · rw [hown, hsettled.nodes, hsettled.tail, view_of_there h, List.append_nil]
  · rw [hheld.upTo_kept hkept fun id hid => Nat.lt_of_lt_of_le (hroot id hid)
      (Nat.le_trans (le_withHold _ _ _) (le_withHold _ _ _))]
    exact hsettled.others head hroot

/-- Cloning copies a list. -/
theorem Sound.clone (hs : s.Sound none) (h : s.branches[name]? = some branch) (copy : String) :
    (s.clone name copy).Sound none ∧
      (s.clone name copy).view = assign s.view copy (s.view name) := by
  have hseg := hs.segments
  rw [headCount_of_there h, withHold_none] at hseg
  obtain ⟨hheld, hkept⟩ := hseg.hold_head
  have hown := hheld.upTo_kept hkept
    fun (id : SegmentId) (hid : branch.head = some id) => withHold_pos hid
  have hsame : s.branches = s.branches.insert name branch := (insert_eq_self h).symm
  unfold Store.clone
  rw [h]
  dsimp only
  rw [hsame]
  refine hs.share hheld ?_ ?_ (fun head hroot => ?_) copy
  · rw [hown]
    exact hs.frozen name branch h
  · rw [hown, view_of_there h, branchNodes_eq]
  · exact hheld.upTo_kept hkept fun id hid => Nat.lt_of_lt_of_le (hroot id hid)
      (Nat.le_trans (le_withHold _ _ _) (le_withHold _ _ _))

/-- Pushing appends to a list. -/
theorem Sound.push (hs : s.Sound none) (h : s.branches[name]? = some branch) (node : N) :
    (s.push name node).Sound none ∧
      (s.push name node).view = assign s.view name (some (s.branchNodes branch ++ [node])) := by
  have hseg := hs.segments
  rw [headCount_of_there h] at hseg
  have hrenewed := hs.renew { branch with tail := branch.tail.push node } hseg
    (hs.frozen name branch h) fun _ _ => rfl
  unfold Store.push
  rw [modify_eq_insert h]
  rw [branchNodes_eq, List.append_assoc, ← Array.toList_push]
  exact hrenewed

/-- A root alone needs no segment. -/
theorem Sound.plant (hs : s.Sound none) (name : String) (root : N) :
    (s.plant name root).Sound none ∧ (s.plant name root).view = assign s.view name (some [root]) :=
  ⟨hs.put rfl name, hs.view_put name⟩

/-- Starting anew leaves the root alone. -/
theorem Sound.reset (hs : s.Sound none) (h : s.branches[name]? = some branch) (root : N) :
    (s.reset name root).Sound none ∧
      (s.reset name root).view = assign s.view name (some [root]) := by
  have hmem : name ∈ s.branches := by
    rw [Std.ExtTreeMap.mem_iff_isSome_getElem?, h]
    rfl
  unfold Store.reset
  rw [if_pos hmem]
  exact hs.plant name root

/-- A name that stands for nothing is in no operation's way. -/
theorem reset_of_absent (h : s.branches[name]? = none) (root : N) : s.reset name root = s := by
  have hnot : name ∉ s.branches := by
    rw [Std.ExtTreeMap.mem_iff_isSome_getElem?, h]
    exact Bool.false_ne_true
  unfold Store.reset
  rw [if_neg hnot]

theorem view_of_absent (h : s.branches[name]? = none) : s.view name = none := by
  unfold view
  rw [h]
  rfl

/-- Every operation keeps the store sound and does to its lists what it does to plain ones. -/
theorem Sound.run (hs : s.Sound none) (op : Op N) :
    (op.run s).Sound none ∧ (op.run s).view = op.plain s.view := by
  cases op with
  | plant name root => exact hs.plant name root
  | push name node =>
    simp only [Op.run, Op.plain]
    cases h : s.branches[name]? with
    | none =>
      unfold Store.push
      rw [modify_eq_self h, view_of_absent h]
      exact ⟨hs, rfl⟩
    | some branch =>
      rw [view_of_there h]
      exact hs.push h node
  | fork name copy =>
    simp only [Op.run, Op.plain]
    cases h : s.branches[name]? with
    | none =>
      unfold Store.fork
      rw [h, view_of_absent h]
      exact ⟨hs, rfl⟩
    | some branch =>
      have hspec := hs.fork h copy
      rw [view_of_there h] at hspec ⊢
      exact hspec
  | clone name copy =>
    simp only [Op.run, Op.plain]
    cases h : s.branches[name]? with
    | none =>
      unfold Store.clone
      rw [h, view_of_absent h]
      exact ⟨hs, rfl⟩
    | some branch =>
      have hspec := hs.clone h copy
      rw [view_of_there h] at hspec ⊢
      exact hspec
  | reset name root =>
    simp only [Op.run, Op.plain]
    cases h : s.branches[name]? with
    | none =>
      rw [reset_of_absent h, view_of_absent h]
      exact ⟨hs, rfl⟩
    | some branch =>
      rw [view_of_there h]
      exact hs.reset h root
  | drop name => exact ⟨(hs.drop name).1, hs.view_drop name⟩

/-- An operation changes the list of its target alone. -/
theorem plain_of_ne_target (lists : String → Option (List N)) (op : Op N) {name : String}
    (hne : name ≠ op.target) : op.plain lists name = lists name := by
  have hother : ∀ nodes, assign lists op.target nodes name = lists name :=
    fun nodes => if_neg hne
  cases op with
  | plant source _ | drop source => exact hother _
  | push source _ | fork source _ | clone source _ | reset source _ =>
    simp only [Op.plain]
    cases lists source with
    | none => rfl
    | some nodes => exact hother _

/-! ## What can be observed -/

/-- Everything that can be observed of a growth is that of a list. -/
structure AsList (s : Store N) (name : String) (nodes : List N) : Prop where
  toList : s.toList name = nodes
  size : s.size name = nodes.length
  isEmpty : s.isEmpty name = nodes.isEmpty
  get? : ∀ id, s.get? name id = nodes[id]?
  root? : s.root? name = nodes.head?
  latest? : s.latest? name = nodes.getLast?
  latestId? : s.latestId? name = if nodes = [] then none else some (nodes.length - 1)
  entries : s.entries name = (List.range nodes.length).zip nodes
  append : ∀ node, (s.append name node).1 = some nodes.length

/-- A name stands for a list, or it is not there. -/
def StandsFor (s : Store N) (name : String) : Option (List N) → Prop
  | none => name ∉ s.branches
  | some nodes => AsList s name nodes

theorem Sound.size_eq (hs : s.Sound none) (h : s.branches[name]? = some branch) :
    s.size name = (s.branchNodes branch).length := by
  unfold Store.size
  rw [h]
  exact size_eq_length (hs.frozen name branch h)

/-- A node is read from the tail or through the frozen chain. -/
theorem Sound.get?_eq (hs : s.Sound none) (h : s.branches[name]? = some branch) (id : NodeId) :
    s.get? name id = (s.branchNodes branch)[id]? := by
  have hfrozen := hs.frozen name branch h
  unfold Store.get?
  rw [h, branchNodes_eq]
  dsimp only
  by_cases hle : branch.frozen ≤ id
  · rw [if_pos hle, List.getElem?_append_right (by omega), hfrozen, Array.getElem?_toList]
  · rw [if_neg hle, List.getElem?_append_left (by omega)]
    cases hhead : branch.head with
    | none =>
      rw [hhead, upTo] at hfrozen
      exact absurd (hfrozen ▸ Nat.zero_le id) hle
    | some head => exact hs.segments.get?_eq head id

/-- A name of a sound store can be observed to be its list. -/
theorem Sound.asList (hs : s.Sound none) (h : s.branches[name]? = some branch) :
    AsList s name (s.branchNodes branch) := by
  have hsize := hs.size_eq h
  have htoList : s.toList name = s.branchNodes branch := by
    unfold Store.toList
    rw [h]
  constructor
  case toList => exact htoList
  case size => exact hsize
  case isEmpty =>
    unfold Store.isEmpty
    rw [hsize]
    cases s.branchNodes branch <;> rfl
  case get? => exact hs.get?_eq h
  case root? =>
    unfold Store.root?
    rw [hs.get?_eq h, List.head?_eq_getElem?]
  case latest? =>
    unfold Store.latest?
    rw [List.getLast?_eq_getElem?, ← hsize]
    cases hlast : s.size name with
    | zero =>
      have hnil : s.branchNodes branch = [] := List.eq_nil_of_length_eq_zero (hsize ▸ hlast)
      rw [hnil]
      rfl
    | succ last => exact hs.get?_eq h last
  case latestId? =>
    unfold Store.latestId?
    rw [hsize]
    simp only [List.length_eq_zero_iff]
  case entries =>
    unfold Store.entries
    rw [htoList]
    refine List.ext_getElem (by simp) fun id hid hid' => ?_
    simp
  case append =>
    intro node
    obtain ⟨hpushed, hview⟩ := hs.push h node
    have hname := congrFun hview name
    unfold assign at hname
    rw [if_pos rfl] at hname
    obtain ⟨pushed, hthere, hnodes⟩ := Option.map_eq_some_iff.mp hname
    have hlength := hpushed.size_eq hthere
    rw [hnodes, List.length_append, List.length_singleton] at hlength
    show (s.push name node).latestId? name = some (s.branchNodes branch).length
    unfold Store.latestId?
    rw [hlength, if_neg (Nat.succ_ne_zero _), Nat.add_sub_cancel]

theorem Sound.standsFor (hs : s.Sound none) (name : String) : s.StandsFor name (s.view name) := by
  unfold StandsFor
  cases h : s.branches[name]? with
  | none =>
    rw [view_of_absent h]
    show name ∉ s.branches
    rw [Std.ExtTreeMap.mem_iff_isSome_getElem?, h]
    exact Bool.false_ne_true
  | some branch =>
    rw [view_of_there h]
    exact hs.asList h

/-- Every sequence of operations keeps the store sound and makes of its lists what it makes of
plain ones. -/
theorem Sound.runs (hs : s.Sound none) (ops : List (Op N)) :
    (ops.foldl Op.run s).Sound none ∧
      (ops.foldl Op.run s).view = ops.foldl Op.plain s.view := by
  induction ops generalizing s with
  | nil => exact ⟨hs, rfl⟩
  | cons op ops ih =>
    obtain ⟨hrun, hview⟩ := hs.run op
    rw [List.foldl_cons, List.foldl_cons, ← hview]
    exact ih hrun

/-- After every sequence of operations each name stands for the list that the same operations make
where forks and clones copy, and the next operation leaves all of them but its target alone. -/
theorem run_as_lists (ops : List (Op N)) :
    let s := ops.foldl Op.run (empty : Store N)
    let lists := ops.foldl Op.plain fun _ => none
    (∀ name, s.StandsFor name (lists name)) ∧
      ∀ (op : Op N) (name : String), name ≠ op.target → (op.run s).StandsFor name (lists name) := by
  intro s lists
  obtain ⟨hs, hview⟩ := (sound_empty (N := N)).runs ops
  have hempty : (empty : Store N).view = fun _ => none := by
    funext name
    exact view_of_absent (by simp [empty])
  rw [hempty] at hview
  have hlists : s.view = lists := hview
  refine ⟨fun name => hlists ▸ hs.standsFor name, fun op name hne => ?_⟩
  obtain ⟨hrun, hplain⟩ := hs.run op
  have hstands := hrun.standsFor name
  rw [hplain, plain_of_ne_target _ op hne, hlists] at hstands
  exact hstands

end Espalier.Store
