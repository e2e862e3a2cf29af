import Espalier.Proofs.Store.Sharing

/-!
# Growths that are relatives

In a store that was made by operations every segment has nodes (`Sound.filled_runs`) and every name
stands for some (`branchNodes_ne_nil`). So to be relatives says more there than that the chains
meet: relatives begin with the same nodes, and a growth is a relative of itself as soon as it has
frozen any.
-/

namespace Espalier.Store

open Segments

variable {N : Type} {s s' : Store N} {name a b : String} {branch : Branch N}
  {pending : Option SegmentId} {lists : String → Option (List N)}

/-! ## Chains with nodes -/

/-- Freezing makes no segment without nodes. -/
theorem Sound.filled_settle (hs : s.Sound none) (h : s.branches[name]? = some branch)
    (hf : s.segments.Filled) : (s.settle name branch).segments.Filled := by
  have hseg := hs.segments
  rw [headCount_of_there h, withHold_none] at hseg
  unfold Store.settle
  obtain ⟨result, hresult⟩ : ∃ result, s.freeze branch = result := ⟨_, rfl⟩
  have hfreezes := s.freezes branch
  rw [hresult] at hfreezes ⊢
  have happend : ∀ nodes : List N, branch.tail ≠ #[] → nodes ++ branch.tail.toList ≠ [] := by
    intro nodes htail hnil
    exact htail (Array.toList_eq_nil_iff.mp (List.append_eq_nil_iff.mp hnil).2)
  cases hfreezes with
  | nothing => exact hf
  | started htail =>
    intro id found hfound
    rcases new_or_there_of_insert hfound with ⟨rfl, -⟩ | ⟨-, hthere⟩
    · show Segments.nodes (s.segments.insert _ _) _ ≠ []
      rw [nodes_start hseg]
      exact happend _ htail
    · show Segments.nodes (s.segments.insert _ _) _ ≠ []
      rw [nodes_start_of_there hseg _ ⟨found, hthere⟩]
      exact hf id found hthere
  | extended htail heads there alone =>
    rw [heads] at hseg
    intro id found hfound
    rcases new_or_there_of_insert hfound with ⟨rfl, -⟩ | ⟨hne, hthere⟩
    · rw [nodes_extend hseg there alone]
      exact happend _ htail
    · rw [nodes_extend_of_ne hseg there alone _ hne]
      exact hf id found hthere

/-- No operation makes a segment without nodes. -/
theorem Sound.filled_run (hs : s.Sound none) (hf : s.segments.Filled) (op : Op N) :
    (op.run s).segments.Filled := by
  cases op with
  | push => exact hf
  | plant name root => exact hf.kept (hs.kindred_drop name).keeps
  | fork name copy =>
    cases h : s.branches[name]? with
    | none =>
      show (s.fork name copy).segments.Filled
      unfold Store.fork
      rw [h]
      exact hf
    | some branch =>
      obtain ⟨hfolded, hkindred⟩ := (hs.settle h).folded (s.freeze branch).2.head
      show (s.fork name copy).segments.Filled
      rw [hs.fork_eq h]
      have hsettled := hs.filled_settle h hf
      exact (hsettled.kept hkindred.keeps).kept (hfolded.kindred_clone name copy).keeps
  | clone name copy => exact hf.kept (hs.kindred_clone name copy).keeps
  | reset name root =>
    show (s.reset name root).segments.Filled
    unfold Store.reset
    by_cases hmem : name ∈ s.branches
    · rw [if_pos hmem]
      exact hf.kept (hs.kindred_drop name).keeps
    · rw [if_neg hmem]
      exact hf
  | drop name => exact hf.kept (hs.kindred_drop name).keeps

theorem Sound.filled_runs (hs : s.Sound none) (hf : s.segments.Filled) (ops : List (Op N)) :
    (ops.foldl Op.run s).segments.Filled := by
  induction ops generalizing s with
  | nil => exact hf
  | cons op ops ih => exact ih (hs.run op).1 (hs.filled_run hf op)

/-- No name stands for the empty list. -/
def NoneEmpty (lists : String → Option (List N)) : Prop := ∀ name, lists name ≠ some []

theorem NoneEmpty.assign (h : NoneEmpty lists) (name : String) {nodes : Option (List N)}
    (hnodes : nodes ≠ some []) : NoneEmpty (Store.assign lists name nodes) := by
  intro other
  unfold Store.assign
  by_cases hother : other = name
  · rw [if_pos hother]
    exact hnodes
  · rw [if_neg hother]
    exact h other

/-- Plain lists start with a root and never get shorter. -/
theorem NoneEmpty.plain (h : NoneEmpty lists) (op : Op N) : NoneEmpty (op.plain lists) := by
  cases op with
  | plant name root => exact h.assign name (by simp)
  | push name node =>
    simp only [Op.plain]
    split
    · exact h
    · exact h.assign name (by simp)
  | fork name copy | clone name copy =>
    simp only [Op.plain]
    split
    · exact h
    case h_2 nodes hnodes => exact h.assign copy (hnodes ▸ h name)
  | reset name root =>
    simp only [Op.plain]
    split
    · exact h
    · exact h.assign name (by simp)
  | drop name => exact h.assign name (by simp)

theorem NoneEmpty.plains (h : NoneEmpty lists) (ops : List (Op N)) :
    NoneEmpty (ops.foldl Op.plain lists) := by
  induction ops generalizing lists with
  | nil => exact h
  | cons op ops ih => exact ih (h.plain op)

/-- No name of a store that was made by operations stands for no nodes. -/
theorem branchNodes_ne_nil (ops : List (Op N))
    (h : (ops.foldl Op.run empty).branches[name]? = some branch) :
    (ops.foldl Op.run empty).branchNodes branch ≠ [] := by
  have hempty : NoneEmpty (empty : Store N).view := by
    intro name
    rw [view_of_absent (by simp [empty])]
    exact (Option.some_ne_none []).symm
  obtain ⟨-, hview⟩ := (sound_empty (N := N)).runs ops
  have hname := hempty.plains ops name
  rw [← hview, view_of_there h] at hname
  exact fun hnil => hname (congrArg some hnil)

/-! ## Relatives -/

/-- What is known of relatives in a store. -/
structure Relatives (s : Store N) : Prop where
  symm : ∀ a b, s.sharesHistory a b = s.sharesHistory b a
  trans : ∀ a b c, s.sharesHistory a b = true → s.sharesHistory b c = true →
    s.sharesHistory a c = true
  /-- A growth is a relative of itself once it has frozen nodes. -/
  refl_iff : ∀ a, s.sharesHistory a a = true ↔
    ∃ branch : Branch N, s.branches[a]? = some branch ∧ 0 < branch.frozen
  /-- A growth is a relative of the fork that was just taken of it. -/
  fork : ∀ name ∈ s.branches, ∀ copy, (s.fork name copy).sharesHistory name copy = true
  /-- Two growths are relatives for as long as neither is made anew, and never else. -/
  lasting : ∀ a b, a ≠ b → ∀ ops : List (Op N), (∀ op ∈ ops, op.Leaves a ∧ op.Leaves b) →
    (ops.foldl Op.run s).sharesHistory a b = s.sharesHistory a b
  /-- A growth that starts anew is nobody's relative. -/
  anew : ∀ name ∈ s.branches, ∀ root b, (s.reset name root).sharesHistory name b = false
  /-- Relatives begin with the same nodes. -/
  common : ∀ a b, s.sharesHistory a b = true →
    ∃ nodes, nodes ≠ [] ∧ nodes <+: s.toList a ∧ nodes <+: s.toList b

theorem Sound.sharesHistory_trans {c : String} (hs : s.Sound pending)
    (hab : s.sharesHistory a b = true) (hbc : s.sharesHistory b c = true) :
    s.sharesHistory a c = true := by
  rw [hs.sharesHistory_iff] at hab hbc ⊢
  obtain ⟨x, y, hx, hy, hxy⟩ := hab
  obtain ⟨y', z, hy', hz, hyz⟩ := hbc
  obtain rfl : y = y' := Option.some.inj (hy.symm.trans hy')
  exact ⟨x, z, hx, hz, (akin_equivalence _).trans hxy hyz⟩

/-- A growth has frozen nodes exactly if its chain has a head. -/
theorem Sound.frozen_pos_iff (hs : s.Sound pending) (hf : s.segments.Filled)
    (h : s.branches[name]? = some branch) : 0 < branch.frozen ↔ ∃ x, branch.head = some x := by
  rw [hs.frozen name branch h, List.length_pos_iff]
  cases hhead : branch.head with
  | none =>
    refine iff_of_false (fun hne => hne rfl) ?_
    rintro ⟨x, hx⟩
    exact absurd hx (by simp)
  | some x =>
    obtain ⟨segment, hsegment⟩ := hs.head_there ((head?_of_there h).trans hhead)
    exact iff_of_true (hf x segment hsegment) ⟨x, rfl⟩

theorem Sound.sharesHistory_self_iff (hs : s.Sound pending) (hf : s.segments.Filled) :
    s.sharesHistory a a = true ↔
      ∃ branch : Branch N, s.branches[a]? = some branch ∧ 0 < branch.frozen := by
  rw [hs.sharesHistory_iff]
  constructor
  · rintro ⟨x, -, hx, -, -⟩
    obtain ⟨branch, hbranch, hhead⟩ := Option.bind_eq_some_iff.mp hx
    exact ⟨branch, hbranch, (hs.frozen_pos_iff hf hbranch).mpr ⟨x, hhead⟩⟩
  · rintro ⟨branch, hbranch, hpos⟩
    obtain ⟨x, hx⟩ := (hs.frozen_pos_iff hf hbranch).mp hpos
    have hhead := (head?_of_there hbranch).trans hx
    exact ⟨x, x, hhead, hhead, (akin_equivalence _).refl x⟩

/-- The nodes of a chain come first in the growth that it belongs to. -/
theorem nodes_prefix_toList {x : SegmentId} (h : s.head? name = some x) :
    s.segments.nodes x <+: s.toList name := by
  obtain ⟨branch, hbranch, hhead⟩ := Option.bind_eq_some_iff.mp h
  unfold Store.toList
  rw [hbranch]
  dsimp only
  rw [branchNodes_eq, hhead]
  exact List.prefix_append _ _

/-- A growth without a chain is nobody's relative. -/
theorem Sound.sharesHistory_of_headless (hs : s.Sound pending) (h : s.head? a = none)
    (b : String) : s.sharesHistory a b = false := by
  rw [Bool.eq_false_iff, Ne, hs.sharesHistory_iff]
  rintro ⟨x, -, hx, -, -⟩
  exact absurd (h.symm.trans hx) (by simp)

theorem Sound.common_of_sharesHistory (hs : s.Sound pending) (hf : s.segments.Filled)
    (h : s.sharesHistory a b = true) :
    ∃ nodes, nodes ≠ [] ∧ nodes <+: s.toList a ∧ nodes <+: s.toList b := by
  obtain ⟨x, y, hx, hy, hakin⟩ := hs.sharesHistory_iff.mp h
  obtain ⟨segment, hsegment⟩ := hs.head_there hx
  obtain ⟨nodes, hne, hnx, hny⟩ := hs.segments.common_of_akin hf hsegment hakin
  exact ⟨nodes, hne, hnx.trans (nodes_prefix_toList hx), hny.trans (nodes_prefix_toList hy)⟩

/-- In every store that is made by operations, growths are relatives by whether their families are
one, and that is settled for good when they are made. -/
theorem relatives (ops : List (Op N)) : (ops.foldl Op.run (empty : Store N)).Relatives := by
  obtain ⟨hs, -⟩ := (sound_empty (N := N)).runs ops
  have hf := (sound_empty (N := N)).filled_runs filled_empty ops
  constructor
  case symm => exact sharesHistory_comm _
  case trans => exact fun a b c => hs.sharesHistory_trans
  case refl_iff => exact fun a => hs.sharesHistory_self_iff hf
  case fork =>
    intro name hname copy
    obtain ⟨branch, hbranch⟩ := Option.isSome_iff_exists.mp
      (Std.ExtTreeMap.mem_iff_isSome_getElem?.mp hname)
    exact hs.sharesHistory_fork_self hbranch (branchNodes_ne_nil ops hbranch) copy
  case lasting => exact fun a b hne later => hs.sharesHistory_runs later hne
  case anew =>
    intro name hname root b
    have hreset : (ops.foldl Op.run empty).reset name root
        = (ops.foldl Op.run empty).plant name root := if_pos hname
    rw [hreset]
    exact (hs.plant name root).1.sharesHistory_of_headless head?_put_self b
  case common => exact fun a b => hs.common_of_sharesHistory hf

end Espalier.Store
