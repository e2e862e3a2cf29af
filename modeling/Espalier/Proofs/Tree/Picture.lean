import Espalier.Proofs.Stamping
import Espalier.Tree.Drawing

/-!
# Leaves on top

A picture is drawn in layers: obstacles, wood, leaves and a target. Each layer hides what is below
it where its stamps are, so a pixel shows the uppermost layer that covers it. All leaves have one
ink, but wood has several, and there the last segment that covers the pixel counts
(`shown_segments`).

So leaves are seen wherever no target is, and wood where no leaf is either. A tree comes into its
picture with its leaves and its wood apart, however the two alternate (`leaves_on_top`).
-/

namespace Espalier.Tree

variable {coverage : Coverage Dot} {v : View} {tree : List Segment} {obstacles : List Disc}
  {target : Option Point} {background : Color} {picture : Canvas Color} {pixel : Nat × Nat}

/-- Whether a segment covers a pixel of a picture. -/
def Segment.Covers (coverage : Coverage Dot) (v : View) (pixel : Nat × Nat) (s : Segment) : Prop :=
  Covered coverage v.width v.height (segmentStamps v s) pixel

/-- Whether an obstacle covers a pixel of a picture. -/
def Disc.Covers (coverage : Coverage Dot) (v : View) (pixel : Nat × Nat) (d : Disc) : Prop :=
  Covered coverage v.width v.height (discStamps v d) pixel

/-- Whether the marker of a target covers a pixel of a picture. -/
def Point.Covers (coverage : Coverage Dot) (v : View) (pixel : Nat × Nat) (p : Point) : Prop :=
  Covered coverage v.width v.height (targetStamps v p) pixel

/-- A segment of wood covers a pixel, and no wood that comes after it does. -/
structure TopWood (coverage : Coverage Dot) (v : View) (pixel : Nat × Nat) (tree : List Segment)
    (s : Segment) : Prop where
  wood : s.isLeaf = false
  covers : s.Covers coverage v pixel
  last : ∃ front back, tree = front ++ s :: back ∧
    ∀ later ∈ back, later.isLeaf = false → ¬ later.Covers coverage v pixel

/-- Where there is wood on a pixel, there is a last segment of it. -/
theorem exists_topWood (h : ∃ s ∈ tree, s.isLeaf = false ∧ s.Covers coverage v pixel) :
    ∃ s, TopWood coverage v pixel tree s := by
  induction tree with
  | nil =>
    obtain ⟨s, hs, -⟩ := h
    exact absurd hs List.not_mem_nil
  | cons first rest ih =>
    by_cases hrest : ∃ s ∈ rest, s.isLeaf = false ∧ s.Covers coverage v pixel
    · obtain ⟨s, hwood, hcovers, front, back, hsplit, hback⟩ := ih hrest
      exact ⟨s, hwood, hcovers, first :: front, back, by rw [hsplit]; rfl, hback⟩
    · obtain ⟨s, hs, hwood, hcovers⟩ := h
      rcases List.mem_cons.mp hs with rfl | hmem
      · exact ⟨s, hwood, hcovers, [], rest, rfl, fun later hlater hwood hcovers =>
          hrest ⟨later, hlater, hwood, hcovers⟩⟩
      · exact absurd ⟨s, hmem, hwood, hcovers⟩ hrest

/-! ## Layers -/

theorem ink_of_mem_inked {ink : Ink} {dots : List Dot} {stamp : Stamp Dot Ink}
    (h : stamp ∈ inked ink dots) : stamp.ink = ink := by
  obtain ⟨dot, -, rfl⟩ := List.mem_map.mp h
  rfl

theorem Segment.part_of_isLeaf {s : Segment} (h : s.isLeaf = true) : s.part = .leaf :=
  eq_of_beq h

/-- Of several segments, one after the other, the last one that covers a pixel is seen. -/
theorem shown_segments {front back : List Segment} {s : Segment} (hs : s.Covers coverage v pixel)
    (hback : ∀ later ∈ back, ¬ later.Covers coverage v pixel) (ink : Ink) :
    shown coverage v.width v.height pixel ink ((front ++ s :: back).flatMap (segmentStamps v))
      = .part s.part := by
  have hlater : ¬ Covered coverage v.width v.height (back.flatMap (segmentStamps v)) pixel := by
    rw [covered_flatMap]
    exact fun ⟨later, hmem, hcovers⟩ => hback later hmem hcovers
  rw [List.flatMap_append, List.flatMap_cons, shown_append, shown_append,
    shown_of_not_covered hlater]
  exact shown_of_covered (fun _ => ink_of_mem_inked) hs _

/-- Of all wood on a pixel the last segment is seen. -/
theorem shown_wood {s : Segment} (hs : TopWood coverage v pixel tree s) (ink : Ink) :
    shown coverage v.width v.height pixel ink
      ((tree.filter fun s => !s.isLeaf).flatMap (segmentStamps v)) = .part s.part := by
  obtain ⟨hwood, hcovers, front, back, rfl, hback⟩ := hs
  rw [List.filter_append, List.filter_cons_of_pos (by rw [hwood]; rfl)]
  refine shown_segments hcovers (fun later hlater => ?_) ink
  obtain ⟨hmem, hlater⟩ := List.mem_filter.mp hlater
  exact hback later hmem (Bool.not_eq_true' _ ▸ hlater)

theorem covered_filter {p : Segment → Bool} :
    Covered coverage v.width v.height ((tree.filter p).flatMap (segmentStamps v)) pixel
      ↔ ∃ s ∈ tree, p s = true ∧ s.Covers coverage v pixel := by
  rw [covered_flatMap]
  constructor
  · rintro ⟨s, hs, hcovers⟩
    obtain ⟨hmem, hp⟩ := List.mem_filter.mp hs
    exact ⟨s, hmem, hp, hcovers⟩
  · rintro ⟨s, hmem, hp, hcovers⟩
    exact ⟨s, List.mem_filter.mpr ⟨hmem, hp⟩, hcovers⟩

/-- Leaves are seen wherever one is, whichever it is. -/
theorem shown_leaves (h : ∃ s ∈ tree, s.isLeaf = true ∧ s.Covers coverage v pixel) (ink : Ink) :
    shown coverage v.width v.height pixel ink
      ((tree.filter Segment.isLeaf).flatMap (segmentStamps v)) = .part .leaf := by
  refine shown_of_covered (fun stamp hstamp => ?_) (covered_filter.mpr h) ink
  obtain ⟨s, hs, hmem⟩ := List.mem_flatMap.mp hstamp
  rw [ink_of_mem_inked hmem, Segment.part_of_isLeaf (List.mem_filter.mp hs).2]

/-- Where no target is, a pixel shows obstacles, wood and leaves, one on top of the other. -/
theorem shown_stamps (htarget : ∀ p ∈ target, ¬ p.Covers coverage v pixel) (ink : Ink) :
    shown coverage v.width v.height pixel ink (stamps v tree obstacles target)
      = shown coverage v.width v.height pixel
          (shown coverage v.width v.height pixel
            (shown coverage v.width v.height pixel ink (obstacles.flatMap (discStamps v)))
            ((tree.filter fun s => !s.isLeaf).flatMap (segmentStamps v)))
          ((tree.filter Segment.isLeaf).flatMap (segmentStamps v)) := by
  have htop : ¬ Covered coverage v.width v.height ((target.map (targetStamps v)).getD [])
      pixel := by
    cases target with
    | none => exact fun ⟨_, hstamp, _⟩ => List.not_mem_nil hstamp
    | some p => exact htarget p rfl
  unfold stamps
  rw [shown_append, shown_of_not_covered htop, shown_append, shown_append]

/-! ## Pictures -/

/-- A picture has the size that was asked for, and every pixel has the color of what it shows. -/
theorem shown_paint (h : paint coverage v tree obstacles target background = some picture) :
    (picture.width = v.width ∧ picture.height = v.height) ∧
    ∀ pixel, picture.Contains pixel → picture.ink? pixel = some ((shown coverage v.width v.height
      pixel .background (stamps v tree obstacles target)).color background) := by
  obtain ⟨c, hdraw, rfl⟩ := Option.map_eq_some_iff.mp h
  unfold draw at hdraw
  split at hdraw
  · exact nomatch hdraw
  · obtain rfl := Option.some.inj hdraw
    obtain ⟨hwidth, hheight⟩ := Canvas.size_pressAll coverage
      (Canvas.blank v.width v.height Ink.background) (stamps v tree obstacles target)
    refine ⟨⟨hwidth, hheight⟩, fun pixel hpixel => ?_⟩
    have hblank : (Canvas.blank v.width v.height Ink.background).Contains pixel :=
      ⟨hwidth ▸ hpixel.1, hheight ▸ hpixel.2⟩
    rw [Canvas.ink?_map, Canvas.ink?_pressAll, Canvas.ink?_blank hblank]
    rfl

/-- What is seen of a tree in a picture. -/
structure Depicts (coverage : Coverage Dot) (v : View) (tree : List Segment)
    (obstacles : List Disc) (target : Option Point) (background : Color)
    (picture : Canvas Color) : Prop where
  size : picture.width = v.width ∧ picture.height = v.height
  /-- Leaves are hidden by nothing but a target. -/
  leaf : ∀ pixel, picture.Contains pixel → (∀ p ∈ target, ¬ p.Covers coverage v pixel) →
    (∃ s ∈ tree, s.isLeaf = true ∧ s.Covers coverage v pixel) →
    picture.ink? pixel = some Part.leaf.color
  /-- Wood is hidden by leaves besides, and by later wood. -/
  wood : ∀ pixel, picture.Contains pixel → (∀ p ∈ target, ¬ p.Covers coverage v pixel) →
    (∀ s ∈ tree, s.isLeaf = true → ¬ s.Covers coverage v pixel) →
    (∃ s ∈ tree, s.isLeaf = false ∧ s.Covers coverage v pixel) →
    ∃ s, TopWood coverage v pixel tree s ∧ picture.ink? pixel = some s.part.color
  bare : ∀ pixel, picture.Contains pixel → (∀ p ∈ target, ¬ p.Covers coverage v pixel) →
    (∀ s ∈ tree, ¬ s.Covers coverage v pixel) → (∀ d ∈ obstacles, ¬ d.Covers coverage v pixel) →
    picture.ink? pixel = some background

/-- Where no target is, every picture shows leaves on top of wood, and of wood the last. Trees with
the same leaves and the same wood, each in the same order, have the same picture. -/
theorem leaves_on_top (h : paint coverage v tree obstacles target background = some picture) :
    Depicts coverage v tree obstacles target background picture ∧
    ∀ other : List Segment, other.filter Segment.isLeaf = tree.filter Segment.isLeaf →
      (other.filter fun s => !s.isLeaf) = (tree.filter fun s => !s.isLeaf) →
      paint coverage v other obstacles target background = some picture := by
  obtain ⟨hsize, hshown⟩ := shown_paint h
  refine ⟨{ size := hsize, leaf := ?_, wood := ?_, bare := ?_ }, fun other hleaves hwood => ?_⟩
  · intro pixel hpixel htarget hleaf
    rw [hshown pixel hpixel, shown_stamps htarget, shown_leaves hleaf]
    rfl
  · intro pixel hpixel htarget hleaf hwood
    obtain ⟨s, hs⟩ := exists_topWood hwood
    have hleaves : ¬ Covered coverage v.width v.height
        ((tree.filter Segment.isLeaf).flatMap (segmentStamps v)) pixel := by
      rw [covered_filter]
      exact fun ⟨s, hmem, hs, hcovers⟩ => hleaf s hmem hs hcovers
    refine ⟨s, hs, ?_⟩
    rw [hshown pixel hpixel, shown_stamps htarget, shown_of_not_covered hleaves, shown_wood hs]
    rfl
  · intro pixel hpixel htarget htree hdiscs
    have hsegments (p : Segment → Bool) : ¬ Covered coverage v.width v.height
        ((tree.filter p).flatMap (segmentStamps v)) pixel := by
      rw [covered_filter]
      exact fun ⟨s, hmem, _, hcovers⟩ => htree s hmem hcovers
    have hobstacles : ¬ Covered coverage v.width v.height (obstacles.flatMap (discStamps v))
        pixel := by
      rw [covered_flatMap]
      exact fun ⟨d, hmem, hcovers⟩ => hdiscs d hmem hcovers
    rw [hshown pixel hpixel, shown_stamps htarget, shown_of_not_covered (hsegments _),
      shown_of_not_covered (hsegments _), shown_of_not_covered hobstacles]
    rfl
  · have hstamps : stamps v other obstacles target = stamps v tree obstacles target := by
      unfold stamps
      rw [hleaves, hwood]
    rw [← h]
    unfold paint draw
    rw [hstamps]

/-! ## A small picture -/

/-- A coverage by which a dot covers the beginning of the top row, as far as its radius. -/
def bars : Coverage Dot := fun dot width _ =>
  ((List.range width).filter fun column => Binary32.ofNat column < dot.radius).map fun column =>
    (column, 0)

theorem covered_bars {stamps : List (Stamp Dot Ink)} {width height column : Nat} :
    Covered bars width height stamps (column, 0)
      ↔ column < width ∧ ∃ stamp ∈ stamps, Binary32.ofNat column < stamp.shape.radius := by
  have hpixel (dot : Dot) : (column, 0) ∈ bars dot width height
      ↔ column < width ∧ Binary32.ofNat column < dot.radius := by
    simp [bars]
  unfold Covered
  simp only [hpixel]
  exact ⟨fun ⟨stamp, hmem, hwidth, hradius⟩ => ⟨hwidth, stamp, hmem, hradius⟩,
    fun ⟨hwidth, stamp, hmem, hradius⟩ => ⟨stamp, hmem, hwidth, hradius⟩⟩

/-- A segment on the spot. -/
def stub (part : Part) (width : Binary32) : Segment :=
  { part, start := ⟨(0 : Float32), (0 : Float32)⟩, stop := ⟨(0 : Float32), (0 : Float32)⟩, width
    depth := 1 }

/-- A row of six pixels. -/
def row : View :=
  { width := 6, height := 1
    low := ⟨(0 : Float32), (0 : Float32)⟩, high := ⟨(6 : Float32), (1 : Float32)⟩ }

/-- How far a stub reaches by bars. -/
theorem covers_stub (part : Part) (width : Binary32) {column : Nat} :
    (stub part width).Covers bars row (column, 0) ↔ column < 6 ∧ Binary32.ofNat column
      < (width * ((0.5 : Float32) : Binary32) * row.unit).atLeast (0.6 : Float32) := by
  unfold Segment.Covers
  rw [covered_bars]
  refine and_congr_right fun _ => ⟨?_, fun hradius => ?_⟩
  · rintro ⟨stamp, hstamp, hradius⟩
    obtain ⟨dot, hdot, rfl⟩ := List.mem_map.mp hstamp
    obtain ⟨i, -, rfl⟩ := List.mem_map.mp hdot
    exact hradius
  · exact ⟨_, List.mem_map_of_mem (List.mem_map_of_mem (List.mem_range.mpr (Nat.succ_pos _))),
      hradius⟩

/-- How far a target and an obstacle of radius one reach by bars. -/
theorem not_covers_marks {column : Nat} (h : ¬ Binary32.ofNat column < (1 : Float32))
    (htarget : ¬ Binary32.ofNat column < (2 : Float32)) (place : Point) :
    ¬ place.Covers bars row (column, 0) ∧
      ¬ (Disc.mk place (1 : Float32)).Covers bars row (column, 0) := by
  unfold Point.Covers Disc.Covers
  rw [covered_bars, covered_bars]
  constructor
  · rintro ⟨-, stamp, hstamp, hradius⟩
    obtain ⟨dot, hdot, rfl⟩ := List.mem_map.mp hstamp
    rcases List.mem_append.mp hdot with hring | hlast
    · obtain ⟨i, -, rfl⟩ := List.mem_map.mp hring
      exact h hradius
    · rw [List.mem_singleton.mp hlast] at hradius
      exact htarget hradius
  · rintro ⟨-, stamp, hstamp, hradius⟩
    rcases List.mem_append.mp hstamp with hdisc | hring
    · rw [List.mem_singleton.mp hdisc] at hradius
      have hunit : ((1 : Float32) : Binary32) * row.unit = (1 : Float32) := by decide +kernel
      exact h (hunit ▸ (hradius : _ < ((1 : Float32) : Binary32) * row.unit))
    · obtain ⟨dot, hdot, rfl⟩ := List.mem_map.mp hring
      obtain ⟨i, -, rfl⟩ := List.mem_map.mp hdot
      exact h hradius

/-- A leaf that was there before a branch and a trunk. -/
def thicket : List Segment :=
  [stub .leaf (6 : Float32), stub .branch (10 : Float32), stub .trunk (8 : Float32)]

/-- Of three segments that cover one another the first one, a leaf, is seen, and then the last. -/
theorem leaves_on_top_thicket : ∃ picture : Canvas Color,
    paint bars row thicket [⟨.up, (1 : Float32)⟩] (some .up) .paper = some picture ∧
      picture.ink? (2, 0) = some Part.leaf.color ∧
      picture.ink? (3, 0) = some Part.trunk.color ∧
      picture.ink? (5, 0) = some .paper ∧
      paint bars row [stub .branch (10 : Float32), stub .trunk (8 : Float32),
        stub .leaf (6 : Float32)] [⟨.up, (1 : Float32)⟩] (some .up) .paper = some picture := by
  obtain ⟨picture, hpaint⟩ : ∃ picture,
      paint bars row thicket [⟨.up, (1 : Float32)⟩] (some .up) .paper = some picture := ⟨_, rfl⟩
  obtain ⟨hdepicts, hsame⟩ := leaves_on_top hpaint
  have hcontains {column : Nat} (h : column < 6) : picture.Contains (column, 0) :=
    ⟨hdepicts.size.1 ▸ h, hdepicts.size.2 ▸ Nat.one_pos⟩
  have hmark (column : Nat) (h : ¬ Binary32.ofNat column < (1 : Float32))
      (htarget : ¬ Binary32.ofNat column < (2 : Float32)) :
      ∀ p ∈ some Point.up, ¬ p.Covers bars row (column, 0) :=
    fun p _ => (not_covers_marks h htarget p).1
  have hleaf := hdepicts.leaf (2, 0) (hcontains (by decide))
    (hmark 2 (by decide +kernel) (by decide +kernel))
    ⟨stub .leaf (6 : Float32), List.mem_cons_self, rfl, (covers_stub ..).mpr (by decide +kernel)⟩
  have hbare := hdepicts.bare (5, 0) (hcontains (by decide))
    (hmark 5 (by decide +kernel) (by decide +kernel))
    (by
      simp only [thicket, List.forall_mem_cons, covers_stub, List.not_mem_nil, false_implies,
        implies_true, and_true]
      decide +kernel)
    (by
      rw [List.forall_mem_singleton]
      exact (not_covers_marks (by decide +kernel) (by decide +kernel) _).2)
  obtain ⟨s, hs, hwood⟩ := hdepicts.wood (3, 0) (hcontains (by decide))
    (hmark 3 (by decide +kernel) (by decide +kernel))
    (by
      simp only [thicket, List.forall_mem_cons, covers_stub, List.not_mem_nil, false_implies,
        implies_true, and_true]
      decide +kernel)
    ⟨stub .trunk (8 : Float32), by decide, rfl, (covers_stub ..).mpr (by decide +kernel)⟩
  obtain ⟨front, back, hsplit, hback⟩ := hs.last
  have htrunk : s.part = .trunk := by
    rcases front with _ | ⟨leaf, _ | ⟨branch, _ | ⟨trunk, front⟩⟩⟩
    · obtain ⟨rfl, -⟩ := List.cons.inj hsplit
      exact nomatch hs.wood
    · obtain ⟨-, hrest⟩ := List.cons.inj hsplit
      obtain ⟨-, rfl⟩ := List.cons.inj hrest
      exact absurd ((covers_stub ..).mpr (by decide +kernel))
        (hback (stub .trunk (8 : Float32)) List.mem_cons_self rfl)
    · obtain ⟨-, hrest⟩ := List.cons.inj hsplit
      obtain ⟨-, hlast⟩ := List.cons.inj hrest
      obtain ⟨rfl, -⟩ := List.cons.inj hlast
      rfl
    · simp [thicket] at hsplit
  exact ⟨picture, hpaint, hleaf, htrunk ▸ hwood, hbare, hsame _ rfl rfl⟩

end Espalier.Tree
