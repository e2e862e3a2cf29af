import Espalier.Canvas

/-!
# What a pixel shows

Ink is put on one pixel at a time, and on no other (`ink?_put`). A stamp is many such pixels, so it
puts its ink on those it covers (`ink?_press`), and after many stamps a pixel shows the ink of the
last one that covers it: `shown` goes through the stamps for one pixel alone, and `ink?_pressAll`
says that this is what is on the canvas.

Stamps that do not cover the pixel change nothing (`shown_of_not_covered`), and after stamps of one
ink, at least one of which does, it shows that ink (`shown_of_covered`). A picture is made of groups
of stamps of either kind (`shown_append`).
-/

namespace Espalier

variable {S I J : Type} {coverage : Coverage S} {width height : Nat} {pixel : Nat × Nat}

/-- Whether one of some stamps covers a pixel of a canvas of a given size. -/
def Covered (coverage : Coverage S) (width height : Nat) (stamps : List (Stamp S I))
    (pixel : Nat × Nat) : Prop :=
  ∃ stamp ∈ stamps, pixel ∈ coverage stamp.shape width height

/-- The ink that a pixel shows after some stamps, when it showed `ink` before. -/
def shown (coverage : Coverage S) (width height : Nat) (pixel : Nat × Nat) (ink : I)
    (stamps : List (Stamp S I)) : I :=
  stamps.foldl
    (fun ink stamp => if pixel ∈ coverage stamp.shape width height then stamp.ink else ink) ink

/-! ## Groups of stamps -/

theorem shown_append (ink : I) (first second : List (Stamp S I)) :
    shown coverage width height pixel ink (first ++ second)
      = shown coverage width height pixel (shown coverage width height pixel ink first) second :=
  List.foldl_append

theorem covered_flatMap {α : Type} {l : List α} {f : α → List (Stamp S I)} :
    Covered coverage width height (l.flatMap f) pixel
      ↔ ∃ a ∈ l, Covered coverage width height (f a) pixel := by
  constructor
  · rintro ⟨stamp, hstamp, hpixel⟩
    obtain ⟨a, ha, hmem⟩ := List.mem_flatMap.mp hstamp
    exact ⟨a, ha, stamp, hmem, hpixel⟩
  · rintro ⟨a, ha, stamp, hmem, hpixel⟩
    exact ⟨stamp, List.mem_flatMap.mpr ⟨a, ha, hmem⟩, hpixel⟩

/-- What is not covered stays as it is. -/
theorem shown_of_not_covered {stamps : List (Stamp S I)}
    (h : ¬ Covered coverage width height stamps pixel) (ink : I) :
    shown coverage width height pixel ink stamps = ink := by
  induction stamps generalizing ink with
  | nil => rfl
  | cons stamp stamps ih =>
    have hfirst : pixel ∉ coverage stamp.shape width height :=
      fun hpixel => h ⟨stamp, List.mem_cons_self, hpixel⟩
    have hrest : ¬ Covered coverage width height stamps pixel :=
      fun ⟨later, hlater, hpixel⟩ => h ⟨later, List.mem_cons_of_mem _ hlater, hpixel⟩
    unfold shown
    rw [List.foldl_cons, if_neg hfirst]
    exact ih hrest ink

/-- Stamps of one ink leave that ink on all they cover, in whatever order they come. -/
theorem shown_of_covered {stamps : List (Stamp S I)} {ink : I}
    (hink : ∀ stamp ∈ stamps, stamp.ink = ink)
    (h : Covered coverage width height stamps pixel) (before : I) :
    shown coverage width height pixel before stamps = ink := by
  induction stamps generalizing before with
  | nil =>
    obtain ⟨stamp, hstamp, -⟩ := h
    exact absurd hstamp List.not_mem_nil
  | cons stamp stamps ih =>
    obtain ⟨hfirst, hrest⟩ := List.forall_mem_cons.mp hink
    by_cases hlater : Covered coverage width height stamps pixel
    · exact ih hrest hlater _
    · -- Then it is the first stamp that covers the pixel.
      obtain ⟨covering, hcovering, hpixel⟩ := h
      rcases List.mem_cons.mp hcovering with rfl | hmem
      · unfold shown
        rw [List.foldl_cons, if_pos hpixel, hfirst]
        exact shown_of_not_covered hlater ink
      · exact absurd ⟨covering, hmem, hpixel⟩ hlater

namespace Canvas

/-- Whether a pixel, by column and row, is on the canvas. -/
def Contains (c : Canvas I) (pixel : Nat × Nat) : Prop := pixel.1 < c.width ∧ pixel.2 < c.height

/-! ## Stamps on a canvas -/

/-- Pixels of different columns or rows have different places. -/
theorem place_inj {size : Nat} {p q : Nat × Nat} (hp : p.1 < size) (hq : q.1 < size)
    (h : p.2 * size + p.1 = q.2 * size + q.1) : p = q := by
  have hcolumn : p.1 = q.1 := by
    have hmod := congrArg (· % size) h
    simpa [Nat.mul_add_mod_self_right, Nat.mod_eq_of_lt hp, Nat.mod_eq_of_lt hq] using hmod
  have hrow : p.2 * size = q.2 * size := by omega
  exact Prod.ext hcolumn (Nat.eq_of_mul_eq_mul_right (by omega) hrow)

theorem ink?_put (ink : I) (c : Canvas I) (place pixel : Nat × Nat) :
    (put ink c place).ink? pixel
      = if pixel = place then (c.ink? pixel).map fun _ => ink else c.ink? pixel := by
  unfold put ink?
  by_cases hplace : place.1 < c.width
  · rw [if_pos hplace]
    dsimp only
    by_cases hpixel : pixel.1 < c.width
    · rw [if_pos hpixel, if_pos hpixel, Array.getElem?_setIfInBounds]
      by_cases heq : pixel = place
      · subst heq
        rw [if_pos rfl, if_pos rfl]
        split
        · next hlt => rw [Array.getElem?_eq_getElem hlt, Option.map_some]
        · next hge => rw [Array.getElem?_eq_none (Nat.le_of_not_lt hge), Option.map_none]
      · rw [if_neg heq, if_neg fun h => heq (place_inj hpixel hplace h.symm)]
    · simp only [if_neg hpixel, Option.map_none, ite_self]
  · rw [if_neg hplace]
    by_cases heq : pixel = place
    · subst heq
      simp only [if_neg hplace, Option.map_none, ite_self]
    · rw [if_neg heq]

theorem width_foldl_put (ink : I) (places : List (Nat × Nat)) (c : Canvas I) :
    (places.foldl (put ink) c).width = c.width := by
  induction places generalizing c with
  | nil => rfl
  | cons place places ih => rw [List.foldl_cons, ih, width_put]

theorem height_foldl_put (ink : I) (places : List (Nat × Nat)) (c : Canvas I) :
    (places.foldl (put ink) c).height = c.height := by
  induction places generalizing c with
  | nil => rfl
  | cons place places ih => rw [List.foldl_cons, ih, height_put]

theorem ink?_foldl_put (ink : I) (places : List (Nat × Nat)) (c : Canvas I) :
    (places.foldl (put ink) c).ink? pixel
      = if pixel ∈ places then (c.ink? pixel).map fun _ => ink else c.ink? pixel := by
  induction places generalizing c with
  | nil => rfl
  | cons place places ih =>
    rw [List.foldl_cons, ih, ink?_put]
    by_cases heq : pixel = place
    · rw [if_pos heq, if_pos (List.mem_cons.mpr (.inl heq)), Option.map_map]
      exact ite_self _
    · rw [if_neg heq]
      simp only [List.mem_cons, heq, false_or]

@[simp] theorem width_press (c : Canvas I) (stamp : Stamp S I) :
    (press coverage c stamp).width = c.width := width_foldl_put ..

@[simp] theorem height_press (c : Canvas I) (stamp : Stamp S I) :
    (press coverage c stamp).height = c.height := height_foldl_put ..

theorem ink?_press (c : Canvas I) (stamp : Stamp S I) :
    (press coverage c stamp).ink? pixel
      = (c.ink? pixel).map fun ink => shown coverage c.width c.height pixel ink [stamp] := by
  unfold press
  rw [ink?_foldl_put]
  unfold shown
  split
  · next h => simp only [List.foldl_cons, List.foldl_nil, if_pos h]
  · next h => simp only [List.foldl_cons, List.foldl_nil, if_neg h, Option.map_id']

theorem size_pressAll (coverage : Coverage S) (c : Canvas I) (stamps : List (Stamp S I)) :
    (c.pressAll coverage stamps).width = c.width ∧
      (c.pressAll coverage stamps).height = c.height := by
  induction stamps generalizing c with
  | nil => exact ⟨rfl, rfl⟩
  | cons stamp stamps ih =>
    obtain ⟨hwidth, hheight⟩ := ih (press coverage c stamp)
    exact ⟨hwidth.trans (width_press c stamp), hheight.trans (height_press c stamp)⟩

/-- A pixel shows what comes of the stamps at that pixel. -/
theorem ink?_pressAll (c : Canvas I) (stamps : List (Stamp S I)) :
    (c.pressAll coverage stamps).ink? pixel
      = (c.ink? pixel).map fun ink => shown coverage c.width c.height pixel ink stamps := by
  induction stamps generalizing c with
  | nil => exact Option.map_id'.symm
  | cons stamp stamps ih =>
    show ((press coverage c stamp).pressAll coverage stamps).ink? pixel = _
    rw [ih, ink?_press, Option.map_map, width_press, height_press]
    rfl

theorem ink?_blank {ink : I} (h : (blank width height ink).Contains pixel) :
    (blank width height ink).ink? pixel = some ink := by
  obtain ⟨hcolumn, hrow⟩ := h
  have hplace : pixel.2 * width + pixel.1 < width * height := by
    calc pixel.2 * width + pixel.1 < pixel.2 * width + width := Nat.add_lt_add_left hcolumn _
      _ = (pixel.2 + 1) * width := (Nat.succ_mul _ _).symm
      _ ≤ height * width := Nat.mul_le_mul_right width hrow
      _ = width * height := Nat.mul_comm _ _
  unfold ink?
  rw [if_pos hcolumn]
  unfold blank
  rw [Array.getElem?_replicate, if_pos hplace]

theorem ink?_map (f : I → J) (c : Canvas I) : (c.map f).ink? pixel = (c.ink? pixel).map f := by
  unfold map ink?
  dsimp only
  split
  · exact Array.getElem?_map
  · rfl

end Canvas

end Espalier
