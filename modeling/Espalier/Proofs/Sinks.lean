import Espalier.Sink
import Mathlib.Data.List.Basic

/-!
# Who hears what

A tree of sinks is a list of leaves once it is known which filters stand on the way to each of them
(`tips`). A leaf hears a kind of event if all of these list it, and whatever is sent at the top of
the tree, a leaf ends up with what it had and then everything it hears, in order
(`Plain.tips_sendMany`). So a tree wants what some leaf hears and no more (`Plain.wants_iff`), and it
makes no difference whether events that it does not want are sent or not.

All this is about trees of collectors, callbacks, filters and fan-outs. A channel takes whatever is
sent into it, wanted or not.
-/

namespace Espalier.Sink

variable {R : Type}

/-! ## What sinks want and pass on -/

mutual

/-- A sink wants what it wanted before. -/
theorem wants_send (event : Event R) (kind : EventKind) :
    (sink : Sink R) → (sink.send event).wants kind = sink.wants kind
  | .ignore | .collect _ | .callback _ | .channel _ _ => rfl
  | .filter kinds inner => by
    unfold send
    split
    · show (kinds.contains kind && (inner.send event).wants kind) = _
      rw [wants_send event kind inner]
      rfl
    · rfl
  | .fanOut sinks => anyWants_sendAll event kind sinks

theorem anyWants_sendAll (event : Event R) (kind : EventKind) :
    (sinks : List (Sink R)) →
      anyWants (sendAll event sinks) kind = anyWants sinks kind
  | [] => rfl
  | sink :: sinks => by
    unfold sendAll anyWants
    rw [anyWants_sendAll event kind sinks]
    split
    · rw [wants_send event kind sink]
    · rfl

end

theorem wants_sendMany (events : List (Event R)) (kind : EventKind) (sink : Sink R) :
    (sink.sendMany events).wants kind = sink.wants kind := by
  induction events generalizing sink with
  | nil => rfl
  | cons event events ih => exact (ih (sink.send event)).trans (wants_send event kind sink)

theorem sendMany_collect (events : List (Event R)) (before : Array (Event R)) :
    (Sink.collect before).sendMany events = .collect (before ++ events.toArray) := by
  induction events generalizing before with
  | nil => simp [Sink.sendMany]
  | cons event events ih =>
    show (Sink.collect (before.push event)).sendMany events = _
    rw [ih]
    simp

theorem sendMany_channel (kinds : Option (List EventKind)) (events : List (Event R))
    (waiting : Array (Event R)) :
    (Sink.channel kinds waiting).sendMany events = .channel kinds (waiting ++ events.toArray) := by
  induction events generalizing waiting with
  | nil => simp [Sink.sendMany]
  | cons event events ih =>
    show (Sink.channel kinds (waiting.push event)).sendMany events = _
    rw [ih]
    simp

/-- A filter passes on all that it wants. -/
theorem sendMany_filter {kinds : List EventKind} {events : List (Event R)} {inner : Sink R}
    (h : ∀ event ∈ events, (Sink.filter kinds inner).wants event.kind = true) :
    (Sink.filter kinds inner).sendMany events = .filter kinds (inner.sendMany events) := by
  induction events generalizing inner with
  | nil => rfl
  | cons event events ih =>
    obtain ⟨hevent, hevents⟩ := List.forall_mem_cons.mp h
    have hsend : (Sink.filter kinds inner).send event = .filter kinds (inner.send event) :=
      if_pos hevent
    show ((Sink.filter kinds inner).send event).sendMany events = _
    rw [hsend]
    refine ih fun other hother => ?_
    rw [← hsend, wants_send]
    exact hevents other hother

/-! ## Leaves and the ways to them -/

/-- A leaf of a tree of sinks. -/
structure Tip (R : Type) where
  /-- What each filter on the way to the leaf lets through, the outermost first. -/
  filters : List (List EventKind)
  /-- A leaf that is no callback is a collector. -/
  isCallback : Bool
  received : List (Event R)

namespace Tip

/-- Whether all filters on the way let a kind of event through. -/
def hears (t : Tip R) (kind : EventKind) : Bool := t.filters.all (·.contains kind)

/-- The leaf after some events, of which it has received those it hears. -/
def hear (t : Tip R) (events : List (Event R)) : Tip R :=
  { t with received := t.received ++ events.filter fun event => t.hears event.kind }

/-- The leaf with one more filter before it. -/
def behind (kinds : List EventKind) (t : Tip R) : Tip R := { t with filters := kinds :: t.filters }

/-- The leaf as a sink. -/
def leaf (t : Tip R) : Sink R :=
  if t.isCallback then .callback t.received.toArray else .collect t.received.toArray

theorem hears_behind (kinds : List EventKind) (t : Tip R) (kind : EventKind) :
    (t.behind kinds).hears kind = (kinds.contains kind && t.hears kind) := rfl

theorem hear_cons (t : Tip R) (event : Event R) (events : List (Event R)) :
    t.hear (event :: events) = (t.hear [event]).hear events := by
  have hhears : (t.hear [event]).hears = t.hears := rfl
  unfold hear at hhears ⊢
  rw [hhears, List.append_assoc, ← List.filter_append]
  rfl

/-- Behind a filter that lets an event through, a leaf hears it as it would without. -/
theorem hear_behind {kinds : List EventKind} {event : Event R}
    (h : kinds.contains event.kind = true) (t : Tip R) :
    (t.behind kinds).hear [event] = (t.hear [event]).behind kinds := by
  unfold hear
  rw [List.filter_singleton, List.filter_singleton, hears_behind, h, Bool.true_and]
  rfl

/-- What a leaf does not hear leaves it as it is. -/
theorem hear_of_not {event : Event R} {t : Tip R} (h : t.hears event.kind = false) :
    t.hear [event] = t := by
  unfold hear
  rw [List.filter_singleton, h]
  simp

end Tip

mutual

/-- The collectors and callbacks of a sink from left to right. -/
def tips : Sink R → List (Tip R)
  | .ignore => []
  | .collect events => [⟨[], false, events.toList⟩]
  | .callback events => [⟨[], true, events.toList⟩]
  | .channel _ _ => []
  | .filter kinds inner => inner.tips.map (Tip.behind kinds)
  | .fanOut sinks => tipsOfAll sinks

def tipsOfAll : List (Sink R) → List (Tip R)
  | [] => []
  | sink :: sinks => sink.tips ++ tipsOfAll sinks

end

/-- A tree without channels. -/
inductive Plain : Sink R → Prop where
  | ignore : Plain .ignore
  | collect (events : Array (Event R)) : Plain (.collect events)
  | callback (events : Array (Event R)) : Plain (.callback events)
  | filter (kinds : List EventKind) {inner : Sink R} (plain : Plain inner) :
    Plain (.filter kinds inner)
  | fanOut {sinks : List (Sink R)} (plain : ∀ sink ∈ sinks, Plain sink) : Plain (.fanOut sinks)

/-! ## Several sinks at once -/

theorem anyWants_eq_any (sinks : List (Sink R)) (kind : EventKind) :
    anyWants sinks kind = sinks.any (·.wants kind) := by
  induction sinks with
  | nil => rfl
  | cons sink sinks ih =>
    rw [anyWants, ih]
    rfl

theorem sendAll_eq_map (event : Event R) (sinks : List (Sink R)) : sendAll event sinks
    = sinks.map fun sink => if sink.wants event.kind then sink.send event else sink := by
  induction sinks with
  | nil => rfl
  | cons sink sinks ih =>
    rw [sendAll, ih]
    rfl

theorem tipsOfAll_eq_flatMap (sinks : List (Sink R)) : tipsOfAll sinks = sinks.flatMap tips := by
  induction sinks with
  | nil => rfl
  | cons sink sinks ih =>
    rw [tipsOfAll, ih]
    rfl

theorem leavesOfAll_eq_flatMap (sinks : List (Sink R)) :
    leavesOfAll sinks = sinks.flatMap leaves := by
  induction sinks with
  | nil => rfl
  | cons sink sinks ih =>
    rw [leavesOfAll, ih]
    rfl

/-! ## Trees without channels -/

namespace Plain

variable {sink : Sink R}

/-- Leaves are the same with the ways to them forgotten. -/
theorem leaves_eq (h : sink.Plain) : sink.leaves = sink.tips.map Tip.leaf := by
  induction h with
  | ignore => rfl
  | collect events => rfl
  | callback events => rfl
  | filter kinds plain ih =>
    unfold leaves tips
    rw [ih, List.map_map]
    rfl
  | fanOut plain ih =>
    unfold leaves tips
    rw [leavesOfAll_eq_flatMap, tipsOfAll_eq_flatMap, List.map_flatMap]
    exact List.flatMap_congr ih

/-- A tree wants what one of its leaves hears. -/
theorem wants_iff (h : sink.Plain) (kind : EventKind) :
    sink.wants kind = true ↔ ∃ tip ∈ sink.tips, tip.hears kind = true := by
  induction h with
  | ignore => simp [wants, tips]
  | collect events => simp [wants, tips, Tip.hears]
  | callback events => simp [wants, tips, Tip.hears]
  | @filter kinds inner plain ih =>
    show (kinds.contains kind && inner.wants kind) = true
      ↔ ∃ tip ∈ inner.tips.map (Tip.behind kinds), tip.hears kind = true
    rw [Bool.and_eq_true, ih]
    constructor
    · rintro ⟨hkind, tip, htip, hhears⟩
      refine ⟨tip.behind kinds, List.mem_map_of_mem htip, ?_⟩
      rw [Tip.hears_behind, hkind, hhears]
      rfl
    · rintro ⟨_, hbehind, hhears⟩
      obtain ⟨tip, htip, rfl⟩ := List.mem_map.mp hbehind
      rw [Tip.hears_behind, Bool.and_eq_true] at hhears
      exact ⟨hhears.1, tip, htip, hhears.2⟩
  | @fanOut sinks plain ih =>
    show anyWants sinks kind = true ↔ ∃ tip ∈ tipsOfAll sinks, tip.hears kind = true
    rw [anyWants_eq_any, tipsOfAll_eq_flatMap, List.any_eq_true]
    constructor
    · rintro ⟨sink, hsink, hwants⟩
      obtain ⟨tip, htip, hhears⟩ := (ih sink hsink).mp hwants
      exact ⟨tip, List.mem_flatMap.mpr ⟨sink, hsink, htip⟩, hhears⟩
    · rintro ⟨tip, htip, hhears⟩
      obtain ⟨sink, hsink, hmem⟩ := List.mem_flatMap.mp htip
      exact ⟨sink, hsink, (ih sink hsink).mpr ⟨tip, hmem, hhears⟩⟩

/-- Nothing becomes of an event that is not wanted. -/
theorem send_of_unwanted (h : sink.Plain) {event : Event R}
    (hunwanted : sink.wants event.kind = false) : sink.send event = sink := by
  cases h with
  | ignore => rfl
  | collect events => exact nomatch hunwanted
  | callback events => exact nomatch hunwanted
  | filter kinds plain => exact if_neg (Bool.eq_false_iff.mp hunwanted)
  | @fanOut sinks plain =>
    have hnone : sinks.any (·.wants event.kind) = false := by
      rw [← anyWants_eq_any]
      exact hunwanted
    have hsame : sendAll event sinks = sinks := by
      rw [sendAll_eq_map]
      refine (List.map_congr_left fun sink hsink => ?_).trans (List.map_id _)
      exact if_neg (List.any_eq_false.mp hnone sink hsink)
    exact congrArg Sink.fanOut hsame

/-- So it makes no difference to ask first. -/
theorem send_guarded (h : sink.Plain) (event : Event R) :
    (if sink.wants event.kind then sink.send event else sink) = sink.send event := by
  split
  · rfl
  · next hunwanted => exact (h.send_of_unwanted (Bool.eq_false_iff.mpr hunwanted)).symm

theorem sendAll_eq {sinks : List (Sink R)} (h : ∀ sink ∈ sinks, sink.Plain) (event : Event R) :
    sendAll event sinks = sinks.map (·.send event) := by
  rw [sendAll_eq_map]
  exact List.map_congr_left fun sink hsink => (h sink hsink).send_guarded event

/-- What is sent at the top of a tree reaches the leaves that hear it, and changes nothing else. -/
theorem tips_send (h : sink.Plain) (event : Event R) :
    (sink.send event).tips = sink.tips.map (·.hear [event]) := by
  induction h with
  | ignore => rfl
  | collect events => simp [send, tips, Tip.hear, Tip.hears]
  | callback events => simp [send, tips, Tip.hear, Tip.hears]
  | @filter kinds inner plain ih =>
    cases hkind : kinds.contains event.kind with
    | true =>
      have hsend : (Sink.filter kinds inner).send event = .filter kinds (inner.send event) := by
        rw [← plain.send_guarded, send, hkind, Bool.true_and]
        split <;> rfl
      show tips _ = (inner.tips.map (Tip.behind kinds)).map _
      rw [hsend, tips, ih, List.map_map, List.map_map]
      exact List.map_congr_left fun tip _ => (Tip.hear_behind hkind tip).symm
    | false =>
      have hsend : (Sink.filter kinds inner).send event = .filter kinds inner := by
        rw [send, hkind, Bool.false_and]
        rfl
      rw [hsend]
      refine ((List.map_congr_left fun tip htip => ?_).trans (List.map_id _)).symm
      obtain ⟨inside, -, rfl⟩ := List.mem_map.mp htip
      exact Tip.hear_of_not (by rw [Tip.hears_behind, hkind, Bool.false_and])
  | @fanOut sinks plain ih =>
    show tipsOfAll (sendAll event sinks) = (tipsOfAll sinks).map _
    rw [sendAll_eq plain, tipsOfAll_eq_flatMap, tipsOfAll_eq_flatMap, List.map_flatMap,
      List.flatMap_map]
    exact List.flatMap_congr ih

/-- A tree without channels stays one. -/
theorem send (h : sink.Plain) (event : Event R) : (sink.send event).Plain := by
  induction h with
  | ignore => exact .ignore
  | collect events => exact .collect _
  | callback events => exact .callback _
  | filter kinds plain ih =>
    unfold Sink.send
    split
    · exact .filter kinds ih
    · exact .filter kinds plain
  | @fanOut sinks plain ih =>
    show (Sink.fanOut (sendAll event sinks)).Plain
    rw [sendAll_eq plain]
    refine .fanOut fun sink hsink => ?_
    obtain ⟨before, hbefore, rfl⟩ := List.mem_map.mp hsink
    exact ih before hbefore

theorem sendMany (h : sink.Plain) (events : List (Event R)) : (sink.sendMany events).Plain := by
  induction events generalizing sink with
  | nil => exact h
  | cons event events ih => exact ih (h.send event)

/-- Whatever is sent, a leaf has what it had and then all that it hears, in order. -/
theorem tips_sendMany (h : sink.Plain) (events : List (Event R)) :
    (sink.sendMany events).tips = sink.tips.map (·.hear events) := by
  induction events generalizing sink with
  | nil =>
    refine (List.map_id'' (fun tip => ?_) _).symm
    unfold Tip.hear
    rw [List.filter_nil, List.append_nil]
  | cons event events ih =>
    show ((sink.send event).sendMany events).tips = _
    rw [ih (h.send event), h.tips_send, List.map_map]
    exact List.map_congr_left fun tip _ => (Tip.hear_cons tip event events).symm

/-- It makes no difference to ask before each of some events. -/
theorem sendMany_guarded (h : sink.Plain) (events : List (Event R)) :
    events.foldl (fun sink event => if sink.wants event.kind then sink.send event else sink) sink
      = sink.sendMany events := by
  induction events generalizing sink with
  | nil => rfl
  | cons event events ih =>
    rw [List.foldl_cons, h.send_guarded]
    exact ih (h.send event)

end Plain

/-- What becomes of events that are sent at the top of a tree. -/
structure Delivers (sink : Sink R) (events : List (Event R)) : Prop where
  /-- Every leaf is still in its place behind the same filters, and has received what all of these
  let through: each such event once, in order, and no other. -/
  tips : (sink.sendMany events).tips = sink.tips.map (·.hear events)
  leaves : (sink.sendMany events).leaves = sink.tips.map fun tip => (tip.hear events).leaf
  /-- What is wanted is what a leaf would receive. -/
  wants_iff : ∀ kind, (sink.sendMany events).wants kind = true ↔
    ∃ tip ∈ sink.tips, tip.hears kind = true
  /-- Whatever has been sent, sending what is not wanted changes nothing. -/
  unwanted : ∀ event, (sink.sendMany events).wants event.kind = false →
    (sink.sendMany events).send event = sink.sendMany events
  /-- So it comes to the same to ask before each event. -/
  guarded : events.foldl
    (fun sink event => if sink.wants event.kind then sink.send event else sink) sink
      = sink.sendMany events

/-- In every tree without channels each leaf receives what it hears, and the tree wants no more. -/
theorem every_leaf_hears {sink : Sink R} (h : sink.Plain) (events : List (Event R)) :
    sink.Delivers events := by
  have hplain := h.sendMany events
  constructor
  case tips => exact h.tips_sendMany events
  case leaves =>
    rw [hplain.leaves_eq, h.tips_sendMany, List.map_map]
    rfl
  case wants_iff =>
    intro kind
    rw [wants_sendMany]
    exact h.wants_iff kind
  case unwanted => exact fun event hunwanted => hplain.send_of_unwanted hunwanted
  case guarded => exact h.sendMany_guarded events

end Espalier.Sink

namespace Espalier.Sample

open Sink

/-- Warnings and ends of runs go to a collector, and the warnings among them to a callback and to a
filter that lets nothing through; all else goes to another collector. -/
def tree : Sink String :=
  .fanOut [
    .filter [.warning, .runFinished]
      (.fanOut [.collect #[], .filter [.warning] (.fanOut [.callback #[], .filter [] (.collect #[])]),
        .ignore]),
    .filter [.runStarted, .finalized] (.collect #[])]

/-- Three events of which a callback hears one, a collector two and another collector none. -/
theorem every_leaf_hears_tree : tree.Plain ∧ tree.Delivers
    [.runStarted "stem" 1 1, .warning "generation 0" "uniform", .runFinished 3 ⟨"1", "0"⟩] ∧
    (tree.sendMany
      [.runStarted "stem" 1 1, .warning "generation 0" "uniform", .runFinished 3 ⟨"1", "0"⟩]).leaves
      = [.collect #[.warning "generation 0" "uniform", .runFinished 3 ⟨"1", "0"⟩],
        .callback #[.warning "generation 0" "uniform"], .collect #[],
        .collect #[.runStarted "stem" 1 1]] := by
  have hwarnings : (Sink.filter [.warning]
      (.fanOut [.callback #[], .filter [] (.collect #[])]) : Sink String).Plain := by
    refine .filter _ (.fanOut (List.forall_mem_cons.mpr ⟨.callback #[], ?_⟩))
    exact List.forall_mem_singleton.mpr (.filter [] (.collect #[]))
  have hplain : tree.Plain := by
    refine .fanOut (List.forall_mem_cons.mpr ⟨.filter _ (.fanOut ?_), ?_⟩)
    · exact List.forall_mem_cons.mpr ⟨.collect #[],
        List.forall_mem_cons.mpr ⟨hwarnings, List.forall_mem_singleton.mpr .ignore⟩⟩
    · exact List.forall_mem_singleton.mpr (.filter _ (.collect #[]))
  exact ⟨hplain, every_leaf_hears hplain _, (every_leaf_hears hplain _).leaves⟩

end Espalier.Sample
