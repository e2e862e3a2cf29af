import Espalier.Proofs.Judging
import Espalier.Proofs.Search.CacheKeys
import Mathlib.Algebra.BigOperators.Group.List.Basic

/-!
# Every node is judged once

Up to the selection of the survivor a particle has been shown to the cost model node by node: the
batches that the model saw of a particle and of its ancestors, one after the other, are all its
nodes but the root, each batch from where the particle ended before (`Tile`). A fork takes over what
its parent was judged for, and freezing does not hide what is appended later.

So a model that adds what new nodes weigh to the old cost ends with the cost of all of them
(`Incremental`). `batches_tile` puts both together. The induction is along lineages, with the whole
states in which a particle or an ancestor grew as its history (`tiled_acted` is the step).
-/

namespace Espalier

variable {N R ρ κ ω : Type}

/-- Batches that follow each other from one place to another without a gap or an overlap. -/
def Tile (first : NodeId) : List (Batch N) → (last : NodeId) → Prop
  | [], last => first = last
  | batch :: batches, last => batch.first = first ∧ Tile (first + batch.nodes.size) batches last

theorem Tile.le {first last : NodeId} {batches : List (Batch N)} (h : Tile first batches last) :
    first ≤ last := by
  induction batches generalizing first with
  | nil => exact Nat.le_of_eq h
  | cons batch batches ih => exact Nat.le_trans (Nat.le_add_right _ _) (ih h.2)

/-- One more batch from where the others end. -/
theorem Tile.concat {first : NodeId} {batches : List (Batch N)} {batch : Batch N}
    (h : Tile first batches batch.first) :
    Tile first (batches ++ [batch]) (batch.first + batch.nodes.size) := by
  induction batches generalizing first with
  | nil => exact ⟨h.symm, congrArg (· + _) h⟩
  | cons earlier batches ih => exact ⟨h.1, ih h.2⟩

/-- A cost model that adds what the new nodes weigh to the old cost, by an exact measure of
costs. -/
structure Incremental {M : Type} [AddCommMonoid M] [Zero R] (κ : Type) [CostModel κ N R]
    (measure : Cost R → M) (weight : N → M) : Prop where
  zero : measure .zero = 0
  evaluate : ∀ (model : κ) (p : Particle N R) (batch : Batch N) (useHeuristic : Bool),
    measure (CostModel.evaluate model p batch useHeuristic).1
      = measure p.cost + (batch.nodes.toList.map weight).sum

/-- A log does not change what a model answers. -/
theorem Incremental.recorded {M : Type} [AddCommMonoid M] [Zero R] [CostModel κ N R]
    {measure : Cost R → M} {weight : N → M} (h : Incremental κ measure weight) :
    Incremental (Recorded κ N R) measure weight :=
  ⟨h.zero, fun recorded => h.evaluate recorded.model⟩

namespace Search

variable [Scalar R] [RandomSource ρ] [CostModel κ N R]

section Lineage

variable {s : Search N R ρ κ ω} {past : List (Search N R ρ κ ω)} {p : Particle N R}

/-- The calls that were made in some states. -/
def callsIn (past : List (Search N R ρ κ ω)) : List (CostCall N R) :=
  past.flatMap (·.call?.toList)

/-- What a particle has is what the model was shown of it and its ancestors in some states. -/
structure Tiled (past : List (Search N R ρ κ ω)) (p : Particle N R) : Prop where
  unfrozen : p.growth.frozen ≤ p.growth.size
  tile : Tile 1 ((callsIn past).map (·.batch)) p.growth.size
  nodes : (callsIn past).flatMap (·.batch.nodes.toList) = p.growth.toList.tail
  cost : ∀ {M : Type} [AddCommMonoid M] {measure : Cost R → M} {weight : N → M},
    Incremental κ measure weight → measure p.cost = (p.growth.toList.tail.map weight).sum

theorem tiled_seed (id : ParticleId) (start : String) (root : N) :
    Tiled ([] : List (Search N R ρ κ ω)) (Particle.seed id start root) :=
  ⟨Nat.zero_le _, rfl, rfl, fun h => h.zero⟩

/-- A particle with the same nodes at the same cost has been shown as much. -/
theorem Tiled.of_same {past' : List (Search N R ρ κ ω)} {q : Particle N R} (h : Tiled past p)
    (hcalls : callsIn past' = callsIn past) (hunfrozen : q.growth.frozen ≤ q.growth.size)
    (hnodes : q.growth.toList = p.growth.toList) (hcost : q.cost = p.cost) : Tiled past' q := by
  have hsize : q.growth.size = p.growth.size := by
    rw [← Growth.length_toList, hnodes, Growth.length_toList]
  refine ⟨hunfrozen, ?_, ?_, fun hmodel => ?_⟩
  · rw [hcalls, hsize]
    exact h.tile
  · rw [hcalls, hnodes]
    exact h.nodes
  · rw [hnodes, hcost]
    exact h.cost hmodel

/-- A particle that has grown has been shown what it grew, and its cost is told from that. -/
theorem Tiled.of_judged {past' : List (Search N R ρ κ ω)} {q : Particle N R} (h : Tiled past p)
    {call : CostCall N R} (hcalls : callsIn past' = callsIn past ++ [call])
    (hunfrozen : q.growth.frozen ≤ q.growth.size)
    (hnodes : q.growth.toList = p.growth.toList ++ call.batch.nodes.toList)
    (hfirst : call.batch.first = p.growth.size) (hjudged : call.particle.cost = p.cost) (model : κ)
    (hcost : q.cost = (CostModel.evaluate model call.particle call.batch call.useHeuristic).1) :
    Tiled past' q := by
  -- The root is there, so what is appended is the end of all nodes but the root.
  have hroot : p.growth.toList ≠ [] := List.ne_nil_of_length_pos h.tile.le
  have htail : q.growth.toList.tail = p.growth.toList.tail ++ call.batch.nodes.toList := by
    rw [hnodes, List.tail_append_of_ne_nil hroot]
  have hsize : q.growth.size = p.growth.size + call.batch.nodes.size :=
    (congrArg List.length hnodes).trans List.length_append
  refine ⟨hunfrozen, ?_, ?_, fun hmodel => ?_⟩
  · rw [hcalls, List.map_append, hsize, ← hfirst]
    exact Tile.concat (hfirst ▸ h.tile)
  · rw [hcalls, htail, List.flatMap_append, h.nodes, List.flatMap_singleton]
  · rw [hcost, htail, List.map_append, List.sum_append, ← h.cost hmodel, ← hjudged]
    exact hmodel.evaluate model call.particle call.batch call.useHeuristic

theorem tiled_fork {q : Particle N R} (h : Tiled past p) (hfork : IsFork p q) : Tiled past q := by
  obtain ⟨mark, hgrowth⟩ := hfork.growth
  exact h.of_same rfl (hgrowth ▸ Growth.frozen_freeze mark h.unfrozen) hfork.nodes hfork.cost

/-- A growth in the skeleton phase adds one batch to what was judged, or else nothing. -/
theorem tiled_acted {g next : Nat} (hstage : s.stage = .grow g next) (hactor : s.actor? = some p)
    (h : Tiled past p) : Tiled (past ++ [s]) (s.acted p) := by
  have hbecomes : s.acted p = (s.growth .skeleton (s.heuristicCounts g) p).2.1 := by
    simp only [acted, hstage]
  have hcall : s.call?
      = p.judgement s.grammar .skeleton (s.heuristicCounts g) s.patience s.source := by
    simp only [call?, hstage, hactor]
  have hcalls : callsIn (past ++ [s]) = callsIn past ++ s.call?.toList := by
    simp [callsIn]
  have haccounts := accounts_growth s .skeleton (s.heuristicCounts g) p
  have hcost : (s.growth .skeleton (s.heuristicCounts g) p).2.1.cost = _ :=
    Particle.cost_grow s.model
  rw [← hbecomes] at haccounts hcost
  rw [← hcall] at hcost
  have hnodes := haccounts.nodes
  have hunfrozen : (s.acted p).growth.frozen ≤ (s.acted p).growth.size := by
    have hsize : (s.acted p).growth.size = p.growth.size + _ :=
      (congrArg List.length hnodes).trans List.length_append
    rw [haccounts.frozen, hsize]
    exact Nat.le_add_right_of_le h.unfrozen
  cases hjudged : s.call? with
  | none =>
    rw [hjudged, Option.toList_none, List.append_nil] at hcalls
    rw [Particle.nodes_of_not_judged (hcall.symm.trans hjudged), List.append_nil] at hnodes
    rw [hjudged] at hcost
    exact h.of_same hcalls hunfrozen hnodes hcost
  | some call =>
    obtain ⟨hkept, hfirst, hbatch⟩ :=
      Particle.judgement_batch (hcall.symm.trans hjudged) h.unfrozen
    rw [hjudged, Option.toList_some] at hcalls
    rw [← hbatch] at hnodes
    rw [hjudged] at hcost
    exact h.of_judged hcalls hunfrozen hnodes hfirst hkept s.model hcost

omit [Scalar R] [RandomSource ρ] [CostModel κ N R] in
/-- Before there is a survivor whoever acts grows in a generation. -/
theorem stage_of_actor (hactor : s.actor? = some p) (hnone : s.survivor = none) :
    ∃ g next, s.stage = .grow g next := by
  unfold actor? at hactor
  split at hactor
  · rename_i g next hstage
    exact ⟨g, next, hstage⟩
  · exact absurd hactor (by simp [hnone])
  · exact absurd hactor (by simp [hnone])
  · exact absurd hactor (by simp)

end Lineage

section Run

variable [Watcher ω N R]

/-- The first steps grow and resample, and the last of them selects the survivor at the latest. -/
def Choosing (s : Search N R ρ κ ω) (n : Nat) : Prop := ∀ m < n, (s.after m).survivor = none

/-- Every particle has what the model was shown in its history. -/
theorem tiled_history {s : Search N R ρ κ ω} (hs : s.OnTime) (hstart : s.stage = .populate)
    {n : Nat} (hchoosing : s.Choosing n) :
    ∀ p ∈ (s.after n).particles, Tiled (s.history (fun t => [t]) n p.id) p := by
  have hhistory : ∀ p ∈ (s.after n).particles,
      (∀ t ∈ s.history (fun t => [t]) n p.id, t.survivor = none) →
        Tiled (s.history (fun t => [t]) n p.id) p := by
    refine along_lineage hs hstart (P := fun (past : List (Search N R ρ κ ω)) p =>
      (∀ t ∈ past, t.survivor = none) → Tiled past p) ?_ ?_ ?_ n
    · exact fun id _ => tiled_seed id s.start s.root
    · exact fun past p q hpast hfork hnone => tiled_fork (hpast hnone) hfork
    · intro n past p q hactor hpast hbecomes _ hnone
      obtain ⟨g, next, hstage⟩ := stage_of_actor hactor (hnone (s.after n) (by simp))
      rw [hbecomes]
      exact tiled_acted hstage hactor (hpast fun t ht => hnone t (List.mem_append_left _ ht))
  intro p hp
  refine hhistory p hp fun t ht => ?_
  obtain ⟨m, hm, hmem⟩ := List.mem_flatMap.mp ht
  split at hmem
  · rw [List.mem_singleton.mp hmem]
    exact hchoosing m (List.mem_range.mp hm)
  · exact absurd hmem (by simp)

/-- The calls in the history of a particle are those of its states. -/
theorem callsIn_history (s : Search N R ρ κ ω) (n : Nat) (id : ParticleId) :
    callsIn (s.history (fun t => [t]) n id) = s.history (fun t => t.call?.toList) n id := by
  unfold callsIn history
  rw [List.flatMap_assoc]
  refine List.flatMap_congr fun m _ => ?_
  split
  · exact List.flatMap_singleton _ _
  · rfl

open Classical in
/-- Of all calls those for a particle and its ancestors are the ones in its history. -/
theorem filter_calls (s : Search N R ρ κ ω) (n : Nat) (id : ParticleId) :
    (s.calls n).filter (fun call => decide (s.Descends id call.particle.id))
      = s.history (fun t => t.call?.toList) n id := by
  unfold calls history
  rw [List.filter_flatMap]
  refine List.flatMap_congr fun m _ => ?_
  cases hcall : (s.after m).call? with
  | none => simp [hcall]
  | some call =>
    obtain ⟨p, hactor, haccounts⟩ := call_spec hcall
    have hiff : (∃ a, (s.after m).actor? = some a ∧ s.Descends id a.id)
        ↔ s.Descends id call.particle.id := by
      rw [haccounts.id, hactor]
      simp
    dsimp only
    rw [if_congr hiff rfl rfl, hcall, Option.toList_some]
    by_cases hdescends : s.Descends id call.particle.id <;> simp [hdescends]

end Run

/-! ## What the log of a model shows -/

section Log

variable [Watcher ω N R]

open Classical in
/-- The calls in the log that were made for a particle or an ancestor, in order. -/
noncomputable def shown (s : Search N R ρ (Recorded κ N R) ω) (n : Nat) (id : ParticleId) :
    List (CostCall N R) :=
  (s.after n).model.calls.toList.filter fun call => decide (s.Descends id call.particle.id)

/-- What a model is shown up to a step. -/
structure JudgedOnce (s : Search N R ρ (Recorded κ N R) ω) (n : Nat) : Prop where
  /-- A step makes one call at most, and it starts where the particle ended before. -/
  step : ∀ m < n, (s.after (m + 1)).model.calls = (s.after m).model.calls ∨
    ∃ call, (s.after (m + 1)).model.calls = (s.after m).model.calls.push call ∧
      ∃ p ∈ (s.after m).particles, p.id = call.particle.id ∧ call.batch.first = p.growth.size
  /-- The batches shown of a particle and its ancestors go from the root to the end. -/
  tile : ∀ p ∈ (s.after n).particles, Tile 1 ((s.shown n p.id).map (·.batch)) p.growth.size
  /-- Together they are all nodes but the root. -/
  nodes : ∀ p ∈ (s.after n).particles,
    (s.shown n p.id).flatMap (·.batch.nodes.toList) = p.growth.toList.tail
  /-- What an incremental model adds up is what all nodes but the root weigh. -/
  cost : ∀ {M : Type} [AddCommMonoid M] {measure : Cost R → M} {weight : N → M},
    Incremental κ measure weight → ∀ p ∈ (s.after n).particles,
      measure p.cost = (p.growth.toList.tail.map weight).sum

/-- Up to the selection of the survivor every node is judged once along every lineage. -/
theorem batches_tile {s : Search N R ρ (Recorded κ N R) ω} {grammar : Grammar N R} {root : N}
    {start : String} {config : Config R} {patience : Nat} {model : κ} {source : ρ} {watcher : ω}
    (hnew : Search.new grammar root start config patience (Recorded.ofModel model) source watcher
      = .ok s) {n : Nat} (hchoosing : s.Choosing n) : s.JudgedOnce n := by
  have hs := onTime_new hnew
  have hstart := stage_new hnew
  have hcalls : s.model.calls = #[] := by
    obtain ⟨rfl, -⟩ := new_spec hnew
    rfl
  have hshown : ∀ id, s.shown n id = callsIn (s.history (fun t => [t]) n id) := by
    intro id
    unfold shown
    rw [log_after, hcalls, List.nil_append, filter_calls, callsIn_history]
  constructor
  case step =>
    intro m hm
    have hlog := log_step (s.after m)
    cases hcall : (s.after m).call? with
    | none =>
      rw [hcall, Option.toList_none, List.append_nil] at hlog
      exact Or.inl (Array.toList_inj.mp hlog)
    | some call =>
      rw [hcall, Option.toList_some, ← Array.toList_push] at hlog
      obtain ⟨p, hactor, haccounts⟩ := call_spec hcall
      obtain ⟨g, next, hstage⟩ := stage_of_actor hactor (hchoosing m hm)
      have htiled := tiled_history hs hstart (fun k hk => hchoosing k (Nat.lt_trans hk hm)) p
        (actor_mem hactor)
      simp only [call?, hstage, hactor] at hcall
      obtain ⟨-, hfirst, -⟩ := Particle.judgement_batch hcall htiled.unfrozen
      exact Or.inr ⟨call, Array.toList_inj.mp hlog, p, actor_mem hactor, haccounts.id.symm, hfirst⟩
  case tile =>
    intro p hp
    rw [hshown]
    exact (tiled_history hs hstart hchoosing p hp).tile
  case nodes =>
    intro p hp
    rw [hshown]
    exact (tiled_history hs hstart hchoosing p hp).nodes
  case cost =>
    exact fun hmodel p hp => (tiled_history hs hstart hchoosing p hp).cost hmodel.recorded

end Log

end Search

/-! ## A search in whole numbers -/

namespace Sample

/-- A model of nodes that are numbers: a cost grows by those that are new. -/
structure Sum where

instance : CostModel Sum Int Whole where
  evaluate model p batch _ := (.ofReal ⟨p.cost.real.value + batch.nodes.toList.foldr (· + ·) 0⟩, model)

theorem incremental_sum : Incremental Sum (fun cost : Cost Whole => cost.real.value) id :=
  ⟨rfl, fun _ p _ _ =>
    congrArg (fun weights => p.cost.real.value + List.foldr (· + ·) 0 weights)
      (List.map_id _).symm⟩

/-- A two grows first, and then a three on it. -/
def numbers : Grammar Int Whole :=
  (Grammar.empty : Grammar Int Whole)
    |>.define "two" (fun _ => do Expansion.addBud "three" (← Expansion.append 2))
    |>.define "three" (fun _ => do let _ ← Expansion.append 3)

/-- A search for numbers that draws nothing but zeros. -/
def numberSearch :
    Except (Failure Whole) (Search Int Whole Source (Recorded Sum Int Whole) (Sink Whole)) :=
  Search.new numbers 7 "two" config 10 (.ofModel ⟨⟩) (.cycle #[] 0) .ignore

end Sample

/-- A survivor that was forked between two growths has been judged for either node once. -/
theorem Search.batches_tile_forked : ∃ s, Sample.numberSearch = .ok s ∧ s.Choosing 9 ∧
    s.JudgedOnce 9 ∧ Incremental Sample.Sum (fun cost : Cost Sample.Whole => cost.real.value) id ∧
    ∃ p, (s.after 9).survivor = some p ∧ p.parent = some 0 ∧ p.growth.toList = [7, 2, 3] ∧
      p.cost.real.value = 5 := by
  have hrun : (Sample.numberSearch.toOption.map fun s =>
      (List.range 9).all (fun m => (s.after m).survivor.isNone) &&
      (s.after 9).survivor.any fun p => decide (p.parent = some 0 ∧ p.growth.toList = [7, 2, 3] ∧
        p.cost.real.value = 5)) = some true := by
    decide +kernel
  obtain ⟨s, hnew, htest⟩ := Search.exists_of_toOption_map hrun
  obtain ⟨hnone, hsurvivor⟩ := Bool.and_eq_true_iff.mp htest
  obtain ⟨p, hp, hvalues⟩ := (Option.any_eq_true _ _).mp hsurvivor
  have hchoosing : s.Choosing 9 := fun m hm =>
    Option.isNone_iff_eq_none.mp (List.all_eq_true.mp hnone m (List.mem_range.mpr hm))
  exact ⟨s, hnew, hchoosing, batches_tile hnew hchoosing, Sample.incremental_sum, p, hp,
    of_decide_eq_true hvalues⟩

end Espalier
