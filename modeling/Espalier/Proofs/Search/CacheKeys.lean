import Espalier.Proofs.Search.Lineage

/-!
# Cache keys of cost models

A cost model may remember what it learned by the number of a particle and the place of a node.
`cache_keys_sound` says what it may rely on, over every run and after failures too: numbers are
given in order and once, a parent is one of the generation before, and whatever a model has seen of
a particle or of an ancestor is still there, at the same places, when the particle is judged again.

The last part is an induction along lineages (`judged_begins`): a growth appends, a fork copies, and
nobody grows that has been forked.
-/

namespace Espalier.Search

variable {N R ρ κ ω : Type} [Scalar R] [RandomSource ρ] [CostModel κ N R] [Watcher ω N R]

section Calls

variable {s : Search N R ρ κ ω}

/-- The call to the cost model that the next step makes, if any. -/
def call? (s : Search N R ρ κ ω) : Option (CostCall N R) :=
  match s.stage, s.actor? with
  | .grow g _, some p =>
    p.judgement s.grammar .skeleton (s.heuristicCounts g) s.patience s.source
  | .detail, some p => p.judgement s.grammar .detail false s.patience s.source
  | _, _ => none

omit [CostModel κ N R] [Watcher ω N R] in
/-- A model is shown the actor as the step leaves it. -/
theorem call_spec {call : CostCall N R} (h : s.call? = some call) :
    ∃ p, s.actor? = some p ∧ Accounts s.grammar s.phase p s.turns call.particle := by
  unfold call? at h
  split at h
  · rename_i g next p hstage hactor
    have hphase : s.phase = .skeleton := by simp [phase, hstage]
    have hturns : s.turns = p.expansions s.grammar .skeleton p.growth.size s.patience s.source := by
      simp [turns, hstage, hactor, hphase]
    rw [hphase, hturns]
    exact ⟨p, hactor, Particle.judgement_spec h⟩
  · rename_i p hstage hactor
    have hphase : s.phase = .detail := by simp [phase, hstage]
    have hturns : s.turns = p.expansions s.grammar .detail p.growth.size s.patience s.source := by
      simp [turns, hstage, hactor, hphase]
    rw [hphase, hturns]
    exact ⟨p, hactor, Particle.judgement_spec h⟩
  · exact absurd h (by simp)

/-- The calls the first steps make. -/
def calls (s : Search N R ρ κ ω) (n : Nat) : List (CostCall N R) :=
  (List.range n).flatMap fun m => (s.after m).call?.toList

/-- What a model has seen of a particle and its ancestors is the beginning of what the particle
has. -/
theorem judged_begins (hs : s.OnTime) (hstart : s.stage = .populate) (n : Nat) :
    ∀ p ∈ (s.after n).particles, ∀ call ∈ s.history (fun t => t.call?.toList) n p.id,
      call.particle.growth.toList <+: p.growth.toList := by
  refine along_lineage hs hstart (P := fun (past : List (CostCall N R)) p =>
    ∀ call ∈ past, call.particle.growth.toList <+: p.growth.toList) ?_ ?_ ?_ n
  · intro id call hcall
    exact absurd hcall (by simp)
  · intro past p q hpast hfork call hcall
    rw [hfork.nodes]
    exact hpast call hcall
  · intro n past p q hactor hpast _ haccounts call hcall
    rw [haccounts.nodes]
    rcases List.mem_append.mp hcall with hold | hnew
    · exact (hpast call hold).trans (List.prefix_append _ _)
    · obtain ⟨p', hactor', haccounts'⟩ := call_spec (Option.mem_toList.mp hnew)
      obtain rfl : p = p' := Option.some.inj (hactor.symm.trans hactor')
      exact ⟨[], by rw [List.append_nil, haccounts'.nodes]⟩

/-- Of two calls the earlier one saw the beginning of what the later one sees, if it was for the
same particle or for an ancestor. -/
theorem calls_pairwise (hs : s.OnTime) (hstart : s.stage = .populate) (n : Nat) :
    (s.calls n).Pairwise fun earlier later =>
      s.Descends later.particle.id earlier.particle.id →
        earlier.particle.growth.toList <+: later.particle.growth.toList := by
  induction n with
  | zero => exact List.Pairwise.nil
  | succ n ih =>
    have hsucc : s.calls (n + 1) = s.calls n ++ (s.after n).call?.toList := by
      unfold calls
      rw [List.range_succ, List.flatMap_append, List.flatMap_singleton]
    rw [hsucc, List.pairwise_append]
    refine ⟨ih, ?_, ?_⟩
    · cases (s.after n).call? with
      | none => exact List.Pairwise.nil
      | some call => exact List.pairwise_singleton _ call
    · intro earlier hearlier later hlater hdescends
      obtain ⟨p, hactor, haccounts⟩ := call_spec (Option.mem_toList.mp hlater)
      -- The earlier call is noted in the history of whoever acts now.
      obtain ⟨m, hm, hcall⟩ := List.mem_flatMap.mp hearlier
      obtain ⟨a, hactor', haccounts'⟩ := call_spec (Option.mem_toList.mp hcall)
      rw [haccounts.id, haccounts'.id] at hdescends
      have hnoted : earlier ∈ s.history (fun t => t.call?.toList) n p.id := by
        unfold history
        rw [List.mem_flatMap]
        exact ⟨m, hm, by rw [if_pos ⟨a, hactor', hdescends⟩]; exact hcall⟩
      rw [haccounts.nodes]
      exact (judged_begins hs hstart n p (actor_mem hactor) earlier hnoted).trans
        (List.prefix_append _ _)

end Calls

/-! ## The log of a model -/

section Log

variable {s : Search N R ρ (Recorded κ N R) ω}

omit [Watcher ω N R] in
/-- A growth logs the call it ends with. -/
theorem calls_growth (phase : Phase) (useHeuristic : Bool) (p : Particle N R) :
    (s.growth phase useHeuristic p).2.2.1.calls.toList = s.model.calls.toList
      ++ (p.judgement s.grammar phase useHeuristic s.patience s.source).toList := by
  have hmodel := (Particle.grow_spec s.grammar phase useHeuristic s.patience p s.model s.source).2
  unfold growth
  rw [hmodel]
  cases p.judgement s.grammar phase useHeuristic s.patience s.source with
  | none => simp
  | some call =>
    show (s.model.calls.push _).toList = _
    simp

/-- A step logs the call it makes. -/
theorem log_step (s : Search N R ρ (Recorded κ N R) ω) :
    s.step.2.model.calls.toList = s.model.calls.toList ++ s.call?.toList := by
  cases s.situation with
  | populate h =>
    obtain ⟨w, -, hstep⟩ := step_populate h
    rw [hstep]
    simp [call?, h]
  | grow g next p h hp =>
    have hcall : s.call?
        = p.judgement s.grammar .skeleton (s.heuristicCounts g) s.patience s.source := by
      simp [call?, actor?, h, hp]
    rw [step_grow h hp, hcall]
    exact calls_growth .skeleton (s.heuristicCounts g) p
  | endGeneration g next h hp =>
    obtain ⟨w, -, hstep⟩ := step_endGeneration h hp
    rw [hstep]
    simp [call?, actor?, h, hp]
  | resample g h =>
    obtain ⟨w, -, hstep⟩ := step_resample h
    rw [hstep]
    simp [call?, h]
  | select p h hp =>
    obtain ⟨w, -, hstep⟩ := step_select h hp
    rw [hstep]
    simp [call?, h]
  | close p h hp =>
    rw [step_close h hp]
    simp [call?, h]
  | detail p h hp hopen =>
    have hcall : s.call? = p.judgement s.grammar .detail false s.patience s.source := by
      simp [call?, actor?, h, hp]
    rw [step_detail h hp hopen, hcall]
    exact calls_growth .detail false p
  | finish p h hp hclosed =>
    obtain ⟨w, -, hstep⟩ := step_finish h hp hclosed
    -- The particle is due still, but there is nothing to judge.
    have hempty : (p.buds .detail).isEmpty = true := hclosed
    rw [hstep]
    simp [call?, actor?, h, hp, Particle.judgement, hempty]
  | idle hstep hactor =>
    rw [hstep]
    simp [call?, hactor]

theorem log_after (s : Search N R ρ (Recorded κ N R) ω) (n : Nat) :
    (s.after n).model.calls.toList = s.model.calls.toList ++ s.calls n := by
  induction n with
  | zero => exact (List.append_nil _).symm
  | succ n ih =>
    show (s.after n).step.2.model.calls.toList = _
    rw [log_step, ih]
    unfold calls
    rw [List.range_succ, List.flatMap_append, List.flatMap_singleton, List.append_assoc]

end Log

/-! ## What a cost model may rely on -/

/-- What holds of the numbers of particles and of the calls up to a step. -/
structure SoundKeys (s : Search N R ρ (Recorded κ N R) ω) (n : Nat) : Prop where
  /-- The particles of a generation are numbered on from those of the generations before. -/
  numbers : ∀ m ≤ n, ∀ g, (∃ next, (s.after m).stage = .grow g next) ∨
      (s.after m).stage = .resample g ∨
      (s.after m).stage = .selectSurvivor ∧ g + 1 = s.config.generations →
    (s.after m).population.size = s.config.sampleCountAt g ∧
      ∀ (j : Nat) (p : Particle N R), (s.after m).population[j]? = some p →
        p.id = ((List.range g).map s.config.sampleCountAt).sum + j
  /-- A particle, the survivor too, is one of the generation that started last. The first has no
  parents, and every other has them in the one before. -/
  parents : ∀ m ≤ n, ∀ p ∈ (s.after m).particles, ∃ g, (s.after m).started = g + 1 ∧
    (∃ j < s.config.sampleCountAt g,
      p.id = ((List.range g).map s.config.sampleCountAt).sum + j) ∧
    (g = 0 → p.parent = none) ∧
    ∀ h, g = h + 1 → ∃ k < s.config.sampleCountAt h,
      p.parent = some (((List.range h).map s.config.sampleCountAt).sum + k)
  /-- No two particles have one number. -/
  distinct : ∀ m ≤ n, ∀ p ∈ (s.after m).particles, ∀ q ∈ (s.after m).particles,
    p.id = q.id → p = q
  /-- A number that no particle has just before a particle has it was never given before. -/
  fresh : ∀ m < n, ∀ q ∈ (s.after (m + 1)).particles,
    (∃ p ∈ (s.after m).particles, p.id = q.id ∧ p.parent = q.parent) ∨
      ∀ l ≤ m, ∀ p ∈ (s.after l).particles, p.id ≠ q.id
  /-- What a call has seen is there, at the same places, in every later call for the same particle
  or for a descendant. -/
  calls : (s.after n).model.calls.toList.Pairwise fun earlier later =>
    s.Descends later.particle.id earlier.particle.id →
      earlier.particle.growth.toList <+: later.particle.growth.toList ∧
        ∀ (id : NodeId) (node : N), earlier.particle.growth.get? id = some node →
          later.particle.growth.get? id = some node

omit [RandomSource ρ] [CostModel κ N R] [Watcher ω N R] in
/-- A number of a generation is one of as many. -/
theorem position_of_belongs {c : Config R} {g : Nat} {id : ParticleId}
    (hlow : c.firstId g ≤ id) (hhigh : id < c.firstId (g + 1)) :
    ∃ j < c.sampleCountAt g, id = ((List.range g).map c.sampleCountAt).sum + j := by
  rw [Config.firstId_succ] at hhigh
  obtain ⟨j, hj⟩ := Nat.exists_eq_add_of_le hlow
  rw [hj] at hhigh
  exact ⟨j, Nat.lt_of_add_lt_add_left hhigh, hj⟩

/-- Over every run the numbers of particles and the places of nodes are sound keys. -/
theorem cache_keys_sound {s : Search N R ρ (Recorded κ N R) ω} {grammar : Grammar N R} {root : N}
    {start : String} {config : Config R} {patience : Nat} {model : κ} {source : ρ} {watcher : ω}
    (hnew : Search.new grammar root start config patience (Recorded.ofModel model) source watcher
      = .ok s) (n : Nat) : s.SoundKeys n := by
  have hs := onTime_new hnew
  have hstart := stage_new hnew
  have hcalls : s.model.calls = #[] := by
    obtain ⟨rfl, -⟩ := new_spec hnew
    rfl
  have hconfig : ∀ m, (s.after m).config = s.config := fun m => (s.sameTask_after m).config
  constructor
  case numbers =>
    intro m _ g hstage
    have hgen : IsGeneration (s.after m).config g (s.after m).population := by
      refine (onTime_after hs m).generation ?_
      rw [hconfig]
      exact hstage
    rw [hconfig] at hgen
    exact ⟨hgen.size, hgen.number⟩
  case parents =>
    intro m _ p hp
    obtain ⟨g, hstarted, hg⟩ := belongs_after hs hp
    refine ⟨g, hstarted, position_of_belongs hg.low hg.high, hg.first, fun h hh => ?_⟩
    obtain ⟨parent, hparent, hlow, hhigh⟩ := hg.later h hh
    rw [hh] at hhigh
    obtain ⟨k, hk, hid⟩ := position_of_belongs hlow hhigh
    exact ⟨k, hk, hid ▸ hparent⟩
  case distinct => exact fun m _ p hp q hq hid => (onTime_after hs m).eq_of_id_eq hp hq hid
  case fresh =>
    intro m _ q hq
    have hlater : ∀ l ≤ m, (s.after (m + 1)).started = (s.after m).started + 1 →
        ∀ p ∈ (s.after l).particles, p.id ≠ q.id := fun l hl hnext p hp hid => by
      have hstarted := started_eq_of_id_eq hs hp hq hid
      have hle := started_le hs hl
      omega
    -- Only seeds and forks have new numbers, and with them a generation starts.
    cases origin (onTime_after hs m) hq with
    | seeded id _ hnone hnext =>
      exact Or.inr fun l hl => hlater l hl (by rw [hnone]; exact hnext)
    | kept hmem _ => exact Or.inl ⟨q, hmem, rfl, rfl⟩
    | acted p hactor _ haccounts =>
      exact Or.inl ⟨p, actor_mem hactor, haccounts.id.symm, haccounts.parent.symm⟩
    | forked p _ _ _ hnext => exact Or.inr fun l hl => hlater l hl hnext
  case calls =>
    rw [log_after, hcalls, List.nil_append]
    refine (calls_pairwise hs hstart n).imp fun {earlier later} hbegins hdescends => ?_
    obtain ⟨rest, hrest⟩ := hbegins hdescends
    refine ⟨⟨rest, hrest⟩, fun id node hnode => ?_⟩
    rw [Growth.get?_eq_getElem?] at hnode ⊢
    rw [← hrest]
    obtain ⟨hlt, -⟩ := List.getElem?_eq_some_iff.mp hnode
    rw [List.getElem?_append_left hlt]
    exact hnode

/-- Two stems are judged, and a fork of the first particle when a detail has grown. -/
theorem cache_keys_sound_small : ∃ s : Search String Sample.Whole Source
    (Recorded (NoCost String Sample.Whole) String Sample.Whole) (Sink Sample.Whole),
    Sample.search (.ofModel ⟨⟩) = .ok s ∧
      (s.after 12).model.calls.toList.map (fun call => (call.particle.id, call.particle.parent))
        = [(0, none), (1, none), (2, some 0)] ∧ s.SoundKeys 12 := by
  obtain ⟨model, hmodel⟩ : ∃ model : Recorded (NoCost String Sample.Whole) String Sample.Whole,
    model = .ofModel ⟨⟩ := ⟨_, rfl⟩
  have hrun : ((Sample.search model).toOption.map fun s =>
      (s.after 12).model.calls.toList.map fun call => (call.particle.id, call.particle.parent))
        = some [(0, none), (1, none), (2, some 0)] := by
    rw [hmodel]
    decide +kernel
  obtain ⟨s, hnew, hcalls⟩ := exists_of_toOption_map hrun
  rw [hmodel] at hnew
  exact ⟨s, hnew, hcalls, cache_keys_sound hnew 12⟩

end Espalier.Search
