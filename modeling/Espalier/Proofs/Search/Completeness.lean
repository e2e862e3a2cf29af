import Espalier.Proofs.Search.Lineage

/-!
# What a search leaves open

A bud is to be expanded or closed once. Over a run the balance holds: every bud that was registered
along the lineage of a particle has had one turn there or is open still (`registered_perm`). What
may be open at the end is the question, and the answer is `skeleton_strays`: closing empties the
skeleton, and after that only the detail stage registers buds in it, which nobody expands.

The last section puts the two together. A survivor is complete, with every bud treated once,
exactly when the detail stage registered details only and no bud of its lineage failed. The sample
grammar breaks the first condition.
-/

namespace Espalier.Search

variable {N R ρ κ ω : Type} [Scalar R] [RandomSource ρ] [CostModel κ N R] [Watcher ω N R]
  {s : Search N R ρ κ ω} {p q : Particle N R}

/-! ## The balance along a lineage -/

/-- The bud of a seed and those that some turns registered. -/
def registered (start : String) (past : List (Turn N ρ)) : List Bud :=
  ⟨start, 0⟩ :: past.flatMap (·.harvest.buds)

omit [Scalar R] in
/-- Turns keep the balance of a particle: what they register is open until it has its turn. -/
theorem perm_of_accounts {g : Grammar N R} {phase : Phase} {turns : List (Turn N ρ)}
    (h : Accounts g phase p turns q) {start : String} {past : List (Turn N ρ)}
    (hpast : (registered start past).Perm (past.map (·.bud) ++ p.openBuds)) :
    (registered start (past ++ turns)).Perm
      ((past ++ turns).map (·.bud) ++ q.openBuds) := by
  -- In the phase the turns take from the queue, in the other one they only add to it.
  obtain ⟨other, hne⟩ : ∃ other, other ≠ phase := by
    cases phase
    case skeleton => exact ⟨.detail, by decide⟩
    case detail => exact ⟨.skeleton, by decide⟩
  have hregistered : registered start (past ++ turns)
      = registered start past ++ turns.flatMap (·.harvest.buds) := by
    simp [registered]
  rw [hregistered, List.map_append, List.perm_iff_count]
  intro bud
  -- Each fact is read as an equation between how often the bud occurs.
  have hbefore := hpast.count_eq bud
  have hp := (Particle.openBuds_perm hne p).count_eq bud
  have hnew := (g.perm_phases hne (turns.flatMap (·.harvest.buds))).count_eq bud
  have hphase := h.queue.count_eq bud
  have hother := congrArg (List.count bud) (h.others other hne)
  have hq := (Particle.openBuds_perm hne q).count_eq bud
  unfold Turn.sprouts at hphase hother
  simp only [List.count_append] at hbefore hp hnew hphase hother hq ⊢
  omega

/-- Every bud that was registered along a lineage has had one turn there or is open. -/
theorem registered_perm (hs : s.OnTime) (hstart : s.stage = .populate) (n : Nat) :
    ∀ p ∈ (s.after n).particles, (registered s.start (s.history turns n p.id)).Perm
      ((s.history turns n p.id).map (·.bud) ++ p.openBuds) := by
  refine along_lineage hs hstart (P := fun (past : List (Turn N ρ)) p =>
    (registered s.start past).Perm (past.map (·.bud) ++ p.openBuds)) ?_ ?_ ?_ n
  · intro id
    exact List.Perm.refl _
  · intro past p q hpast hfork
    have hskeleton : q.skeleton = p.skeleton := hfork.buds .skeleton
    have hdetails : q.details = p.details := hfork.buds .detail
    have hopen : q.openBuds = p.openBuds := by
      unfold Particle.openBuds
      rw [hskeleton, hdetails]
    rw [hopen]
    exact hpast
  · intro n past p q _ hpast _ haccounts
    exact perm_of_accounts haccounts hpast

/-! ## What the detail stage leaves behind -/

/-- The buds that the detail stage registered in the skeleton in the first steps. -/
def strays (s : Search N R ρ κ ω) (n : Nat) : List Bud :=
  (List.range n).flatMap fun m =>
    if (s.after m).stage = .detail then Turn.sprouts s.grammar .skeleton (s.after m).turns else []

theorem strays_succ (s : Search N R ρ κ ω) (n : Nat) :
    s.strays (n + 1) = s.strays n ++ if (s.after n).stage = .detail then
      Turn.sprouts s.grammar .skeleton (s.after n).turns else [] := by
  unfold strays
  rw [List.range_succ, List.flatMap_append, List.flatMap_singleton]

/-- A search that has come to the details does not go back. -/
theorem detail_or_done_step (h : s.stage = .detail ∨ s.stage = .done) :
    s.step.2.stage = .detail ∨ s.step.2.stage = .done := by
  rcases h with h | h
  · cases hp : s.survivor with
    | none =>
      rw [step_detail_none h hp]
      exact Or.inl h
    | some p =>
      cases hopen : p.details.isEmpty with
      | false =>
        rw [step_detail h hp hopen]
        exact Or.inl h
      | true =>
        obtain ⟨w, -, hstep⟩ := step_finish h hp hopen
        rw [hstep]
        exact Or.inr rfl
  · rw [step_done h]
    exact Or.inr h

/-- Before the details nothing has been left behind. -/
theorem strays_eq_nil {n : Nat} (hdetail : (s.after n).stage ≠ .detail)
    (hdone : (s.after n).stage ≠ .done) : s.strays n = [] := by
  induction n with
  | zero => rfl
  | succ n ih =>
    have hbefore : ¬ ((s.after n).stage = .detail ∨ (s.after n).stage = .done) := by
      intro h
      rcases detail_or_done_step h with hnow | hnow
      · exact hdetail hnow
      · exact hdone hnow
    rw [not_or] at hbefore
    rw [strays_succ, ih hbefore.1 hbefore.2, if_neg hbefore.1, List.nil_append]

omit [Scalar R] in
/-- Only a closing that finds nothing open leads to the details. -/
theorem none_of_afterClosing {closed : Except (Failure R) (Option Bud)}
    (h : afterClosing closed = .detail) : closed = .ok none := by
  cases closed with
  | error failure => exact absurd h (by simp [afterClosing])
  | ok bud =>
    cases bud with
    | none => rfl
    | some bud => exact absurd h (by simp [afterClosing])

/-- A survivor in the detail stage was there already and grew details, or it comes from closing,
which has emptied its skeleton. -/
theorem skeleton_of_detail (hstage : s.step.2.stage = .detail) (hq : s.step.2.survivor = some q) :
    (∃ p, s.stage = .detail ∧ s.survivor = some p ∧ Accounts s.grammar .detail p s.turns q) ∨
      s.stage = .close ∧ q.skeleton = #[] := by
  cases s.situation with
  | populate h =>
    obtain ⟨w, -, hstep⟩ := step_populate h
    rw [hstep] at hstage
    exact absurd hstage (by simp)
  | grow g next p h hp =>
    rw [step_grow h hp] at hstage
    dsimp only at hstage
    split at hstage <;> exact absurd hstage (by simp)
  | endGeneration g next h hp =>
    obtain ⟨w, -, hstep⟩ := step_endGeneration h hp
    rw [hstep] at hstage
    dsimp only [afterGeneration] at hstage
    split at hstage <;> exact absurd hstage (by simp)
  | resample g h =>
    obtain ⟨w, -, hstep⟩ := step_resample h
    rw [hstep] at hstage
    exact absurd hstage (by simp)
  | select p h hp =>
    obtain ⟨w, -, hstep⟩ := step_select h hp
    rw [hstep] at hstage
    exact absurd hstage (by simp)
  | close p h hp =>
    rw [step_close h hp] at hstage hq
    refine Or.inr ⟨h, ?_⟩
    have hclosed := none_of_afterClosing hstage
    obtain ⟨hskeleton, hsame⟩ := Particle.skeleton_of_close hclosed
    rw [← Option.some.inj hq, hsame, hskeleton]
  | detail p h hp hopen =>
    rw [step_detail h hp hopen] at hq
    obtain ⟨-, -, hturns⟩ := acting_detail h hp
    refine Or.inl ⟨p, h, hp, ?_⟩
    rw [hturns, ← Option.some.inj hq]
    exact accounts_growth s .detail false p
  | finish p h hp hclosed =>
    obtain ⟨w, -, hstep⟩ := step_finish h hp hclosed
    rw [hstep] at hstage
    exact absurd hstage (by simp)
  | idle hstep hactor =>
    rw [hstep] at hstage hq
    dsimp only at hstage hq
    exact absurd hactor (by simp [actor?, hstage, hq])

/-- In the detail stage the skeleton holds what the stage has registered there. -/
theorem skeleton_strays (hstart : s.stage = .populate) {n : Nat}
    (hstage : (s.after n).stage = .detail) (hq : (s.after n).survivor = some q) :
    q.skeleton.toList = s.strays n := by
  induction n generalizing q with
  | zero => exact absurd (hstart.symm.trans hstage) (by simp)
  | succ n ih =>
    rw [strays_succ]
    rcases skeleton_of_detail hstage hq with ⟨p, hbefore, hp, haccounts⟩ | ⟨hclose, hempty⟩
    · -- Growing details only adds to the skeleton.
      rw [if_pos hbefore, ← ih hbefore hp, ← (s.sameTask_after n).grammar]
      exact haccounts.others .skeleton (by decide)
    · have hnot : (s.after n).stage ≠ .detail := by simp [hclose]
      rw [if_neg hnot, strays_eq_nil hnot (by simp [hclose]), hempty]
      rfl

/-- All that the detail stage registered in the first steps were details. -/
def DetailsOnly (s : Search N R ρ κ ω) (n : Nat) : Prop :=
  ∀ m < n, (s.after m).stage = .detail → ∀ t ∈ (s.after m).turns, ∀ bud ∈ t.harvest.buds,
    s.grammar.isDetail bud.rule = true

theorem strays_eq_nil_iff (s : Search N R ρ κ ω) (n : Nat) :
    s.strays n = [] ↔ s.DetailsOnly n := by
  unfold strays DetailsOnly
  rw [List.flatMap_eq_nil_iff]
  refine forall_congr' fun m => ?_
  rw [List.mem_range]
  refine imp_congr_right fun _ => ?_
  by_cases hstage : (s.after m).stage = .detail
  · rw [if_pos hstage, Turn.sprouts_eq_nil_iff]
    exact ⟨fun h _ => h, fun h => h hstage⟩
  · rw [if_neg hstage]
    exact ⟨fun _ h => absurd h hstage, fun _ => rfl⟩

/-! ## Turns of steps that succeed -/

/-- A step that succeeds has apt turns. -/
theorem apt_turns (hok : s.step.1.isOk = true) : ∀ t ∈ s.turns, t.Apt s.grammar := by
  have hnobody : s.actor? = none → ∀ t ∈ s.turns, t.Apt s.grammar := by
    intro hactor
    rw [turns_eq_nil hactor]
    simp
  cases s.situation with
  | populate h => exact hnobody (by simp [actor?, h])
  | grow g next p h hp =>
    obtain ⟨-, -, hturns⟩ := acting_grow h hp
    rw [step_grow h hp, isOk_map] at hok
    rw [hturns]
    obtain ⟨pushed, hgrowth⟩ := exists_ok hok
    exact Particle.apt_grow hgrowth
  | endGeneration g next h hp => exact hnobody (by simp [actor?, h, hp])
  | resample g h => exact hnobody (by simp [actor?, h])
  | select p h hp => exact hnobody (by simp [actor?, h])
  | close p h hp =>
    obtain ⟨-, -, hturns⟩ := acting_close h hp
    rw [step_close h hp, isOk_map] at hok
    rw [hturns]
    obtain ⟨closed, hclose⟩ := exists_ok hok
    exact Particle.apt_close hclose
  | detail p h hp hopen =>
    obtain ⟨-, -, hturns⟩ := acting_detail h hp
    rw [step_detail h hp hopen, isOk_map] at hok
    rw [hturns]
    obtain ⟨pushed, hgrowth⟩ := exists_ok hok
    exact Particle.apt_grow hgrowth
  | finish p h hp hclosed =>
    obtain ⟨-, -, hturns⟩ := acting_detail h hp
    have hnone : (p.buds .detail).isEmpty = true := hclosed
    rw [hturns]
    unfold Particle.expansions
    rw [if_pos (Or.inr hnone)]
    simp
  | idle hstep hactor => exact hnobody hactor

/-- In a run without failures every turn of a lineage is apt. -/
theorem apt_history {n : Nat} (hok : s.Succeeds n) (id : ParticleId) :
    ∀ t ∈ s.history turns n id, t.Apt s.grammar := by
  intro t ht
  unfold history at ht
  obtain ⟨m, hm, hmem⟩ := List.mem_flatMap.mp ht
  split at hmem
  · rw [← (s.sameTask_after m).grammar]
    exact apt_turns (hok m (List.mem_range.mp hm)) t hmem
  · exact absurd hmem (by simp)

/-! ## The end -/

/-- Only the detail stage finishes, with a survivor that has no details open. -/
theorem finish_of_done {result : Outcome N R} (h : s.step.1 = .ok (.done result)) :
    ∃ p, s.stage = .detail ∧ s.survivor = some p ∧ p.details = #[] ∧ result = outcome p := by
  cases s.situation with
  | populate hstage =>
    obtain ⟨w, -, hstep⟩ := step_populate hstage
    rw [hstep] at h
    exact absurd h (by simp)
  | grow g next p hstage hp =>
    rw [step_grow hstage hp] at h
    exact absurd h (map_pending_ne_done _ result)
  | endGeneration g next hstage hp =>
    obtain ⟨w, -, hstep⟩ := step_endGeneration hstage hp
    rw [hstep] at h
    exact absurd h (by simp)
  | resample g hstage =>
    obtain ⟨w, -, hstep⟩ := step_resample hstage
    rw [hstep] at h
    exact absurd h (by simp)
  | select p hstage hp =>
    obtain ⟨w, -, hstep⟩ := step_select hstage hp
    rw [hstep] at h
    exact absurd h (by simp)
  | close p hstage hp =>
    rw [step_close hstage hp] at h
    exact absurd h (map_pending_ne_done _ result)
  | detail p hstage hp hopen =>
    rw [step_detail hstage hp hopen] at h
    exact absurd h (map_pending_ne_done _ result)
  | finish p hstage hp hclosed =>
    obtain ⟨w, -, hstep⟩ := step_finish hstage hp hclosed
    rw [hstep] at h
    simp only [Except.ok.injEq, Step.done.injEq] at h
    exact ⟨p, hstage, hp, Array.isEmpty_iff.mp hclosed, h.symm⟩
  | idle hstep _ =>
    rw [hstep] at h
    exact absurd h (by simp)

open Classical in
/-- Every bud that was registered along a lineage was expanded or closed there, once. -/
def OnceEach (s : Search N R ρ κ ω) (n : Nat) (id : ParticleId) : Prop :=
  (registered s.start (s.history turns n id)).Perm
    (((s.history turns n id).filter fun t => t.Apt s.grammar).map (·.bud))

/-- When turns and strays balance what was registered, each bud was treated once exactly when there
are no strays and all turns are apt. -/
theorem onceEach_iff {n : Nat} {id : ParticleId}
    (h : (registered s.start (s.history turns n id)).Perm
      ((s.history turns n id).map (·.bud) ++ s.strays n)) :
    s.OnceEach n id ↔ s.strays n = [] ∧ ∀ t ∈ s.history turns n id, t.Apt s.grammar := by
  classical
  constructor
  · intro honce
    have hlength := h.length_eq
    have honce' := honce.length_eq
    have hle := List.length_filter_le (fun t => decide (t.Apt s.grammar)) (s.history turns n id)
    rw [List.length_append, List.length_map] at hlength
    rw [List.length_map] at honce'
    -- The apt turns alone are as many as all turns and the strays together.
    have hstrays : (s.strays n).length = 0 := by omega
    have hall : ((s.history turns n id).filter fun t => decide (t.Apt s.grammar)).length
        = (s.history turns n id).length := by omega
    refine ⟨List.eq_nil_of_length_eq_zero hstrays, fun t ht => ?_⟩
    exact of_decide_eq_true (List.length_filter_eq_length_iff.mp hall t ht)
  · rintro ⟨hstrays, hapt⟩
    unfold OnceEach
    rw [List.filter_eq_self.mpr fun t ht => decide_eq_true (hapt t ht)]
    rw [hstrays, List.append_nil] at h
    exact h

/-- What holds at the end of a search of the particle it ends with. -/
structure EndsWith (s : Search N R ρ κ ω) (n : Nat) (p : Particle N R) : Prop where
  /-- No details are open, and in the skeleton just what the detail stage registered there. -/
  details : p.details = #[]
  skeleton : p.skeleton.toList = s.strays n
  complete : p.isComplete = true ↔ s.DetailsOnly n
  /-- What was registered along the lineage has had one turn each, but for what is open. -/
  balance : (registered s.start (s.history turns n p.id)).Perm
    ((s.history turns n p.id).map (·.bud) ++ s.strays n)
  /-- A bud that had its turn was treated by its rule, unless a step failed. -/
  apt : s.Succeeds n → ∀ t ∈ s.history turns n p.id, t.Apt s.grammar
  once : p.isComplete = true ∧ s.OnceEach n p.id ↔
    s.DetailsOnly n ∧ ∀ t ∈ s.history turns n p.id, t.Apt s.grammar

/-- Over every run: the survivor a search ends with is complete, with every bud of its lineage
treated once, exactly when the detail stage registered details only and no bud failed. -/
theorem ends_with_survivor {grammar : Grammar N R} {root : N} {start : String} {config : Config R}
    {patience : Nat} {model : κ} {source : ρ} {watcher : ω}
    (hnew : Search.new grammar root start config patience model source watcher = .ok s)
    {n : Nat} {result : Outcome N R} (hdone : (s.after n).step.1 = .ok (.done result)) :
    ∃ p, (s.after n).survivor = some p ∧ result = outcome p ∧ s.EndsWith n p := by
  have hs := onTime_new hnew
  have hstart := stage_new hnew
  obtain ⟨p, hstage, hsurvivor, hdetails, hresult⟩ := finish_of_done hdone
  have hskeleton := skeleton_strays hstart hstage hsurvivor
  have hopen : p.openBuds = s.strays n := by
    unfold Particle.openBuds
    rw [hskeleton, hdetails, Array.toList_empty, List.append_nil]
  have hbalance := registered_perm hs hstart n p (mem_particles.mpr (Or.inr hsurvivor))
  rw [hopen] at hbalance
  have hcomplete : p.isComplete = true ↔ s.DetailsOnly n := by
    rw [p.isComplete_iff, hopen]
    exact s.strays_eq_nil_iff n
  refine ⟨p, hsurvivor, hresult, ?_⟩
  constructor
  case details => exact hdetails
  case skeleton => exact hskeleton
  case complete => exact hcomplete
  case balance => exact hbalance
  case apt => exact fun hok => apt_history hok p.id
  case once =>
    rw [hcomplete, onceEach_iff hbalance, s.strays_eq_nil_iff n]
    exact ⟨fun ⟨_, hboth⟩ => hboth, fun hboth => ⟨hboth.1, hboth⟩⟩

/-- The sample search ends after eleven steps. -/
theorem ends_with_survivor_small : ∃ (s : Search String Sample.Whole Source
    (NoCost String Sample.Whole) (Sink Sample.Whole)) (result : Outcome String Sample.Whole),
    Sample.search ⟨⟩ = .ok s ∧ (s.after 11).step.1 = .ok (.done result) ∧
      ∃ p, (s.after 11).survivor = some p ∧ result = outcome p ∧ s.EndsWith 11 p := by
  have hrun : ((Sample.search (⟨⟩ : NoCost String Sample.Whole)).toOption.map fun s =>
      ((s.after 11).stage, (s.after 11).survivor.map (·.details))) = some (.detail, some #[]) := by
    decide +kernel
  obtain ⟨s, hnew, hseen⟩ := exists_of_toOption_map hrun
  obtain ⟨hstage, hsome⟩ := Prod.mk.inj hseen
  obtain ⟨p, hsurvivor, hdetails⟩ := Option.map_eq_some_iff.mp hsome
  obtain ⟨w, -, hstep⟩ := step_finish hstage hsurvivor (by rw [hdetails]; rfl)
  have hdone : (s.after 11).step.1 = .ok (.done (outcome p)) := congrArg Prod.fst hstep
  exact ⟨s, outcome p, hnew, hdone, ends_with_survivor hnew hdone⟩

/-- The sample leaf is a detail and bears a shoot, which is none. No step of the search fails, and
it ends with the shoot open. -/
theorem incomplete_small : ∃ (s : Search String Binary64 Source (NoCost String Binary64)
    (Sink Binary64)) (p : Particle String Binary64), Sample.brief ⟨⟩ = .ok s ∧ s.Succeeds 7 ∧
      (s.after 6).survivor = some p ∧ (s.after 6).step.1 = .ok (.done (outcome p)) ∧
      p.skeleton = #[⟨"shoot", 2⟩] ∧ p.details = #[] ∧ ¬ p.isComplete = true := by
  have hrun : ((Sample.brief (⟨⟩ : NoCost String Binary64)).toOption.map fun s =>
      (decide (s.Succeeds 7), (s.after 6).stage,
        (s.after 6).survivor.map fun p => (p.skeleton, p.details)))
          = some (true, .detail, some (#[⟨"shoot", 2⟩], #[])) := by
    decide +kernel
  obtain ⟨s, hnew, hseen⟩ := exists_of_toOption_map hrun
  obtain ⟨hsucceeds, hseen⟩ := Prod.mk.inj hseen
  obtain ⟨hstage, hqueues⟩ := Prod.mk.inj hseen
  have hok : s.Succeeds 7 := of_decide_eq_true hsucceeds
  obtain ⟨p, hsurvivor, hboth⟩ := Option.map_eq_some_iff.mp hqueues
  obtain ⟨hskeleton, hdetails⟩ := Prod.mk.inj hboth
  obtain ⟨w, -, hstep⟩ := step_finish hstage hsurvivor (by rw [hdetails]; rfl)
  have hopen : ¬ p.isComplete = true := by
    unfold Particle.isComplete
    rw [hskeleton]
    exact Bool.false_ne_true
  exact ⟨s, p, hnew, hok, hsurvivor, congrArg Prod.fst hstep, hskeleton, hdetails, hopen⟩

end Espalier.Search
