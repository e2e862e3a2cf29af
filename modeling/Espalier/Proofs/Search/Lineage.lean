import Espalier.Proofs.Search.Generations
import Mathlib.Logic.Relation

/-!
# Lineages

Where the particles of a search come from. `origin` is the step lemma: a particle was seeded, kept,
forked or acted. A number is given to one particle only, so the parent of a number is always the
same (`parent_unique`), and `Search.Descends` follows the parents.

`Search.history` collects what was noted of a particle and of its ancestors, and `along_lineage` is
the induction over a whole run: what holds of seeds, passes to forks and is kept by whoever acts
holds of every particle with its history.
-/

namespace Espalier.Search

variable {N R ρ κ ω : Type} [Scalar R] [RandomSource ρ] [CostModel κ N R] [Watcher ω N R]
  {s : Search N R ρ κ ω} {p q : Particle N R}

/-! ## Generations that have started -/

/-- How many generations have started in a stage. -/
def startedIn (generations : Nat) : Stage → Nat
  | .populate => 0
  | .grow g _ | .resample g => g + 1
  | _ => generations

/-- How many generations have started. -/
def started (s : Search N R ρ κ ω) : Nat := startedIn s.config.generations s.stage

omit [Scalar R] [RandomSource ρ] [CostModel κ N R] [Watcher ω N R] in
theorem mem_particles : p ∈ s.particles ↔ p ∈ s.population ∨ s.survivor = some p := by
  unfold particles
  rw [List.mem_append, Array.mem_toList_iff, Option.mem_toList]

omit [Scalar R] [RandomSource ρ] [CostModel κ N R] [Watcher ω N R] in
/-- Whoever acts is one of the particles. -/
theorem actor_mem (h : s.actor? = some p) : p ∈ s.particles := by
  rw [mem_particles]
  unfold actor? at h
  split at h
  · exact Or.inl (Array.mem_of_getElem? h)
  · exact Or.inr h
  · exact Or.inr h
  · exact absurd h (by simp)

omit [RandomSource ρ] [CostModel κ N R] [Watcher ω N R] in
/-- The particles are all those of the generation that started last, or a survivor of it at most. -/
theorem OnTime.crowd (hs : s.OnTime) :
    (∃ g, s.started = g + 1 ∧ IsGeneration s.config g s.population ∧ s.survivor = none) ∨
      (s.population = #[] ∧
        ∀ p, s.survivor = some p → ∃ g, s.started = g + 1 ∧ Belongs s.config g p) := by
  unfold started
  cases h : s.stage with
  | populate =>
    obtain ⟨hpopulation, hsurvivor, -⟩ := hs.holds_at h
    exact Or.inr ⟨hpopulation, fun p hp => absurd hp (by simp [hsurvivor])⟩
  | grow g next =>
    obtain ⟨-, -, hgen, hsurvivor, -⟩ := hs.holds_at h
    exact Or.inl ⟨g, rfl, hgen, hsurvivor⟩
  | resample g =>
    obtain ⟨-, hgen, hsurvivor, -⟩ := hs.holds_at h
    exact Or.inl ⟨g, rfl, hgen, hsurvivor⟩
  | selectSurvivor =>
    obtain ⟨g, hlast, hgen, hsurvivor⟩ := hs.holds_at h
    exact Or.inl ⟨g, hlast, hgen, hsurvivor⟩
  | close | detail =>
    obtain ⟨hpopulation, p, g, hsurvivor, hlast, hbelongs⟩ := hs.holds_at h
    refine Or.inr ⟨hpopulation, fun q hq => ⟨g, hlast, ?_⟩⟩
    rw [hsurvivor] at hq
    exact Option.some.inj hq ▸ hbelongs
  | done =>
    obtain ⟨hpopulation, hsurvivor⟩ := hs.holds_at h
    exact Or.inr ⟨hpopulation, fun p hp => absurd hp (by simp [hsurvivor])⟩

omit [RandomSource ρ] [CostModel κ N R] [Watcher ω N R] in
/-- Every particle is one of the generation that started last. -/
theorem OnTime.belongs (hs : s.OnTime) (hp : p ∈ s.particles) :
    ∃ g, s.started = g + 1 ∧ Belongs s.config g p := by
  rw [mem_particles] at hp
  rcases hs.crowd with ⟨g, hstarted, hgen, hsurvivor⟩ | ⟨hpopulation, hbelongs⟩
  · have hmem := hp.resolve_right (by simp [hsurvivor])
    exact ⟨g, hstarted, hgen.belong p hmem⟩
  · exact hbelongs p (hp.resolve_left (by simp [hpopulation]))

/-- No two particles of a generation have one number. -/
theorem IsGeneration.eq_of_id_eq {c : Config R} {g : Nat} {population : Array (Particle N R)}
    (hgen : IsGeneration c g population) (hp : p ∈ population) (hq : q ∈ population)
    (hid : p.id = q.id) : p = q := by
  obtain ⟨j, hj⟩ := Array.mem_iff_getElem?.mp hp
  obtain ⟨k, hk⟩ := Array.mem_iff_getElem?.mp hq
  have hjk : j = k := by
    rw [hgen.number j p hj, hgen.number k q hk] at hid
    exact Nat.add_left_cancel hid
  rw [hjk, hk] at hj
  exact (Option.some.inj hj).symm

omit [RandomSource ρ] [CostModel κ N R] [Watcher ω N R] in
/-- No two particles have one number at a time. -/
theorem OnTime.eq_of_id_eq (hs : s.OnTime) (hp : p ∈ s.particles) (hq : q ∈ s.particles)
    (hid : p.id = q.id) : p = q := by
  rw [mem_particles] at hp hq
  rcases hs.crowd with ⟨g, -, hgen, hsurvivor⟩ | ⟨hpopulation, -⟩
  · have hp' := hp.resolve_right (by simp [hsurvivor])
    have hq' := hq.resolve_right (by simp [hsurvivor])
    exact hgen.eq_of_id_eq hp' hq' hid
  · have hp' := hp.resolve_left (by simp [hpopulation])
    have hq' := hq.resolve_left (by simp [hpopulation])
    exact Option.some.inj (hp'.symm.trans hq')

/-! ## Where particles come from -/

/-- What the next step makes of the particle that acts. -/
def acted (s : Search N R ρ κ ω) (p : Particle N R) : Particle N R :=
  match s.stage with
  | .grow g _ => (s.growth .skeleton (s.heuristicCounts g) p).2.1
  | .detail => (s.growth .detail false p).2.1
  | _ => (p.close s.grammar s.source).2.1

/-- Where a particle comes from that is there after a step. -/
inductive Origin (s : Search N R ρ κ ω) (q : Particle N R) : Prop where
  | seeded (id : ParticleId) (seed : q = Particle.seed id s.start s.root) (none : s.started = 0)
    (next : s.step.2.started = 1)
  | kept (mem : q ∈ s.particles) (other : ∀ p, s.actor? = some p → p.id ≠ q.id)
  | acted (p : Particle N R) (actor : s.actor? = some p) (becomes : q = s.acted p)
    (accounts : Accounts s.grammar s.phase p s.turns q)
  | forked (p : Particle N R) (mem : p ∈ s.particles) (fork : IsFork p q)
    (nobody : s.actor? = none) (next : s.step.2.started = s.started + 1)

/-- When nobody acts, a particle that was there is kept. -/
theorem origin_of_nobody (hactor : s.actor? = none) (hq : q ∈ s.particles) : s.Origin q :=
  .kept hq fun p hp => by simp [hactor] at hp

/-- A growth replaces the particle whose turn it is and keeps all others. -/
theorem origin_grow (hs : s.OnTime) {g next : Nat} (h : s.stage = .grow g next)
    (hp : s.population[next]? = some p) (hq : q ∈ s.step.2.particles) : s.Origin q := by
  obtain ⟨-, -, hgen, hsurvivor, -⟩ := hs.holds_at h
  obtain ⟨hactor, hphase, hturns⟩ := acting_grow h hp
  rw [mem_particles, step_grow h hp] at hq
  have hmem := hq.resolve_right (by simp [hsurvivor])
  obtain ⟨j, hj⟩ := Array.mem_iff_getElem?.mp hmem
  rw [Array.getElem?_setIfInBounds] at hj
  by_cases hjnext : next = j
  · obtain ⟨hlt, -⟩ := Array.getElem?_eq_some_iff.mp hp
    rw [if_pos hjnext, if_pos hlt] at hj
    refine .acted p hactor (by simp only [acted, h, Option.some.inj hj]) ?_
    rw [hturns, hphase, ← Option.some.inj hj]
    exact accounts_growth s .skeleton (s.heuristicCounts g) p
  · rw [if_neg hjnext] at hj
    refine .kept (mem_particles.mpr (Or.inl (Array.mem_of_getElem? hj))) fun p' hp' hid => ?_
    rw [hactor] at hp'
    obtain rfl := Option.some.inj hp'
    -- Two places of one population have two numbers.
    rw [hgen.number next p hp, hgen.number j q hj] at hid
    exact hjnext (Nat.add_left_cancel hid)

/-- Every particle there is after a step comes from somewhere. -/
theorem origin (hs : s.OnTime) (hq : q ∈ s.step.2.particles) : s.Origin q := by
  cases s.situation with
  | populate h =>
    obtain ⟨w, -, hstep⟩ := step_populate h
    have hholds := hs.holds_at h
    rw [mem_particles, hstep] at hq
    have hmem : q ∈ s.seeds := hq.resolve_right (by simp [hholds.2.1])
    obtain ⟨j, hj⟩ := Array.mem_iff_getElem?.mp hmem
    exact .seeded _ (seed_of_seeds hj).2 (by simp [started, startedIn, h])
      (by simp [started, startedIn, hstep])
  | grow g next p h hp => exact origin_grow hs h hp hq
  | endGeneration g next h hp =>
    obtain ⟨w, -, hstep⟩ := step_endGeneration h hp
    have hactor : s.actor? = none := by simp [actor?, h, hp]
    rw [mem_particles, hstep] at hq
    exact origin_of_nobody hactor (mem_particles.mpr hq)
  | resample g h =>
    obtain ⟨w, -, hstep⟩ := step_resample h
    obtain ⟨-, hgen, hsurvivor, hnext⟩ := hs.holds_at h
    have hactor : s.actor? = none := by simp [actor?, h]
    rw [mem_particles, hstep] at hq
    have hmem := hq.resolve_right (by simp [hsurvivor])
    obtain ⟨p, hp, hfork⟩ := (isGeneration_drawn hgen hnext).2 q hmem
    exact .forked p (mem_particles.mpr (Or.inl hp)) hfork hactor
      (by simp [started, startedIn, hstep, h])
  | select p h hp =>
    obtain ⟨w, -, hstep⟩ := step_select h hp
    have hactor : s.actor? = none := by simp [actor?, h]
    obtain ⟨j, -, hj⟩ := Option.bind_eq_some_iff.mp hp
    rw [mem_particles, hstep] at hq
    have hsurvivor := Option.some.inj (hq.resolve_left (by simp))
    rw [hsurvivor] at hj
    exact origin_of_nobody hactor (mem_particles.mpr (Or.inl (Array.mem_of_getElem? hj)))
  | close p h hp =>
    have hholds := hs.holds_at h
    obtain ⟨hactor, hphase, hturns⟩ := acting_close h hp
    rw [mem_particles, step_close h hp] at hq
    have hsurvivor := Option.some.inj (hq.resolve_left (by simp [hholds.1]))
    refine .acted p hactor (by simp only [acted, h, hsurvivor]) ?_
    rw [hturns, hphase, ← hsurvivor]
    exact p.accounts_close s.grammar s.source
  | detail p h hp hopen =>
    have hholds := hs.holds_at h
    obtain ⟨hactor, hphase, hturns⟩ := acting_detail h hp
    rw [mem_particles, step_detail h hp hopen] at hq
    have hsurvivor := Option.some.inj (hq.resolve_left (by simp [hholds.1]))
    refine .acted p hactor (by simp only [acted, h, hsurvivor]) ?_
    rw [hturns, hphase, ← hsurvivor]
    exact accounts_growth s .detail false p
  | finish p h hp hclosed =>
    obtain ⟨w, -, hstep⟩ := step_finish h hp hclosed
    have hholds := hs.holds_at h
    rw [mem_particles, hstep] at hq
    exact absurd hq (by simp [hholds.1])
  | idle hstep hactor =>
    rw [hstep] at hq
    exact origin_of_nobody hactor hq

/-! ## Numbers are given once -/

/-- Generations only ever start. -/
theorem started_step (hs : s.OnTime) : s.started ≤ s.step.2.started := by
  unfold started
  rw [(sameTask_step s).config]
  cases s.situation with
  | populate h =>
    rw [h]
    exact Nat.zero_le _
  | grow g next p h hp =>
    rw [step_grow h hp, h]
    dsimp only
    split <;> exact Nat.le_refl _
  | endGeneration g next h hp =>
    obtain ⟨w, -, hstep⟩ := step_endGeneration h hp
    have hholds := hs.holds_at h
    rw [hstep, h]
    show g + 1 ≤ startedIn _ (s.afterGeneration g)
    unfold afterGeneration
    split
    · exact Nat.le_refl _
    · exact hholds.1
  | resample g h =>
    obtain ⟨w, -, hstep⟩ := step_resample h
    rw [hstep, h]
    exact Nat.le_succ _
  | select p h hp =>
    obtain ⟨w, -, hstep⟩ := step_select h hp
    rw [hstep, h]
    exact Nat.le_refl _
  | close p h hp =>
    rw [step_close h hp, h]
    show s.config.generations ≤ startedIn _ (afterClosing (p.close s.grammar s.source).1)
    rcases (p.close s.grammar s.source).1 with _ | _ | _ <;> exact Nat.le_refl _
  | detail p h hp hopen =>
    have hstage : s.step.2.stage = s.stage := by rw [step_detail h hp hopen]
    exact Nat.le_of_eq (by rw [hstage])
  | finish p h hp hclosed =>
    obtain ⟨w, -, hstep⟩ := step_finish h hp hclosed
    rw [hstep, h]
    exact Nat.le_refl _
  | idle hstep _ =>
    have hstage : s.step.2.stage = s.stage := by rw [hstep]
    exact Nat.le_of_eq (by rw [hstage])

theorem started_le (hs : s.OnTime) {m n : Nat} (hmn : m ≤ n) :
    (s.after m).started ≤ (s.after n).started := by
  induction hmn with
  | refl => exact Nat.le_refl _
  | step _ ih => exact Nat.le_trans ih (started_step (onTime_after hs _))

/-- At every moment particles belong to the generation that started last. -/
theorem belongs_after (hs : s.OnTime) {n : Nat} (hp : p ∈ (s.after n).particles) :
    ∃ g, (s.after n).started = g + 1 ∧ Belongs s.config g p := by
  rw [← (s.sameTask_after n).config]
  exact (onTime_after hs n).belongs hp

/-- A number is one of a generation. -/
def InGeneration (c : Config R) (g : Nat) (id : ParticleId) : Prop :=
  c.firstId g ≤ id ∧ id < c.firstId (g + 1)

/-- A number tells its generation. -/
theorem generation_unique {c : Config R} {g h : Nat} {id : ParticleId}
    (hg : InGeneration c g id) (hh : InGeneration c h id) : g = h := by
  rcases Nat.lt_trichotomy g h with hlt | heq | hgt
  · have hle := c.firstId_le (Nat.succ_le_of_lt hlt)
    exact absurd (Nat.lt_of_lt_of_le hg.2 (Nat.le_trans hle hh.1)) (Nat.lt_irrefl _)
  · exact heq
  · have hle := c.firstId_le (Nat.succ_le_of_lt hgt)
    exact absurd (Nat.lt_of_lt_of_le hh.2 (Nat.le_trans hle hg.1)) (Nat.lt_irrefl _)

/-- Particles with one number, at any two moments, were alive in the same generation. -/
theorem started_eq_of_id_eq (hs : s.OnTime) {m n : Nat} (hp : p ∈ (s.after m).particles)
    (hq : q ∈ (s.after n).particles) (hid : p.id = q.id) :
    (s.after m).started = (s.after n).started := by
  obtain ⟨g, hg, hbelongs⟩ := belongs_after hs hp
  obtain ⟨h, hh, hbelongs'⟩ := belongs_after hs hq
  have hrange : InGeneration s.config h p.id := by
    rw [hid]
    exact ⟨hbelongs'.low, hbelongs'.high⟩
  rw [hg, hh, generation_unique ⟨hbelongs.low, hbelongs.high⟩ hrange]

/-- Particles with one number, at any two moments, have one parent. -/
theorem parent_unique (hs : s.OnTime) : ∀ {m n : Nat}, m ≤ n → ∀ {p q : Particle N R},
    p ∈ (s.after m).particles → q ∈ (s.after n).particles → p.id = q.id →
    p.parent = q.parent := by
  intro m n hmn
  -- A particle that came into being after `m` is of a generation that started after `m`.
  induction hmn with
  | refl => exact fun hp hq hid => congrArg _ ((onTime_after hs m).eq_of_id_eq hp hq hid)
  | @step n hmn ih =>
    intro p q hp hq hid
    have hstarted := started_eq_of_id_eq hs hp hq hid
    have hle := started_le hs hmn
    cases origin (onTime_after hs n) hq with
    | seeded id _ hnone hnext =>
      have hnow : (s.after n.succ).started = 1 := hnext
      omega
    | kept hmem _ => exact ih hp hmem hid
    | acted a hactor _ haccounts =>
      rw [haccounts.parent]
      exact ih hp (actor_mem hactor) (hid.trans haccounts.id)
    | forked a _ _ _ hnext =>
      have hnow : (s.after n.succ).started = (s.after n).started + 1 := hnext
      omega

/-! ## Descent -/

/-- One number is the parent of another at some moment of a search. -/
def Parent (s : Search N R ρ κ ω) (child parent : ParticleId) : Prop :=
  ∃ n, ∃ p ∈ (s.after n).particles, p.id = child ∧ p.parent = some parent

/-- One number is reached from another by following parents. -/
def Descends (s : Search N R ρ κ ω) : ParticleId → ParticleId → Prop :=
  Relation.ReflTransGen s.Parent

/-- A parent belongs to the generation before. -/
theorem inGeneration_of_parent (hs : s.OnTime) {child parent : ParticleId}
    (h : s.Parent child parent) :
    ∃ g, InGeneration s.config (g + 1) child ∧ InGeneration s.config g parent := by
  obtain ⟨n, p, hp, rfl, hparent⟩ := h
  obtain ⟨g, -, hbelongs⟩ := belongs_after hs hp
  cases g with
  | zero =>
    rw [hbelongs.first rfl] at hparent
    exact absurd hparent (by simp)
  | succ g =>
    obtain ⟨found, hfound, hlow, hhigh⟩ := hbelongs.later g rfl
    rw [hparent] at hfound
    rw [Option.some.inj hfound]
    exact ⟨g, ⟨hbelongs.low, hbelongs.high⟩, hlow, hhigh⟩

/-- Ancestors other than oneself belong to earlier generations. -/
theorem descends_cases (hs : s.OnTime) {descendant ancestor : ParticleId}
    (h : s.Descends descendant ancestor) : descendant = ancestor ∨ ∃ g g', g' < g ∧
      InGeneration s.config g descendant ∧ InGeneration s.config g' ancestor := by
  induction h using Relation.ReflTransGen.head_induction_on with
  | refl => exact Or.inl rfl
  | head hparent _ ih =>
    obtain ⟨g, hchild, hbefore⟩ := inGeneration_of_parent hs hparent
    rcases ih with rfl | ⟨g', g'', hlt, hsame, hancestor⟩
    · exact Or.inr ⟨g + 1, g, Nat.lt_succ_self g, hchild, hbefore⟩
    · obtain rfl : g = g' := generation_unique hbefore hsame
      exact Or.inr ⟨g + 1, g'', Nat.lt_succ_of_lt hlt, hchild, hancestor⟩

/-- Nobody descends from another of the same moment. -/
theorem not_descends_of_ne (hs : s.OnTime) {n : Nat} (hp : p ∈ (s.after n).particles)
    (hq : q ∈ (s.after n).particles) (hne : q.id ≠ p.id) : ¬ s.Descends p.id q.id := by
  intro h
  obtain ⟨g, hg, hbelongs⟩ := belongs_after hs hp
  obtain ⟨h', hh, hbelongs'⟩ := belongs_after hs hq
  obtain rfl : g = h' := Nat.succ.inj (hg.symm.trans hh)
  rcases descends_cases hs h with heq | ⟨g₁, g₂, hlt, hdescendant, hancestor⟩
  · exact hne heq.symm
  · have hfirst := generation_unique hdescendant ⟨hbelongs.low, hbelongs.high⟩
    have hsecond := generation_unique hancestor ⟨hbelongs'.low, hbelongs'.high⟩
    omega

/-- A fork descends from whoever its parent descends from, apart from itself. -/
theorem descends_fork (hs : s.OnTime) {n : Nat} (hq : q ∈ (s.after n).particles)
    (hparent : q.parent = some p.id) {ancestor : ParticleId} (hne : q.id ≠ ancestor) :
    s.Descends q.id ancestor ↔ s.Descends p.id ancestor := by
  constructor
  · intro h
    rcases Relation.ReflTransGen.cases_head h with heq | ⟨next, hfirst, hrest⟩
    · exact absurd heq hne
    · obtain ⟨m, q', hq', hid, hnext⟩ := hfirst
      have hsame : q'.parent = q.parent := by
        rcases Nat.le_total m n with hle | hle
        · exact parent_unique hs hle hq' hq hid
        · exact (parent_unique hs hle hq hq' hid.symm).symm
      rw [hsame, hparent] at hnext
      rw [Option.some.inj hnext]
      exact hrest
  · intro h
    exact Relation.ReflTransGen.head ⟨n, q, hq, rfl, hparent⟩ h

/-! ## Histories -/

open Classical in
/-- What was noted, at the first steps, of a particle and its ancestors when they acted. -/
noncomputable def history {β : Type} (s : Search N R ρ κ ω)
    (note : Search N R ρ κ ω → List β) (n : Nat) (id : ParticleId) : List β :=
  (List.range n).flatMap fun m =>
    if ∃ p, (s.after m).actor? = some p ∧ s.Descends id p.id then note (s.after m) else []

theorem history_succ {β : Type} (note : Search N R ρ κ ω → List β) (n : Nat) (id : ParticleId) :
    s.history note (n + 1) id = s.history note n id ++
      (open Classical in
      if ∃ p, (s.after n).actor? = some p ∧ s.Descends id p.id then note (s.after n) else []) := by
  unfold history
  rw [List.range_succ, List.flatMap_append, List.flatMap_singleton]

variable {β : Type} {note : Search N R ρ κ ω → List β} {n : Nat}

/-- A step in which neither a particle nor an ancestor acts is not noted. -/
theorem history_of_not {id : ParticleId}
    (h : ∀ p, (s.after n).actor? = some p → ¬ s.Descends id p.id) :
    s.history note (n + 1) id = s.history note n id := by
  rw [history_succ, if_neg fun ⟨p, hp, hdescends⟩ => h p hp hdescends, List.append_nil]

/-- What a particle does is noted of it. -/
theorem history_of_actor (h : (s.after n).actor? = some p) :
    s.history note (n + 1) p.id = s.history note n p.id ++ note (s.after n) := by
  rw [history_succ, if_pos ⟨p, h, Relation.ReflTransGen.refl⟩]

/-- Nothing is noted of anybody before the first generation. -/
theorem history_of_not_started (hs : s.OnTime) (h : (s.after n).started = 0) (id : ParticleId) :
    s.history note (n + 1) id = [] := by
  unfold history
  rw [List.flatMap_eq_nil_iff]
  intro m hm
  rw [if_neg]
  rintro ⟨p, hp, -⟩
  obtain ⟨g, hg, -⟩ := belongs_after hs (actor_mem hp)
  have hle := started_le hs (Nat.le_of_lt_succ (List.mem_range.mp hm))
  omega

/-- A fork has the history of what it was forked from. -/
theorem history_of_fork (hs : s.OnTime) (hq : q ∈ (s.after (n + 1)).particles)
    (hparent : q.parent = some p.id) (hnobody : (s.after n).actor? = none)
    (hnext : (s.after (n + 1)).started = (s.after n).started + 1) :
    s.history note (n + 1) q.id = s.history note n p.id := by
  classical
  rw [history_of_not fun a ha => absurd ha (by simp [hnobody])]
  unfold history
  -- The fork was not there before, so whoever of its ancestors acted is one of the parent's.
  refine List.flatMap_congr fun m hm => ?_
  have hle := started_le hs (Nat.le_of_lt (List.mem_range.mp hm))
  refine if_congr (exists_congr fun a => and_congr_right fun ha => ?_) rfl rfl
  refine descends_fork hs hq hparent fun hid => ?_
  have hstarted := started_eq_of_id_eq hs hq (actor_mem ha) hid
  omega

/-- The induction along lineages. What holds of a seed with nothing noted, passes to forks and is
kept by whoever acts, with what is noted of the step, holds of every particle with its history. -/
theorem along_lineage (hs : s.OnTime) (hstart : s.stage = .populate)
    {P : List β → Particle N R → Prop}
    (seeded : ∀ id, P [] (Particle.seed id s.start s.root))
    (forked : ∀ past p q, P past p → IsFork p q → P past q)
    (acted : ∀ n past p q, (s.after n).actor? = some p → P past p → q = (s.after n).acted p →
      Accounts (s.after n).grammar (s.after n).phase p (s.after n).turns q →
      P (past ++ note (s.after n)) q) :
    ∀ n, ∀ p ∈ (s.after n).particles, P (s.history note n p.id) p := by
  intro n
  -- The step lemma `origin` gives the four cases.
  induction n with
  | zero =>
    intro p hp
    obtain ⟨g, hg, -⟩ := belongs_after hs hp
    have hnone : (s.after 0).started = 0 := by
      show s.started = 0
      simp [started, startedIn, hstart]
    omega
  | succ n ih =>
    intro q hq
    cases origin (onTime_after hs n) hq with
    | seeded id hseed hnone _ =>
      rw [history_of_not_started hs hnone, hseed, (s.sameTask_after n).start,
        (s.sameTask_after n).root]
      exact seeded id
    | kept hmem hother =>
      rw [history_of_not fun a ha =>
        not_descends_of_ne hs hmem (actor_mem ha) (hother a ha)]
      exact ih q hmem
    | acted p hactor hbecomes haccounts =>
      rw [haccounts.id, history_of_actor hactor]
      exact acted n _ p q hactor (ih p (actor_mem hactor)) hbecomes haccounts
    | forked p hmem hfork hnobody hnext =>
      rw [history_of_fork hs hq hfork.parent hnobody hnext]
      exact forked _ p q (ih p hmem) hfork

end Espalier.Search
