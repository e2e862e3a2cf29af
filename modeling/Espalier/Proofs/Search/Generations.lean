import Espalier.Proofs.Resampling
import Espalier.Proofs.Search.Run
import Mathlib.Algebra.GroupWithZero.Nat

/-!
# Generations

`Search.OnTime` says for each stage what the search holds there: in which generation the population
is, that it has the size its schedule gives, and how its particles are numbered. Numbers are handed
out in order, so a generation's are the ones from `Config.firstId` on, and every particle after the
first generation has a parent in the generation before (`Belongs`).

`onTime_step` is the step lemma, `onTime_after` the run.
-/

namespace Espalier

variable {N R ρ κ ω : Type} [Scalar R]

namespace Config

/-- The number of the first particle of a generation: as many as there were before it. -/
def firstId (c : Config R) (g : Nat) : Nat := ((List.range g).map c.sampleCountAt).sum

theorem firstId_zero (c : Config R) : c.firstId 0 = 0 := rfl

theorem firstId_succ (c : Config R) (g : Nat) :
    c.firstId (g + 1) = c.firstId g + c.sampleCountAt g := by
  unfold firstId
  rw [List.range_succ, List.map_append, List.sum_append]
  simp

theorem firstId_le (c : Config R) {g h : Nat} (hle : g ≤ h) : c.firstId g ≤ c.firstId h := by
  induction hle with
  | refl => exact Nat.le_refl _
  | step _ ih => exact Nat.le_trans ih (by rw [firstId_succ]; exact Nat.le_add_right _ _)

/-- No generation is empty. -/
theorem sampleCountAt_pos (c : Config R) (g : Nat) : 0 < c.sampleCountAt g := by
  unfold sampleCountAt Schedule.countAt
  dsimp only
  split
  · exact Nat.lt_of_lt_of_le Nat.one_pos (Nat.le_max_left _ _)
  · exact Nat.one_pos

/-- A configuration that is accepted has generations. -/
theorem generations_pos_of_validate {c : Config R} (h : c.validate = .ok ()) :
    0 < c.generations := by
  refine Nat.pos_of_ne_zero fun hzero => ?_
  unfold validate at h
  rw [if_pos hzero] at h
  exact absurd h (by simp [bind, Except.bind, throw, throwThe, MonadExceptOf.throw])

end Config

namespace Search

/-- A particle is one of a generation: so are its number and its parent's. -/
structure Belongs (c : Config R) (g : Nat) (p : Particle N R) : Prop where
  low : c.firstId g ≤ p.id
  high : p.id < c.firstId (g + 1)
  first : g = 0 → p.parent = none
  later : ∀ h, g = h + 1 →
    ∃ parent, p.parent = some parent ∧ c.firstId h ≤ parent ∧ parent < c.firstId g

/-- The particles of a generation, all of them, in order. -/
structure IsGeneration (c : Config R) (g : Nat) (population : Array (Particle N R)) : Prop where
  size : population.size = c.sampleCountAt g
  number : ∀ (j : Nat) (p : Particle N R), population[j]? = some p → p.id = c.firstId g + j
  belong : ∀ p ∈ population, Belongs c g p

/-- What a search holds in each stage. -/
def Holds (s : Search N R ρ κ ω) : Stage → Prop
  | .populate => s.population = #[] ∧ s.survivor = none ∧ s.nextId = 0
  | .grow g next =>
    g < s.config.generations ∧ next ≤ s.config.sampleCountAt g ∧
      IsGeneration s.config g s.population ∧ s.survivor = none ∧
      s.nextId = s.config.firstId (g + 1)
  | .resample g =>
    g + 1 < s.config.generations ∧ IsGeneration s.config g s.population ∧ s.survivor = none ∧
      s.nextId = s.config.firstId (g + 1)
  | .selectSurvivor =>
    ∃ g, s.config.generations = g + 1 ∧ IsGeneration s.config g s.population ∧ s.survivor = none
  | .close | .detail =>
    s.population = #[] ∧
      ∃ p g, s.survivor = some p ∧ s.config.generations = g + 1 ∧ Belongs s.config g p
  | .done => s.population = #[] ∧ s.survivor = none

/-- A search that holds in its stage what it should. -/
structure OnTime (s : Search N R ρ κ ω) : Prop where
  generations : 0 < s.config.generations
  holds : s.Holds s.stage

variable {s : Search N R ρ κ ω}

theorem OnTime.holds_at (hs : s.OnTime) {stage : Stage} (h : s.stage = stage) : s.Holds stage :=
  h ▸ hs.holds

/-- From its first particle to the choice of the survivor a generation is the population. -/
theorem OnTime.generation (hs : s.OnTime) {g : Nat}
    (h : (∃ next, s.stage = .grow g next) ∨ s.stage = .resample g ∨
      (s.stage = .selectSurvivor ∧ g + 1 = s.config.generations)) :
    IsGeneration s.config g s.population := by
  rcases h with ⟨next, h⟩ | h | ⟨h, hlast⟩
  · obtain ⟨-, -, hgen, -⟩ := hs.holds_at h
    exact hgen
  · obtain ⟨-, hgen, -⟩ := hs.holds_at h
    exact hgen
  · obtain ⟨last, heq, hgen, -⟩ := hs.holds_at h
    rw [← hlast] at heq
    exact Nat.succ.inj heq ▸ hgen

/-- When no particle is due, all of the generation have had their turn. -/
theorem OnTime.next_eq (hs : s.OnTime) {g next : Nat} (h : s.stage = .grow g next)
    (hnone : s.population[next]? = none) : next = s.config.sampleCountAt g := by
  obtain ⟨-, hbound, hgen, -⟩ := hs.holds_at h
  exact Nat.le_antisymm hbound (hgen.size ▸ Array.getElem?_eq_none_iff.mp hnone)

/-- A search that has just been prepared. -/
theorem new_spec {grammar : Grammar N R} {root : N} {start : String} {config : Config R}
    {patience : Nat} {model : κ} {source : ρ} {watcher : ω}
    (h : Search.new grammar root start config patience model source watcher = .ok s) :
    s = { grammar, root, start, config, patience, model, source, watcher,
          population := #[], survivor := none, nextId := 0, stage := .populate,
          closings := 0, detailGrowths := 0 } ∧ 0 < config.generations := by
  unfold Search.new at h
  cases hvalid : config.validate with
  | error fault =>
    rw [hvalid] at h
    exact absurd h (by simp)
  | ok valid =>
    rw [hvalid] at h
    dsimp only at h
    split at h
    · exact absurd h (by simp)
    · exact ⟨(Except.ok.inj h).symm, Config.generations_pos_of_validate hvalid⟩

theorem onTime_new {grammar : Grammar N R} {root : N} {start : String} {config : Config R}
    {patience : Nat} {model : κ} {source : ρ} {watcher : ω}
    (h : Search.new grammar root start config patience model source watcher = .ok s) :
    s.OnTime := by
  obtain ⟨rfl, hpos⟩ := new_spec h
  exact ⟨hpos, rfl, rfl, rfl⟩

theorem stage_new {grammar : Grammar N R} {root : N} {start : String} {config : Config R}
    {patience : Nat} {model : κ} {source : ρ} {watcher : ω}
    (h : Search.new grammar root start config patience model source watcher = .ok s) :
    s.stage = .populate := by
  obtain ⟨rfl, -⟩ := new_spec h
  rfl

/-! ## Steps -/

theorem belongs_of_same {c : Config R} {g : Nat} {p q : Particle N R} (h : Belongs c g p)
    (hid : q.id = p.id) (hparent : q.parent = p.parent) : Belongs c g q := by
  constructor
  case low => exact hid ▸ h.low
  case high => exact hid ▸ h.high
  case first => exact fun hg => hparent.trans (h.first hg)
  case later => exact fun h' hg => hparent ▸ h.later h' hg

/-- Replacing one particle by one with the same number and parent keeps a generation. -/
theorem isGeneration_set {c : Config R} {g next : Nat} {population : Array (Particle N R)}
    (h : IsGeneration c g population) {p q : Particle N R} (hp : population[next]? = some p)
    (hid : q.id = p.id) (hparent : q.parent = p.parent) :
    IsGeneration c g (population.setIfInBounds next q) := by
  have hbelongs := belongs_of_same (h.belong p (Array.mem_of_getElem? hp)) hid hparent
  constructor
  case size =>
    rw [Array.size_setIfInBounds]
    exact h.size
  case number =>
    intro j found hfound
    rw [Array.getElem?_setIfInBounds] at hfound
    by_cases hj : next = j
    · obtain ⟨hlt, -⟩ := Array.getElem?_eq_some_iff.mp hp
      rw [if_pos hj, if_pos hlt] at hfound
      rw [← Option.some.inj hfound, hid, ← hj]
      exact h.number next p hp
    · rw [if_neg hj] at hfound
      exact h.number j found hfound
  case belong =>
    intro found hfound
    rcases Array.mem_or_eq_of_mem_setIfInBounds hfound with hold | rfl
    · exact h.belong found hold
    · exact hbelongs

/-- The first population is made of seeds, numbered from `nextId` on. -/
theorem seed_of_seeds {j : Nat} {p : Particle N R} (h : s.seeds[j]? = some p) :
    j < s.config.sampleCountAt 0 ∧ p = Particle.seed (s.nextId + j) s.start s.root := by
  obtain ⟨hlt, hseed⟩ := Array.getElem?_eq_some_iff.mp h
  unfold seeds at hlt hseed
  rw [Array.size_ofFn] at hlt
  rw [Array.getElem_ofFn] at hseed
  exact ⟨hlt, hseed.symm⟩

/-- The first population is the first generation. -/
theorem isGeneration_seeds (hnext : s.nextId = 0) : IsGeneration s.config 0 s.seeds := by
  have hget : ∀ (j : Nat) (p : Particle N R), s.seeds[j]? = some p →
      j < s.config.sampleCountAt 0 ∧ p.id = j ∧ p.parent = none := by
    intro j p hp
    obtain ⟨hlt, rfl⟩ := seed_of_seeds hp
    refine ⟨hlt, ?_, rfl⟩
    show s.nextId + j = j
    rw [hnext, Nat.zero_add]
  constructor
  case size =>
    unfold seeds
    exact Array.size_ofFn
  case number =>
    intro j p hp
    rw [Config.firstId_zero, Nat.zero_add]
    exact (hget j p hp).2.1
  case belong =>
    intro p hp
    obtain ⟨j, hj⟩ := Array.mem_iff_getElem?.mp hp
    obtain ⟨hlt, hid, hparent⟩ := hget j p hj
    constructor
    case low => exact Nat.zero_le _
    case high =>
      rw [Config.firstId_succ, Config.firstId_zero, Nat.zero_add, hid]
      exact hlt
    case first => exact fun _ => hparent
    case later => exact fun h hg => absurd hg (Nat.succ_ne_zero h).symm

theorem length_logWeights (s : Search N R ρ κ ω) (g : Nat) :
    (s.logWeights g).length = s.population.size := by
  unfold logWeights
  rw [List.length_map, Array.length_toList]

/-- A lottery has a weight for every particle. -/
theorem length_weights_lottery (s : Search N R ρ κ ω) (g : Nat) :
    (s.lottery g).weights.length = s.population.size :=
  (length_weights_ofLogWeights (s.logWeights g)).trans (s.length_logWeights g)

theorem weights_lottery_ne_nil (g : Nat) (hpos : 0 < s.population.size) :
    (s.lottery g).weights ≠ [] :=
  List.length_pos_iff.mp (s.length_weights_lottery g ▸ hpos)

section Steps

variable [RandomSource ρ]

/-- As many parents are drawn as the next population is to have, all of them from this one. -/
theorem draws_of_pos {g : Nat} (hpos : 0 < s.population.size) :
    (s.draws g).1.length = s.config.sampleCountAt (g + 1) ∧
      ∀ place ∈ (s.draws g).1, place < s.population.size := by
  have hspec := drawParents_spec (weights_lottery_ne_nil g hpos) (s.config.sampleCountAt (g + 1))
    s.source
  rw [length_weights_lottery] at hspec
  exact hspec

/-- The next population has a copy for each draw, numbered in turn and frozen up to where it
starts. -/
theorem drawn_copies {g : Nat} (hpos : 0 < s.population.size) :
    (s.drawn g).size = s.config.sampleCountAt (g + 1) ∧
      ∀ (k : Nat) (q : Particle N R), (s.drawn g)[k]? = some q → ∃ place p mark,
        (s.draws g).1[k]? = some place ∧ s.population[place]? = some p ∧
          q = (p.fork (s.nextId + k) mark).2 := by
  obtain ⟨hlength, hplaces⟩ := draws_of_pos hpos
  obtain ⟨new, hnew, hcount, hspec⟩ :=
    forkDrawn_copies s.nextId (s.draws g).1 s.population #[] hplaces
  have hdrawn : (s.drawn g).toList = new := hnew
  refine ⟨?_, fun k q hq => hspec k q ?_⟩
  · rw [← Array.length_toList, hdrawn]
    exact hcount.trans hlength
  · rw [← hdrawn, Array.getElem?_toList]
    exact hq

/-- The next population has a fork for each draw, numbered in turn. -/
theorem drawn_of_pos {g : Nat} (hpos : 0 < s.population.size) :
    (s.drawn g).size = s.config.sampleCountAt (g + 1) ∧
      ∀ k q, (s.drawn g)[k]? = some q → q.id = s.nextId + k ∧ ∃ place p,
        (s.draws g).1[k]? = some place ∧ s.population[place]? = some p ∧ IsFork p q := by
  obtain ⟨hsize, hspec⟩ := drawn_copies (g := g) hpos
  refine ⟨hsize, fun k q hq => ?_⟩
  obtain ⟨place, p, mark, hplace, hp, rfl⟩ := hspec k q hq
  exact ⟨rfl, place, p, hplace, hp, isFork_fork p _ mark⟩

theorem draws_spec {g : Nat} (hgen : IsGeneration s.config g s.population) :
    (s.draws g).1.length = s.config.sampleCountAt (g + 1) ∧
      ∀ place ∈ (s.draws g).1, place < s.population.size :=
  draws_of_pos (hgen.size ▸ s.config.sampleCountAt_pos g)

/-- The population drawn after a generation is the next one. -/
theorem isGeneration_drawn {g : Nat} (hgen : IsGeneration s.config g s.population)
    (hnext : s.nextId = s.config.firstId (g + 1)) :
    IsGeneration s.config (g + 1) (s.drawn g) ∧
      ∀ q ∈ s.drawn g, ∃ p ∈ s.population, IsFork p q := by
  obtain ⟨hsize, hspec⟩ := drawn_of_pos (hgen.size ▸ s.config.sampleCountAt_pos g)
  refine ⟨?_, ?_⟩
  · constructor
    case size => exact hsize
    case number =>
      intro j q hq
      rw [(hspec j q hq).1, hnext]
    case belong =>
      intro q hq
      obtain ⟨j, hj⟩ := Array.mem_iff_getElem?.mp hq
      obtain ⟨hid, _, p, -, hp, hfork⟩ := hspec j q hj
      obtain ⟨hlt, -⟩ := Array.getElem?_eq_some_iff.mp hj
      have hparent := hgen.belong p (Array.mem_of_getElem? hp)
      constructor
      case low =>
        rw [hid, hnext]
        exact Nat.le_add_right _ _
      case high =>
        rw [hid, hnext, Config.firstId_succ s.config (g + 1), ← hsize]
        exact Nat.add_lt_add_left hlt _
      case first => exact fun hg => absurd hg (Nat.succ_ne_zero g)
      case later =>
        intro h hg
        rw [← Nat.succ.inj hg]
        exact ⟨p.id, hfork.parent, hparent.low, hparent.high⟩
  · intro q hq
    obtain ⟨j, hj⟩ := Array.mem_iff_getElem?.mp hq
    obtain ⟨-, _, p, -, hp, hfork⟩ := hspec j q hj
    exact ⟨p, Array.mem_of_getElem? hp, hfork⟩

variable [CostModel κ N R] [Watcher ω N R]

/-- Every step keeps a search on time. -/
theorem onTime_step (hs : s.OnTime) : s.step.2.OnTime := by
  have hpos := hs.generations
  cases s.situation with
  | populate h =>
    obtain ⟨w, -, hstep⟩ := step_populate h
    obtain ⟨-, hsurvivor, hnext⟩ := hs.holds_at h
    rw [hstep]
    refine ⟨hpos, hpos, Nat.zero_le _, isGeneration_seeds hnext, hsurvivor, ?_⟩
    show s.nextId + s.config.sampleCountAt 0 = s.config.firstId 1
    rw [hnext, Config.firstId_succ, Config.firstId_zero]
  | grow g next p h hp =>
    obtain ⟨hg, hbound, hgen, hsurvivor, hnext⟩ := hs.holds_at h
    obtain ⟨hlt, -⟩ := Array.getElem?_eq_some_iff.mp hp
    have haccounts := accounts_growth s .skeleton (s.heuristicCounts g) p
    have hset := isGeneration_set hgen hp haccounts.id haccounts.parent
    rw [step_grow h hp]
    refine ⟨hpos, ?_⟩
    dsimp only
    -- After a failure the same particle is due again.
    split
    · exact ⟨hg, hgen.size ▸ hlt, hset, hsurvivor, hnext⟩
    · exact ⟨hg, hbound, hset, hsurvivor, hnext⟩
  | endGeneration g next h hp =>
    obtain ⟨w, -, hstep⟩ := step_endGeneration h hp
    obtain ⟨hg, hbound, hgen, hsurvivor, hnext⟩ := hs.holds_at h
    rw [hstep]
    refine ⟨hpos, ?_⟩
    unfold afterGeneration
    dsimp only
    by_cases hmore : g + 1 < s.config.generations
    · rw [if_pos hmore]
      exact ⟨hmore, hgen, hsurvivor, hnext⟩
    · rw [if_neg hmore]
      exact ⟨g, Nat.le_antisymm (Nat.le_of_not_lt hmore) hg, hgen, hsurvivor⟩
  | resample g h =>
    obtain ⟨w, -, hstep⟩ := step_resample h
    obtain ⟨hg, hgen, hsurvivor, hnext⟩ := hs.holds_at h
    obtain ⟨hdrawn, -⟩ := isGeneration_drawn hgen hnext
    rw [hstep]
    refine ⟨hpos, hg, Nat.zero_le _, hdrawn, hsurvivor, ?_⟩
    show s.nextId + (s.drawn _).size = s.config.firstId _
    rw [hnext, hdrawn.size, Config.firstId_succ s.config (_ + 1)]
  | select p h hp =>
    obtain ⟨w, -, hstep⟩ := step_select h hp
    obtain ⟨g, hlast, hgen, hsurvivor⟩ := hs.holds_at h
    obtain ⟨j, -, hj⟩ := Option.bind_eq_some_iff.mp hp
    rw [hstep]
    exact ⟨hpos, rfl, _, g, rfl, hlast, hgen.belong _ (Array.mem_of_getElem? hj)⟩
  | close p h hp =>
    obtain ⟨hpopulation, p', g, hsurvivor, hlast, hbelongs⟩ := hs.holds_at h
    obtain rfl : p = p' := Option.some.inj (hp.symm.trans hsurvivor)
    have haccounts := Particle.accounts_close s.grammar p s.source
    have hkept := belongs_of_same hbelongs haccounts.id haccounts.parent
    rw [step_close h hp]
    refine ⟨hpos, ?_⟩
    unfold afterClosing
    dsimp only
    split <;> exact ⟨hpopulation, _, g, rfl, hlast, hkept⟩
  | detail p h hp hopen =>
    obtain ⟨hpopulation, p', g, hsurvivor, hlast, hbelongs⟩ := hs.holds_at h
    obtain rfl : p = p' := Option.some.inj (hp.symm.trans hsurvivor)
    have haccounts := accounts_growth s .detail false p
    rw [step_detail h hp hopen]
    refine ⟨hpos, ?_⟩
    rw [h]
    exact ⟨hpopulation, _, g, rfl, hlast, belongs_of_same hbelongs haccounts.id haccounts.parent⟩
  | finish p h hp hclosed =>
    have hholds := hs.holds_at h
    obtain ⟨w, -, hstep⟩ := step_finish h hp hclosed
    rw [hstep]
    exact ⟨hpos, hholds.1, rfl⟩
  | idle hstep _ =>
    rw [hstep]
    exact hs

omit [RandomSource ρ] [CostModel κ N R] [Watcher ω N R] in
/-- Of a population that is not empty some particle is the fittest. -/
theorem fittest?_of_mem {p : Particle N R} (h : p ∈ s.population) : ∃ q, s.fittest? = some q := by
  cases hplace : Selection.lowestIndex s.totals with
  | none =>
    have hnil : s.population.toList.map (·.cost.total) = [] := Selection.eq_nil_of_lowestIndex hplace
    exact absurd (Array.mem_toList_iff.mpr h) (List.map_eq_nil_iff.mp hnil ▸ List.not_mem_nil)
  | some place =>
    have hlt : place < (s.population.toList.map (·.cost.total)).length :=
      Selection.lowestIndex_lt hplace
    rw [List.length_map, Array.length_toList] at hlt
    refine ⟨s.population[place], ?_⟩
    unfold fittest?
    rw [hplace]
    exact Array.getElem?_eq_getElem hlt

omit [RandomSource ρ] [CostModel κ N R] [Watcher ω N R] in
/-- When it is time to choose the survivor there is one to choose. -/
theorem exists_fittest (hs : s.OnTime) (h : s.stage = .selectSurvivor) :
    ∃ p, s.fittest? = some p := by
  obtain ⟨g, -, hgen, -⟩ := hs.holds_at h
  have hpos : 0 < s.population.size := hgen.size ▸ s.config.sampleCountAt_pos g
  exact fittest?_of_mem (Array.getElem_mem hpos)

theorem onTime_after (hs : s.OnTime) (n : Nat) : (s.after n).OnTime := by
  induction n with
  | zero => exact hs
  | succ n ih => exact onTime_step ih

end Steps

end Search

end Espalier
