import Mathlib.Tactic.NormNum
import Mathlib.Tactic.Positivity
import Espalier.Proofs.Number.Exact
import Espalier.Proofs.Search.Generations

/-!
# Progress

A search has come as far as so many particles of a generation, whatever its stage
(`Config.reached`). Its progress is computed in exact fractions here, and without rounding it is
what that comes to in generations, over the number of these (`OnTime.progress_eq`). Another measure
is the number of growths so far (`growths_after`). Generations may be of any sizes, so the two are
not in proportion, but they rise together (`Config.done_le_iff`).

Growths are only ever added, so progress never falls, and it is a whole number of generations when
so many have grown and no more.
-/

namespace Espalier

variable {N R ρ κ ω : Type} [Scalar R]

namespace Config

/-- How far a search has come in a stage: a generation, and how many of its particles have grown. -/
def reached (c : Config R) : Stage → Nat × Nat
  | .populate => (0, 0)
  | .grow g next => (g, next)
  | .resample g => (g, c.sampleCountAt g)
  | _ => (c.generations - 1, c.sampleCountAt (c.generations - 1))

/-- How many growths a stage comes after. -/
def grownBefore (c : Config R) (stage : Stage) : Nat :=
  c.firstId (c.reached stage).1 + (c.reached stage).2

/-- The generations that so many particles of a generation come to, with those before it. -/
def done (c : Config R) (g count : Nat) : ℚ := g + count / c.sampleCountAt g

theorem done_zero (c : Config R) (g : Nat) : c.done g 0 = g := by
  simp [done]

theorem done_all (c : Config R) (g : Nat) : c.done g (c.sampleCountAt g) = g + 1 := by
  have hpos : (c.sampleCountAt g : ℚ) ≠ 0 := Nat.cast_ne_zero.mpr (c.sampleCountAt_pos g).ne'
  rw [done, div_self hpos]

theorem done_le_done_iff (c : Config R) (g k l : Nat) : c.done g k ≤ c.done g l ↔ k ≤ l := by
  have hpos : (0 : ℚ) < c.sampleCountAt g := Nat.cast_pos.mpr (c.sampleCountAt_pos g)
  unfold done
  rw [add_le_add_iff_left, div_le_div_iff_of_pos_right hpos, Nat.cast_le]

/-- Of two generations the later one is further. -/
theorem done_le_of_lt (c : Config R) {g h k l : Nat} (hlt : g < h) (hk : k ≤ c.sampleCountAt g) :
    c.done g k ≤ c.done h l := by
  calc c.done g k ≤ c.done g (c.sampleCountAt g) := (c.done_le_done_iff g _ _).mpr hk
    _ = g + 1 := c.done_all g
    _ ≤ h := by exact_mod_cast hlt
    _ = c.done h 0 := (c.done_zero h).symm
    _ ≤ c.done h l := (c.done_le_done_iff h _ _).mpr (Nat.zero_le l)

theorem done_lt_done (c : Config R) {g k l : Nat} (h : k < l) : c.done g k < c.done g l :=
  lt_of_not_ge fun hle => Nat.not_le_of_lt h ((c.done_le_done_iff g l k).mp hle)

/-- Particles of the next generation are further on, unless this one is complete and they are
none. -/
theorem done_succ_le_iff (c : Config R) {h k l : Nat} (hl : l ≤ c.sampleCountAt h) :
    c.done (h + 1) k ≤ c.done h l ↔ c.sampleCountAt h + k ≤ l := by
  have hmeet : c.done (h + 1) 0 = c.done h (c.sampleCountAt h) := by
    rw [done_zero, done_all, Nat.cast_succ]
  have hleast : c.done (h + 1) 0 ≤ c.done (h + 1) k :=
    (c.done_le_done_iff (h + 1) 0 k).mpr (Nat.zero_le k)
  have hmost : c.done h l ≤ c.done h (c.sampleCountAt h) := (c.done_le_done_iff h l _).mpr hl
  constructor
  · intro hle
    have hall : c.sampleCountAt h ≤ l :=
      (c.done_le_done_iff h _ l).mp (hmeet ▸ hleast.trans hle)
    have hnone : k ≤ 0 := (c.done_le_done_iff (h + 1) k 0).mp (hle.trans (hmost.trans hmeet.ge))
    omega
  · intro hle
    obtain rfl : k = 0 := by omega
    obtain rfl : l = c.sampleCountAt h := by omega
    exact hmeet.le

/-- Particles that count for more generations are further on in the numbering, and the other way
round. -/
theorem done_le_iff (c : Config R) {g h k l : Nat} (hk : k ≤ c.sampleCountAt g)
    (hl : l ≤ c.sampleCountAt h) :
    c.done g k ≤ c.done h l ↔ c.firstId g + k ≤ c.firstId h + l := by
  rcases Nat.lt_trichotomy g h with hlt | rfl | hgt
  · have hfirst := c.firstId_le hlt
    rw [firstId_succ] at hfirst
    exact iff_of_true (c.done_le_of_lt hlt hk) (by omega)
  · rw [done_le_done_iff, Nat.add_le_add_iff_left]
  · rcases Nat.eq_or_lt_of_le (Nat.succ_le_of_lt hgt) with rfl | hgap
    · rw [firstId_succ, Nat.add_assoc, Nat.add_le_add_iff_left]
      exact c.done_succ_le_iff hl
    · -- There is a whole generation between the two.
      have hfirst := c.firstId_le hgap
      have hpos := c.sampleCountAt_pos (h + 1)
      rw [firstId_succ, firstId_succ] at hfirst
      refine iff_of_false (not_le_of_gt ?_) (by omega)
      calc c.done h l ≤ c.done (h + 1) 0 := c.done_le_of_lt (Nat.lt_succ_self h) hl
        _ < c.done (h + 1) (c.sampleCountAt (h + 1)) := c.done_lt_done hpos
        _ ≤ c.done g k := c.done_le_of_lt hgap (Nat.le_refl _)

/-- With all generations up to one and none of the next, this one is complete or the next has not
begun. -/
theorem place_of_firstId (c : Config R) {g h k : Nat} (hk : k ≤ c.sampleCountAt h)
    (heq : c.firstId h + k = c.firstId (g + 1)) :
    (h = g ∧ k = c.sampleCountAt g) ∨ (h = g + 1 ∧ k = 0) := by
  have hsucc := c.firstId_succ g
  rcases Nat.lt_trichotomy h g with hlt | rfl | hgt
  · have hfirst := c.firstId_le hlt
    have hpos := c.sampleCountAt_pos g
    rw [firstId_succ] at hfirst
    omega
  · exact .inl ⟨rfl, by omega⟩
  · rcases Nat.eq_or_lt_of_le (Nat.succ_le_of_lt hgt) with rfl | hgap
    · exact .inr ⟨rfl, Nat.add_left_cancel heq⟩
    · have hfirst := c.firstId_le hgap
      have hpos := c.sampleCountAt_pos (g + 1)
      rw [firstId_succ] at hfirst
      omega

end Config

/-- Between the last growth of a generation and the first one of the next, or for ever after the
last generation. -/
inductive Stage.Between (c : Config R) (g : Nat) : Stage → Prop where
  | grown : Between c g (.grow g (c.sampleCountAt g))
  | resample : Between c g (.resample g)
  | next : Between c g (.grow (g + 1) 0)
  | after {stage : Stage} (last : g + 1 = c.generations)
    (closing : stage ∈ [.selectSurvivor, .close, .detail, .done]) : Between c g stage

theorem Stage.Between.grownBefore_eq {c : Config R} {g : Nat} {stage : Stage}
    (h : Stage.Between c g stage) : c.grownBefore stage = c.firstId (g + 1) := by
  cases h with
  | grown | resample => exact (c.firstId_succ g).symm
  | next => exact Nat.add_zero (c.firstId (g + 1))
  | after last closing =>
    obtain rfl : c.generations - 1 = g := by omega
    rw [Config.firstId_succ]
    simp only [List.mem_cons, List.not_mem_nil, or_false] at closing
    rcases closing with rfl | rfl | rfl | rfl <;> rfl

namespace Search

open scoped Exact

variable {s : Search N R ρ κ ω}

/-! ## What progress comes to -/

theorem OnTime.cast_generations (hs : s.OnTime) :
    ((max s.config.generations 1 : Nat) : ℚ) = s.config.generations := by
  rw [Nat.max_eq_left hs.generations]

/-- The generation a search has come to is one of its own, and so are the particles. -/
theorem OnTime.reached_le (hs : s.OnTime) :
    (s.config.reached s.stage).1 < s.config.generations ∧
      (s.config.reached s.stage).2 ≤ s.config.sampleCountAt (s.config.reached s.stage).1 := by
  have hpos := hs.generations
  have hlast : s.config.generations - 1 < s.config.generations := by omega
  cases h : s.stage with
  | populate => exact ⟨hpos, Nat.zero_le _⟩
  | grow g next =>
    obtain ⟨hg, hbound, -⟩ := hs.holds_at h
    exact ⟨hg, hbound⟩
  | resample g =>
    obtain ⟨hg, -⟩ := hs.holds_at h
    exact ⟨Nat.lt_of_succ_lt hg, Nat.le_refl _⟩
  | selectSurvivor | close | detail | done => exact ⟨hlast, Nat.le_refl _⟩

/-- Progress is the generations that have been grown over the number of all. -/
theorem OnTime.progress_eq (hs : s.OnTime) : s.progress ℚ
    = s.config.done (s.config.reached s.stage).1 (s.config.reached s.stage).2
      / s.config.generations := by
  have hpos : (s.config.generations : ℚ) ≠ 0 := Nat.cast_ne_zero.mpr hs.generations.ne'
  have hwhole : s.config.done (s.config.generations - 1)
      (s.config.sampleCountAt (s.config.generations - 1)) / s.config.generations = 1 := by
    rw [Config.done_all, Nat.cast_pred hs.generations, sub_add_cancel, div_self hpos]
  rw [progress]
  cases h : s.stage with
  | populate =>
    show (0 : ℚ) = s.config.done 0 0 / _
    rw [Config.done_zero, Nat.cast_zero, zero_div]
  | grow g next =>
    obtain ⟨-, -, hgen, -⟩ := hs.holds_at h
    show ((g : ℚ) + (next : ℚ) / ((max s.population.size 1 : Nat) : ℚ))
      / ((max s.config.generations 1 : Nat) : ℚ) = _
    rw [hs.cast_generations, hgen.size, Nat.max_eq_left (s.config.sampleCountAt_pos g)]
    rfl
  | resample g =>
    show ((g + 1 : Nat) : ℚ) / ((max s.config.generations 1 : Nat) : ℚ)
      = s.config.done g (s.config.sampleCountAt g) / _
    rw [hs.cast_generations, Config.done_all, Nat.cast_succ]
  | selectSurvivor | close | detail | done => exact hwhole.symm

/-- Two moments of a search are in the order of the growths before them. -/
theorem OnTime.progress_le_iff {t : Search N R ρ κ ω} (hs : s.OnTime) (ht : t.OnTime)
    (hconfig : t.config = s.config) : s.progress ℚ ≤ t.progress ℚ ↔
      s.config.grownBefore s.stage ≤ s.config.grownBefore t.stage := by
  have hpos : (0 : ℚ) < s.config.generations := Nat.cast_pos.mpr hs.generations
  have hreached := ht.reached_le.2
  rw [hs.progress_eq, ht.progress_eq, hconfig, div_le_div_iff_of_pos_right hpos]
  rw [hconfig] at hreached
  exact s.config.done_le_iff hs.reached_le.2 hreached

theorem OnTime.progress_bounds (hs : s.OnTime) : 0 ≤ s.progress ℚ ∧ s.progress ℚ ≤ 1 := by
  have hpos : (0 : ℚ) < s.config.generations := Nat.cast_pos.mpr hs.generations
  obtain ⟨hg, hk⟩ := hs.reached_le
  rw [hs.progress_eq]
  refine ⟨?_, ?_⟩
  · unfold Config.done
    positivity
  · rw [div_le_one hpos]
    calc s.config.done _ _ ≤ s.config.done _ _ := (s.config.done_le_done_iff _ _ _).mpr hk
      _ = _ + 1 := s.config.done_all _
      _ ≤ s.config.generations := by exact_mod_cast hg

/-- Progress is that of so many whole generations after the growths of these and no more. -/
theorem OnTime.progress_eq_iff (hs : s.OnTime) (g : Nat) :
    s.progress ℚ = (g + 1) / s.config.generations ↔
      s.config.grownBefore s.stage = s.config.firstId (g + 1) := by
  have hpos : (0 : ℚ) < s.config.generations := Nat.cast_pos.mpr hs.generations
  have hk := hs.reached_le.2
  rw [hs.progress_eq, ← s.config.done_all, div_left_inj' hpos.ne', le_antisymm_iff,
    Config.done_le_iff _ hk (Nat.le_refl _), Config.done_le_iff _ (Nat.le_refl _) hk,
    ← le_antisymm_iff, ← Config.firstId_succ]
  rfl

/-- The stages after the growths of so many whole generations and no more. -/
theorem OnTime.between_iff (hs : s.OnTime) (g : Nat) :
    Stage.Between s.config g s.stage ↔
      s.config.grownBefore s.stage = s.config.firstId (g + 1) := by
  have hreached := hs.reached_le.2
  constructor
  · intro h
    exact h.grownBefore_eq
  · intro h
    have hplace := s.config.place_of_firstId hreached h
    have hsome := s.config.sampleCountAt_pos
    have hover (hreach : s.config.reached s.stage
        = (s.config.generations - 1, s.config.sampleCountAt (s.config.generations - 1))) :
        g + 1 = s.config.generations := by
      have hpos := hs.generations
      rw [hreach] at hplace
      obtain ⟨hg, -⟩ | ⟨-, hzero⟩ := hplace
      · dsimp only at hg
        omega
      · exact absurd hzero (hsome _).ne'
    cases hstage : s.stage with
    | populate =>
      rw [hstage] at hplace
      obtain ⟨-, hzero⟩ | ⟨hzero, -⟩ := hplace
      · exact absurd hzero.symm (hsome g).ne'
      · exact absurd hzero.symm (Nat.succ_ne_zero g)
    | grow k next =>
      rw [hstage] at hplace
      change (k = g ∧ next = _) ∨ (k = g + 1 ∧ next = 0) at hplace
      obtain ⟨rfl, rfl⟩ | ⟨rfl, rfl⟩ := hplace
      · exact .grown
      · exact .next
    | resample k =>
      rw [hstage] at hplace
      change (k = g ∧ _) ∨ (_ ∧ s.config.sampleCountAt k = 0) at hplace
      obtain ⟨rfl, -⟩ | ⟨-, hzero⟩ := hplace
      · exact .resample
      · exact absurd hzero (hsome k).ne'
    | selectSurvivor | close | detail | done =>
      exact .after (hover (by rw [hstage]; rfl)) (by simp)

section Runs

variable [RandomSource ρ] [CostModel κ N R] [Watcher ω N R]

/-- Whether the next step lets a particle of the population grow. -/
def grows (s : Search N R ρ κ ω) : Bool :=
  match s.stage with
  | .grow _ next => decide (next < s.population.size) && s.step.1.isOk
  | _ => false

/-- How many of the first steps let a particle of the population grow. -/
def growths (s : Search N R ρ κ ω) (n : Nat) : Nat :=
  (List.range n).countP fun m => (s.after m).grows

theorem growths_succ (s : Search N R ρ κ ω) (n : Nat) :
    s.growths (n + 1) = s.growths n + if (s.after n).grows then 1 else 0 := by
  unfold growths
  rw [List.range_succ, List.countP_append, List.countP_singleton]

theorem grows_of_stage (h : ∀ g next, s.stage ≠ .grow g next) : s.grows = false := by
  unfold grows
  split
  · next g next hstage => exact absurd hstage (h g next)
  · rfl

omit [RandomSource ρ] [CostModel κ N R] [Watcher ω N R] in
/-- At its end a generation has come as far as the resampling or the choice of the survivor. -/
theorem grownBefore_endGeneration (hs : s.OnTime) {g next : Nat} (h : s.stage = .grow g next)
    (hp : s.population[next]? = none) :
    s.config.grownBefore (s.afterGeneration g) = s.config.grownBefore (.grow g next) := by
  obtain ⟨hg, -⟩ := hs.holds_at h
  obtain rfl := hs.next_eq h hp
  unfold afterGeneration
  by_cases hmore : g + 1 < s.config.generations
  · rw [if_pos hmore]
    rfl
  · obtain rfl : g = s.config.generations - 1 := by omega
    rw [if_neg hmore]
    rfl

/-- A step comes one growth further if it lets a particle grow, and no further otherwise. -/
theorem grownBefore_step (hs : s.OnTime) : s.config.grownBefore s.step.2.stage
    = s.config.grownBefore s.stage + if s.grows then 1 else 0 := by
  cases s.situation with
  | populate h =>
    obtain ⟨w, -, hstep⟩ := step_populate h
    rw [grows_of_stage (by simp [h]), hstep, h]
    rfl
  | grow g next p h hp =>
    obtain ⟨hlt, -⟩ := Array.getElem?_eq_some_iff.mp hp
    have hgrows : s.grows = (s.growth .skeleton (s.heuristicCounts g) p).1.isOk := by
      unfold grows
      rw [h, step_grow h hp, isOk_map]
      dsimp only
      rw [decide_eq_true hlt, Bool.true_and]
    rw [hgrows, step_grow h hp, h]
    dsimp only
    split <;> rfl
  | endGeneration g next h hp =>
    obtain ⟨w, -, hstep⟩ := step_endGeneration h hp
    have hgrows : s.grows = false := by
      unfold grows
      rw [h]
      dsimp only
      rw [decide_eq_false (Nat.not_lt.mpr (Array.getElem?_eq_none_iff.mp hp)), Bool.false_and]
    rw [hgrows, hstep, h]
    exact grownBefore_endGeneration hs h hp
  | resample g h =>
    obtain ⟨w, -, hstep⟩ := step_resample h
    rw [grows_of_stage (by simp [h]), hstep, h]
    exact s.config.firstId_succ g
  | select p h hp =>
    obtain ⟨w, -, hstep⟩ := step_select h hp
    rw [grows_of_stage (by simp [h]), hstep, h]
    rfl
  | close p h hp =>
    rw [grows_of_stage (by simp [h]), step_close h hp, h]
    dsimp only
    unfold afterClosing
    split <;> rfl
  | detail p h hp hopen =>
    rw [grows_of_stage (by simp [h]), step_detail h hp hopen]
    rfl
  | finish p h hp hclosed =>
    obtain ⟨w, -, hstep⟩ := step_finish h hp hclosed
    rw [grows_of_stage (by simp [h]), hstep, h]
    rfl
  | @idle failure hstep hactor =>
    have hgrows : s.grows = false := by
      unfold grows
      rw [hstep]
      split
      · exact Bool.and_false _
      · rfl
    rw [hgrows, hstep]
    rfl

/-- As many particles have grown as the stage says. -/
theorem growths_after (hs : s.OnTime) (hstart : s.stage = .populate) (n : Nat) :
    s.growths n = s.config.grownBefore (s.after n).stage := by
  induction n with
  | zero =>
    show 0 = s.config.grownBefore s.stage
    rw [hstart]
    rfl
  | succ n ih =>
    have hconfig := (s.sameTask_after n).config
    have hstep := grownBefore_step (onTime_after hs n)
    rw [hconfig] at hstep
    rw [growths_succ, ih]
    exact hstep.symm

/-- How the progress of a run goes. -/
structure Progresses (s : Search N R ρ κ ω) : Prop where
  bounds : ∀ n, 0 ≤ (s.after n).progress ℚ ∧ (s.after n).progress ℚ ≤ 1
  rises : ∀ m n, m ≤ n → (s.after m).progress ℚ ≤ (s.after n).progress ℚ
  /-- It rises with every growth and with nothing else. -/
  le_iff : ∀ m n, (s.after m).progress ℚ ≤ (s.after n).progress ℚ ↔ s.growths m ≤ s.growths n
  starts : ∀ n, (s.after n).stage = .populate → (s.after n).progress ℚ = 0
  /-- It is that of so many whole generations between the last growth of one and the first of the
  next. -/
  whole_iff : ∀ n (g : Nat), (s.after n).progress ℚ = (g + 1) / s.config.generations ↔
    Stage.Between s.config g (s.after n).stage
  /-- This is when all particles of the generations up to this one have grown, and no other. -/
  grown_iff : ∀ n (g : Nat), (s.after n).progress ℚ = (g + 1) / s.config.generations ↔
    s.growths n = s.config.firstId (g + 1)

/-- Whatever happens in a run, its progress goes from nothing to the whole and never back. -/
theorem progress_rises {grammar : Grammar N R} {root : N} {start : String} {config : Config R}
    {patience : Nat} {model : κ} {source : ρ} {watcher : ω}
    (hnew : Search.new grammar root start config patience model source watcher = .ok s) :
    s.Progresses := by
  have hs (n : Nat) : (s.after n).OnTime := onTime_after (onTime_new hnew) n
  have hconfig (n : Nat) : (s.after n).config = s.config := (s.sameTask_after n).config
  have hgrowths := growths_after (onTime_new hnew) (stage_new hnew)
  have hle_iff (m n : Nat) :
      (s.after m).progress ℚ ≤ (s.after n).progress ℚ ↔ s.growths m ≤ s.growths n := by
    rw [(hs m).progress_le_iff (hs n) ((hconfig n).trans (hconfig m).symm), hconfig, hgrowths,
      hgrowths]
  have hgrown_iff (n g : Nat) : (s.after n).progress ℚ = (g + 1) / s.config.generations ↔
      s.growths n = s.config.firstId (g + 1) := by
    have h := (hs n).progress_eq_iff g
    rw [hconfig] at h
    rw [h, hgrowths]
  constructor
  case bounds => exact fun n => (hs n).progress_bounds
  case rises =>
    intro m n hle
    refine (hle_iff m n).mpr ?_
    exact List.Sublist.countP_le (List.range_sublist.mpr hle)
  case le_iff => exact hle_iff
  case starts =>
    intro n hstage
    unfold progress
    rw [hstage]
    rfl
  case whole_iff =>
    intro n g
    have h := (hs n).between_iff g
    rw [hconfig] at h
    rw [hgrown_iff, hgrowths, h]
  case grown_iff => exact hgrown_iff

end Runs

end Search

namespace Sample

/-- A search whose second generation is larger than the first one and the third one smaller. -/
def swelling : Except (Failure Binary64)
    (Search String Binary64 Source (NoCost String Binary64) (Sink Binary64)) :=
  Search.new grammar "root" "stem"
    { config with generations := 3, sampleCount := .explicit [1, ((2 : Nat) : Binary64), 1] } 10 ⟨⟩
    (.cycle #[] 0) .ignore

end Sample

namespace Search

open Sample

open scoped Exact

/-- A third is done when the first of three generations has been resampled. -/
theorem progress_rises_swelling : ∃ s, swelling = .ok s ∧ s.Progresses ∧
    (s.after 4).stage = .grow 1 0 ∧ (s.after 4).progress ℚ = 1 / 3 := by
  have hrun : (swelling.toOption.map fun s => ((s.after 4).stage, s.config.generations))
      = some (.grow 1 0, 3) := by
    decide +kernel
  obtain ⟨s, hnew, hseen⟩ := exists_of_toOption_map hrun
  obtain ⟨hstage, hgenerations⟩ := Prod.mk.inj hseen
  have hprogresses := progress_rises hnew
  have hthird := (hprogresses.whole_iff 4 0).mpr (hstage ▸ .next)
  refine ⟨s, hnew, hprogresses, hstage, hthird.trans ?_⟩
  rw [hgenerations]
  norm_num

end Search

end Espalier
