import Espalier.Proofs.Search.Chronicle
import Espalier.Proofs.Tree.Saplings

/-!
# The search for a tree

A search with the grammar of trees never fails and comes to an end, and what it ends with is a tree
that hangs together. All its particles are saplings (`Tends`), as old as the generations they have
been through, so `Sapling.grow`, `Sapling.close` and `Sapling.grow_leaf` apply at every step:
`tends_step`. The timetable leads it to its survivor, and from there every step leaves less to close
and to grow (`remaining_step`).

`hangs_together` is the result.
-/

namespace Espalier.Tree

open Search

variable {ρ κ ω : Type} [RandomSource ρ] [CostModel κ Segment Binary64]
  [Watcher ω Segment Binary64] {shape : Shape} {place : Point} {s : Search Segment Binary64 ρ κ ω}

/-- The particles of a search for a tree are saplings of a certain age in each stage, with as many
tips and leaves as the search has counted. -/
def Tends (place : Point) (s : Search Segment Binary64 ρ κ ω) : Stage → Prop
  | .populate => s.closings = 0 ∧ s.detailGrowths = 0
  | .grow g next => ∀ (j : Nat) (p : Particle Segment Binary64), s.population[j]? = some p →
    Sapling place (if j < next then g + 1 else g) s.closings s.detailGrowths p
  | .resample g => ∀ p ∈ s.population, Sapling place (g + 1) s.closings s.detailGrowths p
  | .selectSurvivor =>
    ∀ p ∈ s.population, Sapling place s.config.generations s.closings s.detailGrowths p
  | .close => ∃ p, s.survivor = some p ∧
    Sapling place s.config.generations s.closings s.detailGrowths p
  | .detail => ∃ p, s.survivor = some p ∧ p.skeleton = #[] ∧
    Sapling place s.config.generations s.closings s.detailGrowths p
  | .done => True

/-- A search for a tree. It has the patience for every bud that there may be. -/
structure Nursery (shape : Shape) (place : Point) (s : Search Segment Binary64 ρ κ ω) : Prop where
  onTime : s.OnTime
  grammar : s.grammar = Tree.grammar shape
  root : s.root = .root place
  start : s.start = "trunk"
  patience : s.config.generations ≤ s.patience
  tends : Tends place s s.stage

omit [RandomSource ρ] [CostModel κ Segment Binary64] [Watcher ω Segment Binary64] in
theorem Nursery.tends_at (h : Nursery shape place s) {stage : Stage} (hstage : s.stage = stage) :
    Tends place s stage := hstage ▸ h.tends

omit [Watcher ω Segment Binary64] in
/-- A particle of a nursery grows. -/
theorem Nursery.growth (h : Nursery shape place s) {p : Particle Segment Binary64}
    {d tips leaves : Nat} (hp : Sapling place d tips leaves p) (hd : d < s.config.generations)
    (useHeuristic : Bool) :
    (s.growth .skeleton useHeuristic p).1.isOk = true ∧
      Sapling place (d + 1) tips leaves (s.growth .skeleton useHeuristic p).2.1 := by
  unfold Search.growth
  rw [h.grammar]
  exact hp.grow shape useHeuristic s.model s.source (Nat.le_trans hd h.patience)

/-- Until it is done a search for a tree does not fail, and it tends its particles. -/
theorem tends_step (h : Nursery shape place s) (hnot : s.stage ≠ .done) :
    s.step.1.isOk = true ∧ Tends place s.step.2 s.step.2.stage := by
  have hpos := h.onTime.generations
  cases hstage : s.stage with
  | populate =>
    obtain ⟨w, -, hstep⟩ := step_populate hstage
    obtain ⟨hclosings, hgrowths⟩ := h.tends_at hstage
    rw [hstep]
    refine ⟨rfl, fun j p hp => ?_⟩
    obtain ⟨-, rfl⟩ := seed_of_seeds hp
    dsimp only
    rw [if_neg (Nat.not_lt_zero j), hclosings, hgrowths, h.start, h.root]
    exact sapling_seed place _
  | grow g next =>
    have htends := h.tends_at hstage
    obtain ⟨hg, -⟩ := h.onTime.holds_at hstage
    cases hp : s.population[next]? with
    | some p =>
      have hsapling := htends next p hp
      rw [if_neg (Nat.lt_irrefl next)] at hsapling
      obtain ⟨hok, hgrown⟩ := h.growth hsapling hg (s.heuristicCounts g)
      rw [step_grow hstage hp]
      dsimp only
      rw [if_pos hok]
      refine ⟨(isOk_map _ _).trans hok, fun j q hq => ?_⟩
      rcases getElem?_set hq with ⟨rfl, rfl⟩ | ⟨hj, hother⟩
      · rw [if_pos (Nat.lt_succ_self j)]
        exact hgrown
      · -- The others are as old as they were.
        have hage : (if j < next + 1 then g + 1 else g) = if j < next then g + 1 else g := by
          split <;> split <;> omega
        rw [hage]
        exact htends j q hother
    | none =>
      obtain ⟨w, -, hstep⟩ := step_endGeneration hstage hp
      have hall : ∀ p ∈ s.population, Sapling place (g + 1) s.closings s.detailGrowths p := by
        intro p hmem
        obtain ⟨j, hj⟩ := Array.mem_iff_getElem?.mp hmem
        have hlt : j < next := Nat.lt_of_lt_of_le (Array.getElem?_eq_some_iff.mp hj).1
          (Array.getElem?_eq_none_iff.mp hp)
        have hsapling := htends j p hj
        rw [if_pos hlt] at hsapling
        exact hsapling
      rw [hstep]
      refine ⟨rfl, ?_⟩
      unfold afterGeneration
      dsimp only
      by_cases hmore : g + 1 < s.config.generations
      · rw [if_pos hmore]
        exact hall
      · rw [if_neg hmore]
        obtain hlast : s.config.generations = g + 1 := by omega
        show ∀ p ∈ s.population, Sapling place s.config.generations s.closings s.detailGrowths p
        rw [hlast]
        exact hall
  | resample g =>
    have htends := h.tends_at hstage
    obtain ⟨w, -, hstep⟩ := step_resample hstage
    obtain ⟨-, hgen, -, hnext⟩ := h.onTime.holds_at hstage
    obtain ⟨-, hforks⟩ := isGeneration_drawn hgen hnext
    rw [hstep]
    refine ⟨rfl, fun j q hq => ?_⟩
    obtain ⟨p, hp, hfork⟩ := hforks q (Array.mem_of_getElem? hq)
    rw [if_neg (Nat.not_lt_zero j)]
    exact (htends p hp).of_same hfork.nodes hfork.buds
  | selectSurvivor =>
    have htends := h.tends_at hstage
    obtain ⟨p, hp⟩ := exists_fittest h.onTime hstage
    obtain ⟨w, -, hstep⟩ := step_select hstage hp
    obtain ⟨j, -, hj⟩ := Option.bind_eq_some_iff.mp hp
    rw [hstep]
    exact ⟨rfl, p, rfl, htends p (Array.mem_of_getElem? hj)⟩
  | close =>
    obtain ⟨p, hp, hsapling⟩ := h.tends_at hstage
    rw [step_close hstage hp, h.grammar]
    dsimp only
    rcases hsapling.close shape s.source hpos with ⟨hempty, hclose⟩ | ⟨bud, hbud, hclosed, -⟩
    · rw [hclose]
      exact ⟨rfl, p, rfl, hempty, hsapling⟩
    · rw [hbud]
      exact ⟨rfl, _, rfl, hclosed⟩
  | detail =>
    obtain ⟨p, hp, hempty, hsapling⟩ := h.tends_at hstage
    cases hopen : p.details.isEmpty with
    | true =>
      obtain ⟨w, -, hstep⟩ := step_finish hstage hp hopen
      rw [hstep]
      exact ⟨rfl, trivial⟩
    | false =>
      obtain ⟨hok, hgrown, hskeleton, -⟩ := hsapling.grow_leaf shape false s.model s.source hopen
        (Nat.lt_of_lt_of_le hpos h.patience)
      rw [← h.grammar] at hok hgrown hskeleton
      have hok' : (s.growth .detail false p).1.isOk = true := hok
      rw [step_detail hstage hp hopen]
      dsimp only
      rw [if_pos hok', hstage]
      exact ⟨(isOk_map _ _).trans hok', _, rfl, hskeleton.trans hempty, hgrown⟩
  | done => exact absurd hstage hnot

theorem nursery_step (h : Nursery shape place s) : Nursery shape place s.step.2 where
  onTime := onTime_step h.onTime
  grammar := (sameTask_step s).grammar.trans h.grammar
  root := (sameTask_step s).root.trans h.root
  start := (sameTask_step s).start.trans h.start
  patience := by
    rw [(sameTask_step s).config, (sameTask_step s).patience]
    exact h.patience
  tends := by
    by_cases hdone : s.stage = .done
    · rw [step_done hdone]
      exact h.tends
    · exact (tends_step h hdone).2

theorem nursery_after (h : Nursery shape place s) (n : Nat) : Nursery shape place (s.after n) := by
  induction n with
  | zero => exact h
  | succ n ih => exact nursery_step ih

/-! ## Coming to an end -/

/-- How many steps are left before the last one, at most: a bud that is closed leaves that of a leaf
behind. -/
def remaining (s : Search Segment Binary64 ρ κ ω) : Nat :=
  match s.stage, s.survivor with
  | .close, some p => 2 * p.skeleton.size + p.details.size + 1
  | .detail, some p => p.details.size
  | _, _ => 0

/-- With a survivor every step is the last one or leaves fewer steps. -/
theorem remaining_step (h : Nursery shape place s) (hstage : s.stage = .close ∨ s.stage = .detail) :
    (∃ result, s.step.1 = .ok (.done result)) ∨
      ((s.step.2.stage = .close ∨ s.step.2.stage = .detail) ∧
        remaining s.step.2 < remaining s) := by
  rcases hstage with hstage | hstage
  · obtain ⟨p, hp, hsapling⟩ := h.tends_at hstage
    refine .inr ?_
    unfold remaining
    rw [hstage, hp, step_close hstage hp, h.grammar]
    rcases hsapling.close shape s.source h.onTime.generations with
      ⟨hempty, hclose⟩ | ⟨bud, hbud, -, hskeleton, hdetails⟩
    · rw [hclose]
      exact ⟨.inr rfl, Nat.lt_succ_of_le (Nat.le_add_left _ _)⟩
    · rw [hbud]
      refine ⟨.inl rfl, ?_⟩
      dsimp only [afterClosing]
      omega
  · obtain ⟨p, hp, -, hsapling⟩ := h.tends_at hstage
    cases hopen : p.details.isEmpty with
    | true =>
      obtain ⟨w, -, hstep⟩ := step_finish hstage hp hopen
      exact .inl ⟨outcome p, congrArg Prod.fst hstep⟩
    | false =>
      obtain ⟨-, -, -, hdetails⟩ := hsapling.grow_leaf shape false s.model s.source hopen
        (Nat.lt_of_lt_of_le h.onTime.generations h.patience)
      rw [← h.grammar] at hdetails
      have hdetails' : (s.growth .detail false p).2.1.details.size + 1 = p.details.size := hdetails
      refine .inr ?_
      unfold remaining
      rw [hstage, hp, step_detail hstage hp hopen]
      dsimp only
      rw [hstage]
      refine ⟨.inr rfl, ?_⟩
      show (s.growth .detail false p).2.1.details.size < p.details.size
      omega

/-- A run goes on without failing until it is done. -/
theorem Nursery.succeeds (h : Nursery shape place s) {n : Nat} (hok : s.Succeeds n)
    (hnot : (s.after n).stage ≠ .done) : s.Succeeds (n + 1) := by
  intro m hm
  rcases Nat.lt_succ_iff_lt_or_eq.mp hm with hlt | rfl
  · exact hok m hlt
  · exact (tends_step (nursery_after h m) hnot).1

/-- It has a survivor when the timetable says so. -/
theorem Nursery.selects (h : Nursery shape place s) (hstart : s.stage = .populate) :
    s.Succeeds s.config.stepsToSelect ∧
      (s.after s.config.stepsToSelect).stage = .selectSurvivor := by
  have hpast {n : Nat} (hok : s.Succeeds n) :
      (s.after n).Holds (s.after n).stage ∧
        Past (s.after n).config (s.after n).stage (s.stages n) :=
    ⟨(nursery_after h n).onTime.holds,
      (s.sameTask_after n).config ▸ past_after h.onTime hstart hok⟩
  have hok : ∀ n ≤ s.config.stepsToSelect, s.Succeeds n := by
    intro n hn
    induction n with
    | zero => exact fun m hm => absurd hm (Nat.not_lt_zero m)
    | succ n ih =>
      have hbefore := ih (Nat.le_of_succ_le hn)
      refine h.succeeds hbefore fun hdone => ?_
      -- What is done has had the whole timetable, and more.
      obtain ⟨-, hdonePast⟩ := hpast hbefore
      rw [hdone] at hdonePast
      obtain ⟨closings, details, hstages⟩ := hdonePast
      have hlength := congrArg List.length hstages
      unfold Config.timetable at hlength
      rw [s.length_stages, (s.sameTask_after n).config, List.append_assoc, List.append_assoc,
        List.length_append, s.config.length_growing] at hlength
      omega
  have hselect := hok _ (Nat.le_refl _)
  obtain ⟨hholds, hpast⟩ := hpast hselect
  refine ⟨hselect, (select_iff_of_past hholds hpast).mpr ?_⟩
  rw [(s.sameTask_after _).config]
  exact s.length_stages _

/-- From its survivor on a search for a tree comes to its end. -/
theorem exists_end (h : Nursery shape place s) {bound m : Nat} (hok : s.Succeeds m)
    (hstage : (s.after m).stage = .close ∨ (s.after m).stage = .detail)
    (hbound : remaining (s.after m) ≤ bound) :
    ∃ n result, s.Succeeds (n + 1) ∧ (s.after n).step.1 = .ok (.done result) := by
  induction bound generalizing m with
  | zero =>
    have hmore := h.succeeds hok (by rcases hstage with hstage | hstage <;> rw [hstage] <;> nofun)
    rcases remaining_step (nursery_after h m) hstage with ⟨result, hdone⟩ | ⟨-, hless⟩
    · exact ⟨m, result, hmore, hdone⟩
    · omega
  | succ bound ih =>
    have hmore := h.succeeds hok (by rcases hstage with hstage | hstage <;> rw [hstage] <;> nofun)
    rcases remaining_step (nursery_after h m) hstage with ⟨result, hdone⟩ | ⟨hnext, hless⟩
    · exact ⟨m, result, hmore, hdone⟩
    · exact ih hmore hnext (Nat.le_of_lt_succ (Nat.lt_of_lt_of_le hless hbound))

/-! ## The tree -/

omit [RandomSource ρ] [CostModel κ Segment Binary64] [Watcher ω Segment Binary64] in
theorem exists_nursery (shape : Shape) (place : Point) {config : Config Binary64} {patience : Nat}
    (model : κ) (source : ρ) (watcher : ω) (hvalid : config.validate = .ok ())
    (hpatience : config.generations ≤ patience) :
    ∃ s : Search Segment Binary64 ρ κ ω, Search.new (grammar shape) (.root place) "trunk" config
        patience model source watcher = .ok s ∧
      s.stage = .populate ∧ s.config = config ∧ Nursery shape place s := by
  have hcontains : (grammar shape).contains "trunk" = true := by
    rw [Grammar.contains_iff, show (grammar shape).rule? "trunk" = _ from rule?_name shape .trunk]
    exact Option.some_ne_none _
  obtain ⟨s, hnew⟩ : ∃ s : Search Segment Binary64 ρ κ ω, Search.new (grammar shape) (.root place)
      "trunk" config patience model source watcher = .ok s := by
    unfold Search.new
    rw [hvalid, hcontains]
    exact ⟨_, rfl⟩
  have hs := onTime_new hnew
  obtain ⟨rfl, -⟩ := new_spec hnew
  exact ⟨_, hnew, rfl, rfl, hs, rfl, rfl, rfl, hpatience, rfl, rfl⟩

/-- Over every run: a search for a tree with a valid configuration ends without having failed, and
its outcome is a tree that hangs together, with no segment more than one step further from the root
than there were generations. It reports as many closings as there are tips and as many detail
growths as there are leaves.

Patience is not needed to cut anything short: no growth tries more productions than there are
generations. -/
theorem hangs_together (shape : Shape) (place : Point) {config : Config Binary64} {patience : Nat}
    (model : κ) (source : ρ) (watcher : ω) (hvalid : config.validate = .ok ())
    (hpatience : config.generations ≤ patience) :
    ∃ (s : Search Segment Binary64 ρ κ ω) (n : Nat) (result : Outcome Segment Binary64),
      Search.new (grammar shape) (.root place) "trunk" config patience model source watcher
          = .ok s ∧
        s.Succeeds (n + 1) ∧ (s.after n).step.1 = .ok (.done result) ∧
        (∃ joint, Whole place result.growth.toList joint) ∧
        (∀ segment ∈ result.growth.toList, segment.depth ≤ config.generations + 1) ∧
        (s.after (n + 1)).watcher =
          [.finalized (number .tip result.growth.toList) (number .leaf result.growth.toList),
            .runFinished result.growth.size result.cost].foldl (offer Segment)
              (s.after n).watcher := by
  obtain ⟨s, hnew, hstart, rfl, h⟩ :=
    exists_nursery shape place model source watcher hvalid hpatience
  obtain ⟨hok, hselect⟩ := h.selects hstart
  obtain ⟨m, hm⟩ : ∃ m, m = s.config.stepsToSelect := ⟨_, rfl⟩
  rw [← hm] at hok hselect
  have hclose : (s.after (m + 1)).stage = .close := by
    obtain ⟨p, hp⟩ := exists_fittest (nursery_after h m).onTime hselect
    obtain ⟨w, -, hstep⟩ := step_select hselect hp
    show (s.after m).step.2.stage = .close
    rw [hstep]
  have hmore : s.Succeeds (m + 1) := h.succeeds hok (by rw [hselect]; nofun)
  obtain ⟨n, result, hruns, hdone⟩ := exists_end h hmore (.inl hclose) (Nat.le_refl _)
  obtain ⟨p, hstage, hp, hdetails, rfl⟩ := finish_of_done hdone
  obtain ⟨p', hp', hskeleton, hsapling⟩ := (nursery_after h n).tends_at hstage
  obtain rfl : p = p' := Option.some.inj (hp.symm.trans hp')
  rw [(s.sameTask_after n).config] at hsapling
  obtain ⟨joint, htended⟩ := hsapling.tended
  rw [hdetails] at htended
  refine ⟨s, n, outcome p, hnew, hruns, hdone, ⟨joint, htended.whole⟩, hsapling.within.all, ?_⟩
  show (s.after n).step.2.watcher = _
  have hshown (w : ω) : (s.after n).showing w = w := by
    unfold showing
    rw [hstage]
  rw [watcher_step, hshown, reports_finish hstage hp (by rw [hdetails]; rfl), ← hsapling.tips,
    ← hsapling.leaves]
  rfl

/-- A tree of two generations, without costs and with nothing but zeros drawn. -/
theorem hangs_together_small :
    (Sample.config : Config Binary64).validate = .ok () ∧
    (Sample.config : Config Binary64).generations ≤ 2 ∧
    ∃ (s : Search Segment Binary64 Source (NoCost Segment Binary64) (Sink Binary64)) (n : Nat)
      (result : Outcome Segment Binary64),
      Search.new (grammar .standard) (.root .up) "trunk" Sample.config 2 ⟨⟩ (.cycle #[] 0) .ignore
          = .ok s ∧
        s.Succeeds (n + 1) ∧ (s.after n).step.1 = .ok (.done result) ∧
        ∃ joint, Whole .up result.growth.toList joint := by
  have hvalid : (Sample.config : Config Binary64).validate = .ok () := by decide +kernel
  have hpatience : (Sample.config : Config Binary64).generations ≤ 2 := by decide
  obtain ⟨s, n, result, hnew, hok, hdone, hwhole, -⟩ :=
    hangs_together .standard .up (⟨⟩ : NoCost Segment Binary64) (.cycle #[] 0 : Source)
      (.ignore : Sink Binary64) hvalid hpatience
  exact ⟨hvalid, hpatience, s, n, result, hnew, hok, hdone, hwhole⟩

end Espalier.Tree
