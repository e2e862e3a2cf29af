import Espalier.Proofs.Number.TotalOrder
import Espalier.Proofs.Search.Filters
import Espalier.Proofs.Search.Generations

/-!
# Who survives

The cheapest particle is looked for twice: when the last generation has grown, to report the best
cost, and one step later, to let it survive. `Selection.FirstLowest` says what such a search comes
to, the first of the lowest values. Nothing happens to the population in between
(`endGeneration_of_select`), so what survives is what was reported, down to the sign of a zero.

Costs that are no numbers have their place too: the order is the total one of `Binary64.InOrder`.
-/

namespace Espalier

namespace Selection

variable {R : Type} [Scalar R] {values : List R} {place : Nat} {best value : R}

/-- A place of the lowest value: no value is lower, and those before it are higher. -/
structure FirstLowest (values : List R) (place : Nat) (best : R) : Prop where
  value : values[place]? = some best
  least : ∀ value ∈ values, Scalar.rank best ≤ Scalar.rank value
  first : ∀ earlier < place, ∀ value, values[earlier]? = some value →
    Scalar.rank best < Scalar.rank value

/-- A further value that is not lower leaves the place as it is. -/
theorem FirstLowest.keep (h : FirstLowest values place best)
    (hle : Scalar.rank best ≤ Scalar.rank value) :
    FirstLowest (values ++ [value]) place best := by
  obtain ⟨hlt, -⟩ := List.getElem?_eq_some_iff.mp h.value
  constructor
  case value =>
    rw [List.getElem?_append_left hlt]
    exact h.value
  case least =>
    intro other hother
    rcases List.mem_append.mp hother with hother | hother
    · exact h.least other hother
    · exact List.mem_singleton.mp hother ▸ hle
  case first =>
    intro earlier hearlier other hother
    rw [List.getElem?_append_left (hearlier.trans hlt)] at hother
    exact h.first earlier hearlier other hother

/-- A further value that is lower takes the place over. -/
theorem FirstLowest.lower (h : FirstLowest values place best)
    (hlt : Scalar.rank value < Scalar.rank best) :
    FirstLowest (values ++ [value]) values.length value := by
  constructor
  case value => exact List.getElem?_concat_length
  case least =>
    intro other hother
    rcases List.mem_append.mp hother with hother | hother
    · exact Int.le_of_lt (Int.lt_of_lt_of_le hlt (h.least other hother))
    · exact List.mem_singleton.mp hother ▸ Int.le_refl _
  case first =>
    intro earlier hearlier other hother
    rw [List.getElem?_append_left hearlier] at hother
    exact Int.lt_of_lt_of_le hlt (h.least other (List.mem_of_getElem? hother))

theorem firstLowest_lowestFrom (rest : List R) (h : FirstLowest values place best) :
    ∃ lowest, FirstLowest (values ++ rest) (lowestFrom best place values.length rest) lowest := by
  -- By induction on the values to come; those already seen are the general part.
  induction rest generalizing values place best with
  | nil => exact ⟨best, (List.append_nil values).symm ▸ h⟩
  | cons value rest ih =>
    have hlength : (values ++ [value]).length = values.length + 1 := List.length_append
    have hvalues : values ++ value :: rest = values ++ [value] ++ rest :=
      (List.append_assoc values [value] rest).symm
    unfold lowestFrom
    rw [hvalues, ← hlength]
    split
    case isTrue hlt => exact ih (h.lower hlt)
    case isFalse hge => exact ih (h.keep (Int.not_lt.mp hge))

/-- The index of the lowest value is the place of the first of them. -/
theorem firstLowest_of_lowestIndex (h : lowestIndex values = some place) :
    ∃ best, FirstLowest values place best := by
  cases values with
  | nil => exact absurd h (by simp [lowestIndex])
  | cons value values =>
    have hfirst : FirstLowest [value] 0 value := by
      constructor
      case value => rfl
      case least => exact fun other hother => List.mem_singleton.mp hother ▸ Int.le_refl _
      case first => exact fun earlier hearlier => absurd hearlier (Nat.not_lt_zero earlier)
    exact Option.some.inj h ▸ firstLowest_lowestFrom values hfirst

end Selection

namespace Search

/-- A particle is the first of the cheapest ones: none comes before it in the order of totals, and
all that stand before it in the population come after it in that order. -/
structure Cheapest {N : Type} (population : Array (Particle N Binary64)) (place : Nat)
    (p : Particle N Binary64) : Prop where
  found : population[place]? = some p
  least : ∀ q ∈ population, Binary64.InOrder p.cost.total q.cost.total
  first : ∀ earlier < place, ∀ q, population[earlier]? = some q →
    ¬ Binary64.InOrder q.cost.total p.cost.total

section Order

variable {N ρ κ ω : Type} {s : Search N Binary64 ρ κ ω} {p : Particle N Binary64}

/-- The particle that is chosen to survive is the first of the cheapest. -/
theorem cheapest_of_fittest (h : s.fittest? = some p) : ∃ place, Cheapest s.population place p := by
  obtain ⟨place, hplace, hp⟩ := Option.bind_eq_some_iff.mp h
  obtain ⟨best, hbest⟩ := Selection.firstLowest_of_lowestIndex hplace
  have htotal {j : Nat} {q : Particle N Binary64} (hq : s.population[j]? = some q) :
      s.totals[j]? = some q.cost.total := by
    unfold totals
    rw [List.getElem?_map, Array.getElem?_toList, hq]
    rfl
  obtain rfl : p.cost.total = best := Option.some.inj ((htotal hp).symm.trans hbest.value)
  refine ⟨place, hp, fun q hq => ?_, fun earlier hearlier q hq horder => ?_⟩
  · obtain ⟨j, hj⟩ := Array.mem_iff_getElem?.mp hq
    exact Binary64.rank_le_iff.mp (hbest.least _ (List.mem_of_getElem? (htotal hj)))
  · exact Int.not_le.mpr (hbest.first earlier hearlier _ (htotal hq))
      (Binary64.rank_le_iff.mpr horder)

end Order

section Runs

variable {N R ρ κ ω : Type} [Scalar R] [RandomSource ρ] [CostModel κ N R] [Watcher ω N R]
  {s : Search N R ρ κ ω}

/-- The only way to the choice of the survivor is from the end of the last generation. -/
theorem endGeneration_of_select (hs : s.OnTime) (h : s.step.2.stage = .selectSurvivor) :
    ∃ g next, s.stage = .grow g next ∧ s.population[next]? = none ∧
      g + 1 = s.config.generations ∧ s.step.2.population = s.population := by
  cases s.situation with
  | endGeneration g next hstage hp =>
    obtain ⟨w, -, hstep⟩ := step_endGeneration hstage hp
    obtain ⟨hg, -⟩ := hs.holds_at hstage
    rw [hstep] at h
    have hlast : ¬ g + 1 < s.config.generations := fun hmore => by
      have hresample : s.afterGeneration g = .resample g := if_pos hmore
      exact absurd (hresample.symm.trans h) (by simp)
    refine ⟨g, next, hstage, hp, Nat.le_antisymm hg (Nat.le_of_not_lt hlast), ?_⟩
    rw [hstep]
  | idle hstep _ =>
    -- A survivor can always be chosen, so the search does not stay where it is.
    rw [hstep] at h
    obtain ⟨p, hp⟩ := exists_fittest hs h
    obtain ⟨w, -, hselect⟩ := step_select h hp
    rw [hselect] at hstep
    exact absurd (congrArg Prod.fst hstep) (by simp)
  | populate hstage =>
    obtain ⟨w, -, hstep⟩ := step_populate hstage
    rw [hstep] at h
    exact absurd h (by simp)
  | grow g next p hstage hp =>
    rw [step_grow hstage hp] at h
    dsimp only at h
    split at h <;> exact absurd h (by simp)
  | resample g hstage =>
    obtain ⟨w, -, hstep⟩ := step_resample hstage
    rw [hstep] at h
    exact absurd h (by simp)
  | select p hstage hp =>
    obtain ⟨w, -, hstep⟩ := step_select hstage hp
    rw [hstep] at h
    exact absurd h (by simp)
  | close p hstage hp =>
    rw [step_close hstage hp] at h
    dsimp only [afterClosing] at h
    split at h <;> exact absurd h (by simp)
  | detail p hstage hp hopen =>
    rw [step_detail hstage hp hopen] at h
    exact absurd (hstage.symm.trans h) (by simp)
  | finish p hstage hp hclosed =>
    obtain ⟨w, -, hstep⟩ := step_finish hstage hp hclosed
    rw [hstep] at h
    exact absurd h (by simp)

omit [CostModel κ N R] [Watcher ω N R] in
/-- The best cost that is reported is that of the particle that would be chosen. -/
theorem reports_of_fittest {g next : Nat} (h : s.stage = .grow g next)
    (hnone : s.population[next]? = none) {p : Particle N R} (hp : s.fittest? = some p) :
    ∃ size scale mean, s.reports = [.generationGrown g size scale p.cost mean] := by
  have hbest : ((Selection.lowestIndex s.totals).bind fun i => s.population[i]?.map (·.cost))
      = some p.cost := by
    obtain ⟨place, hplace, hfound⟩ := Option.bind_eq_some_iff.mp hp
    exact Option.bind_eq_some_iff.mpr ⟨place, hplace, congrArg _ hfound⟩
  refine ⟨s.population.size, s.config.heuristicScaleAt g,
    total s.totals / ((max s.population.size 1 : Nat) : R), ?_⟩
  unfold reports grown
  rw [h, hbest]
  dsimp only
  rw [hnone]
  rfl

/-! ## After the choice -/

/-- The survivor has been chosen. -/
def Settled (s : Search N R ρ κ ω) : Prop :=
  s.stage = .close ∨ s.stage = .detail ∨ s.stage = .done

/-- A choice is final. -/
theorem settled_step (h : s.Settled) : s.step.2.Settled := by
  rcases h with hstage | hstage | hstage
  · cases hp : s.survivor with
    | none =>
      rw [step_close_none hstage hp]
      exact .inl hstage
    | some p =>
      rw [step_close hstage hp]
      unfold Settled afterClosing
      dsimp only
      split
      · exact .inr (.inl rfl)
      · exact .inl rfl
  · cases hp : s.survivor with
    | none =>
      rw [step_detail_none hstage hp]
      exact .inr (.inl hstage)
    | some p =>
      cases hopen : p.details.isEmpty with
      | false =>
        rw [step_detail hstage hp hopen]
        exact .inr (.inl hstage)
      | true =>
        obtain ⟨w, -, hstep⟩ := step_finish hstage hp hopen
        rw [hstep]
        exact .inr (.inr rfl)
  · rw [step_done hstage]
    exact .inr (.inr hstage)

omit [CostModel κ N R] [Watcher ω N R] in
/-- No other generation is reported after the choice. -/
theorem reports_of_settled (h : s.Settled) :
    ∀ event ∈ s.reports, event.kind ≠ .generationGrown := by
  intro event hevent
  unfold reports at hevent
  rcases h with hstage | hstage | hstage
  · rw [hstage] at hevent
    exact absurd hevent List.not_mem_nil
  · rw [hstage] at hevent
    obtain ⟨p, -, hp⟩ := List.mem_flatMap.mp hevent
    split at hp
    · rcases List.mem_pair.mp hp with rfl | rfl <;> exact EventKind.noConfusion
    · exact absurd hp List.not_mem_nil
  · rw [hstage] at hevent
    exact absurd hevent List.not_mem_nil

theorem settled_after {n : Nat} (h : (s.after n).Settled) (k : Nat) :
    (s.after (n + k)).Settled ∧ ∃ later, s.trace (n + k) = s.trace n ++ later ∧
      ∀ event ∈ later, event.kind ≠ .generationGrown := by
  induction k with
  | zero => exact ⟨h, [], (List.append_nil _).symm, by simp⟩
  | succ k ih =>
    obtain ⟨hsettled, later, htrace, hlater⟩ := ih
    refine ⟨settled_step hsettled, later ++ (s.after (n + k)).reports, ?_, ?_⟩
    · rw [← Nat.add_assoc, trace_succ, htrace, List.append_assoc]
    · intro event hevent
      exact (List.mem_append.mp hevent).elim (hlater event) (reports_of_settled hsettled event)

end Runs

/-! ## The choice -/

section Choice

variable {N ρ κ ω : Type} [RandomSource ρ] [CostModel κ N Binary64] [Watcher ω N Binary64]
  {s : Search N Binary64 ρ κ ω}

/-- A search that chooses its survivor: the last generation has grown after so many steps, in the
next step this is noticed and in the one after the choice is made. -/
structure Chooses (s : Search N Binary64 ρ κ ω) (n place : Nat) (p : Particle N Binary64) :
    Prop where
  /-- All of the last generation have had their turn. -/
  grown : ∃ g next, (s.after n).stage = .grow g next ∧ (s.after n).population[next]? = none ∧
    g + 1 = s.config.generations
  cheapest : Cheapest (s.after n).population place p
  succeeds : (s.after n).step.1 = .ok .pending ∧ (s.after (n + 1)).step.1 = .ok .pending
  kept : (s.after (n + 1)).population = (s.after n).population
  /-- It survives as it was, with all that it has. -/
  survivor : (s.after (n + 2)).survivor = some p
  /-- It is reported with the cost that has just been reported as the best one, and this was the
  last generation to be reported. -/
  reported : ∃ g size scale mean, s.trace (n + 2) = s.trace n ++
    [.generationGrown g size scale p.cost mean, .survivorSelected p.id p.cost p.growth.size]
  last : ∀ k, ∃ later, s.trace (n + 2 + k) = s.trace (n + 2) ++ later ∧
    ∀ event ∈ later, event.kind ≠ .generationGrown

/-- The first of the cheapest particles survives, and with the cost that was reported as best. -/
theorem cheapest_survives {grammar : Grammar N Binary64} {root : N} {start : String}
    {config : Config Binary64} {patience : Nat} {model : κ} {source : ρ} {watcher : ω}
    (hnew : Search.new grammar root start config patience model source watcher = .ok s) {m : Nat}
    (h : (s.after m).stage = .selectSurvivor) :
    ∃ n place p, m = n + 1 ∧ s.Chooses n place p := by
  have hs := onTime_new hnew
  cases m with
  | zero => exact absurd ((stage_new hnew).symm.trans h) (by simp)
  | succ n =>
    obtain ⟨g, next, hstage, hend, hlast, hkept⟩ := endGeneration_of_select (onTime_after hs n) h
    obtain ⟨p, hp⟩ := exists_fittest (onTime_after hs (n + 1)) h
    obtain ⟨w, -, hstep⟩ := step_endGeneration hstage hend
    obtain ⟨w', -, hselect⟩ := step_select h hp
    -- The population that has grown is the one that is chosen from.
    have hpopulation : (s.after (n + 1)).population = (s.after n).population := hkept
    have hbefore : (s.after n).fittest? = some p := by
      unfold fittest? totals at hp ⊢
      rw [← hpopulation]
      exact hp
    obtain ⟨place, hcheapest⟩ := cheapest_of_fittest hbefore
    obtain ⟨size, scale, mean, hgrown⟩ := reports_of_fittest hstage hend hbefore
    have hchosen : (s.after (n + 1)).reports = [.survivorSelected p.id p.cost p.growth.size] := by
      unfold reports
      rw [h, hp]
      rfl
    refine ⟨n, place, p, rfl, ?_⟩
    constructor
    case grown =>
      exact ⟨g, next, hstage, hend, hlast.trans (congrArg _ (sameTask_after s n).config)⟩
    case cheapest => exact hcheapest
    case succeeds => exact ⟨congrArg Prod.fst hstep, congrArg Prod.fst hselect⟩
    case kept => exact hpopulation
    case survivor => exact congrArg (fun t => t.2.survivor) hselect
    case reported =>
      refine ⟨g, size, scale, mean, ?_⟩
      rw [trace_succ, trace_succ, hgrown, hchosen, List.append_assoc]
      rfl
    case last =>
      intro k
      have hsettled : (s.after (n + 2)).Settled := .inl (congrArg (fun t => t.2.stage) hselect)
      exact (settled_after hsettled k).2

end Choice

end Search

namespace Sample

/-- A cost for each particle, by its number. -/
structure Tariff where
  costs : List (Cost Binary64)

instance : CostModel Tariff String Binary64 where
  evaluate tariff p _ _ := (tariff.costs.getD p.id .zero, tariff)

/-- A search with one generation of as many particles as there are costs. -/
def priced (costs : List (Cost Binary64)) :
    Except (Failure Binary64) (Search String Binary64 Source Tariff (Sink Binary64)) :=
  Search.new grammar "root" "stem"
    { config with generations := 1, sampleCount := .constant costs.length } 10 ⟨costs⟩
    (.cycle #[] 0) .ignore

end Sample

namespace Search

/-- Of four particles that cost zero, negative zero twice and no number at all, the second one
survives. -/
theorem cheapest_survives_zeros : ∃ s,
    Sample.priced [⟨0, 0⟩, ⟨-0, -0⟩, ⟨-0, -0⟩, ⟨-.invalid, 0⟩] = .ok s ∧
      (s.after 6).stage = .selectSurvivor ∧ (s.after 7).survivor.map (·.id) = some 1 ∧
      ∃ n place p, 6 = n + 1 ∧ s.Chooses n place p := by
  have hrun : ((Sample.priced [⟨0, 0⟩, ⟨-0, -0⟩, ⟨-0, -0⟩, ⟨-.invalid, 0⟩]).toOption.map
      fun s => ((s.after 6).stage, (s.after 7).survivor.map (·.id)))
        = some (.selectSurvivor, some 1) := by
    decide +kernel
  obtain ⟨s, hnew, hseen⟩ := exists_of_toOption_map hrun
  obtain ⟨hstage, hsurvivor⟩ := Prod.mk.inj hseen
  exact ⟨s, hnew, hstage, hsurvivor, cheapest_survives hnew hstage⟩

end Search

end Espalier
