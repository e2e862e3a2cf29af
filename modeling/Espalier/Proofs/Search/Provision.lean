import Espalier.Proofs.Grammar
import Espalier.Proofs.Search.Lineage
import Espalier.Proofs.Tally

/-!
# Provision for every bud

A run fails with an unknown rule or a missing closing when it comes to a bud that the grammar has
nothing for. Both can be told from the grammar alone: if its productions register buds of its own
rules only (`Grammar.SelfContained`) and no rule that needs a closing lacks one, every bud in a
queue is provided for (`Ready`), since registering it chose the queue.

The exception is the bud of a seed, which is put in the skeleton whatever its rule. It need not have
a closing, so it has to be shown to be gone before it comes to closing: a seed is left as it is
(`Seedling`) only until it is its turn in the first generation, and its first turn takes that bud.
`ofGrown_step` is the step lemma, for any property that turns and forks keep, `provided_step` takes
it for that of being provided for, and `never_without` is the run.
-/

namespace Espalier

variable {N R ρ κ ω : Type}

namespace Grammar

/-- A production of the grammar: a choice of one of its rules, or a closing. -/
inductive HasBody (g : Grammar N R) : Production N → Prop where
  | choice {name : String} {rule : Rule N R} (choice : Choice N R)
    (found : g.rule? name = some rule) (mem : choice ∈ rule.choices) : HasBody g choice.body
  | closing {name : String} {body : Production N} (found : g.closings[name]? = some body) :
    HasBody g body

/-- Whatever the productions of the grammar see and draw, they register buds of its rules only. -/
def SelfContained (ρ : Type) [RandomSource ρ] (g : Grammar N R) : Prop :=
  ∀ body, g.HasBody body → ∀ (node : NodeId) (view : View N) (source : ρ),
    ∀ bud ∈ ((body node).harvest view source).buds, g.contains bud.rule = true

/-- Registering a production adds that one only. -/
theorem hasBody_define [Arithmetic R] {g : Grammar N R} {name : String} {body added : Production N}
    (h : (g.define name added).HasBody body) : g.HasBody body ∨ body = added := by
  cases h with
  | closing found => exact Or.inl (.closing found)
  | @choice other rule choice found mem =>
    have hfound : (g.rules.insert name ((g.rules[name]?.getD .empty).push 1 added))[other]?
        = some rule := found
    rcases new_or_there_of_insert hfound with ⟨-, rfl⟩ | ⟨-, hbefore⟩
    · rcases Array.mem_push.mp mem with hbefore | rfl
      · cases hrule : g.rules[name]? with
        | none =>
          rw [hrule] at hbefore
          exact absurd hbefore (Array.not_mem_empty choice)
        | some before =>
          rw [hrule] at hbefore
          exact Or.inl (.choice choice hrule hbefore)
      · exact Or.inr rfl
    · exact Or.inl (.choice choice hbefore mem)

theorem hasBody_close {g : Grammar N R} {name : String} {body added : Production N}
    (h : (g.close name added).HasBody body) : g.HasBody body ∨ body = added := by
  cases h with
  | choice choice found mem => exact Or.inl (.choice choice found mem)
  | @closing other _ found =>
    have hfound : (g.closings.insert name added)[other]? = some body := found
    rcases new_or_there_of_insert hfound with ⟨-, rfl⟩ | ⟨-, hbefore⟩
    · exact Or.inr rfl
    · exact Or.inl (.closing hbefore)

/-- Declaring a detail adds no production. -/
theorem hasBody_detail {g : Grammar N R} {name : String} {body : Production N}
    (h : (g.detail name).HasBody body) : g.HasBody body := by
  cases h with
  | choice choice found mem => exact .choice choice found mem
  | closing found => exact .closing found

theorem not_hasBody_empty {body : Production N} : ¬ (empty : Grammar N R).HasBody body := by
  intro h
  cases h with
  | choice choice found mem => exact absurd found (by simp [empty, rule?])
  | closing found => exact absurd found (by simp [empty])

theorem hasClosing_iff {g : Grammar N R} {name : String} :
    g.hasClosing name = true ↔ g.closings[name]? ≠ none := by
  unfold hasClosing
  rw [← Std.ExtTreeMap.mem_iff_contains, Std.ExtTreeMap.mem_iff_isSome_getElem?,
    Option.isSome_iff_ne_none]

/-- Where no closing is missing, a rule that is no detail has one. -/
theorem hasClosing_of_not_detail {g : Grammar N R} (h : g.rulesWithoutClosing = [])
    {name : String} (hcontains : g.contains name = true) (hdetail : g.isDetail name = false) :
    g.hasClosing name = true := by
  unfold rulesWithoutClosing ruleNames at h
  have hmem : name ∈ g.rules.keys := Std.ExtTreeMap.mem_keys.mpr hcontains
  have hnot := List.filter_eq_nil_iff.mp h name hmem
  simpa [hdetail] using hnot

/-- What drawing a choice fails with. -/
theorem sample_failure [Arithmetic R] [RandomSource ρ] {g : Grammar N R} {name : String}
    {source : ρ} {failure : Failure R} (h : (g.sample name source).1 = .error failure) :
    failure = .noChoice name ∨ failure = .unknownRule name ∧ g.rule? name = none := by
  unfold sample sampleIndex at h
  cases hrule : g.rule? name with
  | none =>
    rw [hrule] at h
    exact Or.inr ⟨(Except.error.inj h).symm, rfl⟩
  | some rule =>
    rw [hrule] at h
    dsimp only at h
    cases hindex : rule.indexFor (drawShare (R := R) source).1 with
    | none =>
      rw [hindex] at h
      exact Or.inl (Except.error.inj h).symm
    | some index =>
      rw [hindex] at h
      dsimp only at h
      cases hchoice : (some rule : Option (Rule N R)).bind (·.choices[index]?) with
      | none =>
        rw [hchoice] at h
        exact Or.inl (Except.error.inj h).symm
      | some choice =>
        rw [hchoice] at h
        exact absurd h (by simp)

end Grammar

/-! ## Growing and closing -/

namespace Particle

variable [Scalar R] [RandomSource ρ] {g : Grammar N R} {phase : Phase} {p p' : Particle N R}
  {source : ρ}

/-- Expanding buds, one turn after the other, with what it comes to. -/
inductive Expands (g : Grammar N R) (phase : Phase) (start : Nat) :
    Particle N R → ρ → Except (Failure R) Unit → List (Turn N ρ) → Prop where
  | stopped {p : Particle N R} {source : ρ}
    (stop : p.growth.size ≠ start ∨ (p.buds phase).isEmpty) :
    Expands g phase start p source (.ok ()) []
  | stalled (p : Particle N R) (source : ρ) :
    Expands g phase start p source (.error .stalled) []
  | failed {p q : Particle N R} {source drawn : ρ} {place : Nat} {bud : Bud}
    {failure : Failure R} (take : p.takeBud phase place = some (bud, q))
    (sample : (g.sample bud.rule drawn).1 = .error failure) (rest : ρ) :
    Expands g phase start p source (.error failure) [⟨bud, none, q.view, rest⟩]
  | turned {p q : Particle N R} {source drawn rest : ρ} {place : Nat} {bud : Bud}
    {choice : Choice N R} {result : Except (Failure R) Unit} {turns : List (Turn N ρ)}
    (take : p.takeBud phase place = some (bud, q))
    (sample : (g.sample bud.rule drawn).1 = .ok choice)
    (more : Expands g phase start (q.apply g choice.body bud.node rest).1
      (q.apply g choice.body bud.node rest).2 result turns) :
    Expands g phase start p source result (⟨bud, some choice.body, q.view, rest⟩ :: turns)

/-- The index drawn is that of a bud. -/
theorem exists_takeBud (hopen : (p.buds phase).isEmpty = false) (source : ρ) :
    ∃ place taken, (Selection.pickUniform R (p.buds phase).size source).1 = some place ∧
      p.takeBud phase place = some taken := by
  have hpos : 0 < (p.buds phase).size :=
    Nat.pos_of_ne_zero fun hzero => by simp [Array.isEmpty, hzero] at hopen
  obtain ⟨place, hplace, hlt⟩ : ∃ place,
      (Selection.pickUniform R (p.buds phase).size source).1 = some place ∧
        place < (p.buds phase).size := by
    unfold Selection.pickUniform
    rw [if_neg (Nat.ne_of_gt hpos)]
    refine ⟨_, rfl, ?_⟩
    -- The index is cut to the last place, wherever the share drawn puts it.
    unfold Selection.uniformIndex
    omega
  exact ⟨place, _, hplace, congrArg (Option.map _) (Array.getElem?_eq_getElem hlt)⟩

theorem expands (g : Grammar N R) (phase : Phase) (start patience : Nat) (p : Particle N R)
    (source : ρ) : Expands g phase start p source (expand g phase start patience p source).1
      (expansions g phase start patience p source) := by
  induction patience generalizing p source with
  | zero =>
    unfold expand expansions
    by_cases hstop : p.growth.size ≠ start ∨ (p.buds phase).isEmpty
    · rw [if_pos hstop, if_pos hstop]
      exact .stopped hstop
    · rw [if_neg hstop, if_neg hstop]
      exact .stalled p source
  | succ patience ih =>
    unfold expand expansions
    by_cases hstop : p.growth.size ≠ start ∨ (p.buds phase).isEmpty
    · rw [if_pos hstop, if_pos hstop]
      exact .stopped hstop
    · rw [if_neg hstop, if_neg hstop]
      obtain ⟨place, ⟨bud, q⟩, hplace, htake⟩ :=
        exists_takeBud (Bool.eq_false_iff.mpr (not_or.mp hstop).2) source
      dsimp only
      rw [hplace, Option.bind_some, htake]
      dsimp only
      cases hsample : g.sample bud.rule
          (Selection.pickUniform R (p.buds phase).size source).2 with
      | mk result rest =>
        cases result with
        | error failure => exact .failed htake (congrArg Prod.fst hsample) rest
        | ok choice => exact .turned htake (congrArg Prod.fst hsample) (ih _ _)

section Expands

variable {start : Nat} {result : Except (Failure R) Unit} {turns : List (Turn N ρ)}

/-- What a turn of a growth applies is a choice of its bud's rule. -/
theorem Expands.hasBody (h : Expands g phase start p source result turns) :
    ∀ t ∈ turns, ∀ body, t.body = some body → g.HasBody body := by
  induction h with
  | stopped | stalled => exact fun t ht => absurd ht List.not_mem_nil
  | failed =>
    intro t ht body hbody
    rw [List.mem_singleton.mp ht] at hbody
    exact nomatch hbody
  | turned _ sample _ ih =>
    intro t ht body hbody
    rcases List.mem_cons.mp ht with rfl | hrest
    · obtain ⟨rule, hrule, hmem⟩ := Grammar.mem_of_sample sample
      exact Option.some.inj hbody ▸ .choice _ hrule hmem
    · exact ih t hrest body hbody

/-- What expanding buds fails with: it runs out of patience, or it comes to a bud that no choice
is found for. -/
theorem Expands.failure (h : Expands g phase start p source result turns) {failure : Failure R}
    (hresult : result = .error failure) : failure = .stalled ∨ ∃ t ∈ turns,
      failure = .noChoice t.bud.rule ∨
        failure = .unknownRule t.bud.rule ∧ g.rule? t.bud.rule = none := by
  induction h with
  | stopped => exact nomatch hresult
  | stalled => exact Or.inl (Except.error.inj hresult).symm
  | failed _ sample =>
    obtain rfl := Except.error.inj hresult
    exact Or.inr ⟨_, List.mem_singleton.mpr rfl, Grammar.sample_failure sample⟩
  | turned _ _ _ ih =>
    rcases ih hresult with hstalled | ⟨t, ht, hfailure⟩
    · exact Or.inl hstalled
    · exact Or.inr ⟨t, List.mem_cons_of_mem _ ht, hfailure⟩

/-- The first turn of a growth takes a bud that was open before. -/
theorem Expands.first {t : Turn N ρ} (h : Expands g phase start p source result (t :: turns)) :
    t.bud ∈ p.buds phase := by
  have hmem {q : Particle N R} {place : Nat} {bud : Bud}
      (take : p.takeBud phase place = some (bud, q)) : bud ∈ p.buds phase := by
    obtain ⟨-, -, -, hperm, -⟩ := takeBud_spec take
    exact Array.mem_toList_iff.mp (hperm.mem_iff.mpr List.mem_cons_self)
  cases h with
  | failed take => exact hmem take
  | turned take => exact hmem take

/-- Where buds are open there is a turn, but for want of patience. -/
theorem Expands.stalled_of_nil (h : Expands g phase p.growth.size p source result [])
    (hopen : (p.buds phase).isEmpty = false) : result = .error .stalled := by
  cases h with
  | stalled => rfl
  | stopped stop =>
    rcases stop with hsize | hempty
    · exact absurd rfl hsize
    · exact absurd hempty (Bool.eq_false_iff.mp hopen)

end Expands

section Grow

variable [CostModel κ N R] {useHeuristic : Bool} {patience : Nat} {model : κ}

/-- A growth fails when expanding buds does, and in the same way. -/
theorem grow_failure_iff {failure : Failure R} :
    (p.grow g phase useHeuristic patience model source).1 = .error failure ↔
      (p.buds phase).isEmpty = false ∧
        (expand g phase p.growth.size patience p source).1 = .error failure := by
  unfold grow
  cases hopen : (p.buds phase).isEmpty with
  | true =>
    rw [if_pos rfl]
    exact ⟨nofun, fun h => nomatch h.1⟩
  | false =>
    rw [if_neg Bool.false_ne_true]
    dsimp only
    cases hexpand : expand g phase p.growth.size patience p source with
    | mk result rest =>
      cases result with
      | error found =>
        show Except.error found = _ ↔ false = false ∧ Except.error found = _
        simp
      | ok done => exact ⟨nofun, fun h => nomatch h.2⟩

end Grow

omit [Scalar R] in
/-- What closing fails with: there is no closing for the youngest bud. -/
theorem close_failure {failure : Failure R} (h : (p.close g source).1 = .error failure) :
    ∃ bud ∈ p.skeleton, failure = .missingClosing bud.rule ∧ g.closings[bud.rule]? = none := by
  unfold close at h
  cases hback : p.skeleton.back? with
  | none =>
    rw [hback] at h
    exact nomatch h
  | some bud =>
    rw [hback] at h
    dsimp only at h
    unfold Grammar.closingFor at h
    cases hclosing : g.closings[bud.rule]? with
    | none =>
      rw [hclosing] at h
      exact ⟨bud, Array.mem_of_back? hback, (Except.error.inj h).symm, hclosing⟩
    | some body =>
      rw [hclosing] at h
      exact nomatch h

omit [Scalar R] [RandomSource ρ] in
/-- What a turn of a closing applies is a closing of the grammar. -/
theorem hasBody_closings (g : Grammar N R) (p : Particle N R) (source : ρ) :
    ∀ t ∈ closings g p source, ∀ body, t.body = some body → g.HasBody body := by
  unfold closings
  cases p.skeleton.back? with
  | none => simp
  | some bud =>
    intro t ht body hbody
    rw [List.mem_singleton.mp ht] at hbody
    exact .closing hbody

end Particle

/-! ## Particles that are provided for -/

section Ready

variable [RandomSource ρ] {g : Grammar N R} {phase : Phase} {turns : List (Turn N ρ)}
  {p p' : Particle N R}

/-- The grammar has a rule for every bud of a particle, and a closing for every one that may have to
be closed. -/
structure Ready (g : Grammar N R) (p : Particle N R) : Prop where
  known : ∀ phase, ∀ bud ∈ p.buds phase, g.contains bud.rule = true
  closable : ∀ bud ∈ p.skeleton, g.hasClosing bud.rule = true

/-- A particle with the buds of a seed. -/
structure Seedling (start : String) (p : Particle N R) : Prop where
  skeleton : p.skeleton = #[⟨start, 0⟩]
  details : p.details = #[]

/-- Turns that apply productions of a grammar. -/
def FromGrammar (g : Grammar N R) (turns : List (Turn N ρ)) : Prop :=
  ∀ t ∈ turns, ∀ body, t.body = some body → g.HasBody body

/-- What is registered is provided for in the phase it is registered in. -/
theorem provided_of_sprouts (hself : g.SelfContained ρ) (hclosed : g.rulesWithoutClosing = [])
    (hturns : FromGrammar g turns) {bud : Bud} (hbud : bud ∈ Turn.sprouts g phase turns) :
    g.contains bud.rule = true ∧ (phase = .skeleton → g.hasClosing bud.rule = true) := by
  obtain ⟨hmem, hphase⟩ := List.mem_filter.mp hbud
  obtain ⟨t, ht, hharvest⟩ := List.mem_flatMap.mp hmem
  have hcontains : g.contains bud.rule = true := by
    unfold Turn.harvest at hharvest
    cases hbody : t.body with
    | none =>
      rw [hbody] at hharvest
      exact absurd hharvest List.not_mem_nil
    | some body =>
      rw [hbody] at hharvest
      exact hself body (hturns t ht body hbody) _ _ _ bud hharvest
  refine ⟨hcontains, fun hskeleton => g.hasClosing_of_not_detail hclosed hcontains ?_⟩
  rw [hskeleton] at hphase
  unfold Grammar.phaseOf at hphase
  cases hdetail : g.isDetail bud.rule with
  | false => rfl
  | true => simp [hdetail] at hphase

theorem Accounts.mem_buds (h : Accounts g phase p turns p') (other : Phase) {bud : Bud}
    (hbud : bud ∈ p'.buds other) : bud ∈ p.buds other ∨ bud ∈ Turn.sprouts g other turns := by
  rw [← Array.mem_toList_iff] at hbud ⊢
  rw [← List.mem_append]
  by_cases hother : other = phase
  · subst hother
    exact h.queue.mem_iff.mpr (List.mem_append_right _ hbud)
  · exact h.others other hother ▸ hbud

theorem Accounts.mem_turn (h : Accounts g phase p turns p') {t : Turn N ρ} (ht : t ∈ turns) :
    t.bud ∈ p.buds phase ∨ t.bud ∈ Turn.sprouts g phase turns := by
  rw [← Array.mem_toList_iff, ← List.mem_append]
  exact h.queue.mem_iff.mpr (List.mem_append_left _ (List.mem_map_of_mem ht))

/-- The first turn of a seedling takes the bud it was planted with, so that nothing is left that
was not registered. -/
theorem Seedling.mem_sprouts {start : String} (hp : Seedling start p) {t : Turn N ρ}
    (h : Accounts g .skeleton p (t :: turns) p') (hfirst : t.bud ∈ p.skeleton) {other : Phase}
    {bud : Bud} (hbud : bud ∈ p'.buds other) : bud ∈ Turn.sprouts g other (t :: turns) := by
  have hbuds := h.mem_buds other hbud
  cases other with
  | detail =>
    rcases hbuds with hbefore | hnew
    · rw [show p.buds .detail = #[] from hp.details] at hbefore
      exact absurd hbefore (Array.not_mem_empty bud)
    · exact hnew
  | skeleton =>
    have hqueue := h.queue
    rw [show p.buds .skeleton = #[⟨start, 0⟩] from hp.skeleton] at hqueue
    rw [hp.skeleton] at hfirst
    obtain hbud' : t.bud = ⟨start, 0⟩ := by simpa using hfirst
    rw [List.map_cons, hbud', List.cons_append] at hqueue
    -- With the planted bud taken off both sides, what was open is among what was registered.
    have hrest := (List.perm_cons _).mp hqueue
    exact hrest.mem_iff.mpr (List.mem_append_right _ (Array.mem_toList_iff.mpr hbud))

section SelfContained

variable (hself : g.SelfContained ρ) (hclosed : g.rulesWithoutClosing = [])
include hself hclosed

theorem ready_of_sprouts (hturns : FromGrammar g turns)
    (h : ∀ phase, ∀ bud ∈ p'.buds phase, bud ∈ Turn.sprouts g phase turns) : Ready g p' where
  known phase bud hbud := (provided_of_sprouts hself hclosed hturns (h phase bud hbud)).1
  closable bud hbud :=
    (provided_of_sprouts hself hclosed hturns (h .skeleton bud hbud)).2 rfl

/-- Turns leave what is provided for provided for. -/
theorem Ready.accounts (hp : Ready g p) (hturns : FromGrammar g turns)
    (h : Accounts g phase p turns p') : Ready g p' where
  known other bud hbud := by
    rcases h.mem_buds other hbud with hbefore | hnew
    · exact hp.known other bud hbefore
    · exact (provided_of_sprouts hself hclosed hturns hnew).1
  closable bud hbud := by
    rcases h.mem_buds .skeleton hbud with hbefore | hnew
    · exact hp.closable bud hbefore
    · exact (provided_of_sprouts hself hclosed hturns hnew).2 rfl

/-- The first turn of a seedling leaves it provided for. -/
theorem Seedling.accounts {start : String} (hp : Seedling start p) {t : Turn N ρ}
    (hturns : FromGrammar g (t :: turns)) (h : Accounts g .skeleton p (t :: turns) p')
    (hfirst : t.bud ∈ p.skeleton) : Ready g p' :=
  ready_of_sprouts hself hclosed hturns fun _ _ => hp.mem_sprouts h hfirst

end SelfContained

omit [RandomSource ρ] in
/-- A fork has the buds of the particle it was forked from. -/
theorem Ready.of_fork (hp : Ready g p) (h : Search.IsFork p p') : Ready g p' where
  known phase bud hbud := hp.known phase bud (h.buds phase ▸ hbud)
  closable bud hbud := by
    have hskeleton : p'.skeleton = p.skeleton := h.buds .skeleton
    exact hp.closable bud (hskeleton ▸ hbud)

/-- Without a turn a seedling stays one. -/
theorem Seedling.of_no_turn {start : String} (hp : Seedling start p)
    (h : Accounts (ρ := ρ) g .skeleton p [] p') : Seedling start p' where
  skeleton := by
    have hqueue : (p.skeleton.toList ++ []).Perm p'.skeleton.toList := h.queue
    rw [List.append_nil, hp.skeleton] at hqueue
    exact Array.toList_inj.mp (List.perm_singleton.mp hqueue.symm)
  details := by
    have hothers : p'.details.toList = p.details.toList ++ [] := h.others .detail (by decide)
    rw [List.append_nil, hp.details] at hothers
    exact Array.toList_inj.mp hothers

end Ready

/-! ## Along a run -/

namespace Search

variable [Scalar R] [RandomSource ρ] [CostModel κ N R] [Watcher ω N R] {s : Search N R ρ κ ω}

/-- What fails in a search that is on time: a growth, the closing of the survivor, or a step after
the end. -/
theorem failure_cases (hs : s.OnTime) {failure : Failure R} (h : s.step.1 = .error failure) :
    (∃ p ∈ s.particles, ∃ phase useHeuristic,
        (s.growth phase useHeuristic p).1 = .error failure) ∨
      (∃ p, s.survivor = some p ∧ (p.close s.grammar s.source).1 = .error failure) ∨
      failure = .alreadyFinished := by
  have hmap {α : Type} {result : Except (Failure R) α}
      (h : result.map (fun _ => (Step.pending : Step (Outcome N R))) = .error failure) :
      result = .error failure := by
    cases result with
    | error found => exact congrArg Except.error (Except.error.inj h)
    | ok a => exact nomatch h
  cases hstage : s.stage with
  | populate =>
    obtain ⟨w, -, hstep⟩ := step_populate hstage
    rw [hstep] at h
    exact nomatch h
  | grow g next =>
    cases hp : s.population[next]? with
    | none =>
      obtain ⟨w, -, hstep⟩ := step_endGeneration hstage hp
      rw [hstep] at h
      exact nomatch h
    | some p =>
      rw [step_grow hstage hp] at h
      have hmem : p ∈ s.particles := mem_particles.mpr (Or.inl (Array.mem_of_getElem? hp))
      exact Or.inl ⟨p, hmem, .skeleton, s.heuristicCounts g, hmap h⟩
  | resample g =>
    obtain ⟨w, -, hstep⟩ := step_resample hstage
    rw [hstep] at h
    exact nomatch h
  | selectSurvivor =>
    obtain ⟨p, hp⟩ := exists_fittest hs hstage
    obtain ⟨w, -, hstep⟩ := step_select hstage hp
    rw [hstep] at h
    exact nomatch h
  | close =>
    obtain ⟨-, p, -, hp, -⟩ := hs.holds_at hstage
    rw [step_close hstage hp] at h
    exact Or.inr (Or.inl ⟨p, hp, hmap h⟩)
  | detail =>
    obtain ⟨-, p, -, hp, -⟩ := hs.holds_at hstage
    cases hopen : p.details.isEmpty with
    | true =>
      obtain ⟨w, -, hstep⟩ := step_finish hstage hp hopen
      rw [hstep] at h
      exact nomatch h
    | false =>
      rw [step_detail hstage hp hopen] at h
      have hmem : p ∈ s.particles := mem_particles.mpr (Or.inr hp)
      exact Or.inl ⟨p, hmem, .detail, false, hmap h⟩
  | done =>
    rw [step_done hstage] at h
    exact Or.inr (Or.inr (Except.error.inj h).symm)

omit [Scalar R] in
/-- Where one particle of a population was replaced, the others are as they were. -/
theorem getElem?_set {population : Array (Particle N R)} {next j : Nat} {p q : Particle N R}
    (h : (population.setIfInBounds next q)[j]? = some p) :
    j = next ∧ p = q ∨ j ≠ next ∧ population[j]? = some p := by
  rw [Array.getElem?_setIfInBounds] at h
  by_cases hj : next = j
  · rw [if_pos hj] at h
    split at h
    · exact Or.inl ⟨hj.symm, (Option.some.inj h).symm⟩
    · exact nomatch h
  · rw [if_neg hj] at h
    exact Or.inr ⟨fun heq => hj heq.symm, h⟩

/-- A property of particles that turns and forks keep, and that the first turn of a seedling brings
about. -/
structure Kept (ρ : Type) [RandomSource ρ] (g : Grammar N R) (start : String)
    (P : Particle N R → Prop) : Prop where
  turns : ∀ {phase : Phase} {turns : List (Turn N ρ)} {p p' : Particle N R}, P p →
    FromGrammar g turns → Accounts g phase p turns p' → P p'
  first : ∀ {t : Turn N ρ} {turns : List (Turn N ρ)} {p p' : Particle N R}, Seedling start p →
    FromGrammar g (t :: turns) → Accounts g .skeleton p (t :: turns) p' → t.bud ∈ p.skeleton → P p'
  fork : ∀ {p p' : Particle N R}, P p → IsFork p p' → P p'

/-- All particles of a search have a property, but for the seedlings whose turn has not come. -/
structure OfGrown (s : Search N R ρ κ ω) (P : Particle N R → Prop) : Prop where
  population : ∀ (j : Nat) (p : Particle N R), s.population[j]? = some p → P p ∨
    ∃ next, s.stage = .grow 0 next ∧ next ≤ j ∧ Seedling s.start p
  survivor : ∀ p, s.survivor = some p → P p

section OfGrown

variable {P : Particle N R → Prop}

omit [RandomSource ρ] [Scalar R] [CostModel κ N R] [Watcher ω N R] in
/-- There are seedlings in the first generation only, before it has grown. -/
theorem OfGrown.of_stage (h : s.OfGrown P) (hstage : ∀ next, s.stage ≠ .grow 0 next) :
    ∀ p ∈ s.population, P p := by
  intro p hp
  obtain ⟨j, hj⟩ := Array.mem_iff_getElem?.mp hp
  rcases h.population j p hj with hgrown | ⟨next, hnow, -⟩
  · exact hgrown
  · exact absurd hnow (hstage next)

variable (hkept : Kept ρ s.grammar s.start P)
include hkept

omit [Watcher ω N R] in
/-- A growth leaves a particle that has the property, or it was a seedling without the patience for
a turn. -/
theorem ofGrown_growth {g next : Nat} (h : s.OfGrown P) (hstage : s.stage = .grow g next)
    {p : Particle N R} (hp : s.population[next]? = some p) :
    P (s.growth .skeleton (s.heuristicCounts g) p).2.1 ∨
      (s.growth .skeleton (s.heuristicCounts g) p).1.isOk = false ∧ g = 0 ∧
        Seedling s.start (s.growth .skeleton (s.heuristicCounts g) p).2.1 := by
  have haccounts := accounts_growth s .skeleton (s.heuristicCounts g) p
  have hexpands := Particle.expands s.grammar .skeleton p.growth.size s.patience p s.source
  rcases h.population next p hp with hgrown | ⟨next', hstage', -, hseedling⟩
  · exact Or.inl (hkept.turns hgrown hexpands.hasBody haccounts)
  · obtain ⟨rfl, -⟩ : g = 0 ∧ next = next' := by simpa using hstage.symm.trans hstage'
    -- A turn takes the planted bud, and for want of patience alone there is none.
    cases hturns : p.expansions s.grammar .skeleton p.growth.size s.patience s.source with
    | cons t turns =>
      rw [hturns] at haccounts hexpands
      exact Or.inl (hkept.first hseedling hexpands.hasBody haccounts hexpands.first)
    | nil =>
      rw [hturns] at haccounts hexpands
      have hopen : (p.buds .skeleton).isEmpty = false := by
        rw [show p.buds .skeleton = #[⟨s.start, 0⟩] from hseedling.skeleton]
        rfl
      have hstalled := hexpands.stalled_of_nil hopen
      have hfails : (s.growth .skeleton (s.heuristicCounts 0) p).1 = .error .stalled :=
        Particle.grow_failure_iff.mpr ⟨hopen, hstalled⟩
      exact Or.inr ⟨by rw [hfails]; rfl, rfl, hseedling.of_no_turn haccounts⟩

/-- Every step keeps the property of those that have had their turn. -/
theorem ofGrown_step (hs : s.OnTime) (h : s.OfGrown P) : s.step.2.OfGrown P := by
  cases s.situation with
  | populate hstage =>
    obtain ⟨w, -, hstep⟩ := step_populate hstage
    rw [hstep]
    refine ⟨fun j p hp => Or.inr ⟨0, rfl, Nat.zero_le j, ?_⟩, h.survivor⟩
    obtain ⟨-, rfl⟩ := seed_of_seeds hp
    exact ⟨rfl, rfl⟩
  | grow g next p hstage hp =>
    have hgrown := ofGrown_growth hkept h hstage hp
    rw [step_grow hstage hp]
    refine ⟨fun j q hq => ?_, h.survivor⟩
    dsimp only at hq ⊢
    rcases getElem?_set hq with ⟨rfl, rfl⟩ | ⟨hj, hother⟩
    · rcases hgrown with hgrown | ⟨hfails, rfl, hseedling⟩
      · exact Or.inl hgrown
      · rw [hfails]
        exact Or.inr ⟨j, rfl, Nat.le_refl j, hseedling⟩
    · rcases h.population j q hother with hgrown | ⟨next', hstage', hnext, hseedling⟩
      · exact Or.inl hgrown
      · obtain ⟨rfl, rfl⟩ : g = 0 ∧ next = next' := by simpa using hstage.symm.trans hstage'
        -- The place of the one that has grown is the only one that was due.
        split
        · exact Or.inr ⟨next + 1, rfl, Nat.lt_of_le_of_ne hnext (Ne.symm hj), hseedling⟩
        · exact Or.inr ⟨next, rfl, hnext, hseedling⟩
  | endGeneration g next hstage hp =>
    obtain ⟨w, -, hstep⟩ := step_endGeneration hstage hp
    rw [hstep]
    refine ⟨fun j p hj => ?_, h.survivor⟩
    rcases h.population j p hj with hgrown | ⟨next', hstage', hnext, -⟩
    · exact Or.inl hgrown
    · obtain ⟨-, rfl⟩ : g = 0 ∧ next = next' := by simpa using hstage.symm.trans hstage'
      have hsize : s.population.size ≤ next := Array.getElem?_eq_none_iff.mp hp
      have hlt : j < s.population.size := (Array.getElem?_eq_some_iff.mp hj).1
      omega
  | resample g hstage =>
    obtain ⟨w, -, hstep⟩ := step_resample hstage
    obtain ⟨-, hgen, -, hnext⟩ := hs.holds_at hstage
    obtain ⟨-, hforks⟩ := isGeneration_drawn hgen hnext
    rw [hstep]
    refine ⟨fun j q hq => Or.inl ?_, h.survivor⟩
    obtain ⟨p, hp, hfork⟩ := hforks q (Array.mem_of_getElem? hq)
    exact hkept.fork (h.of_stage (by simp [hstage]) p hp) hfork
  | select p hstage hp =>
    obtain ⟨w, -, hstep⟩ := step_select hstage hp
    obtain ⟨place, -, hplace⟩ := Option.bind_eq_some_iff.mp hp
    rw [hstep]
    refine ⟨fun j q hq => absurd hq (by simp), fun q hq => ?_⟩
    rw [← Option.some.inj hq]
    exact h.of_stage (by simp [hstage]) p (Array.mem_of_getElem? hplace)
  | close p hstage hp =>
    obtain ⟨hpopulation, -⟩ := hs.holds_at hstage
    rw [step_close hstage hp]
    refine ⟨fun j q hq => absurd hq (by simp [hpopulation]), fun q hq => ?_⟩
    rw [← Option.some.inj hq]
    exact hkept.turns (h.survivor p hp) (Particle.hasBody_closings s.grammar p s.source)
      (Particle.accounts_close s.grammar p s.source)
  | detail p hstage hp hopen =>
    obtain ⟨hpopulation, -⟩ := hs.holds_at hstage
    rw [step_detail hstage hp hopen]
    refine ⟨fun j q hq => absurd hq (by simp [hpopulation]), fun q hq => ?_⟩
    rw [← Option.some.inj hq]
    exact hkept.turns (h.survivor p hp)
      (Particle.expands s.grammar .detail p.growth.size s.patience p s.source).hasBody
      (accounts_growth s .detail false p)
  | finish p hstage hp hdetails =>
    obtain ⟨hpopulation, -⟩ := hs.holds_at hstage
    obtain ⟨w, -, hstep⟩ := step_finish hstage hp hdetails
    rw [hstep]
    exact ⟨fun j q hq => absurd hq (by simp [hpopulation]), nofun⟩
  | idle hstep _ =>
    rw [hstep]
    exact h

end OfGrown

/-- A search that is provided for. Seedlings are only left where their turn has not come. -/
structure Provided (s : Search N R ρ κ ω) : Prop where
  start : s.grammar.contains s.start = true
  population : ∀ (j : Nat) (p : Particle N R), s.population[j]? = some p → Ready s.grammar p ∨
    ∃ next, s.stage = .grow 0 next ∧ next ≤ j ∧ Seedling s.start p
  survivor : ∀ p, s.survivor = some p → Ready s.grammar p

omit [Scalar R] [RandomSource ρ] [CostModel κ N R] [Watcher ω N R] in
/-- There is a rule for every bud, also for that of a seedling. -/
theorem Provided.known (h : s.Provided) {p : Particle N R} (hp : p ∈ s.particles) (phase : Phase) :
    ∀ bud ∈ p.buds phase, s.grammar.contains bud.rule = true := by
  have hcases : Ready s.grammar p ∨ Seedling s.start p := by
    rcases mem_particles.mp hp with hpopulation | hsurvivor
    · obtain ⟨j, hj⟩ := Array.mem_iff_getElem?.mp hpopulation
      rcases h.population j p hj with hready | ⟨-, -, -, hseedling⟩
      · exact Or.inl hready
      · exact Or.inr hseedling
    · exact Or.inl (h.survivor p hsurvivor)
  intro bud hbud
  rcases hcases with hready | hseedling
  · exact hready.known phase bud hbud
  · cases phase with
    | skeleton =>
      rw [show p.buds .skeleton = #[⟨s.start, 0⟩] from hseedling.skeleton] at hbud
      obtain rfl : bud = ⟨s.start, 0⟩ := by simpa using hbud
      exact h.start
    | detail =>
      rw [show p.buds .detail = #[] from hseedling.details] at hbud
      exact absurd hbud (Array.not_mem_empty bud)

section SelfContained

variable (hself : s.grammar.SelfContained ρ) (hclosed : s.grammar.rulesWithoutClosing = [])
include hself hclosed

omit [Scalar R] [CostModel κ N R] [Watcher ω N R] in
theorem kept_ready : Kept ρ s.grammar s.start (Ready s.grammar) where
  turns hp hturns h := hp.accounts hself hclosed hturns h
  first hp hturns h hfirst := hp.accounts hself hclosed hturns h hfirst
  fork hp h := hp.of_fork h

/-- Every step keeps a search provided for. -/
theorem provided_step (hs : s.OnTime) (h : s.Provided) : s.step.2.Provided := by
  have hsame := sameTask_step s
  have hstep := ofGrown_step (kept_ready hself hclosed) hs ⟨h.population, h.survivor⟩
  constructor
  case start => exact hsame.grammar.symm ▸ hsame.start.symm ▸ h.start
  case population => exact hsame.grammar.symm ▸ hstep.population
  case survivor => exact hsame.grammar.symm ▸ hstep.survivor

omit [CostModel κ N R] [Watcher ω N R] in
/-- A turn is taken only for a bud that there is a rule for. -/
theorem Provided.turn_known (h : s.Provided) {p : Particle N R} (hp : p ∈ s.particles)
    {phase : Phase} {t : Turn N ρ}
    (ht : t ∈ p.expansions s.grammar phase p.growth.size s.patience s.source) :
    s.grammar.contains t.bud.rule = true := by
  have hexpands := Particle.expands s.grammar phase p.growth.size s.patience p s.source
  have haccounts := Particle.accounts_expand s.grammar phase p.growth.size s.patience p s.source
  rcases haccounts.mem_turn ht with hbefore | hnew
  · exact h.known hp phase t.bud hbefore
  · exact (provided_of_sprouts hself hclosed hexpands.hasBody hnew).1

/-- All that can fail in a search that is provided for. -/
theorem Provided.failure (hs : s.OnTime) (h : s.Provided) {failure : Failure R}
    (hfails : s.step.1 = .error failure) :
    failure = .stalled ∨ (∃ name, failure = .noChoice name) ∨ failure = .alreadyFinished := by
  rcases failure_cases hs hfails with ⟨p, hp, phase, useHeuristic, hgrowth⟩ | ⟨p, hp, hclose⟩ | hend
  · have hexpand := (Particle.grow_failure_iff.mp hgrowth).2
    rcases (Particle.expands s.grammar phase p.growth.size s.patience p s.source).failure hexpand
      with hstalled | ⟨t, ht, hchoice | ⟨-, hunknown⟩⟩
    · exact Or.inl hstalled
    · exact Or.inr (Or.inl ⟨t.bud.rule, hchoice⟩)
    · exact absurd hunknown (Grammar.contains_iff.mp (h.turn_known hself hclosed hp ht))
  · obtain ⟨bud, hbud, -, hmissing⟩ := Particle.close_failure hclose
    exact absurd hmissing (Grammar.hasClosing_iff.mp ((h.survivor p hp).closable bud hbud))
  · exact Or.inr (Or.inr hend)

end SelfContained

section New

variable {grammar : Grammar N R} {root : N} {start : String} {config : Config R} {patience : Nat}
  {model : κ} {source : ρ} {watcher : ω}

omit [RandomSource ρ] [CostModel κ N R] [Watcher ω N R] in
theorem provided_new
    (hnew : Search.new grammar root start config patience model source watcher = .ok s) :
    s.Provided := by
  have hstart : grammar.contains start = true := by
    unfold Search.new at hnew
    cases hvalid : config.validate with
    | error fault =>
      rw [hvalid] at hnew
      exact nomatch hnew
    | ok valid =>
      rw [hvalid] at hnew
      cases hcontains : grammar.contains start with
      | true => rfl
      | false =>
        rw [hcontains] at hnew
        exact nomatch hnew
  obtain ⟨rfl, -⟩ := new_spec hnew
  exact ⟨hstart, fun j p hp => absurd hp (by simp), nofun⟩

/-- Where every production registers buds of known rules only, and every rule that needs a closing
has one, no step of any run fails for want of a rule or a closing. -/
theorem never_without
    (hnew : Search.new grammar root start config patience model source watcher = .ok s)
    (hclosed : grammar.rulesWithoutClosing = []) (hself : grammar.SelfContained ρ) (n : Nat)
    (name : String) : (s.after n).step.1 ≠ .error (.missingClosing name) ∧
      (s.after n).step.1 ≠ .error (.unknownRule name) := by
  have hgrammar (m : Nat) : (s.after m).grammar = grammar := by
    obtain ⟨rfl, -⟩ := new_spec hnew
    exact (sameTask_after _ m).grammar
  have hs := onTime_after (onTime_new hnew)
  have hprovided : (s.after n).Provided := by
    induction n with
    | zero => exact provided_new hnew
    | succ n ih =>
      exact provided_step ((hgrammar n).symm ▸ hself) ((hgrammar n).symm ▸ hclosed) (hs n) ih
  have hfailure {failure : Failure R} (hfails : (s.after n).step.1 = .error failure) :=
    hprovided.failure ((hgrammar n).symm ▸ hself) ((hgrammar n).symm ▸ hclosed) (hs n) hfails
  constructor
  · intro hfails
    rcases hfailure hfails with h | ⟨_, h⟩ | h <;> exact nomatch h
  · intro hfails
    rcases hfailure hfails with h | ⟨_, h⟩ | h <;> exact nomatch h

end New

end Search

namespace Sample

/-- The sample grammar with a closing for the stem. Only the leaf has none, which is a detail. -/
def closedGrammar : Grammar String Binary64 :=
  grammar.close "stem" (fun _ => do let _ ← Expansion.append "stem")

theorem selfContained_closedGrammar : closedGrammar.SelfContained Source := by
  intro body hbody node view source bud hbud
  rcases Grammar.hasBody_close hbody with hbody | rfl
  · replace hbody := Grammar.hasBody_detail hbody
    rcases Grammar.hasBody_close hbody with hbody | rfl
    · rcases Grammar.hasBody_define hbody with hbody | rfl
      · rcases Grammar.hasBody_define hbody with hbody | rfl
        · rcases Grammar.hasBody_define hbody with hbody | rfl
          · exact absurd hbody Grammar.not_hasBody_empty
          · rw [List.mem_singleton.mp hbud]
            exact (by decide +kernel : closedGrammar.contains "leaf" = true)
        · rw [List.mem_singleton.mp hbud]
          exact (by decide +kernel : closedGrammar.contains "shoot" = true)
      · exact absurd hbud List.not_mem_nil
    · exact absurd hbud List.not_mem_nil
  · exact absurd hbud List.not_mem_nil

end Sample

/-- A search for a leaf, which is a detail and has no closing. -/
theorem Search.never_without_leaf : ∃ s : Search String Binary64 Source (NoCost String Binary64)
    (Sink Binary64), Search.new Sample.closedGrammar "root" "leaf" Sample.config 10 ⟨⟩
        (.cycle #[] 0) .ignore = .ok s ∧
      Sample.closedGrammar.rulesWithoutClosing = [] ∧
      Sample.closedGrammar.SelfContained Source ∧
      ∀ n name, (s.after n).step.1 ≠ .error (.missingClosing name) ∧
        (s.after n).step.1 ≠ .error (.unknownRule name) := by
  have hclosed : Sample.closedGrammar.rulesWithoutClosing = [] := by decide +kernel
  have hok : (Search.new Sample.closedGrammar "root" "leaf" Sample.config 10 ⟨⟩ (.cycle #[] 0)
      .ignore : Except (Failure Binary64) (Search String Binary64 Source (NoCost String Binary64)
        (Sink Binary64))).isOk = true := by decide +kernel
  obtain ⟨s, hnew⟩ := Search.exists_ok hok
  exact ⟨s, hnew, hclosed, Sample.selfContained_closedGrammar,
    never_without hnew hclosed Sample.selfContained_closedGrammar⟩

end Espalier
