import Espalier.Proofs.Balance

/-!
# Where buds wait

A bud is put in the queue of its own phase when it is registered, and it stays there until it is
taken out. So in a run the details hold buds of detail rules only and the skeleton holds buds of no
detail rule (`Routed`), but for a seedling: the bud it is planted with is in the skeleton whatever
its rule, and the first growth takes it out. `conserved_and_routed` says this together with the
balance of all that is done to a particle.
-/

namespace Espalier

variable {N R ρ κ ω : Type}

/-- Every bud waits in the phase of its rule. -/
structure Routed (g : Grammar N R) (p : Particle N R) : Prop where
  skeleton : ∀ bud ∈ p.skeleton, g.isDetail bud.rule = false
  details : ∀ bud ∈ p.details, g.isDetail bud.rule = true

theorem Grammar.phaseOf_eq_iff {g : Grammar N R} {bud : Bud} {phase : Phase} :
    g.phaseOf bud = phase ↔ g.isDetail bud.rule = decide (phase = .detail) := by
  unfold phaseOf
  cases g.isDetail bud.rule <;> cases phase <;> decide

theorem routed_iff {g : Grammar N R} {p : Particle N R} :
    Routed g p ↔ ∀ phase, ∀ bud ∈ p.buds phase, g.phaseOf bud = phase := by
  constructor
  · intro h phase bud hbud
    cases phase with
    | skeleton => exact Grammar.phaseOf_eq_iff.mpr (h.skeleton bud hbud)
    | detail => exact Grammar.phaseOf_eq_iff.mpr (h.details bud hbud)
  · intro h
    exact ⟨fun bud hbud => Grammar.phaseOf_eq_iff.mp (h .skeleton bud hbud),
      fun bud hbud => Grammar.phaseOf_eq_iff.mp (h .detail bud hbud)⟩

/-- What some turns register in a phase is of that phase. -/
theorem Turn.phaseOf_of_sprouts [RandomSource ρ] {g : Grammar N R} {phase : Phase}
    {turns : List (Turn N ρ)} {bud : Bud} (h : bud ∈ sprouts g phase turns) :
    g.phaseOf bud = phase :=
  beq_iff_eq.mp (List.mem_filter.mp h).2

namespace Search

/-- Turns and forks keep a particle routed, and the first turn of a seedling makes it so. -/
theorem kept_routed [RandomSource ρ] (g : Grammar N R) (start : String) :
    Kept ρ g start (Routed g) where
  turns hp _ h := by
    refine routed_iff.mpr fun phase bud hbud => ?_
    rcases h.mem_buds phase hbud with hbefore | hnew
    · exact routed_iff.mp hp phase bud hbefore
    · exact Turn.phaseOf_of_sprouts hnew
  first hp _ h hfirst := routed_iff.mpr fun _ _ hbud =>
    Turn.phaseOf_of_sprouts (hp.mem_sprouts h hfirst hbud)
  fork hp hfork := routed_iff.mpr fun phase bud hbud =>
    routed_iff.mp hp phase bud (hfork.buds phase ▸ hbud)

variable [Scalar R] [RandomSource ρ] [CostModel κ N R] [Watcher ω N R] {s : Search N R ρ κ ω}
  {grammar : Grammar N R} {root : N} {start : String} {config : Config R} {patience : Nat}
  {model : κ} {source : ρ} {watcher : ω}

/-- In every state of a run all particles are routed, but for the seedlings whose turn has not come
in the first generation. -/
theorem routed_after
    (hnew : Search.new grammar root start config patience model source watcher = .ok s) (n : Nat) :
    (s.after n).OfGrown (Routed grammar) := by
  have hs := onTime_after (onTime_new hnew)
  have hgrammar (m : Nat) : (s.after m).grammar = grammar := by
    obtain ⟨rfl, -⟩ := new_spec hnew
    exact (sameTask_after _ m).grammar
  induction n with
  | zero =>
    obtain ⟨rfl, -⟩ := new_spec hnew
    exact ⟨fun j p hp => absurd hp (by simp [after]), nofun⟩
  | succ n ih => exact ofGrown_step (hgrammar n ▸ kept_routed _ _) (hs n) ih

/-- No bud is lost and none comes from nowhere, whatever is done to a particle, and in a run every
bud waits in the phase of its rule, but for the one a seedling was planted with. -/
theorem conserved_and_routed (grammar : Grammar N R) :
    (∀ (b : Bench N R ρ κ) (chores : List Chore), Balanced grammar b chores) ∧
    ∀ (root : N) (start : String) (config : Config R) (patience : Nat) (model : κ) (source : ρ)
      (watcher : ω) (s : Search N R ρ κ ω),
      Search.new grammar root start config patience model source watcher = .ok s →
      ∀ n, (s.after n).OfGrown (Routed grammar) :=
  ⟨balanced grammar, fun _ _ _ _ _ _ _ _ hnew n => routed_after hnew n⟩

/-- The sample grammar, in which a leaf is a detail and bears a shoot, which is none. -/
theorem conserved_and_routed_small :
    (∀ (b : Bench String Sample.Whole Source (NoCost String Sample.Whole)) (chores : List Chore),
      Balanced Sample.grammar b chores) ∧
    ∃ s : Search String Sample.Whole Source (NoCost String Sample.Whole) (Sink Sample.Whole),
      Sample.search ⟨⟩ = .ok s ∧ ∀ n, (s.after n).OfGrown (Routed Sample.grammar) := by
  have hok : (Sample.search (⟨⟩ : NoCost String Sample.Whole)).isOk = true := by
    decide +kernel
  obtain ⟨s, hnew⟩ := exists_ok hok
  obtain ⟨hbalanced, hrouted⟩ := conserved_and_routed (ρ := Source)
    (κ := NoCost String Sample.Whole) (ω := Sink Sample.Whole) Sample.grammar
  exact ⟨hbalanced, s, hnew, hrouted _ _ _ _ _ _ _ s hnew⟩

end Search

end Espalier
