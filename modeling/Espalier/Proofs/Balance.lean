import Espalier.Proofs.Search.Provision

/-!
# Whatever is done to a particle

A particle can be let grow in either phase, have its youngest bud closed and be given further buds,
in any order, and each of these `Chore`s may fail. `Bench.after` carries out a list of them one
after the other. What they take out of the queues are the buds of their turns, also where a chore
fails, and what they put in is what their productions register and what is registered directly.

`Balanced` is the account of it all: no bud comes from anywhere else, none goes anywhere else, and
each phase is served by its own chores alone. `Chore.queue` is the account of one chore, and
`balanced` that of any list of them.
-/

namespace Espalier

variable {N R ρ κ : Type}

/-- Something that is done to a particle. -/
inductive Chore where
  | grow (phase : Phase) (useHeuristic : Bool) (patience : Nat)
  | close
  | register (bud : Bud)

/-- A particle, and the model and the source it is grown with. -/
structure Bench (N R ρ κ : Type) where
  particle : Particle N R
  model : κ
  source : ρ

namespace Chore

variable [Scalar R] [RandomSource ρ]

/-- The phase a chore takes buds from, if it takes any. -/
def phase : Chore → Phase
  | grow phase _ _ => phase
  | close | register _ => .skeleton

/-- What a chore leaves, whether it succeeds or not. -/
def run [CostModel κ N R] (g : Grammar N R) (b : Bench N R ρ κ) : Chore → Bench N R ρ κ
  | grow phase useHeuristic patience =>
    let (_, particle, model, source) :=
      b.particle.grow g phase useHeuristic patience b.model b.source
    { particle, model, source }
  | close =>
    let (_, particle, source) := b.particle.close g b.source
    { b with particle, source }
  | register bud => { b with particle := b.particle.addBud g bud }

/-- The buds a chore takes out of the queue of its phase, and what becomes of each. -/
def turns (g : Grammar N R) (b : Bench N R ρ κ) : Chore → List (Turn N ρ)
  | grow phase _ patience =>
    b.particle.expansions g phase b.particle.growth.size patience b.source
  | close => b.particle.closings g b.source
  | register _ => []

/-- The buds a chore registers. -/
def registers (g : Grammar N R) (b : Bench N R ρ κ) : Chore → List Bud
  | register bud => [bud]
  | chore => (chore.turns g b).flatMap (·.harvest.buds)

end Chore

namespace Bench

variable [Scalar R] [RandomSource ρ] [CostModel κ N R]

/-- What is there after some chores. -/
def after (g : Grammar N R) (b : Bench N R ρ κ) (chores : List Chore) : Bench N R ρ κ :=
  chores.foldl (Chore.run g) b

/-- The turns taken in a phase, by the chores of that phase. -/
def turnsIn (g : Grammar N R) (phase : Phase) : Bench N R ρ κ → List Chore → List (Turn N ρ)
  | _, [] => []
  | b, chore :: chores =>
    (if chore.phase = phase then chore.turns g b else []) ++ turnsIn g phase (chore.run g b) chores

/-- All turns that some chores take. -/
def turns (g : Grammar N R) : Bench N R ρ κ → List Chore → List (Turn N ρ)
  | _, [] => []
  | b, chore :: chores => chore.turns g b ++ turns g (chore.run g b) chores

/-- All buds that some chores register. -/
def registered (g : Grammar N R) : Bench N R ρ κ → List Chore → List Bud
  | _, [] => []
  | b, chore :: chores => chore.registers g b ++ registered g (chore.run g b) chores

end Bench

/-- The account of some chores. -/
structure Balanced [Scalar R] [RandomSource ρ] [CostModel κ N R] (g : Grammar N R)
    (b : Bench N R ρ κ) (chores : List Chore) : Prop where
  /-- What was open or was registered has been taken out once or is open. -/
  total : (b.particle.openBuds ++ b.registered g chores).Perm
    ((b.turns g chores).map (·.bud) ++ (b.after g chores).particle.openBuds)
  /-- The same in each phase, where only its own chores take buds out. -/
  queue : ∀ phase, ((b.particle.buds phase).toList
      ++ (b.registered g chores).filter fun bud => g.phaseOf bud == phase).Perm
    ((b.turnsIn g phase chores).map (·.bud) ++ ((b.after g chores).particle.buds phase).toList)
  /-- Nothing was appended but by the productions applied to the buds taken out, each at its own
  node. -/
  nodes : (b.after g chores).particle.growth.toList
    = b.particle.growth.toList ++ Turn.nodes (b.turns g chores)
  /-- What was applied to a bud is a choice of its rule or the closing of its rule. -/
  apt : ∀ t ∈ b.turns g chores, t.body ≠ none → t.Apt g

namespace Particle

variable [Scalar R] [RandomSource ρ] {g : Grammar N R} {phase : Phase} {p : Particle N R}
  {source : ρ}

omit [Scalar R] [RandomSource ρ] in
/-- To register a bud is to gain that bud alone. -/
theorem addBud_eq_gain (p : Particle N R) (g : Grammar N R) (bud : Bud) :
    p.addBud g bud = p.gain g ⟨[], [bud]⟩ := by
  rw [← gain_none (p.addBud g bud) g]
  exact gain_addBud p g bud .none

/-- Of what a growth applies to a bud, also of one that fails. -/
theorem Expands.apt {start : Nat} {result : Except (Failure R) Unit} {turns : List (Turn N ρ)}
    (h : Expands g phase start p source result turns) :
    ∀ t ∈ turns, t.body ≠ none → t.Apt g := by
  induction h with
  | stopped | stalled => exact fun t ht => absurd ht List.not_mem_nil
  | failed =>
    intro t ht hbody
    rw [List.mem_singleton.mp ht] at hbody
    exact absurd rfl hbody
  | @turned _ _ _ _ _ _ _ choice _ _ _ sample _ ih =>
    intro t ht hbody
    rcases List.mem_cons.mp ht with rfl | hrest
    · obtain ⟨rule, hrule, hmem⟩ := Grammar.mem_of_sample sample
      exact ⟨choice.body, rfl, Or.inl ⟨rule, hrule, choice, hmem, rfl⟩⟩
    · exact ih t hrest hbody

omit [Scalar R] [RandomSource ρ] in
theorem apt_closings (g : Grammar N R) (p : Particle N R) (source : ρ) :
    ∀ t ∈ closings g p source, t.body ≠ none → t.Apt g := by
  unfold closings
  cases p.skeleton.back? with
  | none => simp
  | some bud =>
    intro t ht hbody
    rw [List.mem_singleton.mp ht] at hbody ⊢
    obtain ⟨body, hclosing⟩ := Option.ne_none_iff_exists'.mp hbody
    exact ⟨body, hclosing, Or.inr hclosing⟩

end Particle

section Balanced

variable [Scalar R] [RandomSource ρ] [CostModel κ N R] {g : Grammar N R}

/-- The account of one chore in a phase. -/
theorem Chore.queue (b : Bench N R ρ κ) (chore : Chore) (phase : Phase) :
    ((b.particle.buds phase).toList
        ++ (chore.registers g b).filter fun bud => g.phaseOf bud == phase).Perm
      ((if chore.phase = phase then chore.turns g b else []).map (·.bud)
        ++ ((chore.run g b).particle.buds phase).toList) := by
  have haccounts {worked : Phase} {turns : List (Turn N ρ)} {p' : Particle N R}
      (h : Accounts g worked b.particle turns p') :
      ((b.particle.buds phase).toList ++ Turn.sprouts g phase turns).Perm
        ((if worked = phase then turns else []).map (·.bud) ++ (p'.buds phase).toList) := by
    by_cases hworked : worked = phase
    · subst hworked
      rw [if_pos rfl]
      exact h.queue
    · rw [if_neg hworked, h.others phase (Ne.symm hworked)]
      exact List.Perm.refl _
  cases chore with
  | grow worked useHeuristic patience =>
    exact haccounts
      (b.particle.grow_spec g worked useHeuristic patience b.model b.source).1
  | close => exact haccounts (Particle.accounts_close g b.particle b.source)
  | register bud =>
    have hgain := Particle.buds_gain b.particle g ⟨[], [bud]⟩ phase
    rw [← Particle.addBud_eq_gain] at hgain
    show List.Perm _ ((if Phase.skeleton = phase then [] else []).map _
      ++ ((b.particle.addBud g bud).buds phase).toList)
    rw [hgain, ite_self]
    exact List.Perm.refl _

theorem Chore.nodes (b : Bench N R ρ κ) (chore : Chore) :
    (chore.run g b).particle.growth.toList
      = b.particle.growth.toList ++ Turn.nodes (chore.turns g b) := by
  cases chore with
  | grow phase useHeuristic patience =>
    exact (b.particle.grow_spec g phase useHeuristic patience b.model b.source).1.nodes
  | close => exact (Particle.accounts_close g b.particle b.source).nodes
  | register bud =>
    show (b.particle.addBud g bud).growth.toList = _
    rw [Particle.addBud_eq_gain]
    exact Particle.toList_gain b.particle g ⟨[], [bud]⟩

omit [CostModel κ N R] in
theorem Chore.apt (b : Bench N R ρ κ) (chore : Chore) :
    ∀ t ∈ chore.turns g b, t.body ≠ none → t.Apt g := by
  cases chore with
  | grow phase useHeuristic patience =>
    exact (Particle.expands g phase _ patience b.particle b.source).apt
  | close => exact Particle.apt_closings g b.particle b.source
  | register bud => exact fun t ht => absurd ht List.not_mem_nil

theorem Bench.queue (b : Bench N R ρ κ) (chores : List Chore) (phase : Phase) :
    ((b.particle.buds phase).toList
        ++ (b.registered g chores).filter fun bud => g.phaseOf bud == phase).Perm
      ((b.turnsIn g phase chores).map (·.bud)
        ++ ((b.after g chores).particle.buds phase).toList) := by
  induction chores generalizing b with
  | nil =>
    show ((b.particle.buds phase).toList ++ []).Perm (b.particle.buds phase).toList
    rw [List.append_nil]
  | cons chore chores ih =>
    rw [List.perm_iff_count]
    intro bud
    -- How often the bud occurs after the first chore is what the other chores start from.
    have hfirst := (chore.queue (g := g) b phase).count_eq bud
    have hrest := (ih (chore.run g b)).count_eq bud
    unfold registered turnsIn
    rw [List.filter_append, List.map_append]
    simp only [List.count_append] at hfirst hrest ⊢
    show _ = _ + List.count bud (((chore.run g b).after g chores).particle.buds phase).toList
    omega

/-- The chores of one phase and those of the other are all there are. -/
theorem Bench.turns_perm (b : Bench N R ρ κ) (chores : List Chore) :
    (b.turns g chores).Perm (b.turnsIn g .skeleton chores ++ b.turnsIn g .detail chores) := by
  induction chores generalizing b with
  | nil => exact List.Perm.refl _
  | cons chore chores ih =>
    unfold turns turnsIn
    cases chore.phase with
    | skeleton =>
      rw [if_pos rfl, if_neg Phase.noConfusion, List.nil_append, List.append_assoc]
      exact (ih _).append_left _
    | detail =>
      rw [if_neg Phase.noConfusion, if_pos rfl, List.nil_append]
      exact ((ih _).append_left _).trans (List.perm_append_comm_assoc _ _ _)

theorem Bench.nodes (b : Bench N R ρ κ) (chores : List Chore) :
    (b.after g chores).particle.growth.toList
      = b.particle.growth.toList ++ Turn.nodes (b.turns g chores) := by
  induction chores generalizing b with
  | nil => simp [after, turns, Turn.nodes]
  | cons chore chores ih =>
    have hrest := ih (chore.run g b)
    rw [chore.nodes, List.append_assoc] at hrest
    unfold turns Turn.nodes
    rw [List.flatMap_append]
    exact hrest

theorem Bench.apt (b : Bench N R ρ κ) (chores : List Chore) :
    ∀ t ∈ b.turns g chores, t.body ≠ none → t.Apt g := by
  induction chores generalizing b with
  | nil => exact fun t ht => absurd ht List.not_mem_nil
  | cons chore chores ih =>
    intro t ht
    rcases List.mem_append.mp ht with hfirst | hrest
    · exact chore.apt b t hfirst
    · exact ih (chore.run g b) t hrest

/-- Whatever is done to a particle, in whatever order, the account is balanced. -/
theorem balanced (g : Grammar N R) (b : Bench N R ρ κ) (chores : List Chore) :
    Balanced g b chores := by
  refine ⟨?_, b.queue chores, b.nodes chores, b.apt chores⟩
  rw [List.perm_iff_count]
  intro bud
  have hskeleton := (b.queue (g := g) chores .skeleton).count_eq bud
  have hdetail := (b.queue (g := g) chores .detail).count_eq bud
  have hturns := ((b.turns_perm (g := g) chores).map (·.bud)).count_eq bud
  have hother : Phase.detail ≠ .skeleton := nofun
  have hnew := (g.perm_phases hother (b.registered g chores)).count_eq bud
  unfold Particle.openBuds
  rw [List.map_append] at hturns
  simp only [List.count_append, Particle.buds] at hskeleton hdetail hturns hnew ⊢
  omega

end Balanced

end Espalier
