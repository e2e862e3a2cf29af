import Espalier.Proofs.Ranking
import Espalier.Proofs.Unguided

/-!
# Growing deeper

A free growth of more rounds is one of fewer rounds that goes on from the particle and the source it
has come to: `growFreely_add`. So from the same state of the source a greater depth fails wherever a
smaller one does, begins with what the smaller one has grown, and is no different from it once no bud
is open (`deeper_goes_on`).

How much patience there is does not matter, as long as there is enough: a growth that has not stalled
is the same with more of it (`generate_patient`).
-/

namespace Espalier

variable {N R ρ : Type} [Scalar R] [RandomSource ρ] {g : Grammar N R} {root : N} {start : String}
  {patience depth more : Nat} {source : ρ}

namespace Particle

variable {p q : Particle N R} {rest : ρ}

/-! ## More rounds -/

/-- Where no bud is open a particle stays as it is for any number of rounds. -/
theorem growFreely_of_closed (hclosed : p.skeleton.isEmpty = true) (depth : Nat) :
    growFreely g patience depth p source = (.ok p, source) := by
  cases depth with
  | zero => rfl
  | succ depth =>
    unfold growFreely
    rw [if_pos hclosed]

/-- Growing freely for some rounds and then for more is growing freely for all of them. -/
theorem growFreely_add (g : Grammar N R) (patience depth more : Nat) (p : Particle N R)
    (source : ρ) : growFreely g patience (depth + more) p source
      = match growFreely g patience depth p source with
        | (.error failure, rest) => (.error failure, rest)
        | (.ok q, rest) => growFreely g patience more q rest := by
  induction depth generalizing p source with
  | zero => exact congrArg (growFreely g patience · p source) (Nat.zero_add more)
  | succ depth ih =>
    cases hopen : p.skeleton.isEmpty with
    | true =>
      rw [growFreely_of_closed hopen, growFreely_of_closed hopen]
      exact (growFreely_of_closed hopen more).symm
    | false =>
      have hnot : ¬ p.skeleton.isEmpty = true := by
        rw [hopen]
        exact Bool.false_ne_true
      cases hgrow : p.grow g .skeleton false patience (⟨⟩ : NoCost N R) source with
      | mk result finish =>
        obtain ⟨q, model, rest⟩ := finish
        cases result with
        | error failure =>
          have hround (rounds : Nat) :
              growFreely g patience (rounds + 1) p source = (.error failure, rest) := by
            rw [growFreely, if_neg hnot, hgrow]
          rw [Nat.succ_add, hround, hround]
        | ok pushed =>
          have hround (rounds : Nat) :
              growFreely g patience (rounds + 1) p source = growFreely g patience rounds q rest := by
            rw [growFreely, if_neg hnot, hgrow]
          rw [Nat.succ_add, hround, hround]
          exact ih q rest

/-- Free growth only appends. -/
theorem prefix_of_growFreely (h : growFreely g patience depth p source = (.ok q, rest)) :
    p.growth.toList <+: q.growth.toList := by
  obtain ⟨rounds, hrounds, -⟩ := exists_rounds h
  exact ⟨_, hrounds.nodes.symm⟩

/-! ## More patience -/

variable {phase : Phase} {begun : Nat}

/-- A growth that ends within its patience ends in the same way with more of it. -/
theorem expand_patient (h : (expand g phase begun patience p source).1 ≠ .error .stalled)
    (more : Nat) : expand g phase begun (patience + more) p source
      = expand g phase begun patience p source := by
  induction patience generalizing p source with
  | zero =>
    by_cases hstop : p.growth.size ≠ begun ∨ (p.buds phase).isEmpty
    · have hends (patience : Nat) : expand g phase begun patience p source
          = (.ok (), p, source) := by
        unfold expand
        exact if_pos hstop
      rw [hends, hends]
    · refine absurd ?_ h
      rw [expand, if_neg hstop]
  | succ patience ih =>
    rw [Nat.succ_add]
    rcases again_or_ends g phase begun p source with ⟨next, -, hturn⟩ | ⟨result, -, hends⟩
    · rw [hturn] at h ⊢
      rw [hturn]
      exact ih h
    · rw [hends, hends]

theorem grow_patient {κ : Type} [CostModel κ N R] {useHeuristic : Bool} {model : κ}
    (h : (p.grow g phase useHeuristic patience model source).1 ≠ .error .stalled) (more : Nat) :
    p.grow g phase useHeuristic (patience + more) model source
      = p.grow g phase useHeuristic patience model source := by
  cases hopen : (p.buds phase).isEmpty with
  | true => rw [grow_nothing hopen, grow_nothing hopen]
  | false =>
    have hexpand : (expand g phase p.growth.size patience p source).1 ≠ .error .stalled :=
      fun hstalled => h (grow_failure_iff.mpr ⟨hopen, hstalled⟩)
    unfold grow
    dsimp only
    rw [expand_patient hexpand]

theorem growFreely_patient (h : (growFreely g patience depth p source).1 ≠ .error .stalled)
    (more : Nat) : growFreely g (patience + more) depth p source
      = growFreely g patience depth p source := by
  induction depth generalizing p source with
  | zero => rfl
  | succ depth ih =>
    unfold growFreely at h ⊢
    by_cases hclosed : p.skeleton.isEmpty = true
    · rw [if_pos hclosed, if_pos hclosed]
    · rw [if_neg hclosed] at h
      rw [if_neg hclosed, if_neg hclosed]
      cases hgrow : p.grow g .skeleton false patience (⟨⟩ : NoCost N R) source with
      | mk result finish =>
        obtain ⟨q, model, rest⟩ := finish
        have hpatient : p.grow g .skeleton false (patience + more) (⟨⟩ : NoCost N R) source
            = (result, q, model, rest) := by
          rw [← hgrow]
          refine grow_patient (fun hstalled => ?_) more
          rw [hgrow] at h hstalled
          obtain rfl : result = .error .stalled := hstalled
          exact h rfl
        rw [hgrow] at h
        rw [hpatient]
        cases result with
        | error failure => rfl
        | ok pushed => exact ih h

end Particle

open Particle

/-- A start rule grows freely to a particle, and draws until the source is `rest`. -/
def GrowsTo (g : Grammar N R) (root : N) (start : String) (patience depth : Nat) (source : ρ)
    (p : Particle N R) (rest : ρ) : Prop :=
  g.contains start = true ∧
    growFreely g patience depth (seed 0 start root) source = (.ok p, rest)

/-- What is generated is what the start rule has grown to. -/
theorem generate_eq_ok_iff {growth : Growth N} {rest : ρ} :
    generate g root start patience depth source = (.ok growth, rest) ↔
      ∃ p, GrowsTo g root start patience depth source p rest ∧ p.growth = growth := by
  unfold generate GrowsTo
  cases hknown : g.contains start with
  | false => exact ⟨nofun, fun ⟨p, ⟨hno, _⟩, _⟩ => absurd hno Bool.false_ne_true⟩
  | true =>
    cases hgrow : growFreely g patience depth (seed 0 start root) source with
    | mk result rest' =>
      cases result with
      | error failure => exact ⟨nofun, fun ⟨p, ⟨_, hp⟩, _⟩ => nomatch congrArg Prod.fst hp⟩
      | ok q =>
        refine ⟨fun h => ?_, fun ⟨p, ⟨_, hp⟩, hgrowth⟩ => ?_⟩
        · cases h
          exact ⟨q, ⟨rfl, rfl⟩, rfl⟩
        · cases hp
          exact hgrowth ▸ rfl

/-- Growing to a greater depth is growing to a smaller one and going on from there. -/
theorem growsTo_add_iff {q : Particle N R} {last : ρ} :
    GrowsTo g root start patience (depth + more) source q last ↔
      ∃ p rest, GrowsTo g root start patience depth source p rest ∧
        growFreely g patience more p rest = (.ok q, last) := by
  unfold GrowsTo
  rw [growFreely_add]
  cases growFreely g patience depth (seed 0 start root) source with
  | mk result rest =>
    cases result with
    | error failure =>
      refine ⟨fun ⟨_, h⟩ => ?_, fun ⟨p, _, ⟨_, hp⟩, _⟩ => ?_⟩
      · cases congrArg Prod.fst h
      · cases congrArg Prod.fst hp
    | ok p =>
      refine ⟨fun ⟨hknown, h⟩ => ⟨p, rest, ⟨hknown, rfl⟩, h⟩, fun ⟨p', rest', ⟨hknown, hp⟩, h⟩ => ?_⟩
      cases hp
      exact ⟨hknown, h⟩

/-- Where a depth fails, a greater one has nothing to go on from. -/
theorem generate_add_of_error {failure : Failure R}
    (h : (generate g root start patience depth source).1 = .error failure) (more : Nat) :
    generate g root start patience (depth + more) source
      = generate g root start patience depth source := by
  unfold generate at h ⊢
  rw [growFreely_add]
  cases hknown : g.contains start with
  | false => rfl
  | true =>
    rw [hknown] at h
    cases hgrow : growFreely g patience depth (seed 0 start root) source with
    | mk result rest =>
      rw [hgrow] at h
      cases result with
      | error failure => rfl
      | ok p => exact nomatch h

theorem generate_patient (h : (generate g root start patience depth source).1 ≠ .error .stalled)
    (more : Nat) : generate g root start (patience + more) depth source
      = generate g root start patience depth source := by
  unfold generate at h ⊢
  cases hknown : g.contains start with
  | false => rfl
  | true =>
    have hgrow : (growFreely g patience depth (seed 0 start root) source).1 ≠ .error .stalled := by
      intro hstalled
      refine h ?_
      rw [hknown]
      cases hgrow : growFreely g patience depth (seed 0 start root) source with
      | mk result rest =>
        rw [hgrow] at hstalled
        obtain rfl : result = .error .stalled := hstalled
        rfl
    rw [growFreely_patient hgrow]

/-- What a greater depth comes to beside a smaller one, from the same state of the source. -/
structure Deepening (g : Grammar N R) (root : N) (start : String) (patience : Nat) (source : ρ)
    (depth deeper : Nat) : Prop where
  /-- What is generated for the greater depth begins with what is generated for the smaller one. -/
  begins : ∀ grown, (generate g root start patience deeper source).1 = .ok grown →
    ∃ growth, (generate g root start patience depth source).1 = .ok growth ∧
      growth.toList <+: grown.toList
  /-- Where the smaller depth fails the greater one fails alike, after the same draws. -/
  fails : ∀ failure, (generate g root start patience depth source).1 = .error failure →
    generate g root start patience deeper source
      = generate g root start patience depth source
  /-- Otherwise it goes on with the particle and the source of the smaller one. -/
  goesOn : ∀ p rest, GrowsTo g root start patience depth source p rest →
    ∀ q last, GrowsTo g root start patience deeper source q last ↔
      growFreely g patience (deeper - depth) p rest = (.ok q, last)
  /-- Once no bud of the skeleton is open, both generate the same and draw the same. -/
  settles : ∀ p rest, GrowsTo g root start patience depth source p rest →
    p.skeleton.isEmpty = true →
    generate g root start patience depth source = (.ok p.growth, rest) ∧
      generate g root start patience deeper source = (.ok p.growth, rest)
  /-- None of this depends on the patience, as long as it is enough. -/
  patient : ∀ more, (generate g root start patience deeper source).1 ≠ .error .stalled →
    generate g root start (patience + more) depth source
        = generate g root start patience depth source ∧
      generate g root start (patience + more) deeper source
        = generate g root start patience deeper source

/-- From the same state of the source, a greater depth goes on where a smaller one has ended. -/
theorem deeper_goes_on {deeper : Nat} (h : depth ≤ deeper) :
    Deepening g root start patience source depth deeper := by
  obtain ⟨more, rfl⟩ := Nat.exists_eq_add_of_le h
  constructor
  case begins =>
    intro grown hgrown
    obtain ⟨q, hq, rfl⟩ := generate_eq_ok_iff.mp (Prod.ext hgrown rfl)
    obtain ⟨p, rest, hp, hmore⟩ := growsTo_add_iff.mp hq
    have hgenerate := generate_eq_ok_iff.mpr ⟨p, hp, rfl⟩
    exact ⟨p.growth, congrArg Prod.fst hgenerate, prefix_of_growFreely hmore⟩
  case fails => exact fun failure hfails => generate_add_of_error hfails more
  case goesOn =>
    intro p rest hp q last
    rw [growsTo_add_iff, Nat.add_sub_cancel_left]
    refine ⟨fun ⟨p', rest', hp', hmore⟩ => ?_, fun hmore => ⟨p, rest, hp, hmore⟩⟩
    cases hp.2.symm.trans hp'.2
    exact hmore
  case settles =>
    intro p rest hp hclosed
    refine ⟨generate_eq_ok_iff.mpr ⟨p, hp, rfl⟩, generate_eq_ok_iff.mpr ⟨p, ?_, rfl⟩⟩
    exact growsTo_add_iff.mpr ⟨p, rest, hp, growFreely_of_closed hclosed more⟩
  case patient =>
    intro extra hends
    refine ⟨generate_patient (fun hstalled => hends ?_) extra, generate_patient hends extra⟩
    rw [generate_add_of_error hstalled]
    exact hstalled

namespace Sample

/-- Beside branches, which go on for ever, there are leaves, which end, and rules that lead to one
that is not there. -/
def wood : Grammar (Option NodeId) Binary64 :=
  branching
    |>.define "leaf" (fun node => do let _ ← Expansion.append (some node))
    |>.define "lost" (fun node => do Expansion.addBud "nowhere" (← Expansion.append (some node)))

/-- Five rounds go on with the branch of two; of the lost rule the second round fails, and of the
leaf nothing is left to grow after the first. -/
theorem deeper_goes_on_wood : 2 ≤ 5 ∧
    (∃ growth grown, (generate wood none "branch" 1 2 (.split 0 : Source)).1 = .ok growth ∧
      (generate wood none "branch" 1 5 (.split 0 : Source)).1 = .ok grown ∧
      growth.toList <+: grown.toList) ∧
    ((generate wood none "lost" 1 2 (.split 0 : Source)).1 = .error (.unknownRule "nowhere") ∧
      generate wood none "lost" 1 5 (.split 0 : Source)
        = generate wood none "lost" 1 2 (.split 0 : Source)) ∧
    ∃ p rest, GrowsTo wood none "leaf" 1 2 (.split 0 : Source) p rest ∧
      p.skeleton.isEmpty = true ∧
      generate wood none "leaf" 1 5 (.split 0 : Source) = (.ok p.growth, rest) := by
  have hdeeper : 2 ≤ 5 := by decide
  refine ⟨hdeeper, ?branch, ?lost, ?leaf⟩
  case branch =>
    have hok : (generate wood none "branch" 1 5 (.split 0 : Source)).1.isOk = true := by
      decide +kernel
    obtain ⟨grown, hgrown⟩ := Search.exists_ok hok
    obtain ⟨growth, hgrowth, hprefix⟩ := (deeper_goes_on hdeeper).begins grown hgrown
    exact ⟨growth, grown, hgrowth, hgrown, hprefix⟩
  case lost =>
    have hforgotten : (generate wood none "lost" 1 2 (.split 0 : Source)).1.map (fun _ => ())
        = .error (.unknownRule "nowhere") := by
      decide +kernel
    cases hlost : (generate wood none "lost" 1 2 (.split 0 : Source)).1 with
    | ok growth =>
      rw [hlost] at hforgotten
      exact nomatch hforgotten
    | error failure =>
      rw [hlost] at hforgotten
      exact ⟨congrArg Except.error (Except.error.inj hforgotten),
        (deeper_goes_on hdeeper).fails failure hlost⟩
  case leaf =>
    have hok : (growFreely wood 1 2 (seed 0 "leaf" none) (.split 0 : Source)).1.toOption.map
        (·.skeleton.isEmpty) = some true := by
      decide +kernel
    have hknown : wood.contains "leaf" = true := by decide +kernel
    cases hgrow : growFreely wood 1 2 (seed 0 "leaf" none) (.split 0 : Source) with
    | mk result rest =>
      rw [hgrow] at hok
      obtain ⟨p, rfl, hclosed⟩ := Search.exists_of_toOption_map hok
      have hgrows : GrowsTo wood none "leaf" 1 2 (.split 0 : Source) p rest := ⟨hknown, hgrow⟩
      exact ⟨p, rest, hgrows, hclosed, ((deeper_goes_on hdeeper).settles p rest hgrows hclosed).2⟩

end Sample

end Espalier
