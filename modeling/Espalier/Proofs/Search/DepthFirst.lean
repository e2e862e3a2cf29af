import Espalier.Proofs.Search.CacheKeys
import Espalier.Proofs.Search.Chronicle
import Espalier.Proofs.Search.Survival

/-!
# Closing depth first

A survivor is closed one bud at a time. Each closing production may register further buds, which
come to the end of the skeleton queue and are closed before the older ones. `DepthFirst` says the
same by recursion: to close some buds, apply the closing production of the youngest, close what
this has registered, and go on to the next.

A production neither sees nor touches the buds that wait (`perform_waiting`), so a recursive closing
can be run on top of any queue (`DepthFirst.oneByOne`). Conversely, where the queue runs empty there
was a moment at which the newer buds were used up and the older ones had not been touched
(`exists_depthFirst`). `closing_is_depth_first` puts both together for the search.
-/

namespace Espalier.Particle

variable {N R ρ α : Type} [RandomSource ρ] {g : Grammar N R} {p q r : Particle N R}
  {source rest : ρ} {n : Nat}

/-! ## Two ways to close -/

/-- Some buds, the youngest first, are closed recursively by so many productions. The skeleton queue
of the particle plays no part: a production starts with an empty one, so that the buds found there
afterwards are those that it has registered. -/
inductive DepthFirst (g : Grammar N R) :
    List Bud → Particle N R → ρ → Nat → Particle N R → ρ → Prop where
  | nothing {p : Particle N R} {source : ρ} :
    DepthFirst g [] p source 0 (p.setBuds .skeleton #[]) source
  | bud {bud : Bud} {buds : List Bud} {body : Production N} {p q r t : Particle N R}
    {source applied closed rest : ρ} {m n : Nat}
    (closing : g.closings[bud.rule]? = some body)
    (apply : (p.setBuds .skeleton #[]).apply g body bud.node source = (q, applied))
    (newer : DepthFirst g q.skeleton.toList.reverse q applied m r closed)
    (older : DepthFirst g buds r closed n t rest) :
    DepthFirst g (bud :: buds) p source (m + n + 1) t rest

/-- The recursive closing leads to one result at most. -/
theorem DepthFirst.unique {buds : List Bud} {n' : Nat} {q' : Particle N R} {rest' : ρ}
    (h : DepthFirst g buds p source n q rest) (h' : DepthFirst g buds p source n' q' rest') :
    n = n' ∧ q = q' ∧ rest = rest' := by
  induction h generalizing n' q' rest' with
  | nothing =>
    cases h'
    exact ⟨rfl, rfl, rfl⟩
  | bud closing apply _ _ ihNewer ihOlder =>
    cases h' with
    | bud closing' apply' newer' older' =>
      obtain rfl := Option.some.inj (closing.symm.trans closing')
      obtain ⟨rfl, rfl⟩ := Prod.mk.inj (apply.symm.trans apply')
      obtain ⟨rfl, rfl, rfl⟩ := ihNewer newer'
      obtain ⟨rfl, rfl, rfl⟩ := ihOlder older'
      exact ⟨rfl, rfl, rfl⟩

/-- So many closings of the youngest bud, one after the other. -/
inductive OneByOne (g : Grammar N R) : Nat → Particle N R → ρ → Particle N R → ρ → Prop where
  | nothing {p : Particle N R} {source : ρ} : OneByOne g 0 p source p source
  | bud {p q r : Particle N R} {source closed rest : ρ} {bud : Bud} {n : Nat}
    (close : p.close g source = (.ok (some bud), q, closed))
    (others : OneByOne g n q closed r rest) : OneByOne g (n + 1) p source r rest

theorem OneByOne.trans {m : Nat} {closed : ρ} (h : OneByOne g m p source q closed)
    (h' : OneByOne g n q closed r rest) : OneByOne g (m + n) p source r rest := by
  induction h with
  | nothing => exact (Nat.zero_add n).symm ▸ h'
  | bud close _ ih => exact Nat.succ_add_eq_add_succ _ n ▸ .bud close (ih h')

/-! ## Buds that wait -/

/-- Carrying out a program does the same whatever buds wait before those it registers. -/
theorem perform_waiting (g : Grammar N R) (x : Expansion N α) (p : Particle N R)
    (waiting : Array Bud) (source : ρ) :
    perform g x (p.setBuds .skeleton (waiting ++ p.skeleton)) source
      = ((perform g x p source).1, (perform g x p source).2.1.setBuds .skeleton
          (waiting ++ (perform g x p source).2.1.skeleton), (perform g x p source).2.2) := by
  induction x generalizing p source with
  | done _ => rfl
  | look _ ih => exact ih _ p source
  | push node _ ih => exact ih _ { p with growth := p.growth.push node } source
  | sprout bud _ ih =>
    have hadd : (p.setBuds .skeleton (waiting ++ p.skeleton)).addBud g bud
        = (p.addBud g bud).setBuds .skeleton (waiting ++ (p.addBud g bud).skeleton) := by
      unfold addBud
      cases g.isDetail bud.rule with
      | true => rfl
      | false => exact congrArg (p.setBuds .skeleton) Array.append_push.symm
    show perform g _ ((p.setBuds .skeleton (waiting ++ p.skeleton)).addBud g bud) source = _
    rw [hadd]
    exact ih (p.addBud g bud) source
  | draw _ ih => exact ih _ p _

/-- Closing a bud leaves the older ones where they are, before those that it registers. -/
theorem close_push {bud : Bud} {body : Production N} {applied : ρ}
    (closing : g.closings[bud.rule]? = some body)
    (apply : (p.setBuds .skeleton #[]).apply g body bud.node source = (q, applied))
    (older : Array Bud) : (p.setBuds .skeleton (older.push bud)).close g source
      = (.ok (some bud), q.setBuds .skeleton (older ++ q.skeleton), applied) := by
  have hback : (p.setBuds .skeleton (older.push bud)).skeleton.back? = some bud :=
    Array.back?_push
  have hrest : { p.setBuds .skeleton (older.push bud) with
      skeleton := (p.setBuds .skeleton (older.push bud)).skeleton.pop }
        = (p.setBuds .skeleton #[]).setBuds .skeleton (older ++ #[]) :=
    congrArg (p.setBuds .skeleton) (Array.pop_push.trans Array.append_empty.symm)
  have hclosing : (g.closingFor bud.rule : Except (Failure R) (Production N)) = .ok body := by
    unfold Grammar.closingFor
    rw [closing]
  have happly : ((p.setBuds .skeleton #[]).setBuds .skeleton (older ++ #[])).apply g body bud.node
      source = (q.setBuds .skeleton (older ++ q.skeleton), applied) := by
    have hwaiting := perform_waiting g (body bud.node) (p.setBuds .skeleton #[]) older source
    obtain ⟨rfl, rfl⟩ := Prod.mk.inj apply
    exact congrArg Prod.snd hwaiting
  unfold close
  rw [hback]
  dsimp only
  rw [hrest, hclosing]
  dsimp only
  rw [happly]

/-- Nothing else leads to a closing that succeeds. -/
theorem push_of_close {bud closed : Bud} {applied : ρ} {older : Array Bud}
    (close : (p.setBuds .skeleton (older.push bud)).close g source
      = (.ok (some closed), q, applied)) :
    ∃ body r, g.closings[bud.rule]? = some body ∧
      (p.setBuds .skeleton #[]).apply g body bud.node source = (r, applied) ∧
      q = r.setBuds .skeleton (older ++ r.skeleton) := by
  cases closing : g.closings[bud.rule]? with
  | none =>
    have hback : (p.setBuds .skeleton (older.push bud)).skeleton.back? = some bud :=
      Array.back?_push
    unfold Particle.close Grammar.closingFor at close
    rw [hback] at close
    dsimp only at close
    rw [closing] at close
    exact absurd (congrArg Prod.fst close) (by simp)
  | some body =>
    have hclose := (close_push closing rfl older).symm.trans close
    obtain ⟨-, hrest⟩ := Prod.mk.inj hclose
    obtain ⟨hq, happlied⟩ := Prod.mk.inj hrest
    exact ⟨body, _, rfl, Prod.ext rfl happlied, hq.symm⟩

/-! ## One way and the other -/

/-- What is closed recursively is closed one by one, whatever buds wait below. -/
theorem DepthFirst.oneByOne {buds : List Bud} (h : DepthFirst g buds p source n q rest)
    (waiting : Array Bud) : OneByOne g n (p.setBuds .skeleton (waiting ++ buds.reverse.toArray))
      source (q.setBuds .skeleton waiting) rest := by
  induction h generalizing waiting with
  | nothing =>
    rw [List.reverse_nil, Array.append_empty]
    exact .nothing
  | @bud bud buds body p q r t source applied closed rest m n closing apply _ _ ihNewer ihOlder =>
    have hstack : waiting ++ (bud :: buds).reverse.toArray
        = (waiting ++ buds.reverse.toArray).push bud := by
      simp
    have hnewer := ihNewer (waiting ++ buds.reverse.toArray)
    rw [List.reverse_reverse] at hnewer
    rw [hstack]
    exact .bud (close_push closing apply _) (hnewer.trans (ihOlder waiting))

/-- Where all buds are closed one by one, the newer ones have been closed recursively before the
first of the older ones was touched. -/
theorem exists_depthFirst {buds : List Bud} {older : Array Bud}
    (h : OneByOne g n (p.setBuds .skeleton (older ++ buds.reverse.toArray)) source r rest)
    (hclosed : r.skeleton = #[]) : ∃ m k q between, n = m + k ∧
      DepthFirst g buds p source m q between ∧
      OneByOne g k (q.setBuds .skeleton older) between r rest := by
  -- What a production registers is closed in fewer closings, and so are the buds before it.
  induction n using Nat.strong_induction_on generalizing buds older p source with
  | h n ih =>
    cases buds with
    | nil =>
      rw [List.reverse_nil, Array.append_empty] at h
      exact ⟨0, n, _, source, (Nat.zero_add n).symm, .nothing, h⟩
    | cons bud buds =>
      have hstack : older ++ (bud :: buds).reverse.toArray
          = (older ++ buds.reverse.toArray).push bud := by
        simp
      rw [hstack] at h
      cases h with
      | nothing => exact absurd hclosed (by simp [setBuds])
      | @bud _ q _ _ closed _ _ n close others =>
        obtain ⟨body, q, closing, apply, rfl⟩ := push_of_close close
        have hnewer : older ++ buds.reverse.toArray ++ q.skeleton
            = older ++ buds.reverse.toArray ++ q.skeleton.toList.reverse.reverse.toArray := by
          simp
        rw [hnewer] at others
        obtain ⟨m, k, t, between, rfl, newer, others⟩ := ih _ (Nat.lt_succ_self _) others
        obtain ⟨m', k', t', between', rfl, older, others⟩ := ih k (by omega) others
        exact ⟨m + m' + 1, k', t', between', by omega, .bud closing apply newer older, others⟩

theorem DepthFirst.skeleton {buds : List Bud} (h : DepthFirst g buds p source n q rest) :
    q.skeleton = #[] := by
  induction h with
  | nothing => rfl
  | bud _ _ _ _ _ ih => exact ih

omit [RandomSource ρ] in
theorem setBuds_of_eq {stack : Array Bud} (h : p.skeleton = stack) :
    p.setBuds .skeleton stack = p := by
  subst h
  rfl

/-- To close all buds one by one is to close them recursively. -/
theorem oneByOne_iff : (OneByOne g n p source q rest ∧ q.skeleton = #[]) ↔
    DepthFirst g p.skeleton.toList.reverse p source n q rest := by
  have hstack : #[] ++ p.skeleton.toList.reverse.reverse.toArray = p.skeleton := by simp
  constructor
  · rintro ⟨h, hclosed⟩
    rw [← setBuds_of_eq hstack.symm] at h
    obtain ⟨m, k, r, between, rfl, hdeep, hothers⟩ := exists_depthFirst h hclosed
    -- With no older buds to close, the recursive closing is all there is.
    cases hothers with
    | nothing => rwa [setBuds_of_eq hdeep.skeleton]
    | bud close _ => exact absurd close (by simp [Particle.close, setBuds])
  · intro h
    have hone := h.oneByOne #[]
    rw [setBuds_of_eq hstack.symm, setBuds_of_eq h.skeleton] at hone
    exact ⟨hone, h.skeleton⟩

/-! ## What closing keeps -/

/-- A closing appends nodes and registers details. The rest of the particle stays. -/
structure Closed (p q : Particle N R) : Prop where
  skeleton : q.skeleton = #[]
  id : q.id = p.id
  parent : q.parent = p.parent
  cost : q.cost = p.cost
  logProbability : q.logProbability = p.logProbability
  frozen : q.growth.frozen = p.growth.frozen
  nodes : p.growth.toList <+: q.growth.toList
  details : p.details.toList <+: q.details.toList

theorem DepthFirst.closed {buds : List Bud} (h : DepthFirst g buds p source n q rest) :
    Closed p q := by
  induction h with
  | nothing => constructor <;> rfl
  | @bud bud buds body p q r t source applied closed rest m n closing apply _ _ ihNewer ihOlder =>
    obtain ⟨harvest, hharvest⟩ : ∃ harvest, q = (p.setBuds .skeleton #[]).gain g harvest :=
      ⟨_, (congrArg Prod.fst apply).symm.trans (perform_eq g _ _ source)⟩
    constructor
    case skeleton => exact ihOlder.skeleton
    case id => rw [ihOlder.id, ihNewer.id, hharvest]; rfl
    case parent => rw [ihOlder.parent, ihNewer.parent, hharvest]; rfl
    case cost => rw [ihOlder.cost, ihNewer.cost, hharvest]; rfl
    case logProbability => rw [ihOlder.logProbability, ihNewer.logProbability, hharvest]; rfl
    case frozen => rw [ihOlder.frozen, ihNewer.frozen, hharvest, frozen_gain]; rfl
    case nodes =>
      have hgain := toList_gain (p.setBuds .skeleton #[]) g harvest
      refine List.IsPrefix.trans ⟨harvest.nodes, ?_⟩ (ihNewer.nodes.trans ihOlder.nodes)
      rw [hharvest, hgain]
      rfl
    case details =>
      have hgain := buds_gain (p.setBuds .skeleton #[]) g harvest .detail
      refine List.IsPrefix.trans ⟨harvest.buds.filter fun bud => g.phaseOf bud == .detail, ?_⟩
        (ihNewer.details.trans ihOlder.details)
      rw [hharvest]
      exact hgain.symm

end Espalier.Particle

/-! ## The closing of a survivor -/

namespace Espalier.Search

variable {N R ρ κ ω : Type} [Scalar R] [RandomSource ρ] [CostModel κ N R] [Watcher ω N R]
  {s t : Search N R ρ κ ω} {p : Particle N R} {n : Nat}

open Particle (DepthFirst OneByOne Closed)

/-- The closing of a survivor begins: none of its buds has been closed yet. -/
structure ReadyToClose (s : Search N R ρ κ ω) (p : Particle N R) : Prop where
  stage : s.stage = .close
  survivor : s.survivor = some p
  closings : s.closings = 0

/-- A search closes its survivor in so many steps, none of which fails, and the details are next. -/
structure ClosesIn (s : Search N R ρ κ ω) (n : Nat) (t : Search N R ρ κ ω) : Prop where
  closing : ∀ m < n, (s.after m).stage = .close ∧ (s.after m).step.1.isOk = true
  after : s.after n = t
  stage : t.stage = .detail

/-- A run goes on from its first step as the run from there. -/
theorem after_succ (s : Search N R ρ κ ω) (n : Nat) : s.after (n + 1) = s.step.2.after n := by
  induction n with
  | zero => rfl
  | succ n ih => exact congrArg (fun t : Search N R ρ κ ω => t.step.2) ih

theorem closesIn_succ : s.ClosesIn (n + 1) t ↔
    s.stage = .close ∧ s.step.1.isOk = true ∧ s.step.2.ClosesIn n t := by
  constructor
  · rintro ⟨hclosing, hafter, hstage⟩
    obtain ⟨hfirst, hok⟩ := hclosing 0 (Nat.zero_lt_succ n)
    refine ⟨hfirst, hok, ⟨fun m hm => ?_, (after_succ s n).symm.trans hafter, hstage⟩⟩
    rw [← after_succ]
    exact hclosing (m + 1) (Nat.succ_lt_succ hm)
  · rintro ⟨hfirst, hok, hclosing, hafter, hstage⟩
    refine ⟨fun m hm => ?_, (after_succ s n).trans hafter, hstage⟩
    cases m with
    | zero => exact ⟨hfirst, hok⟩
    | succ m =>
      rw [after_succ]
      exact hclosing m (Nat.lt_of_succ_lt_succ hm)

/-- Where the details are next, there is nothing to close. -/
theorem closesIn_of_detail (h : s.stage = .detail) : s.ClosesIn n t ↔ n = 0 ∧ t = s := by
  constructor
  · intro hcloses
    cases n with
    | zero => exact ⟨rfl, hcloses.after.symm⟩
    | succ n =>
      obtain ⟨hstage, -⟩ := closesIn_succ.mp hcloses
      exact absurd (h.symm.trans hstage) (by simp)
  · rintro ⟨rfl, rfl⟩
    exact ⟨fun m hm => absurd hm (Nat.not_lt_zero m), rfl, h⟩

omit [Scalar R] in
theorem close_of_skeleton {g : Grammar N R} {source : ρ} (h : p.skeleton = #[]) :
    p.close g source = (.ok none, p, source) := by
  unfold Particle.close
  rw [h]
  rfl

section LastStep

variable {g : Grammar N R} {q r : Particle N R} {source closed rest : ρ}

omit [Scalar R] in
/-- Nothing is closed where nothing is open. -/
theorem oneByOne_of_none (h : p.close g source = (.ok none, q, closed)) :
    (OneByOne g n p source r rest ∧ r.skeleton = #[]) ↔ n = 0 ∧ r = q ∧ rest = closed := by
  obtain ⟨hclosed, -⟩ := Particle.skeleton_of_close (congrArg Prod.fst h)
  obtain ⟨-, hsame⟩ := Prod.mk.inj ((close_of_skeleton hclosed).symm.trans h)
  obtain ⟨rfl, rfl⟩ := Prod.mk.inj hsame
  constructor
  · rintro ⟨hone, -⟩
    cases hone with
    | nothing => exact ⟨rfl, rfl, rfl⟩
    | bud close _ => exact absurd (h.symm.trans close) (by simp)
  · rintro ⟨rfl, rfl, rfl⟩
    exact ⟨.nothing, hclosed⟩

omit [Scalar R] in
/-- After the closing of a bud there is one less to go. -/
theorem oneByOne_of_some {bud : Bud} (h : p.close g source = (.ok (some bud), q, closed)) :
    (OneByOne g n p source r rest ∧ r.skeleton = #[]) ↔
      ∃ m, n = m + 1 ∧ OneByOne g m q closed r rest ∧ r.skeleton = #[] := by
  constructor
  · rintro ⟨hone, hclosed⟩
    cases hone with
    | nothing => exact absurd (h.symm.trans (close_of_skeleton hclosed)) (by simp)
    | bud close others =>
      obtain ⟨-, hrest⟩ := Prod.mk.inj (h.symm.trans close)
      obtain ⟨rfl, rfl⟩ := Prod.mk.inj hrest
      exact ⟨_, rfl, others, hclosed⟩
  · rintro ⟨m, rfl, hone, hclosed⟩
    exact ⟨.bud h hone, hclosed⟩

omit [Scalar R] in
/-- A failure is never got over. -/
theorem not_oneByOne_of_error {failure : Failure R}
    (h : p.close g source = (.error failure, q, closed)) :
    ¬ (OneByOne g n p source r rest ∧ r.skeleton = #[]) := by
  rintro ⟨hone, hclosed⟩
  cases hone with
  | nothing => exact absurd (h.symm.trans (close_of_skeleton hclosed)) (by simp)
  | bud close _ => exact absurd (h.symm.trans close) (by simp)

end LastStep

/-- The stage closes buds until none is open. -/
theorem closesIn_iff_oneByOne (h : s.stage = .close) (hp : s.survivor = some p) :
    s.ClosesIn n t ↔ ∃ closings q rest, n = closings + 1 ∧
      (OneByOne s.grammar closings p s.source q rest ∧ q.skeleton = #[]) ∧
      t = { s with
        survivor := some q, source := rest, closings := s.closings + closings
        stage := .detail } := by
  induction n generalizing s p with
  | zero =>
    constructor
    · intro hcloses
      exact absurd (h.symm.trans (hcloses.after ▸ hcloses.stage)) (by simp)
    · rintro ⟨_, _, _, hn, -⟩
      exact absurd hn (by simp)
  | succ n ih =>
    rw [closesIn_succ, step_close h hp, isOk_map]
    cases hclose : p.close s.grammar s.source with
    | mk result after =>
      obtain ⟨q, rest⟩ := after
      cases result with
      | error failure =>
        constructor
        · rintro ⟨-, hok, -⟩
          exact absurd hok Bool.false_ne_true
        · rintro ⟨_, _, _, -, hone, -⟩
          exact absurd hone (not_oneByOne_of_error hclose)
      | ok closed =>
        cases closed with
        | none =>
          simp only [oneByOne_of_none hclose]
          dsimp only [afterClosing]
          rw [closesIn_of_detail rfl]
          constructor
          · rintro ⟨-, -, rfl, rfl⟩
            exact ⟨0, q, rest, rfl, ⟨rfl, rfl, rfl⟩, rfl⟩
          · rintro ⟨_, _, _, hn, ⟨rfl, rfl, rfl⟩, rfl⟩
            exact ⟨h, rfl, Nat.succ.inj hn, rfl⟩
        | some bud =>
          simp only [oneByOne_of_some hclose]
          dsimp only [afterClosing]
          rw [ih rfl rfl]
          constructor
          · rintro ⟨-, -, closings, r, rest, rfl, hone, rfl⟩
            refine ⟨closings + 1, r, rest, rfl, ⟨closings, rfl, hone⟩, ?_⟩
            dsimp only
            rw [Nat.add_right_comm, Nat.add_assoc]
          · rintro ⟨_, r, rest, hn, ⟨closings, rfl, hone⟩, rfl⟩
            refine ⟨h, rfl, closings, r, rest, Nat.succ.inj hn, hone, ?_⟩
            dsimp only
            rw [Nat.add_right_comm, Nat.add_assoc]

/-- The cost model is not asked while the survivor is closed. -/
theorem ClosesIn.calls (h : s.ClosesIn n t) : s.calls n = [] := by
  refine List.flatMap_eq_nil_iff.mpr fun m hm => ?_
  obtain ⟨hstage, -⟩ := h.closing m (List.mem_range.mp hm)
  simp [call?, hstage]

/-- Before a survivor is chosen no bud is closed. -/
theorem closings_of_select (hzero : s.closings = 0) (h : (s.after n).stage = .selectSurvivor) :
    (s.after n).closings = 0 := by
  obtain ⟨hcount, -⟩ := s.counts_after n
  rw [hcount, hzero, Nat.zero_add, List.countP_eq_zero]
  intro m hm hcloses
  obtain ⟨hstage, -⟩ := Bool.and_eq_true_iff.mp hcloses
  -- Once buds are closed, no survivor is chosen any more.
  obtain ⟨hsettled, -⟩ := settled_after (s := s) (.inl (of_decide_eq_true hstage)) (n - m)
  rw [Nat.add_sub_cancel' (Nat.le_of_lt (List.mem_range.mp hm))] at hsettled
  unfold Settled at hsettled
  rw [h] at hsettled
  exact absurd hsettled (by simp)

/-- The stage that closes the survivor is a recursive closing of its skeleton, depth first from the
last bud to the first, and so it is after every choice of a survivor in a run. -/
theorem closing_is_depth_first :
    (∀ {s : Search N R ρ κ ω} {p : Particle N R}, s.ReadyToClose p → ∀ n t,
      s.ClosesIn n t ↔ ∃ closings q rest, n = closings + 1 ∧
        DepthFirst s.grammar p.skeleton.toList.reverse p s.source closings q rest ∧
        Closed p q ∧ s.calls n = [] ∧
        t = { s with survivor := some q, source := rest, closings, stage := .detail }) ∧
    ∀ {grammar : Grammar N R} {root : N} {start : String} {config : Config R} {patience : Nat}
      {model : κ} {source : ρ} {watcher : ω} {s : Search N R ρ κ ω},
      Search.new grammar root start config patience model source watcher = .ok s →
        ∀ n, (s.after n).stage = .selectSurvivor → ∃ p, (s.after (n + 1)).ReadyToClose p := by
  refine ⟨fun {s p} hready n t => ?_, fun {_ _ _ _ _ _ _ _ s} hnew n hstage => ?_⟩
  · have hiff := closesIn_iff_oneByOne hready.stage hready.survivor (n := n) (t := t)
    simp only [Particle.oneByOne_iff, hready.closings, Nat.zero_add] at hiff
    constructor
    · intro hcloses
      obtain ⟨closings, q, rest, hn, hdeep, ht⟩ := hiff.mp hcloses
      exact ⟨closings, q, rest, hn, hdeep, hdeep.closed, hcloses.calls, ht⟩
    · rintro ⟨closings, q, rest, hn, hdeep, -, -, ht⟩
      exact hiff.mpr ⟨closings, q, rest, hn, hdeep, ht⟩
  · obtain ⟨p, hp⟩ := exists_fittest (onTime_after (onTime_new hnew) n) hstage
    obtain ⟨w, -, hstep⟩ := step_select hstage hp
    have hclosings : (s.after n).closings = 0 := by
      obtain ⟨rfl, -⟩ := new_spec hnew
      exact closings_of_select rfl hstage
    refine ⟨p, ?_⟩
    show (s.after n).step.2.ReadyToClose p
    rw [hstep]
    exact ⟨rfl, rfl, hclosings⟩

end Espalier.Search

namespace Espalier.Sample

/-- A stem bears two twigs, and the closing of a twig leaves more to close. -/
def twiggy : Grammar String Binary64 :=
  (Grammar.empty : Grammar String Binary64)
    |>.define "stem" (fun _ => do
      let stem ← Expansion.append "stem"
      Expansion.addBud "twig" stem
      Expansion.addBud "twig" stem)
    |>.close "twig" (fun _ => do
      let knot ← Expansion.append "knot"
      Expansion.addBud "bract" knot
      Expansion.addBud "leaf" knot
      Expansion.addBud "tip" knot)
    |>.close "bract" (fun _ => do let _ ← Expansion.append "bract")
    |>.close "tip" (fun _ => do let _ ← Expansion.append "tip")
    |>.detail "leaf"

/-- A search whose survivor has two twigs to close. -/
def pruned : Except (Failure Binary64)
    (Search String Binary64 Source (NoCost String Binary64) (Sink Binary64)) :=
  Search.new twiggy "root" "stem" { config with generations := 1, sampleCount := .constant 1 } 10 ⟨⟩
    (.cycle #[] 0) .ignore

end Espalier.Sample

namespace Espalier.Search

open Particle (DepthFirst)

/-- Both twigs are closed from the last bud to the first, with all that grows from them. -/
theorem closing_is_depth_first_twigs : ∃ s p q rest, Sample.pruned = .ok s ∧
    (s.after 3).stage = .selectSurvivor ∧ (s.after 4).ReadyToClose p ∧
    (s.after 4).ClosesIn 7 ((s.after 4).after 7) ∧
    DepthFirst s.grammar p.skeleton.toList.reverse p (s.after 4).source 6 q rest ∧
    q.growth.toList = ["root", "stem", "knot", "tip", "bract", "knot", "tip", "bract"] := by
  have hrun : (Sample.pruned.toOption.map fun s => ((s.after 3).stage,
      (List.range 7).all fun m => decide (((s.after 4).after m).stage = .close)
        && ((s.after 4).after m).step.1.isOk,
      ((s.after 4).after 7).stage, ((s.after 4).after 7).survivor.map (·.growth.toList)))
        = some (.selectSurvivor, true, .detail,
          some ["root", "stem", "knot", "tip", "bract", "knot", "tip", "bract"]) := by
    decide +kernel
  obtain ⟨s, hnew, hseen⟩ := exists_of_toOption_map hrun
  obtain ⟨hstage, hseen⟩ := Prod.mk.inj hseen
  obtain ⟨hclosing, hseen⟩ := Prod.mk.inj hseen
  obtain ⟨hdetail, hnodes⟩ := Prod.mk.inj hseen
  obtain ⟨hcloses, hruns⟩ := closing_is_depth_first (N := String) (R := Binary64) (ρ := Source)
    (κ := NoCost String Binary64) (ω := Sink Binary64)
  obtain ⟨p, hready⟩ := hruns hnew 3 hstage
  have hin : (s.after 4).ClosesIn 7 ((s.after 4).after 7) := by
    refine ⟨fun m hm => ?_, rfl, hdetail⟩
    have hboth := List.all_eq_true.mp hclosing m (List.mem_range.mpr hm)
    obtain ⟨hstage, hok⟩ := Bool.and_eq_true_iff.mp hboth
    exact ⟨of_decide_eq_true hstage, hok⟩
  obtain ⟨closings, q, rest, hn, hdeep, -, -, ht⟩ := (hcloses hready 7 _).mp hin
  obtain rfl := Nat.succ.inj hn
  have hgrammar := (sameTask_after s 4).grammar
  rw [ht] at hnodes
  exact ⟨s, p, q, rest, hnew, hstage, hready, hin, hgrammar ▸ hdeep, Option.some.inj hnodes⟩

end Espalier.Search
