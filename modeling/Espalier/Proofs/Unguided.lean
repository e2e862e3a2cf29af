import Espalier.Proofs.Picks

/-!
# Growing without guidance

`generate` lets one particle grow for a number of rounds, with nobody to judge it. Each round is one
growth, so whatever it appends comes from its last pick (`Grown`), and what has grown is the root and
one batch of nodes for each round (`Rounds.nodes`). From this come two bounds: one on the number of
nodes, if no production appends too many at once, and one on how far a node is from the root, if
productions append to the bud's own node. The second needs no bound on a batch, since the nodes of a
batch hang from a node that was there before the round (`Rooted.rounds`).

Only choices of rules are applied, so closing productions do not matter, and after the first pick
every bud that is picked is one of the skeleton (`Rounds.phases`).
-/

namespace Espalier

/-! ## The way to the root -/

/-- From a node the parents lead to the root in so many links. -/
inductive Growth.Reaches {N : Type} (growth : Growth N) (parent : N → Option NodeId) :
    (links : Nat) → NodeId → Prop where
  | root : Reaches growth parent 0 0
  | link {id up : NodeId} {node : N} {links : Nat} (there : growth.get? id = some node)
    (hangs : parent node = some up) (more : Reaches growth parent links up) :
    Reaches growth parent (links + 1) id

/-- Whenever a program registers a bud, the bud's node is there. -/
def Expansion.Grounded {N ρ α : Type} [RandomSource ρ] : Expansion N α → View N → ρ → Prop
  | done _, _, _ => True
  | look next, view, source => (next view).Grounded view source
  | push node next, view, source =>
    (next view.growth.size).Grounded { view with growth := view.growth.push node } source
  | sprout bud next, view, source => bud.node < view.growth.size ∧ next.Grounded view source
  | draw next, view, source =>
    let (word, source) := RandomSource.next source
    (next word).Grounded view source

/-- Nodes that are there when a bud is registered are there when the program is through. -/
theorem Expansion.Grounded.bud_lt {N ρ α : Type} [RandomSource ρ] {x : Expansion N α}
    {view : View N} {source : ρ} (h : x.Grounded view source) :
    ∀ bud ∈ (x.harvest view source).buds,
      bud.node < view.growth.size + (x.harvest view source).nodes.length := by
  induction x generalizing view source with
  | done => exact fun bud hbud => absurd hbud List.not_mem_nil
  | look next ih => exact ih view h
  | push node next ih =>
    intro bud hbud
    refine Nat.lt_of_lt_of_eq (ih view.growth.size h bud hbud) ?_
    show (view.growth.push node).size + List.length _ = view.growth.size + (List.length _ + 1)
    have hsize : (view.growth.push node).size = view.growth.size + 1 := Array.size_push node
    rw [hsize, Nat.add_assoc, Nat.add_comm 1]
  | sprout bud next ih =>
    intro other hother
    rcases List.mem_cons.mp hother with rfl | hrest
    · exact Nat.lt_add_right _ h.1
    · exact ih h.2 other hrest
  | draw next ih => exact ih _ h

/-- A turn appends to its bud's own node and registers buds at nodes that are there. -/
structure Turn.Hangs {N ρ : Type} [RandomSource ρ] (parent : N → Option NodeId) (t : Turn N ρ) :
    Prop where
  nodes : ∀ node ∈ t.harvest.nodes, parent node = some t.bud.node
  buds : ∀ body, t.body = some body → (body t.bud.node).Grounded t.view t.source

variable {N R ρ : Type}

theorem Turn.Hangs.bud_lt [RandomSource ρ] {parent : N → Option NodeId} {t : Turn N ρ}
    (h : t.Hangs parent) : ∀ bud ∈ t.harvest.buds,
      bud.node < t.view.growth.size + t.harvest.nodes.length := by
  intro bud hbud
  have hgrounded := h.buds
  unfold harvest at hbud ⊢
  cases hbody : t.body with
  | none =>
    rw [hbody] at hbud
    exact absurd hbud List.not_mem_nil
  | some body =>
    rw [hbody] at hbud
    exact (hgrounded body hbody).bud_lt bud hbud

/-- The way to the root stays when nodes are appended. -/
theorem Growth.Reaches.append {growth grown : Growth N} {parent : N → Option NodeId}
    {nodes : List N} {links : Nat} {id : NodeId} (h : growth.Reaches parent links id)
    (hgrown : grown.toList = growth.toList ++ nodes) : grown.Reaches parent links id := by
  induction h with
  | root => exact .root
  | @link id up node links there hangs more ih =>
    refine .link ?_ hangs ih
    rw [Growth.get?_eq_getElem?] at there ⊢
    rw [hgrown, List.getElem?_append_left (List.getElem?_eq_some_iff.mp there).1, there]

namespace Particle

/-- All nodes reach the root in so many links, and the buds of the skeleton are at nodes that are
there. -/
structure Rooted (parent : N → Option NodeId) (links : Nat) (p : Particle N R) : Prop where
  nodes : ∀ id < p.growth.size, ∃ n ≤ links, p.growth.Reaches parent n id
  buds : ∀ bud ∈ p.buds .skeleton, bud.node < p.growth.size

theorem Rooted.mono {parent : N → Option NodeId} {p : Particle N R} {links more : Nat}
    (h : Rooted parent links p) (hle : links ≤ more) : Rooted parent more p := by
  refine ⟨fun id hid => ?_, h.buds⟩
  obtain ⟨n, hn, hreaches⟩ := h.nodes id hid
  exact ⟨n, Nat.le_trans hn hle, hreaches⟩

/-- A seed is only a root with a bud there. -/
theorem rooted_seed [Zero R] (parent : N → Option NodeId) (start : String) (root : N) :
    Rooted parent 0 (seed (R := R) 0 start root) := by
  refine ⟨fun id hid => ?_, fun bud hbud => ?_⟩
  · obtain rfl : id = 0 := Nat.lt_one_iff.mp hid
    exact ⟨0, Nat.le_refl 0, .root⟩
  · obtain rfl : bud = ⟨start, 0⟩ := by simpa [seed, buds] using hbud
    exact Nat.one_pos

variable [RandomSource ρ] {g : Grammar N R} {phase : Phase} {p q : Particle N R} {source rest : ρ}

/-- A bud of a particle that has gained a harvest was open before or is of the harvest. -/
theorem mem_buds_gain {h : Harvest N} {bud : Bud} (hbud : bud ∈ (p.gain g h).buds phase) :
    bud ∈ p.buds phase ∨ bud ∈ h.buds ∧ g.phaseOf bud = phase := by
  rw [← Array.mem_toList_iff, buds_gain, List.mem_append, Array.mem_toList_iff] at hbud
  refine hbud.imp_right fun hnew => ?_
  obtain ⟨hmem, hphase⟩ := List.mem_filter.mp hnew
  exact ⟨hmem, beq_iff_eq.mp hphase⟩

/-- A turn of a bud that is there adds one link at most, and none if it appends nothing. -/
theorem Rooted.turn {parent : N → Option NodeId} {links : Nat} {t : Turn N ρ}
    (h : Rooted parent links p) (hview : t.view = p.view) (hbud : t.bud.node < p.growth.size)
    (ht : t.Hangs parent) :
    Rooted parent (if t.harvest.nodes = [] then links else links + 1) (p.gain g t.harvest) := by
  have hgrown := toList_gain p g t.harvest
  have hsize := size_of_append hgrown
  refine ⟨fun id hid => ?_, fun bud hmem => ?_⟩
  · by_cases hold : id < p.growth.size
    · obtain ⟨n, hn, hreaches⟩ := h.nodes id hold
      refine ⟨n, Nat.le_trans hn ?_, hreaches.append hgrown⟩
      split <;> omega
    · -- A new node hangs from the bud's, which was there before.
      have hne : t.harvest.nodes ≠ [] := by
        intro hnil
        rw [hnil, List.length_nil] at hsize
        omega
      obtain ⟨n, hn, hreaches⟩ := h.nodes t.bud.node hbud
      have hplace : id - p.growth.toList.length < t.harvest.nodes.length := by
        rw [Growth.length_toList]
        omega
      have hthere : (p.gain g t.harvest).growth.get? id
          = some (t.harvest.nodes[id - p.growth.toList.length]) := by
        rw [Growth.get?_eq_getElem?, hgrown,
          List.getElem?_append_right (by rw [Growth.length_toList]; omega)]
        exact List.getElem?_eq_getElem hplace
      refine ⟨n + 1, ?_, .link hthere (ht.nodes _ (List.getElem_mem hplace))
        (hreaches.append hgrown)⟩
      rw [if_neg hne]
      omega
  · rw [hsize]
    rcases mem_buds_gain hmem with hold | ⟨hnew, -⟩
    · exact Nat.lt_add_right _ (h.buds bud hold)
    · have hlt := ht.bud_lt bud hnew
      rw [hview] at hlt
      exact hlt

variable [Scalar R]

/-! ## Picks -/

section Picks

variable {picks : List (Pick N R ρ)}

/-- A pick applies a choice of its bud's rule. -/
theorem Picks.chosen (h : Picks g phase p source picks q rest) :
    ∀ pick ∈ picks, ∃ rule, g.rule? pick.turn.bud.rule = some rule ∧
      ∃ choice ∈ rule.choices, pick.turn.body = some choice.body := by
  induction h with
  | none => exact fun pick hpick => absurd hpick List.not_mem_nil
  | @pick p q last source drawn chosen rest place bud choice picks draw take sample more ih =>
    intro pick hpick
    rcases List.mem_cons.mp hpick with rfl | hlater
    · obtain ⟨rule, hrule, hchoice⟩ := Grammar.mem_of_sample (congrArg Prod.fst sample)
      exact ⟨rule, hrule, choice, hchoice, rfl⟩
    · exact ih pick hlater

omit [Scalar R] in
/-- A production leaves the queue as it was, but for buds of its phase. -/
theorem mem_buds_apply {bud other : Bud} {body : Production N}
    (h : other ∈ (q.apply g body bud.node source).1.buds phase) :
    other ∈ q.buds phase ∨ g.phaseOf other = phase := by
  rw [apply_eq_gain] at h
  exact (mem_buds_gain h).imp_right fun hnew => hnew.2

/-- A queue that holds only buds of its own phase never gets any other. -/
theorem Picks.phases (h : Picks g phase p source picks q rest)
    (hp : ∀ bud ∈ p.buds phase, g.phaseOf bud = phase) :
    (∀ pick ∈ picks, g.phaseOf pick.turn.bud = phase) ∧
      ∀ bud ∈ q.buds phase, g.phaseOf bud = phase := by
  induction h with
  | none => exact ⟨fun pick hpick => absurd hpick List.not_mem_nil, hp⟩
  | @pick p q last source drawn chosen rest place bud choice picks draw take sample more ih =>
    obtain ⟨-, -, -, hperm, -⟩ := takeBud_spec take
    have hqueue : ∀ other, other ∈ bud :: (q.buds phase).toList → g.phaseOf other = phase :=
      fun other hother => hp other (Array.mem_toList_iff.mp (hperm.mem_iff.mpr hother))
    obtain ⟨hpicks, hlast⟩ := ih fun other hother => by
      rcases mem_buds_apply hother with hold | hphase
      · exact hqueue other (List.mem_cons_of_mem _ (Array.mem_toList_iff.mpr hold))
      · exact hphase
    refine ⟨fun pick hpick => ?_, hlast⟩
    rcases List.mem_cons.mp hpick with rfl | hlater
    · exact hqueue bud List.mem_cons_self
    · exact hpicks pick hlater

/-- From a queue with one bud, that bud is picked first, and after it only buds of the phase. -/
theorem Picks.first {bud : Bud} {pick : Pick N R ρ} (hone : p.buds phase = #[bud])
    (h : Picks g phase p source (pick :: picks) q rest) :
    pick.turn.bud = bud ∧ (∀ later ∈ picks, g.phaseOf later.turn.bud = phase) ∧
      ∀ left ∈ q.buds phase, g.phaseOf left = phase := by
  cases h with
  | @pick p taken last source drawn chosen rest place first choice picks draw take sample more =>
    obtain ⟨-, -, -, hperm, -⟩ := takeBud_spec take
    rw [hone] at hperm
    obtain ⟨rfl, hnil⟩ := List.cons_eq_cons.mp (List.singleton_perm.mp hperm)
    refine ⟨rfl, more.phases fun other hother => ?_⟩
    rcases mem_buds_apply hother with hold | hphase
    · exact absurd (Array.mem_toList_iff.mpr hold) (hnil ▸ List.not_mem_nil)
    · exact hphase

/-- Only the last of some picks adds a link, if the others append nothing. -/
theorem Picks.rooted {parent : N → Option NodeId} {links : Nat}
    (h : Picks g .skeleton p source picks q rest) (hp : Rooted parent links p)
    (hhangs : ∀ pick ∈ picks, pick.turn.Hangs parent)
    (hidle : ∀ pick ∈ picks.dropLast, pick.turn.harvest.nodes = []) :
    Rooted parent (links + 1) q := by
  generalize hphase : Phase.skeleton = phase at h
  induction h with
  | none => exact hp.mono (Nat.le_succ links)
  | @pick p q last source drawn chosen rest place bud choice picks draw take sample more ih =>
    subst hphase
    obtain ⟨-, -, hgrowth, hperm, -⟩ := takeBud_spec take
    have hmem : ∀ other, other ∈ bud :: (q.buds .skeleton).toList → other.node < p.growth.size :=
      fun other hother => hp.buds other (Array.mem_toList_iff.mp (hperm.mem_iff.mpr hother))
    have htaken : Rooted parent links q := by
      refine ⟨hgrowth ▸ hp.nodes, fun other hother => ?_⟩
      rw [hgrowth]
      exact hmem other (List.mem_cons_of_mem _ (Array.mem_toList_iff.mpr hother))
    have hturn := htaken.turn (g := g) (t := ⟨bud, some choice.body, q.view, chosen⟩) rfl
      (hgrowth ▸ hmem bud List.mem_cons_self) (hhangs _ List.mem_cons_self)
    rw [← apply_eq_gain] at hturn
    cases picks with
    | nil =>
      cases more
      refine hturn.mono ?_
      split <;> omega
    | cons next picks =>
      rw [if_pos (hidle _ List.mem_cons_self)] at hturn
      exact ih hturn (fun pick hpick => hhangs pick (List.mem_cons_of_mem _ hpick))
        fun pick hpick => hidle pick (List.mem_cons_of_mem _ hpick)

end Picks

/-! ## Rounds -/

/-- One round of free growth: picks that append nothing, and the last one. -/
structure Round (N R ρ : Type) where
  idle : List (Pick N R ρ)
  last : Pick N R ρ

namespace Round

def picks (r : Round N R ρ) : List (Pick N R ρ) := r.idle ++ [r.last]

/-- The turns of some rounds, in order. -/
def turns (rounds : List (Round N R ρ)) : List (Turn N ρ) :=
  (rounds.flatMap picks).map (·.turn)

/-- What some rounds append. -/
def nodes (rounds : List (Round N R ρ)) : List N :=
  rounds.flatMap fun r => r.last.turn.harvest.nodes

end Round

/-- Free growth in rounds, from the first particle and source to the last ones. A round is a growth
in the skeleton, after which the particle may be given any cost. -/
inductive Rounds (g : Grammar N R) :
    Particle N R → ρ → List (Round N R ρ) → Particle N R → ρ → Prop where
  | none (p : Particle N R) (source : ρ) : Rounds g p source [] p source
  | round {p q last : Particle N R} {source drawn rest : ρ} {idle : List (Pick N R ρ)}
    {pick : Pick N R ρ} {cost : Cost R} {rounds : List (Round N R ρ)}
    (grown : Grown g .skeleton p source idle pick q drawn)
    (more : Rounds g { q with cost } drawn rounds last rest) :
    Rounds g p source (⟨idle, pick⟩ :: rounds) last rest

variable {rounds : List (Round N R ρ)}

/-- A growth that succeeds where buds are open has made picks. -/
theorem exists_grown_of_grow {κ : Type} [CostModel κ N R] {useHeuristic pushed : Bool}
    {patience : Nat} {model model' : κ} (hopen : (p.buds phase).isEmpty = false)
    (h : p.grow g phase useHeuristic patience model source = (.ok pushed, q, model', rest)) :
    ∃ idle last grown cost, Grown g phase p source idle last grown rest ∧
      q = { grown with cost } := by
  unfold grow at h
  rw [hopen, if_neg Bool.false_ne_true] at h
  dsimp only at h
  cases hexpand : expand g phase p.growth.size patience p source with
  | mk result finish =>
    obtain ⟨grown, drawn⟩ := finish
    rw [hexpand] at h
    cases result with
    | error failure => cases congrArg Prod.fst h
    | ok done =>
      obtain ⟨idle, last, hgrown⟩ := exists_grown hopen hexpand
      cases h
      exact ⟨idle, last, grown, _, hgrown, rfl⟩

/-- Free growth that succeeds has gone through rounds, as many as were asked for unless there were
no buds left. -/
theorem exists_rounds {patience depth : Nat}
    (h : growFreely g patience depth p source = (.ok q, rest)) :
    ∃ rounds, Rounds g p source rounds q rest ∧ rounds.length ≤ depth ∧
      (rounds.length < depth → q.skeleton.isEmpty = true) := by
  induction depth generalizing p source with
  | zero =>
    cases h
    exact ⟨[], .none q rest, Nat.le_refl 0, fun hlt => absurd hlt (Nat.lt_irrefl 0)⟩
  | succ depth ih =>
    unfold growFreely at h
    cases hopen : p.skeleton.isEmpty with
    | true =>
      rw [hopen, if_pos rfl] at h
      cases h
      exact ⟨[], .none q rest, Nat.zero_le _, fun _ => hopen⟩
    | false =>
      rw [hopen, if_neg Bool.false_ne_true] at h
      cases hgrow : p.grow g .skeleton false patience (⟨⟩ : NoCost N R) source with
      | mk result finish =>
        obtain ⟨next, model, drawn⟩ := finish
        rw [hgrow] at h
        cases result with
        | error failure => cases congrArg Prod.fst h
        | ok pushed =>
          have hbuds : (p.buds .skeleton).isEmpty = false := hopen
          obtain ⟨idle, last, grown, cost, hgrown, rfl⟩ := exists_grown_of_grow hbuds hgrow
          obtain ⟨rounds, hrounds, hle, hless⟩ := ih h
          refine ⟨⟨idle, last⟩ :: rounds, .round hgrown hrounds, Nat.succ_le_succ hle, ?_⟩
          exact fun hlt => hless (Nat.lt_of_succ_lt_succ hlt)

/-- Rounds append one batch each. -/
theorem Rounds.nodes (h : Rounds g p source rounds q rest) :
    q.growth.toList = p.growth.toList ++ Round.nodes rounds := by
  induction h with
  | none => exact (List.append_nil _).symm
  | round grown more ih =>
    rw [ih]
    show Growth.toList _ ++ _ = _
    rw [grown.nodes, List.append_assoc]
    rfl

theorem Rounds.idle (h : Rounds g p source rounds q rest) :
    ∀ r ∈ rounds, ∀ pick ∈ r.idle, pick.turn.harvest.nodes = [] := by
  induction h with
  | none => exact fun r hr => absurd hr List.not_mem_nil
  | round grown more ih =>
    intro r hr
    rcases List.mem_cons.mp hr with rfl | hlater
    · exact grown.idle
    · exact ih r hlater

omit [Scalar R] [RandomSource ρ] in
theorem Round.turns_cons (idle : List (Pick N R ρ)) (last : Pick N R ρ)
    (rounds : List (Round N R ρ)) :
    turns (⟨idle, last⟩ :: rounds) = (idle ++ [last]).map (·.turn) ++ turns rounds :=
  List.map_append

theorem Rounds.chosen (h : Rounds g p source rounds q rest) :
    ∀ t ∈ Round.turns rounds, ∃ rule, g.rule? t.bud.rule = some rule ∧
      ∃ choice ∈ rule.choices, t.body = some choice.body := by
  induction h with
  | none => exact fun t ht => absurd ht List.not_mem_nil
  | round grown more ih =>
    intro t ht
    rw [Round.turns_cons] at ht
    rcases List.mem_append.mp ht with hnow | hlater
    · obtain ⟨pick, hpick, rfl⟩ := List.mem_map.mp hnow
      exact grown.chain.chosen pick hpick
    · exact ih t hlater

/-- Where all buds are of the skeleton, all picks are. -/
theorem Rounds.all_skeleton (h : Rounds g p source rounds q rest)
    (hp : ∀ bud ∈ p.buds .skeleton, g.phaseOf bud = .skeleton) :
    ∀ t ∈ Round.turns rounds, g.phaseOf t.bud = .skeleton := by
  induction h with
  | none => exact fun t ht => absurd ht List.not_mem_nil
  | round grown more ih =>
    obtain ⟨hpicks, hleft⟩ := grown.chain.phases hp
    intro t ht
    rw [Round.turns_cons] at ht
    rcases List.mem_append.mp ht with hnow | hlater
    · obtain ⟨pick, hpick, rfl⟩ := List.mem_map.mp hnow
      exact hpicks pick hpick
    · exact ih hleft t hlater

/-- From a queue with one bud, that bud is picked first, and after it only buds of the skeleton. -/
theorem Rounds.phases {bud : Bud} (hone : p.buds .skeleton = #[bud])
    (h : Rounds g p source rounds q rest) {first : Turn N ρ} {later : List (Turn N ρ)}
    (hturns : Round.turns rounds = first :: later) :
    first.bud = bud ∧ ∀ t ∈ later, g.phaseOf t.bud = .skeleton := by
  cases h with
  | none => exact absurd hturns.symm (List.cons_ne_nil _ _)
  | @round p q last source drawn rest idle last cost rounds grown more =>
    obtain ⟨pick, picks, hpicks⟩ := List.exists_cons_of_ne_nil (List.concat_ne_nil last idle)
    have hchain := grown.chain
    rw [hpicks] at hchain
    rw [Round.turns_cons, hpicks] at hturns
    obtain ⟨rfl, rfl⟩ := List.cons_eq_cons.mp hturns
    obtain ⟨hfirst, hpicked, hleft⟩ := hchain.first hone
    refine ⟨hfirst, fun t ht => ?_⟩
    rcases List.mem_append.mp ht with hnow | hlater
    · obtain ⟨pick', hpick', rfl⟩ := List.mem_map.mp hnow
      exact hpicked pick' hpick'
    · exact more.all_skeleton hleft t hlater

/-- Every round adds a link at most. -/
theorem Rounds.rooted {parent : N → Option NodeId} {links : Nat}
    (h : Rounds g p source rounds q rest) (hp : Rooted parent links p)
    (hhangs : ∀ t ∈ Round.turns rounds, t.Hangs parent) :
    Rooted parent (links + rounds.length) q := by
  induction h generalizing links with
  | none => exact hp
  | @round p q last source drawn rest idle pick cost rounds grown more ih =>
    have hpicks : ∀ pick' ∈ idle ++ [pick], pick'.turn.Hangs parent := by
      intro pick' hpick'
      refine hhangs pick'.turn ?_
      rw [Round.turns_cons]
      exact List.mem_append_left _ (List.mem_map_of_mem hpick')
    have hgrown := grown.chain.rooted hp hpicks (by rw [List.dropLast_concat]; exact grown.idle)
    have hlast := ih ⟨hgrown.nodes, hgrown.buds⟩ fun t ht => by
      refine hhangs t ?_
      rw [Round.turns_cons]
      exact List.mem_append_right _ ht
    rw [List.length_cons, Nat.add_comm rounds.length, ← Nat.add_assoc]
    exact hlast

omit [Scalar R] in
/-- Batches of bounded length are bounded in all. -/
theorem Round.length_nodes_le {most : Nat} {rounds : List (Round N R ρ)}
    (h : ∀ t ∈ turns rounds, t.harvest.nodes.length ≤ most) :
    (nodes rounds).length ≤ most * rounds.length := by
  induction rounds with
  | nil => exact Nat.le_refl _
  | cons r rounds ih =>
    obtain ⟨idle, last⟩ := r
    rw [turns_cons] at h
    have hlast := h last.turn (List.mem_append_left _ (List.mem_map_of_mem (by simp)))
    have hrest := ih fun t ht => h t (List.mem_append_right _ ht)
    show (last.turn.harvest.nodes ++ nodes rounds).length ≤ most * (rounds.length + 1)
    rw [List.length_append, Nat.mul_succ]
    omega

/-! ## Closing productions -/

omit [Scalar R] in
/-- What a production does has nothing to do with closing productions. -/
theorem perform_closings {α : Type} (closings : Std.ExtTreeMap String (Production N))
    (x : Expansion N α) (p : Particle N R) (source : ρ) :
    perform { g with closings } x p source = perform g x p source := by
  induction x generalizing p source with
  | done => rfl
  | look _ ih => exact ih _ p source
  | push node _ ih => exact ih _ _ source
  | sprout bud _ ih => exact ih _ source
  | draw _ ih => exact ih _ p _

theorem expand_closings (closings : Std.ExtTreeMap String (Production N)) (start patience : Nat)
    (p : Particle N R) (source : ρ) :
    expand { g with closings } phase start patience p source
      = expand g phase start patience p source := by
  induction patience generalizing p source with
  | zero =>
    unfold expand
    rfl
  | succ patience ih =>
    have happly : ∀ (q : Particle N R) (body : Production N) (node : NodeId) (rest : ρ),
        q.apply { g with closings } body node rest = q.apply g body node rest :=
      fun q body node rest => congrArg Prod.snd (perform_closings closings (body node) q rest)
    unfold expand
    simp only [happly, ih]
    rfl

theorem growFreely_closings (closings : Std.ExtTreeMap String (Production N))
    (patience depth : Nat) (p : Particle N R) (source : ρ) :
    growFreely { g with closings } patience depth p source
      = growFreely g patience depth p source := by
  induction depth generalizing p source with
  | zero => rfl
  | succ depth ih =>
    unfold growFreely grow
    simp only [expand_closings, ih]

end Particle

open Particle

variable [Scalar R] [RandomSource ρ] {g : Grammar N R} {root : N} {start : String}
  {patience depth : Nat} {source : ρ} {growth : Growth N}

/-- What growing freely for at most `depth` rounds comes to. -/
structure FreelyGrown (g : Grammar N R) (root : N) (start : String) (depth : Nat)
    (growth : Growth N) (rounds : List (Round N R ρ)) : Prop where
  few : rounds.length ≤ depth
  /-- After the root there is one batch for each round, which its last pick has appended. -/
  batches : growth.toList = root :: rounds.flatMap fun r => r.last.turn.harvest.nodes
  idle : ∀ r ∈ rounds, ∀ pick ∈ r.idle, pick.turn.harvest.nodes = []
  size_le : ∀ most, (∀ t ∈ Round.turns rounds, t.harvest.nodes.length ≤ most) →
    growth.size ≤ 1 + most * depth
  reaches : ∀ parent : N → Option NodeId, (∀ t ∈ Round.turns rounds, t.Hangs parent) →
    ∀ id < growth.size, ∃ links ≤ depth, growth.Reaches parent links id
  /-- Only choices of rules are applied. -/
  chosen : ∀ t ∈ Round.turns rounds, ∃ rule, g.rule? t.bud.rule = some rule ∧
    ∃ choice ∈ rule.choices, t.body = some choice.body
  /-- The start rule's own bud is picked first, and no other one of the details. -/
  phases : ∀ first later, Round.turns rounds = first :: later →
    first.bud = ⟨start, 0⟩ ∧ ∀ t ∈ later, g.phaseOf t.bud = .skeleton

/-- What the rounds of a seed come to. -/
theorem Particle.Rounds.freelyGrown {rounds : List (Round N R ρ)} {last : Particle N R} {rest : ρ}
    (h : Rounds g (Particle.seed 0 start root) source rounds last rest)
    (hfew : rounds.length ≤ depth) : FreelyGrown g root start depth last.growth rounds where
  few := hfew
  batches := h.nodes
  idle := h.idle
  size_le := by
    intro most hmost
    have hbatches := Round.length_nodes_le hmost
    have hdepth := Nat.mul_le_mul_left most hfew
    rw [size_of_append h.nodes]
    show 1 + _ ≤ _
    omega
  reaches := by
    intro parent hhangs id hid
    obtain ⟨links, hlinks, hreaches⟩ :=
      (h.rooted (rooted_seed parent start root) hhangs).nodes id hid
    exact ⟨links, by omega, hreaches⟩
  chosen := h.chosen
  phases := fun first later => h.phases rfl

/-- What is generated has grown freely, and closing productions have nothing to do with it. -/
theorem generates_freely (h : (generate g root start patience depth source).1 = .ok growth) :
    (∃ rounds last rest, Rounds g (Particle.seed 0 start root) source rounds last rest ∧
      (rounds.length < depth → last.skeleton.isEmpty = true) ∧
      last.growth = growth ∧ FreelyGrown g root start depth growth rounds) ∧
    ∀ closings, generate { g with closings } root start patience depth source
      = generate g root start patience depth source := by
  refine ⟨?_, fun closings => ?_⟩
  · unfold generate at h
    cases hknown : g.contains start with
    | false =>
      rw [hknown] at h
      exact nomatch h
    | true =>
      rw [hknown] at h
      cases hgrow : growFreely g patience depth (Particle.seed 0 start root) source with
      | mk result rest =>
        rw [hgrow] at h
        cases result with
        | error failure => exact nomatch h
        | ok last =>
          obtain rfl : last.growth = growth := Except.ok.inj h
          obtain ⟨rounds, hrounds, hfew, hearly⟩ := exists_rounds hgrow
          exact ⟨rounds, last, rest, hrounds, hearly, rfl, hrounds.freelyGrown hfew⟩
  · unfold generate
    rw [growFreely_closings]
    rfl

namespace Sample

/-- A branch is a node from which two branches go on. -/
def branch : Production (Option NodeId) := fun node => do
  let id ← Expansion.append (some node)
  Expansion.addBud "branch" id
  Expansion.addBud "branch" id

def branching : Grammar (Option NodeId) Binary64 := Grammar.empty.define "branch" branch

theorem body_of_branching {name : String} {rule : Rule (Option NodeId) Binary64}
    {choice : Choice (Option NodeId) Binary64} (hrule : branching.rule? name = some rule)
    (hchoice : choice ∈ rule.choices) : choice.body = branch := by
  unfold branching Grammar.define Grammar.addChoices Grammar.rule? at hrule
  rcases new_or_there_of_insert hrule with ⟨-, rfl⟩ | ⟨-, hthere⟩
  · have hone : choice ∈ (#[⟨1, branch⟩] : Array (Choice (Option NodeId) Binary64)) := hchoice
    rw [List.mem_singleton.mp (Array.mem_def.mp hone)]
  · exact absurd hthere (by simp [Grammar.empty])

/-- Three rounds of branches append three nodes, none of which is more than three links away from
the root. -/
theorem generates_freely_branches : ∃ growth,
    (generate branching none "branch" 1 3 (.cycle #[] 0 : Source)).1 = .ok growth ∧
      growth.size ≤ 4 ∧ ∀ place < growth.size, ∃ links ≤ 3, growth.Reaches id links place := by
  have hok : (generate branching none "branch" 1 3 (.cycle #[] 0 : Source)).1.isOk = true := by
    decide +kernel
  obtain ⟨growth, hgrowth⟩ := Search.exists_ok hok
  obtain ⟨⟨rounds, last, rest, -, -, -, hfree⟩, -⟩ := generates_freely hgrowth
  have hbranch : ∀ t ∈ Round.turns rounds, t.body = some branch := by
    intro t ht
    obtain ⟨rule, hrule, choice, hchoice, hbody⟩ := hfree.chosen t ht
    rw [hbody, body_of_branching hrule hchoice]
  have hharvest : ∀ t ∈ Round.turns rounds, t.harvest.nodes = [some t.bud.node] := by
    intro t ht
    unfold Turn.harvest
    rw [hbranch t ht]
    rfl
  refine ⟨growth, hgrowth, hfree.size_le 1 fun t ht => ?_, hfree.reaches id fun t ht => ?_⟩
  · rw [hharvest t ht]
    exact Nat.le_refl 1
  · refine ⟨fun node hnode => ?_, fun body hbody => ?_⟩
    · rw [hharvest t ht] at hnode
      exact List.mem_singleton.mp hnode
    · obtain rfl : branch = body := Option.some.inj ((hbranch t ht).symm.trans hbody)
      have hthere : t.view.growth.size < (t.view.growth.push (some t.bud.node)).size := by
        show _ < Array.size _
        rw [Growth.push, Array.size_push]
        exact Nat.lt_succ_self _
      exact ⟨hthere, hthere, trivial⟩

end Sample

end Espalier
