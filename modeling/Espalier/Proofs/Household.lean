import Espalier.Proofs.Balance
import Espalier.Proofs.Store.Lists
import Mathlib.Data.Fintype.EquivFin
import Mathlib.Data.List.Nodup

/-!
# Particles that share a store

Particles that descend from one another have their growths in one store, where the nodes they have
in common are kept once. A `Household` is such a store together with its particles, and a `Deed` is
what may be done to one of them: a chore, a fork, or giving it up. A chore appends its nodes in the
store, a fork freezes a tail there and may fold segments that others hold as well.

`Sound.run` says that every particle goes on having the growth that the store has for it, and
`particle_after` that deeds leave alone the particles they do not touch. `Houses.redrawn` is the
resampling of a population: forks in the pattern of the draws, and then the old particles are given
up.
-/

namespace Espalier

variable {N R ρ κ : Type}

/-- Particles that keep their growths in one store, by the names these have there. -/
structure Household (N R : Type) where
  store : Store N
  particle : String → Option (Particle N R)

/-- What may be done in a household. -/
inductive Deed (ρ κ : Type) where
  /-- A chore is done to a particle, with a model and a source. -/
  | tend (name : String) (chore : Chore) (model : κ) (source : ρ)
  /-- A particle is forked, and the fork gets a name and a number. -/
  | fork (name copy : String) (id : ParticleId) (mark : HistoryMark)
  | drop (name : String)

namespace Deed

/-- The name of the particle something is done to. -/
def name : Deed ρ κ → String
  | tend name _ _ _ | fork name _ _ _ | drop name => name

/-- The names whose particles a deed changes. -/
def touched : Deed ρ κ → List String
  | tend name _ _ _ | drop name => [name]
  | fork name copy _ _ => [name, copy]

end Deed

namespace Store

variable {s : Store N} {name : String}

def pushAll (s : Store N) (name : String) (nodes : List N) : Store N :=
  nodes.foldl (fun s node => s.push name node) s

theorem Sound.pushAll (hs : s.Sound none) {before : List N} (hbefore : s.view name = some before)
    (nodes : List N) : (s.pushAll name nodes).Sound none ∧
      (s.pushAll name nodes).view = assign s.view name (some (before ++ nodes)) := by
  induction nodes generalizing s before with
  | nil =>
    refine ⟨hs, ?_⟩
    rw [List.append_nil, ← hbefore, assign_self]
    rfl
  | cons node nodes ih =>
    obtain ⟨hpushed, hview⟩ := hs.run (.push name node)
    simp only [Op.run, Op.plain, hbefore] at hpushed hview
    have hnow : (s.push name node).view name = some (before ++ [node]) := by
      rw [hview]
      exact if_pos rfl
    obtain ⟨hrest, hnodes⟩ := ih hpushed hnow
    refine ⟨hrest, hnodes.trans ?_⟩
    rw [hview]
    funext other
    unfold assign
    split
    · rw [List.append_assoc]
      rfl
    · rfl

end Store

namespace Household

section Deeds

variable [Scalar R] [RandomSource ρ] [CostModel κ N R]

/-- What a deed makes of a household, done to the particle `p`. -/
def act (g : Grammar N R) (h : Household N R) (p : Particle N R) : Deed ρ κ → Household N R
  | .tend name chore model source =>
    let bench : Bench N R ρ κ := ⟨p, model, source⟩
    { store := h.store.pushAll name (Turn.nodes (chore.turns g bench))
      particle := Function.update h.particle name (some (chore.run g bench).particle) }
  | .fork name copy id mark =>
    let (p, fork) := p.fork id mark
    { store := h.store.fork name copy
      particle := Function.update (Function.update h.particle name (some p)) copy (some fork) }
  | .drop name =>
    { store := h.store.drop name, particle := Function.update h.particle name none }

/-- Nothing is done about a name that stands for no particle. -/
def run (g : Grammar N R) (h : Household N R) (deed : Deed ρ κ) : Household N R :=
  match h.particle deed.name with
  | none => h
  | some p => h.act g p deed

def after (g : Grammar N R) (h : Household N R) (deeds : List (Deed ρ κ)) : Household N R :=
  deeds.foldl (run g) h

end Deeds

/-- The store is sound, and it has for each particle the nodes that the particle has. -/
structure Sound (h : Household N R) : Prop where
  store : h.store.Sound none
  growths : ∀ name p, h.particle name = some p → h.store.view name = some p.growth.toList

variable {h : Household N R} {name : String} {p : Particle N R}

/-- All that can be observed of a particle's growth in the store is that of its nodes. -/
theorem Sound.standsFor (hs : h.Sound) (hp : h.particle name = some p) :
    h.store.StandsFor name (some p.growth.toList) :=
  hs.growths name p hp ▸ hs.store.standsFor name

/-- A name is given another particle, or none, along with another list. -/
theorem Sound.assign (hs : h.Sound) {store : Store N} (hstore : store.Sound none)
    {nodes : Option (List N)} (hview : store.view = Store.assign h.store.view name nodes)
    {q : Option (Particle N R)} (hq : ∀ p, q = some p → nodes = some p.growth.toList) :
    Sound { store, particle := Function.update h.particle name q } := by
  refine ⟨hstore, fun other found hfound => ?_⟩
  show store.view other = _
  rw [hview]
  unfold Store.assign
  by_cases hother : other = name
  · subst hother
    rw [if_pos rfl]
    exact hq found ((Function.update_self other q h.particle).symm.trans hfound)
  · rw [if_neg hother]
    exact hs.growths other found ((Function.update_of_ne hother q h.particle).symm.trans hfound)

variable [Scalar R] [RandomSource ρ] [CostModel κ N R] {g : Grammar N R}

theorem Sound.act (hs : h.Sound) {deed : Deed ρ κ} (hp : h.particle deed.name = some p) :
    (h.act g p deed).Sound := by
  have hnodes := hs.growths deed.name p hp
  cases deed with
  | tend name chore model source =>
    obtain ⟨hstore, hview⟩ := hs.store.pushAll hnodes
      (Turn.nodes (chore.turns g (⟨p, model, source⟩ : Bench N R ρ κ)))
    refine hs.assign hstore hview fun q hq => ?_
    rw [← Option.some.inj hq, Chore.nodes]
  | fork name copy id mark =>
    obtain ⟨hstore, hview⟩ := hs.store.run (.fork name copy)
    simp only [Store.Op.run, Store.Op.plain, show h.store.view name = _ from hnodes] at hstore hview
    have hfork : p.growth.toList = (p.growth.freeze mark).toList :=
      (Growth.toList_freeze p.growth mark).symm
    -- The particle that is forked keeps its nodes, so it needs no other list.
    have hfrozen : Sound { h with
        particle := Function.update h.particle name (some (p.fork id mark).1) } := by
      refine hs.assign hs.store (Store.assign_self _ name).symm fun q hq => ?_
      rw [← Option.some.inj hq]
      exact hnodes.trans (congrArg some hfork)
    refine hfrozen.assign hstore hview fun q hq => ?_
    rw [← Option.some.inj hq]
    exact congrArg some hfork
  | drop name =>
    exact hs.assign (hs.store.drop name).1 (hs.store.view_drop name)
      fun q hq => absurd hq (Option.some_ne_none q).symm

/-- Whatever is done, every particle has the growth that the store has for it. -/
theorem Sound.run (hs : h.Sound) (deed : Deed ρ κ) : (h.run g deed).Sound := by
  unfold Household.run
  cases hp : h.particle deed.name with
  | none => exact hs
  | some p => exact hs.act hp

theorem Sound.after (hs : h.Sound) (deeds : List (Deed ρ κ)) : (h.after g deeds).Sound :=
  List.foldlRecOn (motive := Sound) deeds _ hs fun _ hs deed _ => hs.run deed

/-- A deed leaves alone the particles it does not touch. -/
theorem particle_run (deed : Deed ρ κ) (hname : name ∉ deed.touched) :
    (h.run g deed).particle name = h.particle name := by
  unfold Household.run
  cases h.particle deed.name with
  | none => rfl
  | some p =>
    cases deed with
    | tend other chore model source =>
      exact Function.update_of_ne (List.ne_of_not_mem_cons hname) _ _
    | fork other copy id mark =>
      obtain ⟨hother, hcopy⟩ := not_or.mp (List.mem_pair.not.mp hname)
      exact (Function.update_of_ne hcopy _ _).trans (Function.update_of_ne hother _ _)
    | drop other => exact Function.update_of_ne (List.ne_of_not_mem_cons hname) _ _

theorem particle_after {deeds : List (Deed ρ κ)} (hname : ∀ deed ∈ deeds, name ∉ deed.touched) :
    (h.after g deeds).particle name = h.particle name :=
  List.foldlRecOn (motive := fun other : Household N R => other.particle name = h.particle name)
    deeds _ rfl fun _ hsame deed hdeed => (particle_run deed (hname deed hdeed)).trans hsame

/-! ## Populations -/

/-- A population lives in a household, one name for each of its particles. -/
structure Houses (h : Household N R) (names : List String) (population : Array (Particle N R)) :
    Prop where
  nodup : names.Nodup
  particles : names.map h.particle = population.toList.map some

/-- The forks of the particles at the drawn places, with a name for each and numbers from `id`
on. -/
def forks (names : List String) : ParticleId → List Nat → List String → List (Deed ρ κ)
  | id, place :: places, copy :: copies =>
    (names[place]?.toList.map fun name => .fork name copy id id)
      ++ forks names (id + 1) places copies
  | _, _, _ => []

/-- A population is drawn anew: the forks, and then the old particles are given up. -/
def redraw (names : List String) (id : ParticleId) (places : List Nat) (copies : List String) :
    List (Deed ρ κ) :=
  forks names id places copies ++ names.map .drop

variable {names copies done : List String} {population drawn : Array (Particle N R)}

omit [Scalar R] [RandomSource ρ] [CostModel κ N R] in
theorem Houses.particle (hs : h.Houses names population) {j : Nat} {p : Particle N R}
    (hname : names[j]? = some name) (hp : population[j]? = some p) : h.particle name = some p := by
  have hj := congrArg (·[j]?) hs.particles
  simp only [List.getElem?_map, Array.getElem?_toList, hname, hp] at hj
  exact Option.some.inj hj

omit [Scalar R] [RandomSource ρ] [CostModel κ N R] in
theorem Houses.length (hs : h.Houses names population) : names.length = population.size := by
  have hlength := congrArg List.length hs.particles
  rwa [List.length_map, List.length_map, Array.length_toList] at hlength

/-- A fork under a fresh name takes its place after those there are. -/
theorem Houses.fork (hs : h.Houses names population) {copy : String}
    (hdone : done.map h.particle = drawn.toList.map some)
    (hfresh : (names ++ done ++ [copy]).Nodup) {place : Nat} (hplace : place < population.size)
    (hname : names[place]? = some name) (id : ParticleId) (mark : HistoryMark) :
    let after := h.run g (.fork name copy id mark : Deed ρ κ)
    let fork := population[place].fork id mark
    after.Houses names (population.setIfInBounds place fork.1) ∧
      (done ++ [copy]).map after.particle = (drawn.push fork.2).toList.map some := by
  intro after fork
  obtain ⟨hold, hcopy, hapart⟩ := List.nodup_append.mp hfresh
  obtain ⟨-, hdoneNodup, hdoneApart⟩ := List.nodup_append.mp hold
  have hparticle : after.particle
      = Function.update (Function.update h.particle name (some fork.1)) copy (some fork.2) := by
    have hp := hs.particle hname (Array.getElem?_eq_getElem hplace)
    show (h.run g _).particle = _
    unfold run Deed.name
    rw [hp]
    rfl
  have hmem : name ∈ names := List.mem_of_getElem? hname
  have hnames : copy ∉ names := fun hcopy =>
    hapart copy (List.mem_append_left done hcopy) copy (List.mem_singleton_self copy) rfl
  have hdones : copy ∉ done := fun hcopy =>
    hapart copy (List.mem_append_right names hcopy) copy (List.mem_singleton_self copy) rfl
  have hname' : name ∉ done := fun hdone => hdoneApart name hmem name hdone rfl
  have hidx : names.idxOf name = place := by
    obtain ⟨hlt, rfl⟩ := List.getElem?_eq_some_iff.mp hname
    exact hs.nodup.idxOf_getElem place hlt
  refine ⟨⟨hs.nodup, ?_⟩, ?_⟩
  · rw [hparticle, hs.nodup.map_update, if_neg hnames, hs.nodup.map_update, if_pos hmem,
      hs.particles, hidx, Array.toList_setIfInBounds, List.map_set]
  · rw [hparticle, List.map_append, hdoneNodup.map_update, if_neg hdones, hdoneNodup.map_update,
      if_neg hname', hdone, List.map_singleton, Function.update_self, Array.toList_push,
      List.map_append, List.map_singleton]

/-- The forks stand in the order of the draws, and each is the one that resampling makes. -/
theorem Houses.forks {places : List Nat} (hs : h.Houses names population)
    (hdone : done.map h.particle = drawn.toList.map some)
    (hfresh : (names ++ done ++ copies).Nodup) (hlength : copies.length = places.length)
    (hplaces : ∀ place ∈ places, place < population.size) (id : ParticleId) :
    (done ++ copies).map
        (h.after g (Household.forks names id places copies : List (Deed ρ κ))).particle
      = (Search.forkDrawn id places population drawn).toList.map some := by
  induction places generalizing h population drawn done copies id with
  | nil =>
    obtain rfl := List.eq_nil_of_length_eq_zero hlength
    rw [List.append_nil]
    exact hdone
  | cons place places ih =>
    obtain ⟨copy, copies, rfl⟩ := List.exists_cons_of_length_eq_add_one hlength
    obtain ⟨hplace, hplaces⟩ := List.forall_mem_cons.mp hplaces
    obtain ⟨name, hname⟩ : ∃ name, names[place]? = some name :=
      ⟨_, List.getElem?_eq_getElem (hs.length ▸ hplace)⟩
    rw [← List.singleton_append, ← List.append_assoc] at hfresh
    obtain ⟨hhouses, hnext⟩ := hs.fork (g := g) (ρ := ρ) (κ := κ) hdone
      (List.Nodup.of_append_left hfresh) hplace hname id id
    rw [List.append_assoc names] at hfresh
    have hrest := ih hhouses hnext hfresh (Nat.succ.inj hlength)
      (by simpa [Array.size_setIfInBounds] using hplaces) (id + 1)
    have hforks : (Household.forks names id (place :: places) (copy :: copies) : List (Deed ρ κ))
        = .fork name copy id id :: Household.forks names (id + 1) places copies := by
      rw [Household.forks, hname]
      rfl
    have hdrawn : Search.forkDrawn id (place :: places) population drawn
        = Search.forkDrawn (id + 1) places
          (population.setIfInBounds place (population[place].fork id id).1)
          (drawn.push (population[place].fork id id).2) := by
      rw [Search.forkDrawn, Array.getElem?_eq_getElem hplace]
    rw [hforks, hdrawn, ← hrest, List.append_assoc]
    rfl

/-- Drawing a population anew leaves the household with the new one. -/
theorem Houses.redrawn {places : List Nat} (hs : h.Houses names population)
    (hfresh : (names ++ copies).Nodup) (hlength : copies.length = places.length)
    (hplaces : ∀ place ∈ places, place < population.size) (id : ParticleId) :
    (h.after g (redraw names id places copies : List (Deed ρ κ))).Houses copies
      (Search.forkDrawn id places population #[]) := by
  obtain ⟨-, hcopies, hapart⟩ := List.nodup_append.mp hfresh
  refine ⟨hcopies, ?_⟩
  have hnone :
      ([] : List String).map h.particle = (#[] : Array (Particle N R)).toList.map some := rfl
  have hforks := hs.forks (g := g) (ρ := ρ) (κ := κ) hnone
    ((List.append_nil names).symm ▸ hfresh) hlength hplaces id
  rw [List.nil_append] at hforks
  rw [← hforks]
  refine List.map_congr_left fun copy hcopy => ?_
  -- The forks outlive the particles that are given up.
  have hkept : ∀ deed ∈ names.map (Deed.drop : String → Deed ρ κ), copy ∉ deed.touched := by
    intro deed hdeed
    obtain ⟨name, hname, rfl⟩ := List.mem_map.mp hdeed
    exact fun hsame => hapart name hname copy hcopy (List.mem_singleton.mp hsame).symm
  unfold redraw after
  rw [List.foldl_append]
  exact particle_after hkept

/-! ## Room for everyone -/

/-- There are always names that are not in use. -/
theorem exists_fresh (hnames : names.Nodup) (count : Nat) :
    ∃ copies : List String, copies.length = count ∧ (names ++ copies).Nodup := by
  induction count with
  | zero => exact ⟨[], rfl, (List.append_nil names).symm ▸ hnames⟩
  | succ count ih =>
    obtain ⟨copies, hlength, hfresh⟩ := ih
    obtain ⟨copy, hcopy⟩ := Infinite.exists_notMem_finset (names ++ copies).toFinset
    refine ⟨copies ++ [copy], by simp [hlength], ?_⟩
    rw [← List.append_assoc]
    exact hfresh.append (List.nodup_singleton copy)
      (List.disjoint_singleton.mpr (List.mem_toFinset.not.mp hcopy))

omit [Scalar R] in
/-- Any particles can be given a household. -/
theorem exists_houses (population : Array (Particle N R)) :
    ∃ (h : Household N R) (names : List String), h.Sound ∧ h.Houses names population := by
  obtain ⟨particles⟩ := population
  induction particles with
  | nil =>
    have hsound : Sound ({ store := .empty, particle := fun _ => none } : Household N R) :=
      ⟨Store.sound_empty, fun _ q hq => absurd hq (Option.some_ne_none q).symm⟩
    exact ⟨_, [], hsound, List.nodup_nil, rfl⟩
  | cons p particles ih =>
    obtain ⟨h, names, hsound, hnodup, hparticles⟩ := ih
    obtain ⟨name, hname⟩ := Infinite.exists_notMem_finset names.toFinset
    have hfresh : name ∉ names := List.mem_toFinset.not.mp hname
    -- A branch of its own holds no segment.
    let branch : Branch N := { head := none, frozen := 0, tail := p.growth.nodes }
    have hstore : h.store.Sound branch.head := hsound.store
    refine ⟨{ store := h.store.put name branch
              particle := Function.update h.particle name (some p) }, name :: names,
      hsound.assign (hstore.put rfl name) (hstore.view_put name) fun q hq => ?_,
      List.nodup_cons.mpr ⟨hfresh, hnodup⟩, ?_⟩
    · rw [← Option.some.inj hq, Store.branchNodes_eq]
      rfl
    · dsimp only
      rw [List.map_cons, Function.update_self, hnodup.map_update, if_neg hfresh, hparticles]
      rfl

end Household

end Espalier
