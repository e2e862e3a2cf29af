import Espalier.Proofs.Registration

/-!
# What is registered under a name

Calls write to three tables, some of them under many names at once, and some are refused. Under a
name a grammar lists a rule, a closing production and whether the name is a detail, and a call
revises that by what it says about the name and by nothing else (`Grammar.listing_carryOut`). So what
is listed under a name comes of the calls on that name, in their order (`Grammar.Registers`), and
calls that have no name in common may be swapped.
-/

namespace Espalier

variable {N R : Type}

/-- What a grammar has under a name. -/
@[ext]
structure Listing (N R : Type) where
  rule : Option (Rule N R)
  closing : Option (Production N)
  detail : Bool

def Grammar.listing (g : Grammar N R) (name : String) : Listing N R :=
  { rule := g.rule? name, closing := g.closings[name]?, detail := g.isDetail name }

/-- There is nothing in a grammar but what is listed under names. -/
theorem Grammar.ext_listing {g h : Grammar N R} (heq : ∀ name, g.listing name = h.listing name) :
    g = h := by
  have hrules : g.rules = h.rules :=
    Std.ExtTreeMap.ext_getElem? fun name => congrArg Listing.rule (heq name)
  have hclosings : g.closings = h.closings :=
    Std.ExtTreeMap.ext_getElem? fun name => congrArg Listing.closing (heq name)
  have hdetails : g.details = h.details :=
    Std.ExtTreeSet.ext_contains fun name => congrArg Listing.detail (heq name)
  cases g
  cases h
  simp only at hrules hclosings hdetails
  rw [hrules, hclosings, hdetails]

/-! ## What a call says about a name -/

namespace Registration

/-- The names a call is about. -/
def names : Registration N R → List String
  | define name _ | defineWeighted name _ _ | maybe name _ | choice name _ => [name]
  | close name _ | detail name => [name]
  | closeAll names _ | detailAll names => names

/-- A call on one of its names. -/
def narrow (name : String) : Registration N R → Registration N R
  | closeAll _ body => close name body
  | detailAll _ => detail name
  | call => call

/-- A call on one name, if it is about that name. -/
def on (name : String) (call : Registration N R) : Option (Registration N R) :=
  if name ∈ call.names then some (call.narrow name) else none

/-- The closing production that a call sets for a name. -/
def closing (name : String) : Registration N R → Option (Production N)
  | close other body => if other = name then some body else none
  | closeAll names body => if name ∈ names then some body else none
  | _ => none

/-- Whether a call declares that a name is a detail. -/
def declares (name : String) : Registration N R → Bool
  | detail other => decide (name = other)
  | detailAll names => decide (name ∈ names)
  | _ => false

theorem on_of_mem {name : String} {call : Registration N R} (h : name ∈ call.names) :
    call.on name = some (call.narrow name) :=
  if_pos h

theorem on_of_notMem {name : String} {call : Registration N R} (h : name ∉ call.names) :
    call.on name = none :=
  if_neg h

variable [Scalar R]

/-- Why a call is refused, if it is. -/
def refusal : Registration N R → Option (Failure R)
  | defineWeighted name weight _ =>
    if 0 < weight ∧ Scalar.isFinite weight then none else some (.invalidWeight name weight)
  | _ => none

/-- The answer to a call: its refusal, if it is refused. -/
def answer (call : Registration N R) : Except (Failure R) Unit :=
  match call.refusal with
  | none => .ok ()
  | some failure => .error failure

/-- What a call is answered does not depend on the grammar. -/
theorem apply_eq (g : Grammar N R) (call : Registration N R) :
    call.apply g = (call.answer, call.carryOut g) := by
  refine Prod.ext ?_ rfl
  cases call with
  | define | maybe | choice | close | closeAll | detail | detailAll => rfl
  | defineWeighted name weight body =>
    unfold apply answer refusal Grammar.defineWeighted
    dsimp only
    by_cases hvalid : 0 < weight ∧ Scalar.isFinite weight
    · rw [if_pos hvalid, if_pos hvalid]
    · rw [if_neg hvalid, if_neg hvalid]

/-- A refused call changes nothing. -/
theorem carryOut_of_refusal (g : Grammar N R) {call : Registration N R} {failure : Failure R}
    (h : call.refusal = some failure) : call.carryOut g = g := by
  cases call with
  | define | maybe | choice | close | closeAll | detail | detailAll => exact nomatch h
  | defineWeighted name weight body =>
    have hinvalid : ¬ (0 < weight ∧ Scalar.isFinite weight) := fun hvalid =>
      nomatch (if_pos hvalid).symm.trans h
    rw [carryOut_defineWeighted, if_neg hinvalid]

/-- A call gives choices to its own names only. -/
theorem given_of_notMem {name : String} {call : Registration N R} (h : name ∉ call.names) :
    call.given name = none := by
  refine Option.map_eq_none_iff.mpr (Option.filter_eq_none_iff.mpr fun entry hentry hname => h ?_)
  rw [← eq_of_beq hname]
  cases call with
  | define | maybe | choice =>
    rw [← Option.some.inj hentry]
    exact List.mem_singleton_self _
  | defineWeighted other weight body =>
    obtain ⟨-, hsome⟩ := Option.ite_none_right_eq_some.mp hentry
    rw [← Option.some.inj hsome]
    exact List.mem_singleton_self _
  | close | closeAll | detail | detailAll => exact absurd hentry nofun

end Registration

/-! ## Listings after calls -/

/-- A listing after a call. -/
def Listing.revise [Scalar R] (name : String) (listing : Listing N R) (call : Registration N R) :
    Listing N R where
  rule := match call.given name with
    | none => listing.rule
    | some choices => some ((listing.rule.getD .empty).extend choices)
  closing := (call.closing name).or listing.closing
  detail := listing.detail || call.declares name

/-- Calls on other names leave a listing as it is. -/
theorem Listing.revise_of_notMem [Scalar R] {name : String} (listing : Listing N R)
    {call : Registration N R} (h : name ∉ call.names) : listing.revise name call = listing := by
  have hclosing : call.closing name = none := by
    cases call with
    | close other body => exact if_neg fun heq => h (List.mem_singleton.mpr heq.symm)
    | closeAll names body => exact if_neg h
    | define | defineWeighted | maybe | choice | detail | detailAll => rfl
  have hdeclares : call.declares name = false := by
    cases call with
    | detail other => exact decide_eq_false fun heq => h (List.mem_singleton.mpr heq)
    | detailAll names => exact decide_eq_false h
    | define | defineWeighted | maybe | choice | close | closeAll => rfl
  unfold revise
  rw [Registration.given_of_notMem h, hclosing, hdeclares, Bool.or_false]
  rfl

/-- A call on many names says of each what a call on that name would. -/
theorem Listing.revise_narrow [Scalar R] {name : String} (listing : Listing N R)
    {call : Registration N R} (h : name ∈ call.names) :
    listing.revise name (call.narrow name) = listing.revise name call := by
  cases call with
  | define | defineWeighted | maybe | choice | close | detail => rfl
  | closeAll names body =>
    have hclosing : (Registration.closeAll names body : Registration N R).closing name
        = (Registration.close name body : Registration N R).closing name :=
      (if_pos h).trans (if_pos rfl).symm
    unfold revise
    rw [hclosing]
    rfl
  | detailAll names =>
    have hdeclares : (Registration.detailAll names : Registration N R).declares name
        = (Registration.detail name : Registration N R).declares name :=
      (decide_eq_true h).trans (decide_eq_true rfl).symm
    unfold revise
    rw [hdeclares]
    rfl

/-- Calls revise a listing as what they say about its name does. -/
theorem Listing.foldl_revise_on [Scalar R] (name : String) (calls : List (Registration N R))
    (listing : Listing N R) : (calls.filterMap (·.on name)).foldl (·.revise name ·) listing
      = calls.foldl (·.revise name ·) listing := by
  induction calls generalizing listing with
  | nil => rfl
  | cons call calls ih =>
    rw [List.filterMap_cons, List.foldl_cons]
    by_cases h : name ∈ call.names
    · rw [Registration.on_of_mem h]
      dsimp only
      rw [List.foldl_cons, listing.revise_narrow h, ih]
    · rw [Registration.on_of_notMem h, listing.revise_of_notMem h]
      exact ih listing

namespace Grammar

theorem closing_close (g : Grammar N R) (other name : String) (body : Production N) :
    (g.close other body).closings[name]? = if other = name then some body else g.closings[name]? :=
  getElem?_insert_ite g.closings other name body

theorem closing_closeAll (g : Grammar N R) (names : List String) (body : Production N)
    (name : String) : (g.closeAll names body).closings[name]?
      = if name ∈ names then some body else g.closings[name]? := by
  unfold closeAll
  induction names generalizing g with
  | nil => rfl
  | cons other names ih =>
    rw [List.foldl_cons, ih, closing_close]
    by_cases hlater : name ∈ names
    · simp [hlater]
    · simp [hlater, eq_comm]

theorem closings_detailAll (g : Grammar N R) (names : List String) :
    (g.detailAll names).closings = g.closings := by
  unfold detailAll
  exact List.foldlRecOn (motive := fun h : Grammar N R => h.closings = g.closings) names _ rfl
    fun _ h _ _ => h

theorem isDetail_detail (g : Grammar N R) (other name : String) :
    (g.detail other).isDetail name = (g.isDetail name || decide (name = other)) := by
  unfold detail isDetail
  rw [Std.ExtTreeSet.contains_insert, Bool.or_comm, Bool.beq_eq_decide_eq]
  simp only [Std.LawfulEqCmp.compare_eq_iff_eq]
  simp only [eq_comm]

theorem isDetail_detailAll (g : Grammar N R) (names : List String) (name : String) :
    (g.detailAll names).isDetail name = (g.isDetail name || decide (name ∈ names)) := by
  unfold detailAll
  induction names generalizing g with
  | nil => simp
  | cons other names ih =>
    rw [List.foldl_cons, ih, isDetail_detail]
    simp [Bool.or_assoc]

theorem details_closeAll (g : Grammar N R) (names : List String) (body : Production N) :
    (g.closeAll names body).details = g.details := by
  unfold closeAll
  exact List.foldlRecOn (motive := fun h : Grammar N R => h.details = g.details) names _ rfl
    fun _ h _ _ => h

variable [Scalar R]

theorem closing_carryOut (g : Grammar N R) (call : Registration N R) (name : String) :
    (call.carryOut g).closings[name]? = (call.closing name).or g.closings[name]? := by
  cases call with
  | define | maybe | choice | detail => rfl
  | defineWeighted other weight body =>
    rw [Registration.carryOut_defineWeighted]
    split <;> rfl
  | close other body =>
    refine (closing_close g other name body).trans ?_
    simp only [Registration.closing]
    split <;> rfl
  | closeAll names body =>
    refine (closing_closeAll g names body name).trans ?_
    simp only [Registration.closing]
    split <;> rfl
  | detailAll names => exact congrArg (·[name]?) (closings_detailAll g names)

theorem isDetail_carryOut (g : Grammar N R) (call : Registration N R) (name : String) :
    (call.carryOut g).isDetail name = (g.isDetail name || call.declares name) := by
  cases call with
  | define | maybe | choice | close => exact (Bool.or_false _).symm
  | defineWeighted other weight body =>
    rw [Registration.carryOut_defineWeighted]
    split <;> exact (Bool.or_false _).symm
  | closeAll names body =>
    exact (congrArg (·.contains name) (details_closeAll g names body)).trans (Bool.or_false _).symm
  | detail other => exact isDetail_detail g other name
  | detailAll names => exact isDetail_detailAll g names name

/-- A call revises what is listed under a name by what it says about that name. -/
theorem listing_carryOut (g : Grammar N R) (call : Registration N R) (name : String) :
    (call.carryOut g).listing name = (g.listing name).revise name call := by
  apply Listing.ext
  case rule =>
    refine (rule?_carryOut g call name).trans ?_
    unfold Listing.revise
    cases call.given name <;> rfl
  case closing => exact closing_carryOut g call name
  case detail => exact isDetail_carryOut g call name

theorem listing_foldl (calls : List (Registration N R)) (g : Grammar N R) (name : String) :
    (calls.foldl Registration.carryOut g).listing name
      = calls.foldl (·.revise name ·) (g.listing name) := by
  induction calls generalizing g with
  | nil => rfl
  | cons call calls ih => rw [List.foldl_cons, List.foldl_cons, ih, listing_carryOut]

/-- What is listed under a name comes of the calls on it, in their order. -/
theorem listing_build (calls : List (Registration N R)) (name : String) :
    (build calls).listing name = (build (calls.filterMap (·.on name))).listing name := by
  unfold build
  rw [listing_foldl, listing_foldl, Listing.foldl_revise_on]

/-- Calls that have no name in common may be swapped. -/
theorem carryOut_comm (g : Grammar N R) {a b : Registration N R} (h : a.names.Disjoint b.names) :
    b.carryOut (a.carryOut g) = a.carryOut (b.carryOut g) := by
  refine ext_listing fun name => ?_
  rw [listing_carryOut, listing_carryOut, listing_carryOut, listing_carryOut]
  by_cases hname : name ∈ a.names
  · have hother := h hname
    rw [Listing.revise_of_notMem _ hother, Listing.revise_of_notMem _ hother]
  · rw [Listing.revise_of_notMem _ hname, Listing.revise_of_notMem _ hname]

theorem closing_foldl (calls : List (Registration N R)) (g : Grammar N R) (name : String) :
    (calls.foldl Registration.carryOut g).closings[name]?
      = (calls.filterMap (·.closing name)).getLast?.or g.closings[name]? := by
  induction calls generalizing g with
  | nil => rfl
  | cons call calls ih =>
    rw [List.foldl_cons, ih, closing_carryOut, List.filterMap_cons]
    cases call.closing name with
    | none => rfl
    | some body =>
      rw [List.getLast?_cons]
      cases (calls.filterMap (·.closing name)).getLast? <;> rfl

theorem isDetail_foldl (calls : List (Registration N R)) (g : Grammar N R) (name : String) :
    (calls.foldl Registration.carryOut g).isDetail name
      = (g.isDetail name || calls.any (·.declares name)) := by
  induction calls generalizing g with
  | nil => exact (Bool.or_false _).symm
  | cons call calls ih => rw [List.foldl_cons, ih, isDetail_carryOut, List.any_cons, Bool.or_assoc]

/-- The choices that calls give to a name, in their order. -/
def choicesFor (calls : List (Registration N R)) (name : String) : List (R × Production N) :=
  (calls.filterMap (·.given name)).flatten

/-- A rule is there for the names that were given choices, if only none at all. -/
theorem rule?_build_eq_none_iff (calls : List (Registration N R)) (name : String) :
    (build calls).rule? name = none ↔ ∀ call ∈ calls, call.given name = none := by
  rw [← List.filterMap_eq_nil_iff, rule?_build]
  cases calls.filterMap (·.given name) with
  | nil => exact iff_of_true rfl rfl
  | cons given rest => exact iff_of_false (Option.some_ne_none _) (List.cons_ne_nil _ _)

theorem rule_of_build {calls : List (Registration N R)} {name : String} {rule : Rule N R}
    (h : (build calls).rule? name = some rule) :
    rule = Rule.empty.extend (choicesFor calls name) := by
  rw [rule?_build] at h
  unfold choicesFor
  split at h
  · exact absurd h nofun
  · exact (Option.some.inj h).symm

theorem build_append (calls more : List (Registration N R)) :
    build (calls ++ more) = more.foldl Registration.carryOut (build calls) :=
  List.foldl_append

/-- What has come of calls, name by name. -/
structure Registers (calls : List (Registration N Binary64)) : Prop where
  /-- What is listed under a name comes of the calls on that name alone. -/
  alone : ∀ name, (build calls).listing name = (build (calls.filterMap (·.on name))).listing name
  /-- If these are the same for every name, so are the grammars. -/
  determined : ∀ others : List (Registration N Binary64),
    (∀ name, calls.filterMap (·.on name) = others.filterMap (·.on name)) →
      build calls = build others
  /-- A name has a rule once a call has given choices to it, as a refused call does not. -/
  absent_iff : ∀ name, (build calls).rule? name = none ↔ ∀ call ∈ calls, call.given name = none
  /-- A rule has the choices that were given to its name, in the order of the calls. -/
  choices : ∀ name rule, (build calls).rule? name = some rule →
    rule.choices.toList = (choicesFor calls name).map fun choice => ⟨choice.1, choice.2⟩
  /-- Its total is added up from the weights of these, one after the other. -/
  total : ∀ name rule, (build calls).rule? name = some rule →
    rule.totalWeight = ((choicesFor calls name).map (·.1)).foldl (· + ·) 0
  valid : ∀ name, ∀ choice ∈ choicesFor calls name,
    0 < choice.1 ∧ Scalar.isFinite choice.1 = true
  /-- The last closing production stays. -/
  closing : ∀ name, (build calls).closings[name]? = (calls.filterMap (·.closing name)).getLast?
  detail : ∀ name, (build calls).isDetail name = calls.any (·.declares name)
  /-- Whether a call is refused depends on its weight only. -/
  answers : ∀ before call after, calls = before ++ call :: after →
    call.apply (build before) = (call.answer, build (before ++ [call]))
  /-- A refused call leaves the grammar as it was, at once and for the calls that follow. -/
  refused : ∀ before call after failure, calls = before ++ call :: after →
    call.refusal = some failure →
      build (before ++ [call]) = build before ∧ build calls = build (before ++ after)
  /-- Calls without a common name may be swapped. -/
  swapped : ∀ before a b after, calls = before ++ a :: b :: after → a.names.Disjoint b.names →
    build calls = build (before ++ b :: a :: after)

/-- Whatever calls have built a grammar, some of them refused, a name owes nothing to the calls on
others. -/
theorem build_registers (calls : List (Registration N Binary64)) : Registers calls := by
  constructor
  case alone => exact listing_build calls
  case determined =>
    intro others hsame
    refine ext_listing fun name => ?_
    rw [listing_build calls, listing_build others, hsame]
  case absent_iff => exact rule?_build_eq_none_iff calls
  case choices =>
    intro name rule hrule
    rw [rule_of_build hrule, Rule.choices_extend]
    exact List.nil_append _
  case total =>
    intro name rule hrule
    have hsummed := (summed_build hrule).1
    rw [hsummed, rule_of_build hrule, Rule.weights_extend]
    rfl
  case valid => exact fun name choice hchoice => Registration.valid_of_given hchoice
  case closing =>
    intro name
    unfold build
    rw [closing_foldl, show (empty : Grammar N Binary64).closings[name]? = none from
      Std.ExtTreeMap.getElem?_empty, Option.or_none]
  case detail =>
    intro name
    unfold build
    rw [isDetail_foldl]
    exact Bool.false_or _
  case answers =>
    intro before call after _
    rw [build_append, List.foldl_cons, List.foldl_nil, call.apply_eq]
  case refused =>
    rintro before call after failure rfl hrefused
    have hkept : call.carryOut (build before) = build before :=
      Registration.carryOut_of_refusal _ hrefused
    rw [build_append, build_append, build_append]
    refine ⟨hkept, ?_⟩
    rw [List.foldl_cons, hkept]
  case swapped =>
    rintro before a b after rfl hdisjoint
    rw [build_append, build_append, List.foldl_cons, List.foldl_cons, List.foldl_cons,
      List.foldl_cons, carryOut_comm _ hdisjoint]

-- A refused call makes no rule, and a call on two names is a call on each of them.
example :
    let g : Grammar String Binary64 :=
      build [.defineWeighted "a" 0 .absent, .closeAll ["a", "b"] .absent]
    g.contains "a" = false ∧ g.hasClosing "a" = true ∧ g.hasClosing "b" = true := by
  decide

end Grammar

end Espalier
