import Espalier.Proofs.Grammar
import Espalier.Proofs.Number.Totals
import Espalier.Proofs.Tally

/-!
# What a grammar draws after any registrations

A grammar is built by calls that register productions, in any order; whatever a call is answered,
the next one finds the grammar that it left (`Registration.carryOut`). `Grammar.rule?_build` says
what rules there are then: a name has one if some call made an entry for it, and its choices are
those the calls gave to it, in order.

`draw_of_build` is what drawing from them comes to in double precision. A choice is found for
every share of the total, however its weights were rounded, but a rule may be without choices, since
a call that lists productions may list none, and its total may be infinite, since weights are
checked one by one (`Rule.Barren`).
-/

namespace Espalier

variable {N R ρ : Type}

/-- A call that registers something. -/
inductive Registration (N R : Type) where
  | define (name : String) (body : Production N)
  | defineWeighted (name : String) (weight : R) (body : Production N)
  | maybe (name : String) (body : Production N)
  | choice (name : String) (bodies : List (Production N))
  | close (name : String) (body : Production N)
  | closeAll (names : List String) (body : Production N)
  | detail (name : String)
  | detailAll (names : List String)

namespace Registration

variable [Scalar R]

/-- The answer to a call, and the grammar after it. -/
def apply (g : Grammar N R) : Registration N R → Except (Failure R) Unit × Grammar N R
  | define name body => (.ok (), g.define name body)
  | defineWeighted name weight body => g.defineWeighted name weight body
  | maybe name body => (.ok (), g.maybe name body)
  | choice name bodies => (.ok (), g.choice name bodies)
  | close name body => (.ok (), g.close name body)
  | closeAll names body => (.ok (), g.closeAll names body)
  | detail name => (.ok (), g.detail name)
  | detailAll names => (.ok (), g.detailAll names)

/-- The grammar after a call, whatever the answer was. -/
def carryOut (g : Grammar N R) (call : Registration N R) : Grammar N R := (call.apply g).2

/-- The name for which a call makes an entry, and the choices it gives to it. -/
def entry : Registration N R → Option (String × List (R × Production N))
  | define name body => some (name, [(1, body)])
  | defineWeighted name weight body =>
    if 0 < weight ∧ Scalar.isFinite weight then some (name, [(weight, body)]) else none
  | maybe name body => some (name, [(1, body), (1, .absent)])
  | choice name bodies => some (name, bodies.map fun body => (1, body))
  | close .. | closeAll .. | detail _ | detailAll _ => none

/-- The choices a call gives to a name, if it makes an entry for it. -/
def given (name : String) (call : Registration N R) : Option (List (R × Production N)) :=
  (call.entry.filter fun entry => entry.1 == name).map (·.2)

theorem carryOut_defineWeighted (g : Grammar N R) (name : String) (weight : R)
    (body : Production N) : (defineWeighted name weight body).carryOut g
      = if 0 < weight ∧ Scalar.isFinite weight then g.addChoices name [(weight, body)] else g := by
  unfold carryOut apply Grammar.defineWeighted
  dsimp only
  split <;> rfl

end Registration

/-- The rule with choices added to it. -/
def Rule.extend [Arithmetic R] (rule : Rule N R) (choices : List (R × Production N)) : Rule N R :=
  choices.foldl (fun rule choice => rule.push choice.1 choice.2) rule

theorem Rule.extend_append [Arithmetic R] (rule : Rule N R)
    (choices more : List (R × Production N)) :
    rule.extend (choices ++ more) = (rule.extend choices).extend more :=
  List.foldl_append

theorem Rule.Summed.extend [Arithmetic R] {rule : Rule N R} (h : rule.Summed)
    (choices : List (R × Production N)) : (rule.extend choices).Summed := by
  induction choices generalizing rule with
  | nil => exact h
  | cons choice choices ih => exact ih (h.push choice.1 choice.2)

theorem Rule.choices_extend [Arithmetic R] (rule : Rule N R) (choices : List (R × Production N)) :
    (rule.extend choices).choices.toList
      = rule.choices.toList ++ choices.map fun choice => ⟨choice.1, choice.2⟩ := by
  induction choices generalizing rule with
  | nil => exact (List.append_nil _).symm
  | cons choice choices ih =>
    refine (ih (rule.push choice.1 choice.2)).trans ?_
    unfold push
    rw [Array.toList_push, List.append_assoc]
    rfl

theorem Rule.weights_extend [Arithmetic R] (rule : Rule N R) (choices : List (R × Production N)) :
    (rule.extend choices).weights = rule.weights ++ choices.map (·.1) := by
  unfold weights
  rw [choices_extend, List.map_append, List.map_map]
  rfl

namespace Grammar

theorem rule?_addChoices [Arithmetic R] (g : Grammar N R) (other name : String)
    (choices : List (R × Production N)) : (g.addChoices other choices).rule? name
      = if other = name then some (((g.rule? name).getD .empty).extend choices)
        else g.rule? name := by
  refine (getElem?_insert_ite g.rules other name _).trans ?_
  by_cases h : other = name
  · rw [if_pos h, if_pos h, h]
    rfl
  · rw [if_neg h, if_neg h]
    rfl

theorem rules_closeAll (g : Grammar N R) (names : List String) (body : Production N) :
    (g.closeAll names body).rules = g.rules := by
  unfold closeAll
  exact List.foldlRecOn (motive := fun h : Grammar N R => h.rules = g.rules) names _ rfl
    fun _ h _ _ => h

theorem rules_detailAll (g : Grammar N R) (names : List String) :
    (g.detailAll names).rules = g.rules := by
  unfold detailAll
  exact List.foldlRecOn (motive := fun h : Grammar N R => h.rules = g.rules) names _ rfl
    fun _ h _ _ => h

variable [Scalar R]

/-- What a call does to the rules is what its entry says. -/
theorem rules_carryOut (g : Grammar N R) (call : Registration N R) :
    (call.carryOut g).rules = match call.entry with
      | none => g.rules
      | some (name, choices) => (g.addChoices name choices).rules := by
  cases call with
  | define | maybe | choice | close | detail => rfl
  | closeAll names body => exact rules_closeAll g names body
  | detailAll names => exact rules_detailAll g names
  | defineWeighted name weight body =>
    rw [Registration.carryOut_defineWeighted]
    simp only [Registration.entry]
    split <;> rfl

/-- A call changes the rule of the name it gives choices to, and no other. -/
theorem rule?_carryOut (g : Grammar N R) (call : Registration N R) (name : String) :
    (call.carryOut g).rule? name = match call.given name with
      | none => g.rule? name
      | some choices => some (((g.rule? name).getD .empty).extend choices) := by
  have hrules := rules_carryOut g call
  unfold Registration.given
  cases hentry : call.entry with
  | none =>
    rw [hentry] at hrules
    exact congrArg (·[name]?) hrules
  | some entry =>
    obtain ⟨other, choices⟩ := entry
    rw [hentry] at hrules
    refine (congrArg (·[name]?) hrules).trans ((rule?_addChoices g other name choices).trans ?_)
    by_cases h : other = name
    · simp [Option.filter, h]
    · simp [Option.filter, h]

/-- The grammar that is built by some calls. -/
def build (calls : List (Registration N R)) : Grammar N R :=
  calls.foldl Registration.carryOut empty

theorem rule?_foldl (calls : List (Registration N R)) (g : Grammar N R) (name : String) :
    (calls.foldl Registration.carryOut g).rule? name = match calls.filterMap (·.given name) with
      | [] => g.rule? name
      | given => some (((g.rule? name).getD .empty).extend given.flatten) := by
  induction calls generalizing g with
  | nil => rfl
  | cons call calls ih =>
    rw [List.foldl_cons, ih, rule?_carryOut, List.filterMap_cons]
    cases call.given name with
    | none => rfl
    | some choices =>
      cases calls.filterMap (·.given name) with
      | nil => simp
      | cons more rest => simp [Rule.extend_append]

/-- A name has a rule if calls gave choices to it, and these are the choices of the rule. -/
theorem rule?_build (calls : List (Registration N R)) (name : String) :
    (build calls).rule? name = match calls.filterMap (·.given name) with
      | [] => none
      | given => some (Rule.empty.extend given.flatten) := by
  unfold build
  rw [rule?_foldl]
  have hnone : (empty : Grammar N R).rule? name = none := Std.ExtTreeMap.getElem?_empty
  rw [hnone]
  rfl

end Grammar

/-! ## Drawing in double precision -/

/-- With this word nothing is drawn of a rule: it has no choices, or their total is infinite and the
share of it that the word stands for is zero. -/
def Rule.Barren (rule : Rule N Binary64) (word : UInt64) : Prop :=
  rule.choices = #[] ∨ rule.totalWeight.isFinite = false ∧ word < 2048

/-- What may come of drawing a choice. -/
inductive Grammar.Draw [RandomSource ρ] (g : Grammar N Binary64) (name : String) (source : ρ) :
    Prop where
  | unknown (absent : g.contains name = false)
    (sample : g.sample name source = (.error (.unknownRule name), source))
    (production : g.production name source = (.error (.unknownRule name), source))
  | found (present : g.contains name = true) (rule : Rule N Binary64)
    (known : g.rule? name = some rule) (fertile : ¬ rule.Barren (RandomSource.next source).1)
    (choice : Choice N Binary64) (mem : choice ∈ rule.choices)
    (sample : (g.sample name source).1 = .ok choice)
    (production : (g.production name source).1 = .ok choice.body)
  | missed (present : g.contains name = true) (rule : Rule N Binary64)
    (known : g.rule? name = some rule) (barren : rule.Barren (RandomSource.next source).1)
    (sample : (g.sample name source).1 = .error (.noChoice name))
    (production : (g.production name source).1 = .error (.noChoice name))

/-- The weights of an entry are positive finite numbers. -/
theorem Registration.valid_of_entry {call : Registration N Binary64} {name : String}
    {choices : List (Binary64 × Production N)} (h : call.entry = some (name, choices)) :
    ∀ choice ∈ choices, 0 < choice.1 ∧ Scalar.isFinite choice.1 = true := by
  have hone : (0 : Binary64) < 1 ∧ Scalar.isFinite (1 : Binary64) = true := by decide
  cases call with
  | define other body =>
    obtain ⟨-, rfl⟩ := Prod.mk.inj (Option.some.inj h)
    simpa using hone
  | defineWeighted other weight body =>
    by_cases hvalid : 0 < weight ∧ Scalar.isFinite weight
    · simp only [entry, if_pos hvalid] at h
      obtain ⟨-, rfl⟩ := Prod.mk.inj (Option.some.inj h)
      simpa using hvalid
    · simp only [entry, if_neg hvalid] at h
      exact absurd h nofun
  | maybe other body =>
    obtain ⟨-, rfl⟩ := Prod.mk.inj (Option.some.inj h)
    simpa using hone
  | choice other bodies =>
    obtain ⟨-, rfl⟩ := Prod.mk.inj (Option.some.inj h)
    intro choice hchoice
    obtain ⟨body, -, rfl⟩ := List.mem_map.mp hchoice
    exact hone
  | close | closeAll | detail | detailAll => exact absurd h (by simp [entry])

/-- So are all weights that calls give to a name. -/
theorem Registration.valid_of_given {calls : List (Registration N Binary64)} {name : String}
    {choice : Binary64 × Production N}
    (h : choice ∈ (calls.filterMap (·.given name)).flatten) :
    0 < choice.1 ∧ Scalar.isFinite choice.1 = true := by
  obtain ⟨choices, hgiven, hmem⟩ := List.mem_flatten.mp h
  obtain ⟨call, -, hcall⟩ := List.mem_filterMap.mp hgiven
  obtain ⟨entry, hentry, rfl⟩ := Option.map_eq_some_iff.mp hcall
  exact valid_of_entry (Option.filter_eq_some_iff.mp hentry).1 choice hmem

namespace Grammar

/-- Every total is the sum of positive finite weights. -/
theorem summed_build {calls : List (Registration N Binary64)} {name : String}
    {rule : Rule N Binary64} (h : (build calls).rule? name = some rule) :
    rule.Summed ∧ ∀ weight ∈ rule.weights, 0 < weight ∧ Scalar.isFinite weight = true := by
  rw [rule?_build] at h
  split at h
  · exact absurd h (by simp)
  · rw [← Option.some.inj h]
    refine ⟨Rule.summed_empty.extend _, fun weight hweight => ?_⟩
    rw [Rule.weights_extend] at hweight
    obtain ⟨choice, hchoice, rfl⟩ := List.mem_map.mp hweight
    exact Registration.valid_of_given hchoice

/-- Drawing from a rule succeeds but for what makes it barren. -/
theorem draw_of_rule [RandomSource ρ] {g : Grammar N Binary64} {name : String}
    {rule : Rule N Binary64} (hrule : g.rule? name = some rule) (hsummed : rule.Summed)
    (hpos : ∀ weight ∈ rule.weights, 0 < weight) (source : ρ) : g.Draw name source := by
  have hpresent : g.contains name = true := contains_iff.mpr (by simp [hrule])
  have hsum : 0 ≤ rule.totalWeight :=
    hsummed ▸ (Binary64.foldl_bounds (fun w hw => Binary64.le_of_lt (hpos w hw)) (by decide)).1
  have hbody : (g.production name source).1 = (g.sample name source).1.map (·.body) := rfl
  have hmissed : rule.indexFor (unitShare (RandomSource.next source).1) = none →
      rule.Barren (RandomSource.next source).1 → g.Draw name source := fun hindex hbarren => by
    have hsample := sample_of_not_found hrule source hindex
    exact .missed hpresent rule hrule hbarren hsample (by rw [hbody, hsample]; rfl)
  by_cases hchoices : rule.choices = #[]
  · refine hmissed ?_ (.inl hchoices)
    unfold Rule.indexFor Rule.weights
    rw [hchoices]
    rfl
  · rcases Binary64.unitShare_mul_cases hsum (RandomSource.next source).1 with
      ⟨hinfinite, hnan⟩ | ⟨hfinite, hle⟩
    · refine hmissed (Selection.reachedAt_eq_none (fun reached hreached => ?_) _ _) (.inr hinfinite)
      -- What is no number is not below anything.
      rw [Binary64.le_iff, hnan] at hreached
      exact Bool.false_ne_true hreached
    · obtain ⟨choice, hmem, hsample⟩ := exists_sample hrule hsummed hchoices source hle
      exact .found hpresent rule hrule (not_or.mpr ⟨hchoices, hfinite⟩) choice hmem hsample
        (by rw [hbody, hsample]; rfl)

/-- Whatever calls have built a grammar, drawing fails for names without a rule and for rules that
are barren, and nowhere else. -/
theorem draw_of_build [RandomSource ρ] (calls : List (Registration N Binary64)) (name : String)
    (source : ρ) : (build calls).Draw name source := by
  cases hrule : (build calls).rule? name with
  | none =>
    have habsent : (build calls).contains name = false := by
      rw [Bool.eq_false_iff, Ne, contains_iff, hrule]
      exact fun h => h rfl
    have hsample := sample_of_none hrule source
    exact .unknown habsent hsample (by unfold production; rw [hsample]; rfl)
  | some rule =>
    obtain ⟨hsummed, hvalid⟩ := summed_build hrule
    exact draw_of_rule hrule hsummed (fun weight hweight => (hvalid weight hweight).1) source

/-- A rule that no choice was given to. -/
def withoutChoices : Grammar String Binary64 := build [.choice "a" []]

/-- A rule with two weights that add up to infinity. -/
def withHugeWeights : Grammar String Binary64 :=
  build (List.replicate 2 (.defineWeighted "a" (.ofFloat 1e308) .absent))

/-- Rules may have nothing to draw although they are there. -/
theorem draws_nothing :
    (withoutChoices.contains "a" = true ∧ ∀ source : Source,
      (withoutChoices.sample "a" source).1 = .error (.noChoice "a")) ∧
    withHugeWeights.contains "a" = true ∧
      (withHugeWeights.sample "a" (.cycle #[] 0 : Source)).1 = .error (.noChoice "a") := by
  refine ⟨⟨by decide, fun _ => rfl⟩, by decide +kernel, ?_⟩
  have hforgotten : (withHugeWeights.sample "a" (.cycle #[] 0 : Source)).1.map (fun _ => ())
      = .error (.noChoice "a") := by
    decide +kernel
  cases hsample : (withHugeWeights.sample "a" (.cycle #[] 0 : Source)).1 with
  | error failure =>
    rw [hsample] at hforgotten
    rw [Except.error.inj hforgotten]
  | ok choice =>
    rw [hsample] at hforgotten
    exact absurd hforgotten nofun

end Grammar

end Espalier
