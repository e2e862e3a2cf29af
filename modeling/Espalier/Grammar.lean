import Espalier.Expansion
import Espalier.Failure
import Espalier.Selection
import Std.Data.ExtTreeMap
import Std.Data.ExtTreeSet

/-!
# Grammars

A `Grammar` is a table of rules by name. A rule is a list of weighted choices, one of which is
drawn for each bud that is expanded. Apart from that a name may have a closing production, which
closes the buds left open when a search ends, and it may be declared a detail, which is grown
only after the search.

Every registration changes the entry of one name and nothing else, and one with an invalid
weight changes nothing at all.
-/

namespace Espalier

/-- One way to expand a rule, with its weight. -/
structure Choice (N R : Type) where
  weight : R
  body : Production N

/-- A rule: its choices in the order they were registered and the sum of their weights. -/
structure Rule (N R : Type) where
  totalWeight : R
  choices : Array (Choice N R)

namespace Rule

variable {N R : Type}

def empty [Arithmetic R] : Rule N R := { totalWeight := 0, choices := #[] }

def push [Arithmetic R] (rule : Rule N R) (weight : R) (body : Production N) : Rule N R :=
  { totalWeight := rule.totalWeight + weight, choices := rule.choices.push { weight, body } }

def weights (rule : Rule N R) : List R := rule.choices.toList.map (·.weight)

/-- The first choice at which the weights, added up, reach a share of the total. -/
def indexFor [Arithmetic R] (rule : Rule N R) (share : R) : Option Nat :=
  Selection.reachedAt (share * rule.totalWeight) 0 rule.weights

end Rule

/-- Rules, closing productions and detail declarations by name. -/
structure Grammar (N R : Type) where
  rules : Std.ExtTreeMap String (Rule N R)
  closings : Std.ExtTreeMap String (Production N)
  details : Std.ExtTreeSet String

namespace Grammar

variable {N R ρ : Type}

def empty : Grammar N R := { rules := ∅, closings := ∅, details := ∅ }

/-! ## Registration -/

/-- Adds choices to a rule, which is created if it is new. -/
def addChoices [Arithmetic R] (g : Grammar N R) (name : String)
    (choices : List (R × Production N)) : Grammar N R :=
  let rule := choices.foldl (fun rule choice => rule.push choice.1 choice.2)
    (g.rules[name]?.getD .empty)
  { g with rules := g.rules.insert name rule }

def define [Arithmetic R] (g : Grammar N R) (name : String) (body : Production N) :
    Grammar N R :=
  g.addChoices name [(1, body)]

/-- Adds a choice of a given weight, which has to be a positive finite number. The weight is looked
at first, so a call that is refused leaves the grammar as it is. -/
def defineWeighted [Scalar R] (g : Grammar N R) (name : String) (weight : R)
    (body : Production N) : Except (Failure R) Unit × Grammar N R :=
  if 0 < weight ∧ Scalar.isFinite weight then (.ok (), g.addChoices name [(weight, body)])
  else (.error (.invalidWeight name weight), g)

/-- Adds a production and its absence, equally likely. -/
def maybe [Arithmetic R] (g : Grammar N R) (name : String) (body : Production N) :
    Grammar N R :=
  g.addChoices name [(1, body), (1, .absent)]

/-- Adds productions that are equally likely. Without any, the rule is created all the same. -/
def choice [Arithmetic R] (g : Grammar N R) (name : String) (bodies : List (Production N)) :
    Grammar N R :=
  g.addChoices name (bodies.map fun body => (1, body))

/-- Sets the closing production of a name, in place of any earlier one. -/
def close (g : Grammar N R) (name : String) (body : Production N) : Grammar N R :=
  { g with closings := g.closings.insert name body }

def closeAll (g : Grammar N R) (names : List String) (body : Production N) : Grammar N R :=
  names.foldl (fun g name => g.close name body) g

def detail (g : Grammar N R) (name : String) : Grammar N R :=
  { g with details := g.details.insert name }

def detailAll (g : Grammar N R) (names : List String) : Grammar N R :=
  names.foldl detail g

/-! ## Queries -/

def rule? (g : Grammar N R) (name : String) : Option (Rule N R) := g.rules[name]?

def contains (g : Grammar N R) (name : String) : Bool := g.rules.contains name

/-- The names of all rules, sorted. -/
def ruleNames (g : Grammar N R) : List String := g.rules.keys

def isDetail (g : Grammar N R) (name : String) : Bool := g.details.contains name

def hasClosing (g : Grammar N R) (name : String) : Bool := g.closings.contains name

/-- The names of the rules that could not be closed when a search ends, sorted. -/
def rulesWithoutClosing (g : Grammar N R) : List String :=
  g.ruleNames.filter fun name => !g.isDetail name && !g.hasClosing name

/-- Draws the index of a choice in proportion to the weights. Nothing is drawn for a rule that
is not defined. -/
def sampleIndex [Arithmetic R] [RandomSource ρ] (g : Grammar N R) (name : String) (source : ρ) :
    Except (Failure R) Nat × ρ :=
  match g.rule? name with
  | none => (.error (.unknownRule name), source)
  | some rule =>
    let (share, source) := drawShare source
    match rule.indexFor share with
    | none => (.error (.noChoice name), source)
    | some index => (.ok index, source)

/-- Draws a choice in proportion to the weights. -/
def sample [Arithmetic R] [RandomSource ρ] (g : Grammar N R) (name : String) (source : ρ) :
    Except (Failure R) (Choice N R) × ρ :=
  match g.sampleIndex name source with
  | (.error failure, source) => (.error failure, source)
  | (.ok index, source) =>
    match (g.rule? name).bind (·.choices[index]?) with
    | none => (.error (.noChoice name), source)
    | some choice => (.ok choice, source)

/-- Draws a production in proportion to the weights. -/
def production [Arithmetic R] [RandomSource ρ] (g : Grammar N R) (name : String) (source : ρ) :
    Except (Failure R) (Production N) × ρ :=
  let (result, source) := g.sample name source
  (result.map (·.body), source)

def closingFor (g : Grammar N R) (name : String) : Except (Failure R) (Production N) :=
  match g.closings[name]? with
  | none => .error (.missingClosing name)
  | some body => .ok body

end Grammar

end Espalier
