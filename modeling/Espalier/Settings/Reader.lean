import Espalier.Settings
import Espalier.Settings.Lexeme

/-!
# Reading settings files

`Settings.ofText?` reads the text of a settings file: a record in parentheses, which may be named,
with its fields in any order. Fields it does not know are skipped, whatever value they have; a
field that occurs twice, or a needed one that does not occur, makes the file invalid.

Values nest at most 128 levels deep, where a list and each of its items count as one level each.
The readers of nested parts carry what is left of that as `depth`, and a `bound` on how many of
their calls are open at a time: one for each item before, and a few for each level.
-/

namespace Espalier.Settings

/-- What a file asks for at its start. -/
structure Options where
  /-- An optional value may be written as the value alone after its mark. -/
  implicitSome : Bool
  /-- What an optional value consists of may be written without parentheses of its own. -/
  bareContent : Bool
  /-- A record has to be named. -/
  namedRecords : Bool

/-- What a file that asks for nothing gets. -/
def Options.standard : Options :=
  { implicitSome := false, bareContent := false, namedRecords := false }

/-- Takes a text and the blanks after it. -/
def expectSpaced (text : String) : Reader Unit := do
  expect text
  blanks

def deeper (depth : Nat) : Reader Nat := if depth = 0 then failure else return depth - 1

/-! ## Skipping values -/

/-- The suffixes of whole numbers, with the bits of their types and whether these have a sign. -/
def wholeTypes : List (String × Nat × Bool) :=
  [("i8", 8, true), ("i16", 16, true), ("i32", 32, true), ("i64", 64, true),
   ("u8", 8, false), ("u16", 16, false), ("u32", 32, false), ("u64", 64, false)]

/-- Whether a whole number fits into the type of its suffix. Without one, a negative number has
to fit into 64 bits with a sign and any other number into 64 bits without. -/
def fits (negative : Bool) (size : Nat) (suffix : Option String) : Bool :=
  let (bits, signed) := match wholeTypes.find? fun (name, _) => suffix == some name with
    | some (_, bits, signed) => (bits, signed)
    | none => (64, negative)
  if signed then if negative then size ≤ 1 <<< (bits - 1) else size < 1 <<< (bits - 1)
  else size < 1 <<< bits && !(negative && size ≠ 0)

/-- Skips a whole number that fits into its type. -/
def skipWhole : Reader Unit := do
  let (negative, size, suffix) ← whole (wholeTypes.map (·.1))
  guard (fits negative size suffix)

/-- Skips a number of any type, a byte included. What is no whole number may still be another
one. -/
def skipNumber : Reader Unit := do
  if ← comes "b'" then let _ ← byte
  else
    let unsigned := match ← get with
      | '+' :: cs | '-' :: cs => cs
      | cs => cs
    let skipOther : Reader Unit := do let _ ← number ["f32", "f64"]
    if (unsigned.takeWhile isDigitPart).length < (numberPart unsigned).1.length then skipOther
    else skipWhole <|> skipOther

def numberComes : Reader Bool := do
  let words := ["inf", "inff32", "inff64", "NaN", "NaNf32", "NaNf64"]
  let cs ← get
  let word ← words.anyM acceptWord
  set cs
  return word || cs.head?.any (fun c => c.isDigit || "+-.".contains c) || (← comes "b'")

/-- Skips two points and the upper end of a range. The end may be left out, unless it is said to
be included. -/
def skipUpperEnd : Reader Unit := do
  expect ".."
  let included ← accept "="
  blanks
  if ← numberComes then skipNumber else guard !included

/-- Skips a number or a range, either end of which may be left out. -/
def skipNumbers : Reader Unit := do
  if ← comes ".." then skipUpperEnd
  else
    skipNumber
    blanks
    if ← comes ".." then skipUpperEnd

/-- What stands in parentheses that may be left out around it. -/
inductive Content where
  | fields
  /-- No value or several. -/
  | items
  | single
deriving DecidableEq

/-- Skips what could hide a bracket or a comma: a character, a text and a text of bytes. -/
def skipQuotations : Reader Unit := do
  let attempt {α : Type} (r : Reader α) : Reader Unit := (do let _ ← r) <|> pure ()
  attempt character
  attempt text
  attempt byteText

/-- Whether a comma and another value follow on a level of brackets before it is closed, `level`
being one more than the brackets opened since. -/
def severalCome : (bound level : Nat) → Reader Bool
  | 0, _ => failure
  | bound + 1, level => do
    blanks
    skipQuotations
    let c ← take
    if ['(', '[', '\x7b'].contains c then severalCome bound (level + 1)
    else if [')', ']', '\x7d'].contains c then
      if level ≤ 1 then return false else severalCome bound (level - 1)
    else if c = ',' && level = 1 then
      blanks
      return (← peek?) ≠ some ')'
    else severalCome bound level

/-- What stands before the closing parenthesis that belongs to it. Nothing is taken. -/
def contentComes : Reader Content := do
  let cs ← get
  blanks
  let content : Content ← if (← peek?) = some ')' then pure .items
    else
      let named := (← name?).isSome
      if named then blanks
      if named && (← peek?) = some ':' then pure .fields
      else if ← severalCome (cs.length + 1) 1 then pure .items
      else pure .single
  set cs
  return content

/-- Whether the parenthesis that comes next opens a list of named fields. -/
def fieldsCome : Reader Bool := do
  let cs ← get
  let _ ← take
  blanks
  let named := (← name?).isSome
  if named then blanks
  let colon := (← peek?) = some ':'
  set cs
  return named && colon

mutual

def skipValue (o : Options) : (bound depth : Nat) → Reader Unit
  | 0, _ => failure
  | bound + 1, depth => do
    if ← ["true", "false"].anyM acceptWord then return
    if ← acceptWord "Some" then
      blanks
      if ← accept "(" then
        blanks
        let inner ← deeper depth
        if o.bareContent then skipContent o bound inner else skipValue o bound inner
        let _ ← comma
        expect ")"
      else
        guard o.implicitSome
        skipValue o bound (← deeper depth)
      return
    if ← acceptWord "None" then return
    if ← accept "()" then return
    if ← numberComes then
      skipNumbers
      return
    if (← name?).isSome then
      blanks
      if (← peek?) = some '(' then skipGroup o bound depth
      return
    match ← peek? with
    | some '(' => skipGroup o bound depth
    | some '[' =>
      let _ ← take
      skipItems o bound (← deeper depth) ']'
      expect "]"
    | some '{' =>
      let _ ← take
      skipEntries o bound (← deeper depth) false '\x7d'
      expect "\x7d"
    | some '"' | some 'r' => let _ ← text
    | some '\'' => let _ ← character
    | some 'b' => let _ ← byteText
    | _ => failure
termination_by structural bound => bound

def skipGroup (o : Options) : (bound depth : Nat) → Reader Unit
  | 0, _ => failure
  | bound + 1, depth => do
    let named ← fieldsCome
    let _ ← take
    let inner ← deeper depth
    if named then skipEntries o bound inner true ')' else skipItems o bound inner ')'
    expect ")"
termination_by structural bound => bound

/-- Skips what stands in parentheses that were left out, up to the closing parenthesis after
it. -/
def skipContent (o : Options) : (bound depth : Nat) → Reader Unit
  | 0, _ => failure
  | bound + 1, depth => do
    match ← contentComes with
    | .fields => skipEntries o bound (← deeper depth) true ')'
    | .items => skipItems o bound (← deeper depth) ')'
    | .single => skipValue o bound depth
termination_by structural bound => bound

/-- Skips items up to a closing mark, which is not taken. -/
def skipItems (o : Options) : (bound depth : Nat) → (close : Char) → Reader Unit
  | 0, _, _ => failure
  | bound + 1, depth, close => do
    blanks
    if (← peek?) = some close then return
    skipValue o bound (← deeper depth)
    if ← comma then skipItems o bound depth close
    else guard ((← peek?) = some close)
termination_by structural bound => bound

/-- Skips entries, whose keys are names or any values, up to a closing mark, which is not
taken. -/
def skipEntries (o : Options) : (bound depth : Nat) → (named : Bool) → (close : Char) →
    Reader Unit
  | 0, _, _, _ => failure
  | bound + 1, depth, named, close => do
    blanks
    if (← peek?) = some close then return
    let inner ← deeper depth
    if named then let _ ← name
    else skipValue o bound inner
    blanks
    expectSpaced ":"
    skipValue o bound inner
    if ← comma then skipEntries o bound depth named close
    else guard ((← peek?) = some close)
termination_by structural bound => bound

end

/-- Skips a value that is `used` levels deep. -/
def skip (o : Options) (used : Nat) : Reader Unit := do
  skipValue o ((← get).length + 4 * 128) (128 - used)

/-! ## Records -/

/-- Takes the fields of a record, with its parentheses, and lets `field` take the value of each. -/
def fieldsFrom {α : Type} (field : String → α → Reader α) : (bound : Nat) → α → Reader α
  | 0, _ => failure
  | bound + 1, a => do
    blanks
    if (← peek?) = some ')' then return a
    let key ← name
    blanks
    expectSpaced ":"
    let a ← field key a
    if ← comma then fieldsFrom field bound a
    else
      guard ((← peek?) = some ')')
      return a

def record {α : Type} (field : String → α → Reader α) (start : α) : Reader α := do
  expect "("
  let a ← fieldsFrom field ((← get).length + 1) start
  expect ")"
  return a

/-- Sets a field that has not been set. -/
def once {α : Type} (field : Option α) (value : Reader α) : Reader (Option α) := do
  guard field.isNone
  return some (← value)

/-! ## Schedules -/

/-- Takes numbers up to a closing bracket, which is not taken. -/
def doubles : (bound : Nat) → Reader (List Binary64)
  | 0 => failure
  | bound + 1 => do
    blanks
    if (← peek?) = some ']' then return []
    let x ← double
    if ← comma then return x :: (← doubles bound)
    else
      guard ((← peek?) = some ']')
      return [x]

/-- Takes what belongs to an alternative, in parentheses. -/
def enclosed {α : Type} (content : Reader α) : Reader α := do
  expectSpaced "("
  let a ← content
  let _ ← comma
  expect ")"
  return a

def ends (o : Options) : Reader (Binary64 × Binary64) := do
  let field (key : String) (a : Option Binary64 × Option Binary64) :
      Reader (Option Binary64 × Option Binary64) := do
    match key with
    | "start" => return (← once a.1 double, a.2)
    | "end" => return (a.1, ← once a.2 double)
    | _ =>
      skip o 5
      return a
  match ← record field (none, none) with
  | (some start, some stop) => return (start, stop)
  | _ => failure

def schedule (o : Options) : Reader (Schedule Binary64) := do
  let alternative ← name
  blanks
  match alternative with
  | "Constant" => return .constant (← enclosed double)
  | "Linear" =>
    let (start, stop) ← ends o
    return .linear start stop
  | "Explicit" =>
    let values ← enclosed do
      expect "["
      let values ← doubles ((← get).length + 1)
      expect "]"
      return values
    return .explicit values
  | _ => failure

/-! ## Settings -/

/-- The fields of settings as far as they have been read. -/
structure Draft where
  start : Option String
  generations : Option Nat
  sampleCount : Option (Schedule Binary64)
  heuristicScale : Option (Schedule Binary64)
  burstMilliseconds : Option Binary64
  seed : Option Nat

def Draft.empty : Draft :=
  { start := none, generations := none, sampleCount := none, heuristicScale := none,
    burstMilliseconds := none, seed := none }

def Draft.take (o : Options) (key : String) (d : Draft) : Reader Draft := do
  match key with
  | "start_rule" => return { d with start := ← once d.start text }
  | "generations" => return { d with generations := ← once d.generations word }
  | "sample_count" => return { d with sampleCount := ← once d.sampleCount (schedule o) }
  | "heuristic_scale" => return { d with heuristicScale := ← once d.heuristicScale (schedule o) }
  | "burst_budget_ms" =>
    return { d with burstMilliseconds := ← once d.burstMilliseconds double }
  | "seed" => return { d with seed := ← once d.seed word }
  | _ =>
    skip o 2
    return d

/-- The settings, once all that is needed has been read. Without a scale the heuristic does not
count, a burst takes eight milliseconds and the seed is zero. -/
def Draft.settings? (d : Draft) : Option Settings := do
  return { start := ← d.start
           generations := ← d.generations
           sampleCount := ← d.sampleCount
           heuristicScale := d.heuristicScale.getD (.constant 0)
           burstMilliseconds := d.burstMilliseconds.getD (Binary64.ofNat 8)
           seed := (d.seed.getD 0).toUInt64 }

/-- Takes the names in an attribute and adds what they ask for. -/
def optionNames : (bound : Nat) → Options → Reader Options
  | 0, _ => failure
  | bound + 1, o => do
    let o ← match ← name with
      | "implicit_some" => pure { o with implicitSome := true }
      | "unwrap_variant_newtypes" => pure { o with bareContent := true }
      | "explicit_struct_names" => pure { o with namedRecords := true }
      | "unwrap_newtypes" => pure o
      | _ => failure
    let more ← comma
    let another := (← peek?).any Text.isNameStart
    if another then
      guard more
      optionNames bound o
    else return o

/-- Takes an attribute without the marks around it. One names a type or a schema of the file, which
nothing depends on; the other asks for something. -/
def oneAttribute (o : Options) : Reader Options := do
  if ← ["type", "schema"].anyM accept then
    blanks
    expectSpaced "="
    let _ ← text
    blanks
    return o
  else
    expectSpaced "enable"
    expectSpaced "("
    let o ← optionNames ((← get).length + 1) o
    blanks
    expectSpaced ")"
    return o

/-- Takes the attributes at the start of a file. -/
def attributes : (bound : Nat) → Options → Reader Options
  | 0, _ => failure
  | bound + 1, o => do
    if (← peek?) ≠ some '#' then return o
    expectSpaced "#"
    expectSpaced "!"
    expectSpaced "["
    let o ← oneAttribute o
    expectSpaced "]"
    attributes bound o

def file : Reader Settings := do
  blanks
  let o ← attributes ((← get).length + 1) .standard
  if (← peek?).any Text.isNamePart then
    guard ((← name) = "GrowthSettingsAsset")
    blanks
  else guard !o.namedRecords
  match (← record (Draft.take o) .empty).settings? with
  | none => failure
  | some settings =>
    blanks
    guard (← get).isEmpty
    return settings

def ofText? (text : String) : Option Settings := (file.run text.toList).map (·.1)

/-- The settings that the bytes of a file spell. -/
def ofBytes? (bytes : ByteArray) : Option Settings := (String.fromUTF8? bytes).bind ofText?

end Espalier.Settings
