import Espalier.Decimal.Numeral
import Espalier.Document.Reader
import Espalier.Number.Binary64
import Espalier.Text.Name

/-!
# Parts of settings files

A `Reader` takes something from the front of the characters that are left, or fails. Here are the
readers of the smallest parts of a settings file: blanks and comments, names, numbers and texts.
-/

namespace Espalier.Settings

/-- Takes something from the front of some characters. -/
abbrev Reader := StateT (List Char) Option

/-! ## Characters -/

/-- The next character, which is not taken. -/
def peek? : Reader (Option Char) := do return (← get).head?

def take : Reader Char := do
  match ← get with
  | [] => failure
  | c :: rest =>
    set rest
    return c

def comes (text : String) : Reader Bool := do return text.toList.isPrefixOf (← get)

/-- Takes a given text if it comes next. -/
def accept (text : String) : Reader Bool := do
  let found ← comes text
  if found then modify (·.drop text.length)
  return found

def expect (text : String) : Reader Unit := do guard (← accept text)

/-- Takes characters as long as they are of a class. -/
def takeWhile (belongs : Char → Bool) : Reader (List Char) := do
  let (taken, rest) := (← get).span belongs
  set rest
  return taken

/-! ## Blanks -/

def isBlank (c : Char) : Bool :=
  c == ' ' || (0x09 ≤ c.toNat && c.toNat ≤ 0x0d) || c.toNat == 0x85
    || [0x200e, 0x200f, 0x2028, 0x2029].contains c.toNat

/-- The comment that characters stand in. -/
inductive Comment where
  | none
  | line
  /-- One inside which so many comments are open, itself included. -/
  | block (level : Nat)

/-- What follows blanks and comments, the first of which may have begun before. -/
def afterBlanks? : Comment → List Char → Option (List Char)
  | .block _, [] => none
  | _, [] => some []
  | .none, '/' :: '/' :: rest => afterBlanks? .line rest
  | .none, '/' :: '*' :: rest => afterBlanks? (.block 1) rest
  | .none, '/' :: _ => none
  | .none, c :: rest => if isBlank c then afterBlanks? .none rest else some (c :: rest)
  | .line, c :: rest => afterBlanks? (if c = '\n' then .none else .line) rest
  | .block level, '/' :: '*' :: rest => afterBlanks? (.block (level + 1)) rest
  | .block level, '*' :: '/' :: rest =>
    afterBlanks? (if level ≤ 1 then .none else .block (level - 1)) rest
  | .block level, _ :: rest => afterBlanks? (.block level) rest

def blanks : Reader Unit := do
  match afterBlanks? .none (← get) with
  | none => failure
  | some rest => set rest

/-- Takes a comma, if one comes next, and the blanks around it. -/
def comma : Reader Bool := do
  blanks
  let found ← accept ","
  if found then blanks
  return found

/-! ## Names -/

/-- Whether a character may stand in a name that is marked as one. -/
def isMarkedNamePart (c : Char) : Bool :=
  c == '.' || c == '+' || c == '-' || Text.isNamePart c

/-- Takes a word if it comes next and no longer name does. -/
def acceptWord (word : String) : Reader Bool := do
  let rest := (← get).drop word.length
  if (← comes word) && !rest.head?.any Text.isNamePart then
    set rest
    return true
  else return false

/-- Whether a text, a text without escapes or a text of bytes comes next, which start with a
letter. -/
def textComes : Reader Bool := do
  let cs ← get
  return ["b\"", "b'", "br#", "br\"", "r\"", "r#\"", "r##"].any (·.toList.isPrefixOf cs)

/-- Takes a name of any kind, if one comes next. -/
def name? : Reader (Option String) := do
  if ← textComes then return none
  if ← comes "r#" then
    let marked := ((← get).drop 2).takeWhile isMarkedNamePart
    if marked.isEmpty then return none
    modify (·.drop (2 + marked.length))
    return some (String.ofList marked)
  match ← peek? with
  | some c =>
    if Text.isNameStart c then
      let _ ← take
      return some (String.ofList (c :: (← takeWhile Text.isNamePart)))
    else return none
  | none => return none

/-- Takes a name. One that goes on with a point or a sign has to be marked. -/
def name : Reader String := do
  let marked ← comes "r#"
  match ← name? with
  | none => failure
  | some name =>
    if !marked && (← peek?).any isMarkedNamePart then failure
    return name

/-! ## Numbers -/

/-- Whether a character may stand in digits of any base. -/
def isDigitPart (c : Char) : Bool := (Document.hexDigit? c).isSome || c == '_'

/-- Whether a character may stand in a number with a point or an exponent. -/
def isNumberPart (c : Char) : Bool := c.isDigit || "eE.+-_".contains c

/-- Splits off a number with a point or an exponent. Two points in a row end it. -/
def numberPart : List Char → List Char × List Char
  | [] => ([], [])
  | '.' :: '.' :: rest => ([], '.' :: '.' :: rest)
  | c :: rest =>
    if isNumberPart c then
      let (part, rest) := numberPart rest
      (c :: part, rest)
    else ([], c :: rest)

/-- Drops the underscores from a number. They may not stand at its start nor after its point. -/
def withoutUnderscores (allowed : Bool) : List Char → Option (List Char)
  | [] => some []
  | '_' :: rest => if allowed then withoutUnderscores allowed rest else none
  | c :: rest =>
    let allowed := if c.isDigit || c == 'e' || c == 'E' then true
      else if c == '.' then false else allowed
    (withoutUnderscores allowed rest).map (c :: ·)

/-- The number written by a whole text: there is a digit before or after the point. -/
def numeral? (cs : List Char) : Option Decimal.Numeral :=
  let (negative, cs) := match cs with
    | '-' :: cs => (true, cs)
    | '+' :: cs => (false, cs)
    | cs => (false, cs)
  let (whole, rest) := cs.span Char.isDigit
  let digitAfter := match rest with
    | '.' :: c :: _ => c.isDigit
    | _ => false
  if whole.isEmpty && !digitAfter then none
  else match Decimal.Numeral.takeRest negative whole rest with
    | some (numeral, []) => some numeral
    | _ => none

def numberWords : List (String × Binary64) :=
  let nan : Binary64 := ⟨0x7ff8000000000000⟩
  [("inf", .infinity), ("+inf", .infinity), ("-inf", Binary64.infinity.neg), ("NaN", nan),
   ("+NaN", nan), ("-NaN", nan.neg)]

/-- Takes a value written as a word, if one comes next. -/
def numberWord? (suffixes : List String) : List (String × Binary64) → Reader (Option Binary64)
  | [] => return none
  | (word, value) :: words => do
    if ← ("" :: suffixes).anyM fun suffix => acceptWord (word ++ suffix) then return some value
    numberWord? suffixes words

/-- Takes a number, which may be followed by one of some suffixes. -/
def number (suffixes : List String) : Reader Binary64 := do
  match ← numberWord? suffixes numberWords with
  | some value => return value
  | none =>
    let (part, rest) := numberPart (← get)
    set rest
    match (withoutUnderscores false part).bind numeral? with
    | none => failure
    | some numeral =>
      let _ ← suffixes.anyM acceptWord
      return .ofNumeral numeral

/-- Takes a number in double precision. The suffix of single precision is refused. -/
def double : Reader Binary64 := do
  let value ← number ["f64"]
  guard !(← acceptWord "f32")
  return value

/-- Takes digits of a base, with underscores between them. -/
def digits (base : Nat) : Reader Nat := do
  match ← takeWhile isDigitPart with
  | [] | '_' :: _ => failure
  | written =>
    match (written.filter (· ≠ '_')).foldlM
        (fun n c => ((Document.hexDigit? c).filter (· < base)).map (base * n + ·)) 0 with
    | none => failure
    | some n => return n

/-- Takes a whole number with its sign: whether it is negative, its size and its suffix. -/
def whole (suffixes : List String) : Reader (Bool × Nat × Option String) := do
  let negative ← accept "-"
  if !negative then let _ ← accept "+"
  let size ← if ← accept "0b" then digits 2
    else if ← accept "0o" then digits 8
    else if ← accept "0x" then digits 16
    else digits 10
  return (negative, size, ← suffixes.findM? acceptWord)

/-- Takes a count that fits into a word. -/
def word : Reader Nat := do
  let (negative, size, _) ← whole ["u64"]
  guard (size < UInt64.size && !(negative && size ≠ 0))
  return size

/-! ## Texts -/

def octet : Reader Nat := do
  match Document.hexValue? [← take, ← take] with
  | none => failure
  | some n => return n

/-- Takes further octets, each after its mark, until together they encode a character. -/
def encoded : (left : Nat) → (octets : List Nat) → Reader Char
  | left, octets => do
    match (String.fromUTF8? ⟨(octets.map Nat.toUInt8).toArray⟩).bind (·.toList.head?) with
    | some c => return c
    | none =>
      match left with
      | 0 => failure
      | left + 1 =>
        expect "\\x"
        encoded left (octets ++ [← octet])

/-- Takes up to so many hexadecimal digits before a closing brace. -/
def codeDigits : (left n : Nat) → Reader Nat
  | 0, n => return n
  | left + 1, n => do
    if (← peek?) = some '\x7d' then return n
    match Document.hexDigit? (← take) with
    | none => failure
    | some d => codeDigits left (16 * n + d)

/-- What an escape may be part of. -/
inductive Quotation where
  | text
  | character
  /-- A text of bytes, or a single byte. -/
  | bytes
deriving DecidableEq

def escape (quotation : Quotation) : Reader Char := do
  match ← take with
  | '\'' => return '\''
  | '"' => return '"'
  | '\\' => return '\\'
  | 'n' => return '\n'
  | 'r' => return '\r'
  | 't' => return '\t'
  | '0' => return '\x00'
  | 'x' =>
    let first ← octet
    match quotation with
    | .text => encoded 3 [first]
    | .character => encoded 0 [first]
    | .bytes => return Char.ofNat first
  | 'u' =>
    expect "\x7b"
    guard ((← peek?) ≠ some '\x7d')
    let code ← codeDigits 6 0
    expect "\x7d"
    guard (code < 0xd800 || (0xe000 ≤ code && code < 0x110000))
    return Char.ofNat code
  | _ => failure

/-- Takes the end of a line, if one comes next, and the blanks after it. A backslash before it
hides them. -/
def lineEnd : Reader Bool := do
  if ← ["\n", "\r\n"].anyM accept then
    let _ ← takeWhile isBlank
    return true
  else return false

/-- Takes the characters of a text up to its closing quotation mark, at most `bound` of them. -/
def quotedPart (quotation : Quotation) : (bound : Nat) → String → Reader String
  | 0, _ => failure
  | bound + 1, text => do
    match ← take with
    | '"' => return text
    | '\\' =>
      if ← lineEnd then quotedPart quotation bound text
      else quotedPart quotation bound (text.push (← escape quotation))
    | c => quotedPart quotation bound (text.push c)

/-- Takes a text after its opening quotation mark. -/
def quoted (quotation : Quotation) : Reader String := do
  quotedPart quotation ((← get).length + 1) ""

/-- Takes a text without escapes up to a closing mark. -/
def rawPart (close : List Char) : List Char → String → Option (String × List Char)
  | [], _ => none
  | c :: rest, text =>
    if close.isPrefixOf (c :: rest) then some (text, (c :: rest).drop close.length)
    else rawPart close rest (text.push c)

/-- Takes a text without escapes after the letter that announces it: a quotation mark with any
number of hashes on either side. -/
def raw : Reader String := do
  let hashes ← takeWhile (· == '#')
  expect "\""
  match rawPart ('"' :: hashes) (← get) "" with
  | none => failure
  | some (text, rest) =>
    set rest
    return text

def text : Reader String := do
  if ← accept "\"" then quoted .text
  else
    expect "r"
    raw

def byteText : Reader String := do
  if ← accept "b\"" then quoted .bytes
  else
    expect "br"
    raw

def character : Reader Char := do
  expect "'"
  let c ← take
  let c ← if c = '\\' then escape .character else pure c
  expect "'"
  return c

/-- Takes a single byte between its marks. Without an escape it is a character of one byte. -/
def byte : Reader Char := do
  expect "b'"
  guard !(← comes "\\u")
  let c ← take
  let c ← if c = '\\' then escape .bytes
    else
      guard (c.toNat < 0x80)
      pure c
  expect "'"
  return c

end Espalier.Settings
