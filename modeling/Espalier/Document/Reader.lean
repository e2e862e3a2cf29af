import Espalier.Document

/-!
# Reading documents

`Document.ofText?` reads a whole text as one document. The functions below each take what they
read from the front of a list of characters and return the rest. Values nest, so `takeValue` and
its companions carry a bound on the depth of calls; every call takes a character first, which
makes the number of characters enough.
-/

namespace Espalier.Document

/-- Whether a character may stand between the parts of a document. -/
def isBlank (c : Char) : Bool := c == ' ' || c == '\n' || c == '\r' || c == '\t'

def skipBlanks (cs : List Char) : List Char := cs.dropWhile isBlank

/-! ## Texts -/

/-- A part of a written text: a character, or the code of an escape, which may be half of one. -/
inductive Piece where
  | char (c : Char)
  | code (unit : Nat)

def hexDigit? (c : Char) : Option Nat :=
  if c.isDigit then some (c.toNat - '0'.toNat)
  else if 'a' ≤ c ∧ c ≤ 'f' then some (c.toNat - 'a'.toNat + 10)
  else if 'A' ≤ c ∧ c ≤ 'F' then some (c.toNat - 'A'.toNat + 10)
  else none

def hexValue? (cs : List Char) : Option Nat :=
  cs.foldlM (fun n c => (hexDigit? c).map (16 * n + ·)) 0

/-- The character that a letter stands for after a backslash. -/
def escaped? : Char → Option Char
  | '"' => some '"'
  | '\\' => some '\\'
  | '/' => some '/'
  | 'b' => some '\x08'
  | 'f' => some '\x0c'
  | 'n' => some '\n'
  | 'r' => some '\r'
  | 't' => some '\t'
  | _ => none

/-- Takes the pieces of a text up to its closing quote. -/
def takePieces : List Char → Array Piece → Option (Array Piece × List Char)
  | [], _ => none
  | '"' :: rest, pieces => some (pieces, rest)
  | '\\' :: 'u' :: a :: b :: c :: d :: rest, pieces =>
    match hexValue? [a, b, c, d] with
    | none => none
    | some unit => takePieces rest (pieces.push (.code unit))
  | '\\' :: c :: rest, pieces =>
    match escaped? c with
    | none => none
    | some c => takePieces rest (pieces.push (.char c))
  | c :: rest, pieces =>
    if c.toNat < 0x20 || c == '\\' then none else takePieces rest (pieces.push (.char c))

/-- Whether a code is the first half of a character. -/
def isHighHalf (unit : Nat) : Bool := 0xD800 ≤ unit && unit < 0xDC00

/-- Whether a code is the second half of a character. -/
def isLowHalf (unit : Nat) : Bool := 0xDC00 ≤ unit && unit < 0xE000

/-- The text that pieces spell, unless half a character is left over. -/
def spell : List Piece → String → Option String
  | [], spelled => some spelled
  | .char c :: pieces, spelled => spell pieces (spelled.push c)
  | .code high :: .code low :: pieces, spelled =>
    if isHighHalf high then
      if isLowHalf low then
        spell pieces (spelled.push (Char.ofNat (0x10000 + (high - 0xD800) * 1024 + (low - 0xDC00))))
      else none
    else if isLowHalf high then none
    else spell (.code low :: pieces) (spelled.push (Char.ofNat high))
  | .code unit :: pieces, spelled =>
    if isHighHalf unit || isLowHalf unit then none
    else spell pieces (spelled.push (Char.ofNat unit))

def takeText (cs : List Char) : Option (Option String × List Char) :=
  (takePieces cs #[]).map fun (pieces, rest) => (spell pieces.toList "", rest)

/-! ## Numbers -/

/-- Takes a number: digits without a needless zero in front, and digits after any point. -/
def takeNumber (cs : List Char) : Option (Decimal.Numeral × List Char) :=
  let (negative, cs) := match cs with
    | '-' :: cs => (true, cs)
    | cs => (false, cs)
  let (whole, rest) := cs.span Char.isDigit
  match whole, rest with
  | [], _ => none
  | '0' :: _ :: _, _ => none
  | _, '.' :: c :: _ => if c.isDigit then Decimal.Numeral.takeRest negative whole rest else none
  | _, ['.'] => none
  | _, _ => Decimal.Numeral.takeRest negative whole rest

/-! ## Values -/

mutual

def takeValue : (bound : Nat) → List Char → Option (Document × List Char)
  | 0, _ => none
  | bound + 1, cs =>
    match cs with
    | 'n' :: 'u' :: 'l' :: 'l' :: rest => some (.null, rest)
    | 't' :: 'r' :: 'u' :: 'e' :: rest => some (.truth true, rest)
    | 'f' :: 'a' :: 'l' :: 's' :: 'e' :: rest => some (.truth false, rest)
    | '"' :: rest => (takeText rest).map fun (content, rest) => (.text content, rest)
    | '[' :: rest =>
      match skipBlanks rest with
      | ']' :: rest => some (.list [], rest)
      | rest => takeItems bound rest #[]
    | '{' :: rest =>
      match skipBlanks rest with
      | '}' :: rest => some (.object [], rest)
      | rest => takeEntries bound rest #[]
    | cs => (takeNumber cs).map fun (numeral, rest) => (.number numeral, rest)

/-- Takes the items of a list up to its closing bracket, from an item on. -/
def takeItems : (bound : Nat) → List Char → Array Document → Option (Document × List Char)
  | 0, _, _ => none
  | bound + 1, cs, items =>
    match takeValue bound (skipBlanks cs) with
    | none => none
    | some (item, rest) =>
      match skipBlanks rest with
      | ',' :: rest => takeItems bound rest (items.push item)
      | ']' :: rest => some (.list (items.push item).toList, rest)
      | _ => none

/-- Takes the entries of an object up to its closing brace, from an entry on. -/
def takeEntries : (bound : Nat) → List Char → Array (Option String × Document) →
    Option (Document × List Char)
  | 0, _, _ => none
  | bound + 1, cs, entries =>
    match skipBlanks cs with
    | '"' :: rest =>
      match takeText rest with
      | none => none
      | some (key, rest) =>
        match skipBlanks rest with
        | ':' :: rest =>
          match takeValue bound (skipBlanks rest) with
          | none => none
          | some (value, rest) =>
            match skipBlanks rest with
            | ',' :: rest => takeEntries bound rest (entries.push (key, value))
            | '}' :: rest => some (.object (entries.push (key, value)).toList, rest)
            | _ => none
        | _ => none
    | _ => none

end

def ofText? (text : String) : Option Document :=
  let cs := text.toList
  match takeValue (cs.length + 1) (skipBlanks cs) with
  | some (value, rest) => if (skipBlanks rest).isEmpty then some value else none
  | none => none

end Espalier.Document
