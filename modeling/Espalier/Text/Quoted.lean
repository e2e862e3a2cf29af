import Espalier.Text.Unseen

/-!
# Quoted texts

`quoted` writes a text between quotation marks so that it stays on one line: quotation marks,
backslashes and the usual control characters become short escapes, and a character that would
not be seen on its own becomes its number in braces.
-/

namespace Espalier.Text

/-- A character by its number, in hexadecimal digits between braces. -/
def byNumber (c : Char) : String :=
  "\\u\x7b" ++ String.ofList (Nat.toDigits 16 c.toNat) ++ "\x7d"

/-- How a character is written in a quoted text. -/
def quotedChar (c : Char) : String :=
  match c with
  | '"' => "\\\""
  | '\\' => "\\\\"
  | '\n' => "\\n"
  | '\r' => "\\r"
  | '\t' => "\\t"
  | '\x00' => "\\0"
  | c => if isUnseen c then byNumber c else c.toString

def quoted (text : String) : String :=
  "\"" ++ String.join (text.toList.map quotedChar) ++ "\""

end Espalier.Text
