import Espalier.Decimal.Numeral

/-!
# Documents

A `Document` is a value written in JSON: a tree of texts, numbers, lists and objects. Objects
keep their entries in order and as often as they were written, and numbers are kept as written,
because what they are read into decides what is allowed of them. An escape can spell half of a
character; a text that contains such a half has no value, and only a reader that ignores the text
accepts it.

`Document.record?` and `Document.variant?` are the two ways in which records and alternatives
are written down.
-/

namespace Espalier

/-- A value written in JSON. -/
inductive Document where
  | null
  | truth (value : Bool)
  | number (value : Decimal.Numeral)
  /-- A text, unless it contains half a character. -/
  | text (value : Option String)
  | list (items : List Document)
  | object (entries : List (Option String × Document))

namespace Document

/-- The values of some fields, in their order. They are written as an object, in which each
field occurs once and other fields only if `others`, or as a list of exactly those values. -/
def record? (fields : List String) (others : Bool) : Document → Option (List Document)
  | .list items => if items.length = fields.length then some items else none
  | .object entries =>
    if entries.any fun (key, _) => key.isNone || !others && !fields.any (key == some ·) then none
    else fields.mapM fun field =>
      match entries.filter fun (key, _) => key == some field with
      | [(_, value)] => some value
      | _ => none
  | _ => none

/-- The name of an alternative and what belongs to it: an object with one entry, or the name
alone. -/
def variant? : Document → Option (String × Option Document)
  | .text (some name) => some (name, none)
  | .object [(some name, value)] => some (name, some value)
  | _ => none

end Document

end Espalier
