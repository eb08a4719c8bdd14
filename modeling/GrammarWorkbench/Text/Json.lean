/-!
# JSON text

Compact JSON: no blanks, and in strings only what has to be escaped is escaped.
That is the quote, the backslash and the control characters below U+0020, of which
five have a short form and the others are written with their number. All other
characters stand for themselves.
-/

namespace GrammarWorkbench.Text.Json

/-- A character as it stands inside a string. -/
def escapeChar (c : Char) : List Char :=
  if c = '"' then ['\\', '"']
  else if c = '\\' then ['\\', '\\']
  else if c = '\n' then ['\\', 'n']
  else if c = '\r' then ['\\', 'r']
  else if c = '\t' then ['\\', 't']
  else if c = '\x08' then ['\\', 'b']
  else if c = '\x0c' then ['\\', 'f']
  else if c.toNat < 0x20 then
    ['\\', 'u', '0', '0', Nat.digitChar (c.toNat / 16), Nat.digitChar (c.toNat % 16)]
  else [c]

/-- **The text of a string value.** -/
def string (s : String) : String :=
  "\"" ++ String.ofList (s.toList.flatMap escapeChar) ++ "\""

/-- The text of a truth value. -/
def bool (b : Bool) : String := if b then "true" else "false"

/-- The text of an array, from the texts of its items. -/
def array (items : List String) : String := "[" ++ String.intercalate "," items ++ "]"

/-- The text of an array of strings. -/
def strings (items : List String) : String := array (items.map string)

/-- The text of an object, from its keys and the texts of their values, in order. -/
def object (fields : List (String × String)) : String :=
  "\x7b" ++ String.intercalate "," (fields.map fun f => string f.1 ++ ":" ++ f.2) ++ "\x7d"

end GrammarWorkbench.Text.Json
