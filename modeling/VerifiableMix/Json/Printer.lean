import VerifiableMix.Json.Basic

/-!
# Printing JSON

A `Document` is what is written as JSON: texts, lists and records.  It is
printed with two spaces of indentation per level, one item or field per line,
and an empty list as two brackets.

In a text, quotes, backslashes and control characters are escaped; every other
character stands for itself.
-/

namespace VerifiableMix

/-- What is written as JSON. -/
inductive Document where
  | text (content : String)
  | list (items : List Document)
  | record (fields : List (String × Document))
deriving Repr

namespace Document

/-! ## As a value -/

mutual

/-- The JSON value of a document. -/
def toJson : Document → Json
  | text content => .string (some content)
  | list items => .array (itemsToJson items)
  | record fields => .object (fieldsToJson fields)

/-- The JSON values of the items of a list. -/
def itemsToJson : List Document → List Json
  | [] => []
  | item :: rest => toJson item :: itemsToJson rest

/-- The JSON values of the fields of a record. -/
def fieldsToJson : List (String × Document) → List (Option String × Json)
  | [] => []
  | (name, value) :: rest => (some name, toJson value) :: fieldsToJson rest

end

/-! ## As text -/

/-- How a character is written inside a text. -/
def escape (c : Char) : List Char :=
  if c = '"' then ['\\', '"']
  else if c = '\\' then ['\\', '\\']
  else if c = '\x08' then ['\\', 'b']
  else if c = '\x0c' then ['\\', 'f']
  else if c = '\n' then ['\\', 'n']
  else if c = '\r' then ['\\', 'r']
  else if c = '\t' then ['\\', 't']
  else if c.toNat < 32 then
    ['\\', 'u', '0', '0', Nat.digitChar (c.toNat / 16), Nat.digitChar (c.toNat % 16)]
  else [c]

/-- A text in quotes. -/
def quote (content : String) : List Char :=
  '"' :: content.toList.flatMap escape ++ ['"']

/-- The start of a line at a level. -/
def newline (level : Nat) : List Char :=
  '\n' :: List.replicate (2 * level) ' '

mutual

/-- A document whose lines stand at a level. -/
def print (level : Nat) : Document → List Char
  | text content => quote content
  | list [] => ['[', ']']
  | list (item :: rest) =>
    '[' :: newline (level + 1) ++ print (level + 1) item ++ printItems (level + 1) rest ++
      newline level ++ [']']
  | record [] => ['\x7b', '\x7d']
  | record ((name, value) :: rest) =>
    '\x7b' :: newline (level + 1) ++ quote name ++ ':' :: ' ' :: print (level + 1) value ++
      printFields (level + 1) rest ++ newline level ++ ['\x7d']

/-- The items of a list after the first. -/
def printItems (level : Nat) : List Document → List Char
  | [] => []
  | item :: rest => ',' :: newline level ++ print level item ++ printItems level rest

/-- The fields of a record after the first. -/
def printFields (level : Nat) : List (String × Document) → List Char
  | [] => []
  | (name, value) :: rest =>
    ',' :: newline level ++ quote name ++ ':' :: ' ' :: print level value ++
      printFields level rest

end

/-- The text of a document. -/
def render (d : Document) : String :=
  String.ofList (d.print 0)

end Document

end VerifiableMix
