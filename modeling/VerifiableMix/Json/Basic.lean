/-!
# JSON values

The values that a JSON text can stand for, with the fields of an object in the
order of the text, repetitions included.

An escape in a string can name half of a surrogate pair.  When its partner is
missing, the string stands for no text at all; it is still a string, which
matters only if someone asks for its text.

## Records

A record is read from an object, whose unknown fields are passed over, or from
an array with the fields in their fixed order.  A field given twice is refused.
-/

namespace VerifiableMix

/-- A JSON value. -/
inductive Json where
  | null
  | bool (value : Bool)
  /-- A number, as it is written. -/
  | number (literal : String)
  /-- A string, and the text it stands for, if any. -/
  | string (text : Option String)
  | array (items : List Json)
  | object (fields : List (Option String × Json))
deriving Repr, Inhabited

namespace Json

/-- The text of a string. -/
def text? : Json → Option String
  | string text => text
  | _ => none

/-- The items of an array. -/
def items? : Json → Option (List Json)
  | array items => some items
  | _ => none

/-- The fields of an object, if every name is a text. -/
def namedFields? (fields : List (Option String × Json)) : Option (List (String × Json)) :=
  fields.mapM fun (name, value) => name.map (·, value)

/-- The value of the field with a name, which may be missing but not doubled. -/
def lookup? (name : String) (fields : List (String × Json)) : Option (Option Json) :=
  match fields.filter (·.1 == name) with
  | [] => some none
  | [(_, value)] => some (some value)
  | _ => none

/-- The fields of a record in the order of their names; each may be missing,
which in an array only the last ones can be. -/
def optionalFields? (names : List String) : Json → Option (List (Option Json))
  | object fields => do
    let named ← namedFields? fields
    names.mapM fun name => lookup? name named
  | array items =>
    if items.length ≤ names.length then
      some (items.map some ++ List.replicate (names.length - items.length) none)
    else none
  | _ => none

/-- The fields of a record in the order of their names; none may be missing. -/
def fields? (names : List String) (value : Json) : Option (List Json) := do
  let fields ← value.optionalFields? names
  fields.mapM id

end Json

end VerifiableMix
