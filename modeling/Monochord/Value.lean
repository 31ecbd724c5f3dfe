import Monochord.Quantity

/-! # Values from outside

Chord records and requests arrive as structured data in which anything may stand anywhere.

- **`Value`**: a quantity, a text, a list of values, or an object with named fields.
- **`Value.field`**: a field of an object; a field that is not there counts as the absent
  quantity. -/

namespace Monochord

/-- Structured data. The absent quantity also stands for an explicit null. -/
inductive Value
  | quantity (q : Quantity)
  | text (s : String)
  | list (items : List Value)
  | object (fields : List (String × Value))

namespace Value

/-- The null value. -/
def null : Value := .quantity .absent

/-- The field of a given name among some fields. -/
def find? (fields : List (String × Value)) (name : String) : Option Value :=
  (fields.find? fun f => f.1 == name).map (·.2)

/-- The field of a given name, null if there is none. -/
def field (fields : List (String × Value)) (name : String) : Value := (find? fields name).getD null

end Value

end Monochord
