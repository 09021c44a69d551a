/-
WorkspaceAudit/Toml/Value.lean

The values of a TOML document.

A table lists its fields by key, in the order of the keys.  Looking a key up
in a value finds something only if the value is a table.
-/
import WorkspaceAudit.Decimal.Binary64
import WorkspaceAudit.Toml.Datetime

namespace WorkspaceAudit.Toml

/-- A TOML value; a document is a table. -/
inductive Value
  | string (s : String)
  | integer (n : Int)
  | float (x : Binary64)
  | boolean (b : Bool)
  | datetime (d : Datetime)
  | array (items : List Value)
  | table (fields : List (String × Value))
  deriving Repr

namespace Value

/-- What sort of value it is, in words. -/
def kind : Value → String
  | string _ => "string"
  | integer _ => "integer"
  | float _ => "float"
  | boolean _ => "boolean"
  | datetime _ => "datetime"
  | array _ => "array"
  | table _ => "inline table"

/-- The fields, if it is a table. -/
def fields? : Value → Option (List (String × Value))
  | table fs => some fs
  | _ => none

/-- The value under a key, if it is a table that has the key. -/
def get? (v : Value) (key : String) : Option Value :=
  v.fields?.bind fun fs => fs.lookup key

/-- The text, if it is a string. -/
def string? : Value → Option String
  | string s => some s
  | _ => none

end Value

end WorkspaceAudit.Toml
