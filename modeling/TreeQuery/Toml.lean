import TreeQuery.Keyed

/-!
# TOML documents

A TOML document as a value, and reading what a program expects out of it. Of scalars other than strings only the kind
is kept: nothing that is configured is a number, a truth value or a date.

A reader such as `text?` gives `none` for a value that is not of the form it expects.
-/

namespace TreeQuery

/-- The kind of a scalar that is not a string. -/
inductive TomlScalar where
  | integer
  | float
  | boolean
  | dateTime
  deriving DecidableEq, Repr

/-- A value of a TOML document. -/
inductive Toml where
  | string (s : String)
  | scalar (kind : TomlScalar)
  | array (items : List Toml)
  /-- A table with its entries in order. -/
  | table (entries : List (String × Toml))

namespace Toml

/-- The text of a string. -/
def text? : Toml → Option String
  | .string s => some s
  | _ => none

/-- What the items of an array are read as. -/
def items? {α : Type} (read : Toml → Option α) : Toml → Option (List α)
  | .array items => items.mapM read
  | _ => none

/-- Whether a value is an array or a table with nothing in it. -/
def isVoid : Toml → Bool
  | .array items => items.isEmpty
  | .table entries => entries.isEmpty
  | _ => false

/-- What the entry under a key is read as. -/
def required? {α : Type} (read : Toml → Option α) (key : String) (entries : List (String × Toml)) : Option α :=
  (Keyed.find? key entries).bind read

/-- What the entry under a key is read as, if there is such an entry. -/
def optional? {α : Type} (read : Toml → Option α) (key : String) (entries : List (String × Toml)) :
    Option (Option α) :=
  match Keyed.find? key entries with
  | some v => (read v).map some
  | none => some none

end Toml

end TreeQuery
