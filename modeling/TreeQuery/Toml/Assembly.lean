import TreeQuery.Toml

/-!
# Putting TOML documents together

A document is a list of sections: the entries before the first header, and those after each header. A table can be
made by a header of its own, by a header of a table inside it, or by a dotted key; which of these made it decides who
may still add to it.

- a header may not name a table that a header or a dotted key has made;
- a dotted key may not reach into a table that a header has made, nor into one that is implied by a header;
- a key may be given once.
-/

namespace TreeQuery.Toml

/-- What made a table. -/
inductive Origin where
  /-- A header that names it. -/
  | header
  /-- A header that names a table inside it. -/
  | implied
  /-- A dotted key. -/
  | dotted
  deriving DecidableEq, Repr

/-- What stands under a key while a document is put together. -/
inductive Item where
  | value (v : Toml)
  | table (origin : Origin) (entries : List (String × Item))
  /-- The tables of headers in double brackets, of which there is at least one. -/
  | tables (list : List (List (String × Item)))

/-- The entries of a table that is being put together. -/
abbrev Entries := List (String × Item)

/-- The list with `f` applied to its last element. -/
def modifyLast? {α : Type} (f : α → Option α) : List α → Option (List α)
  | [] => none
  | [a] => (f a).map fun a => [a]
  | a :: b :: rest => (modifyLast? f (b :: rest)).map (a :: ·)

/-- The entries with `f` applied to the table at the end of a path. Tables that are missing are made, by a dotted key
or by a header; of tables in an array, the last one is meant. -/
def within? (made : Origin) (f : Origin → Entries → Option Entries) : List String → Origin → Entries → Option Entries
  | [], origin, entries => f origin entries
  | key :: path, _, entries =>
    Keyed.alter? key (fun
      | none => (within? made f path made []).map (.table made)
      | some (.value _) => none
      | some (.tables list) => (modifyLast? (within? made f path .header) list).map .tables
      | some (.table origin inner) =>
        if made = .dotted ∧ origin = .header then none
        else (within? made f path origin inner).map (.table origin)) entries

/-- A key with dots: the path to a table and a key in it. -/
structure KeyPath where
  path : List String
  key : String

/-- The entries with a value under a key that is not there yet. -/
def insertNew? (key : String) (item : Item) (entries : Entries) : Option Entries :=
  if (Keyed.find? key entries).isSome then none else some (entries ++ [(key, item)])

/-- The entries with a value under a dotted key, the path of which leads to a table made by dotted keys. -/
def insert? (entries : Entries) (k : KeyPath) (v : Toml) : Option Entries :=
  within? .dotted (fun origin entries =>
    if !k.path.isEmpty && origin != .dotted then none else insertNew? k.key (.value v) entries) k.path .header entries

/-- The entries with those of a section added in order. -/
def insertAll? (entries : Entries) (added : List (KeyPath × Toml)) : Option Entries :=
  added.foldlM (fun entries (k, v) => insert? entries k v) entries

/-- The kind of a header. -/
inductive Header where
  | table
  | arrayElement
  deriving DecidableEq, Repr

/-- A header and the entries after it. -/
structure Section where
  header : Header
  name : KeyPath
  entries : List (KeyPath × Toml)

/-- The entries of the table above a section with the section added. -/
def addTo? (s : Section) (parent : Entries) : Option Entries :=
  match s.header, Keyed.find? s.name.key parent with
  | .table, none => (insertAll? [] s.entries).map fun new => parent ++ [(s.name.key, .table .header new)]
  | .table, some (.table .implied old) =>
    (insertAll? old s.entries).map fun new => Keyed.erase s.name.key parent ++ [(s.name.key, .table .header new)]
  | .arrayElement, none => (insertAll? [] s.entries).map fun new => parent ++ [(s.name.key, .tables [new])]
  | .arrayElement, some (.tables list) =>
    (insertAll? [] s.entries).map fun new => Keyed.put s.name.key (.tables (list ++ [new])) parent
  | _, _ => none

/-- A document with one more section. -/
def addSection? (root : Entries) (s : Section) : Option Entries :=
  within? .implied (fun _ => addTo? s) s.name.path .header root

mutual

/-- An item as a value. -/
def Item.toToml : Item → Toml
  | .value v => v
  | .table _ entries => .table (entriesToToml entries)
  | .tables list => .array (tablesToToml list)

/-- Entries as those of a table. -/
def entriesToToml : List (String × Item) → List (String × Toml)
  | [] => []
  | (key, item) :: rest => (key, item.toToml) :: entriesToToml rest

/-- Tables as values. -/
def tablesToToml : List (List (String × Item)) → List Toml
  | [] => []
  | entries :: rest => .table (entriesToToml entries) :: tablesToToml rest

end

/-- The document with some entries before its first header and some sections. -/
def assemble? (entries : List (KeyPath × Toml)) (sections : List Section) : Option (List (String × Toml)) := do
  let root ← insertAll? [] entries
  let root ← sections.foldlM addSection? root
  return entriesToToml root

/-- An entry of an inline table: tables made by dotted keys of the same braces, and values. -/
inductive InlineItem where
  | value (v : Toml)
  | dotted (entries : List (String × InlineItem))

/-- The entries with a value under a dotted key of an inline table. -/
def insertInline? (key : String) (v : Toml) :
    List String → List (String × InlineItem) → Option (List (String × InlineItem))
  | [], entries => if (Keyed.find? key entries).isSome then none else some (entries ++ [(key, .value v)])
  | head :: path, entries =>
    Keyed.alter? head (fun
      | none => (insertInline? key v path []).map .dotted
      | some (.dotted inner) => (insertInline? key v path inner).map .dotted
      | some (.value _) => none) entries

mutual

/-- An entry of an inline table as a value. -/
def InlineItem.toToml : InlineItem → Toml
  | .value v => v
  | .dotted entries => .table (inlineToToml entries)

/-- Entries of an inline table as those of a table. -/
def inlineToToml : List (String × InlineItem) → List (String × Toml)
  | [] => []
  | (key, item) :: rest => (key, item.toToml) :: inlineToToml rest

end

/-- The inline table with some entries. -/
def inlineTable? (entries : List (KeyPath × Toml)) : Option Toml := do
  let entries ← entries.foldlM (fun entries (k, v) => insertInline? k.key v k.path entries) []
  return .table (inlineToToml entries)

end TreeQuery.Toml
