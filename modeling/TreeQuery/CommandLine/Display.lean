import TreeQuery.Query.OfText

/-!
# What the command line shows

Lines of text for registries, trees and statements, the reference of query text, and the place of an error.
-/

namespace TreeQuery.CommandLine

/-- A character so many times. -/
def repeated (count : Nat) (c : Char) : String := String.ofList (List.replicate count c)

/-- A text with spaces after it up to a width in characters. -/
def padded (width : Nat) (text : String) : String := text ++ repeated (width - text.length) ' '

/-- Lines that say how the program is used. -/
def greetingLines : List String :=
  ["treeql: tree-shaped queries over SQL", "", "Usage: treeql <ENTITY> <QUERY> [OPTIONS]", "", "Try: treeql --help"]

/-- Lines that list the arguments of the program. -/
def helpLines : List String :=
  ["Tree-shaped queries compiled to a single SQL statement", "",
    "Usage: treeql [OPTIONS] [ENTITY] [QUERY] [COMMAND]", "",
    "Commands:",
    "  explain   Parse a query and show its action tree and SQL",
    "  entities  List the entities in the schema registry",
    "  syntax    Show the syntax reference", "",
    "Options:",
    "  -d, --dry-run                      Don't execute, just show the generated SQL",
    "  -e, --encoded                      The query is percent-encoded, as in a URL",
    "  -s, --schema <SCHEMA>              Schema registry file (TOML)",
    "      --database-url <DATABASE_URL>  Database connection URL",
    "  -f, --format <FORMAT>              Output format [possible values: json, pretty]",
    "  -v, --verbose                      Verbose output",
    "  -h, --help                         Print help",
    "  -V, --version                      Print version"]

/-- The line that names the version of the program. -/
def versionLine : String := "treeql 0.1.0"

/-- The forms of query text, each with its meaning. -/
def forms : List (String × String) :=
  [("q=(a, b)", "Select fields a and b"),
    ("q=(*)", "Select every field"),
    ("q=(*, !a)", "Every field except a"),
    ("q=(id, rel(a))", "Nest a relation with its own fields"),
    (".filter(a>=2)", "Filter: = != > >= < <="),
    (".filter(a in [1, 2])", "Membership"),
    (".filter(a like \"%x%\")", "Pattern match (ilike: case-insensitive)"),
    (".filter(a is_null 1)", "NULL check (0 for NOT NULL)"),
    (".filter(rel.a=2)", "Filter through a relation"),
    (".order(a, desc)", "Sort (asc | desc)"),
    (".limit(10)", "Page size (0 = no limit, default 20)"),
    (".offset(20)", "Skip rows")]

/-- The width of the column of forms. -/
def formWidth : Nat := 28

/-- A row of the reference. -/
def formLine (form meaning : String) : String := padded formWidth form ++ " " ++ meaning

/-- The reference of query text. -/
def referenceLines : List String :=
  "treeql Syntax Reference" :: "" :: formLine "Form" "Meaning" :: repeated 70 '─' ::
    forms.map fun (form, meaning) => formLine form meaning

/-- A field in the list of entities, with its column if that has another name. -/
def fieldLine (f : EntityField) : String :=
  if f.label = f.column then "  " ++ f.label else "  " ++ f.label ++ " <- " ++ f.column

/-- A relationship in the list of entities. -/
def relationshipLine (label : String) (r : Relationship) : String :=
  "  " ++ label ++ "(...) " ++ r.direction.text ++ " " ++ r.target ++ " on " ++ r.parentColumn ++ " = " ++ r.childColumn

/-- An entity with what can be selected of it. -/
def entityLines (e : Entity) : List String :=
  (e.name ++ " (table " ++ e.table ++ ", identity " ++ e.identity ++ ")") ::
    (e.fields.map fieldLine ++ (e.relationships.map (fun (label, r) => relationshipLine label r) ++ [""]))

/-- All entities of a registry. -/
def registryLines (r : Registry) : List String :=
  if r.entities.isEmpty then ["(no entities)"] else r.entities.flatMap fun (_, e) => entityLines e

/-- A statement and the values bound in it. -/
def statementLines (s : Sql.Statement) : List String :=
  let binding := fun (value, i) => s!"  ?{i + 1} = " ++ Value.text value ++ " (" ++ value.kind.name ++ ")"
  let bindings := if s.params.isEmpty then [] else "" :: "Bindings:" :: s.params.zipIdx.map binding
  "Generated SQL:" :: s.sql :: bindings

/-- A text so many levels in. -/
def indented (depth : Nat) (line : String) : String := repeated (2 * depth) ' ' ++ line

/-- What is selected at a level. -/
def selectionText : Selection → String
  | .fields selectors => ", ".intercalate (selectors.map Selector.text)
  | .unselected => "(filter only)"

/-- A level under its name, without the levels of its relations. -/
def levelLines (t : ActionTree) (name : String) : List String :=
  let filters := t.filters.map fun f => "filter " ++ f.text
  let sort := t.sort.toList.map fun s => "order " ++ s.field ++ " " ++ s.order.keyword
  let limit := t.limit.toList.map fun n => "limit " ++ toString n.toNat
  let offset := t.offset.toList.map fun n => "offset " ++ toString n.toNat
  (name ++ " " ++ selectionText t.select) :: (filters ++ (sort ++ (limit ++ offset))).map (indented 1)

mutual

/-- A tree under its name, each level one step further in than the one above. -/
def treeLines (depth : Nat) (name : String) : ActionTree → List String
  | t@⟨_, _, _, _, _, _, relations⟩ => (levelLines t name).map (indented depth) ++ relationLines (depth + 1) relations

/-- The trees of relations, each under its alias. -/
def relationLines (depth : Nat) : List (String × ActionTree) → List String
  | [] => []
  | (label, child) :: rest => treeLines depth label child ++ relationLines depth rest

end

/-- The number of characters in so many bytes of a text, if a character ends there. -/
def charactersIn? : List Char → (bytes : Nat) → Option Nat
  | _, 0 => some 0
  | [], _ + 1 => none
  | c :: rest, bytes + 1 =>
    if c.utf8Size ≤ bytes + 1 then (charactersIn? rest (bytes + 1 - c.utf8Size)).map (· + 1) else none

/-- The column of a mark under the character at a position. -/
def markColumn (text : String) (position : Nat) : Nat := (charactersIn? text.toList position).getD position

/-- The text of a query with a mark under the place of an error, if the error has one. -/
def faultLines (text : String) : Error → List String
  | .malformed position _ => ["  " ++ text, "  " ++ repeated (markColumn text position) ' ' ++ "^"]
  | _ => []

end TreeQuery.CommandLine
