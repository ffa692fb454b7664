import TreeQuery.Keyed
import TreeQuery.Sql.Select

/-!
# Shapes of columns

The JSON that a select makes, read off the select without its rows: objects by their keys in order, arrays by what
stands in them. A column of a derived table has the shape that it has there, so reading goes through the joins of a
select into the selects behind them (`Select.shapes`). What a table holds is scalar.
-/

namespace TreeQuery.Sql

/-- The shape of a JSON value. -/
inductive Shape where
  | scalar
  | object (members : List (String × Shape))
  | array (element : Shape)

/-- The shape of an element of an array. -/
def Shape.element : Shape → Shape
  | .array element => element
  | _ => .scalar

/-- The text of a literal. -/
def Expr.literal? : Expr → Option String
  | .text s => some s
  | _ => none

/-- The members that keys and values, one after the other, are of an object. -/
def objectMembers : List (Option String × Shape) → List (String × Shape)
  | (some key, _) :: (_, value) :: rest => (key, value) :: objectMembers rest
  | _ => []

/-- The shape of what a function makes of its arguments, each given with its text if it is a literal. -/
def callShape (function : String) (arguments : List (Option String × Shape)) : Shape :=
  let first := (arguments.head?.map Prod.snd).getD .scalar
  if function = "json_object" then .object (objectMembers arguments)
  else if function = "json_group_array" then .array first
  else if function = "json" then first
  else if function = "json_extract" ∧ arguments[1]?.bind Prod.fst = some "$[0]" then first.element
  else .scalar

mutual

/-- The shape of an expression, given that of columns. Of a case the first branch counts: the other one stands for
nothing found. -/
def Expr.shape (columns : String → String → Shape) : Expr → Shape
  | .column table name => columns table name
  | .call function arguments => callShape function (argumentShapes columns arguments)
  | .case _ result _ => result.shape columns
  | _ => .scalar

/-- The shape of each of some arguments, with its text if it is a literal. -/
def argumentShapes (columns : String → String → Shape) : List Expr → List (Option String × Shape)
  | [] => []
  | e :: rest => (e.literal?, e.shape columns) :: argumentShapes columns rest

end

/-- The expression that is listed between brackets with commas, row by row. -/
def Expr.listed? : Expr → Option Expr
  | .binary (.binary (.text opening) .concat (.call coalesce [.call concat [e, .text comma], .text nothing])) .concat
      (.text closing) =>
    if opening = "[" ∧ coalesce = "coalesce" ∧ concat = "group_concat" ∧ comma = "," ∧ nothing = "" ∧ closing = "]" then
      some e
    else none
  | _ => none

/-- The shape of a column of a select. -/
def Expr.itemShape (columns : String → String → Shape) (e : Expr) : Shape :=
  match e.listed? with
  | some listed => .array (listed.shape columns)
  | none => e.shape columns

/-- The columns of sources by the alias of the source. -/
abbrev SourceShapes := List (String × List (String × Shape))

/-- The shape of a column of some sources. -/
def SourceShapes.column (sources : SourceShapes) (table name : String) : Shape :=
  (((Keyed.find? table sources).bind (Keyed.find? name))).getD .scalar

/-- The named ones of some columns with their shapes. -/
def itemShapes (sources : SourceShapes) (items : List (Expr × Option String)) : List (String × Shape) :=
  items.filterMap fun item => item.2.map fun name => (name, item.1.itemShape sources.column)

mutual

/-- The columns that a select shows, with their shapes. -/
def Select.shapes : Select → List (String × Shape)
  | ⟨items, source, joins, _, _, _, _, _⟩ => itemShapes (sourceShapes source :: joinsShapes joins) items

/-- The columns of a source with their shapes; those of a table are not listed. -/
def sourceShapes : Source Select → String × List (String × Shape)
  | .table _ label => (label, [])
  | .derived query label => (label, query.shapes)

/-- The columns of some joined sources with their shapes. -/
def joinsShapes : List (Join Select) → SourceShapes
  | [] => []
  | ⟨_, source, _⟩ :: rest => sourceShapes source :: joinsShapes rest

end

/-- The shape of a column that a select shows. -/
def Select.columnShape? (s : Select) (name : String) : Option Shape := Keyed.find? name s.shapes

theorem Select.shapes_eq : ∀ s : Select,
    s.shapes = itemShapes (sourceShapes s.source :: joinsShapes s.joins) s.items
  | ⟨_, _, _, _, _, _, _, _⟩ => rfl

theorem argumentShapes_append (columns : String → String → Shape) (as bs : List Expr) :
    argumentShapes columns (as ++ bs) = argumentShapes columns as ++ argumentShapes columns bs := by
  induction as with
  | nil => rfl
  | cons a as ih => simp only [List.cons_append, argumentShapes, ih]

end TreeQuery.Sql
