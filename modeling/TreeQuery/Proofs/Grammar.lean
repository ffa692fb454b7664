import Mathlib.Data.List.Basic
import TreeQuery.SyntaxTree.Reader

/-!
# The grammar of queries

The derivations of the grammar, one type for each of its symbols and one constructor for each alternative:

- a query is `q`, `=` and a level;
- a level is a field list in parentheses, `( field {, field} )`, and then clauses with a dot before each;
- a field is a name, an excluded name, a star, or a name and a level;
- a clause is a `filter`, an `order`, a `limit` or an `offset`;
- an operand is a literal, or one or more literals in brackets.

A derivation has the tokens that it derives and the tree that it describes. It is admitted (`Level.Fits`) if relations
are nested at most `maxDepth` deep and paths of filters lead through at most as many relations. A tree has no more than
one derivation (`Level.tree_injective`).
-/

namespace TreeQuery.Grammar

/-! ## Derivations -/

/-- A scalar. -/
inductive Literal where
  | int (n : Int64)
  | float (x : Binary64)
  | date (d : Date)
  | string (s : String)

/-- What a filter compares with. -/
inductive Operand where
  | scalar (literal : Literal)
  | list (first : Literal) (more : List Literal)

/-- A whole number that is not negative. -/
structure Count where
  n : Int64
  nonneg : 0 ≤ n

/-- What follows a field list, without its dot. -/
inductive Clause where
  | filter (first : String) (more : List String) (operator : Operator) (operand : Operand)
  | order (field : String) (direction : SortOrder)
  | count (what : Paging) (count : Count)

/-- A level: one or more fields, and clauses. -/
structure Level where
  first : FieldEntry Level
  more : List (FieldEntry Level)
  clauses : List Clause

/-! ## Tokens -/

/-- The token of a literal. -/
def Literal.token : Literal → Token
  | .int n => .int n
  | .float x => .float x
  | .date d => .date d
  | .string s => .string s

/-- The token of an operator: a symbol or a word. -/
def operatorToken : Operator → Token
  | .compare c => .comparison c
  | .oneOf => .ident "in"
  | .isNull => .ident "is_null"
  | .like => .ident "like"
  | .ilike => .ident "ilike"

/-- The token of a direction. -/
def directionToken : SortOrder → Token
  | .ascending => .ident "asc"
  | .descending => .ident "desc"

/-- The token that a count starts with. -/
def pagingToken : Paging → Token
  | .limit => .ident "limit"
  | .offset => .ident "offset"

/-- The rest of a path: segments with a dot before each. -/
def pathTokens (segments : List String) : List Token := segments.flatMap fun s => [.symbol .dot, .ident s]

/-- The rest of a list: literals with a comma before each. -/
def literalTokens (literals : List Literal) : List Token := literals.flatMap fun l => [.symbol .comma, l.token]

/-- The tokens of an operand. -/
def Operand.tokens : Operand → List Token
  | .scalar literal => [literal.token]
  | .list first more => .symbol .openBracket :: first.token :: (literalTokens more ++ [.symbol .closeBracket])

/-- The tokens of a clause. -/
def Clause.tokens : Clause → List Token
  | .filter first more op operand =>
    .ident "filter" :: .symbol .openParen :: .ident first ::
      (pathTokens more ++ operatorToken op :: (operand.tokens ++ [.symbol .closeParen]))
  | .order field direction =>
    [.ident "order", .symbol .openParen, .ident field, .symbol .comma, directionToken direction, .symbol .closeParen]
  | .count what n => [pagingToken what, .symbol .openParen, .int n.n, .symbol .closeParen]

/-- Clauses with a dot before each. -/
def clauseTokens (clauses : List Clause) : List Token := clauses.flatMap fun c => .symbol .dot :: c.tokens

mutual

/-- The tokens of a level. -/
def Level.tokens : Level → List Token
  | ⟨first, more, clauses⟩ =>
    .symbol .openParen :: (fieldTokens first ++ (moreTokens more ++ .symbol .closeParen :: clauseTokens clauses))

/-- The tokens of a field. -/
def fieldTokens : FieldEntry Level → List Token
  | .name label => [.ident label]
  | .excluded label => [.symbol .bang, .ident label]
  | .wildcard => [.symbol .star]
  | .relation label level => .ident label :: level.tokens

/-- The rest of a field list: fields with a comma before each. -/
def moreTokens : List (FieldEntry Level) → List Token
  | [] => []
  | field :: rest => .symbol .comma :: (fieldTokens field ++ moreTokens rest)

end

/-- The tokens of a query whose root level is derived. -/
def queryTokens (root : Level) : List Token := .ident "q" :: .comparison .equal :: root.tokens

/-! ## Trees -/

/-- The value of a literal. -/
def Literal.value : Literal → Value
  | .int n => .int n
  | .float x => .float x
  | .date d => .date d
  | .string s => .string s

/-- The value of an operand. -/
def Operand.value : Operand → Value
  | .scalar literal => literal.value
  | .list first more => .list (first.value :: more.map Literal.value)

/-- A count as it is kept. -/
def Count.value (c : Count) : UInt64 := c.n.toUInt64

/-- The modifier that a clause is. -/
def Clause.modifier : Clause → Modifier
  | .filter first more op operand => .filter (first :: more) op operand.value
  | .order field direction => .order field direction
  | .count what n => SyntaxTree.countModifier what n.value

mutual

/-- The tree that a level describes. -/
def Level.tree : Level → SyntaxTree
  | ⟨first, more, clauses⟩ => ⟨fieldTree first :: fieldTrees more, clauses.map Clause.modifier⟩

/-- The entry that a field is. -/
def fieldTree : FieldEntry Level → FieldEntry SyntaxTree
  | .name label => .name label
  | .excluded label => .excluded label
  | .wildcard => .wildcard
  | .relation label level => .relation label level.tree

/-- The entries that fields are. -/
def fieldTrees : List (FieldEntry Level) → List (FieldEntry SyntaxTree)
  | [] => []
  | field :: rest => fieldTree field :: fieldTrees rest

end

/-! ## Limits -/

/-- Whether the path of a filter leads through no more than `maxDepth` relations. -/
def Clause.Fits : Clause → Prop
  | .filter _ more _ _ => more.length ≤ maxDepth
  | .order _ _ | .count _ _ => True

mutual

/-- Whether a level behind `depth` relations is admitted. -/
def Level.Fits (depth : Nat) : Level → Prop
  | ⟨first, more, clauses⟩ => FieldFits depth first ∧ FieldsFit depth more ∧ ∀ c ∈ clauses, c.Fits

/-- Whether a field of such a level is admitted: a relation leads one level deeper. -/
def FieldFits (depth : Nat) : FieldEntry Level → Prop
  | .relation _ level => depth < maxDepth ∧ level.Fits (depth + 1)
  | .name _ | .excluded _ | .wildcard => True

/-- Whether all of some fields are admitted. -/
def FieldsFit (depth : Nat) : List (FieldEntry Level) → Prop
  | [] => True
  | field :: rest => FieldFits depth field ∧ FieldsFit depth rest

end

theorem fieldsFit_iff {depth : Nat} {fields : List (FieldEntry Level)} :
    FieldsFit depth fields ↔ ∀ field ∈ fields, FieldFits depth field := by
  induction fields with
  | nil => simp [FieldsFit]
  | cons field rest ih => rw [FieldsFit, ih, List.forall_mem_cons]

theorem fieldTrees_eq_map (fields : List (FieldEntry Level)) : fieldTrees fields = fields.map fieldTree := by
  induction fields with
  | nil => rfl
  | cons field rest ih => rw [fieldTrees, ih, List.map_cons]

theorem moreTokens_append (as bs : List (FieldEntry Level)) :
    moreTokens (as ++ bs) = moreTokens as ++ moreTokens bs := by
  induction as with
  | nil => rfl
  | cons a as ih => simp only [List.cons_append, moreTokens, ih, List.append_assoc]

/-! ## Uniqueness -/

theorem Literal.value_injective : Function.Injective Literal.value := by
  intro a b h
  cases a <;> cases b <;> simp_all [Literal.value]

theorem Operand.value_injective : Function.Injective Operand.value := by
  intro a b h
  cases a with
  | scalar l =>
    cases b with
    | scalar k => exact congrArg _ (Literal.value_injective h)
    | list first more => cases l <;> cases h
  | list first more =>
    cases b with
    | scalar k => cases k <;> cases h
    | list first' more' =>
      simp only [value, Value.list.injEq, List.cons.injEq] at h
      rw [Literal.value_injective h.1, List.map_injective_iff.2 Literal.value_injective h.2]

theorem Count.value_injective : Function.Injective Count.value := by
  rintro ⟨⟨m⟩, hm⟩ ⟨⟨n⟩, hn⟩ h
  have hmn : m = n := h
  subst hmn
  rfl

theorem Clause.modifier_injective : Function.Injective Clause.modifier := by
  intro a b h
  cases a with
  | filter first more op operand =>
    cases b with
    | filter first' more' op' operand' =>
      simp only [modifier, TreeQuery.Modifier.filter.injEq, List.cons.injEq] at h
      obtain ⟨⟨rfl, rfl⟩, rfl, hvalue⟩ := h
      rw [Operand.value_injective hvalue]
    | order _ _ => cases h
    | count what n => cases what <;> cases h
  | order field direction =>
    cases b with
    | order field' direction' => simp_all [modifier]
    | filter _ _ _ _ => cases h
    | count what n => cases what <;> cases h
  | count what n =>
    cases b with
    | count what' n' =>
      cases what <;> cases what' <;> simp only [modifier, SyntaxTree.countModifier, Modifier.limit.injEq,
        Modifier.offset.injEq, reduceCtorEq] at h
      · rw [Count.value_injective h]
      · rw [Count.value_injective h]
    | filter _ _ _ _ => cases what <;> cases h
    | order _ _ => cases what <;> cases h

mutual

/-- A tree has one derivation at most. -/
theorem Level.tree_injective : ∀ {a b : Level}, a.tree = b.tree → a = b
  | ⟨first, more, clauses⟩, ⟨first', more', clauses'⟩, h => by
    simp only [Level.tree, SyntaxTree.mk.injEq, List.cons.injEq] at h
    obtain ⟨⟨hfirst, hmore⟩, hclauses⟩ := h
    rw [fieldTree_injective hfirst, fieldTrees_injective hmore,
      List.map_injective_iff.2 Clause.modifier_injective hclauses]

theorem fieldTree_injective : ∀ {a b : FieldEntry Level}, fieldTree a = fieldTree b → a = b
  | .name _, b, h | .excluded _, b, h | .wildcard, b, h => by cases b <;> simp_all [fieldTree]
  | .relation label level, b, h => by
    cases b with
    | relation label' level' =>
      simp only [fieldTree, FieldEntry.relation.injEq] at h
      rw [h.1, Level.tree_injective h.2]
    | _ => cases h

theorem fieldTrees_injective : ∀ {as bs : List (FieldEntry Level)}, fieldTrees as = fieldTrees bs → as = bs
  | [], bs, h => by cases bs <;> simp_all [fieldTrees]
  | a :: as, bs, h => by
    cases bs with
    | nil => cases h
    | cons b bs =>
      simp only [fieldTrees, List.cons.injEq] at h
      rw [fieldTree_injective h.1, fieldTrees_injective h.2]

end

end TreeQuery.Grammar
