import TreeQuery.Filter
import TreeQuery.Text.Utf8
import TreeQuery.Token

/-!
# Errors

Everything that can go wrong, by cause, and the wording of each cause in one place (`Error.message`). Errors of the
text that a client sent are told apart from those of the schema, the settings and the files.
-/

namespace TreeQuery

/-- Which count a modifier sets. -/
inductive Paging where
  | limit
  | offset
  deriving DecidableEq, Repr

/-- The keyword of a count. -/
def Paging.keyword : Paging → String
  | .limit => "limit"
  | .offset => "offset"

/-- Why a text cannot be cut into tokens, at the token where it fails. -/
inductive LexicalFault where
  /-- Digits, hyphens and digits that are no day of the calendar. -/
  | invalidDate
  | integerOutOfRange
  | unterminatedString
  | unexpectedCharacter (c : Char)
  deriving DecidableEq

/-- The wording of a lexical fault. -/
def LexicalFault.message : LexicalFault → String
  | .invalidDate => "invalid date, expected YYYY-MM-DD"
  | .integerOutOfRange => "integer out of range"
  | .unterminatedString => "unterminated string"
  | .unexpectedCharacter c => "unexpected character '" ++ c.toString ++ "'"

/-- What may come next at some place of a query. -/
inductive Expectation where
  /-- The name of the only query parameter. -/
  | query
  | equals
  | symbol (s : Symbol)
  | field
  | excludedField
  | modifier
  | filterField
  | pathSegment
  | operator
  | operand
  | listItem
  | sortField
  | sortOrder
  | count (what : Paging)
  | endOfInput
  deriving DecidableEq

/-- How messages name what was expected. -/
def Expectation.description : Expectation → String
  | .query => "'q'"
  | .equals => "'='"
  | .symbol s => "'" ++ s.char.toString ++ "'"
  | .field => "field name, '*', '!' or relation"
  | .excludedField => "field name after '!'"
  | .modifier => "'filter', 'order', 'limit' or 'offset'"
  | .filterField => "field to filter on"
  | .pathSegment => "field name after '.'"
  | .operator => "filter operator (=, !=, >, >=, <, <=, in, is_null, like, ilike)"
  | .operand => "date, number, quoted string or list"
  | .listItem => "date, number or quoted string"
  | .sortField => "field to order by"
  | .sortOrder => "'asc' or 'desc'"
  | .count what => "non-negative integer for " ++ what.keyword
  | .endOfInput => "end of input"

/-- Relations may be nested this deep below the root, and a filter may go through this many relations. -/
def maxDepth : Nat := 64

/-- Why a token, or the end of the text, cannot stand where it does. -/
inductive GrammarFault where
  | expected (what : Expectation)
  | nestedTooDeep
  | pathTooLong
  deriving DecidableEq

/-- Why a text is not a query. -/
inductive SyntaxFault where
  | lexical (fault : LexicalFault)
  /-- `found` is `none` at the end of the text. -/
  | grammar (fault : GrammarFault) (found : Option Token)
  | notUtf8 (fault : Text.Utf8Fault)

/-- The wording of a fault of the text. -/
def SyntaxFault.message : SyntaxFault → String
  | .lexical fault => fault.message
  | .grammar (.expected what) found =>
    let found := match found with
      | some token => token.description
      | none => "end of input"
    "expected " ++ what.description ++ ", found " ++ found
  | .grammar .nestedTooDeep _ => s!"relations nested deeper than {maxDepth} levels"
  | .grammar .pathTooLong _ => s!"filter path longer than {maxDepth} segments"
  | .notUtf8 fault => "query string is not valid UTF-8: " ++ fault.message

/-- What a name in a query was taken for. -/
inductive NameKind where
  | field
  | relation
  deriving DecidableEq

/-- The word for a kind of name. -/
def NameKind.word : NameKind → String
  | .field => "field"
  | .relation => "relation"

/-- Why an operator does not take an operand. -/
inductive OperandFault where
  | noOrder (kind : ValueKind)
  | noPattern (kind : ValueKind)
  | equalityWithList
  | mixedList (first other : ValueKind)
  | noFlag (kind : ValueKind)
  deriving DecidableEq

/-- The wording of an operand fault of an operator. -/
def OperandFault.message (op : Operator) : OperandFault → String
  | .noOrder kind => "'" ++ op.spelling ++ "' cannot compare a " ++ kind.name
  | .noPattern kind => "'" ++ op.spelling ++ "' needs a string pattern, got " ++ kind.name
  | .equalityWithList => "'" ++ op.spelling ++ "' cannot compare against a list, use 'in'"
  | .mixedList first other => "list mixes " ++ first.name ++ " and " ++ other.name ++ " values"
  | .noFlag kind => "'is_null' takes 1 or 0, got " ++ kind.name

/-- Why a query does not fit the schema. -/
inductive QueryFault where
  | unknownEntity (name : String)
  | unknownName (kind : NameKind) (name entity : String) (suggestion : Option String)
  | relationAsField (name entity : String)
  | operand (filter : Filter) (fault : OperandFault)
  | filterWithoutField

/-- The wording of a misfit. -/
def QueryFault.message : QueryFault → String
  | .unknownEntity name => "unknown entity '" ++ name ++ "'"
  | .unknownName kind name entity suggestion =>
    let hint := match suggestion with
      | some other => ". Did you mean '" ++ other ++ "'?"
      | none => ""
    "unknown " ++ kind.word ++ " '" ++ name ++ "' on '" ++ entity ++ "'" ++ hint
  | .relationAsField name entity =>
    "'" ++ name ++ "' is a relation of '" ++ entity ++ "', select it as " ++ name ++ "(...)"
  | .operand filter fault => "filter '" ++ filter.text ++ "': " ++ fault.message filter.operator
  | .filterWithoutField => "filter without a field"

/-- Why a plan has no SQL. -/
inductive CompileFault where
  /-- A relationship that needs a table of associations. -/
  | manyToMany (entity label : String)
  | listOperand (op : Operator)
  | noFlag (kind : ValueKind)

/-- The wording of a compile fault. -/
def CompileFault.message : CompileFault → String
  | .manyToMany entity label =>
    "unsupported relation type many-to-many for '" ++ entity ++ "." ++ label ++ "'"
  | .listOperand op => "'" ++ op.spelling ++ "' cannot take a list"
  | .noFlag kind => "'is_null' takes 1 or 0, got " ++ kind.name

/-- Why a file cannot be read. -/
inductive FileFault where
  | notFound
  | notADirectory
  | isADirectory
  | nameTooLong
  | nulInName
  /-- The file holds bytes that are no text. -/
  | notText
  /-- Any other fault, in the words of the system. -/
  | system (description : String)
  deriving DecidableEq

/-- The wording of a file fault. -/
def FileFault.message : FileFault → String
  | .notFound => "No such file or directory (os error 2)"
  | .notADirectory => "Not a directory (os error 20)"
  | .isADirectory => "Is a directory (os error 21)"
  | .nameTooLong => "File name too long (os error 36)"
  | .nulInName => "file name contained an unexpected NUL byte"
  | .notText => "stream did not contain valid UTF-8"
  | .system description => description

/-- Whether a fault says that there is no such file. -/
def FileFault.isMissing : FileFault → Bool
  | .notFound | .notADirectory | .isADirectory | .nameTooLong | .nulInName => true
  | .notText | .system _ => false

/-- Why a join condition does not tell the columns of two tables. -/
inductive JoinFault where
  | notAnEquation (condition : String)
  | notAColumn (side : String)
  | otherTables (condition parent target : String)
  deriving DecidableEq

/-- The wording of a join fault. -/
def JoinFault.message : JoinFault → String
  | .notAnEquation condition => "join condition '" ++ condition ++ "' is not of the form a.x = b.y"
  | .notAColumn side => "expected table.column, found '" ++ side ++ "'"
  | .otherTables condition parent target =>
    "join condition '" ++ condition ++ "' does not connect tables '" ++ parent ++ "' and '" ++ target ++ "'"

/-- Why there is no schema. -/
inductive SchemaFault where
  | unreadable (path : String) (fault : FileFault)
  /-- The text is not a document of the expected form. -/
  | notADocument
  | unknownTarget (entity label target : String)
  | fieldAndRelationship (entity label : String)
  | join (entity label : String) (fault : JoinFault)

/-- The wording of a schema fault. -/
def SchemaFault.message : SchemaFault → String
  | .unreadable path fault => "failed to read " ++ path ++ ": " ++ fault.message
  | .notADocument => "failed to parse schema"
  | .unknownTarget entity label target =>
    "relationship '" ++ entity ++ "." ++ label ++ "' targets unknown entity '" ++ target ++ "'"
  | .fieldAndRelationship entity label =>
    "'" ++ entity ++ "." ++ label ++ "' is declared both as a field and as a relationship"
  | .join entity label fault => "relationship '" ++ entity ++ "." ++ label ++ "': " ++ fault.message

/-- The name of the settings file. -/
def settingsFile : String := "treeql.toml"

/-- The name of the environment variable that overrides the database of the settings. -/
def databaseVariable : String := "TREEQL_DATABASE_URL"

/-- Why a setting is not to be had. -/
inductive SettingsFault where
  | notADocument
  | noDatabase
  | noSchema
  deriving DecidableEq

/-- The wording of a settings fault. -/
def SettingsFault.message : SettingsFault → String
  | .notADocument => "failed to parse " ++ settingsFile
  | .noDatabase => "no database URL; set database_url in " ++ settingsFile ++ " or " ++ databaseVariable
  | .noSchema => "no schema file; set schema in " ++ settingsFile

/-- Everything that can go wrong. -/
inductive Error where
  /-- The text is not a query; `position` counts bytes. -/
  | malformed (position : Nat) (fault : SyntaxFault)
  | invalid (fault : QueryFault)
  | uncompilable (fault : CompileFault)
  | schema (fault : SchemaFault)
  | settings (fault : SettingsFault)
  | file (fault : FileFault)

/-- Who can mend an error. -/
inductive Blame where
  /-- Whoever wrote the query. -/
  | client
  | server
  deriving DecidableEq, Repr

namespace Error

/-- The wording of an error. -/
def message : Error → String
  | .malformed position fault => s!"Syntax error at position {position}: " ++ fault.message
  | .invalid fault => "Invalid query: " ++ fault.message
  | .uncompilable fault => "SQL generation failed: " ++ fault.message
  | .schema fault => "Schema error: " ++ fault.message
  | .settings fault => "Configuration error: " ++ fault.message
  | .file fault => "IO error: " ++ fault.message

/-- Who can mend an error. -/
def blame : Error → Blame
  | .malformed .. | .invalid _ => .client
  | .uncompilable _ | .schema _ | .settings _ | .file _ => .server

/-- The HTTP status that answers a request with an error. -/
def status (e : Error) : Nat :=
  match e.blame with
  | .client => 422
  | .server => 500

end Error

end TreeQuery
