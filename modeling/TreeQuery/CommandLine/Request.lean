import TreeQuery.Text.Split

/-!
# Requests of the command line

What the arguments of a program ask for. An argument is an option, in its long form or as a cluster of letters, or a
plain word; the arguments are read one after the other (`Progress.step`), and what they ask for is known at the end
(`Progress.conclude`).
-/

namespace TreeQuery.CommandLine

/-- How documents from a database are written. -/
inductive Layout where
  | json
  | pretty
  deriving DecidableEq, Repr

/-- The format with a name. -/
def Layout.ofName? (name : String) : Option Layout :=
  if name = "json" then some .json else if name = "pretty" then some .pretty else none

/-- Options without a value. -/
inductive Switch where
  | dryRun
  | encoded
  | verbose
  deriving DecidableEq, Repr

/-- Options with a value. -/
inductive Parameter where
  | schema
  | database
  | format
  deriving DecidableEq, Repr

/-- The long name of a switch. -/
def Switch.name : Switch → String
  | .dryRun => "dry-run"
  | .encoded => "encoded"
  | .verbose => "verbose"

/-- The long name of a parameter. -/
def Parameter.name : Parameter → String
  | .schema => "schema"
  | .database => "database-url"
  | .format => "format"

/-- What an option stands for. -/
inductive OptionKind where
  | switch (s : Switch)
  | parameter (p : Parameter)
  | help
  | version
  deriving DecidableEq, Repr

/-- The option with a long name. -/
def OptionKind.ofName? (name : String) : Option OptionKind :=
  match [Switch.dryRun, .encoded, .verbose].find? (·.name = name) with
  | some s => some (.switch s)
  | none =>
    match [Parameter.schema, .database, .format].find? (·.name = name) with
    | some p => some (.parameter p)
    | none => if name = "help" then some .help else if name = "version" then some .version else none

/-- The option with a letter. -/
def OptionKind.ofLetter? : Char → Option OptionKind
  | 'd' => some (.switch .dryRun)
  | 'e' => some (.switch .encoded)
  | 'v' => some (.switch .verbose)
  | 's' => some (.parameter .schema)
  | 'f' => some (.parameter .format)
  | 'h' => some .help
  | 'V' => some .version
  | _ => none

/-- Why arguments ask for nothing. -/
inductive UsageFault where
  | unexpected (argument : String)
  | repeated (option : String)
  | missingValue (option : String)
  | invalidValue (option value : String)
  | missingArguments
  deriving DecidableEq, Repr

/-- The wording of a usage fault. -/
def UsageFault.message : UsageFault → String
  | .unexpected argument => "unexpected argument '" ++ argument ++ "'"
  | .repeated option => "the argument '--" ++ option ++ "' cannot be used multiple times"
  | .missingValue option => "a value is required for '--" ++ option ++ "'"
  | .invalidValue option value => "invalid value '" ++ value ++ "' for '--" ++ option ++ "'"
  | .missingArguments => "the required arguments <ENTITY> <QUERY> were not provided"

/-- The options that are given. -/
structure Options where
  switches : List Switch := []
  schema : Option String := none
  database : Option String := none
  format : Option Layout := none
  deriving DecidableEq, Repr

namespace Options

/-- Whether a switch is given. -/
def isOn (o : Options) (s : Switch) : Bool := s ∈ o.switches

/-- The options with a switch. -/
def turnOn (o : Options) (s : Switch) : Except UsageFault Options :=
  if o.isOn s then .error (.repeated s.name) else .ok { o with switches := o.switches ++ [s] }

/-- Whether a parameter is given. -/
def has (o : Options) : Parameter → Bool
  | .schema => o.schema.isSome
  | .database => o.database.isSome
  | .format => o.format.isSome

/-- The options with a value of a parameter. A path may not be empty. -/
def assign (o : Options) (p : Parameter) (value : String) : Except UsageFault Options :=
  if o.has p then .error (.repeated p.name)
  else
    match p with
    | .schema => if value.isEmpty then .error (.invalidValue p.name value) else .ok { o with schema := value }
    | .database => .ok { o with database := value }
    | .format =>
      match Layout.ofName? value with
      | some format => .ok { o with format := format }
      | none => .error (.invalidValue p.name value)

end Options

/-- Words that name what is to be done, in the place of an entity or a query. -/
inductive Subcommand where
  | explain
  | entities
  | reference
  deriving DecidableEq, Repr

/-- The subcommand with a name. -/
def Subcommand.ofName? (name : String) : Option Subcommand :=
  if name = "explain" then some .explain
  else if name = "entities" then some .entities
  else if name = "syntax" then some .reference
  else none

/-- How many words come after a subcommand. -/
def Subcommand.arity : Subcommand → Nat
  | .explain => 2
  | .entities | .reference => 0

/-- What is to be done. -/
inductive Command where
  /-- Runs a query, or shows its statement. -/
  | query (entity text : String)
  /-- Shows the action tree and the statement of a query. -/
  | explain (entity text : String)
  /-- Lists the entities of the registry. -/
  | entities
  /-- Shows the forms of query text. -/
  | reference
  /-- Says how the program is used. -/
  | greeting
  deriving DecidableEq, Repr

/-- What arguments ask for. -/
inductive Request where
  | command (command : Command) (options : Options)
  | help
  | version
  deriving DecidableEq, Repr

/-- An argument by its form. -/
inductive Argument where
  /-- Two hyphens: what follows are no options. -/
  | endOfOptions
  | long (name : String) (value : Option String)
  | cluster (letters : List Char)
  | word (text : String)
  deriving DecidableEq, Repr

/-- The form of an argument. A hyphen by itself is a word. -/
def Argument.ofText (text : String) : Argument :=
  match text.toList with
  | ['-', '-'] => .endOfOptions
  | '-' :: '-' :: rest =>
    match Text.splitFirst? '=' rest with
    | some (name, value) => .long (String.ofList name) (some (String.ofList value))
    | none => .long (String.ofList rest) none
  | '-' :: letter :: rest => .cluster (letter :: rest)
  | _ => .word text

/-- What may come next. -/
inductive Stage where
  /-- Options, subcommands and words. -/
  | start
  /-- The value of a parameter. -/
  | value (p : Parameter)
  /-- Words alone. -/
  | words
  /-- The words after a subcommand; whether options have ended. -/
  | subcommand (s : Subcommand) (words : List String) (ended : Bool)
  /-- Anything; it is ignored. -/
  | answered (r : Request)
  deriving DecidableEq, Repr

/-- What has been read: options, and words that are no subcommands. -/
structure Progress where
  options : Options
  words : List String
  stage : Stage
  deriving DecidableEq, Repr

namespace Progress

/-- Nothing has been read. -/
def initial : Progress := ⟨{}, [], .start⟩

/-- One word more, up to a number of words. -/
def addWord (most : Nat) (words : List String) (word : String) : Except UsageFault (List String) :=
  if words.length < most then .ok (words ++ [word]) else .error (.unexpected word)

/-- A word has been read that is no subcommand: an entity or a query. -/
def addOwnWord (p : Progress) (word : String) : Except UsageFault Progress := do
  return { p with words := ← addWord 2 p.words word }

/-- A value of a parameter has been read. -/
def assign (p : Progress) (parameter : Parameter) (value : String) : Except UsageFault Progress := do
  return { p with options := ← p.options.assign parameter value, stage := .start }

/-- A cluster has been read: letters of switches, then perhaps that of a parameter with its value. -/
def addCluster (p : Progress) : List Char → Except UsageFault Progress
  | [] => .ok p
  | letter :: rest =>
    match OptionKind.ofLetter? letter with
    | some (.switch s) => do addCluster { p with options := ← p.options.turnOn s } rest
    | some (.parameter parameter) =>
      match rest with
      | [] => .ok { p with stage := .value parameter }
      | '=' :: value | value => p.assign parameter (String.ofList value)
    | some .help => .ok { p with stage := .answered .help }
    | some .version => .ok { p with stage := .answered .version }
    | none => .error (.unexpected (String.ofList ['-', letter]))

/-- An option in its long form has been read. -/
def addLong (p : Progress) (name : String) (value : Option String) : Except UsageFault Progress :=
  match OptionKind.ofName? name, value with
  | some (.switch s), none => do return { p with options := ← p.options.turnOn s }
  | some (.parameter parameter), none => .ok { p with stage := .value parameter }
  | some (.parameter parameter), some value => p.assign parameter value
  | some .help, none => .ok { p with stage := .answered .help }
  | some .version, none => .ok { p with stage := .answered .version }
  | _, _ => .error (.unexpected ("--" ++ name))

/-- One more argument has been read. -/
def step (p : Progress) (text : String) : Except UsageFault Progress :=
  match p.stage with
  | .start =>
    match Argument.ofText text with
    | .endOfOptions => .ok { p with stage := .words }
    | .long name value => p.addLong name value
    | .cluster letters => p.addCluster letters
    | .word word =>
      match Subcommand.ofName? word with
      | some s => .ok { p with stage := .subcommand s [] false }
      | none => p.addOwnWord word
  | .value parameter =>
    match Argument.ofText text with
    | .word value => p.assign parameter value
    | _ => .error (.missingValue parameter.name)
  | .words => p.addOwnWord text
  | .subcommand s words ended =>
    match ended, Argument.ofText text with
    | false, .endOfOptions => .ok { p with stage := .subcommand s words true }
    | false, .long _ _ | false, .cluster _ => .error (.unexpected text)
    | true, _ | false, .word _ => do return { p with stage := .subcommand s (← addWord s.arity words text) ended }
  | .answered _ => .ok p

/-- What is asked for if no argument follows. -/
def conclude (p : Progress) : Except UsageFault Request :=
  match p.stage with
  | .start | .words =>
    match p.words with
    | [entity, text] => .ok (.command (.query entity text) p.options)
    | _ => .ok (.command .greeting p.options)
  | .value parameter => .error (.missingValue parameter.name)
  | .subcommand .explain [entity, text] _ => .ok (.command (.explain entity text) p.options)
  | .subcommand .explain _ _ => .error .missingArguments
  | .subcommand .entities _ _ => .ok (.command .entities p.options)
  | .subcommand .reference _ _ => .ok (.command .reference p.options)
  | .answered r => .ok r

end Progress

/-- What the arguments ask for. -/
def Request.ofArguments (arguments : List String) : Except UsageFault Request := do
  (← arguments.foldlM Progress.step .initial).conclude

end TreeQuery.CommandLine
