import TreeQuery.CommandLine.Display
import TreeQuery.CommandLine.Request
import TreeQuery.Registry.Document
import TreeQuery.Settings

/-!
# Running the command line

From the arguments of the program to what it prints. The system that runs the program is a parameter (`Host`), so that
the same program runs on a disk and on files held in memory.
-/

namespace TreeQuery.CommandLine

/-- What the system that runs a program gives to it. -/
structure Host (m : Type → Type) where
  /-- Reads the file at a path. -/
  read : String → m (Except FileFault String)
  /-- The directory of the user's configuration. -/
  configDirectory : Option String
  /-- The value of the environment variable `databaseVariable`. -/
  database : Option String

/-- What a run prints, line by line, and the code with which it ends. -/
structure Report where
  output : List String
  errors : List String
  code : Nat
  deriving DecidableEq, Repr

/-- The text of some lines. -/
def textOfLines (lines : List String) : String := String.join (lines.map (· ++ "\n"))

/-- Why a run fails. -/
inductive Failure where
  | error (e : Error)
  /-- The registry cannot be had from a file. -/
  | loading (path : String) (e : Error)
  /-- Statements are only shown: nothing here can run them on a database. -/
  | noEngine (database : String)

/-- The wording of a failure. -/
def Failure.message : Failure → String
  | .error e => e.message
  | .loading path e => "loading schema from " ++ path ++ ": " ++ e.message
  | .noEngine database => "Database error: no driver for " ++ database

namespace Report

/-- A run that succeeds. -/
def success (output : List String) : Report := ⟨output, [], 0⟩

/-- A run that fails after some lines of output and of errors. -/
def failure (output errors : List String) (f : Failure) : Report := ⟨output, errors ++ ["Error: " ++ f.message], 1⟩

/-- A run with unusable arguments. -/
def misuse (fault : UsageFault) : Report :=
  ⟨[], ["error: " ++ fault.message, "", "For more information, try '--help'."], 2⟩

end Report

/-- Settings with the options of the command line before them. Between the two comes the database of the host, which
counts here even if it is empty. -/
def Options.override (o : Options) (hostDatabase : Option String) (s : Settings) : Settings :=
  ⟨(o.database.or hostDatabase).or s.database, o.schema.or s.schema⟩

/-- The text of a query as it was meant. -/
def Options.decode (o : Options) (text : String) : Except Error String :=
  if o.isOn .encoded then Query.decodedText text else .ok text

/-- Shows the statement of a query. -/
def showStatement (r : Registry) (o : Options) (s : Settings) (entity text : String) : Report :=
  let trace := if o.isOn .verbose then ["Input: " ++ entity ++ " " ++ text] else []
  match Query.ofText r entity text with
  | .error e => .failure [] trace (.error e)
  | .ok q =>
    let shown := statementLines q.statement
    if o.isOn .dryRun then ⟨shown, trace, 0⟩
    else
      match s.database with
      | none => ⟨shown ++ ["", "⚠ No database URL. Use --database-url or set " ++ databaseVariable], trace, 0⟩
      | some database => .failure [] trace (.noEngine database)

/-- Shows the action tree and the statement of a query. -/
def explanation (r : Registry) (entity text : String) : Report :=
  let heading := ["treeql Query Explanation", "", "Query: " ++ entity ++ " " ++ text, ""]
  match ActionTree.ofText text with
  | .error e => .failure heading (faultLines text e) (.error e)
  | .ok tree =>
    let shown := heading ++ "Action Tree:" :: (treeLines 1 entity tree ++ [""])
    match Query.ofText r entity text with
    | .error e => .failure shown [] (.error e)
    | .ok q => .success (shown ++ statementLines q.statement)

/-- The report on the text that a query was meant to have. -/
def withDecoded (o : Options) (text : String) (report : String → Report) : Report :=
  match o.decode text with
  | .ok text => report text
  | .error e => .failure [] [] (.error e)

variable {m : Type → Type} [Monad m]

/-- The report on the registry that the settings name. -/
def withRegistry (host : Host m) (s : Settings) (report : Registry → Report) : m Report :=
  match s.requireSchema with
  | .error e => return .failure [] [] (.error e)
  | .ok path => do
    match Registry.ofFile path (← host.read path) with
    | .error e => return .failure [] [] (.loading path e)
    | .ok r => return report r

/-- Does what a command says, with the settings found. -/
def Command.perform (host : Host m) (o : Options) (c : Command) : m Report := do
  match ← Settings.load host.read (Settings.settingsPaths host.configDirectory) with
  | .error e => return .failure [] [] (.error e)
  | .ok s =>
    let s := o.override host.database s
    match c with
    | .query entity text => withRegistry host s fun r => withDecoded o text (showStatement r o s entity)
    | .explain entity text => withRegistry host s fun r => withDecoded o text (explanation r entity)
    | .entities => withRegistry host s fun r => .success (registryLines r)
    | .reference => return .success referenceLines
    | .greeting => return .success greetingLines

/-- Does what the arguments ask for. -/
def run (host : Host m) (arguments : List String) : m Report :=
  match Request.ofArguments arguments with
  | .error fault => pure (.misuse fault)
  | .ok .help => pure (.success helpLines)
  | .ok .version => pure (.success [versionLine])
  | .ok (.command c o) => c.perform host o

end TreeQuery.CommandLine
