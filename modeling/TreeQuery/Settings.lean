import TreeQuery.Error
import TreeQuery.Path
import TreeQuery.Toml.Reader

/-!
# Settings

Where the database and the schema are. A settings file is a TOML document with the keys `database_url` and `schema`,
both optional; entries under other keys are ignored. The path of a schema is seen from the directory of the file that
gives it.
-/

namespace TreeQuery

/-- Where the database and the schema are. -/
structure Settings where
  database : Option String
  schema : Option String
  deriving DecidableEq, Repr

namespace Settings

/-- Nothing is set. -/
def unset : Settings := ⟨none, none⟩

/-- The settings in a document. -/
def ofDocument? (document : List (String × Toml)) : Option Settings := do
  return ⟨← Toml.optional? Toml.text? "database_url" document, ← Toml.optional? Toml.text? "schema" document⟩

/-- The settings in a TOML text. -/
def ofTomlText (text : String) : Except Error Settings :=
  match (Toml.read? text).bind ofDocument? with
  | some s => .ok s
  | none => .error (.settings .notADocument)

/-- Settings with their schema's path seen from the directory of the file that gives them. -/
def seenFrom (s : Settings) (file : String) : Settings :=
  match Path.parent? file with
  | some directory => { s with schema := s.schema.map (Path.join directory) }
  | none => s

/-- The settings in a file, given what reading it brought. -/
def ofFile (path : String) : Except FileFault String → Except Error Settings
  | .ok text => (ofTomlText text).map (·.seenFrom path)
  | .error fault => .error (.file fault)

/-- Settings overridden by the value of the environment variable `databaseVariable`, unless it is empty. -/
def withVariable (s : Settings) : Option String → Settings
  | some url => if url.isEmpty then s else { s with database := some url }
  | none => s

/-- The database, which has to be set. -/
def requireDatabase (s : Settings) : Except Error String :=
  match s.database with
  | some url => .ok url
  | none => .error (.settings .noDatabase)

/-- The path of the schema, which has to be set. -/
def requireSchema (s : Settings) : Except Error String :=
  match s.schema with
  | some path => .ok path
  | none => .error (.settings .noSchema)

/-- The files that settings are looked for in, in this order: one in the working directory and one of the user, whose
configuration is in the directory given. -/
def settingsPaths (configDirectory : Option String) : List String :=
  settingsFile :: (configDirectory.map fun directory => Path.join (Path.join directory "treeql") settingsFile).toList

/-- The settings in the first of some files that is there. -/
def load {m : Type → Type} [Monad m] (read : String → m (Except FileFault String)) :
    List String → m (Except Error Settings)
  | [] => pure (.ok unset)
  | path :: rest => do
    let content ← read path
    match content with
    | .error fault => if fault.isMissing then load read rest else return ofFile path content
    | .ok _ => return ofFile path content

end Settings

end TreeQuery
