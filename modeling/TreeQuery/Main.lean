import TreeQuery.CommandLine.Run

/-!
# The program

The command line on the files and the environment of a system.
-/

namespace TreeQuery.CommandLine

/-- The fault that an error of the system is. -/
def faultOfSystem : IO.Error → FileFault
  | .noFileOrDirectory .. => .notFound
  | .inappropriateType _ 21 _ => .isADirectory
  | .inappropriateType .. => .notADirectory
  | .invalidArgument _ 22 _ => .nulInName
  | .invalidArgument .. => .nameTooLong
  | e => .system e.toString

/-- Reads a file as a text. -/
def readFile (path : String) : IO (Except FileFault String) := do
  try
    match String.fromUTF8? (← IO.FS.readBinFile path) with
    | some text => return .ok text
    | none => return .error .notText
  catch e => return .error (faultOfSystem e)

/-- The directory of the user's configuration, given the values of the variables that say where it is. -/
def configDirectory? (configHome home : Option String) : Option String :=
  match configHome.filter (!Path.isRelative ·) with
  | some directory => some directory
  | none => home.map (Path.join · ".config")

/-- The system that the program runs on. -/
def systemHost : IO (Host IO) := do
  return ⟨readFile, configDirectory? (← IO.getEnv "XDG_CONFIG_HOME") (← IO.getEnv "HOME"),
    ← IO.getEnv databaseVariable⟩

end TreeQuery.CommandLine

/-- Runs the program and ends with its code. -/
def main (arguments : List String) : IO UInt32 := do
  let report ← TreeQuery.CommandLine.run (← TreeQuery.CommandLine.systemHost) arguments
  IO.print (TreeQuery.CommandLine.textOfLines report.output)
  IO.eprint (TreeQuery.CommandLine.textOfLines report.errors)
  return UInt32.ofNat report.code
