import TreeQuery.Error
import TreeQuery.Path

/-!
# Trees of files

A working directory held in memory, with the files below it. Nothing is known of what is outside.
-/

namespace TreeQuery

/-- Files with their texts, and directories that are there even if no file is in them; both by the names that lead to
them from the working directory. -/
structure FileTree where
  files : List (List String × String)
  directories : List (List String)

/-- Where a path leads. -/
inductive Place where
  | file (text : String)
  | directory (names : List String)
  /-- A directory that the working directory is in. -/
  | outside

namespace FileTree

/-- Whether a part of a path stays where it is. -/
def staysPut (part : String) : Bool := part = "" || part = "."

/-- The names that a path in the tree goes through. -/
def names (path : String) : List String := (Path.parts path).filter (!staysPut ·)

/-- The tree with files and directories at the given paths. -/
def ofPaths (files : List (String × String)) (directories : List String) : FileTree :=
  ⟨files.map fun (path, text) => (names path, text), directories.map names⟩

/-- Whether some names lead to a directory. -/
def isDirectory (t : FileTree) (names : List String) : Bool :=
  t.directories.any names.isPrefixOf || t.files.any fun (file, _) => names.isPrefixOf file && file.length ≠ names.length

/-- What some names lead to. -/
def place? (t : FileTree) (names : List String) : Option Place :=
  match t.files.find? fun (file, _) => file = names with
  | some (_, text) => some (.file text)
  | none => if t.isDirectory names then some (.directory names) else none

/-- The length from which on a name in bytes is too long. -/
def longName : Nat := 256

/-- The length from which on a path in bytes is too long. -/
def longPath : Nat := 4096

/-- One part of a path further. -/
def step (t : FileTree) (place : Place) (part : String) : Except FileFault Place :=
  match place with
  | .file _ => .error .notADirectory
  | .directory names =>
    if staysPut part then .ok place
    else if part = ".." then .ok (if names.isEmpty then .outside else .directory names.dropLast)
    else if longName ≤ part.utf8ByteSize then .error .nameTooLong
    else
      match t.place? (names ++ [part]) with
      | some next => .ok next
      | none => .error .notFound
  | .outside =>
    if staysPut part || part = ".." then .ok place
    else if longName ≤ part.utf8ByteSize then .error .nameTooLong
    else .error .notFound

/-- The text of the file at a path. -/
def read (t : FileTree) (path : String) : Except FileFault String :=
  if path.toList.contains '\x00' then .error .nulInName
  else if path.isEmpty then .error .notFound
  else if longPath ≤ path.utf8ByteSize then .error .nameTooLong
  else do
    match ← (Path.parts path).foldlM t.step (if Path.isRelative path then .directory [] else .outside) with
    | .file text => return text
    | .directory _ | .outside => throw .isADirectory

end FileTree

end TreeQuery
