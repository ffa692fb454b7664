import TreeQuery.Text.Split

/-!
# Paths

Names of files as texts: parts with slashes between them. A part that is empty or a point stays where it is, and two
points lead out of a directory.
-/

namespace TreeQuery.Path

/-- The parts between the slashes of a path, empty ones too. -/
def parts (path : String) : List String := (Text.splitAll '/' path.toList).map String.ofList

/-- Whether a path starts from the working directory. -/
def isRelative (path : String) : Bool := path.toList.head? != some '/'

/-- The path of `path` seen from a directory. -/
def join (directory path : String) : String :=
  if !isRelative path then path
  else if directory.isEmpty || directory.toList.getLast? = some '/' then directory ++ path
  else directory ++ "/" ++ path

/-- A path, written backwards, without the slashes and the points after slashes at its end. -/
def withoutEnd : List Char → List Char
  | ['/'] => ['/']
  | '/' :: rest => withoutEnd rest
  | '.' :: rest@('/' :: _) => withoutEnd rest
  | cs => cs

/-- The directory that a path names something in: the path without its last part. -/
def parent? (path : String) : Option String :=
  match withoutEnd path.toList.reverse with
  | [] | ['/'] => none
  | cs => some (String.ofList (withoutEnd (cs.dropWhile (· ≠ '/'))).reverse)

end TreeQuery.Path
