import ApiWorkbench.Text.Blank

/-!
# Paths

A path is a list of names after a root. Names that are empty or a single point say
nothing and are left out, so that a path has one text. `given` keeps the text that a
path was written as: with a slash at its end it can only be that of a directory.
-/

namespace ApiWorkbench.CommandLine

/-- A path of a file or a directory. -/
structure Path where
  /-- what an absolute path starts with; nothing for a relative one -/
  root : String
  names : List String
deriving DecidableEq, Repr

namespace Path

/-- What a path starts with: exactly two slashes are kept. -/
def rootOf (text : String) : String :=
  match text.toList.takeWhile (· == '/') with
  | [] => ""
  | ['/', '/'] => "//"
  | _ => "/"

/-- The path that a text stands for. -/
def ofText (text : String) : Path :=
  let names := (Text.splitAt '/' text.toList).map String.ofList
  ⟨rootOf text, names.filter fun name => name != "" && name != "."⟩

/-- The text of a path. -/
def text (path : Path) : String :=
  if path.root.isEmpty && path.names.isEmpty then "."
  else path.root ++ "/".intercalate path.names

/-- The path of an entry of a directory. -/
def entry (path : Path) (name : String) : Path :=
  { path with names := path.names ++ [name] }

/-- The path of the directory that something is in. -/
def parent (path : Path) : Path :=
  { path with names := path.names.dropLast }

end Path

/-- A path as it was given. -/
structure GivenPath where
  text : String
deriving DecidableEq, Repr

namespace GivenPath

/-- The path itself. -/
def path (given : GivenPath) : Path :=
  .ofText given.text

/-- Whether the text is that of a directory. -/
def namesDirectory (given : GivenPath) : Bool :=
  given.text.isEmpty || given.text.endsWith "/" || given.text.endsWith "/."

end GivenPath

/-- What there is under a path. -/
inductive Entry where
  | nothing
  | file (content : String)
  | directory
deriving DecidableEq, Repr

/-- What there is under a path as it was given. -/
def GivenPath.seen (look : Path → Entry) (given : GivenPath) : Entry :=
  if given.text.isEmpty then .nothing
  else match look given.path with
    | .file content => if given.namesDirectory then .nothing else .file content
    | entry => entry

end ApiWorkbench.CommandLine
