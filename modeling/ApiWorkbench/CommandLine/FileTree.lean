import ApiWorkbench.CommandLine.Report

/-!
# File trees

A file tree is a directory with all that is in it. It answers for what there is under a
relative path, and a report can be carried out in it. Two points lead out of a
directory again. What lies around the tree is not known, apart from the directories
that the tree is in.
-/

namespace ApiWorkbench.CommandLine

/-- A file or a directory. -/
inductive FileTree where
  | file (content : String)
  | directory (entries : List (String × FileTree))

namespace FileTree

/-- A directory with nothing in it. -/
def empty : FileTree :=
  .directory []

/-- The file or directory under names. -/
def find? (names : List String) (tree : FileTree) : Option FileTree :=
  match names, tree with
  | [], tree => some tree
  | _ :: _, .file _ => none
  | name :: rest, .directory entries => (entries.lookup name).bind (find? rest)

/-- Whether there is a directory under names. -/
def hasDirectory (names : List String) (tree : FileTree) : Bool :=
  match tree.find? names with
  | some (.directory _) => true
  | _ => false

/-- The entries with one of them put in, in place of the one of that name. -/
def putEntry (name : String) (tree : FileTree) :
    List (String × FileTree) → List (String × FileTree)
  | [] => [(name, tree)]
  | entry :: rest =>
      if entry.1 == name then (name, tree) :: rest else entry :: putEntry name tree rest

/-- Puts a file or directory under names; the directory that it is put into
has to be there. -/
def put? (names : List String) (added : FileTree) (tree : FileTree) : Option FileTree :=
  match names, tree with
  | [], _ => none
  | _ :: _, .file _ => none
  | [name], .directory entries => some (.directory (putEntry name added entries))
  | name :: rest, .directory entries => do
    let inner ← (entries.lookup name).bind (put? rest added)
    pure (.directory (putEntry name inner entries))

/-! ## Paths -/

/-- Where a path leads. -/
inductive Place where
  /-- to a place in the tree, through these names -/
  | inside (names : List String)
  /-- to a directory that the tree is in -/
  | above
  | unknown

/-- Where a path leads from a directory that the tree is in. -/
def placeAbove (names : List String) : Place :=
  if names.all (· == "..") then .above else .unknown

/-- Where a path leads from `here` on, which is given in reverse. A name before two
points has to be that of a directory. -/
def resolveFrom (tree : FileTree) (here : List String) : List String → Place
  | [] => .inside here.reverse
  | name :: rest =>
    if name != ".." then resolveFrom tree (name :: here) rest
    else match here with
      | [] => placeAbove rest
      | _ :: up =>
          if tree.hasDirectory here.reverse then resolveFrom tree up rest else .unknown

/-- Where a path leads. -/
def resolve (tree : FileTree) (path : Path) : Place :=
  if path.root.isEmpty then resolveFrom tree [] path.names else placeAbove path.names

/-- What there is under a path. -/
def look (tree : FileTree) (path : Path) : Entry :=
  match tree.resolve path with
  | .inside names =>
    match tree.find? names with
    | some (.file content) => .file content
    | some (.directory _) => .directory
    | none => .nothing
  | .above => .directory
  | .unknown => .nothing

/-- Writes a file. -/
def write? (tree : FileTree) (path : Path) (content : String) : Option FileTree :=
  match tree.resolve path with
  | .inside names =>
      if tree.hasDirectory names then none else put? names (.file content) tree
  | _ => none

/-- Makes the directories that names lead through, from `here` on, which is
given in reverse. -/
def makeDirectoriesFrom (here : List String) : List String → FileTree → Option FileTree
  | [], tree => some tree
  | name :: rest, tree =>
    if name == ".." then
      match here with
      | [] => none
      | _ :: up => makeDirectoriesFrom up rest tree
    else
      let names := (name :: here).reverse
      match tree.find? names with
      | some (.directory _) => makeDirectoriesFrom (name :: here) rest tree
      | some (.file _) => none
      | none => (put? names empty tree).bind (makeDirectoriesFrom (name :: here) rest)

/-- Makes a directory, and those that it is in, as far as they are missing. -/
def makeDirectories? (tree : FileTree) (path : Path) : Option FileTree :=
  if path.root.isEmpty then makeDirectoriesFrom [] path.names tree else none

/-! ## Files -/

mutual

/-- All files, with the names that lead to them. -/
def files : FileTree → List (List String × String)
  | .file content => [([], content)]
  | .directory entries => filesOf entries

/-- All files in the entries of a directory. -/
def filesOf : List (String × FileTree) → List (List String × String)
  | [] => []
  | (name, tree) :: rest =>
      (files tree).map (fun file => (name :: file.1, file.2)) ++ filesOf rest

end

/-- The tree with a file in it, and with the directories that it needs. -/
def withFile (tree : FileTree) (path : Path) (content : String) : FileTree :=
  (((tree.makeDirectories? path.parent).bind (·.write? path content))).getD tree

/-! ## Reports -/

/-- Carries out actions in turn, up to the first that fails: the tree afterwards, what
was said, and the failure. -/
def perform (tree : FileTree) : List Action → FileTree × List String × Option Failure
  | [] => (tree, [], none)
  | .say line :: rest =>
    let (tree, said, failure) := tree.perform rest
    (tree, line :: said, failure)
  | .makeDirectories path otherwise :: rest =>
    match tree.makeDirectories? path with
    | some tree => tree.perform rest
    | none => (tree, [], some otherwise)
  | .write path content otherwise :: rest =>
    match tree.write? path content with
    | some tree => tree.perform rest
    | none => (tree, [], some otherwise)
  | .spoil path otherwise :: _ =>
    match tree.write? path "" with
    | some tree => (tree, [], some .torn)
    | none => (tree, [], some otherwise)

end FileTree

/-- What came of a run: what was said, and how it ended. -/
structure Outcome where
  said : List String
  ending : Ending

/-- Runs the program in a tree. -/
def run (tree : FileTree) (environment : Environment) (arguments : List String) :
    FileTree × Outcome :=
  match Request.read environment arguments with
  | .error misuse => (tree, ⟨[], .misused misuse⟩)
  | .ok request =>
    let report := request.report tree.look
    match tree.perform report.actions with
    | (tree, said, none) => (tree, ⟨said.map printed, report.ending⟩)
    | (tree, said, some failure) => (tree, ⟨said.map printed, .failed failure⟩)

end ApiWorkbench.CommandLine
