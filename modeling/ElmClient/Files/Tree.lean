/-
Module: ElmClient.Files.Tree
Purpose: A tree of files as a value: paths are followed one name at a time, and writing a file gives
  another tree.
Main exports: FileTree, FileTree.ofFiles, FileTree.resolve, FileTree.kind?, FileTree.read,
  FileTree.write, FileTree.fileSystem
-/
import ElmClient.Files.Basic

namespace ElmClient

/-- Files by place, which is the list of names on the way from the root, and the working directory.
A directory is there if a file or the working directory lies in it. -/
structure FileTree where
  files : List (List String × String)
  home : List String
deriving DecidableEq, Repr, Inhabited

namespace FileTree

/-- The place that one part of a path leads to. -/
def step (place : List String) (part : List Char) : List String :=
  match Path.component? part with
  | some .parent => place.dropLast
  | some (.normal name) => place ++ [name]
  | _ => place

/-- What there is at a place. -/
def kindAt? (tree : FileTree) (place : List String) : Option EntryKind :=
  if (tree.files.lookup place).isSome then some .file
  else if (tree.home :: tree.files.map Prod.fst).any (place.isPrefixOf ·) then some .directory
  else none

/-- The place that the parts of a path lead to. Every part, an empty one too, needs a directory to
start from. -/
def follow (tree : FileTree) (place : List String) :
    List (List Char) → Except FileError (List String)
  | [] => .ok place
  | part :: rest =>
      match tree.kindAt? place with
      | some .directory => tree.follow (step place part) rest
      | some .file => .error .notADirectory
      | none => .error .notFound

/-- The place that a path leads to, from the root or from the working directory. -/
def resolve (tree : FileTree) (path : String) : Except FileError (List String) :=
  match path.toList with
  | [] => .error .notFound
  | '/' :: rest => tree.follow [] (Path.splitSlashes rest)
  | text => tree.follow tree.home (Path.splitSlashes text)

/-- What a path leads to. -/
def kind? (tree : FileTree) (path : String) : Option EntryKind :=
  match tree.resolve path with
  | .ok place => tree.kindAt? place
  | .error _ => none

/-- The name right below a place on the way to another place. -/
def childName? : (place other : List String) → Option String
  | [], name :: _ => some name
  | a :: place, b :: other => if a == b then childName? place other else none
  | _, [] => none

/-- The names in a directory. -/
def entries (tree : FileTree) (path : String) : Except FileError (List String) := do
  let place ← tree.resolve path
  match tree.kindAt? place with
  | some .directory =>
      .ok ((tree.home :: tree.files.map Prod.fst).filterMap (childName? place)).eraseDups
  | some .file => .error .notADirectory
  | none => .error .notFound

/-- The text of a file. -/
def read (tree : FileTree) (path : String) : Except FileError String := do
  let place ← tree.resolve path
  match tree.files.lookup place with
  | some text => .ok text
  | none =>
      match tree.kindAt? place with
      | some _ => .error .isADirectory
      | none => .error .notFound

/-- The tree with a text at a place. -/
def put (place : List String) (text : String) (tree : FileTree) : FileTree :=
  { tree with files := (place, text) :: tree.files.filter (·.1 != place) }

/-- The tree with another text for a file. The file need not be there, but its directory must. -/
def write (tree : FileTree) (path text : String) : Except FileError FileTree := do
  let place ← tree.resolve path
  if tree.kindAt? place == some .directory then .error .isADirectory
  else .ok (tree.put place text)

/-- The tree of a working directory and files below it, with the directories that they need. -/
def ofFiles (home : List String) (files : List (String × String)) : FileTree :=
  files.foldl (fun tree (path, text) =>
    tree.put ((Path.splitSlashes path.toList).foldl step home) text) ⟨[], home⟩

/-- The files below the working directory with their paths from there. -/
def filesBelowHome (tree : FileTree) : List (String × String) :=
  tree.files.filterMap fun (place, text) =>
    if tree.home.isPrefixOf place then
      some ("/".intercalate (place.drop tree.home.length), text)
    else none

/-- Access to the files of a tree that is passed along. -/
def fileSystem : FileSystem (StateM FileTree) where
  kind? path := do pure ((← get).kind? path)
  entries path := do pure ((← get).entries path)
  read path := do pure ((← get).read path)
  write path text := do
    match (← get).write path text with
    | .ok tree =>
        set tree
        pure (.ok ())
    | .error error => pure (.error error)

end FileTree

end ElmClient
