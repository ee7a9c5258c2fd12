/-
Module: ElmClient.Files.Search
Purpose: The paths that a pattern fits, found by going through directories.
Main exports: SearchError, PathPattern.find
-/
import ElmClient.Files.Basic
import ElmClient.Files.Pattern

namespace ElmClient

/-- A directory that cannot be gone through. -/
structure SearchError where
  directory : String
  error : FileError
deriving DecidableEq, Repr, Inhabited

/-- What is said about a directory that cannot be gone through. -/
def SearchError.message (error : SearchError) : String :=
  "attempting to read `" ++ error.directory ++ "` resulted in an error: " ++ error.error.message

namespace PathPattern

/-- A path that a search has come to. -/
structure Entry where
  path : String
  isDirectory : Bool
deriving DecidableEq, Repr, Inhabited

/-- A step of a search. -/
abbrev Search (m : Type → Type) := ExceptT SearchError m

variable {m : Type → Type} [Monad m]

/-- The entry of a path. -/
def entryAt (files : FileSystem m) (path : String) : Search m Entry := do
  let isDirectory ← files.isDirectory path
  pure ⟨path, isDirectory⟩

/-- The path of a name in a directory. The working directory is not named. -/
def childPath (directory name : String) : String :=
  if Path.components directory == [.current] then name else Path.join directory name

/-- The names in a directory in order. -/
def childNames (files : FileSystem m) (directory : String) : Search m (List String) := do
  match ← files.entries directory with
  | .ok names => pure (names.mergeSort fun a b => decide (a ≤ b))
  | .error error => throw ⟨directory, error⟩

/-- Whether a name is that of a directory itself or of the one above. -/
def isDots (name : String) : Bool := name == "." || name == ".."

/-- The names for a directory itself and the one above that a pattern with wildcards fits. Such a
pattern must start with a point. -/
def dotNames (pattern : NamePattern) : List String :=
  if pattern.head? == some (.char '.') then ["..", "."].filter pattern.accepts else []

/-- How many directories can be nested in one another: a path has at most 4096 bytes. -/
def nestingLimit : Nat := 4096

/-- The paths from an entry on that patterns fit, name by name, where every step costs one unit of
fuel. A name without wildcards is looked up. For any other pattern the names in the directory are
tried in order, and with a pattern for directories the names below each of them too. -/
def walk (files : FileSystem m) (directoriesOnly : Bool) :
    Nat → List NamePattern → Entry → Search m (List String)
  | 0, _, _ => pure []
  | _ + 1, [], entry => pure (if directoriesOnly && !entry.isDirectory then [] else [entry.path])
  | fuel + 1, pattern :: rest, entry =>
      match pattern.literal? with
      | some name => do
          let next ← entryAt files (childPath entry.path name)
          let present ← if isDots name then pure entry.isDirectory else files.exists? next.path
          if present then walk files directoriesOnly fuel rest next else pure []
      | none =>
          if entry.isDirectory then do
            let names ← childNames files entry.path
            let dots ← (dotNames pattern).mapM fun name => do
              let next ← entryAt files (Path.join entry.path name)
              walk files directoriesOnly fuel rest next
            let found ← names.mapM fun name => do
              let child ← entryAt files (childPath entry.path name)
              if pattern.isDirectories then
                let rest := rest.dropWhile (·.isDirectories)
                let own ←
                  match rest with
                  | [] => pure (if child.isDirectory then [child.path] else [])
                  | next :: rest =>
                      if next.accepts name then walk files directoriesOnly fuel rest child
                      else pure []
                let deeper ←
                  if child.isDirectory then walk files directoriesOnly fuel (pattern :: rest) child
                  else pure []
                pure (own ++ deeper)
              else if pattern.accepts name then walk files directoriesOnly fuel rest child
              else pure []
            pure (dots.flatten ++ found.flatten)
          else pure []

/-- The paths that a pattern fits, in the order of the names. -/
def find (files : FileSystem m) (pattern : PathPattern) : Search m (List String) := do
  let start ← entryAt files pattern.start
  walk files pattern.directoriesOnly (pattern.names.length + nestingLimit) pattern.names start

end PathPattern

end ElmClient
