/-
Module: ElmClient.Files.Basic
Purpose: What a program can ask about files, whatever holds them.
Main exports: FileError, EntryKind, FileSystem
-/
import ElmClient.Path

namespace ElmClient

/-- Why a file cannot be read or written. -/
inductive FileError where
  | notFound
  | notADirectory
  | isADirectory
  | other (text : String)
deriving DecidableEq, Repr, Inhabited

/-- What is said where a file cannot be read or written. -/
def FileError.message : FileError → String
  | .notFound => "No such file or directory (os error 2)"
  | .notADirectory => "Not a directory (os error 20)"
  | .isADirectory => "Is a directory (os error 21)"
  | .other text => text

/-- What a path can lead to. -/
inductive EntryKind where
  | file
  | directory
deriving DecidableEq, Repr, Inhabited

/-- Access to files by path: what is there, the names in a directory in no particular order, the
text of a file, and a new text for a file. -/
structure FileSystem (m : Type → Type) where
  kind? : String → m (Option EntryKind)
  entries : String → m (Except FileError (List String))
  read : String → m (Except FileError String)
  write : (path text : String) → m (Except FileError Unit)

namespace FileSystem

variable {m : Type → Type} [Monad m]

/-- Whether a path leads to a directory. -/
def isDirectory (files : FileSystem m) (path : String) : m Bool := do
  let kind ← files.kind? path
  pure (kind == some .directory)

/-- Whether a path leads to a file. -/
def isFile (files : FileSystem m) (path : String) : m Bool := do
  let kind ← files.kind? path
  pure (kind == some .file)

/-- Whether a path leads anywhere. -/
def exists? (files : FileSystem m) (path : String) : m Bool := do
  let kind ← files.kind? path
  pure kind.isSome

end FileSystem

end ElmClient
