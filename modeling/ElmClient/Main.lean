/-
Module: ElmClient.Main
Purpose: The command line: the files of the operating system, the standard streams, and the exit
  code.
Main exports: main
-/
import ElmClient.Command.Run

namespace ElmClient.CommandLine

/-- What is wrong with a file, by the error number of the operating system, which can come with a
minus. -/
def fileErrorOf (error : IO.Error) : FileError :=
  match error with
  | .noFileOrDirectory _ _ _ => .notFound
  | .inappropriateType _ number _ =>
      let number := min number (0 - number)
      if number == 20 then .notADirectory
      else if number == 21 then .isADirectory
      else .other (toString error)
  | _ => .other (toString error)

/-- The result of an action on a file. -/
def attempt {α : Type} (action : IO α) : IO (Except FileError α) := do
  match ← action.toBaseIO with
  | .ok result => pure (.ok result)
  | .error error => pure (.error (fileErrorOf error))

/-- What a path leads to. -/
def kindOf? (path : String) : IO (Option EntryKind) := do
  match ← (IO.FS.realPath path).toBaseIO with
  | .error _ => pure none
  | .ok place =>
      if ← place.isDir then pure (some .directory)
      else if ← place.pathExists then pure (some .file)
      else pure none

/-- The names in a directory. -/
def namesIn (path : String) : IO (List String) := do
  let place ← IO.FS.realPath path
  let entries ← place.readDir
  pure (entries.toList.map (·.fileName))

/-- The files of the operating system. -/
def systemFiles : FileSystem IO where
  kind? path := kindOf? path
  entries path := attempt (namesIn path)
  read path := attempt (IO.FS.readFile path)
  write path text := attempt (IO.FS.writeFile path text)

/-- The lines for an error and its causes. -/
def errorLines : List String → List String
  | [] => []
  | [message] => ["Error: " ++ message]
  | [message, cause] => ["Error: " ++ message, "", "Caused by:", "    " ++ cause]
  | message :: causes =>
      ["Error: " ++ message, "", "Caused by:"] ++
        causes.mapIdx fun index cause => "    " ++ toString index ++ ": " ++ cause

/-- Runs a command and reports on it. The result is the exit code. -/
def execute (command : Command) : IO UInt32 := do
  match ← (command.run systemFiles).run with
  | .ok report =>
      IO.print report.output
      IO.eprint report.notes
      pure 0
  | .error error =>
      for line in errorLines error.causes do
        IO.eprintln line
      pure 1

end ElmClient.CommandLine

/-- Runs the command that the arguments ask for. -/
def main (arguments : List String) : IO UInt32 := do
  match ElmClient.Command.ofArguments arguments with
  | .ok command => ElmClient.CommandLine.execute command
  | .error error => do
      IO.eprintln ("error: " ++ error.message)
      pure (if error == .helpRequested then 0 else 2)
