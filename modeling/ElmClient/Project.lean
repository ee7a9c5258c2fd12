/-
Module: ElmClient.Project
Purpose: The part of an Elm project file that tells where sources are.
Main exports: Project, Project.ofText?
-/
import ElmClient.Json.Skip

namespace ElmClient

/-- An Elm project: the directories of its sources. -/
structure Project where
  sourceDirectories : List String := ["src"]
deriving DecidableEq, Repr, Inhabited

namespace Project

open Json

/-- The key of the source directories. -/
def directoriesKey : String := "source-directories"

/-- Reads a string. -/
def scanText : Scanner String
  | '"' :: rest => scanKey rest
  | _ => none

/-- Reads an array of strings. -/
def scanTexts : Scanner (List String)
  | '[' :: rest => scanClosed scanText ']' rest
  | _ => none

/-- The project of what was given for the source directories: nothing or one list. -/
def ofGiven? : List (List String) → Option Project
  | [] => some {}
  | [directories] => some ⟨directories⟩
  | _ => none

/-- Reads an entry of a project file. What is not about the source directories is skipped. -/
def scanMember : Scanner (String × Option (List String)) := fun text =>
  let value (key : String) : Scanner (Option (List String)) := fun text =>
    if key == directoriesKey then
      (scanTexts text).map fun (directories, rest) => (some directories, rest)
    else (skipValue (text.length + 1) text).map fun (_, rest) => (none, rest)
  scanEntry scanKey value text

/-- Reads a project file: an object, or an array that holds the source directories alone. Only the
first value of the text counts. -/
def ofText? (text : String) : Option Project :=
  match skipSpace text.toList with
  | '\x7b' :: rest => do
      let (members, _) ← scanClosed scanMember '\x7d' rest
      ofGiven? (members.filterMap (·.2))
  | '[' :: rest => do
      let (items, _) ← scanClosed scanTexts ']' rest
      ofGiven? items
  | _ => none

end Project

end ElmClient
