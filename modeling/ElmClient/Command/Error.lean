/-
Module: ElmClient.Command.Error
Purpose: Why a command fails, as a chain of messages from the outermost to the innermost cause.
Main exports: CommandError, CommandError.causes
-/
import ElmClient.Elm.Decoding
import ElmClient.Files.Search
import ElmClient.GenerationError
import ElmClient.Schema.Basic

namespace ElmClient

open GraphQL (DocumentError)
open Elm (DecodeError)

/-- The messages of an error of a schema and of its cause. -/
def SchemaError.causes (error : SchemaError) : List String :=
  match error with
  | .unreadableDefinitions cause => [error.message, cause.message]
  | .unfitIntrospection cause => [error.message, cause.text]
  | _ => [error.message]

/-- The messages of an error of a document and of its cause. -/
def GenerationError.causes (error : GenerationError) : List String :=
  match error with
  | .unreadable cause => [error.message, cause.message]
  | _ => [error.message]

/-- The messages of an error and of those further in. -/
def Elm.DecodeError.causes : DecodeError → List String
  | .inField name cause => (DecodeError.inField name cause).message :: cause.causes
  | .atIndex index cause => (DecodeError.atIndex index cause).message :: cause.causes
  | error => [error.message]

/-- Why a command fails. -/
inductive CommandError where
  | schemaNotRead (path : String) (error : FileError)
  | noSchema (path : String) (error : SchemaError)
  | notRead (path : String) (error : FileError)
  | notWritten (path : String) (error : FileError)
  | notGenerated (path : String) (error : GenerationError)
  | malformedDocument (path : String) (error : DocumentError)
  | malformedResponse (path : String)
  | nothingSelected (pointer path : String)
  | noOperation (path : String)
  | notDecoded (path : String) (error : DecodeError)
  | noProject (directory : String)
  | malformedProject (path : String)
  | malformedPattern (error : PatternError)
  | noMatch (pattern : String)
  | notSearched (error : SearchError)
deriving BEq, Repr, Inhabited

namespace CommandError

/-- What is said about a text that is not JSON of the form in need. -/
def malformedJson : String := "the text is not JSON of the expected form"

/-- The messages of an error and its causes, the outermost first. -/
def causes : CommandError → List String
  | .schemaNotRead path error =>
      ["failed to load schema " ++ path,
        "failed to read schema " ++ path ++ ": " ++ error.message, error.message]
  | .noSchema path error => ("failed to load schema " ++ path) :: error.causes
  | .notRead path error => ["failed to read " ++ path, error.message]
  | .notWritten path error => ["failed to write " ++ path, error.message]
  | .notGenerated path error => ("failed to translate " ++ path) :: error.causes
  | .malformedDocument path error => ["failed to parse " ++ path, error.message]
  | .malformedResponse path => ["failed to parse JSON " ++ path, malformedJson]
  | .nothingSelected pointer path =>
      ["JSON pointer " ++ pointer ++ " selects nothing in " ++ path]
  | .noOperation path => [path ++ " defines no operation"]
  | .notDecoded path error => ("failed to decode " ++ path) :: error.causes
  | .noProject directory =>
      ["no elm-package.json or elm.json in " ++ directory ++ "; pass inputs with -i"]
  | .malformedProject path => ["invalid " ++ path, malformedJson]
  | .malformedPattern error => [error.message]
  | .noMatch pattern => ["glob pattern matched no files: " ++ pattern]
  | .notSearched error => [error.message]

end CommandError

end ElmClient
