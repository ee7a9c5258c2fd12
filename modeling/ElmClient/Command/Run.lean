/-
Module: ElmClient.Command.Run
Purpose: Running commands.
Main exports: Report, Command.run
-/
import ElmClient.Command.Arguments
import ElmClient.Command.Sources
import ElmClient.Elm.Source
import ElmClient.Generation
import ElmClient.Json.Pointer
import ElmClient.Name
import ElmClient.Schema.Definitions
import ElmClient.Schema.Introspection

namespace ElmClient

open Elm (Module)

/-- What a command has done: nothing, written modules, or decoded a value. -/
inductive Report where
  | idle
  | generated (paths : List String)
  | decoded (value : Elm.Value)
deriving BEq, Repr, Inhabited

namespace Report

/-- What goes to the standard output. -/
def output : Report → String
  | .idle | .generated _ => ""
  | .decoded value => value.text ++ "\n"

/-- What is told about the work on the way. -/
def notes : Report → String
  | .idle | .decoded _ => ""
  | .generated paths =>
      String.join (paths.map fun path => "  wrote " ++ path ++ "\n") ++
        "✓ " ++ toString paths.length ++ " Elm module(s) generated\n"

end Report

variable {m : Type → Type} [Monad m]

/-- Whether the schema of a path is an introspection answer. -/
def isIntrospectionPath (path : String) : Bool :=
  (Path.extension? path).any fun extension => extension.map Char.toLower == "json"

/-- The schema of a file. -/
def loadSchema (files : FileSystem m) (path : String) : Running m Schema := do
  match ← files.read path with
  | .error error => throw (.schemaNotRead path error)
  | .ok text =>
      let loaded :=
        if isIntrospectionPath path then Schema.ofIntrospectionText text else Schema.ofText text
      match loaded with
      | .ok schema => pure schema
      | .error error => throw (.noSchema path error)

namespace GenerateCommand

/-- What is asked for with the document of a path. -/
def optionsFor (command : GenerateCommand) (path : String) : GenerationOptions :=
  { moduleName := Name.moduleOf path
    endpoint := command.endpoint
    method := command.method
    errorSpec := command.errorSpec }

/-- Generates the module of a document and writes it beside the document. The result is the path
of the module. -/
def generateFile (files : FileSystem m) (command : GenerateCommand) (schema : Schema)
    (path : String) : Running m String := do
  let text ← readText files path
  match generateFromText schema text (command.optionsFor path) with
  | .error error => throw (.notGenerated path error)
  | .ok generated =>
      let output := Path.withExtension path "elm"
      match ← files.write output generated.source with
      | .ok _ => pure output
      | .error error => throw (.notWritten output error)

/-- Generates a module for every document. -/
def run (files : FileSystem m) (command : GenerateCommand) : Running m Report := do
  if command.idle then pure .idle
  else
    let schema ← loadSchema files command.schema
    let paths ←
      if command.inputs.isEmpty then discoverSources files "."
      else resolveInputs files command.inputs
    let written ← paths.mapM (command.generateFile files schema)
    pure (.generated written)

end GenerateCommand

namespace DecodeCommand

/-- The module of the document of a command. -/
def module (command : DecodeCommand) (schema : Schema) (text : String) :
    Except CommandError Module := do
  let document ← (GraphQL.Document.parse text).mapError (.malformedDocument command.query)
  let options : GenerationOptions :=
    { moduleName := Name.moduleOf command.query, endpoint := "" }
  (generate schema document options).mapError (.notGenerated command.query)

/-- The data in the text of a response. -/
def data (command : DecodeCommand) (text : String) : Except CommandError Json := do
  match Json.parse? text with
  | none => throw (.malformedResponse command.response)
  | some response =>
      match response.pointer? command.pointer with
      | none => throw (.nothingSelected command.pointer command.response)
      | some data => pure data

/-- The operation that was answered. -/
def operationOf (command : DecodeCommand) (m : Module) : Except CommandError String :=
  match command.operation, m.requests with
  | some name, _ => .ok name
  | none, request :: _ => .ok request.operationName
  | none, [] => .error (.noOperation command.query)

/-- Decodes a response. -/
def run (files : FileSystem m) (command : DecodeCommand) : Running m Report := do
  let schema ← loadSchema files command.schema
  let document ← readText files command.query
  let generated ← liftExcept (command.module schema document)
  let response ← readText files command.response
  let data ← liftExcept (command.data response)
  let operation ← liftExcept (command.operationOf generated)
  match generated.decodeResponse operation data with
  | .ok value => pure (.decoded value)
  | .error error => throw (.notDecoded command.response error)
where
  /-- A result that was found without files. -/
  liftExcept {α : Type} (result : Except CommandError α) : Running m α :=
    ExceptT.mk (pure result)

end DecodeCommand

/-- Runs a command. -/
def Command.run (files : FileSystem m) : Command → Running m Report
  | .generate command => command.run files
  | .decode command => command.run files

end ElmClient
