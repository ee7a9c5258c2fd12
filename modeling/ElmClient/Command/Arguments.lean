/-
Module: ElmClient.Command.Arguments
Purpose: What the arguments of the command line ask for.
Main exports: UsageError, GenerateCommand, DecodeCommand, Command, Command.ofArguments
-/
import ElmClient.Dictionary
import ElmClient.Elm.Module

namespace ElmClient

open Elm (HttpMethod)

/-- Why arguments do not make a command. Asking for help is one of the reasons. -/
inductive UsageError where
  | helpRequested
  | nothingGiven
  | unknownCommand
  | unknownArgument
  | missingOption
  | badValue
  | givenTwice
  | unexpectedValue
deriving DecidableEq, Repr, Inhabited

/-- What is said about arguments that do not make a command. -/
def UsageError.message : UsageError → String
  | .helpRequested => "the commands are 'generate' and 'decode'"
  | .nothingGiven => "a command is required: 'generate' or 'decode'"
  | .unknownCommand => "there is no such command"
  | .unknownArgument => "there is no such argument"
  | .missingOption => "a required option is missing"
  | .badValue => "an option has a value that is not allowed, or has none"
  | .givenTwice => "an option is given twice"
  | .unexpectedValue => "a value is given for an option that takes none"

/-- What to generate modules from: a schema, the address of the server, the verb of queries, whether
responses carry errors in the way of the GraphQL specification, and the sources, which are looked up
if there are none. Whether to lay out the modules does not matter, for they are laid out when they
are written. If the command is idle, nothing is done. -/
structure GenerateCommand where
  schema : String
  endpoint : String
  method : HttpMethod := .get
  errorSpec : Bool := false
  inputs : List String := []
  format : Bool := false
  idle : Bool := false
deriving DecidableEq, Repr, Inhabited

/-- What to decode: the schema, the document, the response, the operation that was answered, or else
the first one, and where the data are in the response. -/
structure DecodeCommand where
  schema : String
  query : String
  response : String
  operation : Option String := none
  pointer : String := "/data"
deriving DecidableEq, Repr, Inhabited

/-- A command. -/
inductive Command where
  | generate (command : GenerateCommand)
  | decode (command : DecodeCommand)
deriving DecidableEq, Repr, Inhabited

namespace Command

/-- How many values an option takes. -/
inductive ValueCount where
  | none
  | one
  | many
deriving DecidableEq, Repr, Inhabited

/-- An option of a command: its name, the letter that also stands for it, how many values it takes
and which. Only an option with many values can be given again. -/
structure OptionSpec where
  name : String
  letter : Option Char := none
  count : ValueCount := .one
  allowed : String → Bool := fun _ => true

/-- The option that asks for help. -/
def helpOption : OptionSpec := { name := "help", letter := some 'h', count := .none }

/-- An option for a path, which cannot be empty. -/
def pathOption (name : String) : OptionSpec := { name := name, allowed := fun path => path != "" }

/-- The verbs by name. -/
def methods : List (String × HttpMethod) := [("get", .get), ("post", .post)]

/-- The options for generating. -/
def generateOptions : List OptionSpec :=
  [helpOption,
    pathOption "schema",
    { name := "endpoint" },
    { name := "method", allowed := fun value => (methods.lookup value).isSome },
    { name := "error-spec", count := .none },
    { name := "input", letter := some 'i', count := .many },
    { name := "format", count := .none },
    { name := "no-op", count := .none }]

/-- The options for decoding. -/
def decodeOptions : List OptionSpec :=
  [helpOption,
    pathOption "schema",
    pathOption "query",
    pathOption "response",
    { name := "operation" },
    { name := "json-pointer" }]

/-- The options that were given with their values, the one that waits for its values with those that
it has got, and whether a further value can be one of them. -/
structure Reading where
  given : List (String × List String) := []
  pending : Option (OptionSpec × List String) := none
  awaiting : Bool := false

namespace Reading

/-- Takes an option with all its values over. -/
def accept (spec : OptionSpec) (values : List String) (reading : Reading) :
    Except UsageError Reading :=
  let earlier := reading.given.lookup spec.name
  if spec.name == helpOption.name then .error .helpRequested
  else if spec.count != .none && values.isEmpty then .error .badValue
  else if spec.count != .many && earlier.isSome then .error .givenTwice
  else if values.all spec.allowed then
    .ok { given := Dictionary.insert spec.name (earlier.getD [] ++ values) reading.given }
  else .error .badValue

/-- Takes over the option that waits for values with those that it has got. -/
def settle (reading : Reading) : Except UsageError Reading :=
  match reading.pending with
  | none => .ok reading
  | some (spec, values) => reading.accept spec values

/-- Comes to an option, with a value that is attached to it. Without one, it waits for values. -/
def option (spec : OptionSpec) (attached : Option String) (reading : Reading) :
    Except UsageError Reading := do
  match spec.count, attached with
  | .none, some _ => .error .unexpectedValue
  | .none, none => (← reading.settle).accept spec []
  | _, some value => (← reading.settle).accept spec [value]
  | _, none =>
      let reading ← reading.settle
      pure { given := reading.given, pending := some (spec, []), awaiting := true }

/-- Comes to a word. -/
def word (text : String) (reading : Reading) : Except UsageError Reading :=
  match reading.pending with
  | some (spec, values) =>
      if reading.awaiting then
        .ok { reading with
          pending := some (spec, values ++ [text])
          awaiting := spec.count == .many }
      else .error .unknownArgument
  | none => .error .unknownArgument

/-- Comes to an option by its name, which an equals sign and a value can follow. -/
def longOption (specs : List OptionSpec) (text : List Char) (reading : Reading) :
    Except UsageError Reading :=
  let name := text.takeWhile (· != '=')
  let attached :=
    match text.drop name.length with
    | _ :: value => some (String.ofList value)
    | [] => none
  match specs.find? (·.name == String.ofList name) with
  | some spec => reading.option spec attached
  | none => .error .unknownArgument

/-- Comes to an option by its letter. The text after the letter of an option with values is one of
them, less an equals sign at its start. -/
def shortOption (specs : List OptionSpec) (letter : Char) (text : List Char)
    (reading : Reading) : Except UsageError Reading :=
  let attached :=
    match text with
    | [] => none
    | '=' :: value => some (String.ofList value)
    | value => some (String.ofList value)
  match specs.find? (·.letter == some letter) with
  | some spec => reading.option spec (if spec.count == .none then none else attached)
  | none => .error .unknownArgument

/-- Comes to an argument. -/
def argument (specs : List OptionSpec) (text : String) (reading : Reading) :
    Except UsageError Reading :=
  match text.toList with
  | '-' :: '-' :: name => reading.longOption specs name
  | '-' :: letter :: rest => reading.shortOption specs letter rest
  | _ => reading.word text

end Reading

/-- The options among arguments. Two dashes alone end them, and nothing may come after. -/
def readOptions (specs : List OptionSpec) :
    List String → Reading → Except UsageError (List (String × List String))
  | [], reading => do pure (← reading.settle).given
  | text :: rest, reading =>
      if text == "--" then
        if rest.isEmpty then do pure (← reading.settle).given else .error .unknownArgument
      else do
        let reading ← reading.argument specs text
        readOptions specs rest reading

/-- The value of an option that was given. -/
def value? (given : List (String × List String)) (name : String) : Option String :=
  (given.lookup name).bind (·.getLast?)

/-- The value of an option that must be given. -/
def require (given : List (String × List String)) (name : String) : Except UsageError String :=
  match value? given name with
  | some value => .ok value
  | none => .error .missingOption

/-- Whether an option was given. -/
def isGiven (given : List (String × List String)) (name : String) : Bool :=
  (given.lookup name).isSome

/-- The command to generate. -/
def ofGenerateArguments (arguments : List String) : Except UsageError Command := do
  let given ← readOptions generateOptions arguments {}
  let schema ← require given "schema"
  let endpoint ← require given "endpoint"
  let command : GenerateCommand :=
    { schema := schema
      endpoint := endpoint
      method := ((value? given "method").bind fun name => methods.lookup name).getD .get
      errorSpec := isGiven given "error-spec"
      inputs := (given.lookup "input").getD []
      format := isGiven given "format"
      idle := isGiven given "no-op" }
  pure (.generate command)

/-- The command to decode. -/
def ofDecodeArguments (arguments : List String) : Except UsageError Command := do
  let given ← readOptions decodeOptions arguments {}
  let schema ← require given "schema"
  let query ← require given "query"
  let response ← require given "response"
  let command : DecodeCommand :=
    { schema := schema
      query := query
      response := response
      operation := value? given "operation"
      pointer := (value? given "json-pointer").getD "/data" }
  pure (.decode command)

/-- The words that can come first. -/
def names : List String := ["generate", "decode", "help"]

/-- What is wrong with arguments that do not start with the name of a command. -/
def faultOf : List String → UsageError
  | [] | ["--"] => .nothingGiven
  | "--" :: word :: _ => if names.contains word then .unknownArgument else .unknownCommand
  | "help" :: rest =>
      if rest.isEmpty || names.any (rest == [·]) then .helpRequested else .unknownCommand
  | word :: _ =>
      match word.toList with
      | '-' :: _ :: _ =>
          match ({} : Reading).argument [helpOption] word with
          | .error error => error
          | .ok _ => .unknownArgument
      | _ => .unknownCommand

/-- What arguments ask for. -/
def ofArguments : List String → Except UsageError Command
  | "generate" :: rest => ofGenerateArguments rest
  | "decode" :: rest => ofDecodeArguments rest
  | arguments => .error (faultOf arguments)

end Command

end ElmClient
