/-
Module: ElmClient.Generation
Purpose: The module that is generated for a document.
Main exports: GenerationOptions, OperationClient, BoundDocument.elmModule, generate,
  generateFromText
-/
import ElmClient.GraphQL.Parser.Document
import ElmClient.Input.Encoder
import ElmClient.Input.Type
import ElmClient.Inventory
import ElmClient.Plan.ResponseDecoder
import ElmClient.Plan.ResultType
import ElmClient.Plan.Selection
import ElmClient.QueryText

namespace ElmClient

open GraphQL Elm

/-- What is asked for beside the document: the name of the module, the address of the server, the
verb of queries, and whether responses carry errors in the way of the GraphQL specification. -/
structure GenerationOptions where
  moduleName : String
  endpoint : String
  method : HttpMethod := .get
  errorSpec : Bool := false
deriving DecidableEq, Repr, Inhabited

namespace GenerationOptions

/-- The verb of a kind of requests. Mutations are always posted and do not name one. -/
def methodOf (options : GenerationOptions) : RequestKind → Option HttpMethod
  | .query => some options.method
  | .mutation => none

/-- The type of a response with a given result. -/
def responseType (options : GenerationOptions) (resultType : String) : TypeExpr :=
  if options.errorSpec then .app "Response" [.named resultType] else .named resultType

/-- The imports of a module. -/
def imports (options : GenerationOptions) : List String :=
  ["Json.Decode exposing (..)", "Json.Encode exposing (encode)", "Time", "Http",
    if options.errorSpec then
      "GraphQLSpec exposing (Response, apply, maybeEncode, query, mutation)"
    else "GraphQL exposing (apply, maybeEncode, query, mutation)"]

end GenerationOptions

/-- What a module declares for one operation: the type of its result, the types of its variables
that are not scalars, the fields of its parameters, the request and the decoder. -/
structure OperationClient where
  resultType : String
  result : TypeExpr
  inputs : List (String × TypeExpr)
  parameters : List (String × TypeExpr)
  request : Request
  decoder : Decoder
deriving Repr

/-- The input types and encoders that the operations of a document share. -/
structure SharedInputs where
  types : InputTypes := {}
  encoders : InputEncoders := {}
deriving Repr, Inhabited

/-- What the variables of an operation contribute to its client. -/
structure VariableParts where
  inputs : List (String × TypeExpr) := []
  fields : List (String × TypeExpr) := []
  parameters : List Parameter := []
deriving Repr, Inhabited

/-- Whether a type of the schema has a declaration: it is known and no scalar. -/
def Schema.isDeclared (schema : Schema) (name : String) : Bool :=
  match schema.get? name with
  | none | some .scalar => false
  | some _ => true

namespace VariableParts

/-- Adds a variable. The type of one that is no scalar gets an alias of its own. -/
def add (schema : Schema) (resultType : String) (state : VariableParts × SharedInputs)
    (definition : VariableDefinition) : VariableParts × SharedInputs :=
  let (parts, shared) := state
  let (type, types) := InputTypes.typeOf schema definition.type shared.types
  let (parameter, encoders) := InputEncoders.parameter schema definition shared.encoders
  let inputName := resultType ++ "_Input_" ++ Text.capitalize definition.name
  let declared := schema.isDeclared definition.type.name
  let fieldType := if declared then .named inputName else type
  ({ inputs := if declared then parts.inputs ++ [(inputName, type)] else parts.inputs
     fields := parts.fields ++ [(Name.safe definition.name, fieldType)]
     parameters := parts.parameters ++ [parameter] },
    { types := types, encoders := encoders })

end VariableParts

/-- The kind of the request for an operation. -/
def GraphQL.Operation.requestKind (operation : Operation) : Except GenerationError RequestKind :=
  match operation.kind with
  | .query => .ok .query
  | .mutation => .ok .mutation
  | .subscription => .error (.unsupportedOperation .subscription operation.position)

namespace BoundDocument

/-- The client of an operation, and the input types and encoders with those that it uses. -/
def operationClient (bound : BoundDocument) (options : GenerationOptions)
    (shared : SharedInputs) (operation : Operation) :
    Except GenerationError (OperationClient × SharedInputs) := do
  let kind ← operation.requestKind
  let resultType := Text.capitalize operation.title
  let plan ← bound.operationPlan operation
  let (parts, shared) := operation.definitions.foldl (VariableParts.add bound.schema resultType)
    ({}, shared)
  let queryText ← bound.queryText operation
  let request : Request :=
    { functionName := Text.decapitalize operation.title
      kind := kind
      method := options.methodOf kind
      operationName := operation.title
      queryText := queryText
      parametersType :=
        if parts.parameters.isEmpty then none else some (resultType ++ "_Input")
      parameters := parts.parameters
      response := options.responseType resultType
      decoderName := Name.decoder resultType }
  let client : OperationClient :=
    { resultType := resultType
      result := RecordPlan.type none plan
      inputs := parts.inputs
      parameters := parts.fields
      request := request
      decoder := plan.responseDecoder resultType }
  pure (client, shared)

/-- The clients of operations in order. -/
def operationClients (bound : BoundDocument) (options : GenerationOptions) :
    List Operation → SharedInputs →
      Except GenerationError (List OperationClient × SharedInputs)
  | [], shared => .ok ([], shared)
  | operation :: rest, shared => do
      let (client, shared) ← bound.operationClient options shared operation
      let (clients, shared) ← bound.operationClients options rest shared
      pure (client :: clients, shared)

/-- The plan of a fragment that was reached. -/
def declaredFragmentPlan (bound : BoundDocument) (name : String) :
    Except GenerationError (String × SelectionPlan) := do
  let fragment ← bound.fragment name .start
  let plan ← bound.fragmentPlan name fragment.position
  pure (name, plan)

end BoundDocument

/-- A group of declarations with the names that they expose. -/
structure DeclarationGroup where
  exposed : List String
  declarations : List Declaration
deriving Repr, Inhabited

namespace DeclarationGroup

/-- Several groups as one. -/
def join (groups : List DeclarationGroup) : DeclarationGroup :=
  ⟨groups.flatMap (·.exposed), groups.flatMap (·.declarations)⟩

/-- A custom type is exposed with its constructors. -/
def withConstructors (typeName : String) : String := typeName ++ "(..)"

/-- The custom type of a union, with one type parameter for each member. -/
def ofUnion (name : String) (members : List String) : DeclarationGroup :=
  let parameters := (List.range members.length).map Name.typeParameter
  let constructors := (members.zip parameters).map fun (member, parameter) =>
    (Name.unionConstructor name member, [TypeExpr.named parameter])
  ⟨[withConstructors name], [.customType name parameters constructors]⟩

/-- The custom type of an enumeration. -/
def ofEnum (enum : EnumDeclaration) : DeclarationGroup :=
  let constructors := enum.cases.map fun enumCase => (enumCase.constructor, [])
  ⟨[withConstructors enum.typeName], [.customType enum.typeName [] constructors]⟩

/-- The row variable of an open alias. -/
def rowVariable : String := "a"

/-- The aliases of a fragment. One on an object leaves room for further fields. -/
def ofFragment (name : String) : SelectionPlan → DeclarationGroup
  | .record plan =>
      let typeName := Text.capitalize name
      ⟨[typeName, Name.openAlias name],
        [.fragment ⟨typeName, RecordPlan.type (some rowVariable) plan, true⟩]⟩
  | .union plan =>
      let typeName := Text.capitalize name
      ⟨[typeName], [.fragment ⟨typeName, UnionPlan.type plan, false⟩]⟩

/-- An alias without parameters. -/
def plainAlias (name : String) (type : TypeExpr) : Declaration := .typeAlias name [] type

/-- The declarations for an operation. -/
def ofOperation (client : OperationClient) : DeclarationGroup :=
  let request := client.request
  let parametersType := request.parametersType.toList
  ⟨[request.functionName, client.resultType] ++ client.inputs.map Prod.fst ++ parametersType,
    plainAlias client.resultType client.result ::
      client.inputs.map (fun (name, type) => plainAlias name type) ++
      parametersType.map (fun name => plainAlias name (.closed client.parameters)) ++
      [.request request, .decoder request.decoderName (.named client.resultType) client.decoder]⟩

/-- The custom type and the encoder of an input type that contains itself. -/
def ofRecursiveInput (shared : SharedInputs) (input : String) : DeclarationGroup :=
  let typeName := Text.capitalize input
  let record := (shared.types.record? input).getD (.closed [])
  let encoder := (shared.encoders.object? input).getD (.object [])
  ⟨[withConstructors typeName],
    [.customType typeName [] [(typeName, [record])], .encoder input encoder]⟩

end DeclarationGroup

namespace BoundDocument

/-- The module of a document. -/
def elmModule (bound : BoundDocument) (options : GenerationOptions) :
    Except GenerationError Module := do
  let inventory ← bound.inventory
  let fragmentPlans ← inventory.fragments.mapM bound.declaredFragmentPlan
  let (clients, shared) ← bound.operationClients options bound.operations {}
  let unions := DeclarationGroup.join
    (inventory.unions.map fun (name, members) => DeclarationGroup.ofUnion name members)
  let enums := DeclarationGroup.join (inventory.enums.map DeclarationGroup.ofEnum)
  let endpoint : Declaration := .constant "endpointUrl" (.scalar .string) options.endpoint
  let fragments := DeclarationGroup.join
    (fragmentPlans.map fun (name, plan) => DeclarationGroup.ofFragment name plan)
  let operations := DeclarationGroup.join (clients.map DeclarationGroup.ofOperation)
  let recursive := DeclarationGroup.join
    (shared.types.cycles.map (DeclarationGroup.ofRecursiveInput shared))
  let enumDecoders := inventory.enums.map Declaration.enumDecoder
  pure {
    name := options.moduleName
    exposing := operations.exposed ++ fragments.exposed ++ enums.exposed ++ unions.exposed ++
      recursive.exposed
    imports := options.imports
    declarations := unions.declarations ++ enums.declarations ++ [endpoint] ++
      fragments.declarations ++ operations.declarations ++ recursive.declarations ++
      enumDecoders }

end BoundDocument

/-- Generates the module of a document. -/
def generate (schema : Schema) (document : Document) (options : GenerationOptions) :
    Except GenerationError Module := do
  let bound ← BoundDocument.bind schema document
  bound.elmModule options

/-- Generates the module of the text of a document. -/
def generateFromText (schema : Schema) (text : String) (options : GenerationOptions) :
    Except GenerationError Module := do
  let document ← (Document.parse text).mapError .unreadable
  generate schema document options

end ElmClient
