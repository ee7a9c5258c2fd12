/-
Module: ElmClient.Elm.Module
Purpose: Generated modules as lists of declarations, and how declarations are found in them.
Main exports: Elm.Declaration, Elm.Request, Elm.EnumDeclaration, Elm.FragmentDeclaration,
  Elm.Module
-/
import ElmClient.Elm.Decoder
import ElmClient.Elm.Encoder

namespace ElmClient.Elm

/-- A value of an enumeration in JSON and its constructor. -/
structure EnumCase where
  wire : String
  constructor : String
deriving DecidableEq, Repr, Inhabited

/-- An enumeration of a schema, its Elm type and its values. -/
structure EnumDeclaration where
  name : String
  typeName : String
  cases : List EnumCase
deriving DecidableEq, Repr, Inhabited

/-- A fragment. One that is open has, beside the alias of its name, an alias that takes further
fields. -/
structure FragmentDeclaration where
  name : String
  type : TypeExpr
  isOpen : Bool
deriving BEq, Repr, Inhabited

/-- The verb with which a query is sent. -/
inductive HttpMethod where
  | get
  | post
deriving DecidableEq, Repr, Inhabited

/-- The verb in capitals. -/
def HttpMethod.text : HttpMethod → String
  | .get => "GET"
  | .post => "POST"

/-- The two kinds of requests. -/
inductive RequestKind where
  | query
  | mutation
deriving DecidableEq, Repr, Inhabited

/-- The function that makes a request of a kind. -/
def RequestKind.functionName : RequestKind → String
  | .query => "query"
  | .mutation => "mutation"

/-- The function that sends an operation. Only queries have a verb, and only operations with
variables have parameters. -/
structure Request where
  functionName : String
  kind : RequestKind
  method : Option HttpMethod
  operationName : String
  queryText : String
  parametersType : Option String
  parameters : List Parameter
  response : TypeExpr
  decoderName : String
deriving BEq, Repr, Inhabited

/-- A declaration of a generated module. -/
inductive Declaration where
  | constant (name : String) (type : TypeExpr) (value : String)
  | typeAlias (name : String) (parameters : List String) (type : TypeExpr)
  | customType (name : String) (parameters : List String)
      (constructors : List (String × List TypeExpr))
  | fragment (fragment : FragmentDeclaration)
  | request (request : Request)
  | decoder (name : String) (result : TypeExpr) (decoder : Decoder)
  | encoder (input : String) (encoder : Encoder)
  | enumDecoder (enum : EnumDeclaration)
deriving BEq, Repr, Inhabited

/-- A generated module. -/
structure Module where
  name : String
  exposing : List String
  imports : List String
  declarations : List Declaration
deriving BEq, Repr, Inhabited

namespace Declaration

/-- The request that is declared. -/
def request? : Declaration → Option Request
  | .request r => some r
  | _ => none

/-- The fragment that is declared. -/
def fragment? : Declaration → Option FragmentDeclaration
  | .fragment f => some f
  | _ => none

/-- The enumeration whose decoder is declared. -/
def enum? : Declaration → Option EnumDeclaration
  | .enumDecoder e => some e
  | _ => none

/-- The name and the decoder that is declared. -/
def decoder? : Declaration → Option (String × Decoder)
  | .decoder name _ d => some (name, d)
  | _ => none

/-- The input type and the encoder that is declared for it. -/
def encoder? : Declaration → Option (String × Encoder)
  | .encoder input e => some (input, e)
  | _ => none

/-- The name and the type of an alias. -/
def typeAlias? : Declaration → Option (String × TypeExpr)
  | .typeAlias name _ type => some (name, type)
  | _ => none

end Declaration

namespace Module

/-- The requests in order. -/
def requests (m : Module) : List Request := m.declarations.filterMap Declaration.request?

/-- The fragments in order. -/
def fragments (m : Module) : List FragmentDeclaration :=
  m.declarations.filterMap Declaration.fragment?

/-- The enumerations in order. -/
def enums (m : Module) : List EnumDeclaration := m.declarations.filterMap Declaration.enum?

/-- The first request for an operation. -/
def request (m : Module) (operation : String) : Option Request :=
  m.requests.find? (·.operationName == operation)

/-- The first decoder of a name. -/
def decoder (m : Module) (name : String) : Option Decoder :=
  (m.declarations.filterMap Declaration.decoder?).lookup name

/-- The type of the first alias of a name. -/
def aliasType (m : Module) (name : String) : Option TypeExpr :=
  (m.declarations.filterMap Declaration.typeAlias?).lookup name

/-- The first fragment of an Elm name. -/
def fragment (m : Module) (name : String) : Option FragmentDeclaration :=
  m.fragments.find? (·.name == name)

/-- The last enumeration declared for a name of the schema. -/
def enum (m : Module) (name : String) : Option EnumDeclaration :=
  m.enums.reverse.find? (·.name == name)

/-- The last encoder declared for an input type. -/
def encoder (m : Module) (input : String) : Option Encoder :=
  (m.declarations.filterMap Declaration.encoder?).reverse.lookup input

end Module

end ElmClient.Elm
