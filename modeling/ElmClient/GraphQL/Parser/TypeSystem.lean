/-
Module: ElmClient.GraphQL.Parser.TypeSystem
Purpose: The grammar of type system documents.
Main exports: TypeSystemDefinition.parse
-/
import ElmClient.GraphQL.Parser.Value
import ElmClient.GraphQL.TypeSystem

namespace ElmClient.GraphQL

namespace Reader

/-- A description, which says nothing about a schema. -/
def description : Reader Unit := do
  let _ ← optional string

/-- The types that an object type or an interface implements. -/
def implementedInterfaces : Reader Unit := do
  token "implements"
  let _ ← optional (token "&")
  let _ ← name
  let _ ← many (do
    token "&"
    name)

/-- The declaration of an argument or of a field of an input object. -/
def inputValueDefinition : Reader (String × TypeRef) := do
  description
  let valueName ← name
  token ":"
  let valueType ← type
  let _ ← optional defaultValue
  let _ ← directives true
  pure (valueName, valueType)

/-- The arguments that a field or a directive takes. -/
def argumentsDefinition : Reader Unit := do
  token "("
  let _ ← many1 inputValueDefinition
  token ")"

/-- The declaration of a field. -/
def fieldDefinition : Reader (String × TypeRef) := do
  description
  let fieldName ← name
  let _ ← optional argumentsDefinition
  token ":"
  let fieldType ← type
  let _ ← directives true
  pure (fieldName, fieldType)

/-- Items in braces; there is one at least. -/
def braced {α : Type} (item : Reader α) : Reader (List α) := do
  token "\x7b"
  let items ← many1 item
  token "\x7d"
  pure items

/-- A value of an enumeration. -/
def enumValueDefinition : Reader String := do
  description
  let valueName ← enumName
  let _ ← directives true
  pure valueName

/-- The members of a union. -/
def unionMembers : Reader (List String) := do
  token "="
  let _ ← optional (token "|")
  let first ← name
  let more ← many (do
    token "|"
    name)
  pure (first :: more)

/-- A type that starts with a keyword and whose parts may all be absent. -/
def plainType {α : Type} (keyword : String) (before : Reader Unit)
    (parts : Reader (List α)) (body : List α → TypeBody) : Reader TypeSystemDefinition := do
  description
  token keyword
  let typeName ← name
  let _ ← optional before
  let _ ← directives true
  let items ← orEmpty parts
  pure (.type false ⟨typeName, body items⟩)

/-- An extension of a type, which adds parts or directives. -/
def typeExtension {α : Type} (keyword : String) (before : Reader Unit)
    (parts : Reader (List α)) (body : List α → TypeBody) : Reader TypeSystemDefinition := do
  token "extend"
  token keyword
  let typeName ← name
  let _ ← optional before
  let items ←
    (do let _ ← directives true
        parts) <|>
    (do let _ ← directives1 true
        pure [])
  pure (.type true ⟨typeName, body items⟩)

/-- Nothing stands here. -/
def nothing : Reader Unit := failure

/-- A scalar type, or an extension of one by directives. -/
def scalarType : Reader TypeSystemDefinition :=
  plainType "scalar" nothing (failure : Reader (List Unit)) (fun _ => .scalar) <|>
  typeExtension "scalar" nothing (failure : Reader (List Unit)) (fun _ => .scalar)

/-- An object type. An extension may consist of interfaces alone. -/
def objectType : Reader TypeSystemDefinition :=
  plainType "type" implementedInterfaces (braced fieldDefinition) .object <|>
  typeExtension "type" implementedInterfaces (braced fieldDefinition) .object <|>
  (do token "extend"
      token "type"
      let typeName ← name
      implementedInterfaces
      pure (.type true ⟨typeName, .object []⟩))

/-- An interface type. -/
def interfaceType : Reader TypeSystemDefinition :=
  plainType "interface" implementedInterfaces (braced fieldDefinition) .interface <|>
  typeExtension "interface" implementedInterfaces (braced fieldDefinition) .interface

/-- A union type. -/
def unionType : Reader TypeSystemDefinition :=
  plainType "union" nothing unionMembers .union <|>
  typeExtension "union" nothing unionMembers .union

/-- An enumeration type. -/
def enumType : Reader TypeSystemDefinition :=
  plainType "enum" nothing (braced enumValueDefinition) .enum <|>
  typeExtension "enum" nothing (braced enumValueDefinition) .enum

/-- An input object type. -/
def inputObjectType : Reader TypeSystemDefinition :=
  plainType "input" nothing (braced inputValueDefinition) .inputObject <|>
  typeExtension "input" nothing (braced inputValueDefinition) .inputObject

/-- One root of a schema. A second one of its kind is reported. -/
def rootOperation (roots : RootOperations) : Reader RootOperations := do
  let kind ← operationKind
  token ":"
  let typeName ← name
  if (roots.root? kind).isSome then report (.multipleRoots kind)
  pure (roots.put kind typeName)

/-- The further roots of a schema, in at most so many steps. -/
def moreRoots : Nat → RootOperations → Reader RootOperations
  | 0, roots => pure roots
  | steps + 1, roots =>
      (do let roots ← rootOperation roots
          moreRoots steps roots) <|> pure roots

/-- The roots of a schema in braces. -/
def rootOperations : Reader RootOperations := do
  token "\x7b"
  let roots ← rootOperation {}
  let roots ← moreRoots (← depthBound) roots
  token "\x7d"
  pure roots

/-- The definition of a schema, which has a query root, or an extension of one. -/
def schemaDefinition : Reader TypeSystemDefinition :=
  (do token "schema"
      let _ ← directives true
      let roots ← rootOperations
      if roots.query.isNone then report .missingQueryRoot
      pure (.schema roots)) <|>
  (do token "extend"
      token "schema"
      let roots ←
        (do let _ ← directives true
            rootOperations) <|>
        (do let _ ← directives1 true
            pure {})
      pure (.schema roots))

/-- The places at which a directive may stand. Of two names of which one starts the other, the
longer comes first. -/
def directiveLocations : List String :=
  ["QUERY", "MUTATION", "SUBSCRIPTION", "FIELD_DEFINITION", "FIELD", "FRAGMENT_DEFINITION",
    "FRAGMENT_SPREAD", "INLINE_FRAGMENT", "VARIABLE_DEFINITION", "SCHEMA", "SCALAR", "OBJECT",
    "ARGUMENT_DEFINITION", "INTERFACE", "UNION", "ENUM_VALUE", "ENUM", "INPUT_OBJECT",
    "INPUT_FIELD_DEFINITION"]

/-- A place at which a directive may stand. -/
def directiveLocation : Reader Unit :=
  directiveLocations.foldr (fun word others => token word <|> others) failure

/-- The definition of a directive. -/
def directiveDefinition : Reader TypeSystemDefinition := do
  description
  token "directive"
  token "@"
  let _ ← name
  let _ ← optional argumentsDefinition
  let _ ← optional (token "repeatable")
  token "on"
  let _ ← optional (token "|")
  directiveLocation
  let _ ← many (do
    token "|"
    directiveLocation)
  pure .directive

/-- A definition of a type system document. -/
def typeSystemDefinition : Reader TypeSystemDefinition :=
  schemaDefinition <|> scalarType <|> objectType <|> interfaceType <|> unionType <|> enumType <|>
  inputObjectType <|> directiveDefinition

end Reader

/-- Reads a type system document. -/
def TypeSystemDefinition.parse (text : String) :
    Except DocumentError (List TypeSystemDefinition) :=
  (Reader.many1 Reader.typeSystemDefinition).run? text

end ElmClient.GraphQL
