/-
Module: ElmClient.Elm.Source
Purpose: Modules as Elm source text.
Main exports: Declaration.code, Module.source
-/
import ElmClient.Elm.EncoderCode
import ElmClient.Elm.TypeText

namespace ElmClient.Elm

/-- A name with type parameters. -/
def withParameters (name : String) (parameters : List String) : String :=
  " ".intercalate (name :: parameters)

/-- A list of lines, of which the first has another lead than the others. -/
def leadLines (first others : String) : List String → List String
  | [] => []
  | line :: rest => (first ++ line) :: rest.map (others ++ ·)

/-- The type of an alias. A closed record has one field on each line. -/
def TypeExpr.aliasText : TypeExpr → String
  | .record (first :: rest) none =>
      let field (entry : String × TypeExpr) : String := entry.1 ++ " : " ++ entry.2.text
      String.join (leadLines "\x7b " "\n    , " ((first :: rest).map field)) ++ "\n    \x7d"
  | type => type.text

/-- The constructors of a custom type with their arguments. -/
def constructorLines (constructors : List (String × List TypeExpr)) : List String :=
  leadLines "\n    = " "\n    | " (constructors.map fun (name, arguments) =>
    TypeExpr.applied name (arguments.map (·.argumentText)))

/-- The aliases of a fragment. -/
def FragmentDeclaration.text (fragment : FragmentDeclaration) : String :=
  if fragment.isOpen then
    let openName := Name.openAlias fragment.name
    "type alias " ++ openName ++ " a =\n    " ++ fragment.type.text ++ "\n\n\ntype alias " ++
      fragment.name ++ " =\n    " ++ openName ++ " \x7b\x7d"
  else "type alias " ++ fragment.name ++ " =\n    " ++ fragment.type.text

/-- The decoder of an enumeration. -/
def EnumDeclaration.code (enum : EnumDeclaration) : Code :=
  let name := Name.enumDecoder enum.name
  let enumCase (case_ : EnumCase) : Code :=
    newLine 20 ++ (.literal case_.wire ++ (.plain " ->" ++ (newLine 24 ++
      .plain ("succeed " ++ case_.constructor ++ "\n"))))
  .plain (name ++ " : Decoder " ++ enum.typeName ++ "\n" ++ name ++ " =") ++
    (newLine 4 ++ (.plain "string" ++ (newLine 8 ++ (.plain "|> andThen" ++ (newLine 12 ++
      .lambda ["s"] (newLine 16 ++ (.plain "case s of" ++ (Code.concat (enum.cases.map enumCase) ++
        (newLine 20 ++ (.plain "_ ->" ++ (newLine 24 ++ (.plain "fail " ++
          (.literal ("Unknown " ++ enum.name) ++ newLine 12)))))))))))))

/-- The function that makes a request. -/
def Request.code (m : Module) (request : Request) : Code :=
  let name := request.functionName
  let result := (TypeExpr.app "Http.Request" [request.response]).text
  let head :=
    match request.parametersType with
    | some type => name ++ " : " ++ type ++ " -> " ++ result ++ "\n" ++ name ++ " params ="
    | none => name ++ " : " ++ result ++ "\n" ++ name ++ " ="
  let entry (lead : String) (parameter : Parameter) : Code :=
    newLine 16 ++ (.plain lead ++ parameter.code m 16)
  let entries : Code :=
    match request.parameters with
    | [] => newLine 16 ++ .plain "[]"
    | first :: rest =>
        entry "[ " first ++ (Code.concat (rest.map (entry ", ")) ++ (newLine 16 ++ .plain "]"))
  let verb : Code :=
    match request.method with
    | some method => .literal method.text ++ .plain " "
    | none => .plain ""
  .plain (head ++ "\n    let\n        graphQLQuery =\n            ") ++
    (.longLiteral request.queryText ++
      (.plain "\n\n        graphQLParams =\n            Json.Encode.object" ++ (entries ++
        (.plain ("\n    in\n    " ++ request.kind.functionName ++ " ") ++ (verb ++
          (.plain "endpointUrl graphQLQuery " ++ (.literal request.operationName ++
            .plain (" graphQLParams " ++ request.decoderName))))))))

/-- The code of a declaration. -/
def Declaration.code (m : Module) : Declaration → Code
  | .constant name type value =>
      .plain (name ++ " : " ++ type.text ++ "\n" ++ name ++ " =\n    ") ++ .literal value
  | .typeAlias name parameters type =>
      .plain ("type alias " ++ withParameters name parameters ++ " =\n    " ++ type.aliasText)
  | .customType name parameters constructors =>
      .plain ("type " ++ withParameters name parameters ++
        String.join (constructorLines constructors))
  | .fragment f => .plain f.text
  | .request r => r.code m
  | .decoder name result d =>
      .plain (name ++ " : " ++ (TypeExpr.app "Decoder" [result]).text ++ "\n" ++ name ++
        " =\n    ") ++ d.topCode
  | .encoder input e =>
      let name := Name.encoder input
      let typeName := Text.capitalize input
      .plain (name ++ " : " ++ typeName ++ " -> Json.Encode.Value\n" ++ name ++ " (" ++ typeName ++
        " value) =\n    ") ++ e.code m "value" 0
  | .enumDecoder e => e.code

namespace Module

/-- The line that names a module, or several lines if it lists what it exposes. -/
def headerText (m : Module) : String :=
  if m.exposing.isEmpty then "module " ++ m.name ++ " exposing (..)\n"
  else
    "module " ++ m.name ++ " exposing\n" ++
      String.join ((leadLines "    ( " "    , " m.exposing).map (· ++ "\n")) ++ "    )\n"

/-- The imports of a module. -/
def importText (m : Module) : String :=
  String.join (m.imports.map fun imported => "import " ++ imported ++ "\n")

/-- The source text of a module. -/
def source (m : Module) : String :=
  m.headerText ++ "\n" ++ m.importText ++
    String.join (m.declarations.map fun declaration =>
      "\n\n" ++ (declaration.code m).text ++ "\n")

end Module

end ElmClient.Elm
