/-
Module: ElmClient.GenerationError
Purpose: Why no module is generated for a document.
Main exports: GenerationError, GenerationError.message
-/
import ElmClient.GraphQL.Document

namespace ElmClient

open GraphQL

/-- Why no module is generated for a document: its text is refused, or what it asks for does not
fit the schema. -/
inductive GenerationError where
  | unreadable (error : DocumentError)
  | unknownField (field parent : String) (position : Position)
  | unknownOperation (kind : OperationKind) (name : String)
  | unknownFragment (name : String) (position : Position)
  | unknownType (name : String) (position : Position)
  | inlineFragmentOutsideUnion (condition : String) (position : Position)
  | untypedInlineFragment (union : String) (position : Position)
  | missingTypename (union : String) (position : Position)
  | unexpectedUnionField (field union : String) (position : Position)
  | notAUnionMember (condition union : String) (position : Position)
  | unexpectedSelectionSet (field type : String) (position : Position)
  | missingSelectionSet (field type : String) (position : Position)
  | fragmentCycle (name : String) (position : Position)
  | unsupportedOperation (kind : OperationKind) (position : Position)
deriving DecidableEq, Repr, Inhabited

namespace GenerationError

/-- The end of a message that tells where something is. -/
def place (position : Position) : String := " at " ++ position.text

/-- What is said where no module is generated. -/
def message : GenerationError → String
  | .unreadable error => "failed to parse GraphQL document: " ++ error.message
  | .unknownField field parent position =>
      "Unknown GraphQL field '" ++ field ++ "' on type '" ++ parent ++ "'" ++ place position
  | .unknownOperation kind name =>
      "GraphQL schema does not define " ++ kind.keyword ++ " '" ++ name ++ "'"
  | .unknownFragment name position =>
      "Fragment definition '" ++ name ++ "' not found" ++ place position
  | .unknownType name position => "Unknown type '" ++ name ++ "'" ++ place position
  | .inlineFragmentOutsideUnion condition position =>
      "not implemented: InlineFragment on " ++ condition ++ place position
  | .untypedInlineFragment union position =>
      "inline fragments under union '" ++ union ++ "' need a type condition" ++ place position
  | .missingTypename union position =>
      "must query field '__typename' on union types (missing for '" ++ union ++ "')" ++
        place position
  | .unexpectedUnionField field union position =>
      "Unexpected field '" ++ field ++ "' on union '" ++ union ++
        "', select it inside an inline fragment" ++ place position
  | .notAUnionMember condition union position =>
      "type '" ++ condition ++ "' is not a member of union '" ++ union ++ "'" ++ place position
  | .unexpectedSelectionSet field type position =>
      "field '" ++ field ++ "' of leaf type '" ++ type ++ "' must not have a selection set" ++
        place position
  | .missingSelectionSet field type position =>
      "field '" ++ field ++ "' of type '" ++ type ++ "' needs a selection set" ++ place position
  | .fragmentCycle name position => "fragment '" ++ name ++ "' spreads itself" ++ place position
  | .unsupportedOperation kind position =>
      kind.keyword ++ " operations are not supported" ++ place position

end GenerationError

end ElmClient
