/-
Module: ElmClient.GraphQL.TypeSystem
Purpose: Type system documents: what a schema text defines and extends.
Main exports: TypeBody, TypeDefinition, RootOperations, TypeSystemDefinition
-/
import ElmClient.GraphQL.Document

namespace ElmClient.GraphQL

/-- What a type consists of. Fields come with their types. -/
inductive TypeBody where
  | scalar
  | enum (values : List String)
  | object (fields : List (String × TypeRef))
  | interface (fields : List (String × TypeRef))
  | inputObject (fields : List (String × TypeRef))
  | union (members : List String)
deriving DecidableEq, Repr, Inhabited

/-- A named type. -/
structure TypeDefinition where
  name : String
  body : TypeBody
deriving DecidableEq, Repr, Inhabited

/-- The names of the types on which operations start. -/
structure RootOperations where
  query : Option String := none
  mutation : Option String := none
  subscription : Option String := none
deriving DecidableEq, Repr, Inhabited

namespace RootOperations

/-- The root of a kind of operations. -/
def root? (roots : RootOperations) : OperationKind → Option String
  | .query => roots.query
  | .mutation => roots.mutation
  | .subscription => roots.subscription

/-- Names the root of a kind of operations. -/
def put (kind : OperationKind) (name : String) (roots : RootOperations) : RootOperations :=
  match kind with
  | .query => { roots with query := some name }
  | .mutation => { roots with mutation := some name }
  | .subscription => { roots with subscription := some name }

/-- Roots of which the later ones count. -/
def override (earlier later : RootOperations) : RootOperations where
  query := later.query <|> earlier.query
  mutation := later.mutation <|> earlier.mutation
  subscription := later.subscription <|> earlier.subscription

end RootOperations

/-- A definition of a type system document. What directives and descriptions say has no bearing on
a schema. -/
inductive TypeSystemDefinition where
  | schema (roots : RootOperations)
  | type (isExtension : Bool) (definition : TypeDefinition)
  | directive
deriving DecidableEq, Repr, Inhabited

end ElmClient.GraphQL
