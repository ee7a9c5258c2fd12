/-
Module: ElmClient.Trail
Purpose: Following a document step by step through the types of a schema.
Main exports: Trail, Trail.enterOperation, Trail.enterFragment, Trail.enterInlineFragment,
  Trail.enterSelectionSet, Trail.enterField, Trail.leave, Trail.type?, Trail.parent?
-/
import ElmClient.Schema.Selectable

namespace ElmClient

open GraphQL

/-- One step: the type at the node that was entered, and the type whose fields are selected. -/
structure Footprint where
  type : Option TypeRef
  parent : Option String
deriving DecidableEq, Repr, Inhabited

/-- The nodes that were entered and not left, the innermost one first. -/
abbrev Trail := List Footprint

namespace Trail

/-- The type at the innermost node. -/
def type? (trail : Trail) : Option TypeRef := trail.head?.bind (·.type)

/-- The definition of the type at the innermost node. -/
def body? (schema : Schema) (trail : Trail) : Option TypeBody :=
  trail.type?.bind fun type => schema.get? type.name

/-- The type whose fields are selected. -/
def parent? (trail : Trail) : Option String := trail.findSome? (·.parent)

/-- Enters an operation. -/
def enterOperation (schema : Schema) (kind : OperationKind) (name : String) (trail : Trail) :
    Except GenerationError Trail := do
  let root ← schema.rootType kind name
  pure (⟨some (.named root), none⟩ :: trail)

/-- Enters a fragment on a type. -/
def enterFragment (schema : Schema) (condition : String) (position : Position) (trail : Trail) :
    Except GenerationError Trail := do
  let type ← schema.conditionType condition position
  pure (⟨some (.named type), none⟩ :: trail)

/-- Enters an inline fragment. One without a type is about the type whose fields are selected. -/
def enterInlineFragment (schema : Schema) (condition : Option String) (position : Position)
    (trail : Trail) : Except GenerationError Trail :=
  match condition with
  | some condition => trail.enterFragment schema condition position
  | none => .ok (⟨trail.parent?.map .named, none⟩ :: trail)

/-- Enters a selection set on the type at the innermost node. -/
def enterSelectionSet (trail : Trail) : Trail :=
  ⟨trail.type?, trail.type?.map (·.name)⟩ :: trail

/-- Enters a field. -/
def enterField (schema : Schema) (field : String) (position : Position) (trail : Trail) :
    Except GenerationError Trail := do
  let parent := trail.parent?.getD ""
  let type ← schema.selectedType parent field position
  pure (⟨some type, some parent⟩ :: trail)

/-- Leaves the innermost node. -/
def leave (trail : Trail) : Trail := trail.tail

end Trail

end ElmClient
