/-
Module: ElmClient.Plan.Walk
Purpose: Planning as one walk over a document. A walker enters and leaves the nodes one by one and
  knows the type of a field only from what it has entered and not left, and the same walker is led
  through all fragments and all operations.
Main exports: Walker, Walk, WalkExpansion, walkRecord, walkUnion, BoundDocument.walkOperation,
  BoundDocument.walkFragment, BoundDocument.walkDocument
-/
import ElmClient.Plan.Selection
import ElmClient.Trail

namespace ElmClient

open GraphQL

/-- What was entered and not left: nodes of the document, and fragments that are being expanded, the
innermost ones first. -/
structure Walker where
  trail : Trail := []
  active : List String := []
deriving DecidableEq, Repr, Inhabited

/-- A part of a walk, with what it comes to. -/
abbrev Walk : Type → Type := StateT Walker (Except GenerationError)

namespace Walk

/-- Enters or leaves a node. -/
def step (go : Trail → Except GenerationError Trail) : Walk Unit := fun walker => do
  let trail ← go walker.trail
  pure ((), { walker with trail := trail })

/-- Leaves the innermost node. -/
def leave : Walk Unit := step fun trail => .ok trail.leave

/-- Enters a selection set on the type at the innermost node. -/
def enterSelectionSet : Walk Unit := step fun trail => .ok trail.enterSelectionSet

/-- The type at the innermost node. -/
def type : Walk TypeRef := fun walker =>
  .ok (walker.trail.type?.getD (.named "String"), walker)

/-- The type whose fields are selected. -/
def parent : Walk String := fun walker => .ok (walker.trail.parent?.getD "", walker)

/-- What can be told without going anywhere. -/
def tell {α : Type} (attempt : Except GenerationError α) : Walk α := fun walker =>
  (fun value => (value, walker)) <$> attempt

/-- Starts to expand a fragment that is not being expanded yet. -/
def enterSpread (name : String) (position : Position) : Walk Unit := fun walker => do
  let active ← BoundDocument.enterSpread walker.active name position
  pure ((), { walker with active := active })

/-- Ends the expansion that was started last. -/
def leaveSpread : Walk Unit := fun walker =>
  .ok ((), { walker with active := walker.active.tail })

end Walk

/-- How a walk follows fragments where they are spread. -/
structure WalkExpansion where
  record : Spread → Walk RecordPlan
  union : String → List String → Spread → UnionDraft → Walk UnionDraft

/-- Walks through a field. The selection set below it is walked by one of the two given walks. -/
def walkField (schema : Schema) (field : Field) (hasSelections : Bool)
    (asRecord : Walk RecordPlan) (asUnion : String → List String → Walk UnionPlan) :
    Walk FieldPlan := do
  Walk.step fun trail => trail.enterField schema field.name field.position
  let type ← Walk.type
  let wire := field.responseKey
  let layers :=
    if field.isConditional then Layer.makeOptional type.layers else type.layers
  let leaf (kind : FieldKind) : Walk FieldKind :=
    if hasSelections then
      Walk.tell (.error (.unexpectedSelectionSet wire type.name field.position))
    else pure kind
  let composite (kind : Walk FieldKind) : Walk FieldKind :=
    if hasSelections then kind
    else Walk.tell (.error (.missingSelectionSet wire type.name field.position))
  let kind ←
    match schema.get? type.name with
    | none | some .scalar => leaf (.leaf (Elm.Scalar.ofName type.name))
    | some (.enum _) => leaf (.enum type.name)
    | some (.union members) => composite (FieldKind.union <$> asUnion type.name members)
    | some _ => composite (FieldKind.object <$> asRecord)
  Walk.leave
  pure ⟨Name.safe wire, wire, layers, .own, kind⟩

mutual

/-- Walks through one selection on an object. -/
def walkRecordItem (schema : Schema) (follow : WalkExpansion) :
    Selection → RecordPlan → Walk RecordPlan
  | .field field brace selections, plan => do
      let asRecord : Walk RecordPlan := do
        Walk.enterSelectionSet
        let plan ← walkRecord schema follow selections {}
        Walk.leave
        pure plan
      let asUnion (union : String) (members : List String) : Walk UnionPlan := do
        Walk.enterSelectionSet
        let draft ← walkUnion schema follow union members selections {}
        Walk.leave
        Walk.tell (draft.finish union members brace)
      let planned ← walkField schema field (!selections.isEmpty) asRecord asUnion
      pure (plan.push planned)
  | .spread spread, plan => do
      let fragment ← follow.record spread
      pure (plan.pushSpread spread.fragment fragment)
  | .inline inline _ _, _ => do
      let parent ← Walk.parent
      let condition := (inline.condition.map (·.type)).getD parent
      Walk.tell (.error (.inlineFragmentOutsideUnion condition inline.position))
termination_by structural selection => selection

/-- Walks through a selection set on an object. -/
def walkRecord (schema : Schema) (follow : WalkExpansion) :
    List Selection → RecordPlan → Walk RecordPlan
  | [], plan => pure plan
  | selection :: rest, plan => do
      let plan ← walkRecordItem schema follow selection plan
      walkRecord schema follow rest plan
termination_by structural selections => selections

/-- Walks through one selection on a union. -/
def walkUnionItem (schema : Schema) (follow : WalkExpansion) (union : String)
    (members : List String) : Selection → UnionDraft → Walk UnionDraft
  | .field field _ _, draft =>
      if field.name == "__typename" then pure { draft with hasTypename := true }
      else Walk.tell (.error (.unexpectedUnionField field.name union field.position))
  | .spread spread, draft => follow.union union members spread draft
  | .inline inline _ selections, draft =>
      match inline.condition with
      | none => Walk.tell (.error (.untypedInlineFragment union inline.position))
      | some condition => do
          Walk.tell (requireMember union members condition.type condition.position)
          Walk.step fun trail =>
            trail.enterInlineFragment schema (some condition.type) condition.typePosition
          Walk.enterSelectionSet
          let variant ← walkRecord schema follow selections {}
          Walk.leave
          Walk.leave
          let variants := UnionPlanOf.addVariant condition.type variant draft.variants
          pure { draft with variants := variants }
termination_by structural selection => selection

/-- Walks through a selection set on a union. -/
def walkUnion (schema : Schema) (follow : WalkExpansion) (union : String)
    (members : List String) : List Selection → UnionDraft → Walk UnionDraft
  | [], draft => pure draft
  | selection :: rest, draft => do
      let draft ← walkUnionItem schema follow union members selection draft
      walkUnion schema follow union members rest draft
termination_by structural selections => selections

end

/-- Walks through a selection set on the type at the innermost node. -/
def walkSelections (schema : Schema) (follow : WalkExpansion) (brace : Position)
    (selections : List Selection) : Walk SelectionPlan := do
  let type ← Walk.type
  match schema.unionMembers? type.name with
  | some members => do
      Walk.enterSelectionSet
      let draft ← walkUnion schema follow type.name members selections {}
      Walk.leave
      SelectionPlan.union <$> Walk.tell (draft.finish type.name members brace)
  | none => do
      Walk.enterSelectionSet
      let plan ← walkRecord schema follow selections {}
      Walk.leave
      pure (.record plan)

namespace BoundDocument

/-- Walks through a fragment that is spread into an object. -/
def walkSpread (bound : BoundDocument) (follow : WalkExpansion) (spread : Spread) :
    Walk RecordPlan := do
  let fragment ← Walk.tell (bound.fragment spread.fragment spread.position)
  Walk.enterSpread spread.fragment spread.position
  Walk.step fun trail =>
    trail.enterFragment bound.schema fragment.condition.type fragment.condition.typePosition
  Walk.enterSelectionSet
  let plan ← walkRecord bound.schema follow fragment.selections {}
  Walk.leave
  Walk.leave
  Walk.leaveSpread
  pure plan

/-- Walks through a fragment that is spread into a selection set on a union. -/
def walkUnionSpread (bound : BoundDocument) (follow : WalkExpansion) (union : String)
    (members : List String) (spread : Spread) (draft : UnionDraft) : Walk UnionDraft := do
  let fragment ← Walk.tell (bound.fragment spread.fragment spread.position)
  let member := fragment.condition.type
  if member == union then do
    Walk.enterSpread spread.fragment spread.position
    Walk.step fun trail =>
      trail.enterFragment bound.schema fragment.condition.type fragment.condition.typePosition
    Walk.enterSelectionSet
    let draft ← walkUnion bound.schema follow union members fragment.selections draft
    Walk.leave
    Walk.leave
    Walk.leaveSpread
    pure draft
  else do
    Walk.tell (requireMember union members member fragment.condition.typePosition)
    let plan ← bound.walkSpread follow spread
    let variant := RecordPlanOf.pushSpread {} spread.fragment plan
    pure { draft with variants := UnionPlanOf.addVariant member variant draft.variants }

/-- How a walk follows the fragments of a document, no deeper in one another than the depth. -/
def walkExpansion (bound : BoundDocument) : (depth : Nat) → WalkExpansion
  | 0 =>
      { record := fun spread => Walk.tell (.error (.fragmentCycle spread.fragment spread.position))
        union := fun _ _ spread _ =>
          Walk.tell (.error (.fragmentCycle spread.fragment spread.position)) }
  | depth + 1 =>
      { record := bound.walkSpread (bound.walkExpansion depth)
        union := bound.walkUnionSpread (bound.walkExpansion depth) }

/-- Walks through an operation. -/
def walkOperation (bound : BoundDocument) (operation : Operation) : Walk RecordPlan := do
  Walk.step fun trail => trail.enterOperation bound.schema operation.kind operation.title
  Walk.enterSelectionSet
  let plan ← walkRecord bound.schema (bound.walkExpansion bound.spreadDepth)
    operation.selections {}
  Walk.leave
  Walk.leave
  pure plan

/-- Walks through a fragment that is used at a position. -/
def walkFragment (bound : BoundDocument) (name : String) (position : Position) :
    Walk SelectionPlan := do
  let fragment ← Walk.tell (bound.fragment name position)
  Walk.enterSpread name position
  Walk.step fun trail =>
    trail.enterFragment bound.schema fragment.condition.type fragment.condition.typePosition
  let plan ← walkSelections bound.schema (bound.walkExpansion bound.spreadDepth) fragment.brace
    fragment.selections
  Walk.leave
  Walk.leaveSpread
  pure plan

/-- Walks through a fragment that was reached. -/
def walkDeclaredFragment (bound : BoundDocument) (name : String) :
    Walk (String × SelectionPlan) := do
  let fragment ← Walk.tell (bound.fragment name .start)
  let plan ← bound.walkFragment name fragment.position
  pure (name, plan)

/-- Walks through fragments and then through operations. -/
def walkDocument (bound : BoundDocument) (fragments : List String) (operations : List Operation) :
    Walk (List (String × SelectionPlan) × List RecordPlan) := do
  let fragmentPlans ← fragments.mapM bound.walkDeclaredFragment
  let operationPlans ← operations.mapM bound.walkOperation
  pure (fragmentPlans, operationPlans)

end BoundDocument

end ElmClient
