/-
Module: ElmClient.Plan.Selection
Purpose: The plans of the operations and fragments of a document.
Main exports: Directive.mayRemove, Field.isConditional, planRecord, planUnion, planSelections,
  BoundDocument.operationPlan, BoundDocument.fragmentPlan
-/
import ElmClient.BoundDocument
import ElmClient.Name
import ElmClient.Plan.Basic

namespace ElmClient

open GraphQL

/-- The first argument of a name. -/
def GraphQL.Directive.argument? (directive : Directive) (name : String) : Option Value :=
  directive.arguments.lookup name

/-- Whether a value is literally a Boolean. -/
def GraphQL.Value.isBoolean (b : Bool) : Value → Bool
  | .boolean literal => literal == b
  | _ => false

/-- Whether a directive may take what it stands at out of a response: a skip unless its condition is
literally false, or an inclusion unless its condition is literally true. -/
def GraphQL.Directive.mayRemove (directive : Directive) : Bool :=
  let condition := directive.argument? "if"
  if directive.name == "skip" then !condition.any (·.isBoolean false)
  else if directive.name == "include" then !condition.any (·.isBoolean true)
  else false

/-- Whether a field may be left out of a response. -/
def GraphQL.Field.isConditional (field : Field) : Bool :=
  field.directives.any (·.mayRemove)

/-- What was planned of a selection set on a union: its variants, and whether the name of the type
is selected. -/
structure UnionDraft where
  variants : List (String × RecordPlan) := []
  hasTypename : Bool := false
deriving Repr, Inhabited

/-- How fragments are planned where they are spread: into a record, and into a selection set on a
union with its members. -/
structure Expansion where
  record : Spread → Except GenerationError RecordPlan
  union : String → List String → Spread → UnionDraft → Except GenerationError UnionDraft

/-- Requires that a type is a member of a union. -/
def requireMember (union : String) (members : List String) (member : String)
    (position : Position) : Except GenerationError Unit :=
  if members.contains member then .ok () else .error (.notAUnionMember member union position)

/-- The plan of a selection set on a union, once its items are planned. The name of the type must
be among them. -/
def UnionDraft.finish (union : String) (members : List String) (brace : Position)
    (draft : UnionDraft) : Except GenerationError UnionPlan :=
  if draft.hasTypename then .ok ⟨union, members, draft.variants⟩
  else .error (.missingTypename union brace)

/-- The plan of a selected field. Leaves have no selection set, and all other types have one, which
is planned by one of the two given functions. -/
def planField (schema : Schema) (on : String) (field : Field) (hasSelections : Bool)
    (asRecord : String → Except GenerationError RecordPlan)
    (asUnion : String → List String → Except GenerationError UnionPlan) :
    Except GenerationError FieldPlan := do
  let type ← schema.selectedType on field.name field.position
  let wire := field.responseKey
  let layers :=
    if field.isConditional then Layer.makeOptional type.layers else type.layers
  let leaf (kind : FieldKind) : Except GenerationError FieldKind :=
    if hasSelections then .error (.unexpectedSelectionSet wire type.name field.position)
    else .ok kind
  let composite (kind : Except GenerationError FieldKind) : Except GenerationError FieldKind :=
    if hasSelections then kind else .error (.missingSelectionSet wire type.name field.position)
  let kind ←
    match schema.get? type.name with
    | none | some .scalar => leaf (.leaf (Elm.Scalar.ofName type.name))
    | some (.enum _) => leaf (.enum type.name)
    | some (.union members) => composite (FieldKind.union <$> asUnion type.name members)
    | some _ => composite (FieldKind.object <$> asRecord type.name)
  pure ⟨Name.safe wire, wire, layers, .own, kind⟩

mutual

/-- Adds one selection on an object to a plan. -/
def planRecordItem (schema : Schema) (expand : Expansion) (on : String) :
    Selection → RecordPlan → Except GenerationError RecordPlan
  | .field field brace selections, plan => do
      let planned ← planField schema on field (!selections.isEmpty)
        (fun type => planRecord schema expand type selections {})
        (fun union members => do
          let draft ← planUnion schema expand union members selections {}
          draft.finish union members brace)
      pure (plan.push planned)
  | .spread spread, plan => do
      let fragment ← expand.record spread
      pure (plan.pushSpread spread.fragment fragment)
  | .inline inline _ _, _ =>
      let condition := (inline.condition.map (·.type)).getD on
      .error (.inlineFragmentOutsideUnion condition inline.position)
termination_by structural selection => selection

/-- Adds a selection set on an object to a plan. -/
def planRecord (schema : Schema) (expand : Expansion) (on : String) :
    List Selection → RecordPlan → Except GenerationError RecordPlan
  | [], plan => .ok plan
  | selection :: rest, plan => do
      let plan ← planRecordItem schema expand on selection plan
      planRecord schema expand on rest plan
termination_by structural selections => selections

/-- Adds one selection on a union to a draft. -/
def planUnionItem (schema : Schema) (expand : Expansion) (union : String)
    (members : List String) : Selection → UnionDraft → Except GenerationError UnionDraft
  | .field field _ _, draft =>
      if field.name == "__typename" then .ok { draft with hasTypename := true }
      else .error (.unexpectedUnionField field.name union field.position)
  | .spread spread, draft => expand.union union members spread draft
  | .inline inline _ selections, draft =>
      match inline.condition with
      | none => .error (.untypedInlineFragment union inline.position)
      | some condition => do
          requireMember union members condition.type condition.position
          let on ← schema.conditionType condition.type condition.typePosition
          let variant ← planRecord schema expand on selections {}
          let variants := UnionPlanOf.addVariant condition.type variant draft.variants
          pure { draft with variants := variants }
termination_by structural selection => selection

/-- Adds a selection set on a union to a draft. -/
def planUnion (schema : Schema) (expand : Expansion) (union : String) (members : List String) :
    List Selection → UnionDraft → Except GenerationError UnionDraft
  | [], draft => .ok draft
  | selection :: rest, draft => do
      let draft ← planUnionItem schema expand union members selection draft
      planUnion schema expand union members rest draft
termination_by structural selections => selections

end

/-- The plan of a selection set on a type. -/
def planSelections (schema : Schema) (expand : Expansion) (on : String) (brace : Position)
    (selections : List Selection) : Except GenerationError SelectionPlan :=
  match schema.unionMembers? on with
  | some members => do
      let draft ← planUnion schema expand on members selections {}
      SelectionPlan.union <$> draft.finish on members brace
  | none => SelectionPlan.record <$> planRecord schema expand on selections {}

namespace BoundDocument

/-- Enters a fragment that is not being expanded yet. -/
def enterSpread (active : List String) (name : String) (position : Position) :
    Except GenerationError (List String) :=
  if active.contains name then .error (.fragmentCycle name position) else .ok (name :: active)

/-- The plan of a fragment as it is declared, given how the fragments in it are planned. -/
def planSpread (bound : BoundDocument) (active : List String)
    (expansion : List String → Expansion) (spread : Spread) :
    Except GenerationError RecordPlan := do
  let fragment ← bound.fragment spread.fragment spread.position
  let active ← enterSpread active spread.fragment spread.position
  let on ← bound.schema.conditionType fragment.condition.type fragment.condition.typePosition
  planRecord bound.schema (expansion active) on fragment.selections {}

/-- Adds a fragment to a selection set on a union. A fragment on the union itself adds its
selections, and one on a member is a fragment of that member. -/
def planUnionSpread (bound : BoundDocument) (active : List String)
    (expansion : List String → Expansion) (union : String) (members : List String)
    (spread : Spread) (draft : UnionDraft) : Except GenerationError UnionDraft := do
  let fragment ← bound.fragment spread.fragment spread.position
  let member := fragment.condition.type
  if member == union then do
    let active ← enterSpread active spread.fragment spread.position
    planUnion bound.schema (expansion active) union members fragment.selections draft
  else do
    requireMember union members member fragment.condition.typePosition
    let plan ← bound.planSpread active expansion spread
    let variant := RecordPlanOf.pushSpread {} spread.fragment plan
    pure { draft with variants := UnionPlanOf.addVariant member variant draft.variants }

/-- How the fragments of a document are planned while some of them are being expanded. The depth
exceeds the number of fragments, so that it never runs out before a fragment comes again. -/
def expansion (bound : BoundDocument) : (depth : Nat) → (active : List String) → Expansion
  | 0, _ =>
      { record := fun spread => .error (.fragmentCycle spread.fragment spread.position)
        union := fun _ _ spread _ => .error (.fragmentCycle spread.fragment spread.position) }
  | depth + 1, active =>
      { record := bound.planSpread active (bound.expansion depth)
        union := bound.planUnionSpread active (bound.expansion depth) }

/-- The plan of an operation. -/
def operationPlan (bound : BoundDocument) (operation : Operation) :
    Except GenerationError RecordPlan := do
  let root ← bound.schema.rootType operation.kind operation.title
  planRecord bound.schema (bound.expansion bound.spreadDepth []) root operation.selections {}

/-- The plan of a fragment that is used at a position. -/
def fragmentPlan (bound : BoundDocument) (name : String) (position : Position) :
    Except GenerationError SelectionPlan := do
  let fragment ← bound.fragment name position
  let on ← bound.schema.conditionType fragment.condition.type fragment.condition.typePosition
  planSelections bound.schema (bound.expansion bound.spreadDepth [name]) on fragment.brace
    fragment.selections

end BoundDocument

end ElmClient
