/-
Module: ElmClient.Plan.ResultType
Purpose: The Elm type of what a plan describes. Fields of fragments are not repeated: the type of
  a record applies the open alias of each fragment to the fields of its own.
Main exports: FieldKind.type, RecordPlan.type, UnionPlan.type, FieldPlan.type, SelectionPlan.type
-/
import ElmClient.Plan.Basic

namespace ElmClient

open Elm

/-- Applies the open aliases of fragments to a type, the first one first. -/
def extendBy (spreads : List String) (base : TypeExpr) : TypeExpr :=
  spreads.foldl (fun type fragment => .extend fragment type) base

/-- The type arguments of a union: one for each member, an empty record where none is given. -/
def unionArguments (members : List String) (types : List (String × TypeExpr)) :
    List (String × TypeExpr) :=
  members.map fun member => (member, (types.lookup member).getD (.closed []))

mutual

/-- The type of what a field holds, without the layers. -/
def FieldKind.type : FieldKind → TypeExpr
  | .leaf scalar => .scalar scalar
  | .enum name => .enum name
  | .object plan => RecordPlan.type none plan
  | .union plan => UnionPlan.type plan
termination_by structural kind => kind

/-- The type of a record: its own fields, with a row variable where one is given, in the open
aliases of the fragments. -/
def RecordPlan.type (row : Option String) : RecordPlan → TypeExpr
  | ⟨fields, spreads⟩ => extendBy spreads (.record (FieldPlan.ownTypes fields) row)
termination_by structural plan => plan

/-- The type of a union, applied to the types of its members. -/
def UnionPlan.type : UnionPlan → TypeExpr
  | ⟨name, members, variants⟩ => .union name (unionArguments members (UnionPlan.types variants))
termination_by structural plan => plan

/-- The types of the selected members of a union. -/
def UnionPlan.types : List (String × RecordPlan) → List (String × TypeExpr)
  | [] => []
  | (member, plan) :: rest => (member, RecordPlan.type none plan) :: UnionPlan.types rest
termination_by structural variants => variants

/-- The names and types of the fields that no fragment provides. -/
def FieldPlan.ownTypes : List FieldPlan → List (String × TypeExpr)
  | [] => []
  | ⟨name, _, layers, .own, kind⟩ :: rest =>
      (name, TypeExpr.wrap layers kind.type) :: FieldPlan.ownTypes rest
  | ⟨_, _, _, .spread, _⟩ :: rest => FieldPlan.ownTypes rest
termination_by structural fields => fields

end

/-- The type of a field. -/
def FieldPlan.type (field : FieldPlan) : TypeExpr :=
  TypeExpr.wrap field.layers field.kind.type

/-- The type of a selection set. The type of a union has no place for a row variable. -/
def SelectionPlan.type (row : Option String) : SelectionPlan → TypeExpr
  | .record plan => RecordPlan.type row plan
  | .union plan => UnionPlan.type plan

theorem FieldPlan.ownTypes_eq (fields : List FieldPlan) :
    FieldPlan.ownTypes fields =
      (fields.filter (·.isOwn)).map fun field => (field.name, FieldPlan.type field) := by
  induction fields with
  | nil => rfl
  | cons field rest ih =>
      obtain ⟨name, wire, layers, origin, kind⟩ := field
      cases origin <;>
        simp [FieldPlan.ownTypes, PlannedField.isOwn, FieldPlan.type, ih]

end ElmClient
