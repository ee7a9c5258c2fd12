/-
Module: ElmClient.Plan.Basic
Purpose: Plans of selection sets: which fields the result has, what each of them holds, and which
  of several selections of one name counts.
Main exports: Origin, PlannedField, RecordPlanOf, UnionPlanOf, FieldKind, RecordPlan, UnionPlan,
  SelectionPlan
-/
import ElmClient.Elm.Type

namespace ElmClient

/-- Where a field of a plan comes from: from the selection set itself, or from a fragment that is
spread into it. -/
inductive Origin where
  | own
  | spread
deriving DecidableEq, Repr, Inhabited

/-- A field of a plan: its Elm name, its key in a response, the layers around its value, where it
comes from and what it holds. -/
structure PlannedField (κ : Type) where
  name : String
  wire : String
  layers : List Layer
  origin : Origin
  kind : κ
deriving BEq, Repr, Inhabited

/-- The plan of a selection set on an object: fields with distinct names, those of fragments
included, and the fragments that are spread right into the set. -/
structure RecordPlanOf (κ : Type) where
  fields : List (PlannedField κ) := []
  spreads : List String := []
deriving BEq, Repr, Inhabited

/-- The plan of a selection set on a union: all members of the union, and a plan for each member
that is selected, in the order of the selection. -/
structure UnionPlanOf (κ : Type) where
  name : String
  members : List String
  variants : List (String × RecordPlanOf κ)
deriving BEq, Repr, Inhabited

/-- What a field holds. -/
inductive FieldKind where
  | leaf (scalar : Elm.Scalar)
  | enum (name : String)
  | object (plan : RecordPlanOf FieldKind)
  | union (plan : UnionPlanOf FieldKind)
deriving BEq, Repr, Inhabited

/-- A planned field with all that is below it. -/
abbrev FieldPlan := PlannedField FieldKind

/-- The plan of a selection set on an object with all that is below it. -/
abbrev RecordPlan := RecordPlanOf FieldKind

/-- The plan of a selection set on a union with all that is below it. -/
abbrev UnionPlan := UnionPlanOf FieldKind

/-- The plan of a selection set, or what a field that holds it holds. -/
inductive SelectionPlan where
  | record (plan : RecordPlan)
  | union (plan : UnionPlan)
deriving BEq, Repr, Inhabited

namespace PlannedField

variable {κ : Type}

/-- Whether the field was selected in the set itself, and by no fragment. -/
def isOwn (field : PlannedField κ) : Bool := field.origin == .own

/-- Whether a name is that of one of the fields. -/
def hasName (name : String) (fields : List (PlannedField κ)) : Bool :=
  fields.any (·.name == name)

/-- Adds a field that is selected directly, unless there is one of its name. -/
def push (field : PlannedField κ) (fields : List (PlannedField κ)) : List (PlannedField κ) :=
  if hasName field.name fields then fields else fields ++ [{ field with origin := .own }]

/-- Adds a field that a fragment provides. It takes the place of a direct field of its name, but
gives way to a field that an earlier fragment provides. -/
def provide (field : PlannedField κ) : List (PlannedField κ) → List (PlannedField κ)
  | [] => [{ field with origin := .spread }]
  | first :: rest =>
      if first.name == field.name then
        match first.origin with
        | .own => { field with origin := .spread } :: rest
        | .spread => first :: rest
      else first :: provide field rest

/-- Adds a field of another plan in the way that its origin asks for. -/
def absorb (field : PlannedField κ) (fields : List (PlannedField κ)) : List (PlannedField κ) :=
  match field.origin with
  | .own => field.push fields
  | .spread => field.provide fields

end PlannedField

namespace RecordPlanOf

variable {κ : Type}

/-- The field of a name. -/
def field? (plan : RecordPlanOf κ) (name : String) : Option (PlannedField κ) :=
  plan.fields.find? (·.name == name)

/-- The fields that the set selects itself and no fragment provides. -/
def ownFields (plan : RecordPlanOf κ) : List (PlannedField κ) :=
  plan.fields.filter (·.isOwn)

/-- Adds a field that is selected directly. -/
def push (plan : RecordPlanOf κ) (field : PlannedField κ) : RecordPlanOf κ :=
  { plan with fields := field.push plan.fields }

/-- Names a fragment that is spread, once. -/
def addSpread (plan : RecordPlanOf κ) (fragment : String) : RecordPlanOf κ :=
  if plan.spreads.contains fragment then plan
  else { plan with spreads := plan.spreads ++ [fragment] }

/-- Adds a fragment that is spread, with the fields of its own plan. -/
def pushSpread (plan : RecordPlanOf κ) (fragment : String) (spread : RecordPlanOf κ) :
    RecordPlanOf κ :=
  let named := plan.addSpread fragment
  let fields := spread.fields.foldl (fun fields field => field.provide fields) named.fields
  { named with fields := fields }

/-- Adds a later selection set on the same object. -/
def absorb (plan later : RecordPlanOf κ) : RecordPlanOf κ :=
  let named := later.spreads.foldl addSpread plan
  let fields := later.fields.foldl (fun fields field => field.absorb fields) named.fields
  { named with fields := fields }

end RecordPlanOf

namespace UnionPlanOf

variable {κ : Type}

/-- Adds a selection set on a member to the variants. -/
def addVariant (member : String) (plan : RecordPlanOf κ) :
    List (String × RecordPlanOf κ) → List (String × RecordPlanOf κ)
  | [] => [(member, plan)]
  | (name, earlier) :: rest =>
      if name == member then (name, earlier.absorb plan) :: rest
      else (name, earlier) :: addVariant member plan rest

/-- The plan for a member, if the member is selected. -/
def variant? (plan : UnionPlanOf κ) (member : String) : Option (RecordPlanOf κ) :=
  plan.variants.lookup member

end UnionPlanOf

/-- What a field holds that has the planned selection set. -/
def SelectionPlan.kind : SelectionPlan → FieldKind
  | .record plan => .object plan
  | .union plan => .union plan

end ElmClient
