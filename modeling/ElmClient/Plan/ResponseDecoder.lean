/-
Module: ElmClient.Plan.ResponseDecoder
Purpose: The decoder of what a plan describes. It reads every field of a record, those of
  fragments included.
Main exports: FieldKind.decoder, RecordPlan.decoder, UnionPlan.cases, FieldPlan.decoder,
  RecordPlan.responseDecoder
-/
import ElmClient.Elm.Decoder
import ElmClient.Name
import ElmClient.Plan.Basic

namespace ElmClient

open Elm

/-- Reads a value with its layers from a key of an object. An optional layer outside stands around
the reading of the key, so that a missing key is nothing too. -/
def readField (wire : String) (layers : List Layer) (value : Decoder) : Decoder :=
  let read := Decoder.field wire (Decoder.wrap (Layer.makeRequired layers) value)
  if Layer.isOptional layers then .optional read else read

mutual

/-- The decoder of what a field holds, without the layers. -/
def FieldKind.decoder : FieldKind → Decoder
  | .leaf scalar => .scalar scalar
  | .enum name => .enum name
  | .object plan => .record (RecordPlan.decoder .anonymous plan)
  | .union plan => UnionPlan.decoder plan
termination_by structural kind => kind

/-- The decoder of a record with a constructor. -/
def RecordPlan.decoder (constructor : Constructor) : RecordPlan → RecordDecoder
  | ⟨fields, _⟩ => ⟨constructor, FieldPlan.decoders fields⟩
termination_by structural plan => plan

/-- The decoder of a union. -/
def UnionPlan.decoder : UnionPlan → Decoder
  | ⟨name, _, variants⟩ => .union name (UnionPlan.cases name variants)
termination_by structural plan => plan

/-- The record decoders of the selected members of a union, each under the constructor of its
member. -/
def UnionPlan.cases (union : String) :
    List (String × RecordPlan) → List (String × RecordDecoder)
  | [] => []
  | (member, plan) :: rest =>
      (member, RecordPlan.decoder (.tagged (Name.unionConstructor union member)) plan) ::
        UnionPlan.cases union rest
termination_by structural variants => variants

/-- The names and decoders of fields. -/
def FieldPlan.decoders : List FieldPlan → List (String × Decoder)
  | [] => []
  | ⟨name, wire, layers, _, kind⟩ :: rest =>
      (name, readField wire layers kind.decoder) :: FieldPlan.decoders rest
termination_by structural fields => fields

end

/-- The decoder of a field. -/
def FieldPlan.decoder (field : FieldPlan) : Decoder :=
  readField field.wire field.layers field.kind.decoder

/-- The decoder of a response. A result with fragments is an extended alias, which has no
constructor of its own, so such a record is written out. -/
def RecordPlan.responseDecoder (resultType : String) (plan : RecordPlan) : Decoder :=
  .record (RecordPlan.decoder
    (if plan.spreads.isEmpty then .recordAlias resultType else .anonymous) plan)

theorem FieldPlan.decoders_eq (fields : List FieldPlan) :
    FieldPlan.decoders fields =
      fields.map fun field => (field.name, FieldPlan.decoder field) := by
  induction fields with
  | nil => rfl
  | cons field rest ih => simp [FieldPlan.decoders, FieldPlan.decoder, ih]

end ElmClient
