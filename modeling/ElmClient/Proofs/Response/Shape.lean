/-
Module: ElmClient.Proofs.Response.Shape
Purpose: The declared type of a result and its decoder have one shape. The type reaches the fields of
  fragments through open aliases that are declared elsewhere, and the decoder reads all of them from
  one flat list; both hold the same under every name, at every depth of fragments in fragments.
Main exports: shapeIn_extendBy, RecordPlan.Coherent.shape_type, FieldKind.Coherent.shape_type,
  Module.Plans.shape_eq, generateFromText_shapes_agree
-/
import ElmClient.Elm.Shape
import ElmClient.Proofs.Elm.Decoding
import ElmClient.Proofs.Generation.Provision

namespace ElmClient

open GraphQL Elm

/-! ### Layers -/

/-- Puts layers around a shape. -/
def Elm.Shape.wrap (layers : List Layer) (inner : Shape) : Shape :=
  Layer.wrap .optional .list layers inner

namespace Elm

theorem TypeExpr.shapeIn_wrap (names : Resolution) (layers : List Layer) (type : TypeExpr) :
    (TypeExpr.wrap layers type).shapeIn names = Shape.wrap layers (type.shapeIn names) := by
  induction layers with
  | nil => rfl
  | cons layer rest ih =>
      cases layer with
      | optional => exact congrArg Shape.optional ih
      | list => exact congrArg Shape.list ih

theorem Decoder.shape_wrap (layers : List Layer) (decoder : Decoder) :
    (Decoder.wrap layers decoder).shape = Shape.wrap layers decoder.shape := by
  induction layers with
  | nil => rfl
  | cons layer rest ih =>
      cases layer with
      | optional => exact congrArg Shape.optional ih
      | list => exact congrArg Shape.list ih

theorem TypeExpr.shapesIn_eq (names : Resolution) (types : List (String × TypeExpr)) :
    TypeExpr.shapesIn names types = types.map fun entry => (entry.1, entry.2.shapeIn names) := by
  induction types with
  | nil => rfl
  | cons first rest ih => simp [TypeExpr.shapesIn, ih]

theorem Decoder.fieldShapes_eq (fields : List (String × Decoder)) :
    Decoder.fieldShapes fields = fields.map fun entry => (entry.1, entry.2.shape) := by
  induction fields with
  | nil => rfl
  | cons first rest ih => simp [Decoder.fieldShapes, ih]

theorem Decoder.caseShapes_eq (cases : List (String × RecordDecoder)) :
    Decoder.caseShapes cases = cases.map fun entry => (entry.1, Decoder.recordShape entry.2) := by
  induction cases with
  | nil => rfl
  | cons first rest ih => simp [Decoder.caseShapes, ih]

end Elm

/-- The layers of a field come back out, whichever of them stands around the reading of the key. -/
theorem shape_readField (wire : String) (layers : List Layer) (value : Decoder) :
    (readField wire layers value).shape = Shape.wrap layers value.shape := by
  cases layers with
  | nil => rfl
  | cons layer rest =>
      cases layer with
      | optional => exact congrArg Shape.optional (Decoder.shape_wrap rest value)
      | list => exact congrArg Shape.list (Decoder.shape_wrap rest value)

theorem FieldPlan.shape_decoder (field : FieldPlan) :
    (FieldPlan.decoder field).shape = Shape.wrap field.layers field.kind.decoder.shape :=
  shape_readField field.wire field.layers field.kind.decoder

/-! ### Records -/

/-- The fields of the shape of a planned record, sorted by name. -/
def RecordPlan.shapeFields (plan : RecordPlan) : List (String × Shape) :=
  Dictionary.sorted (plan.fields.map fun field => (field.name, (FieldPlan.decoder field).shape))

theorem RecordPlan.recordShape_decoder (constructor : Constructor) (plan : RecordPlan) :
    Decoder.recordShape (RecordPlan.decoder constructor plan) = .record plan.shapeFields := by
  obtain ⟨fields, spreads⟩ := plan
  rw [RecordPlan.decoder, Decoder.recordShape, Decoder.fieldShapes_eq, FieldPlan.decoders_eq,
    List.map_map]
  rfl

theorem RecordPlan.lookup_shapeFields {plan : RecordPlan}
    (distinct : (plan.fields.map (·.name)).Nodup) (name : String) :
    plan.shapeFields.lookup name =
      (plan.field? name).map fun field => (FieldPlan.decoder field).shape := by
  rw [RecordPlan.shapeFields, Dictionary.lookup_sorted, PlannedField.lookup_map_name]
  · rfl
  · simpa [Function.comp_def] using distinct

/-- The fields of the shape that no fragment provides. -/
def RecordPlan.ownShapeFields (plan : RecordPlan) : List (String × Shape) :=
  Dictionary.sorted ((plan.fields.filter (·.isOwn)).map fun field =>
    (field.name, (FieldPlan.decoder field).shape))

theorem RecordPlan.lookup_ownShapeFields {plan : RecordPlan}
    (distinct : (plan.fields.map (·.name)).Nodup) (name : String) :
    plan.ownShapeFields.lookup name =
      ((plan.field? name).filter (·.isOwn)).map fun field => (FieldPlan.decoder field).shape := by
  rw [RecordPlan.ownShapeFields, Dictionary.lookup_sorted, PlannedField.lookup_map_name,
    PlannedField.named?_filter distinct]
  · rfl
  · have kept : (plan.fields.filter (·.isOwn)).Sublist plan.fields := List.filter_sublist
    simpa [Function.comp_def] using distinct.sublist (kept.map _)

/-- Applying open aliases to a type extends its shape by those of the fragments, one by one. -/
theorem shapeIn_extendBy (names : Resolution) (spreads : List String) (base : TypeExpr) :
    (extendBy spreads base).shapeIn names =
      spreads.foldl (fun shape fragment =>
        Shape.extend (names.fragmentShape (Text.capitalize fragment)) shape)
        (base.shapeIn names) := by
  induction spreads generalizing base with
  | nil => rfl
  | cons first rest ih => exact ih (.extend first base)

/-- Records that extend one another make a record, in which an inner field counts for an outer one
and an earlier fragment for a later one. -/
theorem foldl_extend {names : Resolution} {sources : List (String × RecordPlan)}
    {own : List (String × Shape)}
    (provided : ∀ source ∈ sources,
      names.fragmentShape (Text.capitalize source.1) = some (.record source.2.shapeFields))
    (ascending : Dictionary.Ascending own) :
    ∃ fields, (sources.map Prod.fst).foldl (fun shape fragment =>
        Shape.extend (names.fragmentShape (Text.capitalize fragment)) shape) (.record own) =
          .record fields ∧ Dictionary.Ascending fields ∧
      ∀ name, fields.lookup name =
        (own.lookup name).or (sources.findSome? fun source => source.2.shapeFields.lookup name) := by
  induction sources generalizing own with
  | nil => exact ⟨own, rfl, ascending, fun name => (Option.or_none).symm⟩
  | cons first rest ih =>
      have sorted : Dictionary.Ascending first.2.shapeFields := Dictionary.ascending_sorted _
      obtain ⟨fields, same, ordered, holds⟩ := ih
        (fun source later => provided source (List.mem_cons_of_mem _ later))
        (sorted.extendSorted own)
      refine ⟨fields, ?_, ordered, ?_⟩
      · rw [List.map_cons, List.foldl_cons, provided first List.mem_cons_self]
        exact same
      · intro name
        rw [holds, Dictionary.lookup_extendSorted ascending.nodup, List.findSome?_cons]
        cases own.lookup name <;> cases first.2.shapeFields.lookup name <;> rfl

/-- The own fields of a plan and those of its fragments have the shapes of the fields of the
plan. -/
theorem RecordPlanOf.MergedFrom.lookup_shapeFields {sources : List (String × RecordPlan)}
    {plan : RecordPlan} (merged : RecordPlanOf.MergedFrom sources plan)
    (distinct : ∀ source ∈ sources, (source.2.fields.map (·.name)).Nodup) (name : String) :
    plan.shapeFields.lookup name =
      (plan.ownShapeFields.lookup name).or
        (sources.findSome? fun source => source.2.shapeFields.lookup name) := by
  have spread : (sources.findSome? fun source => source.2.shapeFields.lookup name) =
      sources.findSome? fun source =>
        (source.2.field? name).map fun field => (FieldPlan.decoder field).shape :=
    RecordPlanOf.findSome?_congr fun source member =>
      RecordPlan.lookup_shapeFields (distinct source member) name
  rw [spread, RecordPlan.lookup_shapeFields merged.names_nodup,
    RecordPlan.lookup_ownShapeFields merged.names_nodup]
  exact (merged.map_field? (fun _ => rfl) name).symm

/-- A type that extends the given fragments has all fields of the plan, once its own fields
agree. -/
theorem RecordPlanOf.MergedFrom.shape_type {names : Resolution}
    {sources : List (String × RecordPlan)} {plan : RecordPlan}
    (merged : RecordPlanOf.MergedFrom sources plan)
    (distinct : ∀ source ∈ sources, (source.2.fields.map (·.name)).Nodup)
    (provided : ∀ source ∈ sources,
      names.fragmentShape (Text.capitalize source.1) = some (.record source.2.shapeFields))
    (own : ∀ field ∈ plan.fields, field.isOwn = true →
      field.kind.type.shapeIn names = field.kind.decoder.shape) (row : Option String) :
    (RecordPlan.type row plan).shapeIn names = .record plan.shapeFields := by
  have ownFields : (TypeExpr.record (FieldPlan.ownTypes plan.fields) row).shapeIn names =
      .record plan.ownShapeFields := by
    rw [TypeExpr.shapeIn, TypeExpr.shapesIn_eq, FieldPlan.ownTypes_eq, List.map_map]
    apply congrArg Shape.ofFields
    apply List.map_congr_left
    intro field member
    obtain ⟨there, mine⟩ := List.mem_filter.mp member
    rw [FieldPlan.shape_decoder, ← own field there mine, ← TypeExpr.shapeIn_wrap]
    rfl
  have sorted : Dictionary.Ascending plan.ownShapeFields := Dictionary.ascending_sorted _
  obtain ⟨fields, extended, ascending, holds⟩ := foldl_extend provided sorted
  rw [RecordPlan.type_eq, shapeIn_extendBy, ownFields, merged.spreads, extended]
  apply congrArg Shape.record
  apply ascending.ext (Dictionary.ascending_sorted _)
  intro name
  rw [holds]
  exact (merged.lookup_shapeFields distinct name).symm

/-! ### Unions -/

/-- A member that is not selected has an empty argument, so it adds nothing to the shape of a union;
the order in which members are selected does not matter either. -/
theorem UnionPlan.shape_type {names : Resolution} {union : String} {members : List String}
    {variants : List (String × RecordPlan)} (distinct : (variants.map Prod.fst).Nodup)
    (selected : ∀ entry ∈ variants, entry.1 ∈ members)
    (agree : ∀ entry ∈ variants,
      (RecordPlan.type none entry.2).shapeIn names = .record entry.2.shapeFields) :
    (UnionPlan.type ⟨union, members, variants⟩).shapeIn names =
      (UnionPlan.decoder ⟨union, members, variants⟩).shape := by
  -- The shape of the argument of a member, whether it is selected or not.
  let shape (member : String) : Shape :=
    (((UnionPlan.types variants).lookup member).getD (.closed [])).shapeIn names
  have typed : TypeExpr.shapesIn names (unionArguments members (UnionPlan.types variants)) =
      members.map fun member => (member, shape member) := by
    rw [TypeExpr.shapesIn_eq, unionArguments, List.map_map]
    rfl
  have decoded : Decoder.caseShapes (UnionPlan.cases union variants) =
      (variants.map Prod.fst).map fun member => (member, shape member) := by
    rw [Decoder.caseShapes_eq, UnionPlan.cases_eq, List.map_map, List.map_map]
    apply List.map_congr_left
    intro entry member
    simp only [Function.comp_apply, RecordPlan.recordShape_decoder, shape, UnionPlan.lookup_types,
      Dictionary.lookup_of_mem distinct member, Option.map_some, Option.getD_some,
      agree entry member]
  have unselected {member : String} (absent : member ∉ variants.map Prod.fst) :
      (shape member).isEmptyRecord = true := by
    simp only [shape, UnionPlan.lookup_types, Dictionary.lookup_eq_none_iff.mpr absent]
    rfl
  rw [UnionPlan.type, TypeExpr.shapeIn, UnionPlan.decoder, Decoder.shape, typed, decoded]
  apply congrArg (Shape.union union)
  apply (Dictionary.ascending_sorted _).ext (Dictionary.ascending_sorted _)
  intro name
  have consistent (names : List String) :
      ∀ entry ∈ (names.map fun member => (member, shape member)).filter
        fun entry => !entry.2.isEmptyRecord, entry.2 = shape entry.1 := by
    intro entry member
    obtain ⟨_, _, rfl⟩ := List.mem_map.mp (List.mem_filter.mp member).1
    rfl
  rw [Dictionary.lookup_sorted_of_consistent shape (consistent _),
    Dictionary.lookup_sorted_of_consistent shape (consistent _)]
  have there (names : List String) :
      name ∈ ((names.map fun member => (member, shape member)).filter
        fun entry => !entry.2.isEmptyRecord).map Prod.fst ↔
        name ∈ names ∧ (shape name).isEmptyRecord = false := by
    simp
  have same : name ∈ members ∧ (shape name).isEmptyRecord = false ↔
      name ∈ variants.map Prod.fst ∧ (shape name).isEmptyRecord = false := by
    constructor
    · rintro ⟨_, filled⟩
      refine ⟨?_, filled⟩
      by_contra absent
      rw [unselected absent] at filled
      exact Bool.noConfusion filled
    · rintro ⟨member, filled⟩
      obtain ⟨entry, among, rfl⟩ := List.mem_map.mp member
      exact ⟨selected entry among, filled⟩
  simp only [there, same]

section Agreement

variable {m : Module}

/-- The shape of a fragment that a module provides is that of its plan, seen one name less deep. -/
theorem Elm.Module.Provides.fragmentShape {fragment : String} {plan : RecordPlan}
    (provides : m.Provides fragment plan) {fuel : Nat} {shape : Shape}
    (typed : (RecordPlan.type (some DeclarationGroup.rowVariable) plan).shapeIn
      (m.resolution fuel) = shape) :
    (m.resolution (fuel + 1)).fragmentShape (Text.capitalize fragment) = some shape := by
  have found : m.fragment (Text.capitalize fragment) = _ := provides
  simp only [Module.resolution, found, Option.map_some, typed]

mutual

/-- Where the fragments of a plan are declared, its type has the shape of its decoder, whatever row
variable the type has. -/
theorem RecordPlan.Coherent.shape_type :
    ∀ {depth plan}, RecordPlan.Coherent m.Provides depth plan → ∀ {fuel}, depth ≤ fuel →
      ∀ row, (RecordPlan.type row plan).shapeIn (m.resolution fuel) = .record plan.shapeFields
  | _, _, .mk sources merged own planned positive below, fuel, enough, row => by
      have provided : ∀ source ∈ sources,
          (m.resolution fuel).fragmentShape (Text.capitalize source.1) =
            some (.record source.2.shapeFields) := by
        intro source member
        cases fuel with
        | zero => exact absurd (positive source member) (Nat.not_lt.mpr enough)
        | succ fuel =>
            apply (planned source member).fragmentShape
            exact (below source member).shape_type (Nat.sub_le_of_le_add enough) _
      exact merged.shape_type (fun source member => (below source member).names_nodup) provided
        (fun field member mine => (own field member mine).shape_type enough) row

/-- Where the fragments of what a field holds are declared, its type has the shape of its
decoder. -/
theorem FieldKind.Coherent.shape_type :
    ∀ {depth kind}, FieldKind.Coherent m.Provides depth kind → ∀ {fuel}, depth ≤ fuel →
      kind.type.shapeIn (m.resolution fuel) = kind.decoder.shape
  | _, _, .leaf scalar, _, _ => rfl
  | _, _, .enum name, _, _ => rfl
  | _, _, .object plan, _, enough => by
      rw [FieldKind.type, FieldKind.decoder, Decoder.shape, RecordPlan.recordShape_decoder]
      exact plan.shape_type enough none
  | _, _, .union distinct selected variants, _, enough =>
      UnionPlan.shape_type distinct selected fun entry member =>
        (variants entry member).shape_type enough none

end

/-- The result type of a request and its decoder have one shape. Expanding names deeper than there
are declarations changes nothing. -/
theorem Elm.Module.Plans.shape_eq {request : Request} {plan : RecordPlan}
    (plans : m.Plans request plan) {fuel : Nat} (enough : m.declarations.length ≤ fuel) :
    (TypeExpr.named (Text.capitalize request.operationName)).shapeIn (m.resolution fuel) =
      (plan.responseDecoder (Text.capitalize request.operationName)).shape := by
  obtain ⟨depth, less, coherent⟩ := plans.coherent
  cases fuel with
  | zero => exact absurd (Nat.lt_of_lt_of_le less enough) (Nat.not_lt_zero _)
  | succ fuel =>
      have typed := coherent.shape_type (Nat.le_of_lt_succ (Nat.lt_of_lt_of_le less enough)) none
      simp only [TypeExpr.shapeIn, Module.resolution, plans.result_eq, Option.map_some,
        Option.getD_some, typed]
      exact (RecordPlan.recordShape_decoder _ plan).symm

end Agreement

/-- Every request of a module that is generated from a text, in which names can be followed, has a
declared decoder, and the declared type of its result has the shape of that decoder. -/
theorem generateFromText_shapes_agree {schema : Schema} {text : String}
    {options : GenerationOptions} {m : Module}
    (generated : generateFromText schema text options = .ok m) (resolvable : m.Resolvable)
    {request : Request} (member : request ∈ m.requests) :
    ∃ decoder, m.decoder request.decoderName = some decoder ∧
      m.shape (.named (Text.capitalize request.operationName)) = decoder.shape := by
  obtain ⟨plan, plans⟩ := generateFromText_plans generated resolvable member
  exact ⟨_, plans.decoder_eq, plans.shape_eq (Nat.le_refl _)⟩

theorem hero_shapes_agree : ∃ m, generateFromText heroSchema heroText heroOptions = .ok m ∧
    ∃ request ∈ m.requests, ∃ decoder, m.decoder request.decoderName = some decoder ∧
      m.shape (.named (Text.capitalize request.operationName)) = decoder.shape := by
  obtain ⟨m, generated, resolvable, request, member, _⟩ := exists_heroModule
  exact ⟨m, generated, request, member, generateFromText_shapes_agree generated resolvable member⟩

end ElmClient
