/-
Module: ElmClient.Proofs.Generation.Provision
Purpose: The fragments that a result type extends are declared with the types of the plans that the
  result was made of. So what the plan of an operation says about its fragments can be read off the
  module, without the document.
Main exports: Module.ExtendsOpen, Module.Provides, RecordPlan.Coherent.provided, Module.Plans,
  BoundDocument.Declares.exists_plan, generateFromText_plans
-/
import ElmClient.Elm.Decoding
import ElmClient.Proofs.Generation.Declarations

namespace ElmClient

open GraphQL Elm

/-! ### The fragments that planned types extend -/

namespace Elm.TypeExpr

theorem extensions_wrap (layers : List Layer) (type : TypeExpr) :
    (TypeExpr.wrap layers type).extensions = type.extensions := by
  induction layers with
  | nil => rfl
  | cons layer rest ih =>
      cases layer with
      | optional => exact ih
      | list => exact ih

theorem mem_fieldExtensions {fragment : String} {fields : List (String × TypeExpr)} :
    fragment ∈ fieldExtensions fields ↔ ∃ entry ∈ fields, fragment ∈ entry.2.extensions := by
  induction fields with
  | nil => simp [fieldExtensions]
  | cons first rest ih =>
      obtain ⟨name, type⟩ := first
      rw [fieldExtensions, List.mem_append, ih, List.exists_mem_cons_iff]

end Elm.TypeExpr

theorem mem_extensions_extendBy {fragment : String} {spreads : List String} {base : TypeExpr} :
    fragment ∈ (extendBy spreads base).extensions ↔
      fragment ∈ spreads ∨ fragment ∈ base.extensions := by
  induction spreads generalizing base with
  | nil => simp [extendBy]
  | cons first rest ih =>
      have step : extendBy (first :: rest) base = extendBy rest (.extend first base) := rfl
      rw [step, ih, TypeExpr.extensions, List.mem_cons, List.mem_cons]
      tauto

theorem UnionPlan.types_eq (variants : List (String × RecordPlan)) :
    UnionPlan.types variants =
      variants.map fun entry => (entry.1, RecordPlan.type none entry.2) := by
  induction variants with
  | nil => rfl
  | cons first rest ih => simp [UnionPlan.types, ih]

theorem UnionPlan.lookup_types (variants : List (String × RecordPlan)) (member : String) :
    (UnionPlan.types variants).lookup member =
      (variants.lookup member).map (RecordPlan.type none) := by
  rw [UnionPlan.types_eq]
  exact Dictionary.lookup_map_entry (fun _ => RecordPlan.type none) member variants

/-- The type of a record is that of its own fields in the open aliases of its fragments. -/
theorem RecordPlan.type_eq (row : Option String) (plan : RecordPlan) :
    RecordPlan.type row plan =
      extendBy plan.spreads (.record (FieldPlan.ownTypes plan.fields) row) := by
  obtain ⟨fields, spreads⟩ := plan
  rfl

/-- A type that extends open fragments only. -/
def Elm.Module.ExtendsOpen (m : Module) (type : TypeExpr) : Prop :=
  ∀ fragment ∈ type.extensions, m.Opens fragment

namespace Elm.Module.ExtendsOpen

variable {m : Module} {row : Option String} {plan : RecordPlan}

theorem spread (opened : m.ExtendsOpen (RecordPlan.type row plan)) {fragment : String}
    (member : fragment ∈ plan.spreads) : m.Opens fragment := by
  apply opened
  rw [RecordPlan.type_eq]
  exact mem_extensions_extendBy.mpr (Or.inl member)

theorem field (opened : m.ExtendsOpen (RecordPlan.type row plan)) {field : FieldPlan}
    (member : field ∈ plan.fields) (own : field.isOwn = true) :
    m.ExtendsOpen field.kind.type := by
  intro fragment extended
  apply opened
  rw [RecordPlan.type_eq]
  refine mem_extensions_extendBy.mpr (Or.inr ?_)
  rw [TypeExpr.extensions, FieldPlan.ownTypes_eq]
  refine TypeExpr.mem_fieldExtensions.mpr ⟨(field.name, FieldPlan.type field), ?_, ?_⟩
  · exact List.mem_map.mpr ⟨field, List.mem_filter.mpr ⟨member, own⟩, rfl⟩
  · rw [FieldPlan.type, TypeExpr.extensions_wrap]
    exact extended

theorem variant {name : String} {members : List String} {variants : List (String × RecordPlan)}
    (opened : m.ExtendsOpen (UnionPlan.type ⟨name, members, variants⟩))
    (distinct : (variants.map Prod.fst).Nodup) {entry : String × RecordPlan}
    (there : entry ∈ variants) (member : entry.1 ∈ members) :
    m.ExtendsOpen (RecordPlan.type none entry.2) := by
  intro fragment extended
  apply opened
  rw [UnionPlan.type, TypeExpr.extensions]
  refine TypeExpr.mem_fieldExtensions.mpr ⟨(entry.1, RecordPlan.type none entry.2), ?_, extended⟩
  refine List.mem_map.mpr ⟨entry.1, member, ?_⟩
  rw [UnionPlan.lookup_types, Dictionary.lookup_of_mem distinct there]
  rfl

end Elm.Module.ExtendsOpen

/-! ### Fragments as the module declares them -/

/-- A module that declares a fragment open, with the type of a plan. -/
def Elm.Module.Provides (m : Module) (fragment : String) (plan : RecordPlan) : Prop :=
  m.fragment (Text.capitalize fragment) =
    some ⟨Text.capitalize fragment, RecordPlan.type (some DeclarationGroup.rowVariable) plan, true⟩

section Provision

variable {bound : BoundDocument} {m : Module} {inventory : Inventory}
  {plans : List (String × SelectionPlan)} {clients : List OperationClient}

mutual

/-- A plan whose type extends open fragments finds them in the module. The type of a fragment is a
named type of the module, so what it extends is open again. -/
theorem RecordPlan.Coherent.provided (declares : bound.Declares m inventory plans clients)
    (resolvable : m.Resolvable) :
    ∀ {depth plan}, RecordPlan.Coherent bound.IsPlanOf depth plan →
      ∀ {row}, m.ExtendsOpen (RecordPlan.type row plan) →
        RecordPlan.Coherent m.Provides depth plan
  | _, _, .mk sources merged own planned positive below, row, opened => by
      have spreads {source} (member : source ∈ sources) : m.Opens source.1 := by
        apply opened.spread
        rw [merged.spreads]
        exact List.mem_map_of_mem member
      refine .mk sources merged ?_ ?_ positive ?_
      · intro field member mine
        exact (own field member mine).provided declares resolvable (opened.field member mine)
      · intro source member
        obtain ⟨_, found, rfl, _⟩ := declares.fragment_of_isPlanOf resolvable.fragments_nodup
          (planned source member) (spreads member)
        exact found
      · intro source member
        obtain ⟨_, _, rfl, named⟩ := declares.fragment_of_isPlanOf resolvable.fragments_nodup
          (planned source member) (spreads member)
        exact (below source member).provided declares resolvable
          (resolvable.extensions_open _ named)

/-- What a field holds finds its fragments in the module. -/
theorem FieldKind.Coherent.provided (declares : bound.Declares m inventory plans clients)
    (resolvable : m.Resolvable) :
    ∀ {depth kind}, FieldKind.Coherent bound.IsPlanOf depth kind →
      m.ExtendsOpen kind.type → FieldKind.Coherent m.Provides depth kind
  | _, _, .leaf scalar, _ => .leaf scalar
  | _, _, .enum name, _ => .enum name
  | _, _, .object plan, opened => .object (plan.provided declares resolvable opened)
  | _, _, .union distinct selected variants, opened =>
      .union distinct selected fun entry there =>
        (variants entry there).provided declares resolvable
          (opened.variant distinct there (selected entry there))

end

/-- A plan that stands behind a request of a module: it is found under the name of the request, its
type under the name of the result and its decoder under the name of the decoder, and the fragments
in it are nested less deep than the module has declarations. -/
structure Elm.Module.Plans (m : Module) (request : Request) (plan : RecordPlan) : Prop where
  request_eq : m.request request.operationName = some request
  result_eq : m.aliasType (Text.capitalize request.operationName) = some (RecordPlan.type none plan)
  decoder_eq : m.decoder request.decoderName =
    some (plan.responseDecoder (Text.capitalize request.operationName))
  coherent : ∃ depth < m.declarations.length, RecordPlan.Coherent m.Provides depth plan

/-- In a module whose names can be followed there is a plan behind every request. -/
theorem BoundDocument.Declares.exists_plan (declares : bound.Declares m inventory plans clients)
    (resolvable : m.Resolvable)
    (named : ∀ operation ∈ bound.operations, isName operation.title = true) {request : Request}
    (member : request ∈ m.requests) : ∃ plan, m.Plans request plan := by
  rw [declares.requests] at member
  obtain ⟨client, there, rfl⟩ := List.mem_map.mp member
  obtain ⟨operation, among, made⟩ := Forall₂.exists_left declares.made there
  obtain ⟨plan, planned, result, decoder⟩ := made.planned
  have distinct := declares.titles_nodup resolvable.aliases_nodup
  have aliased := declares.alias_of_mem resolvable.aliases_nodup there
  rw [made.resultType, result] at aliased
  have opened : m.ExtendsOpen (RecordPlan.type none plan) := by
    refine resolvable.extensions_open _ (List.mem_append_left _ ?_)
    exact List.mem_map.mpr ⟨_, Dictionary.mem_of_lookup aliased, rfl⟩
  have coherent := operationPlan_coherent declares.collected among planned
  refine ⟨plan, declares.request_of_mem distinct there, ?_, ?_,
    _, declares.room, coherent.provided declares resolvable opened⟩
  · rw [made.operationName]
    exact aliased
  · rw [declares.decoder_of_mem distinct named there, decoder, made.operationName]

end Provision

/-- There is a plan behind every request of a module that is generated from a text, if the names of
the module can be followed. -/
theorem generateFromText_plans {schema : Schema} {text : String} {options : GenerationOptions}
    {m : Module} (generated : generateFromText schema text options = .ok m)
    (resolvable : m.Resolvable) {request : Request} (member : request ∈ m.requests) :
    ∃ plan, m.Plans request plan := by
  obtain ⟨document, _, named, made⟩ := generateFromText_eq_ok generated
  obtain ⟨bound, _, _, _, bind_ok, declares⟩ := generate_declares made
  exact declares.exists_plan resolvable (BoundDocument.isName_title bind_ok named) member

/-! ### A document with a fragment

The hypotheses of the theorems about generated modules are met by a document that selects one field
directly and by a fragment. -/

/-- A schema with one object type below the root. -/
def heroSchema : Schema where
  types := [("String", .scalar), ("Query", .object [("hero", .named "Hero")]),
    ("Hero", .object [("name", .named "String")])]
  roots := { query := some "Query" }

/-- A document about the schema. -/
def heroText : String := "query Q { hero { name ...P } } fragment P on Hero { name }"

/-- A field as the document selects it. -/
def heroField (name : String) (column : Nat) : Field := ⟨⟨1, column⟩, none, name, [], []⟩

/-- What the document selects on the hero. -/
def heroSelections : List Selection :=
  [.field (heroField "name" 18) ⟨1, 18⟩ [], .spread ⟨⟨1, 23⟩, "P", []⟩]

/-- The operation of the document. -/
def heroOperation : Operation where
  position := ⟨1, 1⟩
  kind := .query
  name := some "Q"
  definitions := []
  directives := []
  brace := ⟨1, 9⟩
  selections := [.field (heroField "hero" 11) ⟨1, 16⟩ heroSelections]

/-- The fragment of the document. -/
def heroFragment : Fragment where
  position := ⟨1, 32⟩
  name := "P"
  condition := ⟨⟨1, 43⟩, "Hero", ⟨1, 46⟩⟩
  directives := []
  brace := ⟨1, 51⟩
  selections := [.field (heroField "name" 53) ⟨1, 53⟩ []]

/-- The document as it is read from the text. -/
def heroDocument : Document := ⟨[heroOperation], [heroFragment]⟩

/-- What is asked for beside the document. -/
def heroOptions : GenerationOptions := ⟨"Queries.Hero", "/graphql", .get, false⟩

/-- A response to the document. -/
def heroResponse : Json := .object [("hero", .object [("name", .string "Luke")])]

theorem exists_heroModule : ∃ m, generateFromText heroSchema heroText heroOptions = .ok m ∧
    m.Resolvable ∧ ∃ request ∈ m.requests, ∃ value,
      m.decodeResponse request.operationName heroResponse = .ok value := by
  have evaluated : (generateFromText heroSchema heroText heroOptions).toOption.any
      (fun m => decide m.Resolvable && m.requests.any fun request =>
        (m.decodeResponse request.operationName heroResponse).toOption.any fun _ => true) =
          true := by decide +kernel
  obtain ⟨m, generated, evaluated⟩ := Except.any_toOption.mp evaluated
  simp only [Bool.and_eq_true, decide_eq_true_eq, List.any_eq_true, Except.any_toOption,
    and_true] at evaluated
  exact ⟨m, generated, evaluated⟩

end ElmClient
