/-
Module: ElmClient.Proofs.Generation.SelectedFields
Purpose: The fields that a document with a module selects. All of them are known, and leaves have no
  selection set while all other types have one, wherever planning looks at the selection set. The
  only place where it does not is the name of the type, selected on a union: whatever stands below
  it is collected and sent, but not planned.
Main exports: Schema.IsLeaf, BoundDocument.Walked, BoundDocument.InPlan, KindPlanned.isLeaf_iff,
  BoundDocument.Declares.inPlan, BoundDocument.Walked.of_selected, generate_selectedFields
-/
import ElmClient.Proofs.Generation.Declarations
import ElmClient.Proofs.Inventory.Resolution
import ElmClient.Proofs.Plan.References

namespace ElmClient

open GraphQL

/-- A name of a scalar or of an enumeration, or one that the schema does not know. -/
def Schema.IsLeaf (schema : Schema) (name : String) : Prop :=
  ∀ body, schema.get? name = some body → body.isLeaf = true

/-- A selection that an operation or a used fragment contains, not below a field of a union. -/
inductive BoundDocument.Walked (bound : BoundDocument) : String → Selection → Prop where
  | operation {operation root selection} (member : operation ∈ bound.operations)
      (rooted : bound.schema.rootType operation.kind operation.title = .ok root)
      (below : selection ∈ operation.selections) : Walked bound root selection
  | fragment {on spread fragment selection} (used : bound.Selected on (.spread spread))
      (found : bound.fragment? spread.fragment = some fragment)
      (below : selection ∈ fragment.selections) : Walked bound fragment.condition.type selection
  | field {on field brace selections type selection}
      (above : Walked bound on (.field field brace selections))
      (apart : bound.schema.unionMembers? on = none)
      (selected : bound.schema.selectedType on field.name field.position = .ok type)
      (below : selection ∈ selections) : Walked bound type.name selection
  | inline {on inline brace selections selection}
      (above : Walked bound on (.inline inline brace selections))
      (below : selection ∈ selections) : Walked bound (inline.on on) selection

/-! ### What a plan says of its selections -/

/-- A selection that is planned with those around it, on an object or on a union. -/
inductive BoundDocument.InPlan (bound : BoundDocument) (on : String) (selection : Selection) :
    Prop where
  | record {active selections plan result}
      (planned : RecordPlanned bound active on selections plan result)
      (member : selection ∈ selections)
  | union {active members selections draft result}
      (united : bound.schema.unionMembers? on = some members)
      (planned : UnionPlanned bound active on members selections draft result)
      (member : selection ∈ selections)

section Planned

variable {bound : BoundDocument}

/-- A field that is planned on an object is known, and what it holds is planned. -/
theorem RecordPlanned.field_of_mem {field : Field} {brace : Position} {below : List Selection} :
    ∀ {active on selections plan result},
      RecordPlanned bound active on selections plan result →
      .field field brace below ∈ selections →
      ∃ type kind, bound.schema.selectedType on field.name field.position = .ok type ∧
        KindPlanned bound active type.name below kind
  | _, _, _, _, _, .nil, member => absurd member List.not_mem_nil
  | _, _, _, _, _, .field selected inside after, member => by
      rcases List.mem_cons.mp member with same | later
      · obtain ⟨rfl, rfl, rfl⟩ := Selection.field.inj same
        exact ⟨_, _, selected, inside⟩
      · exact after.field_of_mem later
  | _, _, _, _, _, .spread _ _ _ after, member =>
      after.field_of_mem ((List.mem_cons.mp member).resolve_left nofun)

/-- No inline fragment is planned on an object. -/
theorem RecordPlanned.inline_notMem {inline : InlineFragment} {brace : Position}
    {below : List Selection} :
    ∀ {active on selections plan result},
      RecordPlanned bound active on selections plan result →
      .inline inline brace below ∉ selections
  | _, _, _, _, _, .nil, member => absurd member List.not_mem_nil
  | _, _, _, _, _, .field _ _ after, member =>
      after.inline_notMem ((List.mem_cons.mp member).resolve_left nofun)
  | _, _, _, _, _, .spread _ _ _ after, member =>
      after.inline_notMem ((List.mem_cons.mp member).resolve_left nofun)

/-- The selections of an inline fragment on a union are planned on the type that it is about. -/
theorem UnionPlanned.inline_of_mem {inline : InlineFragment} {brace : Position}
    {below : List Selection} :
    ∀ {active union members selections draft result},
      UnionPlanned bound active union members selections draft result →
      .inline inline brace below ∈ selections →
      ∃ condition variant, inline.condition = some condition ∧ condition.type ∈ members ∧
        RecordPlanned bound active condition.type below {} variant
  | _, _, _, _, _, _, .nil, there => absurd there List.not_mem_nil
  | _, _, _, _, _, _, .typename _ after, there =>
      after.inline_of_mem ((List.mem_cons.mp there).resolve_left nofun)
  | _, _, _, _, _, _, .inline conditioned among _ planned after, there => by
      rcases List.mem_cons.mp there with same | later
      · obtain ⟨rfl, rfl, rfl⟩ := Selection.inline.inj same
        exact ⟨_, _, conditioned, among, planned⟩
      · exact after.inline_of_mem later
  | _, _, _, _, _, _, .merge _ _ _ after, there =>
      after.inline_of_mem ((List.mem_cons.mp there).resolve_left nofun)
  | _, _, _, _, _, _, .member _ _ _ _ _ after, there =>
      after.inline_of_mem ((List.mem_cons.mp there).resolve_left nofun)

/-- The form of a type says whether it is a leaf. -/
theorem Schema.isLeaf_iff_form {schema : Schema} {name : String} :
    schema.IsLeaf name ↔
      schema.form name = .leaf ∨ ∃ values, schema.form name = .enum values := by
  unfold IsLeaf form
  cases schema.get? name with
  | none => simp
  | some body => cases body <;> simp [TypeBody.isLeaf]

/-- What is planned for a field of a type has selections exactly where the type is no leaf. -/
theorem KindPlanned.isLeaf_iff {active : List String} {type : String} {selections : List Selection}
    {kind : FieldKind} (planned : KindPlanned bound active type selections kind) :
    selections = [] ↔ bound.schema.IsLeaf type := by
  rw [Schema.isLeaf_iff_form]
  cases planned with
  | leaf form | enum form => simp [form]
  | object form nonempty | union form nonempty => simp [form, nonempty]

/-- What is selected below a planned field is planned. -/
theorem KindPlanned.inPlan {active : List String} {type : String} {selections : List Selection}
    {kind : FieldKind} (planned : KindPlanned bound active type selections kind)
    {selection : Selection} (member : selection ∈ selections) : bound.InPlan type selection := by
  cases planned with
  | leaf | enum => exact absurd member List.not_mem_nil
  | object _ _ planned => exact .record planned member
  | union form _ planned _ =>
      exact .union (Schema.form_eq_union.mp form) planned member

end Planned

/-! ### Walked selections are planned -/

namespace BoundDocument

variable {bound : BoundDocument}

/-- What a fragment with a plan selects is planned. -/
theorem inPlan_of_fragmentPlan {name : String} {position : Position} {plan : SelectionPlan}
    (planned : bound.fragmentPlan name position = .ok plan) {fragment : Fragment}
    (found : bound.fragment? name = some fragment) {selection : Selection}
    (member : selection ∈ fragment.selections) :
    bound.InPlan fragment.condition.type selection := by
  obtain ⟨fragment', found', _, derived⟩ := fragmentPlanned planned
  obtain rfl := Option.some.inj (found.symm.trans found')
  cases plan with
  | record => exact .record derived member
  | union =>
      obtain ⟨members, draft, form, drafted, _⟩ := derived
      exact .union (Schema.form_eq_union.mp form) drafted member

/-- In a document with a module, every walked selection is planned. -/
theorem Declares.inPlan {m : Elm.Module} {inventory : Inventory}
    {plans : List (String × SelectionPlan)} {clients : List OperationClient}
    (declares : bound.Declares m inventory plans clients) {on : String} {selection : Selection}
    (walked : bound.Walked on selection) : bound.InPlan on selection := by
  induction walked with
  | operation member rooted below =>
      obtain ⟨client, _, made⟩ := Forall₂.exists_right declares.made member
      obtain ⟨plan, planned, _⟩ := made.planned
      obtain ⟨root, rooted', derived⟩ := operationPlanned planned
      obtain rfl := Except.ok.inj (rooted.symm.trans rooted')
      exact .record derived below
  | fragment used found below =>
      have known := mem_inventory_of_spread declares.collected used
      obtain ⟨_, _, planned, _⟩ := declares.fragment_of_mem known
      exact inPlan_of_fragmentPlan planned found below
  | field above apart selected below ih =>
      cases ih with
      | union united => exact nomatch apart.symm.trans united
      | record planned member =>
          obtain ⟨type, kind, selected', inside⟩ := planned.field_of_mem member
          obtain rfl := Except.ok.inj (selected.symm.trans selected')
          exact inside.inPlan below
  | inline above below ih =>
      cases ih with
      | record planned member => exact absurd member planned.inline_notMem
      | union _ planned member =>
          obtain ⟨condition, variant, conditioned, _, inside⟩ := planned.inline_of_mem member
          simp only [InlineFragment.on, conditioned, Option.map_some, Option.getD_some]
          exact .record inside below

/-- A selection is walked unless it stands below a field that is selected on a union. -/
theorem Walked.of_selected
    (bare : ∀ on field brace selections, bound.Selected on (.field field brace selections) →
      bound.schema.unionMembers? on ≠ none → selections = [])
    {on : String} {selection : Selection} (selected : bound.Selected on selection) :
    bound.Walked on selection := by
  induction selected with
  | operation member rooted below => exact .operation member rooted below
  | spread above found below => exact .fragment above found below
  | inline above below ih => exact .inline ih below
  | @field on _ _ _ _ _ above selected below ih =>
      by_cases apart : bound.schema.unionMembers? on = none
      · exact .field ih apart selected below
      · rw [bare _ _ _ _ above apart] at below
        exact absurd below List.not_mem_nil

/-- A walked field of an object or an interface has selections exactly where its type is no leaf. -/
theorem Declares.isLeaf_iff {m : Elm.Module} {inventory : Inventory}
    {plans : List (String × SelectionPlan)} {clients : List OperationClient}
    (declares : bound.Declares m inventory plans clients) {on : String} {field : Field}
    {brace : Position} {selections : List Selection} {type : TypeRef}
    (walked : bound.Walked on (.field field brace selections))
    (apart : bound.schema.unionMembers? on = none)
    (selected : bound.schema.selectedType on field.name field.position = .ok type) :
    selections = [] ↔ bound.schema.IsLeaf type.name := by
  cases declares.inPlan walked with
  | union united => exact nomatch apart.symm.trans united
  | record planned member =>
      obtain ⟨type', kind, selected', inside⟩ := planned.field_of_mem member
      obtain rfl := Except.ok.inj (selected.symm.trans selected')
      exact inside.isLeaf_iff

end BoundDocument

theorem Schema.selectedType_eq_ok {schema : Schema} {parent field : String} {position : Position}
    {type : TypeRef} (selected : schema.selectedType parent field position = .ok type) :
    field = "__typename" ∨ schema.fieldType? parent field = some type := by
  unfold selectedType at selected
  split at selected
  · exact Or.inl (eq_of_beq ‹_›)
  · split at selected
    · exact Or.inr (Except.ok.inj selected ▸ ‹_›)
    · exact nomatch selected

/-- In a document with a module, every selected field is the name of the type or one that the type
declares, and it has a selection set exactly where its type is no leaf. This is not so for the name
of a type that is selected on a union: neither a selection set of that field nor what stands in it
is refused. Where there is none, nothing selected escapes. -/
theorem generate_selectedFields {schema : Schema} {document : Document}
    {options : GenerationOptions} {m : Elm.Module}
    (generated : generate schema document options = .ok m) :
    ∃ bound, BoundDocument.bind schema document = .ok bound ∧
      (∀ operation ∈ bound.operations, ∃ root,
        schema.rootType operation.kind operation.title = .ok root) ∧
      (∀ on spread, bound.Selected on (.spread spread) →
        ∃ fragment, bound.fragment? spread.fragment = some fragment) ∧
      (∀ on field brace selections, bound.Selected on (.field field brace selections) →
        ∃ type, schema.selectedType on field.name field.position = .ok type ∧
          (field.name = "__typename" ∨ schema.fieldType? on field.name = some type) ∧
          (bound.Walked on (.field field brace selections) → schema.unionMembers? on = none →
            (selections = [] ↔ schema.IsLeaf type.name))) ∧
      ((∀ on field brace selections, bound.Selected on (.field field brace selections) →
          schema.unionMembers? on ≠ none → selections = []) →
        ∀ on selection, bound.Selected on selection → bound.Walked on selection) := by
  obtain ⟨bound, inventory, plans, clients, bind_ok, declares⟩ := generate_declares generated
  obtain ⟨rfl, _, _⟩ := BoundDocument.bind_eq_ok bind_ok
  have collected := declares.collected
  refine ⟨bound, bind_ok, ?_, ?_, ?_, fun bare _ _ => .of_selected bare⟩
  · intro operation member
    obtain ⟨root, rooted, _⟩ := BoundDocument.inventory_operationResolves collected member
    exact ⟨root, rooted⟩
  · intro on spread selected
    obtain ⟨fragment, found, _⟩ := BoundDocument.inventory_fragmentResolves collected
      (BoundDocument.mem_inventory_of_spread collected selected)
    exact ⟨fragment, found⟩
  · intro on field brace selections selected
    cases BoundDocument.inventory_resolves collected selected with
    | field typed _ =>
        exact ⟨_, typed, Schema.selectedType_eq_ok typed,
          fun walked apart => declares.isLeaf_iff walked apart typed⟩

/-! ### A selection set that escapes

A module is made for a document that selects the name of a union with a selection set, while the
selections on a member of the union are checked. -/

/-- A schema with a union of two objects. -/
def shelterSchema : Schema where
  types := [("String", .scalar), ("Query", .object [("pet", .named "Pet")]),
    ("Pet", .union ["Dog", "Cat"]), ("Dog", .object [("name", .named "String")]),
    ("Cat", .object [("name", .named "String")])]
  roots := { query := some "Query" }

/-- A field as the document selects it. -/
def shelterField (name : String) (column : Nat) : Field := ⟨⟨1, column⟩, none, name, [], []⟩

/-- What the document selects on the union. -/
def shelterSelections : List Selection :=
  [.field (shelterField "__typename" 9) ⟨1, 20⟩
      [.field (shelterField "__typename" 22) ⟨1, 22⟩ []],
    .inline ⟨⟨1, 35⟩, some ⟨⟨1, 39⟩, "Dog", ⟨1, 42⟩⟩, []⟩ ⟨1, 46⟩
      [.field (shelterField "name" 48) ⟨1, 48⟩ []]]

/-- A query about a pet. -/
def shelterOperation : Operation where
  position := ⟨1, 1⟩
  kind := .query
  name := none
  definitions := []
  directives := []
  brace := ⟨1, 1⟩
  selections := [.field (shelterField "pet" 3) ⟨1, 7⟩ shelterSelections]

/-- The document of the query. -/
def shelterDocument : Document := ⟨[shelterOperation], []⟩

/-- What is asked for beside the document. -/
def shelterOptions : GenerationOptions := ⟨"Queries.Shelter", "/graphql", .get, false⟩

/-- The document with its schema. -/
def shelterBound : BoundDocument := ⟨shelterSchema, [shelterOperation], []⟩

/-- All that the document selects on the union is selected there, and walked. -/
theorem shelterBound_walked {selection : Selection} (member : selection ∈ shelterSelections) :
    shelterBound.Selected "Pet" selection ∧ shelterBound.Walked "Pet" selection := by
  have typed : shelterSchema.selectedType "Query" "pet" ⟨1, 3⟩ = .ok (.named "Pet") := rfl
  have selected : shelterBound.Selected "Query"
      (.field (shelterField "pet" 3) ⟨1, 7⟩ shelterSelections) :=
    .operation List.mem_cons_self rfl List.mem_cons_self
  have walked : shelterBound.Walked "Query"
      (.field (shelterField "pet" 3) ⟨1, 7⟩ shelterSelections) :=
    .operation List.mem_cons_self rfl List.mem_cons_self
  have selectedBelow := selected.field typed member
  have walkedBelow := walked.field rfl typed member
  exact ⟨selectedBelow, walkedBelow⟩

/-- A selection set of a leaf is accepted on the union, and a field of a member is a leaf. -/
theorem shelter_selectedFields : ∃ m,
    generate shelterSchema shelterDocument shelterOptions = .ok m ∧
    (∃ field brace selections, shelterBound.Selected "Pet" (.field field brace selections) ∧
      selections ≠ [] ∧ ∃ type,
        shelterSchema.selectedType "Pet" field.name field.position = .ok type ∧
          shelterSchema.IsLeaf type.name) ∧
    ∃ type, shelterSchema.fieldType? "Dog" "name" = some type ∧
      shelterSchema.IsLeaf type.name := by
  have evaluated : (generate shelterSchema shelterDocument shelterOptions).toOption.any
      (fun _ => true) = true := by decide +kernel
  obtain ⟨m, generated, _⟩ := Except.any_toOption.mp evaluated
  obtain ⟨bound, bind_ok, _, _, each, _⟩ := generate_selectedFields generated
  obtain rfl : shelterBound = bound := Except.ok.inj bind_ok
  refine ⟨m, generated, ?_, ?_⟩
  · obtain ⟨selected, _⟩ := shelterBound_walked List.mem_cons_self
    refine ⟨_, _, _, selected, List.cons_ne_nil _ _, _, rfl, ?_⟩
    intro body known
    cases known
    rfl
  · obtain ⟨selected, walked⟩ :=
      shelterBound_walked (List.mem_cons_of_mem _ List.mem_cons_self)
    obtain ⟨type, _, known, leaf⟩ := each "Dog" (shelterField "name" 48) ⟨1, 48⟩ []
      (.inline selected List.mem_cons_self)
    have declared := known.resolve_left (by decide)
    exact ⟨type, declared, (leaf (.inline walked List.mem_cons_self) rfl).mp rfl⟩

end ElmClient
