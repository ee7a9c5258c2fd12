/-
Module: ElmClient.Proofs.Generation.Extensions
Purpose: The fragments that the types of a module extend. A fragment is extended where its spread
  was planned as part of a record, and it is declared by what it is about; the two differ for a
  fragment on a union of which nothing but the name of the type is selected.
Main exports: TypeExpr.IsRecord, BoundDocument.PlansAsRecord, RecordPlan.Spreading,
  RecordPlanned.spreading, RecordPlanned.of_union, generate_extensions
-/
import ElmClient.Proofs.Generation.References

namespace ElmClient

open GraphQL Elm

/-! ### Types that are records -/

namespace Elm

/-- A record, or one in the open aliases of fragments. -/
inductive TypeExpr.IsRecord : TypeExpr → Prop where
  | record (fields row) : IsRecord (.record fields row)
  | extend (fragment) {base} (below : IsRecord base) : IsRecord (.extend fragment base)

/-- Whatever names stand for, such a type has the shape of a record. -/
theorem TypeExpr.IsRecord.shapeIn {type : TypeExpr} (isRecord : type.IsRecord)
    (names : Resolution) : ∃ fields, type.shapeIn names = .record fields := by
  induction isRecord with
  | record fields row => exact ⟨_, rfl⟩
  | extend fragment below ih =>
      obtain ⟨own, same⟩ := ih
      rw [TypeExpr.shapeIn, same]
      unfold Shape.extend
      split
      · exact ⟨_, rfl⟩
      · exact ⟨own, rfl⟩

mutual

/-- Where the fragments are listed that a type extends, each of them has its extension. -/
theorem TypeExpr.exists_extend {fragment : String} : ∀ type : TypeExpr,
    fragment ∈ type.extensions → ∃ base, (TypeExpr.extend fragment base).OccursIn type
  | .scalar _, listed | .enum _, listed | .named _, listed => absurd listed List.not_mem_nil
  | .list item, listed => by
      obtain ⟨base, inside⟩ := TypeExpr.exists_extend item listed
      exact ⟨base, .list inside⟩
  | .optional inner, listed => by
      obtain ⟨base, inside⟩ := TypeExpr.exists_extend inner listed
      exact ⟨base, .optional inside⟩
  | .record fields _, listed => by
      obtain ⟨field, among, base, inside⟩ := TypeExpr.exists_extend_field fields listed
      exact ⟨base, .record among inside⟩
  | .union _ arguments, listed => by
      obtain ⟨argument, among, base, inside⟩ := TypeExpr.exists_extend_field arguments listed
      exact ⟨base, .union among inside⟩
  | .extend first below, listed => by
      rcases List.mem_cons.mp listed with rfl | later
      · exact ⟨below, .here⟩
      · obtain ⟨base, inside⟩ := TypeExpr.exists_extend below later
        exact ⟨base, .extend inside⟩
  | .app _ arguments, listed => by
      obtain ⟨argument, among, base, inside⟩ := TypeExpr.exists_extend_argument arguments listed
      exact ⟨base, .app among inside⟩

/-- The same of named types. -/
theorem TypeExpr.exists_extend_field {fragment : String} : ∀ fields : List (String × TypeExpr),
    fragment ∈ TypeExpr.fieldExtensions fields →
      ∃ field ∈ fields, ∃ base, (TypeExpr.extend fragment base).OccursIn field.2
  | [], listed => absurd listed List.not_mem_nil
  | (name, type) :: rest, listed => by
      rcases List.mem_append.mp listed with here | later
      · exact ⟨(name, type), List.mem_cons_self, TypeExpr.exists_extend type here⟩
      · obtain ⟨field, among, found⟩ := TypeExpr.exists_extend_field rest later
        exact ⟨field, List.mem_cons_of_mem _ among, found⟩

/-- The same of arguments. -/
theorem TypeExpr.exists_extend_argument {fragment : String} : ∀ arguments : List TypeExpr,
    fragment ∈ TypeExpr.argumentExtensions arguments →
      ∃ argument ∈ arguments, ∃ base, (TypeExpr.extend fragment base).OccursIn argument
  | [], listed => absurd listed List.not_mem_nil
  | type :: rest, listed => by
      rcases List.mem_append.mp listed with here | later
      · exact ⟨type, List.mem_cons_self, TypeExpr.exists_extend type here⟩
      · obtain ⟨argument, among, found⟩ := TypeExpr.exists_extend_argument rest later
        exact ⟨argument, List.mem_cons_of_mem _ among, found⟩

end

/-- A fragment of which a property holds is extended by a record. -/
def TypeExpr.ExtendsRecord (known : String → Prop) : TypeExpr → Prop
  | .extend fragment base => known fragment ∧ base.IsRecord
  | _ => True

end Elm

theorem extendBy_isRecord (spreads : List String) {base : TypeExpr} (isRecord : base.IsRecord) :
    (extendBy spreads base).IsRecord := by
  induction spreads generalizing base with
  | nil => exact isRecord
  | cons first rest ih => exact ih (.extend first isRecord)

theorem RecordPlan.type_isRecord (row : Option String) (plan : RecordPlan) :
    (RecordPlan.type row plan).IsRecord := by
  obtain ⟨fields, spreads⟩ := plan
  exact extendBy_isRecord spreads (.record _ row)

/-! ### Fragments in plans -/

/-- A fragment whose selections are planned as part of a record, whatever it is about. -/
def BoundDocument.PlansAsRecord (bound : BoundDocument) (name : String) : Prop :=
  ∃ fragment active given, bound.fragment? name = some fragment ∧
    RecordPlanned bound active fragment.condition.type fragment.selections {} given

mutual

/-- A plan in which a property has every fragment that is spread, however deep. -/
inductive RecordPlan.Spreading (known : String → Prop) : RecordPlan → Prop where
  | mk {plan} (fields : ∀ field ∈ plan.fields, FieldKind.Spreading known field.kind)
      (spreads : ∀ fragment ∈ plan.spreads, known fragment) : RecordPlan.Spreading known plan

/-- The same of what a field holds. -/
inductive FieldKind.Spreading (known : String → Prop) : FieldKind → Prop where
  | leaf (scalar : Scalar) : FieldKind.Spreading known (.leaf scalar)
  | enum (name : String) : FieldKind.Spreading known (.enum name)
  | object {plan} (spreading : RecordPlan.Spreading known plan) :
      FieldKind.Spreading known (.object plan)
  | union {name members variants}
      (spreading : ∀ entry ∈ variants, RecordPlan.Spreading known entry.2) :
      FieldKind.Spreading known (.union ⟨name, members, variants⟩)

end

namespace RecordPlan.Spreading

variable {known : String → Prop} {plan later : RecordPlan}

theorem empty : RecordPlan.Spreading known {} :=
  .mk (fun _ absent => absurd absent List.not_mem_nil) (fun _ absent => absurd absent List.not_mem_nil)

theorem absorb (earlier : RecordPlan.Spreading known plan)
    (added : RecordPlan.Spreading known later) :
    RecordPlan.Spreading known (plan.absorb later) := by
  cases earlier with
  | mk fields spreads =>
      cases added with
      | mk moreFields moreSpreads =>
          refine .mk (fun field member => ?_) (fun fragment member => ?_)
          · rcases RecordPlanOf.mem_absorb member with old | new
            · exact fields field old
            · exact moreFields field new
          · rcases RecordPlanOf.mem_spreads_absorb member with old | new
            · exact spreads fragment old
            · exact moreSpreads fragment new

theorem push (earlier : RecordPlan.Spreading known plan) {field : FieldPlan}
    (kind : FieldKind.Spreading known field.kind) :
    RecordPlan.Spreading known (plan.push field) := by
  rw [RecordPlanOf.push_eq_absorb]
  refine earlier.absorb (.mk (fun held member => ?_) fun _ absent => absurd absent List.not_mem_nil)
  obtain rfl : held = field.withOrigin .own := List.mem_singleton.mp member
  exact kind

theorem pushSpread (earlier : RecordPlan.Spreading known plan) {fragment : String}
    {given : RecordPlan} (holds : known fragment) (spreading : RecordPlan.Spreading known given) :
    RecordPlan.Spreading known (plan.pushSpread fragment given) := by
  rw [RecordPlanOf.pushSpread_eq_absorb]
  cases spreading with
  | mk fields _ =>
      refine earlier.absorb (.mk (fun field member => ?_) fun name member => ?_)
      · obtain ⟨held, there, rfl⟩ := List.mem_map.mp member
        exact fields held there
      · rw [List.mem_singleton.mp member]
        exact holds

end RecordPlan.Spreading

/-- Adding a variant to a draft keeps the property of its fragments. -/
theorem UnionPlanOf.addVariant_spreading {known : String → Prop} {member : String}
    {plan : RecordPlan} {variants : List (String × RecordPlan)}
    (earlier : ∀ entry ∈ variants, RecordPlan.Spreading known entry.2)
    (added : RecordPlan.Spreading known plan) :
    ∀ entry ∈ UnionPlanOf.addVariant member plan variants,
      RecordPlan.Spreading known entry.2 := by
  intro entry present
  rcases UnionPlanOf.mem_addVariant present with old | rfl | ⟨held, old, rfl⟩
  · exact earlier entry old
  · exact added
  · exact (earlier _ old).absorb added

section Derivation

variable {bound : BoundDocument} {known : String → Prop}

/-- A fragment whose selections are planned as part of a record while some fragments are being
expanded, and it is none of them. -/
def BoundDocument.PlansWithin (bound : BoundDocument) (active : List String) (name : String) :
    Prop :=
  ∃ inner fragment given, active ⊆ inner ∧ bound.Enters inner name fragment ∧
    RecordPlanned bound (name :: inner) fragment.condition.type fragment.selections {} given

theorem BoundDocument.PlansWithin.mono {active more : List String} {name : String}
    (within : bound.PlansWithin more name) (less : active ⊆ more) :
    bound.PlansWithin active name := by
  obtain ⟨inner, fragment, given, among, entered, planned⟩ := within
  exact ⟨inner, fragment, given, List.Subset.trans less among, entered, planned⟩

theorem BoundDocument.PlansWithin.plansAsRecord {active : List String} {name : String}
    (within : bound.PlansWithin active name) : bound.PlansAsRecord name := by
  obtain ⟨inner, fragment, given, _, entered, planned⟩ := within
  exact ⟨fragment, _, given, entered.1, planned⟩

/-- What is planned within a fragment and others is planned within the others. -/
theorem BoundDocument.PlansWithin.outside {active : List String} {name other : String}
    (within : bound.PlansWithin (name :: active) other) : bound.PlansWithin active other :=
  within.mono (List.subset_cons_self _ _)

theorem BoundDocument.Enters.plansWithin {active : List String} {name : String}
    {fragment : Fragment} (entered : bound.Enters active name fragment) {given : RecordPlan}
    (planned : RecordPlanned bound (name :: active) fragment.condition.type fragment.selections {}
      given) : bound.PlansWithin active name :=
  ⟨active, fragment, given, List.Subset.refl _, entered, planned⟩

mutual

/-- Every fragment that is spread while selections are planned is planned as part of a record,
within those that are being expanded. -/
theorem RecordPlanned.spreading :
    ∀ {active on selections plan result}, RecordPlanned bound active on selections plan result →
      (∀ name, bound.PlansWithin active name → known name) →
      RecordPlan.Spreading known plan → RecordPlan.Spreading known result
  | _, _, _, _, _, .nil, _, earlier => earlier
  | _, _, _, _, _, .field _ below after, holds, earlier =>
      after.spreading holds (earlier.push (below.spreading holds))
  | _, _, _, _, _, .spread entered _ expanded after, holds, earlier => by
      have given := expanded.spreading (fun _ within => holds _ within.outside) .empty
      have here := holds _ (entered.plansWithin expanded)
      exact after.spreading holds (earlier.pushSpread here given)

/-- The same of what a field holds. -/
theorem KindPlanned.spreading :
    ∀ {active type selections kind}, KindPlanned bound active type selections kind →
      (∀ name, bound.PlansWithin active name → known name) → FieldKind.Spreading known kind
  | _, _, _, _, .leaf _, _ => .leaf _
  | _, _, _, _, .enum _, _ => .enum _
  | _, _, _, _, .object _ _ planned, holds => .object (planned.spreading holds .empty)
  | _, _, _, _, .union _ _ planned _, holds =>
      .union (planned.spreading holds fun _ absent => absurd absent List.not_mem_nil)

/-- The same of the variants of a draft. -/
theorem UnionPlanned.spreading :
    ∀ {active union members selections draft result},
      UnionPlanned bound active union members selections draft result →
      (∀ name, bound.PlansWithin active name → known name) →
      (∀ entry ∈ draft.variants, RecordPlan.Spreading known entry.2) →
      ∀ entry ∈ result.variants, RecordPlan.Spreading known entry.2
  | _, _, _, _, _, _, .nil, _, earlier => earlier
  | _, _, _, _, _, _, .typename _ after, holds, earlier => after.spreading holds earlier
  | _, _, _, _, _, _, .inline _ _ _ planned after, holds, earlier =>
      after.spreading holds
        (UnionPlanOf.addVariant_spreading earlier (planned.spreading holds .empty))
  | _, _, _, _, _, _, .merge _ _ expanded after, holds, earlier => by
      have merged := expanded.spreading (fun _ within => holds _ within.outside) earlier
      exact after.spreading holds merged
  | _, _, _, _, _, _, .member entered _ _ _ expanded after, holds, earlier => by
      have given := expanded.spreading (fun _ within => holds _ within.outside) .empty
      have here := holds _ (entered.plansWithin expanded)
      exact after.spreading holds
        (UnionPlanOf.addVariant_spreading earlier (RecordPlan.Spreading.empty.pushSpread here given))

end

/-- A selection that any type allows: the name of the type, or the use of a fragment. -/
def GraphQL.Selection.SelectsTypename : Selection → Prop
  | .field selected _ _ => selected.name = "__typename"
  | .spread _ => True
  | .inline .. => False

/-- A union has no field but the name of the type. -/
theorem Schema.selectedType_of_union {schema : Schema} {on name : String} {members : List String}
    (united : schema.unionMembers? on = some members) {position : Position} {type : TypeRef}
    (selected : schema.selectedType on name position = .ok type) : name = "__typename" := by
  have fieldless : schema.fieldType? on name = none := by
    unfold Schema.unionMembers? at united
    split at united
    · next body => simp [Schema.fieldType?, body, TypeBody.outputFields?]
    · exact nomatch united
  by_contra other
  simp [Schema.selectedType, other, fieldless] at selected

/-- What is planned as part of a record although it is on a union selects nothing but the name of
the type and fragments. -/
theorem RecordPlanned.of_union {active : List String} {on : String} {members : List String}
    (united : bound.schema.unionMembers? on = some members) :
    ∀ {selections plan result}, RecordPlanned bound active on selections plan result →
      ∀ selection ∈ selections, selection.SelectsTypename
  | _, _, _, .nil => fun _ absent => absurd absent List.not_mem_nil
  | _, _, _, .field selected _ after => by
      have named := Schema.selectedType_of_union united selected
      exact List.forall_mem_cons.mpr ⟨named, after.of_union united⟩
  | _, _, _, .spread _ _ _ after => by
      refine List.forall_mem_cons.mpr ⟨?_, after.of_union united⟩
      trivial

end Derivation

/-! ### Extensions in types -/

section Types

variable {known : String → Prop}

theorem extendBy_extendsRecord {spreads : List String}
    (holds : ∀ fragment ∈ spreads, known fragment) {base : TypeExpr} (isRecord : base.IsRecord)
    (below : base.Each (TypeExpr.ExtendsRecord known)) :
    (extendBy spreads base).Each (TypeExpr.ExtendsRecord known) := by
  induction spreads generalizing base with
  | nil => exact below
  | cons first rest ih =>
      obtain ⟨here, others⟩ := List.forall_mem_cons.mp holds
      exact ih others (.extend first isRecord) (.extend ⟨here, isRecord⟩ below)

mutual

/-- The type of what a field holds extends what is spread below it. -/
theorem FieldKind.Spreading.type : ∀ {kind : FieldKind}, FieldKind.Spreading known kind →
    kind.type.Each (TypeExpr.ExtendsRecord known)
  | _, .leaf scalar => .scalar trivial
  | _, .enum _ => .enum trivial
  | _, .object spreading => RecordPlan.Spreading.type none spreading
  | _, .union spreading => by
      refine .union trivial (unionArguments_each trivial ?_)
      rw [UnionPlan.types_eq]
      intro entry among
      obtain ⟨variant, there, rfl⟩ := List.mem_map.mp among
      exact RecordPlan.Spreading.type none (spreading variant there)

/-- The type of a record extends what is spread into it and below it. -/
theorem RecordPlan.Spreading.type (row : Option String) :
    ∀ {plan : RecordPlan}, RecordPlan.Spreading known plan →
      (RecordPlan.type row plan).Each (TypeExpr.ExtendsRecord known)
  | ⟨fields, spreads⟩, .mk each holds => by
      refine extendBy_extendsRecord holds (.record _ _) (.record trivial ?_)
      rw [FieldPlan.ownTypes_eq]
      intro entry among
      obtain ⟨field, own, rfl⟩ := List.mem_map.mp among
      have there := (List.mem_filter.mp own).1
      exact .wrap (fun _ => trivial) (fun _ => trivial) _
        (FieldKind.Spreading.type (each field there))

end

/-- The type of an input extends nothing. -/
theorem InputForm.extendsRecord {schema : Schema} {cycles : List String} {name : String}
    {type : TypeExpr} {encoder : Encoder} (form : InputForm schema cycles name type encoder) :
    type.Each (TypeExpr.ExtendsRecord known) := by
  intro node inside
  have named := form.names.1 node inside
  cases node with
  | extend => exact named.elim
  | _ => trivial

end Types

/-! ### Extensions in modules -/

namespace BoundDocument

variable {bound : BoundDocument} {options : GenerationOptions} {m : Module}
  {inventory : Inventory} {plans : List (String × SelectionPlan)}
  {clients : List OperationClient} {shared : SharedInputs}

theorem fragmentPlan_extendsRecord {name : String} {position : Position} {plan : SelectionPlan}
    (succeeded : bound.fragmentPlan name position = .ok plan) (row : Option String) :
    (plan.type row).Each (TypeExpr.ExtendsRecord bound.PlansAsRecord) := by
  obtain ⟨fragment, found, _, planned⟩ := fragmentPlanned succeeded
  have asRecord : ∀ other, bound.PlansWithin [name] other → bound.PlansAsRecord other :=
    fun _ within => within.plansAsRecord
  cases plan with
  | record record => exact (planned.spreading asRecord .empty).type row
  | union union =>
      obtain ⟨members, draft, _, drafted, rfl⟩ := planned
      have spreading := drafted.spreading asRecord fun _ absent => absurd absent List.not_mem_nil
      exact (FieldKind.Spreading.union spreading).type

/-- Every fragment that a type of a module extends was planned as part of a record. -/
theorem Assembles.types_extendsRecord
    (assembles : bound.Assembles options m inventory plans clients shared) :
    ∀ type ∈ m.types, type.Each (TypeExpr.ExtendsRecord bound.PlansAsRecord) := by
  refine assembles.types_each (fun _ => trivial) (fun _ => trivial) (fun _ _ => trivial)
    (fun _ _ => trivial) ?_ ?_ ?_ ?_
  · intro fragment member
    obtain ⟨name, _, _, plan, planned, rfl⟩ := assembles.declares.mem_of_fragment member
    have each := fragmentPlan_extendsRecord planned (some DeclarationGroup.rowVariable)
    cases plan <;> exact each
  · intro operation _ client made
    obtain ⟨plan, planned, result, _⟩ := made.planned
    obtain ⟨root, _, derived⟩ := operationPlanned planned
    rw [result]
    exact (derived.spreading (fun _ within => within.plansAsRecord) .empty).type none
  · intro operation _ client slots takes slot member
    exact .wrap (fun _ => trivial) (fun _ => trivial) _ (takes.forms slot member).extendsRecord
  · exact fun input cyclic => (assembles.recursive cyclic).form.extendsRecord

/-- A fragment is planned by what it is about: as a union if that is one, and else as a record,
which is declared open. -/
theorem declaredFragmentPlan_eq_ok {name : String} {entry : String × SelectionPlan}
    (succeeded : bound.declaredFragmentPlan name = .ok entry) :
    ∃ fragment, bound.fragment? name = some fragment ∧ entry.1 = name ∧
      ((entry.2.declaration name).isOpen = true ↔
        bound.schema.unionMembers? fragment.condition.type = none) ∧
        ((entry.2.declaration name).isOpen = true → (entry.2.declaration name).type.IsRecord) := by
  obtain ⟨_, plan, planned, rfl⟩ := exists_fragmentPlan succeeded
  obtain ⟨fragment, found, _, selected⟩ := fragmentPlan_eq_ok planned
  refine ⟨fragment, found, rfl, ?_⟩
  rcases planSelections_eq_ok selected with
    ⟨record, apart, _, rfl⟩ | ⟨members, draft, united, _, _, rfl⟩
  · exact ⟨by simp [SelectionPlan.declaration, apart], fun _ => RecordPlan.type_isRecord _ _⟩
  · exact ⟨by simp [SelectionPlan.declaration, united], fun closed => nomatch closed⟩

/-- A fragment of the inventory is declared as it is planned by itself: open, unless it is about a
union. -/
theorem Assembles.fragment_isOpen
    (assembles : bound.Assembles options m inventory plans clients shared) {name : String}
    (known : name ∈ inventory.fragments) {fragment : Fragment}
    (found : bound.fragment? name = some fragment) :
    ∃ declared ∈ m.fragments, declared.name = Text.capitalize name ∧
      (declared.isOpen = true ↔ bound.schema.unionMembers? fragment.condition.type = none) ∧
      (declared.isOpen = true → declared.type.IsRecord) := by
  obtain ⟨⟨_, plan⟩, there, succeeded⟩ := Forall₂.exists_right assembles.declares.planned known
  obtain ⟨fragment', found', rfl, openly, record⟩ := declaredFragmentPlan_eq_ok succeeded
  obtain rfl := Option.some.inj (found.symm.trans found')
  refine ⟨_, ?_, plan.declaration_name _, openly, record⟩
  rw [assembles.declares.fragments]
  exact List.mem_map.mpr ⟨_, there, rfl⟩

end BoundDocument

/-- An extension adds the fields of the record that is found under the name of its fragment. -/
theorem Elm.Module.shapeIn_extend {m : Module} {fragment : String} {base : TypeExpr}
    (isRecord : base.IsRecord) {declared : FragmentDeclaration}
    (found : m.fragment (Text.capitalize fragment) = some declared)
    (opened : declared.type.IsRecord) (depth : Nat) :
    ∃ fields own, declared.type.shapeIn (m.resolution depth) = .record fields ∧
      base.shapeIn (m.resolution (depth + 1)) = .record own ∧
        (TypeExpr.extend fragment base).shapeIn (m.resolution (depth + 1)) =
          .record (Dictionary.extendSorted fields own) := by
  obtain ⟨fields, given⟩ := opened.shapeIn (m.resolution depth)
  obtain ⟨own, below⟩ := isRecord.shapeIn (m.resolution (depth + 1))
  refine ⟨fields, own, given, below, ?_⟩
  rw [TypeExpr.shapeIn, below]
  simp only [Module.resolution, found, Option.map_some, given, Shape.extend]

/-- Every fragment that a type of a module extends is declared in it, open unless it is about a
union. One that is about a union is extended although it is not open: where it selects nothing but
the name of the type and other fragments, it is spread into objects too. The open ones add their
fields, if no two fragments share an Elm name. -/
theorem generate_extensions {schema : Schema} {document : Document} {options : GenerationOptions}
    {m : Module} (generated : generate schema document options = .ok m) {type : TypeExpr}
    (among : type ∈ m.types) {fragment : String} {base : TypeExpr}
    (inside : (TypeExpr.extend fragment base).OccursIn type) :
    ∃ definition ∈ document.fragments, definition.name = fragment ∧
      ∃ declared ∈ m.fragments, declared.name = Text.capitalize fragment ∧
        (declared.isOpen = true ↔ schema.unionMembers? definition.condition.type = none) ∧
        (declared.isOpen = false →
          ∀ selection ∈ definition.selections, selection.SelectsTypename) ∧
        (declared.isOpen = true → (m.fragments.map (·.name)).Nodup → ∀ depth, ∃ fields own,
          declared.type.shapeIn (m.resolution depth) = .record fields ∧
            base.shapeIn (m.resolution (depth + 1)) = .record own ∧
              (TypeExpr.extend fragment base).shapeIn (m.resolution (depth + 1)) =
                .record (Dictionary.extendSorted fields own)) := by
  obtain ⟨bound, inventory, plans, clients, shared, bind_ok, assembles⟩ :=
    generate_assembles generated
  obtain ⟨rfl, _, sorted⟩ := BoundDocument.bind_eq_ok bind_ok
  have known : fragment ∈ inventory.fragments := assembles.types_known type among _ inside
  obtain ⟨⟨definition, active, plan, found, planned⟩, isRecord⟩ :=
    assembles.types_extendsRecord type among _ inside
  obtain ⟨declared, member, named, openly, record⟩ := assembles.fragment_isOpen known found
  have listed : definition ∈ document.fragments := by
    rw [← (BoundDocument.sortByPosition_perm Fragment.position document.fragments).mem_iff,
      ← sorted]
    exact BoundDocument.mem_of_fragment? found
  have title : definition.name = fragment := BoundDocument.name_of_fragment? found
  refine ⟨definition, listed, title, declared, member, named, openly, ?_, ?_⟩
  · intro closed
    cases united : bound.schema.unionMembers? definition.condition.type with
    | none => exact absurd (openly.mpr united) (by simp [closed])
    | some members => exact planned.of_union united
  · intro opened distinct depth
    have found := Module.fragment_of_mem distinct member
    rw [named] at found
    exact Module.shapeIn_extend isRecord found (record opened) depth

/-! ### A fragment on a union in an object -/

/-- A schema with a union and an object that is a member of it. -/
def kennelSchema : Schema where
  types := [("String", .scalar), ("Query", .object [("pet", .named "Dog")]),
    ("Pet", .union ["Dog", "Cat"]), ("Dog", .object [("name", .named "String")]),
    ("Cat", .object [("name", .named "String")])]
  roots := { query := some "Query" }

/-- A document that spreads a fragment on the union and one on the object into the object. -/
def kennelText : String :=
  "query Q \x7b pet \x7b ...Tag ...Named \x7d \x7d fragment Tag on Pet \x7b __typename \x7d " ++
    "fragment Named on Dog \x7b name \x7d"

theorem exists_kennelModule : ∃ document m, generate kennelSchema document zooOptions = .ok m ∧
    (m.fragments.map (·.name)).Nodup ∧
      (∀ declared ∈ m.fragments, declared.isOpen = (declared.name != "Tag")) ∧
        ∀ fragment ∈ ["Tag", "Named"], ∃ type ∈ m.types, fragment ∈ type.extensions := by
  have evaluated : (Document.parse kennelText).toOption.any (fun document =>
      (generate kennelSchema document zooOptions).toOption.any fun m =>
        decide ((m.fragments.map (·.name)).Nodup) &&
          (m.fragments.all (fun declared => declared.isOpen == (declared.name != "Tag")) &&
            ["Tag", "Named"].all fun fragment =>
              m.types.any (·.extensions.contains fragment))) = true := by decide +kernel
  obtain ⟨document, _, evaluated⟩ := Except.any_toOption.mp evaluated
  obtain ⟨m, generated, evaluated⟩ := Except.any_toOption.mp evaluated
  simp only [Bool.and_eq_true, decide_eq_true_eq, List.all_eq_true, List.any_eq_true, beq_iff_eq,
    List.contains_iff_mem] at evaluated
  exact ⟨document, m, generated, evaluated⟩

/-- Of two extensions in one object, one is of a fragment that is declared closed. -/
theorem kennel_extensions : ∃ document m, generate kennelSchema document zooOptions = .ok m ∧
    (∃ declared ∈ m.fragments, declared.name = "Tag" ∧ declared.isOpen = false ∧
      ∃ definition ∈ document.fragments, definition.name = "Tag" ∧
        ∀ selection ∈ definition.selections, selection.SelectsTypename) ∧
    ∃ declared ∈ m.fragments, declared.name = "Named" ∧ declared.isOpen = true ∧
      ∃ base, ∀ depth, ∃ fields own,
        declared.type.shapeIn (m.resolution depth) = .record fields ∧
          base.shapeIn (m.resolution (depth + 1)) = .record own ∧
            (TypeExpr.extend "Named" base).shapeIn (m.resolution (depth + 1)) =
              .record (Dictionary.extendSorted fields own) := by
  obtain ⟨document, m, generated, distinct, openly, extended⟩ := exists_kennelModule
  refine ⟨document, m, generated, ?_, ?_⟩
  · obtain ⟨type, among, listed⟩ := extended "Tag" (by decide)
    obtain ⟨base, inside⟩ := TypeExpr.exists_extend type listed
    obtain ⟨definition, written, title, declared, member, named, _, closed, _⟩ :=
      generate_extensions generated among inside
    have isClosed : declared.isOpen = false := by
      rw [openly declared member, named]
      decide
    exact ⟨declared, member, named, isClosed, definition, written, title, closed isClosed⟩
  · obtain ⟨type, among, listed⟩ := extended "Named" (by decide)
    obtain ⟨base, inside⟩ := TypeExpr.exists_extend type listed
    obtain ⟨definition, written, title, declared, member, named, _, _, adds⟩ :=
      generate_extensions generated among inside
    have isOpen : declared.isOpen = true := by
      rw [openly declared member, named]
      decide
    exact ⟨declared, member, named, isOpen, base, adds isOpen distinct⟩

end ElmClient
