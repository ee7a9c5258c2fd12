/-
Module: ElmClient.Proofs.Plan.Derivation
Purpose: Planning as a relation in which fragments are followed without any bound. What the plan
  functions give has a derivation, and a derivation determines its plan whatever fragments are
  being expanded around it, so every later fact about plans is an induction on derivations.
Main exports: TypeForm, Schema.form, RecordPlanned, KindPlanned, UnionPlanned,
  RecordPlanned.deterministic, BoundDocument.operationPlanned, BoundDocument.fragmentPlanned
-/
import ElmClient.Plan.Selection
import ElmClient.Proofs.Outcome

namespace ElmClient

open GraphQL

/-- What a name of a schema means where a field of that type is selected. -/
inductive TypeForm where
  | leaf
  | enum (values : List String)
  | object
  | union (members : List String)
deriving DecidableEq, Repr, Inhabited

/-- The form of a type. A name that the schema does not know is that of a scalar. -/
def Schema.form (schema : Schema) (name : String) : TypeForm :=
  match schema.get? name with
  | none | some .scalar => .leaf
  | some (.enum values) => .enum values
  | some (.union members) => .union members
  | some _ => .object

/-- Whether a fragment can be about a type. -/
def Schema.IsComposite (schema : Schema) (name : String) : Prop :=
  ∃ body, schema.get? name = some body ∧ body.isComposite = true

/-- The layers around a selected field of a type. -/
def GraphQL.Field.layers (field : Field) (type : TypeRef) : List Layer :=
  if field.isConditional then Layer.makeOptional type.layers else type.layers

/-- The plan of a selected field, given what it holds. -/
def GraphQL.Field.planned (field : Field) (type : TypeRef) (kind : FieldKind) : FieldPlan :=
  ⟨Name.safe field.responseKey, field.responseKey, field.layers type, .own, kind⟩

/-- A fragment of the document that is not being expanded yet. -/
def BoundDocument.Enters (bound : BoundDocument) (active : List String) (name : String)
    (fragment : Fragment) : Prop :=
  bound.fragment? name = some fragment ∧ name ∉ active

theorem BoundDocument.name_of_fragment? {bound : BoundDocument} {name : String}
    {fragment : Fragment} (found : bound.fragment? name = some fragment) :
    fragment.name = name := by
  have holds := List.find?_some (show bound.fragments.find? _ = _ from found)
  exact eq_of_beq holds

theorem BoundDocument.mem_of_fragment? {bound : BoundDocument} {name : String}
    {fragment : Fragment} (found : bound.fragment? name = some fragment) :
    fragment ∈ bound.fragments :=
  List.mem_of_find?_eq_some found

mutual

/-- Adding selections on a type with fields to a plan, while some fragments are being expanded. -/
inductive RecordPlanned (bound : BoundDocument) :
    List String → String → List Selection → RecordPlan → RecordPlan → Prop where
  | nil {active on plan} : RecordPlanned bound active on [] plan plan
  | field {active on field brace selections rest plan type kind result}
      (selected : bound.schema.selectedType on field.name field.position = .ok type)
      (below : KindPlanned bound active type.name selections kind)
      (after : RecordPlanned bound active on rest (plan.push (field.planned type kind)) result) :
      RecordPlanned bound active on (.field field brace selections :: rest) plan result
  | spread {active on spread rest plan fragment given result}
      (entered : bound.Enters active spread.fragment fragment)
      (composite : bound.schema.IsComposite fragment.condition.type)
      (expanded : RecordPlanned bound (spread.fragment :: active) fragment.condition.type
        fragment.selections {} given)
      (after : RecordPlanned bound active on rest (plan.pushSpread spread.fragment given)
        result) :
      RecordPlanned bound active on (.spread spread :: rest) plan result

/-- What a field of a type holds with the selections below it. -/
inductive KindPlanned (bound : BoundDocument) :
    List String → String → List Selection → FieldKind → Prop where
  | leaf {active type} (form : bound.schema.form type = .leaf) :
      KindPlanned bound active type [] (.leaf (Elm.Scalar.ofName type))
  | enum {active type values} (form : bound.schema.form type = .enum values) :
      KindPlanned bound active type [] (.enum type)
  | object {active type selections plan} (form : bound.schema.form type = .object)
      (nonempty : selections ≠ [])
      (planned : RecordPlanned bound active type selections {} plan) :
      KindPlanned bound active type selections (.object plan)
  | union {active type selections members draft}
      (form : bound.schema.form type = .union members) (nonempty : selections ≠ [])
      (planned : UnionPlanned bound active type members selections {} draft)
      (typename : draft.hasTypename = true) :
      KindPlanned bound active type selections (.union ⟨type, members, draft.variants⟩)

/-- Adding selections on a union to a draft, while some fragments are being expanded. -/
inductive UnionPlanned (bound : BoundDocument) :
    List String → String → List String → List Selection → UnionDraft → UnionDraft → Prop where
  | nil {active union members draft} : UnionPlanned bound active union members [] draft draft
  | typename {active union members field brace selections rest draft result}
      (named : field.name = "__typename")
      (after : UnionPlanned bound active union members rest { draft with hasTypename := true }
        result) :
      UnionPlanned bound active union members (.field field brace selections :: rest) draft
        result
  | inline {active union members inline brace selections rest draft condition variant result}
      (conditioned : inline.condition = some condition) (member : condition.type ∈ members)
      (composite : bound.schema.IsComposite condition.type)
      (planned : RecordPlanned bound active condition.type selections {} variant)
      (after : UnionPlanned bound active union members rest
        { draft with
          variants := UnionPlanOf.addVariant condition.type variant draft.variants } result) :
      UnionPlanned bound active union members (.inline inline brace selections :: rest) draft
        result
  | merge {active union members spread rest draft fragment merged result}
      (entered : bound.Enters active spread.fragment fragment)
      (same : fragment.condition.type = union)
      (expanded : UnionPlanned bound (spread.fragment :: active) union members
        fragment.selections draft merged)
      (after : UnionPlanned bound active union members rest merged result) :
      UnionPlanned bound active union members (.spread spread :: rest) draft result
  | member {active union members spread rest draft fragment given result}
      (entered : bound.Enters active spread.fragment fragment)
      (other : fragment.condition.type ≠ union) (member : fragment.condition.type ∈ members)
      (composite : bound.schema.IsComposite fragment.condition.type)
      (expanded : RecordPlanned bound (spread.fragment :: active) fragment.condition.type
        fragment.selections {} given)
      (after : UnionPlanned bound active union members rest
        { draft with
          variants := UnionPlanOf.addVariant fragment.condition.type
            (RecordPlanOf.pushSpread {} spread.fragment given) draft.variants } result) :
      UnionPlanned bound active union members (.spread spread :: rest) draft result

end

/-! ### A derivation determines its plan

The fragments that are being expanded only say which spreads are refused, so derivations around
which different ones are active agree. -/

theorem BoundDocument.Enters.unique {bound : BoundDocument} {active other : List String}
    {name : String} {first second : Fragment} (one : bound.Enters active name first)
    (two : bound.Enters other name second) : first = second := by
  have same := one.1.symm.trans two.1
  exact Option.some.inj same

mutual

/-- Selections on a type with fields have one plan. -/
theorem RecordPlanned.deterministic {bound : BoundDocument} :
    ∀ {active on selections plan first}, RecordPlanned bound active on selections plan first →
      ∀ {other second}, RecordPlanned bound other on selections plan second → first = second
  | _, _, _, _, _, .nil, _, _, two => by
      cases two
      rfl
  | _, _, _, _, _, .field selected below after, _, _, two => by
      cases two with
      | field selected' below' after' =>
          have types := Except.ok.inj (selected.symm.trans selected')
          subst types
          have kinds := below.deterministic below'
          subst kinds
          exact after.deterministic after'
  | _, _, _, _, _, .spread entered _ expanded after, _, _, two => by
      cases two with
      | spread entered' _ expanded' after' =>
          have fragments := entered.unique entered'
          subst fragments
          have plans := expanded.deterministic expanded'
          subst plans
          exact after.deterministic after'

/-- A field holds one thing. -/
theorem KindPlanned.deterministic {bound : BoundDocument} :
    ∀ {active type selections first}, KindPlanned bound active type selections first →
      ∀ {other second}, KindPlanned bound other type selections second → first = second
  | _, _, _, _, .leaf form, _, _, two => by
      cases two with
      | leaf => rfl
      | enum form' => exact nomatch form.symm.trans form'
      | object _ nonempty => exact absurd rfl nonempty
      | union _ nonempty => exact absurd rfl nonempty
  | _, _, _, _, .enum form, _, _, two => by
      cases two with
      | leaf form' => exact nomatch form.symm.trans form'
      | enum => rfl
      | object _ nonempty => exact absurd rfl nonempty
      | union _ nonempty => exact absurd rfl nonempty
  | _, _, _, _, .object form nonempty planned, _, _, two => by
      cases two with
      | leaf => exact absurd rfl nonempty
      | enum => exact absurd rfl nonempty
      | object _ _ planned' => rw [planned.deterministic planned']
      | union form' => exact nomatch form.symm.trans form'
  | _, _, _, _, .union form nonempty planned _, _, _, two => by
      cases two with
      | leaf => exact absurd rfl nonempty
      | enum => exact absurd rfl nonempty
      | object form' => exact nomatch form.symm.trans form'
      | union form' _ planned' _ =>
          have members := TypeForm.union.inj (form.symm.trans form')
          subst members
          rw [planned.deterministic planned']

/-- Selections on a union have one draft. -/
theorem UnionPlanned.deterministic {bound : BoundDocument} :
    ∀ {active union members selections draft first},
      UnionPlanned bound active union members selections draft first →
      ∀ {other second}, UnionPlanned bound other union members selections draft second →
        first = second
  | _, _, _, _, _, _, .nil, _, _, two => by
      cases two
      rfl
  | _, _, _, _, _, _, .typename _ after, _, _, two => by
      cases two with
      | typename _ after' => exact after.deterministic after'
  | _, _, _, _, _, _, .inline conditioned _ _ planned after, _, _, two => by
      cases two with
      | inline conditioned' _ _ planned' after' =>
          have conditions := Option.some.inj (conditioned.symm.trans conditioned')
          subst conditions
          have variants := planned.deterministic planned'
          subst variants
          exact after.deterministic after'
  | _, _, _, _, _, _, .merge entered same expanded after, _, _, two => by
      cases two with
      | merge entered' _ expanded' after' =>
          have fragments := entered.unique entered'
          subst fragments
          have drafts := expanded.deterministic expanded'
          subst drafts
          exact after.deterministic after'
      | member entered' other' =>
          have fragments := entered.unique entered'
          subst fragments
          exact absurd same other'
  | _, _, _, _, _, _, .member entered other _ _ expanded after, _, _, two => by
      cases two with
      | merge entered' same' =>
          have fragments := entered.unique entered'
          subst fragments
          exact absurd same' other
      | member entered' _ _ _ expanded' after' =>
          have fragments := entered.unique entered'
          subst fragments
          have plans := expanded.deterministic expanded'
          subst plans
          exact after.deterministic after'

end

/-! ### What the plan functions give has a derivation -/

theorem Schema.conditionType_eq_ok {schema : Schema} {name on : String} {position : Position} :
    schema.conditionType name position = .ok on ↔ schema.IsComposite name ∧ name = on := by
  unfold Schema.conditionType Schema.IsComposite
  cases body : schema.get? name with
  | none => simp
  | some found => cases composite : found.isComposite <;> simp [composite]

theorem requireMember_eq_ok {union member : String} {members : List String}
    {position : Position} {done : Unit} :
    requireMember union members member position = .ok done ↔ member ∈ members := by
  by_cases there : member ∈ members <;> simp [requireMember, there]

theorem BoundDocument.fragment_eq_ok {bound : BoundDocument} {name : String}
    {position : Position} {fragment : Fragment} :
    bound.fragment name position = .ok fragment ↔ bound.fragment? name = some fragment := by
  cases found : bound.fragment? name <;> simp [BoundDocument.fragment, found]

theorem BoundDocument.enterSpread_eq_ok {active entered : List String} {name : String}
    {position : Position} :
    enterSpread active name position = .ok entered ↔ name ∉ active ∧ entered = name :: active := by
  by_cases there : name ∈ active <;> simp [enterSpread, there, eq_comm]

theorem UnionDraft.finish_eq_ok {union : String} {members : List String} {brace : Position}
    {draft : UnionDraft} {plan : UnionPlan} :
    draft.finish union members brace = .ok plan ↔
      draft.hasTypename = true ∧ plan = ⟨union, members, draft.variants⟩ := by
  cases typename : draft.hasTypename <;> simp [UnionDraft.finish, typename, eq_comm]

/-- A name has the form of a union just if it is that of a union. -/
theorem Schema.form_eq_union {schema : Schema} {name : String} {members : List String} :
    schema.form name = .union members ↔ schema.unionMembers? name = some members := by
  unfold form unionMembers?
  cases schema.get? name with
  | none => simp
  | some body => cases body <;> simp

/-- What a type is decides how selections on it are planned: a union has its members and needs the
name of the type, and anything else is planned as a record. -/
theorem planSelections_eq_ok {schema : Schema} {expand : Expansion} {on : String} {brace : Position}
    {selections : List Selection} {plan : SelectionPlan}
    (succeeded : planSelections schema expand on brace selections = .ok plan) :
    (∃ record, schema.unionMembers? on = none ∧
      planRecord schema expand on selections {} = .ok record ∧ plan = .record record) ∨
    ∃ members draft, schema.unionMembers? on = some members ∧
      planUnion schema expand on members selections {} = .ok draft ∧ draft.hasTypename = true ∧
        plan = .union ⟨on, members, draft.variants⟩ := by
  unfold planSelections at succeeded
  cases united : schema.unionMembers? on with
  | none =>
      simp only [united] at succeeded
      obtain ⟨record, recorded, same⟩ := Except.map_eq_ok.mp succeeded
      exact Or.inl ⟨record, rfl, recorded, same.symm⟩
  | some members =>
      simp only [united] at succeeded
      obtain ⟨draft, drafted, finishing⟩ := Except.bind_eq_ok.mp succeeded
      obtain ⟨union, finished, same⟩ := Except.map_eq_ok.mp finishing
      obtain ⟨typename, rfl⟩ := UnionDraft.finish_eq_ok.mp finished
      exact Or.inr ⟨members, draft, rfl, drafted, typename, same.symm⟩

/-- What a selected field holds follows from the form of its type. -/
theorem planField_eq_ok {schema : Schema} {on : String} {field : Field} {hasSelections : Bool}
    {asRecord : String → Except GenerationError RecordPlan}
    {asUnion : String → List String → Except GenerationError UnionPlan} {planned : FieldPlan}
    (succeeded : planField schema on field hasSelections asRecord asUnion = .ok planned) :
    ∃ type kind, schema.selectedType on field.name field.position = .ok type ∧
      planned = field.planned type kind ∧
      ((schema.form type.name = .leaf ∧ hasSelections = false ∧
          kind = .leaf (Elm.Scalar.ofName type.name)) ∨
        (∃ values, schema.form type.name = .enum values ∧ hasSelections = false ∧
          kind = .enum type.name) ∨
        (∃ plan, schema.form type.name = .object ∧ hasSelections = true ∧
          asRecord type.name = .ok plan ∧ kind = .object plan) ∨
        ∃ members plan, schema.form type.name = .union members ∧ hasSelections = true ∧
          asUnion type.name members = .ok plan ∧ kind = .union plan) := by
  obtain ⟨type, selected, after⟩ := Except.bind_eq_ok.mp succeeded
  refine ⟨type, ?_⟩
  unfold Schema.form
  cases body : schema.get? type.name with
  | none =>
      simp only [body] at after
      obtain ⟨held, holding, same⟩ := Except.bind_eq_ok.mp after
      obtain ⟨bare, made⟩ := Except.error_ite_eq_ok.mp holding
      obtain rfl := Except.ok.inj made
      exact ⟨_, selected, (Except.pure_eq_ok.mp same).symm, Or.inl ⟨rfl, bare, rfl⟩⟩
  | some found =>
      cases found with
      | scalar =>
          simp only [body] at after
          obtain ⟨held, holding, same⟩ := Except.bind_eq_ok.mp after
          obtain ⟨bare, made⟩ := Except.error_ite_eq_ok.mp holding
          obtain rfl := Except.ok.inj made
          exact ⟨_, selected, (Except.pure_eq_ok.mp same).symm, Or.inl ⟨rfl, bare, rfl⟩⟩
      | enum values =>
          simp only [body] at after
          obtain ⟨held, holding, same⟩ := Except.bind_eq_ok.mp after
          obtain ⟨bare, made⟩ := Except.error_ite_eq_ok.mp holding
          obtain rfl := Except.ok.inj made
          exact ⟨_, selected, (Except.pure_eq_ok.mp same).symm,
            Or.inr (Or.inl ⟨values, rfl, bare, rfl⟩)⟩
      | object | interface | inputObject =>
          simp only [body] at after
          obtain ⟨held, holding, same⟩ := Except.bind_eq_ok.mp after
          obtain ⟨filled, recorded⟩ := Except.ite_error_eq_ok.mp holding
          obtain ⟨plan, planned, rfl⟩ := Except.map_eq_ok.mp recorded
          exact ⟨_, selected, (Except.pure_eq_ok.mp same).symm,
            Or.inr (Or.inr (Or.inl ⟨plan, rfl, filled, planned, rfl⟩))⟩
      | union members =>
          simp only [body] at after
          obtain ⟨held, holding, same⟩ := Except.bind_eq_ok.mp after
          obtain ⟨filled, united⟩ := Except.ite_error_eq_ok.mp holding
          obtain ⟨plan, planned, rfl⟩ := Except.map_eq_ok.mp united
          exact ⟨_, selected, (Except.pure_eq_ok.mp same).symm,
            Or.inr (Or.inr (Or.inr ⟨members, plan, rfl, filled, planned, rfl⟩))⟩

/-- Every fragment that an expansion plans has a derivation, in front of whatever follows it. -/
structure Expansion.Sound (bound : BoundDocument) (active : List String) (expand : Expansion) :
    Prop where
  record {on : String} {spread : Spread} {given plan result : RecordPlan} {rest : List Selection} :
    expand.record spread = .ok given →
      RecordPlanned bound active on rest (plan.pushSpread spread.fragment given) result →
        RecordPlanned bound active on (.spread spread :: rest) plan result
  union {union : String} {members : List String} {spread : Spread}
      {draft next result : UnionDraft} {rest : List Selection} :
    expand.union union members spread draft = .ok next →
      UnionPlanned bound active union members rest next result →
        UnionPlanned bound active union members (.spread spread :: rest) draft result

section Derive

variable {bound : BoundDocument} {active : List String} {expand : Expansion}

mutual

/-- One selection that is added to a plan has a derivation in front of what follows it. -/
theorem planRecordItem_planned (sound : expand.Sound bound active) :
    ∀ {selection : Selection} {on plan next rest result},
      planRecordItem bound.schema expand on selection plan = .ok next →
      RecordPlanned bound active on rest next result →
      RecordPlanned bound active on (selection :: rest) plan result
  | .field field brace selections, on, plan, next, rest, result, succeeded, after => by
      obtain ⟨planned, fieldPlanned, same⟩ := Except.bind_eq_ok.mp succeeded
      obtain ⟨type, kind, selected, rfl, forms⟩ := planField_eq_ok fieldPlanned
      rw [← Except.pure_eq_ok.mp same] at after
      refine .field selected ?_ after
      rcases forms with ⟨form, bare, rfl⟩ | ⟨values, form, bare, rfl⟩ |
        ⟨below, form, filled, recorded, rfl⟩ | ⟨members, below, form, filled, united, rfl⟩
      · obtain rfl : selections = [] := by simpa using bare
        exact .leaf form
      · obtain rfl : selections = [] := by simpa using bare
        exact .enum form
      · exact .object form (by simpa using filled) (planRecord_planned sound recorded)
      · obtain ⟨draft, drafted, finished⟩ := Except.bind_eq_ok.mp united
        obtain ⟨typename, rfl⟩ := UnionDraft.finish_eq_ok.mp finished
        exact .union form (by simpa using filled) (planUnion_planned sound drafted) typename
  | .spread spread, on, plan, next, rest, result, succeeded, after => by
      obtain ⟨given, expanded, same⟩ := Except.bind_eq_ok.mp succeeded
      rw [← Except.pure_eq_ok.mp same] at after
      exact sound.record expanded after
  | .inline inline brace selections, on, plan, next, rest, result, succeeded, after => by
      simp [planRecordItem] at succeeded

/-- A selection set that is added to a plan has a derivation. -/
theorem planRecord_planned (sound : expand.Sound bound active) :
    ∀ {selections : List Selection} {on plan result},
      planRecord bound.schema expand on selections plan = .ok result →
      RecordPlanned bound active on selections plan result
  | [], on, plan, result, succeeded => by
      rw [← Except.ok.inj succeeded]
      exact .nil
  | selection :: rest, on, plan, result, succeeded => by
      obtain ⟨next, first, later⟩ := Except.bind_eq_ok.mp succeeded
      exact planRecordItem_planned sound first (planRecord_planned sound later)

/-- One selection that is added to a draft has a derivation in front of what follows it. -/
theorem planUnionItem_planned (sound : expand.Sound bound active) :
    ∀ {selection : Selection} {union members draft next rest result},
      planUnionItem bound.schema expand union members selection draft = .ok next →
      UnionPlanned bound active union members rest next result →
      UnionPlanned bound active union members (selection :: rest) draft result
  | .field field brace selections, union, members, draft, next, rest, result, succeeded, after => by
      by_cases named : field.name = "__typename"
      · simp only [planUnionItem, named, beq_self_eq_true, if_true] at succeeded
        rw [← Except.ok.inj succeeded] at after
        exact .typename named after
      · simp [planUnionItem, named] at succeeded
  | .spread spread, union, members, draft, next, rest, result, succeeded, after =>
      sound.union succeeded after
  | .inline inline brace selections, union, members, draft, next, rest, result, succeeded,
      after => by
      cases conditioned : inline.condition with
      | none => simp [planUnionItem, conditioned] at succeeded
      | some condition =>
          simp only [planUnionItem, conditioned] at succeeded
          obtain ⟨done, member, checked⟩ := Except.bind_eq_ok.mp succeeded
          obtain ⟨on, about, typed⟩ := Except.bind_eq_ok.mp checked
          obtain ⟨variant, planned, same⟩ := Except.bind_eq_ok.mp typed
          obtain ⟨composite, rfl⟩ := Schema.conditionType_eq_ok.mp about
          rw [← Except.pure_eq_ok.mp same] at after
          exact .inline conditioned (requireMember_eq_ok.mp member) composite
            (planRecord_planned sound planned) after

/-- A selection set that is added to a draft has a derivation. -/
theorem planUnion_planned (sound : expand.Sound bound active) :
    ∀ {selections : List Selection} {union members draft result},
      planUnion bound.schema expand union members selections draft = .ok result →
      UnionPlanned bound active union members selections draft result
  | [], union, members, draft, result, succeeded => by
      rw [← Except.ok.inj succeeded]
      exact .nil
  | selection :: rest, union, members, draft, result, succeeded => by
      obtain ⟨next, first, later⟩ := Except.bind_eq_ok.mp succeeded
      exact planUnionItem_planned sound first (planUnion_planned sound later)

end

end Derive

namespace BoundDocument

/-- A fragment that is planned where it is spread has a derivation of its own. -/
theorem planSpread_planned {bound : BoundDocument} {active : List String}
    {expansion : List String → Expansion} (sound : ∀ active, (expansion active).Sound bound active)
    {spread : Spread} {given : RecordPlan}
    (succeeded : bound.planSpread active expansion spread = .ok given) :
    ∃ fragment, bound.Enters active spread.fragment fragment ∧
      bound.schema.IsComposite fragment.condition.type ∧
      RecordPlanned bound (spread.fragment :: active) fragment.condition.type
        fragment.selections {} given := by
  obtain ⟨fragment, found, entering⟩ := Except.bind_eq_ok.mp succeeded
  obtain ⟨entered, inside, typing⟩ := Except.bind_eq_ok.mp entering
  obtain ⟨on, about, planned⟩ := Except.bind_eq_ok.mp typing
  obtain ⟨fresh, rfl⟩ := enterSpread_eq_ok.mp inside
  obtain ⟨composite, rfl⟩ := Schema.conditionType_eq_ok.mp about
  exact ⟨fragment, ⟨fragment_eq_ok.mp found, fresh⟩, composite,
    planRecord_planned (sound _) planned⟩

/-- Whatever depth is left, what an expansion plans has a derivation. -/
theorem expansion_sound (bound : BoundDocument) (depth : Nat) :
    ∀ active, (bound.expansion depth active).Sound bound active := by
  induction depth with
  | zero =>
      intro active
      constructor
      · intro on spread given plan result rest succeeded
        simp [expansion] at succeeded
      · intro union members spread draft next result rest succeeded
        simp [expansion] at succeeded
  | succ depth ih =>
      intro active
      constructor
      · intro on spread given plan result rest succeeded after
        obtain ⟨fragment, entered, composite, expanded⟩ := planSpread_planned ih succeeded
        exact .spread entered composite expanded after
      · intro union members spread draft next result rest succeeded after
        obtain ⟨fragment, found, placing⟩ := Except.bind_eq_ok.mp succeeded
        by_cases same : fragment.condition.type = union
        · simp only [same, beq_self_eq_true, if_true] at placing
          obtain ⟨entered, inside, merged⟩ := Except.bind_eq_ok.mp placing
          obtain ⟨fresh, rfl⟩ := enterSpread_eq_ok.mp inside
          exact .merge ⟨fragment_eq_ok.mp found, fresh⟩ same
            (planUnion_planned (ih _) merged) after
        · simp only [beq_iff_eq, same, if_false] at placing
          obtain ⟨done, member, planning⟩ := Except.bind_eq_ok.mp placing
          obtain ⟨given, planned, finished⟩ := Except.bind_eq_ok.mp planning
          obtain ⟨again, entered, composite, expanded⟩ := planSpread_planned ih planned
          obtain rfl : again = fragment :=
            Option.some.inj (entered.1.symm.trans (fragment_eq_ok.mp found))
          rw [← Except.pure_eq_ok.mp finished] at after
          exact .member entered same (requireMember_eq_ok.mp member) composite expanded after

/-- The plan of an operation has a derivation in which no fragment is being expanded. -/
theorem operationPlanned {bound : BoundDocument} {operation : Operation} {plan : RecordPlan}
    (succeeded : bound.operationPlan operation = .ok plan) :
    ∃ root, bound.schema.rootType operation.kind operation.title = .ok root ∧
      RecordPlanned bound [] root operation.selections {} plan := by
  obtain ⟨root, rooted, planned⟩ := Except.bind_eq_ok.mp succeeded
  exact ⟨root, rooted, planRecord_planned (bound.expansion_sound _ _) planned⟩

/-- The plan of a fragment is that of its selections on what it is about. -/
theorem fragmentPlan_eq_ok {bound : BoundDocument} {name : String} {position : Position}
    {plan : SelectionPlan} (succeeded : bound.fragmentPlan name position = .ok plan) :
    ∃ fragment, bound.fragment? name = some fragment ∧
      bound.schema.IsComposite fragment.condition.type ∧
      planSelections bound.schema (bound.expansion bound.spreadDepth [name])
        fragment.condition.type fragment.brace fragment.selections = .ok plan := by
  obtain ⟨fragment, found, typing⟩ := Except.bind_eq_ok.mp succeeded
  obtain ⟨on, about, selected⟩ := Except.bind_eq_ok.mp typing
  obtain ⟨composite, rfl⟩ := Schema.conditionType_eq_ok.mp about
  exact ⟨fragment, fragment_eq_ok.mp found, composite, selected⟩

/-- The plan of a fragment has a derivation in which the fragment itself is being expanded. -/
theorem fragmentPlanned {bound : BoundDocument} {name : String} {position : Position}
    {plan : SelectionPlan} (succeeded : bound.fragmentPlan name position = .ok plan) :
    ∃ fragment, bound.fragment? name = some fragment ∧
      bound.schema.IsComposite fragment.condition.type ∧
      match plan with
      | .record record => RecordPlanned bound [name] fragment.condition.type fragment.selections {}
          record
      | .union union => ∃ members draft,
          bound.schema.form fragment.condition.type = .union members ∧
          UnionPlanned bound [name] fragment.condition.type members fragment.selections {} draft ∧
          union = ⟨fragment.condition.type, members, draft.variants⟩ := by
  obtain ⟨fragment, found, composite, selected⟩ := fragmentPlan_eq_ok succeeded
  refine ⟨fragment, found, composite, ?_⟩
  rcases planSelections_eq_ok selected with
    ⟨record, _, recorded, rfl⟩ | ⟨members, draft, united, drafted, _, rfl⟩
  · exact planRecord_planned (bound.expansion_sound _ _) recorded
  · exact ⟨members, draft, Schema.form_eq_union.mpr united,
      planUnion_planned (bound.expansion_sound _ _) drafted, rfl⟩

end BoundDocument

end ElmClient
