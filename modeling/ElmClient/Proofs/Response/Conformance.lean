/-
Module: ElmClient.Proofs.Response.Conformance
Purpose: Data that conforms to an operation, said in terms of the schema and of the document alone,
  and the completeness of decoding: the decoder of an operation accepts all such data.
Main exports: BoundDocument.Selects, BoundDocument.SelectsMember, BoundDocument.Fits,
  BoundDocument.Conforms, RecordPlanned.accepts, KindPlanned.accepts, UnionPlanned.accepts,
  exists_decoded_of_conforms
-/
import Mathlib
import ElmClient.Proofs.Elm.Decoding
import ElmClient.Proofs.Generation.Provision

namespace ElmClient

open GraphQL
open Elm (Scalar Decoder Decoded Module posixSeconds typenameKey)

/-! ### Conforming data -/

namespace BoundDocument

/-- A field that selections on a type select on it, directly or through fragments that they spread,
with the type on which the field is selected and with what is selected below it. -/
inductive Selects (bound : BoundDocument) :
    String → List Selection → String → Field → List Selection → Prop where
  | field {on selections field brace below} (member : .field field brace below ∈ selections) :
      Selects bound on selections on field below
  | spread {on selections spread fragment parent field below}
      (member : .spread spread ∈ selections)
      (found : bound.fragment? spread.fragment = some fragment)
      (inside : Selects bound fragment.condition.type fragment.selections parent field below) :
      Selects bound on selections parent field below

/-- A member that selections on a union select, with selections on this member: those of an inline
fragment or of a fragment on the member, in the set itself or in a fragment on the union. -/
inductive SelectsMember (bound : BoundDocument) (union : String) :
    List Selection → String → List Selection → Prop where
  | inline {selections inline brace below condition}
      (member : .inline inline brace below ∈ selections)
      (conditioned : inline.condition = some condition) :
      SelectsMember bound union selections condition.type below
  | fragment {selections spread fragment} (member : .spread spread ∈ selections)
      (found : bound.fragment? spread.fragment = some fragment)
      (other : fragment.condition.type ≠ union) :
      SelectsMember bound union selections fragment.condition.type fragment.selections
  | merge {selections spread fragment name below} (member : .spread spread ∈ selections)
      (found : bound.fragment? spread.fragment = some fragment)
      (same : fragment.condition.type = union)
      (inside : SelectsMember bound union fragment.selections name below) :
      SelectsMember bound union selections name below

/-- The JSON values of a scalar. An integer has 64 bits, and a time is an integer of seconds that
can be represented in milliseconds. -/
inductive FitsScalar : Scalar → Json → Prop where
  | int {number n} (integral : Number.toInt64? number = some n) : FitsScalar .int (.number number)
  | float (number : Number) : FitsScalar .float (.number number)
  | bool (b : Bool) : FitsScalar .bool (.bool b)
  | string (s : String) : FitsScalar .string (.string s)
  | posix {number seconds} (integral : Number.toInt64? number = some seconds)
      (low : posixSeconds.1 ≤ seconds) (high : seconds ≤ posixSeconds.2) :
      FitsScalar .posix (.number number)

mutual

/-- A value that fits a reference to a type with the selections below it. Only what is not marked as
non-null is null; a mark directly inside a mark is no type. -/
inductive Fits (bound : BoundDocument) : List Selection → TypeRef → Json → Prop where
  | null {selections type} (nullable : type.isNonNull = false) : Fits bound selections type .null
  | named {selections name value} (fits : FitsNamed bound selections name value) :
      Fits bound selections (.named name) value
  | list {selections item items} (fits : ∀ value ∈ items, Fits bound selections item value) :
      Fits bound selections (.list item) (.array items)
  | nonNull {selections type value} (once : type.isNonNull = false) (present : value ≠ .null)
      (fits : Fits bound selections type value) : Fits bound selections (.nonNull type) value

/-- A value other than null that fits a type with the selections below it. A union object names a
member that is selected and fits every selection on this member. -/
inductive FitsNamed (bound : BoundDocument) : List Selection → String → Json → Prop where
  | leaf {selections name value} (form : bound.schema.form name = .leaf)
      (fits : FitsScalar (Scalar.ofName name) value) : FitsNamed bound selections name value
  | enum {selections name values wire} (form : bound.schema.form name = .enum values)
      (declared : wire ∈ values) : FitsNamed bound selections name (.string wire)
  | object {selections name entries} (form : bound.schema.form name = .object)
      (fits : FitsObject bound selections name entries) :
      FitsNamed bound selections name (.object entries)
  | union {selections name members member entries} (form : bound.schema.form name = .union members)
      (typename : entries.lookup typenameKey = some (.string member))
      (selected : ∃ below, bound.SelectsMember name selections member below)
      (fits : ∀ below, bound.SelectsMember name selections member below →
        FitsObject bound below member entries) :
      FitsNamed bound selections name (.object entries)

/-- The entries of an object on which there are selections. Each selected field that is not
conditional is there, and what is there under its key fits the type of every selection of the key. -/
inductive FitsObject (bound : BoundDocument) : List Selection → String → List (String × Json) → Prop
    where
  | mk {selections on entries}
      (present : ∀ parent field below, bound.Selects on selections parent field below →
        entries.lookup field.responseKey = none → field.isConditional = true)
      (fits : ∀ parent field below type value, bound.Selects on selections parent field below →
        bound.schema.selectedType parent field.name field.position = .ok type →
          entries.lookup field.responseKey = some value → Fits bound below type value) :
      FitsObject bound selections on entries

end

/-- Data of a response that conforms to an operation. -/
def Conforms (bound : BoundDocument) (operation : Operation) (data : Json) : Prop :=
  ∃ root entries, bound.schema.rootType operation.kind operation.title = .ok root ∧
    data = .object entries ∧ FitsObject bound operation.selections root entries

/-! ### Parts of selections -/

theorem Selects.mono {bound : BoundDocument} {on parent : String} {field : Field}
    {selections more below : List Selection}
    (selects : bound.Selects on selections parent field below) (within : selections ⊆ more) :
    bound.Selects on more parent field below := by
  cases selects with
  | field member => exact .field (within member)
  | spread member found inside => exact .spread (within member) found inside

theorem SelectsMember.mono {bound : BoundDocument} {union member : String}
    {selections more below : List Selection}
    (selects : bound.SelectsMember union selections member below) (within : selections ⊆ more) :
    bound.SelectsMember union more member below := by
  cases selects with
  | inline here conditioned => exact .inline (within here) conditioned
  | fragment here found other => exact .fragment (within here) found other
  | merge here found same inside => exact .merge (within here) found same inside

/-- A field on a union selects no member. -/
theorem SelectsMember.of_field_cons {bound : BoundDocument} {union member : String} {field : Field}
    {brace : Position} {under rest below : List Selection}
    (selects : bound.SelectsMember union (.field field brace under :: rest) member below) :
    bound.SelectsMember union rest member below := by
  cases selects with
  | inline here conditioned =>
      exact .inline ((List.mem_cons.mp here).resolve_left nofun) conditioned
  | fragment here found other =>
      exact .fragment ((List.mem_cons.mp here).resolve_left nofun) found other
  | merge here found same inside =>
      exact .merge ((List.mem_cons.mp here).resolve_left nofun) found same inside

/-- An inline fragment selects the member that it is about. -/
theorem SelectsMember.of_inline_cons {bound : BoundDocument} {union member : String}
    {inline : InlineFragment} {brace : Position} {under rest below : List Selection}
    (selects : bound.SelectsMember union (.inline inline brace under :: rest) member below) :
    (∃ condition, inline.condition = some condition ∧ member = condition.type) ∨
      bound.SelectsMember union rest member below := by
  cases selects with
  | inline here conditioned =>
      rcases List.mem_cons.mp here with same | later
      · obtain ⟨rfl, _, rfl⟩ := Selection.inline.inj same
        exact Or.inl ⟨_, conditioned, rfl⟩
      · exact Or.inr (.inline later conditioned)
  | fragment here found other =>
      exact Or.inr (.fragment ((List.mem_cons.mp here).resolve_left nofun) found other)
  | merge here found same inside =>
      exact Or.inr (.merge ((List.mem_cons.mp here).resolve_left nofun) found same inside)

/-- A spread selects the member that the fragment is about, or what a fragment on the union
selects. -/
theorem SelectsMember.of_spread_cons {bound : BoundDocument} {union member : String}
    {spread : Spread} {rest below : List Selection} {fragment : Fragment}
    (found : bound.fragment? spread.fragment = some fragment)
    (selects : bound.SelectsMember union (.spread spread :: rest) member below) :
    (fragment.condition.type ≠ union ∧ member = fragment.condition.type) ∨
      (fragment.condition.type = union ∧
        bound.SelectsMember union fragment.selections member below) ∨
      bound.SelectsMember union rest member below := by
  cases selects with
  | inline here conditioned =>
      exact Or.inr (Or.inr (.inline ((List.mem_cons.mp here).resolve_left nofun) conditioned))
  | fragment here found' other =>
      rcases List.mem_cons.mp here with first | later
      · obtain rfl := Selection.spread.inj first
        obtain rfl := Option.some.inj (found.symm.trans found')
        exact Or.inl ⟨other, rfl⟩
      · exact Or.inr (Or.inr (.fragment later found' other))
  | merge here found' same inside =>
      rcases List.mem_cons.mp here with first | later
      · obtain rfl := Selection.spread.inj first
        obtain rfl := Option.some.inj (found.symm.trans found')
        exact Or.inr (Or.inl ⟨same, inside⟩)
      · exact Or.inr (Or.inr (.merge later found' same inside))

section Reading

variable {bound : BoundDocument} {on parent : String} {field : Field} {rest below : List Selection}

@[simp]
theorem selects_nil : ¬ bound.Selects on [] parent field below := by
  intro selects
  cases selects with
  | field member | spread member => exact absurd member List.not_mem_nil

/-- Of a field and more selections, the field is selected, and what the others select. -/
@[simp]
theorem selects_field_cons {first : Field} {brace : Position} {under : List Selection} :
    bound.Selects on (.field first brace under :: rest) parent field below ↔
      (parent = on ∧ field = first ∧ below = under) ∨
        bound.Selects on rest parent field below := by
  constructor
  · intro selects
    cases selects with
    | field member =>
        rcases List.mem_cons.mp member with same | later
        · obtain ⟨rfl, _, rfl⟩ := Selection.field.inj same
          exact Or.inl ⟨rfl, rfl, rfl⟩
        · exact Or.inr (.field later)
    | spread member found inside =>
        exact Or.inr (.spread ((List.mem_cons.mp member).resolve_left nofun) found inside)
  · rintro (⟨rfl, rfl, rfl⟩ | later)
    · exact .field List.mem_cons_self
    · exact later.mono (List.subset_cons_self _ _)

/-- Of a spread and more selections, what the fragment selects is selected, and what the others
select. -/
@[simp]
theorem selects_spread_cons {spread : Spread} :
    bound.Selects on (.spread spread :: rest) parent field below ↔
      (∃ fragment, bound.fragment? spread.fragment = some fragment ∧
        bound.Selects fragment.condition.type fragment.selections parent field below) ∨
        bound.Selects on rest parent field below := by
  constructor
  · intro selects
    cases selects with
    | field member => exact Or.inr (.field ((List.mem_cons.mp member).resolve_left nofun))
    | spread member found inside =>
        rcases List.mem_cons.mp member with same | later
        · obtain rfl := Selection.spread.inj same
          exact Or.inl ⟨_, found, inside⟩
        · exact Or.inr (.spread later found inside)
  · rintro (⟨fragment, found, inside⟩ | later)
    · exact .spread List.mem_cons_self found inside
    · exact later.mono (List.subset_cons_self _ _)

end Reading

/-- What fits selections fits any others that select no more. -/
theorem FitsObject.of_selects {bound : BoundDocument} {on on' : String}
    {selections fewer : List Selection} {entries : List (String × Json)}
    (whole : FitsObject bound selections on entries)
    (selects : ∀ parent field below, bound.Selects on' fewer parent field below →
      bound.Selects on selections parent field below) :
    FitsObject bound fewer on' entries := by
  cases whole with
  | mk present fits =>
      exact .mk (fun _ _ _ some => present _ _ _ (selects _ _ _ some))
        (fun _ _ _ _ _ some => fits _ _ _ _ _ (selects _ _ _ some))

end BoundDocument

/-! ### Acceptance -/

/-- A decoder succeeds on a value. -/
def Elm.Module.Accepts (m : Module) (decoder : Decoder) (data : Json) : Prop :=
  ∃ value, decoder.run m data = .ok value

/-- Every field of a plan is decoded from a value. -/
def Elm.Module.AcceptsFields (m : Module) (plan : RecordPlan) (data : Json) : Prop :=
  ∀ field ∈ plan.fields, m.Accepts (FieldPlan.decoder field) data

section Acceptance

variable {m : Module} {bound : BoundDocument} {data : Json}

namespace Elm.Module.Accepts

theorem optional (inner : Decoder) (data : Json) : m.Accepts (.optional inner) data := by
  cases tried : inner.run m data with
  | ok value => exact ⟨.just value, Decoder.run_optional_eq_ok.mpr (Or.inl ⟨value, tried, rfl⟩)⟩
  | error cause =>
      refine ⟨.nothing, Decoder.run_optional_eq_ok.mpr (Or.inr ⟨fun value succeeded => ?_, rfl⟩)⟩
      exact nomatch tried.symm.trans succeeded

theorem list {item : Decoder} {items : List Json} (each : ∀ value ∈ items, m.Accepts item value) :
    m.Accepts (.list item) (.array items) := by
  have results : ∃ results,
      List.Forall₂ (fun json result => item.run m json = .ok result) items results := by
    induction items with
    | nil => exact ⟨[], .nil⟩
    | cons first rest ih =>
        obtain ⟨result, run⟩ := each first List.mem_cons_self
        obtain ⟨results, runs⟩ := ih fun value later => each value (List.mem_cons_of_mem _ later)
        exact ⟨result :: results, .cons run runs⟩
  obtain ⟨results, runs⟩ := results
  exact ⟨.list results, Decoder.run_list_eq_ok.mpr ⟨items, results, rfl, rfl, runs⟩⟩

theorem field {wire : String} {decoder : Decoder} {entries : List (String × Json)} {held : Json}
    (found : entries.lookup wire = some held) (accepted : m.Accepts decoder held) :
    m.Accepts (.field wire decoder) (.object entries) := by
  obtain ⟨value, run⟩ := accepted
  exact ⟨value, decodeField_eq_ok.mpr ⟨entries, held, rfl, found, run⟩⟩

theorem scalar {scalar : Scalar} (fits : BoundDocument.FitsScalar scalar data) :
    m.Accepts (.scalar scalar) data := by
  cases fits with
  | int integral => exact ⟨_, Elm.Scalar.decode_eq_ok.mpr (.int integral)⟩
  | float number => exact ⟨_, Elm.Scalar.decode_eq_ok.mpr (.float number)⟩
  | bool b => exact ⟨_, Elm.Scalar.decode_eq_ok.mpr (.bool b)⟩
  | string s => exact ⟨_, Elm.Scalar.decode_eq_ok.mpr (.string s)⟩
  | posix integral low high => exact ⟨_, Elm.Scalar.decode_eq_ok.mpr (.posix integral low high)⟩

/-- A value of an enumeration that is declared with the values of the schema. -/
theorem enum {name wire : String} {values : List String}
    (declared : m.enum name = some (.ofValues name values)) (member : wire ∈ values) :
    m.Accepts (.enum name) (.string wire) := by
  cases found : (Elm.EnumDeclaration.ofValues name values).cases.find? (·.wire == wire) with
  | none =>
      have absent := List.find?_eq_none.mp found ⟨wire, Name.enumConstructor name wire⟩
        (List.mem_map.mpr ⟨wire, member, rfl⟩)
      simp at absent
  | some enumCase => exact ⟨_, decodeEnum_eq_ok.mpr ⟨wire, _, enumCase, rfl, declared, found, rfl⟩⟩

/-- A value that fits a reference is accepted with the layers of the reference, if the values of the
type are. Only layers outside of any optional one have to be looked at. -/
theorem wrap {selections : List Selection} {decoder : Decoder} :
    ∀ {type : TypeRef} {value : Json}, BoundDocument.Fits bound selections type value →
      (∀ value, BoundDocument.FitsNamed bound selections type.name value →
        m.Accepts decoder value) → m.Accepts (Decoder.wrap type.layers decoder) value
  | .named _, _, _, _ => .optional _ _
  | .list _, _, _, _ => .optional _ _
  | .nonNull (.named _), _, .nonNull _ present fits, accepted => by
      cases fits with
      | null => exact absurd rfl present
      | named fits => exact accepted _ fits
  | .nonNull (.list _), _, .nonNull _ present fits, accepted => by
      cases fits with
      | null => exact absurd rfl present
      | list fits => exact .list fun value member => wrap (fits value member) accepted

/-- A field that is there with a value of its type, or that is not and is conditional, is
accepted. -/
theorem planned {field : Field} {type : TypeRef} {kind : FieldKind} {below : List Selection}
    {entries : List (String × Json)}
    (present : entries.lookup field.responseKey = none → field.isConditional = true)
    (fits : ∀ value, entries.lookup field.responseKey = some value →
      BoundDocument.Fits bound below type value)
    (accepted : ∀ value, BoundDocument.FitsNamed bound below type.name value →
      m.Accepts kind.decoder value) :
    m.Accepts (FieldPlan.decoder (field.planned type kind)) (.object entries) := by
  change m.Accepts (readField field.responseKey (field.layers type) kind.decoder) _
  unfold readField
  split
  · exact .optional _ _
  · next required =>
      have unconditional : field.isConditional = false := by
        cases conditional : field.isConditional with
        | true => simp [Field.layers, conditional] at required
        | false => rfl
      have layers : field.layers type = type.layers := by simp [Field.layers, unconditional]
      cases found : entries.lookup field.responseKey with
      | none =>
          rw [present found] at unconditional
          exact Bool.noConfusion unconditional
      | some value =>
          rw [Layer.makeRequired_eq_self ((Bool.not_eq_true _).mp required), layers]
          exact .field found (.wrap (fits value found) accepted)

end Elm.Module.Accepts

theorem Elm.Module.AcceptsFields.absorb {plan later : RecordPlan}
    (earlier : m.AcceptsFields plan data) (added : m.AcceptsFields later data) :
    m.AcceptsFields (plan.absorb later) data :=
  fun field member => (RecordPlanOf.mem_absorb member).elim (earlier field) (added field)

theorem Elm.Module.AcceptsFields.push {plan : RecordPlan} {field : FieldPlan}
    (earlier : m.AcceptsFields plan data) (added : m.Accepts (FieldPlan.decoder field) data) :
    m.AcceptsFields (plan.push field) data := by
  intro held member
  rcases RecordPlanOf.mem_push member with old | rfl
  · exact earlier held old
  · exact added

theorem Elm.Module.AcceptsFields.pushSpread {plan given : RecordPlan} {fragment : String}
    (earlier : m.AcceptsFields plan data) (added : m.AcceptsFields given data) :
    m.AcceptsFields (plan.pushSpread fragment given) data := by
  intro held member
  rcases RecordPlanOf.mem_pushSpread member with old | ⟨field, there, rfl⟩
  · exact earlier held old
  · exact added field there

/-- A record is decoded where all of its fields are. -/
theorem Elm.Module.AcceptsFields.run_decoder {plan : RecordPlan}
    (accepted : m.AcceptsFields plan data) (constructor : Elm.Constructor) :
    ∃ value, Decoder.runRecord m (RecordPlan.decoder constructor plan) data = .ok value := by
  have entries : ∃ entries : List (String × Elm.Value), List.Forall₂ (fun field entry =>
      entry.1 = field.name ∧ (FieldPlan.decoder field).run m data = .ok entry.2)
      plan.fields entries := by
    unfold Elm.Module.AcceptsFields at accepted
    generalize plan.fields = fields at accepted
    induction fields with
    | nil => exact ⟨[], .nil⟩
    | cons first rest ih =>
        obtain ⟨value, run⟩ := accepted first List.mem_cons_self
        obtain ⟨entries, runs⟩ := ih fun field later =>
          accepted field (List.mem_cons_of_mem _ later)
        exact ⟨(first.name, value) :: entries, .cons ⟨rfl, run⟩ runs⟩
  obtain ⟨entries, runs⟩ := entries
  exact ⟨_, RecordPlan.run_decoder_eq_ok.mpr ⟨entries, rfl, runs⟩⟩

/-- The plan of a member is still accepted after a variant was added, if what was added to the
member is. -/
theorem Elm.Module.AcceptsFields.addVariant {name member : String} {later : RecordPlan}
    {variants : List (String × RecordPlan)}
    (earlier : ∀ plan, (name, plan) ∈ variants → m.AcceptsFields plan data)
    (added : member = name → m.AcceptsFields later data) :
    ∀ plan, (name, plan) ∈ UnionPlanOf.addVariant member later variants →
      m.AcceptsFields plan data := by
  intro plan there
  rcases UnionPlanOf.mem_addVariant there with old | new | ⟨held, old, merged⟩
  · exact earlier plan old
  · obtain ⟨rfl, rfl⟩ := Prod.mk.inj new
    exact added rfl
  · obtain ⟨rfl, rfl⟩ := Prod.mk.inj merged
    exact (earlier held old).absorb (added rfl)

/-! ### Every member that is selected has a variant -/

theorem UnionPlanOf.mem_names_addVariant {κ : Type} {name member : String}
    {plan : RecordPlanOf κ} {variants : List (String × RecordPlanOf κ)} :
    name ∈ (UnionPlanOf.addVariant member plan variants).map Prod.fst ↔
      name ∈ variants.map Prod.fst ∨ name = member := by
  rw [UnionPlanOf.map_fst_addVariant]
  split
  · next there =>
      exact ⟨Or.inl, fun either => either.elim id fun same => same ▸ there⟩
  · simp

/-- No variant is lost while selections are added. -/
theorem UnionPlanned.names_mono :
    ∀ {active union members selections draft result},
      UnionPlanned bound active union members selections draft result →
        draft.variants.map Prod.fst ⊆ result.variants.map Prod.fst
  | _, _, _, _, _, _, .nil => List.Subset.refl _
  | _, _, _, _, _, _, .typename _ after => after.names_mono
  | _, _, _, _, _, _, .inline _ _ _ _ after => fun _ there =>
      after.names_mono (UnionPlanOf.mem_names_addVariant.mpr (Or.inl there))
  | _, _, _, _, _, _, .merge _ _ expanded after => fun _ there =>
      after.names_mono (expanded.names_mono there)
  | _, _, _, _, _, _, .member _ _ _ _ _ after => fun _ there =>
      after.names_mono (UnionPlanOf.mem_names_addVariant.mpr (Or.inl there))

/-- A selected member has a variant, however deep in fragments on the union it is selected. -/
theorem UnionPlanned.mem_names :
    ∀ {active union members selections draft result name below},
      UnionPlanned bound active union members selections draft result →
        bound.SelectsMember union selections name below → name ∈ result.variants.map Prod.fst
  | _, _, _, _, _, _, _, _, .nil, selects => by
      cases selects with
      | inline member | fragment member | merge member => exact absurd member List.not_mem_nil
  | _, _, _, _, _, _, _, _, .typename _ after, selects => after.mem_names selects.of_field_cons
  | _, _, _, _, _, _, _, _, .inline conditioned _ _ _ after, selects => by
      rcases selects.of_inline_cons with ⟨condition, conditioned', rfl⟩ | later
      · obtain rfl := Option.some.inj (conditioned.symm.trans conditioned')
        exact after.names_mono (UnionPlanOf.mem_names_addVariant.mpr (Or.inr rfl))
      · exact after.mem_names later
  | _, _, _, _, _, _, _, _, .merge entered same expanded after, selects => by
      rcases selects.of_spread_cons entered.1 with ⟨other, _⟩ | ⟨_, inside⟩ | later
      · exact absurd same other
      · exact after.names_mono (expanded.mem_names inside)
      · exact after.mem_names later
  | _, _, _, _, _, _, _, _, .member entered other _ _ _ after, selects => by
      rcases selects.of_spread_cons entered.1 with ⟨_, rfl⟩ | ⟨same, _⟩ | later
      · exact after.names_mono (UnionPlanOf.mem_names_addVariant.mpr (Or.inr rfl))
      · exact absurd same other
      · exact after.mem_names later

/-- An object that names a member with a variant is accepted if the fields of the variant are. -/
theorem UnionPlan.accepts {union member : String} (members : List String)
    {variants : List (String × RecordPlan)} {entries : List (String × Json)}
    (typename : entries.lookup typenameKey = some (.string member))
    (there : member ∈ variants.map Prod.fst)
    (accepted : ∀ plan, (member, plan) ∈ variants → m.AcceptsFields plan (.object entries)) :
    m.Accepts (UnionPlan.decoder ⟨union, members, variants⟩) (.object entries) := by
  cases chosen : variants.lookup member with
  | none => exact absurd there (Dictionary.lookup_eq_none_iff.mp chosen)
  | some plan =>
      obtain ⟨value, run⟩ := (accepted plan (Dictionary.mem_of_lookup chosen)).run_decoder
        (.tagged (Name.unionConstructor union member))
      refine ⟨value, Decoder.run_union_eq_ok.mpr ⟨member, _,
        Elm.decodeTypename_eq_ok.mpr ⟨entries, rfl, typename⟩, ?_, run⟩⟩
      rw [UnionPlan.lookup_cases, chosen]
      rfl

/-! ### Conforming data is accepted -/

theorem Schema.form_eq_enum {schema : Schema} {name : String} {values : List String}
    (form : schema.form name = .enum values) : schema.get? name = some (.enum values) := by
  unfold Schema.form at form
  split at form <;> simp_all

variable {inventory : Inventory} {plans : List (String × SelectionPlan)}
  {clients : List OperationClient}

mutual

/-- Data that fits selections is accepted by every field that they add to a plan, so merging may
keep whichever field of a name it wants. -/
theorem RecordPlanned.accepts (declares : bound.Declares m inventory plans clients) :
    ∀ {active on selections plan result entries},
      RecordPlanned bound active on selections plan result →
      (∀ selection ∈ selections, bound.Selected on selection) →
      bound.FitsObject selections on entries → m.AcceptsFields plan (.object entries) →
      m.AcceptsFields result (.object entries)
  | _, _, _, _, _, _, .nil, _, _, accepted => accepted
  | _, _, _, _, _, _, .field selected below after, stand, fits, accepted => by
      have here := stand _ List.mem_cons_self
      have tail := fits.of_selects fun _ _ _ selects => selects.mono (List.subset_cons_self _ _)
      refine after.accepts declares (fun _ later => stand _ (List.mem_cons_of_mem _ later)) tail
        (accepted.push ?_)
      cases fits with
      | mk present fits =>
          refine .planned (present _ _ _ (.field List.mem_cons_self))
            (fun _ => fits _ _ _ _ _ (.field List.mem_cons_self) selected) ?_
          intro value named
          refine below.accepts declares ?_ (fun _ inside => .field here selected inside) named
          exact fun values form =>
            declares.enum_of_selected here selected (Schema.form_eq_enum form)
  | _, _, _, _, _, _, .spread entered _ expanded after, stand, fits, accepted => by
      have here := stand _ List.mem_cons_self
      have tail := fits.of_selects fun _ _ _ selects => selects.mono (List.subset_cons_self _ _)
      have inner := fits.of_selects fun _ _ _ selects =>
        .spread List.mem_cons_self entered.1 selects
      have given := expanded.accepts declares
        (fun _ inside => .spread here entered.1 inside) inner (fun _ absent => nomatch absent)
      exact after.accepts declares (fun _ later => stand _ (List.mem_cons_of_mem _ later)) tail
        (accepted.pushSpread given)

/-- A value that fits a type is accepted by what a field of the type holds. -/
theorem KindPlanned.accepts (declares : bound.Declares m inventory plans clients) :
    ∀ {active type selections kind value}, KindPlanned bound active type selections kind →
      (∀ values, bound.schema.form type = .enum values →
        m.enum type = some (.ofValues type values)) →
      (∀ selection ∈ selections, bound.Selected type selection) →
      bound.FitsNamed selections type value → m.Accepts kind.decoder value
  | _, _, _, _, _, .leaf form, _, _, fits => by
      cases fits with
      | leaf _ fits => exact .scalar fits
      | enum form' | object form' | union form' => exact nomatch form.symm.trans form'
  | _, _, _, _, _, .enum form, declared, _, fits => by
      cases fits with
      | enum form' member =>
          obtain rfl := TypeForm.enum.inj (form.symm.trans form')
          exact .enum (declared _ form) member
      | leaf form' | object form' | union form' => exact nomatch form.symm.trans form'
  | _, _, _, _, _, .object form _ planned, _, stand, fits => by
      cases fits with
      | object _ fits =>
          exact (planned.accepts declares stand fits fun _ absent => nomatch absent).run_decoder _
      | leaf form' | enum form' | union form' => exact nomatch form.symm.trans form'
  | _, _, _, _, _, .union form _ planned _, _, stand, fits => by
      cases fits with
      | union _ typename selected fits =>
          obtain ⟨_, selects⟩ := selected
          rw [FieldKind.decoder]
          exact UnionPlan.accepts _ typename (planned.mem_names selects)
            (planned.accepts declares stand fits fun _ absent => nomatch absent)
      | leaf form' | enum form' | object form' => exact nomatch form.symm.trans form'

/-- Data that fits the selections on a member is accepted by every field of its variant. -/
theorem UnionPlanned.accepts (declares : bound.Declares m inventory plans clients) :
    ∀ {active union members selections draft result name entries},
      UnionPlanned bound active union members selections draft result →
      (∀ selection ∈ selections, bound.Selected union selection) →
      (∀ below, bound.SelectsMember union selections name below →
        bound.FitsObject below name entries) →
      (∀ plan, (name, plan) ∈ draft.variants → m.AcceptsFields plan (.object entries)) →
      ∀ plan, (name, plan) ∈ result.variants → m.AcceptsFields plan (.object entries)
  | _, _, _, _, _, _, _, _, .nil, _, _, accepted => accepted
  | _, _, _, _, _, _, _, _, .typename _ after, stand, fits, accepted =>
      after.accepts declares (fun _ later => stand _ (List.mem_cons_of_mem _ later))
        (fun _ selects => fits _ (selects.mono (List.subset_cons_self _ _))) accepted
  | _, _, _, _, _, _, _, _, .inline conditioned _ _ planned after, stand, fits, accepted => by
      refine after.accepts declares (fun _ later => stand _ (List.mem_cons_of_mem _ later))
        (fun _ selects => fits _ (selects.mono (List.subset_cons_self _ _))) ?_
      refine .addVariant accepted ?_
      rintro rfl
      refine planned.accepts declares ?_ (fits _ (.inline List.mem_cons_self conditioned))
        (fun _ absent => nomatch absent)
      intro selection inside
      have stands := BoundDocument.Selected.inline (stand _ List.mem_cons_self) inside
      simpa [InlineFragment.on, conditioned] using stands
  | _, _, _, _, _, _, _, _, .merge entered same expanded after, stand, fits, accepted => by
      refine after.accepts declares (fun _ later => stand _ (List.mem_cons_of_mem _ later))
        (fun _ selects => fits _ (selects.mono (List.subset_cons_self _ _))) ?_
      have here := stand _ List.mem_cons_self
      exact expanded.accepts declares (fun _ inside => same ▸ .spread here entered.1 inside)
        (fun _ selects => fits _ (.merge List.mem_cons_self entered.1 same selects)) accepted
  | _, _, _, _, _, _, _, _, .member entered other _ _ expanded after, stand, fits, accepted => by
      refine after.accepts declares (fun _ later => stand _ (List.mem_cons_of_mem _ later))
        (fun _ selects => fits _ (selects.mono (List.subset_cons_self _ _))) ?_
      have here := stand _ List.mem_cons_self
      refine .addVariant accepted ?_
      rintro rfl
      refine Elm.Module.AcceptsFields.pushSpread (fun _ absent => nomatch absent) ?_
      exact expanded.accepts declares (fun _ inside => .spread here entered.1 inside)
        (fits _ (.fragment List.mem_cons_self entered.1 other)) (fun _ absent => nomatch absent)

end

/-- The decoder of an operation accepts the data that conforms to the operation. -/
theorem BoundDocument.Declares.accepts (declares : bound.Declares m inventory plans clients)
    {operation : Operation} (member : operation ∈ bound.operations) {client : OperationClient}
    (made : bound.ClientOf operation client) (conforms : bound.Conforms operation data) :
    m.Accepts client.decoder data := by
  obtain ⟨plan, planned, _, decoder⟩ := made.planned
  obtain ⟨root, rooted, derived⟩ := operationPlanned planned
  obtain ⟨root', entries, rooted', rfl, fits⟩ := conforms
  obtain rfl := Except.ok.inj (rooted.symm.trans rooted')
  have accepted := derived.accepts declares (fun _ below => .operation member rooted below) fits
    (fun _ absent => nomatch absent)
  rw [decoder]
  exact accepted.run_decoder _

end Acceptance

/-- Every operation of a document whose operations have distinct names once these are capitalized
decodes all data that conforms to it. -/
theorem exists_decoded_of_conforms {schema : Schema} {text : String} {document : Document}
    {bound : BoundDocument} {options : GenerationOptions} {m : Module}
    (parsed : Document.parse text = .ok document)
    (bind_ok : BoundDocument.bind schema document = .ok bound)
    (generated : generate schema document options = .ok m)
    (distinct : (document.operations.map fun operation =>
      Text.capitalize operation.title).Nodup)
    {operation : Operation} (member : operation ∈ document.operations) {data : Json}
    (conforms : bound.Conforms operation data) :
    ∃ value, m.decodeResponse operation.title data = .ok value := by
  obtain ⟨bound', _, _, clients, bind_ok', declares⟩ := generate_declares generated
  obtain rfl := Except.ok.inj (bind_ok.symm.trans bind_ok')
  have named := BoundDocument.isName_title bind_ok (Document.parse_wellNamed parsed)
  have among := (BoundDocument.operations_perm bind_ok).mem_iff.mpr member
  obtain ⟨client, there, made⟩ := Forall₂.exists_right declares.made among
  have distinct' : (bound.operations.map fun operation =>
      Text.capitalize operation.title).Nodup :=
    ((BoundDocument.operations_perm bind_ok).map _).nodup_iff.mpr distinct
  have request := declares.request_of_mem distinct' there
  have decoder := declares.decoder_of_mem distinct' named there
  obtain ⟨value, run⟩ := declares.accepts among made conforms
  refine ⟨value, ?_⟩
  rw [made.operationName] at request
  simp only [Module.decodeResponse, request, Option.bind_some, decoder, run]

/-! ### A conforming response

The response about a hero conforms to the document with a fragment, which selects the name of the
hero twice. -/

/-- The document about a hero with its schema. -/
def heroBound : BoundDocument := ⟨heroSchema, [heroOperation], [heroFragment]⟩

theorem parse_heroText : Document.parse heroText = .ok heroDocument := by
  cbv

/-- All that is selected on the hero is the name, directly and by the fragment. -/
theorem heroBound_selects {parent : String} {field : Field} {below : List Selection} :
    heroBound.Selects "Hero" heroSelections parent field below ↔
      parent = "Hero" ∧ below = [] ∧
        (field = heroField "name" 18 ∨ field = heroField "name" 53) := by
  have found : heroBound.fragment? "P" = some heroFragment := rfl
  simp only [heroSelections, BoundDocument.selects_field_cons, BoundDocument.selects_spread_cons,
    BoundDocument.selects_nil, found, Option.some.injEq, exists_eq_left', heroFragment, or_false]
  grind

theorem heroBound_fitsHero :
    heroBound.FitsObject heroSelections "Hero" [("name", .string "Luke")] := by
  constructor
  · intro parent field below selects absent
    obtain ⟨_, _, rfl | rfl⟩ := heroBound_selects.mp selects
    · exact nomatch absent
    · exact nomatch absent
  · intro parent field below type value selects selected found
    obtain ⟨rfl, _, rfl | rfl⟩ := heroBound_selects.mp selects
    · cases selected
      cases found
      exact .named (.leaf rfl (.string _))
    · cases selected
      cases found
      exact .named (.leaf rfl (.string _))

theorem heroBound_conforms : heroBound.Conforms heroOperation heroResponse := by
  refine ⟨"Query", _, rfl, rfl, .mk ?_ ?_⟩
  · intro parent field below selects absent
    rcases BoundDocument.selects_field_cons.mp selects with ⟨_, rfl, _⟩ | none
    · exact nomatch absent
    · exact absurd none BoundDocument.selects_nil
  · intro parent field below type value selects selected found
    rcases BoundDocument.selects_field_cons.mp selects with ⟨rfl, rfl, rfl⟩ | none
    · cases selected
      cases found
      exact .named (.object rfl heroBound_fitsHero)
    · exact absurd none BoundDocument.selects_nil

theorem hero_conforming_decoded : ∃ m,
    generate heroSchema heroDocument heroOptions = .ok m ∧
      ∃ value, m.decodeResponse heroOperation.title heroResponse = .ok value := by
  obtain ⟨m, generated, _⟩ := exists_heroModule
  obtain ⟨document, parsed, _, made⟩ := generateFromText_eq_ok generated
  obtain rfl := Except.ok.inj (parse_heroText.symm.trans parsed)
  exact ⟨m, made, exists_decoded_of_conforms parse_heroText rfl made (by decide)
    List.mem_cons_self heroBound_conforms⟩

end ElmClient
