/-
Module: ElmClient.Proofs.Response.Typing
Purpose: Typing of values in a module, and its soundness for decoding: whatever JSON value a decoder
  accepts, the value that it makes inhabits the declared type of the result.
Main exports: Module.Row, Module.HasType, Module.Makes, RecordPlan.Coherent.exists_row,
  FieldKind.Coherent.makes, Module.Plans.hasType, generateFromText_decoded_hasType
-/
import ElmClient.Proofs.Elm.Decoding
import ElmClient.Proofs.Generation.Provision

namespace ElmClient

open Elm

/-! ### Values of types -/

namespace Elm.Module

/-- The fields of a record type once its aliases and its fragments are expanded. An inner field
counts for one of its name in a fragment, and only what is declared open can be extended. -/
inductive Row (m : Module) : TypeExpr → List (String × TypeExpr) → Prop where
  | record (fields : List (String × TypeExpr)) (row : Option String) :
      Row m (.record fields row) fields
  | named {name type fields} (found : m.aliasType name = some type) (expanded : Row m type fields) :
      Row m (.named name) fields
  | extend {fragment declaration base outer own}
      (found : m.fragment (Text.capitalize fragment) = some declaration)
      (opened : declaration.isOpen = true) (provided : Row m declaration.type outer)
      (inner : Row m base own) :
      Row m (.extend fragment base)
        (own ++ outer.filter fun field => !(own.map Prod.fst).contains field.1)

/-- The values of a type. An integer has 64 bits and a time can be represented; a tag is that of a
case of the enumeration, and a variant is a constructor of a member of the union around a value of
the type of this member. A record has just the fields of its type. -/
inductive HasType (m : Module) : Value → TypeExpr → Prop where
  | int (n : Int) (low : -Number.signedLimit ≤ n) (high : n < Number.signedLimit) :
      HasType m (.int n) (.scalar .int)
  | float (x : Binary64) : HasType m (.float x) (.scalar .float)
  | bool (b : Bool) : HasType m (.bool b) (.scalar .bool)
  | string (s : String) : HasType m (.string s) (.scalar .string)
  | posix (seconds : Int) (low : posixSeconds.1 ≤ seconds) (high : seconds ≤ posixSeconds.2) :
      HasType m (.posix (seconds * 1000)) (.scalar .posix)
  | tag {enum declaration enumCase} (found : m.enum enum = some declaration)
      (declared : enumCase ∈ declaration.cases) :
      HasType m (.tag enumCase.constructor) (.enum enum)
  | nothing (inner : TypeExpr) : HasType m .nothing (.optional inner)
  | just {value inner} (typed : HasType m value inner) : HasType m (.just value) (.optional inner)
  | list {items item} (typed : ∀ value ∈ items, HasType m value item) :
      HasType m (.list items) (.list item)
  | named {name type value} (found : m.aliasType name = some type) (typed : HasType m value type) :
      HasType m value (.named name)
  | record {type fields entries} (row : m.Row type fields)
      (distinct : (entries.map Prod.fst).Nodup)
      (names : ∀ name, name ∈ entries.map Prod.fst ↔ name ∈ fields.map Prod.fst)
      (typed : ∀ name value type, entries.lookup name = some value →
        fields.lookup name = some type → HasType m value type) :
      HasType m (.record entries) type
  | variant {union arguments member type payload}
      (argument : arguments.lookup member = some type) (typed : HasType m payload type) :
      HasType m (.variant (Name.unionConstructor union member) payload) (.union union arguments)

/-- A decoder that makes values of a type only, whatever it is run on. -/
def Makes (m : Module) (decoder : Decoder) (type : TypeExpr) : Prop :=
  ∀ data value, decoder.run m data = .ok value → m.HasType value type

end Elm.Module

section Making

variable {m : Module}

/-! ### Leaves and layers -/

namespace Elm.Module.Makes

theorem scalar (s : Scalar) : m.Makes (.scalar s) (.scalar s) := by
  intro data value decoded
  cases Scalar.decode_eq_ok.mp decoded with
  | int integral =>
      obtain ⟨low, high⟩ := Number.toInt64?_bounds integral
      exact .int _ low high
  | float number => exact .float _
  | bool b => exact .bool b
  | string s => exact .string s
  | posix _ low high => exact .posix _ low high

theorem enum (name : String) : m.Makes (.enum name) (.enum name) := by
  intro data value decoded
  obtain ⟨wire, declaration, enumCase, _, declared, found, rfl⟩ := decodeEnum_eq_ok.mp decoded
  exact .tag declared (List.mem_of_find?_eq_some found)

theorem field {decoder : Decoder} {type : TypeExpr} (made : m.Makes decoder type)
    (wire : String) : m.Makes (.field wire decoder) type := by
  intro data value decoded
  obtain ⟨_, held, _, _, inner⟩ := decodeField_eq_ok.mp decoded
  exact made held value inner

theorem optional {inner : Decoder} {type : TypeExpr} (made : m.Makes inner type) :
    m.Makes (.optional inner) (.optional type) := by
  intro data value decoded
  rcases Decoder.run_optional_eq_ok.mp decoded with ⟨held, succeeded, rfl⟩ | ⟨_, rfl⟩
  · exact .just (made data held succeeded)
  · exact .nothing type

theorem list {item : Decoder} {type : TypeExpr} (made : m.Makes item type) :
    m.Makes (.list item) (.list type) := by
  intro data value decoded
  obtain ⟨items, results, _, rfl, each⟩ := Decoder.run_list_eq_ok.mp decoded
  apply Module.HasType.list
  intro result member
  obtain ⟨json, _, succeeded⟩ := Forall₂.exists_left each member
  exact made json result succeeded

theorem wrap {decoder : Decoder} {type : TypeExpr} (made : m.Makes decoder type)
    (layers : List Layer) : m.Makes (Decoder.wrap layers decoder) (TypeExpr.wrap layers type) := by
  induction layers with
  | nil => exact made
  | cons layer rest ih =>
      cases layer with
      | optional => exact ih.optional
      | list => exact ih.list

/-- A field is read with the type that its layers make, whichever of them stands around the key. -/
theorem readField {decoder : Decoder} {type : TypeExpr} (made : m.Makes decoder type)
    (wire : String) (layers : List Layer) :
    m.Makes (ElmClient.readField wire layers decoder) (TypeExpr.wrap layers type) := by
  cases layers with
  | nil => exact made.field wire
  | cons layer rest =>
      cases layer with
      | optional => exact ((made.wrap rest).field wire).optional
      | list => exact (made.wrap (.list :: rest)).field wire

end Elm.Module.Makes

/-! ### Records -/

/-- The fields of a type in the open aliases of fragments: its own, and those of the first fragment
that has one of the name. -/
theorem exists_row_extendBy {sources : List (String × RecordPlan)} {base : TypeExpr}
    {own : List (String × TypeExpr)} (inner : m.Row base own)
    (planned : ∀ source ∈ sources, m.Provides source.1 source.2)
    (rows : ∀ source ∈ sources, ∃ fields,
      m.Row (RecordPlan.type (some DeclarationGroup.rowVariable) source.2) fields ∧
        ∀ name, fields.lookup name = (source.2.field? name).map FieldPlan.type) :
    ∃ fields, m.Row (extendBy (sources.map Prod.fst) base) fields ∧
      ∀ name, fields.lookup name = (own.lookup name).or
        (sources.findSome? fun source => (source.2.field? name).map FieldPlan.type) := by
  induction sources generalizing base own with
  | nil => exact ⟨own, inner, fun name => (Option.or_none).symm⟩
  | cons first rest ih =>
      obtain ⟨outer, provided, holds⟩ := rows first List.mem_cons_self
      have extended := Module.Row.extend (planned first List.mem_cons_self) rfl provided inner
      obtain ⟨fields, row, found⟩ := ih extended
        (fun source later => planned source (List.mem_cons_of_mem _ later))
        (fun source later => rows source (List.mem_cons_of_mem _ later))
      refine ⟨fields, row, ?_⟩
      intro name
      rw [found, Dictionary.lookup_append_new, holds, List.findSome?_cons]
      cases own.lookup name <;> cases first.2.field? name <;> rfl

/-- The type of a plan whose fragments are declared expands to the fields of the plan. -/
theorem RecordPlan.Coherent.exists_row :
    ∀ {depth plan}, RecordPlan.Coherent m.Provides depth plan → ∀ row, ∃ fields,
      m.Row (RecordPlan.type row plan) fields ∧
        ∀ name, fields.lookup name = (plan.field? name).map FieldPlan.type
  | _, plan, .mk sources merged _ planned _ below, row => by
      obtain ⟨fields, expanded, holds⟩ := exists_row_extendBy
        (.record (FieldPlan.ownTypes plan.fields) row) planned
        (fun source member => (below source member).exists_row _)
      refine ⟨fields, ?_, ?_⟩
      · rw [RecordPlan.type_eq, merged.spreads]
        exact expanded
      · intro name
        rw [holds, FieldPlan.ownTypes_eq, PlannedField.lookup_map_name,
          PlannedField.named?_filter merged.names_nodup]
        exact merged.map_field? (fun _ => rfl) name

/-- A plan whose decoded fields make a record of its type. -/
def Elm.Module.MakesRecord (m : Module) (plan : RecordPlan) : Prop :=
  ∀ data entries, List.Forall₂ (fun field entry =>
      entry.1 = field.name ∧ (FieldPlan.decoder field).run m data = .ok entry.2)
      plan.fields entries →
    m.HasType (.ofFields entries) (RecordPlan.type none plan)

/-- Where the fragments of a plan are declared and each field is decoded to values of its type, the
fields make a record. -/
theorem RecordPlan.Coherent.makesRecord {depth : Nat} {plan : RecordPlan}
    (coherent : RecordPlan.Coherent m.Provides depth plan)
    (made : ∀ field ∈ plan.fields, m.Makes (FieldPlan.decoder field) (FieldPlan.type field)) :
    m.MakesRecord plan := by
  intro data entries decoded
  obtain ⟨fields, expanded, holds⟩ := coherent.exists_row none
  have distinct := coherent.names_nodup
  have names : entries.map Prod.fst = plan.fields.map (·.name) :=
    Forall₂.map_eq_map decoded fun _ _ run => run.1
  have distinct' : (entries.map Prod.fst).Nodup := names ▸ distinct
  rw [Value.ofFields, Dictionary.ofList_eq_self distinct']
  refine .record expanded distinct' ?_ ?_
  · intro name
    rw [← not_iff_not, names, ← PlannedField.named?_eq_none, ← Dictionary.lookup_eq_none_iff,
      holds]
    exact Option.map_eq_none_iff.symm
  · intro name value type found typed
    obtain ⟨field, member, named, run⟩ :=
      Forall₂.exists_left decoded (Dictionary.mem_of_lookup found)
    obtain rfl : name = field.name := named
    have here : plan.field? field.name = some field :=
      PlannedField.named?_of_mem distinct member
    rw [holds, here] at typed
    obtain rfl := Option.some.inj typed
    exact made field member data value run

/-! ### Unions -/

/-- A union decoder makes the variants of the selected members. -/
theorem UnionPlan.makes {union : String} {members : List String}
    {variants : List (String × RecordPlan)} (selected : ∀ entry ∈ variants, entry.1 ∈ members)
    (made : ∀ entry ∈ variants, m.MakesRecord entry.2) :
    m.Makes (UnionPlan.decoder ⟨union, members, variants⟩)
      (UnionPlan.type ⟨union, members, variants⟩) := by
  intro data value decoded
  obtain ⟨tag, r, _, found, run⟩ := Decoder.run_union_eq_ok.mp decoded
  rw [UnionPlan.lookup_cases] at found
  obtain ⟨plan, chosen, rfl⟩ := Option.map_eq_some_iff.mp found
  obtain ⟨entries, rfl, fields⟩ := RecordPlan.run_decoder_eq_ok.mp run
  have member := Dictionary.mem_of_lookup chosen
  refine .variant ?_ (made _ member data entries fields)
  rw [unionArguments, Dictionary.lookup_map_self, if_pos (selected _ member),
    UnionPlan.lookup_types, chosen]
  rfl

mutual

/-- Every field of a plan whose fragments are declared is decoded to values of its type, whether it
is one of its own or comes from a fragment. -/
theorem RecordPlan.Coherent.makes :
    ∀ {depth plan}, RecordPlan.Coherent m.Provides depth plan → ∀ field ∈ plan.fields,
      m.Makes (FieldPlan.decoder field) (FieldPlan.type field)
  | _, _, .mk sources merged own planned positive below, field, member => by
      cases mine : field.isOwn with
      | true => exact (own field member mine).makes.readField field.wire field.layers
      | false =>
          obtain ⟨source, there, held, among, rfl⟩ := merged.exists_source member mine
          exact (below source there).makes held among

/-- What a field holds is decoded to values of its type. -/
theorem FieldKind.Coherent.makes :
    ∀ {depth kind}, FieldKind.Coherent m.Provides depth kind → m.Makes kind.decoder kind.type
  | _, _, .leaf scalar => .scalar scalar
  | _, _, .enum name => .enum name
  | _, _, .object coherent => by
      intro data value decoded
      obtain ⟨entries, rfl, fields⟩ := RecordPlan.run_decoder_eq_ok.mp decoded
      exact coherent.makesRecord coherent.makes data entries fields
  | _, _, .union _ selected variants =>
      UnionPlan.makes selected fun entry member =>
        (variants entry member).makesRecord (variants entry member).makes

end

/-- Whatever a response is, what is decoded from it inhabits the declared type of the result. -/
theorem Elm.Module.Plans.hasType {request : Request} {plan : RecordPlan}
    (plans : m.Plans request plan) {data : Json} {value : Value}
    (decoded : m.decodeResponse request.operationName data = .ok value) :
    m.HasType value (.named (Text.capitalize request.operationName)) := by
  obtain ⟨_, _, coherent⟩ := plans.coherent
  rw [Module.decodeResponse, plans.request_eq, Option.bind_some, plans.decoder_eq] at decoded
  obtain ⟨entries, rfl, fields⟩ := RecordPlan.run_decoder_eq_ok.mp decoded
  have record := coherent.makesRecord coherent.makes data entries fields
  apply Module.HasType.named plans.result_eq
  cases plan.spreads.isEmpty <;> exact record

end Making

/-- In a module that is generated from a text, in which names can be followed, whatever value of
JSON is decoded as the response to a request gives a value of the declared type of its result. -/
theorem generateFromText_decoded_hasType {schema : Schema} {text : String}
    {options : GenerationOptions} {m : Module}
    (generated : generateFromText schema text options = .ok m) (resolvable : m.Resolvable)
    {request : Request} (member : request ∈ m.requests) {data : Json} {value : Value}
    (decoded : m.decodeResponse request.operationName data = .ok value) :
    m.HasType value (.named (Text.capitalize request.operationName)) := by
  obtain ⟨plan, plans⟩ := generateFromText_plans generated resolvable member
  exact plans.hasType decoded

theorem hero_decoded_hasType : ∃ m, generateFromText heroSchema heroText heroOptions = .ok m ∧
    ∃ request ∈ m.requests, ∃ value,
      m.decodeResponse request.operationName heroResponse = .ok value ∧
        m.HasType value (.named (Text.capitalize request.operationName)) := by
  obtain ⟨m, generated, resolvable, request, member, value, decoded⟩ := exists_heroModule
  exact ⟨m, generated, request, member, value, decoded,
    generateFromText_decoded_hasType generated resolvable member decoded⟩

end ElmClient
