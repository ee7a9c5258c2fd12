/-
Module: ElmClient.Proofs.Response.Nullability
Purpose: What stands in a decoded response where the data is null or lacks a key. The decoders of
  generated modules have a regular form, and of these only records of optional fields decode null.
Main exports: Decoder.isSoftRecord, Decoder.Regular, Decoder.Regular.run_null,
  NullablePosition.Reached, NullablePosition.Reached.decodes, KindPlanned.regular,
  generate_nothing_iff
-/
import ElmClient.Proofs.Elm.Decoding
import ElmClient.Proofs.Generation.Provision

namespace ElmClient

open GraphQL (TypeRef Field Document)
open Elm

theorem Json.lookup?_eq_some {data held : Json} {wire : String} :
    data.lookup? wire = some held ↔
      ∃ entries, data = .object entries ∧ entries.lookup wire = some held := by
  cases data <;> simp [lookup?]

/-! ### The form of generated decoders -/

namespace Elm

/-- Whether a decoder takes every failure for nothing. -/
def Decoder.isOptional : Decoder → Bool
  | .optional _ => true
  | _ => false

/-- Whether a decoder is that of a record without any required field. -/
def Decoder.isSoftRecord : Decoder → Bool
  | .record r => r.fields.all fun field => field.2.isOptional
  | _ => false

/-- What a decoder is run on: a value that should be there, an item of a list, or an object of which
it reads a key. -/
inductive Decoder.Place where
  | value
  | item
  | key
deriving DecidableEq, Repr, Inhabited

/-- The decoders that generated modules run at a place. Only items and keys are optional, each of
them once, and the fields of a record have distinct names. -/
inductive Decoder.Regular : Place → Decoder → Prop where
  | scalar (s : Scalar) : Regular .value (.scalar s)
  | enum (name : String) : Regular .value (.enum name)
  | list {item} (regular : Regular .item item) : Regular .value (.list item)
  | record {constructor fields} (distinct : (fields.map Prod.fst).Nodup)
      (regular : ∀ field ∈ fields, Regular .key field.2) :
      Regular .value (.record ⟨constructor, fields⟩)
  | union {name cases} (regular : ∀ entry ∈ cases, Regular .value (.record entry.2)) :
      Regular .value (.union name cases)
  | requiredItem {decoder} (regular : Regular .value decoder) : Regular .item decoder
  | optionalItem {decoder} (regular : Regular .value decoder) : Regular .item (.optional decoder)
  | requiredKey {decoder} (wire : String) (regular : Regular .value decoder) :
      Regular .key (.field wire decoder)
  | optionalKey {decoder} (wire : String) (regular : Regular .value decoder) :
      Regular .key (.optional (.field wire decoder))

namespace Decoder.Regular

variable {place : Place}

theorem of_field {wire : String} {read : Decoder} (regular : Regular place (.field wire read)) :
    read.Regular .value := by
  cases regular with
  | requiredItem regular => cases regular
  | requiredKey _ regular => exact regular

theorem of_list {item : Decoder} (regular : Regular place (.list item)) : item.Regular .item := by
  cases regular with
  | list regular => exact regular
  | requiredItem regular =>
      cases regular with
      | list regular => exact regular

/-- Only a value or the reading of a key is optional. -/
theorem of_optional {inner : Decoder} (regular : Regular place (.optional inner)) :
    inner.Regular .value ∨ inner.Regular .key := by
  cases regular with
  | requiredItem regular => cases regular
  | optionalItem regular => exact Or.inl regular
  | optionalKey wire regular => exact Or.inr (.requiredKey wire regular)

theorem of_item {inner : Decoder} (regular : Regular .item (.optional inner)) :
    inner.Regular .value := by
  cases regular with
  | requiredItem regular => cases regular
  | optionalItem regular => exact regular

theorem of_record {constructor : Constructor} {fields : List (String × Decoder)}
    (regular : Regular place (.record ⟨constructor, fields⟩)) :
    (fields.map Prod.fst).Nodup ∧ ∀ field ∈ fields, Regular .key field.2 := by
  cases regular with
  | record distinct regular => exact ⟨distinct, regular⟩
  | requiredItem regular =>
      cases regular with
      | record distinct regular => exact ⟨distinct, regular⟩

theorem of_union {name : String} {cases : List (String × RecordDecoder)}
    (regular : Regular place (.union name cases)) :
    ∀ entry ∈ cases, Regular .value (.record entry.2) := by
  cases regular with
  | union regular => exact regular
  | requiredItem regular =>
      cases regular with
      | union regular => exact regular

end Decoder.Regular

section Null

variable {m : Module} {value : Value}

/-- A decoder of a key decodes null where it is optional, and then to nothing. -/
theorem Decoder.Regular.run_key_null {decoder : Decoder} (regular : decoder.Regular .key) :
    decoder.run m .null = .ok value ↔ decoder.isOptional = true ∧ value = .nothing := by
  have unread (wire : String) (read : Decoder) (decoded : Value) :
      (Decoder.field wire read).run m .null ≠ .ok decoded := by
    intro succeeded
    obtain ⟨_, _, same, _⟩ := decodeField_eq_ok.mp succeeded
    exact nomatch same
  cases regular with
  | requiredKey wire =>
      constructor
      · exact fun succeeded => absurd succeeded (unread wire _ value)
      · rintro ⟨soft, _⟩
        exact nomatch soft
  | optionalKey wire =>
      rw [Decoder.run_optional_eq_ok]
      constructor
      · rintro (⟨decoded, succeeded, _⟩ | ⟨_, rfl⟩)
        · exact absurd succeeded (unread wire _ decoded)
        · exact ⟨rfl, rfl⟩
      · rintro ⟨_, rfl⟩
        exact Or.inr ⟨unread wire _, rfl⟩

/-- The fields of a record are decoded from null where all of them are optional. -/
theorem Decoder.runFields_null {fields : List (String × Decoder)} {entries : List (String × Value)}
    (regular : ∀ field ∈ fields, Regular .key field.2) :
    runFields m fields .null = .ok entries ↔
      (fields.all fun field => field.2.isOptional) = true ∧
        entries = fields.map fun field => (field.1, .nothing) := by
  rw [runFields_eq_ok]
  induction fields generalizing entries with
  | nil => simp
  | cons field rest ih =>
      have here := regular field List.mem_cons_self
      have later := fun other member => regular other (List.mem_cons_of_mem _ member)
      rw [List.forall₂_cons_left_iff, List.all_cons, Bool.and_eq_true, List.map_cons]
      constructor
      · rintro ⟨⟨name, decoded⟩, others, ⟨rfl, succeeded⟩, after, rfl⟩
        obtain ⟨soft, rfl⟩ := here.run_key_null.mp succeeded
        obtain ⟨softs, rfl⟩ := (ih later).mp after
        exact ⟨⟨soft, softs⟩, rfl⟩
      · rintro ⟨⟨soft, softs⟩, rfl⟩
        exact ⟨_, _, ⟨rfl, here.run_key_null.mpr ⟨soft, rfl⟩⟩, (ih later).mpr ⟨softs, rfl⟩, rfl⟩

/-- Of the decoders of values only a record without required fields decodes null. -/
theorem Decoder.Regular.run_null {decoder : Decoder} (regular : decoder.Regular .value) :
    (∃ value, decoder.run m .null = .ok value) ↔ decoder.isSoftRecord = true := by
  cases regular with
  | scalar s =>
      constructor
      · rintro ⟨value, succeeded⟩
        cases Scalar.decode_eq_ok.mp succeeded
      · exact nofun
  | enum name =>
      constructor
      · rintro ⟨value, succeeded⟩
        obtain ⟨_, _, _, same, _⟩ := decodeEnum_eq_ok.mp succeeded
        exact nomatch same
      · exact nofun
  | list =>
      constructor
      · rintro ⟨value, succeeded⟩
        obtain ⟨_, _, same, _⟩ := Decoder.run_list_eq_ok.mp succeeded
        exact nomatch same
      · exact nofun
  | record distinct fields =>
      constructor
      · rintro ⟨value, succeeded⟩
        obtain ⟨entries, decoded, _⟩ := Decoder.runRecord_eq_ok.mp succeeded
        exact ((Decoder.runFields_null fields).mp decoded).1
      · intro soft
        have decoded := (Decoder.runFields_null (m := m) fields).mpr ⟨soft, rfl⟩
        exact ⟨_, Decoder.runRecord_eq_ok.mpr ⟨_, decoded, rfl⟩⟩
  | union =>
      constructor
      · rintro ⟨value, succeeded⟩
        obtain ⟨_, _, tagged, _⟩ := Decoder.run_union_eq_ok.mp succeeded
        obtain ⟨_, same, _⟩ := decodeTypename_eq_ok.mp tagged
        exact nomatch same
      · exact nofun

end Null

/-! ### Nullable positions of a run -/

/-- A position at which a run may come upon null: the decoder of what should be there otherwise, the
value of JSON that is there, if there is one, and the value that was decoded there. -/
structure NullablePosition where
  inner : Decoder
  found : Option Json
  result : Value
deriving Repr, Inhabited

namespace NullablePosition

/-- Decoding data to a value with a decoder reaches the position: a nullable or conditional field,
or a nullable item of a list, in what was decoded. Fields of a record all stand for the same data,
and an optional decoder leads further only where it did not fail. -/
inductive Reached (position : NullablePosition) : Decoder → Json → Value → Prop where
  | field {wire data} (found : data.lookup? wire = position.found) :
      Reached position (.optional (.field wire position.inner)) data position.result
  | item {items results json} (found : position.found = some json)
      (paired : (json, position.result) ∈ items.zip results) :
      Reached position (.list (.optional position.inner)) (.array items) (.list results)
  | insideOptional {inner data value} (inside : Reached position inner data value) :
      Reached position (.optional inner) data (.just value)
  | insideField {wire decoder data held value} (found : data.lookup? wire = some held)
      (inside : Reached position decoder held value) :
      Reached position (.field wire decoder) data value
  | insideItem {item items results json value} (paired : (json, value) ∈ items.zip results)
      (inside : Reached position item json value) :
      Reached position (.list item) (.array items) (.list results)
  | insideRecord {constructor fields name decoder data whole value}
      (member : (name, decoder) ∈ fields) (found : whole.get? name = some value)
      (inside : Reached position decoder data value) :
      Reached position (.record ⟨constructor, fields⟩) data whole
  | insideUnion {name cases tag r data value} (tagged : decodeTypename data = .ok tag)
      (chosen : cases.lookup tag = some r) (inside : Reached position (.record r) data value) :
      Reached position (.union name cases) data value

/-- What was decoded at the position is what the decoder of the position makes of what is there, or
nothing where it fails or nothing is there. -/
def Decodes (m : Module) (position : NullablePosition) : Prop :=
  (∃ json value, position.found = some json ∧ position.inner.run m json = .ok value ∧
      position.result = .just value) ∨
    (∀ json value, position.found = some json → position.inner.run m json ≠ .ok value) ∧
      position.result = .nothing

end NullablePosition

/-- The fields of a decoded record are found in it by their names, also inside a variant. -/
theorem Constructor.get?_apply {entries : List (String × Value)}
    (distinct : (entries.map Prod.fst).Nodup) (constructor : Constructor) (name : String) :
    (constructor.apply entries).get? name = entries.lookup name := by
  cases constructor <;> simp [apply, Value.ofFields, Dictionary.ofList_eq_self distinct, Value.get?]

section Positions

variable {m : Module} {position : NullablePosition}

theorem NullablePosition.decodes_of_item {json : Json}
    (found : position.found = some json)
    (decoded : (Decoder.optional position.inner).run m json = .ok position.result) :
    position.Decodes m := by
  rcases Decoder.run_optional_eq_ok.mp decoded with ⟨value, succeeded, made⟩ | ⟨failed, made⟩
  · exact Or.inl ⟨json, value, found, succeeded, made⟩
  · refine Or.inr ⟨?_, made⟩
    intro other value there
    obtain rfl := Option.some.inj (found.symm.trans there)
    exact failed value

theorem NullablePosition.decodes_of_key {wire : String} {data : Json}
    (found : data.lookup? wire = position.found)
    (decoded : (Decoder.optional (.field wire position.inner)).run m data = .ok position.result) :
    position.Decodes m := by
  rcases Decoder.run_optional_eq_ok.mp decoded with ⟨value, succeeded, made⟩ | ⟨failed, made⟩
  · obtain ⟨entries, held, rfl, there, read⟩ := decodeField_eq_ok.mp succeeded
    exact Or.inl ⟨held, value, found.symm.trans there, read, made⟩
  · refine Or.inr ⟨?_, made⟩
    intro held value there read
    obtain ⟨entries, rfl, stands⟩ := Json.lookup?_eq_some.mp (found.trans there)
    exact failed value (decodeField_eq_ok.mpr ⟨entries, held, rfl, stands, read⟩)

/-- A regular decoder has regular decoders at the nullable positions that a run of it reaches, and
what was decoded there came from them. -/
theorem NullablePosition.Reached.decodes {decoder : Decoder} {data : Json} {value : Value}
    (reached : position.Reached decoder data value) {place : Decoder.Place}
    (regular : decoder.Regular place) (decoded : decoder.run m data = .ok value) :
    position.inner.Regular .value ∧ position.Decodes m := by
  induction reached generalizing place with
  | field found =>
      refine ⟨?_, decodes_of_key found decoded⟩
      rcases regular.of_optional with misplaced | read
      · cases misplaced
      · exact read.of_field
  | item found paired =>
      obtain ⟨_, _, same, listed, each⟩ := Decoder.run_list_eq_ok.mp decoded
      obtain rfl := Json.array.inj same
      obtain rfl := Value.list.inj listed
      exact ⟨regular.of_list.of_item, decodes_of_item found (List.forall₂_zip each paired)⟩
  | insideOptional inside ih =>
      rcases Decoder.run_optional_eq_ok.mp decoded with ⟨_, succeeded, same⟩ | ⟨_, same⟩
      · obtain rfl := Value.just.inj same
        rcases regular.of_optional with inner | inner
        · exact ih inner succeeded
        · exact ih inner succeeded
      · exact nomatch same
  | insideField found inside ih =>
      obtain ⟨entries, held, rfl, there, read⟩ := decodeField_eq_ok.mp decoded
      obtain rfl := Option.some.inj (there.symm.trans found)
      exact ih regular.of_field read
  | insideItem paired inside ih =>
      obtain ⟨_, _, same, listed, each⟩ := Decoder.run_list_eq_ok.mp decoded
      obtain rfl := Json.array.inj same
      obtain rfl := Value.list.inj listed
      exact ih regular.of_list (List.forall₂_zip each paired)
  | insideRecord member found inside ih =>
      obtain ⟨entries, succeeded, rfl⟩ := Decoder.runRecord_eq_ok.mp decoded
      obtain ⟨distinct, keys⟩ := regular.of_record
      have each := Decoder.runFields_eq_ok.mp succeeded
      have names : entries.map Prod.fst = _ := Forall₂.map_eq_map each fun _ _ run => run.1
      rw [Constructor.get?_apply (names ▸ distinct)] at found
      -- No name repeats, so the value under the name is that of the field which is followed.
      obtain ⟨⟨_, run⟩, there, rfl, succeeded⟩ :=
        Forall₂.exists_left each (Dictionary.mem_of_lookup found)
      have chosen := Dictionary.lookup_of_mem distinct member
      obtain rfl := Option.some.inj (chosen.symm.trans (Dictionary.lookup_of_mem distinct there))
      exact ih (keys _ member) succeeded
  | insideUnion tagged chosen inside ih =>
      obtain ⟨tag, r, tagged', chosen', run⟩ := Decoder.run_union_eq_ok.mp decoded
      obtain rfl := Except.ok.inj (tagged.symm.trans tagged')
      obtain rfl := Option.some.inj (chosen.symm.trans chosen')
      exact ih (regular.of_union _ (Dictionary.mem_of_lookup chosen)) run

/-- Where null or nothing is there, the result is nothing, save that null is decoded as a record
where no field of the record is required. -/
theorem NullablePosition.Decodes.nothing_iff (decodes : position.Decodes m)
    (regular : position.inner.Regular .value)
    (gone : position.found = none ∨ position.found = some .null) :
    position.result = .nothing ↔
      ¬ (position.found = some .null ∧ position.inner.isSoftRecord = true) := by
  rw [← regular.run_null (m := m)]
  rcases decodes with ⟨json, value, there, succeeded, made⟩ | ⟨failed, made⟩
  · obtain rfl : json = .null := by
      rcases gone with absent | null
      · exact nomatch absent.symm.trans there
      · exact Option.some.inj (there.symm.trans null)
    rw [made]
    constructor
    · exact nofun
    · exact fun rejected => absurd ⟨there, value, succeeded⟩ rejected
  · refine ⟨?_, fun _ => made⟩
    rintro _ ⟨null, value, succeeded⟩
    exact failed _ value null succeeded

end Positions

end Elm

/-! ### The decoders of plans are regular -/

theorem Elm.Decoder.Regular.item_wrap {decoder : Decoder} (regular : decoder.Regular .value) :
    ∀ type : TypeRef, Decoder.Regular .item (Decoder.wrap type.layers decoder)
  | .named _ => .optionalItem regular
  | .list item => .optionalItem (.list (regular.item_wrap item))
  | .nonNull (.named _) => .requiredItem regular
  | .nonNull (.list item) => .requiredItem (.list (regular.item_wrap item))
  | .nonNull (.nonNull _) => .requiredItem regular

theorem Elm.Decoder.Regular.value_wrap {decoder : Decoder} (regular : decoder.Regular .value) :
    ∀ type : TypeRef,
      Decoder.Regular .value (Decoder.wrap (Layer.makeRequired type.layers) decoder)
  | .named _ => regular
  | .list item => .list (regular.item_wrap item)
  | .nonNull (.named _) => regular
  | .nonNull (.list item) => .list (regular.item_wrap item)
  | .nonNull (.nonNull _) => regular

/-- A selected field has a regular decoder where what it holds has one. -/
theorem GraphQL.Field.regular_planned (field : Field) (type : TypeRef) {kind : FieldKind}
    (regular : kind.decoder.Regular .value) :
    Decoder.Regular .key (FieldPlan.decoder (field.planned type kind)) := by
  have layers : Layer.makeRequired (field.layers type) = Layer.makeRequired type.layers := by
    unfold GraphQL.Field.layers
    split
    · exact Layer.makeRequired_makeOptional _
    · rfl
  have read := regular.value_wrap type
  rw [← layers] at read
  change Decoder.Regular .key (readField field.responseKey (field.layers type) kind.decoder)
  unfold readField
  split
  · exact .optionalKey _ read
  · exact .requiredKey _ read

/-- A plan whose record decoders are regular. -/
structure RecordPlan.Regular (plan : RecordPlan) : Prop where
  names_nodup : (plan.fields.map (·.name)).Nodup
  fields : ∀ field ∈ plan.fields, Decoder.Regular .key (FieldPlan.decoder field)

namespace RecordPlan.Regular

theorem empty : RecordPlan.Regular {} :=
  ⟨List.nodup_nil, fun _ absent => absurd absent List.not_mem_nil⟩

theorem absorb {plan later : RecordPlan} (earlier : Regular plan) (added : Regular later) :
    Regular (RecordPlanOf.absorb plan later) where
  names_nodup := RecordPlanOf.nodup_name_absorb later earlier.names_nodup
  fields field member := by
    rcases RecordPlanOf.mem_absorb member with old | new
    · exact earlier.fields field old
    · exact added.fields field new

theorem push {plan : RecordPlan} {field : FieldPlan} (earlier : Regular plan)
    (added : Decoder.Regular .key (FieldPlan.decoder field)) :
    Regular (RecordPlanOf.push plan field) where
  names_nodup := RecordPlanOf.nodup_name_absorb (.ofField field) earlier.names_nodup
  fields held member := by
    rcases RecordPlanOf.mem_push member with old | rfl
    · exact earlier.fields held old
    · exact added

theorem pushSpread {plan given : RecordPlan} {fragment : String} (earlier : Regular plan)
    (added : Regular given) : Regular (RecordPlanOf.pushSpread plan fragment given) where
  names_nodup := by
    rw [RecordPlanOf.pushSpread_eq_absorb]
    exact RecordPlanOf.nodup_name_absorb _ earlier.names_nodup
  fields held member := by
    rcases RecordPlanOf.mem_pushSpread member with old | ⟨field, there, rfl⟩
    · exact earlier.fields held old
    · exact added.fields field there

theorem addVariant {member : String} {later : RecordPlan} {variants : List (String × RecordPlan)}
    (earlier : ∀ entry ∈ variants, Regular entry.2) (added : Regular later) :
    ∀ entry ∈ UnionPlanOf.addVariant member later variants, Regular entry.2 := by
  intro entry there
  rcases UnionPlanOf.mem_addVariant there with old | rfl | ⟨held, old, rfl⟩
  · exact earlier entry old
  · exact added
  · exact (earlier _ old).absorb added

theorem decoder {plan : RecordPlan} (regular : Regular plan) (constructor : Elm.Constructor) :
    Decoder.Regular .value (.record (RecordPlan.decoder constructor plan)) := by
  rw [RecordPlan.decoder_eq, FieldPlan.decoders_eq]
  refine .record ?_ ?_
  · rw [List.map_map]
    exact regular.names_nodup
  · intro entry member
    obtain ⟨field, there, rfl⟩ := List.mem_map.mp member
    exact regular.fields field there

end RecordPlan.Regular

mutual

/-- Planning selections on a type with fields keeps a plan regular. -/
theorem RecordPlanned.regular {bound : BoundDocument} :
    ∀ {active on selections plan result}, RecordPlanned bound active on selections plan result →
      RecordPlan.Regular plan → RecordPlan.Regular result
  | _, _, _, _, _, .nil, regular => regular
  | _, _, _, _, _, .field _ below after, regular =>
      after.regular (regular.push (GraphQL.Field.regular_planned _ _ below.regular))
  | _, _, _, _, _, .spread _ _ expanded after, regular =>
      after.regular (regular.pushSpread (expanded.regular .empty))

/-- What a field holds has a regular decoder. -/
theorem KindPlanned.regular {bound : BoundDocument} :
    ∀ {active type selections kind}, KindPlanned bound active type selections kind →
      kind.decoder.Regular .value
  | _, _, _, _, .leaf _ => .scalar _
  | _, _, _, _, .enum _ => .enum _
  | _, _, _, _, .object _ _ planned => (planned.regular .empty).decoder .anonymous
  | _, type, _, _, .union _ _ planned _ => by
      have variants := planned.regular fun _ absent => absurd absent List.not_mem_nil
      apply Decoder.Regular.union
      intro entry member
      rw [UnionPlan.cases_eq] at member
      obtain ⟨variant, there, rfl⟩ := List.mem_map.mp member
      exact (variants variant there).decoder _

/-- Planning selections on a union keeps the plans of its members regular. -/
theorem UnionPlanned.regular {bound : BoundDocument} :
    ∀ {active union members selections draft result},
      UnionPlanned bound active union members selections draft result →
      (∀ entry ∈ draft.variants, RecordPlan.Regular entry.2) →
      ∀ entry ∈ result.variants, RecordPlan.Regular entry.2
  | _, _, _, _, _, _, .nil, regular => regular
  | _, _, _, _, _, _, .typename _ after, regular => after.regular regular
  | _, _, _, _, _, _, .inline _ _ _ planned after, regular =>
      after.regular (.addVariant regular (planned.regular .empty))
  | _, _, _, _, _, _, .merge _ _ expanded after, regular =>
      after.regular (expanded.regular regular)
  | _, _, _, _, _, _, .member _ _ _ _ expanded after, regular =>
      after.regular
        (.addVariant regular (RecordPlan.Regular.empty.pushSpread (expanded.regular .empty)))

end

/-- The decoders that a module declares for a document are regular. -/
theorem BoundDocument.Declares.regular_of_mem {bound : BoundDocument} {m : Module}
    {inventory : Inventory} {plans : List (String × SelectionPlan)}
    {clients : List OperationClient} (declares : bound.Declares m inventory plans clients) :
    ∀ entry ∈ m.decoders, entry.2.Regular .value := by
  rw [declares.decoders]
  intro entry member
  obtain ⟨client, there, rfl⟩ := List.mem_map.mp member
  obtain ⟨operation, _, made⟩ := Forall₂.exists_left declares.made there
  obtain ⟨plan, planned, _, derived⟩ := made.planned
  obtain ⟨root, _, selected⟩ := operationPlanned planned
  rw [derived]
  exact (selected.regular .empty).decoder _

/-- A decoder that is found in a module is regular. -/
theorem BoundDocument.Declares.regular {bound : BoundDocument} {m : Module} {inventory : Inventory}
    {plans : List (String × SelectionPlan)} {clients : List OperationClient}
    (declares : bound.Declares m inventory plans clients) {name : String} {decoder : Decoder}
    (declared : m.decoder name = some decoder) : decoder.Regular .value :=
  declares.regular_of_mem (name, decoder) (Dictionary.mem_of_lookup declared)

/-- At the nullable positions of a response that a generated module decodes, null and missing keys
give nothing, with one exception: null is decoded where a record is expected all of whose fields are
nullable or conditional themselves. -/
theorem generate_nothing_iff {schema : Schema} {document : Document} {options : GenerationOptions}
    {m : Module} (generated : generate schema document options = .ok m) {operation : String}
    {request : Request} (requested : m.request operation = some request) {decoder : Decoder}
    (declared : m.decoder request.decoderName = some decoder) {data : Json} {value : Elm.Value}
    (decoded : m.decodeResponse operation data = .ok value) {position : NullablePosition}
    (reached : position.Reached decoder data value)
    (gone : position.found = none ∨ position.found = some .null) :
    position.result = .nothing ↔
      ¬ (position.found = some .null ∧ position.inner.isSoftRecord = true) := by
  obtain ⟨bound, _, _, _, _, declares⟩ := generate_declares generated
  simp only [Module.decodeResponse, requested, Option.bind_some, declared] at decoded
  obtain ⟨regular, decodes⟩ := reached.decodes (declares.regular declared) decoded
  exact decodes.nothing_iff regular gone

/-! ### A hero that is null

The document about a hero asks for a name, which may be missing, and for nothing else. A hero that
is null is therefore decoded as a hero without a name. -/

/-- The decoder of a hero. -/
def heroRecord : RecordDecoder :=
  ⟨.anonymous, [("name", .optional (.field "name" (.scalar .string)))]⟩

/-- The decoder of the document. -/
def heroDecoder : Decoder :=
  .record ⟨.recordAlias "Q", [("hero", .optional (.field "hero" (.record heroRecord)))]⟩

/-- The position of the hero in a response without one. -/
def nullHero : NullablePosition where
  inner := .record heroRecord
  found := some .null
  result := .just (.record [("name", .nothing)])

theorem exists_heroDecoder : ∃ m request, generate heroSchema heroDocument heroOptions = .ok m ∧
    m.request "Q" = some request ∧ m.decoder request.decoderName = some heroDecoder := by
  have evaluated : ((generate heroSchema heroDocument heroOptions).toOption.bind fun m =>
      (m.request "Q").bind fun request => m.decoder request.decoderName) = some heroDecoder := by
    rfl
  obtain ⟨m, generated, found⟩ := Option.bind_eq_some_iff.mp evaluated
  obtain ⟨request, requested, declared⟩ := Option.bind_eq_some_iff.mp found
  refine ⟨m, request, ?_, requested, declared⟩
  cases made : generate heroSchema heroDocument heroOptions with
  | error cause =>
      rw [made] at generated
      exact nomatch generated
  | ok other =>
      rw [made] at generated
      exact congrArg Except.ok (Option.some.inj generated)

theorem nullHero_reached : nullHero.Reached heroDecoder (.object [("hero", .null)])
    (.record [("hero", nullHero.result)]) :=
  .insideRecord List.mem_cons_self rfl (.field rfl)

theorem nullHero_not_nothing : ∃ m, generate heroSchema heroDocument heroOptions = .ok m ∧
    m.decodeResponse "Q" (.object [("hero", .null)]) = .ok (.record [("hero", nullHero.result)]) ∧
      (nullHero.result = .nothing ↔
        ¬ (nullHero.found = some .null ∧ nullHero.inner.isSoftRecord = true)) := by
  obtain ⟨m, request, generated, requested, declared⟩ := exists_heroDecoder
  have decoded : m.decodeResponse "Q" (.object [("hero", .null)]) =
      .ok (.record [("hero", nullHero.result)]) := by
    simp only [Module.decodeResponse, requested, Option.bind_some, declared]
    rfl
  exact ⟨m, generated, decoded, generate_nothing_iff generated requested declared decoded
    nullHero_reached (Or.inr rfl)⟩

end ElmClient
