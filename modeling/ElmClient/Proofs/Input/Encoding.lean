/-
Module: ElmClient.Proofs.Input.Encoding
Purpose: Parameters of the declared types are always encoded, and what is sent conforms to the
  schema: the variables of the operation and no others, each with a value that its type admits. The
  types and the encoders are cut at the same references, where a value goes on in a constructor of
  its own, so the proof goes along the value and not along the schema.
Main exports: Module.Inhabits, Schema.Admits, InputForm.encodes, generate_variables_encoded
-/
import ElmClient.Elm.Encoding
import ElmClient.Proofs.Input.Agreement
import ElmClient.Proofs.Inventory.Enumerations

namespace ElmClient

open GraphQL (Document Operation TypeRef)
open Elm

/-! ### Values of the declared types -/

namespace Elm

/-- The values of a scalar. JSON has no notation for a number that is not finite. -/
inductive Scalar.Holds : Scalar → Value → Prop where
  | int (n : Int) : Holds .int (.int n)
  | float (x : Binary64) (finite : x.isFinite = true) : Holds .float (.float x)
  | bool (b : Bool) : Holds .bool (.bool b)
  | string (s : String) : Holds .string (.string s)
  | posix (milliseconds : Int) : Holds .posix (.posix milliseconds)

/-- The values of a type in a module. A tag is that of a declared case, a record has the names of
its type, and a name is that of an alias or of a custom type, whose values stand in a constructor. -/
inductive Module.Inhabits (m : Module) : Value → TypeExpr → Prop where
  | scalar {scalar value} (held : scalar.Holds value) : Inhabits m value (.scalar scalar)
  | tag {enum declaration enumCase} (found : m.enum enum = some declaration)
      (declared : enumCase ∈ declaration.cases) :
      Inhabits m (.tag enumCase.constructor) (.enum enum)
  | nothing (inner : TypeExpr) : Inhabits m .nothing (.optional inner)
  | just {value inner} (typed : Inhabits m value inner) : Inhabits m (.just value) (.optional inner)
  | list {items item} (typed : ∀ value ∈ items, Inhabits m value item) :
      Inhabits m (.list items) (.list item)
  | record {fields entries row}
      (names : ∀ name, name ∈ entries.map Prod.fst ↔ name ∈ fields.map Prod.fst)
      (typed : ∀ name value type, entries.lookup name = some value → (name, type) ∈ fields →
        Inhabits m value type) :
      Inhabits m (.record entries) (.record fields row)
  | named {name type value} (found : m.aliasType name = some type) (typed : Inhabits m value type) :
      Inhabits m value (.named name)
  | wrapped {type constructor payload argument} (declared : type ∈ m.customTypes)
      (among : (constructor, [argument]) ∈ type.constructors)
      (typed : Inhabits m payload argument) :
      Inhabits m (.variant constructor payload) (.named type.name)
  | member {union arguments member payload argument} (among : (member, argument) ∈ arguments)
      (typed : Inhabits m payload argument) :
      Inhabits m (.variant (Name.unionConstructor union member) payload) (.union union arguments)

end Elm

/-! ### Values that a schema admits -/

/-- The JSON values of a scalar that are sent. -/
inductive AdmitsScalar : Scalar → Json → Prop where
  | int (n : Int) : AdmitsScalar .int (.number (.integer n))
  | float (x : Binary64) (finite : x.isFinite = true) : AdmitsScalar .float (.number (.float x))
  | bool (b : Bool) : AdmitsScalar .bool (.bool b)
  | string (s : String) : AdmitsScalar .string (.string s)
  | posix (milliseconds : Int) : AdmitsScalar .posix (.number (.integer milliseconds))

/-- The JSON values that can be sent for a reference to a type. Only what is not marked as non-null
may be null; an object has exactly the declared fields, and a mark directly inside a mark is no
type. -/
inductive Schema.Admits (schema : Schema) : TypeRef → Json → Prop where
  | null {type} (nullable : type.isNonNull = false) : Admits schema type .null
  | nonNull {type value} (once : type.isNonNull = false) (present : value ≠ .null)
      (admitted : Admits schema type value) : Admits schema (.nonNull type) value
  | list {item items} (admitted : ∀ value ∈ items, Admits schema item value) :
      Admits schema (.list item) (.array items)
  | scalar {name value} (leaf : schema.get? name = none ∨ schema.get? name = some .scalar)
      (admitted : AdmitsScalar (.ofName name) value) : Admits schema (.named name) value
  | enum {name values wire} (body : schema.get? name = some (.enum values))
      (declared : wire ∈ values) : Admits schema (.named name) (.string wire)
  | object {name fields entries} (held : schema.fields? name = some fields)
      (distinct : (entries.map Prod.fst).Nodup)
      (names : ∀ key, key ∈ entries.map Prod.fst ↔ key ∈ fields.map Prod.fst)
      (admitted : ∀ key type value, (key, type) ∈ fields → entries.lookup key = some value →
        Admits schema type value) :
      Admits schema (.named name) (.object entries)

/-- What a marked reference admits, the reference admits. -/
theorem Schema.Admits.of_nonNull {schema : Schema} {type : TypeRef} {value : Json}
    (admitted : schema.Admits (.nonNull type) value) : schema.Admits type value := by
  cases admitted with
  | null nullable => exact absurd nullable (Bool.false_ne_true ∘ Eq.symm)
  | nonNull _ _ admitted => exact admitted

/-- The type of a variable of a name. One that is defined again has the type of its last
definition. -/
def GraphQL.Operation.variableType? (operation : Operation) (name : String) : Option TypeRef :=
  (operation.definitions.map fun definition => (definition.name, definition.type)).reverse.lookup
    name

/-! ### Encoding -/

section Encoding

variable {m : Module} {schema : Schema} {cycles : List String}

theorem Elm.Value.lookup_fieldEncoders (entries : List (String × Value)) (name : String) :
    (Value.fieldEncoders m entries).lookup name =
      (entries.lookup name).map fun value encoder => value.encode m encoder := by
  induction entries with
  | nil => rfl
  | cons first rest ih =>
      obtain ⟨key, value⟩ := first
      by_cases same : name = key
      · subst same
        rw [Value.fieldEncoders, List.lookup_cons_self, List.lookup_cons_self, Option.map_some]
      · rw [Value.fieldEncoders, Dictionary.lookup_cons_of_ne same,
          Dictionary.lookup_cons_of_ne same, ih]

theorem Elm.Value.encodeItems_ok {encoder : Encoder} {property : Json → Prop} {items : List Value}
    (each : ∀ value ∈ items, ∃ json, value.encode m encoder = .ok json ∧ property json) :
    ∃ jsons, Value.encodeItems m items encoder = .ok jsons ∧ ∀ json ∈ jsons, property json := by
  induction items with
  | nil => exact ⟨[], rfl, by simp⟩
  | cons first rest ih =>
      have ⟨here, later⟩ := List.forall_mem_cons.mp each
      obtain ⟨json, encoded, holds⟩ := here
      obtain ⟨jsons, others, all⟩ := ih later
      refine ⟨json :: jsons, ?_, List.forall_mem_cons.mpr ⟨holds, all⟩⟩
      simp only [Value.encodeItems, encoded, others]
      rfl

/-- A value of a scalar is encoded as the scalar. -/
theorem Elm.Scalar.Holds.encodes {scalar : Scalar} {value : Value} (held : scalar.Holds value) :
    ∃ json, value.encode m (.scalar scalar) = .ok json ∧ json ≠ .null ∧
      AdmitsScalar scalar json := by
  cases held with
  | int n => exact ⟨_, rfl, nofun, .int n⟩
  | float x finite =>
      exact ⟨.number (.float x), if_pos finite, nofun, .float x finite⟩
  | bool b => exact ⟨_, rfl, nofun, .bool b⟩
  | string s => exact ⟨_, rfl, nofun, .string s⟩
  | posix milliseconds => exact ⟨_, rfl, nofun, .posix milliseconds⟩

/-- A constructor of an enumeration of the schema is encoded as one of its values. -/
theorem encodeTag_of_mem {name : String} {values : List String} {enumCase : EnumCase}
    (found : m.enum name = some (.ofValues name values))
    (declared : enumCase ∈ (EnumDeclaration.ofValues name values).cases) :
    ∃ wire ∈ values, encodeTag m name enumCase.constructor = .string wire := by
  have there : ((EnumDeclaration.ofValues name values).cases.find?
      (·.constructor == enumCase.constructor)).isSome = true :=
    List.find?_isSome.mpr ⟨enumCase, declared, beq_self_eq_true _⟩
  obtain ⟨held, first⟩ := Option.isSome_iff_exists.mp there
  obtain ⟨wire, known, same⟩ := List.mem_map.mp (List.mem_of_find?_eq_some first)
  refine ⟨wire, known, ?_⟩
  rw [encodeTag, found, Option.bind_some, first, ← same]

/-- What the encoders of a module rely on below a type of the schema: no field leads to a union, and
every enumeration to which fields lead is declared with its values. -/
def Elm.Module.Sends (m : Module) (schema : Schema) (name : String) : Prop :=
  schema.UnionFree name ∧ ∀ target values, schema.Reaches name target →
    schema.get? target = some (.enum values) → m.enum target = some (.ofValues target values)

theorem Elm.Module.Sends.field {name : String} {fields : List (String × TypeRef)}
    {field : String × TypeRef} (sends : m.Sends schema name)
    (held : schema.fields? name = some fields) (member : field ∈ fields) :
    m.Sends schema field.2.name :=
  ⟨sends.1.field held member,
    fun target values later => sends.2 target values (.field held member later)⟩

/-- How an input type that contains itself is declared: under its capitalized name stands a custom
type with one constructor, and no alias, and under its own name an encoder of the form of the
record. -/
def Elm.Module.DeclaresInput (m : Module) (schema : Schema) (cycles : List String)
    (input : String) : Prop :=
  ∃ record object, m.encoder input = some object ∧
    m.aliasType (Text.capitalize input) = none ∧
      (∀ type ∈ m.customTypes, type.name = Text.capitalize input →
        type.constructors = [(Text.capitalize input, [record])]) ∧
        InputObject schema cycles input record object

/-- A type without layers. -/
def Elm.TypeExpr.isBare : TypeExpr → Bool
  | .optional _ | .list _ => false
  | _ => true

theorem InputForm.isBare {name : String} {type : TypeExpr} {encoder : Encoder}
    (form : InputForm schema cycles name type encoder) : type.isBare = true := by
  cases form <;> rfl

/-- A value is encoded by the encoder of every form of its type, and the schema admits the result,
which is not null. -/
def EncodesBare (m : Module) (schema : Schema) (cycles : List String) (value : Value)
    (type : TypeExpr) : Prop :=
  ∀ name encoder, InputForm schema cycles name type encoder → m.Sends schema name →
    ∃ json, value.encode m encoder = .ok json ∧ json ≠ .null ∧ schema.Admits (.named name) json

/-- A value of a type in layers is encoded by the encoder in the same layers, and the schema admits
the result for the reference that the layers come from. -/
def EncodesLayered (m : Module) (schema : Schema) (cycles : List String) (value : Value)
    (type : TypeExpr) : Prop :=
  ∀ (ref : TypeRef) elm encoder, type = TypeExpr.wrap ref.layers elm → ref.isProper = true →
    InputForm schema cycles ref.name elm encoder → m.Sends schema ref.name →
      ∃ json, value.encode m (Encoder.wrap ref.layers encoder) = .ok json ∧ schema.Admits ref json

/-- A reference without a mark has one optional layer more than the marked one. -/
theorem layers_of_nullable : ∀ {ref : TypeRef}, ref.isNonNull = false →
    ref.layers = .optional :: (TypeRef.nonNull ref).layers
  | .named _, _ => rfl
  | .list _, _ => rfl
  | .nonNull _, marked => absurd marked Bool.true_eq_false.mp

/-- A type without layers comes from a reference that is a marked name. -/
theorem wrap_eq_bare : ∀ {ref : TypeRef} {elm type : TypeExpr}, ref.isProper = true →
    type.isBare = true → TypeExpr.wrap ref.layers elm = type →
      ref = .nonNull (.named ref.name) ∧ elm = type
  | .nonNull (.named _), _, _, _, _, same => ⟨rfl, same⟩
  | .nonNull (.nonNull _), _, _, proper, _, _ => nomatch proper
  | .named _, _, _, _, bare, same => by
      rw [← same] at bare
      exact absurd bare Bool.false_ne_true
  | .list _, _, _, _, bare, same => by
      rw [← same] at bare
      exact absurd bare Bool.false_ne_true
  | .nonNull (.list _), _, _, _, bare, same => by
      rw [← same] at bare
      exact absurd bare Bool.false_ne_true

/-- An optional type comes from a reference without a mark. -/
theorem wrap_eq_optional : ∀ {ref : TypeRef} {elm inner : TypeExpr}, ref.isProper = true →
    elm.isBare = true → TypeExpr.wrap ref.layers elm = .optional inner →
      ref.isNonNull = false ∧ TypeExpr.wrap (TypeRef.nonNull ref).layers elm = inner
  | .named _, _, _, _, _, same => ⟨rfl, TypeExpr.optional.inj same⟩
  | .list _, _, _, _, _, same => ⟨rfl, TypeExpr.optional.inj same⟩
  | .nonNull (.nonNull _), _, _, proper, _, _ => nomatch proper
  | .nonNull (.list _), _, _, _, _, same => nomatch same
  | .nonNull (.named _), _, _, _, bare, same => by
      obtain rfl := same
      exact absurd bare Bool.false_ne_true

/-- A list comes from a reference that is a marked list. -/
theorem wrap_eq_list : ∀ {ref : TypeRef} {elm item : TypeExpr}, ref.isProper = true →
    elm.isBare = true → TypeExpr.wrap ref.layers elm = .list item →
      ∃ below, ref = .nonNull (.list below) ∧ TypeExpr.wrap below.layers elm = item
  | .nonNull (.list below), _, _, _, _, same => ⟨below, rfl, TypeExpr.list.inj same⟩
  | .nonNull (.nonNull _), _, _, proper, _, _ => nomatch proper
  | .named _, _, _, _, _, same => nomatch same
  | .list _, _, _, _, _, same => nomatch same
  | .nonNull (.named _), _, _, _, bare, same => by
      obtain rfl := same
      exact absurd bare Bool.false_ne_true

/-- What is encoded for a type without layers is encoded for the reference that it comes from. -/
theorem EncodesBare.layered {value : Value} {type : TypeExpr} (bare : type.isBare = true)
    (encodes : EncodesBare m schema cycles value type) :
    EncodesLayered m schema cycles value type := by
  intro ref elm encoder same proper form sends
  obtain ⟨named, rfl⟩ := wrap_eq_bare proper bare same.symm
  obtain ⟨json, encoded, present, admitted⟩ := encodes ref.name encoder form sends
  rw [named]
  exact ⟨json, encoded, .nonNull rfl present admitted⟩

/-- Fields of one form are encoded under the keys of the schema, one by one. -/
theorem encodeFields_ok {entries : List (String × Value)} {slots : List InputSlot}
    {property : TypeRef → Json → Prop}
    (each : ∀ slot ∈ slots, ∃ value json, entries.lookup (Name.safe slot.name) = some value ∧
      value.encode m slot.encoded.encoder = .ok json ∧ property slot.type json) :
    ∃ jsons, encodeFields (slots.map InputSlot.encoded) (Value.fieldEncoders m entries) =
      .ok jsons ∧ List.Forall₂ (fun slot (entry : String × Json) =>
        entry.1 = slot.name ∧ property slot.type entry.2) slots jsons := by
  induction slots with
  | nil => exact ⟨[], rfl, .nil⟩
  | cons first rest ih =>
      have ⟨here, later⟩ := List.forall_mem_cons.mp each
      obtain ⟨value, json, held, encoded, holds⟩ := here
      obtain ⟨jsons, others, all⟩ := ih later
      refine ⟨(first.name, json) :: jsons, ?_, .cons ⟨rfl, holds⟩ all⟩
      refine Except.mapM_eq_ok.mpr (.cons ?_ (Except.mapM_eq_ok.mp others))
      have found : (Value.fieldEncoders m entries).lookup first.encoded.name =
          some fun encoder => value.encode m encoder := by
        rw [Value.lookup_fieldEncoders]
        exact congrArg (Option.map _) held
      simp only [found, encoded]
      rfl

/-- Entries for the slots of an object are the entries of the object, and the schema admits them. -/
theorem InputObject.admits {name : String} {slots : List InputSlot}
    (wellFormed : schema.WellFormed)
    (held : schema.fields? name = some (slots.map InputSlot.declared))
    {entries : List (String × Json)}
    (each : List.Forall₂ (fun slot (entry : String × Json) =>
      entry.1 = slot.name ∧ schema.Admits slot.type entry.2) slots entries) :
    schema.Admits (.named name) (jsonObject entries) := by
  have names : entries.map Prod.fst = (slots.map InputSlot.declared).map Prod.fst := by
    rw [List.map_map]
    exact Forall₂.map_eq_map each fun _ _ both => both.1
  have distinct : (entries.map Prod.fst).Nodup := names ▸ (wellFormed.fields held).1
  rw [jsonObject, Dictionary.ofList_eq_self distinct]
  refine .object held distinct (fun key => by rw [names]) ?_
  intro key type value declared found
  obtain ⟨slot, among, same, admitted⟩ :=
    Forall₂.exists_left each (Dictionary.mem_of_lookup found)
  have here : slot.declared ∈ slots.map InputSlot.declared := List.mem_map_of_mem among
  have unique := List.inj_on_of_nodup_map (wellFormed.fields held).1 declared here same
  obtain rfl : type = slot.type := congrArg Prod.snd unique
  exact admitted

section Forms

variable {value : Value} {type : TypeExpr}

theorem EncodesBare.both (bare : type.isBare = true)
    (encodes : EncodesBare m schema cycles value type) :
    EncodesBare m schema cycles value type ∧ EncodesLayered m schema cycles value type :=
  ⟨encodes, encodes.layered bare⟩

/-- No input type has the form of a type in layers. -/
theorem EncodesLayered.both (layered : type.isBare = false)
    (encodes : EncodesLayered m schema cycles value type) :
    EncodesBare m schema cycles value type ∧ EncodesLayered m schema cycles value type :=
  ⟨fun _ _ form => absurd form.isBare (Bool.eq_false_iff.mp layered), encodes⟩

theorem EncodesBare.scalar {scalar : Scalar} (held : scalar.Holds value) :
    EncodesBare m schema cycles value (.scalar scalar) := by
  intro name encoder form sends
  generalize same : TypeExpr.scalar scalar = type at form
  cases form with
  | scalar leaf =>
      obtain rfl := TypeExpr.scalar.inj same
      obtain ⟨json, encoded, present, admitted⟩ := held.encodes
      exact ⟨json, encoded, present, .scalar leaf admitted⟩
  | enum | union | cut | object => exact nomatch same

theorem EncodesBare.tag {enum : String} {declaration : EnumDeclaration} {enumCase : EnumCase}
    (found : m.enum enum = some declaration) (declared : enumCase ∈ declaration.cases) :
    EncodesBare m schema cycles (.tag enumCase.constructor) (.enum enum) := by
  intro name encoder form sends
  cases form with
  | enum body =>
      obtain rfl := Option.some.inj (found.symm.trans (sends.2 _ _ (.refl _) body))
      obtain ⟨wire, known, encoded⟩ := encodeTag_of_mem found declared
      exact ⟨.string wire, congrArg Except.ok encoded, nofun, .enum body known⟩

theorem EncodesLayered.nothing (inner : TypeExpr) :
    EncodesLayered m schema cycles .nothing (.optional inner) := by
  intro ref elm encoder same proper form sends
  obtain ⟨nullable, _⟩ := wrap_eq_optional proper form.isBare same.symm
  rw [layers_of_nullable nullable]
  exact ⟨.null, rfl, .null nullable⟩

theorem EncodesLayered.just (below : EncodesLayered m schema cycles value type) :
    EncodesLayered m schema cycles (.just value) (.optional type) := by
  intro ref elm encoder same proper form sends
  obtain ⟨nullable, inside⟩ := wrap_eq_optional proper form.isBare same.symm
  have marked : (TypeRef.nonNull ref).isProper = true := by
    show (!ref.isNonNull && ref.isProper) = true
    rw [nullable, proper]
    rfl
  obtain ⟨json, encoded, admitted⟩ := below (.nonNull ref) elm encoder inside.symm marked form sends
  rw [layers_of_nullable nullable]
  exact ⟨json, encoded, admitted.of_nonNull⟩

theorem EncodesLayered.list {items : List Value}
    (below : ∀ value ∈ items, EncodesLayered m schema cycles value type) :
    EncodesLayered m schema cycles (.list items) (.list type) := by
  intro ref elm encoder same proper form sends
  obtain ⟨item, rfl, inside⟩ := wrap_eq_list proper form.isBare same.symm
  have each : ∀ value ∈ items, ∃ json,
      value.encode m (Encoder.wrap item.layers encoder) = .ok json ∧ schema.Admits item json :=
    fun value member => below value member item elm encoder inside.symm proper form sends
  obtain ⟨jsons, encoded, admitted⟩ := Value.encodeItems_ok each
  refine ⟨.array jsons, ?_, .nonNull rfl nofun (.list admitted)⟩
  have step : (Value.list items).encode m
      (Encoder.wrap (TypeRef.nonNull (.list item)).layers encoder) =
      Json.array <$> Value.encodeItems m items (Encoder.wrap item.layers encoder) := rfl
  rw [step, encoded]
  rfl

/-- A record is encoded as an object, since it has a value for every field that its form asks
for. -/
theorem EncodesBare.record (wellFormed : schema.WellFormed) {entries : List (String × Value)}
    {fields : List (String × TypeExpr)} {row : Option String}
    (names : ∀ name, name ∈ entries.map Prod.fst ↔ name ∈ fields.map Prod.fst)
    (below : ∀ name value type, entries.lookup name = some value → (name, type) ∈ fields →
      EncodesLayered m schema cycles value type) :
    EncodesBare m schema cycles (.record entries) (.record fields row) := by
  intro name encoder form sends
  cases form with
  | object slots held each =>
      have all : ∀ slot ∈ slots, ∃ value json,
          entries.lookup (Name.safe slot.name) = some value ∧
            value.encode m slot.encoded.encoder = .ok json ∧ schema.Admits slot.type json := by
        intro slot member
        have field : slot.field ∈ slots.map InputSlot.field := List.mem_map_of_mem member
        have declared : slot.declared ∈ slots.map InputSlot.declared := List.mem_map_of_mem member
        have named := (names slot.field.1).mpr (List.mem_map_of_mem field)
        obtain ⟨value, found⟩ := Dictionary.exists_of_mem_names named
        obtain ⟨json, encoded, admitted⟩ := below _ value _ found field slot.type slot.elm
          slot.encoder rfl ((wellFormed.fields held).2 _ declared) (each slot member)
          (sends.field held declared)
        exact ⟨value, json, found, encoded, admitted⟩
      obtain ⟨jsons, encoded, admitted⟩ := encodeFields_ok all
      refine ⟨jsonObject jsons, ?_, nofun, InputObject.admits wellFormed held admitted⟩
      exact congrArg (Functor.map jsonObject) encoded

/-- An input type that is referred to by its name is no alias. -/
theorem EncodesBare.alias (declares : ∀ input ∈ cycles, m.DeclaresInput schema cycles input)
    {name : String} (found : m.aliasType name = some type) :
    EncodesBare m schema cycles value (.named name) := by
  intro input encoder form sends
  cases form with
  | cut member =>
      obtain ⟨_, _, _, unaliased, _⟩ := declares input member
      exact nomatch found.symm.trans unaliased

/-- A value in the constructor of an input type that contains itself is encoded by the declared
encoder, to what its payload is encoded to. -/
theorem EncodesBare.wrapped (declares : ∀ input ∈ cycles, m.DeclaresInput schema cycles input)
    {custom : CustomType} {constructor : String} {argument : TypeExpr}
    (declared : custom ∈ m.customTypes) (among : (constructor, [argument]) ∈ custom.constructors)
    (below : EncodesBare m schema cycles value argument) :
    EncodesBare m schema cycles (.variant constructor value) (.named custom.name) := by
  intro input encoder form sends
  generalize same : TypeExpr.named custom.name = named at form
  cases form with
  | cut member =>
      obtain ⟨record, object, found, _, only, written⟩ := declares input member
      rw [only custom declared (TypeExpr.named.inj same)] at among
      obtain ⟨rfl, alone⟩ := Prod.mk.inj (List.mem_singleton.mp among)
      obtain rfl := (List.cons.inj alone).1
      obtain ⟨json, encoded, present, admitted⟩ := below input object written.form sends
      refine ⟨json, ?_, present, admitted⟩
      refine (if_pos (beq_self_eq_true _)).trans ?_
      rw [found]
      exact encoded
  | scalar | enum | union | object => exact nomatch same

/-- Nothing is sent for a union. -/
theorem EncodesBare.union (union : String) (arguments : List (String × TypeExpr)) :
    EncodesBare m schema cycles value (.union union arguments) := by
  intro name encoder form sends
  cases form with
  | union united =>
      have none := sends.1 union (.refl union)
      rw [united] at none
      exact nomatch none

end Forms

/-- Every value of a declared type is encoded to what the schema admits. -/
theorem InputForm.encodes (wellFormed : schema.WellFormed)
    (declares : ∀ input ∈ cycles, m.DeclaresInput schema cycles input) {value : Value}
    {type : TypeExpr} (inhabits : m.Inhabits value type) :
    EncodesBare m schema cycles value type ∧ EncodesLayered m schema cycles value type := by
  induction inhabits with
  | scalar held => exact EncodesBare.both rfl (.scalar held)
  | tag found declared => exact EncodesBare.both rfl (.tag found declared)
  | nothing inner => exact EncodesLayered.both rfl (.nothing inner)
  | just _ ih => exact EncodesLayered.both rfl (.just ih.2)
  | list _ ih => exact EncodesLayered.both rfl (.list fun value member => (ih value member).2)
  | record names _ ih =>
      refine EncodesBare.both rfl (.record wellFormed names ?_)
      exact fun name value type found member => (ih name value type found member).2
  | named found _ => exact EncodesBare.both rfl (.alias declares found)
  | wrapped declared among _ ih =>
      exact EncodesBare.both rfl (.wrapped declares declared among ih.1)
  | member => exact EncodesBare.both rfl (.union _ _)

/-- The parameters of a record are encoded like the fields of an object. -/
theorem mapM_encodeParameter (entries : List (String × Value)) (parameters : List Parameter) :
    parameters.mapM (encodeParameter m (.record entries)) =
      encodeFields (parameters.map (·.toEncodedField)) (Value.fieldEncoders m entries) := by
  rw [encodeFields, List.mapM_map]
  congr 1
  funext parameter
  simp only [encodeParameter, Value.get?, Function.comp_apply, Value.lookup_fieldEncoders]
  cases entries.lookup parameter.name <;> rfl

/-- A value of an alias is one of its type, where no custom type has the name of an alias. -/
theorem Elm.Module.Inhabits.of_alias {name : String} {type : TypeExpr} {value : Value}
    (distinct : m.typeNames.Nodup) (found : m.aliasType name = some type)
    (inhabits : m.Inhabits value (.named name)) : m.Inhabits value type := by
  cases inhabits with
  | named found' typed =>
      obtain rfl := Option.some.inj (found.symm.trans found')
      exact typed
  | wrapped declared _ _ =>
      exact nomatch found.symm.trans (Module.aliasType_customType distinct declared)

end Encoding

/-! ### The variables of an operation -/

namespace BoundDocument.Assembles

variable {bound : BoundDocument} {options : GenerationOptions} {m : Module}
  {inventory : Inventory} {plans : List (String × SelectionPlan)}
  {clients : List OperationClient} {shared : SharedInputs}

theorem declaresInput (assembles : bound.Assembles options m inventory plans clients shared)
    (distinct : m.typeNames.Nodup) :
    ∀ input ∈ shared.types.cycles,
      m.DeclaresInput bound.schema shared.types.cycles input := by
  intro input member
  refine ⟨shared.record input, shared.object input, assembles.encoder_of_cycle member,
    assembles.aliasType_of_cycle distinct member, ?_, assembles.recursive member⟩
  intro type declared same
  rw [Module.customType_unique distinct declared (assembles.customType_of_cycle member) same]
  rfl

/-- The enumerations to which fields lead from the type of a variable are declared. -/
theorem sends (assembles : bound.Assembles options m inventory plans clients shared)
    {operation : Operation} (among : operation ∈ bound.operations)
    (free : ∀ definition ∈ operation.definitions, bound.schema.UnionFree definition.type.name) :
    ∀ definition ∈ operation.definitions, m.Sends bound.schema definition.type.name := by
  intro definition member
  refine ⟨free definition member, fun target values reached body => ?_⟩
  have noted := mem_inventory_of_variable assembles.collected among member reached body
  have declares := assembles.declares
  have distinct : (m.enums.map (·.name)).Nodup := by
    rw [declares.enums]
    exact (inventory_sound assembles.collected).enumsOf.nodup
  rw [← declares.enums] at noted
  exact Module.enum_of_mem distinct noted

/-- The record of the parameters has a value for every slot, of the type that the slot has before it
is put under a name. -/
theorem inhabits_slot (assembles : bound.Assembles options m inventory plans clients shared)
    (distinct : m.typeNames.Nodup) {operation : Operation} {client : OperationClient}
    (among : client ∈ clients) {slots : List InputSlot}
    (takes : client.Takes bound.schema shared.types.cycles operation slots)
    {entries : List (String × Value)}
    (inhabits : m.Inhabits (.record entries) (.closed client.parameters)) {slot : InputSlot}
    (member : slot ∈ slots) :
    ∃ value, entries.lookup (Name.safe slot.name) = some value ∧
      m.Inhabits value slot.field.2 := by
  rw [takes.parameters] at inhabits
  cases inhabits with
  | record names typed =>
      have declared := List.mem_map_of_mem
        (f := InputSlot.parameterField bound.schema client.resultType) member
      obtain ⟨value, found⟩ := Dictionary.exists_of_mem_names
        ((names (Name.safe slot.name)).mpr (List.mem_map_of_mem (f := Prod.fst) declared))
      refine ⟨value, found, ?_⟩
      have here := typed _ value _ found declared
      by_cases known : bound.schema.isDeclared slot.type.name = true
      · rw [if_pos known] at here
        apply here.of_alias distinct
        apply assembles.aliasType_of_mem distinct among
        rw [OperationClient.aliases, takes.inputs]
        refine List.mem_append_left _ (List.mem_cons_of_mem _ ?_)
        exact List.mem_map.mpr ⟨slot, List.mem_filter.mpr ⟨member, known⟩, rfl⟩
      · rwa [if_neg known] at here

/-- The parameters of an operation are encoded slot by slot. -/
theorem encodes_slots (assembles : bound.Assembles options m inventory plans clients shared)
    (distinct : m.typeNames.Nodup) (wellFormed : bound.schema.WellFormed) {operation : Operation}
    {client : OperationClient} (among : client ∈ clients) {slots : List InputSlot}
    (takes : client.Takes bound.schema shared.types.cycles operation slots)
    (sends : ∀ slot ∈ slots, m.Sends bound.schema slot.type.name)
    (proper : ∀ slot ∈ slots, slot.type.isProper = true) {parameters : Value}
    (typed : ∀ type, client.request.parametersType = some type →
      m.Inhabits parameters (.named type)) :
    ∃ jsons, client.request.parameters.mapM (encodeParameter m parameters) = .ok jsons ∧
      List.Forall₂ (fun slot (entry : String × Json) =>
        entry.1 = slot.name ∧ bound.schema.Admits slot.type entry.2) slots jsons := by
  cases slots with
  | nil =>
      have bare : client.request.parameters = [] := List.map_eq_nil_iff.mp takes.encoded
      exact ⟨[], by rw [bare]; rfl, .nil⟩
  | cons first rest =>
      have named : client.request.parametersType = some (client.resultType ++ "_Input") :=
        takes.parametersType
      have aliased : m.aliasType (client.resultType ++ "_Input") =
          some (.closed client.parameters) := by
        apply assembles.aliasType_of_mem distinct among
        rw [OperationClient.aliases, named]
        exact List.mem_append_right _ List.mem_cons_self
      have closed := (typed _ named).of_alias distinct aliased
      obtain ⟨entries, rfl⟩ : ∃ entries, parameters = .record entries := by
        cases closed
        exact ⟨_, rfl⟩
      rw [mapM_encodeParameter, takes.encoded]
      apply encodeFields_ok
      intro slot member
      obtain ⟨value, found, inhabits⟩ := assembles.inhabits_slot distinct among takes closed member
      obtain ⟨json, encoded, admitted⟩ := (InputForm.encodes wellFormed
        (assembles.declaresInput distinct) inhabits).2 slot.type slot.elm slot.encoder rfl
          (proper slot member) (takes.forms slot member) (sends slot member)
      exact ⟨value, json, found, encoded, admitted⟩

end BoundDocument.Assembles

/-- An object with one entry for each slot has exactly the variables of the operation as keys. Where a
variable is defined twice, its last definition and the last entry count. -/
theorem OperationClient.Takes.admits_object {schema : Schema} {cycles : List String}
    {operation : Operation} {client : OperationClient} {slots : List InputSlot}
    (takes : client.Takes schema cycles operation slots) {entries : List (String × Json)}
    (each : List.Forall₂ (fun slot (entry : String × Json) =>
      entry.1 = slot.name ∧ schema.Admits slot.type entry.2) slots entries) :
    (∀ name, name ∈ (Dictionary.ofList entries).map Prod.fst ↔
        name ∈ operation.definitions.map (·.name)) ∧
      ∀ name type value, operation.variableType? name = some type →
        (Dictionary.ofList entries).lookup name = some value → schema.Admits type value := by
  constructor
  · intro name
    have declared := congrArg (List.map Prod.fst) takes.declared
    rw [List.map_map, List.map_map] at declared
    have names : entries.map Prod.fst = operation.definitions.map (·.name) :=
      (Forall₂.map_eq_map each fun _ _ both => both.1).trans declared
    rw [Dictionary.mem_names_ofList, names]
  · intro name type value lastType lastValue
    have paired : List.Forall₂ (fun (one : String × TypeRef) (two : String × Json) =>
        one.1 = two.1 ∧ schema.Admits one.2 two.2) (slots.map InputSlot.declared) entries := by
      rw [List.forall₂_map_left_iff]
      exact each.imp fun _ _ both => ⟨both.1.symm, both.2⟩
    rw [GraphQL.Operation.variableType?, ← takes.declared] at lastType
    rw [Dictionary.lookup_ofList] at lastValue
    rcases lookup_of_forall₂ (fun _ type value => schema.Admits type value)
      (List.forall₂_reverse_iff.mpr paired) name with
      ⟨absent, _⟩ | ⟨one, two, first, second, admits⟩
    · exact nomatch lastType.symm.trans absent
    · obtain rfl := Option.some.inj (lastType.symm.trans first)
      obtain rfl := Option.some.inj (lastValue.symm.trans second)
      exact admits

/-- In a module that is generated for a document, and in which no two types have one name, every
operation whose variables lead to no union encodes all parameters of its declared type: to an object
with exactly the variables of the operation as keys, each with a value that the schema admits for
its type. Schemas are well formed however they are read. -/
theorem generate_variables_encoded {schema : Schema} {text : String} {document : Document}
    {options : GenerationOptions} {m : Module} (wellFormed : schema.WellFormed)
    (parsed : Document.parse text = .ok document)
    (generated : generate schema document options = .ok m) (distinct : m.typeNames.Nodup)
    {operation : Operation} (member : operation ∈ document.operations)
    (free : ∀ definition ∈ operation.definitions, schema.UnionFree definition.type.name) :
    ∃ request, m.request operation.title = some request ∧
      ∀ parameters, (∀ type, request.parametersType = some type →
        m.Inhabits parameters (.named type)) →
        ∃ entries, m.encodeVariables operation.title parameters = .ok (.object entries) ∧
          (entries.map Prod.fst).Nodup ∧
            (∀ name, name ∈ entries.map Prod.fst ↔ name ∈ operation.definitions.map (·.name)) ∧
              ∀ name type value, operation.variableType? name = some type →
                entries.lookup name = some value → schema.Admits type value := by
  obtain ⟨bound, inventory, plans, clients, shared, bind_ok, assembles⟩ :=
    generate_assembles generated
  obtain ⟨rfl, _, _⟩ := BoundDocument.bind_eq_ok bind_ok
  have among := (BoundDocument.operations_perm bind_ok).mem_iff.mpr member
  obtain ⟨client, there, made, slots, takes⟩ := assembles.takes among
  have declares := assembles.declares
  have found := declares.request_of_mem
    (declares.titles_nodup (Module.typeAliases_nodup distinct)) there
  rw [made.operationName] at found
  refine ⟨client.request, found, fun parameters typed => ?_⟩
  have sends : ∀ slot ∈ slots, m.Sends bound.schema slot.type.name := by
    intro slot among'
    obtain ⟨definition, defined, _, same⟩ := takes.exists_definition among'
    exact same ▸ assembles.sends among free definition defined
  have proper : ∀ slot ∈ slots, slot.type.isProper = true := by
    intro slot among'
    obtain ⟨definition, defined, _, same⟩ := takes.exists_definition among'
    exact same ▸ Document.parse_properTypes parsed operation member definition defined
  obtain ⟨jsons, encoded, each⟩ :=
    assembles.encodes_slots distinct wellFormed there takes sends proper typed
  refine ⟨Dictionary.ofList jsons, ?_, Dictionary.nodup_ofList jsons, takes.admits_object each⟩
  rw [Module.encodeVariables, found]
  simp only [encoded]
  rfl

/-! ### Parameters with a recursive filter -/

/-- A record whose entries stand in the order of its type has this type. -/
theorem Elm.Module.Inhabits.record_of_forall₂ {m : Module} {entries : List (String × Value)}
    {fields : List (String × TypeExpr)} {row : Option String}
    (distinct : (fields.map Prod.fst).Nodup)
    (each : List.Forall₂ (fun entry field => entry.1 = field.1 ∧ m.Inhabits entry.2 field.2)
      entries fields) : m.Inhabits (.record entries) (.record fields row) := by
  refine .record (fun name => ?_) ?_
  · rw [Forall₂.map_eq_map each fun _ _ both => both.1.symm]
  · intro name value type found member
    have declared := Dictionary.lookup_of_mem distinct member
    rcases lookup_of_forall₂ (fun _ value type => m.Inhabits value type) each name with
      ⟨absent, _⟩ | ⟨one, two, first, second, typed⟩
    · exact nomatch found.symm.trans absent
    · obtain rfl := Option.some.inj (found.symm.trans first)
      obtain rfl := Option.some.inj (declared.symm.trans second)
      exact typed

/-- The record of the filters of the document. -/
def filterRecord : TypeExpr :=
  .closed [("color", .optional (.enum "Color")), ("and", .optional (.list (.named "Filter")))]

/-- Whether a type is the record of the filters. -/
def isFilterRecord : TypeExpr → Bool
  | .record [(color, .optional (.enum enum)), (both, .optional (.list (.named filter)))] none =>
      color == "color" && enum == "Color" && both == "and" && filter == "Filter"
  | _ => false

theorem eq_filterRecord {type : TypeExpr} (holds : isFilterRecord type = true) :
    type = filterRecord := by
  unfold isFilterRecord at holds
  split at holds
  · simp only [Bool.and_eq_true, beq_iff_eq] at holds
    obtain ⟨⟨⟨rfl, rfl⟩, rfl⟩, rfl⟩ := holds
    rfl
  · exact nomatch holds

/-- The record of the parameters of the document. -/
def parametersRecord : TypeExpr :=
  .closed [("filter", .named "Pets_Input_Filter"), ("name", .optional (.scalar .string))]

/-- Whether a type is the record of the parameters. -/
def isParametersRecord : TypeExpr → Bool
  | .record [(filter, .named input), (name, .optional (.scalar .string))] none =>
      filter == "filter" && input == "Pets_Input_Filter" && name == "name"
  | _ => false

theorem eq_parametersRecord {type : TypeExpr} (holds : isParametersRecord type = true) :
    type = parametersRecord := by
  unfold isParametersRecord at holds
  split at holds
  · simp only [Bool.and_eq_true, beq_iff_eq] at holds
    obtain ⟨⟨rfl, rfl⟩, rfl⟩ := holds
    rfl
  · exact nomatch holds

/-- Parameters of the document: a filter that holds another one. -/
def zooParameters : Value :=
  .record [("filter", .record [("color", .just (.tag "Color_Black")),
      ("and", .just (.list [.variant "Filter" (.record [("color", .nothing), ("and", .nothing)])]))]),
    ("name", .just (.string "Rex"))]

theorem exists_zooInputs : ∃ document m, Document.parse zooText = .ok document ∧
    generate zooSchema document zooOptions = .ok m ∧ m.typeNames.Nodup ∧
      (∃ operation ∈ document.operations, operation.title = "Pets" ∧
        ∀ definition ∈ operation.definitions, definition.type.name ∈ zooInputs) ∧
      (∃ request, m.request "Pets" = some request ∧ request.parametersType = some "Pets_Input") ∧
      m.aliasType "Pets_Input" = some parametersRecord ∧
      m.aliasType "Pets_Input_Filter" = some filterRecord ∧
      ⟨"Filter", [], [("Filter", [filterRecord])]⟩ ∈ m.customTypes ∧
      m.enum "Color" = some (.ofValues "Color" ["BLACK", "WHITE"]) := by
  have evaluated : (Document.parse zooText).toOption.any (fun document =>
      (generate zooSchema document zooOptions).toOption.any fun m =>
        decide m.typeNames.Nodup && (document.operations.any fun operation =>
            operation.title == "Pets" && operation.definitions.all fun definition =>
              zooInputs.contains definition.type.name) &&
          ((m.request "Pets").any fun request =>
            decide (request.parametersType = some "Pets_Input")) &&
          (m.aliasType "Pets_Input").any isParametersRecord &&
          (m.aliasType "Pets_Input_Filter").any isFilterRecord &&
          (m.customTypes.any fun type =>
            type.name == "Filter" && type.wrapped?.any isFilterRecord) &&
          decide (m.enum "Color" = some (.ofValues "Color" ["BLACK", "WHITE"]))) = true := by
    decide +kernel
  obtain ⟨document, parsed, evaluated⟩ := Except.any_toOption.mp evaluated
  obtain ⟨m, generated, evaluated⟩ := Except.any_toOption.mp evaluated
  simp only [Bool.and_eq_true, List.any_eq_true, List.all_eq_true, List.contains_iff_mem,
    decide_eq_true_eq, beq_iff_eq, Option.any_eq_true] at evaluated
  obtain ⟨⟨⟨⟨⟨⟨distinct, operations⟩, request⟩, parameters⟩, filter⟩, custom⟩, color⟩ := evaluated
  refine ⟨document, m, parsed, generated, distinct, operations, request, ?_, ?_, ?_, color⟩
  · obtain ⟨type, found, shaped⟩ := parameters
    rw [found, eq_parametersRecord shaped]
  · obtain ⟨type, found, shaped⟩ := filter
    rw [found, eq_filterRecord shaped]
  · obtain ⟨type, declared, named, record, wrapped, shaped⟩ := custom
    rwa [CustomType.eq_of_wrapped? wrapped, named, eq_filterRecord shaped] at declared

theorem zoo_variables_encoded : ∃ document m, Document.parse zooText = .ok document ∧
    generate zooSchema document zooOptions = .ok m ∧ m.typeNames.Nodup ∧
      ∃ operation ∈ document.operations, ∃ entries,
        m.encodeVariables operation.title zooParameters = .ok (.object entries) ∧
          (∀ name, name ∈ entries.map Prod.fst ↔ name ∈ operation.definitions.map (·.name)) ∧
            ∀ name type value, operation.variableType? name = some type →
              entries.lookup name = some value → zooSchema.Admits type value := by
  obtain ⟨document, m, parsed, generated, distinct, ⟨operation, among, titled, inputs⟩,
    ⟨request, requested, named⟩, parameters, filter, custom, color⟩ := exists_zooInputs
  have wellFormed : zooSchema.WellFormed := .of_types (by decide)
  obtain ⟨request', found, encodes⟩ := generate_variables_encoded wellFormed parsed generated
    distinct among fun definition member => zooInputs_unionFree _ (inputs definition member)
  rw [titled, requested] at found
  obtain rfl := Option.some.inj found
  have inner : m.Inhabits (.record [("color", .nothing), ("and", .nothing)]) filterRecord :=
    .record_of_forall₂ (by decide) (.cons ⟨rfl, .nothing _⟩ (.cons ⟨rfl, .nothing _⟩ .nil))
  have black : m.Inhabits (.tag "Color_Black") (.enum "Color") := by
    have declared : (⟨"BLACK", "Color_Black"⟩ : EnumCase) ∈
        (EnumDeclaration.ofValues "Color" ["BLACK", "WHITE"]).cases := by decide
    exact .tag color declared
  have filters : m.Inhabits
      (.list [.variant "Filter" (.record [("color", .nothing), ("and", .nothing)])])
      (.list (.named "Filter")) := by
    refine .list (List.forall_mem_singleton.mpr ?_)
    exact .wrapped custom List.mem_cons_self inner
  have typed : ∀ type, request.parametersType = some type →
      m.Inhabits zooParameters (.named type) := by
    intro type declared
    obtain rfl := Option.some.inj (named.symm.trans declared)
    refine .named parameters (.record_of_forall₂ (by decide)
      (.cons ⟨rfl, ?_⟩ (.cons ⟨rfl, ?_⟩ .nil)))
    · refine .named filter (.record_of_forall₂ (by decide) ?_)
      exact .cons ⟨rfl, .just black⟩ (.cons ⟨rfl, .just filters⟩ .nil)
    · exact .just (.scalar (.string "Rex"))
  obtain ⟨entries, encoded, _, names, admitted⟩ := encodes zooParameters typed
  exact ⟨document, m, parsed, generated, distinct, operation, among, entries, encoded, names,
    admitted⟩

end ElmClient
