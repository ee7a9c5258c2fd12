/-
Module: ElmClient.Proofs.Input.Alignment
Purpose: The Elm types and the encoders of input types are found by two searches, each with its own
  memory. They stay in step: after the same visits both have written out the same types, and both
  have cut at the same references. So a type and its encoder always have one form.
Main exports: InputSlot, InputForm, InputObject, InputPath, Aligned, Aligned.ofName,
  Aligned.ofType, Aligned.object_of_cycle
-/
import ElmClient.Input.Encoder
import ElmClient.Input.Type
import ElmClient.Proofs.Outcome
import ElmClient.Proofs.Schema.WellFormed
import Mathlib.Data.List.Perm.Subperm

namespace ElmClient

open GraphQL Elm

/-! ### The common form of a type and its encoder -/

/-- A field of an input type or a variable: its name and its type in the schema, and the Elm type
and the encoder of what the type is about, without the layers. -/
structure InputSlot where
  name : String
  type : TypeRef
  elm : TypeExpr
  encoder : Encoder

namespace InputSlot

/-- The slot as the schema declares it. -/
def declared (slot : InputSlot) : String × TypeRef := (slot.name, slot.type)

/-- The slot as a field of a record type. -/
def field (slot : InputSlot) : String × TypeExpr :=
  (Name.safe slot.name, TypeExpr.wrap slot.type.layers slot.elm)

/-- The slot as a field that is encoded. -/
def encoded (slot : InputSlot) : EncodedField Encoder :=
  ⟨Name.safe slot.name, slot.name, Encoder.wrap slot.type.layers slot.encoder⟩

end InputSlot

/-- The type arguments of a union in an input type: the types with the names of its members. -/
def memberTypes (members : List String) : List (String × TypeExpr) :=
  members.map fun member => (member, .named (Text.capitalize member))

/-- An Elm type and an encoder of one form, for a type of the schema. Where the type contains itself
both are cut, and name what is declared for it. Only for a union they differ. -/
inductive InputForm (schema : Schema) (cycles : List String) :
    String → TypeExpr → Encoder → Prop where
  | scalar {name} (leaf : schema.get? name = none ∨ schema.get? name = some .scalar) :
      InputForm schema cycles name (.scalar (.ofName name)) (.scalar (.ofName name))
  | enum {name values} (body : schema.get? name = some (.enum values)) :
      InputForm schema cycles name (.enum name) (.enum name)
  | union {name members} (united : schema.unionMembers? name = some members) :
      InputForm schema cycles name (.union name (memberTypes members)) (.scalar (.ofName name))
  | cut {name} (member : name ∈ cycles) :
      InputForm schema cycles name (.named (Text.capitalize name)) (.named name)
  | object {name} (slots : List InputSlot)
      (held : schema.fields? name = some (slots.map InputSlot.declared))
      (each : ∀ slot ∈ slots, InputForm schema cycles slot.type.name slot.elm slot.encoder) :
      InputForm schema cycles name (.closed (slots.map InputSlot.field))
        (.object (slots.map InputSlot.encoded))

/-- The record type and the object encoder of a type with fields, written out at the first level. -/
def InputObject (schema : Schema) (cycles : List String) (name : String) (record : TypeExpr)
    (object : Encoder) : Prop :=
  ∃ slots : List InputSlot, schema.fields? name = some (slots.map InputSlot.declared) ∧
    (∀ slot ∈ slots, InputForm schema cycles slot.type.name slot.elm slot.encoder) ∧
      record = .closed (slots.map InputSlot.field) ∧ object = .object (slots.map InputSlot.encoded)

section Forms

variable {schema : Schema} {cycles later : List String} {name : String} {type : TypeExpr}
  {encoder : Encoder}

theorem InputForm.mono (more : cycles ⊆ later) (form : InputForm schema cycles name type encoder) :
    InputForm schema later name type encoder := by
  induction form with
  | scalar leaf => exact .scalar leaf
  | enum body => exact .enum body
  | union united => exact .union united
  | cut member => exact .cut (more member)
  | object slots held _ ih => exact .object slots held ih

theorem InputObject.mono (more : cycles ⊆ later)
    (object : InputObject schema cycles name type encoder) :
    InputObject schema later name type encoder := by
  obtain ⟨slots, held, each, typed, encoded⟩ := object
  exact ⟨slots, held, fun slot member => (each slot member).mono more, typed, encoded⟩

theorem InputObject.form (object : InputObject schema cycles name type encoder) :
    InputForm schema cycles name type encoder := by
  obtain ⟨slots, held, each, rfl, rfl⟩ := object
  exact .object slots held each

end Forms

/-! ### The two searches for a type with fields -/

section Search

variable {schema : Schema} {depth : Nat} {path : List String} {name : String}
  {fields : List (String × TypeRef)}

/-- How the type of a field is found below a type that is being written out. -/
def InputTypes.fieldType (schema : Schema) (depth : Nat) (path : List String) (type : TypeRef)
    (types : InputTypes) : TypeExpr × InputTypes :=
  let (inner, types) := InputTypes.typeOfName schema depth path type.name types
  (TypeExpr.wrap type.layers inner, types)

/-- How the encoder of a field is found below a type whose encoder is being written out. -/
def InputEncoders.fieldEncoder (schema : Schema) (depth : Nat) (path : List String)
    (type : TypeRef) (encoders : InputEncoders) : Encoder × InputEncoders :=
  let (inner, encoders) := InputEncoders.encoderOfName schema depth path type.name encoders
  (Encoder.wrap type.layers inner, encoders)

theorem InputTypes.typeOfName_of_fields (held : schema.fields? name = some fields)
    (types : InputTypes) :
    typeOfName schema (depth + 1) path name types =
      match types.record? name with
      | some record => (record, types)
      | none =>
          if path.contains name then (.named (Text.capitalize name), types.addCycle name)
          else
            let (mapped, types) := mapFields (fieldType schema depth (name :: path)) fields types
            (.closed mapped, types.keep name (.closed mapped)) := by
  obtain ⟨body, found, fieldsOf⟩ := Option.bind_eq_some_iff.mp held
  cases body with
  | scalar | enum | union => exact nomatch fieldsOf
  | object _ | interface _ | inputObject _ =>
      obtain rfl := Option.some.inj fieldsOf
      simp only [typeOfName, found]
      rfl

theorem InputEncoders.encoderOfName_of_fields (held : schema.fields? name = some fields)
    (encoders : InputEncoders) :
    encoderOfName schema (depth + 1) path name encoders =
      match encoders.object? name with
      | some object => (object, encoders)
      | none =>
          if path.contains name then (.named name, encoders.addCycle name)
          else
            let (encoded, encoders) :=
              encodeFields (fieldEncoder schema depth (name :: path)) fields encoders
            (.object encoded, encoders.keep name (.object encoded)) := by
  obtain ⟨body, found, fieldsOf⟩ := Option.bind_eq_some_iff.mp held
  cases body with
  | scalar | enum | union => exact nomatch fieldsOf
  | object _ | interface _ | inputObject _ =>
      obtain rfl := Option.some.inj fieldsOf
      simp only [encoderOfName, found]
      rfl

@[simp] theorem InputTypes.records_addCycle (types : InputTypes) (name : String) :
    (types.addCycle name).records = types.records := by
  unfold addCycle
  split <;> rfl

@[simp] theorem InputEncoders.objects_addCycle (encoders : InputEncoders) (name : String) :
    (encoders.addCycle name).objects = encoders.objects := by
  unfold addCycle
  split <;> rfl

theorem InputTypes.subset_addCycle (types : InputTypes) (name : String) :
    types.cycles ⊆ (types.addCycle name).cycles := by
  unfold addCycle
  split
  · exact List.Subset.refl _
  · exact List.subset_append_left _ _

theorem InputTypes.mem_addCycle (types : InputTypes) (name : String) :
    name ∈ (types.addCycle name).cycles := by
  unfold addCycle
  split
  · next known => exact List.contains_iff_mem.mp known
  · exact List.mem_append_right _ List.mem_cons_self

theorem InputTypes.of_mem_addCycle {types : InputTypes} {name other : String}
    (member : other ∈ (types.addCycle name).cycles) : other ∈ types.cycles ∨ other = name := by
  unfold addCycle at member
  split at member
  · exact Or.inl member
  · exact (List.mem_append.mp member).imp_right List.mem_singleton.mp

end Search

/-- The types that are being written out, with the depth that is left: they are distinct types of
the schema, so the depth is never used up. -/
structure InputPath (schema : Schema) (depth : Nat) (path : List String) : Prop where
  distinct : path.Nodup
  known : path ⊆ schema.types.map Prod.fst
  room : schema.types.length < depth + path.length

namespace InputPath

variable {schema : Schema} {path : List String}

theorem start (schema : Schema) : InputPath schema (schema.types.length + 1) [] :=
  ⟨List.nodup_nil, List.nil_subset _, by simp⟩

theorem depth_ne_zero {depth : Nat} (way : InputPath schema depth path) : depth ≠ 0 := by
  rintro rfl
  have short := (List.subperm_of_subset way.distinct way.known).length_le
  have room := way.room
  rw [List.length_map] at short
  omega

theorem enter {depth : Nat} {name : String} {fields : List (String × TypeRef)}
    (way : InputPath schema (depth + 1) path) (held : schema.fields? name = some fields)
    (off : name ∉ path) : InputPath schema depth (name :: path) := by
  obtain ⟨body, found, _⟩ := Option.bind_eq_some_iff.mp held
  have listed : name ∈ schema.types.map Prod.fst :=
    List.mem_map.mpr ⟨_, Dictionary.mem_of_lookup found, rfl⟩
  have room := way.room
  refine ⟨List.nodup_cons.mpr ⟨off, way.distinct⟩, List.cons_subset.mpr ⟨listed, way.known⟩, ?_⟩
  rw [List.length_cons]
  omega

end InputPath

/-! ### The invariant -/

/-- What related entries under the same names have in common. -/
theorem lookup_of_forall₂ {α β : Type} (related : String → α → β → Prop)
    {first : List (String × α)} {second : List (String × β)}
    (each : List.Forall₂ (fun one two => one.1 = two.1 ∧ related one.1 one.2 two.2) first second)
    (name : String) :
    (first.lookup name = none ∧ second.lookup name = none) ∨
      ∃ one two, first.lookup name = some one ∧ second.lookup name = some two ∧
        related name one two := by
  induction each with
  | nil => exact Or.inl ⟨rfl, rfl⟩
  | @cons one two _ _ here _ ih =>
      obtain ⟨key, held⟩ := one
      obtain ⟨key', held'⟩ := two
      obtain ⟨rfl : key = key', both⟩ := here
      by_cases same : name = key
      · subst same
        exact Or.inr ⟨held, held', List.lookup_cons_self, List.lookup_cons_self, both⟩
      · rw [Dictionary.lookup_cons_of_ne same, Dictionary.lookup_cons_of_ne same]
        exact ih

/-- Two searches that are in step, on the way below some types: they cut at the same names, they
have written out the same types in the same forms, and every type at which they cut is written out
or is still being written out. -/
structure Aligned (schema : Schema) (path : List String) (types : InputTypes)
    (encoders : InputEncoders) : Prop where
  cycles : encoders.cycles = types.cycles
  nodup : types.cycles.Nodup
  kept : List.Forall₂ (fun record object => record.1 = object.1 ∧
    InputObject schema types.cycles record.1 record.2 object.2) types.records encoders.objects
  written : ∀ name ∈ types.cycles, name ∈ path ∨ name ∈ types.records.map Prod.fst

/-- How a visit goes on from a state of both searches: what comes out has one form, and the searches
are in step again. -/
structure Aligned.Step (schema : Schema) (path : List String) (types : InputTypes) (name : String)
    (typed : TypeExpr × InputTypes) (encoded : Encoder × InputEncoders) : Prop where
  grows : types.cycles ⊆ typed.2.cycles
  aligned : Aligned schema path typed.2 encoded.2
  form : InputForm schema typed.2.cycles name typed.1 encoded.1

namespace Aligned

variable {schema : Schema} {path : List String} {types : InputTypes} {encoders : InputEncoders}

theorem empty (schema : Schema) : Aligned schema [] {} {} :=
  ⟨rfl, List.nodup_nil, .nil, fun _ absent => absurd absent List.not_mem_nil⟩

/-- What both searches remember of a type, if anything. -/
theorem remembered (aligned : Aligned schema path types encoders) (name : String) :
    (types.record? name = none ∧ encoders.object? name = none) ∨
      ∃ record object, types.record? name = some record ∧ encoders.object? name = some object ∧
        InputObject schema types.cycles name record object :=
  lookup_of_forall₂ _ aligned.kept name

/-- Below nothing, every type at which the searches cut is written out by both. -/
theorem object_of_cycle (aligned : Aligned schema [] types encoders) {name : String}
    (member : name ∈ types.cycles) :
    ∃ record object, types.record? name = some record ∧ encoders.object? name = some object ∧
      InputObject schema types.cycles name record object := by
  have kept := (aligned.written name member).resolve_left List.not_mem_nil
  rcases aligned.remembered name with ⟨absent, _⟩ | found
  · exact absurd kept (Dictionary.lookup_eq_none_iff.mp absent)
  · exact found

/-- Both searches cut at a type that is being written out. -/
theorem cut (aligned : Aligned schema path types encoders) {name : String}
    (below : name ∈ path) :
    Step schema path types name (.named (Text.capitalize name), types.addCycle name)
      (.named name, encoders.addCycle name) := by
  have more := types.subset_addCycle name
  refine ⟨more, ⟨?_, ?_, ?_, ?_⟩, .cut (types.mem_addCycle name)⟩
  · unfold InputTypes.addCycle InputEncoders.addCycle
    rw [aligned.cycles]
    split
    · exact aligned.cycles
    · rfl
  · unfold InputTypes.addCycle
    split
    · exact aligned.nodup
    · next fresh =>
        rw [List.contains_iff_mem] at fresh
        simpa using aligned.nodup.concat fresh
  · simp only [InputTypes.records_addCycle, InputEncoders.objects_addCycle]
    exact aligned.kept.imp fun _ _ both => ⟨both.1, both.2.mono more⟩
  · intro other member
    rcases InputTypes.of_mem_addCycle member with earlier | rfl
    · simp only [InputTypes.records_addCycle]
      exact aligned.written other earlier
    · exact Or.inl below

/-- Both searches keep a type once it is written out. -/
theorem keep {name : String} {record : TypeExpr} {object : Encoder}
    (aligned : Aligned schema (name :: path) types encoders)
    (written : InputObject schema types.cycles name record object) :
    Aligned schema path (types.keep name record) (encoders.keep name object) := by
  refine ⟨aligned.cycles, aligned.nodup, ?_, ?_⟩
  · have last : List.Forall₂ (fun record object => record.1 = object.1 ∧
        InputObject schema types.cycles record.1 record.2 object.2)
        [(name, record)] [(name, object)] :=
      .cons ⟨rfl, written⟩ .nil
    exact List.rel_append aligned.kept last
  · intro other member
    rw [InputTypes.keep, List.map_append]
    rcases aligned.written other member with below | kept
    · rcases List.mem_cons.mp below with rfl | above
      · exact Or.inr (List.mem_append_right _ List.mem_cons_self)
      · exact Or.inl above
    · exact Or.inr (List.mem_append_left _ kept)

/-- Fields are visited in step if each of them is. -/
theorem fields {depth : Nat}
    (step : ∀ {name types encoders}, Aligned schema path types encoders →
      Step schema path types name (types.typeOfName schema depth path name)
        (encoders.encoderOfName schema depth path name))
    (listed : List (String × TypeRef)) {types : InputTypes} {encoders : InputEncoders}
    (aligned : Aligned schema path types encoders) :
    let mapped := types.mapFields (InputTypes.fieldType schema depth path) listed
    let encoded := encoders.encodeFields (InputEncoders.fieldEncoder schema depth path) listed
    types.cycles ⊆ mapped.2.cycles ∧ Aligned schema path mapped.2 encoded.2 ∧
      ∃ slots : List InputSlot, slots.map InputSlot.declared = listed ∧
        (∀ slot ∈ slots,
          InputForm schema mapped.2.cycles slot.type.name slot.elm slot.encoder) ∧
          mapped.1 = slots.map InputSlot.field ∧ encoded.1 = slots.map InputSlot.encoded := by
  induction listed generalizing types encoders with
  | nil => exact ⟨List.Subset.refl _, aligned, [], rfl, by simp, rfl, rfl⟩
  | cons first rest ih =>
      obtain ⟨name, type⟩ := first
      obtain ⟨grows, aligned', form⟩ := @step type.name types encoders aligned
      obtain ⟨grows', aligned'', slots, declared, each, mapped, encoded⟩ := ih aligned'
      refine ⟨List.Subset.trans grows grows', aligned'',
        ⟨name, type, (types.typeOfName schema depth path type.name).1,
          (encoders.encoderOfName schema depth path type.name).1⟩ :: slots, ?_, ?_, ?_, ?_⟩
      · rw [List.map_cons, declared]
        rfl
      · exact List.forall_mem_cons.mpr ⟨form.mono grows', each⟩
      · rw [List.map_cons, ← mapped]
        rfl
      · rw [List.map_cons, ← encoded]
        rfl

/-- Both searches visit a type in step. -/
theorem ofName (depth : Nat) :
    ∀ {path : List String} {name : String} {types : InputTypes} {encoders : InputEncoders},
      InputPath schema depth path → Aligned schema path types encoders →
      Step schema path types name (types.typeOfName schema depth path name)
        (encoders.encoderOfName schema depth path name) := by
  induction depth with
  | zero => exact fun way _ => absurd rfl way.depth_ne_zero
  | succ depth ih =>
      intro path name types encoders way aligned
      cases found : schema.get? name with
      | none =>
          simp only [InputTypes.typeOfName, InputEncoders.encoderOfName, found]
          exact ⟨List.Subset.refl _, aligned, .scalar (Or.inl found)⟩
      | some body =>
          cases fieldsOf : body.fields? with
          | none =>
              cases body with
              | object | interface | inputObject => exact nomatch fieldsOf
              | scalar =>
                  simp only [InputTypes.typeOfName, InputEncoders.encoderOfName, found]
                  exact ⟨List.Subset.refl _, aligned, .scalar (Or.inr found)⟩
              | enum values =>
                  simp only [InputTypes.typeOfName, InputEncoders.encoderOfName, found]
                  exact ⟨List.Subset.refl _, aligned, .enum found⟩
              | union members =>
                  simp only [InputTypes.typeOfName, InputEncoders.encoderOfName, found]
                  have united : schema.unionMembers? name = some members := by
                    rw [Schema.unionMembers?, found]
                  exact ⟨List.Subset.refl _, aligned, .union united⟩
          | some fields =>
              have held : schema.fields? name = some fields := by
                rw [Schema.fields?, found, Option.bind_some, fieldsOf]
              rw [InputTypes.typeOfName_of_fields held, InputEncoders.encoderOfName_of_fields held]
              rcases aligned.remembered name with ⟨fresh, fresh'⟩ |
                ⟨record, object, kept, kept', form⟩
              · simp only [fresh, fresh']
                by_cases below : name ∈ path
                · simp only [List.contains_iff_mem.mpr below, if_true]
                  exact aligned.cut below
                · simp only [List.contains_iff_mem, below, if_false]
                  have entered : Aligned schema (name :: path) types encoders :=
                    ⟨aligned.cycles, aligned.nodup, aligned.kept, fun other member =>
                      (aligned.written other member).imp_left (List.mem_cons_of_mem _)⟩
                  obtain ⟨grows, aligned', slots, declared, each, mapped, encoded⟩ :=
                    entered.fields (ih (way.enter held below)) fields
                  have written : InputObject schema _ name _ _ :=
                    ⟨slots, declared ▸ held, each, congrArg _ mapped, congrArg _ encoded⟩
                  exact ⟨grows, aligned'.keep written, written.form⟩
              · simp only [kept, kept']
                exact ⟨List.Subset.refl _, aligned, form.form⟩

/-- Both searches visit the type of a variable in step. -/
theorem ofType (aligned : Aligned schema [] types encoders) (type : TypeRef) :
    Step schema [] types type.name
      (types.typeOfName schema (schema.types.length + 1) [] type.name)
      (encoders.encoderOfName schema (schema.types.length + 1) [] type.name) :=
  ofName _ (.start schema) aligned

end Aligned

end ElmClient
