/-
Module: ElmClient.Proofs.Input.Unfolding
Purpose: The records that are written out for input types unfold the schema as far as it goes. A
  record has a field for every field of its type, which holds what was written out for the type of
  the field, or its name where the search was cut. Records are written once and never change, and in
  the end there is one for every type to which fields lead.
Main exports: InputTypes.Stands, InputTypes.UnfoldsField, InputTypes.UnfoldsRecord,
  InputTypes.Grows, InputTypes.Faithful, InputTypes.after_unfolds
-/
import ElmClient.Proofs.Input.Lockstep

namespace ElmClient

open GraphQL Elm

namespace InputTypes

/-- What stands for a type in the records that refer to it: its scalar, its enumeration or its
union, the record that was written out for it, or its own name if the search was cut there. -/
inductive Stands (schema : Schema) (types : InputTypes) (name : String) : TypeExpr → Prop where
  | scalar (leaf : schema.get? name = none ∨ schema.get? name = some .scalar) :
      Stands schema types name (.scalar (.ofName name))
  | enum {values} (body : schema.get? name = some (.enum values)) :
      Stands schema types name (.enum name)
  | union {members} (body : schema.get? name = some (.union members)) :
      Stands schema types name (.union name (memberTypes members))
  | record {fields record} (held : schema.fields? name = some fields)
      (kept : types.record? name = some record) : Stands schema types name record
  | cut {fields} (held : schema.fields? name = some fields) (cyclic : name ∈ types.cycles) :
      Stands schema types name (.named (Text.capitalize name))

/-- The entry of a record for a field: its safe name, and its layers around what stands for its
type. -/
def UnfoldsField (schema : Schema) (types : InputTypes) (field : String × TypeRef)
    (entry : String × TypeExpr) : Prop :=
  entry.1 = Name.safe field.1 ∧
    ∃ inner, types.Stands schema field.2.name inner ∧ entry.2 = TypeExpr.wrap field.2.layers inner

/-- A record with one entry for each field of a type, in order. -/
def UnfoldsRecord (schema : Schema) (types : InputTypes) (name : String) (record : TypeExpr) :
    Prop :=
  ∃ fields entries, schema.fields? name = some fields ∧ record = .closed entries ∧
    List.Forall₂ (types.UnfoldsField schema) fields entries

/-- A search only adds to what it remembers. -/
structure Grows (earlier later : InputTypes) : Prop where
  records : earlier.records <+: later.records
  cycles : earlier.cycles <+: later.cycles

/-- What a search remembers on the way below some types: for each type one record, which unfolds it,
and none for those that are being written out. -/
structure Faithful (schema : Schema) (path : List String) (types : InputTypes) : Prop where
  distinct : (types.records.map Prod.fst).Nodup
  unfinished : ∀ name ∈ path, name ∉ types.records.map Prod.fst
  unfolded : ∀ entry ∈ types.records, types.UnfoldsRecord schema entry.1 entry.2

/-- How a visit of a type goes on from what is remembered. -/
structure Visit (schema : Schema) (path : List String) (types : InputTypes) (name : String)
    (result : TypeExpr × InputTypes) : Prop where
  grows : types.Grows result.2
  faithful : result.2.Faithful schema path
  stands : result.2.Stands schema name result.1

/-! ### Growing -/

theorem Grows.refl (types : InputTypes) : types.Grows types :=
  ⟨List.prefix_refl _, List.prefix_refl _⟩

theorem Grows.trans {first second third : InputTypes} (one : first.Grows second)
    (two : second.Grows third) : first.Grows third :=
  ⟨one.records.trans two.records, one.cycles.trans two.cycles⟩

theorem grows_addCycle (types : InputTypes) (name : String) :
    types.Grows (types.addCycle name) := by
  refine ⟨types.records_addCycle name ▸ List.prefix_refl _, ?_⟩
  unfold addCycle
  split
  · exact List.prefix_refl _
  · exact List.prefix_append _ _

theorem grows_keep (types : InputTypes) (name : String) (record : TypeExpr) :
    types.Grows (types.keep name record) :=
  ⟨List.prefix_append _ _, List.prefix_refl _⟩

section Growing

variable {schema : Schema} {earlier later : InputTypes} {name : String}
  (grows : earlier.Grows later)

include grows

/-- A record stays what it is. -/
theorem Grows.record?_eq {record : TypeExpr} (kept : earlier.record? name = some record) :
    later.record? name = some record := by
  obtain ⟨more, longer⟩ := grows.records
  rw [record?, ← longer, List.lookup_append]
  exact Option.or_of_isSome (Option.isSome_of_eq_some kept) ▸ kept

theorem Grows.stands {type : TypeExpr} (stands : earlier.Stands schema name type) :
    later.Stands schema name type := by
  cases stands with
  | scalar leaf => exact .scalar leaf
  | enum body => exact .enum body
  | union body => exact .union body
  | record held kept => exact .record held (grows.record?_eq kept)
  | cut held cyclic => exact .cut held (grows.cycles.subset cyclic)

theorem Grows.unfoldsField {field : String × TypeRef} {entry : String × TypeExpr}
    (unfolds : earlier.UnfoldsField schema field entry) :
    later.UnfoldsField schema field entry := by
  obtain ⟨named, inner, stands, wrapped⟩ := unfolds
  exact ⟨named, inner, grows.stands stands, wrapped⟩

theorem Grows.unfoldsRecord {record : TypeExpr}
    (unfolds : earlier.UnfoldsRecord schema name record) :
    later.UnfoldsRecord schema name record := by
  obtain ⟨fields, entries, held, same, each⟩ := unfolds
  exact ⟨fields, entries, held, same, each.imp fun _ _ => grows.unfoldsField⟩

end Growing

/-! ### What a visit does -/

namespace Faithful

variable {schema : Schema} {path : List String} {types : InputTypes} {name : String}

theorem empty (schema : Schema) : Faithful schema [] {} :=
  ⟨List.nodup_nil, fun _ absent => absurd absent List.not_mem_nil,
    fun _ absent => absurd absent List.not_mem_nil⟩

theorem addCycle (faithful : types.Faithful schema path) (name : String) :
    (types.addCycle name).Faithful schema path := by
  have same := types.records_addCycle name
  refine ⟨same ▸ faithful.distinct, same ▸ faithful.unfinished, ?_⟩
  rw [same]
  exact fun entry member =>
    (types.grows_addCycle name).unfoldsRecord (faithful.unfolded entry member)

/-- A type is written out after the types of its fields. -/
theorem enter (faithful : types.Faithful schema path) (fresh : types.record? name = none) :
    types.Faithful schema (name :: path) where
  distinct := faithful.distinct
  unfinished := List.forall_mem_cons.mpr
    ⟨Dictionary.lookup_eq_none_iff.mp fresh, faithful.unfinished⟩
  unfolded := faithful.unfolded

/-- A record is kept where none was kept before. -/
theorem keep {record : TypeExpr} (faithful : types.Faithful schema (name :: path))
    (off : name ∉ path) (unfolds : types.UnfoldsRecord schema name record) :
    (types.keep name record).Faithful schema path := by
  obtain ⟨fresh, others⟩ := List.forall_mem_cons.mp faithful.unfinished
  have names : (types.keep name record).records.map Prod.fst =
      types.records.map Prod.fst ++ [name] := by
    simp [InputTypes.keep]
  have grows := types.grows_keep name record
  refine ⟨?_, ?_, ?_⟩
  · rw [names]
    simpa using faithful.distinct.concat fresh
  · intro other below
    rw [names, List.mem_append, List.mem_singleton, not_or]
    exact ⟨others other below, fun same => off (same ▸ below)⟩
  · intro entry member
    rcases List.mem_append.mp member with old | new
    · exact grows.unfoldsRecord (faithful.unfolded entry old)
    · rw [List.mem_singleton.mp new]
      exact grows.unfoldsRecord unfolds

/-- The fields of a type are visited one after another, and what stands for the earlier ones still
does so afterwards. -/
theorem mapFields {depth : Nat}
    (visit : ∀ {name types}, Faithful schema path types →
      Visit schema path types name (typeOfName schema depth path name types))
    (fields : List (String × TypeRef)) {types : InputTypes}
    (faithful : types.Faithful schema path) :
    let mapped := types.mapFields (fieldType schema depth path) fields
    types.Grows mapped.2 ∧ mapped.2.Faithful schema path ∧
      List.Forall₂ (mapped.2.UnfoldsField schema) fields mapped.1 := by
  induction fields generalizing types with
  | nil => exact ⟨.refl _, faithful, .nil⟩
  | cons first rest ih =>
      obtain ⟨name, ref⟩ := first
      obtain ⟨grows, faithful', stands⟩ := @visit ref.name _ faithful
      obtain ⟨grows', faithful'', others⟩ := ih faithful'
      exact ⟨grows.trans grows', faithful'', .cons ⟨rfl, _, grows'.stands stands, rfl⟩ others⟩

/-- A type without fields is not remembered. -/
theorem visit_of_fieldless (faithful : types.Faithful schema path)
    (fieldless : schema.fields? name = none) (depth : Nat) :
    Visit schema path types name (typeOfName schema (depth + 1) path name types) := by
  cases found : schema.get? name with
  | none =>
      simp only [typeOfName, found]
      exact ⟨.refl types, faithful, .scalar (Or.inl found)⟩
  | some body =>
      rw [Schema.fields?, found, Option.bind_some] at fieldless
      cases body with
      | object | interface | inputObject => exact absurd fieldless (Option.some_ne_none _)
      | scalar =>
          simp only [typeOfName, found]
          exact ⟨.refl types, faithful, .scalar (Or.inr found)⟩
      | enum values =>
          simp only [typeOfName, found]
          exact ⟨.refl types, faithful, .enum found⟩
      | union members =>
          simp only [typeOfName, found]
          exact ⟨.refl types, faithful, .union found⟩

/-- A visit keeps what is remembered faithful. The record of a type is kept after those of the types
of its fields, and a field that leads back to a type on the way is cut. -/
theorem visit (depth : Nat) :
    ∀ {path : List String} {name : String} {types : InputTypes},
      InputPath schema depth path → types.Faithful schema path →
      Visit schema path types name (typeOfName schema depth path name types) := by
  induction depth with
  | zero => exact fun way _ => absurd rfl way.depth_ne_zero
  | succ depth ih =>
      intro path name types way faithful
      cases held : schema.fields? name with
      | none => exact faithful.visit_of_fieldless held depth
      | some fields =>
          rw [typeOfName_of_fields held]
          cases kept : types.record? name with
          | some record => exact ⟨.refl _, faithful, .record held kept⟩
          | none =>
              by_cases below : name ∈ path
              · simp only [List.contains_iff_mem.mpr below, if_true]
                exact ⟨types.grows_addCycle name, faithful.addCycle name,
                  .cut held (types.mem_addCycle name)⟩
              · simp only [List.contains_iff_mem, below, if_false]
                -- the type itself is recorded last, when nothing has recorded it in between
                have inside := way.enter held below
                obtain ⟨grows, entered, each⟩ :=
                  (faithful.enter kept).mapFields (ih inside) fields
                have written := entered.keep below ⟨fields, _, held, rfl, each⟩
                have recorded := Dictionary.lookup_of_mem written.distinct
                  (List.mem_append_right _ List.mem_cons_self)
                exact ⟨grows.trans (grows_keep _ _ _), written, .record held recorded⟩

/-- The type of a variable is visited on no way. -/
theorem visitType (faithful : types.Faithful schema []) (ref : TypeRef) :
    Visit schema [] types ref.name
      (typeOfName schema (schema.types.length + 1) [] ref.name types) :=
  visit _ (.start schema) faithful

theorem after (schema : Schema) (refs : List TypeRef) :
    (after schema refs).Faithful schema [] := by
  induction refs using List.reverseRecOn with
  | nil => exact .empty schema
  | append_singleton refs ref ih =>
      rw [after_concat]
      exact (ih.visitType ref).faithful

end Faithful

/-! ### What is remembered in the end -/

/-- Later visits only add to what is remembered. -/
theorem grows_after (schema : Schema) (refs more : List TypeRef) :
    (after schema refs).Grows (after schema (refs ++ more)) := by
  induction more using List.reverseRecOn with
  | nil => exact (List.append_nil refs).symm ▸ .refl _
  | append_singleton more ref ih =>
      rw [← List.append_assoc, after_concat]
      exact ih.trans ((Faithful.after schema (refs ++ more)).visitType ref).grows

/-- Something stands for the type of every reference that was visited. -/
theorem exists_stands_after {schema : Schema} {refs : List TypeRef} {ref : TypeRef}
    (member : ref ∈ refs) : ∃ type, (after schema refs).Stands schema ref.name type := by
  obtain ⟨before, more, rfl⟩ := List.append_of_mem member
  have visited := ((Faithful.after schema before).visitType ref).stands
  have grows := grows_after schema (before ++ [ref]) more
  rw [after_concat] at grows
  rw [List.append_cons]
  exact ⟨_, grows.stands visited⟩

/-- Every type at which the search was cut has a record in the end. -/
theorem record_of_cycle_after {schema : Schema} {refs : List TypeRef} {name : String}
    (cyclic : name ∈ (after schema refs).cycles) :
    ∃ record, (after schema refs).record? name = some record := by
  obtain ⟨record, _, kept, _⟩ := (Aligned.after schema refs).object_of_cycle cyclic
  exact ⟨record, kept⟩

section

variable {schema : Schema} {refs : List TypeRef} {name : String}

/-- What stands for a type with fields is or names its record. -/
theorem Stands.exists_record {type : TypeExpr} {fields : List (String × TypeRef)}
    (stands : (after schema refs).Stands schema name type)
    (held : schema.fields? name = some fields) :
    ∃ record, (after schema refs).record? name = some record := by
  cases stands with
  | scalar leaf =>
      rcases leaf with body | body
      all_goals
        rw [Schema.fields?, body] at held
        exact absurd held.symm (Option.some_ne_none _)
  | enum body | union body =>
      rw [Schema.fields?, body] at held
      exact absurd held.symm (Option.some_ne_none _)
  | record _ kept => exact ⟨_, kept⟩
  | cut _ cyclic => exact record_of_cycle_after cyclic

theorem unfoldsRecord_after {record : TypeExpr}
    (kept : (after schema refs).record? name = some record) :
    (after schema refs).UnfoldsRecord schema name record :=
  (Faithful.after schema refs).unfolded _ (Dictionary.mem_of_lookup kept)

/-- Something stands for every type to which fields lead. -/
theorem Stands.of_reaches {target : String} (reached : schema.Reaches name target) :
    (∃ type, (after schema refs).Stands schema name type) →
      ∃ type, (after schema refs).Stands schema target type := by
  induction reached with
  | refl => exact id
  | @field name fields field target held member _ ih =>
      rintro ⟨_, stands⟩
      obtain ⟨record, kept⟩ := stands.exists_record held
      obtain ⟨fields', _, held', _, each⟩ := unfoldsRecord_after kept
      obtain rfl := Option.some.inj (held.symm.trans held')
      obtain ⟨_, _, _, inner, stands', _⟩ := Forall₂.exists_right each member
      exact ih ⟨inner, stands'⟩

end

/-- After any visits, there is a record for every type with fields to which fields lead from the
references. Every record unfolds its type: it has a field for every field of the type, in order,
under its safe name, and in its layers a scalar, an enumeration, a union, the record of the type of
the field, or the name of that type, if the search was cut there. Every type at which the search was
cut is noted once and has a record. Each type is recorded once, and whatever is visited afterwards
only adds records, so that those that are there stay as they are. -/
theorem after_unfolds (schema : Schema) (refs more : List TypeRef) :
    (∀ ref ∈ refs, ∀ name fields, schema.Reaches ref.name name →
      schema.fields? name = some fields →
        ∃ record, (after schema refs).record? name = some record) ∧
    (∀ name record, (after schema refs).record? name = some record →
      (after schema refs).UnfoldsRecord schema name record) ∧
    (after schema refs).cycles.Nodup ∧
    (∀ name ∈ (after schema refs).cycles,
      ∃ record, (after schema refs).record? name = some record) ∧
    ((after schema refs).records.map Prod.fst).Nodup ∧
    (after schema refs).records <+: (after schema (refs ++ more)).records ∧
    ∀ name record, (after schema refs).record? name = some record →
      (after schema (refs ++ more)).record? name = some record := by
  have grows := grows_after schema refs more
  refine ⟨?_, fun _ _ => unfoldsRecord_after, (Aligned.after schema refs).nodup,
    fun _ => record_of_cycle_after, (Faithful.after schema refs).distinct, grows.records,
    fun _ _ => grows.record?_eq⟩
  intro ref member name fields reached held
  obtain ⟨_, stands⟩ := Stands.of_reaches reached (exists_stands_after member)
  exact stands.exists_record held

end InputTypes

/-- A person and a group contain each other, and the search is cut at the one that is visited first.
The record of the person is written out inside the group, and it is the same when the person is
visited. -/
theorem club_unfolds :
    (InputTypes.after clubSchema [.named "Group", .named "Person"]).cycles = ["Group"] ∧
      (InputTypes.after clubSchema [.named "Person", .named "Group"]).cycles = ["Person"] ∧
      ∃ record, (InputTypes.after clubSchema [.named "Group"]).record? "Person" = some record ∧
        (InputTypes.after clubSchema [.named "Group"]).UnfoldsRecord clubSchema "Person" record ∧
        (InputTypes.after clubSchema [.named "Group", .named "Person"]).record? "Person" =
          some record := by
  obtain ⟨covers, unfolds, _, _, _, _, stays⟩ :=
    InputTypes.after_unfolds clubSchema [.named "Group"] [.named "Person"]
  have owned : clubSchema.Reaches "Group" "Person" := .field rfl List.mem_cons_self (.refl _)
  have person : clubSchema.fields? "Person" =
      some [("groups", .list (.named "Group")), ("name", .named "String")] := rfl
  obtain ⟨record, kept⟩ := covers (.named "Group") List.mem_cons_self "Person" _ owned person
  exact ⟨rfl, rfl, record, kept, unfolds _ _ kept, stays _ _ kept⟩

end ElmClient
