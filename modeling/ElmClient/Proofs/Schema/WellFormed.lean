/-
Module: ElmClient.Proofs.Schema.WellFormed
Purpose: Fields lead from one type of a schema to others. However a schema is read, the fields of a
  type have distinct names, and no reference carries a mark directly inside a mark; the references
  in an executable document carry none either.
Main exports: Schema.fields?, Schema.Reaches, Schema.UnionFree, TypeRef.isProper,
  Schema.WellFormed, Schema.ofText_wellFormed, Schema.ofIntrospectionText_wellFormed,
  Document.parse_properTypes
-/
import ElmClient.Proofs.Dictionary
import ElmClient.Proofs.OperationNames
import ElmClient.Schema.Definitions
import ElmClient.Schema.Introspection

namespace ElmClient

open GraphQL

/-! ### Where fields lead -/

namespace Schema

/-- The fields of the type of a name, if it has fields. -/
def fields? (schema : Schema) (name : String) : Option (List (String × TypeRef)) :=
  (schema.get? name).bind TypeBody.fields?

/-- Fields lead from a type to itself and to wherever they lead from the types of its fields. -/
inductive Reaches (schema : Schema) : String → String → Prop where
  | refl (name : String) : Reaches schema name name
  | field {name fields field target} (held : schema.fields? name = some fields)
      (member : field ∈ fields) (later : Reaches schema field.2.name target) :
      Reaches schema name target

/-- A type from which no field leads to a union. -/
def UnionFree (schema : Schema) (name : String) : Prop :=
  ∀ target, schema.Reaches name target → schema.unionMembers? target = none

theorem UnionFree.field {schema : Schema} {name : String} {fields : List (String × TypeRef)}
    {field : String × TypeRef} (free : schema.UnionFree name)
    (held : schema.fields? name = some fields) (member : field ∈ fields) :
    schema.UnionFree field.2.name :=
  fun target later => free target (.field held member later)

/-- A type is free of unions if it is in a set of types that is closed under fields and has no
union in it. -/
theorem UnionFree.of_closed {schema : Schema} {names : List String}
    (closed : ∀ name ∈ names, schema.unionMembers? name = none ∧
      ∀ field ∈ (schema.fields? name).getD [], field.2.name ∈ names)
    {name : String} (member : name ∈ names) : schema.UnionFree name := by
  intro target reached
  induction reached with
  | refl name => exact (closed name member).1
  | field held among _ ih => exact ih ((closed _ member).2 _ (by rwa [held]))

end Schema

/-! ### References -/

namespace GraphQL.TypeRef

/-- Whether a reference has no mark directly inside a mark. -/
def isProper : TypeRef → Bool
  | .named _ => true
  | .list item => item.isProper
  | .nonNull inner => !inner.isNonNull && inner.isProper

@[simp] theorem isProper_required {type : TypeRef} (proper : type.isProper = true) :
    type.required.isProper = true := by
  cases type with
  | nonNull inner => exact proper
  | named name => rfl
  | list item => simpa [required, isProper, isNonNull] using proper

end GraphQL.TypeRef

/-- Fields with proper references as types. -/
def GraphQL.ProperFields (fields : List (String × TypeRef)) : Prop :=
  ∀ field ∈ fields, field.2.isProper = true

namespace GraphQL.TypeBody

/-- A body whose fields have proper types. -/
def Proper (body : TypeBody) : Prop := ∀ fields, body.fields? = some fields → ProperFields fields

/-- A body whose fields have distinct names and proper types. -/
def WellFormed (body : TypeBody) : Prop :=
  ∀ fields, body.fields? = some fields → (fields.map Prod.fst).Nodup ∧ ProperFields fields

theorem Proper.distinct {body : TypeBody} (proper : body.Proper) : body.distinct.WellFormed := by
  have listed {fields : List (String × TypeRef)} (held : body.fields? = some fields) :
      ((Dictionary.ofList fields).map Prod.fst).Nodup ∧ ProperFields (Dictionary.ofList fields) :=
    ⟨Dictionary.nodup_ofList fields,
      fun field member => proper fields held field (Dictionary.mem_ofList member)⟩
  intro fields held
  cases body with
  | scalar | enum | union => exact nomatch held
  | object held' | interface held' | inputObject held' =>
      obtain rfl := Option.some.inj held
      exact listed rfl

theorem WellFormed.extend {base extension : TypeBody} (one : base.WellFormed)
    (two : extension.WellFormed) : (base.extend extension).WellFormed := by
  have extended {fields more : List (String × TypeRef)} (held : base.fields? = some fields)
      (held' : extension.fields? = some more) :
      ((Dictionary.extend fields more).map Prod.fst).Nodup ∧
        ProperFields (Dictionary.extend fields more) := by
    refine ⟨Dictionary.nodup_extend more (one fields held).1, fun field member => ?_⟩
    rcases Dictionary.mem_extend member with old | new
    · exact (one fields held).2 field old
    · exact (two more held').2 field new
  unfold TypeBody.extend
  split
  · intro fields held
    obtain rfl := Option.some.inj held
    exact extended rfl rfl
  · intro fields held
    obtain rfl := Option.some.inj held
    exact extended rfl rfl
  · intro fields held
    obtain rfl := Option.some.inj held
    exact extended rfl rfl
  · exact fun fields held => nomatch held
  · exact fun fields held => nomatch held
  · exact two

end GraphQL.TypeBody

/-! ### Schemas -/

/-- A schema in which every type has fields with distinct names and proper types. -/
def Schema.WellFormed (schema : Schema) : Prop :=
  ∀ name body, schema.get? name = some body → body.WellFormed

namespace Schema

/-- A schema is well formed if each of its types is. -/
theorem WellFormed.of_types {schema : Schema}
    (each : ∀ entry ∈ schema.types, ((entry.2.fields?.getD []).map Prod.fst).Nodup ∧
      ∀ field ∈ entry.2.fields?.getD [], field.2.isProper = true) : schema.WellFormed := by
  intro name body found fields held
  have here := each _ (Dictionary.mem_of_lookup found)
  rw [held] at here
  exact here

theorem WellFormed.fields {schema : Schema} (wellFormed : schema.WellFormed) {name : String}
    {fields : List (String × TypeRef)} (held : schema.fields? name = some fields) :
    (fields.map Prod.fst).Nodup ∧ ProperFields fields := by
  obtain ⟨body, found, fieldsOf⟩ := Option.bind_eq_some_iff.mp held
  exact wellFormed name body found fields fieldsOf

theorem WellFormed.insert {schema : Schema} (wellFormed : schema.WellFormed)
    {definition : TypeDefinition} (proper : definition.body.WellFormed) :
    (schema.insert definition).WellFormed := by
  intro name body found
  by_cases same : name = definition.name
  · subst same
    rw [get?, Schema.insert, Dictionary.lookup_insert_self] at found
    obtain rfl := Option.some.inj found
    exact proper
  · rw [get?, Schema.insert, Dictionary.lookup_insert_of_ne same] at found
    exact wellFormed name body found

theorem builtin_wellFormed : builtin.WellFormed := by
  intro name body found fields held
  obtain ⟨_, _, same⟩ := List.mem_map.mp (Dictionary.mem_of_lookup found)
  obtain ⟨_, rfl⟩ := Prod.mk.inj same
  exact nomatch held

/-- The roots of a schema have no part in its types. -/
theorem WellFormed.inferRoots {schema result : Schema} (wellFormed : schema.WellFormed)
    (inferred : schema.inferRoots = .ok result) : result.WellFormed := by
  obtain ⟨_, same⟩ := Except.error_ite_eq_ok.mp inferred
  obtain rfl := Except.ok.inj same
  exact wellFormed

end Schema

/-! ### Type system documents -/

namespace GraphQL

/-- The names in the body of a type, those of fields aside: members of a union and values of an
enumeration. -/
def TypeBody.partNames : TypeBody → List String
  | .union names | .enum names => names
  | .scalar | .object _ | .interface _ | .inputObject _ => []

/-- A body of the grammar: fields have proper types, and other parts are names. -/
structure TypeBody.Legal (body : TypeBody) : Prop where
  proper : body.Proper
  named : ∀ part ∈ body.partNames, isName part = true

/-- A definition of the grammar. That of a type has a name and a body of the grammar. -/
def TypeSystemDefinition.Legal (definition : TypeSystemDefinition) : Prop :=
  ∀ isExtension type, definition = .type isExtension type →
    isName type.name = true ∧ type.body.Legal

end GraphQL

namespace GraphQL.Reader

variable {α : Type}

theorem typeHere_yields (depth : Nat) :
    Yields (typeHere depth) fun type => type.isProper = true := by
  induction depth with
  | zero => exact .fail
  | succ depth ih =>
      have base : Yields ((TypeRef.named <$> nameHere) <|> (do
          exactly "["
          let item ← typeHere depth
          exactly "]"
          pure (TypeRef.list item))) fun type => type.isProper = true := by
        refine .orElse (.map ((Yields.any _).imp fun _ _ => rfl)) ?_
        exact .andThen fun _ => ih.bind fun item proper => .andThen fun _ => .pure proper
      refine base.bind fun type proper => .orElse ?_ (.pure proper)
      exact .andThen fun _ => .pure (TypeRef.isProper_required proper)

theorem type_yields : Yields type fun type => type.isProper = true :=
  .andThen fun _ => .andThen fun depth => typeHere_yields depth

theorem inputValueDefinition_yields :
    Yields inputValueDefinition fun field => field.2.isProper = true :=
  .andThen fun _ => .andThen fun _ => .andThen fun _ => type_yields.bind fun _ proper =>
    .andThen fun _ => .andThen fun _ => .pure proper

theorem fieldDefinition_yields : Yields fieldDefinition fun field => field.2.isProper = true :=
  .andThen fun _ => .andThen fun _ => .andThen fun _ => .andThen fun _ => type_yields.bind
    fun _ proper => .andThen fun _ => .pure proper

theorem braced_yields {item : Reader α} {property : α → Prop} (each : Yields item property) :
    Yields (braced item) fun items => ∀ item ∈ items, property item :=
  .andThen fun _ => each.many1.bind fun _ all => .andThen fun _ => .pure all

theorem enumName_yields : Yields enumName fun name => isName name = true :=
  .andThen fun _ => .andThen fun _ => .andThen fun _ => .andThen fun _ => nameHere_yields

theorem enumValueDefinition_yields : Yields enumValueDefinition fun value => isName value = true :=
  .andThen fun _ => enumName_yields.bind fun _ legal => .andThen fun _ => .pure legal

theorem unionMembers_yields :
    Yields unionMembers fun members => ∀ member ∈ members, isName member = true := by
  have later : Yields (do
      token "|"
      name) fun name => isName name = true := .andThen fun _ => name_yields
  exact .andThen fun _ => .andThen fun _ => name_yields.bind fun _ here =>
    later.many.bind fun _ all => .pure (List.forall_mem_cons.mpr ⟨here, all⟩)

/-- A body that is legal whatever parts come is read as one. -/
theorem plainType_yields {keyword : String} {before : Reader Unit} {parts : Reader (List α)}
    {body : List α → TypeBody} {property : α → Prop}
    (each : Yields parts fun items => ∀ item ∈ items, property item)
    (legal : ∀ items, (∀ item ∈ items, property item) → (body items).Legal) :
    Yields (plainType keyword before parts body) TypeSystemDefinition.Legal := by
  refine .andThen fun _ => .andThen fun _ => name_yields.bind fun name named =>
    .andThen fun _ => .andThen fun _ => each.orEmpty.bind fun items all => .pure ?_
  rintro _ _ ⟨⟩
  exact ⟨named, legal items all⟩

theorem typeExtension_yields {keyword : String} {before : Reader Unit} {parts : Reader (List α)}
    {body : List α → TypeBody} {property : α → Prop}
    (each : Yields parts fun items => ∀ item ∈ items, property item)
    (legal : ∀ items, (∀ item ∈ items, property item) → (body items).Legal) :
    Yields (typeExtension keyword before parts body) TypeSystemDefinition.Legal := by
  have items : Yields ((do
      let _ ← directives true
      parts) <|> (do
      let _ ← directives1 true
      pure [])) fun items => ∀ item ∈ items, property item :=
    .orElse (.andThen fun _ => each) (.andThen fun _ => .pure (by simp))
  refine .andThen fun _ => .andThen fun _ => name_yields.bind fun name named =>
    .andThen fun _ => items.bind fun items all => .pure ?_
  rintro _ _ ⟨⟩
  exact ⟨named, legal items all⟩

/-- A type of a kind and its extensions. -/
theorem typeKind_yields {keyword : String} {before : Reader Unit} {parts : Reader (List α)}
    {body : List α → TypeBody} {property : α → Prop}
    (each : Yields parts fun items => ∀ item ∈ items, property item)
    (legal : ∀ items, (∀ item ∈ items, property item) → (body items).Legal) :
    Yields (plainType keyword before parts body <|> typeExtension keyword before parts body)
      TypeSystemDefinition.Legal :=
  .orElse (plainType_yields each legal) (typeExtension_yields each legal)

/-- A body that has fields has no other parts. -/
theorem legal_of_fields {body : List (String × TypeRef) → TypeBody}
    (held : ∀ fields, (body fields).fields? = some fields)
    (alone : ∀ fields, (body fields).partNames = []) (fields : List (String × TypeRef))
    (proper : ∀ field ∈ fields, field.2.isProper = true) : (body fields).Legal where
  proper given same := by
    obtain rfl := Option.some.inj ((held fields).symm.trans same)
    exact proper
  named := by
    rw [alone]
    exact fun _ absent => absurd absent List.not_mem_nil

/-- A body that has parts has no fields. -/
theorem legal_of_parts {body : List String → TypeBody}
    (fieldless : ∀ parts, (body parts).fields? = none)
    (held : ∀ parts, (body parts).partNames = parts) (parts : List String)
    (named : ∀ part ∈ parts, isName part = true) : (body parts).Legal where
  proper given same := by
    rw [fieldless] at same
    exact nomatch same
  named := by
    rw [held]
    exact named

theorem objectType_yields : Yields objectType TypeSystemDefinition.Legal := by
  have legal := @legal_of_fields .object (fun _ => rfl) fun _ => rfl
  have each := braced_yields fieldDefinition_yields
  refine .orElse (plainType_yields each legal) (.orElse (typeExtension_yields each legal) ?_)
  refine .andThen fun _ => .andThen fun _ => name_yields.bind fun name named =>
    .andThen fun _ => .pure ?_
  rintro _ _ ⟨⟩
  exact ⟨named, legal [] (by simp)⟩

theorem typeSystemDefinition_yields : Yields typeSystemDefinition TypeSystemDefinition.Legal := by
  have noType : ∀ roots, (TypeSystemDefinition.schema roots).Legal := by
    rintro _ _ _ ⟨⟩
  refine .orElse ?schema (.orElse ?scalar (.orElse objectType_yields (.orElse ?interface
    (.orElse ?union (.orElse ?enum (.orElse ?input ?directive))))))
  case schema =>
    refine .orElse ?_ ?_
    · refine .andThen fun _ => .andThen fun _ => .andThen fun roots => ?_
      split
      · exact .andThen fun _ => .pure (noType roots)
      · exact .pure (noType roots)
    · exact .andThen fun _ => .andThen fun _ => .andThen fun roots => .pure (noType roots)
  case scalar =>
    have none : Yields (failure : Reader (List Unit)) fun items => ∀ item ∈ items, True := .fail
    refine typeKind_yields none fun _ _ => ⟨fun _ held => ?_, fun _ absent => ?_⟩
    · exact nomatch held
    · exact absurd absent List.not_mem_nil
  case interface =>
    exact typeKind_yields (braced_yields fieldDefinition_yields)
      (legal_of_fields (fun _ => rfl) fun _ => rfl)
  case union =>
    exact typeKind_yields unionMembers_yields (legal_of_parts (fun _ => rfl) fun _ => rfl)
  case enum =>
    exact typeKind_yields (braced_yields enumValueDefinition_yields)
      (legal_of_parts (fun _ => rfl) fun _ => rfl)
  case input =>
    exact typeKind_yields (braced_yields inputValueDefinition_yields)
      (legal_of_fields (fun _ => rfl) fun _ => rfl)
  case directive =>
    refine .andThen fun _ => .andThen fun _ => .andThen fun _ => .andThen fun _ =>
      .andThen fun _ => .andThen fun _ => .andThen fun _ => .andThen fun _ => .andThen fun _ =>
        .andThen fun _ => .pure ?_
    rintro _ _ ⟨⟩

end GraphQL.Reader

namespace Schema

theorem WellFormed.define {schema : Schema} (wellFormed : schema.WellFormed)
    {definition : TypeSystemDefinition} (legal : definition.Legal) :
    (schema.define definition).WellFormed := by
  unfold Schema.define
  split
  · exact wellFormed
  · next definition => exact wellFormed.insert (legal false definition rfl).2.proper.distinct
  · next definition =>
      have extension := (legal true definition rfl).2.proper.distinct
      apply wellFormed.insert
      cases found : schema.get? definition.name with
      | none => simpa only [found] using extension
      | some base => simpa only [found] using (wellFormed _ base found).extend extension
  · exact wellFormed

/-- What the built-in types have, every definition of the grammar keeps and the roots leave alone is
had by every schema that is read from type definitions. -/
theorem ofText_induction {holds : Schema → Prop} {text : String} {schema : Schema}
    (read : ofText text = .ok schema) (start : holds builtin)
    (step : ∀ before definition, holds before → TypeSystemDefinition.Legal definition →
      holds (before.define definition))
    (finish : ∀ before after, holds before → before.inferRoots = .ok after → holds after) :
    holds schema := by
  unfold ofText at read
  split at read
  · exact nomatch read
  · next definitions parsed =>
      have legal := Reader.typeSystemDefinition_yields.many1.of_run? parsed
      have folded (definitions : List TypeSystemDefinition)
          (all : ∀ definition ∈ definitions, definition.Legal) {before : Schema}
          (kept : holds before) : holds (definitions.foldl Schema.define before) := by
        induction definitions generalizing before with
        | nil => exact kept
        | cons first rest ih =>
            have ⟨here, later⟩ := List.forall_mem_cons.mp all
            exact ih later (step before first kept here)
      exact finish _ _ (folded definitions legal start) read

/-- A schema that is read from type definitions is well formed. -/
theorem ofText_wellFormed {text : String} {schema : Schema} (read : ofText text = .ok schema) :
    schema.WellFormed :=
  ofText_induction read builtin_wellFormed (fun _ _ wellFormed legal => wellFormed.define legal)
    fun _ _ wellFormed inferred => wellFormed.inferRoots inferred

end Schema

/-! ### Answers to introspection -/

namespace Introspection

theorem TypeRefEntry.typeRef?_proper :
    ∀ {entry : TypeRefEntry} {type : TypeRef}, entry.typeRef? = some type → type.isProper = true
  | .mk kind name inner, type, made => by
      unfold TypeRefEntry.typeRef? at made
      split at made
      · cases inner with
        | none => exact nomatch made
        | some entry =>
            obtain ⟨below, made', rfl⟩ := Option.map_eq_some_iff.mp made
            have proper := typeRef?_proper made'
            exact TypeRef.isProper_required proper
      · split at made
        · cases inner with
          | none => exact nomatch made
          | some entry =>
              obtain ⟨below, made', rfl⟩ := Option.map_eq_some_iff.mp made
              have proper := typeRef?_proper made'
              exact proper
        · obtain ⟨_, _, rfl⟩ := Option.map_eq_some_iff.mp made
          rfl

theorem fieldTypes_proper {owner : String} {entries : List FieldEntry}
    {fields : List (String × TypeRef)} (made : fieldTypes owner entries = .ok fields) :
    ProperFields fields := by
  induction entries generalizing fields with
  | nil =>
      obtain rfl := Except.ok.inj made
      exact fun _ member => absurd member List.not_mem_nil
  | cons first rest ih =>
      unfold fieldTypes at made
      split at made
      · exact nomatch made
      · next type typed =>
          obtain ⟨types, others, same⟩ := Except.bind_eq_ok.mp made
          obtain rfl := Except.pure_eq_ok.mp same
          exact List.forall_mem_cons.mpr ⟨TypeRefEntry.typeRef?_proper typed, ih others⟩

theorem TypeEntry.definition_wellFormed {entry : TypeEntry} {definition : TypeDefinition}
    (made : entry.definition = .ok definition) : definition.body.WellFormed := by
  have named {body : Except SchemaError TypeBody}
      (proper : ∀ made, body = .ok made → made.Proper)
      (made : (do
        let body ← body
        pure ⟨entry.name, body.distinct⟩ : Except SchemaError TypeDefinition) = .ok definition) :
      definition.body.WellFormed := by
    obtain ⟨body, chosen, same⟩ := Except.bind_eq_ok.mp made
    obtain rfl := Except.pure_eq_ok.mp same
    exact (proper body chosen).distinct
  have noFields {body : TypeBody} (none : body.fields? = Option.none) :
      ∀ made, (pure body : Except SchemaError TypeBody) = .ok made → made.Proper := by
    intro made chosen fields held
    obtain rfl := Except.pure_eq_ok.mp chosen
    rw [none] at held
    exact nomatch held
  have fieldsOf {make : List (String × TypeRef) → TypeBody} {entries : List FieldEntry}
      (held : ∀ fields, (make fields).fields? = some fields) :
      ∀ made, make <$> fieldTypes entry.name entries = .ok made → made.Proper := by
    intro made chosen fields same
    obtain ⟨listed, typed, rfl⟩ := Except.map_eq_ok.mp chosen
    obtain rfl := Option.some.inj ((held listed).symm.trans same)
    exact fieldTypes_proper typed
  unfold TypeEntry.definition at made
  dsimp only at made
  split at made
  · exact named (noFields rfl) made
  · exact named (noFields rfl) made
  · exact named (fieldsOf fun _ => rfl) made
  · exact named (fieldsOf fun _ => rfl) made
  · exact named (fieldsOf fun _ => rfl) made
  · exact named (noFields rfl) made
  · exact nomatch made

end Introspection

namespace Schema

/-- A schema that is read from an answer to an introspection query is well formed. -/
theorem ofIntrospectionText_wellFormed {text : String} {schema : Schema}
    (read : ofIntrospectionText text = .ok schema) : schema.WellFormed := by
  unfold ofIntrospectionText at read
  split at read
  · exact nomatch read
  · split at read
    · exact nomatch read
    · next introspection _ =>
        obtain ⟨definitions, made, inferred⟩ := Except.bind_eq_ok.mp read
        have proper : ∀ definition ∈ definitions, definition.body.WellFormed := by
          intro definition member
          obtain ⟨_, _, defined⟩ := Forall₂.exists_left (Except.mapM_eq_ok.mp made) member
          exact Introspection.TypeEntry.definition_wellFormed defined
        have folded (definitions : List TypeDefinition)
            (all : ∀ definition ∈ definitions, definition.body.WellFormed) {start : Schema}
            (wellFormed : start.WellFormed) :
            (definitions.foldl (fun schema definition => schema.insert definition)
              start).WellFormed := by
          induction definitions generalizing start with
          | nil => exact wellFormed
          | cons first rest ih =>
              have ⟨here, later⟩ := List.forall_mem_cons.mp all
              exact ih later (wellFormed.insert here)
        have wellFormed : Schema.WellFormed
            { definitions.foldl (fun schema definition => schema.insert definition) builtin with
              roots := introspection.roots } :=
          folded definitions proper builtin_wellFormed
        exact wellFormed.inferRoots inferred

end Schema

/-! ### Executable documents -/

/-- A document whose variables have proper types. -/
def GraphQL.Document.ProperTypes (document : Document) : Prop :=
  ∀ operation ∈ document.operations, ∀ definition ∈ operation.definitions,
    definition.type.isProper = true

/-- The variables of an operation that is read have proper types. -/
theorem GraphQL.Reader.operation_yields_properTypes :
    Yields operation fun operation => ∀ definition ∈ operation.definitions,
      definition.type.isProper = true := by
  have each : Yields variableDefinition fun definition => definition.type.isProper = true :=
    .andThen fun _ => .andThen fun _ => .andThen fun _ => type_yields.bind fun _ proper =>
      .andThen fun _ => .andThen fun _ => .pure proper
  have all : Yields variableDefinitions fun definitions => ∀ definition ∈ definitions,
      definition.type.isProper = true :=
    .andThen fun _ => each.many.bind fun _ proper => .andThen fun _ => .pure proper
  refine .orElse ?_ ?_
  · exact .andThen fun _ => .andThen fun _ => .andThen fun _ => all.orEmpty.bind fun _ proper =>
      .andThen fun _ => .andThen fun _ => .pure proper
  · exact .andThen fun _ => .pure (by simp)

theorem GraphQL.Document.parse_properTypes {text : String} {document : Document}
    (read : parse text = .ok document) : document.ProperTypes :=
  operations_of_parse Reader.operation_yields_properTypes read

end ElmClient
