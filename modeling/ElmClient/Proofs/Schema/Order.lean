/-
Module: ElmClient.Proofs.Schema.Order
Purpose: What the order of a type system document has to do with its schema. Where definitions do
  not contradict one another, the roots and the kinds of types are the same in every order. The
  parts of a type are not: a definition replaces what extensions of its type have made before it, so
  an extension counts only if it stands behind the definition.
Main exports: TypeBody.parts, TypeSystemDefinition.GoesWith, Coherent, Counts, Schema.IsToldBy,
  Schema.foldl_define_isToldBy, Schema.ofText_reordered
-/
import ElmClient.Proofs.Schema.Sources
import Mathlib.Data.List.Pairwise

namespace ElmClient

open GraphQL

/-! ### Kinds and parts of types -/

namespace GraphQL

/-- The kinds of types. -/
inductive TypeKind where
  | scalar
  | enum
  | object
  | interface
  | inputObject
  | union
deriving DecidableEq, Repr, Inhabited

namespace TypeBody

/-- The kind of a type. -/
def kind : TypeBody → TypeKind
  | .scalar => .scalar
  | .enum _ => .enum
  | .object _ => .object
  | .interface _ => .interface
  | .inputObject _ => .inputObject
  | .union _ => .union

/-- The parts of a type: fields with their types, or else values or members. -/
def parts : TypeBody → List (String × Option TypeRef)
  | .scalar => []
  | .enum names | .union names => names.map fun name => (name, none)
  | .object fields | .interface fields | .inputObject fields =>
      fields.map fun field => (field.1, some field.2)

/-- Types of which no part has the name of a part of the other. -/
def Apart (one other : TypeBody) : Prop :=
  ∀ part ∈ one.parts, ∀ part' ∈ other.parts, part.1 ≠ part'.1

instance (one other : TypeBody) : Decidable (one.Apart other) :=
  inferInstanceAs (Decidable (∀ part ∈ one.parts, ∀ part' ∈ other.parts, part.1 ≠ part'.1))

theorem kind_distinct (body : TypeBody) : body.distinct.kind = body.kind := by
  cases body <;> rfl

/-- Of repeated fields one is kept, so no part is new. -/
theorem mem_of_mem_parts_distinct {body : TypeBody} {part : String × Option TypeRef}
    (member : part ∈ body.distinct.parts) : part ∈ body.parts := by
  cases body with
  | scalar | enum names | union names => exact member
  | object fields | interface fields | inputObject fields =>
      obtain ⟨field, there, rfl⟩ := List.mem_map.mp member
      exact List.mem_map_of_mem (Dictionary.mem_ofList there)

/-- A type with parts keeps at least one of them. -/
theorem exists_mem_parts_distinct {body : TypeBody} (filled : body.parts ≠ []) :
    ∃ part, part ∈ body.distinct.parts := by
  have kept {fields : List (String × TypeRef)} (some_field : fields ≠ []) :
      ∃ field, field ∈ Dictionary.ofList fields := by
    obtain ⟨field, there⟩ := List.exists_mem_of_ne_nil fields some_field
    have named := Dictionary.mem_names_ofList.mpr (List.mem_map_of_mem (f := Prod.fst) there)
    obtain ⟨held, among, _⟩ := List.mem_map.mp named
    exact ⟨held, among⟩
  cases body with
  | scalar | enum names | union names => exact List.exists_mem_of_ne_nil _ filled
  | object fields | interface fields | inputObject fields =>
      obtain ⟨field, there⟩ := kept (mt List.map_eq_nil_iff.mpr filled)
      exact ⟨_, List.mem_map_of_mem there⟩

theorem Apart.symm {one other : TypeBody} (apart : one.Apart other) : other.Apart one :=
  fun part member part' member' same => apart part' member' part member same.symm

theorem Apart.distinct {one other : TypeBody} (apart : one.Apart other) :
    one.distinct.Apart other.distinct :=
  fun part member part' member' =>
    apart part (mem_of_mem_parts_distinct member) part' (mem_of_mem_parts_distinct member')

/-- An extension of the same kind that repeats no part adds its own parts behind the others. -/
theorem parts_extend {base extension : TypeBody} (same : extension.kind = base.kind)
    (one : base.WellFormed) (two : extension.WellFormed) (apart : base.Apart extension) :
    (base.extend extension).parts = base.parts ++ extension.parts := by
  have appended (fields more : List (String × TypeRef))
      (held : base.fields? = some fields) (held' : extension.fields? = some more)
      (listed : base.parts = fields.map fun field => (field.1, some field.2))
      (listed' : extension.parts = more.map fun field => (field.1, some field.2)) :
      Dictionary.extend fields more = fields ++ more := by
    apply Dictionary.extend_of_nodup
    rw [List.map_append]
    apply List.nodup_append.mpr
    refine ⟨(one fields held).1, (two more held').1, ?_⟩
    intro name member name' member' equal
    obtain ⟨field, there, rfl⟩ := List.mem_map.mp member
    obtain ⟨field', there', rfl⟩ := List.mem_map.mp member'
    exact apart (field.1, some field.2) (listed ▸ List.mem_map_of_mem there)
      (field'.1, some field'.2) (listed' ▸ List.mem_map_of_mem there') equal
  cases base <;> cases extension <;> try simp [kind] at same
  case scalar.scalar => rfl
  case enum.enum | union.union => exact List.map_append
  case object.object fields more | interface.interface fields more
      | inputObject.inputObject fields more =>
    have whole := appended fields more rfl rfl rfl rfl
    simp only [extend, parts, whole, List.map_append]

theorem kind_extend {base extension : TypeBody} (same : extension.kind = base.kind) :
    (base.extend extension).kind = base.kind := by
  cases base <;> cases extension <;> first | rfl | simp [kind] at same

/-- Extensions of the same kind, of which no two share a part with each other or with the type that
they extend, add just their parts. -/
theorem foldl_extend {base : TypeBody} {extensions : List TypeBody} (one : base.WellFormed)
    (all : ∀ extension ∈ extensions, extension.WellFormed ∧ extension.kind = base.kind)
    (apart : (base :: extensions).Pairwise Apart) :
    (extensions.foldl extend base).kind = base.kind ∧
      ∀ part, part ∈ (extensions.foldl extend base).parts ↔
        part ∈ base.parts ∨ ∃ extension ∈ extensions, part ∈ extension.parts := by
  induction extensions generalizing base with
  | nil => simp
  | cons first rest ih =>
      obtain ⟨⟨well, same⟩, later⟩ := List.forall_mem_cons.mp all
      obtain ⟨others, apart'⟩ := List.pairwise_cons.mp apart
      obtain ⟨here, behind⟩ := List.forall_mem_cons.mp others
      obtain ⟨more, apart''⟩ := List.pairwise_cons.mp apart'
      have joined := parts_extend same one well here
      have stays := kind_extend same
      have still : (base.extend first :: rest).Pairwise Apart := by
        apply List.pairwise_cons.mpr
        refine ⟨fun extension member part there => ?_, apart''⟩
        rw [joined] at there
        rcases List.mem_append.mp there with old | new
        · exact behind extension member part old
        · exact more extension member part new
      obtain ⟨kinds, held⟩ := ih (one.extend well) (by rwa [stays]) still
      rw [List.foldl_cons]
      refine ⟨kinds.trans stays, fun part => ?_⟩
      rw [held, joined, List.mem_append, or_assoc, List.exists_mem_cons_iff]

end TypeBody

end GraphQL

/-! ### Documents without contradictions -/

namespace GraphQL

namespace RootOperations

/-- Roots of which no kind is named on both sides. -/
def Apart (one other : RootOperations) : Prop :=
  ∀ kind, one.root? kind = none ∨ other.root? kind = none

instance (one other : RootOperations) : Decidable (one.Apart other) :=
  decidable_of_iff (∀ kind ∈ [OperationKind.query, .mutation, .subscription],
      one.root? kind = none ∨ other.root? kind = none) <| by
    constructor
    · intro apart kind
      exact apart kind (by cases kind <;> decide)
    · exact fun apart kind _ => apart kind

theorem Apart.symm {one other : RootOperations} (apart : one.Apart other) : other.Apart one :=
  fun kind => (apart kind).symm

theorem ext_root? {one other : RootOperations}
    (same : ∀ kind, one.root? kind = other.root? kind) : one = other := by
  have query : one.query = other.query := same .query
  have mutation : one.mutation = other.mutation := same .mutation
  have subscription : one.subscription = other.subscription := same .subscription
  cases one
  cases other
  simp_all

theorem root?_override (earlier later : RootOperations) (kind : OperationKind) :
    (earlier.override later).root? kind = (later.root? kind).or (earlier.root? kind) := by
  cases kind <;> simp [override, root?, Option.orElse_eq_or]

/-- The order of roots that do not meet is of no matter. -/
theorem override_right_comm {one other : RootOperations} (apart : one.Apart other)
    (earlier : RootOperations) :
    (earlier.override one).override other = (earlier.override other).override one := by
  apply ext_root?
  intro kind
  simp only [root?_override]
  rcases apart kind with absent | absent <;> simp [absent]

end RootOperations

namespace TypeSystemDefinition

/-- Definitions that go together. Of two about one type one is an extension, both are of the same
kind, and they share no part; and two about the schema name no root twice. -/
def GoesWith : TypeSystemDefinition → TypeSystemDefinition → Prop
  | .type extends' one, .type extends'' other =>
      one.name = other.name →
        (extends' = true ∨ extends'' = true) ∧ one.body.kind = other.body.kind ∧
          one.body.Apart other.body
  | .schema one, .schema other => one.Apart other
  | _, _ => True

theorem GoesWith.symm {one other : TypeSystemDefinition} (goes : one.GoesWith other) :
    other.GoesWith one := by
  cases one with
  | schema roots =>
      cases other with
      | schema roots' => exact RootOperations.Apart.symm goes
      | type | directive => trivial
  | directive => cases other <;> trivial
  | type extends' type =>
      cases other with
      | type extends'' type' =>
          intro named
          obtain ⟨either, kinds, apart⟩ := goes named.symm
          exact ⟨either.symm, kinds.symm, apart.symm⟩
      | schema | directive => trivial

instance : DecidableRel GoesWith := fun one other =>
  match one, other with
  | .type .., .type .. => inferInstanceAs (Decidable (_ → _ ∧ _ ∧ _))
  | .schema one, .schema other => inferInstanceAs (Decidable (one.Apart other))
  | .type .., .schema _ | .type .., .directive | .schema _, .type .. | .schema _, .directive
  | .directive, _ => isTrue trivial

instance : Std.Symm GoesWith where
  symm _ _ := GoesWith.symm

end TypeSystemDefinition

/-- A document in which definitions go together and every extended type is defined. -/
structure Coherent (definitions : List TypeSystemDefinition) : Prop where
  together : definitions.Pairwise TypeSystemDefinition.GoesWith
  based : ∀ extension, .type true extension ∈ definitions →
    ∃ base, .type false base ∈ definitions ∧ base.name = extension.name

/-- An extension that stands behind the definition of its type. -/
structure Counts (definitions : List TypeSystemDefinition) (base extension : TypeDefinition) :
    Prop where
  named : extension.name = base.name
  behind : [.type false base, .type true extension].Sublist definitions

/-- An extension with parts of its own, and the definition of its type. -/
structure AddsTo (definitions : List TypeSystemDefinition) (base extension : TypeDefinition) :
    Prop where
  defined : .type false base ∈ definitions
  extended : .type true extension ∈ definitions
  named : extension.name = base.name
  filled : extension.body.parts ≠ []

namespace Coherent

variable {definitions reordered : List TypeSystemDefinition}

/-- Whether a document is coherent does not depend on its order. -/
theorem perm (coherent : Coherent definitions) (permuted : definitions.Perm reordered) :
    Coherent reordered where
  together := coherent.together.perm permuted TypeSystemDefinition.GoesWith.symm
  based extension member := by
    obtain ⟨base, there, named⟩ := coherent.based extension (permuted.mem_iff.mpr member)
    exact ⟨base, permuted.mem_iff.mp there, named⟩

theorem goesWith (coherent : Coherent definitions) {one other : TypeSystemDefinition}
    (here : one ∈ definitions) (there : other ∈ definitions) (unequal : one ≠ other) :
    one.GoesWith other :=
  coherent.together.forall here there unequal

/-- An extension is of the kind of the type that it extends, and shares no part with it. -/
theorem extends_base (coherent : Coherent definitions) {base extension : TypeDefinition}
    (defined : .type false base ∈ definitions) (extended : .type true extension ∈ definitions)
    (named : extension.name = base.name) :
    extension.body.kind = base.body.kind ∧ base.body.Apart extension.body := by
  obtain ⟨_, kinds, apart⟩ := coherent.goesWith defined extended (by simp) named.symm
  exact ⟨kinds.symm, apart⟩

end Coherent

end GraphQL

/-! ### One type through a document -/

namespace GraphQL.TypeSystemDefinition

/-- What a name stands for after a definition, given what it stood for before. -/
def bodyAfter (name : String) (earlier : Option TypeBody) :
    TypeSystemDefinition → Option TypeBody
  | .type false definition =>
      if definition.name = name then some definition.body.distinct else earlier
  | .type true definition =>
      if definition.name = name then
        let extension := definition.body.distinct
        some ((earlier.map (·.extend extension)).getD extension)
      else earlier
  | .schema _ | .directive => earlier

/-- The body by which a type is extended. -/
def extension? (name : String) : TypeSystemDefinition → Option TypeBody
  | .type true definition => if definition.name = name then some definition.body.distinct else none
  | .type false _ | .schema _ | .directive => none

theorem extension?_eq_some {name : String} {definition : TypeSystemDefinition} {body : TypeBody} :
    definition.extension? name = some body ↔
      ∃ type, definition = .type true type ∧ type.name = name ∧ type.body.distinct = body := by
  cases definition with
  | schema | directive => simp [extension?]
  | type extends' type => cases extends' <;> simp [extension?]

/-- Behind the definition of a type only its extensions have a say. -/
theorem foldl_bodyAfter {name : String} {definitions : List TypeSystemDefinition}
    (fresh : ∀ base, .type false base ∈ definitions → base.name ≠ name) (body : TypeBody) :
    definitions.foldl (bodyAfter name) (some body) =
      some ((definitions.filterMap (extension? name)).foldl TypeBody.extend body) := by
  induction definitions generalizing body with
  | nil => rfl
  | cons first rest ih =>
      have later := ih fun base member => fresh base (List.mem_cons_of_mem _ member)
      rw [List.foldl_cons]
      cases first with
      | schema | directive => exact later body
      | type extends' type =>
          cases extends' with
          | false =>
              have other := fresh type List.mem_cons_self
              simpa only [bodyAfter, if_neg other, extension?, List.filterMap_cons] using later body
          | true =>
              by_cases here : type.name = name
              · simpa only [bodyAfter, if_pos here, extension?, List.filterMap_cons,
                  List.foldl_cons, Option.map_some, Option.getD_some] using
                  later (body.extend type.body.distinct)
              · simpa only [bodyAfter, if_neg here, extension?, List.filterMap_cons] using
                  later body

/-- Definitions of other types leave a type alone. -/
theorem foldl_bodyAfter_of_other {name : String} {definitions : List TypeSystemDefinition}
    (other : ∀ extends' type, .type extends' type ∈ definitions → type.name ≠ name)
    (earlier : Option TypeBody) : definitions.foldl (bodyAfter name) earlier = earlier := by
  induction definitions with
  | nil => rfl
  | cons first rest ih =>
      have later := ih fun extends' type member =>
        other extends' type (List.mem_cons_of_mem _ member)
      rw [List.foldl_cons]
      cases first with
      | schema | directive => exact later
      | type extends' type =>
          have apart := other extends' type List.mem_cons_self
          cases extends' <;> simpa only [bodyAfter, if_neg apart] using later

end GraphQL.TypeSystemDefinition

namespace Schema

/-- The kind of a type of a schema. -/
def kind? (schema : Schema) (name : String) : Option TypeKind :=
  (schema.get? name).map TypeBody.kind

/-- A part of a type of a schema. -/
def HasPart (schema : Schema) (name : String) (part : String × Option TypeRef) : Prop :=
  ∃ body, schema.get? name = some body ∧ part ∈ body.parts

theorem get?_insert (schema : Schema) (definition : TypeDefinition) (name : String) :
    (schema.insert definition).get? name =
      if definition.name = name then some definition.body else schema.get? name := by
  by_cases same : definition.name = name
  · subst same
    rw [if_pos rfl]
    exact Dictionary.lookup_insert_self _ _ _
  · rw [if_neg same]
    exact Dictionary.lookup_insert_of_ne (Ne.symm same) _ _

theorem get?_define (schema : Schema) (definition : TypeSystemDefinition) (name : String) :
    (schema.define definition).get? name = definition.bodyAfter name (schema.get? name) := by
  cases definition with
  | schema | directive => rfl
  | type extends' type =>
      cases extends' with
      | false => exact get?_insert schema _ name
      | true =>
          rw [define, get?_insert, TypeSystemDefinition.bodyAfter]
          by_cases same : type.name = name
          · subst same
            rw [if_pos rfl, if_pos rfl]
            cases schema.get? type.name <;> rfl
          · rw [if_neg same, if_neg same]

theorem get?_foldl_define (schema : Schema) (definitions : List TypeSystemDefinition)
    (name : String) :
    (definitions.foldl define schema).get? name =
      definitions.foldl (TypeSystemDefinition.bodyAfter name) (schema.get? name) := by
  induction definitions generalizing schema with
  | nil => rfl
  | cons first rest ih => rw [List.foldl_cons, List.foldl_cons, ih, get?_define]

theorem roots_foldl_define (schema : Schema) (definitions : List TypeSystemDefinition) :
    (definitions.foldl define schema).roots =
      (definitions.filterMap (·.roots?)).foldl RootOperations.override schema.roots := by
  induction definitions generalizing schema with
  | nil => rfl
  | cons first rest ih =>
      rw [List.foldl_cons, ih]
      cases first with
      | schema | directive => rfl
      | type extends' type => cases extends' <;> rfl

/-- A schema with the kinds and the parts that a document gives its types: those of the definition
and of the extensions that stand behind it. -/
structure IsToldBy (schema : Schema) (definitions : List TypeSystemDefinition) : Prop where
  kind?_eq : ∀ base, .type false base ∈ definitions →
    schema.kind? base.name = some base.body.kind
  hasPart_iff : ∀ base, .type false base ∈ definitions → ∀ part,
    schema.HasPart base.name part ↔ part ∈ base.body.distinct.parts ∨
      ∃ extension, Counts definitions base extension ∧ part ∈ extension.body.distinct.parts

end Schema

/-! ### A document as a whole -/

/-- What stands behind an item that stands nowhere before. -/
theorem pair_sublist_iff {α : Type} {item other : α} {before after : List α}
    (fresh : item ∉ before) : [item, other].Sublist (before ++ item :: after) ↔ other ∈ after := by
  constructor
  · intro within
    obtain ⟨one, two, parted, left, right⟩ := List.sublist_append_iff.mp within
    cases one with
    | cons first rest =>
        obtain ⟨rfl, _⟩ := List.cons.inj parted
        exact absurd (left.subset List.mem_cons_self) fresh
    | nil =>
        obtain rfl : [item, other] = two := parted
        cases right with
        | cons _ later => exact later.subset (List.mem_cons_of_mem _ List.mem_cons_self)
        | cons_cons _ later => exact later.subset List.mem_cons_self
  · intro member
    have single : [other].Sublist after := List.singleton_sublist.mpr member
    exact (single.cons_cons item).trans (List.sublist_append_right before _)

namespace Schema

variable {definitions reordered : List TypeSystemDefinition}

/-- A document as it stands around the definition of a type: the only one of the type, and one that
goes together with all that stands behind it. -/
structure Around (base : TypeDefinition) (before after definitions : List TypeSystemDefinition) :
    Prop where
  whole : definitions = before ++ .type false base :: after
  fresh : .type false base ∉ before
  single : ∀ other, .type false other ∈ after → other.name ≠ base.name
  goes : ∀ definition ∈ after, (TypeSystemDefinition.type false base).GoesWith definition
  apart : after.Pairwise TypeSystemDefinition.GoesWith

theorem exists_around (coherent : Coherent definitions) {base : TypeDefinition}
    (defined : .type false base ∈ definitions) :
    ∃ before after, Around base before after definitions := by
  obtain ⟨before, after, whole⟩ := List.append_of_mem defined
  have together := coherent.together
  rw [whole, List.pairwise_append, List.pairwise_cons] at together
  obtain ⟨_, ⟨goes, apart⟩, earlier⟩ := together
  refine ⟨before, after, whole, ?fresh, ?single, goes, apart⟩
  case fresh =>
    intro member
    have both := (earlier _ member _ List.mem_cons_self rfl).1
    simp at both
  case single =>
    intro other member same
    have both := (goes _ member same.symm).1
    simp at both

namespace Around

variable {base : TypeDefinition} {before after : List TypeSystemDefinition}

theorem mem_of_after (around : Around base before after definitions)
    {definition : TypeSystemDefinition} (member : definition ∈ after) :
    definition ∈ definitions := by
  rw [around.whole]
  exact List.mem_append_right _ (List.mem_cons_of_mem _ member)

/-- The extensions that count are those behind the definition. -/
theorem counts_iff (around : Around base before after definitions) {extension : TypeDefinition}
    (named : extension.name = base.name) :
    Counts definitions base extension ↔ .type true extension ∈ after := by
  rw [around.whole]
  exact ⟨fun counts => (pair_sublist_iff around.fresh).mp counts.behind,
    fun member => ⟨named, (pair_sublist_iff around.fresh).mpr member⟩⟩

/-- A type is what its definition says, with the extensions behind it. -/
theorem get?_foldl_define (around : Around base before after definitions) (schema : Schema) :
    (definitions.foldl define schema).get? base.name =
      some ((after.filterMap (TypeSystemDefinition.extension? base.name)).foldl
        TypeBody.extend base.body.distinct) := by
  rw [Schema.get?_foldl_define, around.whole, List.foldl_append, List.foldl_cons,
    TypeSystemDefinition.bodyAfter, if_pos rfl]
  exact TypeSystemDefinition.foldl_bodyAfter around.single _

/-- The definition and the extensions behind it share no part. -/
theorem pairwise_apart (around : Around base before after definitions) :
    (base.body.distinct ::
      after.filterMap (TypeSystemDefinition.extension? base.name)).Pairwise TypeBody.Apart := by
  apply List.pairwise_cons.mpr
  constructor
  · intro body member
    obtain ⟨definition, there, extended⟩ := List.mem_filterMap.mp member
    obtain ⟨type, rfl, named, rfl⟩ := TypeSystemDefinition.extension?_eq_some.mp extended
    exact (around.goes _ there named.symm).2.2.distinct
  · apply around.apart.filterMap
    intro one other goes body extended body' extended'
    obtain ⟨type, rfl, named, rfl⟩ := TypeSystemDefinition.extension?_eq_some.mp extended
    obtain ⟨type', rfl, named', rfl⟩ := TypeSystemDefinition.extension?_eq_some.mp extended'
    exact (goes (named.trans named'.symm)).2.2.distinct

/-- What is told of the type is found in the schema: its kind, its own parts and those of the
extensions behind it. -/
theorem exists_told (around : Around base before after definitions)
    (wellFormed : ∀ extends' type, .type extends' type ∈ definitions →
      type.body.distinct.WellFormed) (schema : Schema) :
    ∃ body, (definitions.foldl define schema).get? base.name = some body ∧
      body.kind = base.body.kind ∧ ∀ part, part ∈ body.parts ↔
        part ∈ base.body.distinct.parts ∨ ∃ extension,
          Counts definitions base extension ∧ part ∈ extension.body.distinct.parts := by
  have defined : .type false base ∈ definitions := by
    rw [around.whole]
    exact List.mem_append_right _ List.mem_cons_self
  have alike : ∀ body ∈ after.filterMap (TypeSystemDefinition.extension? base.name),
      body.WellFormed ∧ body.kind = base.body.distinct.kind := by
    intro body member
    obtain ⟨definition, there, extended⟩ := List.mem_filterMap.mp member
    obtain ⟨type, rfl, named, rfl⟩ := TypeSystemDefinition.extension?_eq_some.mp extended
    rw [TypeBody.kind_distinct, TypeBody.kind_distinct]
    exact ⟨wellFormed _ _ (around.mem_of_after there), (around.goes _ there named.symm).2.1.symm⟩
  obtain ⟨kinds, held⟩ :=
    TypeBody.foldl_extend (wellFormed _ _ defined) alike around.pairwise_apart
  refine ⟨_, around.get?_foldl_define schema, kinds.trans (TypeBody.kind_distinct _), ?_⟩
  intro part
  rw [held]
  apply or_congr_right
  constructor
  · rintro ⟨body, member, here⟩
    obtain ⟨definition, there, extended⟩ := List.mem_filterMap.mp member
    obtain ⟨type, rfl, named, rfl⟩ := TypeSystemDefinition.extension?_eq_some.mp extended
    exact ⟨type, (around.counts_iff named).mpr there, here⟩
  · rintro ⟨extension, counts, here⟩
    have there := (around.counts_iff counts.named).mp counts
    have extended := TypeSystemDefinition.extension?_eq_some.mpr ⟨extension, rfl, counts.named, rfl⟩
    exact ⟨_, List.mem_filterMap.mpr ⟨_, there, extended⟩, here⟩

end Around

/-- The definitions of a coherent document of the grammar, in their order, give every type the kind
and the parts that they tell of. -/
theorem foldl_define_isToldBy (legal : ∀ definition ∈ definitions, definition.Legal)
    (coherent : Coherent definitions) (schema : Schema) :
    (definitions.foldl define schema).IsToldBy definitions := by
  have wellFormed : ∀ extends' type, .type extends' type ∈ definitions →
      type.body.distinct.WellFormed :=
    fun extends' type member => (legal _ member extends' type rfl).2.proper.distinct
  constructor
  · intro base defined
    obtain ⟨before, after, around⟩ := exists_around coherent defined
    obtain ⟨body, found, kinds, _⟩ := around.exists_told wellFormed schema
    rw [kind?, found, Option.map_some, kinds]
  · intro base defined part
    obtain ⟨before, after, around⟩ := exists_around coherent defined
    obtain ⟨body, found, _, held⟩ := around.exists_told wellFormed schema
    rw [← held]
    constructor
    · rintro ⟨body', found', member⟩
      obtain rfl := Option.some.inj (found.symm.trans found')
      exact member
    · exact fun member => ⟨body, found, member⟩

/-- An extension of a coherent document is behind the definition of its type exactly if the type has
a part of the extension: no other definition of the document tells of that part. -/
theorem IsToldBy.counts_iff_hasPart {schema : Schema} (told : schema.IsToldBy definitions)
    (coherent : Coherent definitions) {base extension : TypeDefinition}
    (adds : AddsTo definitions base extension) {part : String × Option TypeRef}
    (there : part ∈ extension.body.distinct.parts) :
    Counts definitions base extension ↔ schema.HasPart base.name part := by
  rw [told.hasPart_iff base adds.defined]
  constructor
  · exact fun counts => Or.inr ⟨extension, counts, there⟩
  · rintro (own | ⟨other, counts, here⟩)
    · obtain ⟨_, apart⟩ := coherent.extends_base adds.defined adds.extended adds.named
      exact absurd rfl (apart.distinct part own part there)
    · by_cases same : other = extension
      · exact same ▸ counts
      · have extended := counts.behind.subset (List.mem_cons_of_mem _ List.mem_cons_self)
        have goes := coherent.goesWith extended adds.extended (by simpa using same)
        have apart := (goes (counts.named.trans adds.named.symm)).2.2.distinct
        exact absurd rfl (apart part here part there)

/-- A name that no definition is about is left alone by a coherent document. -/
theorem get?_foldl_define_of_undefined (coherent : Coherent definitions) {name : String}
    (undefined : ∀ base, .type false base ∈ definitions → base.name ≠ name) (schema : Schema) :
    (definitions.foldl define schema).get? name = schema.get? name := by
  rw [get?_foldl_define]
  apply TypeSystemDefinition.foldl_bodyAfter_of_other
  intro extends' type member
  cases extends' with
  | false => exact undefined type member
  | true =>
      obtain ⟨base, defined, named⟩ := coherent.based type member
      exact named ▸ undefined base defined

/-- The roots that a coherent document names do not depend on its order. -/
theorem roots_foldl_define_perm (coherent : Coherent definitions)
    (permuted : definitions.Perm reordered) (schema : Schema) :
    (definitions.foldl define schema).roots = (reordered.foldl define schema).roots := by
  rw [roots_foldl_define, roots_foldl_define]
  apply (permuted.filterMap _).foldl_eq'
  intro one here other there earlier
  by_cases same : one = other
  · rw [same]
  · have block {roots : RootOperations}
        (named : roots ∈ definitions.filterMap (·.roots?)) : .schema roots ∈ definitions := by
      obtain ⟨definition, member, names⟩ := List.mem_filterMap.mp named
      cases definition with
      | schema roots' => exact Option.some.inj names ▸ member
      | type | directive => exact nomatch names
    have apart := coherent.goesWith (block here) (block there) (by simpa using same)
    exact RootOperations.override_right_comm apart earlier

/-- The kinds of types that a coherent document tells of do not depend on its order. -/
theorem kind?_foldl_define_perm (legal : ∀ definition ∈ definitions, definition.Legal)
    (coherent : Coherent definitions) (permuted : definitions.Perm reordered) (schema : Schema)
    (name : String) :
    (definitions.foldl define schema).kind? name = (reordered.foldl define schema).kind? name := by
  have coherent' := coherent.perm permuted
  have legal' : ∀ definition ∈ reordered, definition.Legal :=
    fun definition member => legal definition (permuted.mem_iff.mpr member)
  by_cases defined : ∃ base, .type false base ∈ definitions ∧ base.name = name
  · obtain ⟨base, member, rfl⟩ := defined
    have here := (foldl_define_isToldBy legal coherent schema).kind?_eq base member
    have there := (foldl_define_isToldBy legal' coherent' schema).kind?_eq base
      (permuted.mem_iff.mp member)
    rw [here, there]
  · have undefined : ∀ base, .type false base ∈ definitions → base.name ≠ name :=
      fun base member named => defined ⟨base, member, named⟩
    have undefined' : ∀ base, .type false base ∈ reordered → base.name ≠ name :=
      fun base member => undefined base (permuted.mem_iff.mpr member)
    rw [kind?, kind?, get?_foldl_define_of_undefined coherent undefined,
      get?_foldl_define_of_undefined coherent' undefined']

/-- The parts of types that a coherent document tells of are the same in two orders exactly if every
extension stands behind the definition of its type in both or in neither. -/
theorem hasPart_foldl_define_perm_iff (legal : ∀ definition ∈ definitions, definition.Legal)
    (coherent : Coherent definitions) (permuted : definitions.Perm reordered) (schema : Schema) :
    (∀ name part, (definitions.foldl define schema).HasPart name part ↔
        (reordered.foldl define schema).HasPart name part) ↔
      ∀ base extension, AddsTo definitions base extension →
        (Counts definitions base extension ↔ Counts reordered base extension) := by
  have coherent' := coherent.perm permuted
  have told := foldl_define_isToldBy legal coherent schema
  have told' := foldl_define_isToldBy
    (fun definition member => legal definition (permuted.mem_iff.mpr member)) coherent' schema
  constructor
  · intro agree base extension adds
    obtain ⟨part, there⟩ := TypeBody.exists_mem_parts_distinct adds.filled
    have adds' : AddsTo reordered base extension :=
      ⟨permuted.mem_iff.mp adds.defined, permuted.mem_iff.mp adds.extended, adds.named, adds.filled⟩
    rw [told.counts_iff_hasPart coherent adds there, told'.counts_iff_hasPart coherent' adds' there]
    exact agree base.name part
  · intro agree name part
    by_cases defined : ∃ base, .type false base ∈ definitions ∧ base.name = name
    · obtain ⟨base, member, rfl⟩ := defined
      rw [told.hasPart_iff base member, told'.hasPart_iff base (permuted.mem_iff.mp member)]
      apply or_congr_right
      apply exists_congr
      intro extension
      apply and_congr_left
      intro there
      have filled : extension.body.parts ≠ [] :=
        List.ne_nil_of_mem (TypeBody.mem_of_mem_parts_distinct there)
      have adds {document : List TypeSystemDefinition} (same : definitions.Perm document)
          (counts : Counts document base extension) : AddsTo definitions base extension :=
        ⟨member, same.mem_iff.mpr
          (counts.behind.subset (List.mem_cons_of_mem _ List.mem_cons_self)), counts.named, filled⟩
      constructor
      · exact fun counts => (agree base extension (adds (List.Perm.refl _) counts)).mp counts
      · exact fun counts => (agree base extension (adds permuted counts)).mpr counts
    · have undefined : ∀ base, .type false base ∈ definitions → base.name ≠ name :=
        fun base member named => defined ⟨base, member, named⟩
      have undefined' : ∀ base, .type false base ∈ reordered → base.name ≠ name :=
        fun base member => undefined base (permuted.mem_iff.mpr member)
      rw [HasPart, HasPart, get?_foldl_define_of_undefined coherent undefined,
        get?_foldl_define_of_undefined coherent' undefined']

theorem isObject_eq_kind? (schema : Schema) (name : String) :
    schema.isObject name = decide (schema.kind? name = some .object) := by
  unfold isObject kind?
  cases found : schema.get? name with
  | none => rfl
  | some body => cases body <;> rfl

/-- The roots that go without saying depend on the kinds of types alone. -/
theorem inferRoots_congr {schema schema' : Schema} (roots : schema.roots = schema'.roots)
    (kinds : ∀ name, schema.kind? name = schema'.kind? name) :
    (schema.inferRoots = .error .missingQueryType ∧
        schema'.inferRoots = .error .missingQueryType) ∨
      ∃ roots, schema.inferRoots = .ok { schema with roots := roots } ∧
        schema'.inferRoots = .ok { schema' with roots := roots } := by
  have same (declared : Option String) (usual : String) :
      schema.rootOr declared usual = schema'.rootOr declared usual := by
    rw [rootOr, rootOr, isObject_eq_kind?, isObject_eq_kind?, kinds]
  unfold inferRoots
  simp only [roots, same]
  cases schema'.rootOr schema'.roots.query "Query" with
  | none => exact Or.inl ⟨rfl, rfl⟩
  | some query => exact Or.inr ⟨_, rfl, rfl⟩

/-- A coherent document in two orders either has no schema in both, for want of a root for queries,
or a schema in both, with the same roots and the same kinds of types. Each order gives a type the
parts of its definition and of the extensions behind it. So the parts are the same in both orders
exactly if every extension that has parts stands behind the definition of its type in both orders or
in neither. -/
theorem ofText_reordered {text text' : String}
    (first : TypeSystemDefinition.parse text = .ok definitions)
    (second : TypeSystemDefinition.parse text' = .ok reordered)
    (permuted : definitions.Perm reordered) (coherent : Coherent definitions) :
    (ofText text = .error .missingQueryType ∧ ofText text' = .error .missingQueryType) ∨
      ∃ schema schema', ofText text = .ok schema ∧ ofText text' = .ok schema' ∧
        schema.roots = schema'.roots ∧ (∀ name, schema.kind? name = schema'.kind? name) ∧
        schema.IsToldBy definitions ∧ schema'.IsToldBy reordered ∧
        ((∀ name part, schema.HasPart name part ↔ schema'.HasPart name part) ↔
          ∀ base extension, AddsTo definitions base extension →
            (Counts definitions base extension ↔ Counts reordered base extension)) := by
  have legal := Reader.typeSystemDefinition_yields.many1.of_run? first
  have legal' := Reader.typeSystemDefinition_yields.many1.of_run? second
  have kinds := kind?_foldl_define_perm legal coherent permuted builtin
  have told := foldl_define_isToldBy legal coherent builtin
  have told' := foldl_define_isToldBy legal' (coherent.perm permuted) builtin
  unfold ofText
  rw [first, second]
  rcases inferRoots_congr (roots_foldl_define_perm coherent permuted builtin) kinds with
    refused | ⟨roots, inferred, inferred'⟩
  · exact Or.inl refused
  · refine Or.inr ⟨_, _, inferred, inferred', rfl, kinds, ⟨told.kind?_eq, told.hasPart_iff⟩,
      ⟨told'.kind?_eq, told'.hasPart_iff⟩, ?_⟩
    exact hasPart_foldl_define_perm_iff legal coherent permuted builtin

/-! ### An extension in front of its definition -/

/-- A document with an extension of an enumeration and one of an object. -/
def paletteText : String :=
  "type Query \x7b color: Color \x7d extend type Query \x7b old: [Color!] \x7d " ++
    "enum Color \x7b RED \x7d extend enum Color \x7b BLUE \x7d schema \x7b query: Query \x7d"

/-- The same document with the extension of the enumeration in front. -/
def repaintedText : String :=
  "schema \x7b query: Query \x7d extend enum Color \x7b BLUE \x7d " ++
    "type Query \x7b color: Color \x7d enum Color \x7b RED \x7d " ++
    "extend type Query \x7b old: [Color!] \x7d"

/-- The enumeration. -/
def colorDefinition : TypeDefinition := ⟨"Color", .enum ["RED"]⟩

/-- The extension of the enumeration. -/
def colorExtension : TypeDefinition := ⟨"Color", .enum ["BLUE"]⟩

/-- The object. -/
def queryDefinition : TypeDefinition := ⟨"Query", .object [("color", .named "Color")]⟩

/-- The extension of the object. -/
def queryExtension : TypeDefinition :=
  ⟨"Query", .object [("old", .list (.nonNull (.named "Color")))]⟩

/-- The definitions of the document. -/
def paletteDefinitions : List TypeSystemDefinition :=
  [.type false queryDefinition, .type true queryExtension, .type false colorDefinition,
    .type true colorExtension, .schema { query := some "Query" }]

/-- The definitions in their other order. -/
def repaintedDefinitions : List TypeSystemDefinition :=
  [.schema { query := some "Query" }, .type true colorExtension, .type false queryDefinition,
    .type false colorDefinition, .type true queryExtension]

theorem paletteDefinitions_coherent : Coherent paletteDefinitions where
  together := by decide +kernel
  based extension member := by
    simp only [paletteDefinitions, List.mem_cons, List.not_mem_nil, or_false,
      TypeSystemDefinition.type.injEq, reduceCtorEq, true_and, false_and, Bool.true_eq_false,
      false_or] at member
    rcases member with rfl | rfl
    · exact ⟨queryDefinition, by decide, rfl⟩
    · exact ⟨colorDefinition, by decide, rfl⟩

/-- In the second order the enumeration comes without the value of its extension. -/
theorem palette_reordered : ∃ schema schema', ofText paletteText = .ok schema ∧
    ofText repaintedText = .ok schema' ∧ schema.roots = schema'.roots ∧
    schema.HasPart "Query" ("old", some (.list (.nonNull (.named "Color")))) ∧
    schema'.HasPart "Query" ("old", some (.list (.nonNull (.named "Color")))) ∧
    ¬ ∀ name part, schema.HasPart name part ↔ schema'.HasPart name part := by
  have first : TypeSystemDefinition.parse paletteText = .ok paletteDefinitions := by
    decide +kernel
  have second : TypeSystemDefinition.parse repaintedText = .ok repaintedDefinitions := by
    decide +kernel
  have permuted : paletteDefinitions.Perm repaintedDefinitions := by decide
  rcases ofText_reordered first second permuted paletteDefinitions_coherent with
    ⟨refused, _⟩ | ⟨schema, schema', read, read', roots, _, told, told', same⟩
  · exact absurd refused (by decide +kernel)
  · have adds : AddsTo paletteDefinitions colorDefinition colorExtension :=
      ⟨by decide, by decide, rfl, by decide⟩
    refine ⟨schema, schema', read, read', roots, ?_, ?_, ?_⟩
    · apply (told.hasPart_iff queryDefinition (by decide) _).mpr
      exact Or.inr ⟨queryExtension, ⟨rfl, by decide⟩, by decide⟩
    · apply (told'.hasPart_iff queryDefinition (by decide) _).mpr
      exact Or.inr ⟨queryExtension, ⟨rfl, by decide⟩, by decide⟩
    · intro agree
      have counts := (same.mp agree _ _ adds).mp ⟨rfl, by decide⟩
      exact absurd counts.behind (by decide)

end Schema

end ElmClient
