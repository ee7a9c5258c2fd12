/-
Module: ElmClient.Proofs.Generation.Expansion
Purpose: Whether the declarations of a module lead back to themselves. A fragment leads to fragments
  that are planned within it, and a type that contains itself is cut, so no way leads back unless a
  name is shared: by two fragments, or by an input type and the alias of a variable. Where no way
  leads back, every shape is found.
Main exports: RecordPlan.Spreading.of_link, UnionPlanned.spreading_of_record, Module.OnCycle,
  BoundDocument.NameClash, BoundDocument.Assembles.exists_clash, generate_expansion
-/
import ElmClient.Proofs.Elm.Expansion
import ElmClient.Proofs.Generation.Extensions

namespace ElmClient

open GraphQL Elm

/-! ### Where types lead -/

/-- A fragment of a property, by its Elm name. -/
def Elm.Link.IsFragment (known : String → Prop) (link : Link) : Prop :=
  ∃ fragment, known fragment ∧ link = .fragment (Text.capitalize fragment)

theorem mem_links_extendBy {spreads : List String} {base : TypeExpr} {link : Link}
    (asked : link ∈ (extendBy spreads base).links) :
    link ∈ base.links ∨ link.IsFragment (· ∈ spreads) := by
  induction spreads generalizing base with
  | nil => exact Or.inl asked
  | cons first rest ih =>
      rcases ih asked with inside | ⟨fragment, later, same⟩
      · rcases List.mem_cons.mp inside with here | below
        · exact Or.inr ⟨first, List.mem_cons_self, here⟩
        · exact Or.inl below
      · exact Or.inr ⟨fragment, List.mem_cons_of_mem _ later, same⟩

theorem linksOf_unionArguments {members : List String} {types : List (String × TypeExpr)}
    {link : Link} (asked : link ∈ TypeExpr.linksOf (unionArguments members types)) :
    link ∈ TypeExpr.linksOf types := by
  obtain ⟨argument, among, inside⟩ := TypeExpr.mem_linksOf.mp asked
  obtain ⟨member, _, rfl⟩ := List.mem_map.mp among
  cases found : types.lookup member with
  | none =>
      rw [found] at inside
      exact absurd inside List.not_mem_nil
  | some type =>
      rw [found] at inside
      exact TypeExpr.mem_linksOf.mpr ⟨_, Dictionary.mem_of_lookup found, inside⟩

section Plans

variable {known : String → Prop} {inventory : Inventory}

mutual

/-- The type of what a field holds leads to fragments that are spread below it, and to nothing
else. -/
theorem FieldKind.Spreading.of_link : ∀ {kind : FieldKind}, FieldKind.Spreading known kind →
    FieldKind.Noted inventory kind → ∀ link ∈ kind.type.links,
      link.IsFragment fun fragment => known fragment ∧ fragment ∈ inventory.fragments
  | _, .leaf _, _, _, asked => absurd asked List.not_mem_nil
  | _, .enum _, _, _, asked => absurd asked List.not_mem_nil
  | _, .object spreading, .object noted, link, asked =>
      RecordPlan.Spreading.of_link none spreading noted link asked
  | _, .union spreading, .union _ _ noted, link, asked => by
      have listed := linksOf_unionArguments asked
      rw [UnionPlan.types_eq] at listed
      obtain ⟨entry, among, inside⟩ := TypeExpr.mem_linksOf.mp listed
      obtain ⟨variant, there, rfl⟩ := List.mem_map.mp among
      exact RecordPlan.Spreading.of_link none (spreading variant there) (noted variant there)
        link inside

/-- The type of a record leads to fragments that are spread into it or below it. -/
theorem RecordPlan.Spreading.of_link (row : Option String) :
    ∀ {plan : RecordPlan}, RecordPlan.Spreading known plan → RecordPlan.Noted inventory plan →
      ∀ link ∈ (RecordPlan.type row plan).links,
        link.IsFragment fun fragment => known fragment ∧ fragment ∈ inventory.fragments
  | ⟨fields, spreads⟩, .mk each holds, .mk noted listed, link, asked => by
      rcases mem_links_extendBy asked with own | ⟨fragment, spread, same⟩
      · have inside : link ∈ TypeExpr.linksOf (FieldPlan.ownTypes fields) := own
        rw [FieldPlan.ownTypes_eq] at inside
        obtain ⟨entry, among, below⟩ := TypeExpr.mem_linksOf.mp inside
        obtain ⟨field, kept, rfl⟩ := List.mem_map.mp among
        have there := (List.mem_filter.mp kept).1
        rw [FieldPlan.type, TypeExpr.links_wrap] at below
        exact FieldKind.Spreading.of_link (each field there) (noted field there) link below
      · exact ⟨fragment, ⟨holds fragment spread, listed spread⟩, same⟩

end

/-- The type of a selection set leads where that of a field with the set leads. -/
theorem SelectionPlan.of_link {plan : SelectionPlan} {row : Option String}
    (spreading : FieldKind.Spreading known plan.kind) (noted : FieldKind.Noted inventory plan.kind) :
    ∀ link ∈ (plan.type row).links,
      link.IsFragment fun fragment => known fragment ∧ fragment ∈ inventory.fragments := by
  cases plan with
  | record plan =>
      cases spreading with
      | object spreading =>
          cases noted with
          | object noted => exact spreading.of_link row noted
  | union plan => exact spreading.of_link noted

end Plans

/-- A member of a union of a schema. -/
def Schema.IsMember (schema : Schema) (name : String) : Prop :=
  ∃ union members, schema.unionMembers? union = some members ∧ name ∈ members

/-- The type of an input leads to types that contain themselves and to members of unions. -/
theorem InputForm.of_link {schema : Schema} {cycles : List String} {name : String}
    {type : TypeExpr} {encoder : Encoder} (form : InputForm schema cycles name type encoder)
    {link : Link} (asked : link ∈ type.links) :
    ∃ input, link = .named (Text.capitalize input) ∧
      (input ∈ cycles ∨ schema.IsMember input) := by
  induction form with
  | scalar | enum => exact absurd asked List.not_mem_nil
  | union united =>
      obtain ⟨argument, among, inside⟩ := TypeExpr.mem_linksOf.mp asked
      obtain ⟨member, listed, rfl⟩ := List.mem_map.mp among
      exact ⟨member, List.mem_singleton.mp inside, Or.inr ⟨_, _, united, listed⟩⟩
  | cut member => exact ⟨_, List.mem_singleton.mp asked, Or.inl member⟩
  | object slots held each ih =>
      obtain ⟨field, among, inside⟩ := TypeExpr.mem_linksOf.mp asked
      obtain ⟨slot, member, rfl⟩ := List.mem_map.mp among
      have below : link ∈ slot.elm.links := TypeExpr.links_wrap _ slot.elm ▸ inside
      exact ih slot member below

/-! ### Fragments within fragments -/

section Derivation

variable {bound : BoundDocument} {known : String → Prop}

/-- A selection set on a union that is also planned as part of a record spreads what is spread in
that record: inline fragments, which only a union has, are not in it. -/
theorem UnionPlanned.spreading_of_record :
    ∀ {entered union members selections draft result},
      UnionPlanned bound entered union members selections draft result →
      ∀ {active on plan record}, RecordPlanned bound active on selections plan record →
      (∀ name, bound.PlansWithin active name → known name) →
      (∀ entry ∈ draft.variants, RecordPlan.Spreading known entry.2) →
      ∀ entry ∈ result.variants, RecordPlan.Spreading known entry.2
  | _, _, _, _, _, _, .nil, _, _, _, _, _, _, earlier => earlier
  | _, _, _, _, _, _, .typename _ after, _, _, _, _, .field _ _ after', holds, earlier =>
      after.spreading_of_record after' holds earlier
  | _, _, _, _, _, _, .merge entered _ expanded after, _, _, _, _,
      .spread entered' _ expanded' after', holds, earlier => by
      obtain rfl := entered.unique entered'
      have merged := expanded.spreading_of_record expanded'
        (fun _ within => holds _ within.outside) earlier
      exact after.spreading_of_record after' holds merged
  | _, _, _, _, _, _, .member entered _ _ _ expanded after, _, _, _, _,
      .spread entered' _ expanded' after', holds, earlier => by
      obtain rfl := entered.unique entered'
      obtain rfl := expanded.deterministic expanded'
      have given := expanded'.spreading (fun _ within => holds _ within.outside) .empty
      have here := holds _ (entered'.plansWithin expanded')
      exact after.spreading_of_record after' holds
        (UnionPlanOf.addVariant_spreading earlier (RecordPlan.Spreading.empty.pushSpread here given))

namespace BoundDocument

/-- Whatever a fragment spreads is planned within it. -/
theorem fragmentPlan_spreading {name : String} {position : Position} {plan : SelectionPlan}
    (succeeded : bound.fragmentPlan name position = .ok plan) :
    FieldKind.Spreading (bound.PlansWithin [name]) plan.kind := by
  obtain ⟨fragment, found, _, planned⟩ := fragmentPlanned succeeded
  cases plan with
  | record plan => exact .object (planned.spreading (fun _ within => within) .empty)
  | union plan =>
      obtain ⟨members, draft, form, drafted, rfl⟩ := planned
      exact .union (drafted.spreading (fun _ within => within)
        fun _ absent => absurd absent List.not_mem_nil)

/-- Where a fragment is planned within others, so is whatever it spreads, however the fragment is
declared. -/
theorem PlansWithin.spreading {active : List String} {name : String}
    (within : bound.PlansWithin active name) {position : Position} {plan : SelectionPlan}
    (succeeded : bound.fragmentPlan name position = .ok plan) :
    FieldKind.Spreading (bound.PlansWithin active) plan.kind := by
  obtain ⟨inner, fragment, given, among, entered, expanded⟩ := within
  obtain ⟨fragment', found, _, planned⟩ := fragmentPlanned succeeded
  obtain rfl := Option.some.inj (entered.1.symm.trans found)
  have deeper (other : String) (inside : bound.PlansWithin (name :: inner) other) :
      bound.PlansWithin active other :=
    inside.mono (List.subset_cons_of_subset _ among)
  cases plan with
  | record plan =>
      obtain rfl := planned.deterministic expanded
      exact .object (expanded.spreading deeper .empty)
  | union plan =>
      obtain ⟨members, draft, form, drafted, rfl⟩ := planned
      exact .union (drafted.spreading_of_record expanded deeper
        fun _ absent => absurd absent List.not_mem_nil)

end BoundDocument

end Derivation

/-! ### Names that are shared -/

/-- The names of the aliases for the variables of an operation: one of all together, and one of
each. -/
def GraphQL.Operation.variableAliases (operation : Operation) : List String :=
  let resultType := Text.capitalize operation.title
  if operation.definitions.isEmpty then []
  else (resultType ++ "_Input") ::
    operation.definitions.map fun definition =>
      resultType ++ "_Input_" ++ Text.capitalize definition.name

/-- The alias of a variable has a longer name than the one of all variables. -/
theorem InputSlot.length_lt_inputName (resultType : String) (slot : InputSlot) :
    (resultType ++ "_Input").length < (slot.inputName resultType).length := by
  have short : "_Input".length = 6 := by decide
  have long : "_Input_".length = 7 := by decide
  simp only [inputName, String.length_append]
  omega

/-- Two declarations each of which is reached from within the expansion of the other. -/
def Elm.Module.OnCycle (m : Module) (one other : Link) : Prop :=
  Relation.TransGen m.Leads one other ∧ Relation.TransGen m.Leads other one

/-- A name under which a module finds one thing while another is meant: that of two fragments, or
that of an alias for variables and of an input type that contains itself or a member of a union. -/
inductive BoundDocument.NameClash (bound : BoundDocument) (inventory : Inventory) (m : Module) :
    Link → Prop where
  | fragments {one other} (known : one ∈ inventory.fragments)
      (known' : other ∈ inventory.fragments) (distinct : one ≠ other)
      (same : Text.capitalize one = Text.capitalize other) :
      NameClash bound inventory m (.fragment (Text.capitalize one))
  | input {operation input} (among : operation ∈ bound.operations)
      (aliased : Text.capitalize input ∈ operation.variableAliases)
      (meant : input ∈ m.encoders.map Prod.fst ∨ bound.schema.IsMember input) :
      NameClash bound inventory m (.named (Text.capitalize input))

namespace BoundDocument.Assembles

variable {bound : BoundDocument} {options : GenerationOptions} {m : Module}
  {inventory : Inventory} {plans : List (String × SelectionPlan)}
  {clients : List OperationClient} {shared : SharedInputs}

/-! ### Ways through fragments -/

/-- A declared fragment leads to declared fragments, of which holds what holds of the fragments in
its plan. -/
theorem leads_fragment (assembles : bound.Assembles options m inventory plans clients shared)
    {name : String} {inner : Link} (leads : m.Leads (.fragment name) inner) :
    ∃ outer ∈ inventory.fragments, Text.capitalize outer = name ∧
      ∀ known : String → Prop,
        (∀ position plan, bound.fragmentPlan outer position = .ok plan →
          FieldKind.Spreading known plan.kind) →
        inner.IsFragment fun fragment => known fragment ∧ fragment ∈ inventory.fragments := by
  obtain ⟨type, declared, asked⟩ := leads
  obtain ⟨declaration, found, rfl⟩ := Option.map_eq_some_iff.mp declared
  have here : m.fragments.find? (fun other => other.name == name) = some declaration := found
  have named := List.find?_some here
  obtain ⟨outer, known, _, plan, planned, rfl⟩ :=
    assembles.declares.mem_of_fragment (List.mem_of_find?_eq_some here)
  refine ⟨outer, known, (plan.declaration_name outer).symm.trans (eq_of_beq named), ?_⟩
  intro holds each
  have noted : FieldKind.Noted inventory plan.kind := by
    have here := fragmentPlan_noted assembles.collected known planned
    cases plan with
    | record plan => exact .object here
    | union plan => exact here
  have typed : (plan.declaration outer).type = plan.type (some DeclarationGroup.rowVariable) := by
    cases plan <;> rfl
  rw [typed] at asked
  exact SelectionPlan.of_link (each _ plan planned) noted inner asked

/-- Fragments lead to nothing but fragments. -/
theorem isFragment_of_fragment
    (assembles : bound.Assembles options m inventory plans clients shared) {name : String}
    {link : Link} (reached : Relation.ReflTransGen m.Leads (.fragment name) link) :
    ∃ inner, link = .fragment inner := by
  have leads {outer : String} {inner : Link} (leads : m.Leads (.fragment outer) inner) :
      ∃ name, inner = .fragment name := by
    obtain ⟨_, _, _, step⟩ := assembles.leads_fragment leads
    obtain ⟨fragment, _, same⟩ := step _ fun _ _ planned => fragmentPlan_spreading planned
    exact ⟨_, same⟩
  induction reached with
  | refl => exact ⟨name, rfl⟩
  | tail _ last ih =>
      obtain ⟨between, rfl⟩ := ih
      exact leads last

/-- On every cycle of fragments there are two of one Elm name: each fragment that is reached without
such a change is planned within the first one, which is being expanded then. -/
theorem exists_fragment_clash
    (assembles : bound.Assembles options m inventory plans clients shared) {name : String}
    (returns : Relation.TransGen m.Leads (.fragment name) (.fragment name)) :
    ∃ clash, m.OnCycle (.fragment name) clash ∧ bound.NameClash inventory m clash := by
  by_contra clear
  have unique {one other : String} (known : one ∈ inventory.fragments)
      (known' : other ∈ inventory.fragments)
      (same : Text.capitalize one = Text.capitalize other)
      (cycle : m.OnCycle (.fragment name) (.fragment (Text.capitalize one))) : one = other := by
    by_contra distinct
    exact clear ⟨_, cycle, .fragments known known' distinct same⟩
  obtain ⟨_, first, _⟩ := Relation.TransGen.head'_iff.mp returns
  obtain ⟨start, known, rfl, _⟩ := assembles.leads_fragment first
  have carried {link : Link}
      (reached : Relation.TransGen m.Leads (.fragment (Text.capitalize start)) link)
      (back : Relation.TransGen m.Leads link (.fragment (Text.capitalize start))) :
      link.IsFragment fun fragment =>
        bound.PlansWithin [start] fragment ∧ fragment ∈ inventory.fragments := by
    induction reached with
    | single leads =>
        obtain ⟨outer, known', same, step⟩ := assembles.leads_fragment leads
        obtain rfl := unique known known' same.symm ⟨returns, returns⟩
        exact step _ fun _ _ planned => fragmentPlan_spreading planned
    | tail reached leads ih =>
        have around := back.head leads
        obtain ⟨fragment, ⟨within, there⟩, rfl⟩ := ih around
        obtain ⟨outer, known', same, step⟩ := assembles.leads_fragment leads
        obtain rfl := unique there known' same.symm ⟨reached, around⟩
        exact step _ fun _ _ planned => within.spreading planned
  obtain ⟨fragment, ⟨within, there⟩, same⟩ := carried returns returns
  obtain rfl := unique known there (Link.fragment.inj same) ⟨returns, returns⟩
  obtain ⟨inner, _, _, among, entered, _⟩ := within
  exact entered.2 (among List.mem_cons_self)

/-! ### Ways through aliases -/

/-- The name of the alias of a variable is one of those of its operation. -/
theorem inputName_mem {operation : Operation} {client : OperationClient} {cycles : List String}
    {slots : List InputSlot} (made : bound.ClientOf operation client)
    (takes : client.Takes bound.schema cycles operation slots) {slot : InputSlot}
    (member : slot ∈ slots) :
    slot.inputName client.resultType ∈ operation.variableAliases ∧
      client.resultType ++ "_Input" ∈ operation.variableAliases := by
  obtain ⟨definition, defined, title, _⟩ := takes.exists_definition member
  have some : operation.definitions.isEmpty = false :=
    List.isEmpty_eq_false_iff_exists_mem.mpr ⟨definition, defined⟩
  rw [Operation.variableAliases, some, made.resultType, InputSlot.inputName, ← title]
  exact ⟨List.mem_cons_of_mem _ (List.mem_map.mpr ⟨definition, defined, rfl⟩), List.mem_cons_self⟩

/-- An alias leads to fragments, if it is that of a result. If it is one for variables, it leads to
input types that contain themselves, to members of unions, or to an alias with a longer name. -/
theorem leads_named (assembles : bound.Assembles options m inventory plans clients shared)
    {name : String} {inner : Link} (leads : m.Leads (.named name) inner) :
    (∃ fragment, inner = .fragment fragment) ∨
      (∃ operation ∈ bound.operations, name ∈ operation.variableAliases) ∧
        ((∃ input, inner = .named (Text.capitalize input) ∧
            (input ∈ m.encoders.map Prod.fst ∨ bound.schema.IsMember input)) ∨
          ∃ longer, inner = .named longer ∧ name.length < longer.length) := by
  obtain ⟨type, declared, asked⟩ := leads
  have found : m.typeAliases.lookup name = some type := declared
  have listed := Dictionary.mem_of_lookup found
  rw [assembles.declares.typeAliases] at listed
  obtain ⟨client, among, entry⟩ := List.mem_flatMap.mp listed
  obtain ⟨operation, there, made, slots, takes⟩ := assembles.takes_of_client among
  have meant {slot : InputSlot} (member : slot ∈ slots) (asked : inner ∈ slot.field.2.links) :
      ∃ input, inner = .named (Text.capitalize input) ∧
        (input ∈ m.encoders.map Prod.fst ∨ bound.schema.IsMember input) := by
    have below : inner ∈ slot.elm.links := TypeExpr.links_wrap _ slot.elm ▸ asked
    rw [assembles.encoders_fst]
    exact (takes.forms slot member).of_link below
  rw [OperationClient.aliases, List.mem_append, List.mem_cons] at entry
  rcases entry with (result | input) | parameters
  · obtain ⟨rfl, rfl⟩ := Prod.mk.inj result
    obtain ⟨plan, planned, same, _⟩ := made.planned
    obtain ⟨root, _, derived⟩ := operationPlanned planned
    have noted := operationPlan_noted assembles.collected there planned
    have spreading := derived.spreading (fun _ within => within.plansAsRecord) .empty
    rw [same] at asked
    obtain ⟨fragment, _, leading⟩ := spreading.of_link none noted inner asked
    exact Or.inl ⟨_, leading⟩
  · rw [takes.inputs] at input
    obtain ⟨slot, member, same⟩ := List.mem_map.mp input
    obtain ⟨rfl, rfl⟩ := Prod.mk.inj same
    have kept := (List.mem_filter.mp member).1
    exact Or.inr ⟨⟨operation, there, (inputName_mem made takes kept).1⟩, Or.inl (meant kept asked)⟩
  · rw [takes.parametersType] at parameters
    obtain ⟨_, named, same⟩ := List.mem_map.mp parameters
    obtain ⟨rfl, rfl⟩ := Prod.mk.inj same
    obtain ⟨field, inside, below⟩ := TypeExpr.mem_linksOf.mp asked
    rw [takes.parameters] at inside
    obtain ⟨slot, member, rfl⟩ := List.mem_map.mp inside
    have some : slots.isEmpty = false := List.isEmpty_eq_false_iff_exists_mem.mpr ⟨slot, member⟩
    rw [some] at named
    obtain rfl := List.mem_singleton.mp named
    refine Or.inr ⟨⟨operation, there, (inputName_mem made takes member).2⟩, ?_⟩
    unfold InputSlot.parameterField at below
    split at below
    · have leading := List.mem_singleton.mp below
      exact Or.inr ⟨_, leading, slot.length_lt_inputName client.resultType⟩
    · exact Or.inl (meant member below)

/-- On every cycle of aliases there is one of the name of an input type: without such a change names
grow longer on the way. -/
theorem exists_alias_clash
    (assembles : bound.Assembles options m inventory plans clients shared) {name : String}
    (returns : Relation.TransGen m.Leads (.named name) (.named name)) :
    ∃ clash, m.OnCycle (.named name) clash ∧ bound.NameClash inventory m clash := by
  by_contra clear
  have grows {outer : String} {inner : Link} (leads : m.Leads (.named outer) inner)
      (cycle : m.OnCycle (.named name) inner) :
      ∃ longer, inner = .named longer ∧ outer.length < longer.length := by
    rcases assembles.leads_named leads with ⟨fragment, rfl⟩ |
      ⟨_, ⟨input, rfl, meant⟩ | ⟨longer, rfl, more⟩⟩
    · obtain ⟨_, nowhere⟩ := assembles.isFragment_of_fragment cycle.2.to_reflTransGen
      cases nowhere
    · obtain ⟨_, next, onward⟩ := Relation.TransGen.head'_iff.mp cycle.2
      rcases assembles.leads_named next with ⟨fragment, rfl⟩ | ⟨⟨operation, among, aliased⟩, _⟩
      · obtain ⟨_, nowhere⟩ := assembles.isFragment_of_fragment onward
        cases nowhere
      · exact absurd ⟨_, cycle, .input among aliased meant⟩ clear
    · exact ⟨longer, rfl, more⟩
  have carried {link : Link} (reached : Relation.TransGen m.Leads (.named name) link)
      (back : Relation.TransGen m.Leads link (.named name)) :
      ∃ longer, link = .named longer ∧ name.length < longer.length := by
    induction reached with
    | single leads => exact grows leads ⟨.single leads, back⟩
    | tail reached leads ih =>
        obtain ⟨between, rfl, more⟩ := ih (back.head leads)
        obtain ⟨longer, same, further⟩ := grows leads ⟨reached.tail leads, back⟩
        exact ⟨longer, same, more.trans further⟩
  obtain ⟨longer, same, more⟩ := carried returns returns
  obtain rfl := Link.named.inj same
  exact absurd more (Nat.lt_irrefl _)

/-- On every cycle there is a name that is shared. -/
theorem exists_clash (assembles : bound.Assembles options m inventory plans clients shared)
    {link : Link} (returns : Relation.TransGen m.Leads link link) :
    ∃ clash, m.OnCycle link clash ∧ bound.NameClash inventory m clash := by
  cases link with
  | named name => exact assembles.exists_alias_clash returns
  | fragment name => exact assembles.exists_fragment_clash returns

end BoundDocument.Assembles

/-- Where a declaration of a module is reached again from within its own expansion, there is a name
on the way that two fragments share, or an alias for variables and an input type. Where none is
reached again, all expansions end, and the shape of a type is that in which every name is
expanded. -/
theorem generate_expansion {schema : Schema} {document : Document} {options : GenerationOptions}
    {m : Module} (generated : generate schema document options = .ok m) :
    ∃ bound inventory, BoundDocument.bind schema document = .ok bound ∧
      bound.inventory = .ok inventory ∧
      (∀ link, Relation.TransGen m.Leads link link →
        ∃ clash, m.OnCycle link clash ∧ bound.NameClash inventory m clash) ∧
      (m.Acyclic → WellFounded (fun inner outer => m.Leads outer inner) ∧
        ∀ type, m.shape type = type.shapeIn m.shapes) := by
  obtain ⟨bound, inventory, plans, clients, shared, bind_ok, assembles⟩ :=
    generate_assembles generated
  exact ⟨bound, inventory, bind_ok, assembles.collected, fun _ => assembles.exists_clash,
    fun acyclic => ⟨acyclic.wellFounded, acyclic.shape_eq⟩⟩

/-! ### A fragment within itself

Two fragments differ in their first letter only. One spreads the other, and is found when the other
is meant. -/

/-- A schema in which an object has two fields. -/
def pointSchema : Schema where
  types := [("Int", .scalar), ("Query", .object [("a", .named "A")]),
    ("A", .object [("x", .named "Int"), ("y", .named "Int")])]
  roots := { query := some "Query" }

/-- A document with two fragments of one Elm name. -/
def pointText : String :=
  "query Q \x7b a \x7b ...Foo \x7d \x7d fragment Foo on A \x7b x ...foo \x7d " ++
    "fragment foo on A \x7b y \x7d"

theorem exists_pointModule : ∃ document m, generate pointSchema document zooOptions = .ok m ∧
    m.Leads (.fragment "Foo") (.fragment "Foo") := by
  have evaluated : (Document.parse pointText).toOption.any (fun document =>
      (generate pointSchema document zooOptions).toOption.any fun m =>
        (m.declaredType? (.fragment "Foo")).any
          (·.links.contains (.fragment "Foo"))) = true := by decide +kernel
  obtain ⟨document, _, evaluated⟩ := Except.any_toOption.mp evaluated
  obtain ⟨m, generated, evaluated⟩ := Except.any_toOption.mp evaluated
  obtain ⟨type, declared, asked⟩ := (Option.any_eq_true _ _).mp evaluated
  exact ⟨document, m, generated, type, declared, List.contains_iff_mem.mp asked⟩

theorem exists_heroDocumentModule : ∃ m, generate heroSchema heroDocument heroOptions = .ok m := by
  have evaluated : (generate heroSchema heroDocument heroOptions).toOption.any
      (fun _ => true) = true := by decide +kernel
  obtain ⟨m, generated, _⟩ := Except.any_toOption.mp evaluated
  exact ⟨m, generated⟩

/-- With one fragment and no variable no declaration leads back to itself. With two fragments of one
Elm name one does. -/
theorem hero_expansion :
    (∃ m, generate heroSchema heroDocument heroOptions = .ok m ∧ m.Acyclic ∧
      ∀ type, m.shape type = type.shapeIn m.shapes) ∧
    ∃ document m, generate pointSchema document zooOptions = .ok m ∧ ¬ m.Acyclic ∧
      ∃ bound inventory, BoundDocument.bind pointSchema document = .ok bound ∧
        ∃ clash, m.OnCycle (.fragment "Foo") clash ∧ bound.NameClash inventory m clash := by
  constructor
  · obtain ⟨m, generated⟩ := exists_heroDocumentModule
    obtain ⟨bound, inventory, bind_ok, collected, clashes, ends⟩ := generate_expansion generated
    obtain rfl := Except.ok.inj bind_ok
    obtain rfl := Except.ok.inj collected
    have acyclic : m.Acyclic := by
      intro link returns
      obtain ⟨clash, _, shared⟩ := clashes link returns
      cases shared with
      | fragments known known' distinct =>
          exact distinct ((List.mem_singleton.mp known).trans (List.mem_singleton.mp known').symm)
      | input among aliased =>
          obtain rfl := List.mem_singleton.mp among
          exact absurd aliased List.not_mem_nil
    exact ⟨m, generated, acyclic, (ends acyclic).2⟩
  · obtain ⟨document, m, generated, leads⟩ := exists_pointModule
    obtain ⟨bound, inventory, bind_ok, _, clashes, _⟩ := generate_expansion generated
    have returns := Relation.TransGen.single leads
    exact ⟨document, m, generated, fun acyclic => acyclic _ returns, bound, inventory, bind_ok,
      clashes _ returns⟩

end ElmClient
