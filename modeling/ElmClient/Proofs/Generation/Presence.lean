/-
Module: ElmClient.Proofs.Generation.Presence
Purpose: Where the fields of a plan come from, at every depth, and what this says of fields that a
  response may lack. A field that is required is selected without a directive of its own that may
  take it away. Directives on the fragments through which it is selected have no say in its plan,
  though they may take it away as well.
Main exports: PlanSource, BoundDocument.Contributes, RecordPlan.From, IsKept, IsPresent,
  RecordPlanned.from, BoundDocument.operationPlan_isPresent
-/
import ElmClient.Proofs.Generation.Isolation
import ElmClient.Proofs.Plan.Merging

namespace ElmClient

open GraphQL

/-! ### Where fields come from -/

/-- The selections that a plan is made of: a selection set on a type with fields, or what a selection
set on a union selects on a member. -/
inductive PlanSource where
  | set (on : String) (selections : List Selection)
  | member (union : String) (selections : List Selection) (name : String)

/-- A field that a source contributes to its plan, with the type on which it is selected, what is
selected below it and the directives on the fragments that lead to it. -/
inductive BoundDocument.Contributes (bound : BoundDocument) :
    PlanSource → String → Field → List Selection → List Directive → Prop where
  | field {on selections field brace below} (member : .field field brace below ∈ selections) :
      Contributes bound (.set on selections) on field below []
  | spread {on selections spread fragment parent field below way}
      (member : .spread spread ∈ selections)
      (found : bound.fragment? spread.fragment = some fragment)
      (inside : Contributes bound (.set fragment.condition.type fragment.selections) parent field
        below way) :
      Contributes bound (.set on selections) parent field below (spread.directives ++ way)
  | inline {union selections inline brace inner condition parent field below way}
      (member : .inline inline brace inner ∈ selections)
      (conditioned : inline.condition = some condition)
      (inside : Contributes bound (.set condition.type inner) parent field below way) :
      Contributes bound (.member union selections condition.type) parent field below
        (inline.directives ++ way)
  | fragment {union selections spread fragment parent field below way}
      (member : .spread spread ∈ selections)
      (found : bound.fragment? spread.fragment = some fragment)
      (other : fragment.condition.type ≠ union)
      (inside : Contributes bound (.set fragment.condition.type fragment.selections) parent field
        below way) :
      Contributes bound (.member union selections fragment.condition.type) parent field below
        (spread.directives ++ way)
  | merge {union selections name spread fragment parent field below way}
      (member : .spread spread ∈ selections)
      (found : bound.fragment? spread.fragment = some fragment)
      (same : fragment.condition.type = union)
      (inside : Contributes bound (.member union fragment.selections name) parent field below way) :
      Contributes bound (.member union selections name) parent field below
        (spread.directives ++ way)

mutual

/-- A plan of which every field, at every depth, comes from a selection of its key that contributes
to the plan it stands in and has its layers, so that something holds of the layers, of the selection
and of the directives on the fragments that lead to it. -/
inductive RecordPlan.From (bound : BoundDocument)
    (holds : List Layer → Field → List Directive → Prop) : PlanSource → RecordPlan → Prop where
  | mk {source plan} (each : ∀ field ∈ plan.fields, FieldPlan.From bound holds source field) :
      RecordPlan.From bound holds source plan

/-- A field of such a plan. What is below it is made of the selections below its own. -/
inductive FieldPlan.From (bound : BoundDocument)
    (holds : List Layer → Field → List Directive → Prop) : PlanSource → FieldPlan → Prop where
  | mk {source field parent selection below way type}
      (contributes : bound.Contributes source parent selection below way)
      (keyed : selection.responseKey = field.wire)
      (typed : bound.schema.selectedType parent selection.name selection.position = .ok type)
      (layered : field.layers = selection.layers type)
      (has : holds field.layers selection way)
      (inside : FieldKind.From bound holds type.name below field.kind) :
      FieldPlan.From bound holds source field

/-- What a field of a type holds, with the selections below it. -/
inductive FieldKind.From (bound : BoundDocument)
    (holds : List Layer → Field → List Directive → Prop) :
    String → List Selection → FieldKind → Prop where
  | leaf {type below} (scalar : Elm.Scalar) : FieldKind.From bound holds type below (.leaf scalar)
  | enum {type below} (name : String) : FieldKind.From bound holds type below (.enum name)
  | object {type below plan} (inside : RecordPlan.From bound holds (.set type below) plan) :
      FieldKind.From bound holds type below (.object plan)
  | union {type below members variants}
      (inside : ∀ entry ∈ variants,
        RecordPlan.From bound holds (.member type below entry.1) entry.2) :
      FieldKind.From bound holds type below (.union ⟨type, members, variants⟩)

end

/-- A field that is required is selected without a directive that may remove it. -/
def IsKept (layers : List Layer) (field : Field) (_ : List Directive) : Prop :=
  Layer.isOptional layers = false → ∀ directive ∈ field.directives, directive.mayRemove = false

/-- A field that is required is selected without a directive that may remove it, and so are the
fragments that lead to it. -/
def IsPresent (layers : List Layer) (field : Field) (way : List Directive) : Prop :=
  Layer.isOptional layers = false →
    ∀ directive ∈ way ++ field.directives, directive.mayRemove = false

/-- The layers of a field say whether a directive may remove it. -/
theorem GraphQL.Field.isKept (field : Field) (type : TypeRef) (way : List Directive) :
    IsKept (field.layers type) field way := by
  intro required
  cases conditional : field.isConditional with
  | true => simp [Field.layers, conditional] at required
  | false =>
      rw [Field.isConditional, List.any_eq_false] at conditional
      exact fun directive there => (Bool.not_eq_true _).mp (conditional directive there)

/-! ### Plans from more selections -/

section Merging

variable {bound : BoundDocument} {holds : List Layer → Field → List Directive → Prop}
  {source : PlanSource} {plan later : RecordPlan}

theorem RecordPlan.From.fields (drawn : RecordPlan.From bound holds source plan) :
    ∀ field ∈ plan.fields, FieldPlan.From bound holds source field := by
  cases drawn with
  | mk each => exact each

theorem RecordPlan.From.empty : RecordPlan.From bound holds source {} :=
  .mk fun _ absent => absurd absent List.not_mem_nil

theorem RecordPlan.From.absorb (earlier : RecordPlan.From bound holds source plan)
    (added : RecordPlan.From bound holds source later) :
    RecordPlan.From bound holds source (plan.absorb later) := by
  apply RecordPlan.From.mk
  intro field member
  exact (RecordPlanOf.mem_absorb member).elim (earlier.fields field) (added.fields field)

/-- Where a field of a plan comes from does not depend on its origin. -/
theorem FieldPlan.From.withOrigin {field : FieldPlan}
    (drawn : FieldPlan.From bound holds source field) (origin : Origin) :
    FieldPlan.From bound holds source (field.withOrigin origin) := by
  cases drawn with
  | mk contributes keyed typed layered has inside =>
      exact .mk contributes keyed typed layered has inside

theorem RecordPlan.From.push (earlier : RecordPlan.From bound holds source plan)
    {field : FieldPlan} (added : FieldPlan.From bound holds source field) :
    RecordPlan.From bound holds source (plan.push field) := by
  apply RecordPlan.From.mk
  intro held member
  rcases RecordPlanOf.mem_push member with old | rfl
  · exact earlier.fields held old
  · exact added.withOrigin .own

theorem RecordPlan.From.pushSpread (earlier : RecordPlan.From bound holds source plan)
    (added : RecordPlan.From bound holds source later) (fragment : String) :
    RecordPlan.From bound holds source (plan.pushSpread fragment later) := by
  apply RecordPlan.From.mk
  intro held member
  rcases RecordPlanOf.mem_pushSpread member with old | ⟨field, there, rfl⟩
  · exact earlier.fields held old
  · exact (added.fields field there).withOrigin .spread

/-- The variants of a union are made of what is selected on their members. -/
def VariantsFrom (bound : BoundDocument) (holds : List Layer → Field → List Directive → Prop)
    (union : String) (selections : List Selection) (variants : List (String × RecordPlan)) : Prop :=
  ∀ entry ∈ variants, RecordPlan.From bound holds (.member union selections entry.1) entry.2

theorem VariantsFrom.addVariant {union : String} {selections : List Selection}
    {variants : List (String × RecordPlan)} {member : String}
    (earlier : VariantsFrom bound holds union selections variants)
    (added : RecordPlan.From bound holds (.member union selections member) plan) :
    VariantsFrom bound holds union selections (UnionPlanOf.addVariant member plan variants) := by
  intro entry there
  rcases UnionPlanOf.mem_addVariant there with old | rfl | ⟨held, old, rfl⟩
  · exact earlier entry old
  · exact added
  · exact (earlier _ old).absorb added

end Merging

/-! ### Plans with a derivation -/

section Derivation

variable {bound : BoundDocument}

/-- Whatever the first source contributes, the second one does, by some way. -/
def BoundDocument.Within (bound : BoundDocument) (inner outer : PlanSource) : Prop :=
  ∀ parent field below way, bound.Contributes inner parent field below way →
    ∃ way', bound.Contributes outer parent field below way'

theorem BoundDocument.Contributes.mono {on parent : String} {selections more : List Selection}
    {field : Field} {below : List Selection} {way : List Directive}
    (contributes : bound.Contributes (.set on selections) parent field below way)
    (within : selections ⊆ more) : bound.Contributes (.set on more) parent field below way := by
  cases contributes with
  | field member => exact .field (within member)
  | spread member found inside => exact .spread (within member) found inside

theorem BoundDocument.Contributes.mono_member {union name parent : String}
    {selections more : List Selection} {field : Field} {below : List Selection}
    {way : List Directive}
    (contributes : bound.Contributes (.member union selections name) parent field below way)
    (within : selections ⊆ more) :
    bound.Contributes (.member union more name) parent field below way := by
  cases contributes with
  | inline member conditioned inside => exact .inline (within member) conditioned inside
  | fragment member found other inside => exact .fragment (within member) found other inside
  | merge member found same inside => exact .merge (within member) found same inside

/-- What contains the contributions of all selections contains those of the rest. -/
theorem BoundDocument.Within.rest {on : String} {selection : Selection} {rest : List Selection}
    {source : PlanSource} (within : bound.Within (.set on (selection :: rest)) source) :
    bound.Within (.set on rest) source :=
  fun _ _ _ _ later => within _ _ _ _ (later.mono (List.subset_cons_self _ _))

theorem BoundDocument.Within.rest_member {union name : String} {selection : Selection}
    {rest : List Selection} {source : PlanSource}
    (within : bound.Within (.member union (selection :: rest) name) source) :
    bound.Within (.member union rest name) source :=
  fun _ _ _ _ later => within _ _ _ _ (later.mono_member (List.subset_cons_self _ _))

mutual

/-- What selections on an object add to a plan comes from them. -/
theorem RecordPlanned.from :
    ∀ {active on selections plan result}, RecordPlanned bound active on selections plan result →
      ∀ {source}, bound.Within (.set on selections) source →
        RecordPlan.From bound IsKept source plan → RecordPlan.From bound IsKept source result
  | _, _, _, _, _, .nil, _, _, drawn => drawn
  | _, _, _, _, _, .field selected below after, _, within, drawn => by
      obtain ⟨_, contributes⟩ := within _ _ _ _ (.field List.mem_cons_self)
      exact after.from within.rest
        (drawn.push (.mk contributes rfl selected rfl (Field.isKept _ _ _) below.from))
  | _, _, _, _, _, .spread entered _ expanded after, _, within, drawn => by
      have given := expanded.from (fun _ _ _ _ contributes =>
        within _ _ _ _ (.spread List.mem_cons_self entered.1 contributes)) .empty
      exact after.from within.rest (drawn.pushSpread given _)

/-- What a field holds comes from the selections below it. -/
theorem KindPlanned.from :
    ∀ {active type selections kind}, KindPlanned bound active type selections kind →
      FieldKind.From bound IsKept type selections kind
  | _, _, _, _, .leaf _ => .leaf _
  | _, _, _, _, .enum _ => .enum _
  | _, _, _, _, .object _ _ planned =>
      .object (planned.from (fun _ _ _ _ contributes => ⟨_, contributes⟩) .empty)
  | _, _, _, _, .union _ _ planned _ =>
      .union (planned.from (fun _ _ _ _ _ contributes => ⟨_, contributes⟩)
        fun _ absent => absurd absent List.not_mem_nil)

/-- What selections on a union add to the variants of a draft comes from them. -/
theorem UnionPlanned.from :
    ∀ {active union members selections draft result},
      UnionPlanned bound active union members selections draft result →
      ∀ {outer}, (∀ name, bound.Within (.member union selections name)
        (.member union outer name)) →
        VariantsFrom bound IsKept union outer draft.variants →
        VariantsFrom bound IsKept union outer result.variants
  | _, _, _, _, _, _, .nil, _, _, drawn => drawn
  | _, _, _, _, _, _, .typename _ after, _, within, drawn =>
      after.from (fun name => (within name).rest_member) drawn
  | _, _, _, _, _, _, .inline conditioned _ _ planned after, _, within, drawn => by
      have variant := planned.from (fun _ _ _ _ contributes =>
        within _ _ _ _ _ (.inline List.mem_cons_self conditioned contributes)) .empty
      exact after.from (fun name => (within name).rest_member) (drawn.addVariant variant)
  | _, _, _, _, _, _, .merge entered same expanded after, _, within, drawn => by
      have merged := expanded.from (fun _ _ _ _ _ contributes =>
        within _ _ _ _ _ (.merge List.mem_cons_self entered.1 same contributes)) drawn
      exact after.from (fun name => (within name).rest_member) merged
  | _, _, _, _, _, _, .member entered other _ _ expanded after, _, within, drawn => by
      have given := expanded.from (fun _ _ _ _ contributes =>
        within _ _ _ _ _ (.fragment List.mem_cons_self entered.1 other contributes)) .empty
      exact after.from (fun name => (within name).rest_member)
        (drawn.addVariant (RecordPlan.From.empty.pushSpread given _))

end

/-- A whole selection set on an object comes from its selections. -/
theorem RecordPlanned.from_empty {active : List String} {on : String}
    {selections : List Selection} {plan : RecordPlan}
    (planned : RecordPlanned bound active on selections {} plan) :
    RecordPlan.From bound IsKept (.set on selections) plan :=
  planned.from (fun _ _ _ _ contributes => ⟨_, contributes⟩) .empty

/-- A whole selection set on a union comes from its selections. -/
theorem UnionPlanned.from_empty {active : List String} {union : String} {members : List String}
    {selections : List Selection} {draft : UnionDraft}
    (planned : UnionPlanned bound active union members selections {} draft) :
    VariantsFrom bound IsKept union selections draft.variants :=
  planned.from (fun _ _ _ _ _ contributes => ⟨_, contributes⟩)
    fun _ absent => absurd absent List.not_mem_nil

end Derivation

/-! ### Fragments without directives that may remove them -/

/-- A document in which no fragment, spread or inline, has a directive that may remove it. -/
structure BoundDocument.KeepsFragments (bound : BoundDocument) : Prop where
  spread {on spread} : bound.Selected on (.spread spread) →
    ∀ directive ∈ spread.directives, directive.mayRemove = false
  inline {on inline brace below} : bound.Selected on (.inline inline brace below) →
    ∀ directive ∈ inline.directives, directive.mayRemove = false

/-- A source all of whose selections are selected in a document. -/
def PlanSource.StandsIn (bound : BoundDocument) : PlanSource → Prop
  | .set on selections | .member on selections _ =>
      ∀ selection ∈ selections, bound.Selected on selection

section Keeping

variable {bound : BoundDocument} {operation : Operation}

/-- What a source in an operation contributes is selected, and where no fragment has a directive that
may remove it, nothing removes it on the way. -/
theorem BoundDocument.Contributes.selected {source : PlanSource} {parent : String} {field : Field}
    {below : List Selection} {way : List Directive}
    (contributes : bound.Contributes source parent field below way)
    (stands : source.StandsIn (bound.only operation)) :
    (∃ brace, (bound.only operation).Selected parent (.field field brace below)) ∧
      ((bound.only operation).KeepsFragments →
        ∀ directive ∈ way, directive.mayRemove = false) := by
  have passed {first rest : List Directive}
      (one : ∀ directive ∈ first, directive.mayRemove = false)
      (others : ∀ directive ∈ rest, directive.mayRemove = false) :
      ∀ directive ∈ first ++ rest, directive.mayRemove = false :=
    fun directive there => (List.mem_append.mp there).elim (one directive) (others directive)
  induction contributes with
  | field member => exact ⟨⟨_, stands _ member⟩, fun _ => nofun⟩
  | spread member found inside ih | fragment member found other inside ih =>
      obtain ⟨above, kept⟩ := ih fun _ below => .spread (stands _ member) found below
      exact ⟨above, fun keeps => passed (keeps.spread (stands _ member)) (kept keeps)⟩
  | inline member conditioned inside ih =>
      obtain ⟨above, kept⟩ := ih fun selection below => by
        have inner := BoundDocument.Selected.inline (stands _ member) below
        simpa [InlineFragment.on, conditioned] using inner
      exact ⟨above, fun keeps => passed (keeps.inline (stands _ member)) (kept keeps)⟩
  | merge member found same inside ih =>
      obtain ⟨above, kept⟩ := ih fun _ below => same ▸ .spread (stands _ member) found below
      exact ⟨above, fun keeps => passed (keeps.spread (stands _ member)) (kept keeps)⟩

mutual

/-- Where no fragment has a directive that may remove it, nothing removes what a required field of a
plan is selected by. -/
theorem RecordPlan.From.isPresent (keeps : (bound.only operation).KeepsFragments) :
    ∀ {source plan}, RecordPlan.From bound IsKept source plan →
      source.StandsIn (bound.only operation) → RecordPlan.From bound IsPresent source plan
  | _, _, .mk each, stands => .mk fun field member => (each field member).isPresent keeps stands

/-- The same of a field. -/
theorem FieldPlan.From.isPresent (keeps : (bound.only operation).KeepsFragments) :
    ∀ {source field}, FieldPlan.From bound IsKept source field →
      source.StandsIn (bound.only operation) → FieldPlan.From bound IsPresent source field
  | _, _, .mk contributes keyed typed layered has inside, stands => by
      obtain ⟨⟨_, above⟩, kept⟩ := contributes.selected stands
      refine .mk contributes keyed typed layered ?_
        (inside.isPresent keeps fun _ below => .field above typed below)
      intro required directive there
      exact (List.mem_append.mp there).elim (kept keeps directive) (has required directive)

/-- The same of what a field holds. -/
theorem FieldKind.From.isPresent (keeps : (bound.only operation).KeepsFragments) :
    ∀ {type below kind}, FieldKind.From bound IsKept type below kind →
      (∀ selection ∈ below, (bound.only operation).Selected type selection) →
      FieldKind.From bound IsPresent type below kind
  | _, _, _, .leaf scalar, _ => .leaf scalar
  | _, _, _, .enum name, _ => .enum name
  | _, _, _, .object inside, stand => .object (inside.isPresent keeps stand)
  | _, _, _, .union inside, stand =>
      .union fun entry there => (inside entry there).isPresent keeps stand

end

end Keeping

/-- Every field in the plan of an operation, at every depth, comes from a selection of its key that
contributes to the plan it stands in. If it is required, no directive of the selection may remove
it; and if no spread and no inline fragment of the operation has a directive that may remove it,
nothing may remove the selection. -/
theorem BoundDocument.operationPlan_isPresent {bound : BoundDocument} {operation : Operation}
    {plan : RecordPlan} (succeeded : bound.operationPlan operation = .ok plan) :
    ∃ root, bound.schema.rootType operation.kind operation.title = .ok root ∧
      RecordPlan.From bound IsKept (.set root operation.selections) plan ∧
      ((bound.only operation).KeepsFragments →
        RecordPlan.From bound IsPresent (.set root operation.selections) plan) := by
  obtain ⟨root, rooted, planned⟩ := operationPlanned succeeded
  have drawn := planned.from (fun _ _ _ _ contributes => ⟨_, contributes⟩) .empty
  have stands : (PlanSource.set root operation.selections).StandsIn (bound.only operation) :=
    fun _ below => .operation List.mem_cons_self rooted below
  exact ⟨root, rooted, drawn, fun keeps => drawn.isPresent keeps stands⟩

/-! ### A fragment that may be left out

The identifier of a hero is required, since it is selected without a directive. The fragment that
selects it may be left out of a response, and the identifier with it. -/

/-- A schema in which all heroes have an identifier. -/
def visitSchema : Schema where
  types := [("ID", .scalar), ("Query", .object [("hero", .named "Hero")]),
    ("Hero", .object [("id", .nonNull (.named "ID"))])]
  roots := { query := some "Query" }

/-- A directive that leaves the choice to a variable. -/
def includeOnDemand : Directive := ⟨"include", [("if", .variable "wanted")]⟩

/-- The fragment on a hero, with directives at its use. -/
def visitSelections (directives : List Directive) : List Selection :=
  [.spread ⟨⟨1, 33⟩, "F", directives⟩]

/-- A query about a hero. -/
def visitOperation (directives : List Directive) : Operation :=
  { heroOperation with
    selections := [.field (heroField "hero" 26) ⟨1, 31⟩ (visitSelections directives)] }

/-- The fragment. -/
def visitFragment : Fragment :=
  ⟨⟨1, 70⟩, "F", ⟨⟨1, 81⟩, "Hero", ⟨1, 84⟩⟩, [], ⟨1, 89⟩, [.field (heroField "id" 91) ⟨1, 91⟩ []]⟩

/-- The document of the query with its schema. -/
def visitBound (directives : List Directive) : BoundDocument :=
  ⟨visitSchema, [visitOperation directives], [visitFragment]⟩

/-- The plan of a hero. -/
def visitHeroPlan : RecordPlan :=
  ⟨[⟨"id", "id", [], .spread, .leaf (Elm.Scalar.ofName "ID")⟩], ["F"]⟩

/-- The plan of the query. It does not depend on the directives. -/
def visitPlan : RecordPlan := ⟨[⟨"hero", "hero", [.optional], .own, .object visitHeroPlan⟩], []⟩

theorem visit_operationPlan (directives : List Directive) :
    (visitBound directives).operationPlan (visitOperation directives) = .ok visitPlan := rfl

theorem visitBound_selected {directives : List Directive} {on : String} {selection : Selection}
    (selected : ((visitBound directives).only (visitOperation directives)).Selected on selection) :
    selection ∈ (visitOperation directives).selections ∨ selection ∈ visitSelections directives ∨
      selection ∈ visitFragment.selections := by
  induction selected with
  | operation member rooted below => exact Or.inl (List.mem_singleton.mp member ▸ below)
  | @field on field brace selections type selection above typed below ih =>
      rcases ih with here | here | here
      · cases List.mem_singleton.mp here
        exact Or.inr (Or.inl below)
      · exact nomatch List.mem_singleton.mp here
      · cases List.mem_singleton.mp here
        exact absurd below List.not_mem_nil
  | inline above below ih =>
      rcases ih with here | here | here <;> exact nomatch List.mem_singleton.mp here
  | spread above found below ih =>
      rcases ih with here | here | here
      · exact nomatch List.mem_singleton.mp here
      · cases List.mem_singleton.mp here
        cases found
        exact Or.inr (Or.inr below)
      · exact nomatch List.mem_singleton.mp here

theorem visit_keepsFragments :
    ((visitBound []).only (visitOperation [])).KeepsFragments where
  spread := by
    intro on spread selected
    rcases visitBound_selected selected with here | here | here
    · exact nomatch List.mem_singleton.mp here
    · cases List.mem_singleton.mp here
      exact nofun
    · exact nomatch List.mem_singleton.mp here
  inline := by
    intro on inline brace below selected
    rcases visitBound_selected selected with here | here | here <;>
      exact nomatch List.mem_singleton.mp here

/-- Without a directive the identifier is there in every response. With one it is required all the
same, though it may be left out. -/
theorem visit_isPresent :
    RecordPlan.From (visitBound []) IsPresent (.set "Query" (visitOperation []).selections)
      visitPlan ∧
    RecordPlan.From (visitBound [includeOnDemand]) IsKept
      (.set "Query" (visitOperation [includeOnDemand]).selections) visitPlan ∧
    ¬ RecordPlan.From (visitBound [includeOnDemand]) IsPresent
      (.set "Query" (visitOperation [includeOnDemand]).selections) visitPlan := by
  obtain ⟨_, rooted, _, present⟩ :=
    BoundDocument.operationPlan_isPresent (visit_operationPlan [])
  obtain ⟨_, rooted', kept, _⟩ :=
    BoundDocument.operationPlan_isPresent (visit_operationPlan [includeOnDemand])
  cases rooted
  cases rooted'
  refine ⟨present visit_keepsFragments, kept, fun drawn => ?_⟩
  obtain ⟨contributes, _, _, _, _, inside⟩ := drawn.fields _ List.mem_cons_self
  have below : FieldKind.From _ IsPresent _ _ (.object visitHeroPlan) := inside
  cases contributes with
  | spread member => exact nomatch List.mem_singleton.mp member
  | field member =>
      cases List.mem_singleton.mp member
      cases below with
      | object inside =>
          obtain ⟨contributes, _, _, _, has, _⟩ := inside.fields _ List.mem_cons_self
          cases contributes with
          | field member => exact nomatch List.mem_singleton.mp member
          | spread member found inside =>
              cases List.mem_singleton.mp member
              have removes := has rfl includeOnDemand (by simp)
              exact absurd removes (by decide)

end ElmClient
