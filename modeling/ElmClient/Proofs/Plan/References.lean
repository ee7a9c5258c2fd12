/-
Module: ElmClient.Proofs.Plan.References
Purpose: The names in a plan are those of the inventory: the enumerations and unions that its fields
  hold, and the fragments that it spreads. So are the names in the types and decoders of the plan.
Main exports: RecordPlan.Noted, FieldKind.Noted, RecordPlanned.noted, RecordPlan.Noted.type,
  RecordPlan.Noted.decoder
-/
import ElmClient.Plan.ResponseDecoder
import ElmClient.Plan.ResultType
import ElmClient.Proofs.Elm.Decoding
import ElmClient.Proofs.Elm.References
import ElmClient.Proofs.Generation.Provision
import ElmClient.Proofs.Inventory.Closure
import ElmClient.Proofs.Plan.Coherence

namespace ElmClient

open GraphQL Elm

mutual

/-- A plan whose fields, whatever their origin, hold what an inventory has, and whose fragments it
has. -/
inductive RecordPlan.Noted (inventory : Inventory) : RecordPlan → Prop where
  | mk {plan} (fields : ∀ field ∈ plan.fields, FieldKind.Noted inventory field.kind)
      (spreads : plan.spreads ⊆ inventory.fragments) : RecordPlan.Noted inventory plan

/-- What a field holds is in an inventory. -/
inductive FieldKind.Noted (inventory : Inventory) : FieldKind → Prop where
  | leaf (scalar : Scalar) : FieldKind.Noted inventory (.leaf scalar)
  | enum {name} (known : name ∈ inventory.enums.map (·.name)) :
      FieldKind.Noted inventory (.enum name)
  | object {plan} (noted : RecordPlan.Noted inventory plan) :
      FieldKind.Noted inventory (.object plan)
  | union {name members variants} (known : (name, members) ∈ inventory.unions)
      (selected : ∀ entry ∈ variants, entry.1 ∈ members)
      (noted : ∀ entry ∈ variants, RecordPlan.Noted inventory entry.2) :
      FieldKind.Noted inventory (.union ⟨name, members, variants⟩)

end

namespace RecordPlan.Noted

variable {inventory : Inventory} {plan later : RecordPlan}

theorem fields (noted : RecordPlan.Noted inventory plan) :
    ∀ field ∈ plan.fields, FieldKind.Noted inventory field.kind := by
  cases noted with
  | mk fields => exact fields

theorem spreads (noted : RecordPlan.Noted inventory plan) :
    plan.spreads ⊆ inventory.fragments := by
  cases noted with
  | mk _ spreads => exact spreads

theorem empty : RecordPlan.Noted inventory {} :=
  .mk (fun _ absent => absurd absent List.not_mem_nil) (List.nil_subset _)

theorem absorb (earlier : RecordPlan.Noted inventory plan)
    (added : RecordPlan.Noted inventory later) :
    RecordPlan.Noted inventory (plan.absorb later) := by
  refine .mk ?_ ?_
  · intro field member
    rcases RecordPlanOf.mem_absorb member with old | new
    · exact earlier.fields field old
    · exact added.fields field new
  · intro fragment member
    rcases RecordPlanOf.mem_spreads_absorb member with old | new
    · exact earlier.spreads old
    · exact added.spreads new

theorem push (earlier : RecordPlan.Noted inventory plan) {field : FieldPlan}
    (kind : FieldKind.Noted inventory field.kind) :
    RecordPlan.Noted inventory (plan.push field) := by
  rw [RecordPlanOf.push_eq_absorb]
  refine earlier.absorb (.mk ?_ (List.nil_subset _))
  intro held member
  obtain rfl : held = field.withOrigin .own := List.mem_singleton.mp member
  exact kind

theorem pushSpread (earlier : RecordPlan.Noted inventory plan) {fragment : String}
    {given : RecordPlan} (known : fragment ∈ inventory.fragments)
    (noted : RecordPlan.Noted inventory given) :
    RecordPlan.Noted inventory (plan.pushSpread fragment given) := by
  rw [RecordPlanOf.pushSpread_eq_absorb]
  refine earlier.absorb (.mk ?_ (List.cons_subset.mpr ⟨known, List.nil_subset _⟩))
  intro field member
  obtain ⟨held, there, rfl⟩ := List.mem_map.mp member
  exact noted.fields held there

end RecordPlan.Noted

/-- The variants of a draft are members of the union, and an inventory has what is in them. -/
structure UnionDraft.Noted (inventory : Inventory) (members : List String) (draft : UnionDraft) :
    Prop where
  selected : ∀ entry ∈ draft.variants, entry.1 ∈ members
  noted : ∀ entry ∈ draft.variants, RecordPlan.Noted inventory entry.2

theorem UnionDraft.Noted.empty {inventory : Inventory} {members : List String} :
    UnionDraft.Noted inventory members {} :=
  ⟨by simp, by simp⟩

theorem UnionDraft.Noted.addVariant {inventory : Inventory} {members : List String}
    {draft : UnionDraft} {member : String} {plan : RecordPlan}
    (earlier : draft.Noted inventory members) (there : member ∈ members)
    (added : RecordPlan.Noted inventory plan) :
    UnionDraft.Noted inventory members
      { draft with variants := UnionPlanOf.addVariant member plan draft.variants } where
  selected entry present := by
    rcases UnionPlanOf.mem_addVariant present with old | rfl | ⟨held, old, rfl⟩
    · exact earlier.selected entry old
    · exact there
    · exact there
  noted entry present := by
    rcases UnionPlanOf.mem_addVariant present with old | rfl | ⟨held, old, rfl⟩
    · exact earlier.noted entry old
    · exact added
    · exact (earlier.noted _ old).absorb added

theorem Schema.get?_of_form {schema : Schema} {name : String} {values : List String}
    (form : schema.form name = .enum values) : schema.get? name = some (.enum values) := by
  unfold Schema.form at form
  split at form <;> simp_all

/-! ### Plans with a derivation

What the selections need is noted in the inventory; where they spread a fragment, the inventory has
it, and so what its selections need is noted too. -/

section Derivation

variable {bound : BoundDocument} {inventory : Inventory}

/-- What the selections of a fragment of an inventory need is noted, if the search is over. -/
theorem Inventory.Sound.notesAll (sound : inventory.Sound bound []) {name : String}
    {fragment : Fragment} (known : name ∈ inventory.fragments)
    (found : bound.fragment? name = some fragment) :
    inventory.NotesAll bound.schema fragment.condition.type fragment.selections := by
  obtain ⟨fragment', found', noted⟩ := sound.closed name known
  obtain rfl := Option.some.inj (found.symm.trans found')
  exact (noted List.not_mem_nil).2

mutual

/-- Selections whose needs are noted add what the inventory has. -/
theorem RecordPlanned.noted (sound : inventory.Sound bound []) :
    ∀ {active on selections plan result},
      RecordPlanned bound active on selections plan result →
      inventory.NotesAll bound.schema on selections →
      RecordPlan.Noted inventory plan → RecordPlan.Noted inventory result
  | _, _, _, _, _, .nil, _, earlier => earlier
  | _, _, _, _, _, .field selected below after, noted, earlier => by
      obtain ⟨enum, union, inside⟩ := noted.1 _ selected
      exact after.noted sound noted.2 (earlier.push (below.noted sound enum union inside))
  | _, _, _, _, _, .spread entered _ expanded after, noted, earlier => by
      have given := expanded.noted sound (sound.notesAll noted.1 entered.1) .empty
      exact after.noted sound noted.2 (earlier.pushSpread noted.1 given)

/-- What a field holds is in the inventory if its type is noted there, and what the selections below
it need. -/
theorem KindPlanned.noted (sound : inventory.Sound bound []) :
    ∀ {active type selections kind}, KindPlanned bound active type selections kind →
      inventory.NotesEnum bound.schema type →
      (selections ≠ [] → inventory.NotesUnion bound.schema type) →
      inventory.NotesAll bound.schema type selections → FieldKind.Noted inventory kind
  | _, _, _, _, .leaf _, _, _, _ => .leaf _
  | _, _, _, _, .enum form, enum, _, _ => by
      have member := enum _ (Schema.get?_of_form form)
      exact .enum (List.mem_map_of_mem (f := EnumDeclaration.name) member)
  | _, _, _, _, .object _ _ planned, _, _, inside =>
      .object (planned.noted sound inside .empty)
  | _, _, _, _, .union form nonempty planned _, _, union, inside => by
      have known := union nonempty _ (Schema.form_eq_union.mp form)
      have draft := planned.noted sound inside .empty
      exact .union known draft.selected draft.noted

/-- Selections on a union whose needs are noted add what the inventory has. -/
theorem UnionPlanned.noted (sound : inventory.Sound bound []) :
    ∀ {active union members selections draft result},
      UnionPlanned bound active union members selections draft result →
      inventory.NotesAll bound.schema union selections →
      UnionDraft.Noted inventory members draft → UnionDraft.Noted inventory members result
  | _, _, _, _, _, _, .nil, _, earlier => earlier
  | _, _, _, _, _, _, .typename _ after, noted, earlier =>
      after.noted sound noted.2 ⟨earlier.selected, earlier.noted⟩
  | _, _, _, _, _, _, .inline conditioned member _ planned after, noted, earlier => by
      have inside := noted.1
      rw [Inventory.Notes, InlineFragment.on, conditioned] at inside
      exact after.noted sound noted.2
        (earlier.addVariant member (planned.noted sound inside .empty))
  | _, _, _, _, _, _, .merge entered same expanded after, noted, earlier => by
      have inside := sound.notesAll noted.1 entered.1
      rw [same] at inside
      exact after.noted sound noted.2 (expanded.noted sound inside earlier)
  | _, _, _, _, _, _, .member entered _ member _ expanded after, noted, earlier => by
      have given := expanded.noted sound (sound.notesAll noted.1 entered.1) .empty
      exact after.noted sound noted.2
        (earlier.addVariant member (RecordPlan.Noted.empty.pushSpread noted.1 given))

end

namespace BoundDocument

/-- The plan of an operation only has what the inventory has. -/
theorem operationPlan_noted (collected : bound.inventory = .ok inventory) {operation : Operation}
    (member : operation ∈ bound.operations) {plan : RecordPlan}
    (succeeded : bound.operationPlan operation = .ok plan) : RecordPlan.Noted inventory plan := by
  obtain ⟨root, rooted, planned⟩ := operationPlanned succeeded
  refine planned.noted (inventory_sound collected) ?_ .empty
  apply Inventory.notesAll_of_forall
  exact fun selection inside => inventory_notes collected (.operation member rooted inside)

/-- So does the plan of a fragment that the inventory has. -/
theorem fragmentPlan_noted (collected : bound.inventory = .ok inventory) {name : String}
    (known : name ∈ inventory.fragments) {position : Position} {plan : SelectionPlan}
    (succeeded : bound.fragmentPlan name position = .ok plan) :
    match plan with
    | .record record => RecordPlan.Noted inventory record
    | .union union => FieldKind.Noted inventory (.union union) := by
  have sound := inventory_sound collected
  obtain ⟨fragment, found, _, planned⟩ := fragmentPlanned succeeded
  have inside := sound.notesAll known found
  cases plan with
  | record record => exact planned.noted sound inside .empty
  | union union =>
      obtain ⟨members, draft, form, drafted, rfl⟩ := planned
      have united := mem_inventory_of_condition collected known found
        (Schema.form_eq_union.mp form)
      have noted := drafted.noted sound inside .empty
      exact .union united noted.selected noted.noted

end BoundDocument

end Derivation

/-! ### Types and decoders -/

/-- The name in a type, if the type is a name of something in the inventory, is there. A union is
applied to a type for each member. -/
def Elm.TypeExpr.NotedIn (inventory : Inventory) : TypeExpr → Prop
  | .enum name => name ∈ inventory.enums.map (·.name)
  | .union name arguments => (name, arguments.map Prod.fst) ∈ inventory.unions
  | .extend fragment _ => fragment ∈ inventory.fragments
  | _ => True

/-- The name in a decoder, if the decoder is one of something in the inventory, is there. The cases
of a union are about its members, each with the constructor of the member. -/
def Elm.Decoder.NotedIn (inventory : Inventory) : Decoder → Prop
  | .enum name => name ∈ inventory.enums.map (·.name)
  | .union name cases => ∃ members, (name, members) ∈ inventory.unions ∧
      ∀ entry ∈ cases, entry.1 ∈ members ∧
        entry.2.constructor = .tagged (Name.unionConstructor name entry.1)
  | _ => True

section Names

variable {inventory : Inventory}

/-- Applying the aliases of fragments to a type adds extensions by these fragments only. -/
theorem extendBy_each {holds : TypeExpr → Prop} {spreads : List String}
    (extend : ∀ fragment ∈ spreads, ∀ base, holds (.extend fragment base))
    {base : TypeExpr} (below : base.Each holds) : (extendBy spreads base).Each holds := by
  induction spreads generalizing base with
  | nil => exact below
  | cons first rest ih =>
      obtain ⟨here, others⟩ := List.forall_mem_cons.mp extend
      exact ih others (.extend (here _) below)

theorem unionArguments_fst (members : List String) (types : List (String × TypeExpr)) :
    (unionArguments members types).map Prod.fst = members := by
  rw [unionArguments, List.map_map]
  exact List.map_id _

/-- An argument of a union is the type of a variant, or the empty record. -/
theorem unionArguments_each {holds : TypeExpr → Prop} (empty : holds (.closed []))
    {members : List String} {types : List (String × TypeExpr)}
    (each : ∀ entry ∈ types, entry.2.Each holds) :
    ∀ argument ∈ unionArguments members types, argument.2.Each holds := by
  intro argument among
  obtain ⟨member, _, rfl⟩ := List.mem_map.mp among
  cases found : types.lookup member with
  | none => exact .record empty fun _ absent => absurd absent List.not_mem_nil
  | some type => exact each _ (Dictionary.mem_of_lookup found)

mutual

/-- The type of what a field holds only has names of the inventory. -/
theorem FieldKind.Noted.type : ∀ {kind : FieldKind}, FieldKind.Noted inventory kind →
    kind.type.Each (TypeExpr.NotedIn inventory)
  | _, .leaf scalar => .scalar trivial
  | _, .enum known => .enum known
  | _, .object noted => RecordPlan.Noted.type none noted
  | _, .union known _ noted => by
      refine .union ?_ (unionArguments_each trivial ?_)
      · rw [TypeExpr.NotedIn, unionArguments_fst]
        exact known
      · rw [UnionPlan.types_eq]
        intro entry among
        obtain ⟨variant, there, rfl⟩ := List.mem_map.mp among
        exact RecordPlan.Noted.type none (noted variant there)

/-- The type of a record only has names of the inventory. -/
theorem RecordPlan.Noted.type (row : Option String) :
    ∀ {plan : RecordPlan}, RecordPlan.Noted inventory plan →
      (RecordPlan.type row plan).Each (TypeExpr.NotedIn inventory)
  | ⟨fields, spreads⟩, .mk each known => by
      refine extendBy_each (fun _ there _ => known there) (.record trivial ?_)
      rw [FieldPlan.ownTypes_eq]
      intro entry among
      obtain ⟨field, own, rfl⟩ := List.mem_map.mp among
      have there := (List.mem_filter.mp own).1
      exact .wrap (fun _ => trivial) (fun _ => trivial) _ (FieldKind.Noted.type (each field there))

end

/-- Reading a key adds optional, list and field decoders only. -/
theorem readField_each {holds : Decoder → Prop} (list : ∀ item, holds (.list item))
    (optional : ∀ inner, holds (.optional inner)) (field : ∀ wire inner, holds (.field wire inner))
    (wire : String) (layers : List Layer) {value : Decoder} (below : value.Each holds) :
    (readField wire layers value).Each holds := by
  have read : (Decoder.field wire (Decoder.wrap (Layer.makeRequired layers) value)).Each holds :=
    .field (field _ _) (.wrap list optional _ below)
  unfold readField
  split
  · exact .optional (optional _) read
  · exact read

mutual

/-- The decoder of what a field holds only has names of the inventory. -/
theorem FieldKind.Noted.decoder : ∀ {kind : FieldKind}, FieldKind.Noted inventory kind →
    kind.decoder.Each (Decoder.NotedIn inventory)
  | _, .leaf scalar => .scalar trivial
  | _, .enum known => .enum known
  | _, .object noted => .record trivial (RecordPlan.Noted.decoders .anonymous noted)
  | _, .union known selected noted => by
      refine .union ⟨_, known, ?_⟩ ?_
      · rw [UnionPlan.cases_eq]
        intro entry among
        obtain ⟨variant, there, rfl⟩ := List.mem_map.mp among
        refine ⟨selected variant there, ?_⟩
        rw [RecordPlan.decoder_eq]
      · rw [UnionPlan.cases_eq]
        intro entry among
        obtain ⟨variant, there, rfl⟩ := List.mem_map.mp among
        exact RecordPlan.Noted.decoders _ (noted variant there)

/-- The decoders of the fields of a record only have names of the inventory. -/
theorem RecordPlan.Noted.decoders (constructor : Constructor) :
    ∀ {plan : RecordPlan}, RecordPlan.Noted inventory plan →
      ∀ field ∈ (RecordPlan.decoder constructor plan).fields,
        field.2.Each (Decoder.NotedIn inventory)
  | plan, .mk each known => by
      rw [RecordPlan.decoder_eq, FieldPlan.decoders_eq]
      intro entry among
      obtain ⟨field, there, rfl⟩ := List.mem_map.mp among
      exact readField_each (fun _ => trivial) (fun _ => trivial) (fun _ _ => trivial) _ _
        (FieldKind.Noted.decoder (each field there))

end

/-- The decoder of a response only has names of the inventory. -/
theorem RecordPlan.Noted.responseDecoder (resultType : String) {plan : RecordPlan}
    (noted : RecordPlan.Noted inventory plan) :
    (plan.responseDecoder resultType).Each (Decoder.NotedIn inventory) :=
  .record trivial (noted.decoders _)

end Names

end ElmClient
