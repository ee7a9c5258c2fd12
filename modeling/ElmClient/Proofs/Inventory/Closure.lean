/-
Module: ElmClient.Proofs.Inventory.Closure
Purpose: The inventory of a document covers everything that its operations select: each fragment
  that is spread, each enumeration that a selected field has and each union on which there are
  selections. The search is depth first, so the fragments on the way to the current one are not
  covered yet; they are the pending ones.
Main exports: BoundDocument.Selected, Inventory.Notes, Inventory.noteTypeTo_step, collectItem_field,
  collectItem_inline_eq_ok, Inventory.Sound, collectSelections_sound, BoundDocument.visitSpread_step,
  BoundDocument.collectOperation_eq_ok, BoundDocument.inventory_sound, BoundDocument.inventory_notes
-/
import ElmClient.Inventory
import ElmClient.Proofs.Plan.Derivation
import ElmClient.Proofs.Schema.WellFormed
import Mathlib.Data.List.Nodup

namespace ElmClient

open GraphQL

/-- The type on which the selections of an inline fragment stand. -/
def GraphQL.InlineFragment.on (inline : InlineFragment) (outer : String) : String :=
  (inline.condition.map (·.type)).getD outer

/-- A selection on a type that an operation contains or reaches through fragments. -/
inductive BoundDocument.Selected (bound : BoundDocument) : String → Selection → Prop where
  | operation {operation root selection} (member : operation ∈ bound.operations)
      (rooted : bound.schema.rootType operation.kind operation.title = .ok root)
      (below : selection ∈ operation.selections) : Selected bound root selection
  | field {on field brace selections type selection}
      (above : Selected bound on (.field field brace selections))
      (selected : bound.schema.selectedType on field.name field.position = .ok type)
      (below : selection ∈ selections) : Selected bound type.name selection
  | inline {on inline brace selections selection}
      (above : Selected bound on (.inline inline brace selections))
      (below : selection ∈ selections) : Selected bound (inline.on on) selection
  | spread {on spread fragment selection} (above : Selected bound on (.spread spread))
      (found : bound.fragment? spread.fragment = some fragment)
      (below : selection ∈ fragment.selections) : Selected bound fragment.condition.type selection

/-! ### Fragments that are not visited yet -/

namespace BoundDocument

/-- How many fragments of a document have other names than those given. -/
def unvisited (bound : BoundDocument) (names : List String) : Nat :=
  (bound.fragments.filter fun fragment => !names.contains fragment.name).length

theorem unvisited_lt_spreadDepth (bound : BoundDocument) (names : List String) :
    bound.unvisited names < bound.spreadDepth :=
  Nat.lt_succ_of_le (List.length_filter_le _ _)

theorem unvisited_le_of_subset (bound : BoundDocument) {earlier later : List String}
    (within : earlier ⊆ later) : bound.unvisited later ≤ bound.unvisited earlier := by
  refine List.Sublist.length_le (List.monotone_filter_right _ ?_)
  intro fragment absent
  simp only [Bool.not_eq_true', List.contains_eq_mem, decide_eq_false_iff_not] at absent ⊢
  exact fun member => absent (within member)

/-- A visit of a fragment leaves fewer unvisited. -/
theorem unvisited_concat_lt {bound : BoundDocument} {names : List String} {name : String}
    {fragment : Fragment} (found : bound.fragment? name = some fragment) (fresh : name ∉ names) :
    bound.unvisited (names ++ [name]) < bound.unvisited names := by
  have named := name_of_fragment? found
  have split : (bound.fragments.filter fun fragment =>
      !(names ++ [name]).contains fragment.name) =
      (bound.fragments.filter fun fragment => !names.contains fragment.name).filter
        fun fragment => fragment.name != name := by
    rw [List.filter_filter]
    apply List.filter_congr
    intro other _
    by_cases same : other.name = name <;> simp [same]
  have member : fragment ∈ bound.fragments.filter fun fragment =>
      !names.contains fragment.name := by
    refine List.mem_filter.mpr ⟨mem_of_fragment? found, ?_⟩
    simpa [named] using fresh
  rw [unvisited, unvisited, split]
  refine List.length_filter_lt_length_iff_exists.mpr ⟨fragment, member, ?_⟩
  simp [named]

end BoundDocument

namespace Inventory

/-- The enumeration of a type is in an inventory, if the type is one. -/
def NotesEnum (schema : Schema) (inventory : Inventory) (name : String) : Prop :=
  ∀ values, schema.get? name = some (.enum values) →
    Elm.EnumDeclaration.ofValues name values ∈ inventory.enums

/-- The union of a type is in an inventory, if the type is one. -/
def NotesUnion (schema : Schema) (inventory : Inventory) (name : String) : Prop :=
  ∀ members, schema.unionMembers? name = some members → (name, members) ∈ inventory.unions

mutual

/-- What a selection on a type needs is in an inventory; what the fragments need that it spreads is
not asked for. -/
def Notes (schema : Schema) (inventory : Inventory) (on : String) : Selection → Prop
  | .field field _ selections =>
      ∀ type, schema.selectedType on field.name field.position = .ok type →
        NotesEnum schema inventory type.name ∧
          (selections ≠ [] → NotesUnion schema inventory type.name) ∧
            NotesAll schema inventory type.name selections
  | .spread spread => spread.fragment ∈ inventory.fragments
  | .inline inline _ selections => NotesAll schema inventory (inline.on on) selections
termination_by structural selection => selection

/-- What selections on a type need is in an inventory. -/
def NotesAll (schema : Schema) (inventory : Inventory) (on : String) : List Selection → Prop
  | [] => True
  | selection :: rest =>
      Notes schema inventory on selection ∧ NotesAll schema inventory on rest
termination_by structural selections => selections

end

theorem notes_of_mem {schema : Schema} {inventory : Inventory} {on : String}
    {selections : List Selection} (noted : NotesAll schema inventory on selections)
    {selection : Selection} (member : selection ∈ selections) :
    Notes schema inventory on selection := by
  induction selections with
  | nil => exact absurd member List.not_mem_nil
  | cons first rest ih =>
      rcases List.mem_cons.mp member with rfl | later
      · exact noted.1
      · exact ih noted.2 later

theorem notesAll_of_forall {schema : Schema} {inventory : Inventory} {on : String}
    {selections : List Selection}
    (noted : ∀ selection ∈ selections, Notes schema inventory on selection) :
    NotesAll schema inventory on selections := by
  induction selections with
  | nil => trivial
  | cons first rest ih =>
      exact ⟨noted first List.mem_cons_self,
        ih fun selection later => noted selection (List.mem_cons_of_mem _ later)⟩

/-- Nothing that an inventory holds for the plans is lost in a later one. -/
structure Within (earlier later : Inventory) : Prop where
  fragments : earlier.fragments ⊆ later.fragments
  enums : earlier.enums ⊆ later.enums
  unions : earlier.unions ⊆ later.unions

theorem Within.refl (inventory : Inventory) : Within inventory inventory :=
  ⟨List.Subset.refl _, List.Subset.refl _, List.Subset.refl _⟩

theorem Within.trans {first second third : Inventory} (one : Within first second)
    (two : Within second third) : Within first third :=
  ⟨List.Subset.trans one.fragments two.fragments, List.Subset.trans one.enums two.enums,
    List.Subset.trans one.unions two.unions⟩

theorem NotesEnum.mono {schema : Schema} {earlier later : Inventory} {name : String}
    (within : Within earlier later) (noted : NotesEnum schema earlier name) :
    NotesEnum schema later name :=
  fun values body => within.enums (noted values body)

theorem NotesUnion.mono {schema : Schema} {earlier later : Inventory} {name : String}
    (within : Within earlier later) (noted : NotesUnion schema earlier name) :
    NotesUnion schema later name :=
  fun members united => within.unions (noted members united)

mutual

theorem Notes.mono {schema : Schema} {earlier later : Inventory} (within : Within earlier later) :
    ∀ {selection : Selection} {on : String},
      Notes schema earlier on selection → Notes schema later on selection
  | .field _ _ _, _, noted => fun type selected =>
      ⟨(noted type selected).1.mono within,
        fun below => ((noted type selected).2.1 below).mono within,
        NotesAll.mono within (noted type selected).2.2⟩
  | .spread _, _, noted => within.fragments noted
  | .inline _ _ _, _, noted => by
      rw [Notes] at noted ⊢
      exact noted.mono within

theorem NotesAll.mono {schema : Schema} {earlier later : Inventory}
    (within : Within earlier later) :
    ∀ {selections : List Selection} {on : String},
      NotesAll schema earlier on selections → NotesAll schema later on selections
  | [], _, _ => trivial
  | _ :: _, _, noted => ⟨noted.1.mono within, NotesAll.mono within noted.2⟩

end

/-! ### What adding types keeps -/

/-- The enumerations of an inventory have distinct names and the values of the schema. -/
structure EnumsOf (schema : Schema) (inventory : Inventory) : Prop where
  nodup : (inventory.enums.map (·.name)).Nodup
  ofSchema : ∀ enum ∈ inventory.enums, ∃ values,
    schema.get? enum.name = some (.enum values) ∧ enum = .ofValues enum.name values

/-- The unions of an inventory have the members of the schema. -/
def UnionsOf (schema : Schema) (inventory : Inventory) : Prop :=
  ∀ union ∈ inventory.unions, schema.unionMembers? union.1 = some union.2

/-- A later inventory that has more enumerations, unions and types, but the same fragments. -/
structure Extends (schema : Schema) (earlier later : Inventory) : Prop where
  fragments : later.fragments = earlier.fragments
  enums : earlier.enums ⊆ later.enums
  unions : earlier.unions ⊆ later.unions
  enumsOf : EnumsOf schema earlier → EnumsOf schema later
  unionsOf : UnionsOf schema earlier → UnionsOf schema later

theorem Extends.refl (schema : Schema) (inventory : Inventory) :
    Extends schema inventory inventory :=
  ⟨rfl, List.Subset.refl _, List.Subset.refl _, id, id⟩

theorem Extends.trans {schema : Schema} {first second third : Inventory}
    (one : Extends schema first second) (two : Extends schema second third) :
    Extends schema first third :=
  ⟨two.fragments.trans one.fragments, List.Subset.trans one.enums two.enums,
    List.Subset.trans one.unions two.unions, two.enumsOf ∘ one.enumsOf,
    two.unionsOf ∘ one.unionsOf⟩

theorem Extends.within {schema : Schema} {earlier later : Inventory}
    (extends? : Extends schema earlier later) : Within earlier later :=
  ⟨fun _ member => extends?.fragments ▸ member, extends?.enums, extends?.unions⟩

theorem addEnum_extends {schema : Schema} {name : String} {values : List String}
    (body : schema.get? name = some (.enum values)) (inventory : Inventory) :
    Extends schema inventory (inventory.addEnum name values) := by
  by_cases there : name ∈ inventory.enums.map (·.name)
  · have same : inventory.addEnum name values = inventory := by
      have found : inventory.enums.any (·.name == name) = true := by simpa using there
      simp only [addEnum, found, if_true]
    rw [same]
    exact Extends.refl schema inventory
  · have added : inventory.addEnum name values =
        { inventory with enums := inventory.enums ++ [.ofValues name values] } := by
      have absent : inventory.enums.any (·.name == name) = false := by simpa using there
      simp [addEnum, absent]
    rw [added]
    refine ⟨rfl, List.subset_append_left _ _, List.Subset.refl _, fun earlier => ⟨?_, ?_⟩, id⟩
    · simpa [Elm.EnumDeclaration.ofValues] using earlier.nodup.concat there
    · intro enum member
      rcases List.mem_append.mp member with old | new
      · exact earlier.ofSchema enum old
      · rw [List.mem_singleton.mp new]
        exact ⟨values, body, rfl⟩

theorem notesEnum_addEnum {schema : Schema} {name : String} {values : List String}
    (body : schema.get? name = some (.enum values)) {inventory : Inventory}
    (earlier : EnumsOf schema inventory) :
    NotesEnum schema (inventory.addEnum name values) name := by
  intro others again
  obtain rfl : values = others := by simpa [body] using again
  by_cases there : name ∈ inventory.enums.map (·.name)
  · obtain ⟨enum, member, rfl⟩ := List.mem_map.mp there
    obtain ⟨held, known, same⟩ := earlier.ofSchema enum member
    obtain rfl : values = held := by simpa [body] using known
    exact (addEnum_extends body inventory).enums (same ▸ member)
  · have absent : inventory.enums.any (·.name == name) = false := by simpa using there
    simp [addEnum, absent]

/-- A type that is about to be looked through. -/
def see (inventory : Inventory) (name : String) : Inventory :=
  { inventory with seen := name :: inventory.seen }

theorem see_extends (schema : Schema) (inventory : Inventory) (name : String) :
    Extends schema inventory (inventory.see name) :=
  ⟨rfl, List.Subset.refl _, List.Subset.refl _,
    fun earlier => ⟨earlier.nodup, earlier.ofSchema⟩, id⟩

theorem Extends.foldl {schema : Schema} {α : Type} {step : Inventory → α → Inventory}
    (each : ∀ inventory item, Extends schema inventory (step inventory item)) (items : List α)
    (inventory : Inventory) : Extends schema inventory (items.foldl step inventory) := by
  induction items generalizing inventory with
  | nil => exact Extends.refl schema inventory
  | cons first rest ih => exact (each inventory first).trans (ih _)

/-- What comes of looking through a type. One without fields that is no enumeration leads nowhere,
an enumeration is added, a type that was seen is not looked through again, and for any other type
those of its fields are. -/
inductive TypeStep (schema : Schema) (depth : Nat) (name : String) (inventory : Inventory) :
    Inventory → Prop where
  | leaf (fieldless : schema.fields? name = none)
      (other : ∀ values, schema.get? name ≠ some (.enum values)) :
      TypeStep schema depth name inventory inventory
  | enum {values} (body : schema.get? name = some (.enum values)) :
      TypeStep schema depth name inventory (inventory.addEnum name values)
  | known {fields} (held : schema.fields? name = some fields) (member : name ∈ inventory.seen) :
      TypeStep schema depth name inventory inventory
  | fields {fields} (held : schema.fields? name = some fields) (fresh : name ∉ inventory.seen) :
      TypeStep schema depth name inventory
        (fields.foldl (fun inventory field => noteTypeTo schema depth field.2 inventory)
          (inventory.see name))

theorem noteTypeTo_step (schema : Schema) (depth : Nat) (type : TypeRef) (inventory : Inventory) :
    TypeStep schema depth type.name inventory
      (noteTypeTo schema (depth + 1) type inventory) := by
  unfold noteTypeTo
  split
  · next unknown =>
      refine .leaf ?_ fun values body => nomatch unknown.symm.trans body
      rw [Schema.fields?, unknown]
      rfl
  · next values body => exact .enum body
  · next body other found =>
      split
      · next bare =>
          refine .leaf ?_ fun values body' =>
            other values (Option.some.inj (found.symm.trans body'))
          rw [Schema.fields?, found, Option.bind_some, bare]
      · next fields fieldsOf =>
          have held : schema.fields? type.name = some fields := by
            rw [Schema.fields?, found, Option.bind_some, fieldsOf]
          split
          · next member => exact .known held (List.contains_iff_mem.mp member)
          · next fresh => exact .fields held fun member => fresh (List.contains_iff_mem.mpr member)

/-- Following a type adds enumerations of the schema only. -/
theorem noteTypeTo_extends (schema : Schema) (depth : Nat) :
    ∀ (type : TypeRef) (inventory : Inventory),
      Extends schema inventory (noteTypeTo schema depth type inventory) := by
  induction depth with
  | zero => exact fun _ inventory => Extends.refl schema inventory
  | succ depth ih =>
      intro type inventory
      have step := noteTypeTo_step schema depth type inventory
      generalize noteTypeTo schema (depth + 1) type inventory = later at step ⊢
      cases step with
      | leaf | known => exact Extends.refl schema inventory
      | enum body => exact addEnum_extends body inventory
      | fields =>
          exact (see_extends schema inventory type.name).trans
            (.foldl (fun inventory (field : String × TypeRef) => ih field.2 inventory) _ _)

theorem noteType_extends (schema : Schema) (type : TypeRef) (inventory : Inventory) :
    Extends schema inventory (inventory.noteType schema type) :=
  noteTypeTo_extends schema _ type inventory

theorem notesEnum_noteType {schema : Schema} (type : TypeRef) {inventory : Inventory}
    (earlier : EnumsOf schema inventory) :
    NotesEnum schema (inventory.noteType schema type) type.name := by
  intro values body
  have added : inventory.noteType schema type = inventory.addEnum type.name values := by
    simp [noteType, noteTypeTo, body]
  rw [added]
  exact notesEnum_addEnum body earlier values body

theorem noteUnion_extends (schema : Schema) (name : String) (inventory : Inventory) :
    Extends schema inventory (inventory.noteUnion schema name) := by
  unfold noteUnion addUnion
  split
  · next members united =>
      split
      · exact Extends.refl schema inventory
      · refine ⟨rfl, List.Subset.refl _, List.subset_append_left _ _,
          fun earlier => ⟨earlier.1, earlier.2⟩, fun earlier union member => ?_⟩
        rcases List.mem_append.mp member with old | new
        · exact earlier union old
        · rw [List.mem_singleton.mp new]
          exact united
  · exact Extends.refl schema inventory

theorem notesUnion_noteUnion {schema : Schema} (name : String) {inventory : Inventory}
    (earlier : UnionsOf schema inventory) :
    NotesUnion schema (inventory.noteUnion schema name) name := by
  intro members united
  rw [noteUnion, united]
  by_cases there : name ∈ inventory.unions.map Prod.fst
  · obtain ⟨⟨other, held⟩, member, rfl⟩ := List.mem_map.mp there
    obtain rfl : members = held := Option.some.inj (united.symm.trans (earlier _ member))
    have found : inventory.unions.any (·.1 == other) = true := by simpa using there
    simpa only [addUnion, found, if_true] using member
  · have absent : inventory.unions.any (·.1 == name) = false := by
      simp only [List.any_eq_false, beq_iff_eq]
      exact fun union member same => there (List.mem_map.mpr ⟨union, member, same⟩)
    simp [addUnion, absent]

/-! ### One selection

A field and an inline fragment are collected by collecting what is below them. -/

/-- What a selected field of a type adds by itself. -/
def noteField (schema : Schema) (type : TypeRef) (selections : List Selection)
    (inventory : Inventory) : Inventory :=
  if selections.isEmpty then inventory.noteType schema type
  else (inventory.noteType schema type).noteUnion schema type.name

theorem noteField_extends (schema : Schema) (type : TypeRef) (selections : List Selection)
    (inventory : Inventory) :
    Extends schema inventory (inventory.noteField schema type selections) := by
  have typed := noteType_extends schema type inventory
  unfold noteField
  split
  · exact typed
  · exact typed.trans (noteUnion_extends schema type.name _)

theorem notesEnum_noteField {schema : Schema} (type : TypeRef) (selections : List Selection)
    {inventory : Inventory} (earlier : EnumsOf schema inventory) :
    NotesEnum schema (inventory.noteField schema type selections) type.name := by
  have noted := notesEnum_noteType type earlier
  unfold noteField
  split
  · exact noted
  · exact noted.mono (noteUnion_extends schema type.name _).within

theorem notesUnion_noteField {schema : Schema} (type : TypeRef) {selections : List Selection}
    (filled : selections ≠ []) {inventory : Inventory} (earlier : UnionsOf schema inventory) :
    NotesUnion schema (inventory.noteField schema type selections) type.name := by
  rw [noteField, if_neg (by simpa using filled)]
  exact notesUnion_noteUnion type.name ((noteType_extends schema type inventory).unionsOf earlier)

@[simp] theorem fragments_noteUnion (schema : Schema) (name : String) (inventory : Inventory) :
    (inventory.noteUnion schema name).fragments = inventory.fragments :=
  (noteUnion_extends schema name inventory).fragments

@[simp] theorem fragments_noteField (schema : Schema) (type : TypeRef)
    (selections : List Selection) (inventory : Inventory) :
    (inventory.noteField schema type selections).fragments = inventory.fragments :=
  (noteField_extends schema type selections inventory).fragments

end Inventory

section Steps

variable {schema : Schema} {visit : SpreadVisit} {on : String} {brace : Position}
  {selections : List Selection} {inventory : Inventory}

theorem collectItem_field (field : Field) :
    collectItem schema visit on (.field field brace selections) inventory = (do
      let type ← schema.selectedType on field.name field.position
      collectSelections schema visit type.name selections
        (inventory.noteField schema type selections)) := by
  unfold collectItem Inventory.noteField
  cases selections <;> rfl

theorem collectItem_inline_eq_ok {inline : InlineFragment} {result : Inventory} :
    collectItem schema visit on (.inline inline brace selections) inventory = .ok result ↔
      (∀ condition, inline.condition = some condition → schema.IsComposite condition.type) ∧
        collectSelections schema visit (inline.on on) selections
          (inventory.noteUnion schema (inline.on on)) = .ok result := by
  unfold InlineFragment.on
  cases conditioned : inline.condition with
  | none => simp [collectItem, conditioned]
  | some condition =>
      simp only [collectItem, conditioned, Except.bind_eq_ok, Schema.conditionType_eq_ok]
      constructor
      · rintro ⟨_, ⟨composite, rfl⟩, collected⟩
        exact ⟨fun _ same => Option.some.inj same ▸ composite, collected⟩
      · rintro ⟨composite, collected⟩
        exact ⟨_, ⟨composite condition rfl, rfl⟩, collected⟩

end Steps

/-! ### The invariant of the search -/

namespace Inventory

/-- An inventory on the way: its fragments are distinct fragments of the document, and all that is
selected in those that are not pending is noted. -/
structure Sound (bound : BoundDocument) (pending : List String) (inventory : Inventory) : Prop where
  enumsOf : EnumsOf bound.schema inventory
  unionsOf : UnionsOf bound.schema inventory
  nodup : inventory.fragments.Nodup
  closed : ∀ name ∈ inventory.fragments, ∃ fragment, bound.fragment? name = some fragment ∧
    (name ∉ pending → NotesUnion bound.schema inventory fragment.condition.type ∧
      NotesAll bound.schema inventory fragment.condition.type fragment.selections)

theorem Sound.empty (bound : BoundDocument) : Sound bound [] {} :=
  ⟨⟨List.nodup_nil, by simp⟩, by simp [UnionsOf], List.nodup_nil, by simp⟩

theorem Sound.extend {bound : BoundDocument} {pending : List String} {earlier later : Inventory}
    (sound : Sound bound pending earlier) (extends? : Extends bound.schema earlier later) :
    Sound bound pending later where
  enumsOf := extends?.enumsOf sound.enumsOf
  unionsOf := extends?.unionsOf sound.unionsOf
  nodup := extends?.fragments ▸ sound.nodup
  closed name member := by
    rw [extends?.fragments] at member
    obtain ⟨fragment, found, noted⟩ := sound.closed name member
    exact ⟨fragment, found, fun done =>
      ⟨(noted done).1.mono extends?.within, (noted done).2.mono extends?.within⟩⟩

theorem addFragment_within (inventory : Inventory) (name : String) :
    Within inventory (inventory.addFragment name) :=
  ⟨List.subset_append_left _ _, List.Subset.refl _, List.Subset.refl _⟩

/-- A fragment that is entered is pending. -/
theorem Sound.enter {bound : BoundDocument} {pending : List String} {inventory : Inventory}
    (sound : Sound bound pending inventory) {name : String} {fragment : Fragment}
    (found : bound.fragment? name = some fragment) (fresh : name ∉ inventory.fragments) :
    Sound bound (name :: pending) (inventory.addFragment name) := by
  have added := addFragment_within inventory name
  refine ⟨⟨sound.enumsOf.nodup, sound.enumsOf.ofSchema⟩, sound.unionsOf, ?_, ?_⟩
  · simpa [addFragment] using sound.nodup.concat fresh
  · intro other member
    rcases List.mem_append.mp member with old | new
    · obtain ⟨held, found', noted⟩ := sound.closed other old
      refine ⟨held, found', fun done => ?_⟩
      have earlier := noted fun waits => done (List.mem_cons_of_mem _ waits)
      exact ⟨earlier.1.mono added, earlier.2.mono added⟩
    · rw [List.mem_singleton.mp new]
      exact ⟨fragment, found, fun done => absurd List.mem_cons_self done⟩

/-- A fragment is left when all that it selects is noted. -/
theorem Sound.leave {bound : BoundDocument} {pending : List String} {inventory : Inventory}
    {name : String} (sound : Sound bound (name :: pending) inventory) {fragment : Fragment}
    (found : bound.fragment? name = some fragment)
    (united : NotesUnion bound.schema inventory fragment.condition.type)
    (noted : NotesAll bound.schema inventory fragment.condition.type fragment.selections) :
    Sound bound pending inventory := by
  refine ⟨sound.enumsOf, sound.unionsOf, sound.nodup, ?_⟩
  intro other member
  by_cases same : other = name
  · subst same
    exact ⟨fragment, found, fun _ => ⟨united, noted⟩⟩
  · obtain ⟨held, found', noted'⟩ := sound.closed other member
    refine ⟨held, found', fun done => noted' ?_⟩
    exact fun waits => (List.mem_cons.mp waits).elim same done

theorem Within.unvisited_le {bound : BoundDocument} {earlier later : Inventory}
    (within : Within earlier later) :
    bound.unvisited later.fragments ≤ bound.unvisited earlier.fragments :=
  bound.unvisited_le_of_subset within.fragments

/-- A visit of a spread adds the fragment and all that it needs, as long as fewer fragments than
the bound are unvisited. -/
def Visits (bound : BoundDocument) (limit : Nat) (visit : SpreadVisit) : Prop :=
  ∀ {pending spread inventory result}, bound.unvisited inventory.fragments < limit →
    Sound bound pending inventory → visit spread inventory = .ok result →
      Within inventory result ∧ Sound bound pending result ∧
        spread.fragment ∈ result.fragments

end Inventory

open Inventory

section Collect

variable {bound : BoundDocument} {visit : SpreadVisit} {limit : Nat}

mutual

/-- Collecting a selection keeps the invariant and notes the selection. -/
theorem collectItem_sound (visits : Visits bound limit visit) :
    ∀ {selection : Selection} {on pending inventory result},
      bound.unvisited inventory.fragments < limit → Sound bound pending inventory →
      collectItem bound.schema visit on selection inventory = .ok result →
      Within inventory result ∧ Sound bound pending result ∧
        Notes bound.schema result on selection
  | .field field brace selections, on, pending, inventory, result, few, sound, succeeded => by
      rw [collectItem_field] at succeeded
      obtain ⟨type, selected, collected⟩ := Except.bind_eq_ok.mp succeeded
      have added := noteField_extends bound.schema type selections inventory
      obtain ⟨within, sound', below⟩ := collectSelections_sound visits
        (Nat.lt_of_le_of_lt added.within.unvisited_le few) (sound.extend added) collected
      refine ⟨added.within.trans within, sound', ?_⟩
      intro again selected'
      obtain rfl : type = again := Except.ok.inj (selected.symm.trans selected')
      exact ⟨(notesEnum_noteField type selections sound.enumsOf).mono within,
        fun filled => (notesUnion_noteField type filled sound.unionsOf).mono within, below⟩
  | .spread spread, on, pending, inventory, result, few, sound, succeeded =>
      visits few sound succeeded
  | .inline inline brace selections, on, pending, inventory, result, few, sound, succeeded => by
      obtain ⟨_, collected⟩ := collectItem_inline_eq_ok.mp succeeded
      have united := noteUnion_extends bound.schema (inline.on on) inventory
      obtain ⟨within, sound', below⟩ := collectSelections_sound visits
        (Nat.lt_of_le_of_lt united.within.unvisited_le few) (sound.extend united) collected
      exact ⟨united.within.trans within, sound', below⟩

/-- Collecting selections keeps the invariant and notes them all. -/
theorem collectSelections_sound (visits : Visits bound limit visit) :
    ∀ {selections : List Selection} {on pending inventory result},
      bound.unvisited inventory.fragments < limit → Sound bound pending inventory →
      collectSelections bound.schema visit on selections inventory = .ok result →
      Within inventory result ∧ Sound bound pending result ∧
        NotesAll bound.schema result on selections
  | [], on, pending, inventory, result, few, sound, succeeded => by
      rw [← Except.ok.inj succeeded]
      exact ⟨Within.refl inventory, sound, trivial⟩
  | selection :: rest, on, pending, inventory, result, few, sound, succeeded => by
      obtain ⟨next, first, later⟩ := Except.bind_eq_ok.mp succeeded
      obtain ⟨within, sound', noted⟩ := collectItem_sound visits few sound first
      obtain ⟨within', sound'', others⟩ := collectSelections_sound visits
        (Nat.lt_of_le_of_lt within.unvisited_le few) sound' later
      exact ⟨within.trans within', sound'', noted.mono within', others⟩

end

end Collect

namespace BoundDocument

/-- What comes of the use of a fragment. A known one is not visited again. Any other one is added,
and what it selects is collected on its type. -/
inductive SpreadStep (bound : BoundDocument) (depth : Nat) (name : String)
    (inventory : Inventory) : Inventory → Prop where
  | known (member : name ∈ inventory.fragments) : SpreadStep bound depth name inventory inventory
  | fresh {fragment result} (absent : name ∉ inventory.fragments)
      (found : bound.fragment? name = some fragment)
      (composite : bound.schema.IsComposite fragment.condition.type)
      (collected : collectSelections bound.schema (bound.visitSpread depth)
        fragment.condition.type fragment.selections
        ((inventory.addFragment name).noteUnion bound.schema fragment.condition.type) =
          .ok result) :
      SpreadStep bound depth name inventory result

theorem visitSpread_step {bound : BoundDocument} {depth : Nat} {spread : Spread}
    {inventory result : Inventory}
    (succeeded : bound.visitSpread (depth + 1) spread inventory = .ok result) :
    SpreadStep bound depth spread.fragment inventory result := by
  by_cases known : spread.fragment ∈ inventory.fragments
  · simp only [visitSpread, List.contains_iff_mem.mpr known, if_true] at succeeded
    rw [← Except.ok.inj succeeded]
    exact .known known
  · simp only [visitSpread, List.contains_iff_mem, known, if_false] at succeeded
    obtain ⟨fragment, looked, typing⟩ := Except.bind_eq_ok.mp succeeded
    obtain ⟨on, about, collected⟩ := Except.bind_eq_ok.mp typing
    obtain ⟨composite, rfl⟩ := Schema.conditionType_eq_ok.mp about
    exact .fresh known (fragment_eq_ok.mp looked) composite collected

/-- A visit of a spread keeps the invariant. The fragment is pending while it is searched, and it
is not any more afterwards, because all that it selects is noted then. -/
theorem visitSpread_visits (bound : BoundDocument) (limit : Nat) :
    Visits bound limit (bound.visitSpread limit) := by
  induction limit with
  | zero => exact fun few => absurd few (Nat.not_lt_zero _)
  | succ limit ih =>
      intro pending spread inventory result few sound succeeded
      cases visitSpread_step succeeded with
      | known member => exact ⟨Within.refl inventory, sound, member⟩
      | @fresh fragment _ absent found _ collected =>
          have entered := sound.enter found absent
          have united := noteUnion_extends bound.schema fragment.condition.type
            (inventory.addFragment spread.fragment)
          have fewer : bound.unvisited ((inventory.addFragment spread.fragment).noteUnion
              bound.schema fragment.condition.type).fragments < limit := by
            have less : bound.unvisited (inventory.addFragment spread.fragment).fragments <
                bound.unvisited inventory.fragments :=
              unvisited_concat_lt found absent
            exact Nat.lt_of_le_of_lt united.within.unvisited_le (by omega)
          obtain ⟨within, searched, noted⟩ := collectSelections_sound ih fewer
            (entered.extend united) collected
          have unionNoted := notesUnion_noteUnion fragment.condition.type entered.unionsOf
          have later := united.within.trans within
          exact ⟨(addFragment_within inventory spread.fragment).trans later,
            searched.leave found (unionNoted.mono within) noted,
            later.fragments (List.mem_append_right _ List.mem_cons_self)⟩

/-- What the variables of an operation add. -/
def noteVariables (bound : BoundDocument) (operation : Operation) (inventory : Inventory) :
    Inventory :=
  operation.definitions.foldl
    (fun inventory definition => inventory.noteType bound.schema definition.type) inventory

theorem noteVariables_extends (bound : BoundDocument) (operation : Operation)
    (inventory : Inventory) :
    Extends bound.schema inventory (bound.noteVariables operation inventory) :=
  .foldl (fun inventory (definition : VariableDefinition) =>
    noteType_extends bound.schema definition.type inventory) _ _

theorem fragments_noteVariables (bound : BoundDocument) (operation : Operation)
    (inventory : Inventory) :
    (bound.noteVariables operation inventory).fragments = inventory.fragments :=
  (bound.noteVariables_extends operation inventory).fragments

theorem collectOperation_eq_ok {bound : BoundDocument} {operation : Operation}
    {inventory result : Inventory} :
    bound.collectOperation inventory operation = .ok result ↔
      ∃ root, bound.schema.rootType operation.kind operation.title = .ok root ∧
        collectSelections bound.schema (bound.visitSpread bound.spreadDepth) root
          operation.selections ((bound.noteVariables operation inventory).noteUnion bound.schema
            root) = .ok result :=
  Except.bind_eq_ok

/-- Collecting an operation keeps the invariant and notes what the operation selects. -/
theorem collectOperation_sound {bound : BoundDocument} {operation : Operation}
    {inventory result : Inventory} (sound : Sound bound [] inventory)
    (succeeded : bound.collectOperation inventory operation = .ok result) :
    Within inventory result ∧ Sound bound [] result ∧
      ∃ root, bound.schema.rootType operation.kind operation.title = .ok root ∧
        NotesAll bound.schema result root operation.selections := by
  obtain ⟨root, rooted, collected⟩ := collectOperation_eq_ok.mp succeeded
  have united := (bound.noteVariables_extends operation inventory).trans
    (noteUnion_extends bound.schema root _)
  have few (inventory : Inventory) : bound.unvisited inventory.fragments < bound.spreadDepth :=
    bound.unvisited_lt_spreadDepth _
  obtain ⟨within, sound', noted⟩ := collectSelections_sound
    (bound.visitSpread_visits bound.spreadDepth) (few _) (sound.extend united) collected
  exact ⟨united.within.trans within, sound', root, rooted, noted⟩

/-- Collecting operations keeps the invariant and notes what they select. -/
theorem collectOperations_sound {bound : BoundDocument} {operations : List Operation}
    {inventory result : Inventory} (sound : Sound bound [] inventory)
    (succeeded : operations.foldlM bound.collectOperation inventory = .ok result) :
    Within inventory result ∧ Sound bound [] result ∧
      ∀ operation ∈ operations, ∃ root,
        bound.schema.rootType operation.kind operation.title = .ok root ∧
          NotesAll bound.schema result root operation.selections := by
  induction operations generalizing inventory with
  | nil =>
      rw [← Except.pure_eq_ok.mp succeeded]
      exact ⟨Within.refl inventory, sound, by simp⟩
  | cons first rest ih =>
      obtain ⟨next, collected, later⟩ := Except.foldlM_cons_eq_ok.mp succeeded
      obtain ⟨within, sound', root, rooted, noted⟩ := collectOperation_sound sound collected
      obtain ⟨within', sound'', others⟩ := ih sound' later
      refine ⟨within.trans within', sound'', ?_⟩
      intro operation member
      rcases List.mem_cons.mp member with rfl | after
      · exact ⟨root, rooted, noted.mono within'⟩
      · exact others operation after

variable {bound : BoundDocument} {inventory : Inventory}

/-- The inventory of a document satisfies the invariant, and no fragment is pending. -/
theorem inventory_sound (collected : bound.inventory = .ok inventory) :
    Sound bound [] inventory :=
  (collectOperations_sound (Sound.empty bound) collected).2.1

/-- The inventory of a document notes every selection that the operations contain or reach. -/
theorem inventory_notes (collected : bound.inventory = .ok inventory) {on : String}
    {selection : Selection} (selected : bound.Selected on selection) :
    Notes bound.schema inventory on selection := by
  obtain ⟨_, sound, noted⟩ := collectOperations_sound (Sound.empty bound) collected
  induction selected with
  | operation member rooted below =>
      obtain ⟨root, rooted', all⟩ := noted _ member
      obtain rfl := Except.ok.inj (rooted.symm.trans rooted')
      exact notes_of_mem all below
  | field above typed below ih => exact notes_of_mem (ih _ typed).2.2 below
  | inline above below ih =>
      rw [Notes] at ih
      exact notes_of_mem ih below
  | spread above found below ih =>
      obtain ⟨fragment, found', all⟩ := sound.closed _ ih
      obtain rfl := Option.some.inj (found.symm.trans found')
      exact notes_of_mem (all List.not_mem_nil).2 below

/-- Every fragment that is spread is in the inventory. -/
theorem mem_inventory_of_spread (collected : bound.inventory = .ok inventory) {on : String}
    {spread : Spread} (selected : bound.Selected on (.spread spread)) :
    spread.fragment ∈ inventory.fragments :=
  inventory_notes collected selected

/-- Every enumeration that a selected field has is in the inventory. -/
theorem mem_inventory_of_enum (collected : bound.inventory = .ok inventory) {on : String}
    {field : Field} {brace : Position} {selections : List Selection} {type : TypeRef}
    {values : List String} (selected : bound.Selected on (.field field brace selections))
    (typed : bound.schema.selectedType on field.name field.position = .ok type)
    (body : bound.schema.get? type.name = some (.enum values)) :
    Elm.EnumDeclaration.ofValues type.name values ∈ inventory.enums :=
  (inventory_notes collected selected type typed).1 values body

/-- Every union that a fragment of the inventory is about is in the inventory. -/
theorem mem_inventory_of_condition (collected : bound.inventory = .ok inventory) {name : String}
    (known : name ∈ inventory.fragments) {fragment : Fragment}
    (found : bound.fragment? name = some fragment) {members : List String}
    (united : bound.schema.unionMembers? fragment.condition.type = some members) :
    (fragment.condition.type, members) ∈ inventory.unions := by
  obtain ⟨fragment', found', noted⟩ := (inventory_sound collected).closed name known
  obtain rfl := Option.some.inj (found.symm.trans found')
  exact (noted List.not_mem_nil).1 members united

end BoundDocument

end ElmClient
