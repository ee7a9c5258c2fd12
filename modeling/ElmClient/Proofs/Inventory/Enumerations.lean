/-
Module: ElmClient.Proofs.Inventory.Enumerations
Purpose: The inventory of a document has every enumeration to which fields lead from the type of a
  variable. Types are looked through depth first and each only once, whoever reaches it first, so
  the invariant is about all types seen so far: those of their fields are looked through, except
  where the search is still below them.
Main exports: Inventory.Looked, Inventory.SeenClosed, Inventory.LooksThrough,
  Inventory.noteType_covers, BoundDocument.mem_inventory_of_variable
-/
import ElmClient.Proofs.Inventory.Closure
import ElmClient.Proofs.Schema.WellFormed

namespace ElmClient

open GraphQL

namespace Inventory

/-- A type is looked through: it is noted if it is an enumeration, and seen if it has fields. -/
structure Looked (schema : Schema) (inventory : Inventory) (name : String) : Prop where
  noted : NotesEnum schema inventory name
  seen : ∀ fields, schema.fields? name = some fields → name ∈ inventory.seen

/-- The types of the fields of every seen type that is not pending are looked through. -/
def SeenClosed (schema : Schema) (pending : List String) (inventory : Inventory) : Prop :=
  ∀ name ∈ inventory.seen, name ∉ pending → ∀ fields, schema.fields? name = some fields →
    ∀ field ∈ fields, Looked schema inventory field.2.name

/-- An inventory on the way through a type. -/
structure Covers (schema : Schema) (pending : List String) (inventory : Inventory) : Prop where
  enumsOf : EnumsOf schema inventory
  closed : SeenClosed schema pending inventory

/-- A later inventory with more enumerations and more types that were seen. -/
structure Grows (earlier later : Inventory) : Prop where
  enums : earlier.enums ⊆ later.enums
  seen : earlier.seen ⊆ later.seen

theorem Grows.refl (inventory : Inventory) : Grows inventory inventory :=
  ⟨List.Subset.refl _, List.Subset.refl _⟩

theorem Grows.trans {first second third : Inventory} (one : Grows first second)
    (two : Grows second third) : Grows first third :=
  ⟨List.Subset.trans one.enums two.enums, List.Subset.trans one.seen two.seen⟩

theorem Looked.mono {schema : Schema} {earlier later : Inventory} {name : String}
    (grows : Grows earlier later) (looked : Looked schema earlier name) :
    Looked schema later name :=
  ⟨fun values body => grows.enums (looked.noted values body),
    fun fields held => grows.seen (looked.seen fields held)⟩

/-- Where nothing is pending, whatever fields lead to from a type that is looked through is looked
through. -/
theorem Looked.of_reaches {schema : Schema} {inventory : Inventory}
    (covers : Covers schema [] inventory) {name target : String}
    (looked : Looked schema inventory name) (reached : schema.Reaches name target) :
    Looked schema inventory target := by
  induction reached with
  | refl => exact looked
  | field held member _ ih =>
      apply ih
      exact covers.closed _ (looked.seen _ held) List.not_mem_nil _ held _ member

/-! ### One type -/

/-- How many types of a schema were not seen. -/
def unseen (schema : Schema) (inventory : Inventory) : Nat :=
  ((schema.types.map Prod.fst).filter fun name => !inventory.seen.contains name).length

theorem Grows.unseen_le {schema : Schema} {earlier later : Inventory}
    (grows : Grows earlier later) : unseen schema later ≤ unseen schema earlier := by
  refine List.Sublist.length_le (List.monotone_filter_right _ ?_)
  intro name absent
  simp only [Bool.not_eq_true', List.contains_eq_mem, decide_eq_false_iff_not] at absent ⊢
  exact fun member => absent (grows.seen member)

theorem see_grows (inventory : Inventory) (name : String) : Grows inventory (inventory.see name) :=
  ⟨List.Subset.refl _, List.subset_cons_self _ _⟩

theorem unseen_see_lt {schema : Schema} {inventory : Inventory} {name : String}
    {fields : List (String × TypeRef)} (held : schema.fields? name = some fields)
    (fresh : name ∉ inventory.seen) :
    unseen schema (inventory.see name) < unseen schema inventory := by
  obtain ⟨body, found, _⟩ := Option.bind_eq_some_iff.mp held
  have known : name ∈ schema.types.map Prod.fst :=
    List.mem_map.mpr ⟨_, Dictionary.mem_of_lookup found, rfl⟩
  have split : ((schema.types.map Prod.fst).filter fun other =>
      !(inventory.see name).seen.contains other) =
      ((schema.types.map Prod.fst).filter fun other =>
        !inventory.seen.contains other).filter fun other => other != name := by
    rw [List.filter_filter]
    apply List.filter_congr
    intro other _
    by_cases same : other = name <;> simp [see, same]
  rw [unseen, unseen, split]
  refine List.length_filter_lt_length_iff_exists.mpr ⟨name, ?_, by simp⟩
  exact List.mem_filter.mpr ⟨known, by simpa using fresh⟩

theorem unseen_lt (schema : Schema) (inventory : Inventory) :
    unseen schema inventory < schema.types.length + 1 := by
  refine Nat.lt_succ_of_le ((List.length_filter_le _ _).trans ?_)
  rw [List.length_map]

theorem fields?_eq_none_of_enum {schema : Schema} {name : String} {values : List String}
    (body : schema.get? name = some (.enum values)) : schema.fields? name = none := by
  rw [Schema.fields?, body]
  rfl

/-- From one inventory, the search comes to another in which a type is looked through. -/
structure LooksThrough (schema : Schema) (pending : List String) (name : String)
    (earlier later : Inventory) : Prop where
  grows : Grows earlier later
  covers : Covers schema pending later
  looked : Looked schema later name

section Search

variable {schema : Schema} {pending : List String} {inventory : Inventory} {name : String}
  {fields : List (String × TypeRef)}

theorem SeenClosed.grow {later : Inventory} (closed : SeenClosed schema pending inventory)
    (grows : Grows inventory later) (seen : later.seen = inventory.seen) :
    SeenClosed schema pending later := by
  intro name member done fields held field among
  rw [seen] at member
  exact (closed name member done fields held field among).mono grows

/-- A type without fields that is no enumeration is looked through by leaving it. -/
theorem Covers.leaf (covers : Covers schema pending inventory)
    (fieldless : schema.fields? name = none)
    (other : ∀ values, schema.get? name ≠ some (.enum values)) :
    LooksThrough schema pending name inventory inventory := by
  refine ⟨Grows.refl inventory, covers, ?_, ?_⟩
  · exact fun values body => absurd body (other values)
  · exact fun fields held => nomatch fieldless.symm.trans held

/-- An enumeration is looked through by adding it. -/
theorem Covers.addEnum (covers : Covers schema pending inventory) {values : List String}
    (body : schema.get? name = some (.enum values)) :
    LooksThrough schema pending name inventory (inventory.addEnum name values) := by
  have extended := addEnum_extends body inventory
  have seen : (inventory.addEnum name values).seen = inventory.seen := by
    unfold Inventory.addEnum
    split <;> rfl
  have grows : Grows inventory (inventory.addEnum name values) :=
    ⟨extended.enums, fun _ member => seen ▸ member⟩
  refine ⟨grows, ⟨extended.enumsOf covers.enumsOf, covers.closed.grow grows seen⟩, ?_, ?_⟩
  · exact notesEnum_addEnum body covers.enumsOf
  · exact fun fields held => nomatch (fields?_eq_none_of_enum body).symm.trans held

/-- A type with fields is no enumeration, so it is looked through once it is seen. -/
theorem Looked.of_seen (held : schema.fields? name = some fields)
    (member : name ∈ inventory.seen) : Looked schema inventory name := by
  refine ⟨fun values body => ?_, fun _ _ => member⟩
  exact nomatch (fields?_eq_none_of_enum body).symm.trans held

/-- A type that is entered is pending. -/
theorem Covers.enter (covers : Covers schema pending inventory) (name : String) :
    Covers schema (name :: pending) (inventory.see name) := by
  refine ⟨(see_extends schema inventory name).enumsOf covers.enumsOf, ?_⟩
  intro other member done fields held field among
  rw [List.mem_cons, not_or] at done
  have earlier := (List.mem_cons.mp member).resolve_left done.1
  exact (covers.closed other earlier done.2 fields held field among).mono
    (see_grows inventory name)

/-- A type is left when those of its fields are looked through. -/
theorem Covers.leave (covers : Covers schema (name :: pending) inventory)
    (held : schema.fields? name = some fields)
    (looked : ∀ field ∈ fields, Looked schema inventory field.2.name) :
    Covers schema pending inventory := by
  refine ⟨covers.enumsOf, ?_⟩
  intro other member done others held' field among
  by_cases same : other = name
  · subst same
    obtain rfl := Option.some.inj (held.symm.trans held')
    exact looked field among
  · refine covers.closed other member ?_ others held' field among
    exact fun waits => (List.mem_cons.mp waits).elim same done

/-- Types are looked through one after the other, if each of them is as long as fewer types than the
limit are unseen. -/
theorem foldl_looksThrough {α : Type} {step : Inventory → α → Inventory} {type : α → TypeRef}
    {limit : Nat}
    (each : ∀ item inventory, unseen schema inventory < limit →
      Covers schema pending inventory →
        LooksThrough schema pending (type item).name inventory (step inventory item))
    (items : List α) {inventory : Inventory} (few : unseen schema inventory < limit)
    (covers : Covers schema pending inventory) :
    let later := items.foldl step inventory
    Grows inventory later ∧ Covers schema pending later ∧
      ∀ item ∈ items, Looked schema later (type item).name := by
  induction items generalizing inventory with
  | nil => exact ⟨Grows.refl inventory, covers, by simp⟩
  | cons first rest ih =>
      have here := each first inventory few covers
      obtain ⟨grows, covers', others⟩ :=
        ih (Nat.lt_of_le_of_lt here.grows.unseen_le few) here.covers
      exact ⟨here.grows.trans grows, covers',
        List.forall_mem_cons.mpr ⟨here.looked.mono grows, others⟩⟩

end Search

/-- Looking through a type keeps the invariant and adds the type, as long as fewer types than the
bound are unseen. -/
theorem noteTypeTo_covers {schema : Schema} (depth : Nat) :
    ∀ {type : TypeRef} {pending : List String} {inventory : Inventory},
      unseen schema inventory < depth → Covers schema pending inventory →
        LooksThrough schema pending type.name inventory
          (noteTypeTo schema depth type inventory) := by
  induction depth with
  | zero => exact fun few => absurd few (Nat.not_lt_zero _)
  | succ depth ih =>
      intro type pending inventory few covers
      have step := noteTypeTo_step schema depth type inventory
      generalize noteTypeTo schema (depth + 1) type inventory = later at step ⊢
      cases step with
      | leaf fieldless other => exact covers.leaf fieldless other
      | enum body => exact covers.addEnum body
      | known held member => exact ⟨Grows.refl inventory, covers, .of_seen held member⟩
      | @fields fields held fresh =>
          have fewer : unseen schema (inventory.see type.name) < depth := by
            have less := unseen_see_lt held fresh
            omega
          obtain ⟨grows, covers', looked⟩ := foldl_looksThrough
            (fun field _ few covers => ih few covers) fields fewer (covers.enter type.name)
          have there := grows.seen (List.mem_cons_self : type.name ∈ _ :: inventory.seen)
          exact ⟨(see_grows inventory type.name).trans grows, covers'.leave held looked,
            .of_seen held there⟩

/-- Looking through a type keeps the invariant and adds all that fields lead to from it. -/
theorem noteType_covers {schema : Schema} (type : TypeRef) {inventory : Inventory}
    (covers : Covers schema [] inventory) :
    LooksThrough schema [] type.name inventory (inventory.noteType schema type) :=
  noteTypeTo_covers _ (unseen_lt schema inventory) covers

/-! ### A document -/

/-- A later inventory that covers what an earlier one covers, and more. -/
structure Covering (schema : Schema) (earlier later : Inventory) : Prop where
  grows : Grows earlier later
  covers : Covers schema [] earlier → Covers schema [] later

theorem Covering.refl (schema : Schema) (inventory : Inventory) :
    Covering schema inventory inventory :=
  ⟨Grows.refl inventory, id⟩

theorem Covering.trans {schema : Schema} {first second third : Inventory}
    (one : Covering schema first second) (two : Covering schema second third) :
    Covering schema first third :=
  ⟨one.grows.trans two.grows, two.covers ∘ one.covers⟩

/-- Unions and fragments have no part in the search for enumerations. -/
theorem Covering.of_eq {schema : Schema} {earlier later : Inventory}
    (enums : later.enums = earlier.enums) (seen : later.seen = earlier.seen) :
    Covering schema earlier later := by
  have grows : Grows earlier later :=
    ⟨fun _ member => enums ▸ member, fun _ member => seen ▸ member⟩
  exact ⟨grows, fun covers =>
    ⟨⟨enums ▸ covers.enumsOf.1, enums ▸ covers.enumsOf.2⟩, covers.closed.grow grows seen⟩⟩

theorem noteUnion_covering (schema : Schema) (name : String) (inventory : Inventory) :
    Covering schema inventory (inventory.noteUnion schema name) := by
  unfold noteUnion addUnion
  split
  · split
    · exact .refl schema inventory
    · exact .of_eq rfl rfl
  · exact .refl schema inventory

/-- The type of a selected field is looked through. -/
theorem noteField_covering {schema : Schema} (type : TypeRef) (selections : List Selection)
    {inventory : Inventory} (covers : Covers schema [] inventory) :
    Covering schema inventory (inventory.noteField schema type selections) := by
  have noted := noteType_covers type covers
  have typed : Covering schema inventory (inventory.noteType schema type) :=
    ⟨noted.grows, fun _ => noted.covers⟩
  unfold noteField
  split
  · exact typed
  · exact typed.trans (noteUnion_covering schema type.name _)

end Inventory

open Inventory

section Collect

variable {schema : Schema} {visit : SpreadVisit}

mutual

/-- Collecting a selection keeps what is covered, if visits of spreads do. -/
theorem collectItem_covers
    (visits : ∀ {spread inventory result}, Covers schema [] inventory →
      visit spread inventory = .ok result → Covering schema inventory result) :
    ∀ {selection : Selection} {on inventory result}, Covers schema [] inventory →
      collectItem schema visit on selection inventory = .ok result →
        Covering schema inventory result
  | .field field brace selections, on, inventory, result, covers, succeeded => by
      rw [collectItem_field] at succeeded
      obtain ⟨type, _, collected⟩ := Except.bind_eq_ok.mp succeeded
      have noted := noteField_covering type selections covers
      exact noted.trans (collectSelections_covers visits (noted.covers covers) collected)
  | .spread spread, on, inventory, result, covers, succeeded => visits covers succeeded
  | .inline inline brace selections, on, inventory, result, covers, succeeded => by
      obtain ⟨_, collected⟩ := collectItem_inline_eq_ok.mp succeeded
      have united := noteUnion_covering schema (inline.on on) inventory
      exact united.trans (collectSelections_covers visits (united.covers covers) collected)

/-- Collecting selections keeps what is covered. -/
theorem collectSelections_covers
    (visits : ∀ {spread inventory result}, Covers schema [] inventory →
      visit spread inventory = .ok result → Covering schema inventory result) :
    ∀ {selections : List Selection} {on inventory result}, Covers schema [] inventory →
      collectSelections schema visit on selections inventory = .ok result →
        Covering schema inventory result
  | [], on, inventory, result, covers, succeeded => by
      rw [← Except.ok.inj succeeded]
      exact .refl schema inventory
  | selection :: rest, on, inventory, result, covers, succeeded => by
      obtain ⟨next, first, later⟩ := Except.bind_eq_ok.mp succeeded
      have here := collectItem_covers visits covers first
      exact here.trans (collectSelections_covers visits (here.covers covers) later)

end

end Collect

namespace BoundDocument

variable {bound : BoundDocument} {inventory : Inventory}

theorem visitSpread_covers (bound : BoundDocument) (depth : Nat) :
    ∀ {spread inventory result}, Covers bound.schema [] inventory →
      bound.visitSpread depth spread inventory = .ok result →
        Covering bound.schema inventory result := by
  induction depth with
  | zero =>
      intro spread inventory result covers succeeded
      rw [← Except.ok.inj succeeded]
      exact .refl bound.schema inventory
  | succ depth ih =>
      intro spread inventory result covers succeeded
      cases visitSpread_step succeeded with
      | known => exact .refl bound.schema inventory
      | @fresh fragment _ _ _ _ collected =>
          have added : Covering bound.schema inventory (inventory.addFragment spread.fragment) :=
            .of_eq rfl rfl
          have united := added.trans (noteUnion_covering bound.schema fragment.condition.type _)
          exact united.trans (collectSelections_covers ih (united.covers covers) collected)

/-- The types of the variables of an operation are looked through. -/
theorem noteVariables_covering (operation : Operation)
    (covers : Covers bound.schema [] inventory) :
    Covering bound.schema inventory (bound.noteVariables operation inventory) ∧
      ∀ definition ∈ operation.definitions,
        Looked bound.schema (bound.noteVariables operation inventory) definition.type.name := by
  obtain ⟨grows, covers', looked⟩ := foldl_looksThrough
    (fun definition _ _ covers => noteType_covers definition.type covers) operation.definitions
    (unseen_lt bound.schema inventory) covers
  exact ⟨⟨grows, fun _ => covers'⟩, looked⟩

/-- Collecting an operation looks through the types of its variables. -/
theorem collectOperation_covers {operation : Operation} {result : Inventory}
    (covers : Covers bound.schema [] inventory)
    (succeeded : bound.collectOperation inventory operation = .ok result) :
    Covering bound.schema inventory result ∧
      ∀ definition ∈ operation.definitions, Looked bound.schema result definition.type.name := by
  obtain ⟨root, _, collected⟩ := collectOperation_eq_ok.mp succeeded
  obtain ⟨noted, looked⟩ := noteVariables_covering operation covers
  have united := noted.trans (noteUnion_covering bound.schema root _)
  have rest := collectSelections_covers (bound.visitSpread_covers bound.spreadDepth)
    (united.covers covers) collected
  refine ⟨united.trans rest, fun definition member => (looked definition member).mono ?_⟩
  exact (noteUnion_covering bound.schema root _).grows.trans rest.grows

/-- Collecting operations looks through the types of all their variables. -/
theorem collectOperations_covers {operations : List Operation} {result : Inventory}
    (covers : Covers bound.schema [] inventory)
    (succeeded : operations.foldlM bound.collectOperation inventory = .ok result) :
    Covering bound.schema inventory result ∧
      ∀ operation ∈ operations, ∀ definition ∈ operation.definitions,
        Looked bound.schema result definition.type.name := by
  induction operations generalizing inventory with
  | nil =>
      rw [← Except.pure_eq_ok.mp succeeded]
      exact ⟨.refl bound.schema inventory, by simp⟩
  | cons first rest ih =>
      obtain ⟨next, collected, later⟩ := Except.foldlM_cons_eq_ok.mp succeeded
      obtain ⟨covering, looked⟩ := collectOperation_covers covers collected
      obtain ⟨covering', others⟩ := ih (covering.covers covers) later
      refine ⟨covering.trans covering', List.forall_mem_cons.mpr ⟨?_, others⟩⟩
      exact fun definition member => (looked definition member).mono covering'.grows

/-- Every enumeration to which fields lead from the type of a variable is in the inventory. -/
theorem mem_inventory_of_variable (collected : bound.inventory = .ok inventory)
    {operation : Operation} (among : operation ∈ bound.operations)
    {definition : VariableDefinition} (member : definition ∈ operation.definitions)
    {name : String} {values : List String}
    (reached : bound.schema.Reaches definition.type.name name)
    (body : bound.schema.get? name = some (.enum values)) :
    Elm.EnumDeclaration.ofValues name values ∈ inventory.enums := by
  have start : Covers bound.schema [] {} :=
    ⟨(Sound.empty bound).enumsOf, fun _ absent => absurd absent List.not_mem_nil⟩
  obtain ⟨covering, looked⟩ := collectOperations_covers start collected
  have there := (looked operation among definition member).of_reaches (covering.covers start)
    reached
  exact there.noted values body

end BoundDocument

end ElmClient
