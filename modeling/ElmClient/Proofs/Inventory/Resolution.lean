/-
Module: ElmClient.Proofs.Inventory.Resolution
Purpose: Collecting selections looks up every field and every type condition in them, and those of
  the fragments that they reach. So it succeeds exactly where all of these resolve in the schema:
  what is selected anywhere in a document that has an inventory resolves, and an operation whose
  selections and fragments resolve has an inventory, whatever was collected before.
Main exports: Schema.Resolves, BoundDocument.FragmentResolves, BoundDocument.OperationResolves,
  Selection.SpreadsAmong, BoundDocument.SpreadClosed, BoundDocument.inventory_resolves,
  BoundDocument.inventory_operationResolves, BoundDocument.inventory_spreadClosed,
  BoundDocument.inventory_spreadsAmong, BoundDocument.exists_collectOperation
-/
import ElmClient.Proofs.QueryText.Fragments

namespace ElmClient

open GraphQL

/-- A selection on a type whose fields are known, at every depth, and whose inline fragments are
about types that a fragment can be about. -/
inductive Schema.Resolves (schema : Schema) : String → Selection → Prop where
  | field {on field brace selections type}
      (selected : schema.selectedType on field.name field.position = .ok type)
      (below : ∀ selection ∈ selections, Resolves schema type.name selection) :
      Resolves schema on (.field field brace selections)
  | spread {on spread} : Resolves schema on (.spread spread)
  | inline {on inline brace selections}
      (conditioned : ∀ condition, inline.condition = some condition →
        schema.IsComposite condition.type)
      (below : ∀ selection ∈ selections, Resolves schema (inline.on on) selection) :
      Resolves schema on (.inline inline brace selections)

/-- A name of a fragment that is about a suitable type and whose selections resolve on it. -/
def BoundDocument.FragmentResolves (bound : BoundDocument) (name : String) : Prop :=
  ∃ fragment, bound.fragment? name = some fragment ∧
    bound.schema.IsComposite fragment.condition.type ∧
    ∀ selection ∈ fragment.selections, bound.schema.Resolves fragment.condition.type selection

/-- Only fragments with some names are spread in a selection. -/
def GraphQL.Selection.SpreadsAmong (names : String → Prop) (selection : Selection) : Prop :=
  ∀ name, selection.Spreads name → names name

section Spreads

variable {names : String → Prop} {brace : Position} {selections : List Selection}

theorem GraphQL.Selection.SpreadsAmong.field {field : Field}
    (among : (Selection.field field brace selections).SpreadsAmong names) :
    ∀ selection ∈ selections, selection.SpreadsAmong names :=
  fun _ member name inside => among name (.field member inside)

theorem GraphQL.Selection.SpreadsAmong.inline {inline : InlineFragment}
    (among : (Selection.inline inline brace selections).SpreadsAmong names) :
    ∀ selection ∈ selections, selection.SpreadsAmong names :=
  fun _ member name inside => among name (.inline member inside)

theorem GraphQL.Selection.SpreadsAmong.spread {spread : Spread}
    (among : (Selection.spread spread).SpreadsAmong names) : names spread.fragment :=
  among spread.fragment (.here rfl)

end Spreads

/-- Fragments of some names only spread one another. -/
def BoundDocument.SpreadClosed (bound : BoundDocument) (names : String → Prop) : Prop :=
  ∀ name, names name → ∀ fragment, bound.fragment? name = some fragment →
    ∀ selection ∈ fragment.selections, selection.SpreadsAmong names

/-! ### What is collected resolves -/

namespace BoundDocument

/-- Whatever fragments a later inventory has more resolve. -/
def AddsResolved (bound : BoundDocument) (earlier later : Inventory) : Prop :=
  ∀ name ∈ later.fragments, name ∈ earlier.fragments ∨ bound.FragmentResolves name

theorem AddsResolved.of_eq {bound : BoundDocument} {earlier later : Inventory}
    (same : later.fragments = earlier.fragments) : bound.AddsResolved earlier later :=
  fun _ member => Or.inl (same ▸ member)

theorem AddsResolved.trans {bound : BoundDocument} {first second third : Inventory}
    (one : bound.AddsResolved first second) (two : bound.AddsResolved second third) :
    bound.AddsResolved first third :=
  fun name member => (two name member).elim (one name) Or.inr

/-- A visit of a spread adds fragments that resolve. -/
def VisitsResolved (bound : BoundDocument) (visit : SpreadVisit) : Prop :=
  ∀ {spread inventory result}, visit spread inventory = .ok result →
    bound.AddsResolved inventory result

end BoundDocument

section Resolve

variable {bound : BoundDocument} {visit : SpreadVisit}

mutual

/-- A selection that is collected resolves, and so do the fragments that it adds. -/
theorem collectItem_resolves (visits : bound.VisitsResolved visit) :
    ∀ {selection : Selection} {on inventory result},
      collectItem bound.schema visit on selection inventory = .ok result →
      bound.schema.Resolves on selection ∧ bound.AddsResolved inventory result
  | .field field brace selections, on, inventory, result, succeeded => by
      rw [collectItem_field] at succeeded
      obtain ⟨type, selected, collected⟩ := Except.bind_eq_ok.mp succeeded
      obtain ⟨below, added⟩ := collectSelections_resolves visits collected
      have noted : bound.AddsResolved inventory
          (inventory.noteField bound.schema type selections) := .of_eq (by simp)
      exact ⟨.field selected below, noted.trans added⟩
  | .spread spread, on, inventory, result, succeeded => ⟨.spread, visits succeeded⟩
  | .inline inline brace selections, on, inventory, result, succeeded => by
      obtain ⟨conditioned, collected⟩ := collectItem_inline_eq_ok.mp succeeded
      obtain ⟨below, added⟩ := collectSelections_resolves visits collected
      have noted : bound.AddsResolved inventory
          (inventory.noteUnion bound.schema (inline.on on)) := .of_eq (by simp)
      exact ⟨.inline conditioned below, noted.trans added⟩

/-- Selections that are collected resolve, and so do the fragments that they add. -/
theorem collectSelections_resolves (visits : bound.VisitsResolved visit) :
    ∀ {selections : List Selection} {on inventory result},
      collectSelections bound.schema visit on selections inventory = .ok result →
      (∀ selection ∈ selections, bound.schema.Resolves on selection) ∧
        bound.AddsResolved inventory result
  | [], on, inventory, result, succeeded => by
      rw [← Except.ok.inj succeeded]
      exact ⟨by simp, .of_eq rfl⟩
  | selection :: rest, on, inventory, result, succeeded => by
      obtain ⟨next, first, later⟩ := Except.bind_eq_ok.mp succeeded
      obtain ⟨here, added⟩ := collectItem_resolves visits first
      obtain ⟨others, added'⟩ := collectSelections_resolves visits later
      exact ⟨List.forall_mem_cons.mpr ⟨here, others⟩, added.trans added'⟩

end

end Resolve

namespace BoundDocument

theorem visitSpread_resolves (bound : BoundDocument) (depth : Nat) :
    bound.VisitsResolved (bound.visitSpread depth) := by
  induction depth with
  | zero =>
      intro spread inventory result succeeded
      rw [← Except.ok.inj succeeded]
      exact .of_eq rfl
  | succ depth ih =>
      intro spread inventory result succeeded
      cases visitSpread_step succeeded with
      | known => exact .of_eq rfl
      | @fresh fragment _ _ found composite collected =>
          obtain ⟨selections, added⟩ := collectSelections_resolves ih collected
          have resolves : bound.FragmentResolves spread.fragment :=
            ⟨fragment, found, composite, selections⟩
          intro name member
          rcases added name member with earlier | new
          · rw [Inventory.fragments_noteUnion] at earlier
            rcases List.mem_append.mp earlier with old | here
            · exact Or.inl old
            · exact Or.inr (List.mem_singleton.mp here ▸ resolves)
          · exact Or.inr new

/-- An operation starts on a type on which its selections resolve. -/
def OperationResolves (bound : BoundDocument) (operation : Operation) : Prop :=
  ∃ root, bound.schema.rootType operation.kind operation.title = .ok root ∧
    ∀ selection ∈ operation.selections, bound.schema.Resolves root selection

variable {bound : BoundDocument} {inventory : Inventory}

theorem collectOperations_resolve {operations : List Operation} {result : Inventory}
    (succeeded : operations.foldlM bound.collectOperation inventory = .ok result) :
    (∀ operation ∈ operations, bound.OperationResolves operation) ∧
      bound.AddsResolved inventory result := by
  induction operations generalizing inventory with
  | nil =>
      rw [← Except.pure_eq_ok.mp succeeded]
      exact ⟨by simp, .of_eq rfl⟩
  | cons first rest ih =>
      obtain ⟨next, collected, later⟩ := Except.foldlM_cons_eq_ok.mp succeeded
      obtain ⟨root, rooted, collected⟩ := collectOperation_eq_ok.mp collected
      obtain ⟨selections, added⟩ :=
        collectSelections_resolves (bound.visitSpread_resolves _) collected
      obtain ⟨others, added'⟩ := ih later
      refine ⟨List.forall_mem_cons.mpr ⟨⟨root, rooted, selections⟩, others⟩, ?_⟩
      refine (AddsResolved.of_eq ?_).trans (added.trans added')
      rw [Inventory.fragments_noteUnion, fragments_noteVariables]

/-- Where a document has an inventory, its operations resolve. -/
theorem inventory_operationResolves (collected : bound.inventory = .ok inventory)
    {operation : Operation} (member : operation ∈ bound.operations) :
    bound.OperationResolves operation :=
  (collectOperations_resolve collected).1 operation member

/-- The fragments of an inventory resolve. -/
theorem inventory_fragmentResolves (collected : bound.inventory = .ok inventory) {name : String}
    (known : name ∈ inventory.fragments) : bound.FragmentResolves name :=
  ((collectOperations_resolve collected).2 name known).resolve_left List.not_mem_nil

/-- Where a document has an inventory, every selection in it resolves. -/
theorem inventory_resolves (collected : bound.inventory = .ok inventory) {on : String}
    {selection : Selection} (selected : bound.Selected on selection) :
    bound.schema.Resolves on selection := by
  induction selected with
  | operation member rooted below =>
      obtain ⟨root, rooted', resolves⟩ := inventory_operationResolves collected member
      obtain rfl := Except.ok.inj (rooted.symm.trans rooted')
      exact resolves _ below
  | field above selected below ih =>
      cases ih with
      | field selected' resolves =>
          obtain rfl := Except.ok.inj (selected.symm.trans selected')
          exact resolves _ below
  | inline above below ih =>
      cases ih with
      | inline _ resolves => exact resolves _ below
  | spread above found below ih =>
      obtain ⟨fragment, found', _, resolves⟩ :=
        inventory_fragmentResolves collected (mem_inventory_of_spread collected above)
      obtain rfl := Option.some.inj (found.symm.trans found')
      exact resolves _ below

end BoundDocument

/-! ### What resolves is collected -/

section Collect

variable {schema : Schema} {visit : SpreadVisit} {names : String → Prop}

mutual

/-- A selection that resolves is collected, if the fragments that it spreads are. -/
theorem exists_collectItem (visits : ∀ spread inventory, names spread.fragment →
      ∃ result, visit spread inventory = .ok result) :
    ∀ {selection : Selection} {on : String} (inventory : Inventory),
      schema.Resolves on selection → selection.SpreadsAmong names →
      ∃ result, collectItem schema visit on selection inventory = .ok result
  | .field field brace selections, on, inventory, resolves, among => by
      obtain ⟨selected, below⟩ := resolves
      rw [collectItem_field, selected]
      exact exists_collectSelections visits _ below among.field
  | .spread spread, on, inventory, resolves, among => by
      rw [collectItem]
      exact visits spread inventory among.spread
  | .inline inline brace selections, on, inventory, resolves, among => by
      obtain _ | _ | ⟨conditioned, below⟩ := resolves
      obtain ⟨result, collected⟩ := exists_collectSelections visits
        (inventory.noteUnion schema (inline.on on)) below among.inline
      exact ⟨result, collectItem_inline_eq_ok.mpr ⟨conditioned, collected⟩⟩

/-- Selections that resolve are collected, if the fragments that they spread are. -/
theorem exists_collectSelections (visits : ∀ spread inventory, names spread.fragment →
      ∃ result, visit spread inventory = .ok result) :
    ∀ {selections : List Selection} {on : String} (inventory : Inventory),
      (∀ selection ∈ selections, schema.Resolves on selection) →
      (∀ selection ∈ selections, selection.SpreadsAmong names) →
      ∃ result, collectSelections schema visit on selections inventory = .ok result
  | [], on, inventory, resolve, among => by
      rw [collectSelections]
      exact ⟨inventory, rfl⟩
  | selection :: rest, on, inventory, resolve, among => by
      obtain ⟨here, later⟩ := List.forall_mem_cons.mp resolve
      obtain ⟨here', later'⟩ := List.forall_mem_cons.mp among
      obtain ⟨next, collected⟩ := exists_collectItem visits inventory here here'
      obtain ⟨result, collected'⟩ := exists_collectSelections visits next later later'
      rw [collectSelections, collected]
      exact ⟨result, collected'⟩

end

end Collect

namespace BoundDocument

variable {bound : BoundDocument} {names : String → Prop}

theorem exists_visitSpread (resolve : ∀ name, names name → bound.FragmentResolves name)
    (closed : bound.SpreadClosed names) (depth : Nat) (spread : Spread) (inventory : Inventory)
    (known : names spread.fragment) :
    ∃ result, bound.visitSpread depth spread inventory = .ok result := by
  induction depth generalizing spread inventory with
  | zero => exact ⟨inventory, rfl⟩
  | succ depth ih =>
      rw [visitSpread]
      split
      case isTrue => exact ⟨inventory, rfl⟩
      case isFalse =>
        obtain ⟨fragment, found, composite, below⟩ := resolve _ known
        have looked : bound.fragment spread.fragment spread.position = .ok fragment :=
          fragment_eq_ok.mpr found
        have about (position : Position) : bound.schema.conditionType fragment.condition.type
            position = .ok fragment.condition.type :=
          Schema.conditionType_eq_ok.mpr ⟨composite, rfl⟩
        obtain ⟨result, collected⟩ := exists_collectSelections ih
          ((inventory.addFragment spread.fragment).noteUnion bound.schema fragment.condition.type)
          below (closed _ known fragment found)
        refine ⟨result, Except.bind_eq_ok.mpr ⟨fragment, looked, ?_⟩⟩
        exact Except.bind_eq_ok.mpr ⟨_, about _, collected⟩

/-- An operation that resolves is collected, whatever was collected before, if the fragments that it
spreads resolve. -/
theorem exists_collectOperation (resolve : ∀ name, names name → bound.FragmentResolves name)
    (closed : bound.SpreadClosed names) {operation : Operation}
    (resolves : bound.OperationResolves operation)
    (among : ∀ selection ∈ operation.selections, selection.SpreadsAmong names)
    (inventory : Inventory) :
    ∃ result, bound.collectOperation inventory operation = .ok result := by
  obtain ⟨root, rooted, below⟩ := resolves
  obtain ⟨result, collected⟩ := exists_collectSelections
    (exists_visitSpread resolve closed bound.spreadDepth) _ below among
  exact ⟨result, collectOperation_eq_ok.mpr ⟨root, rooted, collected⟩⟩

/-! ### What an inventory reaches -/

/-- What is spread in a selection that resolves is among the fragments, where what the selection
needs is noted. -/
theorem spreadsAmong_of_notes {schema : Schema} {inventory : Inventory} {on : String}
    {selection : Selection} (resolves : schema.Resolves on selection)
    (notes : inventory.Notes schema on selection) :
    selection.SpreadsAmong (· ∈ inventory.fragments) := by
  intro name inside
  induction inside generalizing on with
  | here same => exact same ▸ notes
  | field member inside ih =>
      obtain ⟨selected, below⟩ := resolves
      exact ih (below _ member) (Inventory.notes_of_mem (notes _ selected).2.2 member)
  | inline member inside ih =>
      obtain _ | _ | ⟨_, below⟩ := resolves
      rw [Inventory.Notes] at notes
      exact ih (below _ member) (Inventory.notes_of_mem notes member)

variable {inventory : Inventory}

/-- The fragments of an inventory only spread fragments of the inventory. -/
theorem inventory_spreadClosed (collected : bound.inventory = .ok inventory) :
    bound.SpreadClosed (· ∈ inventory.fragments) := by
  intro name known fragment found selection member
  obtain ⟨fragment', found', _, resolve⟩ := inventory_fragmentResolves collected known
  obtain rfl := Option.some.inj (found.symm.trans found')
  obtain ⟨fragment', found', noted⟩ := (inventory_sound collected).closed name known
  obtain rfl := Option.some.inj (found.symm.trans found')
  exact spreadsAmong_of_notes (resolve _ member)
    (Inventory.notes_of_mem (noted List.not_mem_nil).2 member)

/-- The operations only spread fragments of the inventory. -/
theorem inventory_spreadsAmong (collected : bound.inventory = .ok inventory)
    {operation : Operation} (listed : operation ∈ bound.operations) :
    ∀ selection ∈ operation.selections, selection.SpreadsAmong (· ∈ inventory.fragments) := by
  intro selection member
  obtain ⟨root, rooted, resolve⟩ := inventory_operationResolves collected listed
  exact spreadsAmong_of_notes (resolve _ member)
    (inventory_notes collected (.operation listed rooted member))

end BoundDocument

end ElmClient
