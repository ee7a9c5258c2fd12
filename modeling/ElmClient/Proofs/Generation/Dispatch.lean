/-
Module: ElmClient.Proofs.Generation.Dispatch
Purpose: What a selection set on a union selects so that its objects can be told apart. The decoder
  of a union reads the key `__typename`. In a document with a module, every selection set on a union
  selects the field of this name, but the field may have an alias, and directives on it or on a
  spread on the way to it may take it away. Where neither is the case, the key is requested.
Main exports: BoundDocument.SelectsTypename, BoundDocument.RequestsTypename, BoundDocument.SetOn,
  BoundDocument.DispatchSet, UnionPlanned.selectsTypename, generate_typenames
-/
import ElmClient.Proofs.Generation.SelectedFields

namespace ElmClient

open GraphQL
open Elm (typenameKey)

/-! ### The name of the type in a selection set -/

namespace BoundDocument

/-- A field with the name of the type that selections on a union select, directly or through
fragments on the same union, with the directives on it and on the spreads that lead to it. -/
inductive SelectsTypename (bound : BoundDocument) (union : String) :
    List Selection → Field → List Directive → Prop where
  | field {selections field brace below} (member : .field field brace below ∈ selections)
      (named : field.name = "__typename") :
      SelectsTypename bound union selections field field.directives
  | spread {selections spread fragment field directives} (member : .spread spread ∈ selections)
      (found : bound.fragment? spread.fragment = some fragment)
      (same : fragment.condition.type = union)
      (inside : SelectsTypename bound union fragment.selections field directives) :
      SelectsTypename bound union selections field (spread.directives ++ directives)

/-- Selections on a union that request the key by which its objects are told apart, whatever the
values of variables are. -/
def RequestsTypename (bound : BoundDocument) (union : String) (selections : List Selection) :
    Prop :=
  ∃ field directives, bound.SelectsTypename union selections field directives ∧
    field.responseKey = typenameKey ∧ ∀ directive ∈ directives, directive.mayRemove = false

/-- A selection set on a type, in an operation or in a fragment that one reaches. -/
inductive SetOn (bound : BoundDocument) : String → List Selection → Prop where
  | operation {operation root} (member : operation ∈ bound.operations)
      (rooted : bound.schema.rootType operation.kind operation.title = .ok root) :
      SetOn bound root operation.selections
  | field {on field brace selections type}
      (above : bound.Selected on (.field field brace selections)) (nonempty : selections ≠ [])
      (selected : bound.schema.selectedType on field.name field.position = .ok type) :
      SetOn bound type.name selections
  | inline {on inline brace selections}
      (above : bound.Selected on (.inline inline brace selections)) :
      SetOn bound (inline.on on) selections
  | fragment {on spread fragment} (above : bound.Selected on (.spread spread))
      (found : bound.fragment? spread.fragment = some fragment) :
      SetOn bound fragment.condition.type fragment.selections

/-- A selection set on a union whose objects are told apart: that of a field, not below a field of a
union, or that of a fragment. -/
inductive DispatchSet (bound : BoundDocument) : String → List Selection → Prop where
  | field {on field brace selections type members}
      (above : bound.Walked on (.field field brace selections))
      (apart : bound.schema.unionMembers? on = none)
      (selected : bound.schema.selectedType on field.name field.position = .ok type)
      (united : bound.schema.unionMembers? type.name = some members) :
      DispatchSet bound type.name selections
  | fragment {on spread fragment members} (above : bound.Selected on (.spread spread))
      (found : bound.fragment? spread.fragment = some fragment)
      (united : bound.schema.unionMembers? fragment.condition.type = some members) :
      DispatchSet bound fragment.condition.type fragment.selections

/-- A document in which nothing can hide the name of a type: on a union it is selected under its own
key, and neither it nor a spread of a fragment on the union has a directive that may remove it. -/
structure NamesTypes (bound : BoundDocument) : Prop where
  field {on field brace below} : bound.Selected on (.field field brace below) →
    bound.schema.unionMembers? on ≠ none →
    field.responseKey = typenameKey ∧ ∀ directive ∈ field.directives, directive.mayRemove = false
  spread {on spread fragment} : bound.Selected on (.spread spread) →
    bound.fragment? spread.fragment = some fragment → fragment.condition.type = on →
    bound.schema.unionMembers? on ≠ none →
    ∀ directive ∈ spread.directives, directive.mayRemove = false

/-- A document in which selection sets on unions are those of fields and of fragments alone: no
operation starts on a union, no union is a member of one, and no field of a union has a selection
set. -/
structure UnionsApart (bound : BoundDocument) : Prop where
  root {operation root} : operation ∈ bound.operations →
    bound.schema.rootType operation.kind operation.title = .ok root →
    bound.schema.unionMembers? root = none
  member {union members member} : bound.schema.unionMembers? union = some members →
    member ∈ members → bound.schema.unionMembers? member = none
  bare {on field brace selections} : bound.Selected on (.field field brace selections) →
    bound.schema.unionMembers? on ≠ none → selections = []

variable {bound : BoundDocument} {union : String}

/-- What is walked is selected. -/
theorem Walked.selected {on : String} {selection : Selection}
    (walked : bound.Walked on selection) : bound.Selected on selection := by
  induction walked with
  | operation member rooted below => exact .operation member rooted below
  | fragment used found below => exact .spread used found below
  | field _ _ selected below ih => exact ih.field selected below
  | inline _ below ih => exact ih.inline below

theorem SelectsTypename.mono {selections more : List Selection} {field : Field}
    {directives : List Directive}
    (selects : bound.SelectsTypename union selections field directives)
    (within : selections ⊆ more) : bound.SelectsTypename union more field directives := by
  cases selects with
  | field member named => exact .field (within member) named
  | spread member found same inside => exact .spread (within member) found same inside

/-- Where nothing can hide the name of a type, it is requested wherever it is selected. -/
theorem SelectsTypename.isPlain {selections : List Selection} {field : Field}
    {directives : List Directive}
    (selects : bound.SelectsTypename union selections field directives)
    (names : bound.NamesTypes) (united : bound.schema.unionMembers? union ≠ none)
    (stand : ∀ selection ∈ selections, bound.Selected union selection) :
    field.responseKey = typenameKey ∧ ∀ directive ∈ directives, directive.mayRemove = false := by
  induction selects with
  | field member named => exact names.field (stand _ member) united
  | spread member found same inside ih =>
      have here := stand _ member
      obtain ⟨key, kept⟩ := ih fun selection below => same ▸ .spread here found below
      refine ⟨key, fun directive there => ?_⟩
      rcases List.mem_append.mp there with own | later
      · exact names.spread here found same united directive own
      · exact kept directive later

/-- All that stands in a selection set on a union whose objects are told apart is selected. -/
theorem DispatchSet.selected {selections : List Selection}
    (dispatched : bound.DispatchSet union selections) :
    ∀ selection ∈ selections, bound.Selected union selection := by
  intro selection below
  cases dispatched with
  | field above apart selected united => exact above.selected.field selected below
  | fragment above found united => exact .spread above found below

theorem DispatchSet.united {selections : List Selection}
    (dispatched : bound.DispatchSet union selections) :
    bound.schema.unionMembers? union ≠ none := by
  cases dispatched with
  | field _ _ _ united | fragment _ _ united => exact united ▸ nofun

end BoundDocument

/-! ### Planned selections select the name of the type -/

section Planned

variable {bound : BoundDocument}

/-- A draft comes to have the name of the type only by a selection of it. -/
theorem UnionPlanned.selectsTypename :
    ∀ {active union members selections draft result},
      UnionPlanned bound active union members selections draft result →
      draft.hasTypename = false → result.hasTypename = true →
      ∃ field directives, bound.SelectsTypename union selections field directives
  | _, _, _, _, _, _, .nil, before, there => nomatch before.symm.trans there
  | _, _, _, _, _, _, .typename named _, _, _ => ⟨_, _, .field List.mem_cons_self named⟩
  | _, _, _, _, _, _, .inline _ _ _ _ after, before, there => by
      obtain ⟨field, directives, selects⟩ := after.selectsTypename before there
      exact ⟨field, directives, selects.mono (List.subset_cons_self _ _)⟩
  | _, _, _, _, _, _, .member _ _ _ _ _ after, before, there => by
      obtain ⟨field, directives, selects⟩ := after.selectsTypename before there
      exact ⟨field, directives, selects.mono (List.subset_cons_self _ _)⟩
  | _, _, _, _, _, _, @UnionPlanned.merge _ _ _ _ _ _ _ _ merged _ entered same expanded after,
      before, there => by
      -- Either the fragment selects the name, or what stands behind its spread does.
      cases inside : merged.hasTypename with
      | true =>
          obtain ⟨field, directives, selects⟩ := expanded.selectsTypename before inside
          exact ⟨field, _, .spread List.mem_cons_self entered.1 same selects⟩
      | false =>
          obtain ⟨field, directives, selects⟩ := after.selectsTypename inside there
          exact ⟨field, directives, selects.mono (List.subset_cons_self _ _)⟩

end Planned

namespace BoundDocument

variable {bound : BoundDocument} {m : Elm.Module} {inventory : Inventory}
  {plans : List (String × SelectionPlan)} {clients : List OperationClient}

/-- The plan of a fragment on a union is that of a selection set with the name of the type. -/
theorem fragmentPlan_of_union {name : String} {position : Position} {plan : SelectionPlan}
    (succeeded : bound.fragmentPlan name position = .ok plan) {fragment : Fragment}
    (found : bound.fragment? name = some fragment) {members : List String}
    (united : bound.schema.unionMembers? fragment.condition.type = some members) :
    ∃ draft, UnionPlanned bound [name] fragment.condition.type members fragment.selections {}
      draft ∧ draft.hasTypename = true := by
  obtain ⟨fragment', found', _, selected⟩ := fragmentPlan_eq_ok succeeded
  obtain rfl := Option.some.inj (found.symm.trans found')
  rcases planSelections_eq_ok selected with
    ⟨record, apart, _⟩ | ⟨members', draft, united', drafted, typename, _⟩
  · exact nomatch apart.symm.trans united
  · obtain rfl := Option.some.inj (united.symm.trans united')
    exact ⟨draft, planUnion_planned (bound.expansion_sound _ _) drafted, typename⟩

/-- In a document with a module, every selection set by which objects of a union are told apart
selects the name of the type. -/
theorem Declares.selectsTypename (declares : bound.Declares m inventory plans clients)
    {union : String} {selections : List Selection}
    (dispatched : bound.DispatchSet union selections) :
    ∃ field directives, bound.SelectsTypename union selections field directives := by
  cases dispatched with
  | field above apart selected united =>
      cases declares.inPlan above with
      | union united' => exact nomatch apart.symm.trans united'
      | record planned member =>
          obtain ⟨type, kind, selected', inside⟩ := planned.field_of_mem member
          obtain rfl := Except.ok.inj (selected.symm.trans selected')
          have form := Schema.form_eq_union.mpr united
          cases inside with
          | union _ _ drafted typename => exact drafted.selectsTypename rfl typename
          | leaf form' | enum form' | object form' => cases form.symm.trans form'
  | fragment above found united =>
      have known := mem_inventory_of_spread declares.collected above
      obtain ⟨_, _, planned, _⟩ := declares.fragment_of_mem known
      obtain ⟨draft, drafted, typename⟩ := fragmentPlan_of_union planned found united
      exact drafted.selectsTypename rfl typename

/-- In a document with a module in which unions are apart, all selection sets on unions are those
by which their objects are told apart. -/
theorem Declares.dispatchSet (declares : bound.Declares m inventory plans clients)
    (apart : bound.UnionsApart) {union : String} {selections : List Selection}
    (stands : bound.SetOn union selections) (united : bound.schema.unionMembers? union ≠ none) :
    bound.DispatchSet union selections := by
  obtain ⟨members, united'⟩ := Option.ne_none_iff_exists'.mp united
  have walked {on : String} {selection : Selection} (selected : bound.Selected on selection) :
      bound.Walked on selection :=
    .of_selected (fun _ _ _ _ => apart.bare) selected
  cases stands with
  | operation member rooted => exact absurd (apart.root member rooted) united
  | fragment above found => exact .fragment above found united'
  | @field on field brace _ type above nonempty selected =>
      apply DispatchSet.field (walked above) ?_ selected united'
      by_contra inside
      exact nonempty (apart.bare above inside)
  | @inline on inline brace _ above =>
      cases declares.inPlan (walked above) with
      | record planned member => exact absurd member planned.inline_notMem
      | union outer planned member =>
          obtain ⟨condition, _, conditioned, among, _⟩ := planned.inline_of_mem member
          rw [InlineFragment.on, conditioned] at united
          exact absurd (apart.member outer among) united

end BoundDocument

/-- In a document with a module, every selection set on a union that belongs to a field or to a
fragment selects the name of the type, directly or through fragments on the union. If it is nowhere
selected under an alias or where a directive may remove it, the key that decoders of unions read is
requested by every such set. And these are all selection sets on unions if unions are apart. -/
theorem generate_typenames {schema : Schema} {document : Document} {options : GenerationOptions}
    {m : Elm.Module} (generated : generate schema document options = .ok m) :
    ∃ bound, BoundDocument.bind schema document = .ok bound ∧
      (∀ union selections, bound.DispatchSet union selections →
        ∃ field directives, bound.SelectsTypename union selections field directives) ∧
      (bound.NamesTypes → ∀ union selections, bound.DispatchSet union selections →
        bound.RequestsTypename union selections) ∧
      (bound.UnionsApart → ∀ union selections, bound.SetOn union selections →
        bound.schema.unionMembers? union ≠ none → bound.DispatchSet union selections) := by
  obtain ⟨bound, inventory, plans, clients, bind_ok, declares⟩ := generate_declares generated
  refine ⟨bound, bind_ok, ?_, ?_, ?_⟩
  · exact fun union selections dispatched => declares.selectsTypename dispatched
  · intro names union selections dispatched
    obtain ⟨field, directives, selects⟩ := declares.selectsTypename dispatched
    obtain ⟨key, kept⟩ := selects.isPlain names dispatched.united dispatched.selected
    exact ⟨field, directives, selects, key, kept⟩
  · exact fun apart union selections stands united => declares.dispatchSet apart stands united

/-! ### A name under another key

Two queries select the name of a pet. In one of them the name has an alias, and the key that the
decoder of pets reads is requested by nothing. -/

/-- The name of the type, under its own key or under another one. -/
def petTypename (aliasName : Option String) : Field := ⟨⟨1, 9⟩, aliasName, "__typename", [], []⟩

/-- What is selected on a pet. -/
def petSelections (aliasName : Option String) : List Selection :=
  [.field (petTypename aliasName) ⟨1, 9⟩ [],
    .inline ⟨⟨1, 26⟩, some ⟨⟨1, 30⟩, "Dog", ⟨1, 33⟩⟩, []⟩ ⟨1, 37⟩
      [.field (shelterField "name" 39) ⟨1, 39⟩ []]]

/-- A query about a pet. -/
def petOperation (aliasName : Option String) : Operation :=
  { shelterOperation with
    selections := [.field (shelterField "pet" 3) ⟨1, 7⟩ (petSelections aliasName)] }

/-- The document of the query. -/
def petDocument (aliasName : Option String) : Document := ⟨[petOperation aliasName], []⟩

/-- The document with its schema. -/
def petBound (aliasName : Option String) : BoundDocument :=
  ⟨shelterSchema, [petOperation aliasName], []⟩

theorem petBound_selected {aliasName : Option String} {on : String} {selection : Selection}
    (selected : (petBound aliasName).Selected on selection) :
    (on = "Query" ∧
        selection = .field (shelterField "pet" 3) ⟨1, 7⟩ (petSelections aliasName)) ∨
      (on = "Pet" ∧ selection ∈ petSelections aliasName) ∨
      (on = "Dog" ∧ selection = .field (shelterField "name" 39) ⟨1, 39⟩ []) := by
  induction selected with
  | operation member rooted below =>
      obtain rfl := List.mem_singleton.mp member
      cases rooted
      exact Or.inl ⟨rfl, List.mem_singleton.mp below⟩
  | field above typed below ih =>
      rcases ih with ⟨rfl, same⟩ | ⟨rfl, there⟩ | ⟨rfl, same⟩
      · cases same
        cases typed
        exact Or.inr (Or.inl ⟨rfl, below⟩)
      · obtain ⟨_, _, rfl⟩ : _ ∧ _ ∧ _ = [] := by simpa [petSelections] using there
        exact absurd below List.not_mem_nil
      · cases same
        exact absurd below List.not_mem_nil
  | inline above below ih =>
      rcases ih with ⟨_, same⟩ | ⟨_, there⟩ | ⟨_, same⟩
      · exact nomatch same
      · obtain ⟨rfl, _, rfl⟩ : _ = _ ∧ _ ∧ _ = [_] := by simpa [petSelections] using there
        exact Or.inr (Or.inr ⟨rfl, List.mem_singleton.mp below⟩)
      · exact nomatch same
  | spread above found below => exact nomatch found

/-- Under its own key the name of the type is hidden by nothing. -/
theorem petBound_namesTypes : (petBound none).NamesTypes where
  field := by
    intro on field brace below selected united
    rcases petBound_selected selected with ⟨rfl, _⟩ | ⟨rfl, there⟩ | ⟨rfl, _⟩
    · exact absurd rfl united
    · obtain ⟨rfl, _, _⟩ : field = petTypename none ∧ _ ∧ _ := by
        simpa [petSelections] using there
      exact ⟨rfl, nofun⟩
    · exact absurd rfl united
  spread selected found := nomatch found

theorem petBound_dispatchSet (aliasName : Option String) :
    (petBound aliasName).DispatchSet "Pet" (petSelections aliasName) := by
  have walked : (petBound aliasName).Walked "Query"
      (.field (shelterField "pet" 3) ⟨1, 7⟩ (petSelections aliasName)) :=
    .operation List.mem_cons_self rfl List.mem_cons_self
  have typed : shelterSchema.selectedType "Query" "pet" ⟨1, 3⟩ = .ok (.named "Pet") := rfl
  exact .field walked rfl typed rfl

theorem exists_petModule : (∃ m, generate shelterSchema (petDocument none) shelterOptions = .ok m) ∧
    ∃ m, generate shelterSchema (petDocument (some "kind")) shelterOptions = .ok m := by
  have evaluated (aliasName : Option String) (there : aliasName ∈ [none, some "kind"]) :
      (generate shelterSchema (petDocument aliasName) shelterOptions).toOption.any
        (fun _ => true) = true := by
    revert aliasName
    decide +kernel
  obtain ⟨m, generated, _⟩ := Except.any_toOption.mp (evaluated none (by decide))
  obtain ⟨m', generated', _⟩ := Except.any_toOption.mp (evaluated (some "kind") (by decide))
  exact ⟨⟨m, generated⟩, m', generated'⟩

/-- The key is requested under its own name alone. -/
theorem pet_typenames : (petBound none).RequestsTypename "Pet" (petSelections none) ∧
    (∃ field directives,
      (petBound (some "kind")).SelectsTypename "Pet" (petSelections (some "kind")) field
        directives) ∧
    ¬ (petBound (some "kind")).RequestsTypename "Pet" (petSelections (some "kind")) := by
  obtain ⟨⟨m, generated⟩, m', generated'⟩ := exists_petModule
  obtain ⟨bound, bind_ok, _, requests, _⟩ := generate_typenames generated
  obtain ⟨bound', bind_ok', selects, _, _⟩ := generate_typenames generated'
  obtain rfl : petBound none = bound := Except.ok.inj bind_ok
  obtain rfl : petBound (some "kind") = bound' := Except.ok.inj bind_ok'
  refine ⟨requests petBound_namesTypes _ _ (petBound_dispatchSet none),
    selects _ _ (petBound_dispatchSet (some "kind")), ?_⟩
  rintro ⟨field, directives, named, key, _⟩
  cases named with
  | field member named =>
      obtain ⟨rfl, _, _⟩ : field = petTypename (some "kind") ∧ _ ∧ _ := by
        simpa [petSelections] using member
      exact absurd key (by decide)
  | spread member found => exact nomatch found

end ElmClient
