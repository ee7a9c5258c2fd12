/-
Module: ElmClient.Proofs.Inventory.Encounters
Purpose: Collecting as a depth-first search. What operations lead to are types, types with a selection
  set and fragments; a type leads to the types of its fields and a fragment to what is encountered in
  it. The inventory of a document is what such a search visits, sorted by kind, and the search goes
  through the operations in their order.
Main exports: Encounter, Schema.encounters, BoundDocument.leadsTo, BoundDocument.starts,
  Inventory.ofEncounters, BoundDocument.Finds, Inventory.noteTypeTo_finds, collectSelections_finds,
  BoundDocument.visitSpread_finds, BoundDocument.exists_search
-/
import ElmClient.Proofs.Inventory.Enumerations
import ElmClient.Proofs.Inventory.Resolution
import ElmClient.Proofs.Traversal

namespace ElmClient

open GraphQL
open Traversal (Search)

/-- What operations lead to: a type, of a variable or of a field; a type on which there is a selection
set; and a fragment that is spread. -/
inductive Encounter where
  | type (name : String)
  | set (on : String)
  | fragment (name : String)
deriving DecidableEq, Repr

/-- The values of the enumeration of a name. -/
def Schema.enumValues? (schema : Schema) (name : String) : Option (List String) :=
  match schema.get? name with
  | some (.enum values) => some values
  | _ => none

theorem Schema.enumValues?_eq_some {schema : Schema} {name : String} {values : List String} :
    schema.enumValues? name = some values ↔ schema.get? name = some (.enum values) := by
  unfold enumValues?
  cases schema.get? name with
  | none => simp
  | some body => cases body <;> simp

theorem Schema.enumValues?_eq_none {schema : Schema} {name : String}
    (other : ∀ values, schema.get? name ≠ some (.enum values)) : schema.enumValues? name = none :=
  Option.eq_none_iff_forall_ne_some.mpr fun values found =>
    other values (enumValues?_eq_some.mp found)

namespace Encounter

/-- The declaration of the enumeration that is encountered. -/
def enum? (schema : Schema) : Encounter → Option Elm.EnumDeclaration
  | .type name => (schema.enumValues? name).map (.ofValues name)
  | _ => none

/-- The union on which there is a selection set, with its members. -/
def union? (schema : Schema) : Encounter → Option (String × List String)
  | .set on => (schema.unionMembers? on).map (on, ·)
  | _ => none

/-- The fragment that is spread. -/
def fragment? : Encounter → Option String
  | .fragment name => some name
  | _ => none

/-- The type that leads to others through fields. -/
def composite? (schema : Schema) : Encounter → Option String
  | .type name => (schema.fields? name).map fun _ => name
  | _ => none

section Kinds

variable {schema : Schema} {stop : Encounter} {name : String}

theorem enum?_eq_some {enum : Elm.EnumDeclaration} :
    stop.enum? schema = some enum ↔ ∃ name values, stop = .type name ∧
      schema.get? name = some (.enum values) ∧ enum = .ofValues name values := by
  cases stop with
  | type name =>
      simp only [enum?, Option.map_eq_some_iff, Schema.enumValues?_eq_some]
      constructor
      · rintro ⟨values, body, rfl⟩
        exact ⟨name, values, rfl, body, rfl⟩
      · rintro ⟨_, values, same, body, rfl⟩
        cases same
        exact ⟨values, body, rfl⟩
  | set | fragment => simp [enum?]

theorem union?_eq_some {members : List String} :
    stop.union? schema = some (name, members) ↔
      stop = .set name ∧ schema.unionMembers? name = some members := by
  cases stop with
  | set on =>
      simp only [union?, Option.map_eq_some_iff, Prod.mk.injEq, Encounter.set.injEq]
      constructor
      · rintro ⟨_, united, rfl, rfl⟩
        exact ⟨rfl, united⟩
      · rintro ⟨rfl, united⟩
        exact ⟨members, united, rfl, rfl⟩
  | type | fragment => simp [union?]

theorem fragment?_eq_some : stop.fragment? = some name ↔ stop = .fragment name := by
  cases stop <;> simp [fragment?]

theorem composite?_eq_some :
    stop.composite? schema = some name ↔
      stop = .type name ∧ ∃ fields, schema.fields? name = some fields := by
  cases stop with
  | type other =>
      simp only [composite?, Option.map_eq_some_iff, Encounter.type.injEq]
      constructor
      · rintro ⟨fields, held, rfl⟩
        exact ⟨rfl, fields, held⟩
      · rintro ⟨rfl, fields, held⟩
        exact ⟨fields, held, rfl⟩
  | set | fragment => simp [composite?]

end Kinds

end Encounter

namespace Schema

mutual

/-- What is encountered in a selection on a type. -/
def encountersOf (schema : Schema) (on : String) : Selection → List Encounter
  | .field field _ selections =>
      match schema.selectedType on field.name field.position with
      | .ok type =>
          .type type.name :: ((if selections.isEmpty then [] else [.set type.name]) ++
            encounters schema type.name selections)
      | .error _ => []
  | .spread spread => [.fragment spread.fragment]
  | .inline inline _ selections =>
      .set (inline.on on) :: encounters schema (inline.on on) selections
termination_by structural selection => selection

/-- What is encountered in selections on a type, in the order of the text. -/
def encounters (schema : Schema) (on : String) : List Selection → List Encounter
  | [] => []
  | selection :: rest => encountersOf schema on selection ++ encounters schema on rest
termination_by structural selections => selections

end

end Schema

namespace BoundDocument

/-- What an encounter leads to: a type to the types of its fields, and a fragment to its own selection
set. -/
def leadsTo (bound : BoundDocument) : Encounter → List Encounter
  | .type name => ((bound.schema.fields? name).getD []).map fun field => .type field.2.name
  | .set _ => []
  | .fragment name =>
      match bound.fragment? name with
      | some fragment =>
          .set fragment.condition.type ::
            bound.schema.encounters fragment.condition.type fragment.selections
      | none => []

theorem leadsTo_of_fields {bound : BoundDocument} {name : String}
    {fields : List (String × TypeRef)} (held : bound.schema.fields? name = some fields) :
    bound.leadsTo (.type name) = fields.map fun field => .type field.2.name := by
  rw [leadsTo, held, Option.getD_some]

theorem leadsTo_of_fieldless {bound : BoundDocument} {name : String}
    (fieldless : bound.schema.fields? name = none) : bound.leadsTo (.type name) = [] := by
  rw [leadsTo, fieldless]
  rfl

/-- What is encountered in an operation: the types of its variables, and its selection set. -/
def startsOf (bound : BoundDocument) (operation : Operation) : List Encounter :=
  operation.definitions.map (fun definition => .type definition.type.name) ++
    match bound.schema.rootType operation.kind operation.title with
    | .ok root => .set root :: bound.schema.encounters root operation.selections
    | .error _ => []

/-- What is encountered in the operations, in the order of the text. -/
def starts (bound : BoundDocument) : List Encounter := bound.operations.flatMap bound.startsOf

end BoundDocument

/-! ### Inventories of encounters -/

namespace Inventory

/-- The inventory of what was encountered. The types that were looked through come last first. -/
def ofEncounters (schema : Schema) (visited : List Encounter) : Inventory where
  enums := visited.filterMap (·.enum? schema)
  unions := visited.filterMap (·.union? schema)
  fragments := visited.filterMap (·.fragment?)
  seen := (visited.filterMap (·.composite? schema)).reverse

variable {schema : Schema} {visited more : List Encounter} {name : String}

theorem ofEncounters_concat (stop : Encounter) :
    ofEncounters schema (visited ++ [stop]) =
      { enums := (ofEncounters schema visited).enums ++ (stop.enum? schema).toList
        unions := (ofEncounters schema visited).unions ++ (stop.union? schema).toList
        fragments := (ofEncounters schema visited).fragments ++ stop.fragment?.toList
        seen := (stop.composite? schema).toList ++ (ofEncounters schema visited).seen } := by
  have single {β : Type} (f : Encounter → Option β) : [stop].filterMap f = (f stop).toList := by
    cases taken : f stop <;> simp [taken]
  have reversed {β : Type} (found : Option β) : found.toList.reverse = found.toList := by
    cases found <;> rfl
  simp only [ofEncounters, List.filterMap_append, single, List.reverse_append, reversed]

/-- An encounter of no kind adds nothing. -/
theorem ofEncounters_concat_of_none {stop : Encounter} (enum : stop.enum? schema = none)
    (union : stop.union? schema = none) (fragment : stop.fragment? = none)
    (composite : stop.composite? schema = none) :
    ofEncounters schema (visited ++ [stop]) = ofEncounters schema visited := by
  rw [ofEncounters_concat, enum, union, fragment, composite]
  simp only [Option.toList_none, List.append_nil, List.nil_append]

theorem ofEncounters_concat_enum {values : List String}
    (body : schema.get? name = some (.enum values)) :
    ofEncounters schema (visited ++ [.type name]) =
      { ofEncounters schema visited with
        enums := (ofEncounters schema visited).enums ++ [.ofValues name values] } := by
  rw [ofEncounters_concat]
  simp [Encounter.enum?, Encounter.union?, Encounter.fragment?, Encounter.composite?,
    Schema.enumValues?_eq_some.mpr body, fields?_eq_none_of_enum body]

theorem ofEncounters_concat_union {members : List String}
    (united : schema.unionMembers? name = some members) :
    ofEncounters schema (visited ++ [.set name]) =
      { ofEncounters schema visited with
        unions := (ofEncounters schema visited).unions ++ [(name, members)] } := by
  rw [ofEncounters_concat]
  simp [Encounter.enum?, Encounter.union?, Encounter.fragment?, Encounter.composite?, united]

theorem ofEncounters_concat_fragment :
    ofEncounters schema (visited ++ [.fragment name]) =
      (ofEncounters schema visited).addFragment name := by
  rw [ofEncounters_concat]
  simp [addFragment, Encounter.enum?, Encounter.union?, Encounter.fragment?, Encounter.composite?]

theorem ofEncounters_concat_fields {fields : List (String × TypeRef)}
    (held : schema.fields? name = some fields) :
    ofEncounters schema (visited ++ [.type name]) = (ofEncounters schema visited).see name := by
  have other : schema.enumValues? name = none := Schema.enumValues?_eq_none fun values body =>
    nomatch (fields?_eq_none_of_enum body).symm.trans held
  rw [ofEncounters_concat]
  simp [see, Encounter.enum?, Encounter.union?, Encounter.fragment?, Encounter.composite?, other,
    held]

theorem mem_fragments_ofEncounters :
    name ∈ (ofEncounters schema visited).fragments ↔ .fragment name ∈ visited := by
  rw [ofEncounters, List.mem_filterMap]
  constructor
  · rintro ⟨stop, member, taken⟩
    exact Encounter.fragment?_eq_some.mp taken ▸ member
  · exact fun member => ⟨_, member, rfl⟩

theorem mem_seen_ofEncounters {fields : List (String × TypeRef)}
    (held : schema.fields? name = some fields) :
    name ∈ (ofEncounters schema visited).seen ↔ .type name ∈ visited := by
  rw [ofEncounters, List.mem_reverse, List.mem_filterMap]
  constructor
  · rintro ⟨stop, member, taken⟩
    exact (Encounter.composite?_eq_some.mp taken).1 ▸ member
  · exact fun member => ⟨_, member, Encounter.composite?_eq_some.mpr ⟨rfl, fields, held⟩⟩

theorem mem_enums_ofEncounters {enum : Elm.EnumDeclaration} :
    enum ∈ (ofEncounters schema visited).enums ↔ ∃ name values,
      schema.get? name = some (.enum values) ∧ enum = .ofValues name values ∧
        .type name ∈ visited := by
  rw [ofEncounters, List.mem_filterMap]
  constructor
  · rintro ⟨stop, member, taken⟩
    obtain ⟨name, values, rfl, body, same⟩ := Encounter.enum?_eq_some.mp taken
    exact ⟨name, values, body, same, member⟩
  · rintro ⟨name, values, body, same, member⟩
    exact ⟨_, member, Encounter.enum?_eq_some.mpr ⟨name, values, rfl, body, same⟩⟩

theorem mem_unions_ofEncounters {members : List String} :
    (name, members) ∈ (ofEncounters schema visited).unions ↔
      schema.unionMembers? name = some members ∧ .set name ∈ visited := by
  rw [ofEncounters, List.mem_filterMap]
  constructor
  · rintro ⟨stop, member, taken⟩
    obtain ⟨rfl, united⟩ := Encounter.union?_eq_some.mp taken
    exact ⟨united, member⟩
  · rintro ⟨united, member⟩
    exact ⟨_, member, Encounter.union?_eq_some.mpr ⟨rfl, united⟩⟩

theorem any_enums_ofEncounters {values : List String}
    (body : schema.get? name = some (.enum values)) :
    (ofEncounters schema visited).enums.any (·.name == name) = true ↔ .type name ∈ visited := by
  rw [List.any_eq_true]
  constructor
  · rintro ⟨enum, there, same⟩
    obtain ⟨other, _, _, rfl, member⟩ := mem_enums_ofEncounters.mp there
    have named : other = name := eq_of_beq same
    exact named ▸ member
  · intro member
    exact ⟨_, mem_enums_ofEncounters.mpr ⟨name, values, body, rfl, member⟩,
      beq_self_eq_true name⟩

theorem any_unions_ofEncounters {members : List String}
    (united : schema.unionMembers? name = some members) :
    (ofEncounters schema visited).unions.any (·.1 == name) = true ↔ .set name ∈ visited := by
  rw [List.any_eq_true]
  constructor
  · rintro ⟨⟨other, _⟩, there, same⟩
    have named : other = name := eq_of_beq same
    exact named ▸ (mem_unions_ofEncounters.mp there).2
  · intro member
    exact ⟨(name, members), mem_unions_ofEncounters.mpr ⟨united, member⟩,
      beq_self_eq_true name⟩

theorem ofEncounters_grows (within : visited ⊆ more) :
    Grows (ofEncounters schema visited) (ofEncounters schema more) where
  enums := List.filterMap_subset _ within
  seen := by
    intro name there
    rw [ofEncounters, List.mem_reverse] at there ⊢
    exact List.filterMap_subset _ within there

theorem fragments_ofEncounters_subset (within : visited ⊆ more) :
    (ofEncounters schema visited).fragments ⊆ (ofEncounters schema more).fragments :=
  List.filterMap_subset _ within

end Inventory

/-! ### One step of the collector -/

/-- An inventory to which a search through encounters takes the one of those that were visited. -/
def BoundDocument.Finds (bound : BoundDocument) (visited todo : List Encounter)
    (result : Inventory) : Prop :=
  ∃ later, Search bound.leadsTo visited todo later ∧
    result = Inventory.ofEncounters bound.schema later

namespace BoundDocument

variable {bound : BoundDocument} {visited : List Encounter} {result : Inventory}

theorem Finds.nil : bound.Finds visited [] (.ofEncounters bound.schema visited) :=
  ⟨visited, .nil, rfl⟩

/-- An encounter that was visited changes nothing. -/
theorem Finds.known {stop : Encounter} (there : stop ∈ visited) :
    bound.Finds visited [stop] (.ofEncounters bound.schema visited) :=
  ⟨visited, .known there .nil, rfl⟩

/-- A new encounter is added with all that it leads to. -/
theorem Finds.enter {stop : Encounter} (fresh : stop ∉ visited)
    (inside : bound.Finds (visited ++ [stop]) (bound.leadsTo stop) result) :
    bound.Finds visited [stop] result := by
  obtain ⟨later, search, same⟩ := inside
  exact ⟨later, .enter fresh search .nil, same⟩

/-- An encounter that leads nowhere and is of no kind changes nothing. -/
theorem Finds.plain {stop : Encounter} (ends : bound.leadsTo stop = [])
    (enum : stop.enum? bound.schema = none) (union : stop.union? bound.schema = none)
    (fragment : stop.fragment? = none) (composite : stop.composite? bound.schema = none) :
    bound.Finds visited [stop] (.ofEncounters bound.schema visited) := by
  by_cases there : stop ∈ visited
  · exact .known there
  · refine .enter there ?_
    rw [ends, ← Inventory.ofEncounters_concat_of_none enum union fragment composite]
    exact .nil

/-- A search goes on from where another one has come to. -/
theorem Finds.append {todo more : List Encounter} {middle : Inventory}
    (first : bound.Finds visited todo middle)
    (second : ∀ later, visited ⊆ later → middle = .ofEncounters bound.schema later →
      bound.Finds later more result) :
    bound.Finds visited (todo ++ more) result := by
  obtain ⟨later, search, same⟩ := first
  obtain ⟨last, search', same'⟩ := second later search.subset same
  exact ⟨last, search.append search', same'⟩

/-- Where each item is one encounter, a row of them is searched from one to the next. -/
theorem Finds.foldl {α : Type} {stop : α → Encounter} {step : Inventory → α → Inventory}
    {items : List α} (each : ∀ item ∈ items, ∀ later, visited ⊆ later →
      bound.Finds later [stop item] (step (.ofEncounters bound.schema later) item)) :
    bound.Finds visited (items.map stop)
      (items.foldl step (.ofEncounters bound.schema visited)) := by
  induction items generalizing visited with
  | nil => exact .nil
  | cons first rest ih =>
      obtain ⟨here, others⟩ := List.forall_mem_cons.mp each
      rw [List.map_cons, List.foldl_cons, ← List.singleton_append]
      refine (here visited (List.Subset.refl _)).append fun later within same => ?_
      rw [same]
      exact ih fun item member last more => others item member last (List.Subset.trans within more)

end BoundDocument

namespace Inventory

variable {bound : BoundDocument}

/-- A selection set on a type is an encounter that leads nowhere. -/
theorem noteUnion_finds (on : String) (visited : List Encounter) :
    bound.Finds visited [.set on]
      ((ofEncounters bound.schema visited).noteUnion bound.schema on) := by
  unfold noteUnion
  cases united : bound.schema.unionMembers? on with
  | none =>
      have union : (Encounter.set on).union? bound.schema = none := by
        simp only [Encounter.union?, united, Option.map_none]
      exact .plain rfl rfl union rfl rfl
  | some members =>
      simp only [addUnion, any_unions_ofEncounters united]
      by_cases there : .set on ∈ visited
      · rw [if_pos there]
        exact .known there
      · rw [if_neg there]
        exact .enter there (ofEncounters_concat_union united ▸ .nil)

/-- An enumeration is an encounter that leads nowhere. -/
theorem addEnum_finds {name : String} {values : List String}
    (body : bound.schema.get? name = some (.enum values)) (visited : List Encounter) :
    bound.Finds visited [.type name]
      ((ofEncounters bound.schema visited).addEnum name values) := by
  simp only [addEnum, any_enums_ofEncounters body]
  by_cases there : .type name ∈ visited
  · rw [if_pos there]
    exact .known there
  · rw [if_neg there]
    refine .enter there ?_
    rw [BoundDocument.leadsTo_of_fieldless (fields?_eq_none_of_enum body)]
    exact ofEncounters_concat_enum body ▸ .nil

/-- A type without fields that is no enumeration is an encounter that changes nothing. -/
theorem fieldless_finds {name : String} (fieldless : bound.schema.fields? name = none)
    (other : ∀ values, bound.schema.get? name ≠ some (.enum values)) (visited : List Encounter) :
    bound.Finds visited [.type name] (ofEncounters bound.schema visited) := by
  have enum : (Encounter.type name).enum? bound.schema = none := by
    simp only [Encounter.enum?, Schema.enumValues?_eq_none other, Option.map_none]
  have composite : (Encounter.type name).composite? bound.schema = none := by
    simp only [Encounter.composite?, fieldless, Option.map_none]
  exact .plain (BoundDocument.leadsTo_of_fieldless fieldless) enum rfl rfl composite

/-- Looking through a type is searching from it, as long as fewer types than the bound are
unseen. -/
theorem noteTypeTo_finds (depth : Nat) :
    ∀ {type : TypeRef} {visited : List Encounter},
      unseen bound.schema (ofEncounters bound.schema visited) < depth →
      bound.Finds visited [.type type.name]
        (noteTypeTo bound.schema depth type (ofEncounters bound.schema visited)) := by
  induction depth with
  | zero => exact fun few => absurd few (Nat.not_lt_zero _)
  | succ depth ih =>
      intro type visited few
      have step := noteTypeTo_step bound.schema depth type (ofEncounters bound.schema visited)
      generalize noteTypeTo bound.schema (depth + 1) type (ofEncounters bound.schema visited) =
        result at step ⊢
      cases step with
      | leaf fieldless other => exact fieldless_finds fieldless other visited
      | enum body => exact addEnum_finds body visited
      | known held member => exact .known ((mem_seen_ofEncounters held).mp member)
      | @fields fields held fresh =>
          have there := mt (mem_seen_ofEncounters held).mpr fresh
          have seen : ofEncounters bound.schema (visited ++ [.type type.name]) =
              (ofEncounters bound.schema visited).see type.name :=
            ofEncounters_concat_fields held
          have fewer : unseen bound.schema (ofEncounters bound.schema
              (visited ++ [.type type.name])) < depth := by
            have less := unseen_see_lt held fresh
            rw [seen]
            omega
          have followed : bound.Finds (visited ++ [.type type.name])
              (fields.map fun field => .type field.2.name)
              (fields.foldl (fun inventory field =>
                  noteTypeTo bound.schema depth field.2 inventory)
                (ofEncounters bound.schema (visited ++ [.type type.name]))) :=
            .foldl fun _ _ _ within =>
              ih (Nat.lt_of_le_of_lt (ofEncounters_grows within).unseen_le fewer)
          rw [seen, ← BoundDocument.leadsTo_of_fields held] at followed
          exact .enter there followed

theorem noteType_finds (type : TypeRef) (visited : List Encounter) :
    bound.Finds visited [.type type.name]
      ((ofEncounters bound.schema visited).noteType bound.schema type) :=
  noteTypeTo_finds _ (unseen_lt bound.schema _)

/-- A field is encountered by its type, and by the selection set on that type if it has one. -/
theorem noteField_finds (type : TypeRef) (selections : List Selection)
    (visited : List Encounter) :
    bound.Finds visited
      (.type type.name :: if selections.isEmpty then [] else [.set type.name])
      ((ofEncounters bound.schema visited).noteField bound.schema type selections) := by
  unfold noteField
  have typed : bound.Finds visited [.type type.name]
      ((ofEncounters bound.schema visited).noteType bound.schema type) :=
    noteType_finds type visited
  split
  · exact typed
  · refine typed.append fun later _ same => ?_
    rw [same]
    exact noteUnion_finds type.name later

end Inventory

/-! ### The whole collector -/

/-- A visit of a spread is a search from the fragment, as long as fewer fragments than the bound are
unvisited. -/
def BoundDocument.VisitsFinding (bound : BoundDocument) (limit : Nat) (visit : SpreadVisit) : Prop :=
  ∀ {spread visited result},
    bound.unvisited (Inventory.ofEncounters bound.schema visited).fragments < limit →
    visit spread (.ofEncounters bound.schema visited) = .ok result →
      bound.Finds visited [.fragment spread.fragment] result

section Collect

open Inventory

variable {bound : BoundDocument} {visit : SpreadVisit} {limit : Nat}

theorem unvisited_ofEncounters_lt {visited later : List Encounter} (within : visited ⊆ later)
    (few : bound.unvisited (ofEncounters bound.schema visited).fragments < limit) :
    bound.unvisited (ofEncounters bound.schema later).fragments < limit :=
  Nat.lt_of_le_of_lt (bound.unvisited_le_of_subset (fragments_ofEncounters_subset within)) few

mutual

/-- Collecting a selection is searching from what is encountered in it. -/
theorem collectItem_finds (visits : bound.VisitsFinding limit visit) :
    ∀ {selection : Selection} {on visited result},
      bound.unvisited (ofEncounters bound.schema visited).fragments < limit →
      collectItem bound.schema visit on selection (ofEncounters bound.schema visited) =
        .ok result →
      bound.Finds visited (bound.schema.encountersOf on selection) result
  | .field field brace selections, on, visited, result, few, succeeded => by
      rw [collectItem_field] at succeeded
      obtain ⟨type, selected, collected⟩ := Except.bind_eq_ok.mp succeeded
      rw [Schema.encountersOf, selected]
      refine (noteField_finds type selections visited).append fun later within same => ?_
      rw [same] at collected
      exact collectSelections_finds visits (unvisited_ofEncounters_lt within few) collected
  | .spread spread, on, visited, result, few, succeeded => visits few succeeded
  | .inline inline brace selections, on, visited, result, few, succeeded => by
      obtain ⟨_, collected⟩ := collectItem_inline_eq_ok.mp succeeded
      refine (noteUnion_finds (inline.on on) visited).append fun later within same => ?_
      rw [same] at collected
      exact collectSelections_finds visits (unvisited_ofEncounters_lt within few) collected

/-- Collecting selections is searching from what is encountered in them. -/
theorem collectSelections_finds (visits : bound.VisitsFinding limit visit) :
    ∀ {selections : List Selection} {on visited result},
      bound.unvisited (ofEncounters bound.schema visited).fragments < limit →
      collectSelections bound.schema visit on selections (ofEncounters bound.schema visited) =
        .ok result →
      bound.Finds visited (bound.schema.encounters on selections) result
  | [], on, visited, result, few, succeeded => by
      rw [← Except.ok.inj succeeded]
      exact .nil
  | selection :: rest, on, visited, result, few, succeeded => by
      obtain ⟨next, first, others⟩ := Except.bind_eq_ok.mp succeeded
      refine (collectItem_finds visits few first).append fun later within same => ?_
      rw [same] at others
      exact collectSelections_finds visits (unvisited_ofEncounters_lt within few) others

end

namespace BoundDocument

/-- A visit of a spread is a search from the fragment. -/
theorem visitSpread_finds (bound : BoundDocument) (limit : Nat) :
    bound.VisitsFinding limit (bound.visitSpread limit) := by
  induction limit with
  | zero => exact fun few => absurd few (Nat.not_lt_zero _)
  | succ limit ih =>
      intro spread visited result few succeeded
      cases visitSpread_step succeeded with
      | known member => exact .known (mem_fragments_ofEncounters.mp member)
      | @fresh fragment _ absent found _ collected =>
          have leads : bound.leadsTo (.fragment spread.fragment) =
              [.set fragment.condition.type] ++
                bound.schema.encounters fragment.condition.type fragment.selections := by
            rw [leadsTo, found]
            rfl
          have fewer : bound.unvisited (ofEncounters bound.schema
              (visited ++ [.fragment spread.fragment])).fragments < limit := by
            have less := unvisited_concat_lt found absent
            rw [ofEncounters_concat_fragment]
            exact Nat.lt_of_lt_of_le less (Nat.le_of_lt_succ few)
          refine .enter (mt mem_fragments_ofEncounters.mpr absent) ?_
          rw [leads]
          refine (noteUnion_finds fragment.condition.type _).append fun later within same => ?_
          rw [ofEncounters_concat_fragment] at same
          rw [same] at collected
          exact collectSelections_finds ih (unvisited_ofEncounters_lt within fewer) collected

variable {bound : BoundDocument} {visited : List Encounter} {result : Inventory}

theorem noteVariables_finds (operation : Operation) (visited : List Encounter) :
    bound.Finds visited
      (operation.definitions.map fun definition => .type definition.type.name)
      (bound.noteVariables operation (ofEncounters bound.schema visited)) := by
  exact .foldl fun definition _ later _ => noteType_finds definition.type later

/-- Collecting an operation is searching from what is encountered in it. -/
theorem collectOperation_finds {operation : Operation}
    (succeeded : bound.collectOperation (ofEncounters bound.schema visited) operation =
      .ok result) :
    bound.Finds visited (bound.startsOf operation) result := by
  obtain ⟨root, rooted, collected⟩ := collectOperation_eq_ok.mp succeeded
  rw [startsOf, rooted]
  refine (noteVariables_finds operation visited).append fun later _ same => ?_
  rw [same] at collected
  refine (noteUnion_finds root later).append fun last _ same' => ?_
  rw [same'] at collected
  exact collectSelections_finds (bound.visitSpread_finds _) (bound.unvisited_lt_spreadDepth _)
    collected

theorem collectOperations_finds {operations : List Operation}
    (succeeded : operations.foldlM bound.collectOperation (ofEncounters bound.schema visited) =
      .ok result) :
    bound.Finds visited (operations.flatMap bound.startsOf) result := by
  induction operations generalizing visited with
  | nil =>
      rw [← Except.pure_eq_ok.mp succeeded]
      exact .nil
  | cons first rest ih =>
      obtain ⟨next, collected, others⟩ := Except.foldlM_cons_eq_ok.mp succeeded
      rw [List.flatMap_cons]
      refine (collectOperation_finds collected).append fun later _ same => ?_
      rw [same] at others
      exact ih others

/-- The inventory of a document is that of what a search through the operations visits. -/
theorem exists_search {inventory : Inventory} (collected : bound.inventory = .ok inventory) :
    ∃ visited, Search bound.leadsTo [] bound.starts visited ∧
      inventory = ofEncounters bound.schema visited :=
  collectOperations_finds collected

end BoundDocument

end Collect

end ElmClient
