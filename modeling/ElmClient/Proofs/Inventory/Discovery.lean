/-
Module: ElmClient.Proofs.Inventory.Discovery
Purpose: What is in the inventory of a document, and in which order. It has the fragments that the
  operations reach, the enumerations to which fields lead from the types of variables and of
  selected fields, and the unions on which there are selection sets, nothing else, and each of them
  once, in the order in which a depth-first tour through the operations comes upon them.
Main exports: BoundDocument.UsesType, BoundDocument.IsDue, BoundDocument.Selected.encounters_subset,
  BoundDocument.search_isDue, BoundDocument.exists_tour, BoundDocument.mem_inventory_fragments_iff,
  BoundDocument.mem_inventory_enums_iff, BoundDocument.mem_inventory_unions_iff,
  BoundDocument.inventory_discovers
-/
import ElmClient.Proofs.Generation.Dispatch
import ElmClient.Proofs.Input.References
import ElmClient.Proofs.Inventory.Encounters
import ElmClient.Proofs.Plan.Coherence

namespace ElmClient

open GraphQL
open Traversal (Search Settled Tour)

namespace BoundDocument

variable {bound : BoundDocument}

/-- A type to which fields lead from the type of a variable, or from that of a field that is selected
in an operation or in a fragment that one reaches. -/
def UsesType (bound : BoundDocument) (name : String) : Prop :=
  (∃ operation ∈ bound.operations, ∃ definition ∈ operation.definitions,
    bound.schema.Reaches definition.type.name name) ∨
  ∃ on field brace selections type, bound.Selected on (.field field brace selections) ∧
    bound.schema.selectedType on field.name field.position = .ok type ∧
    bound.schema.Reaches type.name name

/-- What follows fields from a type that is used is used. -/
theorem UsesType.reaches {name target : String} (uses : bound.UsesType name)
    (reached : bound.schema.Reaches name target) : bound.UsesType target := by
  rcases uses with ⟨operation, among, definition, member, earlier⟩ |
    ⟨on, field, brace, selections, type, selected, typed, earlier⟩
  · exact Or.inl ⟨operation, among, definition, member, earlier.trans reached⟩
  · exact Or.inr ⟨on, field, brace, selections, type, selected, typed, earlier.trans reached⟩

/-- Whatever is spread in what an operation selects, an operation reaches. -/
theorem Selected.reached {on : String} {selection : Selection}
    (selected : bound.Selected on selection) :
    ∃ operation ∈ bound.operations, ∀ name, selection.Spreads name →
      bound.Reached operation name := by
  induction selected with
  | operation member _ below =>
      exact ⟨_, member, fun name spreads => .operation ⟨_, below, spreads⟩⟩
  | field _ _ below ih =>
      obtain ⟨operation, among, reached⟩ := ih
      exact ⟨operation, among, fun name spreads => reached name (.field below spreads)⟩
  | inline _ below ih =>
      obtain ⟨operation, among, reached⟩ := ih
      exact ⟨operation, among, fun name spreads => reached name (.inline below spreads)⟩
  | spread _ found below ih =>
      obtain ⟨operation, among, reached⟩ := ih
      exact ⟨operation, among, fun name spreads =>
        .fragment (reached _ (.here rfl)) found ⟨_, below, spreads⟩⟩

/-! ### Nothing else is encountered -/

/-- An encounter that a document gives cause for: a type that it uses, a type with a selection set, or
a fragment that is spread. -/
def IsDue (bound : BoundDocument) : Encounter → Prop
  | .type name => bound.UsesType name
  | .set on => ∃ selections, bound.SetOn on selections
  | .fragment name => bound.Spreads name

mutual

/-- What is encountered in a selection is due. -/
theorem encountersOf_isDue : ∀ {selection : Selection} {on : String},
    bound.Selected on selection → ∀ stop ∈ bound.schema.encountersOf on selection, bound.IsDue stop
  | .field field brace selections, on, above, stop, there => by
      unfold Schema.encountersOf at there
      split at there
      · next type selected =>
          rcases List.mem_cons.mp there with rfl | later
          · exact Or.inr ⟨on, field, brace, selections, type, above, selected, .refl _⟩
          rcases List.mem_append.mp later with set | below
          · by_cases bare : selections = []
            · simp [bare] at set
            · obtain rfl : stop = .set type.name := by simpa [bare] using set
              exact ⟨selections, .field above bare selected⟩
          · exact encounters_isDue (fun _ member => .field above selected member) stop below
      · exact absurd there List.not_mem_nil
  | .spread spread, on, above, stop, there => by
      obtain rfl := List.mem_singleton.mp there
      exact ⟨on, spread, above, rfl⟩
  | .inline inline brace selections, on, above, stop, there => by
      rcases List.mem_cons.mp there with rfl | below
      · exact ⟨selections, .inline above⟩
      · exact encounters_isDue (fun _ member => .inline above member) stop below

/-- What is encountered in selections is due. -/
theorem encounters_isDue : ∀ {selections : List Selection} {on : String},
    (∀ selection ∈ selections, bound.Selected on selection) →
      ∀ stop ∈ bound.schema.encounters on selections, bound.IsDue stop
  | [], on, selected, stop, there => absurd there List.not_mem_nil
  | selection :: rest, on, selected, stop, there => by
      obtain ⟨here, others⟩ := List.forall_mem_cons.mp selected
      rcases List.mem_append.mp there with first | later
      · exact encountersOf_isDue here stop first
      · exact encounters_isDue others stop later

end

theorem starts_isDue : ∀ stop ∈ bound.starts, bound.IsDue stop := by
  intro stop there
  obtain ⟨operation, among, started⟩ := List.mem_flatMap.mp there
  rcases List.mem_append.mp started with declared | selected
  · obtain ⟨definition, member, rfl⟩ := List.mem_map.mp declared
    exact Or.inl ⟨operation, among, definition, member, .refl _⟩
  · cases rooted : bound.schema.rootType operation.kind operation.title with
    | error cause => simp [rooted] at selected
    | ok root =>
        rw [rooted] at selected
        rcases List.mem_cons.mp selected with rfl | below
        · exact ⟨operation.selections, .operation among rooted⟩
        · exact encounters_isDue (fun _ member => .operation among rooted member) stop below

/-- What an encounter leads to is due if the encounter is. -/
theorem leadsTo_isDue : ∀ stop, bound.IsDue stop → ∀ other ∈ bound.leadsTo stop, bound.IsDue other
  | .type name, due, other, led => by
      obtain ⟨field, member, rfl⟩ := List.mem_map.mp led
      cases held : bound.schema.fields? name with
      | none => simp [held] at member
      | some fields =>
          rw [held, Option.getD_some] at member
          have uses : bound.UsesType name := due
          exact uses.reaches (.field held member (.refl _))
  | .set on, due, other, led => absurd led List.not_mem_nil
  | .fragment name, due, other, led => by
      obtain ⟨on, spread, above, rfl⟩ := due
      rw [leadsTo] at led
      cases found : bound.fragment? spread.fragment with
      | none => simp [found] at led
      | some fragment =>
          rw [found] at led
          rcases List.mem_cons.mp led with rfl | below
          · exact ⟨fragment.selections, .fragment above found⟩
          · exact encounters_isDue (fun _ member => .spread above found member) other below

/-- All that a search through the operations visits is due. -/
theorem search_isDue {visited : List Encounter}
    (search : Search bound.leadsTo [] bound.starts visited) :
    ∀ stop ∈ visited, bound.IsDue stop :=
  search.forall leadsTo_isDue starts_isDue fun _ absent => absurd absent List.not_mem_nil

/-! ### All that is due is encountered -/

theorem encountersOf_subset {on : String} {selection : Selection} {selections : List Selection}
    (member : selection ∈ selections) :
    bound.schema.encountersOf on selection ⊆ bound.schema.encounters on selections := by
  induction selections with
  | nil => exact absurd member List.not_mem_nil
  | cons first rest ih =>
      intro stop there
      rcases List.mem_cons.mp member with rfl | later
      · exact List.mem_append_left _ there
      · exact List.mem_append_right _ (ih later there)

section Visited

variable {visited : List Encounter} (settled : Settled bound.leadsTo [] visited)
  (started : bound.starts ⊆ visited)

include settled started

omit settled in
theorem startsOf_subset {operation : Operation} (among : operation ∈ bound.operations) :
    bound.startsOf operation ⊆ visited :=
  fun _ there => started (List.mem_flatMap.mpr ⟨operation, among, there⟩)

/-- All that is encountered in what the operations select is visited. -/
theorem Selected.encounters_subset {on : String} {selection : Selection}
    (selected : bound.Selected on selection) :
    bound.schema.encountersOf on selection ⊆ visited := by
  induction selected with
  | @operation operation root selection among rooted below =>
      intro stop there
      refine startsOf_subset started among (List.mem_append_right _ ?_)
      rw [rooted]
      exact List.mem_cons_of_mem _ (encountersOf_subset below there)
  | @field on field brace selections type selection above selected below ih =>
      intro stop there
      refine ih ?_
      rw [Schema.encountersOf, selected]
      exact List.mem_cons_of_mem _ (List.mem_append_right _ (encountersOf_subset below there))
  | inline above below ih =>
      intro stop there
      exact ih (List.mem_cons_of_mem _ (encountersOf_subset below there))
  | @spread on spread fragment selection above found below ih =>
      intro stop there
      have visits : .fragment spread.fragment ∈ visited := ih List.mem_cons_self
      refine settled.closed _ visits List.not_mem_nil ?_
      rw [leadsTo, found]
      exact List.mem_cons_of_mem _ (encountersOf_subset below there)

theorem SetOn.encountered {on : String} {selections : List Selection}
    (stands : bound.SetOn on selections) : .set on ∈ visited := by
  cases stands with
  | @operation operation root among rooted =>
      refine startsOf_subset started among (List.mem_append_right _ ?_)
      rw [rooted]
      exact List.mem_cons_self
  | @field on field brace selections type above nonempty selected =>
      refine above.encounters_subset settled started ?_
      rw [Schema.encountersOf, selected]
      exact List.mem_cons_of_mem _ (List.mem_append_left _ (by simp [nonempty]))
  | inline above => exact above.encounters_subset settled started List.mem_cons_self
  | @fragment on spread fragment above found =>
      have visits : .fragment spread.fragment ∈ visited :=
        above.encounters_subset settled started List.mem_cons_self
      refine settled.closed _ visits List.not_mem_nil ?_
      rw [leadsTo, found]
      exact List.mem_cons_self

omit started in
theorem reaches_visited {name target : String} (there : .type name ∈ visited)
    (reached : bound.schema.Reaches name target) : .type target ∈ visited := by
  induction reached with
  | refl => exact there
  | field held member _ ih =>
      refine ih (settled.closed _ there List.not_mem_nil ?_)
      rw [leadsTo_of_fields held]
      exact List.mem_map.mpr ⟨_, member, rfl⟩

theorem UsesType.encountered {name : String} (uses : bound.UsesType name) : .type name ∈ visited := by
  rcases uses with ⟨operation, among, definition, member, reached⟩ |
    ⟨on, field, brace, selections, type, above, selected, reached⟩
  · refine reaches_visited settled (startsOf_subset started among ?_) reached
    exact List.mem_append_left _ (List.mem_map.mpr ⟨definition, member, rfl⟩)
  · refine reaches_visited settled (above.encounters_subset settled started ?_) reached
    rw [Schema.encountersOf, selected]
    exact List.mem_cons_self

end Visited

/-! ### The order of discovery -/

theorem leadsTo_type_eq_nil {name : String} (unknown : name ∉ bound.schema.types.map Prod.fst) :
    bound.leadsTo (.type name) = [] := by
  cases held : bound.schema.fields? name with
  | none => exact leadsTo_of_fieldless held
  | some fields =>
      obtain ⟨body, found, _⟩ := Option.bind_eq_some_iff.mp held
      exact absurd (List.mem_map.mpr ⟨_, Dictionary.mem_of_lookup found, rfl⟩) unknown

theorem leadsTo_fragment_eq_nil {name : String} (unknown : name ∉ bound.fragments.map (·.name)) :
    bound.leadsTo (.fragment name) = [] := by
  rw [leadsTo]
  cases found : bound.fragment? name with
  | none => rfl
  | some fragment =>
      have known := List.mem_map.mpr ⟨fragment, mem_of_fragment? found, name_of_fragment? found⟩
      exact absurd known unknown

/-- There is one tour through the operations. Only the types of the schema and the fragments of the
document lead anywhere. -/
theorem exists_tour (bound : BoundDocument) :
    ∃ stops, ∀ other, Tour bound.leadsTo [] bound.starts other ↔ other = stops := by
  have ends (stop : Encounter) (absent : stop ∉
      (bound.schema.types.map Prod.fst).map Encounter.type ++
        (bound.fragments.map (·.name)).map Encounter.fragment) : bound.leadsTo stop = [] := by
    rw [List.mem_append, not_or] at absent
    cases stop with
    | type name => exact leadsTo_type_eq_nil fun known => absent.1 (List.mem_map_of_mem known)
    | set on => rfl
    | fragment name =>
        exact leadsTo_fragment_eq_nil fun known => absent.2 (List.mem_map_of_mem known)
  obtain ⟨stops, tour⟩ := Traversal.exists_tour _ ends bound.starts
  exact ⟨stops, fun other => ⟨tour.unique, fun same => same ▸ tour⟩⟩

/-- What a search through the operations visits, sorted by kind, are the first occurrences of each
kind in the tour. -/
theorem ofEncounters_eq_eraseDups {visited stops : List Encounter}
    (search : Search bound.leadsTo [] bound.starts visited)
    (tour : Tour bound.leadsTo [] bound.starts stops) :
    (Inventory.ofEncounters bound.schema visited).fragments =
        (stops.filterMap (·.fragment?)).eraseDups ∧
      (Inventory.ofEncounters bound.schema visited).enums =
        (stops.filterMap (·.enum? bound.schema)).eraseDups ∧
      (Inventory.ofEncounters bound.schema visited).unions =
        (stops.filterMap (·.union? bound.schema)).eraseDups := by
  obtain rfl : visited = stops.eraseDups := search.eq_tour Settled.empty tour
  refine ⟨Occurrences.filterMap_eraseDups ?_ stops, Occurrences.filterMap_eraseDups ?_ stops,
    Occurrences.filterMap_eraseDups ?_ stops⟩
  · intro one other name first second
    rw [Encounter.fragment?_eq_some.mp first, Encounter.fragment?_eq_some.mp second]
  · intro one other enum first second
    obtain ⟨name, _, rfl, _, rfl⟩ := Encounter.enum?_eq_some.mp first
    obtain ⟨name', _, rfl, _, same⟩ := Encounter.enum?_eq_some.mp second
    exact congrArg Encounter.type (congrArg Elm.EnumDeclaration.name same)
  · intro one other union first second
    rw [(Encounter.union?_eq_some.mp first).1, (Encounter.union?_eq_some.mp second).1]

/-! ### The whole inventory -/

section Exact

variable {inventory : Inventory} (collected : bound.inventory = .ok inventory)

include collected

/-- The fragments of an inventory are those that the operations reach. -/
theorem mem_inventory_fragments_iff {name : String} :
    name ∈ inventory.fragments ↔ ∃ operation ∈ bound.operations, bound.Reached operation name := by
  constructor
  · intro known
    obtain ⟨visited, search, rfl⟩ := exists_search collected
    obtain ⟨on, spread, selected, rfl⟩ : bound.IsDue (.fragment name) :=
      search_isDue search _ (Inventory.mem_fragments_ofEncounters.mp known)
    obtain ⟨operation, among, reached⟩ := selected.reached
    exact ⟨operation, among, reached _ (.here rfl)⟩
  · rintro ⟨operation, among, reached⟩
    induction reached with
    | operation spread =>
        obtain ⟨selection, member, inside⟩ := spread
        exact inventory_spreadsAmong collected among selection member _ inside
    | fragment _ found spread ih =>
        obtain ⟨selection, member, inside⟩ := spread
        exact inventory_spreadClosed collected _ ih _ found selection member _ inside

/-- The enumerations of an inventory are those of the schema that the document uses. -/
theorem mem_inventory_enums_iff {enum : Elm.EnumDeclaration} :
    enum ∈ inventory.enums ↔ ∃ name values, bound.schema.get? name = some (.enum values) ∧
      enum = .ofValues name values ∧ bound.UsesType name := by
  obtain ⟨visited, search, rfl⟩ := exists_search collected
  obtain ⟨settled, started⟩ := search.settled Settled.empty
  rw [Inventory.mem_enums_ofEncounters]
  constructor
  · rintro ⟨name, values, body, same, there⟩
    exact ⟨name, values, body, same, search_isDue search _ there⟩
  · rintro ⟨name, values, body, same, uses⟩
    exact ⟨name, values, body, same, uses.encountered settled started⟩

/-- The unions of an inventory are those on which a selection set stands. -/
theorem mem_inventory_unions_iff {name : String} {members : List String} :
    (name, members) ∈ inventory.unions ↔ bound.schema.unionMembers? name = some members ∧
      ∃ selections, bound.SetOn name selections := by
  obtain ⟨visited, search, rfl⟩ := exists_search collected
  obtain ⟨settled, started⟩ := search.settled Settled.empty
  rw [Inventory.mem_unions_ofEncounters]
  constructor
  · rintro ⟨united, there⟩
    exact ⟨united, search_isDue search _ there⟩
  · rintro ⟨united, selections, stands⟩
    exact ⟨united, stands.encountered settled started⟩

/-- The unions of an inventory have distinct names. -/
theorem nodup_inventory_unions : (inventory.unions.map Prod.fst).Nodup := by
  obtain ⟨visited, search, rfl⟩ := exists_search collected
  obtain ⟨stops, tours⟩ := bound.exists_tour
  obtain ⟨_, _, unions⟩ := ofEncounters_eq_eraseDups search ((tours stops).mpr rfl)
  refine List.Nodup.map_on ?_ (unions ▸ Occurrences.nodup_eraseDups _)
  rintro ⟨name, members⟩ first ⟨_, members'⟩ second rfl
  have united := (Inventory.mem_unions_ofEncounters.mp first).1
  have united' := (Inventory.mem_unions_ofEncounters.mp second).1
  rw [Option.some.inj (united.symm.trans united')]

/-- The inventory of a document has the fragments that its operations reach, the enumerations of the
schema that it uses and the unions on which its selection sets stand, and nothing else. It has each of
them once, in the order in which the depth-first tour through the operations first comes upon them:
through the types of the variables of an operation and then its selections, from every type to those
of its fields and from every spread to the fragment, turning back only where that goes in circles.
The operations stand in the order of the text (`operations_inOrder`). -/
theorem inventory_discovers :
    (∀ name, name ∈ inventory.fragments ↔
        ∃ operation ∈ bound.operations, bound.Reached operation name) ∧
      (∀ enum, enum ∈ inventory.enums ↔ ∃ name values,
        bound.schema.get? name = some (.enum values) ∧ enum = .ofValues name values ∧
          bound.UsesType name) ∧
      (∀ name members, (name, members) ∈ inventory.unions ↔
        bound.schema.unionMembers? name = some members ∧
          ∃ selections, bound.SetOn name selections) ∧
      inventory.fragments.Nodup ∧ (inventory.enums.map (·.name)).Nodup ∧
      (inventory.unions.map Prod.fst).Nodup ∧
      ∃ stops, (∀ other, Tour bound.leadsTo [] bound.starts other ↔ other = stops) ∧
        inventory.fragments = (stops.filterMap (·.fragment?)).eraseDups ∧
        inventory.enums = (stops.filterMap (·.enum? bound.schema)).eraseDups ∧
        inventory.unions = (stops.filterMap (·.union? bound.schema)).eraseDups := by
  have sound := inventory_sound collected
  obtain ⟨visited, search, same⟩ := exists_search collected
  obtain ⟨stops, tours⟩ := bound.exists_tour
  have ordered := ofEncounters_eq_eraseDups search ((tours stops).mpr rfl)
  exact ⟨fun _ => mem_inventory_fragments_iff collected,
    fun _ => mem_inventory_enums_iff collected,
    fun _ _ => mem_inventory_unions_iff collected,
    sound.nodup, sound.enumsOf.nodup, nodup_inventory_unions collected,
    stops, tours, same ▸ ordered⟩

end Exact

end BoundDocument

/-! ### A document that goes in circles

A user has a friend, and the two fragments about users spread each other. A filter is made of
filters. The weather and the fragment about posts come up nowhere. -/

/-- A schema of users with a mood. -/
def feedSchema : Schema where
  types := [("String", .scalar), ("Mood", .enum ["CALM", "LOUD"]), ("Order", .enum ["UP", "DOWN"]),
    ("Weather", .enum ["DRY", "WET"]),
    ("Filter", .inputObject [("all", .named "Filter"), ("order", .named "Order")]),
    ("User", .object [("friend", .named "User"), ("mood", .named "Mood")]),
    ("Post", .object [("weather", .named "Weather")]), ("Hit", .union ["User", "Post"]),
    ("Query", .object [("me", .named "User"), ("find", .named "Hit")])]
  roots := { query := some "Query" }

/-- A field that is selected without arguments, at a column of a line. -/
def feedField (name : String) (line column : Nat) (selections : List Selection) : Selection :=
  .field ⟨⟨line, column⟩, none, name, [], []⟩ ⟨line, column⟩ selections

/-- A fragment with the number of its line. -/
def feedFragment (name on : String) (line : Nat) (selections : List Selection) : Fragment :=
  ⟨⟨line, 1⟩, name, ⟨⟨line, 12⟩, on, ⟨line, 15⟩⟩, [], ⟨line, 20⟩, selections⟩

/-- The use of a fragment, at a column of a line. -/
def feedSpread (name : String) (line column : Nat) : Selection := .spread ⟨⟨line, column⟩, name, []⟩

/-- A query for the user and what matches a filter, and three fragments. -/
def feedBound : BoundDocument where
  schema := feedSchema
  operations := [⟨⟨1, 1⟩, .query, some "Feed", [⟨"filter", .named "Filter", [], none⟩], [], ⟨1, 29⟩,
    [feedField "me" 1 31 [feedSpread "A" 1 36],
      feedField "find" 1 43 [feedField "__typename" 1 50 [], feedSpread "B" 1 61]]⟩]
  fragments := [feedFragment "A" "User" 2 [feedField "friend" 2 22 [feedSpread "B" 2 31]],
    feedFragment "B" "User" 3 [feedField "mood" 3 22 [], feedSpread "A" 3 27],
    feedFragment "C" "Post" 4 [feedField "weather" 4 22 []]]

/-- The order comes before the mood, which is first met in the user. -/
def feedInventory : Inventory where
  enums := [.ofValues "Order" ["UP", "DOWN"], .ofValues "Mood" ["CALM", "LOUD"]]
  unions := [("Hit", ["User", "Post"])]
  fragments := ["A", "B"]
  seen := ["User", "Filter"]

theorem feed_discovers : feedBound.inventory = .ok feedInventory ∧
    (∀ name, (∃ operation ∈ feedBound.operations, feedBound.Reached operation name) ↔
      name ∈ ["A", "B"]) ∧
    feedBound.UsesType "Mood" ∧ ¬ feedBound.UsesType "Weather" ∧
    ∃ selections, feedBound.SetOn "Hit" selections := by
  have collected : feedBound.inventory = .ok feedInventory := rfl
  obtain ⟨fragments, enums, unions, _⟩ := BoundDocument.inventory_discovers collected
  refine ⟨collected, fun name => (fragments name).symm, ?_, ?_, ?_⟩
  · obtain ⟨name, _, _, same, uses⟩ := (enums (.ofValues "Mood" ["CALM", "LOUD"])).mp
      (List.mem_cons_of_mem _ List.mem_cons_self)
    have named : "Mood" = name := congrArg Elm.EnumDeclaration.name same
    exact named ▸ uses
  · intro uses
    have there := (enums _).mpr ⟨"Weather", ["DRY", "WET"], rfl, rfl, uses⟩
    have named := List.mem_map_of_mem (f := Elm.EnumDeclaration.name) there
    exact absurd named (by decide)
  · exact ((unions "Hit" ["User", "Post"]).mp List.mem_cons_self).2

end ElmClient
