/-
Module: ElmClient.Proofs.QueryText.SpreadOrder
Purpose: The text of an operation has all that it needs and nothing else. There is a text unless a
  fragment that the operation reaches is not defined. Before the operation stand the definitions of
  the fragments that it reaches, each once, in the order in which a depth-first tour through the
  spreads first comes upon them.
Main exports: spreadNames, BoundDocument.spreadsOf, BoundDocument.usedFragments_search,
  BoundDocument.usedFragments_failsOnly, BoundDocument.queryText_selfContained
-/
import ElmClient.Proofs.Inventory.Discovery
import ElmClient.Proofs.QueryText.Fragments
import ElmClient.Proofs.Traversal

namespace ElmClient

open GraphQL
open Traversal (Search Settled Tour)

/-! ### Spreads in the order of the text -/

namespace GraphQL

mutual

/-- The names of the fragments that are spread in a selection, in the order of the text. -/
def Selection.spreadNames : Selection → List String
  | .field _ _ selections => spreadNames selections
  | .spread spread => [spread.fragment]
  | .inline _ _ selections => spreadNames selections
termination_by structural selection => selection

/-- The names of the fragments that are spread in selections, in the order of the text. -/
def spreadNames : List Selection → List String
  | [] => []
  | selection :: rest => selection.spreadNames ++ spreadNames rest
termination_by structural selections => selections

end

theorem spreadIn_cons {name : String} {selection : Selection} {rest : List Selection} :
    SpreadIn name (selection :: rest) ↔ selection.Spreads name ∨ SpreadIn name rest := by
  simp [SpreadIn]

end GraphQL

namespace BoundDocument

/-- The names of the fragments that are spread in a fragment, in the order of the text. A name
without a definition leads nowhere. -/
def spreadsOf (bound : BoundDocument) (name : String) : List String :=
  match bound.fragment? name with
  | some fragment => spreadNames fragment.selections
  | none => []

theorem spreadsOf_of_found {bound : BoundDocument} {name : String} {fragment : Fragment}
    (found : bound.fragment? name = some fragment) :
    bound.spreadsOf name = spreadNames fragment.selections := by
  rw [spreadsOf, found]

/-! ### The fragments of an operation are searched -/

/-- A visit of a spread is a search from the fragment, as long as fewer fragments than the bound are
unvisited. -/
def VisitsSearching (bound : BoundDocument) (limit : Nat) (visit : FragmentVisit) : Prop :=
  ∀ {spread : Spread} {used result : List Fragment},
    bound.unvisited (used.map (·.name)) < limit → visit spread used = .ok result →
      Search bound.spreadsOf (used.map (·.name)) [spread.fragment] (result.map (·.name))

section

variable {bound : BoundDocument} {visit : FragmentVisit} {limit : Nat}

mutual

/-- Adding what a selection reaches is searching from what is spread in it. -/
theorem usedByItem_search (visits : bound.VisitsSearching limit visit) :
    ∀ {selection : Selection} {used result : List Fragment},
      bound.unvisited (used.map (·.name)) < limit →
      usedByItem visit selection used = .ok result →
      Search bound.spreadsOf (used.map (·.name)) selection.spreadNames (result.map (·.name))
  | .field _ _ _, _, _, few, succeeded => usedBySelections_search visits few succeeded
  | .spread _, _, _, few, succeeded => visits few succeeded
  | .inline _ _ _, _, _, few, succeeded => usedBySelections_search visits few succeeded

/-- Adding what selections reach is searching from what is spread in them. -/
theorem usedBySelections_search (visits : bound.VisitsSearching limit visit) :
    ∀ {selections : List Selection} {used result : List Fragment},
      bound.unvisited (used.map (·.name)) < limit →
      usedBySelections visit selections used = .ok result →
      Search bound.spreadsOf (used.map (·.name)) (spreadNames selections) (result.map (·.name))
  | [], used, result, few, succeeded => by
      rw [← Except.ok.inj succeeded]
      exact .nil
  | selection :: rest, used, result, few, succeeded => by
      obtain ⟨next, first, later⟩ := Except.bind_eq_ok.mp succeeded
      have searched := usedByItem_search visits few first
      have fewer : bound.unvisited (next.map (·.name)) < limit :=
        Nat.lt_of_le_of_lt (bound.unvisited_le_of_subset searched.subset) few
      exact searched.append (usedBySelections_search visits fewer later)

end

end

/-- A visit of a spread is a search from the fragment: one that is there is passed by, and any other
one is added and followed. -/
theorem visitFragment_search (bound : BoundDocument) (limit : Nat) :
    bound.VisitsSearching limit (bound.visitFragment limit) := by
  induction limit with
  | zero => exact fun few => absurd few (Nat.not_lt_zero _)
  | succ limit ih =>
      intro spread used result few succeeded
      have seen : used.any (·.name == spread.fragment) = true ↔
          spread.fragment ∈ used.map (·.name) := by
        simp [List.mem_map]
      by_cases known : spread.fragment ∈ used.map (·.name)
      · simp only [visitFragment, seen.mpr known, if_true] at succeeded
        rw [← Except.ok.inj succeeded]
        exact .known known .nil
      · simp only [visitFragment, mt seen.mp known] at succeeded
        obtain ⟨fragment, looked, collected⟩ := Except.bind_eq_ok.mp succeeded
        have found := fragment_eq_ok.mp looked
        have fewer : bound.unvisited ((used ++ [fragment]).map (·.name)) < limit := by
          have less := unvisited_concat_lt found known
          rw [map_name_concat found]
          omega
        have inside := usedBySelections_search ih fewer collected
        rw [map_name_concat found, ← spreadsOf_of_found found] at inside
        exact .enter known inside .nil

/-- The fragments that are printed before an operation are those that a search through its spreads
visits. -/
theorem usedFragments_search {bound : BoundDocument} {operation : Operation}
    {used : List Fragment} (collected : bound.usedFragments operation = .ok used) :
    Search bound.spreadsOf [] (spreadNames operation.selections) (used.map (·.name)) :=
  usedBySelections_search (bound.visitFragment_search _) (bound.unvisited_lt_spreadDepth [])
    collected

/-- There is one tour through the spreads of an operation. Only the fragments of the document lead
anywhere. -/
theorem exists_spreadTour (bound : BoundDocument) (selections : List Selection) :
    ∃ stops, ∀ other, Tour bound.spreadsOf [] (spreadNames selections) other ↔ other = stops := by
  have ends (name : String) (absent : name ∉ bound.fragments.map (·.name)) :
      bound.spreadsOf name = [] := by
    rw [spreadsOf]
    cases found : bound.fragment? name with
    | none => rfl
    | some fragment =>
        have known := List.mem_map.mpr ⟨fragment, mem_of_fragment? found, name_of_fragment? found⟩
        exact absurd known absent
  obtain ⟨stops, tour⟩ := Traversal.exists_tour _ ends (spreadNames selections)
  exact ⟨stops, fun other => ⟨tour.unique, fun same => same ▸ tour⟩⟩

/-! ### Where there is no text -/

/-- A fragment that an operation reaches, and that is not defined, is the cause. -/
def Misses (bound : BoundDocument) (operation : Operation) (cause : GenerationError) : Prop :=
  ∃ name position, cause = .unknownFragment name position ∧ bound.Reached operation name ∧
    bound.fragment? name = none

section

variable {bound : BoundDocument} {operation : Operation} {visit : FragmentVisit}

mutual

theorem usedByItem_failsOnly
    (visits : ∀ spread used, bound.Reached operation spread.fragment →
      Except.FailsOnly (bound.Misses operation) (visit spread used)) :
    ∀ {selection : Selection} (used : List Fragment),
      (∀ name, selection.Spreads name → bound.Reached operation name) →
      Except.FailsOnly (bound.Misses operation) (usedByItem visit selection used)
  | .field _ _ _, used, reached =>
      usedBySelections_failsOnly visits used fun name ⟨_, member, inside⟩ =>
        reached name (.field member inside)
  | .spread spread, used, reached => visits spread used (reached _ (.here rfl))
  | .inline _ _ _, used, reached =>
      usedBySelections_failsOnly visits used fun name ⟨_, member, inside⟩ =>
        reached name (.inline member inside)

theorem usedBySelections_failsOnly
    (visits : ∀ spread used, bound.Reached operation spread.fragment →
      Except.FailsOnly (bound.Misses operation) (visit spread used)) :
    ∀ {selections : List Selection} (used : List Fragment),
      (∀ name, SpreadIn name selections → bound.Reached operation name) →
      Except.FailsOnly (bound.Misses operation) (usedBySelections visit selections used)
  | [], used, reached => .ok used
  | selection :: rest, used, reached => by
      refine .bind (usedByItem_failsOnly visits used fun name inside => ?_) fun next _ => ?_
      · exact reached name (spreadIn_cons.mpr (Or.inl inside))
      · exact usedBySelections_failsOnly visits next fun name inside =>
          reached name (spreadIn_cons.mpr (Or.inr inside))

end

theorem visitFragment_failsOnly (bound : BoundDocument) (operation : Operation) (limit : Nat) :
    ∀ spread used, bound.Reached operation spread.fragment →
      Except.FailsOnly (bound.Misses operation) (bound.visitFragment limit spread used) := by
  induction limit with
  | zero => exact fun _ used _ => .ok used
  | succ limit ih =>
      intro spread used reached
      refine .ite (fun _ => .ok used) fun _ => .bind ?_ fun fragment looked => ?_
      · unfold BoundDocument.fragment
        cases found : bound.fragment? spread.fragment with
        | some fragment => exact .ok fragment
        | none => exact .error ⟨_, _, rfl, reached, found⟩
      · exact usedBySelections_failsOnly ih _ fun _ inside =>
          .fragment reached (fragment_eq_ok.mp looked) inside

/-- The fragments of an operation are not found only where one of them is not defined. -/
theorem usedFragments_failsOnly (bound : BoundDocument) (operation : Operation) :
    Except.FailsOnly (bound.Misses operation) (bound.usedFragments operation) :=
  usedBySelections_failsOnly (bound.visitFragment_failsOnly operation _) []
    fun _ spread => .operation spread

end

/-- Where the fragments of an operation are found, all that it reaches are defined. -/
theorem isSome_of_reached {bound : BoundDocument} {operation : Operation} {used : List Fragment}
    (collected : bound.usedFragments operation = .ok used) {name : String}
    (reached : bound.Reached operation name) : bound.fragment? name ≠ none := by
  obtain ⟨follows, _⟩ := usedFragments_follows collected
  obtain ⟨fragment, among, rfl⟩ := List.mem_map.mp ((mem_usedFragments_iff collected).mpr reached)
  rw [follows.found fragment among]
  exact Option.some_ne_none fragment

/-- There is no text for an operation if and only if it reaches a fragment that is not defined, and
such a fragment is what is complained of. Otherwise the text has, before the operation, the
definitions of the fragments that it reaches and no others, each once. A definition starts with the
name of the fragment and its type (`Fragment.header_prefix_text`). They stand in the order in which
the depth-first tour through the spreads first comes upon them, turning back only where that goes in
circles. -/
theorem queryText_selfContained (bound : BoundDocument) (operation : Operation) :
    ((∃ cause, bound.queryText operation = .error cause) ↔
      ∃ name, bound.Reached operation name ∧ bound.fragment? name = none) ∧
    (∀ cause, bound.queryText operation = .error cause → bound.Misses operation cause) ∧
    ∃ stops, (∀ other, Tour bound.spreadsOf [] (spreadNames operation.selections) other ↔
        other = stops) ∧
      ∀ text, bound.queryText operation = .ok text → ∃ fragments : List Fragment,
        text = Text.squeezeBlank
          (String.join (fragments.map fun fragment => fragment.text ++ " ") ++ operation.text) ∧
        fragments.map (·.name) = stops.eraseDups ∧
        (fragments.map (·.name)).Nodup ∧
        (∀ fragment ∈ fragments, bound.fragment? fragment.name = some fragment) ∧
        ∀ name, name ∈ fragments.map (·.name) ↔ bound.Reached operation name := by
  have misses : Except.FailsOnly (bound.Misses operation) (bound.queryText operation) :=
    .bind (bound.usedFragments_failsOnly operation) fun _ _ => .ok _
  refine ⟨⟨?_, ?_⟩, misses, ?_⟩
  · rintro ⟨cause, failed⟩
    obtain ⟨name, _, _, missing⟩ := misses cause failed
    exact ⟨name, missing⟩
  · rintro ⟨name, reached, undefined⟩
    cases collected : bound.usedFragments operation with
    | error cause => exact ⟨cause, Except.bind_eq_error.mpr (Or.inl collected)⟩
    | ok used => exact absurd undefined (isSome_of_reached collected reached)
  · obtain ⟨stops, tours⟩ := bound.exists_spreadTour operation.selections
    refine ⟨stops, tours, fun text printed => ?_⟩
    obtain ⟨used, collected, same⟩ := Except.bind_eq_ok.mp printed
    obtain ⟨follows, _⟩ := usedFragments_follows collected
    have ordered := (usedFragments_search collected).eq_tour Settled.empty ((tours stops).mpr rfl)
    exact ⟨used, (Except.pure_eq_ok.mp same).symm, ordered, follows.distinct, follows.found,
      fun _ => mem_usedFragments_iff collected⟩

end BoundDocument

/-- A query for the user, about whom fragments are spread. -/
def feedQuery (selections : List Selection) : Operation :=
  ⟨⟨1, 1⟩, .query, some "Me", [], [], ⟨1, 10⟩, [feedField "me" 1 12 selections]⟩

/-- The two fragments that spread each other are printed once, the second one first, because it is
spread first. The third one is left out. Without a definition, there is no text. -/
theorem feed_selfContained :
    (∃ fragments : List Fragment, fragments.map (·.name) = ["B", "A"] ∧
      feedBound.queryText (feedQuery [feedSpread "B" 1 17, feedSpread "A" 1 22]) =
        .ok (Text.squeezeBlank (String.join (fragments.map fun fragment => fragment.text ++ " ") ++
          (feedQuery [feedSpread "B" 1 17, feedSpread "A" 1 22]).text))) ∧
    (∀ name, feedBound.Reached (feedQuery [feedSpread "B" 1 17, feedSpread "A" 1 22]) name ↔
      name ∈ ["B", "A"]) ∧
    ∃ name, feedBound.Reached (feedQuery [feedSpread "A" 1 17, feedSpread "Z" 1 22]) name ∧
      feedBound.fragment? name = none := by
  obtain ⟨_, _, stops, tours, ordered⟩ := BoundDocument.queryText_selfContained feedBound
    (feedQuery [feedSpread "B" 1 17, feedSpread "A" 1 22])
  obtain ⟨text, printed⟩ : ∃ text, feedBound.queryText
      (feedQuery [feedSpread "B" 1 17, feedSpread "A" 1 22]) = .ok text := ⟨_, rfl⟩
  obtain ⟨fragments, same, names, _, _, reached⟩ := ordered text printed
  -- one after the other, the two fragments are entered from outside and lead back to themselves
  have backToB : Tour feedBound.spreadsOf ["A", "B"] ["B"] ["B"] := .back (by decide) .nil
  have insideB : Tour feedBound.spreadsOf ["B"] ["A"] ["A", "B"] := .enter (by decide) backToB .nil
  have backToA : Tour feedBound.spreadsOf ["B", "A"] ["A"] ["A"] := .back (by decide) .nil
  have insideA : Tour feedBound.spreadsOf ["A"] ["B"] ["B", "A"] := .enter (by decide) backToA .nil
  have second : Tour feedBound.spreadsOf [] ["A"] ["A", "B", "A"] := .enter (by decide) insideA .nil
  have tour : Tour feedBound.spreadsOf [] ["B", "A"] ["B", "A", "B", "A", "B", "A"] :=
    .enter (by decide) insideB second
  rw [← (tours _).mp tour] at names
  have named : fragments.map (·.name) = ["B", "A"] := names
  refine ⟨⟨fragments, named, printed.trans (congrArg Except.ok same)⟩, fun name => ?_, ?_⟩
  · rw [← named]
    exact (reached name).symm
  · exact (BoundDocument.queryText_selfContained feedBound _).1.mp ⟨_, rfl⟩

end ElmClient
