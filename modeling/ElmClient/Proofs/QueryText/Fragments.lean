/-
Module: ElmClient.Proofs.QueryText.Fragments
Purpose: The fragments that are printed before an operation are those that it reaches, each of them
  once. They are searched depth first, so the fragments on the way to the current one are not
  followed to the end yet; they are the pending ones.
Main exports: Selection.Spreads, BoundDocument.Reached, BoundDocument.Follows,
  BoundDocument.usedFragments_follows, BoundDocument.mem_usedFragments_iff
-/
import ElmClient.Proofs.Inventory.Closure
import ElmClient.QueryText

namespace ElmClient

open GraphQL

/-- A fragment of a name is spread somewhere in a selection. -/
inductive GraphQL.Selection.Spreads (name : String) : Selection → Prop where
  | here {spread : Spread} (same : spread.fragment = name) : Spreads name (.spread spread)
  | field {field : Field} {brace : Position} {selections : List Selection} {selection : Selection}
      (member : selection ∈ selections) (inside : Spreads name selection) :
      Spreads name (.field field brace selections)
  | inline {inline : InlineFragment} {brace : Position} {selections : List Selection}
      {selection : Selection} (member : selection ∈ selections) (inside : Spreads name selection) :
      Spreads name (.inline inline brace selections)

/-- A fragment of a name is spread somewhere in selections. -/
def GraphQL.SpreadIn (name : String) (selections : List Selection) : Prop :=
  ∃ selection ∈ selections, selection.Spreads name

namespace BoundDocument

/-- An operation reaches the fragments that are spread in it and in the fragments it reaches. -/
inductive Reached (bound : BoundDocument) (operation : Operation) : String → Prop where
  | operation {name : String} (spread : SpreadIn name operation.selections) :
      Reached bound operation name
  | fragment {outer name : String} {fragment : Fragment} (reached : Reached bound operation outer)
      (found : bound.fragment? outer = some fragment)
      (spread : SpreadIn name fragment.selections) : Reached bound operation name

/-- Fragments on the way: they are distinct fragments of the document that the operation reaches,
and whatever is spread in those that are not pending is among them. -/
structure Follows (bound : BoundDocument) (operation : Operation) (pending : List String)
    (used : List Fragment) : Prop where
  distinct : (used.map (·.name)).Nodup
  found : ∀ fragment ∈ used, bound.fragment? fragment.name = some fragment
  reached : ∀ fragment ∈ used, bound.Reached operation fragment.name
  closed : ∀ fragment ∈ used, fragment.name ∉ pending →
    ∀ name, SpreadIn name fragment.selections → name ∈ used.map (·.name)

/-- A visit of a spread that the operation reaches adds the fragment and all that it reaches, as
long as fewer fragments than the bound are unvisited. -/
def Visits (bound : BoundDocument) (operation : Operation) (limit : Nat) (visit : FragmentVisit) :
    Prop :=
  ∀ {pending : List String} {spread : Spread} {used result : List Fragment},
    bound.unvisited (used.map (·.name)) < limit → bound.Follows operation pending used →
    bound.Reached operation spread.fragment → visit spread used = .ok result →
      used ⊆ result ∧ bound.Follows operation pending result ∧
        spread.fragment ∈ result.map (·.name)

section

variable {bound : BoundDocument} {operation : Operation} {visit : FragmentVisit} {limit : Nat}

theorem unvisited_map_le {used result : List Fragment} (within : used ⊆ result) :
    bound.unvisited (result.map (·.name)) ≤ bound.unvisited (used.map (·.name)) :=
  bound.unvisited_le_of_subset (List.map_subset _ within)

theorem map_name_concat {name : String} {fragment : Fragment}
    (found : bound.fragment? name = some fragment) (used : List Fragment) :
    (used ++ [fragment]).map (·.name) = used.map (·.name) ++ [name] := by
  rw [List.map_append, List.map_singleton, name_of_fragment? found]

/-- A fragment that is entered is pending. -/
theorem Follows.enter {pending : List String} {used : List Fragment}
    (follows : bound.Follows operation pending used) {name : String} {fragment : Fragment}
    (found : bound.fragment? name = some fragment) (reached : bound.Reached operation name)
    (fresh : name ∉ used.map (·.name)) :
    bound.Follows operation (name :: pending) (used ++ [fragment]) := by
  have named : fragment.name = name := name_of_fragment? found
  refine ⟨?_, ?_, ?_, ?_⟩
  · rw [map_name_concat found]
    simpa using follows.distinct.concat fresh
  · intro other member
    rcases List.mem_append.mp member with old | new
    · exact follows.found other old
    · rw [List.mem_singleton.mp new, named]
      exact found
  · intro other member
    rcases List.mem_append.mp member with old | new
    · exact follows.reached other old
    · rw [List.mem_singleton.mp new, named]
      exact reached
  · intro other member done inner spread
    rw [map_name_concat found]
    rcases List.mem_append.mp member with old | new
    · refine List.mem_append_left _ (follows.closed other old ?_ inner spread)
      exact fun waits => done (List.mem_cons_of_mem _ waits)
    · rw [List.mem_singleton.mp new, named] at done
      exact absurd List.mem_cons_self done

/-- A fragment whose selections have been searched is pending no more. -/
theorem Follows.leave {pending : List String} {used : List Fragment} {name : String}
    (follows : bound.Follows operation (name :: pending) used) {fragment : Fragment}
    (found : bound.fragment? name = some fragment)
    (covered : ∀ inner, SpreadIn inner fragment.selections → inner ∈ used.map (·.name)) :
    bound.Follows operation pending used := by
  refine ⟨follows.distinct, follows.found, follows.reached, ?_⟩
  intro other member done inner spread
  by_cases same : other.name = name
  · have found' := follows.found other member
    rw [same] at found'
    obtain rfl := Option.some.inj (found'.symm.trans found)
    exact covered inner spread
  · refine follows.closed other member ?_ inner spread
    exact fun waits => (List.mem_cons.mp waits).elim same done

mutual

/-- What is spread in a selection is among the fragments after it. -/
theorem usedByItem_follows (visits : bound.Visits operation limit visit) :
    ∀ {selection : Selection} {pending used result},
      bound.unvisited (used.map (·.name)) < limit → bound.Follows operation pending used →
      (∀ name, selection.Spreads name → bound.Reached operation name) →
      usedByItem visit selection used = .ok result →
      used ⊆ result ∧ bound.Follows operation pending result ∧
        ∀ name, selection.Spreads name → name ∈ result.map (·.name)
  | .field field brace selections, pending, used, result, few, follows, reached, succeeded => by
      have below (name : String) (spread : SpreadIn name selections) :
          bound.Reached operation name := by
        obtain ⟨selection, member, inside⟩ := spread
        exact reached name (.field member inside)
      obtain ⟨within, follows', covered⟩ :=
        usedBySelections_follows visits few follows below succeeded
      refine ⟨within, follows', ?_⟩
      rintro name (_ | ⟨member, inside⟩)
      exact covered name ⟨_, member, inside⟩
  | .spread spread, pending, used, result, few, follows, reached, succeeded => by
      obtain ⟨within, follows', there⟩ := visits few follows (reached _ (.here rfl)) succeeded
      refine ⟨within, follows', ?_⟩
      rintro name ⟨rfl⟩
      exact there
  | .inline inline brace selections, pending, used, result, few, follows, reached, succeeded => by
      have below (name : String) (spread : SpreadIn name selections) :
          bound.Reached operation name := by
        obtain ⟨selection, member, inside⟩ := spread
        exact reached name (.inline member inside)
      obtain ⟨within, follows', covered⟩ :=
        usedBySelections_follows visits few follows below succeeded
      refine ⟨within, follows', ?_⟩
      rintro name (_ | _ | ⟨member, inside⟩)
      exact covered name ⟨_, member, inside⟩

/-- What is spread in selections is among the fragments after them. -/
theorem usedBySelections_follows (visits : bound.Visits operation limit visit) :
    ∀ {selections : List Selection} {pending used result},
      bound.unvisited (used.map (·.name)) < limit → bound.Follows operation pending used →
      (∀ name, SpreadIn name selections → bound.Reached operation name) →
      usedBySelections visit selections used = .ok result →
      used ⊆ result ∧ bound.Follows operation pending result ∧
        ∀ name, SpreadIn name selections → name ∈ result.map (·.name)
  | [], pending, used, result, few, follows, reached, succeeded => by
      rw [← Except.ok.inj succeeded]
      exact ⟨List.Subset.refl _, follows, by simp [SpreadIn]⟩
  | selection :: rest, pending, used, result, few, follows, reached, succeeded => by
      obtain ⟨next, first, later⟩ := Except.bind_eq_ok.mp succeeded
      obtain ⟨within, follows', covered⟩ := usedByItem_follows visits few follows
        (fun name inside => reached name ⟨selection, List.mem_cons_self, inside⟩) first
      obtain ⟨within', follows'', covered'⟩ := usedBySelections_follows visits
        (Nat.lt_of_le_of_lt (unvisited_map_le within) few) follows'
        (fun name ⟨other, member, inside⟩ =>
          reached name ⟨other, List.mem_cons_of_mem _ member, inside⟩) later
      refine ⟨List.Subset.trans within within', follows'', ?_⟩
      rintro name ⟨other, member, inside⟩
      rcases List.mem_cons.mp member with rfl | after
      · exact List.map_subset _ within' (covered name inside)
      · exact covered' name ⟨other, after, inside⟩

end

end

/-- A visit of a spread keeps what is known of the fragments. The fragment is pending while its
selections are searched, and not any more afterwards. -/
theorem visitFragment_visits (bound : BoundDocument) (operation : Operation) (limit : Nat) :
    bound.Visits operation limit (bound.visitFragment limit) := by
  induction limit with
  | zero => exact fun few => absurd few (Nat.not_lt_zero _)
  | succ limit ih =>
      intro pending spread used result few follows reached succeeded
      by_cases known : spread.fragment ∈ used.map (·.name)
      · have seen : used.any (·.name == spread.fragment) = true := by
          obtain ⟨fragment, among, same⟩ := List.mem_map.mp known
          exact List.any_eq_true.mpr ⟨fragment, among, beq_iff_eq.mpr same⟩
        simp only [visitFragment, seen, if_true] at succeeded
        rw [← Except.ok.inj succeeded]
        exact ⟨List.Subset.refl _, follows, known⟩
      · have unseen : used.any (·.name == spread.fragment) = false := by
          refine List.any_eq_false.mpr fun fragment among same => known ?_
          exact List.mem_map.mpr ⟨fragment, among, beq_iff_eq.mp same⟩
        simp only [visitFragment, unseen, Bool.false_eq_true, if_false] at succeeded
        obtain ⟨fragment, looked, collected⟩ := Except.bind_eq_ok.mp succeeded
        have found := fragment_eq_ok.mp looked
        have fewer : bound.unvisited ((used ++ [fragment]).map (·.name)) < limit := by
          have less := unvisited_concat_lt found known
          rw [map_name_concat found]
          omega
        have below (name : String) (spread' : SpreadIn name fragment.selections) :
            bound.Reached operation name :=
          .fragment reached found spread'
        obtain ⟨within, searched, covered⟩ := usedBySelections_follows ih fewer
          (follows.enter found reached known) below collected
        have there : spread.fragment ∈ result.map (·.name) := by
          apply List.map_subset _ within
          rw [map_name_concat found]
          exact List.mem_append_right _ List.mem_cons_self
        exact ⟨fun other member => within (List.mem_append_left _ member),
          searched.leave found covered, there⟩

/-- The fragments that are printed before an operation. -/
theorem usedFragments_follows {bound : BoundDocument} {operation : Operation}
    {used : List Fragment} (collected : bound.usedFragments operation = .ok used) :
    bound.Follows operation [] used ∧
      ∀ name, SpreadIn name operation.selections → name ∈ used.map (·.name) := by
  have none : bound.Follows operation [] [] := ⟨List.nodup_nil, by simp, by simp, by simp⟩
  exact (usedBySelections_follows (bound.visitFragment_visits operation bound.spreadDepth)
    (bound.unvisited_lt_spreadDepth _) none (fun _ spread => .operation spread) collected).2

/-- A fragment is printed before an operation if and only if the operation reaches it. -/
theorem mem_usedFragments_iff {bound : BoundDocument} {operation : Operation}
    {used : List Fragment} (collected : bound.usedFragments operation = .ok used)
    {name : String} : name ∈ used.map (·.name) ↔ bound.Reached operation name := by
  obtain ⟨follows, covered⟩ := usedFragments_follows collected
  constructor
  · intro member
    obtain ⟨fragment, among, rfl⟩ := List.mem_map.mp member
    exact follows.reached fragment among
  · intro reached
    induction reached with
    | operation spread => exact covered _ spread
    | fragment _ found spread ih =>
        obtain ⟨fragment, among, rfl⟩ := List.mem_map.mp ih
        obtain rfl := Option.some.inj ((follows.found fragment among).symm.trans found)
        exact follows.closed fragment among List.not_mem_nil _ spread

end BoundDocument

end ElmClient
