/-
Module: ElmClient.Proofs.Dictionary
Purpose: Lists of named values as finite maps. A sorted list is determined by what it holds under
  each name, so two ways to fill one agree as soon as they agree about every look-up.
Main exports: Dictionary.lookup_extendSorted, Dictionary.lookup_sorted,
  Dictionary.Ascending.ext, Dictionary.ofList_eq_self
-/
import ElmClient.Dictionary
import Mathlib.Data.List.Nodup
import Mathlib.Data.String.Basic

namespace ElmClient.Dictionary

variable {α β : Type}

/-! ### Look-ups -/

theorem lookup_cons_of_ne {name other : String} (apart : other ≠ name) (value : α)
    (rest : List (String × α)) : ((name, value) :: rest).lookup other = rest.lookup other := by
  have unequal : (other == name) = false := by simp [apart]
  rw [List.lookup_cons, unequal]

theorem lookup_eq_none_iff {name : String} {entries : List (String × α)} :
    entries.lookup name = none ↔ name ∉ entries.map Prod.fst := by
  rw [List.lookup_eq_none_iff, List.mem_map, not_exists]
  simp only [bne_iff_ne, ne_eq, not_and]
  exact ⟨fun absent entry member same => absent entry member same.symm,
    fun absent entry member same => absent entry member same.symm⟩

theorem exists_of_mem_names {name : String} {entries : List (String × α)}
    (member : name ∈ entries.map Prod.fst) : ∃ value, entries.lookup name = some value := by
  cases found : entries.lookup name with
  | none => exact absurd member (lookup_eq_none_iff.mp found)
  | some value => exact ⟨value, rfl⟩

theorem mem_of_lookup {name : String} {value : α} {entries : List (String × α)}
    (found : entries.lookup name = some value) : (name, value) ∈ entries := by
  obtain ⟨before, after, rfl, _⟩ := List.lookup_eq_some_iff.mp found
  exact List.mem_append_right _ List.mem_cons_self

/-- Where names do not repeat, a look-up finds every entry. -/
theorem lookup_of_mem {name : String} {value : α} {entries : List (String × α)}
    (distinct : (entries.map Prod.fst).Nodup) (member : (name, value) ∈ entries) :
    entries.lookup name = some value := by
  induction entries with
  | nil => exact absurd member List.not_mem_nil
  | cons first rest ih =>
      have fresh := List.nodup_cons.mp distinct
      rcases List.mem_cons.mp member with rfl | later
      · exact List.lookup_cons_self
      · have apart : name ≠ first.1 := by
          intro same
          exact fresh.1 (List.mem_map.mpr ⟨(name, value), later, same⟩)
        rw [lookup_cons_of_ne apart]
        exact ih fresh.2 later

/-- Where keys do not repeat, every item is the only one with its key. -/
theorem filter_key_eq_singleton {key : α → String} {items : List α}
    (distinct : (items.map key).Nodup) {item : α} (member : item ∈ items) :
    items.filter (fun other => key other == key item) = [item] := by
  induction items with
  | nil => exact absurd member List.not_mem_nil
  | cons first rest ih =>
      have fresh := List.nodup_cons.mp distinct
      rcases List.mem_cons.mp member with rfl | later
      · have others : rest.filter (fun other => key other == key item) = [] := by
          apply List.filter_eq_nil_iff.mpr
          intro other among same
          exact fresh.1 (List.mem_map.mpr ⟨other, among, eq_of_beq same⟩)
        rw [List.filter_cons_of_pos (by simp), others]
      · have apart : (key first == key item) = false := by
          apply beq_eq_false_iff_ne.mpr
          intro same
          exact fresh.1 (same ▸ List.mem_map_of_mem later)
        rw [List.filter_cons_of_neg (by simp [apart]), ih fresh.2 later]

theorem lookup_map_entry (f : String → α → β) (name : String) (entries : List (String × α)) :
    (entries.map fun entry => (entry.1, f entry.1 entry.2)).lookup name =
      (entries.lookup name).map (f name) := by
  induction entries with
  | nil => rfl
  | cons entry rest ih =>
      obtain ⟨key, value⟩ := entry
      by_cases same : name = key
      · subst same
        rw [List.map_cons, List.lookup_cons_self, List.lookup_cons_self]
        rfl
      · rw [List.map_cons, lookup_cons_of_ne same, lookup_cons_of_ne same, ih]

theorem lookup_map_self (f : String → α) (name : String) (names : List String) :
    (names.map fun name => (name, f name)).lookup name =
      if name ∈ names then some (f name) else none := by
  induction names with
  | nil => rfl
  | cons first rest ih =>
      by_cases same : name = first
      · subst same
        rw [List.map_cons, List.lookup_cons_self, if_pos List.mem_cons_self]
      · rw [List.map_cons, lookup_cons_of_ne same, ih]
        simp [same]

/-- Entries under other names than the first ones come after them. -/
theorem lookup_append_new (first second : List (String × α)) (name : String) :
    (first ++ second.filter fun entry => !(first.map Prod.fst).contains entry.1).lookup name =
      (first.lookup name).or (second.lookup name) := by
  rw [List.lookup_append]
  cases found : first.lookup name with
  | some value => rfl
  | none =>
      have absent := lookup_eq_none_iff.mp found
      rw [Option.none_or, Option.none_or]
      induction second with
      | nil => rfl
      | cons entry rest ih =>
          obtain ⟨key, value⟩ := entry
          by_cases same : name = key
          · subst same
            rw [List.filter_cons_of_pos (by simpa using absent), List.lookup_cons_self,
              List.lookup_cons_self]
          · rw [lookup_cons_of_ne same, ← ih, List.filter_cons]
            split
            · exact lookup_cons_of_ne same value _
            · rfl

/-- Where keys do not repeat, the first item of a key is the only one. -/
theorem find?_of_mem {key : α → String} {items : List α} {item : α}
    (distinct : (items.map key).Nodup) (member : item ∈ items) :
    items.find? (fun other => key other == key item) = some item := by
  induction items with
  | nil => exact absurd member List.not_mem_nil
  | cons first rest ih =>
      have fresh := List.nodup_cons.mp distinct
      rcases List.mem_cons.mp member with rfl | later
      · simp
      · have other : key first ≠ key item := by
          intro same
          exact fresh.1 (List.mem_map.mpr ⟨item, later, same.symm⟩)
        rw [List.find?_cons_of_neg (by simpa using other)]
        exact ih fresh.2 later

/-- A search stops at an item that passes exactly if nothing before the item passes. -/
theorem find?_eq_some_self_iff {α : Type} [BEq α] [LawfulBEq α] {p : α → Bool}
    {items : List α} {item : α} (member : item ∈ items) (passes : p item = true) :
    items.find? p = some item ↔
      ∀ earlier ∈ items.takeWhile (fun other => other != item), p earlier = false := by
  induction items with
  | nil => exact absurd member List.not_mem_nil
  | cons first rest ih =>
      by_cases here : first = item
      · subst here
        simp [passes]
      · have later : item ∈ rest := (List.mem_cons.mp member).resolve_left (Ne.symm here)
        have unequal : (first != item) = true := bne_iff_ne.mpr here
        simp only [List.takeWhile_cons, unequal, if_true, List.forall_mem_cons, ← ih later]
        cases stops : p first with
        | true => simp [stops, here]
        | false => simp [stops]

/-! ### Entries in their first places -/

theorem insert_of_not_mem {name : String} (value : α) {entries : List (String × α)}
    (fresh : name ∉ entries.map Prod.fst) :
    insert name value entries = entries ++ [(name, value)] := by
  induction entries with
  | nil => rfl
  | cons first rest ih =>
      rw [List.map_cons, List.mem_cons, not_or] at fresh
      have apart : (first.1 == name) = false := by simp [Ne.symm fresh.1]
      simp [insert, apart, ih fresh.2]

theorem extend_of_nodup {entries additions : List (String × α)}
    (distinct : ((entries ++ additions).map Prod.fst).Nodup) :
    extend entries additions = entries ++ additions := by
  induction additions generalizing entries with
  | nil => simp [extend]
  | cons first rest ih =>
      have fresh : first.1 ∉ entries.map Prod.fst := by
        intro member
        rw [List.map_append] at distinct
        exact (List.nodup_append.mp distinct).2.2 first.1 member first.1 (by simp) rfl
      have step : extend entries (first :: rest) = extend (entries ++ [first]) rest := by
        rw [extend, List.foldl_cons, insert_of_not_mem first.2 fresh]
        rfl
      rw [step, ih (by simpa using distinct)]
      simp

theorem mem_insert {name : String} {value : α} {entries : List (String × α)}
    {entry : String × α} (member : entry ∈ insert name value entries) :
    entry = (name, value) ∨ entry ∈ entries := by
  induction entries with
  | nil => exact Or.inl (List.mem_singleton.mp member)
  | cons first rest ih =>
      unfold insert at member
      split at member
      · rcases List.mem_cons.mp member with new | later
        · exact Or.inl new
        · exact Or.inr (List.mem_cons_of_mem _ later)
      · rcases List.mem_cons.mp member with rfl | later
        · exact Or.inr List.mem_cons_self
        · exact (ih later).imp_right (List.mem_cons_of_mem _)

theorem mem_extend {entries additions : List (String × α)} {entry : String × α}
    (member : entry ∈ extend entries additions) : entry ∈ entries ∨ entry ∈ additions := by
  induction additions generalizing entries with
  | nil => exact Or.inl member
  | cons first rest ih =>
      rcases ih member with inserted | later
      · rcases mem_insert inserted with rfl | old
        · exact Or.inr List.mem_cons_self
        · exact Or.inl old
      · exact Or.inr (List.mem_cons_of_mem _ later)

theorem nodup_insert (name : String) (value : α) {entries : List (String × α)}
    (distinct : (entries.map Prod.fst).Nodup) :
    ((insert name value entries).map Prod.fst).Nodup := by
  rw [map_fst_insert]
  split
  · exact distinct
  · next fresh => simpa using distinct.concat fresh

theorem nodup_extend {entries : List (String × α)} (additions : List (String × α))
    (distinct : (entries.map Prod.fst).Nodup) :
    ((extend entries additions).map Prod.fst).Nodup := by
  induction additions generalizing entries with
  | nil => exact distinct
  | cons first rest ih => exact ih (nodup_insert first.1 first.2 distinct)

/-- Of the entries under one name the last one counts. -/
theorem lookup_extend (entries additions : List (String × α)) (name : String) :
    (extend entries additions).lookup name =
      (additions.reverse.lookup name).or (entries.lookup name) := by
  induction additions generalizing entries with
  | nil => rfl
  | cons first rest ih =>
      obtain ⟨key, value⟩ := first
      have step : extend entries ((key, value) :: rest) = extend (insert key value entries) rest :=
        rfl
      rw [step, ih, List.reverse_cons, List.lookup_append, Option.or_assoc]
      congr 1
      by_cases same : name = key
      · subst same
        rw [lookup_insert_self, List.lookup_cons_self, Option.some_or]
      · rw [lookup_insert_of_ne same, lookup_cons_of_ne same, List.lookup_nil, Option.none_or]

theorem nodup_ofList (entries : List (String × α)) : ((ofList entries).map Prod.fst).Nodup :=
  nodup_extend entries List.nodup_nil

theorem mem_ofList {entries : List (String × α)} {entry : String × α}
    (member : entry ∈ ofList entries) : entry ∈ entries :=
  (mem_extend member).resolve_left List.not_mem_nil

theorem lookup_ofList (entries : List (String × α)) (name : String) :
    (ofList entries).lookup name = entries.reverse.lookup name := by
  rw [ofList, lookup_extend, List.lookup_nil, Option.or_none]

theorem mem_names_ofList {entries : List (String × α)} {name : String} :
    name ∈ (ofList entries).map Prod.fst ↔ name ∈ entries.map Prod.fst := by
  rw [← not_iff_not, ← lookup_eq_none_iff, ← lookup_eq_none_iff, lookup_ofList,
    lookup_eq_none_iff, lookup_eq_none_iff, List.map_reverse, List.mem_reverse]

/-- Entries with distinct names are a dictionary as they are. -/
theorem ofList_eq_self {entries : List (String × α)} (distinct : (entries.map Prod.fst).Nodup) :
    ofList entries = entries := by
  have whole : (([] ++ entries).map Prod.fst).Nodup := distinct
  simpa [ofList] using extend_of_nodup whole

/-! ### Sorted entries -/

/-- Entries whose names ascend strictly. -/
def Ascending (entries : List (String × α)) : Prop :=
  entries.Pairwise fun first second => first.1 < second.1

theorem mem_insertSorted {name : String} {value : α} {entries : List (String × α)}
    {entry : String × α} (member : entry ∈ insertSorted name value entries) :
    entry = (name, value) ∨ entry ∈ entries := by
  induction entries with
  | nil => exact Or.inl (List.mem_singleton.mp member)
  | cons first rest ih =>
      unfold insertSorted at member
      split at member
      · exact (List.mem_cons.mp member).imp_right (List.mem_cons_of_mem _)
      · split at member
        · exact List.mem_cons.mp member
        · rcases List.mem_cons.mp member with here | later
          · exact Or.inr (here ▸ List.mem_cons_self)
          · exact (ih later).imp_right (List.mem_cons_of_mem _)

theorem Ascending.insertSorted {entries : List (String × α)} (ascending : Ascending entries)
    (name : String) (value : α) : Ascending (insertSorted name value entries) := by
  induction entries with
  | nil => exact List.pairwise_singleton _ _
  | cons first rest ih =>
      obtain ⟨above, tail⟩ := List.pairwise_cons.mp ascending
      unfold Dictionary.insertSorted
      split
      · next same =>
          have equal := eq_of_beq same
          exact List.pairwise_cons.mpr ⟨fun entry member => equal ▸ above entry member, tail⟩
      · next apart =>
          split
          · next before =>
              refine List.pairwise_cons.mpr ⟨?_, ascending⟩
              intro entry member
              rcases List.mem_cons.mp member with rfl | later
              · exact before
              · exact lt_trans before (above entry later)
          · next notBefore =>
              refine List.pairwise_cons.mpr ⟨?_, ih tail⟩
              intro entry member
              rcases mem_insertSorted member with rfl | later
              · have unequal : first.1 ≠ name := by simpa using apart
                exact lt_of_le_of_ne (not_lt.mp notBefore) unequal
              · exact above entry later

theorem lookup_insertSorted (name other : String) (value : α) (entries : List (String × α)) :
    (insertSorted name value entries).lookup other =
      if other = name then some value else entries.lookup other := by
  by_cases same : other = name
  · rw [if_pos same]
    subst same
    induction entries with
    | nil => exact List.lookup_cons_self
    | cons first rest ih =>
        unfold insertSorted
        split
        · exact List.lookup_cons_self
        · next apart =>
            split
            · exact List.lookup_cons_self
            · have unequal : other ≠ first.1 := fun equal => apart (by simp [equal])
              rw [lookup_cons_of_ne unequal, ih]
  · rw [if_neg same]
    induction entries with
    | nil => exact lookup_cons_of_ne same value []
    | cons first rest ih =>
        unfold insertSorted
        split
        · next equal =>
            have unequal : other ≠ first.1 := fun here => same (here.trans (eq_of_beq equal))
            rw [lookup_cons_of_ne same, lookup_cons_of_ne unequal]
        · split
          · exact lookup_cons_of_ne same value _
          · by_cases here : other = first.1
            · subst here
              rw [List.lookup_cons_self, List.lookup_cons_self]
            · rw [lookup_cons_of_ne here, lookup_cons_of_ne here, ih]

theorem Ascending.extendSorted {entries : List (String × α)} (ascending : Ascending entries)
    (additions : List (String × α)) : Ascending (extendSorted entries additions) := by
  induction additions generalizing entries with
  | nil => exact ascending
  | cons first rest ih => exact ih (ascending.insertSorted first.1 first.2)

/-- Additions with distinct names come before what was there. -/
theorem lookup_extendSorted {additions : List (String × α)}
    (distinct : (additions.map Prod.fst).Nodup) (name : String) (entries : List (String × α)) :
    (extendSorted entries additions).lookup name =
      (additions.lookup name).or (entries.lookup name) := by
  induction additions generalizing entries with
  | nil => rfl
  | cons first rest ih =>
      have fresh := List.nodup_cons.mp distinct
      have step : extendSorted entries (first :: rest) =
          extendSorted (insertSorted first.1 first.2 entries) rest := rfl
      rw [step, ih fresh.2, lookup_insertSorted]
      by_cases same : name = first.1
      · subst same
        rw [lookup_eq_none_iff.mpr fresh.1, List.lookup_cons_self, if_pos rfl]
        rfl
      · rw [lookup_cons_of_ne same, if_neg same]

/-- Additions under one name that all hold the same come before what was there. -/
theorem lookup_extendSorted_of_consistent (value : String → α) {additions : List (String × α)}
    (consistent : ∀ addition ∈ additions, addition.2 = value addition.1) (name : String)
    (entries : List (String × α)) :
    (extendSorted entries additions).lookup name =
      if name ∈ additions.map Prod.fst then some (value name) else entries.lookup name := by
  induction additions generalizing entries with
  | nil => rfl
  | cons first rest ih =>
      have step : extendSorted entries (first :: rest) =
          extendSorted (insertSorted first.1 first.2 entries) rest := rfl
      rw [step, ih fun addition later => consistent addition (List.mem_cons_of_mem _ later),
        lookup_insertSorted, List.map_cons]
      by_cases later : name ∈ rest.map Prod.fst
      · rw [if_pos later, if_pos (List.mem_cons_of_mem _ later)]
      · rw [if_neg later]
        by_cases same : name = first.1
        · rw [if_pos same, if_pos (List.mem_cons.mpr (Or.inl same)), same]
          rw [consistent first List.mem_cons_self]
        · rw [if_neg same, if_neg (fun member => (List.mem_cons.mp member).elim same later)]

theorem ascending_sorted (entries : List (String × α)) : Ascending (sorted entries) :=
  Ascending.extendSorted List.Pairwise.nil entries

theorem lookup_sorted {entries : List (String × α)} (distinct : (entries.map Prod.fst).Nodup)
    (name : String) : (sorted entries).lookup name = entries.lookup name := by
  rw [sorted, lookup_extendSorted distinct]
  simp

theorem lookup_sorted_of_consistent (value : String → α) {entries : List (String × α)}
    (consistent : ∀ entry ∈ entries, entry.2 = value entry.1) (name : String) :
    (sorted entries).lookup name =
      if name ∈ entries.map Prod.fst then some (value name) else none := by
  rw [sorted, lookup_extendSorted_of_consistent value consistent]
  rfl

theorem Ascending.nodup {entries : List (String × α)} (ascending : Ascending entries) :
    (entries.map Prod.fst).Nodup := by
  rw [List.Nodup, List.pairwise_map]
  exact List.Pairwise.imp (fun before => ne_of_lt before) ascending

theorem Ascending.lookup_tail {name : String} {value : α} {rest : List (String × α)}
    (ascending : Ascending ((name, value) :: rest)) {other : String} (low : other ≤ name) :
    rest.lookup other = none := by
  apply lookup_eq_none_iff.mpr
  intro member
  obtain ⟨entry, there, rfl⟩ := List.mem_map.mp member
  exact absurd ((List.pairwise_cons.mp ascending).1 entry there) (not_lt.mpr low)

/-- Sorted entries that hold the same under every name are the same. -/
theorem Ascending.ext {first second : List (String × α)} (one : Ascending first)
    (two : Ascending second) (same : ∀ name, first.lookup name = second.lookup name) :
    first = second := by
  induction first generalizing second with
  | nil =>
      cases second with
      | nil => rfl
      | cons entry rest =>
          obtain ⟨name, value⟩ := entry
          simpa using same name
  | cons entry rest ih =>
      obtain ⟨name, value⟩ := entry
      cases second with
      | nil => simpa using same name
      | cons entry' rest' =>
          obtain ⟨name', value'⟩ := entry'
          -- The smaller of two different first names would be missing on the other side.
          have names : name = name' := by
            rcases lt_trichotomy name name' with before | equal | after
            · have here := same name
              rw [List.lookup_cons_self, lookup_cons_of_ne (ne_of_lt before),
                two.lookup_tail (le_of_lt before)] at here
              simp at here
            · exact equal
            · have here := same name'
              rw [List.lookup_cons_self, lookup_cons_of_ne (ne_of_lt after),
                one.lookup_tail (le_of_lt after)] at here
              simp at here
          subst names
          have values : value = value' := by simpa using same name
          subst values
          have tails : rest = rest' := by
            refine ih (List.pairwise_cons.mp one).2 (List.pairwise_cons.mp two).2 ?_
            intro other
            by_cases equal : other = name
            · rw [one.lookup_tail (le_of_eq equal), two.lookup_tail (le_of_eq equal)]
            · have there := same other
              rwa [lookup_cons_of_ne equal, lookup_cons_of_ne equal] at there
          rw [tails]

end ElmClient.Dictionary
