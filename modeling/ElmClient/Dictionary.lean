/-
Module: ElmClient.Dictionary
Purpose: Lists of named values in which a name keeps the place where it first came and holds the
  value that came last.
Main exports: Dictionary.insert, Dictionary.ofList, Dictionary.extend, Dictionary.sorted
-/

namespace ElmClient.Dictionary

variable {α : Type}

/-- Gives a name a value. A name that is there keeps its place; a new one comes last. -/
def insert (name : String) (value : α) : List (String × α) → List (String × α)
  | [] => [(name, value)]
  | entry :: rest =>
      if entry.1 == name then (name, value) :: rest else entry :: insert name value rest

/-- Inserts the entries of the second list into the first one, in order. -/
def extend (entries additions : List (String × α)) : List (String × α) :=
  additions.foldl (fun entries addition => insert addition.1 addition.2 entries) entries

/-- The entries with every name in its first place and with its last value. -/
def ofList (entries : List (String × α)) : List (String × α) :=
  extend [] entries

/-- Gives a name a value in a list that is sorted by name. -/
def insertSorted (name : String) (value : α) : List (String × α) → List (String × α)
  | [] => [(name, value)]
  | entry :: rest =>
      if entry.1 == name then (name, value) :: rest
      else if name < entry.1 then (name, value) :: entry :: rest
      else entry :: insertSorted name value rest

/-- Inserts the entries of the second list into the first one, which is sorted by name. -/
def extendSorted (entries additions : List (String × α)) : List (String × α) :=
  additions.foldl (fun entries addition => insertSorted addition.1 addition.2 entries) entries

/-- The entries sorted by name, every name with its last value. -/
def sorted (entries : List (String × α)) : List (String × α) :=
  extendSorted [] entries

@[simp] theorem lookup_insert_self (name : String) (value : α) (entries : List (String × α)) :
    (insert name value entries).lookup name = some value := by
  induction entries with
  | nil => simp [insert]
  | cons entry rest ih =>
      obtain ⟨key, held⟩ := entry
      by_cases h : key = name
      · simp [insert, h]
      · have hne : (name == key) = false := by simp [Ne.symm h]
        simp [insert, h, List.lookup_cons, hne, ih]

theorem lookup_insert_of_ne {name other : String} (h : other ≠ name) (value : α)
    (entries : List (String × α)) :
    (insert name value entries).lookup other = entries.lookup other := by
  have hn : (other == name) = false := by simp [h]
  induction entries with
  | nil => simp [insert, List.lookup_cons, hn]
  | cons entry rest ih =>
      obtain ⟨key, held⟩ := entry
      by_cases he : key = name
      · simp [insert, he, List.lookup_cons, hn]
      · simp [insert, he, List.lookup_cons, ih]

/-- The names after an insertion: the old ones, and the new one if it was not among them. -/
theorem map_fst_insert (name : String) (value : α) (entries : List (String × α)) :
    (insert name value entries).map Prod.fst =
      if name ∈ entries.map Prod.fst then entries.map Prod.fst
      else entries.map Prod.fst ++ [name] := by
  induction entries with
  | nil => simp [insert]
  | cons entry rest ih =>
      by_cases h : entry.1 = name
      · simp [insert, h]
      · have h' : ¬ name = entry.1 := fun e => h e.symm
        by_cases hm : name ∈ rest.map Prod.fst
        · rw [if_pos hm] at ih
          have hm' : name ∈ (entry :: rest).map Prod.fst := by
            rw [List.map_cons]; exact List.mem_cons_of_mem _ hm
          rw [if_pos hm']
          simp only [insert, beq_iff_eq, h, if_false, List.map_cons, ih]
        · rw [if_neg hm] at ih
          have hm' : name ∉ (entry :: rest).map Prod.fst := by
            rw [List.map_cons, List.mem_cons]; exact fun e => e.elim h' hm
          rw [if_neg hm']
          simp only [insert, beq_iff_eq, h, if_false, List.map_cons, ih, List.cons_append]

end ElmClient.Dictionary
