/-
Module: ElmClient.Proofs.Occurrences
Purpose: The first occurrences of the items of a list, in their order. They are what a list holds that
  took in the items one by one, each unless it was there.
Main exports: Occurrences.eraseDups_concat, Occurrences.nodup_eraseDups,
  Occurrences.eraseDups_of_nodup, Occurrences.eraseDups_append_of_subset,
  Occurrences.eraseDups_eraseDups_append, Occurrences.eraseDups_append_append_of_subset,
  Occurrences.filterMap_eraseDups, Occurrences.eraseDups_append_eraseDups
-/
import Mathlib.Data.List.Induction
import Mathlib.Data.List.Nodup

namespace ElmClient.Occurrences

variable {α β : Type} [BEq α] [LawfulBEq α] [BEq β] [LawfulBEq β]

/-- One more item comes last if it is new. -/
theorem eraseDups_concat (items : List α) (item : α) :
    (items ++ [item]).eraseDups =
      if item ∈ items then items.eraseDups else items.eraseDups ++ [item] := by
  rw [List.eraseDups_append]
  by_cases there : item ∈ items <;> simp [List.removeAll, there, List.eraseDups_cons]

theorem nodup_eraseDups (items : List α) : items.eraseDups.Nodup := by
  induction items using List.reverseRecOn with
  | nil => exact List.nodup_nil
  | append_singleton earlier item ih =>
      rw [eraseDups_concat]
      split
      · exact ih
      · next fresh => simpa using ih.concat (mt List.mem_eraseDups.mp fresh)

theorem eraseDups_of_nodup {items : List α} (distinct : items.Nodup) : items.eraseDups = items := by
  induction items using List.reverseRecOn with
  | nil => rfl
  | append_singleton earlier item ih =>
      obtain ⟨first, _, apart⟩ := List.nodup_append.mp distinct
      have fresh : item ∉ earlier := fun there => apart item there item List.mem_cons_self rfl
      rw [eraseDups_concat, if_neg fresh, ih first]

/-- Items that were there before add nothing. -/
theorem eraseDups_append_of_subset {items more : List α} (within : more ⊆ items) :
    (items ++ more).eraseDups = items.eraseDups := by
  have none : more.removeAll items = [] := by
    rw [List.removeAll, List.filter_eq_nil_iff]
    intro item there
    simpa using within there
  rw [List.eraseDups_append, none, List.eraseDups_nil, List.append_nil]

/-- Of what comes first, only the first occurrences matter. -/
theorem eraseDups_eraseDups_append (items more : List α) :
    (items.eraseDups ++ more).eraseDups = (items ++ more).eraseDups := by
  have same : more.removeAll items.eraseDups = more.removeAll items := by
    refine List.filter_congr fun item _ => ?_
    simp [List.mem_eraseDups]
  rw [List.eraseDups_append, List.eraseDups_append, same,
    eraseDups_of_nodup (nodup_eraseDups items)]

/-- Items that were there before add nothing in between. -/
theorem eraseDups_append_append_of_subset {items more : List α} (within : more ⊆ items)
    (rest : List α) : (items ++ more ++ rest).eraseDups = (items ++ rest).eraseDups := by
  rw [← eraseDups_eraseDups_append (items ++ more), eraseDups_append_of_subset within,
    eraseDups_eraseDups_append]

/-- What first occurrences are taken for are first occurrences, if no two items are taken for one. -/
theorem filterMap_eraseDups {f : α → Option β}
    (injective : ∀ one other value, f one = some value → f other = some value → one = other)
    (items : List α) : items.eraseDups.filterMap f = (items.filterMap f).eraseDups := by
  induction items using List.reverseRecOn with
  | nil => rfl
  | append_singleton earlier item ih =>
      rw [List.filterMap_append, eraseDups_concat]
      cases taken : f item with
      | none =>
          have skipped : List.filterMap f [item] = [] := by simp [taken]
          rw [skipped, List.append_nil, ← ih]
          split
          · rfl
          · rw [List.filterMap_append, skipped, List.append_nil]
      | some value =>
          have kept : List.filterMap f [item] = [value] := by simp [taken]
          have there : value ∈ earlier.filterMap f ↔ item ∈ earlier := by
            constructor
            · intro member
              obtain ⟨other, before, same⟩ := List.mem_filterMap.mp member
              exact injective _ _ _ same taken ▸ before
            · exact fun before => List.mem_filterMap.mpr ⟨item, before, taken⟩
          rw [kept, eraseDups_concat]
          split
          · next before => rw [if_pos (there.mpr before), ih]
          · next fresh =>
              rw [if_neg (there.not.mpr fresh), List.filterMap_append, ih, kept]

/-- Of what comes last, only the first occurrences matter. -/
theorem eraseDups_append_eraseDups (items more : List α) :
    (items ++ more.eraseDups).eraseDups = (items ++ more).eraseDups := by
  have filtered (keep : α → Bool) : more.eraseDups.filter keep = (more.filter keep).eraseDups := by
    rw [← List.filterMap_eq_filter]
    refine filterMap_eraseDups ?_ more
    intro one other value first second
    rw [(Option.guard_eq_some_iff.mp first).1, (Option.guard_eq_some_iff.mp second).1]
  rw [List.eraseDups_append, List.eraseDups_append, List.removeAll, List.removeAll, filtered,
    eraseDups_of_nodup (nodup_eraseDups _)]

end ElmClient.Occurrences
