/-
Module: ElmClient.Proofs.Plan.Additions
Purpose: The plan that comes of adding fields and spreads of fragments one by one, in any order. Its
  names and its fragments are those that were added, in the order of their first addition, and of
  each name it has what the first of its fragments has, or else the field that was selected first.
Main exports: Addition, RecordPlanOf.add, RecordPlanOf.ofAdditions, RecordPlanOf.provider?,
  RecordPlanOf.Accounts, RecordPlanOf.Accounts.add, RecordPlanOf.ofAdditions_accounts,
  RecordPlanOf.ofAdditions_merged
-/
import ElmClient.Proofs.Plan.Absorption

namespace ElmClient

/-- What a selection set adds to its plan at once: a field that it selects, or all fields of a
fragment that it spreads. -/
inductive Addition (κ : Type) where
  | field (field : PlannedField κ)
  | spread (fragment : String)
deriving BEq, Repr

namespace Addition

variable {κ : Type}

/-- The field that is selected. -/
def field? : Addition κ → Option (PlannedField κ)
  | .field selected => some selected
  | .spread _ => none

/-- The fragment that is spread. -/
def spread? : Addition κ → Option String
  | .field _ => none
  | .spread fragment => some fragment

/-- The names of the fields that are added, given the plans of the fragments. -/
def names (fragments : String → RecordPlanOf κ) : Addition κ → List String
  | .field selected => [selected.name]
  | .spread fragment => (fragments fragment).fields.map (·.name)

end Addition

namespace RecordPlanOf

variable {κ : Type} {fragments : String → RecordPlanOf κ}

/-- Adds to a plan, given the plans of the fragments. -/
def add (fragments : String → RecordPlanOf κ) (plan : RecordPlanOf κ) :
    Addition κ → RecordPlanOf κ
  | .field field => plan.push field
  | .spread fragment => plan.pushSpread fragment (fragments fragment)

/-- The plan that comes of additions to the empty plan. -/
def ofAdditions (fragments : String → RecordPlanOf κ) (additions : List (Addition κ)) :
    RecordPlanOf κ :=
  additions.foldl (add fragments) {}

/-- The field of a name in the first of some fragments that has one. -/
def provider? (fragments : String → RecordPlanOf κ) (spreads : List String) (name : String) :
    Option (PlannedField κ) :=
  spreads.findSome? fun fragment => (fragments fragment).field? name

/-! ### What one addition does -/

/-- A plan that accounts for what was added: its names and fragments stand in the order of their
first addition, and a field is the one of the first fragment that has its name, or else the first
that was selected under it. -/
structure Accounts (fragments : String → RecordPlanOf κ) (additions : List (Addition κ))
    (plan : RecordPlanOf κ) : Prop where
  names : plan.fields.map (·.name) = (additions.flatMap (·.names fragments)).eraseDups
  spreads : plan.spreads = (additions.filterMap (·.spread?)).eraseDups
  field? (name : String) : plan.field? name =
    ((provider? fragments plan.spreads name).map (·.withOrigin .spread)).or
      ((PlannedField.named? name (additions.filterMap (·.field?))).map (·.withOrigin .own))

theorem Accounts.empty : Accounts fragments [] (⟨[], []⟩ : RecordPlanOf κ) :=
  ⟨rfl, rfl, fun _ => rfl⟩

theorem named?_concat (name : String) (fields : List (PlannedField κ)) (field : PlannedField κ) :
    PlannedField.named? name (fields ++ [field]) =
      (PlannedField.named? name fields).or (if field.name = name then some field else none) := by
  rw [PlannedField.named?, List.find?_append]
  by_cases same : field.name = name <;> simp [PlannedField.named?, same]

/-- A field that is selected changes nothing under a name that is there. -/
theorem Accounts.push {additions : List (Addition κ)} {plan : RecordPlanOf κ}
    (accounts : Accounts fragments additions plan) (field : PlannedField κ) :
    Accounts fragments (additions ++ [.field field]) (plan.push field) where
  names := by
    rw [push_eq_absorb, map_name_absorb accounts.names, List.flatMap_append,
      List.flatMap_singleton]
    rfl
  spreads := by
    have same : (plan.push field).spreads = plan.spreads := rfl
    rw [same, accounts.spreads, List.filterMap_append]
    exact congrArg List.eraseDups (List.append_nil _).symm
  field? name := by
    have same : (plan.push field).spreads = plan.spreads := rfl
    have added : (additions ++ [(.field field : Addition κ)]).filterMap (·.field?) =
        additions.filterMap (·.field?) ++ [field] := List.filterMap_append
    have distinct : ((ofField field).fields.map (·.name)).Nodup := List.nodup_singleton _
    rw [same, added, named?_concat, push_eq_absorb, field?_absorb plan distinct, accounts.field?]
    by_cases here : field.name = name
    · subst here
      have selected : (ofField field).field? field.name = some (field.withOrigin .own) :=
        PlannedField.named?_cons_self (field.withOrigin .own) []
      rw [selected, if_pos rfl]
      cases provider? fragments plan.spreads field.name with
      | some given => rfl
      | none =>
          cases PlannedField.named? field.name (additions.filterMap (·.field?)) <;> rfl
    · have other : (field.withOrigin .own).name ≠ name := here
      have absent : (ofField field).field? name = none := PlannedField.named?_cons_of_ne other []
      rw [absent, if_neg here, Option.or_none]

/-- One more spread is asked last. -/
theorem provider?_addSpread (plan : RecordPlanOf κ) (fragment name : String) :
    provider? fragments (plan.addSpread fragment).spreads name =
      (provider? fragments plan.spreads name).or ((fragments fragment).field? name) := by
  unfold addSpread
  by_cases there : fragment ∈ plan.spreads
  · simp only [List.contains_iff_mem.mpr there, if_true]
    cases found : provider? fragments plan.spreads name with
    | some field => rfl
    | none => rw [List.findSome?_eq_none_iff.mp found fragment there, Option.none_or]
  · simp only [List.contains_iff_mem, there, if_false]
    rw [provider?, List.findSome?_append]
    simp [provider?]

/-- A fragment takes the names that were only selected, and those that are new. -/
theorem Accounts.pushSpread {additions : List (Addition κ)} {plan : RecordPlanOf κ}
    (accounts : Accounts fragments additions plan) {fragment : String}
    (distinct : ((fragments fragment).fields.map (·.name)).Nodup) :
    Accounts fragments (additions ++ [.spread fragment])
      (plan.pushSpread fragment (fragments fragment)) where
  names := by
    rw [pushSpread_eq_absorb, map_name_absorb accounts.names, map_name_ofSpread,
      List.flatMap_append, List.flatMap_singleton]
    rfl
  spreads := by
    have added : (additions ++ [(.spread fragment : Addition κ)]).filterMap (·.spread?) =
        additions.filterMap (·.spread?) ++ [fragment] := List.filterMap_append
    have same : (plan.pushSpread fragment (fragments fragment)).spreads =
        (plan.addSpread fragment).spreads := rfl
    rw [same, added, Occurrences.eraseDups_concat, addSpread, accounts.spreads]
    by_cases there : fragment ∈ additions.filterMap (·.spread?)
    · simp [there, accounts.spreads]
    · simp [there]
  field? name := by
    have same : (plan.pushSpread fragment (fragments fragment)).spreads =
        (plan.addSpread fragment).spreads := rfl
    have added : (additions ++ [(.spread fragment : Addition κ)]).filterMap (·.field?) =
        additions.filterMap (·.field?) := by
      rw [List.filterMap_append]
      exact List.append_nil _
    have provided := map_name_ofSpread fragment (fragments fragment) ▸ distinct
    rw [same, added, provider?_addSpread, pushSpread_eq_absorb, field?_absorb plan provided,
      field?_ofSpread, accounts.field?]
    cases (fragments fragment).field? name with
    | none => rw [Option.map_none, Option.or_none]
    | some given =>
        cases provider? fragments plan.spreads name with
        | some first => rfl
        | none =>
            cases PlannedField.named? name (additions.filterMap (·.field?)) <;> rfl

/-- A plan that accounts for what was added does so after one more addition. -/
theorem Accounts.add {additions : List (Addition κ)} {plan : RecordPlanOf κ}
    (accounts : Accounts fragments additions plan) (addition : Addition κ)
    (distinct : ∀ fragment, addition = .spread fragment →
      ((fragments fragment).fields.map (·.name)).Nodup) :
    Accounts fragments (additions ++ [addition]) (plan.add fragments addition) := by
  cases addition with
  | field field => exact accounts.push field
  | spread fragment => exact accounts.pushSpread (distinct fragment rfl)

/-- Whatever is added to the empty plan, the plan accounts for it. -/
theorem ofAdditions_accounts (additions : List (Addition κ))
    (distinct : ∀ fragment, .spread fragment ∈ additions →
      ((fragments fragment).fields.map (·.name)).Nodup) :
    Accounts fragments additions (ofAdditions fragments additions) := by
  induction additions using List.reverseRecOn with
  | nil => exact .empty
  | append_singleton earlier addition ih =>
      rw [ofAdditions, List.foldl_concat]
      refine (ih fun fragment there => ?_).add addition fun fragment same => ?_
      · exact distinct fragment (List.mem_append_left _ there)
      · exact distinct fragment (same ▸ List.mem_append_right _ List.mem_cons_self)

/-! ### What a plan selects itself -/

/-- Where a plan accounts for what was added, a field is its own if it was selected and no fragment
has its name. -/
theorem Accounts.isOwn_eq {additions : List (Addition κ)} {plan : RecordPlanOf κ}
    (accounts : Accounts fragments additions plan) {field : PlannedField κ}
    (member : field ∈ plan.fields) :
    field.isOwn =
      ((PlannedField.named? field.name (additions.filterMap (·.field?))).isSome &&
        (provider? fragments plan.spreads field.name).isNone) := by
  have unique : (plan.fields.map (·.name)).Nodup :=
    accounts.names ▸ Occurrences.nodup_eraseDups _
  have found : plan.field? field.name = some field := PlannedField.named?_of_mem unique member
  rw [accounts.field?] at found
  cases provided : provider? fragments plan.spreads field.name with
  | some given =>
      rw [provided] at found
      obtain rfl := Option.some.inj found
      simp
  | none =>
      rw [provided] at found
      obtain ⟨first, selected, rfl⟩ := Option.map_eq_some_iff.mp found
      rw [selected]
      rfl

/-- Whatever fields and spreads are added to the empty plan, in any order, where the fields of each
fragment have distinct names: no name and no fragment repeats, and the names are those that were
added, in the order of their first addition; so are the fragments. Under a name stands what the first
fragment in this order has that has the name, whether the field was selected before, after or never;
if no fragment has it, the field that was selected first. The own fields are those that were selected
and that no fragment has. -/
theorem ofAdditions_merged (fragments : String → RecordPlanOf κ) (additions : List (Addition κ))
    (distinct : ∀ fragment, .spread fragment ∈ additions →
      ((fragments fragment).fields.map (·.name)).Nodup) :
    let plan := ofAdditions fragments additions
    let selected (name : String) := PlannedField.named? name (additions.filterMap (·.field?))
    let provided (name : String) := provider? fragments plan.spreads name
    (plan.fields.map (·.name)).Nodup ∧ plan.spreads.Nodup ∧
      plan.fields.map (·.name) = (additions.flatMap (·.names fragments)).eraseDups ∧
      plan.spreads = (additions.filterMap (·.spread?)).eraseDups ∧
      (∀ name, plan.field? name =
        ((provided name).map (·.withOrigin .spread)).or
          ((selected name).map (·.withOrigin .own))) ∧
      plan.ownFields = plan.fields.filter fun field =>
        (selected field.name).isSome && (provided field.name).isNone := by
  have accounts := ofAdditions_accounts additions distinct
  refine ⟨?_, ?_, accounts.names, accounts.spreads, accounts.field?, ?_⟩
  · rw [accounts.names]
    exact Occurrences.nodup_eraseDups _
  · rw [accounts.spreads]
    exact Occurrences.nodup_eraseDups _
  · exact List.filter_congr fun field member => accounts.isOwn_eq member

/-- A field that tells who selected it. -/
def selectedBy (who name : String) : PlannedField String := ⟨name, name, [], .own, who⟩

/-- Two fragments that share a name. -/
def sharingFragments : String → RecordPlanOf String
  | "F" => ⟨[selectedBy "F" "b", selectedBy "F" "a"], []⟩
  | "G" => ⟨[selectedBy "G" "c", selectedBy "G" "a"], []⟩
  | _ => {}

/-- Fields before, between and after the fragments, some of them twice. -/
def mixedAdditions : List (Addition String) :=
  [.field (selectedBy "first" "a"), .spread "F", .field (selectedBy "second" "b"),
    .field (selectedBy "third" "d"), .spread "G", .field (selectedBy "fourth" "c"),
    .field (selectedBy "fifth" "d"), .spread "F"]

theorem mixedAdditions_merged :
    let plan := ofAdditions sharingFragments mixedAdditions
    plan.fields.map (·.name) = ["a", "b", "d", "c"] ∧ plan.spreads = ["F", "G"] ∧
      plan.field? "a" = some ((selectedBy "F" "a").withOrigin .spread) ∧
      plan.field? "d" = some (selectedBy "third" "d") ∧ plan.field? "e" = none := by
  obtain ⟨_, _, names, spreads, fields, _⟩ :=
    ofAdditions_merged sharingFragments mixedAdditions fun fragment member => by
      have spread : fragment = "F" ∨ fragment = "G" := by
        simpa [mixedAdditions, or_comm, or_assoc] using member
      rcases spread with rfl | rfl <;> decide
  exact ⟨names, spreads, fields "a", fields "d", fields "e"⟩

end RecordPlanOf

end ElmClient
