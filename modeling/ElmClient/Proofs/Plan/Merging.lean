/-
Module: ElmClient.Proofs.Plan.Merging
Purpose: What a plan holds after selections were added to it. Pushing a field and pushing the spread
  of a fragment are both the absorption of a small plan, so one law about absorption says for every
  name which of several selections counts.
Main exports: PlannedField.merged, RecordPlanOf.field?_absorb, RecordPlanOf.push_eq_absorb,
  RecordPlanOf.pushSpread_eq_absorb, RecordPlanOf.MergedFrom, RecordPlanOf.MergedFrom.absorb,
  UnionPlanOf.mem_addVariant
-/
import ElmClient.Plan.Basic
import ElmClient.Proofs.Dictionary
import Mathlib.Data.List.Nodup

namespace ElmClient

variable {κ : Type}

namespace PlannedField

/-- The field as it stands in a set that it comes into in a given way. -/
def withOrigin (origin : Origin) (field : PlannedField κ) : PlannedField κ :=
  { field with origin := origin }

@[simp] theorem withOrigin_name (origin : Origin) (field : PlannedField κ) :
    (field.withOrigin origin).name = field.name := rfl

@[simp] theorem withOrigin_origin (origin : Origin) (field : PlannedField κ) :
    (field.withOrigin origin).origin = origin := rfl

@[simp] theorem isOwn_withOrigin_own (field : PlannedField κ) :
    (field.withOrigin .own).isOwn = true := rfl

@[simp] theorem isOwn_withOrigin_spread (field : PlannedField κ) :
    (field.withOrigin .spread).isOwn = false := rfl

theorem withOrigin_own_of_isOwn {field : PlannedField κ} (own : field.isOwn = true) :
    field.withOrigin .own = field := by
  obtain ⟨name, wire, layers, origin, kind⟩ := field
  cases origin with
  | own => rfl
  | spread => simp [isOwn] at own

theorem withOrigin_spread_of_not_isOwn {field : PlannedField κ} (spread : field.isOwn = false) :
    field.withOrigin .spread = field := by
  obtain ⟨name, wire, layers, origin, kind⟩ := field
  cases origin with
  | own => simp [isOwn] at spread
  | spread => rfl

/-- Which of two fields of one name counts: the earlier one, unless it was selected directly and
the later one comes from a fragment. -/
def merged (later : PlannedField κ) : Option (PlannedField κ) → PlannedField κ
  | none => later
  | some earlier => if earlier.isOwn && !later.isOwn then later else earlier

/-- The first field of a name. -/
def named? (name : String) (fields : List (PlannedField κ)) : Option (PlannedField κ) :=
  fields.find? (·.name == name)

theorem named?_cons_self (field : PlannedField κ) (rest : List (PlannedField κ)) :
    named? field.name (field :: rest) = some field := by
  simp [named?]

theorem named?_cons_of_ne {name : String} {field : PlannedField κ} (other : field.name ≠ name)
    (rest : List (PlannedField κ)) : named? name (field :: rest) = named? name rest := by
  simp [named?, other]

theorem mem_of_named? {name : String} {fields : List (PlannedField κ)} {field : PlannedField κ}
    (found : named? name fields = some field) : field ∈ fields :=
  List.mem_of_find?_eq_some found

theorem named?_eq_none {name : String} {fields : List (PlannedField κ)} :
    named? name fields = none ↔ name ∉ fields.map (·.name) := by
  simp [named?]

/-- Where names do not repeat, the field of a name is the only one. -/
theorem named?_of_mem {fields : List (PlannedField κ)} {field : PlannedField κ}
    (distinct : (fields.map (·.name)).Nodup) (member : field ∈ fields) :
    named? field.name fields = some field :=
  Dictionary.find?_of_mem distinct member

theorem named?_map_withOrigin (origin : Origin) (name : String) (fields : List (PlannedField κ)) :
    named? name (fields.map (withOrigin origin)) = (named? name fields).map (withOrigin origin) := by
  induction fields with
  | nil => rfl
  | cons first rest ih =>
      by_cases same : first.name = name
      · subst same
        rw [named?_cons_self, List.map_cons]
        exact named?_cons_self (first.withOrigin origin) _
      · rw [named?_cons_of_ne same, List.map_cons, ← ih]
        have still : (first.withOrigin origin).name ≠ name := same
        exact named?_cons_of_ne still _

/-- What fields have under their names is found by a look-up. -/
theorem lookup_map_name {β : Type} (held : PlannedField κ → β) (name : String)
    (fields : List (PlannedField κ)) :
    (fields.map fun field => (field.name, held field)).lookup name =
      (named? name fields).map held := by
  induction fields with
  | nil => rfl
  | cons first rest ih =>
      by_cases same : first.name = name
      · subst same
        rw [named?_cons_self, List.map_cons, List.lookup_cons_self]
        rfl
      · rw [named?_cons_of_ne same, List.map_cons, Dictionary.lookup_cons_of_ne (Ne.symm same), ih]

theorem named?_filter {fields : List (PlannedField κ)} (distinct : (fields.map (·.name)).Nodup)
    (keep : PlannedField κ → Bool) (name : String) :
    named? name (fields.filter keep) = (named? name fields).filter keep := by
  induction fields with
  | nil => rfl
  | cons first rest ih =>
      have fresh := List.nodup_cons.mp distinct
      by_cases same : first.name = name
      · subst same
        rw [named?_cons_self]
        cases kept : keep first with
        | true => simp [kept, named?_cons_self, Option.filter]
        | false =>
            have absent : named? first.name rest = none := named?_eq_none.mpr fresh.1
            simp [kept, ih fresh.2, absent, Option.filter]
      · cases kept : keep first with
        | true => simp [kept, named?_cons_of_ne same, ih fresh.2]
        | false => simp [kept, named?_cons_of_ne same, ih fresh.2]

/-! ### Absorbing one field -/

theorem hasName_iff {name : String} {fields : List (PlannedField κ)} :
    hasName name fields = true ↔ name ∈ fields.map (·.name) := by
  simp [hasName]

/-- A field that was selected directly is put at the end, unless its name is there. -/
theorem absorb_of_isOwn {field : PlannedField κ} (own : field.isOwn = true)
    (fields : List (PlannedField κ)) :
    absorb field fields =
      if field.name ∈ fields.map (·.name) then fields else fields ++ [field] := by
  have origin : field.origin = .own := by simpa [isOwn] using own
  have same : ({ field with origin := .own } : PlannedField κ) = field :=
    withOrigin_own_of_isOwn own
  simp only [absorb, origin, push, same, ← hasName_iff]

theorem absorb_of_not_isOwn {field : PlannedField κ} (spread : field.isOwn = false)
    (fields : List (PlannedField κ)) : absorb field fields = provide field fields := by
  have origin : field.origin = .spread := by
    cases from? : field.origin <;> simp [isOwn, from?] at spread ⊢
  rw [absorb, origin]

theorem provide_withOrigin (origin : Origin) (field : PlannedField κ)
    (fields : List (PlannedField κ)) :
    provide (field.withOrigin origin) fields = provide field fields := by
  induction fields with
  | nil => rfl
  | cons first rest ih => simp only [provide, withOrigin_name, ih]; rfl

/-- The names after a field was provided: the old ones, and its own if it was not among them. -/
theorem map_name_provide (field : PlannedField κ) (fields : List (PlannedField κ)) :
    (provide field fields).map (·.name) =
      if field.name ∈ fields.map (·.name) then fields.map (·.name)
      else fields.map (·.name) ++ [field.name] := by
  induction fields with
  | nil => simp [provide]
  | cons first rest ih =>
      by_cases same : first.name = field.name
      · have there : field.name ∈ (first :: rest).map (·.name) := by simp [same]
        rw [if_pos there]
        cases origin : first.origin <;> simp [provide, same, origin]
      · have there : field.name ∈ (first :: rest).map (·.name) ↔
            field.name ∈ rest.map (·.name) := by simp [Ne.symm same]
        by_cases later : field.name ∈ rest.map (·.name)
        · rw [if_pos later] at ih
          rw [if_pos (there.mpr later)]
          simp [provide, same, ih]
        · rw [if_neg later] at ih
          rw [if_neg (there.not.mpr later)]
          simp [provide, same, ih]

/-- The names after a field was absorbed: the old ones, and its own if it was not among them. -/
theorem map_name_absorb (field : PlannedField κ) (fields : List (PlannedField κ)) :
    (absorb field fields).map (·.name) =
      if field.name ∈ fields.map (·.name) then fields.map (·.name)
      else fields.map (·.name) ++ [field.name] := by
  cases own : field.isOwn with
  | false =>
      rw [absorb_of_not_isOwn own]
      exact map_name_provide field fields
  | true =>
      rw [absorb_of_isOwn own]
      split
      · rfl
      · rw [List.map_append, List.map_singleton]

theorem nodup_name_absorb {field : PlannedField κ} {fields : List (PlannedField κ)}
    (distinct : (fields.map (·.name)).Nodup) : ((absorb field fields).map (·.name)).Nodup := by
  rw [map_name_absorb]
  by_cases there : field.name ∈ fields.map (·.name)
  · rw [if_pos there]
    exact distinct
  · rw [if_neg there]
    simpa using distinct.concat there

theorem named?_provide_of_ne {name : String} {field : PlannedField κ} (other : field.name ≠ name)
    (fields : List (PlannedField κ)) : named? name (provide field fields) = named? name fields := by
  have apart : (field.withOrigin .spread).name ≠ name := other
  induction fields with
  | nil => exact named?_cons_of_ne apart []
  | cons first rest ih =>
      by_cases same : first.name = field.name
      · have skipped : first.name ≠ name := same ▸ other
        cases origin : first.origin with
        | own =>
            simp only [provide, same, beq_self_eq_true, if_true, origin]
            rw [named?_cons_of_ne skipped]
            exact named?_cons_of_ne apart rest
        | spread => simp only [provide, same, beq_self_eq_true, if_true, origin]
      · simp only [provide, beq_iff_eq, same, if_false]
        by_cases here : first.name = name
        · subst here
          rw [named?_cons_self, named?_cons_self]
        · rw [named?_cons_of_ne here, named?_cons_of_ne here, ih]

theorem named?_provide_self (field : PlannedField κ) (fields : List (PlannedField κ)) :
    named? field.name (provide field fields) =
      some (merged (field.withOrigin .spread) (named? field.name fields)) := by
  induction fields with
  | nil => exact named?_cons_self (field.withOrigin .spread) []
  | cons first rest ih =>
      by_cases same : first.name = field.name
      · rw [← same, named?_cons_self]
        cases origin : first.origin with
        | own =>
            simp only [provide, same, beq_self_eq_true, if_true, origin]
            have counts : merged (field.withOrigin .spread) (some first) =
                field.withOrigin .spread := by simp [merged, isOwn, origin]
            rw [counts]
            exact named?_cons_self (field.withOrigin .spread) rest
        | spread =>
            simp only [provide, same, beq_self_eq_true, if_true, origin]
            rw [← same, named?_cons_self]
            simp [merged, isOwn, origin]
      · simp only [provide, beq_iff_eq, same, if_false]
        rw [named?_cons_of_ne same, named?_cons_of_ne same, ih]

/-- Absorbing a field decides about its own name and leaves all others alone. -/
theorem named?_absorb (name : String) (field : PlannedField κ) (fields : List (PlannedField κ)) :
    named? name (absorb field fields) =
      if field.name = name then some (merged field (named? name fields))
      else named? name fields := by
  cases own : field.isOwn with
  | false =>
      rw [absorb_of_not_isOwn own]
      by_cases same : field.name = name
      · subst same
        rw [if_pos rfl, named?_provide_self, withOrigin_spread_of_not_isOwn own]
      · rw [if_neg same]
        exact named?_provide_of_ne same fields
  | true =>
      rw [absorb_of_isOwn own]
      by_cases same : field.name = name
      · subst same
        rw [if_pos rfl]
        split
        · next there =>
            cases found : named? field.name fields with
            | none => exact absurd there (named?_eq_none.mp found)
            | some held => simp [merged, own]
        · next absent =>
            have unnamed := named?_eq_none.mpr absent
            rw [unnamed, named?, List.find?_append, ← named?, unnamed, Option.none_or]
            exact named?_cons_self field []
      · rw [if_neg same]
        split
        · rfl
        · rw [named?, List.find?_append, ← named?, ← named?, named?_cons_of_ne same]
          exact Option.or_none

/-! ### Absorbing a list of fields -/

/-- Absorbing fields with distinct names decides about each of their names once. -/
theorem named?_foldl_absorb {later : List (PlannedField κ)}
    (distinct : (later.map (·.name)).Nodup) (name : String) (fields : List (PlannedField κ)) :
    named? name (later.foldl (fun fields field => field.absorb fields) fields) =
      match named? name later with
      | none => named? name fields
      | some field => some (merged field (named? name fields)) := by
  induction later generalizing fields with
  | nil => rfl
  | cons first rest ih =>
      have fresh := List.nodup_cons.mp distinct
      rw [List.foldl_cons, ih fresh.2, named?_absorb]
      by_cases same : first.name = name
      · subst same
        have absent : named? first.name rest = none := named?_eq_none.mpr fresh.1
        rw [absent, named?_cons_self, if_pos rfl]
      · rw [named?_cons_of_ne same, if_neg same]

theorem nodup_name_foldl_absorb (later : List (PlannedField κ)) {fields : List (PlannedField κ)}
    (distinct : (fields.map (·.name)).Nodup) :
    ((later.foldl (fun fields field => field.absorb fields) fields).map (·.name)).Nodup := by
  induction later generalizing fields with
  | nil => exact distinct
  | cons first rest ih => exact ih (nodup_name_absorb distinct)

/-- Absorbing a field brings in nothing but the field. -/
theorem mem_absorb {field held : PlannedField κ} {fields : List (PlannedField κ)}
    (member : held ∈ absorb field fields) : held ∈ fields ∨ held = field := by
  cases own : field.isOwn with
  | true =>
      rw [absorb_of_isOwn own] at member
      split at member
      · exact Or.inl member
      · exact (List.mem_append.mp member).imp_right List.mem_singleton.mp
  | false =>
      have same : ({ field with origin := .spread } : PlannedField κ) = field :=
        withOrigin_spread_of_not_isOwn own
      rw [absorb_of_not_isOwn own] at member
      induction fields with
      | nil =>
          rw [provide, same] at member
          exact Or.inr (List.mem_singleton.mp member)
      | cons first rest ih =>
          rw [provide, same] at member
          split at member
          · split at member
            · exact (List.mem_cons.mp member).symm.imp_left (List.mem_cons_of_mem _)
            · exact Or.inl member
          · rcases List.mem_cons.mp member with rfl | later
            · exact Or.inl List.mem_cons_self
            · exact (ih later).imp_left (List.mem_cons_of_mem _)

theorem mem_foldl_absorb {later fields : List (PlannedField κ)} {held : PlannedField κ}
    (member : held ∈ later.foldl (fun fields field => field.absorb fields) fields) :
    held ∈ fields ∨ held ∈ later := by
  induction later generalizing fields with
  | nil => exact Or.inl member
  | cons first rest ih =>
      rcases ih member with before | after
      · rcases mem_absorb before with old | rfl
        · exact Or.inl old
        · exact Or.inr List.mem_cons_self
      · exact Or.inr (List.mem_cons_of_mem _ after)

end PlannedField

namespace RecordPlanOf

theorem field?_eq_named? (plan : RecordPlanOf κ) (name : String) :
    plan.field? name = PlannedField.named? name plan.fields := rfl

/-! ### Absorbing a plan -/

theorem addSpread_fields (plan : RecordPlanOf κ) (fragment : String) :
    (plan.addSpread fragment).fields = plan.fields := by
  unfold addSpread
  split <;> rfl

theorem foldl_addSpread_fields (plan : RecordPlanOf κ) (fragments : List String) :
    (fragments.foldl addSpread plan).fields = plan.fields := by
  induction fragments generalizing plan with
  | nil => rfl
  | cons first rest ih => rw [List.foldl_cons, ih, addSpread_fields]

/-- The fragments that are new to a plan come after its own, in their order. -/
theorem foldl_addSpread_spreads (plan : RecordPlanOf κ) {fragments : List String}
    (distinct : fragments.Nodup) :
    (fragments.foldl addSpread plan).spreads =
      plan.spreads ++ fragments.filter fun fragment => !plan.spreads.contains fragment := by
  induction fragments generalizing plan with
  | nil => simp
  | cons first rest ih =>
      have fresh := List.nodup_cons.mp distinct
      rw [List.foldl_cons, ih (plan.addSpread first) fresh.2]
      by_cases there : first ∈ plan.spreads
      · simp [addSpread, there]
      · have added : (plan.addSpread first).spreads = plan.spreads ++ [first] := by
          simp [addSpread, there]
        have kept : rest.filter (fun fragment => !(plan.spreads ++ [first]).contains fragment) =
            rest.filter fun fragment => !plan.spreads.contains fragment := by
          apply List.filter_congr
          intro fragment member
          have other : fragment ≠ first := fun same => fresh.1 (same ▸ member)
          simp [other]
        rw [added, kept]
        simp [there]

theorem field?_absorb (plan : RecordPlanOf κ) {later : RecordPlanOf κ}
    (distinct : (later.fields.map (·.name)).Nodup) (name : String) :
    (plan.absorb later).field? name =
      match later.field? name with
      | none => plan.field? name
      | some field => some (PlannedField.merged field (plan.field? name)) := by
  have folded := PlannedField.named?_foldl_absorb distinct name plan.fields
  simpa only [absorb, field?_eq_named?, foldl_addSpread_fields] using folded

theorem absorb_spreads (plan : RecordPlanOf κ) {later : RecordPlanOf κ}
    (distinct : later.spreads.Nodup) :
    (plan.absorb later).spreads =
      plan.spreads ++ later.spreads.filter fun fragment => !plan.spreads.contains fragment := by
  simp only [absorb, foldl_addSpread_spreads plan distinct]

theorem nodup_name_absorb {plan : RecordPlanOf κ} (later : RecordPlanOf κ)
    (distinct : (plan.fields.map (·.name)).Nodup) :
    ((plan.absorb later).fields.map (·.name)).Nodup := by
  have start : ((later.spreads.foldl addSpread plan).fields.map (·.name)).Nodup := by
    rw [foldl_addSpread_fields]
    exact distinct
  exact PlannedField.nodup_name_foldl_absorb later.fields start

/-- Absorption brings in no fragment that neither of the plans names. -/
theorem mem_spreads_absorb {plan later : RecordPlanOf κ} {fragment : String}
    (member : fragment ∈ (plan.absorb later).spreads) :
    fragment ∈ plan.spreads ∨ fragment ∈ later.spreads := by
  have folded (fragments : List String) (plan : RecordPlanOf κ)
      (member : fragment ∈ (fragments.foldl addSpread plan).spreads) :
      fragment ∈ plan.spreads ∨ fragment ∈ fragments := by
    induction fragments generalizing plan with
    | nil => exact Or.inl member
    | cons first rest ih =>
        rcases ih (plan.addSpread first) member with old | new
        · unfold addSpread at old
          split at old
          · exact Or.inl old
          · exact (List.mem_append.mp old).imp_right fun here =>
              List.mem_cons.mpr (Or.inl (List.mem_singleton.mp here))
        · exact Or.inr (List.mem_cons_of_mem _ new)
  exact folded later.spreads plan member

/-- Absorption brings in no field that neither of the plans has. -/
theorem mem_absorb {plan later : RecordPlanOf κ} {field : PlannedField κ}
    (member : field ∈ (plan.absorb later).fields) :
    field ∈ plan.fields ∨ field ∈ later.fields := by
  have folded := PlannedField.mem_foldl_absorb member
  rwa [foldl_addSpread_fields] at folded

/-- A plan of a single field that is selected directly. -/
def ofField (field : PlannedField κ) : RecordPlanOf κ := ⟨[field.withOrigin .own], []⟩

/-- The plan of a set that only spreads a fragment. -/
def ofSpread (fragment : String) (spread : RecordPlanOf κ) : RecordPlanOf κ :=
  ⟨spread.fields.map (PlannedField.withOrigin .spread), [fragment]⟩

theorem push_eq_absorb (plan : RecordPlanOf κ) (field : PlannedField κ) :
    plan.push field = plan.absorb (ofField field) := rfl

theorem pushSpread_eq_absorb (plan : RecordPlanOf κ) (fragment : String)
    (spread : RecordPlanOf κ) :
    plan.pushSpread fragment spread = plan.absorb (ofSpread fragment spread) := by
  have step (fields : List (PlannedField κ)) (field : PlannedField κ) :
      (field.withOrigin .spread).absorb fields = field.provide fields :=
    PlannedField.provide_withOrigin .spread field fields
  simp only [pushSpread, absorb, ofSpread, List.foldl_cons, List.foldl_nil, List.foldl_map, step]

theorem mem_push {plan : RecordPlanOf κ} {field held : PlannedField κ}
    (member : held ∈ (plan.push field).fields) :
    held ∈ plan.fields ∨ held = field.withOrigin .own := by
  rw [push_eq_absorb] at member
  exact (mem_absorb member).imp_right List.mem_singleton.mp

theorem mem_pushSpread {plan spread : RecordPlanOf κ} {fragment : String} {held : PlannedField κ}
    (member : held ∈ (plan.pushSpread fragment spread).fields) :
    held ∈ plan.fields ∨ ∃ field ∈ spread.fields, held = field.withOrigin .spread := by
  rw [pushSpread_eq_absorb] at member
  apply (mem_absorb member).imp_right
  intro given
  obtain ⟨field, there, same⟩ := List.mem_map.mp given
  exact ⟨field, there, same.symm⟩

/-! ### Where the fields of fragments come from -/

/-- The field of a name in the first of some plans that has one. -/
def provided? (sources : List (String × RecordPlanOf κ)) (name : String) :
    Option (PlannedField κ) :=
  sources.findSome? fun source => source.2.field? name

/-- A plan whose fragments have the given plans: no name repeats, and the fields that come from
fragments are those of the first fragment that has one of the name. -/
structure MergedFrom (sources : List (String × RecordPlanOf κ)) (plan : RecordPlanOf κ) :
    Prop where
  spreads : plan.spreads = sources.map Prod.fst
  spreads_nodup : plan.spreads.Nodup
  names_nodup : (plan.fields.map (·.name)).Nodup
  provided (name : String) :
    (plan.field? name).filter (!·.isOwn) = (provided? sources name).map (·.withOrigin .spread)

/-- No fragment has a name that the plan lacks or selects itself only. -/
theorem MergedFrom.provided?_eq_none {sources : List (String × RecordPlanOf κ)}
    {plan : RecordPlanOf κ} (merged : MergedFrom sources plan) {name : String}
    (mine : ∀ field, plan.field? name = some field → field.isOwn = true) :
    provided? sources name = none := by
  have provided := merged.provided name
  cases found : plan.field? name with
  | none => simpa [found] using provided.symm
  | some field => simpa [found, Option.filter, mine field found] using provided.symm

/-- What the plan has of a name that it does not select itself is what the first fragment has. -/
theorem MergedFrom.exists_provided {sources : List (String × RecordPlanOf κ)}
    {plan : RecordPlanOf κ} (merged : MergedFrom sources plan) {name : String}
    {field : PlannedField κ} (found : plan.field? name = some field)
    (spread : field.isOwn = false) :
    ∃ given, provided? sources name = some given ∧ field = given.withOrigin .spread := by
  have provided := merged.provided name
  have same : some field = (provided? sources name).map (·.withOrigin .spread) := by
    simpa [found, Option.filter, spread] using provided
  obtain ⟨given, source, again⟩ := Option.map_eq_some_iff.mp same.symm
  exact ⟨given, source, again.symm⟩

/-- A field that a fragment provides is one of the plan of a fragment. -/
theorem MergedFrom.exists_source {sources : List (String × RecordPlanOf κ)}
    {plan : RecordPlanOf κ} (merged : MergedFrom sources plan) {field : PlannedField κ}
    (member : field ∈ plan.fields) (spread : field.isOwn = false) :
    ∃ source ∈ sources, ∃ held ∈ source.2.fields, field = held.withOrigin .spread := by
  have found : plan.field? field.name = some field :=
    PlannedField.named?_of_mem merged.names_nodup member
  obtain ⟨held, source?, same⟩ := merged.exists_provided found spread
  obtain ⟨source, there, here⟩ := List.exists_of_findSome?_eq_some source?
  exact ⟨source, there, held, PlannedField.mem_of_named? here, same⟩

/-- What the own fields of a plan and those that its fragments provide have under a name is what the
fields of the plan have, if it does not depend on where a field comes from. -/
theorem MergedFrom.map_field? {β : Type} {sources : List (String × RecordPlanOf κ)}
    {plan : RecordPlanOf κ} (merged : MergedFrom sources plan) {held : PlannedField κ → β}
    (blind : ∀ field, held (field.withOrigin .spread) = held field) (name : String) :
    (((plan.field? name).filter (·.isOwn)).map held).or
        (sources.findSome? fun source => (source.2.field? name).map held) =
      (plan.field? name).map held := by
  have spread : (sources.findSome? fun source => (source.2.field? name).map held) =
      (provided? sources name).map held := by
    rw [provided?, List.map_findSome?]
    rfl
  rw [spread]
  cases found : plan.field? name with
  | none =>
      have nowhere : provided? sources name = none :=
        merged.provided?_eq_none fun field there => nomatch found.symm.trans there
      rw [nowhere]
      rfl
  | some field =>
      cases own : field.isOwn with
      | true => simp [Option.filter, own]
      | false =>
          obtain ⟨given, source, rfl⟩ := merged.exists_provided found own
          rw [source]
          simp [Option.filter, blind]

theorem MergedFrom.empty : MergedFrom [] (⟨[], []⟩ : RecordPlanOf κ) where
  spreads := rfl
  spreads_nodup := List.nodup_nil
  names_nodup := List.nodup_nil
  provided _ := rfl

theorem MergedFrom.ofField (field : PlannedField κ) : MergedFrom [] (ofField field) where
  spreads := rfl
  spreads_nodup := List.nodup_nil
  names_nodup := List.nodup_singleton _
  provided name := by
    by_cases same : field.name = name <;> simp [field?, RecordPlanOf.ofField, provided?, same]

theorem MergedFrom.ofSpread (fragment : String) {spread : RecordPlanOf κ}
    (distinct : (spread.fields.map (·.name)).Nodup) :
    MergedFrom [(fragment, spread)] (ofSpread fragment spread) where
  spreads := rfl
  spreads_nodup := List.nodup_singleton _
  names_nodup := by
    have same : (spread.fields.map (PlannedField.withOrigin .spread)).map (·.name) =
        spread.fields.map (·.name) := by simp
    rw [RecordPlanOf.ofSpread, same]
    exact distinct
  provided name := by
    rw [field?_eq_named?, RecordPlanOf.ofSpread, PlannedField.named?_map_withOrigin]
    rw [← field?_eq_named?]
    cases found : spread.field? name <;> simp [provided?, found]

/-- The sources of an absorption: those of the earlier plan, and those of the later one that are
new to it. -/
def absorbedSources (earlier later : List (String × RecordPlanOf κ)) :
    List (String × RecordPlanOf κ) :=
  earlier ++ later.filter fun source => !(earlier.map Prod.fst).contains source.1

theorem mem_absorbedSources {earlier later : List (String × RecordPlanOf κ)}
    {source : String × RecordPlanOf κ} (member : source ∈ absorbedSources earlier later) :
    source ∈ earlier ∨ source ∈ later := by
  rcases List.mem_append.mp member with old | new
  · exact Or.inl old
  · exact Or.inr (List.mem_filter.mp new).1

theorem findSome?_congr {α β : Type} {f g : α → Option β} {items : List α}
    (same : ∀ item ∈ items, f item = g item) : items.findSome? f = items.findSome? g := by
  induction items with
  | nil => rfl
  | cons first rest ih =>
      have later := ih fun item member => same item (List.mem_cons_of_mem _ member)
      rw [List.findSome?_cons, List.findSome?_cons, same first List.mem_cons_self, later]

theorem findSome?_filter_eq {α β : Type} {f : α → Option β} {keep : α → Bool} {items : List α}
    (dropped : ∀ item ∈ items, keep item = false → f item = none) :
    (items.filter keep).findSome? f = items.findSome? f := by
  induction items with
  | nil => rfl
  | cons first rest ih =>
      have later := ih fun item member => dropped item (List.mem_cons_of_mem _ member)
      cases kept : keep first with
      | true => simp [kept, List.findSome?_cons, later]
      | false => simp [kept, later, dropped first List.mem_cons_self kept]

/-- The first provider among the sources of an absorption is the first one of the earlier plan, or
else of the later one. -/
theorem provided?_absorbedSources {earlier later : List (String × RecordPlanOf κ)}
    (agree : ∀ fragment first second, (fragment, first) ∈ earlier → (fragment, second) ∈ later →
      first = second) (name : String) :
    provided? (absorbedSources earlier later) name =
      (provided? earlier name).or (provided? later name) := by
  rw [provided?, absorbedSources, List.findSome?_append]
  cases held : provided? earlier name with
  | some field => rw [← provided?, held]; rfl
  | none =>
      rw [← provided?, held]
      refine findSome?_filter_eq ?_
      intro source member dropped
      -- A source that is dropped is an earlier one too, and no earlier one has the name.
      obtain ⟨fragment, plan⟩ := source
      have there : fragment ∈ earlier.map Prod.fst := by simpa using dropped
      obtain ⟨⟨_, first⟩, old, rfl⟩ := List.mem_map.mp there
      have same := agree _ first plan old member
      exact same ▸ List.findSome?_eq_none_iff.mp held _ old

/-- Absorption keeps the account of where the fields of fragments come from. -/
theorem MergedFrom.absorb {plan later : RecordPlanOf κ}
    {earlierSources laterSources : List (String × RecordPlanOf κ)}
    (earlier : MergedFrom earlierSources plan) (added : MergedFrom laterSources later)
    (agree : ∀ fragment first second, (fragment, first) ∈ earlierSources →
      (fragment, second) ∈ laterSources → first = second) :
    MergedFrom (absorbedSources earlierSources laterSources) (plan.absorb later) where
  spreads := by
    rw [absorb_spreads plan added.spreads_nodup, added.spreads, earlier.spreads, List.filter_map,
      absorbedSources, List.map_append]
    rfl
  spreads_nodup := by
    rw [absorb_spreads plan added.spreads_nodup]
    refine List.nodup_append.mpr ⟨earlier.spreads_nodup, added.spreads_nodup.filter _, ?_⟩
    intro first old second new same
    have absent := (List.mem_filter.mp new).2
    simp [← same, old] at absent
  names_nodup := nodup_name_absorb later earlier.names_nodup
  provided name := by
    rw [field?_absorb plan added.names_nodup, provided?_absorbedSources agree]
    cases new : later.field? name with
    | none =>
        have nowhere : provided? laterSources name = none :=
          added.provided?_eq_none fun field there => nomatch new.symm.trans there
        rw [nowhere, Option.or_none]
        exact earlier.provided name
    | some field =>
        cases own : field.isOwn with
        | true =>
            have nowhere : provided? laterSources name = none := by
              apply added.provided?_eq_none
              intro held there
              rwa [← Option.some.inj (new.symm.trans there)]
            rw [nowhere, Option.or_none, ← earlier.provided name]
            cases plan.field? name <;> simp [PlannedField.merged, Option.filter, own]
        | false =>
            obtain ⟨given, source, rfl⟩ := added.exists_provided new own
            by_cases mine : ∀ held, plan.field? name = some held → held.isOwn = true
            · -- The fragment takes the place of a field that was selected directly.
              rw [earlier.provided?_eq_none mine, source]
              cases old : plan.field? name with
              | none => rfl
              | some held => simp [PlannedField.merged, Option.filter, mine held old]
            · -- A field of an earlier fragment stays.
              push Not at mine
              obtain ⟨held, old, spread⟩ := mine
              obtain ⟨first, source', rfl⟩ := earlier.exists_provided old (by simpa using spread)
              rw [source', old]
              rfl

end RecordPlanOf

namespace UnionPlanOf

/-! ### Adding variants -/

/-- The members after a variant was added: the old ones, and its own if it was not among them. -/
theorem map_fst_addVariant (member : String) (plan : RecordPlanOf κ)
    (variants : List (String × RecordPlanOf κ)) :
    (addVariant member plan variants).map Prod.fst =
      if member ∈ variants.map Prod.fst then variants.map Prod.fst
      else variants.map Prod.fst ++ [member] := by
  induction variants with
  | nil => simp [addVariant]
  | cons first rest ih =>
      obtain ⟨name, earlier⟩ := first
      by_cases same : name = member
      · simp [addVariant, same]
      · have there : member ∈ ((name, earlier) :: rest).map Prod.fst ↔
            member ∈ rest.map Prod.fst := by simp [Ne.symm same]
        by_cases later : member ∈ rest.map Prod.fst
        · rw [if_pos later] at ih
          rw [if_pos (there.mpr later)]
          simp [addVariant, same, ih]
        · rw [if_neg later] at ih
          rw [if_neg (there.not.mpr later)]
          simp [addVariant, same, ih]

theorem nodup_fst_addVariant (member : String) (plan : RecordPlanOf κ)
    {variants : List (String × RecordPlanOf κ)} (distinct : (variants.map Prod.fst).Nodup) :
    ((addVariant member plan variants).map Prod.fst).Nodup := by
  rw [map_fst_addVariant]
  by_cases there : member ∈ variants.map Prod.fst
  · rw [if_pos there]
    exact distinct
  · rw [if_neg there]
    simpa using distinct.concat there

/-- A variant after an addition is an old one, the added one, or an old one of the same member that
absorbed the added one. -/
theorem mem_addVariant {member : String} {plan : RecordPlanOf κ}
    {variants : List (String × RecordPlanOf κ)} {entry : String × RecordPlanOf κ}
    (there : entry ∈ addVariant member plan variants) :
    entry ∈ variants ∨ entry = (member, plan) ∨
      ∃ earlier, (member, earlier) ∈ variants ∧ entry = (member, earlier.absorb plan) := by
  induction variants with
  | nil => exact Or.inr (Or.inl (List.mem_singleton.mp there))
  | cons first rest ih =>
      obtain ⟨name, earlier⟩ := first
      by_cases same : name = member
      · subst same
        simp only [addVariant, beq_self_eq_true, if_true] at there
        rcases List.mem_cons.mp there with here | later
        · exact Or.inr (Or.inr ⟨earlier, List.mem_cons_self, here⟩)
        · exact Or.inl (List.mem_cons_of_mem _ later)
      · simp only [addVariant, beq_iff_eq, same, if_false] at there
        rcases List.mem_cons.mp there with here | later
        · exact Or.inl (here ▸ List.mem_cons_self)
        · rcases ih later with old | new | ⟨held, old, merged⟩
          · exact Or.inl (List.mem_cons_of_mem _ old)
          · exact Or.inr (Or.inl new)
          · exact Or.inr (Or.inr ⟨held, List.mem_cons_of_mem _ old, merged⟩)

end UnionPlanOf

end ElmClient
