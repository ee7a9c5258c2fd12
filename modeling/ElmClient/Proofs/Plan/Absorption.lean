/-
Module: ElmClient.Proofs.Plan.Absorption
Purpose: Plans under absorption. Where neither names nor fragments repeat, the empty plan takes in a
  plan as it is, and absorption does not depend on how several plans are grouped. So what was
  planned in pieces can be put together in any grouping, and the names stand in the order of the
  pieces.
Main exports: RecordPlanOf.map_name_absorb, RecordPlanOf.spreads_absorb, RecordPlanOf.Distinct,
  RecordPlanOf.Distinct.ext, RecordPlanOf.Distinct.absorb, RecordPlanOf.empty_absorb,
  RecordPlanOf.absorb_assoc
-/
import ElmClient.Proofs.Occurrences
import ElmClient.Proofs.Plan.Merging

namespace ElmClient

namespace PlannedField

variable {κ : Type}

/-- Of three fields of one name, the same one counts in either grouping. -/
theorem merged_merged (first : Option (PlannedField κ)) (second third : PlannedField κ) :
    merged third (some (merged second first)) = merged (merged third (some second)) first := by
  cases first with
  | none => rfl
  | some first =>
      cases one : first.isOwn <;> cases two : second.isOwn <;> cases three : third.isOwn <;>
        simp [merged, one, two, three]

/-- Fields with the same names in the same order, none of them twice, that are found alike are the
same. -/
theorem eq_of_named? {fields others : List (PlannedField κ)}
    (distinct : (fields.map (·.name)).Nodup) (names : fields.map (·.name) = others.map (·.name))
    (found : ∀ name, named? name fields = named? name others) : fields = others := by
  induction fields generalizing others with
  | nil => exact (List.map_eq_nil_iff.mp names.symm).symm
  | cons first rest ih =>
      obtain _ | ⟨other, more⟩ := others
      · exact nomatch names
      obtain ⟨named, later⟩ : first.name = other.name ∧ rest.map (·.name) = more.map (·.name) :=
        List.cons.inj names
      obtain ⟨fresh, distinct'⟩ := List.nodup_cons.mp distinct
      have here := found first.name
      rw [named?_cons_self, named, named?_cons_self] at here
      obtain rfl := Option.some.inj here
      refine congrArg _ (ih distinct' later fun name => ?_)
      by_cases same : first.name = name
      · rw [← same, named?_eq_none.mpr fresh, named?_eq_none.mpr (later ▸ fresh)]
      · rw [← named?_cons_of_ne same, found, named?_cons_of_ne same]

end PlannedField

namespace RecordPlanOf

variable {κ : Type} {plan later : RecordPlanOf κ}

theorem map_name_ofSpread (fragment : String) (spread : RecordPlanOf κ) :
    (ofSpread fragment spread).fields.map (·.name) = spread.fields.map (·.name) := by
  rw [ofSpread, List.map_map]
  rfl

theorem field?_ofSpread (fragment : String) (spread : RecordPlanOf κ) (name : String) :
    (ofSpread fragment spread).field? name =
      (spread.field? name).map (PlannedField.withOrigin .spread) :=
  PlannedField.named?_map_withOrigin .spread name spread.fields

/-! ### Names in the order of their first addition -/

/-- The names after fields were absorbed, each unless it was there. -/
theorem map_name_foldl_absorb {later fields : List (PlannedField κ)} {names : List String}
    (held : fields.map (·.name) = names.eraseDups) :
    (later.foldl (fun fields field => field.absorb fields) fields).map (·.name) =
      (names ++ later.map (·.name)).eraseDups := by
  induction later generalizing fields names with
  | nil => rw [List.foldl_nil, held, List.map_nil, List.append_nil]
  | cons first rest ih =>
      have absorbed : (first.absorb fields).map (·.name) = (names ++ [first.name]).eraseDups := by
        rw [PlannedField.map_name_absorb, held, Occurrences.eraseDups_concat]
        simp only [List.mem_eraseDups]
      rw [List.foldl_cons, ih absorbed, List.map_cons, List.append_assoc, List.singleton_append]

theorem map_name_absorb {plan : RecordPlanOf κ} {names : List String}
    (held : plan.fields.map (·.name) = names.eraseDups) (later : RecordPlanOf κ) :
    (plan.absorb later).fields.map (·.name) =
      (names ++ later.fields.map (·.name)).eraseDups := by
  refine map_name_foldl_absorb ?_
  rw [foldl_addSpread_fields, held]

theorem mem_names_absorb {name : String} :
    name ∈ (plan.absorb later).fields.map (·.name) ↔
      name ∈ plan.fields.map (·.name) ∨ name ∈ later.fields.map (·.name) := by
  have folded (more fields : List (PlannedField κ)) :
      name ∈ (more.foldl (fun fields field => field.absorb fields) fields).map (·.name) ↔
        name ∈ fields.map (·.name) ∨ name ∈ more.map (·.name) := by
    induction more generalizing fields with
    | nil => simp
    | cons first rest ih =>
        have here : name ∈ (first.absorb fields).map (·.name) ↔
            name ∈ fields.map (·.name) ∨ name = first.name := by
          rw [PlannedField.map_name_absorb]
          split
          · next there =>
              exact ⟨Or.inl, fun either => either.elim id fun same => same ▸ there⟩
          · simp
        rw [List.foldl_cons, ih, here, List.map_cons, List.mem_cons, or_assoc]
  rw [absorb, folded, foldl_addSpread_fields]

theorem mem_names_push {name : String} {field : PlannedField κ} :
    name ∈ (plan.push field).fields.map (·.name) ↔
      name ∈ plan.fields.map (·.name) ∨ name = field.name := by
  rw [push_eq_absorb, mem_names_absorb]
  exact or_congr_right List.mem_singleton

theorem mem_names_pushSpread {name fragment : String} {spread : RecordPlanOf κ} :
    name ∈ (plan.pushSpread fragment spread).fields.map (·.name) ↔
      name ∈ plan.fields.map (·.name) ∨ name ∈ spread.fields.map (·.name) := by
  rw [pushSpread_eq_absorb, mem_names_absorb, map_name_ofSpread]

/-- The fragments after fragments were named, each unless it was there. -/
theorem spreads_foldl_addSpread (distinct : plan.spreads.Nodup) (fragments : List String) :
    (fragments.foldl addSpread plan).spreads = (plan.spreads ++ fragments).eraseDups := by
  induction fragments using List.reverseRecOn with
  | nil =>
      rw [List.foldl_nil, List.append_nil]
      exact (Occurrences.eraseDups_of_nodup distinct).symm
  | append_singleton earlier fragment ih =>
      rw [List.foldl_concat, addSpread, ih, ← List.append_assoc, Occurrences.eraseDups_concat]
      by_cases there : fragment ∈ plan.spreads ++ earlier
      · simp only [List.contains_iff_mem, List.mem_eraseDups, there, if_true, ih]
      · simp only [List.contains_iff_mem, List.mem_eraseDups, there, if_false]

theorem spreads_absorb (distinct : plan.spreads.Nodup) (later : RecordPlanOf κ) :
    (plan.absorb later).spreads = (plan.spreads ++ later.spreads).eraseDups :=
  spreads_foldl_addSpread distinct later.spreads

/-! ### Plans without repetitions -/

/-- A plan in which no name and no fragment repeats. -/
structure Distinct (plan : RecordPlanOf κ) : Prop where
  names : (plan.fields.map (·.name)).Nodup
  spreads : plan.spreads.Nodup

namespace Distinct

theorem empty : Distinct (⟨[], []⟩ : RecordPlanOf κ) := ⟨List.nodup_nil, List.nodup_nil⟩

theorem ofField (field : PlannedField κ) : (ofField field).Distinct :=
  ⟨List.nodup_singleton _, List.nodup_nil⟩

theorem ofSpread (fragment : String) {spread : RecordPlanOf κ} (distinct : spread.Distinct) :
    (ofSpread fragment spread).Distinct where
  names := map_name_ofSpread fragment spread ▸ distinct.names
  spreads := List.nodup_singleton _

theorem absorb (distinct : plan.Distinct) (later : RecordPlanOf κ) :
    (plan.absorb later).Distinct where
  names := nodup_name_absorb later distinct.names
  spreads := spreads_absorb distinct.spreads later ▸ Occurrences.nodup_eraseDups _

theorem push (distinct : plan.Distinct) (field : PlannedField κ) : (plan.push field).Distinct :=
  push_eq_absorb plan field ▸ distinct.absorb _

theorem pushSpread (distinct : plan.Distinct) (fragment : String) (spread : RecordPlanOf κ) :
    (plan.pushSpread fragment spread).Distinct :=
  pushSpread_eq_absorb plan fragment spread ▸ distinct.absorb _

theorem names_eraseDups (distinct : plan.Distinct) :
    plan.fields.map (·.name) = (plan.fields.map (·.name)).eraseDups :=
  (Occurrences.eraseDups_of_nodup distinct.names).symm

/-- The order of the names, what is found under them and the fragments make a plan. -/
theorem ext (distinct : plan.Distinct)
    (names : plan.fields.map (·.name) = later.fields.map (·.name))
    (found : ∀ name, plan.field? name = later.field? name)
    (spreads : plan.spreads = later.spreads) : plan = later := by
  have fields := PlannedField.eq_of_named? distinct.names names found
  obtain ⟨_, _⟩ := plan
  obtain ⟨_, _⟩ := later
  rw [RecordPlanOf.mk.injEq]
  exact ⟨fields, spreads⟩

end Distinct

/-! ### The laws of absorption -/

/-- The empty plan takes in a plan as it is. -/
theorem empty_absorb (distinct : plan.Distinct) :
    (⟨[], []⟩ : RecordPlanOf κ).absorb plan = plan := by
  refine (Distinct.empty.absorb plan).ext ?_ (fun name => ?_) ?_
  · rw [map_name_absorb Distinct.empty.names_eraseDups]
    exact distinct.names_eraseDups.symm
  · rw [field?_absorb _ distinct.names]
    cases plan.field? name <;> rfl
  · rw [spreads_absorb Distinct.empty.spreads]
    exact Occurrences.eraseDups_of_nodup distinct.spreads

/-- It does not matter which of three plans are put together first. -/
theorem absorb_assoc {last : RecordPlanOf κ} (first : plan.Distinct) (second : later.Distinct)
    (third : last.Distinct) :
    (plan.absorb later).absorb last = plan.absorb (later.absorb last) := by
  refine ((first.absorb later).absorb last).ext ?_ (fun name => ?_) ?_
  · rw [map_name_absorb (map_name_absorb first.names_eraseDups later),
      map_name_absorb first.names_eraseDups, map_name_absorb second.names_eraseDups,
      Occurrences.eraseDups_append_eraseDups, List.append_assoc]
  · rw [field?_absorb _ third.names, field?_absorb plan second.names,
      field?_absorb plan (second.absorb last).names, field?_absorb later third.names]
    cases last.field? name with
    | none => rfl
    | some field =>
        cases later.field? name with
        | none => rfl
        | some held => exact congrArg some (PlannedField.merged_merged (plan.field? name) held field)
  · rw [spreads_absorb (first.absorb later).spreads, spreads_absorb first.spreads,
      spreads_absorb first.spreads, spreads_absorb second.spreads,
      Occurrences.eraseDups_eraseDups_append, Occurrences.eraseDups_append_eraseDups,
      List.append_assoc]

end RecordPlanOf

end ElmClient
