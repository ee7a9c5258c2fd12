/-
Module: ElmClient.Proofs.Plan.Concatenation
Purpose: Planning in pieces. A selection set that is planned goes on to have the same plan where more
  fragments can be expanded, and whatever plan it is added to, it adds what it plans by itself.
Main exports: Expansion.Within, planRecord_within, planUnion_within, BoundDocument.expansion_within,
  planRecord_distinct, BoundDocument.expansion_distinct, planRecord_absorb, planRecord_append
-/
import ElmClient.Proofs.Plan.Absorption
import ElmClient.Proofs.Plan.Derivation

namespace ElmClient

open GraphQL

/-! ### More can be planned with more expansions -/

/-- What one expansion plans, another plans in the same way. -/
structure Expansion.Within (one other : Expansion) : Prop where
  record {spread : Spread} {given : RecordPlan} :
    one.record spread = .ok given → other.record spread = .ok given
  union {union : String} {members : List String} {spread : Spread} {draft result : UnionDraft} :
    one.union union members spread draft = .ok result →
      other.union union members spread draft = .ok result

/-- A field is planned by whatever plans all that is planned below it. -/
theorem planField_within {schema : Schema} {on : String} {field : Field} {hasSelections : Bool}
    {asRecord asRecord' : String → Except GenerationError RecordPlan}
    {asUnion asUnion' : String → List String → Except GenerationError UnionPlan}
    {planned : FieldPlan}
    (record : ∀ type plan, asRecord type = .ok plan → asRecord' type = .ok plan)
    (union : ∀ type members plan, asUnion type members = .ok plan →
      asUnion' type members = .ok plan)
    (succeeded : planField schema on field hasSelections asRecord asUnion = .ok planned) :
    planField schema on field hasSelections asRecord' asUnion' = .ok planned := by
  obtain ⟨type, selected, after⟩ := Except.bind_eq_ok.mp succeeded
  refine Except.bind_eq_ok.mpr ⟨type, selected, ?_⟩
  cases body : schema.get? type.name with
  | none => simpa only [body] using after
  | some found =>
      cases found with
      | scalar | enum => simpa only [body] using after
      | object | interface | inputObject =>
          simp only [body] at after ⊢
          obtain ⟨kind, made, same⟩ := Except.bind_eq_ok.mp after
          obtain ⟨filled, recorded⟩ := Except.ite_error_eq_ok.mp made
          obtain ⟨plan, below, rfl⟩ := Except.map_eq_ok.mp recorded
          exact Except.bind_eq_ok.mpr ⟨_, Except.ite_error_eq_ok.mpr
            ⟨filled, Except.map_eq_ok.mpr ⟨plan, record _ _ below, rfl⟩⟩, same⟩
      | union members =>
          simp only [body] at after ⊢
          obtain ⟨kind, made, same⟩ := Except.bind_eq_ok.mp after
          obtain ⟨filled, united⟩ := Except.ite_error_eq_ok.mp made
          obtain ⟨plan, below, rfl⟩ := Except.map_eq_ok.mp united
          exact Except.bind_eq_ok.mpr ⟨_, Except.ite_error_eq_ok.mpr
            ⟨filled, Except.map_eq_ok.mpr ⟨plan, union _ _ _ below, rfl⟩⟩, same⟩

section Within

variable {schema : Schema} {one other : Expansion}

mutual

theorem planRecordItem_within (within : one.Within other) :
    ∀ {selection : Selection} {on plan result},
      planRecordItem schema one on selection plan = .ok result →
      planRecordItem schema other on selection plan = .ok result
  | .field field brace selections, on, plan, result, succeeded => by
      obtain ⟨planned, fieldPlanned, same⟩ := Except.bind_eq_ok.mp succeeded
      refine Except.bind_eq_ok.mpr ⟨planned, planField_within ?_ ?_ fieldPlanned, same⟩
      · exact fun type plan => planRecord_within within
      · intro union members plan united
        obtain ⟨draft, drafted, finished⟩ := Except.bind_eq_ok.mp united
        exact Except.bind_eq_ok.mpr ⟨draft, planUnion_within within drafted, finished⟩
  | .spread spread, on, plan, result, succeeded => by
      obtain ⟨given, expanded, same⟩ := Except.bind_eq_ok.mp succeeded
      exact Except.bind_eq_ok.mpr ⟨given, within.record expanded, same⟩
  | .inline inline brace selections, on, plan, result, succeeded => nomatch succeeded

/-- A selection set on an object keeps its plan when more fragments can be expanded. -/
theorem planRecord_within (within : one.Within other) :
    ∀ {selections : List Selection} {on plan result},
      planRecord schema one on selections plan = .ok result →
      planRecord schema other on selections plan = .ok result
  | [], on, plan, result, succeeded => succeeded
  | selection :: rest, on, plan, result, succeeded => by
      obtain ⟨next, first, later⟩ := Except.bind_eq_ok.mp succeeded
      exact Except.bind_eq_ok.mpr
        ⟨next, planRecordItem_within within first, planRecord_within within later⟩

theorem planUnionItem_within (within : one.Within other) :
    ∀ {selection : Selection} {union members draft result},
      planUnionItem schema one union members selection draft = .ok result →
      planUnionItem schema other union members selection draft = .ok result
  | .field field brace selections, union, members, draft, result, succeeded => succeeded
  | .spread spread, union, members, draft, result, succeeded => within.union succeeded
  | .inline inline brace selections, union, members, draft, result, succeeded => by
      cases conditioned : inline.condition with
      | none => simp [planUnionItem, conditioned] at succeeded
      | some condition =>
          simp only [planUnionItem, conditioned] at succeeded ⊢
          obtain ⟨done, member, checked⟩ := Except.bind_eq_ok.mp succeeded
          obtain ⟨on, about, typed⟩ := Except.bind_eq_ok.mp checked
          obtain ⟨variant, planned, same⟩ := Except.bind_eq_ok.mp typed
          exact Except.bind_eq_ok.mpr ⟨done, member, Except.bind_eq_ok.mpr
            ⟨on, about, Except.bind_eq_ok.mpr ⟨variant, planRecord_within within planned, same⟩⟩⟩

/-- A selection set on a union keeps its plan when more fragments can be expanded. -/
theorem planUnion_within (within : one.Within other) :
    ∀ {selections : List Selection} {union members draft result},
      planUnion schema one union members selections draft = .ok result →
      planUnion schema other union members selections draft = .ok result
  | [], union, members, draft, result, succeeded => succeeded
  | selection :: rest, union, members, draft, result, succeeded => by
      obtain ⟨next, first, later⟩ := Except.bind_eq_ok.mp succeeded
      exact Except.bind_eq_ok.mpr
        ⟨next, planUnionItem_within within first, planUnion_within within later⟩

end

end Within

namespace BoundDocument

variable {bound : BoundDocument}

theorem enterSpread_mono {active fewer entered : List String} {name : String}
    {position : Position} (fewer_active : fewer ⊆ active)
    (succeeded : enterSpread active name position = .ok entered) :
    enterSpread fewer name position = .ok (name :: fewer) ∧ entered = name :: active := by
  obtain ⟨fresh, same⟩ := enterSpread_eq_ok.mp succeeded
  exact ⟨enterSpread_eq_ok.mpr ⟨mt (@fewer_active name) fresh, rfl⟩, same⟩

theorem planSpread_within {active fewer : List String} {expansion more : List String → Expansion}
    (within : ∀ active fewer, fewer ⊆ active → (expansion active).Within (more fewer))
    (fewer_active : fewer ⊆ active) {spread : Spread} {given : RecordPlan}
    (succeeded : bound.planSpread active expansion spread = .ok given) :
    bound.planSpread fewer more spread = .ok given := by
  obtain ⟨fragment, found, entering⟩ := Except.bind_eq_ok.mp succeeded
  obtain ⟨entered, inside, typing⟩ := Except.bind_eq_ok.mp entering
  obtain ⟨on, about, planned⟩ := Except.bind_eq_ok.mp typing
  obtain ⟨inside', rfl⟩ := enterSpread_mono fewer_active inside
  have below := planRecord_within (within _ _ (List.cons_subset_cons _ fewer_active)) planned
  exact Except.bind_eq_ok.mpr ⟨fragment, found, Except.bind_eq_ok.mpr
    ⟨_, inside', Except.bind_eq_ok.mpr ⟨on, about, below⟩⟩⟩

/-- Fragments expand in the same way where fewer of them are being expanded and more depth is
left. -/
theorem expansion_within {depth more : Nat} (deeper : depth ≤ more) :
    ∀ active fewer, fewer ⊆ active →
      (bound.expansion depth active).Within (bound.expansion more fewer) := by
  induction depth generalizing more with
  | zero => exact fun _ _ _ => ⟨nofun, nofun⟩
  | succ depth ih =>
      intro active fewer fewer_active
      obtain ⟨more, rfl⟩ : ∃ less, more = less + 1 := ⟨more - 1, by omega⟩
      have within := ih (Nat.le_of_succ_le_succ deeper)
      refine ⟨planSpread_within within fewer_active, ?_⟩
      intro union members spread draft result succeeded
      obtain ⟨fragment, found, placing⟩ := Except.bind_eq_ok.mp succeeded
      refine Except.bind_eq_ok.mpr ⟨fragment, found, ?_⟩
      by_cases same : fragment.condition.type = union
      · simp only [same, beq_self_eq_true, if_true] at placing ⊢
        obtain ⟨entered, inside, merged⟩ := Except.bind_eq_ok.mp placing
        obtain ⟨inside', rfl⟩ := enterSpread_mono fewer_active inside
        exact Except.bind_eq_ok.mpr
          ⟨_, inside', planUnion_within (within _ _ (List.cons_subset_cons _ fewer_active)) merged⟩
      · simp only [beq_iff_eq, same, if_false] at placing ⊢
        obtain ⟨done, member, planning⟩ := Except.bind_eq_ok.mp placing
        obtain ⟨given, planned, finished⟩ := Except.bind_eq_ok.mp planning
        exact Except.bind_eq_ok.mpr ⟨done, member, Except.bind_eq_ok.mpr
          ⟨given, planSpread_within within fewer_active planned, finished⟩⟩

end BoundDocument

/-! ### Adding a selection set is absorbing its plan -/

/-- The plans that an expansion gives have no repetitions. -/
def Expansion.Distinct (expand : Expansion) : Prop :=
  ∀ {spread : Spread} {given : RecordPlan}, expand.record spread = .ok given → given.Distinct

section Absorb

variable {schema : Schema} {expand : Expansion} {on : String}

theorem planRecordItem_distinct {selection : Selection} {plan result : RecordPlan}
    (distinct : plan.Distinct)
    (succeeded : planRecordItem schema expand on selection plan = .ok result) :
    result.Distinct := by
  cases selection with
  | field field brace selections =>
      obtain ⟨planned, _, same⟩ := Except.bind_eq_ok.mp succeeded
      exact Except.pure_eq_ok.mp same ▸ distinct.push planned
  | spread spread =>
      obtain ⟨given, _, same⟩ := Except.bind_eq_ok.mp succeeded
      exact Except.pure_eq_ok.mp same ▸ distinct.pushSpread spread.fragment given
  | inline inline brace selections => exact nomatch succeeded

theorem planRecord_distinct {selections : List Selection} {plan result : RecordPlan}
    (distinct : plan.Distinct)
    (succeeded : planRecord schema expand on selections plan = .ok result) : result.Distinct := by
  induction selections generalizing plan with
  | nil => exact Except.ok.inj succeeded ▸ distinct
  | cons selection rest ih =>
      obtain ⟨next, first, later⟩ := Except.bind_eq_ok.mp succeeded
      exact ih (planRecordItem_distinct distinct first) later

/-- One selection adds the same to whatever was there. -/
theorem planRecordItem_absorb (expands : expand.Distinct) {selection : Selection}
    {earlier plan result : RecordPlan} (before : earlier.Distinct) (distinct : plan.Distinct)
    (succeeded : planRecordItem schema expand on selection plan = .ok result) :
    planRecordItem schema expand on selection (earlier.absorb plan) =
      .ok (earlier.absorb result) := by
  cases selection with
  | field field brace selections =>
      obtain ⟨planned, fieldPlanned, same⟩ := Except.bind_eq_ok.mp succeeded
      obtain rfl := Except.pure_eq_ok.mp same
      refine Except.bind_eq_ok.mpr ⟨planned, fieldPlanned, congrArg Except.ok ?_⟩
      rw [RecordPlanOf.push_eq_absorb, RecordPlanOf.push_eq_absorb]
      exact RecordPlanOf.absorb_assoc before distinct (.ofField planned)
  | spread spread =>
      obtain ⟨given, expanded, same⟩ := Except.bind_eq_ok.mp succeeded
      obtain rfl := Except.pure_eq_ok.mp same
      refine Except.bind_eq_ok.mpr ⟨given, expanded, congrArg Except.ok ?_⟩
      rw [RecordPlanOf.pushSpread_eq_absorb, RecordPlanOf.pushSpread_eq_absorb]
      exact RecordPlanOf.absorb_assoc before distinct (.ofSpread _ (expands expanded))
  | inline inline brace selections => exact nomatch succeeded

/-- A selection set adds the same to whatever was there. -/
theorem planRecord_absorb (expands : expand.Distinct) {selections : List Selection}
    {earlier plan result : RecordPlan} (before : earlier.Distinct) (distinct : plan.Distinct)
    (succeeded : planRecord schema expand on selections plan = .ok result) :
    planRecord schema expand on selections (earlier.absorb plan) = .ok (earlier.absorb result) := by
  induction selections generalizing plan with
  | nil => exact congrArg _ (congrArg _ (Except.ok.inj succeeded))
  | cons selection rest ih =>
      obtain ⟨next, first, later⟩ := Except.bind_eq_ok.mp succeeded
      exact Except.bind_eq_ok.mpr ⟨_, planRecordItem_absorb expands before distinct first,
        ih (planRecordItem_distinct distinct first) later⟩

/-- Selections in a row are planned one after the other. -/
theorem planRecord_append (selections more : List Selection) (plan : RecordPlan) :
    planRecord schema expand on (selections ++ more) plan =
      planRecord schema expand on selections plan >>= planRecord schema expand on more := by
  induction selections generalizing plan with
  | nil => rfl
  | cons selection rest ih =>
      rw [List.cons_append, planRecord, planRecord]
      cases planRecordItem schema expand on selection plan with
      | error cause => rfl
      | ok next => exact ih next

end Absorb

theorem BoundDocument.expansion_distinct (bound : BoundDocument) (depth : Nat)
    (active : List String) : (bound.expansion depth active).Distinct := by
  intro spread given expanded
  cases depth with
  | zero => exact nomatch expanded
  | succ depth =>
      obtain ⟨fragment, _, entering⟩ := Except.bind_eq_ok.mp expanded
      obtain ⟨entered, _, typing⟩ := Except.bind_eq_ok.mp entering
      obtain ⟨on, _, planned⟩ := Except.bind_eq_ok.mp typing
      exact planRecord_distinct .empty planned

end ElmClient
