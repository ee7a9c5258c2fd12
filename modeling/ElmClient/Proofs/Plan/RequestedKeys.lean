/-
Module: ElmClient.Proofs.Plan.RequestedKeys
Purpose: The keys that a plan reads, compared with those that its selections request. A plan has one
  field for each Elm name, so it reads a key of every Elm name that is requested, and it reads all
  keys that are requested just if no two of them have one Elm name.
Main exports: Name.safe_safe, Name.eq_of_safe_eq_safe, BoundDocument.Requests,
  BoundDocument.MemberParts.requests, RecordPlanned.requested, RecordPlan.Answers,
  BoundDocument.Plans, BoundDocument.plans_reads_iff
-/
import ElmClient.Proofs.Generation.Presence
import ElmClient.Proofs.Plan.Members

namespace ElmClient

open GraphQL

/-! ### Names that are changed to the same name -/

namespace Name

/-- The names that are not left as they are. -/
def renamed : List String := "__typename" :: reserved

theorem safe_of_notMem {name : String} (kept : name ∉ renamed) : safe name = name := by
  obtain ⟨other, free⟩ := not_or.mp (mt List.mem_cons.mpr kept)
  rw [safe, if_neg (by simpa using other), if_neg (by simpa using free)]

/-- A changed name is not changed again. -/
theorem safe_safe (name : String) : safe (safe name) = safe name := by
  by_cases changed : name ∈ renamed
  · have each : ∀ name ∈ renamed, safe (safe name) = safe name := by decide +kernel
    exact each name changed
  · rw [safe_of_notMem changed, safe_of_notMem changed]

/-- Of two names that are changed to the same one, one is that one. -/
theorem eq_of_safe_eq_safe {one other : String} (same : safe one = safe other) :
    one = other ∨ safe one = other ∨ safe other = one := by
  by_cases changed : one ∈ renamed
  · by_cases changed' : other ∈ renamed
    · have each : ∀ one ∈ renamed, ∀ other ∈ renamed, safe one = safe other → one = other := by
        decide +kernel
      exact Or.inl (each one changed other changed' same)
    · exact Or.inr (Or.inl (same.trans (safe_of_notMem changed')))
  · exact Or.inr (Or.inr (same.symm.trans (safe_of_notMem changed)))

end Name

/-! ### Keys that are requested -/

/-- A key that is requested of a plan: that of a field that is contributed to it. -/
def BoundDocument.Requests (bound : BoundDocument) (source : PlanSource) (key : String) : Prop :=
  ∃ parent field below way,
    bound.Contributes source parent field below way ∧ field.responseKey = key

namespace BoundDocument

variable {bound : BoundDocument} {on union name key : String} {selection : Selection}
  {selections rest more : List Selection}

theorem Requests.mono (requests : bound.Requests (.set on selections) key)
    (within : selections ⊆ more) : bound.Requests (.set on more) key := by
  obtain ⟨_, _, _, _, contributes, keyed⟩ := requests
  exact ⟨_, _, _, _, contributes.mono within, keyed⟩

theorem not_requests_nil : ¬ bound.Requests (.set on []) key := by
  rintro ⟨_, _, _, _, contributes, _⟩
  cases contributes with
  | field member | spread member => exact absurd member List.not_mem_nil

/-- What selections request, the first one requests or the others do. -/
theorem Requests.of_cons (requests : bound.Requests (.set on (selection :: rest)) key) :
    bound.Requests (.set on [selection]) key ∨ bound.Requests (.set on rest) key := by
  obtain ⟨_, _, _, _, contributes, keyed⟩ := requests
  cases contributes with
  | field member =>
      rcases List.mem_cons.mp member with rfl | later
      · exact Or.inl ⟨_, _, _, _, .field List.mem_cons_self, keyed⟩
      · exact Or.inr ⟨_, _, _, _, .field later, keyed⟩
  | spread member found inside =>
      rcases List.mem_cons.mp member with rfl | later
      · exact Or.inl ⟨_, _, _, _, .spread List.mem_cons_self found inside, keyed⟩
      · exact Or.inr ⟨_, _, _, _, .spread later found inside, keyed⟩

theorem Requests.of_field {field : Field} {brace : Position} {below : List Selection}
    (requests : bound.Requests (.set on [.field field brace below]) key) :
    field.responseKey = key := by
  obtain ⟨_, _, _, _, contributes, keyed⟩ := requests
  cases contributes with
  | field member =>
      obtain ⟨rfl, _, _⟩ := Selection.field.inj (List.mem_singleton.mp member)
      exact keyed
  | spread member => exact nomatch List.mem_singleton.mp member

theorem Requests.of_spread {spread : Spread} {fragment : Fragment}
    (found : bound.fragment? spread.fragment = some fragment)
    (requests : bound.Requests (.set on [.spread spread]) key) :
    bound.Requests (.set fragment.condition.type fragment.selections) key := by
  obtain ⟨_, _, _, _, contributes, keyed⟩ := requests
  cases contributes with
  | field member => exact nomatch List.mem_singleton.mp member
  | spread member found' inside =>
      obtain rfl := Selection.spread.inj (List.mem_singleton.mp member)
      obtain rfl := Option.some.inj (found.symm.trans found')
      exact ⟨_, _, _, _, inside, keyed⟩

/-- What selections on a union request on a member, the first one requests or the others do. -/
theorem Requests.of_member_cons
    (requests : bound.Requests (.member union (selection :: rest) name) key) :
    bound.Requests (.member union [selection] name) key ∨
      bound.Requests (.member union rest name) key := by
  obtain ⟨_, _, _, _, contributes, keyed⟩ := requests
  cases contributes with
  | inline member conditioned inside =>
      rcases List.mem_cons.mp member with rfl | later
      · exact Or.inl ⟨_, _, _, _, .inline List.mem_cons_self conditioned inside, keyed⟩
      · exact Or.inr ⟨_, _, _, _, .inline later conditioned inside, keyed⟩
  | fragment member found other inside =>
      rcases List.mem_cons.mp member with rfl | later
      · exact Or.inl ⟨_, _, _, _, .fragment List.mem_cons_self found other inside, keyed⟩
      · exact Or.inr ⟨_, _, _, _, .fragment later found other inside, keyed⟩
  | merge member found same inside =>
      rcases List.mem_cons.mp member with rfl | later
      · exact Or.inl ⟨_, _, _, _, .merge List.mem_cons_self found same inside, keyed⟩
      · exact Or.inr ⟨_, _, _, _, .merge later found same inside, keyed⟩

theorem not_requests_member_nil : ¬ bound.Requests (.member union [] name) key := by
  rintro ⟨_, _, _, _, contributes, _⟩
  cases contributes with
  | inline member | fragment member | merge member => exact absurd member List.not_mem_nil

/-- A field of a union requests nothing on a member. -/
theorem not_requests_member_field {field : Field} {brace : Position} {below : List Selection} :
    ¬ bound.Requests (.member union [.field field brace below] name) key := by
  rintro ⟨_, _, _, _, contributes, _⟩
  cases contributes with
  | inline member | fragment member | merge member => exact nomatch List.mem_singleton.mp member

/-- An inline fragment requests on its member what its selections request. -/
theorem Requests.of_member_inline {inline : InlineFragment} {brace : Position}
    {condition : TypeCondition} (conditioned : inline.condition = some condition)
    (requests : bound.Requests (.member union [.inline inline brace selections] name) key) :
    condition.type = name ∧ bound.Requests (.set name selections) key := by
  obtain ⟨_, _, _, _, contributes, keyed⟩ := requests
  cases contributes with
  | inline member conditioned' inside =>
      obtain ⟨rfl, _, rfl⟩ := Selection.inline.inj (List.mem_singleton.mp member)
      obtain rfl := Option.some.inj (conditioned.symm.trans conditioned')
      exact ⟨rfl, _, _, _, _, inside, keyed⟩
  | fragment member | merge member => exact nomatch List.mem_singleton.mp member

/-- A spread of a fragment requests what the fragment requests: on its member, or, if the fragment is
about the union itself, on any member. -/
theorem Requests.of_member_spread {spread : Spread} {fragment : Fragment}
    (found : bound.fragment? spread.fragment = some fragment)
    (requests : bound.Requests (.member union [.spread spread] name) key) :
    (fragment.condition.type ≠ union ∧ fragment.condition.type = name ∧
        bound.Requests (.set name [.spread spread]) key) ∨
      (fragment.condition.type = union ∧
        bound.Requests (.member union fragment.selections name) key) := by
  obtain ⟨_, _, _, _, contributes, keyed⟩ := requests
  cases contributes with
  | inline member => exact nomatch List.mem_singleton.mp member
  | fragment member found' other inside =>
      obtain rfl := Selection.spread.inj (List.mem_singleton.mp member)
      obtain rfl := Option.some.inj (found.symm.trans found')
      exact Or.inl ⟨other, rfl, _, _, _, _, .spread List.mem_cons_self found inside, keyed⟩
  | merge member found' same inside =>
      obtain rfl := Selection.spread.inj (List.mem_singleton.mp member)
      obtain rfl := Option.some.inj (found.symm.trans found')
      exact Or.inr ⟨same, _, _, _, _, inside, keyed⟩

theorem selectionsOn_subset_cons (part : String × List Selection)
    (parts : List (String × List Selection)) :
    selectionsOn name parts ⊆ selectionsOn name (part :: parts) := by
  rw [← List.singleton_append, selectionsOn_append]
  exact List.subset_append_right _ _

/-- What is requested on a member, the parts on it in a row request. -/
theorem MemberParts.requests {parts : List (String × List Selection)}
    (divided : bound.MemberParts union selections parts) :
    bound.Requests (.member union selections name) key →
      bound.Requests (.set name (selectionsOn name parts)) key := by
  induction divided with
  | nil => exact fun requests => absurd requests not_requests_member_nil
  | field _ ih =>
      intro requests
      exact ih (requests.of_member_cons.resolve_left not_requests_member_field)
  | inline conditioned _ ih =>
      intro requests
      rcases requests.of_member_cons with here | later
      · obtain ⟨rfl, requests'⟩ := here.of_member_inline conditioned
        rw [selectionsOn_cons_self]
        exact requests'.mono (List.subset_append_left _ _)
      · exact (ih later).mono (selectionsOn_subset_cons _ _)
  | member found other _ ih =>
      intro requests
      rcases requests.of_member_cons with here | later
      · obtain ⟨_, rfl, requests'⟩ | ⟨same, _⟩ := here.of_member_spread found
        · rw [selectionsOn_cons_self]
          exact requests'.mono (List.subset_append_left _ _)
        · exact absurd same other
      · exact (ih later).mono (selectionsOn_subset_cons _ _)
  | merge found same _ _ inside ih =>
      intro requests
      rw [selectionsOn_append]
      rcases requests.of_member_cons with here | later
      · obtain ⟨other, _⟩ | ⟨_, requests'⟩ := here.of_member_spread found
        · exact absurd same other
        · exact (inside requests').mono (List.subset_append_left _ _)
      · exact (ih later).mono (List.subset_append_right _ _)

end BoundDocument

/-! ### Plans of a derivation -/

section Derivation

variable {bound : BoundDocument}

/-- No name is lost while selections are added. -/
theorem RecordPlanned.names_mono :
    ∀ {active on selections plan result}, RecordPlanned bound active on selections plan result →
      plan.fields.map (·.name) ⊆ result.fields.map (·.name)
  | _, _, _, _, _, .nil => List.Subset.refl _
  | _, _, _, _, _, .field _ _ after => fun _ there =>
      after.names_mono (RecordPlanOf.mem_names_push.mpr (Or.inl there))
  | _, _, _, _, _, .spread _ _ _ after => fun _ there =>
      after.names_mono (RecordPlanOf.mem_names_pushSpread.mpr (Or.inl there))

/-- Every key that is requested has a field under its Elm name. -/
theorem RecordPlanned.requested :
    ∀ {active on selections plan result}, RecordPlanned bound active on selections plan result →
      ∀ {key}, bound.Requests (.set on selections) key →
        Name.safe key ∈ result.fields.map (·.name)
  | _, _, _, _, _, .nil, _, requests => absurd requests BoundDocument.not_requests_nil
  | _, _, _, _, _, .field _ _ after, _, requests => by
      rcases requests.of_cons with here | later
      · obtain rfl := here.of_field
        exact after.names_mono (RecordPlanOf.mem_names_push.mpr (Or.inr rfl))
      · exact after.requested later
  | _, _, _, _, _, .spread entered _ expanded after, _, requests => by
      rcases requests.of_cons with here | later
      · have given := expanded.requested (here.of_spread entered.1)
        exact after.names_mono (RecordPlanOf.mem_names_pushSpread.mpr (Or.inr given))
      · exact after.requested later

/-- A plan whose fields have the Elm names of their keys. -/
def RecordPlan.NamedByKey (plan : RecordPlan) : Prop :=
  ∀ field ∈ plan.fields, field.name = Name.safe field.wire

/-- Selections add fields that have the Elm names of their keys. -/
theorem RecordPlanned.namedByKey :
    ∀ {active on selections plan result}, RecordPlanned bound active on selections plan result →
      plan.NamedByKey → result.NamedByKey
  | _, _, _, _, _, .nil, named => named
  | _, _, _, _, _, .field _ _ after, named => by
      refine after.namedByKey fun held member => ?_
      rcases RecordPlanOf.mem_push member with old | rfl
      · exact named held old
      · rfl
  | _, _, _, _, _, .spread _ _ expanded after, named => by
      have given := expanded.namedByKey nofun
      refine after.namedByKey fun held member => ?_
      rcases RecordPlanOf.mem_pushSpread member with old | ⟨field, there, rfl⟩
      · exact named held old
      · exact given field there

end Derivation

/-! ### The keys that a plan reads -/

/-- The key that the decoder of a field reads. -/
def Elm.Decoder.key? : Elm.Decoder → Option String
  | .field wire _ => some wire
  | .optional inner => inner.key?
  | _ => none

theorem FieldPlan.key?_decoder (field : FieldPlan) :
    (FieldPlan.decoder field).key? = some field.wire := by
  unfold FieldPlan.decoder readField
  cases Layer.isOptional field.layers <;> rfl

/-- The decoder of a record reads the keys of the fields. -/
theorem RecordPlan.keys_decoder (constructor : Elm.Constructor) (plan : RecordPlan) :
    (RecordPlan.decoder constructor plan).fields.filterMap (·.2.key?) =
      plan.fields.map (·.wire) := by
  obtain ⟨fields, spreads⟩ := plan
  rw [RecordPlan.decoder, FieldPlan.decoders_eq, List.filterMap_map, ← List.filterMap_eq_map]
  exact List.filterMap_congr fun field _ => FieldPlan.key?_decoder field

/-- A plan for the keys that are requested: it has a field under the Elm name of each of them, and
all of its fields are for keys that are requested. -/
structure RecordPlan.Answers (requested : String → Prop) (plan : RecordPlan) : Prop where
  distinct : (plan.fields.map (·.name)).Nodup
  namedByKey : plan.NamedByKey
  wires : ∀ field ∈ plan.fields, requested field.wire
  names : ∀ key, requested key → Name.safe key ∈ plan.fields.map (·.name)

/-- Such a plan reads every key that is requested just if no such key is the Elm name of another. -/
theorem RecordPlan.Answers.reads_iff {requested : String → Prop} {plan : RecordPlan}
    (answers : plan.Answers requested) :
    (∀ key, requested key → key ∈ plan.fields.map (·.wire)) ↔
      ∀ key, requested key → Name.safe key ≠ key → ¬ requested (Name.safe key) := by
  constructor
  · intro reads key requests changed renamed
    obtain ⟨one, member, keyed⟩ := List.mem_map.mp (reads key requests)
    obtain ⟨other, member', keyed'⟩ := List.mem_map.mp (reads _ renamed)
    have name : one.name = other.name := by
      rw [answers.namedByKey one member, answers.namedByKey other member', keyed, keyed',
        Name.safe_safe]
    -- There is one field of each name, so both keys are its key.
    have found := PlannedField.named?_of_mem answers.distinct member
    rw [name, PlannedField.named?_of_mem answers.distinct member'] at found
    obtain rfl := Option.some.inj found
    exact changed (keyed'.symm.trans keyed)
  · intro apart key requests
    obtain ⟨field, member, named⟩ := List.mem_map.mp (answers.names key requests)
    have same : Name.safe field.wire = Name.safe key :=
      (answers.namedByKey field member).symm.trans named
    suffices keyed : field.wire = key from keyed ▸ List.mem_map_of_mem member
    rcases Name.eq_of_safe_eq_safe same with keyed | renamed | renamed
    · exact keyed
    · by_contra other
      exact apart field.wire (answers.wires field member)
        (fun kept => other (kept.symm.trans renamed)) (renamed ▸ requests)
    · by_contra other
      exact apart key requests (fun kept => other (renamed.symm.trans kept))
        (renamed ▸ answers.wires field member)

/-- The plans of selection sets on types with fields, and those of members of unions under a selection
set, wherever the sets stand in operations and fragments. -/
inductive BoundDocument.Plans (bound : BoundDocument) (depth : Nat) (active : List String) :
    PlanSource → RecordPlan → Prop where
  | set {on selections plan}
      (planned : planRecord bound.schema (bound.expansion depth active) on selections {} =
        .ok plan) :
      Plans bound depth active (.set on selections) plan
  | member {union members selections draft name plan}
      (drafted : planUnion bound.schema (bound.expansion depth active) union members selections {} =
        .ok draft)
      (chosen : draft.variants.lookup name = some plan) :
      Plans bound depth active (.member union selections name) plan

namespace BoundDocument

variable {bound : BoundDocument} {depth : Nat} {active : List String} {source : PlanSource}
  {plan : RecordPlan}

/-- The plan of a member is that of selections in a row, so it answers requests as well. -/
theorem Plans.answers (plans : bound.Plans depth active source plan) :
    plan.Answers (bound.Requests source) := by
  have sound := bound.expansion_sound depth active
  cases plans with
  | @set on selections _ planned =>
      have derived := planRecord_planned sound planned
      refine ⟨(planRecord_distinct .empty planned).names, derived.namedByKey nofun, ?_,
        fun key requests => derived.requested requests⟩
      intro field member
      have drawn := derived.from (fun _ _ _ _ contributes => ⟨_, contributes⟩) .empty
      cases drawn.fields field member with
      | mk contributes keyed => exact ⟨_, _, _, _, contributes, keyed⟩
  | @member union members selections draft name _ drafted chosen =>
      obtain ⟨parts, divided, _, ordered, each⟩ := planUnion_variants drafted
      have there : (name, plan) ∈ draft.variants := Dictionary.mem_of_lookup chosen
      have selected : name ∈ parts.map Prod.fst := by
        rw [← List.mem_eraseDups, ← ordered]
        exact List.mem_map_of_mem there
      obtain ⟨record, planned, found⟩ := each name selected
      obtain rfl := Option.some.inj (found.symm.trans chosen)
      have derived := planRecord_planned sound planned
      refine ⟨(planRecord_distinct .empty planned).names, derived.namedByKey nofun, ?_,
        fun key requests => derived.requested (divided.requests requests)⟩
      intro field member
      have drawn := (planUnion_planned sound drafted).from
        (fun _ _ _ _ _ contributes => ⟨_, contributes⟩)
        (fun _ absent => absurd absent List.not_mem_nil)
      cases (drawn _ there).fields field member with
      | mk contributes keyed => exact ⟨_, _, _, _, contributes, keyed⟩

/-- The plan of a selection set on a type with fields, or of a member of a union, wherever the set
stands, reads only keys that are requested of it, in the fields themselves and in the decoder; for
every key that is requested it reads one with the same Elm name; and it reads every key that is
requested just if no key is requested beside another one that is changed to it. -/
theorem plans_reads_iff (plans : bound.Plans depth active source plan)
    (constructor : Elm.Constructor) :
    let read := plan.fields.map (·.wire)
    (RecordPlan.decoder constructor plan).fields.filterMap (·.2.key?) = read ∧
      (∀ key ∈ read, bound.Requests source key) ∧
      (∀ key, bound.Requests source key → ∃ other ∈ read, Name.safe other = Name.safe key) ∧
      ((∀ key, bound.Requests source key → key ∈ read) ↔
        ∀ key, bound.Requests source key → Name.safe key ≠ key →
          ¬ bound.Requests source (Name.safe key)) := by
  have answers := plans.answers
  refine ⟨RecordPlan.keys_decoder constructor plan, ?_, ?_, answers.reads_iff⟩
  · intro key member
    obtain ⟨field, there, rfl⟩ := List.mem_map.mp member
    exact answers.wires field there
  · intro key requests
    obtain ⟨field, there, named⟩ := List.mem_map.mp (answers.names key requests)
    exact ⟨field.wire, List.mem_map_of_mem there,
      (answers.namedByKey field there).symm.trans named⟩

end BoundDocument

/-! ### Two keys with one Elm name

A query requests two fields, one of them under the key `type`, which is a keyword of Elm. If the other
one is requested under the key to which it is changed, its field is not in the plan. -/

/-- A schema with two fields. -/
def pairSchema : Schema where
  types := [("Int", .scalar), ("Query", .object [("a", .named "Int"), ("b", .named "Int")])]
  roots := { query := some "Query" }

/-- A field under another key, at a column. -/
def pairField (name key : String) (column : Nat) : Field := ⟨⟨1, column⟩, some key, name, [], []⟩

/-- The two fields, of which one is requested as `type`. -/
def pairSelections (key : String) : List Selection :=
  [.field (pairField "a" "type" 3) ⟨1, 3⟩ [], .field (pairField "b" key 11) ⟨1, 11⟩ []]

/-- The schema without fragments. -/
def pairBound : BoundDocument := ⟨pairSchema, [], []⟩

theorem pairBound_requests {key other : String} :
    pairBound.Requests (.set "Query" (pairSelections key)) other ↔ other = "type" ∨ other = key := by
  constructor
  · intro requests
    rcases requests.of_cons with here | later
    · exact Or.inl here.of_field.symm
    · exact Or.inr later.of_field.symm
  · rintro (rfl | rfl)
    · exact ⟨_, _, _, _, .field List.mem_cons_self, rfl⟩
    · exact ⟨_, _, _, _, .field (List.mem_cons_of_mem _ List.mem_cons_self), rfl⟩

theorem pair_reads :
    (∃ plan, pairBound.Plans 1 [] (.set "Query" (pairSelections "kind")) plan ∧
      ∀ key, pairBound.Requests (.set "Query" (pairSelections "kind")) key →
        key ∈ plan.fields.map (·.wire)) ∧
    ∃ plan, pairBound.Plans 1 [] (.set "Query" (pairSelections "type_")) plan ∧
      plan.fields.map (·.wire) = ["type"] ∧
      ¬ ∀ key, pairBound.Requests (.set "Query" (pairSelections "type_")) key →
        key ∈ plan.fields.map (·.wire) := by
  constructor
  · have plans : pairBound.Plans 1 [] (.set "Query" (pairSelections "kind")) _ := .set rfl
    obtain ⟨_, _, _, complete⟩ := BoundDocument.plans_reads_iff plans .anonymous
    refine ⟨_, plans, complete.mpr fun key requests changed renamed => ?_⟩
    rcases pairBound_requests.mp requests with rfl | rfl
    · rcases pairBound_requests.mp renamed with same | same <;> exact absurd same (by decide)
    · exact changed rfl
  · have plans : pairBound.Plans 1 [] (.set "Query" (pairSelections "type_")) _ := .set rfl
    obtain ⟨_, _, _, complete⟩ := BoundDocument.plans_reads_iff plans .anonymous
    refine ⟨_, plans, rfl, fun reads => ?_⟩
    exact complete.mp reads "type" (pairBound_requests.mpr (Or.inl rfl)) (by decide)
      (pairBound_requests.mpr (Or.inr rfl))

end ElmClient
