/-
Module: ElmClient.Proofs.Plan.Members
Purpose: The members of a union under a selection set. What the set selects on one member, in inline
  fragments and in fragments, wherever they stand, has the plan of all these selections in a row.
Main exports: UnionPlanOf.addVariants, UnionPlanOf.lookup_addVariants, BoundDocument.MemberParts,
  BoundDocument.MemberParts.unique, BoundDocument.Split, BoundDocument.planUnion_split,
  BoundDocument.planUnion_concatenates
-/
import ElmClient.Proofs.Elm.Decoding
import ElmClient.Proofs.Generation.Provision
import ElmClient.Proofs.Plan.Concatenation

namespace ElmClient

open GraphQL

namespace UnionPlanOf

variable {κ : Type}

/-! ### Adding several selection sets on members -/

/-- Adds selection sets on members to the variants, one after the other. -/
def addVariants (entries variants : List (String × RecordPlanOf κ)) :
    List (String × RecordPlanOf κ) :=
  entries.foldl (fun variants entry => addVariant entry.1 entry.2 variants) variants

/-- The plans of one member, in a row. -/
def plansOf (member : String) (entries : List (String × RecordPlanOf κ)) :
    List (RecordPlanOf κ) :=
  (entries.filter (·.1 == member)).map (·.2)

theorem addVariants_append (entries more variants : List (String × RecordPlanOf κ)) :
    addVariants (entries ++ more) variants = addVariants more (addVariants entries variants) :=
  List.foldl_append

theorem lookup_addVariant (member name : String) (plan : RecordPlanOf κ)
    (variants : List (String × RecordPlanOf κ)) :
    (addVariant member plan variants).lookup name =
      if member = name then some ((variants.lookup name).elim plan (·.absorb plan))
      else variants.lookup name := by
  induction variants with
  | nil =>
      by_cases same : member = name
      · simp [addVariant, same]
      · simp [addVariant, same, Dictionary.lookup_cons_of_ne (Ne.symm same)]
  | cons first rest ih =>
      obtain ⟨other, earlier⟩ := first
      by_cases here : other = member
      · subst here
        rw [addVariant, if_pos (beq_self_eq_true other)]
        by_cases same : other = name
        · subst same
          rw [List.lookup_cons_self, List.lookup_cons_self, if_pos rfl]
          rfl
        · rw [Dictionary.lookup_cons_of_ne (Ne.symm same),
            Dictionary.lookup_cons_of_ne (Ne.symm same), if_neg same]
      · rw [addVariant, if_neg (by simpa using here)]
        by_cases same : other = name
        · subst same
          rw [List.lookup_cons_self, List.lookup_cons_self, if_neg (Ne.symm here)]
        · rw [Dictionary.lookup_cons_of_ne (Ne.symm same),
            Dictionary.lookup_cons_of_ne (Ne.symm same), ih]

/-- The members stand in the order of their first selection. -/
theorem map_fst_addVariants (entries : List (String × RecordPlanOf κ)) :
    (addVariants entries []).map Prod.fst = (entries.map Prod.fst).eraseDups := by
  induction entries using List.reverseRecOn with
  | nil => rfl
  | append_singleton earlier entry ih =>
      rw [addVariants, List.foldl_concat, map_fst_addVariant, ← addVariants, ih, List.map_append,
        List.map_singleton, Occurrences.eraseDups_concat]
      simp only [List.mem_eraseDups]

theorem plansOf_concat (member : String) (entries : List (String × RecordPlanOf κ))
    (entry : String × RecordPlanOf κ) :
    plansOf member (entries ++ [entry]) =
      plansOf member entries ++ if entry.1 = member then [entry.2] else [] := by
  by_cases same : entry.1 = member <;> simp [plansOf, same]

theorem plansOf_eq_nil {member : String} {entries : List (String × RecordPlanOf κ)}
    (absent : member ∉ entries.map Prod.fst) : plansOf member entries = [] := by
  rw [plansOf, List.map_eq_nil_iff, List.filter_eq_nil_iff]
  intro entry there same
  exact absent (List.mem_map.mpr ⟨entry, there, eq_of_beq same⟩)

/-- A member has what comes of absorbing all of its plans into the empty one. -/
theorem lookup_addVariants {entries : List (String × RecordPlanOf κ)}
    (distinct : ∀ entry ∈ entries, entry.2.Distinct) (member : String) :
    (addVariants entries []).lookup member =
      if member ∈ entries.map Prod.fst then
        some ((plansOf member entries).foldl RecordPlanOf.absorb {})
      else none := by
  induction entries using List.reverseRecOn with
  | nil => rfl
  | append_singleton earlier entry ih =>
      obtain ⟨before, here⟩ := List.forall_mem_append.mp distinct
      rw [addVariants, List.foldl_concat, lookup_addVariant, ← addVariants, ih before,
        plansOf_concat]
      by_cases same : entry.1 = member
      · have there : member ∈ (earlier ++ [entry]).map Prod.fst := by simp [same]
        rw [if_pos same, if_pos same, if_pos there, List.foldl_concat]
        by_cases old : member ∈ earlier.map Prod.fst
        · rw [if_pos old]
          rfl
        · rw [if_neg old, plansOf_eq_nil old]
          exact congrArg some (RecordPlanOf.empty_absorb (here entry List.mem_cons_self)).symm
      · have there : member ∈ (earlier ++ [entry]).map Prod.fst ↔
            member ∈ earlier.map Prod.fst := by simp [Ne.symm same]
        simp only [if_neg same, there, List.append_nil]

end UnionPlanOf

namespace BoundDocument

/-! ### The parts of a selection set on a union -/

/-- The parts of a selection set on a union in their order, each with the member that it is about: the
selections of an inline fragment, the spread of a fragment on a member, and the parts of a fragment
on the union itself. -/
inductive MemberParts (bound : BoundDocument) (union : String) :
    List Selection → List (String × List Selection) → Prop where
  | nil : MemberParts bound union [] []
  | field {field brace selections rest parts} (after : MemberParts bound union rest parts) :
      MemberParts bound union (.field field brace selections :: rest) parts
  | inline {inline condition brace selections rest parts}
      (conditioned : inline.condition = some condition)
      (after : MemberParts bound union rest parts) :
      MemberParts bound union (.inline inline brace selections :: rest)
        ((condition.type, selections) :: parts)
  | member {spread fragment rest parts}
      (found : bound.fragment? spread.fragment = some fragment)
      (other : fragment.condition.type ≠ union) (after : MemberParts bound union rest parts) :
      MemberParts bound union (.spread spread :: rest)
        ((fragment.condition.type, [.spread spread]) :: parts)
  | merge {spread fragment inside rest parts}
      (found : bound.fragment? spread.fragment = some fragment)
      (same : fragment.condition.type = union)
      (expanded : MemberParts bound union fragment.selections inside)
      (after : MemberParts bound union rest parts) :
      MemberParts bound union (.spread spread :: rest) (inside ++ parts)

/-- The selections on a member, in a row. -/
def selectionsOn (member : String) (parts : List (String × List Selection)) : List Selection :=
  (parts.filter (·.1 == member)).flatMap (·.2)

theorem selectionsOn_cons_self {member : String} {selections : List Selection}
    (parts : List (String × List Selection)) :
    selectionsOn member ((member, selections) :: parts) =
      selections ++ selectionsOn member parts := by
  simp [selectionsOn]

theorem selectionsOn_cons_of_ne {member : String} {part : String × List Selection}
    (other : part.1 ≠ member) (parts : List (String × List Selection)) :
    selectionsOn member (part :: parts) = selectionsOn member parts := by
  simp [selectionsOn, other]

theorem selectionsOn_append {member : String} (parts more : List (String × List Selection)) :
    selectionsOn member (parts ++ more) =
      selectionsOn member parts ++ selectionsOn member more := by
  simp [selectionsOn]

variable {bound : BoundDocument} {union : String} {members : List String}
  {expand : Expansion}

/-- A selection set has its parts in one way. -/
theorem MemberParts.unique {selections : List Selection} {one : List (String × List Selection)}
    (first : bound.MemberParts union selections one) :
    ∀ {other}, bound.MemberParts union selections other → other = one := by
  induction first with
  | nil =>
      intro other second
      cases second
      rfl
  | field after ih =>
      intro other second
      cases second with
      | field after' => exact ih after'
  | inline conditioned after ih =>
      intro other second
      cases second with
      | inline conditioned' after' =>
          obtain rfl := Option.some.inj (conditioned'.symm.trans conditioned)
          rw [ih after']
  | member found apart after ih =>
      intro other second
      cases second with
      | member found' apart' after' =>
          obtain rfl := Option.some.inj (found'.symm.trans found)
          rw [ih after']
      | merge found' same' =>
          obtain rfl := Option.some.inj (found'.symm.trans found)
          exact absurd same' apart
  | merge found same expanded after inside later =>
      intro other second
      cases second with
      | member found' apart' =>
          obtain rfl := Option.some.inj (found'.symm.trans found)
          exact absurd same apart'
      | merge found' same' expanded' after' =>
          obtain rfl := Option.some.inj (found'.symm.trans found)
          rw [inside expanded', later after']

theorem MemberParts.append {selections more : List Selection}
    {parts later : List (String × List Selection)}
    (first : bound.MemberParts union selections parts)
    (second : bound.MemberParts union more later) :
    bound.MemberParts union (selections ++ more) (parts ++ later) := by
  induction first with
  | nil => exact second
  | field after ih => exact .field ih
  | inline conditioned after ih => exact .inline conditioned ih
  | member found other after ih => exact .member found other ih
  | merge found same expanded after inside ih =>
      rw [List.append_assoc]
      exact .merge found same expanded ih

/-! ### Each part is planned by itself -/

/-- A part of a selection set on a union, with the plan that its selections have by themselves. -/
structure PartPlanned (bound : BoundDocument) (expand : Expansion) (members : List String)
    (part : String × List Selection) (entry : String × RecordPlan) : Prop where
  named : entry.1 = part.1
  member : part.1 ∈ members
  planned : planRecord bound.schema expand part.1 part.2 {} = .ok entry.2

/-- Variants that a selection set on a union takes to others, by adding the plans of its parts. -/
def Split (bound : BoundDocument) (expand : Expansion) (union : String) (members : List String)
    (selections : List Selection) (before after : List (String × RecordPlan)) : Prop :=
  ∃ parts entries, bound.MemberParts union selections parts ∧
    List.Forall₂ (bound.PartPlanned expand members) parts entries ∧
    after = UnionPlanOf.addVariants entries before

theorem Split.append {selections more : List Selection}
    {before middle after : List (String × RecordPlan)}
    (first : bound.Split expand union members selections before middle)
    (second : bound.Split expand union members more middle after) :
    bound.Split expand union members (selections ++ more) before after := by
  obtain ⟨parts, entries, divided, planned, rfl⟩ := first
  obtain ⟨later, more, divided', planned', rfl⟩ := second
  exact ⟨parts ++ later, entries ++ more, divided.append divided',
    List.rel_append planned planned', (UnionPlanOf.addVariants_append ..).symm⟩

theorem Split.within {other : Expansion} (within : expand.Within other)
    {selections : List Selection} {before after : List (String × RecordPlan)}
    (split : bound.Split expand union members selections before after) :
    bound.Split other union members selections before after := by
  obtain ⟨parts, entries, divided, planned, same⟩ := split
  exact ⟨parts, entries, divided,
    planned.imp fun _ _ has => ⟨has.named, has.member, planRecord_within within has.planned⟩, same⟩

/-- A part that is all there is. -/
theorem Split.single {selections : List Selection} {before : List (String × RecordPlan)}
    {part : String × List Selection} {plan : RecordPlan}
    (divided : bound.MemberParts union selections [part]) (member : part.1 ∈ members)
    (planned : planRecord bound.schema expand part.1 part.2 {} = .ok plan) :
    bound.Split expand union members selections before
      (UnionPlanOf.addVariant part.1 plan before) :=
  ⟨[part], [(part.1, plan)], divided, .cons ⟨rfl, member, planned⟩ .nil, rfl⟩

/-- An expansion that adds the parts of the fragments that are spread into a union. -/
def Splits (bound : BoundDocument) (expand : Expansion) : Prop :=
  ∀ {union members spread draft result}, expand.union union members spread draft = .ok result →
    bound.Split expand union members [.spread spread] draft.variants result.variants

/-- One selection on a union adds its parts. -/
theorem planUnionItem_split (splits : bound.Splits expand) {selection : Selection}
    {draft result : UnionDraft}
    (succeeded : planUnionItem bound.schema expand union members selection draft = .ok result) :
    bound.Split expand union members [selection] draft.variants result.variants := by
  cases selection with
  | field field brace selections =>
      have kept : result.variants = draft.variants := by
        unfold planUnionItem at succeeded
        split at succeeded
        · rw [← Except.ok.inj succeeded]
        · exact nomatch succeeded
      exact ⟨[], [], .field .nil, .nil, kept⟩
  | spread spread => exact splits succeeded
  | inline inline brace selections =>
      cases conditioned : inline.condition with
      | none => simp [planUnionItem, conditioned] at succeeded
      | some condition =>
          simp only [planUnionItem, conditioned] at succeeded
          obtain ⟨done, member, checked⟩ := Except.bind_eq_ok.mp succeeded
          obtain ⟨on, about, typed⟩ := Except.bind_eq_ok.mp checked
          obtain ⟨variant, planned, same⟩ := Except.bind_eq_ok.mp typed
          obtain ⟨_, rfl⟩ := Schema.conditionType_eq_ok.mp about
          rw [← Except.pure_eq_ok.mp same]
          exact .single (.inline conditioned .nil) (requireMember_eq_ok.mp member) planned

/-- A selection set on a union adds its parts. -/
theorem planUnion_split (splits : bound.Splits expand) {selections : List Selection}
    {draft result : UnionDraft}
    (succeeded : planUnion bound.schema expand union members selections draft = .ok result) :
    bound.Split expand union members selections draft.variants result.variants := by
  induction selections generalizing draft with
  | nil => exact ⟨[], [], .nil, .nil, congrArg _ (Except.ok.inj succeeded).symm⟩
  | cons selection rest ih =>
      obtain ⟨next, first, later⟩ := Except.bind_eq_ok.mp succeeded
      exact (planUnionItem_split splits first).append (ih later)

/-- Whatever depth is left, fragments add their parts. The parts of a fragment on the union itself are
planned while that fragment is being expanded, and could be planned outside of it as well. -/
theorem expansion_splits (bound : BoundDocument) (depth : Nat) :
    ∀ active, bound.Splits (bound.expansion depth active) := by
  induction depth with
  | zero => exact fun _ _ _ _ _ _ succeeded => nomatch succeeded
  | succ depth ih =>
      intro active union members spread draft result succeeded
      obtain ⟨fragment, found, placing⟩ := Except.bind_eq_ok.mp succeeded
      have declared := fragment_eq_ok.mp found
      by_cases same : fragment.condition.type = union
      · simp only [same, beq_self_eq_true, if_true] at placing
        obtain ⟨entered, inside, merged⟩ := Except.bind_eq_ok.mp placing
        obtain ⟨_, rfl⟩ := enterSpread_eq_ok.mp inside
        obtain ⟨parts, entries, divided, planned, added⟩ := planUnion_split (ih _) merged
        have split : bound.Split (bound.expansion depth (spread.fragment :: active)) union members
            [.spread spread] draft.variants result.variants :=
          ⟨parts ++ [], entries, .merge declared same divided .nil,
            (List.append_nil parts).symm ▸ planned, added⟩
        exact split.within (expansion_within (Nat.le_succ depth) _ _ (List.subset_cons_self _ _))
      · simp only [beq_iff_eq, same, if_false] at placing
        obtain ⟨done, member, planning⟩ := Except.bind_eq_ok.mp placing
        obtain ⟨given, planned, finished⟩ := Except.bind_eq_ok.mp planning
        have alone : planRecord bound.schema (bound.expansion (depth + 1) active)
            fragment.condition.type [.spread spread] {} =
              .ok (RecordPlanOf.pushSpread {} spread.fragment given) :=
          Except.bind_eq_ok.mpr ⟨_, Except.bind_eq_ok.mpr ⟨given, planned, rfl⟩, rfl⟩
        rw [← Except.pure_eq_ok.mp finished]
        exact .single (.member declared same .nil) (requireMember_eq_ok.mp member) alone

/-! ### All parts on one member in a row -/

/-- The selections on a member in a row are planned to what comes of absorbing the plans of the parts
on it. -/
theorem planRecord_selectionsOn (expands : expand.Distinct)
    {parts : List (String × List Selection)} {entries : List (String × RecordPlan)}
    (planned : List.Forall₂ (bound.PartPlanned expand members) parts entries) (member : String)
    {start : RecordPlan} (distinct : start.Distinct) :
    planRecord bound.schema expand member (selectionsOn member parts) start =
      .ok ((UnionPlanOf.plansOf member entries).foldl RecordPlanOf.absorb start) := by
  induction planned generalizing start with
  | nil => rfl
  | @cons part entry rest more has _ ih =>
      obtain ⟨named, _, planned⟩ := has
      by_cases same : part.1 = member
      · subst same
        have here : UnionPlanOf.plansOf part.1 (entry :: more) =
            entry.2 :: UnionPlanOf.plansOf part.1 more := by simp [UnionPlanOf.plansOf, named]
        have first := planRecord_absorb expands distinct .empty planned
        rw [selectionsOn_cons_self, here, planRecord_append, List.foldl_cons]
        exact Except.bind_eq_ok.mpr ⟨_, first, ih (distinct.absorb entry.2)⟩
      · have skipped : UnionPlanOf.plansOf member (entry :: more) =
            UnionPlanOf.plansOf member more := by simp [UnionPlanOf.plansOf, named, same]
        rw [selectionsOn_cons_of_ne same, skipped, ih distinct]

/-- A selection set that is planned has parts, and its variants are their members, each with the plan
of the selections on it in a row. -/
theorem planUnion_variants {depth : Nat} {active : List String} {selections : List Selection}
    {draft : UnionDraft}
    (drafted : planUnion bound.schema (bound.expansion depth active) union members selections {} =
      .ok draft) :
    ∃ parts, bound.MemberParts union selections parts ∧
      (∀ part ∈ parts, part.1 ∈ members) ∧
      draft.variants.map Prod.fst = (parts.map Prod.fst).eraseDups ∧
      ∀ member ∈ parts.map Prod.fst, ∃ record,
        planRecord bound.schema (bound.expansion depth active) member
          (selectionsOn member parts) {} = .ok record ∧
        draft.variants.lookup member = some record := by
  obtain ⟨parts, entries, divided, planned, added⟩ :=
    planUnion_split (bound.expansion_splits depth active) drafted
  have names : entries.map Prod.fst = parts.map Prod.fst :=
    Forall₂.map_eq_map planned fun _ _ has => has.named
  refine ⟨parts, divided, ?_, ?_, ?_⟩
  · intro part there
    obtain ⟨entry, _, has⟩ := Forall₂.exists_right planned there
    exact has.member
  · rw [added, UnionPlanOf.map_fst_addVariants, names]
  · intro member there
    have distinct : ∀ entry ∈ entries, entry.2.Distinct := by
      intro entry there
      obtain ⟨part, _, has⟩ := Forall₂.exists_left planned there
      exact planRecord_distinct .empty has.planned
    have expands : (bound.expansion depth active).Distinct := bound.expansion_distinct depth active
    refine ⟨_, planRecord_selectionsOn expands planned member .empty, ?_⟩
    rw [added, UnionPlanOf.lookup_addVariants distinct, names, if_pos there]

/-- In every selection set on a union that is accepted, wherever it stands, the variants are the
members that its parts are about, each once and in the order of its first part. The plan of a
member is that of the selections on it in a row, and so are the type that it has in the type of the
union and the record that its case decodes. -/
theorem planUnion_concatenates {depth : Nat} {active : List String} {brace : Position}
    {selections : List Selection} {draft : UnionDraft} {plan : UnionPlan}
    (drafted : planUnion bound.schema (bound.expansion depth active) union members selections {} =
      .ok draft)
    (finished : draft.finish union members brace = .ok plan) :
    ∃ parts arguments cases,
      (∀ other, bound.MemberParts union selections other ↔ other = parts) ∧
      UnionPlan.type plan = .union union arguments ∧
      UnionPlan.decoder plan = .union union cases ∧
      plan.variants.map Prod.fst = (parts.map Prod.fst).eraseDups ∧
      (plan.variants.map Prod.fst).Nodup ∧
      ∀ member ∈ parts.map Prod.fst, ∃ record,
        planRecord bound.schema (bound.expansion depth active) member
          (selectionsOn member parts) {} = .ok record ∧
        plan.variant? member = some record ∧
        arguments.lookup member = some (RecordPlan.type none record) ∧
        cases.lookup member =
          some (RecordPlan.decoder (.tagged (Name.unionConstructor union member)) record) := by
  obtain ⟨_, rfl⟩ := UnionDraft.finish_eq_ok.mp finished
  obtain ⟨parts, divided, listed, ordered, each⟩ := planUnion_variants drafted
  refine ⟨parts, _, _, fun other => ⟨divided.unique, fun same => same ▸ divided⟩, rfl, rfl, ordered,
    ordered ▸ Occurrences.nodup_eraseDups _, ?_⟩
  intro member there
  obtain ⟨record, planned, found⟩ := each member there
  refine ⟨record, planned, found, ?_, ?_⟩
  · obtain ⟨part, here, rfl⟩ := List.mem_map.mp there
    rw [unionArguments, Dictionary.lookup_map_self, if_pos (listed part here),
      UnionPlan.lookup_types, found]
    rfl
  · rw [UnionPlan.lookup_cases, found]
    rfl

end BoundDocument

/-! ### A union selected in five places

A selection set on pets selects on dogs in two inline fragments, in a fragment on dogs, and in a
fragment on pets that stands between them and selects on cats first. -/

/-- A schema in which pets are dogs or cats. -/
def parlorSchema : Schema where
  types := [("Int", .scalar), ("String", .scalar), ("Pet", .union ["Dog", "Cat"]),
    ("Dog", .object [("name", .named "String"), ("age", .named "Int"), ("bark", .named "String")]),
    ("Cat", .object [("name", .named "String")])]
  roots := {}

/-- A field that is selected without arguments, at a column. -/
def parlorField (name : String) (column : Nat) : Selection :=
  .field ⟨⟨1, column⟩, none, name, [], []⟩ ⟨1, column⟩ []

/-- The condition of an inline fragment, at a column. -/
def parlorCondition (member : String) (column : Nat) : TypeCondition :=
  ⟨⟨1, column⟩, member, ⟨1, column + 3⟩⟩

/-- An inline fragment, at a column. -/
def parlorInline (member : String) (column : Nat) : InlineFragment :=
  ⟨⟨1, column⟩, some (parlorCondition member (column + 4)), []⟩

/-- A fragment, at a column of the second line. -/
def parlorFragment (name on : String) (column : Nat) (selections : List Selection) : Fragment :=
  ⟨⟨2, column⟩, name, ⟨⟨2, column⟩, on, ⟨2, column⟩⟩, [], ⟨2, column⟩, selections⟩

/-- The use of a fragment, at a column. -/
def parlorSpread (name : String) (column : Nat) : Spread := ⟨⟨1, column⟩, name, []⟩

/-- What is selected on pets. -/
def parlorSelections : List Selection :=
  [parlorField "__typename" 3, .inline (parlorInline "Dog" 14) ⟨1, 25⟩ [parlorField "name" 27],
    .spread (parlorSpread "Both" 36), .spread (parlorSpread "Old" 48),
    .inline (parlorInline "Dog" 55) ⟨1, 66⟩ [parlorField "name" 68, parlorField "age" 73]]

/-- What the fragment on pets selects. -/
def parlorBoth : List Selection :=
  [.inline (parlorInline "Cat" 25) ⟨2, 36⟩ [parlorField "name" 38],
    .inline (parlorInline "Dog" 45) ⟨2, 56⟩ [parlorField "bark" 58]]

/-- The two fragments with the schema. -/
def parlorBound : BoundDocument :=
  ⟨parlorSchema, [],
    [parlorFragment "Both" "Pet" 1 parlorBoth, parlorFragment "Old" "Dog" 70 [parlorField "age" 92]]⟩

/-- The parts of what is selected on pets. -/
def parlorParts : List (String × List Selection) :=
  [("Dog", [parlorField "name" 27]), ("Cat", [parlorField "name" 38]),
    ("Dog", [parlorField "bark" 58]), ("Dog", [.spread (parlorSpread "Old" 48)]),
    ("Dog", [parlorField "name" 68, parlorField "age" 73])]

theorem parlorInline_condition (member : String) (column : Nat) :
    (parlorInline member column).condition = some (parlorCondition member (column + 4)) := rfl

theorem parlor_memberParts : parlorBound.MemberParts "Pet" parlorSelections parlorParts := by
  have both : parlorBound.fragment? (parlorSpread "Both" 36).fragment =
      some (parlorFragment "Both" "Pet" 1 parlorBoth) := rfl
  have old : parlorBound.fragment? (parlorSpread "Old" 48).fragment =
      some (parlorFragment "Old" "Dog" 70 [parlorField "age" 92]) := rfl
  have other : (parlorFragment "Old" "Dog" 70 [parlorField "age" 92]).condition.type ≠ "Pet" := by
    decide
  have inside : parlorBound.MemberParts "Pet" parlorBoth
      [("Cat", [parlorField "name" 38]), ("Dog", [parlorField "bark" 58])] :=
    .inline (parlorInline_condition _ _) (.inline (parlorInline_condition _ _) .nil)
  have after : parlorBound.MemberParts "Pet"
      [.spread (parlorSpread "Old" 48),
        .inline (parlorInline "Dog" 55) ⟨1, 66⟩ [parlorField "name" 68, parlorField "age" 73]]
      [("Dog", [.spread (parlorSpread "Old" 48)]),
        ("Dog", [parlorField "name" 68, parlorField "age" 73])] :=
    .member old other (.inline (parlorInline_condition _ _) .nil)
  exact .field (.inline (parlorInline_condition _ _) (.merge both rfl inside after))

theorem parlor_concatenates : ∃ draft plan,
    planUnion parlorSchema (parlorBound.expansion 3 []) "Pet" ["Dog", "Cat"] parlorSelections {} =
      .ok draft ∧
    draft.finish "Pet" ["Dog", "Cat"] ⟨1, 1⟩ = .ok plan ∧
    plan.variants.map Prod.fst = ["Dog", "Cat"] ∧
    ∃ record, plan.variant? "Dog" = some record ∧
      planRecord parlorSchema (parlorBound.expansion 3 []) "Dog"
        [parlorField "name" 27, parlorField "bark" 58, .spread (parlorSpread "Old" 48),
          parlorField "name" 68, parlorField "age" 73] {} = .ok record := by
  obtain ⟨draft, plan, drafted, finished⟩ : ∃ draft plan,
      planUnion parlorBound.schema (parlorBound.expansion 3 []) "Pet" ["Dog", "Cat"]
        parlorSelections {} = .ok draft ∧
      draft.finish "Pet" ["Dog", "Cat"] ⟨1, 1⟩ = .ok plan := ⟨_, _, rfl, rfl⟩
  obtain ⟨parts, arguments, cases, divided, _, _, ordered, _, concatenated⟩ :=
    BoundDocument.planUnion_concatenates drafted finished
  obtain rfl := (divided _).mp parlor_memberParts
  obtain ⟨record, planned, found, _, _⟩ := concatenated "Dog" List.mem_cons_self
  exact ⟨draft, plan, drafted, finished, ordered, record, found, planned⟩

end ElmClient
