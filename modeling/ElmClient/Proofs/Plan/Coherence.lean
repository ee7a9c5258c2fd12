/-
Module: ElmClient.Proofs.Plan.Coherence
Purpose: Plans whose fields from fragments are exactly those of the fragments that they name, at
  every depth. Every plan of an operation is coherent, and its fragments are nested no deeper than
  there are fragments in the inventory.
Main exports: BoundDocument.IsPlanOf, RecordPlan.Coherent, FieldKind.Coherent,
  RecordPlanned.coherent, BoundDocument.operationPlan_coherent
-/
import ElmClient.Proofs.Inventory.Closure
import ElmClient.Proofs.Plan.Merging
import Mathlib.Data.List.Perm.Subperm

namespace ElmClient

open GraphQL

/-- A fragment that the operations use, directly or through other fragments. -/
def BoundDocument.Spreads (bound : BoundDocument) (name : String) : Prop :=
  ∃ on spread, bound.Selected on (.spread spread) ∧ spread.fragment = name

/-- The plan of a fragment as it is spread into a selection set on an object. -/
structure BoundDocument.IsPlanOf (bound : BoundDocument) (name : String) (plan : RecordPlan) :
    Prop where
  used : bound.Spreads name
  planned : ∃ active fragment, bound.fragment? name = some fragment ∧
    RecordPlanned bound active fragment.condition.type fragment.selections {} plan

theorem BoundDocument.IsPlanOf.unique {bound : BoundDocument} {name : String}
    {first second : RecordPlan} (one : bound.IsPlanOf name first)
    (two : bound.IsPlanOf name second) : first = second := by
  obtain ⟨_, fragment, found, planned⟩ := one.planned
  obtain ⟨_, fragment', found', planned'⟩ := two.planned
  obtain rfl := Option.some.inj (found.symm.trans found')
  exact planned.deterministic planned'

mutual

/-- A plan whose fields from fragments are those of the plans that its fragments are given, which
are nested no deeper than the depth. What a field from a fragment holds is a matter of that
fragment. -/
inductive RecordPlan.Coherent (provides : String → RecordPlan → Prop) :
    Nat → RecordPlan → Prop where
  | mk {depth plan} (sources : List (String × RecordPlan))
      (merged : RecordPlanOf.MergedFrom sources plan)
      (own : ∀ field ∈ plan.fields, field.isOwn = true →
        FieldKind.Coherent provides depth field.kind)
      (planned : ∀ source ∈ sources, provides source.1 source.2)
      (positive : ∀ source ∈ sources, 0 < depth)
      (below : ∀ source ∈ sources, RecordPlan.Coherent provides (depth - 1) source.2) :
      RecordPlan.Coherent provides depth plan

/-- What a field holds is coherent if all plans in it are, and the variants of a union are distinct
members of it. -/
inductive FieldKind.Coherent (provides : String → RecordPlan → Prop) : Nat → FieldKind → Prop where
  | leaf {depth} (scalar : Elm.Scalar) : FieldKind.Coherent provides depth (.leaf scalar)
  | enum {depth} (name : String) : FieldKind.Coherent provides depth (.enum name)
  | object {depth plan} (plan_coherent : RecordPlan.Coherent provides depth plan) :
      FieldKind.Coherent provides depth (.object plan)
  | union {depth name members variants} (distinct : (variants.map Prod.fst).Nodup)
      (selected : ∀ entry ∈ variants, entry.1 ∈ members)
      (variants_coherent : ∀ entry ∈ variants, RecordPlan.Coherent provides depth entry.2) :
      FieldKind.Coherent provides depth (.union ⟨name, members, variants⟩)

end

namespace RecordPlan.Coherent

variable {bound : BoundDocument} {provides : String → RecordPlan → Prop} {depth : Nat}
  {plan later : RecordPlan}

theorem empty : RecordPlan.Coherent provides depth {} :=
  .mk [] RecordPlanOf.MergedFrom.empty (by simp) (by simp) (by simp) (by simp)

theorem names_nodup (coherent : RecordPlan.Coherent provides depth plan) :
    (plan.fields.map (·.name)).Nodup := by
  cases coherent with
  | mk sources merged => exact merged.names_nodup

/-- Two sources of one fragment have the same plan, so absorption keeps coherence. -/
theorem absorb (earlier : RecordPlan.Coherent bound.IsPlanOf depth plan)
    (added : RecordPlan.Coherent bound.IsPlanOf depth later) :
    RecordPlan.Coherent bound.IsPlanOf depth (plan.absorb later) := by
  cases earlier with
  | mk sources merged own planned positive below =>
      cases added with
      | mk sources' merged' own' planned' positive' below' =>
          have agree : ∀ fragment first second, (fragment, first) ∈ sources →
              (fragment, second) ∈ sources' → first = second :=
            fun _ _ _ one two => (planned _ one).unique (planned' _ two)
          refine .mk _ (merged.absorb merged' agree) ?_ ?_ ?_ ?_
          · intro field member mine
            rcases RecordPlanOf.mem_absorb member with old | new
            · exact own field old mine
            · exact own' field new mine
          · exact fun source member =>
              (RecordPlanOf.mem_absorbedSources member).elim (planned source) (planned' source)
          · exact fun source member =>
              (RecordPlanOf.mem_absorbedSources member).elim (positive source) (positive' source)
          · exact fun source member =>
              (RecordPlanOf.mem_absorbedSources member).elim (below source) (below' source)

theorem push (earlier : RecordPlan.Coherent bound.IsPlanOf depth plan) {field : FieldPlan}
    (kind : FieldKind.Coherent bound.IsPlanOf depth field.kind) :
    RecordPlan.Coherent bound.IsPlanOf depth (plan.push field) := by
  rw [RecordPlanOf.push_eq_absorb]
  refine earlier.absorb (.mk [] (.ofField field) ?_ (by simp) (by simp) (by simp))
  intro held member _
  obtain rfl : held = field.withOrigin .own := List.mem_singleton.mp member
  exact kind

theorem pushSpread (earlier : RecordPlan.Coherent bound.IsPlanOf depth plan) {fragment : String}
    {given : RecordPlan} (planned : bound.IsPlanOf fragment given) (positive : 0 < depth)
    (below : RecordPlan.Coherent bound.IsPlanOf (depth - 1) given) :
    RecordPlan.Coherent bound.IsPlanOf depth (plan.pushSpread fragment given) := by
  rw [RecordPlanOf.pushSpread_eq_absorb]
  refine earlier.absorb (.mk [(fragment, given)] (.ofSpread fragment below.names_nodup) ?_
    ?_ ?_ ?_)
  · intro field member mine
    obtain ⟨held, _, rfl⟩ := List.mem_map.mp member
    simp at mine
  · exact fun source member => List.mem_singleton.mp member ▸ planned
  · exact fun source member => positive
  · exact fun source member => List.mem_singleton.mp member ▸ below

end RecordPlan.Coherent

/-- The variants of a draft are distinct members of the union, and their plans are coherent. -/
structure UnionDraft.Coherent (provides : String → RecordPlan → Prop) (depth : Nat)
    (members : List String) (draft : UnionDraft) : Prop where
  distinct : (draft.variants.map Prod.fst).Nodup
  selected : ∀ entry ∈ draft.variants, entry.1 ∈ members
  variants_coherent : ∀ entry ∈ draft.variants, RecordPlan.Coherent provides depth entry.2

theorem UnionDraft.Coherent.empty {provides : String → RecordPlan → Prop} {depth : Nat}
    {members : List String} :
    UnionDraft.Coherent provides depth members {} :=
  ⟨List.nodup_nil, by simp, by simp⟩

theorem UnionDraft.Coherent.addVariant {bound : BoundDocument} {depth : Nat}
    {members : List String} {draft : UnionDraft} {member : String} {plan : RecordPlan}
    (earlier : draft.Coherent bound.IsPlanOf depth members) (there : member ∈ members)
    (added : RecordPlan.Coherent bound.IsPlanOf depth plan) :
    UnionDraft.Coherent bound.IsPlanOf depth members
      { draft with variants := UnionPlanOf.addVariant member plan draft.variants } where
  distinct := UnionPlanOf.nodup_fst_addVariant member plan earlier.distinct
  selected entry present := by
    rcases UnionPlanOf.mem_addVariant present with old | rfl | ⟨held, old, rfl⟩
    · exact earlier.selected entry old
    · exact there
    · exact there
  variants_coherent entry present := by
    rcases UnionPlanOf.mem_addVariant present with old | rfl | ⟨held, old, rfl⟩
    · exact earlier.variants_coherent entry old
    · exact added
    · exact (earlier.variants_coherent _ old).absorb added

/-! ### Plans with a derivation are coherent

The fragments that are being expanded are distinct and known, so every spread leaves one fragment
fewer that can still be entered. -/

/-- Fragments that are being expanded: distinct ones among the known names. -/
structure ActiveAmong (names active : List String) : Prop where
  nodup : active.Nodup
  subset : active ⊆ names

theorem ActiveAmong.enter {names active : List String} {name : String}
    (earlier : ActiveAmong names active) (fresh : name ∉ active) (known : name ∈ names) :
    ActiveAmong names (name :: active) :=
  ⟨List.nodup_cons.mpr ⟨fresh, earlier.nodup⟩, List.cons_subset.mpr ⟨known, earlier.subset⟩⟩

/-- A depth that is enough around a fragment is positive, and one less is enough inside. -/
theorem ActiveAmong.room {names active : List String} {name : String} {depth : Nat}
    (inner : ActiveAmong names (name :: active)) (enough : names.length ≤ depth + active.length) :
    0 < depth ∧ names.length ≤ depth - 1 + (name :: active).length := by
  have fits := (List.subperm_of_subset inner.nodup inner.subset).length_le
  rw [List.length_cons] at fits ⊢
  omega

section Derivation

variable {bound : BoundDocument} {names : List String}

mutual

/-- Selections that stand in the document keep a plan coherent. -/
theorem RecordPlanned.coherent
    (covered : ∀ {on spread}, bound.Selected on (.spread spread) → spread.fragment ∈ names) :
    ∀ {active on selections plan result depth},
      RecordPlanned bound active on selections plan result → ActiveAmong names active →
      names.length ≤ depth + active.length →
      (∀ selection ∈ selections, bound.Selected on selection) →
      RecordPlan.Coherent bound.IsPlanOf depth plan → RecordPlan.Coherent bound.IsPlanOf depth result
  | _, _, _, _, _, _, .nil, _, _, _, coherent => coherent
  | _, _, _, _, _, _, .field selected below after, among, enough, stand, coherent => by
      have here := stand _ List.mem_cons_self
      have kind := below.coherent covered among enough fun _ inside => .field here selected inside
      exact after.coherent covered among enough
        (fun _ later => stand _ (List.mem_cons_of_mem _ later)) (coherent.push kind)
  | _, _, _, _, _, _, .spread entered _ expanded after, among, enough, stand, coherent => by
      have here := stand _ List.mem_cons_self
      have inner := among.enter entered.2 (covered here)
      obtain ⟨positive, enough'⟩ := inner.room enough
      have given := expanded.coherent covered inner enough'
        (fun _ inside => .spread here entered.1 inside) .empty
      exact after.coherent covered among enough
        (fun _ later => stand _ (List.mem_cons_of_mem _ later))
        (coherent.pushSpread ⟨⟨_, _, here, rfl⟩, _, _, entered.1, expanded⟩ positive given)

/-- What a field holds is coherent if the selections below it stand in the document. -/
theorem KindPlanned.coherent
    (covered : ∀ {on spread}, bound.Selected on (.spread spread) → spread.fragment ∈ names) :
    ∀ {active type selections kind depth},
      KindPlanned bound active type selections kind → ActiveAmong names active →
      names.length ≤ depth + active.length →
      (∀ selection ∈ selections, bound.Selected type selection) →
      FieldKind.Coherent bound.IsPlanOf depth kind
  | _, _, _, _, _, .leaf _, _, _, _ => .leaf _
  | _, _, _, _, _, .enum _, _, _, _ => .enum _
  | _, _, _, _, _, .object _ _ planned, among, enough, stand =>
      .object (planned.coherent covered among enough stand .empty)
  | _, _, _, _, _, .union _ _ planned _, among, enough, stand => by
      have draft := planned.coherent covered among enough stand .empty
      exact .union draft.distinct draft.selected draft.variants_coherent

/-- Selections that stand in the document keep a draft coherent. A fragment on the union itself
adds to the same draft while it is being expanded. -/
theorem UnionPlanned.coherent
    (covered : ∀ {on spread}, bound.Selected on (.spread spread) → spread.fragment ∈ names) :
    ∀ {active union members selections draft result depth},
      UnionPlanned bound active union members selections draft result → ActiveAmong names active →
      names.length ≤ depth + active.length →
      (∀ selection ∈ selections, bound.Selected union selection) →
      UnionDraft.Coherent bound.IsPlanOf depth members draft →
      UnionDraft.Coherent bound.IsPlanOf depth members result
  | _, _, _, _, _, _, _, .nil, _, _, _, coherent => coherent
  | _, _, _, _, _, _, _, .typename _ after, among, enough, stand, coherent =>
      after.coherent covered among enough
        (fun _ later => stand _ (List.mem_cons_of_mem _ later))
        ⟨coherent.distinct, coherent.selected, coherent.variants_coherent⟩
  | _, _, _, _, _, _, _, .inline conditioned member _ planned after, among, enough, stand,
      coherent => by
      have variant := planned.coherent covered among enough (fun selection inside => by
        have stands := BoundDocument.Selected.inline (stand _ List.mem_cons_self) inside
        simpa [InlineFragment.on, conditioned] using stands) .empty
      exact after.coherent covered among enough
        (fun _ later => stand _ (List.mem_cons_of_mem _ later))
        (coherent.addVariant member variant)
  | _, _, _, _, _, _, _, .merge entered same expanded after, among, enough, stand, coherent => by
      have here := stand _ List.mem_cons_self
      have inner := among.enter entered.2 (covered here)
      have merged := expanded.coherent covered inner
        (Nat.le_trans enough (Nat.add_le_add_left (Nat.le_succ _) _))
        (fun _ inside => same ▸ .spread here entered.1 inside) coherent
      exact after.coherent covered among enough
        (fun _ later => stand _ (List.mem_cons_of_mem _ later)) merged
  | _, _, _, _, _, _, _, .member entered other member _ expanded after, among, enough, stand,
      coherent => by
      have here := stand _ List.mem_cons_self
      have inner := among.enter entered.2 (covered here)
      obtain ⟨positive, enough'⟩ := inner.room enough
      have given := expanded.coherent covered inner enough'
        (fun _ inside => .spread here entered.1 inside) .empty
      have variant := RecordPlan.Coherent.empty.pushSpread
        ⟨⟨_, _, here, rfl⟩, _, _, entered.1, expanded⟩ positive given
      exact after.coherent covered among enough
        (fun _ later => stand _ (List.mem_cons_of_mem _ later))
        (coherent.addVariant member variant)

end

end Derivation

/-- The plan of an operation is coherent, and no deeper than the inventory has fragments. -/
theorem BoundDocument.operationPlan_coherent {bound : BoundDocument} {inventory : Inventory}
    (collected : bound.inventory = .ok inventory) {operation : Operation}
    (member : operation ∈ bound.operations) {plan : RecordPlan}
    (succeeded : bound.operationPlan operation = .ok plan) :
    RecordPlan.Coherent bound.IsPlanOf inventory.fragments.length plan := by
  obtain ⟨root, rooted, planned⟩ := operationPlanned succeeded
  have idle : ActiveAmong inventory.fragments [] := ⟨List.nodup_nil, List.nil_subset _⟩
  exact planned.coherent (fun selected => mem_inventory_of_spread collected selected) idle
    (Nat.le_refl _) (fun _ below => .operation member rooted below) .empty

end ElmClient
