/-
Module: ElmClient.Proofs.Generation.Agreement
Purpose: What is made of operations depends on the fragments that they reach and on no others. Two
  documents that have these fragments in common give the same plans, the same inventory, the same
  query texts and the same module, or fail in the same way.
Main exports: BoundDocument.AgreesOn, BoundDocument.AgreesOn.operationPlan,
  BoundDocument.AgreesOn.declaredFragmentPlan, BoundDocument.AgreesOn.inventory,
  BoundDocument.AgreesOn.queryText, BoundDocument.AgreesOn.elmModule
-/
import ElmClient.Generation
import ElmClient.Proofs.Inventory.Resolution

namespace ElmClient

open GraphQL

namespace BoundDocument

/-- Two documents about one schema that have some fragments in common, along with all that is
spread in these. -/
structure AgreesOn (bound other : BoundDocument) (names : String → Prop) : Prop where
  schema : other.schema = bound.schema
  fragment? : ∀ name, names name → other.fragment? name = bound.fragment? name
  closed : bound.SpreadClosed names

/-- Fewer fragments than two bounds say are unvisited in two documents. -/
structure Room (bound other : BoundDocument) (limit limit' : Nat) (visited : List String) :
    Prop where
  left : bound.unvisited visited < limit
  right : other.unvisited visited < limit'

variable {bound other : BoundDocument} {names : String → Prop} {limit limit' : Nat}

theorem Room.start (visited : List String) :
    Room bound other bound.spreadDepth other.spreadDepth visited :=
  ⟨bound.unvisited_lt_spreadDepth visited, other.unvisited_lt_spreadDepth visited⟩

theorem Room.mono {earlier later : List String} (room : Room bound other limit limit' earlier)
    (within : earlier ⊆ later) : Room bound other limit limit' later :=
  ⟨Nat.lt_of_le_of_lt (bound.unvisited_le_of_subset within) room.left,
    Nat.lt_of_le_of_lt (other.unvisited_le_of_subset within) room.right⟩

/-- Visiting a fragment that both documents have makes up for one step less. -/
theorem AgreesOn.enter (agrees : bound.AgreesOn other names) {visited : List String}
    (room : Room bound other (limit + 1) (limit' + 1) visited) {name : String} (known : names name)
    {fragment : Fragment} (found : bound.fragment? name = some fragment) (fresh : name ∉ visited) :
    Room bound other limit limit' (visited ++ [name]) := by
  have found' : other.fragment? name = some fragment := (agrees.fragment? name known).trans found
  have less := unvisited_concat_lt found fresh
  have less' := unvisited_concat_lt found' fresh
  exact ⟨by have := room.left; omega, by have := room.right; omega⟩

theorem AgreesOn.fragment (agrees : bound.AgreesOn other names) {name : String}
    (known : names name) (position : Position) :
    other.fragment name position = bound.fragment name position := by
  unfold BoundDocument.fragment
  rw [agrees.fragment? name known]

/-- Looking up a fragment finds the same one. -/
theorem AgreesOn.looksUp (agrees : bound.AgreesOn other names) {name : String}
    (known : names name) (position : Position) :
    Except.Agree (fun fragment => bound.fragment? name = some fragment)
      (bound.fragment name position) (other.fragment name position) :=
  ⟨agrees.fragment known position, fun _ looked => fragment_eq_ok.mp looked⟩

end BoundDocument

/-! ### Plans -/

/-- Two ways to plan fragments by which some of them are planned alike. -/
structure Expansion.AgreesOn (one other : Expansion) (names : String → Prop) : Prop where
  record : ∀ spread, names spread.fragment → other.record spread = one.record spread
  union : ∀ union members spread draft, names spread.fragment →
    other.union union members spread draft = one.union union members spread draft

section Plans

variable {schema : Schema} {one other : Expansion} {names : String → Prop}

mutual

theorem planRecordItem_congr (agrees : one.AgreesOn other names) :
    ∀ {selection : Selection} {on : String} {plan : RecordPlan}, selection.SpreadsAmong names →
      planRecordItem schema other on selection plan = planRecordItem schema one on selection plan
  | .field field brace selections, on, plan, among => by
      simp only [planRecordItem, planRecord_congr agrees among.field,
        planUnion_congr agrees among.field]
  | .spread spread, on, plan, among => by
      simp only [planRecordItem, agrees.record spread among.spread]
  | .inline inline brace selections, on, plan, among => by
      simp only [planRecordItem]

theorem planRecord_congr (agrees : one.AgreesOn other names) :
    ∀ {selections : List Selection} {on : String} {plan : RecordPlan},
      (∀ selection ∈ selections, selection.SpreadsAmong names) →
      planRecord schema other on selections plan = planRecord schema one on selections plan
  | [], on, plan, among => by
      simp only [planRecord]
  | selection :: rest, on, plan, among => by
      obtain ⟨here, later⟩ := List.forall_mem_cons.mp among
      simp only [planRecord, planRecordItem_congr agrees here, planRecord_congr agrees later]

theorem planUnionItem_congr (agrees : one.AgreesOn other names) :
    ∀ {selection : Selection} {union : String} {members : List String} {draft : UnionDraft},
      selection.SpreadsAmong names →
      planUnionItem schema other union members selection draft =
        planUnionItem schema one union members selection draft
  | .field field brace selections, union, members, draft, among => by
      simp only [planUnionItem]
  | .spread spread, union, members, draft, among => by
      simp only [planUnionItem, agrees.union _ _ spread _ among.spread]
  | .inline inline brace selections, union, members, draft, among => by
      simp only [planUnionItem, planRecord_congr agrees among.inline]

theorem planUnion_congr (agrees : one.AgreesOn other names) :
    ∀ {selections : List Selection} {union : String} {members : List String} {draft : UnionDraft},
      (∀ selection ∈ selections, selection.SpreadsAmong names) →
      planUnion schema other union members selections draft =
        planUnion schema one union members selections draft
  | [], union, members, draft, among => by
      simp only [planUnion]
  | selection :: rest, union, members, draft, among => by
      obtain ⟨here, later⟩ := List.forall_mem_cons.mp among
      simp only [planUnion, planUnionItem_congr agrees here, planUnion_congr agrees later]

end

end Plans

namespace BoundDocument.AgreesOn

variable {bound other : BoundDocument} {names : String → Prop} {limit limit' : Nat}
  {active : List String}

/-- What is being expanded and then one more fragment. -/
theorem enterSpread (agrees : bound.AgreesOn other names)
    (room : Room bound other (limit + 1) (limit' + 1) active) {name : String} (known : names name)
    {fragment : Fragment} (found : bound.fragment? name = some fragment) {position : Position}
    {entered : List String}
    (entering : BoundDocument.enterSpread active name position = .ok entered) :
    Room bound other limit limit' entered := by
  obtain ⟨fresh, rfl⟩ := enterSpread_eq_ok.mp entering
  refine (agrees.enter room known found fresh).mono ?_
  simp

theorem planSpread (agrees : bound.AgreesOn other names) {expand expand' : List String → Expansion}
    (alike : ∀ active, Room bound other limit limit' active →
      (expand active).AgreesOn (expand' active) names)
    (room : Room bound other (limit + 1) (limit' + 1) active) {spread : Spread}
    (known : names spread.fragment) :
    other.planSpread active expand' spread = bound.planSpread active expand spread := by
  unfold BoundDocument.planSpread
  rw [agrees.fragment known]
  refine Except.bind_congr fun fragment looked => Except.bind_congr fun entered entering => ?_
  have found := fragment_eq_ok.mp looked
  have inside := alike entered (agrees.enterSpread room known found entering)
  have among := agrees.closed _ known fragment found
  rw [agrees.schema]
  exact Except.bind_congr fun on _ => planRecord_congr inside among

theorem planUnionSpread (agrees : bound.AgreesOn other names)
    {expand expand' : List String → Expansion}
    (alike : ∀ active, Room bound other limit limit' active →
      (expand active).AgreesOn (expand' active) names)
    (room : Room bound other (limit + 1) (limit' + 1) active) {union : String}
    {members : List String} {spread : Spread} {draft : UnionDraft}
    (known : names spread.fragment) :
    other.planUnionSpread active expand' union members spread draft =
      bound.planUnionSpread active expand union members spread draft := by
  unfold BoundDocument.planUnionSpread
  rw [agrees.fragment known]
  refine Except.bind_congr fun fragment looked => ?_
  have found := fragment_eq_ok.mp looked
  dsimp only
  split
  · refine Except.bind_congr fun entered entering => ?_
    have inside := alike entered (agrees.enterSpread room known found entering)
    rw [agrees.schema]
    exact planUnion_congr inside (agrees.closed _ known fragment found)
  · rw [agrees.planSpread alike room known]

/-- Fragments that two documents have in common are planned alike, as long as both bounds leave room
for the fragments that are not being expanded. -/
theorem expansion (agrees : bound.AgreesOn other names)
    (room : Room bound other limit limit' active) :
    (bound.expansion limit active).AgreesOn (other.expansion limit' active) names := by
  induction limit generalizing limit' active with
  | zero => exact absurd room.left (Nat.not_lt_zero _)
  | succ limit ih =>
      cases limit' with
      | zero => exact absurd room.right (Nat.not_lt_zero _)
      | succ limit' =>
          have alike (active : List String) (room : Room bound other limit limit' active) := ih room
          exact ⟨fun _ known => agrees.planSpread alike room known,
            fun _ _ _ _ known => agrees.planUnionSpread alike room known⟩

theorem operationPlan (agrees : bound.AgreesOn other names) {operation : Operation}
    (among : ∀ selection ∈ operation.selections, selection.SpreadsAmong names) :
    other.operationPlan operation = bound.operationPlan operation := by
  unfold BoundDocument.operationPlan
  rw [agrees.schema]
  exact Except.bind_congr fun root _ => planRecord_congr (agrees.expansion (.start [])) among

theorem fragmentPlan (agrees : bound.AgreesOn other names) {name : String} (known : names name)
    (position : Position) :
    other.fragmentPlan name position = bound.fragmentPlan name position := by
  unfold BoundDocument.fragmentPlan planSelections
  rw [agrees.fragment known, agrees.schema]
  refine Except.bind_congr fun fragment looked => Except.bind_congr fun on _ => ?_
  have inside := agrees.expansion (.start [name])
  have among := agrees.closed _ known fragment (fragment_eq_ok.mp looked)
  split
  · rw [planUnion_congr inside among]
  · rw [planRecord_congr inside among]

theorem declaredFragmentPlan (agrees : bound.AgreesOn other names) {name : String}
    (known : names name) : other.declaredFragmentPlan name = bound.declaredFragmentPlan name := by
  unfold BoundDocument.declaredFragmentPlan
  rw [agrees.fragment known]
  exact Except.bind_congr fun fragment _ => by rw [agrees.fragmentPlan known]

end BoundDocument.AgreesOn

/-! ### Inventories -/

/-- A list of names that comes after another: it has no others but those given. -/
structure GrowsBy (names : String → Prop) (earlier later : List String) : Prop where
  within : earlier ⊆ later
  added : ∀ name ∈ later, name ∈ earlier ∨ names name

namespace GrowsBy

variable {names : String → Prop}

theorem refl (visited : List String) : GrowsBy names visited visited :=
  ⟨List.Subset.refl _, fun _ => Or.inl⟩

theorem trans {first second third : List String} (one : GrowsBy names first second)
    (two : GrowsBy names second third) : GrowsBy names first third :=
  ⟨List.Subset.trans one.within two.within,
    fun name member => (two.added name member).elim (one.added name) Or.inr⟩

theorem concat {name : String} (known : names name) (visited : List String) :
    GrowsBy names visited (visited ++ [name]) := by
  refine ⟨List.subset_append_left _ _, fun other member => ?_⟩
  rcases List.mem_append.mp member with old | new
  · exact Or.inl old
  · exact Or.inr (List.mem_singleton.mp new ▸ known)

end GrowsBy

/-- Visits of fragments that two documents have in common do the same, as long as both bounds leave
room for the fragments that are not visited yet. -/
def BoundDocument.VisitsAgree (bound other : BoundDocument) (names : String → Prop)
    (limit limit' : Nat) (visit visit' : SpreadVisit) : Prop :=
  ∀ {spread : Spread} {inventory : Inventory}, names spread.fragment →
    Room bound other limit limit' inventory.fragments →
    Except.Agree (fun result => GrowsBy names inventory.fragments result.fragments)
      (visit spread inventory) (visit' spread inventory)

section Inventories

variable {bound other : BoundDocument} {names : String → Prop} {limit limit' : Nat}
  {schema : Schema} {visit visit' : SpreadVisit}

mutual

theorem collectItem_agree (visits : bound.VisitsAgree other names limit limit' visit visit') :
    ∀ {selection : Selection} {on : String} {inventory : Inventory},
      selection.SpreadsAmong names → bound.Room other limit limit' inventory.fragments →
      Except.Agree (fun result => GrowsBy names inventory.fragments result.fragments)
        (collectItem schema visit on selection inventory)
        (collectItem schema visit' on selection inventory)
  | .field field brace selections, on, inventory, among, room => by
      rw [collectItem_field, collectItem_field]
      refine (Except.Agree.of_eq rfl).bind fun type _ => ?_
      rw [← Inventory.fragments_noteField schema type selections] at room ⊢
      exact collectSelections_agree visits among.field room
  | .spread spread, on, inventory, among, room => by
      simp only [collectItem]
      exact visits among.spread room
  | .inline inline brace selections, on, inventory, among, room => by
      have below (on : String) :
          Except.Agree (fun result => GrowsBy names inventory.fragments result.fragments)
            (collectSelections schema visit on selections (inventory.noteUnion schema on))
            (collectSelections schema visit' on selections (inventory.noteUnion schema on)) := by
        rw [← Inventory.fragments_noteUnion schema on] at room ⊢
        exact collectSelections_agree visits among.inline room
      simp only [collectItem]
      split
      · exact (Except.Agree.of_eq rfl).bind fun on _ => below on
      · exact below on

theorem collectSelections_agree (visits : bound.VisitsAgree other names limit limit' visit visit') :
    ∀ {selections : List Selection} {on : String} {inventory : Inventory},
      (∀ selection ∈ selections, selection.SpreadsAmong names) →
      bound.Room other limit limit' inventory.fragments →
      Except.Agree (fun result => GrowsBy names inventory.fragments result.fragments)
        (collectSelections schema visit on selections inventory)
        (collectSelections schema visit' on selections inventory)
  | [], on, inventory, among, room => by
      simp only [collectSelections]
      exact .ok (.refl _)
  | selection :: rest, on, inventory, among, room => by
      obtain ⟨here, later⟩ := List.forall_mem_cons.mp among
      simp only [collectSelections]
      refine (collectItem_agree visits here room).bind fun next grown => ?_
      exact (collectSelections_agree visits later (room.mono grown.within)).imp
        fun _ after => grown.trans after

end

namespace BoundDocument.AgreesOn

/-- A visit of a fragment that two documents have in common does the same. -/
theorem visitSpread (agrees : bound.AgreesOn other names) :
    bound.VisitsAgree other names limit limit' (bound.visitSpread limit)
      (other.visitSpread limit') := by
  induction limit generalizing limit' with
  | zero => exact fun _ room => absurd room.left (Nat.not_lt_zero _)
  | succ limit ih =>
      cases limit' with
      | zero => exact fun _ room => absurd room.right (Nat.not_lt_zero _)
      | succ limit' =>
          intro spread inventory known room
          simp only [BoundDocument.visitSpread]
          split
          case isTrue => exact .ok (.refl _)
          case isFalse fresh =>
            rw [List.contains_iff_mem] at fresh
            rw [agrees.schema]
            refine (agrees.looksUp known _).bind fun fragment found => ?_
            refine (Except.Agree.of_eq rfl).bind fun on _ => ?_
            have visited : ((inventory.addFragment spread.fragment).noteUnion bound.schema
                on).fragments = inventory.fragments ++ [spread.fragment] :=
              Inventory.fragments_noteUnion _ _ _
            have inside := agrees.enter room known found fresh
            rw [← visited] at inside
            refine (collectSelections_agree ih (agrees.closed _ known _ found) inside).imp ?_
            intro result grown
            rw [visited] at grown
            exact (GrowsBy.concat known _).trans grown

theorem collectOperation (agrees : bound.AgreesOn other names) {operation : Operation}
    (among : ∀ selection ∈ operation.selections, selection.SpreadsAmong names)
    (inventory : Inventory) :
    Except.Agree (fun result => GrowsBy names inventory.fragments result.fragments)
      (bound.collectOperation inventory operation)
      (other.collectOperation inventory operation) := by
  unfold BoundDocument.collectOperation
  rw [agrees.schema]
  refine (Except.Agree.of_eq rfl).bind fun root _ => ?_
  have noted : ((bound.noteVariables operation inventory).noteUnion bound.schema root).fragments =
      inventory.fragments := by
    rw [Inventory.fragments_noteUnion, fragments_noteVariables]
  rw [← noted]
  exact collectSelections_agree agrees.visitSpread among (.start _)

theorem collectOperations (agrees : bound.AgreesOn other names) {operations : List Operation}
    (among : ∀ operation ∈ operations, ∀ selection ∈ operation.selections,
      selection.SpreadsAmong names) (inventory : Inventory) :
    Except.Agree (fun result => GrowsBy names inventory.fragments result.fragments)
      (operations.foldlM bound.collectOperation inventory)
      (operations.foldlM other.collectOperation inventory) := by
  induction operations generalizing inventory with
  | nil => exact .ok (.refl _)
  | cons first rest ih =>
      obtain ⟨here, later⟩ := List.forall_mem_cons.mp among
      rw [List.foldlM_cons, List.foldlM_cons]
      refine (agrees.collectOperation here inventory).bind fun next grown => ?_
      exact (ih later next).imp fun _ after => grown.trans after

end BoundDocument.AgreesOn

end Inventories

/-! ### Query texts -/

/-- Visits of fragments that two documents have in common print the same, as long as both bounds
leave room for the fragments that are not printed yet. -/
def BoundDocument.PrintsAgree (bound other : BoundDocument) (names : String → Prop)
    (limit limit' : Nat) (visit visit' : FragmentVisit) : Prop :=
  ∀ {spread : Spread} {used : List Fragment}, names spread.fragment →
    Room bound other limit limit' (used.map (·.name)) →
    Except.Agree (fun result => used ⊆ result) (visit spread used) (visit' spread used)

section QueryTexts

variable {bound other : BoundDocument} {names : String → Prop} {limit limit' : Nat}
  {visit visit' : FragmentVisit}

mutual

theorem usedByItem_agree (visits : bound.PrintsAgree other names limit limit' visit visit') :
    ∀ {selection : Selection} {used : List Fragment}, selection.SpreadsAmong names →
      bound.Room other limit limit' (used.map (·.name)) →
      Except.Agree (fun result => used ⊆ result) (usedByItem visit selection used)
        (usedByItem visit' selection used)
  | .field field brace selections, used, among, room => by
      simp only [usedByItem]
      exact usedBySelections_agree visits among.field room
  | .spread spread, used, among, room => by
      simp only [usedByItem]
      exact visits among.spread room
  | .inline inline brace selections, used, among, room => by
      simp only [usedByItem]
      exact usedBySelections_agree visits among.inline room

theorem usedBySelections_agree (visits : bound.PrintsAgree other names limit limit' visit visit') :
    ∀ {selections : List Selection} {used : List Fragment},
      (∀ selection ∈ selections, selection.SpreadsAmong names) →
      bound.Room other limit limit' (used.map (·.name)) →
      Except.Agree (fun result => used ⊆ result) (usedBySelections visit selections used)
        (usedBySelections visit' selections used)
  | [], used, among, room => by
      simp only [usedBySelections]
      exact .ok (List.Subset.refl _)
  | selection :: rest, used, among, room => by
      obtain ⟨here, later⟩ := List.forall_mem_cons.mp among
      simp only [usedBySelections]
      refine (usedByItem_agree visits here room).bind fun next within => ?_
      exact (usedBySelections_agree visits later (room.mono (List.map_subset _ within))).imp
        fun _ after => List.Subset.trans within after

end

namespace BoundDocument.AgreesOn

/-- A visit of a fragment that two documents have in common prints the same. -/
theorem visitFragment (agrees : bound.AgreesOn other names) :
    bound.PrintsAgree other names limit limit' (bound.visitFragment limit)
      (other.visitFragment limit') := by
  induction limit generalizing limit' with
  | zero => exact fun _ room => absurd room.left (Nat.not_lt_zero _)
  | succ limit ih =>
      cases limit' with
      | zero => exact fun _ room => absurd room.right (Nat.not_lt_zero _)
      | succ limit' =>
          intro spread used known room
          simp only [BoundDocument.visitFragment]
          split
          case isTrue => exact .ok (List.Subset.refl _)
          case isFalse unseen =>
            have fresh : spread.fragment ∉ used.map (·.name) := by
              simpa [List.any_eq_true] using unseen
            refine (agrees.looksUp known _).bind fun fragment found => ?_
            have inside := agrees.enter room known found fresh
            rw [← map_name_concat found] at inside
            exact (usedBySelections_agree ih (agrees.closed _ known _ found) inside).imp
              fun _ within => List.Subset.trans (List.subset_append_left _ _) within

theorem queryText (agrees : bound.AgreesOn other names) {operation : Operation}
    (among : ∀ selection ∈ operation.selections, selection.SpreadsAmong names) :
    other.queryText operation = bound.queryText operation := by
  have used : other.usedFragments operation = bound.usedFragments operation :=
    (usedBySelections_agree agrees.visitFragment among (.start _)).same
  unfold BoundDocument.queryText
  rw [used]

end BoundDocument.AgreesOn

end QueryTexts

/-! ### Modules -/

namespace BoundDocument.AgreesOn

variable {bound other : BoundDocument} {names : String → Prop} {options : GenerationOptions}

theorem operationClient (agrees : bound.AgreesOn other names) {operation : Operation}
    (among : ∀ selection ∈ operation.selections, selection.SpreadsAmong names)
    (shared : SharedInputs) :
    other.operationClient options shared operation =
      bound.operationClient options shared operation := by
  unfold BoundDocument.operationClient
  rw [agrees.operationPlan among, agrees.queryText among, agrees.schema]

theorem operationClients (agrees : bound.AgreesOn other names) {operations : List Operation}
    (among : ∀ operation ∈ operations, ∀ selection ∈ operation.selections,
      selection.SpreadsAmong names) (shared : SharedInputs) :
    other.operationClients options operations shared =
      bound.operationClients options operations shared := by
  induction operations generalizing shared with
  | nil => rfl
  | cons first rest ih =>
      obtain ⟨here, later⟩ := List.forall_mem_cons.mp among
      unfold BoundDocument.operationClients
      rw [agrees.operationClient here]
      exact Except.bind_congr fun (client, shared) _ => by simp only [ih later]

/-- Documents with the same operations that have in common all fragments that these reach have the
same inventory, which has no other fragments. -/
theorem inventory (agrees : bound.AgreesOn other names)
    (same : other.operations = bound.operations)
    (among : ∀ operation ∈ bound.operations, ∀ selection ∈ operation.selections,
      selection.SpreadsAmong names) :
    Except.Agree (fun result => ∀ name ∈ result.fragments, names name)
      bound.inventory other.inventory := by
  unfold BoundDocument.inventory
  rw [same]
  refine (agrees.collectOperations among {}).imp fun result grown name member => ?_
  exact (grown.added name member).resolve_left List.not_mem_nil

/-- Documents with the same operations that have in common all fragments that these reach have the
same module. -/
theorem elmModule (agrees : bound.AgreesOn other names)
    (same : other.operations = bound.operations)
    (among : ∀ operation ∈ bound.operations, ∀ selection ∈ operation.selections,
      selection.SpreadsAmong names) :
    other.elmModule options = bound.elmModule options := by
  obtain ⟨collected, known⟩ := agrees.inventory same among
  unfold BoundDocument.elmModule
  rw [collected, same]
  refine Except.bind_congr fun inventory reached => ?_
  have planned : inventory.fragments.mapM other.declaredFragmentPlan =
      inventory.fragments.mapM bound.declaredFragmentPlan :=
    Except.mapM_congr fun name member =>
      agrees.declaredFragmentPlan (known _ reached name member)
  rw [planned, agrees.operationClients among]

end BoundDocument.AgreesOn

end ElmClient
