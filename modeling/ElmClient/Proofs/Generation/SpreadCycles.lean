/-
Module: ElmClient.Proofs.Generation.SpreadCycles
Purpose: Fragments that spread one another in circles. The fragments that are being expanded are
  those on the way to where planning stands, so one that comes again has been reached from itself.
  Hence no circle is reported where there is none, however often fragments are spread, and no
  document that reaches a circle has a module.
Main exports: BareTypenames, BoundDocument.Nests, BoundDocument.LeadsPast, RecordPlanned.leadsPast,
  GenerationError.Circles, BoundDocument.GoesInCircles, BoundDocument.expansion_circles,
  generate_fragmentCycle
-/
import ElmClient.Proofs.Generation.Declarations
import ElmClient.Proofs.Inventory.Discovery
import ElmClient.Proofs.QueryText.SpreadOrder

namespace ElmClient

open GraphQL

namespace GraphQL

mutual

/-- In a selection, the name of a type is nowhere selected with a selection set. -/
def Selection.BareTypenames : Selection → Prop
  | .field field _ selections =>
      (field.name = "__typename" → selections = []) ∧ BareTypenames selections
  | .spread _ => True
  | .inline _ _ selections => BareTypenames selections
termination_by structural selection => selection

/-- In selections, the name of a type is nowhere selected with a selection set. -/
def BareTypenames : List Selection → Prop
  | [] => True
  | selection :: rest => selection.BareTypenames ∧ BareTypenames rest
termination_by structural selections => selections

end

end GraphQL

namespace BoundDocument

/-- A fragment is spread somewhere in another one. -/
def Nests (bound : BoundDocument) (outer inner : String) : Prop :=
  ∃ fragment, bound.fragment? outer = some fragment ∧ SpreadIn inner fragment.selections

/-- No spread in selections leads to a fragment that is being expanded. -/
def LeadsPast (bound : BoundDocument) (active : List String) (selections : List Selection) : Prop :=
  ∀ inner, SpreadIn inner selections → ∀ target, Relation.ReflTransGen bound.Nests inner target →
    target ∉ active

namespace LeadsPast

variable {bound : BoundDocument} {active : List String} {rest : List Selection}

theorem nil : bound.LeadsPast active [] := by
  rintro inner ⟨_, absent, _⟩
  exact absurd absent List.not_mem_nil

theorem cons {selection : Selection}
    (here : ∀ inner, selection.Spreads inner →
      ∀ target, Relation.ReflTransGen bound.Nests inner target → target ∉ active)
    (later : bound.LeadsPast active rest) : bound.LeadsPast active (selection :: rest) := by
  rintro inner ⟨other, member, inside⟩
  rcases List.mem_cons.mp member with rfl | after
  · exact here inner inside
  · exact later inner ⟨other, after, inside⟩

theorem field {field : Field} {brace : Position} {selections : List Selection}
    (below : bound.LeadsPast active selections) (later : bound.LeadsPast active rest) :
    bound.LeadsPast active (.field field brace selections :: rest) := by
  refine cons ?_ later
  rintro inner (_ | ⟨member, inside⟩)
  exact below inner ⟨_, member, inside⟩

theorem inline {inline : InlineFragment} {brace : Position} {selections : List Selection}
    (below : bound.LeadsPast active selections) (later : bound.LeadsPast active rest) :
    bound.LeadsPast active (.inline inline brace selections :: rest) := by
  refine cons ?_ later
  rintro inner (_ | _ | ⟨member, inside⟩)
  exact below inner ⟨_, member, inside⟩

/-- A fragment that is entered leads past those that are being expanded, if what it selects leads
past them and past the fragment itself. -/
theorem spread {spread : Spread} {fragment : Fragment}
    (entered : bound.Enters active spread.fragment fragment)
    (inside : bound.LeadsPast (spread.fragment :: active) fragment.selections)
    (later : bound.LeadsPast active rest) : bound.LeadsPast active (.spread spread :: rest) := by
  refine cons ?_ later
  rintro inner ⟨rfl⟩ target reached
  rcases Relation.ReflTransGen.cases_head reached with
    rfl | ⟨middle, ⟨fragment', found, nested⟩, on⟩
  · exact entered.2
  · obtain rfl := Option.some.inj (found.symm.trans entered.1)
    exact fun onWay => inside middle nested target on (List.mem_cons_of_mem _ onWay)

end LeadsPast

/-- A fragment does not reach itself if what it selects leads past it. -/
theorem LeadsPast.not_transGen {bound : BoundDocument} {name : String} {fragment : Fragment}
    (found : bound.fragment? name = some fragment)
    (past : bound.LeadsPast [name] fragment.selections) :
    ¬ Relation.TransGen bound.Nests name name := by
  intro circle
  obtain ⟨middle, ⟨fragment', found', nested⟩, on⟩ := Relation.TransGen.head'_iff.mp circle
  obtain rfl := Option.some.inj (found.symm.trans found')
  exact past middle nested name on List.mem_cons_self

end BoundDocument

/-! ### What has a plan leads past the fragments that are being expanded -/

section Planned

variable {bound : BoundDocument}

mutual

theorem RecordPlanned.leadsPast
    (bare : ∀ fragment ∈ bound.fragments, BareTypenames fragment.selections) :
    ∀ {active on selections plan result}, RecordPlanned bound active on selections plan result →
      BareTypenames selections → bound.LeadsPast active selections
  | _, _, _, _, _, .nil, _ => .nil
  | _, _, _, _, _, .field _ below after, ⟨⟨_, inside⟩, others⟩ =>
      .field (below.leadsPast bare inside) (after.leadsPast bare others)
  | _, _, _, _, _, .spread entered _ expanded after, ⟨_, others⟩ =>
      .spread entered (expanded.leadsPast bare (bare _ (BoundDocument.mem_of_fragment? entered.1)))
        (after.leadsPast bare others)

theorem KindPlanned.leadsPast
    (bare : ∀ fragment ∈ bound.fragments, BareTypenames fragment.selections) :
    ∀ {active type selections kind}, KindPlanned bound active type selections kind →
      BareTypenames selections → bound.LeadsPast active selections
  | _, _, _, _, .leaf _, _ => .nil
  | _, _, _, _, .enum _, _ => .nil
  | _, _, _, _, .object _ _ planned, inside => planned.leadsPast bare inside
  | _, _, _, _, .union _ _ planned _, inside => planned.leadsPast bare inside

/-- The name of the type is not looked into on a union, so nothing may be selected below it. -/
theorem UnionPlanned.leadsPast
    (bare : ∀ fragment ∈ bound.fragments, BareTypenames fragment.selections) :
    ∀ {active union members selections draft result},
      UnionPlanned bound active union members selections draft result →
      BareTypenames selections → bound.LeadsPast active selections
  | _, _, _, _, _, _, .nil, _ => .nil
  | _, _, _, _, _, _, .typename named after, ⟨⟨nothing, _⟩, others⟩ => by
      rw [nothing named]
      exact .field .nil (after.leadsPast bare others)
  | _, _, _, _, _, _, .inline _ _ _ planned after, ⟨inside, others⟩ =>
      .inline (planned.leadsPast bare inside) (after.leadsPast bare others)
  | _, _, _, _, _, _, .merge entered _ expanded after, ⟨_, others⟩ =>
      .spread entered (expanded.leadsPast bare (bare _ (BoundDocument.mem_of_fragment? entered.1)))
        (after.leadsPast bare others)
  | _, _, _, _, _, _, .member entered _ _ _ expanded after, ⟨_, others⟩ =>
      .spread entered (expanded.leadsPast bare (bare _ (BoundDocument.mem_of_fragment? entered.1)))
        (after.leadsPast bare others)

end

/-- A fragment with a plan does not reach itself. -/
theorem BoundDocument.not_transGen_of_fragmentPlan
    (bare : ∀ fragment ∈ bound.fragments, BareTypenames fragment.selections) {name : String}
    {position : Position} {plan : SelectionPlan}
    (planned : bound.fragmentPlan name position = .ok plan) :
    ¬ Relation.TransGen bound.Nests name name := by
  obtain ⟨fragment, found, _, derived⟩ := fragmentPlanned planned
  have inside := bare fragment (mem_of_fragment? found)
  refine LeadsPast.not_transGen found ?_
  cases plan with
  | record => exact derived.leadsPast bare inside
  | union =>
      obtain ⟨_, _, _, drafted, _⟩ := derived
      exact drafted.leadsPast bare inside

end Planned

/-! ### Where a circle is reported -/

/-- A cause that is no circle of fragments, or names a fragment with a property. -/
def GenerationError.Circles (holds : String → Prop) : GenerationError → Prop
  | .fragmentCycle name _ => holds name
  | _ => True

section Circles

variable {schema : Schema} {holds : String → Prop}

theorem Schema.rootType_circles (kind : OperationKind) (operation : String) :
    Except.FailsOnly (GenerationError.Circles holds) (schema.rootType kind operation) := by
  unfold rootType
  split
  · exact .ok _
  · exact .error trivial

theorem Schema.selectedType_circles (parent field : String) (position : Position) :
    Except.FailsOnly (GenerationError.Circles holds)
      (schema.selectedType parent field position) := by
  refine .ite (fun _ => .ok _) fun _ => ?_
  split
  · exact .ok _
  · exact .error trivial

theorem Schema.conditionType_circles (name : String) (position : Position) :
    Except.FailsOnly (GenerationError.Circles holds) (schema.conditionType name position) := by
  unfold conditionType
  split
  · exact .ite (fun _ => .ok _) fun _ => .error trivial
  · exact .error trivial

theorem requireMember_circles (union : String) (members : List String) (member : String)
    (position : Position) :
    Except.FailsOnly (GenerationError.Circles holds)
      (requireMember union members member position) :=
  .ite (fun _ => .ok _) fun _ => .error trivial

theorem UnionDraft.finish_circles (union : String) (members : List String) (brace : Position)
    (draft : UnionDraft) :
    Except.FailsOnly (GenerationError.Circles holds) (draft.finish union members brace) :=
  .ite (fun _ => .ok _) fun _ => .error trivial

theorem BoundDocument.fragment_circles (bound : BoundDocument) (name : String)
    (position : Position) :
    Except.FailsOnly (GenerationError.Circles holds) (bound.fragment name position) := by
  unfold fragment
  split
  · exact .ok _
  · exact .error trivial

theorem planField_circles {on : String} {field : Field} {hasSelections : Bool}
    {asRecord : String → Except GenerationError RecordPlan}
    {asUnion : String → List String → Except GenerationError UnionPlan}
    (records : ∀ type, Except.FailsOnly (GenerationError.Circles holds) (asRecord type))
    (unions : ∀ type members,
      Except.FailsOnly (GenerationError.Circles holds) (asUnion type members)) :
    Except.FailsOnly (GenerationError.Circles holds)
      (planField schema on field hasSelections asRecord asUnion) := by
  refine .bind (schema.selectedType_circles _ _ _) fun type _ => ?_
  dsimp only
  cases schema.get? type.name with
  | none => exact .bind (.ite (fun _ => .error trivial) fun _ => .ok _) fun _ _ => .ok _
  | some body =>
      cases body with
      | scalar | enum =>
          exact .bind (.ite (fun _ => .error trivial) fun _ => .ok _) fun _ _ => .ok _
      | union members =>
          exact .bind (.ite (fun _ => (unions _ _).map) fun _ => .error trivial) fun _ _ => .ok _
      | object | interface | inputObject =>
          exact .bind (.ite (fun _ => (records _).map) fun _ => .error trivial) fun _ _ => .ok _

/-- Where some spreads are followed, no circle is reported but for fragments with a property. -/
structure Expansion.Circles (holds spread : String → Prop) (expand : Expansion) : Prop where
  record : ∀ used, spread used.fragment →
    Except.FailsOnly (GenerationError.Circles holds) (expand.record used)
  union : ∀ union members used draft, spread used.fragment →
    Except.FailsOnly (GenerationError.Circles holds) (expand.union union members used draft)

variable {spread : String → Prop} {expand : Expansion}

mutual

theorem planRecordItem_circles (circles : expand.Circles holds spread) :
    ∀ {selection : Selection} (on : String) (plan : RecordPlan),
      (∀ name, selection.Spreads name → spread name) →
      Except.FailsOnly (GenerationError.Circles holds)
        (planRecordItem schema expand on selection plan)
  | .field _ brace selections, _, _, within => by
      have below (name : String) (inside : SpreadIn name selections) : spread name := by
        obtain ⟨_, member, deeper⟩ := inside
        exact within name (.field member deeper)
      refine .bind (planField_circles (fun type => ?_) fun type members => ?_) fun _ _ => .ok _
      · exact planRecord_circles circles _ _ below
      · exact .bind (planUnion_circles circles _ _ _ below) fun draft _ =>
          draft.finish_circles type members brace
  | .spread used, _, _, within =>
      .bind (circles.record used (within _ (.here rfl))) fun _ _ => .ok _
  | .inline _ _ _, _, _, _ => .error trivial

theorem planRecord_circles (circles : expand.Circles holds spread) :
    ∀ {selections : List Selection} (on : String) (plan : RecordPlan),
      (∀ name, SpreadIn name selections → spread name) →
      Except.FailsOnly (GenerationError.Circles holds) (planRecord schema expand on selections plan)
  | [], _, plan, _ => .ok plan
  | selection :: _, on, plan, within =>
      .bind (planRecordItem_circles circles on plan fun name inside =>
          within name ⟨selection, List.mem_cons_self, inside⟩) fun next _ =>
        planRecord_circles circles on next fun name ⟨other, member, inside⟩ =>
          within name ⟨other, List.mem_cons_of_mem _ member, inside⟩

theorem planUnionItem_circles (circles : expand.Circles holds spread) :
    ∀ {selection : Selection} (union : String) (members : List String) (draft : UnionDraft),
      (∀ name, selection.Spreads name → spread name) →
      Except.FailsOnly (GenerationError.Circles holds)
        (planUnionItem schema expand union members selection draft)
  | .field _ _ _, _, _, _, _ =>
      .ite (fun _ => .ok _) fun _ => .error trivial
  | .spread used, union, members, draft, within =>
      circles.union union members used draft (within _ (.here rfl))
  | .inline inline _ _, _, _, _, within => by
      unfold planUnionItem
      split
      · exact .error trivial
      · refine .bind (requireMember_circles _ _ _ _) fun _ _ => ?_
        refine .bind (schema.conditionType_circles _ _) fun on _ => .bind ?_ fun _ _ => .ok _
        exact planRecord_circles circles on {} fun name ⟨_, member, inside⟩ =>
          within name (.inline member inside)

theorem planUnion_circles (circles : expand.Circles holds spread) :
    ∀ {selections : List Selection} (union : String) (members : List String) (draft : UnionDraft),
      (∀ name, SpreadIn name selections → spread name) →
      Except.FailsOnly (GenerationError.Circles holds)
        (planUnion schema expand union members selections draft)
  | [], _, _, draft, _ => .ok draft
  | selection :: _, union, members, draft, within =>
      .bind (planUnionItem_circles circles union members draft fun name inside =>
          within name ⟨selection, List.mem_cons_self, inside⟩) fun next _ =>
        planUnion_circles circles union members next fun name ⟨other, member, inside⟩ =>
          within name ⟨other, List.mem_cons_of_mem _ member, inside⟩

end

end Circles

/-! ### What is being expanded leads to where planning stands -/

namespace BoundDocument

/-- A fragment is reached from an operation of the document. -/
def Uses (bound : BoundDocument) (name : String) : Prop :=
  ∃ operation ∈ bound.operations, bound.Reached operation name

/-- A fragment that is used and reaches itself. -/
def GoesInCircles (bound : BoundDocument) (name : String) : Prop :=
  bound.Uses name ∧ Relation.TransGen bound.Nests name name

/-- A fragment that is used, and that all those being expanded reach. -/
def OnWay (bound : BoundDocument) (active : List String) (name : String) : Prop :=
  bound.Uses name ∧ ∀ outer ∈ active, Relation.TransGen bound.Nests outer name

section

variable {bound : BoundDocument}

/-- What is spread in a fragment on the way is on the way from it, too. -/
theorem OnWay.enter {active : List String} {name inner : String} {fragment : Fragment}
    (onWay : bound.OnWay active name) (found : bound.fragment? name = some fragment)
    (inside : SpreadIn inner fragment.selections) : bound.OnWay (name :: active) inner := by
  obtain ⟨⟨operation, among, reached⟩, behind⟩ := onWay
  have nested : bound.Nests name inner := ⟨fragment, found, inside⟩
  refine ⟨⟨operation, among, .fragment reached found inside⟩, fun outer member => ?_⟩
  rcases List.mem_cons.mp member with rfl | earlier
  · exact .single nested
  · exact .tail (behind outer earlier) nested

/-- A fragment on the way that is being expanded has come again. -/
theorem enterSpread_circles {active : List String} {name : String} (position : Position)
    (onWay : bound.OnWay active name) :
    Except.FailsOnly (GenerationError.Circles bound.GoesInCircles)
      (enterSpread active name position) := by
  refine .ite (fun again => .error ⟨onWay.1, onWay.2 name ?_⟩) fun _ => .ok _
  simpa using again

/-- There are fewer fragments to come after one has been entered. -/
theorem unvisited_lt_of_enters {active : List String} {name : String} {fragment : Fragment}
    (entered : bound.Enters active name fragment) :
    bound.unvisited (name :: active) < bound.unvisited active :=
  Nat.lt_of_le_of_lt (bound.unvisited_le_of_subset (by simp))
    (unvisited_concat_lt entered.1 entered.2)

theorem planSpread_circles {active : List String} {expansion : List String → Expansion}
    {spread : Spread} (onWay : bound.OnWay active spread.fragment)
    (inside : ∀ fragment, bound.Enters active spread.fragment fragment →
      (expansion (spread.fragment :: active)).Circles bound.GoesInCircles
        (bound.OnWay (spread.fragment :: active))) :
    Except.FailsOnly (GenerationError.Circles bound.GoesInCircles)
      (bound.planSpread active expansion spread) := by
  refine .bind (bound.fragment_circles _ _) fun fragment looked =>
    .bind (enterSpread_circles _ onWay) fun active' entering => ?_
  obtain ⟨fresh, rfl⟩ := enterSpread_eq_ok.mp entering
  have found := fragment_eq_ok.mp looked
  refine .bind (bound.schema.conditionType_circles _ _) fun on _ => ?_
  exact planRecord_circles (inside fragment ⟨found, fresh⟩) on {} fun _ spread =>
    onWay.enter found spread

theorem planUnionSpread_circles {active : List String} {expansion : List String → Expansion}
    {spread : Spread} (onWay : bound.OnWay active spread.fragment)
    (inside : ∀ fragment, bound.Enters active spread.fragment fragment →
      (expansion (spread.fragment :: active)).Circles bound.GoesInCircles
        (bound.OnWay (spread.fragment :: active)))
    (union : String) (members : List String) (draft : UnionDraft) :
    Except.FailsOnly (GenerationError.Circles bound.GoesInCircles)
      (bound.planUnionSpread active expansion union members spread draft) := by
  refine .bind (bound.fragment_circles _ _) fun fragment looked => .ite (fun _ => ?_) fun _ => ?_
  · refine .bind (enterSpread_circles _ onWay) fun active' entering => ?_
    obtain ⟨fresh, rfl⟩ := enterSpread_eq_ok.mp entering
    have found := fragment_eq_ok.mp looked
    exact planUnion_circles (inside fragment ⟨found, fresh⟩) union members draft fun _ spread =>
      onWay.enter found spread
  · exact .bind (requireMember_circles _ _ _ _) fun _ _ =>
      .bind (planSpread_circles onWay inside) fun _ _ => .ok _

/-- The depth does not run out before a fragment comes again, so what is reported goes in circles.
-/
theorem expansion_circles (bound : BoundDocument) (depth : Nat) :
    ∀ active, bound.unvisited active < depth →
      (bound.expansion depth active).Circles bound.GoesInCircles (bound.OnWay active) := by
  induction depth with
  | zero => exact fun active few => absurd few (Nat.not_lt_zero _)
  | succ depth ih =>
      intro active few
      have inside (name : String) (fragment : Fragment)
          (entered : bound.Enters active name fragment) :
          (bound.expansion depth (name :: active)).Circles bound.GoesInCircles
            (bound.OnWay (name :: active)) := by
        have fewer := unvisited_lt_of_enters entered
        exact ih _ (by omega)
      exact ⟨fun spread onWay => planSpread_circles onWay (inside spread.fragment),
        fun union members spread draft onWay =>
          planUnionSpread_circles onWay (inside spread.fragment) union members draft⟩

theorem operationPlan_circles {operation : Operation} (among : operation ∈ bound.operations) :
    Except.FailsOnly (GenerationError.Circles bound.GoesInCircles)
      (bound.operationPlan operation) := by
  have circles := bound.expansion_circles bound.spreadDepth [] (bound.unvisited_lt_spreadDepth [])
  refine .bind (bound.schema.rootType_circles _ _) fun root _ => ?_
  exact planRecord_circles circles root {} fun name inside =>
    ⟨⟨operation, among, .operation inside⟩, fun _ absent => absurd absent List.not_mem_nil⟩

/-- A fragment is planned with itself being expanded. -/
theorem fragmentPlan_circles {name : String} (used : bound.Uses name) (position : Position) :
    Except.FailsOnly (GenerationError.Circles bound.GoesInCircles)
      (bound.fragmentPlan name position) := by
  have circles := bound.expansion_circles bound.spreadDepth [name]
    (bound.unvisited_lt_spreadDepth [name])
  have start : bound.OnWay [] name := ⟨used, fun _ absent => absurd absent List.not_mem_nil⟩
  refine .bind (bound.fragment_circles _ _) fun fragment looked =>
    .bind (bound.schema.conditionType_circles _ _) fun on _ => ?_
  have found := fragment_eq_ok.mp looked
  unfold planSelections
  split
  · refine .bind ?_ fun draft _ => (draft.finish_circles _ _ _).map
    exact planUnion_circles circles on _ {} fun _ spread => start.enter found spread
  · exact (planRecord_circles circles on {} fun _ spread => start.enter found spread).map

end

end BoundDocument

/-! ### What comes before and after planning reports no circles -/

section Collect

variable {holds : String → Prop} {schema : Schema} {visit : SpreadVisit}

mutual

theorem collectItem_circles
    (visits : ∀ spread inventory,
      Except.FailsOnly (GenerationError.Circles holds) (visit spread inventory)) :
    ∀ (selection : Selection) (on : String) (inventory : Inventory),
      Except.FailsOnly (GenerationError.Circles holds)
        (collectItem schema visit on selection inventory)
  | .field _ _ selections, _, _ =>
      .bind (schema.selectedType_circles _ _ _) fun _ _ =>
        .ite (fun _ => .ok _) fun _ => collectSelections_circles visits selections _ _
  | .spread spread, _, inventory => visits spread inventory
  | .inline inline _ selections, on, _ => by
      cases conditioned : inline.condition with
      | none =>
          simp only [collectItem, conditioned]
          exact collectSelections_circles visits selections on _
      | some condition =>
          simp only [collectItem, conditioned]
          exact .bind (schema.conditionType_circles _ _) fun next _ =>
            collectSelections_circles visits selections next _

theorem collectSelections_circles
    (visits : ∀ spread inventory,
      Except.FailsOnly (GenerationError.Circles holds) (visit spread inventory)) :
    ∀ (selections : List Selection) (on : String) (inventory : Inventory),
      Except.FailsOnly (GenerationError.Circles holds)
        (collectSelections schema visit on selections inventory)
  | [], _, inventory => .ok inventory
  | selection :: rest, on, inventory =>
      .bind (collectItem_circles visits selection on inventory) fun next _ =>
        collectSelections_circles visits rest on next

end

end Collect

namespace BoundDocument

variable {holds : String → Prop} {bound : BoundDocument}

theorem visitSpread_circles (bound : BoundDocument) (depth : Nat) :
    ∀ spread inventory, Except.FailsOnly (GenerationError.Circles holds)
      (bound.visitSpread depth spread inventory) := by
  induction depth with
  | zero => exact fun _ inventory => .ok inventory
  | succ depth ih =>
      intro spread inventory
      refine .ite (fun _ => .ok _) fun _ => .bind (bound.fragment_circles _ _) fun fragment _ => ?_
      exact .bind (bound.schema.conditionType_circles _ _) fun on _ =>
        collectSelections_circles ih fragment.selections on _

theorem inventory_circles (bound : BoundDocument) :
    Except.FailsOnly (GenerationError.Circles holds) bound.inventory := by
  refine .foldlM (fun operation _ inventory => ?_) ({} : Inventory)
  exact .bind (bound.schema.rootType_circles _ _) fun root _ =>
    collectSelections_circles (bound.visitSpread_circles _) operation.selections root _

theorem queryText_circles (bound : BoundDocument) (operation : Operation) :
    Except.FailsOnly (GenerationError.Circles holds) (bound.queryText operation) := by
  have misses := bound.usedFragments_failsOnly operation
  refine .bind (misses.imp ?_) fun _ _ => .ok _
  rintro _ ⟨_, _, rfl, _⟩
  exact trivial

theorem operationClients_circles (options : GenerationOptions) :
    ∀ {operations : List Operation} (shared : SharedInputs), operations ⊆ bound.operations →
      Except.FailsOnly (GenerationError.Circles bound.GoesInCircles)
        (bound.operationClients options operations shared)
  | [], shared, _ => .ok ([], shared)
  | operation :: rest, shared, within => by
      obtain ⟨among, others⟩ := List.cons_subset.mp within
      have kinds : Except.FailsOnly (GenerationError.Circles bound.GoesInCircles)
          operation.requestKind := by
        unfold Operation.requestKind
        split
        · exact .ok _
        · exact .ok _
        · exact .error trivial
      have client : Except.FailsOnly (GenerationError.Circles bound.GoesInCircles)
          (bound.operationClient options shared operation) :=
        .bind kinds fun _ _ => .bind (operationPlan_circles among) fun _ _ =>
          .bind (bound.queryText_circles operation) fun _ _ => .ok _
      exact .bind client fun after _ =>
        .bind (operationClients_circles options after.2 others) fun _ _ => .ok _

/-- What is reported as a circle goes in circles. -/
theorem elmModule_circles (bound : BoundDocument) (options : GenerationOptions) :
    Except.FailsOnly (GenerationError.Circles bound.GoesInCircles) (bound.elmModule options) := by
  refine .bind bound.inventory_circles fun inventory collected => .bind (.mapM ?_) fun plans _ => ?_
  · intro name member
    have used : bound.Uses name := (mem_inventory_fragments_iff collected).mp member
    exact .bind (bound.fragment_circles _ _) fun fragment _ =>
      .bind (fragmentPlan_circles used fragment.position) fun _ _ => .ok _
  · exact .bind (operationClients_circles options {} (List.Subset.refl _)) fun _ _ => .ok _

/-- A schema and a document about it, whatever its operations are. -/
def ofDocument (schema : Schema) (document : Document) : BoundDocument :=
  ⟨schema, sortByPosition Operation.position document.operations,
    sortByPosition Fragment.position document.fragments⟩

theorem bind_circles (schema : Schema) (document : Document) :
    Except.FailsOnly (GenerationError.Circles holds) (bind schema document) := by
  unfold bind
  dsimp only
  split
  · exact .error trivial
  · exact .ok _

theorem eq_ofDocument {schema : Schema} {document : Document}
    (bind_ok : bind schema document = .ok bound) : bound = ofDocument schema document := by
  obtain ⟨rfl, operations, fragments⟩ := bind_eq_ok bind_ok
  rw [ofDocument, ← operations, ← fragments]

end BoundDocument

/-- Whatever the document is, what is reported as a circle goes in circles. -/
theorem generate_circles (schema : Schema) (document : Document) (options : GenerationOptions) :
    Except.FailsOnly
      (GenerationError.Circles (BoundDocument.ofDocument schema document).GoesInCircles)
      (generate schema document options) := by
  refine .bind (BoundDocument.bind_circles schema document) fun bound bind_ok => ?_
  rw [← BoundDocument.eq_ofDocument bind_ok]
  exact bound.elmModule_circles options

/-- Circles of fragments are found exactly. Where the name of a type is nowhere selected with a
selection set, there is no module for a document that uses a fragment that reaches itself. Whatever
the document is, a fragment that is reported as a circle is used and reaches itself. -/
theorem generate_fragmentCycle (schema : Schema) (document : Document)
    (options : GenerationOptions) :
    ((∀ fragment ∈ document.fragments, BareTypenames fragment.selections) →
      (∃ name, (BoundDocument.ofDocument schema document).GoesInCircles name) →
        ∃ cause, generate schema document options = .error cause) ∧
    ∀ name position, generate schema document options = .error (.fragmentCycle name position) →
      (BoundDocument.ofDocument schema document).GoesInCircles name := by
  refine ⟨?_, fun _ _ failed => generate_circles schema document options _ failed⟩
  rintro bare ⟨name, used, circle⟩
  cases generated : generate schema document options with
  | error cause => exact ⟨cause, rfl⟩
  | ok m =>
      obtain ⟨bound, inventory, plans, clients, bind_ok, declares⟩ := generate_declares generated
      rw [← BoundDocument.eq_ofDocument bind_ok] at used circle
      -- in a module every fragment that is used has a plan, and so leads past itself
      have listed := (BoundDocument.mem_inventory_fragments_iff declares.collected).mpr used
      obtain ⟨_, _, planned, _⟩ := declares.fragment_of_mem listed
      refine absurd circle (BoundDocument.not_transGen_of_fragmentPlan ?_ planned)
      intro fragment member
      rw [(BoundDocument.bind_eq_ok bind_ok).2.2] at member
      exact bare fragment ((BoundDocument.sortByPosition_perm _ _).mem_iff.mp member)

/-- The document in which the two fragments about users spread each other. -/
def feedDocument : Document := ⟨feedBound.operations, feedBound.fragments⟩

/-- The first fragment comes again where the second one spreads it, so it reaches itself. The second
one reaches itself as well, so there is no module, whatever else is asked for. -/
theorem feed_goesInCircles :
    (BoundDocument.ofDocument feedSchema feedDocument).GoesInCircles "A" ∧
      ∀ options, ∃ cause, generate feedSchema feedDocument options = .error cause := by
  have again : generate feedSchema feedDocument ⟨"Feed", "/graphql", .get, false⟩ =
      .error (.fragmentCycle "A" ⟨3, 27⟩) := rfl
  refine ⟨(generate_fragmentCycle _ _ _).2 "A" _ again, fun options => ?_⟩
  refine (generate_fragmentCycle feedSchema feedDocument options).1 ?_ ⟨"B", ?_, ?_⟩
  · simp [feedDocument, feedBound, feedFragment, feedField, feedSpread, BareTypenames,
      Selection.BareTypenames]
  · refine ⟨_, List.mem_cons_self, .operation ⟨_, List.mem_cons_of_mem _ List.mem_cons_self, ?_⟩⟩
    exact .field (List.mem_cons_of_mem _ List.mem_cons_self) (.here rfl)
  · have back : (BoundDocument.ofDocument feedSchema feedDocument).Nests "B" "A" :=
      ⟨_, rfl, _, List.mem_cons_of_mem _ List.mem_cons_self, .here rfl⟩
    have there : (BoundDocument.ofDocument feedSchema feedDocument).Nests "A" "B" :=
      ⟨_, rfl, _, List.mem_cons_self, .field List.mem_cons_self (.here rfl)⟩
    exact .tail (.single back) there

end ElmClient
