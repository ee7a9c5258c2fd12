/-
Module: ElmClient.Proofs.Plan.Walk
Purpose: A walk leaves whatever it enters. So a walker comes out of every fragment and of every
  operation as it went in, and what it plans on the way is the plan that each of them has by itself,
  wherever the walker was led before.
Main exports: Walk.Leads, Walk.Keeps, walkRecord_keeps, walkUnion_keeps,
  BoundDocument.walkOperation_keeps, BoundDocument.walkFragment_keeps,
  BoundDocument.walkDocument_keeps
-/
import ElmClient.Generation
import ElmClient.Plan.Walk
import ElmClient.Proofs.Plan.Derivation

namespace ElmClient

open GraphQL

namespace Walk

variable {α β : Type}

/-- A walk that comes to what a plan comes to, from one walker to another. It fails where the plan
does, in the same way. -/
def Leads (walk : Walk α) (start finish : Walker) (plan : Except GenerationError α) : Prop :=
  walk start = (fun value => (value, finish)) <$> plan

/-- A walk that comes to what a plan comes to and leaves the walker as it was. -/
abbrev Keeps (walk : Walk α) (walker : Walker) (plan : Except GenerationError α) : Prop :=
  walk.Leads walker walker plan

namespace Leads

variable {start middle finish walker : Walker} {trail : Trail} {active : List String}
  {attempt : Except GenerationError β} {plan : Except GenerationError α}

theorem pure (value : α) : Keeps (Pure.pure value) walker (.ok value) := rfl

theorem tell (plan : Except GenerationError α) : (Walk.tell plan).Keeps walker plan := rfl

theorem bind {first : Walk β} {next : β → Walk α} {after : β → Except GenerationError α}
    (leads : first.Leads start middle attempt)
    (goes : ∀ value, (next value).Leads middle finish (after value)) :
    (first >>= next).Leads start finish (attempt >>= after) := by
  have unfolded : (first >>= next) start =
      first start >>= fun (value, walker) => next value walker := rfl
  unfold Leads at leads goes ⊢
  rw [unfolded, leads]
  cases attempt with
  | error cause => rfl
  | ok value => exact goes value

/-- What follows only changes the value. -/
theorem map {f : β → α} {first : Walk β} {next : β → Walk α}
    (leads : first.Leads start middle attempt)
    (goes : ∀ value, (next value).Leads middle finish (.ok (f value))) :
    (first >>= next).Leads start finish (f <$> attempt) := by
  have mapped : f <$> attempt = attempt >>= fun value => .ok (f value) := by
    cases attempt <;> rfl
  rw [mapped]
  exact leads.bind goes

/-- What follows keeps the value. -/
theorem andThen {first : Walk α} {next : α → Walk α} (leads : first.Leads start middle plan)
    (goes : ∀ value, (next value).Leads middle finish (.ok value)) :
    (first >>= next).Leads start finish plan := by
  have kept : plan = plan >>= fun value => .ok value := by cases plan <;> rfl
  rw [kept]
  exact leads.bind goes

theorem functorMap {f : β → α} {walk : Walk β} (leads : walk.Leads start finish attempt) :
    (f <$> walk).Leads start finish (f <$> attempt) :=
  leads.map fun _ => pure _

theorem ite {condition : Prop} [Decidable condition] {one other : Walk α}
    {otherPlan : Except GenerationError α} (holds : one.Leads start finish plan)
    (fails : other.Leads start finish otherPlan) :
    (if condition then one else other).Leads start finish
      (if condition then plan else otherPlan) := by
  split
  · exact holds
  · exact fails

/-- A node is entered, which may fail. -/
theorem step {go : Trail → Except GenerationError Trail} {frame : β → Footprint}
    {next : Unit → Walk α} {after : β → Except GenerationError α}
    (enters : go trail = attempt >>= fun found => Pure.pure (frame found :: trail))
    (goes : ∀ found, attempt = .ok found →
      (next ()).Leads ⟨frame found :: trail, active⟩ finish (after found)) :
    (Walk.step go >>= next).Leads ⟨trail, active⟩ finish (attempt >>= after) := by
  have unfolded : (Walk.step go >>= next) ⟨trail, active⟩ =
      (do
        let trail ← go trail
        Pure.pure ((), (⟨trail, active⟩ : Walker))) >>=
          fun (value, walker) => next value walker := rfl
  unfold Leads at goes ⊢
  rw [unfolded, enters]
  cases attempt with
  | error cause => rfl
  | ok found => exact goes found rfl

theorem enterFragment {schema : Schema} {condition : String} {position : Position}
    {next : Unit → Walk α} {after : String → Except GenerationError α}
    (goes : ∀ on,
      (next ()).Leads ⟨⟨some (.named on), none⟩ :: trail, active⟩ finish (after on)) :
    (Walk.step (fun trail => trail.enterFragment schema condition position) >>= next).Leads
      ⟨trail, active⟩ finish (schema.conditionType condition position >>= after) :=
  step rfl fun on _ => goes on

theorem enterOperation {schema : Schema} {kind : OperationKind} {name : String}
    {next : Unit → Walk α} {after : String → Except GenerationError α}
    (goes : ∀ root,
      (next ()).Leads ⟨⟨some (.named root), none⟩ :: trail, active⟩ finish (after root)) :
    (Walk.step (fun trail => trail.enterOperation schema kind name) >>= next).Leads
      ⟨trail, active⟩ finish (schema.rootType kind name >>= after) :=
  step rfl fun root _ => goes root

theorem enterSelectionSet {type : TypeRef} {next : Unit → Walk α} (inside : trail.type? = some type)
    (goes : (next ()).Leads ⟨⟨some type, some type.name⟩ :: trail, active⟩ finish plan) :
    (Walk.enterSelectionSet >>= next).Leads ⟨trail, active⟩ finish plan := by
  have unfolded : (Walk.enterSelectionSet >>= next) ⟨trail, active⟩ =
      next () ⟨⟨trail.type?, trail.type?.map (·.name)⟩ :: trail, active⟩ := rfl
  rw [inside] at unfolded
  exact unfolded.trans goes

theorem leave {frame : Footprint} {next : Unit → Walk α}
    (goes : (next ()).Leads ⟨trail, active⟩ finish plan) :
    (Walk.leave >>= next).Leads ⟨frame :: trail, active⟩ finish plan := goes

theorem type {type : TypeRef} {next : TypeRef → Walk α} (inside : trail.type? = some type)
    (goes : (next type).Leads ⟨trail, active⟩ finish plan) :
    (Walk.type >>= next).Leads ⟨trail, active⟩ finish plan := by
  have unfolded : (Walk.type >>= next) ⟨trail, active⟩ =
      next (trail.type?.getD (.named "String")) ⟨trail, active⟩ := rfl
  rw [inside] at unfolded
  exact unfolded.trans goes

theorem parent {parent : String} {next : String → Walk α} (inside : trail.parent? = some parent)
    (goes : (next parent).Leads ⟨trail, active⟩ finish plan) :
    (Walk.parent >>= next).Leads ⟨trail, active⟩ finish plan := by
  have unfolded : (Walk.parent >>= next) ⟨trail, active⟩ =
      next (trail.parent?.getD "") ⟨trail, active⟩ := rfl
  rw [inside] at unfolded
  exact unfolded.trans goes

theorem enterSpread {name : String} {position : Position} {next : Unit → Walk α}
    {after : List String → Except GenerationError α}
    (goes : (next ()).Leads ⟨trail, name :: active⟩ finish (after (name :: active))) :
    (Walk.enterSpread name position >>= next).Leads ⟨trail, active⟩ finish
      (BoundDocument.enterSpread active name position >>= after) := by
  unfold Leads at goes ⊢
  have unfolded : (Walk.enterSpread name position >>= next) ⟨trail, active⟩ =
      (do
        let active ← BoundDocument.enterSpread active name position
        Pure.pure ((), (⟨trail, active⟩ : Walker))) >>=
          fun (value, walker) => next value walker := rfl
  rw [unfolded]
  unfold BoundDocument.enterSpread
  split
  · rfl
  · exact goes

theorem leaveSpread {name : String} {next : Unit → Walk α}
    (goes : (next ()).Leads ⟨trail, active⟩ finish plan) :
    (Walk.leaveSpread >>= next).Leads ⟨trail, name :: active⟩ finish plan := goes

end Leads

/-- A walk through items one after another. -/
theorem Keeps.mapM {walk : β → Walk α} {walker : Walker} {plan : β → Except GenerationError α}
    (items : List β) (keeps : ∀ item, (walk item).Keeps walker (plan item)) :
    Keeps (items.mapM walk) walker (items.mapM plan) := by
  induction items with
  | nil => exact .pure []
  | cons first rest ih =>
      rw [List.mapM_cons, List.mapM_cons]
      exact (keeps first).bind fun _ => ih.bind fun _ => .pure _

end Walk

/-! ### Selections -/

/-- A walk that follows fragments in the way that they are planned while some are being expanded. -/
structure WalkExpansion.Follows (follow : WalkExpansion) (schema : Schema) (active : List String)
    (expand : Expansion) : Prop where
  record : ∀ spread trail, (follow.record spread).Keeps ⟨trail, active⟩ (expand.record spread)
  union : ∀ union members spread draft trail, schema.unionMembers? union = some members →
    (follow.union union members spread draft).Keeps ⟨trail, active⟩
      (expand.union union members spread draft)

section Selections

variable {schema : Schema} {active : List String}

/-- A field is left after the selection set below it, which is on its type. -/
theorem walkField_keeps {field : Field} {hasSelections : Bool} {trail : Trail} {on : String}
    {asRecord : Walk RecordPlan} {asUnion : String → List String → Walk UnionPlan}
    {record : String → Except GenerationError RecordPlan}
    {union : String → List String → Except GenerationError UnionPlan}
    (inside : trail.parent? = some on)
    (records : ∀ type, asRecord.Keeps ⟨⟨some type, some on⟩ :: trail, active⟩ (record type.name))
    (unions : ∀ type members, schema.unionMembers? type.name = some members →
      (asUnion type.name members).Keeps ⟨⟨some type, some on⟩ :: trail, active⟩
        (union type.name members)) :
    (walkField schema field hasSelections asRecord asUnion).Keeps ⟨trail, active⟩
      (planField schema on field hasSelections record union) := by
  unfold walkField planField
  have enters : trail.enterField schema field.name field.position =
      schema.selectedType on field.name field.position >>= fun type =>
        pure (⟨some type, some on⟩ :: trail) := by
    simp only [Trail.enterField, inside, Option.getD_some]
  refine Walk.Leads.step enters fun type _ => Walk.Leads.type rfl ?_
  have left (kind : FieldKind) : Walk.Leads
      (do
        Walk.leave
        pure (field.planned type kind))
      ⟨⟨some type, some on⟩ :: trail, active⟩ ⟨trail, active⟩ (.ok (field.planned type kind)) :=
    Walk.Leads.leave (Walk.Leads.pure _)
  cases body : schema.get? type.name with
  | none => exact (Walk.Leads.ite (.tell _) (.pure _)).bind left
  | some found =>
      cases found with
      | scalar | enum => exact (Walk.Leads.ite (.tell _) (.pure _)).bind left
      | object | interface | inputObject =>
          exact (Walk.Leads.ite (records type).functorMap (.tell _)).bind left
      | union members =>
          have united : schema.unionMembers? type.name = some members := by
            simp [Schema.unionMembers?, body]
          exact (Walk.Leads.ite (unions type members united).functorMap (.tell _)).bind left

variable {follow : WalkExpansion} {expand : Expansion}

mutual

theorem walkRecordItem_keeps (follows : follow.Follows schema active expand) :
    ∀ {selection : Selection} {on : String} {plan : RecordPlan} {trail : Trail},
      trail.parent? = some on →
      (walkRecordItem schema follow selection plan).Keeps ⟨trail, active⟩
        (planRecordItem schema expand on selection plan)
  | .field field brace selections, on, plan, trail, inside => by
      simp only [walkRecordItem, planRecordItem]
      refine (walkField_keeps inside ?_ ?_).bind fun planned => .pure _
      · intro type
        refine .enterSelectionSet rfl ?_
        exact (walkRecord_keeps follows rfl).andThen fun _ => .leave (.pure _)
      · intro type members united
        refine .enterSelectionSet rfl ?_
        exact (walkUnion_keeps follows united).bind fun _ => .leave (.tell _)
  | .spread spread, on, plan, trail, inside => by
      simp only [walkRecordItem, planRecordItem]
      exact (follows.record spread trail).bind fun _ => .pure _
  | .inline inline brace selections, on, plan, trail, inside => by
      simp only [walkRecordItem, planRecordItem]
      exact .parent inside (.tell _)

theorem walkRecord_keeps (follows : follow.Follows schema active expand) :
    ∀ {selections : List Selection} {on : String} {plan : RecordPlan} {trail : Trail},
      trail.parent? = some on →
      (walkRecord schema follow selections plan).Keeps ⟨trail, active⟩
        (planRecord schema expand on selections plan)
  | [], on, plan, trail, inside => by
      simp only [walkRecord, planRecord]
      exact .pure _
  | selection :: rest, on, plan, trail, inside => by
      simp only [walkRecord, planRecord]
      exact (walkRecordItem_keeps follows inside).bind fun _ => walkRecord_keeps follows inside

theorem walkUnionItem_keeps (follows : follow.Follows schema active expand) :
    ∀ {selection : Selection} {union : String} {members : List String} {draft : UnionDraft}
      {trail : Trail}, schema.unionMembers? union = some members →
      (walkUnionItem schema follow union members selection draft).Keeps ⟨trail, active⟩
        (planUnionItem schema expand union members selection draft)
  | .field field brace selections, union, members, draft, trail, united => by
      simp only [walkUnionItem, planUnionItem]
      exact .ite (.pure _) (.tell _)
  | .spread spread, union, members, draft, trail, united => by
      simp only [walkUnionItem, planUnionItem]
      exact follows.union union members spread draft trail united
  | .inline inline brace selections, union, members, draft, trail, united => by
      cases conditioned : inline.condition with
      | none =>
          simp only [walkUnionItem, planUnionItem, conditioned]
          exact .tell _
      | some condition =>
          simp only [walkUnionItem, planUnionItem, conditioned]
          refine (Walk.Leads.tell _).bind fun _ => ?_
          refine .enterFragment fun on => .enterSelectionSet rfl ?_
          exact (walkRecord_keeps follows rfl).bind fun _ => .leave (.leave (.pure _))

theorem walkUnion_keeps (follows : follow.Follows schema active expand) :
    ∀ {selections : List Selection} {union : String} {members : List String} {draft : UnionDraft}
      {trail : Trail}, schema.unionMembers? union = some members →
      (walkUnion schema follow union members selections draft).Keeps ⟨trail, active⟩
        (planUnion schema expand union members selections draft)
  | [], union, members, draft, trail, united => by
      simp only [walkUnion, planUnion]
      exact .pure _
  | selection :: rest, union, members, draft, trail, united => by
      simp only [walkUnion, planUnion]
      exact (walkUnionItem_keeps follows united).bind fun _ => walkUnion_keeps follows united

end

end Selections

/-! ### Fragments -/

theorem Schema.isComposite_of_unionMembers? {schema : Schema} {name : String}
    {members : List String} (united : schema.unionMembers? name = some members) :
    schema.IsComposite name := by
  unfold unionMembers? at united
  split at united
  case h_1 body => exact ⟨_, body, rfl⟩
  case h_2 => exact nomatch united

namespace BoundDocument

variable {bound : BoundDocument} {follow : WalkExpansion} {expand : List String → Expansion}
  {active : List String}

theorem walkSpread_keeps (follows : ∀ active, follow.Follows bound.schema active (expand active))
    (spread : Spread) (trail : Trail) :
    (bound.walkSpread follow spread).Keeps ⟨trail, active⟩
      (bound.planSpread active expand spread) := by
  unfold walkSpread planSpread
  refine (Walk.Leads.tell _).bind fun fragment => .enterSpread ?_
  refine .enterFragment fun on => .enterSelectionSet rfl ?_
  exact (walkRecord_keeps (follows _) rfl).andThen fun _ =>
    .leave (.leave (.leaveSpread (.pure _)))

theorem walkUnionSpread_keeps
    (follows : ∀ active, follow.Follows bound.schema active (expand active)) {union : String}
    {members : List String} (united : bound.schema.unionMembers? union = some members)
    (spread : Spread) (draft : UnionDraft) (trail : Trail) :
    (bound.walkUnionSpread follow union members spread draft).Keeps ⟨trail, active⟩
      (bound.planUnionSpread active expand union members spread draft) := by
  unfold walkUnionSpread planUnionSpread
  refine (Walk.Leads.tell _).bind fun fragment => ?_
  dsimp only
  by_cases same : fragment.condition.type = union
  · simp only [same, beq_self_eq_true, if_true]
    -- The walk checks the condition of the fragment once more; it is the union.
    have about (position : Position) : bound.schema.conditionType union position = .ok union :=
      Schema.conditionType_eq_ok.mpr ⟨Schema.isComposite_of_unionMembers? united, rfl⟩
    have checked (plan : Except GenerationError UnionDraft) : plan = (do
        let _ ← bound.schema.conditionType union fragment.condition.typePosition
        plan) := by
      rw [about]
      rfl
    refine .enterSpread ?_
    rw [checked (planUnion _ _ _ _ _ _)]
    refine .enterFragment fun on => .enterSelectionSet rfl ?_
    exact (walkUnion_keeps (follows _) united).andThen fun _ =>
      .leave (.leave (.leaveSpread (.pure _)))
  · simp only [beq_iff_eq, same, if_false]
    refine (Walk.Leads.tell _).bind fun _ => ?_
    exact (walkSpread_keeps follows spread trail).bind fun _ => .pure _

/-- Whatever depth is left, a walk follows fragments in the way that they are planned. -/
theorem walkExpansion_follows (bound : BoundDocument) (depth : Nat) (active : List String) :
    (bound.walkExpansion depth).Follows bound.schema active (bound.expansion depth active) := by
  induction depth generalizing active with
  | zero => exact ⟨fun _ _ => .tell _, fun _ _ _ _ _ _ => .tell _⟩
  | succ depth ih =>
      exact ⟨fun spread trail => walkSpread_keeps ih spread trail,
        fun _ _ spread draft trail united =>
          walkUnionSpread_keeps ih united spread draft trail⟩

/-- Wherever a walker was led before, it comes to the plan of an operation and out as it went in. -/
theorem walkOperation_keeps (bound : BoundDocument) (operation : Operation) (trail : Trail) :
    (bound.walkOperation operation).Keeps ⟨trail, []⟩ (bound.operationPlan operation) := by
  unfold walkOperation operationPlan
  refine .enterOperation fun root => .enterSelectionSet rfl ?_
  exact (walkRecord_keeps (bound.walkExpansion_follows _ _) rfl).andThen fun _ =>
    .leave (.leave (.pure _))

theorem walkSelections_keeps {brace : Position} {selections : List Selection} {on : String}
    {trail : Trail} {expand : Expansion} (follows : follow.Follows bound.schema active expand)
    (inside : trail.type? = some (.named on)) :
    (walkSelections bound.schema follow brace selections).Keeps ⟨trail, active⟩
      (planSelections bound.schema expand on brace selections) := by
  unfold walkSelections planSelections
  refine .type inside ?_
  cases united : bound.schema.unionMembers? on with
  | none =>
      simp only [TypeRef.name, united]
      refine .enterSelectionSet inside ?_
      exact (walkRecord_keeps follows rfl).map fun _ => .leave (.pure _)
  | some members =>
      simp only [TypeRef.name, united]
      refine .enterSelectionSet inside ?_
      exact (walkUnion_keeps follows united).bind fun _ =>
        .leave (Walk.Leads.tell _).functorMap

/-- Wherever a walker was led before, it comes to the plan of a fragment and out as it went in. -/
theorem walkFragment_keeps (bound : BoundDocument) (name : String) (position : Position)
    (trail : Trail) :
    (bound.walkFragment name position).Keeps ⟨trail, []⟩ (bound.fragmentPlan name position) := by
  unfold walkFragment fragmentPlan
  refine (Walk.Leads.tell _).bind fun fragment => ?_
  show Walk.Leads _ _ _ (do
    let active ← enterSpread [] name position
    let on ← bound.schema.conditionType fragment.condition.type fragment.condition.typePosition
    planSelections bound.schema (bound.expansion bound.spreadDepth active) on fragment.brace
      fragment.selections)
  refine .enterSpread (.enterFragment fun on => ?_)
  exact (walkSelections_keeps (bound.walkExpansion_follows _ _) rfl).andThen fun _ =>
    .leave (.leaveSpread (.pure _))

theorem walkDeclaredFragment_keeps (bound : BoundDocument) (name : String) (trail : Trail) :
    (bound.walkDeclaredFragment name).Keeps ⟨trail, []⟩ (bound.declaredFragmentPlan name) := by
  unfold walkDeclaredFragment declaredFragmentPlan
  refine (Walk.Leads.tell _).bind fun fragment => ?_
  exact (bound.walkFragment_keeps name _ trail).bind fun _ => .pure _

/-- One walker that is led through fragments and then through operations comes to the plan that each
of them has by itself. -/
theorem walkDocument_keeps (bound : BoundDocument) (fragments : List String)
    (operations : List Operation) (trail : Trail) :
    (bound.walkDocument fragments operations).Keeps ⟨trail, []⟩ (do
      let fragmentPlans ← fragments.mapM bound.declaredFragmentPlan
      let operationPlans ← operations.mapM bound.operationPlan
      pure (fragmentPlans, operationPlans)) := by
  have walked := Walk.Keeps.mapM fragments fun name =>
    bound.walkDeclaredFragment_keeps name trail
  have walked' := Walk.Keeps.mapM operations fun operation =>
    bound.walkOperation_keeps operation trail
  exact walked.bind fun _ => walked'.bind fun _ => .pure _

end BoundDocument

end ElmClient
