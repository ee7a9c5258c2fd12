/-
Module: ElmClient.BoundDocument
Purpose: A document together with the schema that it is about. Binding brings the operations and the
  fragments into the order of the text, which is a stable sort by position.
Main exports: BoundDocument, BoundDocument.bind, BoundDocument.fragment,
  BoundDocument.filter_sortByPosition, BoundDocument.operations_inOrder
-/
import ElmClient.Schema.Selectable

namespace ElmClient

open GraphQL

/-- A schema and a document about it, whose operations and fragments stand in the order of the
text. -/
structure BoundDocument where
  schema : Schema
  operations : List Operation
  fragments : List Fragment
deriving Repr, Inhabited

namespace BoundDocument

variable {α : Type}

/-- Puts an item before the first one that is not ahead of it. -/
def insertByPosition (position : α → Position) (item : α) : List α → List α
  | [] => [item]
  | first :: rest =>
      if (position item).before (position first) then item :: first :: rest
      else first :: insertByPosition position item rest

/-- Sorts by position. Items at the same position keep their order. -/
def sortByPosition (position : α → Position) (items : List α) : List α :=
  items.foldr (insertByPosition position) []

/-- Binds a document to a schema. Subscriptions are not supported. -/
def bind (schema : Schema) (document : Document) : Except GenerationError BoundDocument :=
  let operations := sortByPosition Operation.position document.operations
  match operations.find? (·.kind == .subscription) with
  | some operation => .error (.unsupportedOperation operation.kind operation.position)
  | none => .ok ⟨schema, operations, sortByPosition Fragment.position document.fragments⟩

/-- The fragment of a name. -/
def fragment? (bound : BoundDocument) (name : String) : Option Fragment :=
  bound.fragments.find? (·.name == name)

/-- The fragment of a name that is used at a position. -/
def fragment (bound : BoundDocument) (name : String) (position : Position) :
    Except GenerationError Fragment :=
  match bound.fragment? name with
  | some fragment => .ok fragment
  | none => .error (.unknownFragment name position)

/-- A bound on how deep fragments can be spread in one another without a cycle. -/
def spreadDepth (bound : BoundDocument) : Nat := bound.fragments.length + 1

/-! ### The order of the text -/

section Sorting

variable {position : α → Position}

theorem insertByPosition_perm (position : α → Position) (item : α) (items : List α) :
    (insertByPosition position item items).Perm (item :: items) := by
  induction items with
  | nil => exact .refl _
  | cons first rest ih =>
      unfold insertByPosition
      split
      · exact .refl _
      · exact (ih.cons first).trans (.swap item first rest)

/-- Sorting moves items only. -/
theorem sortByPosition_perm (position : α → Position) (items : List α) :
    (sortByPosition position items).Perm items := by
  induction items with
  | nil => exact .refl _
  | cons first rest ih =>
      exact (insertByPosition_perm position first _).trans (ih.cons first)

/-- No item stands behind a later one. -/
def InOrder (position : α → Position) (items : List α) : Prop :=
  items.Pairwise fun earlier later => (position earlier).before (position later) = true

theorem InOrder.insert {items : List α} (sorted : InOrder position items) (item : α) :
    InOrder position (insertByPosition position item items) := by
  induction items with
  | nil => exact List.pairwise_singleton _ _
  | cons first rest ih =>
      obtain ⟨least, later⟩ := List.pairwise_cons.mp sorted
      unfold insertByPosition
      split
      case isTrue ahead =>
        refine List.pairwise_cons.mpr ⟨fun other member => ?_, sorted⟩
        rcases List.mem_cons.mp member with rfl | after
        · exact ahead
        · exact Position.before_trans ahead (least other after)
      case isFalse behind =>
        refine List.pairwise_cons.mpr ⟨fun other member => ?_, ih later⟩
        rcases List.mem_cons.mp ((insertByPosition_perm position item rest).mem_iff.mp member) with
          rfl | after
        · exact Position.before_of_not behind
        · exact least other after

theorem inOrder_sortByPosition (items : List α) :
    InOrder position (sortByPosition position items) := by
  induction items with
  | nil => exact .nil
  | cons first rest ih => exact ih.insert first

/-- An item that is ahead of all others is put in front of them. -/
theorem insertByPosition_of_before {item : α} {items : List α}
    (ahead : ∀ other ∈ items, (position item).before (position other) = true) :
    insertByPosition position item items = item :: items := by
  cases items with
  | nil => rfl
  | cons first rest => rw [insertByPosition, if_pos (ahead first List.mem_cons_self)]

/-- Items that are in order stay where they are. -/
theorem InOrder.sortByPosition_eq {items : List α} (sorted : InOrder position items) :
    sortByPosition position items = items := by
  induction items with
  | nil => rfl
  | cons first rest ih =>
      obtain ⟨least, later⟩ := List.pairwise_cons.mp sorted
      calc sortByPosition position (first :: rest)
          = insertByPosition position first (sortByPosition position rest) := rfl
        _ = insertByPosition position first rest := by rw [ih later]
        _ = first :: rest := insertByPosition_of_before least

/-- An item that is kept is put in the same place among those that are kept. -/
theorem filter_insertByPosition {items : List α} (sorted : InOrder position items)
    (keep : α → Bool) (item : α) :
    (insertByPosition position item items).filter keep =
      if keep item then insertByPosition position item (items.filter keep)
      else items.filter keep := by
  induction items with
  | nil => cases kept : keep item <;> simp [insertByPosition, kept]
  | cons first rest ih =>
      obtain ⟨least, later⟩ := List.pairwise_cons.mp sorted
      rw [insertByPosition]
      split
      case isTrue ahead =>
        have front : ∀ other ∈ (first :: rest).filter keep,
            (position item).before (position other) = true := by
          intro other member
          rcases List.mem_cons.mp (List.mem_filter.mp member).1 with rfl | after
          · exact ahead
          · exact Position.before_trans ahead (least other after)
        rw [insertByPosition_of_before front, List.filter_cons]
      case isFalse behind =>
        rw [List.filter_cons, ih later, List.filter_cons]
        cases kept : keep first <;> cases keep item <;> simp [insertByPosition, behind]

/-- Sorting and keeping some of the items can be done in either order. -/
theorem filter_sortByPosition (keep : α → Bool) (items : List α) :
    (sortByPosition position items).filter keep =
      sortByPosition position (items.filter keep) := by
  induction items with
  | nil => rfl
  | cons first rest ih =>
      have unfolded : sortByPosition position (first :: rest) =
          insertByPosition position first (sortByPosition position rest) := rfl
      rw [unfolded, filter_insertByPosition (inOrder_sortByPosition rest), ih, List.filter_cons]
      cases keep first <;> rfl

/-- Items at one position keep their order. -/
theorem filter_sortByPosition_of_same (place : Position) (items : List α) :
    (sortByPosition position items).filter (position · == place) =
      items.filter (position · == place) := by
  rw [filter_sortByPosition]
  refine InOrder.sortByPosition_eq (List.pairwise_filter.mpr ?_)
  refine List.pairwise_of_forall fun earlier later here there => ?_
  rw [beq_iff_eq.mp here, beq_iff_eq.mp there]
  exact Position.before_refl place

end Sorting

variable {schema : Schema} {document : Document} {bound : BoundDocument}

/-- A bound document has the operations and the fragments of the document. -/
theorem bind_eq_ok (bind_ok : bind schema document = .ok bound) :
    bound.schema = schema ∧
      bound.operations = sortByPosition Operation.position document.operations ∧
        bound.fragments = sortByPosition Fragment.position document.fragments := by
  simp only [bind] at bind_ok
  split at bind_ok
  · exact nomatch bind_ok
  · obtain rfl := Except.ok.inj bind_ok
    exact ⟨rfl, rfl, rfl⟩

theorem operations_perm (bind_ok : bind schema document = .ok bound) :
    bound.operations.Perm document.operations := by
  rw [(bind_eq_ok bind_ok).2.1]
  exact sortByPosition_perm _ _

/-- The operations of a bound document are those of the document in the order of the text. None
stands behind a later one, and those at one position stand as in the document. -/
theorem operations_inOrder (bind_ok : bind schema document = .ok bound) :
    bound.operations.Perm document.operations ∧ InOrder Operation.position bound.operations ∧
      ∀ place, bound.operations.filter (·.position == place) =
        document.operations.filter (·.position == place) := by
  refine ⟨operations_perm bind_ok, ?_⟩
  rw [(bind_eq_ok bind_ok).2.1]
  exact ⟨inOrder_sortByPosition _, fun place => filter_sortByPosition_of_same place _⟩

end BoundDocument

end ElmClient
