/-
Module: ElmClient.Proofs.Generation.Unreached
Purpose: Fragments that no operation reaches do not matter. Whatever is added, removed or changed
  among them, valid or not, the module of the document stays the same, and so does the error where
  there is no module.
Main exports: Document.Reaches, Document.definitions, generate_unreached
-/
import ElmClient.Proofs.Generation.Agreement
import ElmClient.Proofs.Generation.Provision

namespace ElmClient

open GraphQL

namespace GraphQL

/-- A document reaches the fragments that are spread in its operations and in the fragments that
it reaches. -/
inductive Document.Reaches (document : Document) : String → Prop where
  | operation {operation : Operation} {name : String} (member : operation ∈ document.operations)
      (spread : SpreadIn name operation.selections) : Reaches document name
  | fragment {fragment : Fragment} {name : String} (reached : Reaches document fragment.name)
      (member : fragment ∈ document.fragments) (spread : SpreadIn name fragment.selections) :
      Reaches document name

/-- The fragments of a name that a document defines. -/
def Document.definitions (document : Document) (name : String) : List Fragment :=
  document.fragments.filter (·.name == name)

theorem Document.mem_definitions {document : Document} {name : String} {fragment : Fragment} :
    fragment ∈ document.definitions name ↔
      fragment ∈ document.fragments ∧ fragment.name = name := by
  simp [definitions]

end GraphQL

namespace BoundDocument

/-- A bound document finds the fragment of a name among the definitions of this name. -/
theorem fragment?_eq_head? {schema : Schema} {operations : List Operation} {document : Document}
    (name : String) :
    (BoundDocument.mk schema operations
      (sortByPosition Fragment.position document.fragments)).fragment? name =
        (sortByPosition Fragment.position (document.definitions name)).head? := by
  rw [fragment?, Document.definitions, ← filter_sortByPosition, List.head?_filter]

end BoundDocument

/-! ### Documents that differ in unreached fragments -/

section Unreached

variable {one other : Document}

/-- What is reached stays reached if nothing that is reached is defined differently. -/
theorem GraphQL.Document.reaches_congr (operations : other.operations = one.operations)
    (alike : ∀ name, one.Reaches name → other.definitions name = one.definitions name)
    {name : String} : other.Reaches name ↔ one.Reaches name := by
  have defined {fragment : Fragment} (reached : one.Reaches fragment.name) :
      fragment ∈ other.fragments ↔ fragment ∈ one.fragments := by
    have listed (document : Document) : fragment ∈ document.fragments ↔
        fragment ∈ document.definitions fragment.name := by simp [mem_definitions]
    rw [listed, listed, alike _ reached]
  constructor
  · intro reached
    induction reached with
    | operation member spread => exact .operation (operations ▸ member) spread
    | fragment _ member spread ih => exact .fragment ih ((defined ih).mp member) spread
  · intro reached
    induction reached with
    | operation member spread => exact .operation (operations.symm ▸ member) spread
    | fragment reached member spread ih =>
        exact .fragment ih ((defined reached).mpr member) spread

/-- With their schema, documents that define alike what one of them reaches have all of this in
common. -/
theorem BoundDocument.agreesOn_reaches (schema : Schema) (operations : List Operation)
    (alike : ∀ name, one.Reaches name → other.definitions name = one.definitions name) :
    (BoundDocument.mk schema operations
      (sortByPosition Fragment.position one.fragments)).AgreesOn
        (BoundDocument.mk schema operations
          (sortByPosition Fragment.position other.fragments)) one.Reaches where
  schema := rfl
  fragment? name reached := by
    rw [fragment?_eq_head?, fragment?_eq_head?, alike name reached]
  closed name reached fragment found selection member inner inside := by
    obtain rfl := name_of_fragment? found
    have listed : fragment ∈ one.fragments :=
      (sortByPosition_perm _ _).mem_iff.mp (mem_of_fragment? found)
    exact .fragment reached listed ⟨selection, member, inside⟩

/-- Documents that differ in fragments that no operation reaches reach the same fragments and have
the same module, or none for the same reason. -/
theorem generate_unreached (schema : Schema) (options : GenerationOptions)
    (operations : other.operations = one.operations)
    (differ : ∀ name, other.definitions name ≠ one.definitions name → ¬ one.Reaches name) :
    (∀ name, other.Reaches name ↔ one.Reaches name) ∧
      generate schema other options = generate schema one options := by
  have alike (name : String) (reached : one.Reaches name) :
      other.definitions name = one.definitions name := by
    by_contra different
    exact differ name different reached
  refine ⟨fun name => Document.reaches_congr operations alike, ?_⟩
  unfold generate BoundDocument.bind
  rw [operations]
  dsimp only
  split
  case h_1 => rfl
  case h_2 =>
    refine (BoundDocument.agreesOn_reaches schema _ alike).elmModule rfl ?_
    intro operation member selection among name inside
    have listed := (BoundDocument.sortByPosition_perm _ _).mem_iff.mp member
    exact .operation listed ⟨selection, among, inside⟩

end Unreached

/-! ### A fragment that nothing spreads -/

/-- A fragment beside the one that the query about a hero spreads. -/
def looseFragment (type : String) (selections : List Selection) : Fragment where
  position := ⟨2, 1⟩
  name := "Loose"
  condition := ⟨⟨2, 16⟩, type, ⟨2, 19⟩⟩
  directives := []
  brace := ⟨2, 24⟩
  selections := selections

/-- The document about a hero with a further fragment. -/
def looseDocument : Document :=
  ⟨[heroOperation], [heroFragment, looseFragment "Hero" [.field (heroField "name" 26) ⟨2, 26⟩ []]]⟩

/-- The document with another fragment of the same name, which spreads itself and is about a type
that the schema does not have. -/
def looseCycleDocument : Document :=
  ⟨[heroOperation], [looseFragment "Droid" [.spread ⟨⟨2, 27⟩, "Loose", []⟩], heroFragment]⟩

theorem looseDocument_reaches {name : String} (reached : looseDocument.Reaches name) :
    name = "P" := by
  induction reached with
  | operation member spread =>
      obtain rfl := List.mem_singleton.mp member
      obtain ⟨selection, among, inside⟩ := spread
      obtain rfl := List.mem_singleton.mp among
      obtain _ | ⟨among', inside'⟩ := inside
      simp only [heroSelections, List.mem_cons, List.not_mem_nil, or_false] at among'
      rcases among' with rfl | rfl
      · obtain _ | ⟨nowhere, _⟩ := inside'
        exact absurd nowhere List.not_mem_nil
      · obtain ⟨rfl⟩ := inside'
        rfl
  | fragment _ member spread ih =>
      obtain ⟨selection, among, inside⟩ := spread
      simp only [looseDocument, List.mem_cons, List.not_mem_nil, or_false] at member
      rcases member with rfl | rfl
      · obtain rfl := List.mem_singleton.mp among
        obtain _ | ⟨nowhere, _⟩ := inside
        exact absurd nowhere List.not_mem_nil
      · exact absurd ih (by decide)

theorem loose_unreached : ∃ m, generate heroSchema looseDocument heroOptions = .ok m ∧
    generate heroSchema looseCycleDocument heroOptions = .ok m := by
  have evaluated : (generate heroSchema looseDocument heroOptions).toOption.any
      (fun _ => true) = true := by decide +kernel
  obtain ⟨m, generated, _⟩ := Except.any_toOption.mp evaluated
  have differ (name : String)
      (different : looseCycleDocument.definitions name ≠ looseDocument.definitions name) :
      ¬ looseDocument.Reaches name := by
    intro reached
    obtain rfl := looseDocument_reaches reached
    exact different rfl
  have operations : looseCycleDocument.operations = looseDocument.operations := rfl
  obtain ⟨_, same⟩ := generate_unreached heroSchema heroOptions operations differ
  exact ⟨m, generated, same.trans generated⟩

end ElmClient
