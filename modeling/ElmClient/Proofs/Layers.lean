/-
Module: ElmClient.Proofs.Layers
Purpose: The layers of a reference lose nothing: together with the name inside they determine the
  reference. Two optional layers never follow one another in them, nor after an optional layer is
  put outside or taken away, and so nothing that they are put around becomes optional twice over.
Main exports: Layer.Separated, Layer.Separated.makeOptional, Layer.Separated.makeRequired,
  Layer.Separated.wrap, TypeRef.separated_layers, TypeRef.ofLayers, TypeRef.ofLayers_layers,
  TypeRef.eq_of_layers_eq
-/
import ElmClient.Layer
import ElmClient.Proofs.Schema.WellFormed

namespace ElmClient

open GraphQL

namespace Layer

/-- Layers of which no two that follow one another are both optional. -/
def Separated (layers : List Layer) : Prop :=
  layers.IsChain fun outer inner => ¬ (outer = .optional ∧ inner = .optional)

section Separated

variable {layers rest : List Layer}

@[simp] theorem separated_nil : Separated [] := .nil

@[simp] theorem separated_list : Separated (.list :: rest) ↔ Separated rest := by
  cases rest with
  | nil => simp [Separated]
  | cons layer rest => simp [Separated]

@[simp] theorem separated_optional :
    Separated (.optional :: rest) ↔ isOptional rest = false ∧ Separated rest := by
  cases rest with
  | nil => simp [Separated, isOptional]
  | cons layer rest => simp [Separated, isOptional]

theorem Separated.makeOptional (separated : Separated layers) :
    Separated (makeOptional layers) := by
  cases layers with
  | nil => exact separated_optional.mpr ⟨rfl, separated⟩
  | cons layer rest =>
      cases layer with
      | optional => exact separated
      | list => exact separated_optional.mpr ⟨rfl, separated⟩

theorem Separated.makeRequired (separated : Separated layers) :
    Separated (makeRequired layers) := by
  cases layers with
  | nil => exact separated
  | cons layer rest =>
      cases layer with
      | optional => exact (separated_optional.mp separated).2
      | list => exact separated

end Separated

/-! ### What is put in layers

`required` says of a value that it is not optional outside. -/

section Wrap

variable {α : Type} {optional list : α → α} {required holds : α → Prop} {layers : List Layer}
  {inner : α}

/-- A required value in layers of which the outer one is not optional is required. -/
theorem required_wrap (ofList : ∀ item, required (list item)) (bare : required inner)
    (outside : isOptional layers = false) : required (wrap optional list layers inner) := by
  cases layers with
  | nil => exact bare
  | cons layer rest =>
      cases layer with
      | optional => exact nomatch outside
      | list => exact ofList _

/-- A property passes to a required value in separated layers if it passes to lists, and to optional
values of what is required. -/
theorem Separated.wrap (separated : Separated layers) (ofList : ∀ item, required (list item))
    (passList : ∀ {item}, holds item → holds (list item))
    (passOptional : ∀ {value}, required value → holds value → holds (optional value))
    (bare : required inner) (below : holds inner) : holds (wrap optional list layers inner) := by
  induction layers with
  | nil => exact below
  | cons layer rest ih =>
      cases layer with
      | optional =>
          obtain ⟨outside, separated⟩ := separated_optional.mp separated
          exact passOptional (required_wrap ofList bare outside) (ih separated)
      | list => exact passList (ih (separated_list.mp separated))

end Wrap

end Layer

/-! ### The layers of references -/

namespace GraphQL.TypeRef

/-- No two optional layers of a reference follow one another: below an optional layer there is a list
or nothing. -/
theorem separated_layers : ∀ type : TypeRef, Layer.Separated type.layers
  | .named _ => Layer.separated_optional.mpr ⟨rfl, Layer.separated_nil⟩
  | .list item =>
      Layer.separated_optional.mpr ⟨rfl, Layer.separated_list.mpr (separated_layers item)⟩
  | .nonNull (.named _) => Layer.separated_nil
  | .nonNull (.list item) => Layer.separated_list.mpr (separated_layers item)
  | .nonNull (.nonNull _) => Layer.separated_nil

/-- The reference that has given layers around a name. Whatever is not in an optional layer carries a
mark. -/
def ofLayers (name : String) : List Layer → TypeRef
  | [] => .nonNull (.named name)
  | .list :: rest => .nonNull (.list (ofLayers name rest))
  | .optional :: rest => (ofLayers name rest).nullable

/-- A reference without a mark directly inside a mark is the one that has its layers around its
name. -/
theorem ofLayers_layers :
    ∀ {type : TypeRef}, type.isProper = true → ofLayers type.name type.layers = type
  | .named _, _ => rfl
  | .list item, proper => by
      have inside : ofLayers item.name item.layers = item := ofLayers_layers proper
      exact congrArg TypeRef.list inside
  | .nonNull (.named _), _ => rfl
  | .nonNull (.list item), proper => by
      have inside : ofLayers item.name item.layers = item := ofLayers_layers proper
      exact congrArg (fun item => TypeRef.nonNull (.list item)) inside
  | .nonNull (.nonNull _), proper => nomatch proper

theorem eq_of_layers_eq {one other : TypeRef} (proper : one.isProper = true)
    (proper' : other.isProper = true) (layered : one.layers = other.layers)
    (named : one.name = other.name) : one = other := by
  calc one = ofLayers one.name one.layers := (ofLayers_layers proper).symm
    _ = ofLayers other.name other.layers := by rw [layered, named]
    _ = other := ofLayers_layers proper'

end GraphQL.TypeRef

end ElmClient
