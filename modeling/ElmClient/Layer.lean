/-
Module: ElmClient.Layer
Purpose: How often a value may be repeated or absent, as a list of layers around it.
Main exports: Layer, TypeRef.layers, Layer.makeOptional, Layer.makeRequired, Layer.wrap
-/
import ElmClient.GraphQL.TypeRef

namespace ElmClient

/-- A layer around a value. -/
inductive Layer where
  | optional
  | list
deriving DecidableEq, Repr, Inhabited

namespace GraphQL.TypeRef

/-- The layers of a reference, the outer one first: everything that is not marked as non-null is
optional. A mark directly inside a mark ends the layers. -/
def layers : TypeRef → List Layer
  | .named _ => [.optional]
  | .list item => .optional :: .list :: layers item
  | .nonNull (.named _) => []
  | .nonNull (.list item) => .list :: layers item
  | .nonNull (.nonNull _) => []

end GraphQL.TypeRef

namespace Layer

/-- Whether the outer layer is optional. -/
def isOptional (layers : List Layer) : Bool := layers.head? == some .optional

/-- The layers with an optional one outside. -/
def makeOptional : List Layer → List Layer
  | .optional :: rest => .optional :: rest
  | layers => .optional :: layers

/-- The layers without an optional one outside. -/
def makeRequired : List Layer → List Layer
  | .optional :: rest => rest
  | layers => layers

/-- Puts the layers around something, the inner ones first. -/
def wrap {α : Type} (optional list : α → α) (layers : List Layer) (inner : α) : α :=
  layers.foldr (fun layer wrapped =>
    match layer with
    | .optional => optional wrapped
    | .list => list wrapped) inner

@[simp] theorem wrap_nil {α : Type} (optional list : α → α) (inner : α) :
    wrap optional list [] inner = inner := rfl

@[simp] theorem wrap_optional {α : Type} (optional list : α → α) (rest : List Layer)
    (inner : α) :
    wrap optional list (.optional :: rest) inner = optional (wrap optional list rest inner) := rfl

@[simp] theorem wrap_list {α : Type} (optional list : α → α) (rest : List Layer) (inner : α) :
    wrap optional list (.list :: rest) inner = list (wrap optional list rest inner) := rfl

@[simp] theorem isOptional_makeOptional (layers : List Layer) :
    isOptional (makeOptional layers) = true := by
  cases layers with
  | nil => rfl
  | cons layer rest => cases layer <;> rfl

@[simp] theorem makeOptional_makeOptional (layers : List Layer) :
    makeOptional (makeOptional layers) = makeOptional layers := by
  cases layers with
  | nil => rfl
  | cons layer rest => cases layer <;> rfl

@[simp] theorem makeRequired_makeOptional (layers : List Layer) :
    makeRequired (makeOptional layers) = makeRequired layers := by
  cases layers with
  | nil => rfl
  | cons layer rest => cases layer <;> rfl

theorem makeRequired_eq_self {layers : List Layer} (required : isOptional layers = false) :
    makeRequired layers = layers := by
  cases layers with
  | nil => rfl
  | cons layer rest =>
      cases layer with
      | optional => exact nomatch required
      | list => rfl

end Layer

end ElmClient
