/-
Module: ElmClient.Inventory
Purpose: What a module must declare for a document: the enumerations, unions and fragments that
  the operations reach, each once, in the order in which they are first reached.
Main exports: EnumDeclaration.ofValues, Inventory, Inventory.noteType, Inventory.noteUnion,
  BoundDocument.inventory
-/
import ElmClient.BoundDocument
import ElmClient.Elm.Module
import ElmClient.Name

namespace ElmClient

open GraphQL

/-- The declaration of an enumeration with its values in the order of the schema. -/
def Elm.EnumDeclaration.ofValues (name : String) (values : List String) : Elm.EnumDeclaration where
  name := name
  typeName := Text.capitalize name
  cases := values.map fun value => ⟨value, Name.enumConstructor name value⟩

/-- What was reached so far. The types in `seen` were looked through for enumerations. -/
structure Inventory where
  enums : List Elm.EnumDeclaration := []
  unions : List (String × List String) := []
  fragments : List String := []
  seen : List String := []
deriving Repr, Inhabited

namespace Inventory

/-- Adds an enumeration, once. -/
def addEnum (inventory : Inventory) (name : String) (values : List String) : Inventory :=
  if inventory.enums.any (·.name == name) then inventory
  else { inventory with enums := inventory.enums ++ [.ofValues name values] }

/-- Adds a union, once. -/
def addUnion (inventory : Inventory) (name : String) (members : List String) : Inventory :=
  if inventory.unions.any (·.1 == name) then inventory
  else { inventory with unions := inventory.unions ++ [(name, members)] }

/-- Adds a fragment that is not among the fragments yet. -/
def addFragment (inventory : Inventory) (name : String) : Inventory :=
  { inventory with fragments := inventory.fragments ++ [name] }

/-- Adds the enumerations that a type leads to through fields, which are followed no deeper than
the count says. The members of a union are not followed. -/
def noteTypeTo (schema : Schema) : Nat → TypeRef → Inventory → Inventory
  | 0, _, inventory => inventory
  | depth + 1, type, inventory =>
      match schema.get? type.name with
      | none => inventory
      | some (.enum values) => inventory.addEnum type.name values
      | some body =>
          match body.fields? with
          | none => inventory
          | some fields =>
              if inventory.seen.contains type.name then inventory
              else
                fields.foldl (fun inventory field => noteTypeTo schema depth field.2 inventory)
                  { inventory with seen := type.name :: inventory.seen }

/-- Adds the enumerations that a type leads to through fields. Every step goes through another type
of the schema, so their number bounds the depth. -/
def noteType (schema : Schema) (type : TypeRef) (inventory : Inventory) : Inventory :=
  noteTypeTo schema (schema.types.length + 1) type inventory

/-- Adds a type on which there is a selection set, if it is a union. -/
def noteUnion (schema : Schema) (type : String) (inventory : Inventory) : Inventory :=
  match schema.unionMembers? type with
  | some members => inventory.addUnion type members
  | none => inventory

end Inventory

/-- What the use of a fragment adds to an inventory. -/
abbrev SpreadVisit := Spread → Inventory → Except GenerationError Inventory

mutual

/-- Adds what one selection on a type reaches. -/
def collectItem (schema : Schema) (visit : SpreadVisit) (on : String) :
    Selection → Inventory → Except GenerationError Inventory
  | .field field _ selections, inventory => do
      let type ← schema.selectedType on field.name field.position
      let inventory := inventory.noteType schema type
      if selections.isEmpty then pure inventory
      else
        collectSelections schema visit type.name selections
          (inventory.noteUnion schema type.name)
  | .spread spread, inventory => visit spread inventory
  | .inline inline _ selections, inventory => do
      let on ←
        match inline.condition with
        | some condition => schema.conditionType condition.type condition.typePosition
        | none => pure on
      collectSelections schema visit on selections (inventory.noteUnion schema on)
termination_by structural selection => selection

/-- Adds what selections on a type reach. -/
def collectSelections (schema : Schema) (visit : SpreadVisit) (on : String) :
    List Selection → Inventory → Except GenerationError Inventory
  | [], inventory => .ok inventory
  | selection :: rest, inventory => do
      let inventory ← collectItem schema visit on selection inventory
      collectSelections schema visit on rest inventory
termination_by structural selections => selections

end

namespace BoundDocument

/-- Adds a fragment and what it reaches, the first time that it is used. Fragments in one another
are followed no deeper than the count says. -/
def visitSpread (bound : BoundDocument) : Nat → SpreadVisit
  | 0, _, inventory => .ok inventory
  | depth + 1, spread, inventory =>
      if inventory.fragments.contains spread.fragment then .ok inventory
      else do
        let fragment ← bound.fragment spread.fragment spread.position
        let condition := fragment.condition
        let on ← bound.schema.conditionType condition.type condition.typePosition
        let inventory := (inventory.addFragment spread.fragment).noteUnion bound.schema on
        collectSelections bound.schema (bound.visitSpread depth) on fragment.selections inventory

/-- Adds what an operation reaches, by its variables and by its selections. -/
def collectOperation (bound : BoundDocument) (inventory : Inventory) (operation : Operation) :
    Except GenerationError Inventory := do
  let inventory := operation.definitions.foldl
    (fun inventory definition => inventory.noteType bound.schema definition.type) inventory
  let root ← bound.schema.rootType operation.kind operation.title
  collectSelections bound.schema (bound.visitSpread bound.spreadDepth) root operation.selections
    (inventory.noteUnion bound.schema root)

/-- What the operations of a document reach. -/
def inventory (bound : BoundDocument) : Except GenerationError Inventory :=
  bound.operations.foldlM bound.collectOperation {}

end BoundDocument

end ElmClient
