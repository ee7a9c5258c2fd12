/-
Module: ElmClient.Proofs.Elm.Expansion
Purpose: How the shape of a type is found through the declarations of a module. A type leads to the
  aliases that it names and to the fragments that it extends, and these lead on. If no declaration
  is reached again from itself, the search for a shape ends, and the depth to which names are
  followed is enough for it.
Main exports: Elm.Link, TypeExpr.links, Module.Leads, Module.Acyclic, Module.Acyclic.wellFounded,
  Module.Acyclic.shape_eq
-/
import ElmClient.Elm.Shape
import ElmClient.Proofs.Dictionary
import Mathlib.Data.Finset.Card
import Mathlib.Logic.Relation

namespace ElmClient.Elm

/-! ### Where types lead -/

/-- A declaration that a type is expanded through: an alias by its name or a fragment by its Elm
name. -/
inductive Link where
  | named (name : String)
  | fragment (name : String)
deriving DecidableEq, Repr, Inhabited

mutual

/-- The declarations that the shape of a type asks for. What a type is applied to is not asked for,
except for unions. -/
def TypeExpr.links : TypeExpr → List Link
  | .scalar _ | .enum _ | .app _ _ => []
  | .named name => [.named name]
  | .list item => item.links
  | .optional inner => inner.links
  | .record fields _ => TypeExpr.linksOf fields
  | .union _ arguments => TypeExpr.linksOf arguments
  | .extend fragment base => .fragment (Text.capitalize fragment) :: base.links
termination_by structural type => type

/-- The declarations that the shapes of named types ask for. -/
def TypeExpr.linksOf : List (String × TypeExpr) → List Link
  | [] => []
  | (_, type) :: rest => type.links ++ TypeExpr.linksOf rest
termination_by structural types => types

end

theorem TypeExpr.mem_linksOf {link : Link} {types : List (String × TypeExpr)} :
    link ∈ TypeExpr.linksOf types ↔ ∃ entry ∈ types, link ∈ entry.2.links := by
  induction types with
  | nil => simp [TypeExpr.linksOf]
  | cons first rest ih => simp [TypeExpr.linksOf, ih]

/-- Layers lead nowhere. -/
theorem TypeExpr.links_wrap (layers : List Layer) (inner : TypeExpr) :
    (TypeExpr.wrap layers inner).links = inner.links := by
  induction layers with
  | nil => rfl
  | cons layer rest ih => cases layer <;> exact ih

/-- The shape of a declaration. -/
def Resolution.shape? (names : Resolution) : Link → Option Shape
  | .named name => names.aliasShape name
  | .fragment name => names.fragmentShape name

mutual

/-- The shape of a type depends on the declarations to which it leads, and on nothing else. -/
theorem TypeExpr.shapeIn_congr {names names' : Resolution} : ∀ type : TypeExpr,
    (∀ link ∈ type.links, names.shape? link = names'.shape? link) →
      type.shapeIn names = type.shapeIn names'
  | .scalar _, _ | .enum _, _ | .app _ _, _ => rfl
  | .named name, same => by
      have here : names.aliasShape name = names'.aliasShape name :=
        same (.named name) List.mem_cons_self
      rw [TypeExpr.shapeIn, TypeExpr.shapeIn, here]
  | .list item, same => by
      rw [TypeExpr.shapeIn, TypeExpr.shapeIn, TypeExpr.shapeIn_congr item same]
  | .optional inner, same => by
      rw [TypeExpr.shapeIn, TypeExpr.shapeIn, TypeExpr.shapeIn_congr inner same]
  | .record fields row, same => by
      rw [TypeExpr.shapeIn, TypeExpr.shapeIn, TypeExpr.shapesIn_congr fields same]
  | .union name arguments, same => by
      rw [TypeExpr.shapeIn, TypeExpr.shapeIn, TypeExpr.shapesIn_congr arguments same]
  | .extend fragment base, same => by
      obtain ⟨here, below⟩ := List.forall_mem_cons.mp same
      have given : names.fragmentShape (Text.capitalize fragment) =
          names'.fragmentShape (Text.capitalize fragment) := here
      rw [TypeExpr.shapeIn, TypeExpr.shapeIn, given, TypeExpr.shapeIn_congr base below]

/-- The same of named types. -/
theorem TypeExpr.shapesIn_congr {names names' : Resolution} :
    ∀ types : List (String × TypeExpr),
      (∀ link ∈ TypeExpr.linksOf types, names.shape? link = names'.shape? link) →
      TypeExpr.shapesIn names types = TypeExpr.shapesIn names' types
  | [], _ => rfl
  | (_, type) :: rest, same => by
      obtain ⟨here, later⟩ := List.forall_mem_append.mp same
      rw [TypeExpr.shapesIn, TypeExpr.shapesIn, TypeExpr.shapeIn_congr type here,
        TypeExpr.shapesIn_congr rest later]

end

/-! ### Where declarations lead -/

/-- The declaration as one that types are expanded through. -/
def Declaration.link? : Declaration → Option Link
  | .typeAlias name _ _ => some (.named name)
  | .fragment declared => some (.fragment declared.name)
  | _ => none

theorem Declaration.link?_of_typeAlias? {declaration : Declaration} {name : String}
    {type : TypeExpr} (same : declaration.typeAlias? = some (name, type)) :
    declaration.link? = some (.named name) := by
  cases declaration with
  | typeAlias name' parameters type' =>
      cases same
      rfl
  | _ => cases same

theorem Declaration.link?_of_fragment? {declaration : Declaration} {declared : FragmentDeclaration}
    (same : declaration.fragment? = some declared) :
    declaration.link? = some (.fragment declared.name) := by
  cases declaration with
  | fragment declared' =>
      cases same
      rfl
  | _ => cases same

namespace Module

variable {m : Module}

/-- The type that a declaration gives a name: the first alias or the first fragment of the name. -/
def declaredType? (m : Module) : Link → Option TypeExpr
  | .named name => m.aliasType name
  | .fragment name => (m.fragment name).map (·.type)

/-- A declaration whose expansion asks for another one. -/
def Leads (m : Module) (outer inner : Link) : Prop :=
  ∃ type, m.declaredType? outer = some type ∧ inner ∈ type.links

/-- A module in which no declaration is reached again from within its own expansion. -/
def Acyclic (m : Module) : Prop := ∀ link, ¬ Relation.TransGen m.Leads link link

/-- The declarations of a module that types are expanded through. -/
def linkNames (m : Module) : Finset Link := (m.declarations.filterMap Declaration.link?).toFinset

theorem card_linkNames_le (m : Module) : m.linkNames.card ≤ m.declarations.length :=
  (List.toFinset_card_le _).trans (List.length_filterMap_le _ _)

theorem mem_linkNames {link : Link} {type : TypeExpr}
    (declared : m.declaredType? link = some type) : link ∈ m.linkNames := by
  rw [linkNames, List.mem_toFinset, List.mem_filterMap]
  cases link with
  | named name =>
      have found : (m.declarations.filterMap Declaration.typeAlias?).lookup name = some type :=
        declared
      obtain ⟨declaration, there, same⟩ := List.mem_filterMap.mp (Dictionary.mem_of_lookup found)
      exact ⟨declaration, there, Declaration.link?_of_typeAlias? same⟩
  | fragment name =>
      obtain ⟨fragment, found, _⟩ := Option.map_eq_some_iff.mp declared
      have here : m.fragments.find? (fun other => other.name == name) = some fragment := found
      obtain ⟨declaration, there, same⟩ := List.mem_filterMap.mp (List.mem_of_find?_eq_some here)
      have holds := List.find?_some here
      exact ⟨declaration, there, eq_of_beq holds ▸ Declaration.link?_of_fragment? same⟩

/-! ### The search ends -/

open scoped Classical in
/-- How many declarations are reached from one, itself included. -/
noncomputable def rank (m : Module) (link : Link) : Nat :=
  (m.linkNames.filter fun inner => Relation.ReflTransGen m.Leads link inner).card

theorem rank_le (m : Module) (link : Link) : m.rank link ≤ m.declarations.length := by
  classical
  have fewer : m.rank link ≤ m.linkNames.card := Finset.card_filter_le _ _
  exact fewer.trans m.card_linkNames_le

theorem rank_pos {link : Link} {type : TypeExpr} (declared : m.declaredType? link = some type) :
    0 < m.rank link := by
  classical
  apply Finset.card_pos.mpr
  exact ⟨link, Finset.mem_filter.mpr ⟨mem_linkNames declared, .refl⟩⟩

/-- From what a declaration leads to, fewer declarations are reached: not this one. -/
theorem Acyclic.rank_lt (acyclic : m.Acyclic) {outer inner : Link} (leads : m.Leads outer inner) :
    m.rank inner < m.rank outer := by
  classical
  have ⟨type, declared, _⟩ := leads
  have fewer : m.linkNames.filter (fun link => Relation.ReflTransGen m.Leads inner link) ⊆
      m.linkNames.filter fun link => Relation.ReflTransGen m.Leads outer link := by
    intro link member
    obtain ⟨there, reached⟩ := Finset.mem_filter.mp member
    exact Finset.mem_filter.mpr ⟨there, reached.head leads⟩
  apply Finset.card_lt_card
  apply (Finset.ssubset_iff_of_subset fewer).mpr
  refine ⟨outer, Finset.mem_filter.mpr ⟨mem_linkNames declared, .refl⟩, fun member => ?_⟩
  have back := (Finset.mem_filter.mp member).2
  exact acyclic outer (.head' leads back)

/-- Where no declaration is reached again, every expansion ends. -/
theorem Acyclic.wellFounded (acyclic : m.Acyclic) :
    WellFounded fun inner outer => m.Leads outer inner :=
  Subrelation.wf (fun leads => acyclic.rank_lt leads) (measure m.rank).wf

theorem shape?_resolution (depth : Nat) (link : Link) :
    (m.resolution (depth + 1)).shape? link =
      (m.declaredType? link).map (·.shapeIn (m.resolution depth)) := by
  cases link with
  | named name => rfl
  | fragment name =>
      rw [declaredType?, Option.map_map]
      rfl

theorem shape?_undeclared {link : Link} (undeclared : m.declaredType? link = none) (depth : Nat) :
    (m.resolution depth).shape? link = none := by
  cases depth with
  | zero => cases link <;> rfl
  | succ depth => rw [shape?_resolution, undeclared, Option.map_none]

/-- All depths that are enough for a declaration give it the same shape. -/
theorem Acyclic.shape?_eq (acyclic : m.Acyclic) {depth depth' : Nat} {link : Link}
    (enough : m.rank link ≤ depth) (enough' : m.rank link ≤ depth') :
    (m.resolution depth).shape? link = (m.resolution depth').shape? link := by
  induction depth generalizing depth' link with
  | zero =>
      have undeclared : m.declaredType? link = none := by
        by_contra declared
        obtain ⟨type, declared⟩ := Option.ne_none_iff_exists'.mp declared
        exact absurd (rank_pos declared) (by omega)
      rw [shape?_undeclared undeclared, shape?_undeclared undeclared]
  | succ depth ih =>
      cases declared : m.declaredType? link with
      | none => rw [shape?_undeclared declared, shape?_undeclared declared]
      | some type =>
          have positive := rank_pos declared
          obtain ⟨depth', rfl⟩ : ∃ below, depth' = below + 1 := ⟨depth' - 1, by omega⟩
          rw [shape?_resolution, shape?_resolution, declared, Option.map_some, Option.map_some]
          congr 1
          apply TypeExpr.shapeIn_congr
          intro inner asked
          have fewer := acyclic.rank_lt ⟨type, declared, asked⟩
          exact ih (by omega) (by omega)

/-- The names of a module with the shapes that they have in it. -/
def shapes (m : Module) : Resolution where
  aliasShape name := (m.aliasType name).map m.shape
  fragmentShape name := (m.fragment name).map fun fragment => m.shape fragment.type

/-- Where no declaration is reached again, the shape of a type is what the expansion of its names
without any bound comes to. -/
theorem Acyclic.shape_eq (acyclic : m.Acyclic) (type : TypeExpr) :
    m.shape type = type.shapeIn m.shapes := by
  apply TypeExpr.shapeIn_congr
  intro link _
  have enough := m.rank_le link
  exact acyclic.shape?_eq enough (Nat.le_succ_of_le enough)

end Module

end ElmClient.Elm
