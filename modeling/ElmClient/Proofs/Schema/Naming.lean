/-
Module: ElmClient.Proofs.Schema.Naming
Purpose: Schemas in which types, members of unions and values of enumerations have names of the
  grammar. Those that are read from type definitions are such schemas.
Main exports: Schema.IsNamed, Schema.ofText_isNamed
-/
import ElmClient.Proofs.Schema.WellFormed

namespace ElmClient

open GraphQL

namespace GraphQL.TypeBody

theorem partNames_distinct (body : TypeBody) : body.distinct.partNames = body.partNames := by
  cases body <;> rfl

/-- An extension brings no names but its own. -/
theorem partNames_extend {base extension : TypeBody} {part : String}
    (member : part ∈ (base.extend extension).partNames) :
    part ∈ base.partNames ∨ part ∈ extension.partNames := by
  unfold extend at member
  split at member
  · exact absurd member List.not_mem_nil
  · exact absurd member List.not_mem_nil
  · exact absurd member List.not_mem_nil
  · exact List.mem_append.mp member
  · exact List.mem_append.mp member
  · exact Or.inr member

end GraphQL.TypeBody

/-- A schema in which types, members of unions and values of enumerations have names of the
grammar. -/
def Schema.IsNamed (schema : Schema) : Prop :=
  ∀ name body, schema.get? name = some body →
    isName name = true ∧ ∀ part ∈ body.partNames, isName part = true

namespace Schema

/-- A schema is named if each of its types is. -/
theorem IsNamed.of_types {schema : Schema}
    (each : ∀ entry ∈ schema.types, isName entry.1 = true ∧
      ∀ part ∈ entry.2.partNames, isName part = true) : schema.IsNamed :=
  fun _ _ found => each _ (Dictionary.mem_of_lookup found)

theorem IsNamed.insert {schema : Schema} (named : schema.IsNamed) {definition : TypeDefinition}
    (title : isName definition.name = true)
    (parts : ∀ part ∈ definition.body.partNames, isName part = true) :
    (schema.insert definition).IsNamed := by
  intro name body found
  by_cases same : name = definition.name
  · subst same
    rw [get?, Schema.insert, Dictionary.lookup_insert_self] at found
    obtain rfl := Option.some.inj found
    exact ⟨title, parts⟩
  · rw [get?, Schema.insert, Dictionary.lookup_insert_of_ne same] at found
    exact named name body found

theorem IsNamed.define {schema : Schema} (named : schema.IsNamed)
    {definition : TypeSystemDefinition} (legal : definition.Legal) :
    (schema.define definition).IsNamed := by
  unfold Schema.define
  split
  · exact named
  · next definition =>
      obtain ⟨title, body⟩ := legal false definition rfl
      refine named.insert title ?_
      rw [TypeBody.partNames_distinct]
      exact body.named
  · next definition =>
      obtain ⟨title, body⟩ := legal true definition rfl
      have extension : ∀ part ∈ definition.body.distinct.partNames, isName part = true := by
        rw [TypeBody.partNames_distinct]
        exact body.named
      refine named.insert title ?_
      cases found : schema.get? definition.name with
      | none => simpa only [found] using extension
      | some base =>
          intro part member
          simp only at member
          rcases TypeBody.partNames_extend member with old | new
          · exact (named _ base found).2 part old
          · exact extension part new
  · exact named

/-- A schema that is read from type definitions is named. -/
theorem ofText_isNamed {text : String} {schema : Schema} (read : ofText text = .ok schema) :
    schema.IsNamed := by
  refine ofText_induction read (.of_types (by decide))
    (fun _ _ named legal => named.define legal) ?_
  intro before after named inferred
  obtain ⟨_, same⟩ := Except.error_ite_eq_ok.mp inferred
  obtain rfl := Except.ok.inj same
  exact named

end Schema

end ElmClient
