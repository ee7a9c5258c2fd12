/-
Module: ElmClient.Proofs.QueryText.Blanks
Purpose: Clearing up the blanks of a printed document changes nothing but what is inside strings:
  what is printed starts and ends with a visible character and has single spaces inside.
Main exports: Text.Settled, Text.Firm, Text.squeezeBlank_eq_self, firm_selectionSetText
-/
import ElmClient.Proofs.QueryText.Selections

namespace ElmClient

namespace Text

/-! ### Settled texts -/

/-- Clearing up the blanks of what follows a visible character leaves this text as it is, and goes
on after it as before it. -/
def Settled (text : List Char) : Prop :=
  ∀ rest, squeezeRuns false (text ++ rest) = text ++ squeezeRuns false rest

theorem Settled.nil : Settled [] := fun _ => rfl

theorem Settled.append {first second : List Char} (one : Settled first) (two : Settled second) :
    Settled (first ++ second) := by
  intro rest
  rw [List.append_assoc, one, two, List.append_assoc]

/-- A settled text that starts with a visible character. -/
structure Firm (text : List Char) : Prop where
  visible : ∃ c more, text = c :: more ∧ isBlank c = false
  settled : Settled text

theorem Firm.append {first second : List Char} (one : Firm first) (two : Settled second) :
    Firm (first ++ second) := by
  obtain ⟨c, more, rfl, visible⟩ := one.visible
  exact ⟨⟨c, more ++ second, rfl, visible⟩, one.settled.append two⟩

/-- A space before a visible character is kept. -/
theorem Firm.space {text : List Char} (firm : Firm text) : Settled (' ' :: text) := by
  obtain ⟨c, more, rfl, visible⟩ := firm.visible
  intro rest
  have kept := firm.settled rest
  simp only [List.cons_append, squeezeRuns, visible, Bool.false_eq_true, if_false] at kept ⊢
  simp [show isBlank ' ' = true by decide, (List.cons.inj kept).2]

theorem Firm.cons {c : Char} (visible : isBlank c = false) {text : List Char}
    (settled : Settled text) : Firm (c :: text) := by
  refine ⟨⟨c, text, rfl, visible⟩, fun rest => ?_⟩
  simp [squeezeRuns, visible, settled rest]

theorem Firm.of_visible {text : List Char} (filled : text ≠ [])
    (visible : ∀ c ∈ text, isBlank c = false) : Firm text := by
  cases text with
  | nil => exact absurd rfl filled
  | cons c more =>
      obtain ⟨first, later⟩ := List.forall_mem_cons.mp visible
      refine .cons first ?_
      clear filled visible
      induction more with
      | nil => exact .nil
      | cons d more ih =>
          obtain ⟨next, later'⟩ := List.forall_mem_cons.mp later
          exact (Firm.cons next (ih later')).settled

theorem Settled.flatMap {ι : Type} {items : List ι} {text : ι → List Char}
    (each : ∀ item ∈ items, Settled (text item)) : Settled (items.flatMap text) := by
  induction items with
  | nil => exact .nil
  | cons item items ih =>
      obtain ⟨here, later⟩ := List.forall_mem_cons.mp each
      rw [List.flatMap_cons]
      exact here.append (ih later)

/-- Firm texts with a comma and a space between them. -/
theorem Settled.intercalate {parts : List (List Char)} (each : ∀ part ∈ parts, Firm part) :
    Settled ([',', ' '].intercalate parts) := by
  cases parts with
  | nil => exact .nil
  | cons first others =>
      obtain ⟨here, later⟩ := List.forall_mem_cons.mp each
      rw [GraphQL.Reader.intercalate_cons]
      exact here.settled.append
        (.flatMap fun part member => (Firm.cons (by decide) (later part member).space).settled)

/-- A text with visible characters at both ends is not trimmed. -/
theorem trimBlank_eq_self {text init : List Char} {c : Char}
    (starts : ∃ d more, text = d :: more ∧ isBlank d = false) (ends : text = init ++ [c])
    (visible : isBlank c = false) : trimBlank text = text := by
  obtain ⟨d, more, rfl, visible'⟩ := starts
  have front : (d :: more).dropWhile isBlank = d :: more :=
    List.dropWhile_cons_of_neg (by simp [visible'])
  rw [trimBlank, front, ends, List.reverse_append, List.reverse_singleton, List.singleton_append,
    List.dropWhile_cons_of_neg (by simp [visible]), List.reverse_cons, List.reverse_reverse]

/-- A firm text that ends in a visible character is not changed by clearing up blanks. -/
theorem squeezeBlank_eq_self {text : String} (firm : Firm text.toList) {init : List Char}
    {c : Char} (ends : text.toList = init ++ [c]) (visible : isBlank c = false) :
    squeezeBlank text = text := by
  have kept := firm.settled []
  rw [List.append_nil] at kept
  rw [squeezeBlank, trimBlank_eq_self firm.visible ends visible, kept]
  simp [squeezeRuns]

theorem length_squeezeRuns_le (inRun : Bool) (text : List Char) :
    (squeezeRuns inRun text).length ≤ text.length := by
  induction text generalizing inRun with
  | nil => exact Nat.le_refl _
  | cons c rest ih =>
      unfold squeezeRuns
      split
      · split
        · exact Nat.le_succ_of_le (ih true)
        · exact Nat.succ_le_succ (ih true)
      · exact Nat.succ_le_succ (ih false)

/-- A text that is not changed by clearing up blanks, and ends in a visible character, is not
changed before another one either. -/
theorem squeezeRuns_append {text : List Char} {c : Char} (visible : isBlank c = false)
    {inRun : Bool} (same : squeezeRuns inRun (text ++ [c]) = text ++ [c]) (rest : List Char) :
    squeezeRuns inRun (text ++ c :: rest) = text ++ c :: squeezeRuns false rest := by
  induction text generalizing inRun with
  | nil => simp [squeezeRuns, visible]
  | cons d text ih =>
      rw [List.cons_append, squeezeRuns] at same ⊢
      split at same
      · next blank =>
          split at same
          · have shorter := length_squeezeRuns_le true (text ++ [c])
            rw [same, List.length_cons] at shorter
            exact absurd shorter (Nat.not_succ_le_self _)
          · next fresh =>
              obtain ⟨rfl, later⟩ := List.cons.inj same
              rw [if_pos blank, if_neg fresh, ih later, List.cons_append]
      · next kept =>
          rw [if_neg kept, ih (List.cons.inj same).2, List.cons_append]

/-- A text between visible characters that is not changed by clearing up blanks is firm. -/
theorem firm_of_squeezeBlank {text : String} {init : List Char} {c : Char}
    (starts : ∃ d more, text.toList = d :: more ∧ isBlank d = false)
    (ends : text.toList = init ++ [c]) (visible : isBlank c = false)
    (same : squeezeBlank text = text) : Firm text.toList := by
  have letters : squeezeRuns false text.toList = text.toList := by
    have squeezed := congrArg String.toList same
    rwa [squeezeBlank, trimBlank_eq_self starts ends visible, String.toList_ofList] at squeezed
  refine ⟨starts, fun rest => ?_⟩
  rw [ends] at letters ⊢
  rw [List.append_assoc, List.append_assoc]
  exact squeezeRuns_append visible letters rest

end Text

namespace GraphQL

open Text (Settled Firm isBlank)

/-! ### Printed values -/

theorem isBlank_of_continuesName {c : Char} (continues : Reader.continuesName c = true) :
    isBlank c = false := by
  apply Text.of_continuesName (by decide) c continues

theorem isBlank_of_isNumeral {c : Char} (numeral : NumberLiteral.isNumeral c = true) :
    isBlank c = false := by
  simp only [NumberLiteral.isNumeral, Bool.or_eq_true, beq_iff_eq] at numeral
  rcases numeral with ((((digit | rfl) | rfl) | rfl) | rfl) | rfl
  · exact isBlank_of_continuesName (by simp [Reader.continuesName, Char.isAlphanum, digit])
  · decide
  · decide
  · decide
  · decide
  · decide

theorem firm_name {name : String} (legal : isName name = true) : Firm name.toList := by
  obtain ⟨c, more, letters, _⟩ := Reader.letters_of_isName legal
  refine .of_visible (letters ▸ List.cons_ne_nil _ _) fun d member => ?_
  exact isBlank_of_continuesName (Reader.continuesName_of_isName legal d member)

theorem firm_type {type : TypeRef} (legal : isName type.name = true) : Firm type.text.toList := by
  induction type with
  | named name => exact firm_name legal
  | list item ih =>
      rw [TypeRef.toList_text_list]
      exact .cons (by decide) ((ih legal).settled.append (Firm.cons (by decide) .nil).settled)
  | nonNull inner ih =>
      rw [TypeRef.toList_text_nonNull]
      exact (ih legal).append (Firm.cons (by decide) .nil).settled

theorem firm_entry {entry : String × Value} (legal : isName entry.1 = true)
    (firm : Firm entry.2.text.toList) : Firm (entryChars entry) :=
  (firm_name legal).append (Firm.cons (by decide) firm.space).settled

/-- What is printed for a legible value has single spaces inside. -/
theorem firm_value {constant : Bool} {value : Value} (legal : value.Legal constant)
    (legible : value.isLegible = true) : Firm value.text.toList := by
  induction legal with
  | null => exact .of_visible (by decide) (by decide)
  | boolean b =>
      cases b with
      | true => exact .of_visible (by decide) (by decide)
      | false => exact .of_visible (by decide) (by decide)
  | @number n range =>
      have reads := Value.Legal.readsBack (.number range : (Value.number n).Legal constant) legible
      exact .of_visible (Reader.text_ne_nil_of_readsBack reads) fun c member =>
        isBlank_of_isNumeral (Reader.isNumeral_of_readsBack reads c member)
  | string s =>
      have squeezed : Text.squeezeBlank (Value.stringText s) = Value.stringText s :=
        beq_iff_eq.mp (Bool.and_eq_true_iff.mp legible).2
      have letters : (Value.stringText s).toList =
          ('"' :: s.toList.flatMap Value.escapeChar) ++ ['"'] := String.toList_ofList
      exact Text.firm_of_squeezeBlank ⟨'"', _, String.toList_ofList, by decide⟩ letters (by decide)
        squeezed
  | enum legal => exact firm_name (isEnumName_iff.mp legal).1
  | @reference name free legal =>
      have chars : (Value.variable name).text.toList = '$' :: name.toList := by simp [Value.text]
      rw [chars]
      exact .cons (by decide) (firm_name legal).settled
  | @list items each ih =>
      rw [Value.toList_text_list]
      refine .cons (by decide) ((Settled.intercalate ?_).append (Firm.cons (by decide) .nil).settled)
      rintro _ member
      obtain ⟨item, among, rfl⟩ := List.mem_map.mp member
      exact ih item among (Value.isLegible_of_mem legible item among)
  | @object entries distinct keys each ih =>
      rw [Value.toList_text_object]
      refine .cons (by decide) ((Settled.intercalate ?_).append (Firm.cons (by decide) .nil).settled)
      rintro _ member
      obtain ⟨entry, among, rfl⟩ := List.mem_map.mp member
      exact firm_entry (keys entry among)
        (ih entry among (Value.isLegible_of_mem_entries legible entry among))

theorem settled_arguments {constant : Bool} {arguments : List (String × Value)}
    (legal : ∀ argument ∈ arguments, LegalEntry constant argument)
    (legible : Value.entriesAreLegible arguments = true) :
    Settled (argumentsText arguments).toList := by
  cases arguments with
  | nil => exact .nil
  | cons argument others =>
      rw [Reader.toList_argumentsText_cons]
      refine (Firm.cons (by decide) ((Settled.intercalate ?_).append
        (Firm.cons (by decide) .nil).settled)).settled
      rintro _ member
      obtain ⟨entry, among, rfl⟩ := List.mem_map.mp member
      exact firm_entry (legal entry among).1
        (firm_value (legal entry among).2 (Value.isLegible_of_mem_entries legible entry among))

theorem settled_directives {directives : List Directive}
    (legal : ∀ directive ∈ directives, directive.Legal)
    (legible : directivesAreLegible directives = true) :
    Settled (directivesText directives).toList := by
  rw [Reader.toList_directivesText]
  refine .flatMap fun directive member => Firm.space ?_
  refine .cons (by decide) ((firm_name (legal directive member).name).settled.append ?_)
  exact settled_arguments (legal directive member).arguments
    (List.all_eq_true.mp legible directive member)

/-! ### Printed selections -/

theorem firm_field {field : Field} (legal : field.Legal)
    (legible : Value.entriesAreLegible field.arguments = true)
    (legible' : directivesAreLegible field.directives = true) : Firm field.text.toList := by
  have named := (firm_name legal.name).append ((settled_arguments legal.arguments legible).append
    (settled_directives legal.directives legible'))
  rw [toList_fieldText]
  cases aliased : field.aliasName with
  | none => exact named
  | some aliasName =>
      have before := firm_name (legal.aliasName aliasName aliased)
      rw [Option.elim_some, List.append_assoc]
      exact before.append (Firm.cons (by decide) named.space).settled

theorem firm_points {text : List Char} (settled : Settled text) : Firm (['.', '.', '.'] ++ text) :=
  .cons (by decide) (Firm.cons (by decide) (Firm.cons (by decide) settled).settled).settled

theorem firm_inline {inline : InlineFragment} (legal : inline.Legal)
    (legible : directivesAreLegible inline.directives = true) : Firm inline.text.toList := by
  have directives := settled_directives legal.directives legible
  rw [toList_inlineText]
  refine firm_points ?_
  cases conditioned : inline.condition with
  | none => exact directives
  | some condition =>
      have type := firm_name (legal.condition condition conditioned)
      have on : Firm (['o', 'n'] ++ ' ' :: condition.type.toList) :=
        (Firm.of_visible (by decide) (by decide)).append type.space
      exact on.space.append directives

theorem firm_selectionSet {selections : List Selection}
    (each : ∀ selection ∈ selections, Firm (selectionText selection).toList) :
    Firm (selectionSetText selections).toList := by
  rw [toList_selectionSetText]
  refine .cons (by decide) ((Settled.flatMap fun selection member =>
    (each selection member).space).append (Firm.space (.cons (by decide) .nil)))

theorem isLegible_of_mem_selections {selections : List Selection}
    (legible : selectionsAreLegible selections = true) :
    ∀ selection ∈ selections, selection.isLegible = true := by
  induction selections with
  | nil => simp
  | cons first rest ih =>
      obtain ⟨here, later⟩ := Bool.and_eq_true_iff.mp legible
      exact List.forall_mem_cons.mpr ⟨(Bool.and_eq_true_iff.mp here).1, ih later⟩

/-- What is printed for a legible selection has single spaces inside. -/
theorem firm_selection {levels : Nat} {selection : Selection} (legal : selection.Legal levels)
    (legible : selection.isLegible = true) : Firm (selectionText selection).toList := by
  induction legal with
  | @leaf _ field brace legal =>
      obtain ⟨values, _⟩ := Bool.and_eq_true_iff.mp legible
      obtain ⟨arguments, directives⟩ := Bool.and_eq_true_iff.mp values
      rw [toList_leafText]
      exact firm_field legal arguments directives
  | @field _ field selections brace legal filled each ih =>
      obtain ⟨values, nested⟩ := Bool.and_eq_true_iff.mp legible
      obtain ⟨arguments, directives⟩ := Bool.and_eq_true_iff.mp values
      have inside := firm_selectionSet fun selection member =>
        ih selection member (isLegible_of_mem_selections nested selection member)
      rw [toList_nestedText _ _ filled]
      exact (firm_field legal arguments directives).append inside.space
  | @spread _ spread legal =>
      rw [toList_spreadText]
      exact firm_points ((firm_name legal.fragment).settled.append
        (settled_directives legal.directives legible))
  | @inline _ inline selections brace legal filled each ih =>
      obtain ⟨directives, nested⟩ := Bool.and_eq_true_iff.mp legible
      have inside := firm_selectionSet fun selection member =>
        ih selection member (isLegible_of_mem_selections nested selection member)
      rw [toList_inlineSelectionText]
      exact (firm_inline legal directives).append inside.space

theorem firm_selectionSetText {levels : Nat} {selections : List Selection}
    (legal : LegalSelections levels selections) (legible : selectionsAreLegible selections = true) :
    Firm (selectionSetText selections).toList :=
  firm_selectionSet fun selection member =>
    firm_selection (legal.each selection member) (isLegible_of_mem_selections legible selection member)

end GraphQL

end ElmClient
