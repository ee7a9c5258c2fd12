/-
Module: ElmClient.Proofs.QueryText.Selections
Purpose: Selection sets read back from the text that is printed for them, up to the places of what
  is in them. A fragment of the name `on` is the one thing that can be taken for something else: its
  spread without directives, and a field after it, read like an inline fragment.
Main exports: Selection.erased, Selection.isLegible, Reader.takes_ownSelectionSet
-/
import ElmClient.Proofs.QueryText.Values

namespace ElmClient

namespace GraphQL

/-! ### Selections without places -/

/-- A field at no particular place. -/
def Field.erased (field : Field) : Field := { field with position := .start }

/-- The type that a fragment is about, at no particular place. -/
def TypeCondition.erased (condition : TypeCondition) : TypeCondition :=
  ⟨.start, condition.type, .start⟩

/-- An inline fragment at no particular place. -/
def InlineFragment.erased (inline : InlineFragment) : InlineFragment :=
  ⟨.start, inline.condition.map TypeCondition.erased, inline.directives⟩

mutual

/-- A selection at no particular place. -/
def Selection.erased : Selection → Selection
  | .field field _ selections => .field field.erased .start (erasedSelections selections)
  | .spread spread => .spread { spread with position := .start }
  | .inline inline _ selections => .inline inline.erased .start (erasedSelections selections)
termination_by structural selection => selection

/-- Selections at no particular place. -/
def erasedSelections : List Selection → List Selection
  | [] => []
  | selection :: rest => selection.erased :: erasedSelections rest
termination_by structural selections => selections

end

theorem erasedSelections_eq_map (selections : List Selection) :
    erasedSelections selections = selections.map Selection.erased := by
  induction selections with
  | nil => rfl
  | cons first rest ih => exact congrArg _ ih

/-! ### Legible selections -/

/-- Whether the values in directives are legible. -/
def directivesAreLegible (directives : List Directive) : Bool :=
  directives.all fun directive => Value.entriesAreLegible directive.arguments

/-- Whether a selection is the use of a fragment `on` and nothing beside it. -/
def Selection.isBareOn : Selection → Bool
  | .spread used => used.fragment == "on" && used.directives.isEmpty
  | _ => false

/-- Whether selections start with a field. -/
def startsWithField : List Selection → Bool
  | .field .. :: _ => true
  | _ => false

mutual

/-- Whether the values in a selection are legible, and nowhere in it a field stands right after a
use of a fragment `on` without directives. -/
def Selection.isLegible : Selection → Bool
  | .field field _ selections =>
      Value.entriesAreLegible field.arguments && directivesAreLegible field.directives &&
        selectionsAreLegible selections
  | .spread spread => directivesAreLegible spread.directives
  | .inline inline _ selections =>
      directivesAreLegible inline.directives && selectionsAreLegible selections
termination_by structural selection => selection

def selectionsAreLegible : List Selection → Bool
  | [] => true
  | selection :: rest =>
      selection.isLegible && !(selection.isBareOn && startsWithField rest) &&
        selectionsAreLegible rest
termination_by structural selections => selections

end

/-! ### What is printed -/

theorem toList_selectionsText (selections : List Selection) (tail : List Char) :
    ' ' :: ((selectionsText selections).toList ++ tail) =
      selections.flatMap (fun selection => ' ' :: (selectionText selection).toList) ++
        ' ' :: tail := by
  induction selections with
  | nil => rfl
  | cons first rest ih =>
      have here : (selectionsText (first :: rest)).toList =
          (selectionText first).toList ++ ' ' :: (selectionsText rest).toList := by
        simp [selectionsText]
      rw [here, List.flatMap_cons, List.append_assoc, List.cons_append, ih]
      simp

/-- A selection set is its selections in braces, with a space before each and one at the end. -/
theorem toList_selectionSetText (selections : List Selection) :
    (selectionSetText selections).toList =
      '\x7b' :: (selections.flatMap (fun selection => ' ' :: (selectionText selection).toList) ++
        [' ', '\x7d']) := by
  rw [← toList_selectionsText]
  simp [selectionSetText, braced]

/-- A field as it is printed, without its selections. -/
theorem toList_fieldText (field : Field) :
    field.text.toList =
      (field.aliasName.elim [] fun aliasName => aliasName.toList ++ [':', ' ']) ++
        (field.name.toList ++ ((argumentsText field.arguments).toList ++
          (directivesText field.directives).toList)) := by
  cases aliased : field.aliasName with
  | none => simp [Field.text, aliased]
  | some aliasName => simp [Field.text, aliased]

theorem toList_inlineText (inline : InlineFragment) :
    inline.text.toList =
      ['.', '.', '.'] ++ ((inline.condition.elim [] fun condition =>
        [' ', 'o', 'n', ' '] ++ condition.type.toList) ++
          (directivesText inline.directives).toList) := by
  cases conditioned : inline.condition with
  | none => simp [InlineFragment.text, conditioned]
  | some condition => simp [InlineFragment.text, conditioned]

theorem toList_spreadText (spread : Spread) :
    (selectionText (.spread spread)).toList =
      ['.', '.', '.'] ++ (spread.fragment.toList ++ (directivesText spread.directives).toList) := by
  simp [selectionText]

/-- Selections that are printed below a field or a fragment. -/
theorem toList_inlineSelectionText (inline : InlineFragment) (brace : Position)
    (selections : List Selection) :
    (selectionText (.inline inline brace selections)).toList =
      inline.text.toList ++ ' ' :: (selectionSetText selections).toList := by
  simp [selectionText, selectionSetText]

theorem toList_leafText (field : Field) (brace : Position) :
    (selectionText (.field field brace [])).toList = field.text.toList := by
  simp [selectionText]

theorem toList_nestedText (field : Field) (brace : Position) {selections : List Selection}
    (filled : selections ≠ []) :
    (selectionText (.field field brace selections)).toList =
      field.text.toList ++ ' ' :: (selectionSetText selections).toList := by
  simp [selectionText, selectionSetText, filled]

/-- A selection starts with a letter if it is a field and with a point if it is not. -/
theorem exists_selectionText {levels : Nat} {selection : Selection}
    (legal : selection.Legal levels) (rest : List Selection) :
    ∃ c more, (selectionText selection).toList = c :: more ∧
      (Reader.startsName c = true ∧ startsWithField (selection :: rest) = true ∨ c = '.') := by
  have field (field : Field) (legal : field.Legal) (tail : List Char) :
      ∃ c more, field.text.toList ++ tail = c :: more ∧ Reader.startsName c = true := by
    rw [toList_fieldText]
    cases aliased : field.aliasName with
    | none =>
        obtain ⟨c, more, letters, starts, _⟩ := Reader.letters_of_isName legal.name
        exact ⟨c, _, by rw [letters]; rfl, starts⟩
    | some aliasName =>
        obtain ⟨c, more, letters, starts, _⟩ :=
          Reader.letters_of_isName (legal.aliasName aliasName aliased)
        exact ⟨c, _, by rw [Option.elim_some, letters]; rfl, starts⟩
  cases legal with
  | leaf brace legal =>
      obtain ⟨c, more, letters, starts⟩ := field _ legal []
      exact ⟨c, more, by rw [toList_leafText, ← letters, List.append_nil], Or.inl ⟨starts, rfl⟩⟩
  | field brace legal filled each =>
      obtain ⟨c, more, letters, starts⟩ := field _ legal _
      exact ⟨c, more, by rw [toList_nestedText _ _ filled, letters], Or.inl ⟨starts, rfl⟩⟩
  | spread legal => exact ⟨'.', _, toList_spreadText _, Or.inr rfl⟩
  | inline brace legal filled each =>
      exact ⟨'.', _, by rw [toList_inlineSelectionText, toList_inlineText]; rfl, Or.inr rfl⟩

/-! ### Type conditions -/

namespace Reader

variable {ahead rest : List Char}

theorem isIgnored_of_isSolid {c : Char} (solid : isSolid c = true) : isIgnored c = false := by
  simpa using (Bool.and_eq_true_iff.mp solid).1

/-- Blanks are taken up to where none stands, or there are none. -/
theorem takes_or_refuses_blanks (text : List Char) :
    Takes blanks text (text.dropWhile isIgnored) (fun _ => True) ∨
      text.takeWhile isIgnored = [] ∧ Refuses blanks text := by
  cases taken : text.takeWhile isIgnored with
  | nil =>
      refine Or.inr ⟨rfl, takes_get.refuses fun cursor here => ?_⟩
      rw [here, taken]
      exact refuses_failure
  | cons c more =>
      refine Or.inl (takes_state fun position fault => ?_)
      simp only [taken]
      exact ⟨(), _, rfl, trivial⟩

theorem takes_blanks {c : Char} (solid : isSolid c = true) :
    Takes blanks (' ' :: c :: rest) (c :: rest) fun _ => True := by
  have left : (' ' :: c :: rest).dropWhile isIgnored = c :: rest := by
    rw [List.dropWhile_cons_of_pos (by decide),
      List.dropWhile_cons_of_neg (by simp [isIgnored_of_isSolid solid])]
  rcases takes_or_refuses_blanks (' ' :: c :: rest) with takes | ⟨none, _⟩
  · rwa [left] at takes
  · rw [List.takeWhile_cons_of_pos (by decide)] at none
    exact absurd none (List.cons_ne_nil _ _)

theorem refuses_blanks {c : Char} (kept : isIgnored c = false) : Refuses blanks (c :: rest) := by
  refine takes_get.refuses fun cursor here => ?_
  rw [here, List.takeWhile_cons_of_neg (by simp [kept])]
  exact refuses_failure

theorem takes_typeCondition {type : String} (legal : isName type = true) (ends : Ends rest)
    (here : skipped ahead = ['o', 'n', ' '] ++ (type.toList ++ rest)) :
    Takes typeCondition ahead rest fun read => read.type = type := by
  obtain ⟨c, more, letters, starts, _⟩ := letters_of_isName legal
  refine takes_here.andThen fun _ => ?_
  rw [here]
  refine (takes_exactly rfl).andThen fun _ => ?_
  have blank : Takes blanks (' ' :: (type.toList ++ rest)) (type.toList ++ rest) fun _ => True := by
    rw [letters]
    exact takes_blanks (isSolid_of_startsName starts)
  refine blank.andThen fun _ => takes_get.andThen fun _ => ?_
  exact (takes_nameHere legal ends).bind fun read same => .pure same

theorem refuses_typeCondition (apart : (skipped ahead).head? ≠ some 'o') :
    Refuses typeCondition ahead :=
  takes_here.refuses fun _ _ => (refuses_exactly_of_head "on" rfl apart).bind _

/-- What may stand between tokens, comments apart, is skipped in any case. -/
theorem skipped_dropWhile (text : List Char) :
    skipped (text.dropWhile isIgnored) = skipped text := by
  induction text with
  | nil => rfl
  | cons c rest ih =>
      by_cases ignored : isIgnored c = true
      · rw [List.dropWhile_cons_of_pos ignored, ih]
        simp only [skipped, skipIgnored, ignored, Bool.false_eq_true, if_false, if_true]
        exact skipIgnored_fst _ _ _ _
      · rw [List.dropWhile_cons_of_neg ignored]

/-- No name of a type follows where no name comes next. -/
theorem refuses_typeName {α : Type} {next : Cursor → String → Reader α}
    (apart : ∀ c ∈ (skipped ahead).head?, startsName c = false) :
    Refuses (do
      blanks
      let cursor ← get
      let type ← nameHere
      next cursor type) ahead := by
  rcases takes_or_refuses_blanks ahead with takes | ⟨_, refuses⟩
  · refine takes.refuses fun _ _ => takes_get.refuses fun _ _ => (refuses_nameHere ?_).bind _
    intro c first
    cases starts : startsName c with
    | false => rfl
    | true =>
        have here : (skipped (ahead.dropWhile isIgnored)).head? = some c := by
          cases left : ahead.dropWhile isIgnored with
          | nil =>
              rw [left] at first
              exact absurd first.symm (Option.some_ne_none _)
          | cons d more =>
              rw [left] at first
              obtain rfl := Option.some.inj first
              rw [skipped_of_isSolid (isSolid_of_startsName starts)]
              rfl
        rw [skipped_dropWhile] at here
        exact absurd ((apart c here).symm.trans starts) Bool.false_ne_true
  · exact refuses.bind _

/-- The name of a fragment is no condition, unless it is `on` and a name comes next. -/
theorem refuses_typeCondition_of_name {name : String} (legal : isName name = true)
    (ends : Ends rest)
    (apart : name = "on" → ∀ c ∈ (skipped rest).head?, startsName c = false) :
    Refuses typeCondition (name.toList ++ rest) := by
  refine takes_here.refuses fun _ _ => ?_
  rw [skipped_name legal]
  cases dropped : dropWord? "on".toList (name.toList ++ rest) with
  | none => exact (refuses_exactly dropped).bind _
  | some left =>
      refine (takes_exactly dropped).refuses fun _ _ => ?_
      obtain ⟨c, more, letters, _, continues⟩ := letters_of_isName legal
      have whole : c :: (more ++ rest) = 'o' :: 'n' :: left := by
        rw [← List.cons_append, ← letters]
        exact append_of_dropWord? dropped
      obtain ⟨rfl, whole'⟩ := List.cons.inj whole
      cases more with
      | nil =>
          have first : rest.head? = some 'n' := by
            rw [← List.nil_append rest, whole']
            rfl
          exact absurd (ends 'n' first) (by decide)
      | cons d more =>
          obtain ⟨rfl, rfl⟩ := List.cons.inj whole'
          cases more with
          | nil =>
              change Refuses _ rest
              exact refuses_typeName (apart (String.toList_inj.mp letters))
          | cons e more =>
              have kept : isIgnored e = false :=
                isIgnored_of_isSolid (isSolid_of_test (continues e (by simp)) (by decide))
              exact (refuses_blanks kept).bind _

/-! ### Selections read back -/

section

variable {below : Reader (Position × List Selection)} {levels bound : Nat}

/-- A reader of what stands below the selections on a level: it takes legal selection sets that are
not too long, and refuses what is no selection set. -/
structure TakesBelow (below : Reader (Position × List Selection)) (levels bound : Nat) : Prop where
  takes : ∀ {fewer : Nat} {selections : List Selection} {ahead rest : List Char},
    levels = fewer + 1 → LegalSelections fewer selections →
    selectionsAreLegible selections = true →
    (selectionSetText selections).toList.length < bound →
    skipped ahead = (selectionSetText selections).toList ++ rest →
    Takes below ahead rest fun read => erasedSelections read.2 = erasedSelections selections
  refuses : ∀ {ahead : List Char}, (skipped ahead).head? ≠ some '\x7b' → Refuses below ahead

/-- The alias of a field is taken if there is one, and the name of the field comes next. -/
theorem takes_aliasName {aliasName : Option String} {name : String}
    (legal : ∀ other, aliasName = some other → isName other = true) (legal' : isName name = true)
    {tail : List Char} (clear : Clear [':'] tail)
    (here : skipped ahead =
      (aliasName.elim [] fun aliasName => aliasName.toList ++ [':', ' ']) ++
        (name.toList ++ tail)) :
    ∃ after, skipped after = name.toList ++ tail ∧
      Takes (optional (do
        let aliasName ← GraphQL.Reader.name
        token ":"
        Pure.pure aliasName)) ahead after fun found => found = aliasName := by
  cases aliasName with
  | none =>
      refine ⟨ahead, here, Refuses.optional ?_⟩
      exact (takes_name legal' clear.1 here).refuses fun _ _ =>
        (refuses_token_of_head ":" rfl (clear.head (by decide))).bind _
  | some other =>
      refine ⟨' ' :: (name.toList ++ tail), ?_, ?_⟩
      · rw [skipped_space, skipped_name legal']
      · have here' : skipped ahead = other.toList ++ (':' :: ' ' :: (name.toList ++ tail)) := by
          rw [here]
          simp
        have takes : Takes (do
            let aliasName ← GraphQL.Reader.name
            token ":"
            Pure.pure aliasName) ahead (' ' :: (name.toList ++ tail)) fun found => found = other :=
          (takes_name (legal other rfl) (.cons (by decide) _) here').bind fun _ same =>
            (takes_token rfl).andThen fun _ => .pure same
        refine takes.optional.imp ?_
        rintro _ ⟨_, rfl, rfl⟩
        rfl

/-- A field is taken up to a text with which nothing of it goes on, and then what is below. -/
theorem takes_field {field : Field} (legal : field.Legal)
    (legible : Value.entriesAreLegible field.arguments = true)
    (legible' : directivesAreLegible field.directives = true) {tail : List Char}
    (clear : Clear [':', '(', '@'] tail) {property : Position × List Selection → Prop}
    (nested : ∀ position, Takes (below <|> Pure.pure (position, [])) tail rest property)
    (here : skipped ahead = field.text.toList ++ tail) :
    Takes (Reader.field below) ahead rest fun read =>
      ∃ position brace selections, property (brace, selections) ∧
        read = .field { field with position := position } brace selections := by
  have clear' : Clear [':', '('] ((directivesText field.directives).toList ++ tail) :=
    clear_directives (by decide) (clear.mono (by simp)) _
  have clear'' : Clear [':'] ((argumentsText field.arguments).toList ++
      ((directivesText field.directives).toList ++ tail)) :=
    clear_arguments (by decide) (clear'.mono (by simp)) _
  rw [toList_fieldText, List.append_assoc, List.append_assoc, List.append_assoc] at here
  obtain ⟨after, named, aliased⟩ := takes_aliasName legal.aliasName legal.name clear''
    ((skipped_skipped ahead).trans here)
  refine takes_here.andThen fun position => aliased.bind fun aliasName sameAlias => ?_
  refine (takes_name legal.name clear''.1 named).bind fun name sameName => ?_
  refine (takes_arguments legal.arguments legible (clear'.mono (by simp))).bind
    fun arguments sameArguments => ?_
  refine (takes_directives legal.directives (List.all_eq_true.mp legible')
    (clear.mono (by simp))).bind fun directives sameDirectives => ?_
  refine (nested position).bind fun (brace, selections) holds => .pure ?_
  exact ⟨position, brace, selections, holds,
    by rw [sameAlias, sameName, sameArguments, sameDirectives]⟩

/-- What starts with no name is no field. -/
theorem refuses_field (apart : ∀ c ∈ (skipped ahead).head?, startsName c = false) :
    Refuses (Reader.field below) ahead := by
  have apart' : ∀ c ∈ (skipped (skipped ahead)).head?, startsName c = false := by
    rwa [skipped_skipped]
  refine takes_here.refuses fun _ _ => ?_
  exact ((refuses_name apart').bind _).optional.refuses fun _ _ => (refuses_name apart').bind _

/-- An inline fragment is taken up to its selections. -/
theorem takes_inlineFragment {inline : InlineFragment} (legal : inline.Legal)
    (legible : directivesAreLegible inline.directives = true) {tail : List Char}
    (clear : Clear ['(', '@', 'o'] tail) {property : Position × List Selection → Prop}
    (nested : Takes below tail rest property)
    (here : skipped ahead = inline.text.toList ++ tail) :
    Takes (inlineFragment below) ahead rest fun read =>
      ∃ position condition brace selections, property (brace, selections) ∧
        condition.map TypeCondition.erased = inline.condition.map TypeCondition.erased ∧
        read = .inline ⟨position, condition, inline.directives⟩ brace selections := by
  have clear' : Clear ['o'] ((directivesText inline.directives).toList ++ tail) :=
    clear_directives (by decide) (clear.mono (by simp)) _
  have condition : Takes (optional typeCondition)
      ((inline.condition.elim [] fun condition => [' ', 'o', 'n', ' '] ++ condition.type.toList) ++
        ((directivesText inline.directives).toList ++ tail))
      ((directivesText inline.directives).toList ++ tail)
      fun found => found.map TypeCondition.erased = inline.condition.map TypeCondition.erased := by
    cases conditioned : inline.condition with
    | none =>
        refine (refuses_typeCondition (clear'.head (by decide))).optional.imp ?_
        rintro _ rfl
        rfl
    | some condition =>
        have legal' : isName condition.type = true := legal.condition condition conditioned
        refine (takes_typeCondition legal' clear'.1 ?_).optional.imp ?_
        · rw [Option.elim_some, List.append_assoc]
          show skipped (' ' :: 'o' :: _) = _
          rw [skipped_space, skipped_of_isSolid (by decide)]
          rfl
        · rintro _ ⟨read, rfl, same⟩
          simp [TypeCondition.erased, same]
  rw [toList_inlineText, List.append_assoc, List.append_assoc] at here
  refine takes_here.andThen fun position => ?_
  rw [here]
  refine (takes_exactly rfl).andThen fun _ => condition.bind fun read sameCondition => ?_
  refine (takes_directives legal.directives (List.all_eq_true.mp legible)
    (clear.mono (by simp))).bind fun directives sameDirectives => ?_
  refine nested.bind fun (brace, selections) holds => .pure ?_
  exact ⟨position, read, brace, selections, holds, sameCondition, by rw [sameDirectives]⟩

/-- The use of a fragment is no inline fragment. -/
theorem refuses_inlineFragment (sets : TakesBelow below levels bound) {spread : Spread}
    (legal : spread.Legal) {tail : List Char} (ends : Ends tail)
    (apart : spread.fragment = "on" → ∀ c ∈ (skipped tail).head?, startsName c = false)
    (here : skipped ahead = ['.', '.', '.'] ++ (spread.fragment.toList ++ tail)) :
    Refuses (inlineFragment below) ahead := by
  obtain ⟨c, more, letters, starts, _⟩ := letters_of_isName legal.fragment
  have first : (skipped (spread.fragment.toList ++ tail)).head? = some c := by
    rw [skipped_name legal.fragment, letters]
    rfl
  have noDirective : Refuses (directive false) (spread.fragment.toList ++ tail) := by
    refine (refuses_token_of_head "@" rfl ?_).bind _
    rw [first]
    rintro ⟨⟩
    exact absurd starts (by decide)
  have noBrace : Refuses below (spread.fragment.toList ++ tail) := by
    refine sets.refuses ?_
    rw [first]
    rintro ⟨⟩
    exact absurd starts (by decide)
  refine takes_here.refuses fun _ _ => ?_
  rw [here]
  refine (takes_exactly rfl).refuses fun _ _ => ?_
  refine (refuses_typeCondition_of_name legal.fragment ends apart).optional.refuses fun _ _ => ?_
  exact noDirective.many.refuses fun _ _ => noBrace.bind _

/-- After the use of a fragment `on` comes no name, unless a field comes right after it. -/
theorem noName_after_spread {spread : Spread}
    (apart : spread.fragment = "on" → spread.directives = [] →
      ∀ c ∈ (skipped rest).head?, startsName c = false)
    (isOn : spread.fragment = "on") :
    ∀ c ∈ (skipped ((directivesText spread.directives).toList ++ rest)).head?,
      startsName c = false := by
  rw [toList_directivesText]
  cases directives : spread.directives with
  | nil => exact apart isOn directives
  | cons directive others =>
      rw [List.flatMap_cons, List.append_assoc, List.append_assoc]
      show ∀ c ∈ (skipped (' ' :: '@' :: _)).head?, startsName c = false
      rw [skipped_space, skipped_of_isSolid (by decide)]
      rintro c ⟨⟩
      decide

theorem takes_spread {spread : Spread} (legal : spread.Legal)
    (legible : directivesAreLegible spread.directives = true) (clear : Clear ['(', '@'] rest)
    (apart : spread.fragment = "on" → spread.directives = [] →
      ∀ c ∈ (skipped rest).head?, startsName c = false)
    (here : skipped ahead = (selectionText (.spread spread)).toList ++ rest) :
    Takes (Reader.spread) ahead rest fun read =>
      ∃ position, read = .spread { spread with position := position } := by
  have clear' : Clear [] ((directivesText spread.directives).toList ++ rest) :=
    clear_directives (by decide) (clear.mono (by simp)) _
  have noCondition := refuses_typeCondition_of_name legal.fragment clear'.1
    (noName_after_spread apart)
  rw [toList_spreadText, List.append_assoc, List.append_assoc] at here
  refine takes_here.andThen fun position => ?_
  rw [here]
  refine (takes_exactly rfl).andThen fun _ => noCondition.without.andThen fun _ => ?_
  refine (takes_name legal.fragment clear'.1 (skipped_name legal.fragment _)).bind
    fun fragment sameFragment => ?_
  refine (takes_directives legal.directives (List.all_eq_true.mp legible) clear).bind
    fun directives sameDirectives => .pure ⟨position, ?_⟩
  rw [sameFragment, sameDirectives]

/-- The selections below a field or an inline fragment follow after a space. -/
theorem skipped_selectionSetText (selections : List Selection) (tail : List Char) :
    skipped (' ' :: ((selectionSetText selections).toList ++ tail)) =
      (selectionSetText selections).toList ++ tail := by
  rw [skipped_space, toList_selectionSetText]
  exact skipped_of_isSolid (by decide) _

theorem clear_selectionSetText {chars : List Char} (apart : '\x7b' ∉ chars)
    (selections : List Selection) (tail : List Char) :
    Clear chars (' ' :: ((selectionSetText selections).toList ++ tail)) := by
  rw [toList_selectionSetText]
  exact .of_space (by decide) apart _

theorem takes_leaf (sets : TakesBelow below levels bound) {field : Field} (brace : Position)
    (legal : field.Legal) (legible : (Selection.field field brace []).isLegible = true)
    (clear : Clear [':', '(', '@', '\x7b'] rest)
    (here : skipped ahead = (selectionText (.field field brace [])).toList ++ rest) :
    Takes (Reader.selection below) ahead rest
      fun read => read.erased = (Selection.field field brace []).erased := by
  obtain ⟨values, _⟩ := Bool.and_eq_true_iff.mp legible
  obtain ⟨arguments, directives⟩ := Bool.and_eq_true_iff.mp values
  rw [toList_leafText] at here
  have none (position : Position) : Takes (below <|> Pure.pure (position, [])) rest rest
      fun read => read.2 = [] :=
    (sets.refuses (clear.head (by decide))).orElse (.pure rfl)
  have field := takes_field legal arguments directives (clear.mono (by simp)) none here
  refine Takes.orElse (field.imp ?_) _
  rintro _ ⟨position, brace', _, rfl, rfl⟩
  rfl

theorem takes_nested {fewer : Nat} (sets : TakesBelow below (fewer + 1) bound) {field : Field}
    {selections : List Selection} (brace : Position) (legal : field.Legal)
    (inner : LegalSelections fewer selections)
    (legible : (Selection.field field brace selections).isLegible = true)
    (enough : (selectionText (.field field brace selections)).toList.length < bound)
    (here : skipped ahead = (selectionText (.field field brace selections)).toList ++ rest) :
    Takes (Reader.selection below) ahead rest
      fun read => read.erased = (Selection.field field brace selections).erased := by
  obtain ⟨values, nested⟩ := Bool.and_eq_true_iff.mp legible
  obtain ⟨arguments, directives⟩ := Bool.and_eq_true_iff.mp values
  rw [toList_nestedText _ _ inner.filled] at here enough
  rw [List.append_assoc, List.cons_append] at here
  rw [List.length_append, List.length_cons] at enough
  have inside := sets.takes rfl inner nested (by omega) (skipped_selectionSetText selections rest)
  have field' := takes_field legal arguments directives (clear_selectionSetText (by decide) _ _)
    (fun _ => inside.orElse _) here
  refine Takes.orElse (field'.imp ?_) _
  rintro _ ⟨position, brace', read, same, rfl⟩
  exact congrArg (Selection.field field.erased .start) same

theorem takes_spreadSelection (sets : TakesBelow below levels bound) {spread : Spread}
    (legal : spread.Legal) (legible : (Selection.spread spread).isLegible = true)
    (clear : Clear [':', '(', '@', '\x7b'] rest)
    (apart : (Selection.spread spread).isBareOn = true →
      ∀ c ∈ (skipped rest).head?, startsName c = false)
    (here : skipped ahead = (selectionText (.spread spread)).toList ++ rest) :
    Takes (Reader.selection below) ahead rest
      fun read => read.erased = (Selection.spread spread).erased := by
  have directives : directivesAreLegible spread.directives = true := legible
  have apart' : spread.fragment = "on" → spread.directives = [] →
      ∀ c ∈ (skipped rest).head?, startsName c = false := by
    intro isOn noDirectives
    exact apart (by simp [Selection.isBareOn, isOn, noDirectives])
  have clear' : Clear [] ((directivesText spread.directives).toList ++ rest) :=
    clear_directives (by decide) (clear.mono (by simp)) _
  have here' : skipped ahead = ['.', '.', '.'] ++ (spread.fragment.toList ++
      ((directivesText spread.directives).toList ++ rest)) := by
    rw [here, toList_spreadText, List.append_assoc, List.append_assoc]
  have first : (skipped ahead).head? = some '.' := by
    rw [here']
    rfl
  have noField : Refuses (Reader.field below) ahead :=
    refuses_field (forall_head first (by decide))
  have noInline : Refuses (inlineFragment below) ahead :=
    refuses_inlineFragment sets legal clear'.1 (noName_after_spread apart') here'
  have spread' := takes_spread legal directives (clear.mono (by simp)) apart' here
  refine noField.orElse (noInline.orElse (spread'.imp ?_))
  rintro _ ⟨position, rfl⟩
  rfl

theorem takes_inlineSelection {fewer : Nat} (sets : TakesBelow below (fewer + 1) bound)
    {inline : InlineFragment} {selections : List Selection} (brace : Position)
    (legal : inline.Legal) (inner : LegalSelections fewer selections)
    (legible : (Selection.inline inline brace selections).isLegible = true)
    (enough : (selectionText (.inline inline brace selections)).toList.length < bound)
    (here : skipped ahead = (selectionText (.inline inline brace selections)).toList ++ rest) :
    Takes (Reader.selection below) ahead rest
      fun read => read.erased = (Selection.inline inline brace selections).erased := by
  obtain ⟨directives, nested⟩ := Bool.and_eq_true_iff.mp legible
  rw [toList_inlineSelectionText] at here enough
  rw [List.append_assoc, List.cons_append] at here
  rw [List.length_append, List.length_cons] at enough
  have inside := sets.takes rfl inner nested (by omega) (skipped_selectionSetText selections rest)
  have first : (skipped ahead).head? = some '.' := by
    rw [here, toList_inlineText]
    rfl
  have noField : Refuses (Reader.field below) ahead :=
    refuses_field (forall_head first (by decide))
  have inline' := takes_inlineFragment legal directives (clear_selectionSetText (by decide) _ _)
    inside here
  refine noField.orElse (Takes.orElse (inline'.imp ?_) _)
  rintro _ ⟨position, condition, brace', read, same, sameCondition, rfl⟩
  show Selection.inline ⟨_, condition.map TypeCondition.erased, _⟩ _ (erasedSelections read) =
    Selection.inline ⟨_, inline.condition.map TypeCondition.erased, _⟩ _
      (erasedSelections selections)
  rw [same, sameCondition]

/-- Every legal selection is taken, up to its places. -/
theorem takes_selection (sets : TakesBelow below levels bound) {selection : Selection}
    (legal : selection.Legal levels) (legible : selection.isLegible = true)
    (enough : (selectionText selection).toList.length < bound)
    (clear : Clear [':', '(', '@', '\x7b'] rest)
    (apart : selection.isBareOn = true → ∀ c ∈ (skipped rest).head?, startsName c = false)
    (here : skipped ahead = (selectionText selection).toList ++ rest) :
    Takes (Reader.selection below) ahead rest fun read => read.erased = selection.erased := by
  cases legal with
  | leaf brace legal => exact takes_leaf sets brace legal legible clear here
  | field brace legal filled each =>
      exact takes_nested sets brace legal ⟨filled, each⟩ legible enough here
  | spread legal => exact takes_spreadSelection sets legal legible clear apart here
  | inline brace legal filled each =>
      exact takes_inlineSelection sets brace legal ⟨filled, each⟩ legible enough here

/-- After a selection comes another one or the end of the set. -/
theorem exists_next_selection {selections : List Selection}
    (legal : ∀ selection ∈ selections, selection.Legal levels) (rest : List Char) :
    ∃ c more, selections.flatMap (fun selection => ' ' :: (selectionText selection).toList) ++
        ' ' :: '\x7d' :: rest = ' ' :: c :: more ∧
      isSolid c = true ∧ c ∉ [':', '(', '@', '\x7b'] ∧
      (startsWithField selections = false → startsName c = false) := by
  cases selections with
  | nil => exact ⟨'\x7d', rest, rfl, by decide, by decide, fun _ => by decide⟩
  | cons selection others =>
      obtain ⟨c, more, letters, first⟩ :=
        exists_selectionText (legal selection List.mem_cons_self) others
      refine ⟨c, _, by rw [List.flatMap_cons, letters]; rfl, ?_⟩
      rcases first with ⟨starts, isField⟩ | rfl
      · refine ⟨isSolid_of_startsName starts, ?_, fun noField => ?_⟩
        · intro member
          have noName : ∀ c ∈ [':', '(', '@', '\x7b'], startsName c = false := by decide
          exact absurd ((noName c member).symm.trans starts) Bool.false_ne_true
        · exact absurd (noField.symm.trans isField) Bool.false_ne_true
      · exact ⟨by decide, by decide, fun _ => by decide⟩

/-- No selection starts with the brace that closes the set. -/
theorem refuses_selection_of_close (rest : List Char) :
    Refuses (Reader.selection below) (' ' :: '\x7d' :: rest) := by
  have first : (skipped (' ' :: '\x7d' :: rest)).head? = some '\x7d' := by
    rw [skipped_space, skipped_of_isSolid (by decide)]
    rfl
  have noPoints : Refuses (exactly "...") (skipped (' ' :: '\x7d' :: rest)) :=
    refuses_exactly_of_head "..." rfl (by rw [first]; decide)
  refine (refuses_field (forall_head first (by decide))).both (Refuses.both ?_ ?_)
  · exact takes_here.refuses fun _ _ => noPoints.bind _
  · exact takes_here.refuses fun _ _ => noPoints.bind _

/-- The selections of a set are taken one after another. -/
theorem chain_selections (sets : TakesBelow below levels bound) {selections : List Selection}
    (legal : ∀ selection ∈ selections, selection.Legal levels)
    (legible : selectionsAreLegible selections = true)
    (enough : ∀ selection ∈ selections, (selectionText selection).toList.length < bound)
    (rest : List Char) :
    Chain (Reader.selection below) (fun selection read => read.erased = selection.erased) selections
      (selections.flatMap (fun selection => ' ' :: (selectionText selection).toList) ++
        ' ' :: '\x7d' :: rest) (' ' :: '\x7d' :: rest) := by
  induction selections with
  | nil => exact .nil (refuses_selection_of_close rest)
  | cons selection others ih =>
      obtain ⟨legalHere, legalLater⟩ := List.forall_mem_cons.mp legal
      obtain ⟨enoughHere, enoughLater⟩ := List.forall_mem_cons.mp enough
      obtain ⟨legible', legibleLater⟩ := Bool.and_eq_true_iff.mp legible
      obtain ⟨legibleHere, apart⟩ := Bool.and_eq_true_iff.mp legible'
      obtain ⟨c, more, next, solid, clear, noName⟩ := exists_next_selection legalLater rest
      obtain ⟨d, _, letters, first⟩ := exists_selectionText legalHere others
      have solidHere : isSolid d = true := by
        rcases first with ⟨starts, _⟩ | rfl
        · exact isSolid_of_startsName starts
        · decide
      have later := ih legalLater legibleLater enoughLater
      rw [List.flatMap_cons, List.append_assoc]
      refine .cons (takes_selection sets legalHere legibleHere enoughHere ?_ ?_ ?_) ?_ later
      · rw [next]
        exact .of_space solid clear _
      · intro isOn
        have noField : startsWithField others = false := by simpa [isOn] using apart
        rw [next, skipped_space, skipped_of_isSolid solid]
        rintro _ ⟨⟩
        exact noName noField
      · rw [List.cons_append, skipped_space, letters]
        exact skipped_of_isSolid solidHere _
      · simp only [List.length_append, List.length_cons]
        omega

end

/-- A selection set reads back if what stands below its selections does. -/
theorem takes_selectionSet {depth levels : Nat}
    (below : TakesBelow (oneBelow depth levels) levels depth) {selections : List Selection}
    (legal : LegalSelections levels selections) (legible : selectionsAreLegible selections = true)
    (enough : (selectionSetText selections).toList.length < depth + 1) {ahead rest : List Char}
    (here : skipped ahead = (selectionSetText selections).toList ++ rest) :
    Takes (selectionSet (depth + 1) levels) ahead rest fun read =>
      erasedSelections read.2 = erasedSelections selections := by
  rw [toList_selectionSetText] at here enough
  simp only [List.length_cons, List.length_append, List.length_nil] at enough
  have each : ∀ selection ∈ selections, (selectionText selection).toList.length < depth := by
    intro selection member
    have within :=
      length_le_flatMap (fun selection => ' ' :: (selectionText selection).toList) member
    rw [List.length_cons] at within
    omega
  have chain := chain_selections below legal.each legible each rest
  rw [selectionSet_succ]
  refine takes_here.andThen fun position => ?_
  rw [here, List.cons_append, List.append_assoc]
  refine (takes_exactly rfl).andThen fun _ => ?_
  cases selections with
  | nil => exact absurd rfl legal.filled
  | cons selection others =>
      refine (Takes.many1 chain).bind fun items same => ?_
      refine (takes_token ?_).andThen fun _ => .pure ?_
      · rw [skipped_space, skipped_of_isSolid (by decide)]
        rfl
      · rw [erasedSelections_eq_map, erasedSelections_eq_map]
        exact Forall₂.map_eq_map same fun _ _ same => same

/-- A selection set reads back from what is printed for it, up to the places in it. -/
theorem takesBelow_selectionSet (depth levels : Nat) :
    TakesBelow (selectionSet depth levels) (levels + 1) depth := by
  induction depth generalizing levels with
  | zero =>
      exact ⟨fun _ _ _ enough => absurd enough (Nat.not_lt_zero _), fun _ => refuses_failure⟩
  | succ depth ih =>
      have below : TakesBelow (oneBelow depth levels) levels depth := by
        cases levels with
        | zero =>
            refine ⟨fun impossible => absurd impossible.symm (Nat.succ_ne_zero _), fun apart => ?_⟩
            intro position fault
            exact (ih 0).refuses apart position _
        | succ levels => exact ih levels
      constructor
      · intro fewer selections ahead rest same legal legible enough here
        obtain rfl := Nat.succ.inj same
        exact takes_selectionSet below legal legible enough here
      · intro ahead apart
        rw [selectionSet_succ]
        exact takes_here.refuses fun _ _ => (refuses_exactly_of_head "\x7b" rfl apart).bind _

theorem takes_ownSelectionSet {selections : List Selection} {ahead rest : List Char}
    (legal : LegalSelections levelLimit selections)
    (legible : selectionsAreLegible selections = true)
    (here : skipped ahead = (selectionSetText selections).toList ++ rest) :
    Takes ownSelectionSet ahead rest fun read =>
      erasedSelections read.2 = erasedSelections selections := by
  have within := length_skipped_le ahead
  rw [here, List.length_append] at within
  refine takes_depthBound.bind fun depth bound => ?_
  exact (takesBelow_selectionSet depth levelLimit).takes rfl legal legible (by omega) here

theorem refuses_ownSelectionSet {ahead : List Char} (apart : (skipped ahead).head? ≠ some '\x7b') :
    Refuses ownSelectionSet ahead :=
  takes_depthBound.refuses fun depth _ => (takesBelow_selectionSet depth levelLimit).refuses apart

end Reader

end GraphQL

end ElmClient
