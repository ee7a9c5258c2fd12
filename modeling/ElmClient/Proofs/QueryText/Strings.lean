/-
Module: ElmClient.Proofs.QueryText.Strings
Purpose: The strings of an operation and of the fragments it reaches, and what is read for them in
  the text that is sent. Blanks are cleared up inside of strings too, so a string without control
  characters comes back with every run of blanks as one space, and as itself just if its only
  blanks are spaces that stand alone.
Main exports: Operation.strings, Fragment.strings, stringLiterals, Written, Text.IsSpaced,
  generate_stringLiterals
-/
import Mathlib.Data.List.Chain
import ElmClient.Proofs.Input.Agreement
import ElmClient.Proofs.QueryText.RoundTrip

namespace ElmClient

/-! ### Blanks that may be cleared up -/

namespace Text

/-- A text whose only blanks are spaces that stand alone. -/
structure IsSpaced (text : List Char) : Prop where
  plain : ∀ c ∈ text, isBlank c = true → c = ' '
  single : text.IsChain fun first second => ¬(first = ' ' ∧ second = ' ')

instance (text : List Char) : Decidable (IsSpaced text) :=
  decidable_of_iff
    ((∀ c ∈ text, isBlank c = true → c = ' ') ∧
      text.IsChain fun first second => ¬(first = ' ' ∧ second = ' '))
    ⟨fun ⟨plain, single⟩ => ⟨plain, single⟩, fun ⟨plain, single⟩ => ⟨plain, single⟩⟩

theorem isSpaced_cons {c : Char} {text : List Char} :
    IsSpaced (c :: text) ↔
      (isBlank c = true → c = ' ') ∧ (c = ' ' → text.head? ≠ some ' ') ∧ IsSpaced text := by
  constructor
  · rintro ⟨plain, single⟩
    obtain ⟨here, later⟩ := List.forall_mem_cons.mp plain
    obtain ⟨next, others⟩ := List.isChain_cons.mp single
    exact ⟨here, fun space head => next ' ' head ⟨space, rfl⟩, later, others⟩
  · rintro ⟨here, apart, plain, single⟩
    refine ⟨List.forall_mem_cons.mpr ⟨here, plain⟩, List.isChain_cons.mpr ⟨?_, single⟩⟩
    rintro d head ⟨space, rfl⟩
    exact apart space head

/-- Clearing up blanks leaves a text as it is just if its only blanks are single spaces; after a
space, the text must not start with another one. -/
theorem squeezeRuns_eq_self_iff {inRun : Bool} {text : List Char} :
    squeezeRuns inRun text = text ↔
      IsSpaced text ∧ (inRun = true → text.head? ≠ some ' ') := by
  induction text generalizing inRun with
  | nil => simp [squeezeRuns, show IsSpaced [] from ⟨by simp, .nil⟩]
  | cons c rest ih =>
      rw [squeezeRuns, isSpaced_cons]
      by_cases blank : isBlank c = true
      · cases inRun with
        | true =>
            have shorter := length_squeezeRuns_le true rest
            constructor
            · intro same
              rw [if_pos blank, if_pos rfl] at same
              rw [same, List.length_cons] at shorter
              exact absurd shorter (Nat.not_succ_le_self _)
            · rintro ⟨⟨plain, _⟩, apart⟩
              exact absurd (congrArg some (plain blank)) (apart rfl)
        | false =>
            rw [if_pos blank, if_neg Bool.false_ne_true, List.cons.injEq, ih]
            grind
      · have noSpace : c ≠ ' ' := by
          rintro rfl
          exact blank (by decide)
        rw [if_neg blank, List.cons.injEq, ih]
        simp [blank, noSpace]

theorem mem_squeezeRuns {inRun : Bool} {text : List Char} {c : Char}
    (member : c ∈ squeezeRuns inRun text) : c ∈ text ∨ c = ' ' := by
  induction text generalizing inRun with
  | nil => exact absurd member List.not_mem_nil
  | cons d rest ih =>
      rw [squeezeRuns] at member
      grind

/-- Whatever comes before, a text that starts with a visible character stays as it is. -/
theorem Firm.squeezeRuns {text : List Char} (firm : Firm text) (inRun : Bool) (rest : List Char) :
    squeezeRuns inRun (text ++ rest) = text ++ squeezeRuns false rest := by
  obtain ⟨c, more, rfl, visible⟩ := firm.visible
  rw [← firm.settled rest]
  simp [Text.squeezeRuns, visible]

end Text

namespace GraphQL

/-! ### The strings of a document -/

mutual

/-- The strings in a value, at any depth. -/
def Value.strings : Value → List String
  | .null | .boolean _ | .number _ | .enum _ | .variable _ => []
  | .string s => [s]
  | .list items => Value.itemStrings items
  | .object entries => Value.entryStrings entries
termination_by structural value => value

/-- The strings in the items of a list. -/
def Value.itemStrings : List Value → List String
  | [] => []
  | item :: rest => item.strings ++ Value.itemStrings rest
termination_by structural items => items

/-- The strings in the entries of an object, or in arguments. -/
def Value.entryStrings : List (String × Value) → List String
  | [] => []
  | (_, value) :: rest => value.strings ++ Value.entryStrings rest
termination_by structural entries => entries

end

/-- The strings in the arguments of directives. -/
def directiveStrings (directives : List Directive) : List String :=
  directives.flatMap fun directive => Value.entryStrings directive.arguments

mutual

/-- The strings in a selection and below it. -/
def Selection.strings : Selection → List String
  | .field field _ selections =>
      Value.entryStrings field.arguments ++ directiveStrings field.directives ++
        selectionStrings selections
  | .spread spread => directiveStrings spread.directives
  | .inline inline _ selections => directiveStrings inline.directives ++ selectionStrings selections
termination_by structural selection => selection

/-- The strings in selections. -/
def selectionStrings : List Selection → List String
  | [] => []
  | selection :: rest => selection.strings ++ selectionStrings rest
termination_by structural selections => selections

end

/-- The strings in the default value of a variable. -/
def VariableDefinition.strings (definition : VariableDefinition) : List String :=
  definition.default.elim [] Value.strings

/-- The strings of an operation: in the defaults of its variables, in its directives and in its
selections. -/
def Operation.strings (operation : Operation) : List String :=
  operation.definitions.flatMap VariableDefinition.strings ++
    directiveStrings operation.directives ++ selectionStrings operation.selections

/-- The strings of a fragment. -/
def Fragment.strings (fragment : Fragment) : List String :=
  directiveStrings fragment.directives ++ selectionStrings fragment.selections

theorem Value.itemStrings_eq_flatMap (items : List Value) :
    Value.itemStrings items = items.flatMap Value.strings := by
  induction items with
  | nil => rfl
  | cons first rest ih => rw [Value.itemStrings, ih, List.flatMap_cons]

theorem Value.entryStrings_eq_flatMap (entries : List (String × Value)) :
    Value.entryStrings entries = entries.flatMap fun entry => entry.2.strings := by
  induction entries with
  | nil => rfl
  | cons first rest ih => rw [Value.entryStrings, ih, List.flatMap_cons]

theorem selectionStrings_eq_flatMap (selections : List Selection) :
    selectionStrings selections = selections.flatMap Selection.strings := by
  induction selections with
  | nil => rfl
  | cons first rest ih => rw [selectionStrings, ih, List.flatMap_cons]

/-! ### The literals of a text -/

/-- The string literals of a text, of which no more characters are looked at than the count says.
Comments go on to the end of their line. -/
def stringLiteralsWithin : Nat → List Char → List String
  | 0, _ | _ + 1, [] => []
  | count + 1, c :: rest =>
      if c == '"' then
        match Reader.string.run ⟨c :: rest, .start, none⟩ with
        | some (value, after) => value :: stringLiteralsWithin count after.rest
        | none => stringLiteralsWithin count rest
      else if c == '#' then
        stringLiteralsWithin count (rest.dropWhile fun d => !Reader.endsLine d)
      else stringLiteralsWithin count rest

/-- The values of the string literals of a text, in order. -/
def stringLiterals (text : String) : List String :=
  stringLiteralsWithin text.toList.length text.toList

/-! ### Texts with strings in them -/

/-- A character that starts no string and no comment. -/
def isPlain (c : Char) : Bool := c != '"' && c != '#'

/-- A text in which strings are printed one after another, none of them right before a quote, and
in which everything else is plain. -/
inductive Written : List String → List Char → Prop where
  | nil : Written [] []
  | plain {strings text c} (plain : isPlain c = true) (more : Written strings text) :
      Written strings (c :: text)
  | string {strings text} (s : String) (apart : text.head? ≠ some '"')
      (more : Written strings text) :
      Written (s :: strings) ((Value.stringText s).toList ++ text)

namespace Written

variable {strings others : List String} {text rest : List Char}

theorem append (one : Written strings text) (two : Written others rest)
    (apart : rest.head? ≠ some '"') : Written (strings ++ others) (text ++ rest) := by
  induction one with
  | nil => exact two
  | plain plain _ ih => exact .plain plain ih
  | @string _ text s apart' _ ih =>
      rw [List.append_assoc]
      refine .string s ?_ ih
      cases text with
      | nil => exact apart
      | cons c more => exact apart'

theorem after (plain : ∀ c ∈ text, isPlain c = true) (more : Written others rest) :
    Written others (text ++ rest) := by
  induction text with
  | nil => exact more
  | cons c text ih =>
      obtain ⟨here, later⟩ := List.forall_mem_cons.mp plain
      exact .plain here (ih later)

theorem head?_ne {c : Char} (plain : isPlain c = true) : (c :: text).head? ≠ some '"' := by
  rintro ⟨⟩
  exact absurd plain (by decide)

end Written

/-- What can be followed by any text in which strings are written. -/
def Encloses (strings : List String) (text : List Char) : Prop :=
  ∀ others rest, Written others rest → Written (strings ++ others) (text ++ rest)

namespace Encloses

variable {strings others : List String} {text rest : List Char} {ι : Type}

theorem of_plain (plain : ∀ c ∈ text, isPlain c = true) : Encloses [] text :=
  fun _ _ more => more.after plain

theorem append (one : Encloses strings text) (two : Encloses others rest) :
    Encloses (strings ++ others) (text ++ rest) := by
  intro others' rest' more
  rw [List.append_assoc, List.append_assoc]
  exact one _ _ (two _ _ more)

theorem cons {c : Char} (plain : isPlain c = true) (encloses : Encloses strings text) :
    Encloses strings (c :: text) :=
  fun others rest more => .plain plain (encloses others rest more)

/-- What is written before a plain character. -/
theorem of_written (written : Written strings text) {c : Char} (plain : isPlain c = true) :
    Encloses strings (text ++ [c]) := by
  intro others rest more
  rw [List.append_assoc]
  exact written.append (.plain plain more) (Written.head?_ne plain)

theorem flatMap {items : List ι} {strings : ι → List String} {text : ι → List Char}
    (each : ∀ item ∈ items, Encloses (strings item) (text item)) :
    Encloses (items.flatMap strings) (items.flatMap text) := by
  induction items with
  | nil => exact .of_plain (by simp)
  | cons item items ih =>
      obtain ⟨here, later⟩ := List.forall_mem_cons.mp each
      rw [List.flatMap_cons, List.flatMap_cons]
      exact here.append (ih later)

theorem written (encloses : Encloses strings text) : Written strings text := by
  have whole := encloses [] [] .nil
  rwa [List.append_nil, List.append_nil] at whole

end Encloses

/-- Texts with a comma and a space between them. -/
theorem Written.intercalate {ι : Type} {items : List ι} {strings : ι → List String}
    {text : ι → List Char} (each : ∀ item ∈ items, Written (strings item) (text item)) :
    Written (items.flatMap strings) ([',', ' '].intercalate (items.map text)) := by
  cases items with
  | nil => exact .nil
  | cons first others =>
      obtain ⟨here, later⟩ := List.forall_mem_cons.mp each
      rw [List.map_cons, Reader.intercalate_cons, List.flatMap_map, List.flatMap_cons]
      clear each
      induction others generalizing first with
      | nil => simpa using here
      | cons next others ih =>
          obtain ⟨here', later'⟩ := List.forall_mem_cons.mp later
          rw [List.flatMap_cons, List.flatMap_cons]
          have more := ih next here' later'
          rw [List.append_assoc]
          exact here.append (.plain (by decide) (.plain (by decide) more)) (head?_ne (by decide))

/-! ### Clearing up the blanks of such a text -/

namespace Value

/-- The characters of a string when the blanks that are printed as themselves are cleared up. -/
def squeezedChars : (inRun : Bool) → List Char → List Char
  | _, [] => []
  | inRun, c :: rest =>
      if Text.isBlank c && !isControl c then
        if inRun then squeezedChars true rest else ' ' :: squeezedChars true rest
      else c :: squeezedChars false rest

/-- A string when the blanks around it are cleared up. -/
def squeezed (s : String) : String := String.ofList (squeezedChars false s.toList)

theorem squeezedChars_eq {chars : List Char} (printable : ∀ c ∈ chars, isControl c = false)
    (inRun : Bool) : squeezedChars inRun chars = Text.squeezeRuns inRun chars := by
  induction chars generalizing inRun with
  | nil => rfl
  | cons c rest ih =>
      obtain ⟨here, later⟩ := List.forall_mem_cons.mp printable
      simp [squeezedChars, Text.squeezeRuns, here, ih later]

/-- A string without control characters has none when its blanks are cleared up. -/
theorem isPrintable_squeezed {s : String} (printable : isPrintable s = true) :
    isPrintable (squeezed s) = true := by
  have each : ∀ c ∈ s.toList, isControl c = false := by simpa [isPrintable] using printable
  simp only [isPrintable, squeezed, String.toList_ofList, List.all_eq_true, Bool.not_eq_true',
    squeezedChars_eq each]
  intro c member
  rcases Text.mem_squeezeRuns member with there | rfl
  · exact each c there
  · decide

/-- A character is printed as itself, unless it is no blank or a control character; then no blank is
printed. -/
theorem escapeChar_eq_or_firm (c : Char) : (escapeChar c = [c] ∧ isControl c = false) ∨
    ((Text.isBlank c && !isControl c) = false ∧ Text.Firm (escapeChar c)) := by
  unfold escapeChar
  split
  · exact .inr ⟨by simp_all; decide, .of_visible (by decide) (by decide)⟩
  split
  · exact .inr ⟨by simp_all; decide, .of_visible (by decide) (by decide)⟩
  split
  · exact .inr ⟨by simp_all; decide, .of_visible (by decide) (by decide)⟩
  split
  · exact .inr ⟨by simp_all; decide, .of_visible (by decide) (by decide)⟩
  split
  · exact .inr ⟨by simp_all; decide, .of_visible (by decide) (by decide)⟩
  split
  · next control =>
      refine .inr ⟨by simp [control], .of_visible (List.cons_ne_nil _ _) ?_⟩
      have digits (d : Char) (member : d ∈ Nat.toDigits 10 c.toNat) : Text.isBlank d = false :=
        isBlank_of_isNumeral (by
          simp [NumberLiteral.isNumeral, Nat.isDigit_of_mem_toDigits (by decide) (by decide) member])
      refine List.forall_mem_cons.mpr ⟨by decide, List.forall_mem_cons.mpr ⟨by decide, ?_⟩⟩
      refine List.forall_mem_append.mpr ⟨fun d member => ?_, digits⟩
      rw [List.eq_of_mem_replicate member]
      decide
  · next control => exact .inl ⟨rfl, by simpa using control⟩

/-- Clearing up blanks in a printed string clears up those of the string, and starts afresh after
its closing quote. -/
theorem squeezeRuns_escaped (chars text : List Char) (inRun : Bool) :
    Text.squeezeRuns inRun (chars.flatMap escapeChar ++ '"' :: text) =
      (squeezedChars inRun chars).flatMap escapeChar ++ '"' :: Text.squeezeRuns false text := by
  induction chars generalizing inRun with
  | nil => rw [List.flatMap_nil, List.nil_append, Text.squeezeRuns, if_neg (by decide)]; rfl
  | cons c more ih =>
      rw [List.flatMap_cons, List.append_assoc, squeezedChars]
      rcases escapeChar_eq_or_firm c with ⟨itself, shown⟩ | ⟨kept, firm⟩
      · rw [itself, List.singleton_append, Text.squeezeRuns, ih, ih, shown, Bool.not_false,
          Bool.and_true]
        have space : escapeChar ' ' = [' '] := by decide
        split
        · split
          · rfl
          · rw [List.flatMap_cons, space]
            rfl
        · rw [List.flatMap_cons, itself]
          rfl
      · rw [firm.squeezeRuns, ih, kept, if_neg Bool.false_ne_true, List.flatMap_cons,
          List.append_assoc]

end Value

/-- A text that does not start with a quote does not start with one when blanks are cleared up. -/
theorem head?_squeezeRuns_ne {text : List Char} (apart : text.head? ≠ some '"') :
    (Text.squeezeRuns false text).head? ≠ some '"' := by
  cases text with
  | nil => exact apart
  | cons c rest =>
      rw [Text.squeezeRuns]
      split
      · simp
      · exact apart

/-- Clearing up the blanks of a text clears up those of the strings in it. -/
theorem Written.squeezeRuns {strings : List String} {text : List Char}
    (written : Written strings text) (inRun : Bool) :
    Written (strings.map Value.squeezed) (Text.squeezeRuns inRun text) := by
  induction written generalizing inRun with
  | nil => exact .nil
  | @plain _ text c plain _ ih =>
      rw [Text.squeezeRuns]
      split
      · split
        · exact ih true
        · exact .plain (by decide) (ih true)
      · exact .plain plain (ih false)
  | @string _ text s apart _ ih =>
      have letters (s : String) (text : List Char) : (Value.stringText s).toList ++ text =
          '"' :: (s.toList.flatMap Value.escapeChar ++ '"' :: text) := by
        simp [Value.stringText]
      have squeezed := Value.squeezeRuns_escaped s.toList text false
      have whole : Text.squeezeRuns inRun ((Value.stringText s).toList ++ text) =
          (Value.stringText (Value.squeezed s)).toList ++ Text.squeezeRuns false text := by
        rw [letters, letters, Text.squeezeRuns, if_neg (by decide), squeezed, Value.squeezed,
          String.toList_ofList]
      rw [whole]
      exact .string _ (head?_squeezeRuns_ne apart) (ih false)

/-! ### Reading the strings of such a text -/

/-- The literals of a text are the strings that are written in it. One with control characters is a
literal too, but not of itself. -/
theorem Written.literals {strings : List String} {text : List Char}
    (written : Written strings text) {count : Nat} (enough : text.length ≤ count) :
    List.Forall₂ (fun s read => Value.isPrintable s = true → read = s) strings
      (stringLiteralsWithin count text) := by
  induction written generalizing count with
  | nil => cases count <;> exact .nil
  | @plain _ text c plain _ ih =>
      obtain ⟨noQuote, noComment⟩ := Bool.and_eq_true_iff.mp plain
      cases count with
      | zero => exact absurd enough (Nat.not_succ_le_zero _)
      | succ count =>
          rw [stringLiteralsWithin, if_neg (by simpa using noQuote), if_neg (by simpa using noComment)]
          exact ih (Nat.le_of_succ_le_succ enough)
  | @string strings text s apart _ ih =>
      have letters : (Value.stringText s).toList ++ text =
          '"' :: (s.toList.flatMap Value.escapeChar ++ '"' :: text) := by
        simp [Value.stringText]
      have starts : Reader.skipped ((Value.stringText s).toList ++ text) =
          (Value.stringText s).toList ++ text := by
        rw [letters]
        exact Reader.skipped_of_isSolid (by decide) _
      obtain ⟨read, position, taken, same⟩ := Reader.takes_string apart starts .start none
      rw [letters] at enough taken ⊢
      cases count with
      | zero => exact absurd enough (Nat.not_succ_le_zero _)
      | succ count =>
          rw [stringLiteralsWithin, if_pos (by decide), taken]
          refine .cons same (ih ?_)
          simp only [List.length_cons, List.length_append] at enough
          omega

example : stringLiterals "a(b: \"c \\\"d\\\"\") # \"e\"" = ["c \"d\""] := by decide +kernel

/-! ### What is printed of a document -/

theorem isPlain_of_test {test : Char → Bool} {c : Char} (passes : test c = true)
    (never : ['"', '#'].all fun c => !test c) : isPlain c = true := by
  by_contra special
  have among : c = '"' ∨ c = '#' := by
    simp only [isPlain, Bool.and_eq_true, bne_iff_ne] at special
    tauto
  rcases among with rfl | rfl
  · simp [passes] at never
  · simp [passes] at never

theorem plain_name {name : String} (legal : isName name = true) :
    ∀ c ∈ name.toList, isPlain c = true :=
  fun c member => isPlain_of_test (Reader.continuesName_of_isName legal c member) (by decide)

theorem plain_type {type : TypeRef} (legal : isName type.name = true) :
    ∀ c ∈ type.text.toList, isPlain c = true := by
  induction type with
  | named name => exact plain_name legal
  | list item ih =>
      rw [TypeRef.toList_text_list]
      exact List.forall_mem_cons.mpr ⟨by decide, List.forall_mem_append.mpr ⟨ih legal, by decide⟩⟩
  | nonNull inner ih =>
      rw [TypeRef.toList_text_nonNull]
      exact List.forall_mem_append.mpr ⟨ih legal, by decide⟩

theorem plain_digits (n : Nat) : ∀ c ∈ Nat.toDigits 10 n, isPlain c = true :=
  fun _ member =>
    isPlain_of_test (Nat.isDigit_of_mem_toDigits (by decide) (by decide) member) (by decide)

theorem plain_positional {digits : List Char} (plain : ∀ c ∈ digits, isPlain c = true)
    (leading : Int) : ∀ c ∈ FloatStyle.positional digits leading, isPlain c = true := by
  have zeros (count : Nat) : ∀ c ∈ List.replicate count '0', isPlain c = true := by
    intro c member
    rw [List.eq_of_mem_replicate member]
    decide
  unfold FloatStyle.positional
  split
  · exact List.forall_mem_cons.mpr ⟨by decide, List.forall_mem_cons.mpr
      ⟨by decide, List.forall_mem_append.mpr ⟨zeros _, plain⟩⟩⟩
  · dsimp only
    split
    · exact List.forall_mem_append.mpr
        ⟨List.forall_mem_append.mpr ⟨plain, zeros _⟩, by decide⟩
    · exact List.forall_mem_append.mpr ⟨fun c member => plain c (List.mem_of_mem_take member),
        List.forall_mem_cons.mpr ⟨by decide, fun c member => plain c (List.mem_of_mem_drop member)⟩⟩

theorem plain_scientific {digits : List Char} (plain : ∀ c ∈ digits, isPlain c = true)
    (style : FloatStyle) (leading : Int) :
    ∀ c ∈ style.scientific digits leading, isPlain c = true := by
  unfold FloatStyle.scientific
  refine List.forall_mem_append.mpr ⟨?_, List.forall_mem_cons.mpr
    ⟨by decide, List.forall_mem_append.mpr ⟨?_, plain_digits _⟩⟩⟩
  · split
    · next first second rest =>
        obtain ⟨here, later⟩ := List.forall_mem_cons.mp plain
        exact List.forall_mem_cons.mpr ⟨here, List.forall_mem_cons.mpr ⟨by decide, later⟩⟩
    · exact plain
  · split
    · decide
    · split
      · decide
      · decide

/-- No number is written with a quote, whether it reads back or not. -/
theorem plain_number (n : Number) : ∀ c ∈ n.text.toList, isPlain c = true := by
  cases n with
  | integer n =>
      cases n with
      | ofNat n =>
          rw [Number.toList_text_ofNat]
          exact plain_digits n
      | negSucc n =>
          rw [Number.toList_text_negSucc]
          exact List.forall_mem_cons.mpr ⟨by decide, plain_digits _⟩
  | float x =>
      have magnitude : ∀ c ∈ FloatStyle.json.positiveText x, isPlain c = true := by
        have digits : ∀ c ∈ FloatStyle.dropTrailingZeros
            (Nat.toDigits 10 (x.shortest FloatStyle.json.tieUp).digits), isPlain c = true := by
          intro c member
          have inside := (List.dropWhile_suffix _).subset (List.mem_reverse.mp member)
          exact plain_digits _ c (List.mem_reverse.mp inside)
        unfold FloatStyle.positiveText
        dsimp only
        split
        · exact plain_positional digits _
        · exact plain_scientific digits _ _
      have signed {chars : List Char} (plain : ∀ c ∈ chars, isPlain c = true) :
          ∀ c ∈ if x.negative then '-' :: chars else chars, isPlain c = true := by
        split
        · exact List.forall_mem_cons.mpr ⟨by decide, plain⟩
        · exact plain
      rw [Number.text]
      unfold FloatStyle.text
      split
      · decide
      · rw [String.toList_ofList]
        refine signed ?_
        split
        · decide
        · split
          · decide
          · exact magnitude

theorem Value.Legal.written {constant : Bool} {value : Value} (legal : value.Legal constant) :
    Written value.strings value.text.toList := by
  induction legal with
  | null => exact (Encloses.of_plain (by decide)).written
  | boolean b => cases b <;> exact (Encloses.of_plain (by decide)).written
  | @number n => exact (Encloses.of_plain (plain_number n)).written
  | string s =>
      have written := Written.string s (by simp) .nil
      rwa [List.append_nil] at written
  | enum legal => exact (Encloses.of_plain (plain_name (isEnumName_iff.mp legal).1)).written
  | @reference name _ legal =>
      have chars : (Value.variable name).text.toList = '$' :: name.toList := by simp [Value.text]
      rw [chars]
      exact ((Encloses.of_plain (plain_name legal)).cons (by decide)).written
  | @list items each ih =>
      rw [Value.toList_text_list, Value.strings, Value.itemStrings_eq_flatMap]
      exact ((Encloses.of_written (.intercalate ih) (by decide)).cons (by decide)).written
  | @object entries distinct keys each ih =>
      rw [Value.toList_text_object, Value.strings, Value.entryStrings_eq_flatMap]
      refine ((Encloses.of_written (.intercalate fun entry member => ?_) (by decide)).cons
        (by decide)).written
      exact .after (plain_name (keys entry member))
        (.plain (by decide) (.plain (by decide) (ih entry member)))

theorem encloses_arguments {constant : Bool} {arguments : List (String × Value)}
    (legal : ∀ argument ∈ arguments, LegalEntry constant argument) :
    Encloses (Value.entryStrings arguments) (argumentsText arguments).toList := by
  cases arguments with
  | nil => exact .of_plain (by decide)
  | cons argument others =>
      rw [Reader.toList_argumentsText_cons, Value.entryStrings_eq_flatMap]
      refine (Encloses.of_written (.intercalate fun entry member => ?_) (by decide)).cons (by decide)
      exact .after (plain_name (legal entry member).1)
        (.plain (by decide) (.plain (by decide) (legal entry member).2.written))

theorem encloses_directives {directives : List Directive}
    (legal : ∀ directive ∈ directives, directive.Legal) :
    Encloses (directiveStrings directives) (directivesText directives).toList := by
  rw [Reader.toList_directivesText]
  refine .flatMap fun directive member => ?_
  have name := Encloses.of_plain (plain_name (legal directive member).name)
  exact ((name.append (encloses_arguments (legal directive member).arguments)).cons
    (by decide)).cons (by decide)

theorem encloses_field {field : Field} (legal : field.Legal) :
    Encloses (Value.entryStrings field.arguments ++ directiveStrings field.directives)
      field.text.toList := by
  have named := (Encloses.of_plain (plain_name legal.name)).append
    ((encloses_arguments legal.arguments).append (encloses_directives legal.directives))
  rw [toList_fieldText]
  cases aliased : field.aliasName with
  | none => exact named
  | some aliasName =>
      have before := Encloses.of_plain (plain_name (legal.aliasName aliasName aliased))
      exact (before.append (.of_plain (by decide))).append named

theorem encloses_inline {inline : InlineFragment} (legal : inline.Legal) :
    Encloses (directiveStrings inline.directives) inline.text.toList := by
  have directives := encloses_directives legal.directives
  rw [toList_inlineText]
  refine (Encloses.of_plain (by decide)).append ?_
  cases conditioned : inline.condition with
  | none => exact directives
  | some condition =>
      have type := Encloses.of_plain (plain_name (legal.condition condition conditioned))
      exact ((Encloses.of_plain (by decide)).append type).append directives

theorem encloses_selectionSet {selections : List Selection}
    (each : ∀ selection ∈ selections,
      Encloses selection.strings (selectionText selection).toList) :
    Encloses (selectionStrings selections) (selectionSetText selections).toList := by
  rw [toList_selectionSetText, selectionStrings_eq_flatMap, ← List.append_nil (List.flatMap _ _)]
  exact ((Encloses.flatMap fun selection member => (each selection member).cons (by decide)).append
    (.of_plain (by decide))).cons (by decide)

theorem Selection.Legal.encloses {levels : Nat} {selection : Selection}
    (legal : selection.Legal levels) :
    Encloses selection.strings (selectionText selection).toList := by
  induction legal with
  | leaf brace legal =>
      rw [toList_leafText, Selection.strings, selectionStrings, List.append_nil]
      exact encloses_field legal
  | field brace legal filled each ih =>
      rw [toList_nestedText _ _ filled]
      exact (encloses_field legal).append ((encloses_selectionSet ih).cons (by decide))
  | spread legal =>
      rw [toList_spreadText]
      exact (Encloses.of_plain (by decide)).append
        ((Encloses.of_plain (plain_name legal.fragment)).append
          (encloses_directives legal.directives))
  | inline brace legal filled each ih =>
      rw [toList_inlineSelectionText]
      exact (encloses_inline legal).append ((encloses_selectionSet ih).cons (by decide))

theorem LegalSelections.encloses {levels : Nat} {selections : List Selection}
    (legal : LegalSelections levels selections) :
    Encloses (selectionStrings selections) (selectionSetText selections).toList :=
  encloses_selectionSet fun selection member => (legal.each selection member).encloses

theorem VariableDefinition.Legal.written {definition : VariableDefinition}
    (legal : definition.Legal) : Written definition.strings (definitionChars definition) := by
  refine .plain (by decide) (.after (plain_name legal.name)
    (.plain (by decide) (.plain (by decide) (.after (plain_type legal.type.1) ?_))))
  rw [VariableDefinition.strings]
  cases default : definition.default with
  | none => exact .nil
  | some value => exact .after (by decide) (legal.default value default).written

theorem encloses_variables {definitions : List VariableDefinition}
    (legal : ∀ definition ∈ definitions, definition.Legal) :
    Encloses (definitions.flatMap VariableDefinition.strings)
      (variablesText definitions).toList := by
  cases definitions with
  | nil => exact .of_plain (by decide)
  | cons definition others =>
      rw [toList_variablesText_cons]
      exact (Encloses.of_written (.intercalate fun entry member => (legal entry member).written)
        (by decide)).cons (by decide)

theorem Operation.Legal.encloses {operation : Operation} (legal : operation.Legal) :
    Encloses operation.strings operation.text.toList := by
  have selections := legal.selections.encloses
  cases bare : operation.isBare with
  | true =>
      have nothing : operation.definitions = [] ∧ operation.directives = [] := by
        simp only [Operation.isBare, Bool.and_eq_true, List.isEmpty_iff] at bare
        exact ⟨bare.1.2, bare.2⟩
      rw [toList_text_of_isBare bare, Operation.strings, nothing.1, nothing.2]
      exact selections
  | false =>
      have keyword : ∀ c ∈ operation.kind.keyword.toList, isPlain c = true := by
        cases operation.kind <;> decide
      have name : ∀ c ∈ sentNameChars operation, isPlain c = true := by
        rw [sentNameChars]
        cases sent : operation.sent.name with
        | none => simp
        | some name =>
            have given : operation.name = some name := (Option.filter_eq_some_iff.mp sent).1
            exact List.forall_mem_cons.mpr ⟨by decide, plain_name (legal.name name given)⟩
      rw [toList_text_of_named bare, Operation.strings, List.append_assoc]
      exact (Encloses.of_plain keyword).append ((Encloses.of_plain name).append
        ((encloses_variables legal.definitions).append
          ((encloses_directives legal.directives).append (selections.cons (by decide)))))

theorem Fragment.Legal.encloses {fragment : Fragment} (legal : fragment.Legal) :
    Encloses fragment.strings fragment.text.toList := by
  have name := Encloses.of_plain (plain_name legal.name)
  have condition := Encloses.of_plain (plain_name legal.condition)
  have inside := (encloses_directives legal.directives).append
    (legal.selections.encloses.cons (c := ' ') (by decide))
  rw [toList_fragmentText]
  exact (Encloses.of_plain (by decide)).append
    ((name.append (((Encloses.of_plain (by decide)).append (condition.append inside)).cons
      (by decide))).cons (by decide))

end GraphQL

/-! ### The strings of query texts -/

open GraphQL

/-- What is sent has no blanks at its ends. -/
theorem trimBlank_sentText (operation : Operation) (used : List Fragment) :
    Text.trimBlank (sentText operation used).toList = (sentText operation used).toList := by
  obtain ⟨front, ends⟩ := closes_sentText operation used
  refine Text.trimBlank_eq_self ?_ ends (by decide)
  rw [toList_sentText]
  cases definitions : sentDefinitions operation used with
  | nil => exact absurd definitions (by simp [sentDefinitions])
  | cons first others =>
      obtain ⟨c, more, letters, _, visible⟩ := Reader.exists_definitionText first
      rw [List.map_cons, Reader.intercalate_cons, letters]
      exact ⟨c, _, rfl, visible⟩

/-- A query text is what is sent with its blanks cleared up. -/
theorem BoundDocument.toList_queryText {bound : BoundDocument} {operation : Operation}
    {used : List Fragment} (collected : bound.usedFragments operation = .ok used) {text : String}
    (printed : bound.queryText operation = .ok text) :
    text.toList = Text.squeezeRuns false (sentText operation used).toList := by
  obtain ⟨used', collected', printed'⟩ := Except.bind_eq_ok.mp printed
  obtain rfl := Except.ok.inj (collected.symm.trans collected')
  rw [← Except.pure_eq_ok.mp printed', Text.squeezeBlank, String.toList_ofList]
  exact congrArg _ (trimBlank_sentText operation used)

/-- In the text that is sent for an operation, the strings of the fragments it reaches and then its
own are written, with their blanks cleared up. -/
theorem BoundDocument.written_queryText {bound : BoundDocument} {operation : Operation}
    (legal : operation.Legal) {used : List Fragment}
    (legalFragments : ∀ fragment ∈ used, fragment.Legal)
    (collected : bound.usedFragments operation = .ok used) {text : String}
    (printed : bound.queryText operation = .ok text) :
    Written ((used.flatMap Fragment.strings ++ operation.strings).map Value.squeezed)
      text.toList := by
  have fragments := Encloses.flatMap fun fragment member =>
    (legalFragments fragment member).encloses.append (@Encloses.of_plain [' '] (by decide))
  have letters : (sentText operation used).toList =
      used.flatMap (fun fragment => fragment.text.toList ++ [' ']) ++ operation.text.toList := by
    simp [sentText, List.flatMap_map]
  have written : Written (used.flatMap Fragment.strings ++ operation.strings)
      (sentText operation used).toList := by
    rw [letters]
    simpa using (fragments.append legal.encloses).written
  rw [BoundDocument.toList_queryText collected printed]
  exact written.squeezeRuns false

/-- What is read for a string in a text whose blanks were cleared up: for one without control
characters, the string with one space for every run of blanks, which is the string itself just if
its only blanks are spaces that stand alone. -/
def RereadAs (s read : String) : Prop :=
  Value.isPrintable s = true →
    read = String.ofList (Text.squeezeRuns false s.toList) ∧ (read = s ↔ Text.IsSpaced s.toList)

theorem rereadAs_of_squeezed {s read : String}
    (same : Value.isPrintable (Value.squeezed s) = true → read = Value.squeezed s) :
    RereadAs s read := by
  intro printable
  have each : ∀ c ∈ s.toList, Value.isControl c = false := by
    simpa [Value.isPrintable] using printable
  have squeezed : read = String.ofList (Text.squeezeRuns false s.toList) := by
    rw [same (Value.isPrintable_squeezed printable), Value.squeezed, Value.squeezedChars_eq each]
  refine ⟨squeezed, ?_⟩
  rw [squeezed, ← String.toList_inj, String.toList_ofList, Text.squeezeRuns_eq_self_iff]
  simp

/-- Every request carries the strings of its operation and of the fragments that the operation
reaches, in the order in which they are printed: whatever is in the document, its text has just
these literals. A string without control characters is read from there as itself if its only blanks
are spaces that stand alone, and as another string if they are not. -/
theorem generate_stringLiterals {schema : Schema} {source : String} {document : Document}
    {options : GenerationOptions} {m : Elm.Module} (parsed : Document.parse source = .ok document)
    (generated : generate schema document options = .ok m) :
    ∃ bound, BoundDocument.bind schema document = .ok bound ∧
      bound.operations.Perm document.operations ∧
      List.Forall₂ (fun operation request => request.operationName = operation.title ∧
        ∃ used : List Fragment, (used.map (·.name)).Nodup ∧
          (∀ fragment, fragment ∈ used ↔
            fragment ∈ document.fragments ∧ bound.Reached operation fragment.name) ∧
          List.Forall₂ RereadAs (used.flatMap Fragment.strings ++ operation.strings)
            (stringLiterals request.queryText))
        bound.operations m.requests := by
  obtain ⟨bound, inventory, plans, clients, shared, bind_ok, assembles⟩ :=
    generate_assembles generated
  have legal := Document.legal_of_parse parsed
  have permuted := BoundDocument.operations_perm bind_ok
  refine ⟨bound, bind_ok, permuted, ?_⟩
  rw [assembles.declares.requests, List.forall₂_map_right_iff]
  refine Forall₂.imp_of_mem assembles.declares.made fun operation among client made => ?_
  obtain ⟨used, collected, _⟩ := Except.bind_eq_ok.mp made.printed
  have exact_used {fragment : Fragment} : fragment ∈ used ↔
      fragment ∈ document.fragments ∧ bound.Reached operation fragment.name :=
    BoundDocument.mem_usedFragments bind_ok legal.distinct collected
  have written := BoundDocument.written_queryText
    (legal.operations operation (permuted.mem_iff.mp among))
    (fun fragment member => legal.fragments fragment (exact_used.mp member).1) collected made.printed
  have distinct := (BoundDocument.usedFragments_follows collected).1.distinct
  refine ⟨made.operationName, used, distinct, fun _ => exact_used, ?_⟩
  have literals := written.literals (Nat.le_refl _)
  rw [List.forall₂_map_left_iff] at literals
  exact literals.imp fun _ _ => rereadAs_of_squeezed

/-! ### A string with two spaces -/

/-- A schema for the document; texts do not depend on it. -/
def noteSchema : Schema where
  types := [("Query", .object [("note", .named "Int")]), ("Int", .scalar)]
  roots := { query := some "Query" }

/-- A document with a string in which two spaces follow each other, and one in a list. -/
def noteText : String := "query Note \x7b note(x: \"a  b\", y: [\"c d\"]) \x7d"

theorem exists_noteModule : ∃ document m, Document.parse noteText = .ok document ∧
    generate noteSchema document zooOptions = .ok m ∧
      ∃ operation ∈ document.operations, operation.strings = ["a  b", "c d"] := by
  have evaluated : (Document.parse noteText).toOption.any (fun document =>
      (generate noteSchema document zooOptions).toOption.any fun _ =>
        document.operations.any (·.strings == ["a  b", "c d"])) = true := by decide +kernel
  obtain ⟨document, parsed, evaluated⟩ := Except.any_toOption.mp evaluated
  obtain ⟨m, generated, evaluated⟩ := Except.any_toOption.mp evaluated
  obtain ⟨operation, member, same⟩ := List.any_eq_true.mp evaluated
  exact ⟨document, m, parsed, generated, operation, member, beq_iff_eq.mp same⟩

/-- One of the spaces is lost on the way. -/
theorem note_stringLiterals : ∃ document m, Document.parse noteText = .ok document ∧
    generate noteSchema document zooOptions = .ok m ∧
      ∃ operation ∈ document.operations, "a  b" ∈ operation.strings ∧
        ∃ request ∈ m.requests, request.operationName = operation.title ∧
          "a b" ∈ stringLiterals request.queryText ∧
            "c d" ∈ stringLiterals request.queryText := by
  obtain ⟨document, m, parsed, generated, operation, member, strings⟩ := exists_noteModule
  obtain ⟨bound, _, permuted, carried⟩ := generate_stringLiterals parsed generated
  obtain ⟨request, requested, named, used, _, _, literals⟩ :=
    Forall₂.exists_right carried (permuted.mem_iff.mpr member)
  have reread {s : String} (inside : s ∈ operation.strings) (printable : Value.isPrintable s = true) :
      String.ofList (Text.squeezeRuns false s.toList) ∈ stringLiterals request.queryText := by
    obtain ⟨read, there, same⟩ :=
      Forall₂.exists_right literals (List.mem_append_right _ inside)
    rwa [← (same printable).1]
  rw [strings] at reread
  exact ⟨document, m, parsed, generated, operation, member, by simp [strings], request, requested,
    named, reread (s := "a  b") (by decide) (by decide), reread (s := "c d") (by decide) (by decide)⟩

end ElmClient
