/-
Module: ElmClient.Proofs.QueryText.Values
Purpose: What operations and fragments share reads back from the text that is printed for it: type
  references, values, arguments and directives.
Main exports: Value.isLegible, Reader.type_spelled, Reader.value_spelled, Reader.takes_arguments,
  Reader.takes_directives
-/
import ElmClient.Proofs.QueryText.Legality
import ElmClient.QueryText

namespace ElmClient

namespace GraphQL

/-! ### Types -/

namespace TypeRef

theorem toList_text_nonNull (inner : TypeRef) :
    (TypeRef.nonNull inner).text.toList = inner.text.toList ++ ['!'] := by
  simp [text]

theorem toList_text_list (item : TypeRef) :
    (TypeRef.list item).text.toList = '[' :: (item.text.toList ++ [']']) := by
  simp [text]

/-- A type is written from a bracket or the first letter of its name on. -/
theorem exists_text {type : TypeRef} (legal : isName type.name = true) :
    ∃ c more, type.text.toList = c :: more ∧ (c = '[' ∨ Reader.startsName c = true) := by
  induction type with
  | named name =>
      obtain ⟨c, more, letters, starts, _⟩ := Reader.letters_of_isName legal
      exact ⟨c, more, letters, Or.inr starts⟩
  | list item _ => exact ⟨'[', _, toList_text_list item, Or.inl rfl⟩
  | nonNull inner ih =>
      obtain ⟨c, more, letters, starts⟩ := ih legal
      exact ⟨c, more ++ ['!'], by rw [toList_text_nonNull, letters, List.cons_append], starts⟩

end TypeRef

namespace Reader

variable {ahead rest : List Char}

theorem takes_depthBound :
    Takes depthBound ahead ahead fun depth => depth = ahead.length + 1 := by
  refine takes_get.bind fun cursor here => .pure ?_
  rw [here]

/-- A type without its mark. -/
def bareType (depth : Nat) : Reader TypeRef :=
  (TypeRef.named <$> nameHere) <|>
  (do exactly "["
      let item ← typeHere depth
      exactly "]"
      pure (TypeRef.list item))

theorem typeHere_succ (depth : Nat) :
    typeHere (depth + 1) = (do
      let base ← bareType depth
      (do exactly "!"
          pure base.required) <|> pure base) :=
  rfl

/-- A text before which a type ends: no mark stands in front of it. -/
def EndsType (rest : List Char) : Prop := Ends rest ∧ rest.head? ≠ some '!'

/-- A type without a mark reads back if the items of lists do. -/
theorem takes_bareType {depth : Nat}
    (items : ∀ {item : TypeRef} {rest : List Char}, item.Legal → EndsType rest →
      item.text.toList.length < depth →
        Takes (typeHere depth) (item.text.toList ++ rest) rest fun read => read = item)
    {type : TypeRef} (legal : type.Legal) (unmarked : type.isNonNull = false) (ends : Ends rest)
    (enough : type.text.toList.length < depth + 1) :
    Takes (bareType depth) (type.text.toList ++ rest) rest fun read => read = type := by
  cases type with
  | named name =>
      exact (Takes.map ((takes_nameHere legal.1 ends).imp fun _ same => same ▸ rfl)).orElse _
  | nonNull inner => exact absurd unmarked.symm Bool.false_ne_true
  | list item =>
      rw [TypeRef.toList_text_list] at enough ⊢
      simp only [List.length_cons, List.length_append, List.length_nil] at enough
      rw [List.cons_append, List.append_assoc]
      refine Refuses.orElse ((refuses_nameHere ?_).map _) ?_
      · rintro c ⟨⟩
        decide
      · have closes : EndsType (']' :: rest) := ⟨.cons (by decide) _, by simp⟩
        have legal' : item.Legal := legal
        refine (takes_exactly rfl).andThen fun _ => ?_
        refine (items legal' closes (by omega)).bind fun read same => ?_
        refine (takes_exactly rfl).andThen fun _ => .pure ?_
        rw [same]

theorem takes_typeHere {type : TypeRef} (legal : type.Legal) (ends : EndsType rest) {depth : Nat}
    (enough : type.text.toList.length < depth) :
    Takes (typeHere depth) (type.text.toList ++ rest) rest fun read => read = type := by
  induction depth generalizing type rest with
  | zero => exact absurd enough (Nat.not_lt_zero _)
  | succ depth ih =>
      rw [typeHere_succ]
      cases type with
      | nonNull inner =>
          obtain ⟨name, proper⟩ := legal
          obtain ⟨unmarked, proper'⟩ := Bool.and_eq_true_iff.mp proper
          have unmarked' : inner.isNonNull = false := by simpa using unmarked
          rw [TypeRef.toList_text_nonNull] at enough ⊢
          simp only [List.length_append, List.length_cons, List.length_nil] at enough
          rw [List.append_assoc]
          have legal' : inner.Legal := ⟨name, proper'⟩
          have marks : Ends ('!' :: rest) := .cons (by decide) _
          refine (takes_bareType ih legal' unmarked' marks (by omega)).bind fun read same => ?_
          refine Takes.orElse ((takes_exactly rfl).andThen fun _ => .pure ?_) _
          rw [same]
          cases inner with
          | nonNull _ => exact absurd unmarked'.symm Bool.false_ne_true
          | named _ | list _ => rfl
      | named _ | list _ =>
          refine (takes_bareType ih legal rfl ends.1 enough).bind fun read same => ?_
          exact ((refuses_exactly_of_head "!" rfl ends.2).bind _).orElse (.pure same)

theorem type_spelled {type : TypeRef} (legal : type.Legal) :
    Spells Reader.type type.text.toList EndsType fun read => read = type where
  filled := by
    obtain ⟨c, more, letters, _⟩ := TypeRef.exists_text legal.1
    rw [letters]
    exact List.cons_ne_nil c more
  solid rest := by
    obtain ⟨c, more, letters, starts⟩ := TypeRef.exists_text legal.1
    rw [letters]
    rcases starts with rfl | starts
    · exact skipped_of_isSolid (by decide) _
    · exact skipped_of_isSolid (isSolid_of_startsName starts) _
  takes ends here := by
    refine takes_skip.andThen fun _ => ?_
    rw [here]
    refine takes_depthBound.bind fun depth bound => takes_typeHere legal ends ?_
    rw [bound, List.length_append]
    omega

end Reader

/-! ### Values -/

namespace Value

mutual

/-- Whether the strings of a value have no control characters and are not changed by clearing up
blanks, and its doubles read back from how they are printed. -/
def isLegible : Value → Bool
  | .null | .boolean _ | .enum _ | .variable _ => true
  | .number (.integer _) => true
  | .number (.float x) => (Number.float x).readsBack
  | .string s => isPrintable s && Text.squeezeBlank (stringText s) == stringText s
  | .list items => areLegible items
  | .object entries => entriesAreLegible entries
termination_by structural value => value

def areLegible : List Value → Bool
  | [] => true
  | item :: rest => item.isLegible && areLegible rest
termination_by structural items => items

def entriesAreLegible : List (String × Value) → Bool
  | [] => true
  | (_, value) :: rest => value.isLegible && entriesAreLegible rest
termination_by structural entries => entries

end

theorem isLegible_of_mem {items : List Value} (legible : areLegible items = true) :
    ∀ item ∈ items, item.isLegible = true := by
  induction items with
  | nil => simp
  | cons first rest ih =>
      obtain ⟨here, later⟩ := Bool.and_eq_true_iff.mp legible
      exact List.forall_mem_cons.mpr ⟨here, ih later⟩

theorem isLegible_of_mem_entries {entries : List (String × Value)}
    (legible : entriesAreLegible entries = true) : ∀ entry ∈ entries, entry.2.isLegible = true := by
  induction entries with
  | nil => simp
  | cons first rest ih =>
      obtain ⟨here, later⟩ := Bool.and_eq_true_iff.mp legible
      exact List.forall_mem_cons.mpr ⟨here, ih later⟩

theorem itemTexts_eq_map (items : List Value) : itemTexts items = items.map text := by
  induction items with
  | nil => rfl
  | cons first rest ih => exact congrArg _ ih

end Value

/-- A name and a value after a colon, as they are printed. -/
def entryChars (entry : String × Value) : List Char :=
  entry.1.toList ++ ':' :: ' ' :: entry.2.text.toList

namespace Value

theorem entryTexts_eq_map (entries : List (String × Value)) :
    (entryTexts entries).map String.toList = entries.map entryChars := by
  induction entries with
  | nil => rfl
  | cons first rest ih =>
      have here : (first.1 ++ ": " ++ first.2.text).toList = entryChars first := by
        simp [entryChars]
      exact congrArg₂ _ here ih

theorem toList_text_list (items : List Value) :
    (Value.list items).text.toList =
      '[' :: ([',', ' '].intercalate (items.map fun item => item.text.toList) ++ [']']) := by
  simp [text, itemTexts_eq_map, Function.comp_def]

theorem length_item_lt {items : List Value} {item : Value} (member : item ∈ items) :
    item.text.toList.length < (Value.list items).text.toList.length := by
  have within := Reader.length_le_intercalate [',', ' ']
    (List.mem_map_of_mem (f := fun item : Value => item.text.toList) member)
  simp only [toList_text_list, List.length_cons, List.length_append, List.length_nil]
  omega

theorem toList_text_object (entries : List (String × Value)) :
    (Value.object entries).text.toList =
      '\x7b' :: ([',', ' '].intercalate (entries.map entryChars) ++ ['\x7d']) := by
  simp [text, entryTexts_eq_map]

theorem length_entry_lt {entries : List (String × Value)} {entry : String × Value}
    (member : entry ∈ entries) :
    entry.2.text.toList.length < (Value.object entries).text.toList.length := by
  have within := Reader.length_le_intercalate [',', ' ']
    (List.mem_map_of_mem (f := entryChars) member)
  have inside : entry.2.text.toList.length ≤ (entryChars entry).length := by
    simp only [entryChars, List.length_append, List.length_cons]
    omega
  simp only [toList_text_object, List.length_cons, List.length_append, List.length_nil]
  omega

end Value

namespace Reader

variable {ahead rest more : List Char} {c : Char}

/-- What is true of a character is true of the first one ahead if it is that character. -/
theorem forall_head {test : Char → Prop} (first : (skipped ahead).head? = some c)
    (holds : test c) : ∀ d ∈ (skipped ahead).head?, test d := by
  rw [first]
  rintro d ⟨⟩
  exact holds

/-- A word is not read off a name that does not start with it and what may follow a name. -/
theorem dropWord?_append_of_ends {word name : List Char}
    (letters : ∀ c ∈ word, continuesName c = true) (apart : dropWord? word name = none)
    (ends : Ends rest) : dropWord? word (name ++ rest) = none := by
  induction word generalizing name with
  | nil => exact absurd apart (Option.some_ne_none _)
  | cons c word ih =>
      obtain ⟨letter, letters'⟩ := List.forall_mem_cons.mp letters
      cases name with
      | nil =>
          cases rest with
          | nil => rfl
          | cons d rest =>
              have apart' : c ≠ d := by
                rintro rfl
                exact absurd (letter.symm.trans (ends.not continuesName (by decide) rfl)) (by decide)
              simp [dropWord?, apart']
      | cons d name =>
          simp only [List.cons_append, dropWord?] at apart ⊢
          split
          · next same =>
              rw [if_pos same] at apart
              exact ih letters' apart
          · rfl

theorem refuses_boolean (noTrue : dropWord? "true".toList (skipped ahead) = none)
    (noFalse : dropWord? "false".toList (skipped ahead) = none) : Refuses boolean ahead :=
  ((refuses_token noTrue).bind _).both ((refuses_token noFalse).bind _)

theorem refuses_enumName (apart : ∀ c ∈ (skipped ahead).head?, startsName c = false) :
    Refuses enumName ahead := by
  have noLetter {c : Char} (starts : startsName c = true) : (skipped ahead).head? ≠ some c :=
    fun first => absurd ((apart c first).symm.trans starts) Bool.false_ne_true
  refine takes_skip.refuses fun _ _ => ?_
  refine (refuses_exactly_of_head "true" rfl (noLetter (by decide))).without.refuses fun _ _ => ?_
  refine (refuses_exactly_of_head "false" rfl (noLetter (by decide))).without.refuses fun _ _ => ?_
  refine (refuses_exactly_of_head "null" rfl (noLetter (by decide))).without.refuses fun _ _ => ?_
  exact refuses_nameHere apart

theorem takes_enumName {name : String} (legal : isEnumName name = true) (ends : Ends rest)
    (starts : skipped ahead = name.toList ++ rest) :
    Takes enumName ahead rest fun read => read = name := by
  obtain ⟨isName, noTrue, noFalse, noNull⟩ := isEnumName_iff.mp legal
  have none {word : String} (letters : ∀ c ∈ word.toList, continuesName c = true)
      (apart : dropWord? word.toList name.toList = Option.none) :
      Refuses (exactly word) (name.toList ++ rest) :=
    refuses_exactly (dropWord?_append_of_ends letters apart ends)
  refine takes_skip.andThen fun _ => ?_
  rw [starts]
  refine (none (by decide) noTrue).without.andThen fun _ => ?_
  refine (none (by decide) noFalse).without.andThen fun _ => ?_
  refine (none (by decide) noNull).without.andThen fun _ => ?_
  exact takes_nameHere isName ends

/-- The alternative of a value that is a variable. -/
def reference (constant : Bool) : Reader Value := do
  if constant then failure
  token "$"
  Value.variable <$> name

/-- The alternative of a value that is a list. -/
def listValue (item : Reader Value) : Reader Value := do
  token "["
  let items ← many item
  token "]"
  pure (Value.list items)

/-- The alternative of a value that is an object. -/
def objectValue (item : Reader Value) : Reader Value := do
  token "\x7b"
  let entries ← many (named item)
  token "\x7d"
  pure (Value.object (Dictionary.ofList entries))

theorem valueTo_succ (constant : Bool) (depth : Nat) :
    valueTo constant (depth + 1) =
      (reference constant <|>
      (Value.number <$> number) <|>
      (Value.string <$> string) <|>
      (Value.boolean <$> boolean) <|>
      (do token "null"
          pure Value.null) <|>
      (Value.enum <$> enumName) <|>
      listValue (valueTo constant depth) <|>
      objectValue (valueTo constant depth)) :=
  rfl

theorem refuses_reference {constant : Bool} (apart : (skipped ahead).head? ≠ some '$') :
    Refuses (reference constant) ahead := by
  cases constant with
  | true => exact refuses_failure.bind _
  | false => exact (refuses_token_of_head "$" rfl apart).bind _

theorem entry_spelled {entry : String × Value} {value : Reader Value}
    (legal : isName entry.1 = true)
    (spelled : Spells value entry.2.text.toList Ends fun read => read = entry.2) :
    Spells (named value) (entryChars entry) Ends fun read => read = entry where
  filled := by simp [entryChars]
  solid rest := by
    rw [entryChars, List.append_assoc]
    exact skipped_name legal _
  takes ends here := by
    rw [entryChars, List.append_assoc] at here
    refine (takes_name legal (.cons (by decide) _) here).bind fun key same => ?_
    refine (takes_token rfl).andThen fun _ => ?_
    refine (spelled.takes ends ((skipped_space _).trans (spelled.solid _))).bind fun read same' => ?_
    exact .pure (by rw [same, same'])

end Reader

namespace Value

variable {constant : Bool}

theorem Legal.readsBack {n : Number} (legal : (Value.number n).Legal constant)
    (legible : (Value.number n).isLegible = true) : n.readsBack = true := by
  cases legal with
  | number range =>
      cases n with
      | integer n => exact Number.readsBack_integer range
      | float x => exact legible

/-- The text of a value starts a token. -/
theorem exists_text {value : Value} (legal : value.Legal constant)
    (legible : value.isLegible = true) :
    ∃ c more, value.text.toList = c :: more ∧ Reader.isSolid c = true := by
  cases legal with
  | null => exact ⟨'n', _, rfl, by decide⟩
  | boolean b =>
      cases b with
      | true => exact ⟨'t', _, rfl, by decide⟩
      | false => exact ⟨'f', _, rfl, by decide⟩
  | @number n range =>
      have reads := Legal.readsBack (.number range : (Value.number n).Legal constant) legible
      cases letters : n.text.toList with
      | nil => exact absurd letters (Reader.text_ne_nil_of_readsBack reads)
      | cons c more =>
          have numeral := Reader.isNumeral_of_readsBack reads c (by rw [letters]; exact List.mem_cons_self)
          exact ⟨c, more, letters, Reader.isSolid_of_test numeral (by decide)⟩
  | string s => exact ⟨'"', _, String.toList_ofList, by decide⟩
  | enum legal =>
      obtain ⟨c, more, letters, starts, _⟩ := Reader.letters_of_isName (isEnumName_iff.mp legal).1
      exact ⟨c, more, letters, Reader.isSolid_of_startsName starts⟩
  | @reference name free legal => exact ⟨'$', name.toList, by simp [text], by decide⟩
  | list => exact ⟨'[', _, toList_text_list _, by decide⟩
  | object => exact ⟨'\x7b', _, toList_text_object _, by decide⟩

end Value

namespace Reader

section

variable {ahead : List Char} {c : Char}

/-- What starts like a name starts neither a variable nor a number nor a string. -/
theorem not_plain_of_startsName (starts : startsName c = true) :
    c ≠ '$' ∧ c ≠ '-' ∧ c ≠ '"' ∧ c.isDigit = false := by
  have each : startsName c = true → c ≠ '$' ∧ c ≠ '-' ∧ c ≠ '"' ∧ c.isDigit = false := by
    apply Text.of_continuesName (by decide) c (continuesName_of_startsName starts)
  exact each starts

/-- A value that starts with something else is no variable, no number and no string. -/
theorem refuses_plain (constant : Bool) (first : (skipped ahead).head? = some c)
    (apart : c ≠ '$' ∧ c ≠ '-' ∧ c ≠ '"' ∧ c.isDigit = false) :
    Refuses (reference constant) ahead ∧ Refuses number ahead ∧ Refuses string ahead := by
  obtain ⟨noDollar, noMinus, noQuote, noDigit⟩ := apart
  refine ⟨refuses_reference ?_, refuses_number (forall_head first ⟨noDigit, noMinus⟩),
    refuses_string (forall_head first noQuote)⟩
  rw [first]
  exact fun same => noDollar (Option.some.inj same)

/-- A value that does not start with a letter is no truth value, no null and no enum value. -/
theorem refuses_words (first : (skipped ahead).head? = some c) (apart : startsName c = false) :
    Refuses boolean ahead ∧ Refuses (token "null") ahead ∧ Refuses enumName ahead := by
  have noLetter {d : Char} (starts : startsName d = true) : (skipped ahead).head? ≠ some d := by
    rw [first]
    rintro ⟨⟩
    exact absurd (apart.symm.trans starts) Bool.false_ne_true
  refine ⟨Refuses.both ?_ ?_, refuses_token_of_head "null" rfl (noLetter (by decide)),
    refuses_enumName (forall_head first apart)⟩
  · exact (refuses_token_of_head "true" rfl (noLetter (by decide))).bind _
  · exact (refuses_token_of_head "false" rfl (noLetter (by decide))).bind _

/-- No value starts with a closing bracket. -/
theorem refuses_valueTo (constant : Bool) (depth : Nat)
    (first : (skipped ahead).head? = some c) (closes : c ∈ [')', ']', '\x7d']) :
    Refuses (valueTo constant depth) ahead := by
  cases depth with
  | zero => exact refuses_failure
  | succ depth =>
      have each : ∀ c ∈ [')', ']', '\x7d'],
          (c ≠ '$' ∧ c ≠ '-' ∧ c ≠ '"' ∧ c.isDigit = false) ∧ startsName c = false ∧
            c ≠ '[' ∧ c ≠ '\x7b' := by
        decide
      obtain ⟨plain, noLetter, noList, noObject⟩ := each c closes
      obtain ⟨noVariable, noNumber, noString⟩ := refuses_plain constant first plain
      obtain ⟨noBoolean, noNull, noEnum⟩ := refuses_words first noLetter
      have list : Refuses (token "[") ahead :=
        refuses_token_of_head "[" rfl (by rw [first]; exact fun same => noList (Option.some.inj same))
      have object : Refuses (token "\x7b") ahead :=
        refuses_token_of_head "\x7b" rfl
          (by rw [first]; exact fun same => noObject (Option.some.inj same))
      rw [valueTo_succ]
      exact noVariable.both ((noNumber.map _).both ((noString.map _).both ((noBoolean.map _).both
        ((noNull.bind _).both ((noEnum.map _).both ((list.bind _).both (object.bind _)))))))

end

section

variable {α ι : Type} {ahead rest : List Char}

/-- A word with a meaning of its own. -/
theorem takes_word {word : String} {meaning : α} (here : skipped ahead = word.toList ++ rest) :
    Takes (do token word; pure meaning) ahead rest fun read => read = meaning :=
  (takes_token (by rw [here]; exact dropWord?_append _ rest)).andThen fun _ => .pure rfl

theorem takes_boolean {b : Bool} (here : skipped ahead = (Value.boolean b).text.toList ++ rest) :
    Takes boolean ahead rest fun read => read = b := by
  cases b with
  | true => exact (takes_word here).orElse _
  | false =>
      have noTrue : Refuses (token "true") ahead :=
        refuses_token_of_head "true" rfl (by rw [here]; show some 'f' ≠ some 't'; decide)
      exact (noTrue.bind _).orElse (takes_word here)

/-- Items with a comma after each but the last read back before a closing bracket. -/
theorem takes_separated {reader : Reader α} {property : ι → α → Prop} {items : List ι}
    {text : ι → List Char} {close : Char} (closes : close ∈ delimiters)
    (each : ∀ item ∈ items, Spells reader (text item) Ends (property item))
    (refuses : Refuses reader (close :: rest)) :
    Takes (many reader) ([',', ' '].intercalate (items.map text) ++ close :: rest) (close :: rest)
      fun values => List.Forall₂ property items values :=
  Takes.many (.of_intercalated each (by simp) (fun _ _ _ => .cons (by decide) _)
    (.cons closes _) refuses)

theorem takes_listValue {item : Reader Value} {items : List Value}
    (each : ∀ value ∈ items, Spells item value.text.toList Ends fun read => read = value)
    (refuses : Refuses item (']' :: rest))
    (here : skipped ahead = (Value.list items).text.toList ++ rest) :
    Takes (listValue item) ahead rest fun read => read = .list items := by
  rw [Value.toList_text_list, List.cons_append, List.append_assoc] at here
  refine (takes_token (by rw [here]; rfl)).andThen fun _ => ?_
  refine (takes_separated (by decide) each refuses).bind fun read same => ?_
  refine (takes_token rfl).andThen fun _ => .pure ?_
  rw [Forall₂.eq_of_same same]

theorem takes_objectValue {item : Reader Value} {entries : List (String × Value)}
    (distinct : (entries.map Prod.fst).Nodup) (keys : ∀ entry ∈ entries, isName entry.1 = true)
    (each : ∀ entry ∈ entries, Spells item entry.2.text.toList Ends fun read => read = entry.2)
    (here : skipped ahead = (Value.object entries).text.toList ++ rest) :
    Takes (objectValue item) ahead rest fun read => read = .object entries := by
  rw [Value.toList_text_object, List.cons_append, List.append_assoc] at here
  have spelled : ∀ entry ∈ entries, Spells (named item) (entryChars entry) Ends
      fun read => read = entry :=
    fun entry member => entry_spelled (keys entry member) (each entry member)
  have refuses : Refuses (named item) ('\x7d' :: rest) :=
    (refuses_name (forall_head (c := '\x7d') rfl (by decide))).bind _
  refine (takes_token (by rw [here]; rfl)).andThen fun _ => ?_
  refine (takes_separated (by decide) spelled refuses).bind fun read same => ?_
  refine (takes_token rfl).andThen fun _ => .pure ?_
  rw [Forall₂.eq_of_same same, Dictionary.ofList_eq_self distinct]

end

/-! ### Values of each kind -/

section

variable {constant : Bool} {depth : Nat} {ahead rest : List Char} {property : Value → Prop}

/-- Where a letter comes first, a value is neither a variable nor a number nor a string. -/
theorem takes_valueTo_of_letter {c : Char} (first : (skipped ahead).head? = some c)
    (letter : startsName c = true)
    (takes : Takes ((Value.boolean <$> boolean) <|> (do token "null"; pure Value.null) <|>
      (Value.enum <$> enumName) <|> listValue (valueTo constant depth) <|>
        objectValue (valueTo constant depth)) ahead rest property) :
    Takes (valueTo constant (depth + 1)) ahead rest property := by
  obtain ⟨noVariable, noNumber, noString⟩ :=
    refuses_plain constant first (not_plain_of_startsName letter)
  rw [valueTo_succ]
  exact noVariable.orElse ((noNumber.map _).orElse ((noString.map _).orElse takes))

/-- Where a bracket opens, a value is a list or an object. -/
theorem takes_valueTo_of_bracket {c : Char} (first : (skipped ahead).head? = some c)
    (opens : c ∈ ['[', '\x7b'])
    (takes : Takes (listValue (valueTo constant depth) <|> objectValue (valueTo constant depth))
      ahead rest property) :
    Takes (valueTo constant (depth + 1)) ahead rest property := by
  have each : ∀ c ∈ ['[', '\x7b'],
      (c ≠ '$' ∧ c ≠ '-' ∧ c ≠ '"' ∧ c.isDigit = false) ∧ startsName c = false := by decide
  obtain ⟨plain, noLetter⟩ := each c opens
  obtain ⟨noVariable, noNumber, noString⟩ := refuses_plain constant first plain
  obtain ⟨noBoolean, noNull, noEnum⟩ := refuses_words first noLetter
  rw [valueTo_succ]
  refine noVariable.orElse ((noNumber.map _).orElse ((noString.map _).orElse ?_))
  exact (noBoolean.map _).orElse ((noNull.bind _).orElse ((noEnum.map _).orElse takes))

theorem takes_valueTo_null (here : skipped ahead = Value.null.text.toList ++ rest) :
    Takes (valueTo constant (depth + 1)) ahead rest fun read => read = .null := by
  have first : (skipped ahead).head? = some 'n' := by
    rw [here]
    rfl
  have noBoolean : Refuses boolean ahead := refuses_boolean (by rw [here]; rfl) (by rw [here]; rfl)
  apply takes_valueTo_of_letter first (by decide)
  exact (noBoolean.map _).orElse (Takes.orElse (takes_word here) _)

theorem takes_valueTo_boolean {b : Bool}
    (here : skipped ahead = (Value.boolean b).text.toList ++ rest) :
    Takes (valueTo constant (depth + 1)) ahead rest fun read => read = .boolean b := by
  have first : ∃ c, (skipped ahead).head? = some c ∧ startsName c = true := by
    rw [here]
    cases b with
    | true => exact ⟨'t', rfl, by decide⟩
    | false => exact ⟨'f', rfl, by decide⟩
  obtain ⟨c, first, letter⟩ := first
  apply takes_valueTo_of_letter first letter
  exact ((takes_boolean here).imp fun _ same => congrArg _ same).map.orElse _

theorem takes_valueTo_number {n : Number} (reads : n.readsBack = true) (ends : Ends rest)
    {c : Char} (first : (skipped ahead).head? = some c) (numeral : NumberLiteral.isNumeral c = true)
    (here : skipped ahead = (Value.number n).text.toList ++ rest) :
    Takes (valueTo constant (depth + 1)) ahead rest fun read => read = .number n := by
  have noVariable : Refuses (reference constant) ahead := by
    apply refuses_reference
    rw [first]
    rintro ⟨⟩
    exact absurd numeral (by decide)
  rw [valueTo_succ]
  refine noVariable.orElse (Takes.orElse (Takes.map ?_) _)
  exact (takes_number reads ends here).imp fun _ same => congrArg _ same

theorem takes_valueTo_string {s : String} (printable : Value.isPrintable s = true)
    (ends : Ends rest) (here : skipped ahead = (Value.string s).text.toList ++ rest) :
    Takes (valueTo constant (depth + 1)) ahead rest fun read => read = .string s := by
  have first : (skipped ahead).head? = some '"' := by
    rw [here]
    simp [Value.text, Value.stringText]
  have noVariable : Refuses (reference constant) ahead :=
    refuses_reference (by rw [first]; decide)
  have noNumber : Refuses number ahead := refuses_number (forall_head first (by decide))
  have apart : rest.head? ≠ some '"' := fun quote => absurd (ends '"' quote) (by decide)
  rw [valueTo_succ]
  refine noVariable.orElse ((noNumber.map _).orElse (Takes.orElse (Takes.map ?_) _))
  exact (takes_string apart here).imp fun _ same => congrArg _ (same printable)

theorem takes_valueTo_enum {name : String} (legal : isEnumName name = true) (ends : Ends rest)
    (here : skipped ahead = (Value.enum name).text.toList ++ rest) :
    Takes (valueTo constant (depth + 1)) ahead rest fun read => read = .enum name := by
  obtain ⟨isName, noTrue, noFalse, noNull⟩ := isEnumName_iff.mp legal
  obtain ⟨c, more, letters, starts, _⟩ := letters_of_isName isName
  have first : (skipped ahead).head? = some c := by
    rw [here, Value.text, letters]
    rfl
  have noWord {word : String} (letters : ∀ c ∈ word.toList, continuesName c = true)
      (apart : dropWord? word.toList name.toList = none) :
      dropWord? word.toList (skipped ahead) = none := by
    rw [here]
    exact dropWord?_append_of_ends letters apart ends
  have noBoolean : Refuses boolean ahead :=
    refuses_boolean (noWord (by decide) noTrue) (noWord (by decide) noFalse)
  have noNull' : Refuses (token "null") ahead := refuses_token (noWord (by decide) noNull)
  apply takes_valueTo_of_letter first starts
  refine (noBoolean.map _).orElse ((noNull'.bind _).orElse (Takes.orElse (Takes.map ?_) _))
  exact (takes_enumName legal ends here).imp fun _ same => congrArg _ same

theorem takes_valueTo_variable {name : String} (legal : isName name = true) (ends : Ends rest)
    (here : skipped ahead = (Value.variable name).text.toList ++ rest) :
    Takes (valueTo false (depth + 1)) ahead rest fun read => read = .variable name := by
  have here' : skipped ahead = '$' :: (name.toList ++ rest) := by
    rw [here]
    simp [Value.text]
  rw [valueTo_succ]
  refine Takes.orElse ((takes_token (by rw [here']; rfl)).andThen fun _ => Takes.map ?_) _
  exact (takes_name legal ends (skipped_name legal rest)).imp fun _ same => congrArg _ same

theorem takes_valueTo_list {items : List Value}
    (each : ∀ value ∈ items,
      Spells (valueTo constant depth) value.text.toList Ends fun read => read = value)
    (here : skipped ahead = (Value.list items).text.toList ++ rest) :
    Takes (valueTo constant (depth + 1)) ahead rest fun read => read = .list items := by
  have first : (skipped ahead).head? = some '[' := by
    rw [here, Value.toList_text_list]
    rfl
  have refuses : Refuses (valueTo constant depth) (']' :: rest) :=
    refuses_valueTo constant depth (c := ']') rfl (by decide)
  apply takes_valueTo_of_bracket first (by decide)
  exact (takes_listValue each refuses here).orElse _

theorem takes_valueTo_object {entries : List (String × Value)}
    (distinct : (entries.map Prod.fst).Nodup) (keys : ∀ entry ∈ entries, isName entry.1 = true)
    (each : ∀ entry ∈ entries,
      Spells (valueTo constant depth) entry.2.text.toList Ends fun read => read = entry.2)
    (here : skipped ahead = (Value.object entries).text.toList ++ rest) :
    Takes (valueTo constant (depth + 1)) ahead rest fun read => read = .object entries := by
  have first : (skipped ahead).head? = some '\x7b' := by
    rw [here, Value.toList_text_object]
    rfl
  have noList : Refuses (token "[") ahead := refuses_token_of_head "[" rfl (by rw [first]; decide)
  apply takes_valueTo_of_bracket first (by decide)
  exact (noList.bind _).orElse (takes_objectValue distinct keys each here)

end

/-- A value reads back from what is printed for it. -/
theorem valueTo_spelled {constant : Bool} {value : Value} (legal : value.Legal constant)
    (legible : value.isLegible = true) {depth : Nat} (enough : value.text.toList.length < depth) :
    Spells (valueTo constant depth) value.text.toList Ends fun read => read = value := by
  induction depth generalizing value with
  | zero => exact absurd enough (Nat.not_lt_zero _)
  | succ depth ih =>
      obtain ⟨c, more, letters, solid⟩ := Value.exists_text legal legible
      refine ⟨by rw [letters]; exact List.cons_ne_nil c more,
        fun rest => by rw [letters]; exact skipped_of_isSolid solid _, ?_⟩
      intro ahead rest ends here
      cases legal with
      | null => exact takes_valueTo_null here
      | boolean b => exact takes_valueTo_boolean here
      | @number n range =>
          have reads : n.readsBack = true :=
            Value.Legal.readsBack (.number range : (Value.number n).Legal constant) legible
          have numeral : NumberLiteral.isNumeral c = true :=
            isNumeral_of_readsBack reads c (letters ▸ List.mem_cons_self)
          exact takes_valueTo_number reads ends (by rw [here, letters]; rfl) numeral here
      | string s =>
          exact takes_valueTo_string (Bool.and_eq_true_iff.mp legible).1 ends here
      | enum legal => exact takes_valueTo_enum legal ends here
      | reference free legal =>
          subst free
          exact takes_valueTo_variable legal ends here
      | list each =>
          apply takes_valueTo_list _ here
          intro item member
          have shorter := Value.length_item_lt member
          exact ih (each item member) (Value.isLegible_of_mem legible item member) (by omega)
      | object distinct keys each =>
          apply takes_valueTo_object distinct keys _ here
          intro entry member
          have shorter := Value.length_entry_lt member
          exact ih (each entry member) (Value.isLegible_of_mem_entries legible entry member)
            (by omega)

theorem value_spelled {constant : Bool} {value : Value} (legal : value.Legal constant)
    (legible : value.isLegible = true) :
    Spells (Reader.value constant) value.text.toList Ends fun read => read = value where
  filled := (valueTo_spelled legal legible (Nat.lt_succ_self _)).filled
  solid := (valueTo_spelled legal legible (Nat.lt_succ_self _)).solid
  takes {ahead rest} ends here := by
    refine takes_depthBound.bind fun depth bound => ?_
    have within := length_skipped_le ahead
    rw [here, List.length_append] at within
    exact (valueTo_spelled legal legible (by omega)).takes ends here

/-! ### Arguments and directives -/

theorem toList_argumentsText_cons (argument : String × Value)
    (arguments : List (String × Value)) :
    (argumentsText (argument :: arguments)).toList =
      '(' :: ([',', ' '].intercalate ((argument :: arguments).map entryChars) ++ [')']) := by
  have entries : ((argument :: arguments).map fun argument =>
      argument.1 ++ ": " ++ argument.2.text).map String.toList =
        (argument :: arguments).map entryChars := by
    simp [entryChars, Function.comp_def]
  simp only [argumentsText, List.isEmpty_cons, Bool.false_eq_true, if_false, String.toList_append,
    String.toList_intercalate, entries]
  rfl

/-- What may stand after arguments may do so where they are left out. -/
theorem clear_arguments {chars rest : List Char} (apart : '(' ∉ chars) (clear : Clear chars rest)
    (arguments : List (String × Value)) :
    Clear chars ((argumentsText arguments).toList ++ rest) := by
  cases arguments with
  | nil => exact clear
  | cons argument others =>
      rw [toList_argumentsText_cons]
      exact .of_solid (by decide) (by decide) apart _

theorem takes_arguments {constant : Bool} {arguments : List (String × Value)} {rest : List Char}
    (legal : ∀ argument ∈ arguments, LegalEntry constant argument)
    (legible : Value.entriesAreLegible arguments = true) (clear : Clear ['('] rest) :
    Takes (orEmpty (Reader.arguments constant)) ((argumentsText arguments).toList ++ rest) rest
      fun read => read = arguments := by
  cases arguments with
  | nil =>
      have none : Refuses (token "(") rest :=
        refuses_token_of_head "(" rfl (clear.head (by decide))
      exact (none.bind _).orEmpty
  | cons argument others =>
      have spelled : ∀ entry ∈ argument :: others,
          Spells (named (Reader.value constant)) (entryChars entry) Ends fun read => read = entry :=
        fun entry member => entry_spelled (legal entry member).1
          (value_spelled (legal entry member).2
            (Value.isLegible_of_mem_entries legible entry member))
      have refuses : Refuses (named (Reader.value constant)) (')' :: rest) :=
        (refuses_name (forall_head (c := ')') rfl (by decide))).bind _
      have chain : Chain (named (Reader.value constant)) (fun entry read => read = entry)
          (argument :: others)
          ([',', ' '].intercalate ((argument :: others).map entryChars) ++ ')' :: rest)
          (')' :: rest) :=
        .of_intercalated spelled (by simp) (fun _ _ _ => .cons (by decide) _)
          (.cons (by decide) _) refuses
      rw [toList_argumentsText_cons, List.cons_append, List.append_assoc]
      refine Takes.orElse ?_ _
      refine (takes_token rfl).andThen fun _ => (Takes.many1 chain).bind fun read same => ?_
      exact (takes_token rfl).andThen fun _ => .pure (Forall₂.eq_of_same same)

/-- A directive as it is printed after its space. -/
def directiveChars (directive : Directive) : List Char :=
  '@' :: (directive.name.toList ++ (argumentsText directive.arguments).toList)

theorem toList_directivesText (directives : List Directive) :
    (directivesText directives).toList =
      directives.flatMap fun directive => [' '] ++ directiveChars directive := by
  simp [directivesText, directiveChars, List.flatMap_map]

theorem clear_directives {chars rest : List Char} (apart : '@' ∉ chars) (clear : Clear chars rest)
    (directives : List Directive) : Clear chars ((directivesText directives).toList ++ rest) := by
  rw [toList_directivesText]
  cases directives with
  | nil => exact clear
  | cons directive others => exact .of_space (by decide) apart _

theorem directive_spelled {directive : Directive} (legal : directive.Legal)
    (legible : Value.entriesAreLegible directive.arguments = true) :
    Spells (Reader.directive false) (directiveChars directive) (Clear ['('])
      fun read => read = directive where
  filled := List.cons_ne_nil _ _
  solid rest := skipped_of_isSolid (by decide) _
  takes {ahead rest} clear here := by
    have clear' : Clear [] ((argumentsText directive.arguments).toList ++ rest) :=
      clear_arguments (by decide) (clear.mono (by simp)) _
    rw [directiveChars, List.cons_append, List.append_assoc] at here
    refine (takes_token (by rw [here]; rfl)).andThen fun _ => ?_
    refine (takes_name legal.name clear'.1 (skipped_name legal.name _)).bind fun name same => ?_
    refine (takes_arguments legal.arguments legible clear).bind fun arguments same' => .pure ?_
    rw [same, same']

/-- Directives read back before a text that goes on with no directive and no argument. -/
theorem takes_directives {directives : List Directive} {rest : List Char}
    (legal : ∀ directive ∈ directives, directive.Legal)
    (legible : ∀ directive ∈ directives, Value.entriesAreLegible directive.arguments = true)
    (clear : Clear ['(', '@'] rest) :
    Takes (Reader.directives false) ((directivesText directives).toList ++ rest) rest
      fun read => read = directives := by
  have spelled : ∀ directive ∈ directives, Spells (Reader.directive false)
      (directiveChars directive) (Clear ['(']) fun read => read = directive :=
    fun directive member => directive_spelled (legal directive member) (legible directive member)
  have refuses : Refuses (Reader.directive false) rest :=
    (refuses_token_of_head "@" rfl (clear.head (by decide))).bind _
  rw [toList_directivesText]
  refine (Takes.many (.of_spelled spelled (by simp) ?_ (clear.mono (by simp)) refuses)).imp
    fun read same => Forall₂.eq_of_same same
  intro directive _ tail
  exact .of_space (by decide) (by decide) _

end Reader

end GraphQL

end ElmClient
