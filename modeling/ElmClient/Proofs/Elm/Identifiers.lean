/-
Module: ElmClient.Proofs.Elm.Identifiers
Purpose: Identifiers of Elm. Changes of case lead from names of the grammar to identifiers unless
  a name starts with an underscore or becomes a reserved word; what is put together of a name and
  a suffix is never reserved.
Main exports: Text.startsWith, Text.IsWord, Elm.IsIdentifier, Elm.IsValueName, Elm.IsTypeName,
  Elm.isTypeName_capitalize_iff, Elm.isValueName_decapitalize_iff, Elm.isTypeName_suffixed
-/
import ElmClient.Proofs.OperationNames

namespace ElmClient

open GraphQL.Reader (continuesName)

/-! ### Words -/

namespace Text

/-- Whether the first character of a text passes a test. -/
def startsWith (test : Char → Bool) (text : String) : Bool := text.toList.head?.any test

/-- A text of letters, digits and underscores. -/
def IsWord (text : String) : Prop := ∀ c ∈ text.toList, continuesName c = true

instance (text : String) : Decidable (IsWord text) :=
  inferInstanceAs (Decidable (∀ c ∈ text.toList, continuesName c = true))

theorem startsWith_append {test : Char → Bool} {first : String} (rest : String)
    (starts : startsWith test first = true) : startsWith test (first ++ rest) = true := by
  unfold startsWith at starts ⊢
  rw [String.toList_append]
  cases letters : first.toList with
  | nil => simp [letters] at starts
  | cons c more => simpa [letters] using starts

theorem IsWord.append {first rest : String} (one : IsWord first) (two : IsWord rest) :
    IsWord (first ++ rest) := by
  intro c member
  rw [String.toList_append, List.mem_append] at member
  rcases member with before | after
  · exact one c before
  · exact two c after

/-- A name of the grammar is a word. -/
theorem isWord_of_isName {name : String} (legal : GraphQL.isName name = true) : IsWord name :=
  GraphQL.Reader.continuesName_of_isName legal

/-! ### Changes of case -/

/-- Both cases of a character of a word go on words and tell whether it is a letter, and a second
change of case undoes the first. -/
structure CaseLaws (c : Char) : Prop where
  upper_continues : continuesName c.toUpper = true
  lower_continues : continuesName c.toLower = true
  upper_letter : c.toUpper.isUpper = c.isAlpha
  lower_letter : c.toLower.isLower = c.isAlpha
  upper_upper : c.toUpper.toUpper = c.toUpper
  upper_lower : c.toUpper.toLower = c.toLower
  lower_lower : c.toLower.toLower = c.toLower

theorem caseLaws_of_continuesName {c : Char} (continues : continuesName c = true) :
    CaseLaws c := by
  have laws : (continuesName c.toUpper = true ∧ continuesName c.toLower = true) ∧
      (c.toUpper.isUpper = c.isAlpha ∧ c.toLower.isLower = c.isAlpha) ∧
        c.toUpper.toUpper = c.toUpper ∧ c.toUpper.toLower = c.toLower ∧
          c.toLower.toLower = c.toLower := by
    apply of_continuesName (by decide) c continues
  obtain ⟨⟨upper, lower⟩, ⟨upperLetter, lowerLetter⟩, twice, both, again⟩ := laws
  exact ⟨upper, lower, upperLetter, lowerLetter, twice, both, again⟩

variable {word : String}

theorem toList_capitalize (isWord : IsWord word) :
    (capitalize word).toList = word.toList.modifyHead Char.toUpper := by
  unfold capitalize
  split
  · next letters => simp [letters]
  · next c rest letters =>
      have small := toNat_of_continuesName (isWord c (by simp [letters]))
      simp [upperChar, small, letters]

theorem toList_decapitalize (isWord : IsWord word) :
    (decapitalize word).toList = word.toList.modifyHead Char.toLower := by
  unfold decapitalize
  split
  · next letters => simp [letters]
  · next c rest letters =>
      have small := toNat_of_continuesName (isWord c (by simp [letters]))
      simp [lowerChar, small, letters]

theorem lowerRest_eq_map {letters : List Char} (continues : ∀ c ∈ letters, continuesName c = true)
    (before : List Char) : lowerRest before letters = letters.map Char.toLower := by
  induction letters generalizing before with
  | nil => rfl
  | cons c rest ih =>
      obtain ⟨here, later⟩ := List.forall_mem_cons.mp continues
      have small := toNat_of_continuesName here
      -- The capital sigma has a rule of its own, but it is no character of a word.
      have plain : (c == 'Σ') = false := by
        rw [beq_eq_false_iff_ne]
        rintro rfl
        exact absurd small (by decide)
      simp [lowerRest, plain, lowerChar, small, ih later]

theorem toList_lowercase (isWord : IsWord word) :
    (lowercase word).toList = word.toList.map Char.toLower := by
  rw [lowercase, String.toList_ofList, lowerRest_eq_map isWord]

/-- A change of the first character that goes on words leads from words to words. -/
theorem IsWord.modifyHead {image : String} {change : Char → Char} (isWord : IsWord word)
    (changed : image.toList = word.toList.modifyHead change)
    (continues : ∀ c, continuesName c = true → continuesName (change c) = true) :
    IsWord image := by
  rw [IsWord, changed]
  cases letters : word.toList with
  | nil => simp
  | cons c rest =>
      rw [IsWord, letters] at isWord
      obtain ⟨here, later⟩ := List.forall_mem_cons.mp isWord
      exact List.forall_mem_cons.mpr ⟨continues c here, later⟩

theorem IsWord.capitalize (isWord : IsWord word) : IsWord (capitalize word) :=
  isWord.modifyHead (toList_capitalize isWord) fun _ here =>
    (caseLaws_of_continuesName here).upper_continues

theorem IsWord.decapitalize (isWord : IsWord word) : IsWord (decapitalize word) :=
  isWord.modifyHead (toList_decapitalize isWord) fun _ here =>
    (caseLaws_of_continuesName here).lower_continues

theorem IsWord.lowercase (isWord : IsWord word) : IsWord (lowercase word) := by
  rw [IsWord, toList_lowercase isWord]
  intro d member
  obtain ⟨c, there, rfl⟩ := List.mem_map.mp member
  exact (caseLaws_of_continuesName (isWord c there)).lower_continues

/-- Where a test finds letters behind a change of the first character, it finds the letters. -/
theorem startsWith_of_head {image : String} {test : Char → Bool} {change : Char → Char}
    (isWord : IsWord word) (changed : image.toList.head? = word.toList.head?.map change)
    (letter : ∀ c, continuesName c = true → test (change c) = c.isAlpha) :
    startsWith test image = startsWith Char.isAlpha word := by
  rw [startsWith, startsWith, changed]
  cases letters : word.toList with
  | nil => rfl
  | cons c rest => exact letter c (isWord c (by simp [letters]))

theorem startsWith_capitalize (isWord : IsWord word) :
    startsWith Char.isUpper (capitalize word) = startsWith Char.isAlpha word :=
  startsWith_of_head isWord (by simp [toList_capitalize isWord])
    fun _ here => (caseLaws_of_continuesName here).upper_letter

theorem startsWith_decapitalize (isWord : IsWord word) :
    startsWith Char.isLower (decapitalize word) = startsWith Char.isAlpha word :=
  startsWith_of_head isWord (by simp [toList_decapitalize isWord])
    fun _ here => (caseLaws_of_continuesName here).lower_letter

theorem startsWith_lowercase (isWord : IsWord word) :
    startsWith Char.isLower (lowercase word) = startsWith Char.isAlpha word :=
  startsWith_of_head isWord (by simp [toList_lowercase isWord])
    fun _ here => (caseLaws_of_continuesName here).lower_letter

theorem modifyHead_congr {first second : Char → Char}
    (same : ∀ c, continuesName c = true → first c = second c) (isWord : IsWord word) :
    word.toList.modifyHead first = word.toList.modifyHead second := by
  cases letters : word.toList with
  | nil => rfl
  | cons c rest => exact congrArg (· :: rest) (same c (isWord c (by simp [letters])))

theorem capitalize_capitalize (isWord : IsWord word) :
    capitalize (capitalize word) = capitalize word := by
  apply String.toList_injective
  rw [toList_capitalize isWord.capitalize, toList_capitalize isWord, List.modifyHead_modifyHead]
  exact modifyHead_congr (fun _ here => (caseLaws_of_continuesName here).upper_upper) isWord

theorem decapitalize_capitalize (isWord : IsWord word) :
    decapitalize (capitalize word) = decapitalize word := by
  apply String.toList_injective
  rw [toList_decapitalize isWord.capitalize, toList_capitalize isWord, toList_decapitalize isWord,
    List.modifyHead_modifyHead]
  exact modifyHead_congr (fun _ here => (caseLaws_of_continuesName here).upper_lower) isWord

theorem decapitalize_lowercase (isWord : IsWord word) :
    decapitalize (lowercase word) = lowercase word := by
  apply String.toList_injective
  rw [toList_decapitalize isWord.lowercase, toList_lowercase isWord]
  cases letters : word.toList with
  | nil => rfl
  | cons c rest =>
      have laws := caseLaws_of_continuesName (isWord c (by simp [letters]))
      exact congrArg (· :: rest.map Char.toLower) laws.lower_lower

/-- Words in lower case are told apart by what they are with a capital. -/
theorem capitalize_lowercase_inj {other : String} (isWord : IsWord word) (isWord' : IsWord other) :
    capitalize (lowercase word) = capitalize (lowercase other) ↔
      lowercase word = lowercase other := by
  refine ⟨fun same => ?_, congrArg _⟩
  rw [← decapitalize_lowercase isWord, ← decapitalize_lowercase isWord',
    ← decapitalize_capitalize isWord.lowercase, same, decapitalize_capitalize isWord'.lowercase]

end Text

/-! ### Identifiers -/

namespace Elm

open Text

/-- An identifier: a word whose first character passes a test, and none of the reserved ones. -/
structure IsIdentifier (starts : Char → Bool) (name : String) : Prop where
  first : startsWith starts name = true
  word : IsWord name
  free : name ∉ Name.reserved

/-- A name for a value. -/
def IsValueName (name : String) : Prop := IsIdentifier Char.isLower name

/-- A name for a type or for a constructor. -/
def IsTypeName (name : String) : Prop := IsIdentifier Char.isUpper name

instance (starts : Char → Bool) (name : String) : Decidable (IsIdentifier starts name) :=
  decidable_of_iff (startsWith starts name = true ∧ IsWord name ∧ name ∉ Name.reserved)
    ⟨fun ⟨first, word, free⟩ => ⟨first, word, free⟩, fun ⟨first, word, free⟩ => ⟨first, word, free⟩⟩

instance (name : String) : Decidable (IsValueName name) :=
  inferInstanceAs (Decidable (IsIdentifier Char.isLower name))

instance (name : String) : Decidable (IsTypeName name) :=
  inferInstanceAs (Decidable (IsIdentifier Char.isUpper name))

theorem isTypeName_iff {name : String} (word : IsWord name) :
    IsTypeName name ↔ startsWith Char.isUpper name = true ∧ name ∉ Name.reserved :=
  ⟨fun ⟨first, _, free⟩ => ⟨first, free⟩, fun ⟨first, free⟩ => ⟨first, word, free⟩⟩

theorem isTypeName_capitalize_iff {name : String} (word : IsWord name) :
    IsTypeName (capitalize name) ↔
      startsWith Char.isAlpha name = true ∧ capitalize name ∉ Name.reserved := by
  rw [isTypeName_iff word.capitalize, startsWith_capitalize word]

theorem isValueName_decapitalize_iff {name : String} (word : IsWord name) :
    IsValueName (decapitalize name) ↔
      startsWith Char.isAlpha name = true ∧ decapitalize name ∉ Name.reserved := by
  rw [← startsWith_decapitalize word]
  exact ⟨fun ⟨first, _, free⟩ => ⟨first, free⟩,
    fun ⟨first, free⟩ => ⟨first, word.decapitalize, free⟩⟩

end Elm

/-! ### What is put together is not reserved -/

namespace Name

/-- A name with a part behind an underscore. -/
def suffixed (base part : String) : String := base ++ "_" ++ part

theorem suffixed_injective (base : String) : Function.Injective (suffixed base) :=
  fun _ _ same => (String.append_right_inj _).mp same

theorem suffixed_notMem_reserved (base part : String) : suffixed base part ∉ reserved := by
  have without : ∀ word ∈ reserved, '_' ∉ word.toList := by decide
  intro member
  exact without _ member (by simp [suffixed])

theorem append_decoder_notMem_reserved (stem : String) : stem ++ "Decoder" ∉ reserved := by
  have without : ∀ word ∈ reserved, ¬ "Decoder".toList <:+ word.toList := by decide
  intro member
  refine without _ member ?_
  rw [String.toList_append]
  exact List.suffix_append _ _

theorem encoder_notMem_reserved (input : String) : encoder input ∉ reserved := by
  have without : ∀ word ∈ reserved, ¬ "encode".toList <+: word.toList := by decide
  intro member
  refine without _ member ?_
  rw [encoder, String.toList_append]
  exact List.prefix_append _ _

end Name

namespace Elm

open Text

theorem isTypeName_suffixed {base part : String} (first : startsWith Char.isUpper base = true)
    (word : IsWord base) (rest : IsWord part) : IsTypeName (Name.suffixed base part) where
  first := startsWith_append _ (startsWith_append _ first)
  word := (word.append (by decide)).append rest
  free := Name.suffixed_notMem_reserved base part

theorem isValueName_append_decoder {stem : String} (first : startsWith Char.isLower stem = true)
    (word : IsWord stem) : IsValueName (stem ++ "Decoder") where
  first := startsWith_append _ first
  word := word.append (by decide)
  free := Name.append_decoder_notMem_reserved stem

theorem isValueName_encoder {input : String} (word : IsWord input) :
    IsValueName (Name.encoder input) where
  first := startsWith_append _ (by decide)
  word := IsWord.append (by decide) word.capitalize
  free := Name.encoder_notMem_reserved input

end Elm

end ElmClient
