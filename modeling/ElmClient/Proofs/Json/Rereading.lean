/-
Module: ElmClient.Proofs.Json.Rereading
Purpose: What a reader of JSON takes off the start of a text. It finds the same value again in what
  it has used, whatever follows a closing quote, bracket or brace; a number must only be followed by
  nothing, or by what starts like the text that followed it first.
Main exports: NumberLiteral.scan_again, Json.Rereads, Json.rereads_scanClosed,
  Json.rereads_scanEntry, Json.rereads_scanValue, Json.rereads_skipValue
-/
import ElmClient.Json.Skip
import ElmClient.Proofs.QueryText.Literals

namespace ElmClient

/-! ### Numbers -/

namespace NumberLiteral

/-- A text that does not go on with digits. -/
def NoDigit (text : List Char) : Prop := ∀ c ∈ text.head?, c.isDigit = false

theorem NoDigit.cons {c : Char} {rest : List Char} (noDigit : c.isDigit = false) :
    NoDigit (c :: rest) := by
  simpa [NoDigit] using noDigit

variable {text digits left : List Char}

/-- The digits at the start of a text end where no digit follows. -/
theorem spanDigits_again (spanned : spanDigits text = (digits, left)) :
    text = digits ++ left ∧ (∀ c ∈ digits, c.isDigit = true) ∧ NoDigit left ∧
      ∀ {left'}, NoDigit left' → spanDigits (digits ++ left') = (digits, left') := by
  obtain ⟨rfl, rfl⟩ := Prod.mk.inj spanned
  have all : ∀ c ∈ text.takeWhile Char.isDigit, c.isDigit = true :=
    fun c member => List.all_eq_true.mp List.all_takeWhile c member
  refine ⟨List.takeWhile_append_dropWhile.symm, all, fun c first => ?_, fun {left'} noDigit => ?_⟩
  · have stops := List.head?_dropWhile_not Char.isDigit text
    rw [first] at stops
    simpa using stops
  · rw [spanDigits, List.takeWhile_append_of_pos all, List.dropWhile_append_of_pos all]
    cases left' with
    | nil => simp
    | cons c more => simp [noDigit c rfl]

theorem scanWhole_again (read : scanWhole text = some (digits, left)) :
    ∃ c more, digits = c :: more ∧ c.isDigit = true ∧ text = digits ++ left ∧
      ∀ {left'}, NoDigit left' → scanWhole (digits ++ left') = some (digits, left') := by
  unfold scanWhole at read
  split at read
  · next rest =>
      obtain ⟨rfl, rfl⟩ := Prod.mk.inj (Option.some.inj read)
      exact ⟨'0', [], rfl, by decide, rfl, fun _ => rfl⟩
  · next noZero =>
      split at read
      · cases read
      · next digits' left'' filled spanned =>
          obtain ⟨rfl, rfl⟩ := Prod.mk.inj (Option.some.inj read)
          obtain ⟨split, all, _, again⟩ := spanDigits_again spanned
          obtain ⟨c, more, rfl⟩ := List.exists_cons_of_ne_nil filled
          have noZero' : c ≠ '0' := by
            rintro rfl
            exact noZero _ split
          refine ⟨c, more, rfl, all c List.mem_cons_self, split, fun noDigit => ?_⟩
          have spanned' := again noDigit
          rw [List.cons_append] at spanned' ⊢
          simp [scanWhole, noZero', spanned']

theorem scanFraction_again (read : scanFraction text = some (digits, left)) :
    text = '.' :: (digits ++ left) ∧ NoDigit left ∧ ∀ {left'}, NoDigit left' →
      scanFraction ('.' :: (digits ++ left')) = some (digits, left') := by
  unfold scanFraction at read
  split at read
  · next rest =>
      split at read
      · cases read
      · next digits' left'' filled spanned =>
          obtain ⟨rfl, rfl⟩ := Prod.mk.inj (Option.some.inj read)
          obtain ⟨split, all, noDigit, again⟩ := spanDigits_again spanned
          obtain ⟨c, more, rfl⟩ := List.exists_cons_of_ne_nil filled
          refine ⟨by rw [split], noDigit, fun noDigit' => ?_⟩
          have spanned' := again noDigit'
          rw [List.cons_append] at spanned' ⊢
          simp [scanFraction, spanned']
  · cases read

/-- A sign before digits. -/
theorem scanSign_again (text : List Char) : ∃ sign, text = sign ++ (scanSign text).2 ∧
    ∀ {c more}, c.isDigit = true →
      scanSign (sign ++ c :: more) = ((scanSign text).1, c :: more) := by
  unfold scanSign
  split
  · exact ⟨['-'], rfl, fun _ => rfl⟩
  · exact ⟨['+'], rfl, fun _ => rfl⟩
  · refine ⟨[], rfl, fun {c more} digit => ?_⟩
    have noMinus : c ≠ '-' := by
      rintro rfl
      exact absurd digit (by decide)
    have noPlus : c ≠ '+' := by
      rintro rfl
      exact absurd digit (by decide)
    simp [noMinus, noPlus]

theorem scanExponent_again {n : Int} (read : scanExponent text = some (n, left)) :
    ∃ mark used, (mark == 'e' || mark == 'E') = true ∧ text = mark :: (used ++ left) ∧
      NoDigit left ∧
      ∀ {left'}, NoDigit left' → scanExponent (mark :: (used ++ left')) = some (n, left') := by
  unfold scanExponent at read
  split at read
  · next mark rest =>
      split at read
      · next isMark =>
          dsimp only at read
          split at read
          · cases read
          · next digits' left'' filled spanned =>
              obtain ⟨rfl, rfl⟩ := Prod.mk.inj (Option.some.inj read)
              obtain ⟨split, all, noDigit, again⟩ := spanDigits_again spanned
              obtain ⟨c, more, rfl⟩ := List.exists_cons_of_ne_nil filled
              obtain ⟨sign, signed, signAgain⟩ := scanSign_again rest
              refine ⟨mark, sign ++ c :: more, isMark, ?_, noDigit, fun {left'} noDigit' => ?_⟩
              · rw [List.append_assoc, ← split, ← signed]
              · have signs := @signAgain c (more ++ left') (all c List.mem_cons_self)
                have spanned' := again noDigit'
                rw [List.cons_append] at spanned'
                simp [scanExponent, isMark, signs, spanned']
      · cases read
  · cases read

theorem scanFraction_eq_none (noPoint : ∀ c ∈ text.head?, (c == '.') = false) :
    scanFraction text = none := by
  cases text with
  | nil => rfl
  | cons c more => exact scanFraction_cons (noPoint c rfl) more

theorem scanExponent_eq_none (noMark : ∀ c ∈ text.head?, (c == 'e' || c == 'E') = false) :
    scanExponent text = none := by
  cases text with
  | nil => rfl
  | cons c more => simp [scanExponent, noMark c rfl]

/-- A literal ends before a text: no digit goes on with it, and nothing that may only go on in a
wrong way. -/
def EndsBefore (literal : NumberLiteral) (rest : List Char) : Prop :=
  NoDigit rest ∧ Json.endsWell literal rest = true

section EndsBefore

variable {literal : NumberLiteral} {rest : List Char}

theorem noMark_of_endsWell (ends : Json.endsWell literal rest = true)
    (plain : literal.exponent = none) : ∀ c ∈ rest.head?, (c == 'e' || c == 'E') = false := by
  intro c first
  cases rest with
  | nil => cases first
  | cons d more =>
      obtain rfl := Option.some.inj first
      simp only [Json.endsWell, plain, Option.isSome_none, Bool.false_eq_true, if_false] at ends
      split at ends
      · cases ends
      · next noMark => simpa using noMark

theorem noPoint_of_endsWell (ends : Json.endsWell literal rest = true)
    (plain : literal.exponent = none) (whole : literal.fraction = none) :
    ∀ c ∈ rest.head?, (c == '.') = false ∧ c.isDigit = false := by
  intro c first
  cases rest with
  | nil => cases first
  | cons d more =>
      obtain rfl := Option.some.inj first
      simp only [Json.endsWell, plain, whole, Option.isSome_none, Bool.false_eq_true,
        if_false] at ends
      split at ends
      · cases ends
      · simpa using ends

end EndsBefore

/-- A part of a literal that may be missing, and the text after it. -/
def optional {α : Type} (scan : List Char → Option (α × List Char)) (text : List Char) :
    Option α × List Char :=
  match scan text with
  | some (part, rest) => (some part, rest)
  | none => (none, text)

theorem scanUnsigned_eq (negative : Bool) (text : List Char) : scanUnsigned negative text =
    (scanWhole text).map fun (whole, rest) =>
      let (fraction, rest) := optional scanFraction rest
      let (exponent, rest) := optional scanExponent rest
      (⟨negative, whole, fraction, exponent⟩, rest) := by
  unfold scanUnsigned optional
  rcases scanWhole text with _ | ⟨whole, rest⟩
  · rfl
  · rcases fraction : scanFraction rest with _ | ⟨digits, rest'⟩
    · rcases exponent : scanExponent rest with _ | ⟨n, rest''⟩ <;> simp [fraction, exponent]
    · rcases exponent : scanExponent rest' with _ | ⟨n, rest''⟩ <;> simp [fraction, exponent]

/-- A part is missing where nothing was used for it; behind one, no digit follows. -/
def UsedFor {α : Type} (part : Option α) (used left : List Char) : Prop :=
  part = none ∧ used = [] ∨ part ≠ none ∧ used ≠ [] ∧ NoDigit left

theorem optional_scanFraction_again {fraction : Option (List Char)}
    (read : optional scanFraction text = (fraction, left)) :
    ∃ used, text = used ++ left ∧ UsedFor fraction used left ∧
      ∀ {left'}, NoDigit left' → (fraction = none → scanFraction left' = none) →
        optional scanFraction (used ++ left') = (fraction, left') ∧ NoDigit (used ++ left') := by
  unfold optional at read
  split at read
  · next places rest found =>
      obtain ⟨rfl, rfl⟩ := Prod.mk.inj read
      obtain ⟨rfl, noDigit, again⟩ := scanFraction_again found
      refine ⟨'.' :: places, rfl, .inr ⟨nofun, nofun, noDigit⟩,
        fun noDigit' _ => ⟨?_, .cons (by decide)⟩⟩
      rw [List.cons_append, optional, again noDigit']
  · obtain ⟨rfl, rfl⟩ := Prod.mk.inj read
    exact ⟨[], rfl, .inl ⟨rfl, rfl⟩, fun noDigit' none' =>
      ⟨by rw [List.nil_append, optional, none' rfl], noDigit'⟩⟩

theorem optional_scanExponent_again {exponent : Option Int}
    (read : optional scanExponent text = (exponent, left)) :
    ∃ used, text = used ++ left ∧ UsedFor exponent used left ∧
      ∀ {left'}, NoDigit left' → (exponent = none → scanExponent left' = none) →
        optional scanExponent (used ++ left') = (exponent, left') ∧ NoDigit (used ++ left') ∧
          (used ≠ [] → scanFraction (used ++ left') = none) := by
  unfold optional at read
  split at read
  · next n rest found =>
      obtain ⟨rfl, rfl⟩ := Prod.mk.inj read
      obtain ⟨mark, used, isMark, rfl, noDigit, again⟩ := scanExponent_again found
      have plain : mark.isDigit = false ∧ (mark == '.') = false := by
        rcases Bool.or_eq_true_iff.mp isMark with lower | upper
        · obtain rfl := beq_iff_eq.mp lower
          decide
        · obtain rfl := beq_iff_eq.mp upper
          decide
      refine ⟨mark :: used, rfl, .inr ⟨nofun, nofun, noDigit⟩, fun noDigit' _ =>
        ⟨?_, .cons plain.1, fun _ => scanFraction_cons plain.2 _⟩⟩
      rw [List.cons_append, optional, again noDigit']
  · obtain ⟨rfl, rfl⟩ := Prod.mk.inj read
    exact ⟨[], rfl, .inl ⟨rfl, rfl⟩, fun noDigit' none' =>
      ⟨by rw [List.nil_append, optional, none' rfl], noDigit', fun some_ => absurd rfl some_⟩⟩

/-- A literal is found again before every text before which it ends. -/
theorem scanUnsigned_again {negative : Bool} {literal : NumberLiteral} {rest : List Char}
    (read : scanUnsigned negative text = some (literal, rest))
    (ends : Json.endsWell literal rest = true) :
    ∃ c more, c.isDigit = true ∧ text = c :: more ++ rest ∧ literal.EndsBefore rest ∧
      ∀ {rest'}, literal.EndsBefore rest' →
        scanUnsigned negative (c :: more ++ rest') = some (literal, rest') := by
  rw [scanUnsigned_eq] at read
  obtain ⟨⟨digits, afterWhole⟩, whole, read⟩ := Option.map_eq_some_iff.mp read
  rcases fractionRead : optional scanFraction afterWhole with ⟨fraction, afterFraction⟩
  rcases exponentRead : optional scanExponent afterFraction with ⟨exponent, afterExponent⟩
  simp only [fractionRead, exponentRead] at read
  obtain ⟨rfl, rfl⟩ := Prod.mk.inj read
  obtain ⟨c, more, rfl, digit, rfl, wholeAgain⟩ := scanWhole_again whole
  obtain ⟨places, rfl, forFraction, fractionAgain⟩ := optional_scanFraction_again fractionRead
  obtain ⟨marked, rfl, forExponent, exponentAgain⟩ := optional_scanExponent_again exponentRead
  have noDigit : NoDigit afterExponent := by
    rcases forExponent with ⟨rfl, rfl⟩ | ⟨_, _, noDigit⟩
    · rcases forFraction with ⟨rfl, rfl⟩ | ⟨_, _, noDigit⟩
      · exact fun d first => (noPoint_of_endsWell ends rfl rfl d first).2
      · exact noDigit
    · exact noDigit
  refine ⟨c, more ++ (places ++ marked), digit, by simp, ⟨noDigit, ends⟩,
    fun {rest'} ⟨noDigit', ends'⟩ => ?_⟩
  obtain ⟨exponentRead', noDigitMark, noPoint⟩ := exponentAgain noDigit' fun none' =>
    scanExponent_eq_none (noMark_of_endsWell ends' none')
  have noFraction : fraction = none → scanFraction (marked ++ rest') = none := by
    intro none'
    rcases forExponent with ⟨rfl, rfl⟩ | ⟨_, filled, _⟩
    · exact scanFraction_eq_none fun d first => (noPoint_of_endsWell ends' rfl none' d first).1
    · exact noPoint filled
  obtain ⟨fractionRead', noDigitPoint⟩ := fractionAgain noDigitMark noFraction
  have split : c :: (more ++ (places ++ marked)) ++ rest' =
      c :: more ++ (places ++ (marked ++ rest')) := by simp
  rw [split, scanUnsigned_eq, wholeAgain noDigitPoint]
  simp only [Option.map_some, fractionRead', exponentRead']

theorem scan_again {literal : NumberLiteral} {rest : List Char}
    (read : scan text = some (literal, rest)) (ends : Json.endsWell literal rest = true) :
    ∃ c more, (c.isDigit = true ∨ c = '-') ∧ text = c :: more ++ rest ∧ literal.EndsBefore rest ∧
      ∀ {rest'}, literal.EndsBefore rest' → scan (c :: more ++ rest') = some (literal, rest') := by
  rw [scan_eq] at read
  unfold splitMinus at read
  split at read
  · next unsigned =>
      obtain ⟨c, more, _, rfl, before, again⟩ := scanUnsigned_again read ends
      exact ⟨'-', c :: more, .inr rfl, rfl, before, again⟩
  · obtain ⟨c, more, digit, rfl, before, again⟩ := scanUnsigned_again read ends
    have noMinus : c ≠ '-' := by
      rintro rfl
      exact absurd digit (by decide)
    refine ⟨c, more, .inl digit, rfl, before, fun before' => ?_⟩
    have unsigned (rest' : List Char) :
        splitMinus (c :: more ++ rest') = (false, c :: more ++ rest') := by
      simp [splitMinus, noMinus]
    rw [scan_eq, unsigned]
    exact again before'

end NumberLiteral

namespace Json

/-! ### Reading again -/

/-- A text may follow where another one did: it is empty, or it starts like the other one. -/
def StartsAlike (rest rest' : List Char) : Prop := rest' = [] ∨ rest'.head? = rest.head?

theorem StartsAlike.append {rest rest' : List Char} (front : List Char)
    (alike : StartsAlike rest rest') : StartsAlike (front ++ rest) (front ++ rest') := by
  cases front with
  | nil => exact alike
  | cons c more => exact .inr rfl

theorem StartsAlike.cons (front : List Char) (c : Char) (rest rest' : List Char) :
    StartsAlike (front ++ c :: rest) (front ++ c :: rest') :=
  .append front (.inr rfl)

/-- What may follow a value when it is read again, by the value and what followed it first. -/
abbrev Following (α : Type) := α → List Char → List Char → Prop

variable {α κ : Type}

/-- Anything may follow. -/
def anything : Following α := fun _ _ _ => True

/-- What follows must start alike. -/
def alike : Following α := fun _ rest rest' => StartsAlike rest rest'

/-- A value is read again from what was used for it. The reader may need a bound that is larger than
the text. -/
def Rereads (following : Following α) (scan : Scanner α) (again : Nat → Scanner α) : Prop :=
  ∀ {text rest : List Char} {value : α}, scan text = some (value, rest) →
    ∃ used, text = used ++ rest ∧ ∀ {bound : Nat} {rest' : List Char}, used.length < bound →
      following value rest rest' → again bound (used ++ rest') = some (value, rest')

theorem Rereads.alike {scan : Scanner α} {again : Nat → Scanner α}
    (rereads : Rereads anything scan again) : Rereads alike scan again := fun read =>
  have ⟨used, split, finds⟩ := rereads read
  ⟨used, split, fun below _ => finds below trivial⟩

/-- What is made of a value that is read again. -/
theorem Rereads.map {β : Type} {follows : List Char → List Char → Prop} {scan : Scanner α}
    {again : Nat → Scanner α} (rereads : Rereads (fun _ => follows) scan again) (f : α → β) :
    Rereads (fun _ => follows) (fun text => (scan text).map fun (value, rest) => (f value, rest))
      fun bound text => (again bound text).map fun (value, rest) => (f value, rest) := by
  intro text rest value read
  obtain ⟨⟨first, rest'⟩, found, same⟩ := Option.map_eq_some_iff.mp read
  obtain ⟨rfl, rfl⟩ := Prod.mk.inj same
  obtain ⟨used, split, finds⟩ := rereads found
  refine ⟨used, split, fun within follows' => ?_⟩
  simp only [finds within follows', Option.map_some]

/-- Blanks are skipped again. -/
theorem skipSpace_again (text : List Char) : ∃ blanks, text = blanks ++ skipSpace text ∧
    ∀ {rest'}, StartsAlike (skipSpace text) rest' → skipSpace (blanks ++ rest') = rest' := by
  have all : ∀ c ∈ text.takeWhile isSpace, isSpace c = true :=
    fun c member => List.all_eq_true.mp List.all_takeWhile c member
  refine ⟨text.takeWhile isSpace, List.takeWhile_append_dropWhile.symm, fun {rest'} alike => ?_⟩
  rw [skipSpace, List.dropWhile_append_of_pos all]
  cases rest' with
  | nil => rfl
  | cons c more =>
      have first := alike.resolve_left (List.cons_ne_nil c more)
      have stops := List.head?_dropWhile_not isSpace text
      rw [skipSpace, List.head?_cons] at first
      rw [← first] at stops
      exact List.dropWhile_cons_of_neg (by simpa using stops)

/-! ### Strings -/

/-- What is read at the start of a text is read again, whatever follows it. -/
def FindsAgain (scan : Scanner α) (text : List Char) : Prop :=
  ∀ {value : α} {rest : List Char}, scan text = some (value, rest) →
    ∃ used, text = used ++ rest ∧ ∀ rest', scan (used ++ rest') = some (value, rest')

/-- A character that is read before a text, however it is written. -/
theorem FindsAgain.step {scan : Scanner α} {after : List Char} (later : FindsAgain scan after)
    (front : List Char) {push : α → α}
    (step : ∀ tail,
      scan (front ++ tail) = (scan tail).map fun (value, rest) => (push value, rest)) :
    FindsAgain scan (front ++ after) := by
  intro value rest read
  rw [step] at read
  obtain ⟨⟨value', rest'⟩, found, same⟩ := Option.map_eq_some_iff.mp read
  obtain ⟨rfl, rfl⟩ := Prod.mk.inj same
  obtain ⟨used, rfl, again⟩ := later found
  refine ⟨front ++ used, (List.append_assoc _ _ _).symm, fun rest' => ?_⟩
  rw [List.append_assoc, step, again rest']
  rfl

theorem FindsAgain.skip {scan : Scanner α} {after : List Char} (later : FindsAgain scan after)
    (front : List Char) (step : ∀ tail, scan (front ++ tail) = scan tail) :
    FindsAgain scan (front ++ after) :=
  @FindsAgain.step α scan after later front id fun tail => by simp [step]

theorem findsAgain_scanString (text : List Char) : FindsAgain scanString text := by
  intro chars left read
  fun_induction scanString text generalizing chars left with
  | case2 rest =>
      obtain ⟨rfl, rfl⟩ := Prod.mk.inj (Option.some.inj read)
      exact ⟨['"'], rfl, fun _ => rfl⟩
  | case5 a b c d n value lead e f g h rest trail value' isTrail ih =>
      have step (tail : List Char) :
          scanString (['\\', 'u', a, b, c, d, '\\', 'u', e, f, g, h] ++ tail) =
            (scanString tail).map fun (chars, rest) => (joinSurrogates n trail :: chars, rest) := by
        simp [scanString, value, lead, value', isTrail]
      exact FindsAgain.step ih _ step ((step rest).trans read)
  | case9 a b c d rest n value noLead noTrail ih =>
      have step (tail : List Char) : scanString (['\\', 'u', a, b, c, d] ++ tail) =
          (scanString tail).map fun (chars, rest) => (Char.ofNat n :: chars, rest) := by
        simp [scanString, value, noLead, noTrail]
      exact FindsAgain.step ih _ step ((step rest).trans read)
  | case11 e rest other c value ih =>
      have step (tail : List Char) : scanString (['\\', e] ++ tail) =
          (scanString tail).map fun (chars, rest) => (c :: chars, rest) := by
        have noCode : e ≠ 'u' := by
          rintro rfl
          cases value
        simp [scanString, value, noCode]
      exact FindsAgain.step ih _ step ((step rest).trans read)
  | case13 c rest noQuote noCode noEscape plain ih =>
      have step (tail : List Char) : scanString ([c] ++ tail) =
          (scanString tail).map fun (chars, rest) => (c :: chars, rest) := by
        have noBackslash : c ≠ '\\' := by
          rintro rfl
          exact plain (by simp)
        simp [scanString, noBackslash, plain]
      exact FindsAgain.step ih _ step ((step rest).trans read)
  | _ => cases read

theorem findsAgain_skipString (text : List Char) : FindsAgain skipString text := by
  intro skipped left read
  fun_induction skipString text generalizing skipped left with
  | case2 rest =>
      obtain ⟨rfl, rfl⟩ := Prod.mk.inj (Option.some.inj read)
      exact ⟨['"'], rfl, fun _ => rfl⟩
  | case3 a b c d rest value ih =>
      have step (tail : List Char) :
          skipString (['\\', 'u', a, b, c, d] ++ tail) = skipString tail := by
        simp [skipString, value]
      exact FindsAgain.skip ih _ step ((step rest).trans read)
  | case5 e rest other value ih =>
      have step (tail : List Char) : skipString (['\\', e] ++ tail) = skipString tail := by
        have noCode : e ≠ 'u' := by
          rintro rfl
          cases value
        simp [skipString, value, noCode]
      exact FindsAgain.skip ih _ step ((step rest).trans read)
  | case8 c rest noQuote noCode noEscape plain ih =>
      have step (tail : List Char) : skipString ([c] ++ tail) = skipString tail := by
        have noBackslash : c ≠ '\\' := by
          rintro rfl
          exact plain (by simp)
        simp [skipString, noBackslash, plain]
      exact FindsAgain.skip ih _ step ((step rest).trans read)
  | _ => cases read

theorem findsAgain_scanKey (text : List Char) : FindsAgain scanKey text := by
  intro key rest read
  obtain ⟨⟨chars, rest'⟩, found, same⟩ := Option.map_eq_some_iff.mp read
  obtain ⟨rfl, rfl⟩ := Prod.mk.inj same
  obtain ⟨used, split, again⟩ := findsAgain_scanString text found
  exact ⟨used, split, fun rest' => by simp only [scanKey, again, Option.map_some]⟩

/-! ### Items and entries -/

section Items

variable {item : Scanner α} {again : Nat → Scanner α}

/-- One item is read again with the character behind it, and with anything behind that. -/
theorem scanItems_first (close : Char) (rereads : Rereads alike item again)
    {text afterFirst after : List Char} {first : α} {c : Char}
    (found : item (skipSpace text) = some (first, afterFirst))
    (stands : skipSpace afterFirst = c :: after) :
    ∃ used, text = used ++ c :: after ∧ ∀ {bound : Nat} (count : Nat) (rest : List Char),
      used.length < bound → scanItems (again bound) close (count + 1) (used ++ c :: rest) =
        if c == close then some ([first], rest)
        else if c == ',' then
          (scanItems (again bound) close count rest).map fun (items, rest) => (first :: items, rest)
        else none := by
  obtain ⟨blanks, split, skips⟩ := skipSpace_again text
  obtain ⟨used, split', finds⟩ := rereads found
  obtain ⟨blanks', split'', skips'⟩ := skipSpace_again afterFirst
  rw [stands] at split'' skips'
  rw [split', split''] at split skips
  rw [split''] at finds
  refine ⟨blanks ++ (used ++ blanks'), by simpa using split, fun {bound} count rest below => ?_⟩
  have alike' := StartsAlike.cons blanks' c after rest
  have within : used.length < bound := by
    simp only [List.length_append] at below
    omega
  rw [List.append_assoc, List.append_assoc, scanItems, skips (.append used alike'),
    finds within alike']
  have stops : skipSpace (blanks' ++ c :: rest) = c :: rest := skips' (.inr rfl)
  simp only [stops]

/-- Behind the closing character of a row of items, anything may follow. The count of items is never
larger than the text. -/
theorem scanItems_again {close : Char} (rereads : Rereads alike item again) {count : Nat}
    {text rest : List Char} {items : List α}
    (read : scanItems item close count text = some (items, rest)) :
    ∃ used, text = used ++ rest ∧ ∀ {bound count' : Nat} {rest' : List Char}, used.length < bound →
      used.length ≤ count' →
        scanItems (again bound) close count' (used ++ rest') = some (items, rest') := by
  -- The induction follows the first reading. The second one has a count of its own, since the text
  -- may now be a shorter one; each item takes one character at least from it.
  induction count generalizing text items with
  | zero => cases read
  | succ count ih =>
      rw [scanItems] at read
      split at read
      · cases read
      next first afterFirst found =>
        split at read
        · next c after stands =>
            obtain ⟨used, rfl, firstAgain⟩ := scanItems_first close rereads found stands
            split at read
            · next closes =>
                obtain ⟨rfl, rfl⟩ := Prod.mk.inj (Option.some.inj read)
                refine ⟨used ++ [c], by simp, fun {bound count' rest'} below enough => ?_⟩
                simp only [List.length_append, List.length_singleton] at below enough
                obtain ⟨count', rfl⟩ : ∃ k, count' = k + 1 := ⟨count' - 1, by omega⟩
                rw [List.append_assoc, List.singleton_append, firstAgain _ _ (by omega),
                  if_pos closes]
            · next goesOn =>
                split at read
                · next comma =>
                    obtain ⟨⟨others, rest'⟩, later, same⟩ := Option.map_eq_some_iff.mp read
                    obtain ⟨rfl, rfl⟩ := Prod.mk.inj same
                    obtain ⟨used', rfl, othersAgain⟩ := ih later
                    refine ⟨used ++ c :: used', by simp,
                      fun {bound count' rest'} below enough => ?_⟩
                    simp only [List.length_append, List.length_cons] at below enough
                    obtain ⟨count', rfl⟩ : ∃ k, count' = k + 1 := ⟨count' - 1, by omega⟩
                    rw [List.append_assoc, List.cons_append, firstAgain _ _ (by omega),
                      if_neg goesOn, if_pos comma, othersAgain (by omega) (by omega)]
                    rfl
                · cases read
        · cases read

theorem rereads_scanClosed (rereads : Rereads alike item again) (close : Char) :
    Rereads anything (scanClosed item close) fun bound => scanClosed (again bound) close := by
  intro text rest items read
  obtain ⟨blanks, split, skips⟩ := skipSpace_again text
  unfold scanClosed at read
  split at read
  · next c after stands =>
      rw [stands] at split skips
      split at read
      · next closes =>
          obtain ⟨rfl, rfl⟩ := Prod.mk.inj (Option.some.inj read)
          refine ⟨blanks ++ [c], by simpa using split, fun {_ rest'} _ _ => ?_⟩
          have stops : skipSpace (blanks ++ c :: rest') = c :: rest' := skips (.inr rfl)
          simp only [List.append_assoc, List.singleton_append, scanClosed, stops, closes, if_true]
      · next goesOn =>
          obtain ⟨used, split', finds⟩ := scanItems_again rereads read
          -- No items can be counted in nothing, so the first character was used.
          obtain ⟨d, more, rfl⟩ : ∃ d more, used = d :: more := by
            refine List.exists_cons_of_ne_nil fun nothing => ?_
            subst nothing
            exact nomatch @finds 1 0 [] Nat.zero_lt_one (Nat.le_refl 0)
          obtain ⟨rfl, rfl⟩ := List.cons.inj split'
          refine ⟨blanks ++ c :: more, by simpa using split, fun {bound rest'} below _ => ?_⟩
          have stops : skipSpace (blanks ++ c :: (more ++ rest')) = c :: (more ++ rest') :=
            skips (.inr rfl)
          simp only [List.length_append, List.length_cons] at below
          simp only [List.append_assoc, List.cons_append, scanClosed, stops, goesOn]
          exact finds (by simp only [List.length_cons]; omega) (by simp)
  · cases read

theorem rereads_scanEntry {key : Scanner κ} {value : κ → Scanner α} {again : κ → Nat → Scanner α}
    (keys : ∀ text, FindsAgain key text) (values : ∀ k, Rereads alike (value k) (again k)) :
    Rereads alike (scanEntry key value) fun bound => scanEntry key fun k => again k bound := by
  intro text rest entry read
  unfold scanEntry at read
  split at read
  · next afterQuote =>
      split at read
      · cases read
      next k afterKey found =>
        split at read
        · next afterColon stands =>
            obtain ⟨⟨v, rest'⟩, found', same⟩ := Option.map_eq_some_iff.mp read
            obtain ⟨rfl, rfl⟩ := Prod.mk.inj same
            obtain ⟨usedKey, rfl, keyAgain⟩ := keys _ found
            obtain ⟨blanks, split, skips⟩ := skipSpace_again afterKey
            obtain ⟨blanks', split', skips'⟩ := skipSpace_again afterColon
            obtain ⟨used, split'', finds⟩ := values k found'
            rw [stands] at split skips
            rw [split''] at split' skips'
            refine ⟨'"' :: (usedKey ++ (blanks ++ ':' :: (blanks' ++ used))), ?_,
              fun {bound rest''} below follows => ?_⟩
            · rw [split, split']
              simp
            · simp only [List.length_append, List.length_cons] at below
              have colon : skipSpace (blanks ++ ':' :: (blanks' ++ (used ++ rest''))) =
                  ':' :: (blanks' ++ (used ++ rest'')) := skips (.inr rfl)
              have within : used.length < bound := by omega
              simp only [List.cons_append, List.append_assoc, scanEntry, keyAgain, colon,
                skips' (.append used follows), finds within follows, Option.map_some]
        · cases read
  · cases read

end Items

/-! ### Numbers -/

theorem endsWell_of_startsAlike {literal : NumberLiteral} {rest rest' : List Char}
    (alike : StartsAlike rest rest') (ends : endsWell literal rest = true) :
    endsWell literal rest' = true := by
  rcases alike with rfl | first
  · rfl
  · cases rest' with
    | nil => rfl
    | cons c more =>
        cases rest with
        | nil => cases first
        | cons d more' =>
            obtain rfl := Option.some.inj first
            exact ends

theorem endsBefore_of_startsAlike {literal : NumberLiteral} {rest rest' : List Char}
    (alike : StartsAlike rest rest') (ends : literal.EndsBefore rest) :
    literal.EndsBefore rest' := by
  refine ⟨fun c first => ?_, endsWell_of_startsAlike alike ends.2⟩
  rcases alike with rfl | same
  · cases first
  · exact ends.1 c (same ▸ first)

/-- The characters that numbers start with. -/
def startsNumber (c : Char) : Bool := c.isDigit || c == '-'

/-- The characters that a number may go on with. -/
def continuesNumber (c : Char) : Bool := c.isDigit || c == '.' || c == 'e' || c == 'E'

/-- A text before which every number ends. -/
def BreaksNumber (text : List Char) : Prop := ∀ c ∈ text.head?, continuesNumber c = false

theorem endsBefore_of_breaksNumber {literal : NumberLiteral} {rest : List Char}
    (breaks : BreaksNumber rest) : literal.EndsBefore rest := by
  cases rest with
  | nil => exact ⟨nofun, rfl⟩
  | cons c more =>
      have plain := breaks c rfl
      simp only [continuesNumber, Bool.or_eq_false_iff] at plain
      obtain ⟨⟨⟨noDigit, noPoint⟩, noLower⟩, noUpper⟩ := plain
      exact ⟨.cons noDigit, by simp [endsWell, noDigit, noPoint, noLower, noUpper, bne]⟩

/-- What may follow a number when it is read again: what starts like the text that followed it
first, or what no number goes on with. -/
def afterNumber {α : Type} : Following α := fun _ rest rest' =>
  StartsAlike rest rest' ∨ BreaksNumber rest'

theorem scanLiteral_again {text rest : List Char} {literal : NumberLiteral}
    (read : NumberLiteral.scan text = some (literal, rest)) (ends : endsWell literal rest = true) :
    ∃ c more, startsNumber c = true ∧ text = c :: more ++ rest ∧
      ∀ {rest'}, afterNumber literal rest rest' →
        NumberLiteral.scan (c :: more ++ rest') = some (literal, rest') ∧
          endsWell literal rest' = true := by
  obtain ⟨c, more, starts, split, before, again⟩ := NumberLiteral.scan_again read ends
  refine ⟨c, more, by simpa [startsNumber] using starts, split, fun {rest'} follows => ?_⟩
  have before' : literal.EndsBefore rest' := by
    rcases follows with alike | breaks
    · exact endsBefore_of_startsAlike alike before
    · exact endsBefore_of_breaksNumber breaks
  exact ⟨again before', before'.2⟩

theorem scanNumber_again {text rest : List Char} {value : Json}
    (read : scanNumber text = some (value, rest)) : (∃ n, value = .number n) ∧
      ∃ c more, startsNumber c = true ∧ text = c :: more ++ rest ∧
        ∀ {rest'}, afterNumber value rest rest' →
          scanNumber (c :: more ++ rest') = some (value, rest') := by
  unfold scanNumber at read
  split at read
  · cases read
  next literal rest'' found =>
    split at read
    · next ends =>
        obtain ⟨n, isNumber, same⟩ := Option.map_eq_some_iff.mp read
        obtain ⟨rfl, rfl⟩ := Prod.mk.inj same
        obtain ⟨c, more, starts, split, again⟩ := scanLiteral_again found ends
        refine ⟨⟨n, rfl⟩, c, more, starts, split, fun follows => ?_⟩
        obtain ⟨found', ends'⟩ := again follows
        simp only [scanNumber, found', ends', if_true, isNumber, Option.map_some]
    · cases read

theorem skipNumber_again {text rest : List Char} (read : skipNumber text = some ((), rest)) :
    ∃ c more, startsNumber c = true ∧ text = c :: more ++ rest ∧
      ∀ {rest'}, StartsAlike rest rest' → skipNumber (c :: more ++ rest') = some ((), rest') := by
  unfold skipNumber at read
  split at read
  · next literal rest'' found =>
      split at read
      · next ends =>
          obtain ⟨_, rfl⟩ := Prod.mk.inj (Option.some.inj read)
          obtain ⟨c, more, starts, split, again⟩ := scanLiteral_again found ends
          refine ⟨c, more, starts, split, fun alike => ?_⟩
          obtain ⟨found', ends'⟩ := again (.inl alike)
          simp only [skipNumber, found', ends', if_true]
      · cases read
  · cases read

/-! ### Values -/

/-- Behind a value that is no number, anything may follow. -/
def afterValue : Following Json := fun value rest rest' =>
  (∃ n, value = .number n) → afterNumber value rest rest'

theorem Rereads.mono {following stricter : Following α} {scan : Scanner α} {again : Nat → Scanner α}
    (rereads : Rereads following scan again)
    (allows : ∀ {value rest rest'}, stricter value rest rest' → following value rest rest') :
    Rereads stricter scan again := fun read =>
  have ⟨used, split, finds⟩ := rereads read
  ⟨used, split, fun below follows => finds below (allows follows)⟩

theorem ne_of_startsNumber {c d : Char} (starts : startsNumber c = true)
    (other : startsNumber d = false) : c ≠ d := by
  rintro rfl
  exact Bool.false_ne_true (other.symm.trans starts)

theorem scanScalar_number {c : Char} (starts : startsNumber c = true) (text : List Char) :
    scanScalar (c :: text) = scanNumber (c :: text) := by
  have apart (d : Char) (other : startsNumber d = false) : c ≠ d := ne_of_startsNumber starts other
  simp [scanScalar, apart 'n' rfl, apart 't' rfl, apart 'f' rfl, apart '"' rfl]

theorem scanScalar_again {text rest : List Char} {value : Json}
    (read : scanScalar text = some (value, rest)) :
    ∃ c more, text = c :: more ++ rest ∧ ∀ {rest'}, afterValue value rest rest' →
      scanScalar (c :: more ++ rest') = some (value, rest') := by
  unfold scanScalar at read
  split at read
  · obtain ⟨rfl, rfl⟩ := Prod.mk.inj (Option.some.inj read)
    exact ⟨'n', ['u', 'l', 'l'], rfl, fun _ => rfl⟩
  · obtain ⟨rfl, rfl⟩ := Prod.mk.inj (Option.some.inj read)
    exact ⟨'t', ['r', 'u', 'e'], rfl, fun _ => rfl⟩
  · obtain ⟨rfl, rfl⟩ := Prod.mk.inj (Option.some.inj read)
    exact ⟨'f', ['a', 'l', 's', 'e'], rfl, fun _ => rfl⟩
  · next afterQuote =>
      obtain ⟨⟨chars, rest'⟩, found, same⟩ := Option.map_eq_some_iff.mp read
      obtain ⟨rfl, rfl⟩ := Prod.mk.inj same
      obtain ⟨used, rfl, again⟩ := findsAgain_scanString _ found
      refine ⟨'"', used, rfl, fun _ => ?_⟩
      simp only [List.cons_append, scanScalar, again, Option.map_some]
  · obtain ⟨isNumber, c, more, starts, split, again⟩ := scanNumber_again read
    exact ⟨c, more, split, fun follows =>
      (scanScalar_number starts _).trans (again (follows isNumber))⟩

theorem scanValue_scalar {c : Char} (noBracket : c ≠ '[') (noBrace : c ≠ '\x7b') (depth : Nat)
    (text : List Char) : scanValue depth (c :: text) = scanScalar (c :: text) := by
  cases depth <;> simp [scanValue, noBracket, noBrace]

/-- A scalar that is read as a value is read again as one. -/
theorem scanValue_scalar_again (depth : Nat) {text rest : List Char} {value : Json}
    (noBracket : ∀ more, text = '[' :: more → False)
    (noBrace : ∀ more, text = '\x7b' :: more → False)
    (read : scanScalar text = some (value, rest)) :
    ∃ used, text = used ++ rest ∧ ∀ {bound : Nat} {rest'}, used.length < bound →
      afterValue value rest rest' → scanValue depth (used ++ rest') = some (value, rest') := by
  obtain ⟨c, more, rfl, again⟩ := scanScalar_again read
  refine ⟨c :: more, rfl, fun _ follows => (scanValue_scalar ?_ ?_ _ _).trans (again follows)⟩
  · rintro rfl
    exact noBracket _ rfl
  · rintro rfl
    exact noBrace _ rfl

theorem rereads_scanValue (depth : Nat) :
    Rereads afterValue (scanValue depth) fun _ => scanValue depth := by
  induction depth with
  | zero =>
      intro text rest value read
      unfold scanValue at read
      split at read
      · cases read
      · cases read
      · next noBracket noBrace => exact scanValue_scalar_again 0 noBracket noBrace read
  | succ depth ih =>
      have below : Rereads alike (scanValue depth) fun _ => scanValue depth :=
        ih.mono fun follows _ => .inl follows
      intro text rest value read
      unfold scanValue at read
      split at read
      · next afterBracket =>
          obtain ⟨used, rfl, finds⟩ := Rereads.map (rereads_scanClosed below ']') Json.array read
          exact ⟨'[' :: used, rfl, fun within _ => finds (Nat.lt_of_succ_lt within) trivial⟩
      · next afterBrace =>
          have entry : Rereads alike (scanEntry scanKey fun _ => scanValue depth)
              fun _ => scanEntry scanKey fun _ => scanValue depth :=
            rereads_scanEntry findsAgain_scanKey fun _ => below
          obtain ⟨used, rfl, finds⟩ := Rereads.map (rereads_scanClosed entry '\x7d')
            (fun entries => Json.object (Dictionary.ofList entries)) read
          exact ⟨'\x7b' :: used, rfl, fun within _ => finds (Nat.lt_of_succ_lt within) trivial⟩
      · next noBracket noBrace => exact scanValue_scalar_again (depth + 1) noBracket noBrace read

/-! ### Skipped values -/

theorem skipValue_number {c : Char} (starts : startsNumber c = true) (depth : Nat)
    (text : List Char) : skipValue (depth + 1) (c :: text) = skipNumber (c :: text) := by
  have apart (d : Char) (other : startsNumber d = false) : c ≠ d := ne_of_startsNumber starts other
  simp [skipValue, apart 'n' rfl, apart 't' rfl, apart 'f' rfl, apart '"' rfl, apart '[' rfl,
    apart '\x7b' rfl]

/-- A value is skipped again, and it is never nested deeper than it is long. -/
theorem rereads_skipValue (depth : Nat) : Rereads alike (skipValue depth) skipValue := by
  induction depth with
  | zero => exact nofun
  | succ depth ih =>
      intro text rest value read
      have positive {length bound : Nat} (within : length < bound) : ∃ depth, bound = depth + 1 :=
        ⟨bound - 1, by omega⟩
      unfold skipValue at read
      split at read
      · obtain ⟨rfl, rfl⟩ := Prod.mk.inj (Option.some.inj read)
        refine ⟨['n', 'u', 'l', 'l'], rfl, fun within _ => ?_⟩
        obtain ⟨bound, rfl⟩ := positive within
        rfl
      · obtain ⟨rfl, rfl⟩ := Prod.mk.inj (Option.some.inj read)
        refine ⟨['t', 'r', 'u', 'e'], rfl, fun within _ => ?_⟩
        obtain ⟨bound, rfl⟩ := positive within
        rfl
      · obtain ⟨rfl, rfl⟩ := Prod.mk.inj (Option.some.inj read)
        refine ⟨['f', 'a', 'l', 's', 'e'], rfl, fun within _ => ?_⟩
        obtain ⟨bound, rfl⟩ := positive within
        rfl
      · next afterQuote =>
          obtain ⟨used, rfl, again⟩ := findsAgain_skipString _ read
          refine ⟨'"' :: used, rfl, fun {_ rest'} within _ => ?_⟩
          obtain ⟨bound, rfl⟩ := positive within
          exact again rest'
      · next afterBracket =>
          obtain ⟨used, rfl, finds⟩ := Rereads.map (rereads_scanClosed ih ']') (fun _ => ()) read
          refine ⟨'[' :: used, rfl, fun within _ => ?_⟩
          obtain ⟨bound, rfl⟩ := positive within
          exact finds (Nat.lt_of_succ_lt_succ within) trivial
      · next afterBrace =>
          have entry : Rereads alike (scanEntry skipString fun _ => skipValue depth)
              fun bound => scanEntry skipString fun _ => skipValue bound :=
            rereads_scanEntry findsAgain_skipString fun _ => ih
          obtain ⟨used, rfl, finds⟩ :=
            Rereads.map (rereads_scanClosed entry '\x7d') (fun _ => ()) read
          refine ⟨'\x7b' :: used, rfl, fun within _ => ?_⟩
          obtain ⟨bound, rfl⟩ := positive within
          exact finds (Nat.lt_of_succ_lt_succ within) trivial
      · obtain ⟨c, more, starts, split, again⟩ := skipNumber_again read
        refine ⟨c :: more, split, fun {_ rest'} within follows => ?_⟩
        obtain ⟨bound, rfl⟩ := positive within
        exact (skipValue_number starts _ _).trans (again follows)

end Json

end ElmClient
