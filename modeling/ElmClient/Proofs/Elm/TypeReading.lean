/-
Module: ElmClient.Proofs.Elm.TypeReading
Purpose: The text of a type tells which Elm type it is. A reader of type expressions finds in the
  text of every type the applications and records that the type stands for, with every argument at
  its own level of parentheses, so types with the same text stand for the same expression.
Main exports: Text.IsUnbroken, Elm.TypeReading, TypeExpr.reading, TypeExpr.NamesUnbroken,
  TypeExpr.Applies, TypeExpr.applicationInduction, TypeReading.step, TypeReading.read,
  TypeExpr.read_text, TypeExpr.text_unambiguous
-/
import ElmClient.Elm.TypeText
import ElmClient.Proofs.Elm.References
import ElmClient.Proofs.QueryText.Reading

namespace ElmClient

/-! ### Names in types -/

namespace Text

/-- The characters of types that stand between names. -/
def delimiters : List Char := [' ', '(', ')', '\x7b', '\x7d', ',', ':', '|']

/-- A name that is not empty and has no delimiter in it, as identifiers and dotted names are. -/
def IsUnbroken (name : String) : Prop := name.toList ≠ [] ∧ ∀ c ∈ name.toList, c ∉ delimiters

instance (name : String) : Decidable (IsUnbroken name) :=
  inferInstanceAs (Decidable (_ ∧ _))

theorem mapByRuns_bounds {runs : List (Nat × Nat × Nat × Nat)} {n image : Nat}
    (found : mapByRuns runs n = some image) :
    ∃ run ∈ runs, run.2.2.2 ≤ image ∧ image ≤ run.2.2.2 + (run.2.1 - run.1) := by
  induction runs with
  | nil => simp [mapByRuns] at found
  | cons run rest ih =>
      obtain ⟨first, last, step, start⟩ := run
      rw [mapByRuns] at found
      split at found
      · next inside =>
          obtain rfl := Option.some.inj found
          simp only [Bool.and_eq_true, decide_eq_true_eq] at inside
          exact ⟨_, List.mem_cons_self, Nat.le_add_right .., by simp only; omega⟩
      · obtain ⟨run, member, bounds⟩ := ih found
        exact ⟨run, List.mem_cons_of_mem _ member, bounds⟩

theorem toNat_ofNat_cases (n : Nat) : (Char.ofNat n).toNat = n ∨ (Char.ofNat n).toNat = 0 := by
  by_cases valid : n.isValidChar
  · exact .inl (congrArg Char.toNat (dif_pos valid))
  · exact .inr (congrArg Char.toNat (dif_neg valid))

/-- No run of upper case letters crosses a delimiter. -/
theorem upperRuns_avoid_delimiters : ∀ run ∈ upperRuns, ∀ c ∈ delimiters,
    run.2.2.2 + (run.2.1 - run.1) < c.toNat ∨ c.toNat < run.2.2.2 := by
  decide +kernel

theorem upperExpansions_avoid_delimiters : ∀ entry ∈ upperExpansions,
    entry.2 ≠ [] ∧ ∀ n ∈ entry.2, Char.ofNat n ∉ delimiters := by
  decide +kernel

theorem toUpper_avoids_delimiters : ∀ n < 0x80,
    (Char.ofNat n).toUpper ∈ delimiters → Char.ofNat n ∈ delimiters := by
  decide +kernel

/-- The upper case of what is no delimiter is not empty and has no delimiter in it. -/
theorem upperChar_avoids_delimiters {c : Char} (outside : c ∉ delimiters) :
    upperChar c ≠ [] ∧ ∀ d ∈ upperChar c, d ∉ delimiters := by
  unfold upperChar mapCase
  split
  · next small =>
      have kept := toUpper_avoids_delimiters c.toNat small
      rw [Char.ofNat_toNat] at kept
      simpa using fun delimiter => outside (kept delimiter)
  · split
    · next image found =>
        obtain ⟨run, member, low, high⟩ := mapByRuns_bounds found
        refine ⟨by simp, fun d among delimiter => ?_⟩
        obtain rfl := List.mem_singleton.mp among
        have apart := upperRuns_avoid_delimiters run member _ delimiter
        have positive := (by decide : ∀ c ∈ delimiters, c.toNat ≠ 0) _ delimiter
        rcases toNat_ofNat_cases image with same | zero <;> omega
    · split
      · next images found =>
          obtain ⟨before, after, entries, -⟩ := List.lookup_eq_some_iff.mp found
          obtain ⟨filled, outside⟩ :=
            upperExpansions_avoid_delimiters (c.toNat, images) (by simp [entries])
          exact ⟨by simpa using filled, by simpa using outside⟩
      · simpa using outside

/-- A change to upper case keeps names unbroken. -/
theorem IsUnbroken.capitalize {name : String} (unbroken : IsUnbroken name) :
    IsUnbroken (Text.capitalize name) := by
  obtain ⟨filled, outside⟩ := unbroken
  unfold Text.capitalize
  split
  · next letters => exact absurd letters filled
  · next c rest letters =>
      rw [letters] at outside
      obtain ⟨first, others⟩ := List.forall_mem_cons.mp outside
      obtain ⟨some_, images⟩ := upperChar_avoids_delimiters first
      rw [IsUnbroken, String.toList_ofList]
      refine ⟨by simp [some_], fun d among => ?_⟩
      rcases List.mem_append.mp among with here | later
      · exact images d here
      · exact others d later

theorem IsUnbroken.openAlias {name : String} (unbroken : IsUnbroken name) :
    IsUnbroken (Name.openAlias name) := by
  obtain ⟨filled, outside⟩ := unbroken.capitalize
  rw [IsUnbroken, Name.openAlias, String.toList_append]
  refine ⟨by simp, fun c among => ?_⟩
  rcases List.mem_append.mp among with here | last
  · exact outside c here
  · exact (show ∀ c ∈ "_".toList, c ∉ delimiters by decide) c last

end Text

namespace Elm

open Text (delimiters IsUnbroken)

/-! ### What types stand for -/

/-- An expression of the type language of Elm. -/
inductive TypeReading where
  | applied (name : String) (arguments : List TypeReading)
  | record (row : Option String) (fields : List (String × TypeReading))
deriving Repr, Inhabited

namespace TypeExpr

/-- What a record stands for. One that only has a row variable is that variable. -/
def recordReading (row : Option String) (fields : List (String × TypeReading)) : TypeReading :=
  match row, fields with
  | some row, [] => .applied row []
  | row, fields => .record row fields

mutual

/-- The expression that a type stands for: scalars, enumerations, named types, lists, optional types,
unions, extensions and applications are all a name with arguments. -/
def reading : TypeExpr → TypeReading
  | .scalar s => .applied s.name []
  | .enum name => .applied (Text.capitalize name) []
  | .named name => .applied name []
  | .list item => .applied "List" [item.reading]
  | .optional inner => .applied "Maybe" [inner.reading]
  | .record fields row => recordReading row (fieldReadings fields)
  | .union name arguments => .applied name (variantReadings arguments)
  | .extend fragment base => .applied (Name.openAlias fragment) [base.reading]
  | .app constructor arguments => .applied constructor (argumentReadings arguments)
termination_by structural type => type

/-- The expressions of fields by their names. -/
def fieldReadings : List (String × TypeExpr) → List (String × TypeReading)
  | [] => []
  | (name, type) :: rest => (name, type.reading) :: fieldReadings rest
termination_by structural fields => fields

/-- The expressions of the arguments of a union. -/
def variantReadings : List (String × TypeExpr) → List TypeReading
  | [] => []
  | (_, type) :: rest => type.reading :: variantReadings rest
termination_by structural variants => variants

/-- The expressions of arguments. -/
def argumentReadings : List TypeExpr → List TypeReading
  | [] => []
  | type :: rest => type.reading :: argumentReadings rest
termination_by structural types => types

end

/-- The names that a type holds itself, beside those of the types in it. The members of a union are
not named in its type. -/
def ownNames : TypeExpr → List String
  | .scalar _ | .list _ | .optional _ => []
  | .enum name | .named name => [name]
  | .record fields row => row.toList ++ fields.map (·.1)
  | .union name _ => [name]
  | .extend fragment _ => [fragment]
  | .app constructor _ => [constructor]

/-- All names in a type are unbroken. -/
def NamesUnbroken (type : TypeExpr) : Prop :=
  type.Each fun node => ∀ name ∈ node.ownNames, IsUnbroken name

/-- A type that is no record is an Elm name with arguments. -/
inductive Applies : TypeExpr → String → List TypeExpr → Prop where
  | scalar (s : Scalar) : Applies (.scalar s) s.name []
  | enum (name : String) : Applies (.enum name) (Text.capitalize name) []
  | named (name : String) : Applies (.named name) name []
  | list (item : TypeExpr) : Applies (.list item) "List" [item]
  | optional (inner : TypeExpr) : Applies (.optional inner) "Maybe" [inner]
  | row (row : String) : Applies (.record [] (some row)) row []
  | union (name : String) (arguments : List (String × TypeExpr)) :
      Applies (.union name arguments) name (arguments.map (·.2))
  | extend (fragment : String) (base : TypeExpr) :
      Applies (.extend fragment base) (Name.openAlias fragment) [base]
  | app (constructor : String) (arguments : List TypeExpr) :
      Applies (.app constructor arguments) constructor arguments

theorem argumentReadings_eq_map (arguments : List TypeExpr) :
    argumentReadings arguments = arguments.map reading := by
  induction arguments with
  | nil => rfl
  | cons first rest ih => rw [argumentReadings, ih, List.map_cons]

theorem variantReadings_eq_map (arguments : List (String × TypeExpr)) :
    variantReadings arguments = (arguments.map (·.2)).map reading := by
  induction arguments with
  | nil => rfl
  | cons first rest ih => rw [variantReadings, ih, List.map_cons, List.map_cons]

theorem argumentTexts_eq_map (arguments : List TypeExpr) :
    argumentTexts arguments = arguments.map argumentText := by
  induction arguments with
  | nil => rfl
  | cons first rest ih => rw [argumentTexts, ih, List.map_cons, argumentText]

theorem variantTexts_eq_map (arguments : List (String × TypeExpr)) :
    variantTexts arguments = (arguments.map (·.2)).map argumentText := by
  induction arguments with
  | nil => rfl
  | cons first rest ih => rw [variantTexts, ih, List.map_cons, List.map_cons, argumentText]

variable {type : TypeExpr} {name : String} {arguments : List TypeExpr}

theorem Applies.text_eq (applies : type.Applies name arguments) :
    type.text = applied name (arguments.map argumentText) := by
  cases applies with
  | union => rw [text, variantTexts_eq_map]
  | app => rw [text, argumentTexts_eq_map]
  | _ => rfl

theorem Applies.reading_eq (applies : type.Applies name arguments) :
    type.reading = .applied name (arguments.map reading) := by
  cases applies with
  | union => rw [reading, variantReadings_eq_map]
  | app => rw [reading, argumentReadings_eq_map]
  | _ => rfl

/-- What takes arguments gets parentheses. -/
theorem Applies.arguments_eq_nil (applies : type.Applies name arguments)
    (atomic : type.isAtomic = true) : arguments = [] := by
  cases applies with
  | app => exact List.isEmpty_iff.mp atomic
  | list | optional | union | extend => cases atomic
  | _ => rfl

theorem Applies.isUnbroken (applies : type.Applies name arguments)
    (unbroken : type.NamesUnbroken) : IsUnbroken name := by
  have own := unbroken type .here
  cases applies with
  | scalar s => cases s <;> decide
  | list | optional => decide
  | enum name => exact (own name List.mem_cons_self).capitalize
  | extend fragment => exact (own fragment List.mem_cons_self).openAlias
  | _ => exact own _ List.mem_cons_self

theorem Applies.namesUnbroken (applies : type.Applies name arguments)
    (unbroken : type.NamesUnbroken) : ∀ argument ∈ arguments, argument.NamesUnbroken := by
  intro argument member node inside
  refine unbroken node ?_
  cases applies with
  | list => exact .list (List.mem_singleton.mp member ▸ inside)
  | optional => exact .optional (List.mem_singleton.mp member ▸ inside)
  | extend => exact .extend (List.mem_singleton.mp member ▸ inside)
  | app => exact .app member inside
  | union =>
      obtain ⟨entry, among, rfl⟩ := List.mem_map.mp member
      exact .union among inside
  | _ => cases member

/-- Induction over types as applications and records. -/
theorem applicationInduction {motive : TypeExpr → Prop}
    (application : ∀ {type name arguments}, type.Applies name arguments →
      (∀ argument ∈ arguments, motive argument) → motive type)
    (record : ∀ fields row, (row = none ∨ fields ≠ []) →
      (∀ field ∈ fields, motive field.2) → motive (.record fields row))
    (type : TypeExpr) : motive type :=
  @TypeExpr.rec motive (fun fields => ∀ field ∈ fields, motive field.2)
    (fun arguments => ∀ argument ∈ arguments, motive argument) (fun field => motive field.2)
    (fun s => application (.scalar s) (by simp)) (fun name => application (.enum name) (by simp))
    (fun name => application (.named name) (by simp))
    (fun item holds => application (.list item) (by simpa using holds))
    (fun inner holds => application (.optional inner) (by simpa using holds))
    (fun fields row each =>
      match fields, row with
      | [], some row => application (.row row) (by simp)
      | [], none => record [] none (.inl rfl) each
      | first :: rest, row => record (first :: rest) row (.inr (List.cons_ne_nil _ _)) each)
    (fun name arguments each => application (.union name arguments) (List.forall_mem_map.mpr each))
    (fun fragment base holds => application (.extend fragment base) (by simpa using holds))
    (fun constructor arguments each => application (.app constructor arguments) each)
    (by simp) (fun _ _ first others => List.forall_mem_cons.mpr ⟨first, others⟩)
    (by simp) (fun _ _ first others => List.forall_mem_cons.mpr ⟨first, others⟩)
    (fun _ _ holds => holds) type

end TypeExpr

/-! ### Tokens of the type language -/

/-- A name, or a delimiter that is not a blank. -/
inductive TypeToken where
  | word (name : String)
  | mark (c : Char)
deriving DecidableEq, Repr

namespace TypeToken

/-- The name that ends here, if one is under way. -/
def pending (word : List Char) : List TypeToken :=
  if word.isEmpty then [] else [.word (String.ofList word)]

/-- The token of a delimiter. Blanks only separate. -/
def ofDelimiter (c : Char) : List TypeToken := if c == ' ' then [] else [.mark c]

/-- The tokens of a text, of which a part of a name has been read. -/
def lex (word : List Char) : List Char → List TypeToken
  | [] => pending word
  | c :: rest =>
      if c ∈ delimiters then pending word ++ (ofDelimiter c ++ lex [] rest)
      else lex (word ++ [c]) rest

end TypeToken

/-- A text that does not go on with a name. -/
def Bounded (rest : List Char) : Prop := ∀ c ∈ rest.head?, c ∈ delimiters

theorem Bounded.cons {c : Char} (delimiter : c ∈ delimiters) (rest : List Char) :
    Bounded (c :: rest) := by
  simpa [Bounded] using delimiter

namespace TypeToken

theorem lex_word {letters : List Char} (outside : ∀ c ∈ letters, c ∉ delimiters)
    (word rest : List Char) : lex word (letters ++ rest) = lex (word ++ letters) rest := by
  induction letters generalizing word with
  | nil => simp
  | cons c more ih =>
      obtain ⟨here, later⟩ := List.forall_mem_cons.mp outside
      rw [List.cons_append, lex, if_neg here, ih later, List.append_assoc, List.singleton_append]

theorem lex_bounded {rest : List Char} (bounded : Bounded rest) (word : List Char) :
    lex word rest = pending word ++ lex [] rest := by
  cases rest with
  | nil => simp [lex, pending]
  | cons c more =>
      have delimiter : c ∈ delimiters := bounded c rfl
      rw [lex, if_pos delimiter, lex, if_pos delimiter]
      rfl

theorem lex_name {name : String} {rest : List Char} (unbroken : IsUnbroken name)
    (bounded : Bounded rest) : lex [] (name.toList ++ rest) = .word name :: lex [] rest := by
  rw [lex_word unbroken.2, List.nil_append, lex_bounded bounded]
  simp [pending, unbroken.1]

end TypeToken

/-! ### Reading expressions -/

namespace TypeReading

/-- What has been read of an expression: nothing, a name with arguments that may go on, or an
expression that takes no arguments. -/
inductive Phrase where
  | empty
  | applied (name : String) (arguments : List TypeReading)
  | whole (reading : TypeReading)
deriving Repr

namespace Phrase

/-- The expression, if anything has been read. -/
def reading : Phrase → Option TypeReading
  | .empty => none
  | .applied name arguments => some (.applied name arguments)
  | .whole reading => some reading

/-- A name starts an expression or is an argument. -/
def addWord (name : String) : Phrase → Option Phrase
  | .empty => some (.applied name [])
  | .applied head arguments => some (.applied head (arguments ++ [.applied name []]))
  | .whole _ => none

/-- A record or what stands in parentheses is all of an expression or an argument. -/
def add (inner : TypeReading) : Phrase → Option Phrase
  | .empty => some (.whole inner)
  | .applied head arguments => some (.applied head (arguments ++ [inner]))
  | .whole _ => none

end Phrase

/-- Where a reader is: in an expression, before the name of a field or a row variable, or in a field
after its name. -/
inductive Frame where
  | expression (phrase : Phrase)
  | fields (row : Option String) (done : List (String × TypeReading))
  | field (row : Option String) (done : List (String × TypeReading)) (name : String)
deriving Repr

/-- Takes one token, with the innermost place first. -/
def step : List Frame → TypeToken → Option (List Frame)
  | .expression phrase :: outer, .word name =>
      (phrase.addWord name).map (.expression · :: outer)
  | .fields row done :: outer, .word name => some (.field row done name :: outer)
  | .expression phrase :: outer, .mark '(' =>
      some (.expression .empty :: .expression phrase :: outer)
  | .expression inner :: .expression phrase :: outer, .mark ')' => do
      let reading ← inner.reading
      (phrase.add reading).map (.expression · :: outer)
  | .expression phrase :: outer, .mark '\x7b' =>
      some (.fields none [] :: .expression phrase :: outer)
  | .fields none [] :: .expression phrase :: outer, .mark '\x7d' =>
      (phrase.add (.record none [])).map (.expression · :: outer)
  | .field none [] name :: outer, .mark '|' => some (.fields (some name) [] :: outer)
  | .field row done name :: outer, .mark ':' =>
      some (.expression .empty :: .field row done name :: outer)
  | .expression inner :: .field row done name :: outer, .mark ',' => do
      let reading ← inner.reading
      some (.fields row (done ++ [(name, reading)]) :: outer)
  | .expression inner :: .field row done name :: .expression phrase :: outer, .mark '\x7d' => do
      let reading ← inner.reading
      (phrase.add (.record row (done ++ [(name, reading)]))).map (.expression · :: outer)
  | _, _ => none

/-- Reads a text from some place on. -/
def scan (frames : List Frame) (text : List Char) : Option (List Frame) :=
  (TypeToken.lex [] text).foldlM step frames

/-- The expression that a text is, if it is one. -/
def read (text : String) : Option TypeReading :=
  match scan [.expression .empty] text.toList with
  | some [.expression phrase] => phrase.reading
  | _ => none

variable {frames : List Frame} {rest : List Char} {name : String}

/-- A colon after the name of a field starts its type, whichever field it is. -/
theorem step_colon (row : Option String) (done : List (String × TypeReading)) :
    step (.field row done name :: frames) (.mark ':') =
      some (.expression .empty :: .field row done name :: frames) := by
  cases row <;> cases done <;> rfl

theorem scan_blank : scan frames (' ' :: rest) = scan frames rest := rfl

theorem scan_mark {c : Char} (mark : c ∈ delimiters ∧ c ≠ ' ') :
    scan frames (c :: rest) = (step frames (.mark c)).bind (scan · rest) := by
  simp [scan, TypeToken.lex, mark.1, TypeToken.pending, TypeToken.ofDelimiter, mark.2]

theorem scan_name (unbroken : IsUnbroken name) (bounded : Bounded rest) :
    scan frames (name.toList ++ rest) = (step frames (.word name)).bind (scan · rest) := by
  rw [scan, TypeToken.lex_name unbroken bounded]
  rfl

end TypeReading

/-! ### The text of a type is its expression -/

namespace TypeExpr

open TypeReading (Frame Phrase scan scan_blank scan_mark scan_name)

/-- A reader takes the text of a type for its expression, and as an argument for one argument. -/
structure ReadsBack (type : TypeExpr) : Prop where
  alone (frames : List Frame) {rest : List Char} (bounded : Bounded rest) :
    ∃ phrase : Phrase, phrase.reading = some type.reading ∧
      scan (.expression .empty :: frames) (type.text.toList ++ rest) =
        scan (.expression phrase :: frames) rest
  asArgument (frames : List Frame) (head : String) (done : List TypeReading) {rest : List Char}
    (bounded : Bounded rest) :
    scan (.expression (.applied head done) :: frames) (type.argumentText.toList ++ rest) =
      scan (.expression (.applied head (done ++ [type.reading])) :: frames) rest

variable {type : TypeExpr} {name : String} {arguments : List TypeExpr} {rest : List Char}

/-- Parentheses make one argument of what they enclose. -/
theorem scan_parenthesized (frames : List Frame) (head : String) (done : List TypeReading)
    {text : List Char} {reading : TypeReading}
    (alone : ∀ frames {rest}, Bounded rest → ∃ phrase : Phrase, phrase.reading = some reading ∧
      scan (.expression .empty :: frames) (text ++ rest) =
        scan (.expression phrase :: frames) rest) :
    scan (.expression (.applied head done) :: frames) ('(' :: (text ++ ')' :: rest)) =
      scan (.expression (.applied head (done ++ [reading])) :: frames) rest := by
  rw [scan_mark (by decide)]
  obtain ⟨phrase, found, inside⟩ :=
    alone (.expression (.applied head done) :: frames) (.cons (by decide : ')' ∈ delimiters) rest)
  calc scan (.expression .empty :: .expression (.applied head done) :: frames) (text ++ ')' :: rest)
      = scan (.expression phrase :: .expression (.applied head done) :: frames) (')' :: rest) :=
        inside
    _ = scan (.expression (.applied head (done ++ [reading])) :: frames) rest := by
        rw [scan_mark (by decide)]
        simp [TypeReading.step, found, Phrase.add]

theorem bounded_arguments (arguments : List TypeExpr) (bounded : Bounded rest) :
    Bounded (arguments.flatMap (fun argument => ' ' :: argument.argumentText.toList) ++ rest) := by
  cases arguments with
  | nil => exact bounded
  | cons first others => exact .cons (by decide) _

/-- Arguments are taken one after another. -/
theorem scan_arguments (each : ∀ argument ∈ arguments, argument.ReadsBack) (frames : List Frame)
    (head : String) (done : List TypeReading) (bounded : Bounded rest) :
    scan (.expression (.applied head done) :: frames)
        (arguments.flatMap (fun argument => ' ' :: argument.argumentText.toList) ++ rest) =
      scan (.expression (.applied head (done ++ arguments.map reading)) :: frames) rest := by
  induction arguments generalizing done with
  | nil => simp
  | cons first others ih =>
      obtain ⟨here, later⟩ := List.forall_mem_cons.mp each
      rw [List.flatMap_cons, List.append_assoc, List.cons_append, scan_blank,
        here.asArgument frames head done (bounded_arguments others bounded), ih later]
      simp

theorem toList_applied (name : String) (arguments : List TypeExpr) :
    (applied name (arguments.map argumentText)).toList =
      name.toList ++ arguments.flatMap fun argument => ' ' :: argument.argumentText.toList := by
  rw [applied, String.toList_intercalate, List.map_cons, GraphQL.Reader.intercalate_cons,
    List.map_map, List.flatMap_map]
  rfl

theorem toList_parenthesized (text : String) (rest : List Char) :
    ("(" ++ text ++ ")").toList ++ rest = '(' :: (text.toList ++ ')' :: rest) := by
  simp

theorem Applies.readsBack (applies : type.Applies name arguments) (unbroken : IsUnbroken name)
    (each : ∀ argument ∈ arguments, argument.ReadsBack) : type.ReadsBack := by
  have alone : ∀ frames {rest}, Bounded rest → ∃ phrase : Phrase,
      phrase.reading = some type.reading ∧
        scan (.expression .empty :: frames) (type.text.toList ++ rest) =
          scan (.expression phrase :: frames) rest := by
    intro frames rest bounded
    refine ⟨.applied name (arguments.map reading), by rw [applies.reading_eq]; rfl, ?_⟩
    rw [applies.text_eq, toList_applied, List.append_assoc,
      scan_name unbroken (bounded_arguments arguments bounded)]
    exact scan_arguments each frames name [] bounded
  refine ⟨alone, fun frames head done rest bounded => ?_⟩
  rw [argumentText, asArgument]
  cases atomic : type.isAtomic with
  | false => rw [if_neg Bool.false_ne_true, toList_parenthesized, scan_parenthesized _ _ _ alone]
  | true =>
      obtain rfl := applies.arguments_eq_nil atomic
      rw [if_pos rfl, applies.text_eq, applies.reading_eq]
      exact scan_name unbroken bounded

/-- A field is its name and its type. -/
theorem scan_field (unbroken : IsUnbroken name) (readsBack : type.ReadsBack) (frames : List Frame)
    (row : Option String) (done : List (String × TypeReading)) (bounded : Bounded rest) :
    ∃ phrase : Phrase, phrase.reading = some type.reading ∧
      scan (.fields row done :: frames) ((name ++ " : " ++ type.text).toList ++ rest) =
        scan (.expression phrase :: .field row done name :: frames) rest := by
  obtain ⟨phrase, found, inside⟩ := readsBack.alone (.field row done name :: frames) bounded
  refine ⟨phrase, found, ?_⟩
  have split : (name ++ " : " ++ type.text).toList ++ rest =
      name.toList ++ ' ' :: ':' :: ' ' :: (type.text.toList ++ rest) := by simp
  calc scan (.fields row done :: frames) ((name ++ " : " ++ type.text).toList ++ rest)
      = scan (.field row done name :: frames) (':' :: ' ' :: (type.text.toList ++ rest)) := by
        rw [split, scan_name unbroken (.cons (by decide) _)]
        rfl
    _ = scan (.expression .empty :: .field row done name :: frames) (type.text.toList ++ rest) := by
        rw [scan_mark (by decide), TypeReading.step_colon]
        rfl
    _ = scan (.expression phrase :: .field row done name :: frames) rest := inside

/-- Fields up to the closing brace make a record. -/
theorem scan_fields {first : String × TypeExpr} {others : List (String × TypeExpr)}
    (unbroken : ∀ field ∈ first :: others, IsUnbroken field.1)
    (each : ∀ field ∈ first :: others, field.2.ReadsBack) (frames : List Frame) (phrase : Phrase)
    (row : Option String) (done : List (String × TypeReading)) :
    scan (.fields row done :: .expression phrase :: frames)
        ((", ".intercalate (fieldTexts (first :: others))).toList ++ ' ' :: '\x7d' :: rest) =
      ((phrase.add (.record row (done ++ fieldReadings (first :: others)))).map
        (.expression · :: frames)).bind (scan · rest) := by
  induction others generalizing first done with
  | nil =>
      obtain ⟨inner, found, inside⟩ := scan_field (unbroken _ List.mem_cons_self)
        (each _ List.mem_cons_self) (.expression phrase :: frames) row done
        (.cons (by decide : ' ' ∈ delimiters) ('\x7d' :: rest))
      calc scan (.fields row done :: .expression phrase :: frames)
            ((first.1 ++ " : " ++ first.2.text).toList ++ ' ' :: '\x7d' :: rest)
          = scan (.expression inner :: .field row done first.1 :: .expression phrase :: frames)
              ('\x7d' :: rest) := inside
        _ = _ := by
            rw [scan_mark (by decide)]
            simp [TypeReading.step, found, fieldReadings]
  | cons second others ih =>
      obtain ⟨here, later⟩ := List.forall_mem_cons.mp each
      obtain ⟨named, laterNamed⟩ := List.forall_mem_cons.mp unbroken
      have comma : (", ".intercalate (fieldTexts (first :: second :: others))).toList =
          (first.1 ++ " : " ++ first.2.text).toList ++
            ',' :: ' ' :: (", ".intercalate (fieldTexts (second :: others))).toList := by
        rw [fieldTexts, fieldTexts, String.intercalate_cons_cons]
        simp
      obtain ⟨inner, found, inside⟩ := scan_field named here (.expression phrase :: frames) row done
        (.cons (by decide : ',' ∈ delimiters)
          (' ' :: (", ".intercalate (fieldTexts (second :: others))).toList ++
            ' ' :: '\x7d' :: rest))
      calc scan (.fields row done :: .expression phrase :: frames)
            ((", ".intercalate (fieldTexts (first :: second :: others))).toList ++
              ' ' :: '\x7d' :: rest)
          = scan (.expression inner :: .field row done first.1 :: .expression phrase :: frames)
              (',' :: ' ' :: (", ".intercalate (fieldTexts (second :: others))).toList ++
                ' ' :: '\x7d' :: rest) := by
            rw [comma, List.append_assoc]
            exact inside
        _ = scan (.fields row (done ++ [(first.1, first.2.reading)]) :: .expression phrase :: frames)
              ((", ".intercalate (fieldTexts (second :: others))).toList ++
                ' ' :: '\x7d' :: rest) := by
            rw [List.cons_append, scan_mark (by decide)]
            simp [TypeReading.step, found, scan_blank]
        _ = _ := by
            rw [ih laterNamed later]
            simp [fieldReadings]

/-- The text of a record that is no lone row variable. -/
theorem scan_record {fields : List (String × TypeExpr)} {row : Option String}
    (proper : row = none ∨ fields ≠ []) (unbroken : ∀ name ∈ row, IsUnbroken name)
    (unbrokenFields : ∀ field ∈ fields, IsUnbroken field.1)
    (each : ∀ field ∈ fields, field.2.ReadsBack) (frames : List Frame) (phrase : Phrase) :
    scan (.expression phrase :: frames) ((TypeExpr.record fields row).text.toList ++ rest) =
      ((phrase.add (.record row (fieldReadings fields))).map
        (.expression · :: frames)).bind (scan · rest) := by
  cases fields with
  | nil =>
      obtain rfl := proper.resolve_right (· rfl)
      rfl
  | cons first others =>
      rw [text]
      cases row with
      | none =>
          have opened : (recordText none (fieldTexts (first :: others))).toList ++ rest =
              '\x7b' :: ' ' :: ((", ".intercalate (fieldTexts (first :: others))).toList ++
                ' ' :: '\x7d' :: rest) := by
            simp [recordText, fieldTexts]
          rw [opened, scan_mark (by decide)]
          exact scan_fields unbrokenFields each frames phrase none []
      | some row =>
          have opened : (recordText (some row) (fieldTexts (first :: others))).toList ++ rest =
              '\x7b' :: ' ' :: (row.toList ++ ' ' :: '|' :: ' ' ::
                ((", ".intercalate (fieldTexts (first :: others))).toList ++
                  ' ' :: '\x7d' :: rest)) := by
            simp [recordText, fieldTexts]
          rw [opened, scan_mark (by decide)]
          change scan (.fields none [] :: .expression phrase :: frames) (row.toList ++ _) = _
          rw [scan_name (unbroken row rfl) (.cons (by decide) _)]
          exact scan_fields unbrokenFields each frames phrase (some row) []

theorem readsBack_record {fields : List (String × TypeExpr)} {row : Option String}
    (proper : row = none ∨ fields ≠ []) (unbroken : (TypeExpr.record fields row).NamesUnbroken)
    (each : ∀ field ∈ fields, field.2.ReadsBack) : (TypeExpr.record fields row).ReadsBack := by
  have own := unbroken _ .here
  have named : ∀ name ∈ row, IsUnbroken name := fun name among =>
    own name (List.mem_append_left _ (Option.mem_toList.mpr among))
  have namedFields : ∀ field ∈ fields, IsUnbroken field.1 := fun field among =>
    own field.1 (List.mem_append_right _ (List.mem_map_of_mem among))
  have stands : (TypeExpr.record fields row).reading = .record row (fieldReadings fields) := by
    rcases proper with rfl | filled
    · rfl
    · obtain ⟨first, others, rfl⟩ := List.exists_cons_of_ne_nil filled
      cases row <;> rfl
  constructor
  · intro frames rest bounded
    exact ⟨.whole _, rfl, by rw [scan_record proper named namedFields each, stands]; rfl⟩
  · intro frames head done rest bounded
    have bare : (TypeExpr.record fields row).argumentText = (TypeExpr.record fields row).text := rfl
    rw [bare, scan_record proper named namedFields each, stands]
    rfl

/-- Every type reads back, alone and as an argument. -/
theorem NamesUnbroken.readsBack (unbroken : type.NamesUnbroken) : type.ReadsBack := by
  induction type using applicationInduction with
  | application applies ih =>
      exact applies.readsBack (applies.isUnbroken unbroken) fun argument member =>
        ih argument member (applies.namesUnbroken unbroken argument member)
  | record fields row proper ih =>
      exact readsBack_record proper unbroken fun field member =>
        ih field member fun node inside => unbroken node (.record member inside)

/-- The text of a type is the text of the expression that it stands for. -/
theorem read_text (unbroken : type.NamesUnbroken) :
    TypeReading.read type.text = some type.reading := by
  have ends : Bounded [] := by simp [Bounded]
  obtain ⟨phrase, found, inside⟩ := unbroken.readsBack.alone [] ends
  rw [List.append_nil] at inside
  rw [TypeReading.read, inside]
  exact found

/-- The text of a type is unambiguous: its parentheses group what the type groups, and types with
the same text stand for the same expression. -/
theorem text_unambiguous {first second : TypeExpr} (unbroken : first.NamesUnbroken)
    (unbroken' : second.NamesUnbroken) :
    TypeReading.read first.text = some first.reading ∧
      (first.text = second.text → first.reading = second.reading) := by
  refine ⟨read_text unbroken, fun same => ?_⟩
  have found : some first.reading = some second.reading := by
    rw [← read_text unbroken, ← read_text unbroken', same]
  exact Option.some.inj found

/-- A list of optional values of an enumeration, by its own constructors and as applications. -/
theorem colors_text_unambiguous :
    (TypeExpr.list (.optional (.enum "color"))).NamesUnbroken ∧
      (TypeExpr.app "List" [.app "Maybe" [.record [] (some "Color")]]).NamesUnbroken ∧
      (TypeExpr.list (.optional (.enum "color"))).text =
        (TypeExpr.app "List" [.app "Maybe" [.record [] (some "Color")]]).text ∧
      (TypeExpr.list (.optional (.enum "color"))).reading =
        (TypeExpr.app "List" [.app "Maybe" [.record [] (some "Color")]]).reading := by
  have direct : (TypeExpr.list (.optional (.enum "color"))).NamesUnbroken :=
    Each.wrap (by simp [ownNames]) (by simp [ownNames]) [.list, .optional]
      (.enum (by simp only [ownNames]; decide))
  have applications :
      (TypeExpr.app "List" [.app "Maybe" [.record [] (some "Color")]]).NamesUnbroken := by
    refine .app (by simp only [ownNames]; decide) (List.forall_mem_singleton.mpr ?_)
    refine .app (by simp only [ownNames]; decide) (List.forall_mem_singleton.mpr ?_)
    exact .record (by simp only [ownNames]; decide) (by simp)
  have same : (TypeExpr.list (.optional (.enum "color"))).text =
      (TypeExpr.app "List" [.app "Maybe" [.record [] (some "Color")]]).text := by
    decide +kernel
  exact ⟨direct, applications, same, (text_unambiguous direct applications).2 same⟩

end TypeExpr

end Elm

end ElmClient
