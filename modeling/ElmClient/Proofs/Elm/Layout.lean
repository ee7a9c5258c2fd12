/-
Module: ElmClient.Proofs.Elm.Layout
Purpose: The lines of decoders. Wherever unions nest, every line of a decoder but its first is
  indented deeper than the line on which it starts, and the branches of every union stand below one
  another with nothing in between that is not indented deeper than their patterns.
Main exports: Text.lines, Text.indentation, Text.Hangs, Decoder.NamesFlat, Decoder.WritesUnion,
  IsBranch, Decoder.hangs_code, Decoder.code_layout
-/
import ElmClient.Proofs.Elm.References
import ElmClient.Proofs.Elm.TypeReading
import ElmClient.Proofs.Elm.Literals

namespace ElmClient

namespace Text

/-! ### Lines and indentation -/

/-- The lines of a text. -/
def lines (text : List Char) : List (List Char) := text.splitOn '\n'

/-- How many spaces a line starts with. -/
def indentation (line : List Char) : Nat := (line.takeWhile (· == ' ')).length

/-- A line without anything but spaces. -/
def IsEmptyLine (line : List Char) : Prop := ∀ c ∈ line, c = ' '

/-- A line that is empty or indented by a number of columns at least. -/
def IsIndented (column : Nat) (line : List Char) : Prop :=
  IsEmptyLine line ∨ column ≤ indentation line

/-- After every new line in a text comes another new line or an indentation. -/
inductive Hangs (column : Nat) : List Char → Prop where
  | nil : Hangs column []
  | cons {c rest}
      (starts : c = '\n' → List.replicate column ' ' <+: rest ∨ rest.head? = some '\n')
      (more : Hangs column rest) : Hangs column (c :: rest)

variable {column : Nat} {first second text rest line : List Char}

theorem lines_append (first second : List Char) :
    lines (first ++ '\n' :: second) = lines first ++ lines second :=
  List.splitOn_append_cons_self first second

theorem lines_of_flat (flat : '\n' ∉ text) : lines text = [text] := List.splitOn_eq_singleton flat

theorem lines_cons (c : Char) (rest : List Char) :
    lines (c :: rest) = if c == '\n' then [] :: lines rest else (lines rest).modifyHead (c :: ·) :=
  List.splitOn_cons_eq_if_modifyHead c rest

theorem exists_lines (text : List Char) : ∃ line below, lines text = line :: below :=
  List.exists_cons_of_ne_nil (List.splitOn_ne_nil '\n' text)

theorem IsIndented.mono {fewer : Nat} (indented : IsIndented column line) (le : fewer ≤ column) :
    IsIndented fewer line :=
  indented.imp_right (Nat.le_trans le)

theorem Hangs.append (one : Hangs column first) (two : Hangs column second) :
    Hangs column (first ++ second) := by
  induction one with
  | nil => exact two
  | cons starts more ih =>
      refine .cons (fun newLine => ?_) ih
      rcases starts newLine with indented | another
      · exact .inl (indented.trans (List.prefix_append _ _))
      · exact .inr (by simp [another])

theorem hangs_of_flat (flat : '\n' ∉ text) : Hangs column text := by
  induction text with
  | nil => exact .nil
  | cons c rest ih =>
      obtain ⟨here, later⟩ := not_or.mp (mt List.mem_cons.mpr flat)
      exact .cons (fun newLine => absurd newLine.symm here) (ih later)

theorem spaces_startWith {fewer : Nat} (le : fewer ≤ column) (rest : List Char) :
    List.replicate fewer ' ' <+: List.replicate column ' ' ++ rest := by
  rw [← Nat.add_sub_cancel' le, ← List.replicate_append_replicate, List.append_assoc]
  exact List.prefix_append _ _

theorem Hangs.mono {fewer : Nat} (hangs : Hangs column text) (le : fewer ≤ column) :
    Hangs fewer text := by
  induction hangs with
  | nil => exact .nil
  | cons starts more ih =>
      refine .cons (fun newLine => (starts newLine).imp_left ?_) ih
      rintro ⟨rest, rfl⟩
      exact spaces_startWith le rest

/-- A new line that is indented. -/
theorem Hangs.newLine {indent : Nat} (hangs : Hangs column rest) (le : column ≤ indent) :
    Hangs column ('\n' :: (List.replicate indent ' ' ++ rest)) :=
  .cons (fun _ => .inl (spaces_startWith le rest)) (.append (hangs_of_flat (by simp)) hangs)

/-- An empty line. -/
theorem Hangs.emptyLine (hangs : Hangs column rest) (another : rest.head? = some '\n') :
    Hangs column ('\n' :: rest) :=
  .cons (fun _ => .inr another) hangs

theorem indentation_append (column : Nat) (rest : List Char) :
    indentation (List.replicate column ' ' ++ rest) = column + indentation rest := by
  have all : ∀ c ∈ List.replicate column ' ', (c == ' ') = true := by simp
  rw [indentation, List.takeWhile_append_of_pos all, List.length_append, List.length_replicate]
  rfl

/-- What stands on one line before a text comes before its first line. -/
theorem lines_flat_append (flat : '\n' ∉ first) {below : List (List Char)}
    (split : lines second = line :: below) :
    lines (first ++ second) = (first ++ line) :: below := by
  induction first with
  | nil => exact split
  | cons c rest ih =>
      obtain ⟨here, later⟩ := not_or.mp (mt List.mem_cons.mpr flat)
      have plain : (c == '\n') = false := beq_eq_false_iff_ne.mpr (Ne.symm here)
      rw [List.cons_append, lines_cons, plain, ih later]
      rfl

/-- The first line of a text that starts with an indentation or a new line. -/
theorem isIndented_of_mem_head?
    (starts : List.replicate column ' ' <+: text ∨ text.head? = some '\n') :
    ∀ line ∈ (lines text).head?, IsIndented column line := by
  intro line first
  rcases starts with ⟨rest, rfl⟩ | newLine
  · obtain ⟨more, below, split⟩ := exists_lines rest
    rw [lines_flat_append (by simp) split] at first
    obtain rfl := Option.some.inj first
    exact .inr (indentation_append column more ▸ Nat.le_add_right _ _)
  · cases text with
    | nil => cases newLine
    | cons c rest =>
        obtain rfl := Option.some.inj newLine
        obtain rfl := Option.some.inj first
        exact .inl (by simp [IsEmptyLine])

/-- All lines of a hanging text but the first are indented. -/
theorem Hangs.isIndented (hangs : Hangs column text) :
    ∀ line ∈ (lines text).tail, IsIndented column line := by
  induction hangs with
  | nil => simp [lines]
  | @cons c rest starts more ih =>
      obtain ⟨line, below, split⟩ := exists_lines rest
      have later : ∀ line ∈ below, IsIndented column line := by
        simpa [split] using ih
      rw [lines_cons]
      split
      · next newLine =>
          have head : IsIndented column line :=
            isIndented_of_mem_head? (starts (beq_iff_eq.mp newLine)) line (by rw [split]; rfl)
          rw [List.tail_cons, split]
          exact List.forall_mem_cons.mpr ⟨head, later⟩
      · rw [split]
        exact later

/-- All lines of a hanging text that starts with an indentation are indented. -/
theorem Hangs.all_isIndented (hangs : Hangs column text)
    (starts : List.replicate column ' ' <+: text) :
    ∀ line ∈ lines text, IsIndented column line := by
  have head := isIndented_of_mem_head? (.inl starts)
  have tail := hangs.isIndented
  obtain ⟨line, below, split⟩ := exists_lines text
  rw [split] at head tail ⊢
  exact List.forall_mem_cons.mpr ⟨head line rfl, tail⟩

/-! ### Names on one line -/

/-- A text on one line. -/
def IsFlat (text : String) : Prop := '\n' ∉ text.toList

instance (text : String) : Decidable (IsFlat text) := inferInstanceAs (Decidable (¬ _))

theorem IsFlat.append {first second : String} (one : IsFlat first) (two : IsFlat second) :
    IsFlat (first ++ second) := by
  rw [IsFlat, String.toList_append, List.mem_append]
  exact not_or.mpr ⟨one, two⟩

theorem IsFlat.intercalate {separator : String} (flat : IsFlat separator) {texts : List String}
    (each : ∀ text ∈ texts, IsFlat text) : IsFlat (separator.intercalate texts) := by
  induction texts with
  | nil => simp [IsFlat]
  | cons text texts ih =>
      obtain ⟨here, later⟩ := List.forall_mem_cons.mp each
      cases texts with
      | nil => simpa using here
      | cons next more =>
          rw [String.intercalate_cons_cons]
          exact (here.append flat).append (ih later)

theorem isFlat_stringLiteral (value : String) : IsFlat (Elm.stringLiteral value) :=
  @Elm.Literal.newLine_notMem_text (.short value) (by simp)

theorem lowerRuns_above_newLine : ∀ run ∈ lowerRuns, '\n'.toNat < run.2.2.2 := by
  decide +kernel

theorem lowerExpansions_flat : ∀ entry ∈ lowerExpansions, ∀ n ∈ entry.2, Char.ofNat n ≠ '\n' := by
  decide +kernel

theorem toLower_ne_newLine : ∀ n < 0x80, Char.ofNat n ≠ '\n' → (Char.ofNat n).toLower ≠ '\n' := by
  decide +kernel

/-- No other character has the new line in its lower case. -/
theorem newLine_notMem_lowerChar {c : Char} (plain : c ≠ '\n') : '\n' ∉ lowerChar c := by
  unfold lowerChar mapCase
  split
  · next small =>
      have kept := toLower_ne_newLine c.toNat small
      rw [Char.ofNat_toNat] at kept
      simpa using (kept plain).symm
  · split
    · next image found =>
        obtain ⟨run, member, low, -⟩ := mapByRuns_bounds found
        have above := lowerRuns_above_newLine run member
        intro same
        have code := congrArg Char.toNat (List.mem_singleton.mp same)
        have values : '\n'.toNat = 10 := rfl
        rcases toNat_ofNat_cases image with equal | zero <;> omega
    · split
      · next images found =>
          obtain ⟨before, after, entries, -⟩ := List.lookup_eq_some_iff.mp found
          have flat := lowerExpansions_flat (c.toNat, images) (by simp [entries])
          simpa using flat
      · simpa using plain.symm

theorem newLine_notMem_lowerRest {before : List Char} (flat : '\n' ∉ text) :
    '\n' ∉ lowerRest before text := by
  induction text generalizing before with
  | nil => simp [lowerRest]
  | cons c rest ih =>
      obtain ⟨here, later⟩ := not_or.mp (mt List.mem_cons.mpr flat)
      rw [lowerRest, List.mem_append]
      refine not_or.mpr ⟨?_, ih later⟩
      split
      · split <;> decide
      · exact newLine_notMem_lowerChar (Ne.symm here)

theorem IsFlat.enumDecoder {name : String} (flat : IsFlat name) :
    IsFlat (Name.enumDecoder name) := by
  refine IsFlat.append ?_ (by decide)
  rw [IsFlat, lowercase, String.toList_ofList]
  exact newLine_notMem_lowerRest flat

end Text

namespace Elm

open Text (lines exists_lines indentation IsIndented IsFlat)

/-! ### Code that hangs -/

namespace Code

/-- Code whose text hangs. -/
def Hangs (column : Nat) (code : Code) : Prop := Text.Hangs column code.text.toList

variable {column : Nat} {code first second : Code} {pieces : List Code}

theorem Hangs.append (one : first.Hangs column) (two : second.Hangs column) :
    (first ++ second).Hangs column := by
  rw [Hangs, text_append, String.toList_append]
  exact Text.Hangs.append one two

theorem hangs_plain {text : String} (flat : IsFlat text) : (Code.plain text).Hangs column :=
  Text.hangs_of_flat flat

theorem hangs_literal (value : String) : (Code.literal value).Hangs column :=
  Text.hangs_of_flat (Text.isFlat_stringLiteral value)

theorem Hangs.lambda {parameters : List String} (flat : ∀ name ∈ parameters, IsFlat name)
    (body : code.Hangs column) : (Code.lambda parameters code).Hangs column := by
  have opened : IsFlat ("(\\" ++ " ".intercalate parameters ++ " ->") :=
    ((by decide : IsFlat "(\\").append (.intercalate (by decide) flat)).append (by decide)
  rw [Hangs, text, String.toList_append, String.toList_append]
  exact ((Text.hangs_of_flat opened).append body).append (Text.hangs_of_flat (by decide))

theorem Hangs.concat (each : ∀ piece ∈ pieces, piece.Hangs column) :
    (concat pieces).Hangs column := by
  induction pieces with
  | nil => exact .nil
  | cons piece others ih =>
      obtain ⟨here, later⟩ := List.forall_mem_cons.mp each
      exact here.append (ih later)

end Code

open Code (hangs_plain hangs_literal)

variable {column : Nat} {code : Code}

theorem toList_newLine (indent : Nat) :
    (newLine indent).text.toList = '\n' :: List.replicate indent ' ' := by
  simp [newLine, Code.text, spaces]

theorem Code.Hangs.newLine {indent : Nat} (hangs : code.Hangs column) (le : column ≤ indent) :
    (Elm.newLine indent ++ code).Hangs column := by
  rw [Hangs, text_append, String.toList_append, toList_newLine]
  exact Text.Hangs.newLine hangs le

theorem Code.Hangs.inParentheses (hangs : code.Hangs column) :
    (Elm.inParentheses code).Hangs column :=
  ((hangs_plain (by decide)).append hangs).append (hangs_plain (by decide))

/-! ### Names in decoders -/

/-- The name that a constructor is written with. -/
def Constructor.names : Constructor → List String
  | .recordAlias name | .tagged name => [name]
  | .anonymous => []

/-- The names in the code of a record decoder, beside those in the decoders of its fields. -/
def RecordOf.names (r : RecordDecoder) : List String := r.constructor.names ++ fieldNames r.fields

/-- The names that a decoder is written with, beside those of the decoders in it. -/
def Decoder.ownNames : Decoder → List String
  | .enum name => [name]
  | .record r => r.names
  | .union _ cases => cases.flatMap (·.2.names)
  | _ => []

/-- No name in a decoder goes over several lines. -/
def Decoder.NamesFlat (decoder : Decoder) : Prop :=
  decoder.Each fun node => ∀ name ∈ node.ownNames, IsFlat name

theorem isFlat_fieldParameter {name : String} (flat : IsFlat name) : IsFlat (fieldParameter name) :=
  flat.append (by decide)

theorem isFlat_recordOfParameters {names : List String} (flat : ∀ name ∈ names, IsFlat name) :
    IsFlat (recordOfParameters names) := by
  refine .append (.append (by decide) (.intercalate (by decide) ?_)) (by decide)
  refine List.forall_mem_map.mpr fun name member => ?_
  have here := flat name member
  exact (here.append (by decide)).append (isFlat_fieldParameter here)

/-! ### Every line of a decoder is indented -/

theorem Constructor.hangs_code {constructor : Constructor} {names : List String}
    (flat : ∀ name ∈ constructor.names ++ names, IsFlat name) :
    (constructor.code names).Hangs column := by
  obtain ⟨own, fields⟩ := List.forall_mem_append.mp flat
  have parameters : ∀ name ∈ names.map fieldParameter, IsFlat name :=
    List.forall_mem_map.mpr fun name member => isFlat_fieldParameter (fields name member)
  have made := isFlat_recordOfParameters fields
  cases constructor with
  | recordAlias name => exact hangs_plain (own name List.mem_cons_self)
  | anonymous => exact .lambda parameters (hangs_plain (.append (by decide) made))
  | tagged name =>
      have tag := own name List.mem_cons_self
      exact .lambda parameters
        (hangs_plain (.append (.append (.append (by decide) tag) (by decide)) made))

theorem Constructor.isFlat_emptyText {constructor : Constructor}
    (flat : ∀ name ∈ constructor.names, IsFlat name) : IsFlat constructor.emptyText := by
  cases constructor with
  | recordAlias | anonymous => exact (by decide : IsFlat "\x7b\x7d")
  | tagged name =>
      exact .append (.append (by decide) (flat name List.mem_cons_self)) (by decide)

theorem Decoder.hangs_recordCode {indent : Nat} {r : RecordDecoder}
    (flat : ∀ name ∈ r.names, IsFlat name)
    (each : ∀ field ∈ r.fields, (field.2.code indent).Hangs column) :
    (Decoder.recordCode indent r).Hangs column := by
  obtain ⟨constructor, fields⟩ := r
  rw [Decoder.recordCode, Decoder.fieldCodes_eq_map]
  cases fields with
  | nil =>
      have own := (List.forall_mem_append.mp flat).1
      exact hangs_plain (.append (by decide) (Constructor.isFlat_emptyText own))
  | cons first rest =>
      obtain ⟨here, later⟩ := List.forall_mem_cons.mp each
      have applied : ∀ piece ∈ (rest.map fun field => field.2.code indent).map
          (.plain " |> apply " ++ · : Code → Code), piece.Hangs column := by
        rw [List.map_map]
        exact List.forall_mem_map.mpr fun field member =>
          (hangs_plain (by decide)).append (later field member)
      exact (hangs_plain (by decide)).append ((Constructor.hangs_code flat).append
        ((hangs_plain (by decide)).append (here.append (.concat applied))))

/-! ### The text of a union -/

/-- The line on which a branch of a case expression starts. -/
def patternLine (column : Nat) (pattern : String) : List Char :=
  List.replicate column ' ' ++ (pattern ++ " ->").toList

/-- A branch: the line of its pattern, which stands in a column, and its body below. -/
def branchText (column : Nat) (pattern : String) (body : List Char) : List Char :=
  patternLine column pattern ++
    '\n' :: (List.replicate (column + indentStep) ' ' ++ body)

/-- The start of a union on a line with an indentation, up to its branches. -/
def unionOpening (start : Nat) : List Char :=
  ("field " ++ stringLiteral typenameKey ++ " string").toList ++
    '\n' :: (List.replicate (start + 4) ' ' ++ "|> andThen".toList ++
      '\n' :: (List.replicate (start + 8) ' ' ++ "(\\typename ->".toList ++
        '\n' :: (List.replicate (start + 12) ' ' ++ "case typename of".toList)))

/-- The last line of a union, which closes its lambda. -/
def unionClosing (start : Nat) : List Char := List.replicate (start + 8) ' ' ++ [')']

/-- The text of a branch for one of the members of a union. -/
def memberBranch (start : Nat) (entry : String × RecordDecoder) : List Char :=
  branchText (caseIndent start) (stringLiteral entry.1)
    ((Decoder.recordCode (caseIndent start + indentStep) entry.2).text.toList ++ ['\n'])

/-- The text of the branch for all other types. -/
def otherBranch (start : Nat) : List Char :=
  branchText (caseIndent start) "_" ("fail " ++ stringLiteral "Unexpected union type").toList

/-- The branches of a union. -/
def unionBranches (start : Nat) (cases : List (String × RecordDecoder)) : List (List Char) :=
  cases.map (memberBranch start) ++ [otherBranch start]

/-- The text of a union, without the parentheses around it. -/
def unionText (start : Nat) (cases : List (String × RecordDecoder)) : List Char :=
  (unionCode start (Decoder.caseCodes start cases)).text.toList

theorem toList_caseCode (start : Nat) (tag : String) (code : Code) :
    (caseCode start tag code).text.toList =
      '\n' :: branchText (caseIndent start) (stringLiteral tag) (code.text.toList ++ ['\n']) := by
  simp [caseCode, branchText, patternLine, toList_newLine, Code.text]

theorem toList_otherCaseCode (start : Nat) :
    (otherCaseCode start).text.toList = '\n' :: otherBranch start := by
  simp [otherCaseCode, otherBranch, branchText, patternLine, toList_newLine, Code.text]

theorem toList_caseCodes (start : Nat) (cases : List (String × RecordDecoder)) :
    (Code.concat (Decoder.caseCodes start cases)).text.toList =
      (cases.map (memberBranch start)).flatMap ('\n' :: ·) := by
  rw [Decoder.caseCodes_eq_map]
  induction cases with
  | nil => rfl
  | cons entry rest ih =>
      rw [List.map_cons, List.map_cons, List.flatMap_cons, ← ih]
      exact (String.toList_append ..).trans (congrArg (· ++ _) (toList_caseCode _ _ _))

/-- A union is its start, its branches and its end, each on lines of its own. -/
theorem unionText_eq (start : Nat) (cases : List (String × RecordDecoder)) :
    unionText start cases =
      unionOpening start ++ (unionBranches start cases).flatMap ('\n' :: ·) ++
        '\n' :: unionClosing start := by
  simp [unionCode, unionText, unionBranches, unionOpening, unionClosing, Code.text, toList_newLine,
    toList_caseCodes, toList_otherCaseCode, indentStep]

section Branches

variable {column start : Nat} {pattern : String} {body rest : List Char}
  {cases : List (String × RecordDecoder)}

theorem hangs_branchText (le : column ≤ start) (flat : IsFlat pattern)
    (hangs : Text.Hangs column (body ++ rest)) :
    Text.Hangs column ('\n' :: (branchText start pattern body ++ rest)) := by
  have split : '\n' :: (branchText start pattern body ++ rest) =
      '\n' :: (List.replicate start ' ' ++ ((pattern ++ " ->").toList ++
        '\n' :: (List.replicate (start + indentStep) ' ' ++ (body ++ rest)))) := by
    simp [branchText, patternLine]
  have below : Text.Hangs column
      ('\n' :: (List.replicate (start + indentStep) ' ' ++ (body ++ rest))) :=
    hangs.newLine (Nat.le_trans le (Nat.le_add_right _ _))
  have arrow : IsFlat (pattern ++ " ->") := flat.append (by decide)
  rw [split]
  exact ((Text.hangs_of_flat arrow).append below).newLine le

/-- Every member's branch is followed by an empty line. -/
theorem hangs_memberBranches (le : column ≤ caseIndent start)
    (each : ∀ entry ∈ cases,
      (Decoder.recordCode (caseIndent start + indentStep) entry.2).Hangs column)
    (more : Text.Hangs column rest) (newLine : rest.head? = some '\n') :
    Text.Hangs column ((cases.map (memberBranch start)).flatMap ('\n' :: ·) ++ rest) := by
  induction cases with
  | nil => exact more
  | cons entry others ih =>
      obtain ⟨here, later⟩ := List.forall_mem_cons.mp each
      rw [List.map_cons, List.flatMap_cons, List.append_assoc, List.cons_append]
      refine hangs_branchText le (Text.isFlat_stringLiteral _) ?_
      rw [List.append_assoc]
      refine Text.Hangs.append here ((ih later).emptyLine ?_)
      cases others with
      | nil => exact newLine
      | cons => rfl

theorem hangs_unionOpening (start : Nat) :
    Text.Hangs (start + indentStep) (unionOpening start) := by
  have within {further : Nat} (le : indentStep ≤ further) : start + indentStep ≤ start + further :=
    Nat.add_le_add_left le start
  have fieldLine : IsFlat ("field " ++ stringLiteral typenameKey ++ " string") :=
    ((by decide : IsFlat "field ").append (Text.isFlat_stringLiteral _)).append (by decide)
  simp only [unionOpening, List.append_assoc]
  refine Text.Hangs.append (Text.hangs_of_flat fieldLine) ?_
  refine Text.Hangs.newLine ?_ (within (by decide))
  refine Text.Hangs.append (Text.hangs_of_flat (by decide)) ?_
  refine Text.Hangs.newLine ?_ (within (by decide))
  refine Text.Hangs.append (Text.hangs_of_flat (by decide)) ?_
  exact Text.Hangs.newLine (Text.hangs_of_flat (by decide)) (within (by decide))

theorem hangs_unionText
    (each : ∀ entry ∈ cases,
      (Decoder.recordCode (caseIndent start + indentStep) entry.2).Hangs (start + indentStep)) :
    Text.Hangs (start + indentStep) (unionText start cases) := by
  have deeper : start + indentStep ≤ caseIndent start := Nat.add_le_add_left (by decide) start
  have closing : Text.Hangs (start + indentStep) ('\n' :: unionClosing start) :=
    Text.Hangs.newLine (Text.hangs_of_flat (by decide)) (Nat.add_le_add_left (by decide) start)
  have failure : IsFlat ("fail " ++ stringLiteral "Unexpected union type") :=
    (by decide : IsFlat "fail ").append (Text.isFlat_stringLiteral _)
  have other : Text.Hangs (start + indentStep)
      ('\n' :: (otherBranch start ++ '\n' :: unionClosing start)) :=
    hangs_branchText deeper (by decide) (Text.Hangs.append (Text.hangs_of_flat failure) closing)
  have split : unionText start cases = unionOpening start ++
      ((cases.map (memberBranch start)).flatMap ('\n' :: ·) ++
        '\n' :: (otherBranch start ++ '\n' :: unionClosing start)) := by
    simp [unionText_eq, unionBranches]
  rw [split]
  exact (hangs_unionOpening start).append (hangs_memberBranches deeper each other rfl)

end Branches

theorem Decoder.NamesFlat.hangs_member {name : String} {cases : List (String × RecordDecoder)}
    (flat : (Decoder.union name cases).NamesFlat) {entry : String × RecordDecoder}
    (chosen : entry ∈ cases) {indent : Nat}
    (each : ∀ field ∈ entry.2.fields, field.2.NamesFlat → (field.2.code indent).Hangs column) :
    (Decoder.recordCode indent entry.2).Hangs column := by
  have own : ∀ name ∈ entry.2.names, IsFlat name := fun name among =>
    flat _ .here name (List.mem_flatMap.mpr ⟨entry, chosen, among⟩)
  exact Decoder.hangs_recordCode own fun field among =>
    each field among fun node inside => flat node (.union chosen among inside)

theorem Scalar.isFlat_decoderText (s : Scalar) : IsFlat s.decoderText := by cases s <;> decide

/-- Every line of a decoder after the first is indented. -/
theorem Decoder.hangs_code {decoder : Decoder} (flat : decoder.NamesFlat) (indent : Nat) :
    (decoder.code indent).Hangs (indent + indentStep) := by
  induction decoder using Decoder.induction generalizing indent with
  | scalar s => exact hangs_plain s.isFlat_decoderText
  | enum name => exact hangs_plain (flat _ .here name List.mem_cons_self).enumDecoder
  | field wire decoder ih =>
      have below := ih (fun node inside => flat node (.field inside)) indent
      rw [Decoder.code]
      refine Code.Hangs.inParentheses (Code.Hangs.append (hangs_plain (by decide)) ?_)
      exact Code.Hangs.append (hangs_literal wire)
        (Code.Hangs.append (hangs_plain (by decide)) below)
  | optional inner ih =>
      have below := ih (fun node inside => flat node (.optional inside)) indent
      rw [Decoder.code]
      exact Code.Hangs.inParentheses (Code.Hangs.append (hangs_plain (by decide)) below)
  | list item ih =>
      have below := ih (fun node inside => flat node (.list inside)) indent
      rw [Decoder.code]
      exact Code.Hangs.inParentheses (Code.Hangs.append (hangs_plain (by decide)) below)
  | record r ih =>
      rw [Decoder.code]
      refine Code.Hangs.inParentheses
        (Decoder.hangs_recordCode (flat _ .here) fun field among => ?_)
      exact ih field among (fun node inside => flat node (.record among inside)) indent
  | union name cases ih =>
      rw [Decoder.code]
      -- The fields of a branch are indented from its body on, which is deeper than needed here.
      have deeper : indent + indentStep ≤ caseIndent indent + indentStep + indentStep := by
        simp only [caseIndent, indentStep]
        omega
      exact Code.Hangs.inParentheses (hangs_unionText fun entry chosen =>
        flat.hangs_member chosen fun field among flat =>
          (ih entry chosen field among flat _).mono deeper)

/-! ### Unions and where they are written -/

/-- A union with some cases stands in a decoder that is written on a line with an indentation, and
the union itself is then written on a line with another indentation. -/
inductive Decoder.WritesUnion (start : Nat) (cases : List (String × RecordDecoder)) :
    Nat → Decoder → Prop where
  | here {name} : WritesUnion start cases start (.union name cases)
  | field {indent wire decoder} (inside : WritesUnion start cases indent decoder) :
      WritesUnion start cases indent (.field wire decoder)
  | optional {indent inner} (inside : WritesUnion start cases indent inner) :
      WritesUnion start cases indent (.optional inner)
  | list {indent item} (inside : WritesUnion start cases indent item) :
      WritesUnion start cases indent (.list item)
  | record {indent r field} (among : field ∈ r.fields)
      (inside : WritesUnion start cases indent field.2) : WritesUnion start cases indent (.record r)
  | union {indent name others entry field} (chosen : entry ∈ others)
      (among : field ∈ entry.2.fields)
      (inside : WritesUnion start cases (caseIndent indent + indentStep) field.2) :
      WritesUnion start cases indent (.union name others)

/-- Every union in a decoder is written somewhere. -/
theorem Decoder.OccursIn.exists_writesUnion {name : String} {cases : List (String × RecordDecoder)}
    {decoder : Decoder} (inside : (Decoder.union name cases).OccursIn decoder) (indent : Nat) :
    ∃ start, decoder.WritesUnion start cases indent := by
  induction inside generalizing indent with
  | here => exact ⟨indent, .here⟩
  | field _ ih => exact (ih indent).imp fun _ => .field
  | optional _ ih => exact (ih indent).imp fun _ => .optional
  | list _ ih => exact (ih indent).imp fun _ => .list
  | record among _ ih => exact (ih indent).imp fun _ => .record among
  | union chosen among _ ih => exact (ih _).imp fun _ => .union chosen among

theorem infix_left (first second : Code) :
    first.text.toList <:+: (first ++ second).text.toList :=
  ⟨[], second.text.toList, by simp⟩

theorem infix_right (first second : Code) :
    second.text.toList <:+: (first ++ second).text.toList :=
  ⟨first.text.toList, [], by simp⟩

theorem infix_inParentheses (code : Code) :
    code.text.toList <:+: (inParentheses code).text.toList :=
  (infix_right (.plain "(") code).trans (infix_left _ _)

theorem infix_concat {piece : Code} {pieces : List Code} (member : piece ∈ pieces) :
    piece.text.toList <:+: (Code.concat pieces).text.toList := by
  induction pieces with
  | nil => cases member
  | cons first rest ih =>
      rcases List.mem_cons.mp member with rfl | later
      · exact infix_left _ _
      · exact (ih later).trans (infix_right first _)

/-- The decoders of the fields stand in the code of a record decoder. -/
theorem infix_recordCode {r : RecordDecoder} {field : String × Decoder} (indent : Nat)
    (among : field ∈ r.fields) :
    (field.2.code indent).text.toList <:+: (Decoder.recordCode indent r).text.toList := by
  obtain ⟨constructor, fields⟩ := r
  rw [Decoder.recordCode, Decoder.fieldCodes_eq_map]
  cases fields with
  | nil => cases among
  | cons first rest =>
      refine List.IsInfix.trans ?_
        ((infix_right _ _).trans ((infix_right _ _).trans (infix_right _ _)))
      rcases List.mem_cons.mp among with rfl | later
      · exact infix_left _ _
      · have applied : (field.2.code indent).text.toList <:+:
            (.plain " |> apply " ++ field.2.code indent : Code).text.toList := infix_right _ _
        refine (applied.trans (infix_concat ?_)).trans (infix_right _ _)
        exact List.mem_map.mpr ⟨_, List.mem_map.mpr ⟨field, later, rfl⟩, rfl⟩

/-- The decoders of the members stand in the text of a union. -/
theorem infix_unionText {cases : List (String × RecordDecoder)} {entry : String × RecordDecoder}
    (start : Nat) (chosen : entry ∈ cases) :
    (Decoder.recordCode (caseIndent start + indentStep) entry.2).text.toList <:+:
      unionText start cases := by
  have body : (Decoder.recordCode (caseIndent start + indentStep) entry.2).text.toList <:+:
      memberBranch start entry :=
    ⟨patternLine (caseIndent start) (stringLiteral entry.1) ++
      '\n' :: List.replicate (caseIndent start + indentStep) ' ', ['\n'],
      by simp [memberBranch, branchText]⟩
  have member : memberBranch start entry ∈ unionBranches start cases :=
    List.mem_append_left _ (List.mem_map_of_mem chosen)
  obtain ⟨before, after, branches⟩ := List.append_of_mem member
  rw [unionText_eq, branches]
  exact body.trans ⟨unionOpening start ++ before.flatMap ('\n' :: ·) ++ ['\n'],
    after.flatMap ('\n' :: ·) ++ '\n' :: unionClosing start, by simp⟩

/-- The text of a union stands in the code of each decoder that has it. -/
theorem Decoder.WritesUnion.isInfix {start indent : Nat} {cases : List (String × RecordDecoder)}
    {decoder : Decoder} (inside : decoder.WritesUnion start cases indent) :
    unionText start cases <:+: (decoder.code indent).text.toList := by
  induction inside with
  | here => exact infix_inParentheses _
  | field _ ih =>
      rw [Decoder.code]
      exact ih.trans (((infix_right _ _).trans (infix_right _ _)).trans
        ((infix_right _ _).trans (infix_inParentheses _)))
  | optional _ ih =>
      rw [Decoder.code]
      exact ih.trans ((infix_right _ _).trans (infix_inParentheses _))
  | list _ ih =>
      rw [Decoder.code]
      exact ih.trans ((infix_right _ _).trans (infix_inParentheses _))
  | record among _ ih =>
      rw [Decoder.code]
      exact ih.trans ((infix_recordCode _ among).trans (infix_inParentheses _))
  | union chosen among _ ih =>
      rw [Decoder.code]
      exact ih.trans (((infix_recordCode _ among).trans (infix_unionText _ chosen)).trans
        (infix_inParentheses _))

/-! ### The layout rule -/

/-- The lines of a branch of a case expression: its pattern stands in a column, and what comes below
is deeper or empty. -/
def IsBranch (column : Nat) (pattern : String) (branch : List (List Char)) : Prop :=
  ∃ body, branch = patternLine column pattern :: body ∧ ∀ line ∈ body, IsIndented (column + 1) line

theorem isBranch_lines {column : Nat} {pattern : String} {body : List Char} (flat : IsFlat pattern)
    (indented : ∀ line ∈ lines (List.replicate (column + indentStep) ' ' ++ body),
      IsIndented (column + 1) line) :
    IsBranch column pattern (lines (branchText column pattern body)) := by
  have first : '\n' ∉ patternLine column pattern := by
    have own : '\n' ∉ pattern.toList := flat
    simpa [patternLine] using own
  refine ⟨_, ?_, indented⟩
  rw [branchText, Text.lines_append, Text.lines_of_flat first]
  rfl

/-- The body of a branch is deeper than its pattern. -/
theorem body_isIndented_of_hangs {column : Nat} {body : List Char}
    (hangs : Text.Hangs (column + 1) body) :
    ∀ line ∈ lines (List.replicate (column + indentStep) ' ' ++ body),
      IsIndented (column + 1) line :=
  (Text.Hangs.append (Text.hangs_of_flat (by simp)) hangs).all_isIndented
    (Text.spaces_startWith (Nat.add_le_add_left (by decide) column) body)

theorem isBranch_member {start : Nat} {entry : String × RecordDecoder}
    (hangs : (Decoder.recordCode (caseIndent start + indentStep) entry.2).Hangs
      (caseIndent start + 1)) :
    IsBranch (caseIndent start) (stringLiteral entry.1) (lines (memberBranch start entry)) := by
  refine isBranch_lines (Text.isFlat_stringLiteral _) ?_
  rw [← List.append_assoc, Text.lines_append, Text.lines_of_flat List.not_mem_nil]
  refine List.forall_mem_append.mpr ⟨body_isIndented_of_hangs hangs, ?_⟩
  exact List.forall_mem_singleton.mpr (.inl fun _ member => absurd member List.not_mem_nil)

theorem isBranch_other (start : Nat) :
    IsBranch (caseIndent start) "_" (lines (otherBranch start)) := by
  have failure : IsFlat ("fail " ++ stringLiteral "Unexpected union type") :=
    (by decide : IsFlat "fail ").append (Text.isFlat_stringLiteral _)
  exact isBranch_lines (by decide) (body_isIndented_of_hangs (Text.hangs_of_flat failure))

/-- The lines of texts that each start on a new line. -/
theorem lines_flatMap (first : List Char) (texts : List (List Char)) :
    lines (first ++ texts.flatMap ('\n' :: ·)) = lines first ++ texts.flatMap lines := by
  induction texts generalizing first with
  | nil => simp
  | cons text others ih =>
      rw [List.flatMap_cons, List.flatMap_cons, ← List.append_assoc, ih, Text.lines_append,
        List.append_assoc]

/-- The names in a union that stands in a decoder do not go over several lines. -/
theorem Decoder.WritesUnion.namesFlat {start indent : Nat} {cases : List (String × RecordDecoder)}
    {decoder : Decoder} (inside : decoder.WritesUnion start cases indent)
    (flat : decoder.NamesFlat) :
    ∃ name, (Decoder.union name cases).NamesFlat := by
  induction inside with
  | here => exact ⟨_, flat⟩
  | field _ ih => exact ih fun node inside => flat node (.field inside)
  | optional _ ih => exact ih fun node inside => flat node (.optional inside)
  | list _ ih => exact ih fun node inside => flat node (.list inside)
  | record among _ ih => exact ih fun node inside => flat node (.record among inside)
  | union chosen among _ ih => exact ih fun node inside => flat node (.union chosen among inside)

/-- Decoders obey the layout rule wherever unions nest. All lines after the first are indented by
one step at least. Every union in the decoder is written somewhere in its code, and wherever it is,
its patterns stand below one another, what is between them is deeper, and the line that closes the
lambda around them is not. -/
theorem Decoder.code_layout {decoder : Decoder} (flat : decoder.NamesFlat) (indent : Nat) :
    (∀ line ∈ (lines (decoder.code indent).text.toList).tail, IsIndented (indent + 4) line) ∧
    (∀ name cases, (Decoder.union name cases).OccursIn decoder →
      ∃ start, decoder.WritesUnion start cases indent) ∧
    ∀ start cases, decoder.WritesUnion start cases indent →
      unionText start cases <:+: (decoder.code indent).text.toList ∧
      ∀ before after,
        (decoder.code indent).text.toList = before ++ unionText start cases ++ after →
        ∃ branches closing below,
          lines (decoder.code indent).text.toList =
            lines (before ++ unionOpening start) ++ branches.flatten ++ closing :: below ∧
          List.Forall₂ (IsBranch (start + 16))
            (cases.map (fun entry => stringLiteral entry.1) ++ ["_"]) branches ∧
          lines (unionClosing start ++ after) = closing :: below ∧
          indentation closing < start + 16 := by
  refine ⟨(Decoder.hangs_code flat indent).isIndented,
    fun name cases inside => inside.exists_writesUnion indent, fun start cases inside =>
      ⟨inside.isInfix, fun before after split => ?_⟩⟩
  obtain ⟨name, flat⟩ := inside.namesFlat flat
  have deeper : caseIndent start + 1 ≤ caseIndent start + indentStep + indentStep := by
    simp only [indentStep]
    omega
  have members : ∀ entry ∈ cases, IsBranch (caseIndent start) (stringLiteral entry.1)
      (lines (memberBranch start entry)) := fun entry chosen =>
    isBranch_member (flat.hangs_member chosen fun field _ flat =>
      (Decoder.hangs_code flat _).mono deeper)
  have branches : List.Forall₂ (IsBranch (caseIndent start))
      (cases.map (fun entry => stringLiteral entry.1) ++ ["_"])
      ((unionBranches start cases).map lines) := by
    rw [unionBranches, List.map_append, List.map_map]
    refine List.rel_append (List.forall₂_map_left_iff.mpr (List.forall₂_map_right_iff.mpr ?_)) ?_
    · exact List.forall₂_same.mpr members
    · exact .cons (isBranch_other start) .nil
  obtain ⟨line, below, rest⟩ := exists_lines after
  have closing : lines (unionClosing start ++ after) =
      (List.replicate (start + 8) ' ' ++ ')' :: line) :: below := by
    have flat : '\n' ∉ unionClosing start := by simp [unionClosing]
    rw [Text.lines_flat_append flat rest]
    simp [unionClosing]
  refine ⟨_, _, below, ?_, branches, closing, ?_⟩
  · have regrouped : before ++ unionText start cases ++ after =
        (before ++ unionOpening start) ++ (unionBranches start cases).flatMap ('\n' :: ·) ++
          '\n' :: (unionClosing start ++ after) := by
      simp [unionText_eq]
    rw [split, regrouped, Text.lines_append, lines_flatMap, closing, List.flatMap_def]
  · rw [Text.indentation_append]
    simp [indentation]

/-! ### A union in a branch of a union -/

/-- The cases of a union of pets with names. -/
def namedPetCases : List (String × RecordDecoder) :=
  [("Cat", ⟨.tagged "Pet_Cat", [("name", .field "name" (.scalar .string))]⟩)]

/-- A union of pets that have a friend and a rival, whose decoders share a line. -/
def friendsDecoder : Decoder :=
  .union "Pet" [("Dog", ⟨.tagged "Pet_Dog",
    [("friend", .field "friend" (.union "Pet" namedPetCases)),
      ("rival", .field "rival" (.union "Pet" namedPetCases))]⟩)]

theorem friendsDecoder_namesFlat : friendsDecoder.NamesFlat := by
  have named : (Decoder.union "Pet" namedPetCases).NamesFlat := by
    refine .union (by simp only [Decoder.ownNames]; decide) ?_
    refine List.forall_mem_singleton.mpr (List.forall_mem_singleton.mpr ?_)
    exact .field (by simp [Decoder.ownNames]) (.scalar (by simp [Decoder.ownNames]))
  refine .union (by simp only [Decoder.ownNames]; decide) (List.forall_mem_singleton.mpr ?_)
  have field (wire : String) : (Decoder.field wire (.union "Pet" namedPetCases)).NamesFlat :=
    .field (by simp [Decoder.ownNames]) named
  simpa using ⟨field "friend", field "rival"⟩

/-- Both inner unions have their patterns in a column of their own. -/
theorem friends_code_layout :
    friendsDecoder.NamesFlat ∧ friendsDecoder.WritesUnion 28 namedPetCases 8 ∧
      (∀ line ∈ (lines (friendsDecoder.code 8).text.toList).tail, IsIndented 12 line) ∧
      ∃ branches, List.Forall₂ (IsBranch 44) ["\"Cat\"", "_"] branches ∧
        branches.flatten <:+: lines (friendsDecoder.code 8).text.toList := by
  have inner : friendsDecoder.WritesUnion 28 namedPetCases 8 :=
    .union List.mem_cons_self List.mem_cons_self (.field .here)
  obtain ⟨indented, _, unions⟩ := Decoder.code_layout friendsDecoder_namesFlat 8
  obtain ⟨⟨before, after, split⟩, layout⟩ := unions 28 namedPetCases inner
  obtain ⟨branches, closing, below, all, patterns, _⟩ := layout before after split.symm
  exact ⟨friendsDecoder_namesFlat, inner, indented, branches, patterns, _, _, all.symm⟩

end Elm

end ElmClient
