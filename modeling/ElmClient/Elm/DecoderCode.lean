/-
Module: ElmClient.Elm.DecoderCode
Purpose: Decoders as Elm code. What takes several lines is indented from the line on which it
  starts, so that it may stand anywhere.
Main exports: Decoder.code, Decoder.topCode
-/
import ElmClient.Elm.Code
import ElmClient.Elm.Decoder
import ElmClient.Name

namespace ElmClient.Elm

/-- How far each level is indented. -/
def indentStep : Nat := 4

/-- Spaces. -/
def spaces (n : Nat) : String := String.ofList (List.replicate n ' ')

/-- A new line with an indentation. -/
def newLine (indent : Nat) : Code := .plain ("\n" ++ spaces indent)

/-- A piece of code in parentheses. -/
def inParentheses (code : Code) : Code := .plain "(" ++ code ++ .plain ")"

/-- The parameter that stands for a field. -/
def fieldParameter (name : String) : String := name ++ "_"

/-- The record that takes its fields from their parameters. -/
def recordOfParameters (fields : List String) : String :=
  let assignments := fields.map fun name => name ++ " = " ++ fieldParameter name
  "\x7b " ++ ", ".intercalate assignments ++ " \x7d"

/-- The function that takes the values of fields in order. -/
def Constructor.code (constructor : Constructor) (fields : List String) : Code :=
  let parameters := fields.map fieldParameter
  match constructor with
  | .recordAlias name => .plain name
  | .anonymous => .lambda parameters (.plain (" " ++ recordOfParameters fields))
  | .tagged name => .lambda parameters (.plain (" " ++ name ++ " " ++ recordOfParameters fields))

/-- What a constructor makes of no fields. -/
def Constructor.emptyText : Constructor → String
  | .recordAlias _ | .anonymous => "\x7b\x7d"
  | .tagged name => "(" ++ name ++ " \x7b\x7d)"

/-- A decoder that puts decoded fields together. -/
def applyCode (constructor : Constructor) (names : List String) : List Code → Code
  | [] => .plain ("succeed " ++ constructor.emptyText)
  | first :: rest =>
      .plain "map " ++ (constructor.code names ++ (.plain " " ++ (first ++
        Code.concat (rest.map fun field => .plain " |> apply " ++ field))))

/-- The text of a scalar decoder. -/
def Scalar.decoderText : Scalar → String
  | .int => "int"
  | .float => "float"
  | .bool => "bool"
  | .string => "string"
  | .posix => "(map ((*) 1000 >> Time.millisToPosix) int)"

/-- The column at which the cases of a union are, from the column where the union starts. -/
def caseIndent (indent : Nat) : Nat := indent + indentStep * 4

/-- One case of a union. -/
def caseCode (indent : Nat) (tag : String) (decoder : Code) : Code :=
  newLine (caseIndent indent) ++ (Code.literal tag ++ (.plain " ->" ++
    (newLine (caseIndent indent + indentStep) ++ (decoder ++ .plain "\n"))))

/-- The last case of a union, which takes all other types. -/
def otherCaseCode (indent : Nat) : Code :=
  newLine (caseIndent indent) ++ (.plain "_ ->" ++
    (newLine (caseIndent indent + indentStep) ++
      (.plain "fail " ++ .literal "Unexpected union type")))

/-- A decoder that chooses among cases by the name of the type. -/
def unionCode (indent : Nat) (cases : List Code) : Code :=
  .plain "field " ++ (.literal typenameKey ++ (.plain " string" ++
    (newLine (indent + indentStep) ++ (.plain "|> andThen" ++
      (newLine (indent + indentStep * 2) ++ .lambda ["typename"]
        (newLine (indent + indentStep * 3) ++ (.plain "case typename of" ++
          (Code.concat cases ++ (otherCaseCode indent ++
            newLine (indent + indentStep * 2))))))))))

/-- The names of fields. -/
def fieldNames {α : Type} (fields : List (String × α)) : List String := fields.map Prod.fst

mutual

/-- The code of a decoder as an argument, on a line with an indentation. -/
def Decoder.code (indent : Nat) : Decoder → Code
  | .scalar s => .plain s.decoderText
  | .enum name => .plain (Name.enumDecoder name)
  | .field wire decoder =>
      inParentheses (.plain "field " ++ (.literal wire ++ (.plain " " ++ decoder.code indent)))
  | .optional inner => inParentheses (.plain "maybe " ++ inner.code indent)
  | .list item => inParentheses (.plain "list " ++ item.code indent)
  | .record r => inParentheses (Decoder.recordCode indent r)
  | .union _ cases => inParentheses (unionCode indent (Decoder.caseCodes indent cases))
termination_by structural decoder => decoder

/-- The code of a record decoder. -/
def Decoder.recordCode (indent : Nat) : RecordDecoder → Code
  | ⟨constructor, fields⟩ =>
      applyCode constructor (fieldNames fields) (Decoder.fieldCodes indent fields)
termination_by structural r => r

/-- The codes of the decoders of fields. -/
def Decoder.fieldCodes (indent : Nat) : List (String × Decoder) → List Code
  | [] => []
  | (_, decoder) :: rest => decoder.code indent :: Decoder.fieldCodes indent rest
termination_by structural fields => fields

/-- The codes of the cases of a union. -/
def Decoder.caseCodes (indent : Nat) : List (String × RecordDecoder) → List Code
  | [] => []
  | (tag, r) :: rest =>
      caseCode indent tag (Decoder.recordCode (caseIndent indent + indentStep) r) ::
        Decoder.caseCodes indent rest
termination_by structural cases => cases

end

/-- The body of a declared decoder. A record with fields has one line for each of them. -/
def Decoder.topCode : Decoder → Code
  | .record ⟨constructor, first :: rest⟩ =>
      let indent := indentStep * 2
      let line (field : String × Decoder) : Code :=
        newLine indent ++ (.plain "|> apply " ++ field.2.code indent)
      .plain "map " ++ (constructor.code (fieldNames (first :: rest)) ++
        (newLine indent ++ (first.2.code indent ++ Code.concat (rest.map line))))
  | decoder => decoder.code indentStep

end ElmClient.Elm
