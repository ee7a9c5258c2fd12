/-
Module: ElmClient.Elm.EncoderCode
Purpose: Encoders as Elm code.
Main exports: Encoder.code, Parameter.code
-/
import ElmClient.Elm.DecoderCode
import ElmClient.Elm.Module

namespace ElmClient.Elm

/-- A pair of pieces of code. -/
def pairCode (first second : Code) : Code :=
  .plain "( " ++ (first ++ (.plain ", " ++ (second ++ .plain " )")))

/-- The constructors of an enumeration with their values. -/
def enumTable (cases : List EnumCase) : Code :=
  Code.separated (.plain ", ")
    (cases.map fun enumCase => pairCode (.literal enumCase.constructor) (.literal enumCase.wire))

/-- Encodes a value of an enumeration by looking its constructor up. -/
def enumEncoderCode (cases : List EnumCase) (value : String) : Code :=
  .plain "Json.Encode.string <| Maybe.withDefault " ++ (.literal "" ++
    (.plain (" <| Maybe.map Tuple.second <| List.head <| " ++
      "List.filter (Tuple.first >> (==) (Debug.toString " ++ value ++ ")) [ ") ++
      (enumTable cases ++ .plain " ]")))

/-- Encodes a scalar. -/
def Scalar.encoderText (value : String) : Scalar → String
  | .int => "Json.Encode.int " ++ value
  | .float => "Json.Encode.float " ++ value
  | .bool => "Json.Encode.bool " ++ value
  | .string => "Json.Encode.string " ++ value
  | .posix => "Json.Encode.int (Time.posixToMillis " ++ value ++ ")"

/-- An object of entries. -/
def objectCode (entries : List Code) : Code :=
  if entries.isEmpty then .plain "Json.Encode.object []"
  else .plain "Json.Encode.object [ " ++ (Code.separated (.plain ", ") entries ++ .plain " ]")

/-- Applies a function to a lambda and a value. -/
def liftCode (function parameter : String) (body : Code) (value : String) : Code :=
  .plain (function ++ " ") ++ (.lambda [parameter] (.plain " " ++ body) ++ .plain (" " ++ value))

mutual

/-- The code that encodes a value. The parameters of lambdas are numbered by their depth. -/
def Encoder.code (m : Module) (value : String) (depth : Nat) : Encoder → Code
  | .scalar s => .plain (s.encoderText value)
  | .enum name => enumEncoderCode (((m.enum name).map (·.cases)).getD []) value
  | .object fields => objectCode (Encoder.entryCodes m value (depth + 1) fields)
  | .list item =>
      let parameter := "x" ++ toString depth
      liftCode "Json.Encode.list" parameter (item.code m parameter (depth + 1)) value
  | .optional inner =>
      let parameter := "o" ++ toString depth
      liftCode "maybeEncode" parameter (inner.code m parameter (depth + 1)) value
  | .named input => .plain (Name.encoder input ++ " " ++ value)
termination_by structural encoder => encoder

/-- The codes of the entries of an object. -/
def Encoder.entryCodes (m : Module) (value : String) (depth : Nat) :
    List (EncodedField Encoder) → List Code
  | [] => []
  | ⟨name, wire, encoder⟩ :: rest =>
      pairCode (.literal wire) (encoder.code m (value ++ "." ++ name) depth) ::
        Encoder.entryCodes m value depth rest
termination_by structural fields => fields

end

/-- The entry of a parameter, which starts at a column. A nullable parameter with a default value
is taken apart by cases. -/
def Parameter.code (m : Module) (indent : Nat) (parameter : Parameter) : Code :=
  let value := "params." ++ parameter.name
  match parameter.encoder, parameter.defaulted with
  | .optional inner, true =>
      let pad := indent + 2
      let branch := pad + indentStep * 2
      let body := pad + indentStep * 3
      .plain "( " ++ (.literal parameter.wire ++ (newLine pad ++
        (.plain (", case " ++ value ++ " of") ++ (newLine branch ++ (.plain "Just val ->" ++
          (newLine body ++ (inner.code m "val" 0 ++ (.plain "\n" ++ (newLine branch ++
            (.plain "Nothing ->" ++ (newLine body ++ (.plain "Json.Encode.null" ++
              (newLine pad ++ .plain ")")))))))))))))
  | encoder, _ => pairCode (.literal parameter.wire) (encoder.code m value 0)

end ElmClient.Elm
