/-
Module: ElmClient.Elm.Value
Purpose: Elm values and how they are displayed.
Main exports: Value, Value.record, Value.get?, Value.text
-/
import ElmClient.Dictionary
import ElmClient.Number.Shortest
import ElmClient.Text.Quoted

namespace ElmClient.Elm

/-- An Elm value. A time is kept in milliseconds; a tag is a constructor of an enumeration, and a
variant is a constructor with a record or another value in it. The fields of a record have distinct
names. -/
inductive Value where
  | int (n : Int)
  | float (x : Binary64)
  | bool (b : Bool)
  | string (s : String)
  | posix (milliseconds : Int)
  | tag (name : String)
  | nothing
  | just (inner : Value)
  | list (items : List Value)
  | record (fields : List (String × Value))
  | variant (constructor : String) (payload : Value)
deriving BEq, Repr, Inhabited

namespace Value

/-- A record. A name that is repeated stands in its first place with its last value. -/
def ofFields (fields : List (String × Value)) : Value := .record (Dictionary.ofList fields)

/-- The field of a record, or of the record in a variant. -/
def get? (name : String) : Value → Option Value
  | .record fields => fields.lookup name
  | .variant _ payload => get? name payload
  | _ => none

/-- What an unfit value is called. -/
def kind : Value → String
  | .int _ => "Int"
  | .float _ => "Float"
  | .bool _ => "Bool"
  | .string _ => "String"
  | .posix _ => "Time.Posix"
  | .tag name => name
  | .nothing => "Maybe"
  | .just _ => "Maybe"
  | .list _ => "List"
  | .record _ => "record"
  | .variant constructor _ => constructor

/-- Whether a value needs no parentheses as an argument. -/
def isAtomic : Value → Bool
  | .just _ | .posix _ | .variant _ _ => false
  | .int n => 0 ≤ n
  | .float x => x.isNonnegative
  | _ => true

/-- The text of a value as an argument. -/
def asArgument (value : Value) (text : String) : String :=
  if value.isAtomic then text else "(" ++ text ++ ")"

mutual

/-- The text of a value in Elm. -/
def text : Value → String
  | .int n => toString n
  | .float x => FloatStyle.value.text x
  | .bool true => "True"
  | .bool false => "False"
  | .string s => Text.quote s
  | .posix milliseconds => "Time.millisToPosix " ++ toString milliseconds
  | .tag name => name
  | .nothing => "Nothing"
  | .just inner => "Just " ++ asArgument inner inner.text
  | .list items => "[" ++ ",".intercalate (itemTexts items) ++ "]"
  | .record fields =>
      if fields.isEmpty then "\x7b\x7d"
      else "\x7b " ++ ", ".intercalate (fieldTexts fields) ++ " \x7d"
  | .variant constructor payload => constructor ++ " " ++ asArgument payload payload.text
termination_by structural value => value

/-- The texts of the items of a list. -/
def itemTexts : List Value → List String
  | [] => []
  | item :: rest => item.text :: itemTexts rest
termination_by structural items => items

/-- The texts of the fields of a record. -/
def fieldTexts : List (String × Value) → List String
  | [] => []
  | (name, value) :: rest => (name ++ " = " ++ value.text) :: fieldTexts rest
termination_by structural fields => fields

end

end Value

end ElmClient.Elm
