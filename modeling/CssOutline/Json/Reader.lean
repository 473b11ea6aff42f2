import CssOutline.Json.Token
import CssOutline.Outline
import CssOutline.Text.Quoted

/-!
Reading an outline from JSON text. The root is an object; members are strings, numbers or
objects, numbers becoming their decimal text. The text is read front to back and the first
problem decides the error: text that is not JSON, or a value of the wrong type.
-/

namespace CssOutline.Json

/-- A value where none of its type may stand. -/
inductive Found where
  | null
  | bool (value : Bool)
  | number (value : Numeral)
  | string (value : String)
  | sequence
deriving DecidableEq, Repr

inductive ReadError where
  | notJson
  | rootType (found : Found)
  | memberType (found : Found)
deriving DecidableEq, Repr

def Numeral.describe : Numeral → String
  | .float x =>
    let text := x.text .double
    "floating point `" ++ (if text.toList.contains '.' then text else text ++ ".0") ++ "`"
  | n => "integer `" ++ n.text ++ "`"

def Found.describe : Found → String
  | null => "null"
  | bool value => "boolean `" ++ (if value then "true" else "false") ++ "`"
  | number value => value.describe
  | string value => "string " ++ Text.quoted value
  | sequence => "sequence"

/-- What the JSON library says of a text that it does not read, besides the type it has found: its
words for a text that is not JSON, and the place where it has stopped. -/
structure Remark where
  words : String
  line : Nat
  column : Nat

def Remark.place (r : Remark) : String :=
  " at line " ++ toString r.line ++ " column " ++ toString r.column

def errorTitle : String := "Invalid rule tree JSON"

/-- The message, with what the library remarks if that is given. -/
def ReadError.message (e : ReadError) (remark : Option Remark := none) : String :=
  let detail :=
    match e with
    | notJson => (remark.map fun r => ": " ++ r.words).getD ""
    | rootType found =>
      ": invalid type: " ++ found.describe ++ ", expected a rule tree object"
    | memberType found =>
      ": invalid type: " ++ found.describe ++
        ", expected a declaration value or a nested rule object"
  errorTitle ++ detail ++ (remark.map Remark.place).getD ""

def maxDepth : Nat := 127

inductive Expect where
  | memberOrEnd
  | member
  | colon (key : String)
  | value (key : String)
  | commaOrEnd
deriving DecidableEq, Repr

def readObject : List Token → List (Outline × String) → Outline → Expect →
    Except ReadError Outline
  | [], _, _, _ => .error .notJson
  | t :: ts, stack, current, expect =>
    let close : Except ReadError Outline :=
      match stack with
      | [] => if ts = [] then .ok current else .error .notJson
      | (parent, key) :: stack =>
        readObject ts stack (parent.insert key (.block current)) .commaOrEnd
    match expect, t with
    | .memberOrEnd, .closeBrace => close
    | .memberOrEnd, .string key => readObject ts stack current (.colon key)
    | .member, .string key => readObject ts stack current (.colon key)
    | .colon key, .colon => readObject ts stack current (.value key)
    | .commaOrEnd, .comma => readObject ts stack current .member
    | .commaOrEnd, .closeBrace => close
    | .value key, .string s => readObject ts stack (current.insert key (.value s)) .commaOrEnd
    | .value key, .number n =>
      readObject ts stack (current.insert key (.value n.text)) .commaOrEnd
    | .value key, .openBrace =>
      if stack.length + 2 ≤ maxDepth then
        readObject ts ((current, key) :: stack) .nil .memberOrEnd
      else .error .notJson
    | .value _, .openBracket =>
      if stack.length + 2 ≤ maxDepth then .error (.memberType .sequence) else .error .notJson
    | .value _, .null => .error (.memberType .null)
    | .value _, .bool b => .error (.memberType (.bool b))
    | _, _ => .error .notJson

def readTokens : List Token → Except ReadError Outline
  | .openBrace :: ts => readObject ts [] .nil .memberOrEnd
  | .openBracket :: _ => .error (.rootType .sequence)
  | .string s :: _ => .error (.rootType (.string s))
  | .number n :: _ => .error (.rootType (.number n))
  | .bool b :: _ => .error (.rootType (.bool b))
  | .null :: _ => .error (.rootType .null)
  | _ => .error .notJson

def read (text : String) : Except ReadError Outline :=
  readTokens (tokens text.toList)

end CssOutline.Json
