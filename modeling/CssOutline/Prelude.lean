import CssOutline.Value

/-!
What stands between the name of an at-rule and its block or semicolon, and the key it gives the
at-rule: the name after an at sign, then the text of the prelude if there is any.
-/

namespace CssOutline

/-- A part of a condition such as `screen and (min-width: 900px)`. -/
inductive Condition where
  | keyword (name : String)
  | feature (name : String) (value : Option Value)
  | raw (text : String)
deriving Repr

inductive Prelude where
  | empty
  | media (queries : List (List Condition))
  | condition (parts : List Condition)
  | value (value : Value)
  | raw (text : String)
deriving Repr

def Condition.render : Condition → Except RenderError String
  | keyword name => .ok (Printer.identifier name)
  | feature name none => .ok ("(" ++ Printer.identifier name ++ ")")
  | feature name (some v) => do
    let text ← v.render
    .ok ("(" ++ Printer.identifier name ++ ": " ++ text ++ ")")
  | raw text => .ok text

def Condition.renderAll (parts : List Condition) : Except RenderError String := do
  let texts ← parts.mapM Condition.render
  .ok (" ".intercalate texts)

def Prelude.render : Prelude → Except RenderError String
  | empty => .ok ""
  | media queries => do
    let texts ← queries.mapM Condition.renderAll
    .ok (", ".intercalate texts)
  | condition parts => Condition.renderAll parts
  | value v => v.render
  | raw text => .ok text

def atRuleKey (name : String) (p : Prelude) : Except RenderError String := do
  let text ← p.render
  .ok (if text = "" then "@" ++ name else "@" ++ name ++ " " ++ text)

end CssOutline
