import CssOutline.Prelude
import CssOutline.Selector

/-!
Style sheets as trees: rules with declarations and nested rules in their bodies. Text that could
not be read stays in the tree with the reason why.
-/

namespace CssOutline

inductive Vendor where
  | none
  | webkit
  | moz
  | ms
  | o
deriving DecidableEq, Repr

namespace Vendor

def mark : Vendor → String
  | none => ""
  | webkit => "-webkit-"
  | moz => "-moz-"
  | ms => "-ms-"
  | o => "-o-"

def strip? (v : Vendor) (name : String) : Option String :=
  if v.mark.toList.isPrefixOf name.toList ∧ v.mark.length < name.length then
    some (String.ofList (name.toList.drop v.mark.length))
  else Option.none

def split (name : String) : Vendor × String :=
  let found := [webkit, moz, ms, o].findSome? fun v => (v.strip? name).map (v, ·)
  found.getD (none, name)

end Vendor

inductive Property where
  | custom (name : String)
  | standard (vendor : Vendor) (name : String)
deriving DecidableEq, Repr

namespace Property

/-- Names with two hyphens in front are custom and keep their case. -/
def parse (name : String) : Property :=
  match name.toList with
  | '-' :: '-' :: _ => custom name
  | _ =>
    let (vendor, rest) := Vendor.split name.toLower
    standard vendor rest

def isCustom : Property → Bool
  | custom _ => true
  | standard _ _ => false

def text : Property → String
  | custom name => name
  | standard vendor name => vendor.mark ++ name

end Property

structure Declaration where
  property : Property
  value : Value
  important : Bool
deriving Repr

/-- What stands before the block of a style rule. -/
inductive Head where
  | selectors (list : SelectorList)
  | keyframes (list : List Keyframe)
deriving Repr

def Head.render : Head → String
  | selectors list => list.render
  | keyframes list => Keyframe.renderAll list

mutual

inductive Rule where
  | style (start : Location) (head : Head) (body : List Member)
  | atRule (start : Location) (name : String) (clause : Prelude) (body : AtBody)
  | unrecognized (start : Location) (reason source : String)
deriving Repr

/-- What follows the prelude of an at-rule. -/
inductive AtBody where
  | none
  | members (list : List Member)
  | verbatim (text : String)
deriving Repr

inductive Member where
  | declaration (declaration : Declaration)
  | rule (rule : Rule)
deriving Repr

end

def Rule.start : Rule → Location
  | style start _ _ => start
  | atRule start _ _ _ => start
  | unrecognized start _ _ => start

def Rule.isUnrecognized : Rule → Bool
  | unrecognized _ _ _ => true
  | _ => false

/-- A style sheet none of which could be read. -/
structure ParseError where
  message : String
  start : Location
deriving DecidableEq, Repr

def ParseError.text (e : ParseError) : String :=
  "CSS parse error at line " ++ Number.digitsText e.start.line ++ ", column " ++
    Number.digitsText e.start.column ++ ": " ++ e.message

end CssOutline
