import CssOutline.Value

/-!
Selectors and their text. A complex selector is a run of components, combinators among them;
lists of selectors are joined by a comma and a blank.
-/

namespace CssOutline

inductive Combinator where
  | descendant
  | child
  | nextSibling
  | laterSibling
deriving DecidableEq, Repr

inductive AttributeOperator where
  | exact
  | includes
  | dashMatch
  | startMatch
  | endMatch
  | substring
deriving DecidableEq, Repr

inductive AttributeValue where
  | quoted (value : Quoted)
  | ident (name : String)
deriving DecidableEq, Repr

structure AttributeTest where
  operator : AttributeOperator
  value : AttributeValue
  /-- The case flag, as written. -/
  flag : Option String
deriving DecidableEq, Repr

/-- A condition on an attribute; without a test, that it is there. -/
structure Attribute where
  name : String
  test : Option AttributeTest
deriving DecidableEq, Repr

inductive PseudoKind where
  | classes
  | element
deriving DecidableEq, Repr

mutual

inductive Component where
  | element (name : String)
  | universal
  | className (name : String)
  | identity (name : String)
  | hasAttribute (condition : Attribute)
  | pseudo (kind : PseudoKind) (name : String) (argument : Argument)
  | combinator (combinator : Combinator)
  | nesting
deriving Repr

/-- What stands in the parentheses of a pseudo-class or pseudo-element. -/
inductive Argument where
  | none
  | selectors (list : List (List Component))
  | raw (text : String)
deriving Repr

end

abbrev ComplexSelector := List Component

abbrev SelectorList := List ComplexSelector

/-- A selector within keyframes. -/
inductive Keyframe where
  | start
  | finish
  | percentage (value : Number)
deriving DecidableEq, Repr

def Combinator.symbol : Combinator → String
  | descendant => " "
  | child => ">"
  | nextSibling => "+"
  | laterSibling => "~"

def AttributeOperator.symbol : AttributeOperator → String
  | exact => "="
  | includes => "~="
  | dashMatch => "|="
  | startMatch => "^="
  | endMatch => "$="
  | substring => "*="

def AttributeValue.render : AttributeValue → String
  | quoted value => value.render
  | ident name => Printer.identifier name

def AttributeTest.render (t : AttributeTest) : String :=
  t.operator.symbol ++ t.value.render ++ (t.flag.map (" " ++ ·)).getD ""

def Attribute.render (a : Attribute) : String :=
  "[" ++ Printer.identifier a.name ++ (a.test.map AttributeTest.render).getD "" ++ "]"

def PseudoKind.mark : PseudoKind → String
  | classes => ":"
  | element => "::"

mutual

def Component.render : Component → String
  | .element name => Printer.identifier name
  | .universal => "*"
  | .className name => "." ++ Printer.identifier name
  | .identity name => "#" ++ Printer.identifier name
  | .hasAttribute a => a.render
  | .pseudo kind name argument => kind.mark ++ Printer.identifier name ++ argument.render
  | .combinator c => c.symbol
  | .nesting => "&"

def Argument.render : Argument → String
  | .none => ""
  | .selectors list => "(" ++ ", ".intercalate (renderSelectors list) ++ ")"
  | .raw text => "(" ++ text ++ ")"

def renderSelectors : List (List Component) → List String
  | [] => []
  | s :: ss => renderComponents s :: renderSelectors ss

def renderComponents : List Component → String
  | [] => ""
  | c :: cs => c.render ++ renderComponents cs

end

def ComplexSelector.render (s : ComplexSelector) : String :=
  renderComponents s

def SelectorList.render (list : SelectorList) : String :=
  ", ".intercalate (renderSelectors list)

def Keyframe.render : Keyframe → String
  | start => "from"
  | finish => "to"
  | percentage value => value.format ++ "%"

def Keyframe.renderAll (ks : List Keyframe) : String :=
  ", ".intercalate (ks.map Keyframe.render)

/-- Pseudo-classes and pseudo-elements whose argument is a list of selectors. -/
def selectorFunctions : List String :=
  ["not", "is", "where", "has", "matches", "any", "-webkit-any", "-moz-any", "host",
    "host-context", "slotted", "current", "past", "future", "cue", "global", "local"]

def takesSelectors (name : String) : Bool :=
  selectorFunctions.contains name.toLower

end CssOutline
