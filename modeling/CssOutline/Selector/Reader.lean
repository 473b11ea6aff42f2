import CssOutline.Selector
import CssOutline.Segments
import CssOutline.Value.Reader

/-!
Selectors read from nodes. Nodes first become symbols, in which the argument of each function is
already read and comments are gone; then one pass over the symbols of a selector collects its
components. Blanks between two simple selectors stand for the descendant combinator unless
another combinator stands there.
-/

namespace CssOutline

inductive Symbol where
  | space
  | comma
  | combinator (c : Combinator)
  | ident (name : String)
  | universal
  | nesting
  | identity (name : String)
  | dot
  | colon
  | bracket (reading : Except Fault Attribute)
  | function (name : String) (argument : Argument)
  | other

namespace Attribute

def operator? : Token → Option AttributeOperator
  | .delim '=' => some .exact
  | .includeMatch => some .includes
  | .dashMatch => some .dashMatch
  | .startMatch => some .startMatch
  | .endMatch => some .endMatch
  | .substringMatch => some .substring
  | _ => none

def value? (n : Node) : Option AttributeValue :=
  match n.token with
  | .string s => some (.quoted ⟨s, Quoted.quoteOf n.text⟩)
  | .ident name => some (.ident name)
  | _ => none

def flag? : List Node → Except Fault (Option String)
  | [] => .ok none
  | n :: rest =>
    match n.token with
    | .ident flag =>
      if !Text.sameName flag "i" && !Text.sameName flag "s" then
        .error (.selector .unknownFlag)
      else
        match rest with
        | [] => .ok (some flag)
        | extra :: _ => .error (.unexpectedToken extra.token)
    | t => .error (.unexpectedToken t)

def test? : List Node → Except Fault (Option AttributeTest)
  | [] => .ok none
  | o :: rest =>
    match operator? o.token with
    | none => .error (.selector .unknownOperator)
    | some operator =>
      match rest with
      | [] => .error .endOfInput
      | v :: rest =>
        match value? v with
        | none => .error (.selector .expectedAttributeValue)
        | some value => (flag? rest).map fun flag => some ⟨operator, value, flag⟩

/-- The condition in square brackets. -/
def read (body : List Node) : Except Fault Attribute :=
  match Node.significant body with
  | [] => .error .endOfInput
  | n :: rest =>
    match n.token with
    | .ident name => (test? rest).map fun test => ⟨name, test⟩
    | t => .error (.unexpectedToken t)

end Attribute

namespace Symbol

def ofToken? : Token → Option Symbol
  | .whitespace => some space
  | .comment => none
  | .comma => some comma
  | .delim '>' => some (combinator .child)
  | .delim '+' => some (combinator .nextSibling)
  | .delim '~' => some (combinator .laterSibling)
  | .delim '*' => some universal
  | .delim '&' => some nesting
  | .delim '.' => some dot
  | .ident name => some (ident name)
  | .idHash name => some (identity name)
  | .colon => some colon
  | _ => some other

def isComma : Symbol → Bool
  | comma => true
  | _ => false

end Symbol

namespace ComplexSelector

def isCombinator : Component → Bool
  | .combinator _ => true
  | _ => false

/-- Whether the last component read so far is a combinator; `done` has it first. -/
def afterCombinator : List Component → Bool
  | c :: _ => isCombinator c
  | [] => false

/-- Adds a simple selector, with the descendant combinator that a gap before it stands for. -/
def push (done : List Component) (gap : Bool) (c : Component) : List Component :=
  if gap && !afterCombinator done then c :: .combinator .descendant :: done else c :: done

/-- Reads a selector. `done` are the components so far, last first; `gap` says whether blanks
came after the last of them. -/
def readFrom (done : List Component) (gap : Bool) : List Symbol → Except Fault ComplexSelector
  | [] =>
    match done with
    | [] => .error (.selector .empty)
    | c :: _ =>
      if isCombinator c then .error (.selector .endsWithCombinator) else .ok done.reverse
  | .space :: ss => readFrom done (!done.isEmpty) ss
  | .combinator c :: ss =>
    if afterCombinator done then .error (.selector .twoCombinators)
    else readFrom (.combinator c :: done) false ss
  | .ident name :: ss => readFrom (push done gap (.element name)) false ss
  | .universal :: ss => readFrom (push done gap .universal) false ss
  | .nesting :: ss => readFrom (push done gap .nesting) false ss
  | .identity name :: ss => readFrom (push done gap (.identity name)) false ss
  | .bracket (.ok a) :: ss => readFrom (push done gap (.hasAttribute a)) false ss
  | .bracket (.error fault) :: _ => .error fault
  | .dot :: .ident name :: ss => readFrom (push done gap (.className name)) false ss
  | .dot :: [] => .error .endOfInput
  | .dot :: _ => .error (.selector .expectedClass)
  | .colon :: .colon :: .ident name :: ss =>
    readFrom (push done gap (.pseudo .element name .none)) false ss
  | .colon :: .colon :: .function name argument :: ss =>
    readFrom (push done gap (.pseudo .element name argument)) false ss
  | .colon :: .colon :: [] => .error .endOfInput
  | .colon :: .colon :: _ => .error (.selector .expectedPseudoElement)
  | .colon :: .ident name :: ss =>
    readFrom (push done gap (.pseudo .classes name .none)) false ss
  | .colon :: .function name argument :: ss =>
    readFrom (push done gap (.pseudo .classes name argument)) false ss
  | .colon :: [] => .error .endOfInput
  | .colon :: _ => .error (.selector .expectedPseudoClass)
  | .comma :: _ => .error (.selector .unexpectedToken)
  | .function _ _ :: _ => .error (.selector .unexpectedToken)
  | .other :: _ => .error (.selector .unexpectedToken)

def read (ss : List Symbol) : Except Fault ComplexSelector :=
  readFrom [] false ss

end ComplexSelector

def SelectorList.ofSymbols (ss : List Symbol) : Except Fault SelectorList :=
  (segments Symbol.isComma ss).mapM ComplexSelector.read

/-- The argument of a function. What is not a list of selectors, or should not be one, is kept
as text. -/
def Argument.read (name : String) (body : List Node) (ss : List Symbol) : Argument :=
  if takesSelectors name then
    match SelectorList.ofSymbols ss with
    | .ok list => .selectors list
    | .error _ => .raw (Node.trimmedText body)
  else .raw (Node.trimmedText body)

namespace Node

mutual

def symbol? : Node → Option Symbol
  | leaf l => Symbol.ofToken? l.token
  | block l body _ =>
    match l.token with
    | .function name => some (.function name (Argument.read name body (symbols body)))
    | .openSquare => some (.bracket (Attribute.read body))
    | _ => some .other

def symbols : List Node → List Symbol
  | [] => []
  | n :: ns =>
    match symbol? n with
    | some s => s :: symbols ns
    | none => symbols ns

end

def readSelectors (ns : List Node) : Except Fault SelectorList :=
  SelectorList.ofSymbols (symbols ns)

def keyframe? : Token → Option Keyframe
  | .ident name =>
    if Text.sameName name "from" then some .start
    else if Text.sameName name "to" then some .finish
    else none
  | .percentage n => some (.percentage n.percent)
  | _ => none

def keyframesOf : List Node → Except Fault (List Keyframe)
  | [] => .error .endOfInput
  | n :: rest =>
    match keyframe? n.token, rest with
    | none, _ => .error .keyframe
    | some k, [] => .ok [k]
    | some k, separator :: rest =>
      if separator.isComma then (keyframesOf rest).map (k :: ·)
      else .error (.unexpectedToken separator.token)

def readKeyframes (ns : List Node) : Except Fault (List Keyframe) :=
  keyframesOf (significant ns)

end Node

end CssOutline
