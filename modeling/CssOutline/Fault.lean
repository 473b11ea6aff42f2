import CssOutline.Token.Printer

/-!
Why a part of a style sheet cannot be read.
-/

namespace CssOutline

inductive SelectorFault where
  | empty
  | twoCombinators
  | endsWithCombinator
  | expectedClass
  | expectedPseudoClass
  | expectedPseudoElement
  | unexpectedToken
  | unknownOperator
  | expectedAttributeValue
  | unknownFlag
deriving DecidableEq, Repr

inductive Fault where
  | selector (fault : SelectorFault)
  | keyframe
  | emptyValue
  | blockInValue
  | unexpectedToken (token : Token)
  | endOfInput
  | expectedBlock
  | tooDeep
deriving DecidableEq, Repr

def SelectorFault.message : SelectorFault → String
  | empty => "empty selector"
  | twoCombinators => "two combinators in a row"
  | endsWithCombinator => "selector ends with a combinator"
  | expectedClass => "expected a class name"
  | expectedPseudoClass => "expected a pseudo-class"
  | expectedPseudoElement => "expected a pseudo-element"
  | unexpectedToken => "unexpected token"
  | unknownOperator => "unknown attribute operator"
  | expectedAttributeValue => "expected an attribute value"
  | unknownFlag => "unknown attribute flag"

def Fault.message : Fault → String
  | selector fault => "Invalid selector: " ++ fault.message
  | keyframe => "Invalid keyframe selector"
  | emptyValue => "Declaration has no value"
  | blockInValue => "Unexpected block in value"
  | unexpectedToken token => "Unexpected token '" ++ token.css ++ "'"
  | endOfInput => "Unexpected end of input"
  | expectedBlock => "Expected '\x7b' after rule prelude"
  | tooDeep => "Rule nesting is too deep"

end CssOutline
