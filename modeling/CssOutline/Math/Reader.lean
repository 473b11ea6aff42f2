import CssOutline.Math
import CssOutline.Node
import CssOutline.Segments
import CssOutline.Value

/-!
Math expressions read from nodes. Products bind tighter than sums and need exactly one plain
number; division is not read. Every numeric leaf is written as it would be printed, otherwise
the expression is not read.
-/

namespace CssOutline

/-- A node of an expression with the blanks and comments before it, and what it is by itself. -/
structure Term where
  lead : List Char
  token : Token
  text : List Char
  expression : Option Calc

namespace Term

def source : List Term → List Char
  | [] => []
  | t :: ts => t.text ++ ts.flatMap fun t => t.lead ++ t.text

end Term

namespace Calc

def multiply : Calc → Calc → Option Calc
  | .number _, .number _ => none
  | .number factor, operand => some (.product factor operand)
  | operand, .number factor => some (.product factor operand)
  | _, _ => none

def minusOne : Number := Number.Format.single.ofInt (-1)

def signed (negative : Bool) (e : Calc) : Calc :=
  if negative then .product minusOne e else e

def operands (negative : Bool) (current : Calc) : List Term → Option (List Calc)
  | [] => some [signed negative current]
  | [_] => none
  | operator :: t :: ts => do
    let e ← t.expression
    match operator.token with
    | .delim '*' => operands negative (← multiply current e) ts
    | .delim '+' => (operands false e ts).map (signed negative current :: ·)
    | .delim '-' => (operands true e ts).map (signed negative current :: ·)
    | _ => none

def ofTerms? : List Term → Option Calc
  | [] => none
  | t :: ts => do
    match ← operands false (← t.expression) ts with
    | [e] => some e
    | es => some (.sum es (String.ofList (Term.source (t :: ts))))

def arguments? (ts : List Term) : Option (List Calc) :=
  (segments (fun t => t.token == .comma) ts).mapM ofTerms?

def ofLexeme? (l : Lexeme) : Option Calc :=
  let exact (v : Value) (e : Calc) : Option Calc :=
    if v.printsAs (String.ofList l.text) then some e else none
  match l.token with
  | .number n => exact (.number n.value) (.number n.value)
  | .percentage n => exact (.percentage n.percent) (.length (.percentage n.percent))
  | .dimension n unit =>
    if Length.isUnit unit then
      exact (.dimension n.value unit) (.length (.dimension n.value unit))
    else none
  | _ => none

end Calc

namespace Math

def strategies : List String := ["nearest", "up", "down", "to-zero"]

def strategy? : List Term → Option String × List Term
  | s :: c :: ts =>
    match s.token, c.token with
    | .ident name, .comma =>
      if strategies.contains name.toLower then (some name, ts) else (none, s :: c :: ts)
    | _, _ => (none, s :: c :: ts)
  | ts => (none, ts)

/-- The math function of a name from its arguments. -/
def ofTerms? (name : String) (ts : List Term) : Option Math :=
  match name.toLower, Calc.arguments? ts with
  | "calc", _ => (Calc.ofTerms? ts).map .calc
  | "min", some es => some (.variadic .min es)
  | "max", some es => some (.variadic .max es)
  | "hypot", some es => some (.variadic .hypot es)
  | "clamp", some [low, value, high] => some (.clamp low value high)
  | "abs", some [e] => some (.unary .abs e)
  | "sign", some [e] => some (.unary .sign e)
  | "mod", some [a, b] => some (.binary .mod a b)
  | "rem", some [a, b] => some (.binary .rem a b)
  | "round", _ =>
    let (strategy, ts) := strategy? ts
    match Calc.arguments? ts with
    | some [value] => some (.round strategy value none)
    | some [value, interval] => some (.round strategy value (some interval))
    | _ => none
  | _, _ => none

theorem ofTerms?_of_not_isName {name : String} (other : ¬isName name) (ts : List Term) :
    ofTerms? name ts = none := by
  unfold ofTerms?
  split <;> simp_all [isName, names]

end Math

namespace Node

mutual

def calc? : Node → Option Calc
  | leaf l => Calc.ofLexeme? l
  | block l body _ =>
    match l.token with
    | .openParen => Calc.ofTerms? (terms [] body)
    | .function name => (Math.ofTerms? name (terms [] body)).map .function
    | _ => none

/-- The terms of a list of nodes; `lead` is the text skipped before it. -/
def terms (lead : List Char) : List Node → List Term
  | [] => []
  | n :: ns =>
    if n.isTrivia then terms (lead ++ n.text) ns
    else ⟨lead, n.token, n.text, calc? n⟩ :: terms [] ns

end

end Node

end CssOutline
