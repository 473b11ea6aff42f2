import CssOutline.Number.Decimal
import CssOutline.Text

/-!
Math expressions over lengths and percentages, and their text. A sum remembers the text it was
written as and is printed by it.
-/

namespace CssOutline

/-- Math functions of any number of arguments. -/
inductive Variadic where
  | min
  | max
  | hypot
deriving DecidableEq, Repr

inductive Unary where
  | abs
  | sign
deriving DecidableEq, Repr

inductive Binary where
  | mod
  | rem
deriving DecidableEq, Repr

mutual

inductive Length where
  | dimension (value : Number) (unit : String)
  | percentage (value : Number)
  | math (function : Math)
deriving Repr

inductive Calc where
  | length (length : Length)
  | number (value : Number)
  | function (function : Math)
  | product (factor : Number) (operand : Calc)
  /-- Operands of additions; a subtracted one is a product with minus one. -/
  | sum (operands : List Calc) (source : String)
deriving Repr

inductive Math where
  | calc (expression : Calc)
  | variadic (function : Variadic) (arguments : List Calc)
  | clamp (low value high : Calc)
  | unary (function : Unary) (argument : Calc)
  | binary (function : Binary) (first second : Calc)
  | round (strategy : Option String) (value : Calc) (interval : Option Calc)
deriving Repr

end

def Variadic.name : Variadic → String
  | .min => "min"
  | .max => "max"
  | .hypot => "hypot"

def Unary.name : Unary → String
  | .abs => "abs"
  | .sign => "sign"

def Binary.name : Binary → String
  | .mod => "mod"
  | .rem => "rem"

def Math.name : Math → String
  | .calc _ => "calc"
  | .variadic f _ => f.name
  | .clamp _ _ _ => "clamp"
  | .unary f _ => f.name
  | .binary f _ _ => f.name
  | .round _ _ _ => "round"

/-- A function call with its arguments, which commas separate. -/
def callText (name : String) (arguments : List String) : String :=
  name ++ "(" ++ ", ".intercalate arguments ++ ")"

mutual

def Length.render : Length → String
  | .dimension value unit => value.format ++ unit
  | .percentage value => value.format ++ "%"
  | .math f => f.render

def Calc.render : Calc → String
  | .length l => l.render
  | .number value => value.format
  | .function f => f.render
  | .product factor operand => factor.format ++ " * " ++ operand.render
  | .sum _ source => "sum(" ++ source ++ ")"

def Math.render : Math → String
  | .calc e => callText "calc" [e.render]
  | .variadic f es => callText f.name (Calc.renderAll es)
  | .clamp low value high => callText "clamp" [low.render, value.render, high.render]
  | .unary f e => callText f.name [e.render]
  | .binary f a b => callText f.name [a.render, b.render]
  | .round strategy value none => callText "round" (strategy.toList ++ [value.render])
  | .round strategy value (some interval) =>
    callText "round" (strategy.toList ++ [value.render, interval.render])

def Calc.renderAll : List Calc → List String
  | [] => []
  | e :: es => e.render :: Calc.renderAll es

end

def Math.names : List String :=
  ["calc", "min", "max", "clamp", "abs", "hypot", "mod", "rem", "round", "sign"]

def Math.isName (name : String) : Bool :=
  Math.names.contains name.toLower

def Length.units : List String :=
  ["px", "cm", "mm", "q", "in", "pt", "pc", "em", "rem", "ex", "rex", "cap", "rcap", "ch",
    "rch", "ic", "ric", "lh", "rlh", "vw", "vh", "vi", "vb", "vmin", "vmax", "svw", "svh", "svi",
    "svb", "svmin", "svmax", "lvw", "lvh", "lvi", "lvb", "lvmin", "lvmax", "dvw", "dvh", "dvi",
    "dvb", "dvmin", "dvmax", "cqw", "cqh", "cqi", "cqb", "cqmin", "cqmax"]

def Length.isUnit (unit : String) : Bool :=
  Length.units.contains unit.toLower

end CssOutline
