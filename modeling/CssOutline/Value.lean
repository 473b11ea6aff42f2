import CssOutline.Color
import CssOutline.Json.Writer
import CssOutline.Math
import CssOutline.Token.Printer

/-!
Values of declarations and their text. Only an unknown color space keeps a value from having
one.
-/

namespace CssOutline

/-- A string and the quote it is written with. -/
structure Quoted where
  content : String
  quote : Char
deriving DecidableEq, Repr

namespace Quoted

/-- Escapes the quote, backslashes and line feeds. -/
def render (q : Quoted) : String :=
  String.ofList (q.quote :: q.content.toList.flatMap (fun c =>
    if c = '\\' then ['\\', '\\']
    else if c = '\n' then ['\\', 'a', ' ']
    else if c = q.quote then ['\\', c]
    else [c]) ++ [q.quote])

def quoteOf (source : List Char) : Char :=
  (source.reverse.find? fun c => c == '"' || c == '\'').getD '"'

end Quoted

inductive Value where
  | dimension (value : Number) (unit : String)
  /-- The written number, `50` for `50%`. -/
  | percentage (value : Number)
  | number (value : Number)
  | integer (value : Int)
  | string (value : Quoted)
  | keyword (name : String)
  | call (name : String) (arguments : List Value)
  /-- A call whose arguments are kept as text. -/
  | verbatimCall (name text : String)
  | color (color : Color)
  | length (length : Length)
  /-- Values that blanks separate. -/
  | list (items : List Value)
  /-- Values that commas separate. -/
  | commaList (items : List Value)
  /-- Source text kept as it is. -/
  | raw (text : String)
  /-- A token without a value of its own, with the text it carried. -/
  | unmodeled (kind : String) (detail : Option String)
deriving Repr

def unableToParse : String := "unable-to-parse"

def unmodeledText (kind : String) : Option String → String
  | none => unableToParse
  | some detail =>
    "\x7b\"kind\":" ++ Json.quote kind ++ ",\"detail\":" ++ Json.quote detail ++ "\x7d"

def integerText (i : Int) : String :=
  Number.sign (decide (i < 0)) ++ Number.digitsText i.natAbs

namespace Value

mutual

def render : Value → Except RenderError String
  | dimension value unit => .ok (value.format ++ unit)
  | percentage value => .ok (value.format ++ "%")
  | number value => .ok value.format
  | integer value => .ok (integerText value)
  | string value => .ok value.render
  | keyword name => .ok (Printer.identifier name)
  | call name arguments => do
    let texts ← renderAll arguments
    .ok (callText (Printer.identifier name) texts)
  | verbatimCall name text => .ok (Printer.identifier name ++ "(" ++ text ++ ")")
  | color c => c.render
  | length l => .ok l.render
  | list items => do
    let texts ← renderAll items
    .ok (" ".intercalate texts)
  | commaList items => do
    let texts ← renderAll items
    .ok (", ".intercalate texts)
  | raw text => .ok text
  | unmodeled kind detail => .ok (unmodeledText kind detail)

def renderAll : List Value → Except RenderError (List String)
  | [] => .ok []
  | v :: vs => do
    let text ← render v
    let texts ← renderAll vs
    .ok (text :: texts)

end

def printsAs (v : Value) (source : String) : Bool :=
  match v.render with
  | .ok text => text == source
  | .error _ => false

def exactOrRaw (v : Value) (source : String) : Value :=
  if v.printsAs source then v else raw source

end Value

end CssOutline
