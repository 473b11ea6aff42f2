import CssOutline.Number.Decimal
import CssOutline.Text

/-!
Tokens of style sheets. A lexeme is a token with its own source text and the place it starts at;
the texts of the lexemes of a sheet make up the sheet.
-/

namespace CssOutline

/-- A place in a text. Both parts count from one; columns count UTF-16 units. -/
structure Location where
  line : Nat
  column : Nat
deriving DecidableEq, Repr

namespace Location

def origin : Location := ⟨1, 1⟩

def units (c : Char) : Nat :=
  if c.toNat < 0x10000 then 1 else 2

def advance : Location → List Char → Location
  | l, [] => l
  | l, '\r' :: '\n' :: cs => advance ⟨l.line + 1, 1⟩ cs
  | l, c :: cs =>
    if Text.isNewline c then advance ⟨l.line + 1, 1⟩ cs
    else advance ⟨l.line, l.column + units c⟩ cs

def text (l : Location) : String :=
  Number.digitsText l.line ++ ":" ++ Number.digitsText l.column

end Location

structure Numeric where
  value : Number
  /-- The value of a number without fraction and exponent, cut to 32 bits. -/
  integer : Option Int
  /-- Whether a sign was written. -/
  signed : Bool
deriving DecidableEq, Repr

inductive Token where
  | ident (name : String)
  | atKeyword (name : String)
  /-- A hash whose name is not an identifier. -/
  | hash (name : String)
  | idHash (name : String)
  | string (value : String)
  | url (value : String)
  | delim (c : Char)
  | number (n : Numeric)
  /-- The value is the written number divided by one hundred. -/
  | percentage (n : Numeric)
  | dimension (n : Numeric) (unit : String)
  | whitespace
  | comment
  | colon
  | semicolon
  | comma
  | includeMatch
  | dashMatch
  | startMatch
  | endMatch
  | substringMatch
  | cdo
  | cdc
  | function (name : String)
  | openParen
  | openSquare
  | openCurly
  | closeParen
  | closeSquare
  | closeCurly
  /-- A string cut off by a line end. -/
  | badString (text : String)
  | badUrl (text : String)
deriving DecidableEq, Repr

namespace Token

/-- Blanks and comments separate tokens and mean nothing themselves. -/
def isTrivia : Token → Bool
  | whitespace => true
  | comment => true
  | _ => false

def closing? : Token → Option Token
  | function _ => some closeParen
  | openParen => some closeParen
  | openSquare => some closeSquare
  | openCurly => some closeCurly
  | _ => none

end Token

structure Lexeme where
  token : Token
  text : List Char
  start : Location
deriving DecidableEq, Repr

def Numeric.percent (n : Numeric) : Number :=
  match n.integer with
  | some i => Number.Format.single.ofInt i
  | none =>
    let scaled := n.value.mul .double (Number.Format.double.ofNat 1000000)
    Number.Format.single.ofNumber
      ((scaled.round .double).div .double (Number.Format.double.ofNat 10000))

end CssOutline
