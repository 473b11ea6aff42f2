import CssOutline.Token

/-!
Tokens written back as text. Names escape what a name cannot hold; an identifier also escapes a
leading digit or a lone hyphen. Numbers keep six digits.
-/

namespace CssOutline

namespace Printer

def hexEscape (c : Char) : List Char :=
  '\\' :: (Text.hex c.toNat).toList ++ [' ']

def isNonPrintable (c : Char) : Bool :=
  c.toNat < 0x20 || c.toNat == 0x7f

def nameChar (c : Char) : List Char :=
  if c.isAlphanum || c == '_' || c == '-' || 0x80 ≤ c.toNat then [c]
  else if c = '\x00' then ['\ufffd']
  else if isNonPrintable c then hexEscape c
  else ['\\', c]

def nameChars (cs : List Char) : List Char :=
  cs.flatMap nameChar

def startChars : List Char → List Char
  | [] => []
  | c :: cs => if c.isDigit then hexEscape c ++ nameChars cs else nameChars (c :: cs)

def identifierChars : List Char → List Char
  | '-' :: '-' :: cs => '-' :: '-' :: nameChars cs
  | ['-'] => ['\\', '-']
  | '-' :: cs => '-' :: startChars cs
  | cs => startChars cs

def name (s : String) : String :=
  String.ofList (nameChars s.toList)

def identifier (s : String) : String :=
  String.ofList (identifierChars s.toList)

def stringContent (s : String) : String :=
  String.ofList (s.toList.flatMap fun c =>
    if c = '"' then ['\\', '"']
    else if c = '\\' then ['\\', '\\']
    else if c = '\x00' then ['\ufffd']
    else if isNonPrintable c then hexEscape c
    else [c])

def urlContent (s : String) : String :=
  String.ofList (s.toList.flatMap fun c =>
    if isNonPrintable c || c == ' ' then hexEscape c
    else if c == '(' || c == ')' || c == '"' || c == '\'' || c == '\\' then ['\\', c]
    else [c])

/-- A number in six digits. A value that is whole without having been written as an integer
keeps a point. -/
def numeric (value : Number) (integer : Option Int) (signed : Bool) : String :=
  let (digits, marked) := value.short
  (if signed && !value.isNegative then "+" else "") ++ digits ++
    (if integer.isNone && value.isWhole && !marked then ".0" else "")

/-- A unit that would read as an exponent has its first letter escaped. -/
def unit (s : String) : String :=
  match s.toList with
  | [c] => if c = 'e' ∨ c = 'E' then "\\65 " else identifier s
  | c :: '-' :: cs =>
    if c = 'e' ∨ c = 'E' then "\\65 " ++ name (String.ofList ('-' :: cs)) else identifier s
  | _ => identifier s

end Printer

open Printer in
/-- The text of a token; of what it opens only the opening mark. -/
def Token.css : Token → String
  | ident n => identifier n
  | atKeyword n => "@" ++ identifier n
  | hash n => "#" ++ name n
  | idHash n => "#" ++ identifier n
  | string s => "\"" ++ stringContent s ++ "\""
  | url s => "url(" ++ urlContent s ++ ")"
  | delim c => c.toString
  | number n => numeric n.value n.integer n.signed
  | percentage n =>
    numeric (n.value.mul .single (Number.Format.single.ofNat 100)) n.integer n.signed ++ "%"
  | dimension n u => numeric n.value n.integer n.signed ++ unit u
  | whitespace => " "
  | comment => "/**/"
  | colon => ":"
  | semicolon => ";"
  | comma => ","
  | includeMatch => "~="
  | dashMatch => "|="
  | startMatch => "^="
  | endMatch => "$="
  | substringMatch => "*="
  | cdo => "<!--"
  | cdc => "-->"
  | function n => identifier n ++ "("
  | openParen => "("
  | openSquare => "["
  | openCurly => "\x7b"
  | closeParen => ")"
  | closeSquare => "]"
  | closeCurly => "\x7d"
  | badString s => "\"" ++ stringContent s
  | badUrl s => "url(" ++ s ++ ")"

end CssOutline
