import CssOutline.Outline
import CssOutline.Text

/-!
Outlines as JSON objects, on one line or spread over lines indented by two blanks. String
literals escape the quote, the backslash and the characters below U+0020, and nothing else.
-/

namespace CssOutline.Json

def escape (c : Char) : List Char :=
  if c = '"' then ['\\', '"']
  else if c = '\\' then ['\\', '\\']
  else if c = '\x08' then ['\\', 'b']
  else if c = '\x0c' then ['\\', 'f']
  else if c = '\n' then ['\\', 'n']
  else if c = '\r' then ['\\', 'r']
  else if c = '\t' then ['\\', 't']
  else if c.toNat < 0x20 then
    ['\\', 'u', '0', '0', Text.hexDigit (c.toNat / 16), Text.hexDigit (c.toNat % 16)]
  else [c]

def quote (s : String) : String :=
  String.ofList ('"' :: s.toList.flatMap escape ++ ['"'])

inductive Spacing where
  | compact
  | pretty
deriving DecidableEq, Repr

/-- What stands before a member or a closing brace at a depth. -/
def Spacing.lineBreak (depth : Nat) : Spacing → String
  | compact => ""
  | pretty => "\n" ++ String.ofList (List.replicate (2 * depth) ' ')

def Spacing.colon : Spacing → String
  | compact => ":"
  | pretty => ": "

/-- The members of an object, each after `separator` or a comma. -/
def members (spacing : Spacing) (depth : Nat) (separator : String) : Outline → String
  | .nil => ""
  | .value key text rest =>
    separator ++ spacing.lineBreak depth ++ quote key ++ spacing.colon ++ quote text ++
      members spacing depth "," rest
  | .block key body rest =>
    separator ++ spacing.lineBreak depth ++ quote key ++ spacing.colon ++ "\x7b" ++
      members spacing (depth + 1) "" body ++
      (if body.isEmpty then "" else spacing.lineBreak depth) ++ "\x7d" ++
      members spacing depth "," rest

def write (spacing : Spacing) (d : Outline) : String :=
  "\x7b" ++ members spacing 1 "" d ++ (if d.isEmpty then "" else spacing.lineBreak 0) ++ "\x7d"

end CssOutline.Json
