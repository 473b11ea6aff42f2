import CssOutline.Lexer

/-!
Component values: a lexeme, or a block with what stands inside it. A closing token ends the
innermost open block if it is the one that block waits for, and is an ordinary lexeme otherwise;
blocks still open at the end of the text end there.
-/

namespace CssOutline

inductive Node where
  | leaf (lexeme : Lexeme)
  | block (opening : Lexeme) (body : List Node) (closing : Option Lexeme)
deriving Repr

namespace Node

def token : Node → Token
  | leaf l => l.token
  | block l _ _ => l.token

def start : Node → Location
  | leaf l => l.start
  | block l _ _ => l.start

mutual

/-- The source text of a node, its block included. -/
def text : Node → List Char
  | leaf l => l.text
  | block l body closing => l.text ++ textOf body ++ (closing.map Lexeme.text).getD []

def textOf : List Node → List Char
  | [] => []
  | n :: ns => n.text ++ textOf ns

end

def headText : Node → List Char
  | leaf l => l.text
  | block l _ _ => l.text

def isTrivia (n : Node) : Bool :=
  n.token.isTrivia

def isComma (n : Node) : Bool :=
  n.token == .comma

def isSemicolon (n : Node) : Bool :=
  n.token == .semicolon

def isCurly (n : Node) : Bool :=
  n.token == .openCurly

/-- Drops blanks and comments from the front. -/
def dropTrivia (ns : List Node) : List Node :=
  ns.dropWhile isTrivia

/-- The nodes that are neither blanks nor comments. -/
def significant (ns : List Node) : List Node :=
  ns.filter fun n => !n.isTrivia

/-- An open block: its opening lexeme and the nodes before it on its level, last first. -/
structure Frame where
  opening : Lexeme
  outer : List Node

def finish : List Frame → List Node → List Node
  | [], siblings => siblings.reverse
  | f :: stack, siblings => finish stack (block f.opening siblings.reverse none :: f.outer)

def build : List Frame → List Node → List Lexeme → List Node
  | stack, siblings, [] => finish stack siblings
  | stack, siblings, l :: ls =>
    if l.token.closing?.isSome then build (⟨l, siblings⟩ :: stack) [] ls
    else
      match stack with
      | f :: outer =>
        if f.opening.token.closing? = some l.token then
          build outer (block f.opening siblings.reverse (some l) :: f.outer) ls
        else build stack (leaf l :: siblings) ls
      | [] => build [] (leaf l :: siblings) ls

def ofText (cs : List Char) : List Node :=
  build [] [] (Lexer.lexemes cs)

end Node

end CssOutline
