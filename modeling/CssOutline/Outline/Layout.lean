import CssOutline.Outline

/-!
The style sheet text of an outline. Its lines with their depths do not depend on the indent;
the text repeats the indent once per level. An outline has a text unless an entry has an empty
key or a declaration stands outside every block, and the first such entry is the reason.
-/

namespace CssOutline

inductive LayoutError where
  | emptyKey
  | declarationAtRoot (property : String)
deriving DecidableEq, Repr

def LayoutError.message : LayoutError → String
  | emptyKey => "Rule tree contains an empty key"
  | declarationAtRoot property => "Declaration '" ++ property ++ "' is not inside any rule"

namespace Outline

def isAtKey (key : String) : Bool :=
  key.toList.head? == some '@'

def isStatement (key text : String) : Bool :=
  text == "" && isAtKey key

structure Line where
  depth : Nat
  text : String
deriving DecidableEq, Repr

/-- The text of a block that only repeats the at-rule key it stands under: the body of an
at-rule kept as text. -/
def compactBody? (key : String) : Outline → Option String
  | value inner text nil =>
    if isAtKey key && inner == key && text != "" then some text else none
  | _ => none

def lines (depth : Nat) : Outline → List Line
  | nil => []
  | value key text rest =>
    ⟨depth, if isStatement key text then key ++ ";" else key ++ ": " ++ text ++ ";"⟩ ::
      rest.lines depth
  | block key body rest =>
    match compactBody? key body with
    | some text => ⟨depth, key ++ " \x7b " ++ text ++ "; \x7d"⟩ :: rest.lines depth
    | none =>
      ⟨depth, key ++ " \x7b"⟩ :: body.lines (depth + 1) ++
        ⟨depth, "\x7d"⟩ :: rest.lines depth

def Line.render (indent : String) (line : Line) : String :=
  String.join (List.replicate line.depth indent) ++ line.text ++ "\n"

def layoutError? (root : Bool) : Outline → Option LayoutError
  | nil => none
  | value key text rest =>
    if key = "" then some .emptyKey
    else if root && !isStatement key text then some (.declarationAtRoot key)
    else rest.layoutError? root
  | block key body rest =>
    if key = "" then some .emptyKey
    else (body.layoutError? false).or (rest.layoutError? root)

/-- The style sheet text, with the indent repeated once per level. -/
def encode (indent : String) (d : Outline) : Except LayoutError String :=
  match d.layoutError? true with
  | some e => .error e
  | none => .ok (String.join ((d.lines 0).map (Line.render indent)))

def defaultIndent : String := "  "

end Outline

end CssOutline
