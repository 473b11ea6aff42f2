import CssOutline.Prelude
import CssOutline.Segments
import CssOutline.Value.Reader

/-!
Preludes read from nodes. Media queries are conditions that commas separate; `@supports`,
`@container` and `@scope` hold one condition; every other prelude is a value. What does not fit
is kept as text.
-/

namespace CssOutline

namespace Condition

def feature? (body : List Node) : Option Condition :=
  match Node.dropTrivia body with
  | [] => none
  | n :: rest =>
    match n.token with
    | .ident name =>
      match Node.dropTrivia rest with
      | [] => some (feature name none)
      | separator :: rest =>
        if separator.token == .colon then
          match Node.readValue rest with
          | .ok v => some (feature name (some v))
          | .error _ => none
        else none
    | _ => none

def ofNode (n : Node) : Condition :=
  match n, n.token with
  | _, .ident name => keyword name
  | .block _ body _, .openParen => (feature? body).getD (raw (String.ofList n.text))
  | _, .function _ => raw (String.ofList n.text)
  | _, t => raw t.css

def read? (ns : List Node) : Option (List Condition) :=
  match (Node.significant ns).map ofNode with
  | [] => none
  | parts => some parts

end Condition

/-- The prelude of an at-rule of a kind: its name in lower case without a vendor's mark. -/
def Prelude.read (kind : String) (ns : List Node) : Prelude :=
  if Node.significant ns = [] then empty
  else
    let kept := raw (Node.trimmedText ns)
    match kind with
    | "media" => (((segments Node.isComma ns).mapM Condition.read?).map media).getD kept
    | "supports" => ((Condition.read? ns).map condition).getD kept
    | "container" => ((Condition.read? ns).map condition).getD kept
    | "scope" => ((Condition.read? ns).map condition).getD kept
    | _ =>
      match Node.readValue ns with
      | .ok v => value v
      | .error _ => kept

end CssOutline
