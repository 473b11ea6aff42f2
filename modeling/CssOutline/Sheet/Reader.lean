import CssOutline.Prelude.Reader
import CssOutline.Selector.Reader
import CssOutline.Sheet

/-!
Style sheets read from nodes. The items of a body are first sketched without looking into their
blocks: an item ends with its semicolon or its block in braces. Then the blocks are read, each
with one level of nesting less to go; an item with a block where no level is left is not read.
-/

namespace CssOutline

/-- Whether a body holds declarations and rules, or keyframes. -/
inductive Context where
  | style
  | keyframes
deriving DecidableEq, Repr

inductive Sketch where
  | style (start : Location) (head : Head) (block : List Node)
  | statement (start : Location) (name : String) (clause : Prelude)
  | members (start : Location) (name : String) (clause : Prelude) (context : Context)
    (block : List Node)
  | verbatim (start : Location) (name : String) (clause : Prelude) (block : List Node)
  | unrecognized (start : Location) (fault : Fault) (source : List Char)

inductive Outlook where
  | declaration (declaration : Declaration)
  | rule (sketch : Sketch)

/-- At-rules whose block holds declarations and rules. -/
def memberAtRules : List String :=
  ["media", "supports", "container", "layer", "scope", "starting-style", "document",
    "font-face", "page", "top-left-corner", "top-left", "top-center", "top-right",
    "top-right-corner", "bottom-left-corner", "bottom-left", "bottom-center", "bottom-right",
    "bottom-right-corner", "left-top", "left-middle", "left-bottom", "right-top", "right-middle",
    "right-bottom", "property", "counter-style", "font-palette-values", "font-feature-values",
    "swash", "annotation", "ornaments", "stylistic", "styleset", "character-variant", "viewport",
    "view-transition", "position-try"]

/-- The name of an at-rule in lower case without a vendor's mark. -/
def atRuleKind (name : String) : String :=
  (Vendor.split name.toLower).2

namespace Sketch

def endsItem (n : Node) : Bool :=
  n.isSemicolon || n.isCurly

def ofAtRule (room : Bool) (keyword : Node) (name : String) (front : List Node) :
    Option Node → Sketch
  | some (.block opening body _) =>
    let clause := Prelude.read (atRuleKind name) front
    if !room then
      unrecognized keyword.start .tooDeep (keyword.text ++ Node.textOf front ++ opening.text)
    else if atRuleKind name = "keyframes" then
      members keyword.start name clause .keyframes body
    else if memberAtRules.contains (atRuleKind name) then
      members keyword.start name clause .style body
    else verbatim keyword.start name clause body
  | _ => statement keyword.start name (Prelude.read (atRuleKind name) front)

def readHead (context : Context) (front : List Node) : Except Fault Head :=
  match context with
  | .style => (Node.readSelectors front).map .selectors
  | .keyframes => (Node.readKeyframes front).map .keyframes

def ofRule (context : Context) (room : Bool) (start : Location) (front : List Node) :
    Option Node → Sketch
  | some (.block opening body _) =>
    let source := Node.textOf front ++ opening.text
    match readHead context front with
    | .error fault => unrecognized start fault source
    | .ok head => if room then style start head body else unrecognized start .tooDeep source
  | some (.leaf l) => unrecognized start .expectedBlock (Node.textOf front ++ l.text)
  | none => unrecognized start .expectedBlock (Node.textOf front)

def readDeclaration (name : String) (ns : List Node) : Except Fault Declaration :=
  match Node.dropTrivia ns with
  | [] => .error .endOfInput
  | n :: rest =>
    if n.token == .colon then
      let property := Property.parse name
      if property.isCustom then
        let (value, important) := Node.readCustom rest
        .ok ⟨property, value, important⟩
      else (Node.readDeclared rest).map fun (value, important) => ⟨property, value, important⟩
    else .error (.unexpectedToken n.token)

def upTo (p : Node → Bool) (ns : List Node) : List Node :=
  ns.takeWhile fun n => !p n

def stop? (p : Node → Bool) (ns : List Node) : Option Node :=
  (ns.dropWhile fun n => !p n).head?

def after (p : Node → Bool) (ns : List Node) : List Node :=
  (ns.dropWhile fun n => !p n).drop 1

theorem length_after_le (p : Node → Bool) (ns : List Node) :
    (after p ns).length ≤ ns.length := by
  have := (List.dropWhile_sublist (l := ns) fun n => !p n).length_le
  simp only [after, List.length_drop]
  omega

theorem length_after_cons_le (p : Node → Bool) (n : Node) (ns : List Node) :
    (after p (n :: ns)).length ≤ ns.length := by
  have := (List.dropWhile_sublist (l := n :: ns) fun n => !p n).length_le
  simp only [after, List.length_drop, List.length_cons] at *
  omega

def itemText (p : Node → Bool) (ns : List Node) : List Char :=
  Node.textOf (upTo p ns) ++ ((stop? p ns).map Node.text).getD []

/-- The item that starts with an identifier, and the nodes after it. A declaration if it reads
as one; else a rule; if neither reads, whichever of the two skips less. -/
def ofIdent (room : Bool) (n : Node) (name : String) (rest : List Node) :
    Outlook × List Node :=
  match readDeclaration name (upTo Node.isSemicolon rest) with
  | .ok d => (.declaration d, after Node.isSemicolon rest)
  | .error fault =>
    let rule := ofRule .style room n.start (upTo endsItem (n :: rest)) (stop? endsItem (n :: rest))
    let asRule := (.rule rule, after endsItem (n :: rest))
    match rule with
    | unrecognized _ _ source =>
      let skipped := itemText Node.isSemicolon (n :: rest)
      if source.length < skipped.length then asRule
      else (.rule (unrecognized n.start fault skipped), after Node.isSemicolon (n :: rest))
    | _ => asRule

theorem length_ofIdent_le (room : Bool) (n : Node) (name : String) (rest : List Node) :
    (ofIdent room n name rest).2.length ≤ rest.length := by
  unfold ofIdent
  split
  · exact length_after_le _ _
  · simp only
    split
    · split
      · exact length_after_cons_le _ _ _
      · exact length_after_cons_le _ _ _
    · exact length_after_cons_le _ _ _

def ofBody (context : Context) (room : Bool) (ns : List Node) : List Outlook :=
  match ns with
  | [] => []
  | n :: rest =>
    if n.isTrivia || n.isSemicolon then ofBody context room rest
    else
      match n.token, context with
      | .atKeyword name, _ =>
        have := length_after_le endsItem rest
        .rule (ofAtRule room n name (upTo endsItem rest) (stop? endsItem rest)) ::
          ofBody context room (after endsItem rest)
      | .ident name, .style =>
        have := length_ofIdent_le room n name rest
        (ofIdent room n name rest).1 :: ofBody context room (ofIdent room n name rest).2
      | _, _ =>
        have := length_after_cons_le endsItem n rest
        .rule (ofRule context room n.start (upTo endsItem (n :: rest))
          (stop? endsItem (n :: rest))) :: ofBody context room (after endsItem (n :: rest))
termination_by ns.length

def ofSheet (ns : List Node) : List Sketch :=
  match ns with
  | [] => []
  | n :: rest =>
    if n.isTrivia || n.token == .cdo || n.token == .cdc then ofSheet rest
    else
      match n.token with
      | .atKeyword name =>
        have := length_after_le endsItem rest
        ofAtRule true n name (upTo endsItem rest) (stop? endsItem rest) ::
          ofSheet (after endsItem rest)
      | _ =>
        have := length_after_cons_le Node.isCurly n rest
        ofRule .style true n.start (upTo Node.isCurly (n :: rest))
          (stop? Node.isCurly (n :: rest)) :: ofSheet (after Node.isCurly (n :: rest))
termination_by ns.length

def expand (read : Context → List Node → List Member) : Sketch → Rule
  | style start head block => .style start head (read .style block)
  | statement start name clause => .atRule start name clause .none
  | members start name clause context block =>
    .atRule start name clause (.members (read context block))
  | verbatim start name clause block =>
    .atRule start name clause (.verbatim (String.ofList (Text.trim (Node.textOf block))))
  | unrecognized start fault source =>
    .unrecognized start fault.message (String.ofList (Text.trim source))

end Sketch

def Outlook.expand (read : Context → List Node → List Member) : Outlook → Member
  | declaration d => .declaration d
  | rule sketch => .rule (sketch.expand read)

def maxNesting : Nat := 64

/-- The members of a body within which bodies may nest `room` levels deep. -/
def readBody : Nat → Context → List Node → List Member
  | 0, context, ns => (Sketch.ofBody context false ns).map (Outlook.expand fun _ _ => [])
  | room + 1, context, ns => (Sketch.ofBody context true ns).map (Outlook.expand (readBody room))

def readRules (ns : List Node) : List Rule :=
  (Sketch.ofSheet ns).map (Sketch.expand (readBody (maxNesting - 1)))

/-- Reads a style sheet. It fails if there are rules and none of them could be read, with the
reason of the first. -/
def readSheet (css : String) : Except ParseError (List Rule) :=
  match readRules (Node.ofText css.toList) with
  | .unrecognized start reason source :: rules =>
    if rules.all Rule.isUnrecognized then .error ⟨reason, start⟩
    else .ok (.unrecognized start reason source :: rules)
  | rules => .ok rules

end CssOutline
