import CssOutline.Color.Reader
import CssOutline.Fault
import CssOutline.Math.Reader

/-!
Values read from nodes. Blanks separate words and commas separate groups of words; a word of
several nodes is kept as text, as is a whole value with an empty group. A function is a color or
a math expression if it reads as one, and a call of values otherwise. The value of a custom
property is kept as text from its first to its last token.
-/

namespace CssOutline

inductive Piece.Kind where
  | space
  | comma
  | bang
  /-- An exclamation mark with the word `important` after it. -/
  | important
  | word (value : Value)
  /-- A block in braces, which no value holds. -/
  | block

structure Piece where
  kind : Piece.Kind
  /-- The source text, with the comments directly before it. -/
  text : List Char
  /-- The source text up to the end of the first token. -/
  head : List Char

namespace Piece

def isOutside (p : Piece) : Bool :=
  match p.kind with
  | .space => true
  | .important => true
  | _ => false

def isImportant (p : Piece) : Bool :=
  match p.kind with
  | .important => true
  | _ => false

def wordValue : List (List Char × Value) → List Value
  | [] => []
  | [(_, v)] => [v]
  | parts => [.raw (String.ofList (parts.flatMap Prod.fst))]

/-- The values of each group; none if a block stands among the pieces. `parts` are the nodes of
the current word and `group` the values of the current group. -/
def groupsFrom (parts : List (List Char × Value)) (group : List Value) :
    List Piece → Option (List (List Value))
  | [] => some [group ++ wordValue parts]
  | p :: ps =>
    match p.kind with
    | .space => groupsFrom [] (group ++ wordValue parts) ps
    | .important => groupsFrom [] (group ++ wordValue parts) ps
    | .comma => (groupsFrom [] [] ps).map ((group ++ wordValue parts) :: ·)
    | .bang => groupsFrom (parts ++ [(p.text, .raw "!")]) group ps
    | .word v => groupsFrom (parts ++ [(p.text, v)]) group ps
    | .block => none

def groups (ps : List Piece) : Option (List (List Value)) :=
  groupsFrom [] [] ps

def groupValues? : List (List Value) → Option (List Value)
  | [] => some []
  | [] :: _ => none
  | [v] :: gs => (groupValues? gs).map (v :: ·)
  | vs :: gs => (groupValues? gs).map (.list vs :: ·)

def arguments? (ps : List Piece) : Option (List Value) :=
  match groups ps with
  | none => none
  | some [[]] => some []
  | some gs => groupValues? gs

def source (ps : List Piece) : List Char :=
  (ps.reverse.dropWhile isOutside).reverse.flatMap text

def tokenSource (ps : List Piece) : List Char :=
  match ps.reverse.dropWhile isOutside with
  | [] => []
  | last :: front => front.reverse.flatMap text ++ last.head

def value (ps : List Piece) : Except Fault Value :=
  match groups ps with
  | none => .error .blockInValue
  | some gs =>
    if gs.all List.isEmpty then .error .emptyValue
    else
      match groupValues? gs with
      | none => .ok (.raw (String.ofList (Text.trim (source ps))))
      | some [v] => .ok v
      | some vs => .ok (.commaList vs)

def importantAfter? : List Piece → Option (List Char × List Piece)
  | [] => none
  | p :: ps =>
    match p.kind with
    | .space => (importantAfter? ps).map fun (t, rest) => (p.text ++ t, rest)
    | .word (.keyword name) =>
      if Text.sameName name "important" then some (p.text, ps) else none
    | _ => none

theorem length_of_importantAfter? {ps rest : List Piece} {t : List Char}
    (h : importantAfter? ps = some (t, rest)) : rest.length < ps.length := by
  induction ps generalizing t rest with
  | nil => simp [importantAfter?] at h
  | cons p ps ih =>
    unfold importantAfter? at h
    split at h
    · simp only [Option.map_eq_some_iff, Prod.mk.injEq] at h
      obtain ⟨⟨t', rest'⟩, found, _, rfl⟩ := h
      have shorter : rest'.length < ps.length := ih found
      simp only [List.length_cons]
      omega
    · split at h
      · simp only [Option.some.injEq, Prod.mk.injEq] at h
        simp [h.2]
      · simp at h
    · simp at h

def markImportant (ps : List Piece) : List Piece :=
  match ps with
  | [] => []
  | p :: ps =>
    match p.kind with
    | .bang =>
      match h : importantAfter? ps with
      | some (t, rest) =>
        have := length_of_importantAfter? h
        ⟨.important, p.text ++ t, p.text ++ t⟩ :: markImportant rest
      | none => p :: markImportant ps
    | _ => p :: markImportant ps
termination_by ps.length

end Piece

def Value.ofToken (source : List Char) : Token → Value
  | .ident name =>
    if Text.sameName name "currentcolor" then .color .current else .keyword name
  | .hash name => hexOr name
  | .idHash name => hexOr name
  | .string s => .string ⟨s, Quoted.quoteOf source⟩
  | .url u => .verbatimCall "url" u
  | .number n =>
    exactOrRaw (match n.integer with
      | some i => .integer i
      | none => .number n.value) (String.ofList source)
  | .percentage n => exactOrRaw (.percentage n.percent) (String.ofList source)
  | .dimension n unit => exactOrRaw (.dimension n.value unit) (String.ofList source)
  | .badUrl text => .unmodeled "bad-url" (some text)
  | .badString text => .unmodeled "bad-string" (some text)
  | .cdo => .unmodeled "cdo" none
  | .cdc => .unmodeled "cdc" none
  | .closeParen => .unmodeled "unbalanced-close" none
  | .closeSquare => .unmodeled "unbalanced-close" none
  | .closeCurly => .unmodeled "unbalanced-close" none
  | t => .raw t.css
where
  hexOr (name : String) : Value :=
    match Color.ofHex? name with
    | some c => .color c
    | none => .raw (String.ofList source)

namespace Node

/-- A text from its first token on, trimmed. -/
def trimmedText (ns : List Node) : String :=
  String.ofList (Text.trim (textOf (dropTrivia ns)))

def callValue (name : String) (body : List Node) (ps : List Piece) : Value :=
  match Piece.arguments? ps with
  | some vs => .call name vs
  | none => .verbatimCall name (trimmedText body)

mutual

/-- The value of a node after the comments `lead`; none for a block in braces. -/
def value? (lead : List Char) : Node → Option Value
  | leaf l => some (.ofToken (lead ++ l.text) l.token)
  | block l body closing =>
    match l.token with
    | .openCurly => none
    | .function name =>
      match color? (block l body closing), calc? (block l body closing) with
      | some c, _ => some (.color c)
      | none, some (.function m) => some (.length (.math m))
      | none, _ => some (callValue name body (pieces none body))
    | _ => some (.raw (String.ofList (lead ++ (block l body closing).text)))

/-- The pieces of a list of nodes. `lead` holds the comments before it; with none, blanks and
comments at the front are skipped. -/
def pieces (lead : Option (List Char)) : List Node → List Piece
  | [] => []
  | n :: ns =>
    match n.token, lead with
    | .comment, _ => pieces (lead.map (· ++ n.text)) ns
    | .whitespace, none => pieces none ns
    | .whitespace, some l => ⟨.space, l ++ n.text, l ++ n.text⟩ :: pieces (some []) ns
    | t, _ =>
      let kind : Piece.Kind :=
        match t with
        | .comma => .comma
        | .delim '!' => .bang
        | _ =>
          match value? (lead.getD []) n with
          | some v => .word v
          | none => .block
      ⟨kind, lead.getD [] ++ n.text, lead.getD [] ++ n.headText⟩ :: pieces (some []) ns

end

def readValue (ns : List Node) : Except Fault Value :=
  Piece.value (pieces none ns)

/-- The value of a declaration, and whether it is important. -/
def readDeclared (ns : List Node) : Except Fault (Value × Bool) :=
  let ps := Piece.markImportant (pieces none ns)
  (Piece.value ps).map (·, ps.any Piece.isImportant)

def readCustom (ns : List Node) : Value × Bool :=
  let ps := Piece.markImportant (pieces none ns)
  (.raw (String.ofList (Piece.tokenSource ps)), ps.any Piece.isImportant)

end Node

end CssOutline
