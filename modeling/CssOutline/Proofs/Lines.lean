import CssOutline.Outline.Layout
import CssOutline.Proofs.Items

/-! The lines of a written outline as nodes. A text stands for nodes before a character if it is
read as these nodes inside any braces, whatever comes after that character. When every key and
every value stands for nodes before the mark that ends it, the written outline is read as these
nodes with blanks between them and one block in braces for each block. -/

namespace CssOutline

namespace Lexer

theorem plain_single {c : Char} {rest : List Char} {t : Token} (alone : scan c rest = (t, rest)) :
    plain (c :: rest) = ⟨t, [c], .origin⟩ :: plain rest := by
  rw [plain_cons, alone]
  simp [before]

theorem plain_semicolon (rest : List Char) :
    plain (';' :: rest) = ⟨.semicolon, [';'], .origin⟩ :: plain rest :=
  plain_single rfl

theorem plain_openCurly (rest : List Char) :
    plain ('\x7b' :: rest) = ⟨.openCurly, ['\x7b'], .origin⟩ :: plain rest :=
  plain_single rfl

theorem plain_closeCurly (rest : List Char) :
    plain ('\x7d' :: rest) = ⟨.closeCurly, ['\x7d'], .origin⟩ :: plain rest :=
  plain_single rfl

theorem plain_blanks {c : Char} {blanks rest : List Char} (first : Text.isBlank c)
    (blank : ∀ b ∈ blanks, Text.isBlank b) (solid : ∀ s ∈ rest.head?, Text.isBlank s = false) :
    plain (c :: (blanks ++ rest)) = ⟨.whitespace, c :: blanks, .origin⟩ :: plain rest := by
  have dropped : (blanks ++ rest).dropWhile Text.isBlank = rest := by
    rw [List.dropWhile_append_of_pos blank]
    cases rest with
    | nil => rfl
    | cons s rest => exact List.dropWhile_cons_of_neg (by simp [solid s rfl])
  have scanned : scan c (blanks ++ rest) = (.whitespace, rest) := by
    unfold scan
    rw [if_pos first, dropped]
  have length : (c :: (blanks ++ rest)).length - rest.length = (c :: blanks).length := by
    simp only [List.length_cons, List.length_append]
    omega
  rw [plain_cons, scanned, before, length, ← List.cons_append, List.take_left]

end Lexer

namespace Node

def OnlyBraces (stack : List Frame) : Prop :=
  ∀ f ∈ stack, f.opening.token = .openCurly

/-- The text starts with a token, and before the character `x` it is read as these nodes. -/
def Stands (x : Char) (cs : List Char) (ns : List Node) : Prop :=
  (∃ c rest, cs = c :: rest ∧ Text.isBlank c = false) ∧
  ∀ stack siblings rest, OnlyBraces stack →
    build stack siblings (Lexer.plain (cs ++ x :: rest)) =
      build stack (ns.reverse ++ siblings) (Lexer.plain (x :: rest))

theorem Stands.solid {x : Char} {cs : List Char} {ns : List Node} (stands : Stands x cs ns)
    (rest : List Char) : ∀ s ∈ (cs ++ rest).head?, Text.isBlank s = false := by
  obtain ⟨⟨c, tail, rfl, solid⟩, _⟩ := stands
  simpa using solid

theorem OnlyBraces.leaf {stack : List Frame} (only : OnlyBraces stack) {l : Lexeme}
    (other : l.token ≠ .closeCurly) :
    ∀ f ∈ stack.head?, f.opening.token.closing? ≠ some l.token := by
  intro f first
  rw [only f (List.mem_of_head? first)]
  simpa [Token.closing?] using Ne.symm other

section Marks

variable {stack : List Frame} (only : OnlyBraces stack) (siblings : List Node) (rest : List Char)

include only

theorem build_semicolon :
    build stack siblings (Lexer.plain (';' :: rest)) =
      build stack (semicolon :: siblings) (Lexer.plain rest) := by
  rw [Lexer.plain_semicolon]
  exact build_leaf rfl (only.leaf (by simp))

theorem build_gap {c : Char} {blanks : List Char} (first : Text.isBlank c)
    (blank : ∀ b ∈ blanks, Text.isBlank b) (solid : ∀ s ∈ rest.head?, Text.isBlank s = false) :
    build stack siblings (Lexer.plain (c :: (blanks ++ rest))) =
      build stack (gap (c :: blanks) :: siblings) (Lexer.plain rest) := by
  rw [Lexer.plain_blanks first blank solid]
  exact build_leaf rfl (only.leaf (by simp))

theorem build_space (solid : ∀ s ∈ rest.head?, Text.isBlank s = false) :
    build stack siblings (Lexer.plain (' ' :: rest)) =
      build stack (gap [' '] :: siblings) (Lexer.plain rest) :=
  build_gap only siblings rest rfl (by simp : ∀ b ∈ ([] : List Char), Text.isBlank b) solid

theorem build_braces {inside : List Node} {cs : List Char}
    (inner : ∀ stack siblings, OnlyBraces stack →
      build stack siblings (Lexer.plain (cs ++ '\x7d' :: rest)) =
        build stack (inside.reverse ++ siblings) (Lexer.plain ('\x7d' :: rest))) :
    build stack siblings (Lexer.plain ('\x7b' :: (cs ++ '\x7d' :: rest))) =
      build stack (braces inside :: siblings) (Lexer.plain rest) := by
  have deeper : ∀ f ∈ (⟨⟨.openCurly, ['\x7b'], .origin⟩, siblings⟩ : Frame) :: stack,
      f.opening.token = .openCurly := by
    intro f member
    rcases List.mem_cons.1 member with rfl | later
    · rfl
    · exact only f later
  rw [Lexer.plain_openCurly, build_open rfl, inner _ _ deeper, Lexer.plain_closeCurly,
    build_close rfl rfl]
  simp [braces, curly]

theorem Stands.build_braces {key cs : List Char} {ns inside : List Node}
    (head : Stands ' ' key ns)
    (inner : ∀ stack siblings, OnlyBraces stack →
      build stack siblings (Lexer.plain (cs ++ '\x7d' :: rest)) =
        build stack (inside.reverse ++ siblings) (Lexer.plain ('\x7d' :: rest))) :
    build stack siblings (Lexer.plain (key ++ ' ' :: '\x7b' :: (cs ++ '\x7d' :: rest))) =
      build stack (braces inside :: gap [' '] :: (ns.reverse ++ siblings)) (Lexer.plain rest) := by
  rw [head.2 _ _ _ only, build_space only _ _ (by simp; rfl), Node.build_braces only _ _ inner]

theorem Stands.build_compact {text : List Char} {ns : List Node} (inside : Stands ';' text ns) :
    build stack siblings (Lexer.plain (' ' :: (text ++ [';', ' ']) ++ '\x7d' :: rest)) =
      build stack ((gap [' '] :: (ns ++ [semicolon, gap [' ']])).reverse ++ siblings)
        (Lexer.plain ('\x7d' :: rest)) := by
  simp only [List.cons_append, List.append_assoc, List.nil_append]
  rw [build_space only _ _ (inside.solid _), inside.2 _ _ _ only, build_semicolon only,
    build_space only _ _ (by simp; rfl)]
  simp

end Marks

end Node

namespace Outline

def lineText (key text : String) : List Char :=
  (if isStatement key text then key else key ++ ": " ++ text).toList

def pad (indent : List Char) (depth : Nat) : List Char :=
  (List.replicate depth indent).flatten

/-- The text of an outline, each entry after a line break instead of before one. -/
def spread (indent : List Char) (depth : Nat) : Outline → List Char
  | nil => []
  | value key text rest =>
    '\n' :: (pad indent depth ++ (lineText key text ++ ';' :: rest.spread indent depth))
  | block key body rest =>
    '\n' :: (pad indent depth ++ (key.toList ++ ' ' :: '\x7b' :: ((
      match compactBody? key body with
      | some text => ' ' :: (text.toList ++ [';', ' '])
      | none => body.spread indent (depth + 1) ++ '\n' :: pad indent depth) ++
        '\x7d' :: rest.spread indent depth)))

theorem toList_render (indent : String) (line : Line) :
    (line.render indent).toList = pad indent.toList line.depth ++ (line.text.toList ++ ['\n']) := by
  simp [Line.render, pad, String.toList_join, List.flatMap_replicate]

theorem spread_lines (indent : String) (depth : Nat) (d : Outline) (cs : List Char) :
    d.spread indent.toList depth ++ '\n' :: cs =
      '\n' :: (((d.lines depth).map (Line.render indent)).flatMap String.toList ++ cs) := by
  induction d generalizing depth cs with
  | nil => rfl
  | value key text rest ih =>
    rw [lines, List.map_cons, List.flatMap_cons, toList_render, spread, lineText]
    split <;> simp [ih]
  | block key body rest inner ih =>
    rw [lines, spread]
    cases compactBody? key body with
    | some text => simp [toList_render, ih]
    | none => simp [toList_render, ih, inner]

theorem toList_of_encode {indent text : String} {d : Outline} (encoded : d.encode indent = .ok text) :
    '\n' :: text.toList = d.spread indent.toList 0 ++ ['\n'] := by
  unfold encode at encoded
  split at encoded
  · cases encoded
  · cases encoded
    rw [spread_lines, String.toList_join, List.append_nil]

open Node (Stands gap semicolon braces)

/-- Every line of the outline, as it is written in a place, is read as one item of its own,
whatever follows it. -/
inductive SelfContained : Place → Outline → Prop
  | nil {place : Place} : SelfContained place nil
  | value {place : Place} {key text : String} {rest : Outline} {ns : List Node}
    (line : Stands ';' (lineText key text) ns) (ends : place.endsAtSemicolon ns)
    (later : SelfContained place rest) : SelfContained place (value key text rest)
  | compact {place : Place} {key text : String} {body rest : Outline} {ns ms : List Node}
    (kept : compactBody? key body = some text) (head : Stands ' ' key.toList ns)
    (ends : place.endsAtBraces (ns ++ [gap [' ']])) (inside : Stands ';' text.toList ms)
    (later : SelfContained place rest) : SelfContained place (block key body rest)
  | block {place : Place} {key : String} {body rest : Outline} {ns : List Node}
    (open_ : compactBody? key body = none) (head : Stands ' ' key.toList ns)
    (ends : place.endsAtBraces (ns ++ [gap [' ']]))
    (inner : SelfContained (.body (Place.bodyContext (ns ++ [gap [' ']]))) body)
    (later : SelfContained place rest) : SelfContained place (block key body rest)

inductive Laid (indent : List Char) : Place → Nat → Outline → List Node → Prop
  | nil {place : Place} {depth : Nat} : Laid indent place depth nil []
  | value {place : Place} {depth : Nat} {key text : String} {rest : Outline} {ns more : List Node}
    (line : Stands ';' (lineText key text) ns) (ends : place.endsAtSemicolon ns)
    (later : Laid indent place depth rest more) :
    Laid indent place depth (value key text rest)
      (gap ('\n' :: pad indent depth) :: (ns ++ semicolon :: more))
  | compact {place : Place} {depth : Nat} {key text : String} {body rest : Outline}
    {ns ms more : List Node} (kept : compactBody? key body = some text)
    (head : Stands ' ' key.toList ns) (ends : place.endsAtBraces (ns ++ [gap [' ']]))
    (inside : Stands ';' text.toList ms) (later : Laid indent place depth rest more) :
    Laid indent place depth (block key body rest)
      (gap ('\n' :: pad indent depth) :: (ns ++ [gap [' ']] ++
        braces (gap [' '] :: (ms ++ [semicolon, gap [' ']])) :: more))
  | block {place : Place} {depth : Nat} {key : String} {body rest : Outline}
    {ns inside more : List Node} (open_ : compactBody? key body = none)
    (head : Stands ' ' key.toList ns) (ends : place.endsAtBraces (ns ++ [gap [' ']]))
    (inner : Laid indent (.body (Place.bodyContext (ns ++ [gap [' ']]))) (depth + 1) body inside)
    (later : Laid indent place depth rest more) :
    Laid indent place depth (block key body rest)
      (gap ('\n' :: pad indent depth) :: (ns ++ [gap [' ']] ++
        braces (inside ++ [gap ('\n' :: pad indent depth)]) :: more))

theorem SelfContained.laid {place : Place} {d : Outline} (contained : SelfContained place d)
    (indent : List Char) (depth : Nat) : ∃ ns, Laid indent place depth d ns := by
  induction contained generalizing depth with
  | nil => exact ⟨_, .nil⟩
  | value line ends _ ih =>
    obtain ⟨more, later⟩ := ih depth
    exact ⟨_, .value line ends later⟩
  | compact kept head ends inside _ ih =>
    obtain ⟨more, later⟩ := ih depth
    exact ⟨_, .compact kept head ends inside later⟩
  | block open_ head ends _ _ below ih =>
    obtain ⟨inside, inner⟩ := below (depth + 1)
    obtain ⟨more, later⟩ := ih depth
    exact ⟨_, .block open_ head ends inner later⟩

theorem isBlank_pad {indent : List Char} (blank : ∀ c ∈ indent, Text.isBlank c) (depth : Nat) :
    ∀ c ∈ pad indent depth, Text.isBlank c := by
  intro c member
  obtain ⟨part, copy, inside⟩ := List.mem_flatten.1 member
  rw [List.eq_of_mem_replicate copy] at inside
  exact blank c inside

section Build

variable {indent : List Char} (blank : ∀ c ∈ indent, Text.isBlank c) (depth : Nat)
  {stack : List Node.Frame} (only : Node.OnlyBraces stack) (siblings : List Node)
  (rest : List Char) {ns : List Node}

include blank only

/-- A line with a value is read as its nodes, after those of the blanks before it. -/
theorem build_valueLine {cs : List Char} (line : Stands ';' cs ns) :
    Node.build stack siblings (Lexer.plain
      ('\n' :: (pad indent depth ++ (cs ++ ';' :: rest)))) =
    Node.build stack ((gap ('\n' :: pad indent depth) :: (ns ++ [semicolon])).reverse ++ siblings)
      (Lexer.plain rest) := by
  rw [Node.build_gap only _ _ rfl (isBlank_pad blank depth) (line.solid _), line.2 _ _ _ only,
    Node.build_semicolon only]
  simp

theorem build_blockLine {key cs : List Char} {inside : List Node} (head : Stands ' ' key ns)
    (inner : ∀ stack siblings, Node.OnlyBraces stack →
      Node.build stack siblings (Lexer.plain (cs ++ '\x7d' :: rest)) =
        Node.build stack (inside.reverse ++ siblings) (Lexer.plain ('\x7d' :: rest))) :
    Node.build stack siblings (Lexer.plain
      ('\n' :: (pad indent depth ++ (key ++ ' ' :: '\x7b' :: (cs ++ '\x7d' :: rest))))) =
    Node.build stack ((gap ('\n' :: pad indent depth) ::
      (ns ++ [gap [' ']] ++ [braces inside])).reverse ++ siblings) (Lexer.plain rest) := by
  rw [Node.build_gap only _ _ rfl (isBlank_pad blank depth) (head.solid _),
    head.build_braces only _ _ inner]
  simp

theorem build_body {cs : List Char} {inside : List Node}
    (lines : ∀ rest, Node.build stack siblings (Lexer.plain (cs ++ '\n' :: rest)) =
      Node.build stack (inside.reverse ++ siblings) (Lexer.plain ('\n' :: rest))) :
    Node.build stack siblings (Lexer.plain ((cs ++ '\n' :: pad indent depth) ++ '\x7d' :: rest)) =
      Node.build stack ((inside ++ [gap ('\n' :: pad indent depth)]).reverse ++ siblings)
        (Lexer.plain ('\x7d' :: rest)) := by
  rw [List.append_assoc, List.cons_append, lines,
    Node.build_gap only _ _ rfl (isBlank_pad blank depth) (by simp; rfl)]
  simp

theorem Laid.build {place : Place} {d : Outline} {depth : Nat} (laid : Laid indent place depth d ns) :
    Node.build stack siblings (Lexer.plain (d.spread indent depth ++ '\n' :: rest)) =
      Node.build stack (ns.reverse ++ siblings) (Lexer.plain ('\n' :: rest)) := by
  induction laid generalizing stack siblings rest with
  | nil => rfl
  | value line _ _ ih =>
    simp only [spread, List.cons_append, List.append_assoc]
    rw [build_valueLine blank _ only _ _ line, ih only]
    simp
  | @compact _ depth key text body rest' ns ms more kept head _ inside _ ih =>
    have line := build_blockLine blank depth only siblings
      (rest'.spread indent depth ++ '\n' :: rest) head
      fun stack siblings only => inside.build_compact only siblings _
    rw [ih only] at line
    simpa [spread, kept] using line
  | @block _ depth key body rest' ns inside more open_ head _ _ _ below ih =>
    have line := build_blockLine blank depth only siblings
      (rest'.spread indent depth ++ '\n' :: rest) head
      fun stack siblings only => build_body blank depth only siblings _ fun rest => below only _ rest
    rw [ih only] at line
    simpa [spread, open_] using line

end Build

end Outline

end CssOutline
