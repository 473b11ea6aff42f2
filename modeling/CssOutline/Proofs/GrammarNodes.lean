import CssOutline.Proofs.Spelling

/-! The nodes that plain style sheets are read as. A text spells nodes before texts of a kind if,
followed by such a text, it is read as these nodes in whatever blocks are open. Texts that follow
each other spell the nodes of both when the second is of the kind the first needs. -/

namespace CssOutline

/-- A token that neither opens nor closes a block. -/
def Token.isFlat : Token → Bool
  | function _ => false
  | openParen => false
  | openSquare => false
  | openCurly => false
  | closeParen => false
  | closeSquare => false
  | closeCurly => false
  | _ => true

theorem Token.closing?_of_isFlat {t : Token} (flat : t.isFlat) :
    t.closing? = none ∧ ∀ u : Token, u.closing? ≠ some t := by
  constructor
  · cases t <;> first | rfl | cases flat
  · intro u closes
    cases u <;> cases closes <;> cases flat

namespace Node

def atom (t : Token) (cs : List Char) : Node :=
  leaf ⟨t, cs, .origin⟩

def parens (inside : List Node) : Node :=
  block ⟨.openParen, ['('], .origin⟩ inside (some ⟨.closeParen, [')'], .origin⟩)

def comma : Node := atom .comma [',']

def colon : Node := atom .colon [':']

/-- Before texts of a kind, the text is read as these nodes. -/
def Spells (ok : List Char → Prop) (cs : List Char) (ns : List Node) : Prop :=
  ∀ stack siblings rest, ok rest →
    build stack siblings (Lexer.plain (cs ++ rest)) =
      build stack (ns.reverse ++ siblings) (Lexer.plain rest)

/-- A text that does not start with a blank. -/
def Solid (rest : List Char) : Prop :=
  ∀ x ∈ rest.head?, Text.isBlank x = false

/-- A text that starts with something else than a blank. -/
def Visible (cs : List Char) : Prop :=
  ∃ c rest, cs = c :: rest ∧ Text.isBlank c = false

theorem Visible.append {cs : List Char} (visible : Visible cs) (more : List Char) :
    Visible (cs ++ more) := by
  obtain ⟨c, rest, rfl, solid⟩ := visible
  exact ⟨c, rest ++ more, rfl, solid⟩

theorem Visible.solid {cs : List Char} (visible : Visible cs) (more : List Char) :
    Solid (cs ++ more) := by
  obtain ⟨c, rest, rfl, solid⟩ := visible
  intro x head
  cases head
  exact solid

namespace Spells

variable {ok ok' : List Char → Prop} {cs ds : List Char} {ns ms : List Node}

theorem nil : Spells ok [] [] :=
  fun _ _ _ _ => rfl

theorem mono (spells : Spells ok cs ns) (stronger : ∀ rest, ok' rest → ok rest) :
    Spells ok' cs ns :=
  fun stack siblings rest kind => spells stack siblings rest (stronger rest kind)

theorem append (first : Spells ok cs ns) (second : Spells ok' ds ms)
    (fits : ∀ rest, ok' rest → ok (ds ++ rest)) : Spells ok' (cs ++ ds) (ns ++ ms) := by
  intro stack siblings rest kind
  rw [List.append_assoc, first _ _ _ (fits rest kind), second _ _ _ kind]
  simp

theorem atom {c : Char} {t : Token} (flat : t.isFlat)
    (scanned : ∀ rest, ok rest → Lexer.scan c (cs ++ rest) = (t, rest)) :
    Spells ok (c :: cs) [atom t (c :: cs)] := by
  intro stack siblings rest kind
  obtain ⟨opens, closes⟩ := Token.closing?_of_isFlat flat
  rw [Lexer.plain_append (scanned rest kind)]
  exact build_leaf opens fun f _ => closes _

theorem space : Spells Solid [' '] [gap [' ']] := by
  intro stack siblings rest solid
  have blanks : ∀ b ∈ ([] : List Char), Text.isBlank b := by simp
  have scanned : Lexer.plain (' ' :: ([] ++ rest)) = _ := Lexer.plain_blanks rfl blanks solid
  rw [List.singleton_append, ← List.nil_append rest, scanned]
  exact build_leaf rfl fun f _ => (Token.closing?_of_isFlat rfl).2 _

theorem comma : Spells Solid [',', ' '] [comma, gap [' ']] := by
  have single : Spells (fun _ => True) [','] [Node.comma] := atom rfl fun _ _ => rfl
  exact single.append space fun _ _ => trivial

theorem colon : Spells (fun _ => True) [':'] [colon] :=
  atom rfl fun _ _ => rfl

theorem parens (inside : Spells ok cs ns) (closes : ∀ rest, ok (')' :: rest)) :
    Spells (fun _ => True) ('(' :: (cs ++ [')'])) [parens ns] := by
  intro stack siblings rest _
  have opening : Lexer.plain ('(' :: (cs ++ ')' :: rest)) =
      ⟨.openParen, ['('], .origin⟩ :: Lexer.plain (cs ++ ')' :: rest) := Lexer.plain_single rfl
  have closing : Lexer.plain (')' :: rest) = ⟨.closeParen, [')'], .origin⟩ :: Lexer.plain rest :=
    Lexer.plain_single rfl
  rw [List.cons_append, List.append_assoc, List.singleton_append, opening, build_open rfl,
    inside _ _ _ (closes rest), closing, build_close rfl rfl]
  simp [Node.parens]

theorem stands (spells : Spells ok cs ns) {x : Char} (ends : ∀ rest, ok (x :: rest))
    (visible : Visible cs) : Stands x cs ns :=
  ⟨visible, fun stack siblings rest _ => spells stack siblings (x :: rest) (ends rest)⟩

end Spells

end Node

namespace Grammar

open Node (Spells Solid atom gap)
open Lexer

/-- The nodes of things one after the other, with those of a separator between them. -/
def Many.nodes {α : Type} (separator : List Node) (nodes : α → List Node) (m : Many α) : List Node :=
  nodes m.first ++ m.more.flatMap fun a => separator ++ nodes a

theorem Many.nodes_single {α : Type} (separator : List Node) (nodes : α → List Node) (a : α) :
    Many.nodes separator nodes ⟨a, []⟩ = nodes a := by
  simp [Many.nodes]

theorem Many.nodes_cons {α : Type} (separator : List Node) (nodes : α → List Node) (a b : α)
    (rest : List α) :
    Many.nodes separator nodes ⟨a, b :: rest⟩ =
      nodes a ++ (separator ++ Many.nodes separator nodes ⟨b, rest⟩) := by
  simp [Many.nodes]

theorem Many.spells {α : Type} {ok okSeparator : List Char → Prop} {separator : List Char}
    {between : List Node} {text : α → List Char} {nodes : α → List Node}
    (item : ∀ a, Spells ok (text a) (nodes a)) (separates : Spells okSeparator separator between)
    (before : ∀ rest, ok (separator ++ rest)) (after : ∀ a rest, okSeparator (text a ++ rest))
    (m : Many α) : Spells ok (m.chars separator text) (m.nodes between nodes) := by
  induction m using Many.induction with
  | single a =>
    rw [Many.chars_single, Many.nodes_single]
    exact item a
  | cons a b rest ih =>
    rw [Many.chars_cons, Many.nodes_cons]
    apply (item a).append (separates.append ih _)
    · intro more _
      rw [List.append_assoc]
      exact before _
    · intro more _
      rw [Many.chars, List.append_assoc]
      exact after b _

theorem Many.visible {α : Type} {text : α → List Char} (item : ∀ a, Node.Visible (text a))
    (separator : List Char) (m : Many α) : Node.Visible (m.chars separator text) :=
  (item m.first).append _

theorem visible_of_isLower {c : Char} (lower : c.isLower) (rest : List Char) :
    Node.Visible (c :: rest) :=
  ⟨c, rest, rfl, isBlank_eq_false fun _ blank => ne_of_isLower lower (isLower_of_isBlank blank).1⟩

section Values

def Word.node (w : Word) : Node :=
  atom w.token w.chars

def Words.nodes (ws : Words) : List Node :=
  Many.nodes [gap [' ']] (fun w => [Word.node w]) ws

def Groups.nodes (gs : Groups) : List Node :=
  Many.nodes [Node.comma, gap [' ']] Words.nodes gs

theorem Word.visible (w : Word) : Node.Visible w.chars := by
  cases w with
  | name n => exact visible_of_isLower n.lower n.rest
  | number d suffix =>
    refine ⟨d.first, d.rest ++ suffix.chars, rfl, ?_⟩
    exact isBlank_eq_false fun _ blank => ne_of_isDigit d.digit (isLower_of_isBlank blank).2

theorem Words.visible (ws : Words) : Node.Visible ws.chars :=
  Many.visible Word.visible _ ws

theorem Groups.visible (gs : Groups) : Node.Visible gs.chars :=
  Many.visible Words.visible _ gs

theorem Word.spells (w : Word) : Spells EndsWord w.chars [w.node] := by
  have flat : w.token.isFlat := by
    cases w with
    | name n => rfl
    | number d suffix => cases suffix <;> rfl
  obtain ⟨c, cs, same, _⟩ := w.visible
  rw [Word.node, same]
  exact Spells.atom flat fun rest ends => w.scan same ends

theorem Words.spells (ws : Words) : Spells EndsWord ws.chars ws.nodes := by
  apply Many.spells Word.spells Spells.space
  · intro rest x head
    cases head
    exact .inl rfl
  · exact fun w rest => w.visible.solid rest

theorem Groups.spells (gs : Groups) : Spells EndsWord gs.chars gs.nodes := by
  apply Many.spells Words.spells Spells.comma
  · intro rest x head
    cases head
    exact .inr (.inl rfl)
  · exact fun ws rest => ws.visible.solid rest

end Values

section Selectors

def Name.node (n : Name) : Node :=
  atom (.ident n.text) n.chars

def Subject.nodes : Subject → List Node
  | element n => [n.node]
  | universal => [atom (.delim '*') ['*']]
  | nesting => [atom (.delim '&') ['&']]

def Filter.nodes : Filter → List Node
  | className n => [atom (.delim '.') ['.'], n.node]
  | identity n => [atom (.idHash n.text) ('#' :: n.chars)]
  | pseudo n => [Node.colon, n.node]

def Compound.nodes (c : Compound) : List Node :=
  (c.subject.map Subject.nodes).getD [] ++ c.filters.flatMap Filter.nodes

def combinatorNode : Combinator → Node
  | .descendant => gap [' ']
  | .child => atom (.delim '>') ['>']
  | .nextSibling => atom (.delim '+') ['+']
  | .laterSibling => atom (.delim '~') ['~']

def Complex.nodes (s : Complex) : List Node :=
  s.first.nodes ++ s.more.flatMap fun (c, compound) => combinatorNode c :: compound.nodes

/-- A text after which a compound selector may have ended. -/
def EndsCompound (rest : List Char) : Prop :=
  ∀ x ∈ rest.head?, (endsName x ∧ x ≠ '(') ∧ x ≠ '='

theorem EndsCompound.endsIdent {rest : List Char} (ends : EndsCompound rest) : EndsIdent rest :=
  fun x head => (ends x head).1

theorem endsCompound_cons {x : Char} (ends : (endsName x ∧ x ≠ '(') ∧ x ≠ '=') (rest : List Char) :
    EndsCompound (x :: rest) := by
  intro y head
  cases head
  exact ends

theorem Name.spells (n : Name) : Spells EndsIdent n.chars [n.node] :=
  Spells.atom rfl fun _ ends => n.scan ends

/-- A mark that would be another one before an equals sign. -/
theorem matchToken_delim {rest : List Char} (c : Char) (t : Token)
    (plain : ∀ x ∈ rest.head?, x ≠ '=') : matchToken c t rest = (.delim c, rest) := by
  unfold matchToken
  split
  · exact absurd rfl (plain '=' rfl)
  · rfl

theorem Subject.spells (s : Subject) : Spells EndsCompound s.chars s.nodes := by
  cases s with
  | element n => exact n.spells.mono fun _ ends => ends.endsIdent
  | universal =>
    exact Spells.atom rfl fun rest ends => matchToken_delim _ _ fun x head => (ends x head).2
  | nesting => exact Spells.atom rfl fun _ _ => rfl

theorem scan_dot {rest : List Char} (digit : ∀ x ∈ rest.head?, x.isDigit = false) :
    Lexer.scan '.' rest = (.delim '.', rest) := by
  cases rest with
  | nil => rfl
  | cons x rest =>
    have number : startsNumber ('.' :: x :: rest) = false := digit x rfl
    unfold Lexer.scan
    simp [number, Text.isBlank, startsName, isNameStart]

theorem scan_plus {rest : List Char} (digits : startsDigits rest = false) :
    Lexer.scan '+' rest = (.delim '+', rest) := by
  have number : startsNumber ('+' :: rest) = false := digits
  unfold Lexer.scan
  simp [number, Text.isBlank, startsName, isNameStart]

theorem Filter.spells (f : Filter) : Spells EndsCompound f.chars f.nodes := by
  cases f with
  | className n =>
    have dot : Spells (fun rest => ∀ x ∈ rest.head?, x.isDigit = false) ['.']
        [atom (.delim '.') ['.']] := Spells.atom rfl fun _ digit => scan_dot digit
    apply dot.append (n.spells.mono fun _ ends => ends.endsIdent)
    intro rest _ x head
    cases head
    exact isDigit_of_isLower n.lower
  | identity n => exact Spells.atom rfl fun _ ends => n.scan_hash ends.endsIdent
  | pseudo n =>
    exact Spells.colon.append
      (n.spells.mono fun _ ends => ends.endsIdent) fun _ _ => trivial

theorem Filter.endsCompound (f : Filter) (rest : List Char) : EndsCompound (f.chars ++ rest) := by
  cases f <;> exact endsCompound_cons (by decide) _

theorem spells_filters (fs : List Filter) :
    Spells EndsCompound (fs.flatMap Filter.chars) (fs.flatMap Filter.nodes) := by
  induction fs with
  | nil => exact Spells.nil
  | cons f fs ih =>
    rw [List.flatMap_cons, List.flatMap_cons]
    apply f.spells.append ih
    intro rest ends
    cases fs with
    | nil => exact ends
    | cons g fs =>
      rw [List.flatMap_cons, List.append_assoc]
      exact g.endsCompound _

theorem Compound.spells (c : Compound) : Spells EndsCompound c.chars c.nodes := by
  unfold Compound.chars Compound.nodes
  cases c.subject with
  | none => exact spells_filters c.filters
  | some s =>
    apply s.spells.append (spells_filters c.filters)
    intro rest ends
    cases c.filters with
    | nil => exact ends
    | cons f fs =>
      rw [List.flatMap_cons, List.append_assoc]
      exact f.endsCompound _

/-- A text before which a combinator is a token of its own. -/
def AfterCombinator (rest : List Char) : Prop :=
  Solid rest ∧ startsDigits rest = false ∧ ∀ x ∈ rest.head?, x ≠ '='

theorem afterCombinator_of_isLower {c : Char} (lower : c.isLower) (rest : List Char) :
    AfterCombinator (c :: rest) := by
  refine ⟨(visible_of_isLower lower []).solid rest, startsDigits_of_isLower lower rest, ?_⟩
  intro x head
  cases head
  exact ne_of_isLower lower rfl

theorem Filter.afterCombinator (f : Filter) (rest : List Char) :
    AfterCombinator (f.chars ++ rest) := by
  have ends := fun x head => (f.endsCompound rest x head).2
  cases f with
  | className n => exact ⟨by simp [Solid, chars, Text.isBlank], isDigit_of_isLower n.lower, ends⟩
  | identity n => exact ⟨by simp [Solid, chars, Text.isBlank], rfl, ends⟩
  | pseudo n => exact ⟨by simp [Solid, chars, Text.isBlank], rfl, ends⟩

theorem Compound.afterCombinator (c : Compound) (rest : List Char) :
    AfterCombinator (c.chars ++ rest) := by
  obtain ⟨subject, filters, something⟩ := c
  unfold Compound.chars
  cases subject with
  | none =>
    cases filters with
    | nil => simp at something
    | cons f fs =>
      simp only [Option.map_none, Option.getD_none, List.nil_append, List.flatMap_cons,
        List.append_assoc]
      exact f.afterCombinator _
  | some s =>
    cases s with
    | element n => exact afterCombinator_of_isLower n.lower _
    | universal => exact ⟨by simp [Solid, Subject.chars, Text.isBlank], rfl, by simp [Subject.chars]⟩
    | nesting => exact ⟨by simp [Solid, Subject.chars, Text.isBlank], rfl, by simp [Subject.chars]⟩

theorem Compound.visible (c : Compound) : Node.Visible c.chars := by
  have solid := (c.afterCombinator []).1
  rw [List.append_nil] at solid
  obtain ⟨x, rest, same⟩ : ∃ x rest, c.chars = x :: rest := by
    apply List.exists_cons_of_ne_nil
    obtain ⟨subject, filters, something⟩ := c
    rcases something with some | some
    · obtain ⟨s, rfl⟩ := Option.isSome_iff_exists.1 some
      cases s <;> simp [Compound.chars, Subject.chars, Name.chars]
    · obtain ⟨f, fs, rfl⟩ := List.exists_cons_of_ne_nil some
      cases f <;> simp [Compound.chars, Filter.chars]
  rw [same] at solid ⊢
  exact ⟨x, rest, rfl, solid x rfl⟩

theorem spells_combinator (c : Combinator) :
    Spells AfterCombinator c.symbol.toList [combinatorNode c] := by
  cases c with
  | descendant => exact Spells.space.mono fun _ after => after.1
  | child => exact Spells.atom rfl fun _ _ => rfl
  | nextSibling => exact Spells.atom rfl fun _ after => scan_plus after.2.1
  | laterSibling => exact Spells.atom rfl fun _ after => matchToken_delim _ _ after.2.2

theorem endsCompound_combinator (c : Combinator) (rest : List Char) :
    EndsCompound (c.symbol.toList ++ rest) := by
  cases c <;> exact endsCompound_cons (by decide) _

theorem Complex.spells (s : Complex) : Spells EndsCompound s.chars s.nodes := by
  obtain ⟨first, more⟩ := s
  unfold Complex.chars Complex.nodes
  simp only
  induction more generalizing first with
  | nil => simpa using first.spells
  | cons next more ih =>
    obtain ⟨c, compound⟩ := next
    rw [List.flatMap_cons, List.flatMap_cons, List.append_assoc, List.cons_append,
      ← List.singleton_append]
    apply first.spells.append ((spells_combinator c).append (ih compound) _)
    · intro rest _
      rw [List.append_assoc]
      exact endsCompound_combinator c _
    · intro rest _
      rw [List.append_assoc]
      exact compound.afterCombinator _

theorem Complex.visible (s : Complex) : Node.Visible s.chars :=
  s.first.visible.append _

end Selectors

section Conditions

def Test.node : Test → Node
  | name n => n.node
  | feature n none => Node.parens [n.node]
  | feature n (some v) => Node.parens (n.node :: Node.colon :: gap [' '] :: v.nodes)

def Tests.nodes (ts : Tests) : List Node :=
  Many.nodes [gap [' ']] (fun t => [Test.node t]) ts

theorem endsIdent_cons {x : Char} (ends : endsName x ∧ x ≠ '(') (rest : List Char) :
    EndsIdent (x :: rest) := by
  intro y head
  cases head
  exact ends

/-- What stands before a value: a colon and a blank. -/
theorem Groups.spells_colon (v : Groups) :
    Spells EndsWord (':' :: ' ' :: v.chars) (Node.colon :: gap [' '] :: v.nodes) := by
  have value : Spells EndsWord (' ' :: v.chars) (gap [' '] :: v.nodes) :=
    Spells.space.append v.spells fun rest _ => v.visible.solid rest
  exact Spells.colon.append value fun _ _ => trivial

theorem Test.spells (t : Test) : Spells EndsIdent t.chars [t.node] := by
  cases t with
  | name n => exact n.spells
  | feature n value =>
    cases value with
    | none =>
      exact (n.spells.parens fun rest => endsIdent_cons (by decide) rest).mono fun _ _ => trivial
    | some v =>
      have inside : Spells EndsWord (n.chars ++ ':' :: ' ' :: v.chars)
          (n.node :: Node.colon :: gap [' '] :: v.nodes) :=
        n.spells.append v.spells_colon fun rest _ => endsIdent_cons (by decide) _
      have whole := (inside.parens fun rest => by simp [EndsWord]).mono fun rest
        (_ : EndsIdent rest) => trivial
      simpa [chars, node] using whole

theorem Test.visible (t : Test) : Node.Visible t.chars := by
  cases t with
  | name n => exact visible_of_isLower n.lower n.rest
  | feature n value => cases value <;> exact ⟨'(', _, rfl, rfl⟩

theorem Tests.spells (ts : Tests) : Spells EndsIdent ts.chars ts.nodes := by
  apply Many.spells Test.spells Spells.space
  · exact fun rest => endsIdent_cons (by decide) rest
  · exact fun t rest => t.visible.solid rest

theorem Tests.visible (ts : Tests) : Node.Visible ts.chars :=
  Many.visible Test.visible _ ts

end Conditions

section Heads

def Name.media : Name := .ofChars 'm' ['e', 'd', 'i', 'a'] rfl rfl

def Name.supports : Name := .ofChars 's' ['u', 'p', 'p', 'o', 'r', 't', 's'] rfl rfl

def Name.container : Name := .ofChars 'c' ['o', 'n', 't', 'a', 'i', 'n', 'e', 'r'] rfl rfl

def Name.layer : Name := .ofChars 'l' ['a', 'y', 'e', 'r'] rfl rfl

def Name.atNode (n : Name) : Node :=
  atom (.atKeyword n.text) ('@' :: n.chars)

def Key.nodes : Key → List Node
  | style selectors => Many.nodes [Node.comma, gap [' ']] Complex.nodes selectors
  | media queries =>
    Name.media.atNode :: gap [' '] :: Many.nodes [Node.comma, gap [' ']] Tests.nodes queries
  | supports condition => Name.supports.atNode :: gap [' '] :: condition.nodes
  | container condition => Name.container.atNode :: gap [' '] :: condition.nodes
  | layer n => [Name.layer.atNode, gap [' '], n.node]

def Label.node : Label → Node
  | standard n => n.node
  | custom n => atom (.ident (String.ofList ('-' :: '-' :: n.chars))) ('-' :: '-' :: n.chars)

theorem Name.spells_rule (word : Name) {cs : List Char} {ns : List Node}
    (clause : Spells EndsIdent cs ns) (visible : Node.Visible cs) :
    Spells EndsIdent ('@' :: word.chars ++ ' ' :: cs) (word.atNode :: gap [' '] :: ns) := by
  have keyword : Spells EndsIdent ('@' :: word.chars) [word.atNode] :=
    Spells.atom rfl fun _ ends => word.scan_at ends
  have after : Spells EndsIdent (' ' :: cs) (gap [' '] :: ns) :=
    Spells.space.append clause fun rest _ => visible.solid rest
  exact keyword.append after fun rest _ => endsIdent_cons (by decide) _

theorem Key.spells (k : Key) : Spells EndsCompound k.chars k.nodes := by
  cases k with
  | style selectors =>
    apply Many.spells Complex.spells Spells.comma
    · exact fun rest => endsCompound_cons (by decide) _
    · exact fun s rest => s.visible.solid rest
  | media queries =>
    have clause : Spells EndsIdent (Many.chars [',', ' '] Tests.chars queries)
        (Many.nodes [Node.comma, gap [' ']] Tests.nodes queries) := by
      apply Many.spells Tests.spells Spells.comma
      · exact fun rest => endsIdent_cons (by decide) _
      · exact fun ts rest => ts.visible.solid rest
    exact (Name.media.spells_rule clause (Many.visible Tests.visible _ _)).mono
      fun _ ends => ends.endsIdent
  | supports condition =>
    exact (Name.supports.spells_rule condition.spells condition.visible).mono
      fun _ ends => ends.endsIdent
  | container condition =>
    exact (Name.container.spells_rule condition.spells condition.visible).mono
      fun _ ends => ends.endsIdent
  | layer n =>
    exact (Name.layer.spells_rule n.spells (visible_of_isLower n.lower n.rest)).mono
      fun _ ends => ends.endsIdent

theorem Key.visible (k : Key) : Node.Visible k.chars := by
  cases k with
  | style selectors => exact Many.visible Complex.visible _ _
  | _ => exact ⟨'@', _, rfl, rfl⟩

theorem Key.stands (k : Key) {x : Char} (ends : (endsName x ∧ x ≠ '(') ∧ x ≠ '=') :
    Node.Stands x k.text.toList k.nodes := by
  rw [Key.text, String.toList_ofList]
  exact k.spells.stands (fun rest => endsCompound_cons ends rest) k.visible

theorem Label.spells (l : Label) : Spells EndsIdent l.chars [l.node] := by
  cases l with
  | standard n => exact n.spells
  | custom n => exact Spells.atom rfl fun _ ends => n.scan_custom ends

theorem Label.visible (l : Label) : Node.Visible l.chars := by
  cases l with
  | standard n => exact visible_of_isLower n.lower n.rest
  | custom n => exact ⟨'-', _, rfl, rfl⟩

theorem Label.stands (l : Label) (v : Groups) :
    Node.Stands ';' (l.chars ++ ':' :: ' ' :: v.chars)
      (l.node :: Node.colon :: gap [' '] :: v.nodes) := by
  have spelled : Spells EndsWord (l.chars ++ ':' :: ' ' :: v.chars)
      ([l.node] ++ Node.colon :: gap [' '] :: v.nodes) :=
    l.spells.append v.spells_colon fun rest _ => endsIdent_cons (by decide) _
  exact spelled.stands (by simp [EndsWord]) (l.visible.append _)

end Heads

section Marks

/-- What holds of every node of the items and of the separator holds of every node. -/
theorem Many.forall_nodes {α : Type} {P : Node → Prop} {between : List Node} {nodes : α → List Node}
    (separator : ∀ n ∈ between, P n) (item : ∀ a, ∀ n ∈ nodes a, P n) (m : Many α) :
    ∀ n ∈ m.nodes between nodes, P n := by
  intro n member
  simp only [Many.nodes, List.mem_append, List.mem_flatMap] at member
  rcases member with first | ⟨a, _, inBetween | inItem⟩
  · exact item _ n first
  · exact separator n inBetween
  · exact item a n inItem

/-- Nodes among which none ends an item. -/
def Inline (ns : List Node) : Prop :=
  ∀ n ∈ ns, Sketch.endsItem n = false

theorem Inline.cons {n : Node} {ns : List Node} (first : Sketch.endsItem n = false)
    (later : Inline ns) : Inline (n :: ns) := by
  intro m member
  rcases List.mem_cons.1 member with rfl | inside
  · exact first
  · exact later m inside

theorem inline_single {n : Node} (first : Sketch.endsItem n = false) : Inline [n] :=
  Inline.cons first (by simp [Inline])

theorem Inline.append {ns ms : List Node} (first : Inline ns) (second : Inline ms) :
    Inline (ns ++ ms) := by
  intro n member
  rcases List.mem_append.1 member with inFirst | inSecond
  · exact first n inFirst
  · exact second n inSecond

theorem Many.inline {α : Type} {between : List Node} {nodes : α → List Node}
    (separator : Inline between) (item : ∀ a, Inline (nodes a)) (m : Many α) :
    Inline (m.nodes between nodes) :=
  Many.forall_nodes separator item m

theorem inline_space : Inline [gap [' ']] :=
  inline_single rfl

theorem inline_comma : Inline [Node.comma, gap [' ']] :=
  Inline.cons rfl inline_space

theorem Groups.inline (v : Groups) : Inline v.nodes := by
  have word : ∀ w : Word, Inline [w.node] := by
    rintro (n | ⟨d, _ | _ | _⟩) <;> exact inline_single rfl
  exact Many.inline inline_comma (Many.inline inline_space word) v

/-- Nodes that neither end an item nor separate the parts of one. -/
def Inner (ns : List Node) : Prop :=
  ∀ n ∈ ns, Sketch.endsItem n = false ∧ n.isComma = false

theorem Inner.inline {ns : List Node} (inner : Inner ns) : Inline ns :=
  fun n member => (inner n member).1

theorem Compound.inner (c : Compound) : Inner c.nodes := by
  have subject : Inner ((c.subject.map Subject.nodes).getD []) := by
    cases c.subject with
    | none => simp [Inner]
    | some s =>
      intro n member
      cases s <;> rw [List.mem_singleton.1 member] <;> exact ⟨rfl, rfl⟩
  have filter : ∀ f : Filter, Inner f.nodes := by
    intro f n member
    cases f with
    | identity name =>
      rw [List.mem_singleton.1 member]
      exact ⟨rfl, rfl⟩
    | _ =>
      rcases List.mem_cons.1 member with rfl | last
      · exact ⟨rfl, rfl⟩
      · rw [List.mem_singleton.1 last]
        exact ⟨rfl, rfl⟩
  intro n member
  rcases List.mem_append.1 member with inSubject | inFilters
  · exact subject n inSubject
  · obtain ⟨f, _, inFilter⟩ := List.mem_flatMap.1 inFilters
    exact filter f n inFilter

theorem Complex.inner (s : Complex) : Inner s.nodes := by
  intro n member
  rcases List.mem_append.1 member with inFirst | inMore
  · exact s.first.inner n inFirst
  · obtain ⟨⟨c, compound⟩, _, inPart⟩ := List.mem_flatMap.1 inMore
    rcases List.mem_cons.1 inPart with rfl | inCompound
    · cases c <;> exact ⟨rfl, rfl⟩
    · exact compound.inner n inCompound

theorem Tests.inner (ts : Tests) : Inner ts.nodes := by
  have test : ∀ t : Test, Inner [t.node] := by
    rintro (n | ⟨n, _ | v⟩) m member <;> rw [List.mem_singleton.1 member] <;> exact ⟨rfl, rfl⟩
  have space : Inner [gap [' ']] := by
    intro n member
    rw [List.mem_singleton.1 member]
    exact ⟨rfl, rfl⟩
  exact Many.forall_nodes space test ts

theorem Key.inline (k : Key) : Inline k.nodes := by
  cases k with
  | style selectors => exact Many.inline inline_comma (fun s => s.inner.inline) selectors
  | media queries =>
    exact Inline.cons rfl
      (Inline.cons rfl (Many.inline inline_comma (fun ts => ts.inner.inline) queries))
  | supports condition => exact Inline.cons rfl (Inline.cons rfl condition.inner.inline)
  | container condition => exact Inline.cons rfl (Inline.cons rfl condition.inner.inline)
  | layer n => exact Inline.cons rfl (Inline.cons rfl (inline_single rfl))

theorem Label.inline (l : Label) (v : Groups) :
    Inline (l.node :: Node.colon :: gap [' '] :: v.nodes) := by
  have label : Sketch.endsItem l.node = false := by cases l <;> rfl
  exact Inline.cons label (Inline.cons rfl (Inline.cons rfl v.inline))

end Marks

end Grammar

end CssOutline
