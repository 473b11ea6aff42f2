import CssOutline.Proofs.GrammarHeads
import CssOutline.Proofs.SelectorShape

/-! Printed selectors are read back. Components are printed next to each other, so the text of one
has to end where that of the next starts: a name goes on into a type selector after it, and two
hyphens before a closing angle bracket are a mark. An argument that is kept as text is read back if
its call is, whatever stands after it. -/

namespace CssOutline

open Lexer
open Node (Spells Solid atom gap word)
open Grammar (endsIdent_cons)
open ComplexSelector (isCombinator afterCombinator push readFrom)

/-- A quoted value without the line ends that are printed as they are. -/
def AttributeValue.Legible : AttributeValue → Prop
  | quoted q => '\r' ∉ q.content.toList ∧ '\x0c' ∉ q.content.toList
  | ident _ => True

/-- A printed call that is one node, whatever follows it, and is read as the call with its text. -/
def Argument.Verbatim (name text : String) : Prop :=
  ∃ n : Node, Spells (fun _ => True) (Printer.identifier name ++ "(" ++ text ++ ")").toList [n] ∧
    n.symbol? = some (.function name (.raw text))

namespace Component

def endsWithName : Component → Bool
  | element _ => true
  | className _ => true
  | identity _ => true
  | pseudo _ _ .none => true
  | _ => false

def endsWithHyphens : Component → Bool
  | element name => name == "--"
  | className name => name == "--"
  | pseudo _ name .none => name == "--"
  | _ => false

def isElement : Component → Bool
  | element _ => true
  | _ => false

/-- Two components whose texts are read apart when one follows the other. -/
@[mk_iff]
structure Apart (c d : Component) : Prop where
  element : c.endsWithName → d.isElement = false
  child : c.endsWithHyphens → d ≠ .combinator .child

def Legible : Component → Prop
  | hasAttribute a => ∀ t ∈ a.test, t.value.Legible
  | pseudo _ name (.raw text) => Argument.Verbatim name text
  | _ => True

end Component

/-- A selector whose components are read apart, each as it was. -/
structure ComplexSelector.Legible (s : ComplexSelector) : Prop where
  apart : s.IsChain Component.Apart
  components : ∀ c ∈ s, c.Legible

section Symbols

def PseudoKind.symbols : PseudoKind → List Symbol
  | classes => [.colon]
  | element => [.colon, .colon]

def Argument.symbol (name : String) : Argument → Symbol
  | none => .ident name
  | argument => .function name argument

/-- The symbols that a component is read from. -/
def Component.symbols : Component → List Symbol
  | element name => [.ident name]
  | universal => [.universal]
  | className name => [.dot, .ident name]
  | identity name => [.identity name]
  | hasAttribute a => [.bracket (.ok a)]
  | pseudo kind name argument => kind.symbols ++ [argument.symbol name]
  | combinator .descendant => [.space]
  | combinator c => [.combinator c]
  | nesting => [.nesting]

theorem isComma_of_mem_symbols (c : Component) : ∀ s ∈ c.symbols, s.isComma = false := by
  cases c with
  | combinator c => cases c <;> simp [Component.symbols, Symbol.isComma]
  | pseudo kind name argument =>
    cases kind <;> cases argument <;>
      simp [Component.symbols, PseudoKind.symbols, Argument.symbol, Symbol.isComma]
  | _ => simp [Component.symbols, Symbol.isComma]

theorem readFrom_simple {c : Component} (simple : isCombinator c = false) (done : List Component)
    (gap : Bool) (ss : List Symbol) :
    readFrom done gap (c.symbols ++ ss) = readFrom (push done gap c) false ss := by
  cases c with
  | combinator c => cases simple
  | pseudo kind name argument => cases kind <;> cases argument <;> rfl
  | _ => rfl

def withGap (done : List Component) (gap : Bool) : List Component :=
  if gap then .combinator .descendant :: done else done

theorem readFrom_space {done : List Component} (some : done ≠ []) (gap : Bool) (ss : List Symbol) :
    readFrom done gap ((Component.combinator .descendant).symbols ++ ss) =
      readFrom done true ss := by
  have filled : (!done.isEmpty) = true := by simpa using some
  rw [Component.symbols, List.singleton_append, readFrom, filled]

theorem readFrom_mark {k : Combinator} (mark : k ≠ .descendant) {done : List Component}
    (alone : afterCombinator done = false) (gap : Bool) (ss : List Symbol) :
    readFrom done gap ((Component.combinator k).symbols ++ ss) =
      readFrom (.combinator k :: done) false ss := by
  cases k with
  | descendant => exact absurd rfl mark
  | _ => simp [Component.symbols, readFrom, alone]

end Symbols

namespace ComplexSelector

variable {done cs : List Component} {gap : Bool} {c : Component}

theorem Shaped.not_both (shaped : Shaped (done.reverse ++ c :: cs))
    (after : afterCombinator done) : isCombinator c = false := by
  obtain _ | ⟨d, done⟩ := done
  · cases after
  have chain := (List.isChain_append.1 shaped.apart).2.2
  exact chain d (by simp) c (by simp) after

theorem Shaped.nonempty_of_descendant
    (shaped : Shaped (done.reverse ++ .combinator .descendant :: cs)) : done ≠ [] := by
  rintro rfl
  exact shaped.first rfl

theorem Shaped.push_eq (shaped : Shaped ((withGap done gap).reverse ++ c :: cs)) :
    push done gap c = c :: withGap done gap := by
  cases gap with
  | false => rfl
  | true =>
    have whole : (withGap done true).reverse ++ c :: cs =
        done.reverse ++ .combinator .descendant :: c :: cs := by simp [withGap]
    rw [whole] at shaped
    have alone : afterCombinator done = false := by
      by_contra after
      simpa [isCombinator] using shaped.not_both (by simpa using after)
    simp [push, alone, withGap]

theorem Shaped.combinator_alone (shaped : Shaped ((withGap done gap).reverse ++ c :: cs))
    (combinator : isCombinator c) : gap = false ∧ afterCombinator done = false := by
  have alone : ¬ afterCombinator (withGap done gap) := by
    intro after
    simp [shaped.not_both after] at combinator
  cases gap with
  | true => simp [withGap, afterCombinator, isCombinator] at alone
  | false => exact ⟨rfl, by simpa [withGap] using alone⟩

theorem readFrom_symbols (done : List Component) (gap : Bool)
    (shaped : Shaped ((withGap done gap).reverse ++ cs)) :
    readFrom done gap (cs.flatMap Component.symbols) = .ok ((withGap done gap).reverse ++ cs) := by
  -- The induction is on the components still to be read. A blank becomes a component only when the
  -- next one comes, so until then the gap stands for it.
  induction cs generalizing done gap with
  | nil =>
    rw [List.append_nil] at shaped ⊢
    cases gap with
    | true => simpa [withGap, isCombinator] using shaped.last
    | false =>
      obtain _ | ⟨c, rest⟩ := done
      · exact absurd rfl shaped.nonempty
      · have simple : isCombinator c = false := shaped.last c (by simp [withGap])
        simp [readFrom, simple, withGap]
  | cons c cs ih =>
    have next : (withGap done gap).reverse ++ c :: cs = (c :: withGap done gap).reverse ++ cs := by
      simp
    rw [List.flatMap_cons, next]
    cases combinator : isCombinator c with
    | false =>
      rw [readFrom_simple combinator, shaped.push_eq]
      exact ih (c :: withGap done gap) false (next ▸ shaped)
    | true =>
      obtain ⟨rfl, alone⟩ := shaped.combinator_alone combinator
      cases c with
      | combinator k =>
        by_cases blank : k = .descendant
        · subst blank
          have some : done ≠ [] := Shaped.nonempty_of_descendant shaped
          rw [readFrom_space some]
          exact ih done true (next ▸ shaped)
        · rw [readFrom_mark blank alone]
          exact ih (.combinator k :: done) false (next ▸ shaped)
      | _ => cases combinator

theorem read_symbols {s : ComplexSelector} (shaped : Shaped s) :
    read (s.flatMap Component.symbols) = .ok s :=
  readFrom_symbols [] false shaped

end ComplexSelector

namespace SelectorList

theorem ofSymbols_space (ss : List Symbol) : ofSymbols (.space :: ss) = ofSymbols ss := by
  obtain ⟨s, rest, same⟩ := List.exists_cons_of_ne_nil (segments_ne_nil Symbol.isComma ss)
  have cut : segments Symbol.isComma (.space :: ss) = (.space :: s) :: rest := by
    rw [segments, same]
    rfl
  rw [ofSymbols, ofSymbols, cut, same, List.mapM_cons, List.mapM_cons]
  rfl

theorem ofSymbols_single {s : ComplexSelector} (shaped : ComplexSelector.Shaped s) :
    ofSymbols (s.flatMap Component.symbols) = .ok [s] := by
  have plain : ∀ x ∈ s.flatMap Component.symbols, x.isComma = false := by
    intro x member
    obtain ⟨c, _, inside⟩ := List.mem_flatMap.1 member
    exact isComma_of_mem_symbols c x inside
  rw [ofSymbols, segments_of_forall plain, List.mapM_cons, ComplexSelector.read_symbols shaped]
  rfl

theorem ofSymbols_cons {s : ComplexSelector} (shaped : ComplexSelector.Shaped s) {ss : List Symbol}
    {list : SelectorList} (later : ofSymbols ss = .ok list) :
    ofSymbols (s.flatMap Component.symbols ++ .comma :: .space :: ss) = .ok (s :: list) := by
  have plain : ∀ x ∈ s.flatMap Component.symbols, x.isComma = false := by
    intro x member
    obtain ⟨c, _, inside⟩ := List.mem_flatMap.1 member
    exact isComma_of_mem_symbols c x inside
  rw [← ofSymbols_space, ofSymbols] at later
  rw [ofSymbols, segments_cut plain rfl, List.mapM_cons, ComplexSelector.read_symbols shaped, later]
  rfl

end SelectorList

/-- A text before which a name is the token that it was printed from. -/
def FitsName (name : String) (rest : List Char) : Prop :=
  EndsIdent rest ∧ (name = "--" → rest.head? ≠ some '>')

section Attributes

def EndsPart (rest : List Char) : Prop :=
  ∀ x ∈ rest.head?, x ∈ [' ', ']', '=', '~', '|', '^', '$', '*']

theorem EndsPart.fitsName {rest : List Char} (ends : EndsPart rest) (name : String) :
    FitsName name rest := by
  have all : [' ', ']', '=', '~', '|', '^', '$', '*'].all
      (fun x => (endsName x && x != '(') && x != '>') = true := by decide
  have plain : ∀ x ∈ [' ', ']', '=', '~', '|', '^', '$', '*'],
      (endsName x ∧ x ≠ '(') ∧ x ≠ '>' := by
    simpa only [List.all_eq_true, Bool.and_eq_true, bne_iff_ne] using all
  refine ⟨fun x head => (plain x (ends x head)).1, fun _ head => ?_⟩
  exact (plain '>' (ends '>' head)).2 rfl

theorem endsPart_cons {x : Char} (ends : x ∈ [' ', ']', '=', '~', '|', '^', '$', '*'])
    (rest : List Char) : EndsPart (x :: rest) := by
  intro y head
  cases head
  exact ends

def AttributeOperator.token : AttributeOperator → Token
  | exact => .delim '='
  | includes => .includeMatch
  | dashMatch => .dashMatch
  | startMatch => .startMatch
  | endMatch => .endMatch
  | substring => .substringMatch

def AttributeOperator.node (o : AttributeOperator) : Node :=
  atom o.token o.symbol.toList

theorem AttributeOperator.spells (o : AttributeOperator) :
    Spells (fun _ => True) o.symbol.toList [o.node] := by
  cases o <;> exact Spells.atom rfl fun _ _ => rfl

theorem AttributeOperator.isTrivia_node (o : AttributeOperator) : o.node.isTrivia = false := by
  cases o <;> rfl

theorem AttributeOperator.operator?_node (o : AttributeOperator) :
    Attribute.operator? o.node.token = some o := by
  cases o <;> rfl

theorem AttributeValue.exists_spells {v : AttributeValue} (proper : v.Proper)
    (legible : v.Legible) :
    ∃ n : Node, Spells EndsPart v.render.toList [n] ∧ n.isTrivia = false ∧
      Attribute.value? n = some v := by
  cases v with
  | quoted q =>
    have plain : q.IsPlain := by
      refine ⟨proper.1, fun c member => ⟨?_, ?_, ?_⟩⟩
      · rintro rfl
        exact proper.2 member
      · rintro rfl
        exact legible.1 member
      · rintro rfl
        exact legible.2 member
    refine ⟨_, plain.spells.mono fun _ _ => trivial, rfl, ?_⟩
    simp [Attribute.value?, atom, Node.token, Node.text, Quoted.quoteOf_render plain.quote]
  | ident name =>
    have named : IsName name := proper
    exact ⟨_, named.spells_identifier.mono fun _ ends => ends.fitsName name, rfl, rfl⟩

theorem isName_flag {flag : String} (known : flag ∈ ["i", "I", "s", "S"]) :
    IsName flag ∧ Printer.identifier flag = flag ∧
      (Text.sameName flag "i" ∨ Text.sameName flag "s") := by
  have every : ∀ flag ∈ ["i", "I", "s", "S"], flag ≠ "" ∧ '\x00' ∉ flag.toList ∧
      Printer.identifier flag = flag ∧
      (flag.toList.map Char.toLower = ['i'] ∨ flag.toList.map Char.toLower = ['s']) := by
    decide +kernel
  obtain ⟨nonempty, nonzero, printed, lower⟩ := every flag known
  rw [Text.sameName_iff, Text.sameName_iff]
  exact ⟨⟨nonempty, nonzero⟩, printed, lower⟩

theorem spells_flag {flag : String} (known : flag ∈ ["i", "I", "s", "S"]) :
    Spells EndsPart (" " ++ flag).toList [gap [' '], word flag] := by
  obtain ⟨named, printed, _⟩ := isName_flag known
  have spells : Spells EndsPart (Printer.identifier flag).toList [word flag] :=
    named.spells_identifier.mono fun _ ends => ends.fitsName flag
  have solid : ∀ rest, Solid ((Printer.identifier flag).toList ++ rest) := by
    intro rest x head
    have starts := named.startsName_identifier rest
    obtain ⟨more, same⟩ := List.head?_eq_some_iff.1 head
    rw [same] at starts
    exact isBlank_of_startsName starts
  rw [printed] at spells solid
  rw [String.toList_append]
  exact Spells.space.append spells fun rest _ => solid rest

theorem AttributeTest.exists_spells {t : AttributeTest} (proper : t.Proper)
    (legible : t.value.Legible) :
    ∃ ns, Spells EndsPart t.render.toList ns ∧
      Attribute.test? (Node.significant ns) = .ok (some t) := by
  obtain ⟨operator, value, flag⟩ := t
  obtain ⟨n, spells, solid, read⟩ := value.exists_spells proper.value legible
  have mark := operator.isTrivia_node
  have found := operator.operator?_node
  cases flag with
  | none =>
    refine ⟨[operator.node, n], ?_, ?_⟩
    · have whole := operator.spells.append spells fun _ _ => trivial
      simpa [render] using whole
    · have kept : Node.significant [operator.node, n] = [operator.node, n] := by
        simp [Node.significant, mark, solid]
      rw [kept]
      simp [Attribute.test?, found, read, Attribute.flag?, Except.map]
  | some flag =>
    have known := proper.flag flag rfl
    refine ⟨[operator.node, n, gap [' '], word flag], ?_, ?_⟩
    · have whole := operator.spells.append (spells.append (spells_flag known) fun rest _ => by
        rw [String.toList_append]
        exact endsPart_cons (by decide) _) fun _ _ => trivial
      simpa [render] using whole
    · have kept : Node.significant [operator.node, n, gap [' '], word flag] =
          [operator.node, n, word flag] := by
        have blank : (gap [' ']).isTrivia := rfl
        have plain : (word flag).isTrivia = false := rfl
        simp [Node.significant, mark, solid, blank, plain]
      have isWord : (word flag).token = .ident flag := rfl
      have accepted : (!Text.sameName flag "i" && !Text.sameName flag "s") = false := by
        rcases (isName_flag known).2.2 with same | same <;> simp [same]
      rw [kept]
      simp [Attribute.test?, found, read, Attribute.flag?, isWord, accepted, Except.map]

theorem Attribute.exists_spells {a : Attribute} (proper : a.Proper)
    (legible : ∀ t ∈ a.test, t.value.Legible) :
    ∃ n : Node, Spells (fun _ => True) a.render.toList [n] ∧
      n.symbol? = some (.bracket (.ok a)) := by
  obtain ⟨name, test⟩ := a
  have named : IsName name := proper.name
  have kept : ∀ ns, Node.significant ([word name] ++ ns) = word name :: Node.significant ns := by
    intro ns
    have solid : (word name).isTrivia = false := rfl
    simp [Node.significant, solid]
  have token : (word name).token = .ident name := rfl
  cases test with
  | none =>
    have inside := named.spells_identifier.squares fun rest =>
      (endsPart_cons (x := ']') (by decide) rest).fitsName name
    refine ⟨Node.squares [word name], by simpa [render] using inside, ?_⟩
    have single := kept []
    rw [List.append_nil] at single
    simp only [Node.squares, Node.symbol?, Attribute.read, single, token]
    rfl
  | some t =>
    obtain ⟨ns, spells, read⟩ := AttributeTest.exists_spells (proper.test t rfl) (legible t rfl)
    have starts : ∀ rest, EndsPart (t.render.toList ++ rest) := by
      intro rest
      rw [AttributeTest.render, String.toList_append, String.toList_append, List.append_assoc,
        List.append_assoc]
      cases t.operator <;> exact endsPart_cons (by decide) _
    have inside := named.spells_identifier.append spells fun rest _ => (starts rest).fitsName name
    have whole := inside.squares fun rest => endsPart_cons (x := ']') (by decide) rest
    refine ⟨Node.squares ([word name] ++ ns), by simpa [render] using whole, ?_⟩
    simp only [Node.squares, Node.symbol?, Attribute.read, kept, token, read, Except.map]

end Attributes

namespace Component

def Fits : Component → List Char → Prop
  | element name, rest => FitsName name rest
  | className name, rest => FitsName name rest
  | pseudo _ name .none, rest => FitsName name rest
  | identity _, rest => ∀ x ∈ rest.head?, endsName x
  | universal, rest => ∀ x ∈ rest.head?, x ≠ '='
  | combinator .descendant, rest => Solid rest
  | combinator .nextSibling, rest => startsDigits rest = false
  | combinator .laterSibling, rest => ∀ x ∈ rest.head?, x ≠ '='
  | _, _ => True

theorem exists_first {d : Component} (other : d.isElement = false) :
    ∃ x more, d.render.toList = x :: more ∧
      x ∈ ['*', '.', '#', '[', ':', ' ', '>', '+', '~', '&'] ∧
      (x = '>' → d = .combinator .child) := by
  cases d with
  | element name => cases other
  | universal => exact ⟨'*', [], rfl, by decide, by simp⟩
  | className name => exact ⟨'.', _, by rw [render, String.toList_append]; rfl, by decide, by simp⟩
  | identity name => exact ⟨'#', _, by rw [render, String.toList_append]; rfl, by decide, by simp⟩
  | hasAttribute a =>
    have text : (hasAttribute a).render.toList = '[' ::
        (Printer.identifier a.name ++
          ((a.test.map AttributeTest.render).getD "" ++ "]")).toList := by
      rw [render, Attribute.render, String.append_assoc, String.append_assoc, String.toList_append]
      rfl
    exact ⟨'[', _, text, by decide, by simp⟩
  | pseudo kind name argument =>
    have first : ∃ more, kind.mark.toList = ':' :: more := by cases kind <;> exact ⟨_, rfl⟩
    obtain ⟨more, same⟩ := first
    have text : (pseudo kind name argument).render.toList = ':' ::
        (more ++ (Printer.identifier name ++ argument.render).toList) := by
      rw [render, String.append_assoc, String.toList_append, same, List.cons_append]
    exact ⟨':', _, text, by decide, by simp⟩
  | combinator c =>
    cases c with
    | descendant => exact ⟨' ', [], rfl, by decide, by simp⟩
    | child => exact ⟨'>', [], rfl, by decide, fun _ => rfl⟩
    | nextSibling => exact ⟨'+', [], rfl, by decide, by simp⟩
    | laterSibling => exact ⟨'~', [], rfl, by decide, by simp⟩
  | nesting => exact ⟨'&', [], rfl, by decide, by simp⟩

theorem head?_render_ne {d : Component} (proper : d.Proper) (more : List Char) :
    ∀ x ∈ (d.render.toList ++ more).head?, x ≠ '=' := by
  cases element : d.isElement with
  | true =>
    cases d with
    | element name =>
      have named : IsName name := proper
      have starts := named.startsName_identifier more
      rw [render]
      rintro x head rfl
      obtain ⟨rest, same⟩ := List.head?_eq_some_iff.1 head
      rw [same] at starts
      cases starts
    | _ => cases element
  | false =>
    obtain ⟨y, rest, same, known, _⟩ := exists_first element
    rw [same]
    rintro x ⟨⟩ rfl
    exact absurd known (by decide)

theorem isDigit_of_startsName {c : Char} {rest : List Char} (starts : startsName (c :: rest)) :
    c.isDigit = false := by
  by_contra digit
  have number := startsNumber_of_isDigit (by simpa using digit) rest
  simp [startsNumber_of_startsName starts] at number

theorem solid_render {d : Component} (proper : d.Proper) (simple : isCombinator d = false)
    (more : List Char) :
    Solid (d.render.toList ++ more) ∧ startsDigits (d.render.toList ++ more) = false := by
  have named : ∀ {name : String}, IsName name → ∀ more, ∃ c rest,
      (Printer.identifier name).toList ++ more = c :: rest ∧ startsName (c :: rest) := by
    intro name isName more
    obtain ⟨c, cs, same⟩ := isName.exists_identifier
    have starts := isName.startsName_identifier more
    rw [same] at starts ⊢
    exact ⟨c, cs ++ more, rfl, starts⟩
  cases d with
  | element name =>
    obtain ⟨c, rest, same, starts⟩ := named proper more
    rw [render, same]
    refine ⟨fun x head => ?_, ?_⟩
    · cases head
      exact isBlank_of_startsName starts
    · unfold startsDigits
      split
      · rename_i point
        rw [(List.cons.inj point).1] at starts
        cases starts
      · rename_i first
        rw [← (List.cons.inj first).1]
        exact isDigit_of_startsName starts
      · rfl
  | className name =>
    obtain ⟨c, rest, same, starts⟩ := named proper more
    have text : (className name).render.toList ++ more = '.' :: c :: rest := by
      rw [render, String.toList_append, List.append_assoc, same]
      rfl
    rw [text]
    exact ⟨by simp [Solid, Text.isBlank], isDigit_of_startsName starts⟩
  | combinator c => cases simple
  | universal => exact ⟨by simp [Solid, render, Text.isBlank], rfl⟩
  | nesting => exact ⟨by simp [Solid, render, Text.isBlank], rfl⟩
  | identity name =>
    rw [render, String.toList_append]
    exact ⟨by simp [Solid, Text.isBlank], rfl⟩
  | hasAttribute a =>
    rw [render, Attribute.render, String.append_assoc, String.append_assoc, String.toList_append]
    exact ⟨by simp [Solid, Text.isBlank], rfl⟩
  | pseudo kind name argument =>
    rw [render, String.append_assoc, String.toList_append]
    cases kind <;> exact ⟨by simp [Solid, PseudoKind.mark, Text.isBlank], rfl⟩

theorem fits_of_apart {c d : Component} (proper : d.Proper) (apart : Apart c d)
    (alone : isCombinator c → isCombinator d = false) (more : List Char) :
    c.Fits (d.render.toList ++ more) := by
  have ends : c.endsWithName → ∃ x rest, d.render.toList ++ more = x :: rest ∧
      x ∈ ['*', '.', '#', '[', ':', ' ', '>', '+', '~', '&'] ∧
      (x = '>' → d = .combinator .child) := by
    intro name
    obtain ⟨x, rest, same, known⟩ := exists_first (apart.element name)
    exact ⟨x, rest ++ more, by rw [same]; rfl, known⟩
  have all : ['*', '.', '#', '[', ':', ' ', '>', '+', '~', '&'].all
      (fun x => endsName x && x != '(') = true := by decide
  have plain : ∀ x ∈ ['*', '.', '#', '[', ':', ' ', '>', '+', '~', '&'], endsName x ∧ x ≠ '(' := by
    simpa only [List.all_eq_true, Bool.and_eq_true, bne_iff_ne] using all
  have fitsName : ∀ name, c.endsWithName → (name = "--" → c.endsWithHyphens) →
      FitsName name (d.render.toList ++ more) := by
    intro name isName hyphens
    obtain ⟨x, rest, same, known, child⟩ := ends isName
    rw [same]
    refine ⟨endsIdent_cons (plain x known) rest, fun two head => ?_⟩
    cases head
    exact apart.child (hyphens two) (child rfl)
  cases c with
  | element name => exact fitsName name rfl fun two => by simp [endsWithHyphens, two]
  | className name => exact fitsName name rfl fun two => by simp [endsWithHyphens, two]
  | identity name =>
    obtain ⟨x, rest, same, known, _⟩ := ends rfl
    rw [same]
    rintro y ⟨⟩
    exact (plain x known).1
  | universal => exact head?_render_ne proper more
  | hasAttribute a => trivial
  | nesting => trivial
  | pseudo kind name argument =>
    cases argument with
    | none => exact fitsName name rfl fun two => by simp [endsWithHyphens, two]
    | _ => trivial
  | combinator k =>
    have start := solid_render proper (alone rfl) more
    cases k with
    | descendant => exact start.1
    | child => trivial
    | nextSibling => exact start.2
    | laterSibling => exact head?_render_ne proper more

end Component

def EndsSelector (rest : List Char) : Prop :=
  ∀ x ∈ rest.head?, x = ',' ∨ x = ')'

theorem EndsSelector.fits {rest : List Char} (ends : EndsSelector rest) {c : Component}
    (simple : isCombinator c = false) : c.Fits rest := by
  have name : ∀ name, FitsName name rest := by
    intro name
    refine ⟨fun x head => ?_, fun _ head => ?_⟩
    · rcases ends x head with rfl | rfl <;> decide
    · rcases ends '>' head with same | same <;> cases same
  cases c with
  | element n => exact name n
  | className n => exact name n
  | identity n =>
    intro x head
    rcases ends x head with rfl | rfl <;> decide
  | universal =>
    intro x head
    rcases ends x head with rfl | rfl <;> decide
  | hasAttribute a => trivial
  | nesting => trivial
  | pseudo kind n argument =>
    cases argument with
    | none => exact name n
    | _ => trivial
  | combinator k => cases simple

/-- A selector that is read back from its text. -/
structure ComplexSelector.ReadsBack (s : ComplexSelector) : Prop where
  proper : Proper s
  legible : Legible s

section Spells

-- The induction is on the syntax of selectors: a call with selectors in it is read from their list,
-- a list from its selectors and a selector from its components, each before what may follow it.

theorem spells_mark (kind : PseudoKind) :
    ∃ ns, Spells (fun _ => True) kind.mark.toList ns ∧ Node.symbols ns = kind.symbols := by
  cases kind with
  | classes => exact ⟨_, Spells.colon, rfl⟩
  | element => exact ⟨_, Spells.colon.append Spells.colon fun _ _ => trivial, rfl⟩

theorem exists_spells_pseudo {ok : List Char → Prop} {kind : PseudoKind} {name : String}
    {argument : Argument} {n : Node}
    (spells : Spells ok (Printer.identifier name ++ argument.render).toList [n])
    (read : n.symbol? = some (argument.symbol name)) :
    ∃ ns, Spells ok (Component.pseudo kind name argument).render.toList ns ∧
      Node.symbols ns = (Component.pseudo kind name argument).symbols := by
  obtain ⟨ns, mark, symbols⟩ := spells_mark kind
  refine ⟨ns ++ [n], ?_, ?_⟩
  · rw [Component.render, String.append_assoc, String.toList_append]
    exact mark.append spells fun _ _ => trivial
  · rw [Node.symbols_append, symbols, Node.symbols, read, Component.symbols]
    rfl

theorem notUrl_of_takesSelectors {name : String} (takes : takesSelectors name) :
    Text.sameName name "url" = false := by
  by_contra same
  have lower : name.toLower = "url" := by
    rw [Bool.not_eq_false, Text.sameName, beq_iff_eq] at same
    exact same.trans (by decide +kernel)
  rw [takesSelectors, lower] at takes
  exact absurd takes (by decide)

theorem solid_selectors {s : ComplexSelector} (proper : ComplexSelector.Proper s)
    (list : SelectorList) (more : List Char) :
    Solid ((", ".intercalate (renderSelectors (s :: list))).toList ++ more) := by
  obtain ⟨c, cs, rfl⟩ := List.exists_cons_of_ne_nil proper.shaped.nonempty
  have component : ∀ rest, Solid (c.render.toList ++ rest) := by
    intro rest
    cases combinator : isCombinator c with
    | false => exact (Component.solid_render (proper.components c (by simp)) combinator rest).1
    | true =>
      cases c with
      | combinator k =>
        cases k with
        | descendant => exact absurd rfl proper.shaped.first
        | _ => simp [Solid, Component.render, Combinator.symbol, Text.isBlank]
      | _ => cases combinator
  obtain ⟨tail, text⟩ : ∃ tail, ", ".intercalate (renderSelectors ((c :: cs) :: list)) =
      c.render ++ tail := by
    rw [renderSelectors, renderComponents]
    cases renderSelectors list with
    | nil => exact ⟨renderComponents cs, by simp⟩
    | cons t texts =>
      exact ⟨renderComponents cs ++ (", " ++ ", ".intercalate (t :: texts)), by
        rw [String.intercalate_cons_cons, String.append_assoc, String.append_assoc]⟩
  rw [text, String.toList_append, List.append_assoc]
  exact component _

mutual

theorem Component.exists_spells : (c : Component) → c.Proper → c.Legible →
    c.Within ComplexSelector.ReadsBack →
    ∃ ns, Spells c.Fits c.render.toList ns ∧ Node.symbols ns = c.symbols
  | .element name, proper, _, _ =>
    have named : IsName name := proper
    ⟨[word name], by rw [Component.render]; exact named.spells_identifier, rfl⟩
  | .universal, _, _, _ =>
    ⟨[atom (.delim '*') ['*']],
      Spells.atom rfl fun _ plain => Grammar.matchToken_delim _ _ plain, rfl⟩
  | .className name, proper, _, _ => by
    have named : IsName name := proper
    have dot : Spells (fun rest => ∀ x ∈ rest.head?, x.isDigit = false) ['.']
        [atom (.delim '.') ['.']] := Spells.atom rfl fun _ digit => Grammar.scan_dot digit
    refine ⟨[atom (.delim '.') ['.'], word name], ?_, rfl⟩
    rw [Component.render, String.toList_append]
    refine dot.append named.spells_identifier fun rest _ x head => ?_
    have starts := named.startsName_identifier rest
    obtain ⟨more, same⟩ := List.head?_eq_some_iff.1 head
    rw [same] at starts
    exact Component.isDigit_of_startsName starts
  | .identity name, proper, _, _ => by
    have named : IsName name := proper
    refine ⟨[atom (.idHash name) ('#' :: (Printer.identifier name).toList)], ?_, rfl⟩
    rw [Component.render, String.toList_append]
    exact named.spells_hash
  | .hasAttribute a, proper, legible, _ => by
    obtain ⟨n, spells, read⟩ := Attribute.exists_spells proper legible
    refine ⟨[n], by rw [Component.render]; exact spells, ?_⟩
    rw [Node.symbols, read]
    rfl
  | .pseudo kind name .none, proper, _, _ => by
    have named : IsName name := proper.1
    have spells := named.spells_identifier
    apply exists_spells_pseudo (n := word name) _ rfl
    rw [Argument.render, String.append_empty]
    exact spells
  | .pseudo kind name (.selectors list), proper, _, within => by
    obtain ⟨named, takes, nonempty⟩ := proper
    obtain ⟨ns, inside, read⟩ := exists_spells_selectors list nonempty within
    have closes : ∀ rest, EndsSelector (')' :: rest) := by
      rintro rest x ⟨⟩
      exact .inr rfl
    have call := named.spells_call (notUrl_of_takesSelectors takes) inside closes
    have printed : (Printer.identifier name ++ (Argument.selectors list).render).toList =
        (Printer.identifier name).toList ++
          '(' :: ((", ".intercalate (renderSelectors list)).toList ++ [')']) := by
      simp [Argument.render]
    rw [← printed] at call
    refine exists_spells_pseudo (call.mono fun _ _ => trivial) ?_
    rw [Node.symbol?]
    simp only [Argument.read, takes, ↓reduceIte, read]
    rfl
  | .pseudo kind name (.raw text), _, legible, _ => by
    obtain ⟨n, spells, read⟩ := legible
    refine exists_spells_pseudo ?_ read
    rw [Argument.render, ← String.append_assoc, ← String.append_assoc]
    exact spells
  | .combinator .descendant, _, _, _ => ⟨[gap [' ']], Spells.space, rfl⟩
  | .combinator .child, _, _, _ => ⟨[atom (.delim '>') ['>']], Spells.atom rfl fun _ _ => rfl, rfl⟩
  | .combinator .nextSibling, _, _, _ =>
    ⟨[atom (.delim '+') ['+']], Spells.atom rfl fun _ digits => Grammar.scan_plus digits, rfl⟩
  | .combinator .laterSibling, _, _, _ =>
    ⟨[atom (.delim '~') ['~']],
      Spells.atom rfl fun _ plain => Grammar.matchToken_delim _ _ plain, rfl⟩
  | .nesting, _, _, _ => ⟨[atom (.delim '&') ['&']], Spells.atom rfl fun _ _ => rfl, rfl⟩

theorem exists_spells_selectors : (list : List (List Component)) → list ≠ [] →
    Everywhere ComplexSelector.ReadsBack list →
    ∃ ns, Spells EndsSelector (", ".intercalate (renderSelectors list)).toList ns ∧
      SelectorList.ofSymbols (Node.symbols ns) = .ok list
  | [], nonempty, _ => absurd rfl nonempty
  | [s], _, ⟨⟨back, within⟩, _⟩ => by
    obtain ⟨ns, spells, symbols⟩ := exists_spells_components s back.proper.components
      back.legible.components back.proper.shaped.last back.proper.shaped.apart back.legible.apart
      within
    refine ⟨ns, by simpa [renderSelectors] using spells, ?_⟩
    rw [symbols]
    exact SelectorList.ofSymbols_single back.proper.shaped
  | s :: t :: list, _, ⟨⟨back, within⟩, later⟩ => by
    obtain ⟨ns, spells, symbols⟩ := exists_spells_components s back.proper.components
      back.legible.components back.proper.shaped.last back.proper.shaped.apart back.legible.apart
      within
    obtain ⟨ms, rest, read⟩ := exists_spells_selectors (t :: list) (by simp) later
    refine ⟨ns ++ ([Node.comma, gap [' ']] ++ ms), ?_, ?_⟩
    · rw [renderSelectors, renderSelectors, String.intercalate_cons_cons, ← renderSelectors,
        String.append_assoc, String.toList_append, String.toList_append]
      refine spells.append (Spells.comma.append rest fun more _ => ?_) fun more _ x head => ?_
      · exact solid_selectors later.1.1.proper list more
      · cases head
        exact .inl rfl
    · rw [Node.symbols_append, symbols]
      exact SelectorList.ofSymbols_cons back.proper.shaped read

theorem exists_spells_components : (cs : List Component) → (∀ c ∈ cs, c.Proper) →
    (∀ c ∈ cs, c.Legible) → (∀ c ∈ cs.getLast?, isCombinator c = false) →
    (cs.IsChain fun c d => isCombinator c → isCombinator d = false) →
    cs.IsChain Component.Apart → AllWithin ComplexSelector.ReadsBack cs →
    ∃ ns, Spells EndsSelector (renderComponents cs).toList ns ∧
      Node.symbols ns = cs.flatMap Component.symbols
  | [], _, _, _, _, _, _ => ⟨[], Spells.nil, rfl⟩
  | [c], proper, legible, last, _, _, ⟨within, _⟩ => by
    obtain ⟨ns, spells, symbols⟩ :=
      c.exists_spells (proper c (by simp)) (legible c (by simp)) within
    refine ⟨ns, ?_, by simp [symbols]⟩
    have simple := last c (by simp)
    rw [renderComponents, renderComponents, String.append_empty]
    exact spells.mono fun _ ends => ends.fits simple
  | c :: d :: cs, proper, legible, last, alone, apart, ⟨within, later⟩ => by
    obtain ⟨ns, spells, symbols⟩ :=
      c.exists_spells (proper c (by simp)) (legible c (by simp)) within
    obtain ⟨alone, aloneLater⟩ := List.isChain_cons_cons.1 alone
    obtain ⟨apart, apartLater⟩ := List.isChain_cons_cons.1 apart
    obtain ⟨ms, rest, symbolsLater⟩ := exists_spells_components (d :: cs)
      (fun e member => proper e (by simp [member])) (fun e member => legible e (by simp [member]))
      (by simpa using last) aloneLater apartLater later
    refine ⟨ns ++ ms, ?_, by rw [Node.symbols_append, symbols, symbolsLater]; rfl⟩
    rw [renderComponents, String.toList_append]
    apply spells.append rest
    intro more _
    rw [renderComponents, String.toList_append, List.append_assoc]
    exact Component.fits_of_apart (proper d (by simp)) apart alone _

end

end Spells

end CssOutline
