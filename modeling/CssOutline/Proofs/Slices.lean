import CssOutline.Proofs.Rescan

/-! Parts of a text that are cut out of it. Blanks and comments say nothing; a part of a text that
does not end with a blank says by itself what it said in the text, if it is written without escapes
and what it opens is closed. -/

namespace CssOutline

/-- What a token says: a number also how it is written. -/
abbrev Gist := Token × List Char

def Lexeme.gist? (l : Lexeme) : Option Gist :=
  match l.token with
  | .whitespace => none
  | .comment => none
  | .ident name =>
    some (.ident (if Text.sameName name "currentcolor" then "currentcolor" else name), [])
  | .number _ => some (l.token, l.text)
  | .percentage _ => some (l.token, l.text)
  | .dimension _ _ => some (l.token, l.text)
  | t => some (t, [])

def Lexeme.gists (ls : List Lexeme) : List Gist :=
  ls.filterMap gist?

namespace Lexer

/-- What a text says, token by token. -/
def gists (cs : List Char) : List Gist :=
  Lexeme.gists (lexemes cs)

theorem gists_eq_plain (cs : List Char) : gists cs = Lexeme.gists (plain cs) := by
  rw [gists, Lexeme.gists, Lexeme.gists, plain, List.filterMap_map]
  rfl

def Means (cs : List Char) (gs : List Gist) : Prop :=
  ∀ rest, Grammar.EndsWord rest → gists (cs ++ rest) = gs ++ gists rest

theorem Means.gists_eq {cs : List Char} {gs : List Gist} (means : Means cs gs) : gists cs = gs := by
  have none : gists [] = [] := by simp [gists, lexemes, lexemesFrom, Lexeme.gists]
  have alone := means [] (by simp [Grammar.EndsWord])
  rwa [none, List.append_nil, List.append_nil] at alone

/-- Lexemes that are scanned one after the other from their texts, with a rest behind them. -/
inductive Scans : List Lexeme → List Char → Prop
  | nil (rest : List Char) : Scans [] rest
  | cons {l : Lexeme} {c : Char} {u : List Char} {ls : List Lexeme} {rest : List Char}
    (text : l.text = c :: u)
    (scanned : scan c (u ++ ls.flatMap Lexeme.text ++ rest) =
      (l.token, ls.flatMap Lexeme.text ++ rest))
    (later : Scans ls rest) : Scans (l :: ls) rest

section Scans

variable {ls ms : List Lexeme} {rest : List Char}

theorem scans_lexemesFrom (start : Location) (cs : List Char) :
    Scans (lexemesFrom start cs) [] := by
  fun_induction lexemesFrom start cs with
  | case1 => exact .nil []
  | case2 start c cs _ text ih =>
    have left := flatMap_text_lexemesFrom (start.advance text) (scan c cs).2
    obtain ⟨u, whole⟩ := scan_suffix c cs
    have same : text = c :: u := by
      rw [← List.append_cancel_right_eq _ (scan c cs).2, List.cons_append, whole]
      exact before_append ((scan_suffix c cs).trans (List.suffix_cons _ _))
    refine .cons same ?_ ih
    rw [List.append_nil, List.append_nil, left, whole]

theorem Scans.append_right (scans : Scans (ls ++ ms) rest) : Scans ms rest := by
  induction ls with
  | nil => exact scans
  | cons l ls ih =>
    cases scans with
    | cons _ _ later => exact ih later

theorem Scans.append_left (scans : Scans (ls ++ ms) rest) :
    Scans ls (ms.flatMap Lexeme.text ++ rest) := by
  induction ls with
  | nil => exact .nil _
  | cons l ls ih =>
    cases scans with
    | cons text scanned later =>
      refine .cons text ?_ (ih later)
      simpa using scanned

theorem gists_of_scan {c : Char} {u : List Char} {l : Lexeme} (text : l.text = c :: u)
    (scanned : scan c (u ++ rest) = (l.token, rest)) :
    Lexer.gists (l.text ++ rest) = Lexeme.gists [l] ++ Lexer.gists rest := by
  rw [gists_eq_plain, text, plain_append scanned, gists_eq_plain, ← text, ← List.singleton_append,
    Lexeme.gists, List.filterMap_append]
  rfl

theorem Scans.gists (scans : Scans ls rest) :
    Lexer.gists (ls.flatMap Lexeme.text ++ rest) = Lexeme.gists ls ++ Lexer.gists rest := by
  induction scans with
  | nil => rfl
  | @cons l c u ls rest text scanned later ih =>
    rw [List.append_assoc] at scanned
    rw [List.flatMap_cons, List.append_assoc, gists_of_scan text scanned, ih, ← List.append_assoc]
    rw [Lexeme.gists, Lexeme.gists, ← List.filterMap_append]
    rfl

end Scans

end Lexer

/-- A lexeme that is written without escapes, is no hash, is closed by its own last characters, and
opens no call of a kind of its own. -/
structure Lexeme.IsPlain (l : Lexeme) : Prop where
  unescaped : '\\' ∉ l.text
  hashless : '#' ∉ l.text
  blank : ∀ c ∈ l.text, Text.isWhiteSpace c → Text.isBlank c
  whole : l.token.IsWhole l.text
  unread : ∀ name, l.token = .function name →
    ColorFunction.ofName? name = none ∧ ¬ Math.isName name

namespace Lexer

open Grammar (EndsWord)

section Cut

variable {ls ms : List Lexeme} {rest more : List Char}

theorem Scans.exists_solid {l : Lexeme} (scans : Scans (l :: ls) rest)
    (solid : l.token ≠ .whitespace) : ∃ c u, l.text = c :: u ∧ Text.isBlank c = false := by
  cases scans with
  | @cons _ c u _ _ text scanned _ =>
    refine ⟨c, u, text, ?_⟩
    by_contra blank
    rw [scan_of_blank (by simpa using blank)] at scanned
    exact solid (Prod.mk.inj scanned).1.symm

theorem Scans.exists_visible (scans : Scans ls rest) (some : ls ≠ [])
    (last : ∀ l ∈ ls.getLast?, l.token ≠ .whitespace) :
    ∃ x ∈ ls.flatMap Lexeme.text, Text.isBlank x = false := by
  obtain ⟨front, l, rfl⟩ := List.eq_nil_or_concat ls |>.resolve_left some
  rw [List.concat_eq_append] at scans last ⊢
  obtain ⟨c, u, text, solid⟩ := scans.append_right.exists_solid (last l (by simp))
  exact ⟨c, by simp [text], solid⟩

theorem Scans.cut (scans : Scans ls more) (plain : ∀ l ∈ ls, l.IsPlain) (unescaped : '\\' ∉ more)
    (last : ∀ l ∈ ls.getLast?, l.token ≠ .whitespace ∧ ∀ name, l.token ≠ .function name)
    (ends : EndsWord rest) : Scans ls rest := by
  induction scans with
  | nil => exact .nil _
  | @cons l c u ls more text scanned later ih =>
    have lastLater : ∀ l' ∈ ls.getLast?, l'.token ≠ .whitespace ∧
        ∀ name, l'.token ≠ .function name := by
      intro l' member
      apply last
      rw [List.getLast?_cons, Option.mem_def.1 member]
      rfl
    have here := plain l (by simp)
    refine .cons text ?_
      (ih (fun l' member => plain l' (by simp [member])) unescaped lastLater)
    have texts : '\\' ∉ ls.flatMap Lexeme.text := by
      simp only [List.mem_flatMap, not_exists, not_and]
      exact fun l' member => (plain l' (by simp [member])).unescaped
    have own : '\\' ∉ c :: u := text ▸ here.unescaped
    have visible : (l.token = .whitespace ∨ ∃ name, l.token = .function name) →
        ∃ x ∈ ls.flatMap Lexeme.text, Text.isBlank x = false := by
      intro opens
      have some : ls ≠ [] := by
        rintro rfl
        have stop := last l (by simp)
        rcases opens with blank | ⟨name, call⟩
        · exact stop.1 blank
        · exact stop.2 name call
      exact later.exists_visible some fun l' member => (lastLater l' member).1
    apply scan_cut ⟨?_, ?_⟩ (stops_of_endsWord ends) (text ▸ here.whole).isEnded (fun _ => own) ?_
      (fun name call _ => visible (.inr ⟨name, call⟩)) scanned
    · left
      rw [List.mem_cons, not_or] at own
      simp [own, texts]
    · exact fun _ head => unescaped (List.mem_of_head? head)
    · intro blank none
      obtain ⟨x, member, _⟩ := visible (.inl blank)
      rw [none] at member
      cases member

structure Slice (ls : List Lexeme) : Prop where
  scans : ∃ rest, '\\' ∉ rest ∧ Scans ls rest
  plain : ∀ l ∈ ls, l.IsPlain

theorem unescaped_flatMap (plain : ∀ l ∈ ls, l.IsPlain) : '\\' ∉ ls.flatMap Lexeme.text := by
  simp only [List.mem_flatMap, not_exists, not_and]
  exact fun l member => (plain l member).unescaped

theorem Slice.left (slice : Slice (ls ++ ms)) : Slice ls := by
  obtain ⟨rest, unescaped, scans⟩ := slice.scans
  have behind : '\\' ∉ ms.flatMap Lexeme.text :=
    unescaped_flatMap fun l member => slice.plain l (by simp [member])
  exact ⟨⟨_, by simp [behind, unescaped], scans.append_left⟩,
    fun l member => slice.plain l (by simp [member])⟩

theorem Slice.right (slice : Slice (ls ++ ms)) : Slice ms := by
  obtain ⟨rest, unescaped, scans⟩ := slice.scans
  exact ⟨⟨rest, unescaped, scans.append_right⟩, fun l member => slice.plain l (by simp [member])⟩

theorem Slice.exists_scan {l : Lexeme} (slice : Slice [l]) :
    ∃ c u rest, l.text = c :: u ∧ scan c (u ++ rest) = (l.token, rest) ∧
      '\\' ∉ c :: (u ++ rest) ∧ l.IsPlain := by
  have plain := slice.plain l (by simp)
  obtain ⟨rest, unescaped, scans⟩ := slice.scans
  cases scans with
  | @cons _ c u _ _ text scanned _ =>
    refine ⟨c, u, rest, text, by simpa using scanned, ?_, plain⟩
    have own := plain.unescaped
    simp only [text, List.mem_cons, not_or] at own
    simp [own, unescaped]

theorem Slice.means (slice : Slice ls)
    (last : ∀ l ∈ ls.getLast?, l.token ≠ .whitespace ∧ ∀ name, l.token ≠ .function name) :
    Means (ls.flatMap Lexeme.text) (Lexeme.gists ls) := by
  obtain ⟨more, unescaped, scans⟩ := slice.scans
  exact fun rest ends => (scans.cut slice.plain unescaped last ends).gists

end Cut

end Lexer

namespace Node

mutual

/-- The lexemes of a node, from the first to the last. -/
def lexemes : Node → List Lexeme
  | leaf l => [l]
  | block l body closing => l :: (lexemesOf body ++ closing.toList)

def lexemesOf : List Node → List Lexeme
  | [] => []
  | n :: ns => n.lexemes ++ lexemesOf ns

end

def gists (ns : List Node) : List Gist :=
  Lexeme.gists (lexemesOf ns)

theorem lexemesOf_append (ns ms : List Node) :
    lexemesOf (ns ++ ms) = lexemesOf ns ++ lexemesOf ms := by
  induction ns with
  | nil => rfl
  | cons n ns ih => rw [List.cons_append, lexemesOf, lexemesOf, ih, List.append_assoc]

theorem gists_nil : gists [] = [] :=
  rfl

theorem gists_append (ns ms : List Node) : gists (ns ++ ms) = gists ns ++ gists ms := by
  rw [gists, lexemesOf_append, Lexeme.gists, List.filterMap_append]
  rfl

theorem gists_cons (n : Node) (ns : List Node) : gists (n :: ns) = gists [n] ++ gists ns :=
  gists_append [n] ns

mutual

theorem flatMap_text_lexemes (n : Node) : n.lexemes.flatMap Lexeme.text = n.text := by
  cases n with
  | leaf l => simp [lexemes, text]
  | block l body closing =>
    have inner := flatMap_text_lexemesOf body
    cases closing <;> simp [lexemes, text, inner]

theorem flatMap_text_lexemesOf (ns : List Node) :
    (lexemesOf ns).flatMap Lexeme.text = textOf ns := by
  cases ns with
  | nil => rfl
  | cons n ns =>
    rw [lexemesOf, textOf, List.flatMap_append, flatMap_text_lexemes n, flatMap_text_lexemesOf ns]

end

def openLexemes : List Frame → List Node → List Lexeme
  | [], siblings => lexemesOf siblings.reverse
  | f :: stack, siblings => openLexemes stack f.outer ++ (f.opening :: lexemesOf siblings.reverse)

theorem openLexemes_cons (stack : List Frame) (n : Node) (siblings : List Node) :
    openLexemes stack (n :: siblings) = openLexemes stack siblings ++ n.lexemes := by
  cases stack <;> simp [openLexemes, lexemesOf_append, lexemesOf]

theorem lexemesOf_finish (stack : List Frame) (siblings : List Node) :
    lexemesOf (finish stack siblings) = openLexemes stack siblings := by
  induction stack generalizing siblings with
  | nil => rfl
  | cons f stack ih =>
    rw [finish, ih, openLexemes_cons]
    simp [openLexemes, lexemes]

theorem lexemesOf_build (stack : List Frame) (siblings : List Node) (ls : List Lexeme) :
    lexemesOf (build stack siblings ls) = openLexemes stack siblings ++ ls := by
  fun_induction build stack siblings ls with
  | case1 stack siblings => simp [lexemesOf_finish]
  | case2 stack siblings l ls _ ih =>
    rw [ih]
    simp [openLexemes, lexemesOf]
  | case3 siblings l ls _ f outer _ ih =>
    rw [ih, openLexemes_cons]
    simp [openLexemes, lexemes]
  | case4 siblings l ls _ f outer _ ih =>
    rw [ih, openLexemes_cons]
    simp [lexemes]
  | case5 siblings l ls _ ih =>
    rw [ih, openLexemes_cons]
    simp [lexemes]

theorem lexemesOf_ofText (cs : List Char) : lexemesOf (ofText cs) = Lexer.lexemes cs := by
  rw [ofText, lexemesOf_build]
  rfl

theorem Spells.means {cs : List Char} {ns : List Node} (spells : Spells Grammar.EndsWord cs ns) :
    Lexer.Means cs (gists ns) := by
  intro rest ends
  have read := congrArg lexemesOf (spells [] [] rest ends)
  rw [lexemesOf_build, lexemesOf_build] at read
  have same : Lexer.plain (cs ++ rest) = lexemesOf ns ++ Lexer.plain rest := by
    simpa [openLexemes, lexemesOf] using read
  rw [Lexer.gists_eq_plain, same, Lexer.gists_eq_plain, Lexeme.gists, List.filterMap_append]
  rfl

inductive Whole : Node → Prop
  | leaf {l : Lexeme} (flat : l.token.isFlat) : Whole (leaf l)
  | block {l c : Lexeme} {body : List Node} (closes : l.token.closing? = some c.token)
    (inner : ∀ n ∈ body, n.Whole) : Whole (block l body (some c))

theorem Whole.eq_leaf {n : Node} (whole : n.Whole) {t : Token} (token : n.token = t)
    (flat : t.closing? = none) : ∃ l, n = Node.leaf l ∧ l.token = t := by
  cases whole with
  | leaf => exact ⟨_, rfl, token⟩
  | @block l c body closes inner =>
    have same : l.token = t := token
    rw [same, flat] at closes
    cases closes

end Node

/-- Whether every token that opens something is closed, and nothing else is. The tokens `awaited`
close what is open, the innermost first. -/
def Token.balanced (awaited : List Token) : List Token → Bool
  | [] => awaited.isEmpty
  | t :: ts =>
    match t.closing? with
    | some c => balanced (c :: awaited) ts
    | none =>
      if t.isFlat then balanced awaited ts
      else awaited.head? == some t && balanced awaited.tail ts

namespace Node

def awaited (stack : List Frame) : List Token :=
  stack.filterMap fun f => f.opening.token.closing?

theorem awaited_cons {f : Frame} {c : Token} (closes : f.opening.token.closing? = some c)
    (stack : List Frame) : awaited (f :: stack) = c :: awaited stack :=
  List.filterMap_cons_some closes

theorem whole_build (stack : List Frame) (siblings : List Node) (ls : List Lexeme)
    (balanced : Token.balanced (awaited stack) (ls.map Lexeme.token))
    (opens : ∀ f ∈ stack, f.opening.token.closing?.isSome)
    (outer : ∀ f ∈ stack, ∀ n ∈ f.outer, n.Whole) (level : ∀ n ∈ siblings, n.Whole) :
    ∀ n ∈ build stack siblings ls, n.Whole := by
  fun_induction build stack siblings ls with
  | case1 stack siblings =>
    obtain _ | ⟨f, stack⟩ := stack
    · simpa [finish] using level
    · obtain ⟨c, closes⟩ := Option.isSome_iff_exists.1 (opens f (by simp))
      simp [Token.balanced, awaited_cons closes] at balanced
  | case2 stack siblings l ls opening ih =>
    obtain ⟨c, closes⟩ := Option.isSome_iff_exists.1 opening
    apply ih
    · simpa [Token.balanced, closes, awaited_cons (f := ⟨l, siblings⟩) closes] using balanced
    · simpa [opening] using opens
    · exact List.forall_mem_cons.2 ⟨level, outer⟩
    · simp
  | case3 siblings l ls plain f stack closes ih =>
    have none : l.token.closing? = none := by simpa using plain
    have bracket : l.token.isFlat = false := by
      by_contra flat
      exact (Token.closing?_of_isFlat (by simpa using flat)).2 _ closes
    have whole : (block f.opening siblings.reverse (some l)).Whole :=
      .block closes fun n member => level n (List.mem_reverse.1 member)
    rw [awaited_cons closes, List.map_cons, Token.balanced] at balanced
    apply ih
    · simpa [none, bracket] using balanced
    · exact fun f' member => opens f' (by simp [member])
    · exact fun f' member => outer f' (by simp [member])
    · simpa [whole] using outer f (by simp)
  | case4 siblings l ls plain f stack other ih =>
    have none : l.token.closing? = none := by simpa using plain
    obtain ⟨c, closes⟩ := Option.isSome_iff_exists.1 (opens f (by simp))
    rw [List.map_cons, Token.balanced] at balanced
    cases flat : l.token.isFlat with
    | false =>
      simp only [none, flat, awaited_cons closes, Bool.false_eq_true, if_false, Bool.and_eq_true,
        beq_iff_eq, List.head?_cons, Option.some.injEq] at balanced
      exact absurd (balanced.1 ▸ closes) other
    | true =>
      apply ih _ opens outer
      · simpa [Whole.leaf flat] using level
      · simpa [none, flat] using balanced
  | case5 siblings l ls plain ih =>
    have none : l.token.closing? = none := by simpa using plain
    rw [List.map_cons, Token.balanced] at balanced
    cases flat : l.token.isFlat with
    | false => simp [none, flat, awaited] at balanced
    | true =>
      apply ih _ opens outer
      · simpa [Whole.leaf flat] using level
      · simpa [none, flat] using balanced

theorem whole_ofText {cs : List Char}
    (balanced : Token.balanced [] ((Lexer.lexemes cs).map Lexeme.token)) :
    ∀ n ∈ ofText cs, n.Whole :=
  whole_build [] [] _ balanced (by simp) (by simp) (by simp)

structure Sliced (ns : List Node) : Prop where
  slice : Lexer.Slice (lexemesOf ns)
  whole : ∀ n ∈ ns, n.Whole

namespace Sliced

variable {ns ms : List Node}

theorem left (sliced : Sliced (ns ++ ms)) : Sliced ns := by
  refine ⟨?_, fun n member => sliced.whole n (by simp [member])⟩
  have slice := sliced.slice
  rw [lexemesOf_append] at slice
  exact slice.left

theorem right (sliced : Sliced (ns ++ ms)) : Sliced ms := by
  refine ⟨?_, fun n member => sliced.whole n (by simp [member])⟩
  have slice := sliced.slice
  rw [lexemesOf_append] at slice
  exact slice.right

theorem body {l : Lexeme} {closing : Option Lexeme} (sliced : Sliced [block l ns closing]) :
    Sliced ns := by
  have slice : Lexer.Slice ([l] ++ (lexemesOf ns ++ (closing.toList ++ []))) := by
    simpa [lexemesOf, lexemes] using sliced.slice
  refine ⟨slice.right.left, ?_⟩
  cases sliced.whole _ List.mem_cons_self with
  | block _ inner => exact inner

end Sliced

theorem Whole.getLast?_lexemes {n : Node} (whole : n.Whole) :
    ∃ l, n.lexemes.getLast? = some l ∧ (l.token = .whitespace → n.token = .whitespace) ∧
      ∀ name, l.token ≠ .function name := by
  cases whole with
  | @leaf l flat =>
    refine ⟨l, rfl, id, fun name call => ?_⟩
    rw [call] at flat
    cases flat
  | @block l c body closes inner =>
    refine ⟨c, by simp [lexemes, List.getLast?_cons], fun blank => ?_, fun name call => ?_⟩
    · rw [blank] at closes
      cases token : l.token <;> simp [token, Token.closing?] at closes
    · rw [call] at closes
      cases token : l.token <;> simp [token, Token.closing?] at closes

theorem Sliced.means {ns : List Node} (sliced : Sliced ns)
    (last : ∀ n ∈ ns.getLast?, n.token ≠ .whitespace) : Lexer.Means (textOf ns) (gists ns) := by
  rw [← flatMap_text_lexemesOf]
  apply sliced.slice.means
  intro l member
  rcases List.eq_nil_or_concat ns with rfl | ⟨front, n, rfl⟩
  · simp [lexemesOf] at member
  · rw [List.concat_eq_append] at sliced last member
    obtain ⟨l', found, blank, call⟩ := (sliced.whole n (by simp)).getLast?_lexemes
    rw [lexemesOf_append, lexemesOf, lexemesOf, List.append_nil, List.getLast?_append,
      found] at member
    cases member
    exact ⟨fun same => last n (by simp) (blank same), call⟩

theorem Sliced.visible {n : Node} {ns : List Node} (sliced : Sliced (n :: ns))
    (solid : n.token ≠ .whitespace) : Visible (textOf (n :: ns)) := by
  obtain ⟨rest, _, scans⟩ := sliced.slice.scans
  rw [← flatMap_text_lexemesOf]
  obtain ⟨l, ls, same⟩ : ∃ l ls, lexemesOf (n :: ns) = l :: ls ∧ l.token = n.token := by
    cases n with
    | leaf l => exact ⟨l, lexemesOf ns, rfl, rfl⟩
    | block l body closing => exact ⟨l, _, rfl, rfl⟩
  rw [same.1] at scans ⊢
  obtain ⟨c, u, text, visible⟩ := scans.exists_solid (same.2 ▸ solid)
  exact ⟨c, u ++ ls.flatMap Lexeme.text, by simp [text], visible⟩

end Node

end CssOutline
