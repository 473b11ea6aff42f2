import CssOutline.Proofs.ClosedTexts
import CssOutline.Proofs.Quantities

/-! Parts of math expressions that are cut out of a text. Such a part may hold escapes and comments,
and at the end of the text it may hold blocks and a comment that are not closed. In parentheses it
denotes what it did in the text, with as many of them closed as are open. -/

namespace CssOutline

theorem Token.closing?_closing {t u : Token} (closes : t.closing? = some u) : u.closing? = none := by
  cases t <;> cases closes <;> rfl

namespace Node

theorem sizeOf_body_lt {l : Lexeme} {body ns : List Node} {closing : Option Lexeme}
    (member : block l body closing ∈ ns) : sizeOf body < sizeOf ns := by
  refine lt_trans ?_ (List.sizeOf_lt_of_mem member)
  rw [block.sizeOf_spec]
  omega

/-- Nodes as they are built on a level that waits for a token. Everything is closed but, if the level
is the last of the text, its last node. -/
inductive Grown : Option Token → Bool → List Node → Prop
  | nil {awaited : Option Token} {last : Bool} : Grown awaited last []
  | leaf {awaited : Option Token} {last : Bool} {l : Lexeme} {ns : List Node}
    (plain : l.token.closing? = none) (other : awaited ≠ some l.token)
    (later : Grown awaited last ns) : Grown awaited last (leaf l :: ns)
  | closed {awaited : Option Token} {last : Bool} {l c : Lexeme} {body ns : List Node}
    (closes : l.token.closing? = some c.token) (inner : Grown (some c.token) false body)
    (later : Grown awaited last ns) : Grown awaited last (block l body (some c) :: ns)
  | opened {awaited : Option Token} {l : Lexeme} {body : List Node} {t : Token}
    (opens : l.token.closing? = some t) (inner : Grown (some t) true body) :
    Grown awaited true [block l body none]

section Grown

variable {awaited : Option Token} {last : Bool} {ns ms siblings : List Node} {m : Node}
  {stack : List Frame}

theorem Grown.append (first : Grown awaited false ns) (second : Grown awaited last ms) :
    Grown awaited last (ns ++ ms) := by
  generalize mode : false = closed at first
  induction first with
  | nil => exact second
  | leaf plain other _ ih => exact .leaf plain other (ih second mode)
  | closed closes inner _ _ ih => exact .closed closes inner (ih second mode)
  | opened => cases mode

theorem Grown.mono (grown : Grown awaited false ns) : Grown awaited last ns := by
  have whole : Grown awaited last (ns ++ []) := grown.append .nil
  rwa [List.append_nil] at whole

theorem Grown.left (grown : Grown awaited last (ns ++ m :: ms)) : Grown awaited false ns := by
  generalize split : ns ++ m :: ms = whole at grown
  induction grown generalizing ns with
  | nil => simp at split
  | leaf plain other _ ih =>
    obtain _ | ⟨n, ns⟩ := ns
    · exact .nil
    · obtain ⟨rfl, tail⟩ := List.cons.inj split
      exact .leaf plain other (ih tail)
  | closed closes inner _ _ ih =>
    obtain _ | ⟨n, ns⟩ := ns
    · exact .nil
    · obtain ⟨rfl, tail⟩ := List.cons.inj split
      exact .closed closes inner (ih tail)
  | opened =>
    obtain _ | ⟨n, ns⟩ := ns
    · exact .nil
    · simp at split

theorem Grown.right (grown : Grown awaited last (ns ++ ms)) : Grown awaited last ms := by
  induction ns with
  | nil => exact grown
  | cons n ns ih =>
    generalize split : n :: ns ++ ms = whole at grown
    cases grown with
    | nil => cases split
    | leaf _ _ later =>
      obtain ⟨_, rfl⟩ := List.cons.inj split
      exact ih later
    | closed _ _ later =>
      obtain ⟨_, rfl⟩ := List.cons.inj split
      exact ih later
    | opened =>
      obtain ⟨_, rfl⟩ := List.append_eq_nil_iff.1 (List.cons.inj split).2
      exact .nil

theorem Grown.cases_last (grown : Grown awaited last ns) : Grown awaited false ns ∨
    last ∧ ∃ front l body t, ns = front ++ [block l body none] ∧ Grown awaited false front ∧
      l.token.closing? = some t ∧ Grown (some t) true body := by
  induction grown with
  | nil => exact .inl .nil
  | leaf plain other _ ih =>
    obtain closed | ⟨final, front, l, body, t, rfl, closed, opens, inner⟩ := ih
    · exact .inl (.leaf plain other closed)
    · exact .inr ⟨final, _ :: front, l, body, t, rfl, .leaf plain other closed, opens, inner⟩
  | closed closes inside _ _ ih =>
    obtain closed | ⟨final, front, l, body, t, rfl, closed, opens, inner⟩ := ih
    · exact .inl (.closed closes inside closed)
    · exact .inr ⟨final, _ :: front, l, body, t, rfl, .closed closes inside closed, opens, inner⟩
  | opened opens inner => exact .inr ⟨rfl, [], _, _, _, rfl, .nil, opens, inner⟩

theorem Grown.build_closed {ls : List Lexeme} (grown : Grown awaited false ns)
    (top : ∀ f ∈ stack.head?, f.opening.token.closing? = awaited) :
    build stack siblings ((lexemesOf ns).map Lexeme.unplaced ++ ls) =
      build stack ((ns.map unplaced).reverse ++ siblings) ls := by
  generalize mode : false = last at grown
  induction grown generalizing stack siblings ls with
  | nil => rfl
  | @leaf awaited last l ns plain other _ ih =>
    have here : ∀ f ∈ stack.head?, f.opening.token.closing? ≠ some l.unplaced.token :=
      fun f head => top f head ▸ other
    simp only [lexemesOf, lexemes, List.map_cons, List.cons_append, List.nil_append, unplaced,
      List.reverse_cons, List.append_assoc]
    rw [build_leaf (l := l.unplaced) plain here, ih top mode]
  | @closed awaited last l c body ns closes _ _ ihInner ihLater =>
    have flat : c.unplaced.token.closing? = none := Token.closing?_closing closes
    have opens : l.unplaced.token.closing?.isSome := by simp [closes]
    simp only [lexemesOf, lexemes, Option.toList_some, List.map_cons, List.map_append,
      List.cons_append, List.append_assoc, List.nil_append, unplaced, List.reverse_cons,
      Option.map_some]
    rw [build_open opens, ihInner (by simpa using closes) rfl, build_close flat closes,
      ihLater top mode]
    simp [unplacedAll_eq_map]
  | opened => cases mode

theorem Grown.build_end {awaited : Option Token} {last : Bool} {ns siblings : List Node}
    {stack : List Frame} (grown : Grown awaited last ns)
    (top : ∀ f ∈ stack.head?, f.opening.token.closing? = awaited) :
    build stack siblings ((lexemesOf ns).map Lexeme.unplaced) =
      build stack ((ns.map unplaced).reverse ++ siblings) [] := by
  obtain closed | ⟨-, front, l, body, t, rfl, closed, opens, inner⟩ := grown.cases_last
  · rw [← closed.build_closed top, List.append_nil]
  · have smaller : sizeOf body < sizeOf (front ++ [block l body none]) :=
      sizeOf_body_lt (List.mem_append_right front (List.mem_singleton_self _))
    rw [lexemesOf_append, List.map_append, closed.build_closed top]
    simp only [lexemesOf, lexemes, Option.toList_none, List.append_nil, List.map_cons]
    rw [build_open (by simp [opens]), Grown.build_end inner (by simpa using opens), build_nil,
      build_nil, finish]
    simp [unplaced, unplacedAll_eq_map]
termination_by sizeOf ns

/-- Open blocks with the token that the innermost one waits for. -/
inductive Firm : List Frame → Option Token → Prop
  | nil : Firm [] none
  | cons {f : Frame} {stack : List Frame} {awaited : Option Token} {t : Token}
    (opens : f.opening.token.closing? = some t) (outer : Grown awaited false f.outer.reverse)
    (below : Firm stack awaited) : Firm (f :: stack) (some t)

theorem Firm.finish (firm : Firm stack awaited) (level : Grown awaited true siblings.reverse) :
    Grown none true (finish stack siblings) := by
  induction firm generalizing siblings with
  | nil => exact level
  | cons opens outer _ ih =>
    rw [Node.finish]
    apply ih
    rw [List.reverse_cons]
    exact outer.append (.opened opens level)

theorem Firm.build (firm : Firm stack awaited) (level : Grown awaited false siblings.reverse)
    (ls : List Lexeme) : Grown none true (build stack siblings ls) := by
  fun_induction Node.build stack siblings ls generalizing awaited with
  | case1 stack siblings => exact firm.finish level.mono
  | case2 stack siblings l ls opening ih =>
    obtain ⟨t, opens⟩ := Option.isSome_iff_exists.1 opening
    exact ih (.cons opens level firm) .nil
  | case3 siblings l ls _ f stack closing ih =>
    cases firm with
    | cons opens outer below =>
      obtain rfl := Option.some.inj (opens.symm.trans closing)
      apply ih below
      rw [List.reverse_cons]
      exact outer.append (.closed closing level .nil)
  | case4 siblings l ls plain f stack other ih =>
    apply ih firm
    rw [List.reverse_cons]
    refine level.append (.leaf (by simpa using plain) ?_ .nil)
    cases firm with
    | cons opens => exact opens ▸ other
  | case5 siblings l ls plain ih =>
    apply ih firm
    rw [List.reverse_cons]
    refine level.append (.leaf (by simpa using plain) ?_ .nil)
    cases firm
    simp

end Grown

/-- Nodes in a text, before the rest of it. -/
structure Placed (awaited : Option Token) (last : Bool) (ns : List Node) (more : List Char) :
    Prop where
  scans : Lexer.Scans (lexemesOf ns) more
  grown : Grown awaited last ns
  ends : last → more = []

section Placed

variable {awaited : Option Token} {last : Bool} {ns ms : List Node} {n m : Node} {more : List Char}

theorem placed_ofText (cs : List Char) : Placed none true (ofText cs) [] := by
  refine ⟨?_, Firm.nil.build .nil _, fun _ => rfl⟩
  rw [lexemesOf_ofText]
  exact Lexer.scans_lexemes cs

theorem Placed.left (placed : Placed awaited last (ns ++ m :: ms) more) :
    Placed awaited false ns (textOf (m :: ms) ++ more) := by
  refine ⟨?_, placed.grown.left, by simp⟩
  have scans := placed.scans
  rw [lexemesOf_append] at scans
  rw [← flatMap_text_lexemesOf]
  exact scans.append_left

theorem Placed.right (placed : Placed awaited last (ns ++ ms) more) :
    Placed awaited last ms more := by
  refine ⟨?_, placed.grown.right, placed.ends⟩
  have scans := placed.scans
  rw [lexemesOf_append] at scans
  exact scans.append_right

theorem Placed.front (placed : Placed awaited last (ns ++ ms) more) :
    ∃ (last' : Bool) (more' : List Char), (last' → last) ∧ Placed awaited last' ns more' := by
  obtain _ | ⟨m, ms⟩ := ms
  · exact ⟨last, more, id, by rwa [List.append_nil] at placed⟩
  · exact ⟨false, _, by simp, placed.left⟩

theorem Placed.single (placed : Placed awaited last ns more) (member : n ∈ ns) :
    ∃ (last' : Bool) (more' : List Char), (last' → last) ∧ Placed awaited last' [n] more' := by
  obtain ⟨front, behind, rfl⟩ := List.append_of_mem member
  have here : Placed awaited last ([n] ++ behind) more := placed.right
  exact here.front

theorem Placed.body {l : Lexeme} {body : List Node} {closing : Option Lexeme}
    (placed : Placed awaited last [block l body closing] more) :
    ∃ t more', l.token.closing? = some t ∧ (∀ c ∈ closing, c.token = t) ∧
      Placed (some t) (last && closing.isNone) body more' := by
  have scans : Lexer.Scans ([l] ++ (lexemesOf body ++ (closing.toList ++ []))) more := by
    simpa [lexemesOf, lexemes] using placed.scans
  have inner := scans.append_right.append_left
  have grown := placed.grown
  cases grown with
  | closed closes inside => exact ⟨_, _, closes, by simp, inner, by simpa using inside, by simp⟩
  | opened opens inside => exact ⟨_, _, opens, by simp, inner, inside, by simp [placed.ends rfl]⟩

theorem Inside.placed {cs : List Char} (inside : Inside (ofText cs) ns) :
    ∃ awaited last more, Placed awaited last ns more := by
  induction inside with
  | self => exact ⟨_, _, _, placed_ofText cs⟩
  | block _ member ih =>
    obtain ⟨awaited, last, more, placed⟩ := ih
    obtain ⟨last', more', _, single⟩ := placed.single member
    obtain ⟨t, _, _, _, body⟩ := single.body
    exact ⟨_, _, _, body⟩

end Placed

end Node

def Token.isPart : Token → Bool
  | string _ => false
  | url _ => false
  | badString _ => false
  | badUrl _ => false
  | openSquare => false
  | openCurly => false
  | function name => !Text.sameName name "url"
  | _ => true

theorem Token.closing?_of_isPart {t u : Token} (part : t.isPart) (opens : t.closing? = some u) :
    u = closeParen := by
  cases t <;> cases opens <;> first | rfl | cases part

def Lexeme.visible (ls : List Lexeme) : List Lexeme :=
  ls.filter fun l => !l.token.isTrivia

structure Lexeme.IsFinal (l : Lexeme) : Prop where
  unescaped : '\\' ∉ l.text
  hyphen : l.text.getLast? ≠ some '-'

theorem Lexeme.visible_append (ls ms : List Lexeme) :
    visible (ls ++ ms) = visible ls ++ visible ms :=
  List.filter_append ls ms

namespace Lexer

section Comments

theorem commentEnd_cases (cs : List Char) :
    commentEnd cs = [] ∨ ∃ body, cs = body ++ '*' :: '/' :: commentEnd cs := by
  fun_induction commentEnd cs with
  | case1 => exact .inl rfl
  | case2 cs => exact .inr ⟨[], rfl⟩
  | case3 c cs _ ih =>
    rcases ih with open' | ⟨body, same⟩
    · exact .inl open'
    · exact .inr ⟨c :: body, by rw [List.cons_append, ← same]⟩

theorem exists_of_scan_comment {c : Char} {cs after : List Char}
    (scanned : scan c cs = (.comment, after)) :
    ∃ left, c = '/' ∧ cs = '*' :: left ∧ commentEnd left = after := by
  have starts : StartsMark (c :: cs) := isRead_of_scan scanned
  rcases startsMark_cases starts with ⟨left, rfl, rfl⟩ | ⟨left, rfl, rfl⟩ | ⟨left, rfl, rfl⟩
  · cases scanned
  · cases scanned
  · exact ⟨left, rfl, rfl, (Prod.mk.inj scanned).2⟩

theorem isEnded_comment {c : Char} {u after : List Char}
    (scanned : scan c (u ++ after) = (.comment, after)) (some : after ≠ []) :
    Token.comment.IsEnded (c :: u) := by
  obtain ⟨left, rfl, same, behind⟩ := exists_of_scan_comment scanned
  rcases commentEnd_cases left with none | ⟨body, whole⟩
  · exact absurd (behind.symm.trans none) some
  · rw [behind] at whole
    refine ⟨body, ?_⟩
    have text : u ++ after = ('*' :: (body ++ ['*', '/'])) ++ after := by
      rw [same, whole]
      simp
    rw [List.append_cancel_right text]

theorem commentEnd_open {left rest : List Char} (none : commentEnd left = [])
    (other : ∀ body, left ≠ body ++ ['*', '/']) (slash : rest.head? ≠ some '/') :
    commentEnd (left ++ rest) = commentEnd rest := by
  fun_induction commentEnd left with
  | case1 => rfl
  | case2 cs =>
    subst none
    exact absurd rfl (other [])
  | case3 c cs pair ih =>
    have later := ih none fun body same => other (c :: body) (by rw [same, List.cons_append])
    rw [List.cons_append, commentEnd.eq_def]
    split
    · rename_i same
      cases same
    · rename_i same
      obtain ⟨rfl, tail⟩ := List.cons.inj same
      obtain _ | ⟨x, cs⟩ := cs
      · rw [List.nil_append] at tail
        simp [tail] at slash
      · obtain ⟨rfl, _⟩ := List.cons.inj tail
        exact absurd rfl (pair cs rfl)
    · rename_i same
      rw [← (List.cons.inj same).2, later]

end Comments

section Recut

variable {ls : List Lexeme} {more rest : List Char}

theorem Scans.text_ne_nil (scans : Scans ls rest) : ∀ l ∈ ls, l.text ≠ [] := by
  induction scans with
  | nil => simp
  | cons text _ _ ih => simpa [text] using ih

theorem Scans.text_of_bracket (scans : Scans ls rest) :
    ∀ l ∈ ls, l.token.kind = .bracket → l.text = l.token.css.toList := by
  induction scans with
  | nil => simp
  | @cons l c u ls rest text scanned _ ih =>
    refine List.forall_mem_cons.2 ⟨fun bracket => ?_, ih⟩
    have read := isRead_of_scan scanned
    simp only [IsRead, bracket] at read
    rw [List.append_assoc, ← List.cons_append, List.append_cancel_right_eq] at read
    rw [text, read]

theorem Scans.ended_cases (scans : Scans ls rest) :
    (∀ l ∈ ls, l.token = .comment → l.token.IsEnded l.text) ∨
    rest = [] ∧ ∃ front l, ls = front ++ [l] ∧ l.token = .comment ∧ ¬ l.token.IsEnded l.text ∧
      ∀ l ∈ front, l.token = .comment → l.token.IsEnded l.text := by
  induction scans with
  | nil => exact .inl (by simp)
  | @cons l c u ls rest text scanned later ih =>
    have ends : ls.flatMap Lexeme.text ++ rest ≠ [] →
        l.token = .comment → l.token.IsEnded l.text := by
      intro some comment
      rw [List.append_assoc, comment] at scanned
      rw [comment, text]
      exact isEnded_comment scanned some
    rcases ih with all | ⟨rfl, front, l', rfl, comment, open', all⟩
    · by_cases ended : l.token = .comment → l.token.IsEnded l.text
      · exact .inl (List.forall_mem_cons.2 ⟨ended, all⟩)
      · obtain ⟨none, rfl⟩ := List.append_eq_nil_iff.1 (not_not.1 (mt ends ended))
        have alone : ls = [] := by
          obtain _ | ⟨m, ls⟩ := ls
          · rfl
          · rw [List.flatMap_cons] at none
            exact absurd (List.append_eq_nil_iff.1 none).1 (later.text_ne_nil m (by simp))
        rw [Classical.not_imp] at ended
        exact .inr ⟨rfl, [], l, by rw [alone]; rfl, ended.1, ended.2, by simp⟩
    · have some : (front ++ [l']).flatMap Lexeme.text ++ [] ≠ [] := by
        simp [later.text_ne_nil l' (by simp)]
      exact .inr ⟨rfl, l :: front, l', rfl, comment, open', List.forall_mem_cons.2 ⟨ends some, all⟩⟩

theorem Scans.isBlank_text {l : Lexeme} (scans : Scans (l :: ls) rest)
    (white : l.token = .whitespace) : ∀ x ∈ l.text, Text.isBlank x := by
  cases scans with
  | cons text scanned _ =>
    rw [List.append_assoc] at scanned
    have blank := isRead_of_scan scanned
    simp only [IsRead, white, Token.kind] at blank
    rw [text]
    exact blank_of_scan blank scanned

variable (ended : ∀ l ∈ ls, l.token = .comment → l.token.IsEnded l.text)
  (final : ∀ l ∈ (Lexeme.visible ls).getLast?, l.IsFinal)

include ended final

theorem Scans.getLast?_text (scans : Scans ls more) :
    ∀ x ∈ (ls.flatMap Lexeme.text).getLast?, x ≠ '\\' ∧ x ≠ '-' := by
  rcases List.eq_nil_or_concat ls with rfl | ⟨front, l, rfl⟩
  · simp
  rw [List.concat_eq_append] at scans final ended ⊢
  have some := scans.text_ne_nil l (by simp)
  rw [List.flatMap_append, List.flatMap_singleton, List.getLast?_append_of_ne_nil _ some]
  intro x member
  have inside := List.mem_of_getLast? member
  cases trivia : l.token.isTrivia with
  | false =>
    have fine := final l (by simp [Lexeme.visible, trivia])
    refine ⟨?_, ?_⟩
    · rintro rfl
      exact fine.unescaped inside
    · rintro rfl
      exact fine.hyphen member
  | true =>
    cases token : l.token <;> simp only [token, Token.isTrivia, reduceCtorEq] at trivia
    case whitespace =>
      have blank := scans.append_right.isBlank_text token x inside
      refine ⟨?_, ?_⟩ <;> rintro rfl <;> cases blank
    case comment =>
      have text := ended l (by simp) token
      rw [token] at text
      obtain ⟨body, same⟩ := text
      rw [same, show '/' :: '*' :: (body ++ ['*', '/']) = ('/' :: '*' :: (body ++ ['*'])) ++ ['/'] by
        simp, List.getLast?_concat] at member
      cases member
      decide

theorem Scans.clear {l : Lexeme} {ms : List Lexeme} {c : Char} {u : List Char} (whole : ls = l :: ms)
    (scans : Scans ls more) (text : l.text = c :: u) (other : l.token ≠ .comment) :
    Clear (c :: (u ++ ms.flatMap Lexeme.text)) (ms.flatMap Lexeme.text) more := by
  have ends := scans.getLast?_text ended final
  subst whole
  rw [List.flatMap_cons, text, List.cons_append] at ends
  refine ⟨?_, fun last => absurd rfl (ends '-' last).2⟩
  rcases eq_or_ne ms [] with rfl | some
  · left
    rw [List.flatMap_nil, List.append_nil, ← text]
    cases trivia : l.token.isTrivia with
    | false => exact (final l (by simp [Lexeme.visible, trivia])).unescaped
    | true =>
      intro slash
      cases token : l.token <;> simp only [token, Token.isTrivia, reduceCtorEq] at trivia
      case whitespace => cases scans.isBlank_text token '\\' slash
      case comment => exact other token
  · refine .inr ⟨?_, fun last => absurd rfl (ends '\\' last).1⟩
    obtain ⟨m, ms, rfl⟩ := List.exists_cons_of_ne_nil some
    simp [scans.text_ne_nil m (by simp)]

theorem Scans.recut (scans : Scans ls more) (parts : ∀ l ∈ ls, l.token.isPart) (stops : Stops rest)
    (blank : ∀ l ∈ ls.getLast?, l.token = .whitespace → ∀ x ∈ rest.head?, Text.isBlank x = false) :
    Scans ls rest := by
  induction scans with
  | nil => exact .nil _
  | @cons l c u ls more text scanned later ih =>
    have finalLater : ∀ l' ∈ (Lexeme.visible ls).getLast?, l'.IsFinal := by
      intro l' member
      apply final
      rw [← List.singleton_append, Lexeme.visible_append,
        List.getLast?_append_of_ne_nil _ (by rintro none; simp [none] at member)]
      exact member
    have blankLater : ∀ l' ∈ ls.getLast?, l'.token = .whitespace →
        ∀ x ∈ rest.head?, Text.isBlank x = false := by
      intro l' member
      apply blank
      rw [List.getLast?_cons, Option.mem_def.1 member]
      rfl
    refine .cons text ?_ (ih (fun l' member => ended l' (by simp [member])) finalLater
      (fun l' member => parts l' (by simp [member])) blankLater)
    by_cases comment : l.token = .comment
    · rw [List.append_assoc] at scanned
      have starts := isRead_of_scan scanned
      simp only [IsRead, comment, Token.kind] at starts
      rw [← List.append_assoc] at starts scanned
      exact mark_cut (text ▸ ended l (by simp) comment) starts scanned
    have part := parts l (by simp)
    have clear := Scans.clear ended final rfl (.cons text scanned later) text comment
    refine scan_cut clear stops ?_ ?_ ?_ ?_ scanned
    · revert part
      cases token : l.token <;> simp [Token.isPart, Token.IsEnded]
      exact absurd token comment
    · intro quoted
      cases token : l.token <;> simp [token, Token.isQuoted, Token.isPart] at quoted part
    · intro white none
      have alone : ls = [] := by
        obtain _ | ⟨m, ls⟩ := ls
        · rfl
        · simp [later.text_ne_nil m (by simp)] at none
      subst alone
      exact blank l (by simp) white
    · intro name call url
      simp [call, Token.isPart, url] at part

end Recut

end Lexer

namespace Meaning

open Node (Frame build finish Grown Placed lexemesOf textOf)
open Lexer

variable (M : Meaning)

/-- In open parentheses, before what is allowed there, a text denotes what the nodes do. -/
def Reads (ok : List Frame → List Char → Prop) (cs : List Char) (ns : List Node) : Prop :=
  ∀ stack siblings rest, OnlyParens stack → ok stack rest →
    M.readings (build stack siblings (Lexer.plain (cs ++ rest))) =
      M.readings (build stack (ns.reverse ++ siblings) (Lexer.plain rest))

/-- The parentheses that close some of the open blocks at the end of a text. -/
def Closes (stack : List Frame) (rest : List Char) : Prop :=
  ∃ j ≤ stack.length, rest = List.replicate j ')'

def Follows (last : Bool) (stack : List Frame) (rest : List Char) : Prop :=
  if last then Closes stack rest else Stops rest

variable {M} {awaited : Option Token} {last : Bool} {ns : List Node} {stack : List Frame}
  {siblings : List Node} {ls : List Lexeme} {more rest : List Char}

theorem Closes.head (closes : Closes stack rest) : ∀ x ∈ rest.head?, x = ')' := by
  obtain ⟨j, _, rfl⟩ := closes
  intro x head
  exact List.eq_of_mem_replicate (List.mem_of_head? head)

theorem Follows.stops (follows : Follows last stack rest) : Stops rest := by
  unfold Follows at follows
  split at follows
  · intro x head
    simp [follows.head x head]
  · exact follows

theorem readings_build_lexemesOf {awaited : Option Token} {last : Bool} {ns siblings : List Node}
    {stack : List Frame} {ms : List Lexeme} (grown : Grown awaited last ns)
    (parts : ∀ l ∈ lexemesOf ns, l.token.isPart) (parens : OnlyParens stack)
    (top : ∀ f ∈ stack.head?, f.opening.token.closing? = awaited)
    (ends : last → ∃ rest, Closes stack rest ∧ ms = Lexer.plain rest) :
    M.readings (build stack siblings ((lexemesOf ns).map Lexeme.unplaced ++ ms)) =
      M.readings (build stack ((ns.map Node.unplaced).reverse ++ siblings) ms) := by
  obtain closed | ⟨final, front, l, body, t, rfl, closed, opens, inner⟩ := grown.cases_last
  · rw [closed.build_closed top]
  · obtain ⟨rest, ⟨j, few, rfl⟩, rfl⟩ := ends final
    have smaller : sizeOf body < sizeOf (front ++ [Node.block l body none]) :=
      Node.sizeOf_body_lt (List.mem_append_right front (List.mem_singleton_self _))
    simp only [Node.lexemesOf_append, lexemesOf, Node.lexemes, Option.toList_none, List.append_nil,
      List.mem_append, List.mem_cons, or_imp, forall_and, forall_eq] at parts
    obtain ⟨_, part, partsInner⟩ := parts
    obtain rfl : t = .closeParen := Token.closing?_of_isPart part opens
    have deeper : OnlyParens (⟨l.unplaced, (front.map Node.unplaced).reverse ++ siblings⟩ :: stack) :=
      List.forall_mem_cons.2 ⟨opens, parens⟩
    have room : j ≤ (Frame.mk l.unplaced ((front.map Node.unplaced).reverse ++ siblings) ::
        stack).length := by
      rw [List.length_cons]
      omega
    rw [Node.lexemesOf_append, List.map_append, List.append_assoc, closed.build_closed top]
    simp only [lexemesOf, Node.lexemes, Option.toList_none, List.append_nil, List.map_cons,
      List.cons_append]
    rw [Node.build_open (by simp [opens]), readings_build_lexemesOf inner partsInner deeper
      (by simpa using opens) (fun _ => ⟨_, ⟨j, room, rfl⟩, rfl⟩), readings_build_closers deeper room,
      readings_build_closers parens few, finish]
    simp [Node.unplaced, Node.unplacedAll_eq_map]
termination_by sizeOf ns

theorem plain_open {l : Lexeme} (scans : Scans [l] []) (comment : l.token = .comment)
    (open' : ¬ l.token.IsEnded l.text) (closes : Closes stack rest) :
    ∃ l' : Lexeme, l'.token = .comment ∧ Lexer.plain (l.text ++ rest) = [l'] := by
  cases scans with
  | @cons _ c u _ _ text scanned _ =>
    rw [List.flatMap_nil, List.append_nil, List.append_nil, comment] at scanned
    obtain ⟨left, rfl, rfl, none⟩ := exists_of_scan_comment scanned
    have other : ∀ body, left ≠ body ++ ['*', '/'] := by
      rintro body rfl
      rw [comment, text] at open'
      exact open' ⟨body, rfl⟩
    have stays : ∀ j, commentEnd (List.replicate j ')') = [] := by
      intro j
      induction j with
      | zero => rfl
      | succ j ih => exact ih
    have slash : rest.head? ≠ some '/' := fun head => by cases closes.head '/' head
    have whole : commentEnd (left ++ rest) = [] := by
      obtain ⟨j, _, rfl⟩ := closes
      rw [commentEnd_open none other slash, stays]
    have split : l.text ++ rest = '/' :: '*' :: (left ++ rest) := by rw [text]; rfl
    rw [split, Lexer.plain_cons, scan_comment, whole, Lexer.plain_nil]
    exact ⟨_, rfl, rfl⟩

section Cut

variable (parts : ∀ l ∈ lexemesOf ns, l.token.isPart)
  (final : ∀ l ∈ (Lexeme.visible (lexemesOf ns)).getLast?, l.IsFinal)

include parts final

theorem reads_of_ended (placed : Placed (some .closeParen) last ns more)
    (ended : ∀ l ∈ lexemesOf ns, l.token = .comment → l.token.IsEnded l.text)
    (solid : last = false → ∀ l ∈ (lexemesOf ns).getLast?, l.token.isTrivia = false) :
    M.Reads (Follows last) (textOf ns) (ns.map Node.unplaced) := by
  intro stack siblings rest parens follows
  have closes : last → Closes stack rest := by
    rintro rfl
    exact follows
  have blank : ∀ l ∈ (lexemesOf ns).getLast?, l.token = .whitespace →
      ∀ x ∈ rest.head?, Text.isBlank x = false := by
    intro l member white x head
    cases ends : last with
    | true => rw [(closes ends).head x head]; rfl
    | false =>
      have visible := solid ends l member
      rw [white] at visible
      cases visible
  rw [← Node.flatMap_text_lexemesOf,
    (placed.scans.recut ended final parts follows.stops blank).plain]
  exact readings_build_lexemesOf placed.grown parts parens
    (fun f head => parens f (List.mem_of_head? head)) fun ends => ⟨_, closes ends, rfl⟩

/-- A comment that is open at the end says nothing, and neither do the parentheses in it or behind
it. -/
theorem reads_of_open (placed : Placed (some .closeParen) true ns []) {front : List Lexeme}
    {l : Lexeme} (whole : lexemesOf ns = front ++ [l]) (comment : l.token = .comment)
    (open' : ¬ l.token.IsEnded l.text)
    (ended : ∀ l ∈ front, l.token = .comment → l.token.IsEnded l.text) :
    M.Reads (Follows true) (textOf ns) (ns.map Node.unplaced) := by
  intro stack siblings rest parens closes
  have trivia : l.token.isTrivia := by rw [comment]; rfl
  have same : Lexeme.visible (lexemesOf ns) = Lexeme.visible front := by
    rw [whole, Lexeme.visible_append]
    simp [Lexeme.visible, trivia]
  have scans := placed.scans
  rw [whole] at scans
  obtain ⟨l', comment', swallowed⟩ := plain_open scans.append_right comment open' closes
  have slash : (l.text ++ rest).head? = some '/' := by
    have read := scans.append_right
    cases read with
    | @cons _ c u _ _ text scanned _ =>
      rw [comment] at scanned
      obtain ⟨left, rfl, _, _⟩ := exists_of_scan_comment scanned
      rw [text]
      rfl
  have cut : Scans front (l.text ++ rest) := scans.append_left.recut ended (same ▸ final)
    (fun l' member => parts l' (by simp [whole, member]))
    (by simp [Stops, slash]) (by simp [slash, show Text.isBlank '/' = false from rfl])
  have empty : M.readings (build stack siblings ((lexemesOf ns).map Lexeme.unplaced ++ [])) =
      M.readings (build stack ((ns.map Node.unplaced).reverse ++ siblings) []) :=
    readings_build_lexemesOf placed.grown parts parens
      (fun f head => parens f (List.mem_of_head? head))
      fun _ => ⟨[], ⟨0, Nat.zero_le _, rfl⟩, Lexer.plain_nil.symm⟩
  rw [List.append_nil, whole, List.map_append, List.map_singleton,
    readings_build_trivia (l := l.unplaced) trivia, Node.build_nil] at empty
  obtain ⟨j, few, rfl⟩ := closes
  rw [← Node.flatMap_text_lexemesOf, whole, List.flatMap_append, List.flatMap_singleton,
    List.append_assoc, cut.plain, swallowed, readings_build_trivia (by rw [comment']; rfl), empty,
    readings_build_closers parens few]

theorem reads_of_placed (placed : Placed (some .closeParen) last ns more)
    (solid : last = false → ∀ l ∈ (lexemesOf ns).getLast?, l.token.isTrivia = false) :
    M.Reads (Follows last) (textOf ns) (ns.map Node.unplaced) := by
  rcases placed.scans.ended_cases with ended | ⟨rfl, front, l, whole, comment, open', ended⟩
  · exact reads_of_ended parts final placed ended solid
  · cases last with
    | true => exact reads_of_open parts final placed whole comment open' ended
    | false =>
      have visible := solid rfl l (by simp [whole])
      rw [comment] at visible
      cases visible

end Cut

end Meaning

end CssOutline
