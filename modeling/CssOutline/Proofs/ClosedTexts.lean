import CssOutline.Proofs.PrintedTokens
import CssOutline.Proofs.ReadBack

/-! Texts in which everything that is opened is closed. Before a semicolon or a closing brace such a
text is read as it is read by itself, and without the blanks and semicolons at its end it is closed
again. -/

namespace CssOutline

/-- Whether every token that opens something is closed, and no brace closes anything else. The
tokens `awaited` close what is open, the innermost first. -/
def Token.shut (awaited : List Token) : List Token → Bool
  | [] => awaited.isEmpty
  | t :: ts =>
    match t.closing? with
    | some c => shut (c :: awaited) ts
    | none =>
      if t.isFlat then shut awaited ts
      else if awaited.head? = some t then shut awaited.tail ts
      else (t != .closeCurly || !awaited.isEmpty) && shut awaited ts

/-- A text without escapes in which strings, comments, urls and brackets are closed. -/
structure IsClosedText (cs : List Char) : Prop where
  plain : '\\' ∉ cs
  ended : ∀ l ∈ Lexer.lexemes cs, l.token.IsEnded l.text
  shut : Token.shut [] ((Lexer.lexemes cs).map Lexeme.token)

namespace Token

variable {awaited : List Token} {ts fs : List Token}

theorem shut_of_isFlat {t : Token} (flat : t.isFlat) : shut awaited (t :: ts) = shut awaited ts := by
  rw [shut, (closing?_of_isFlat flat).1]
  simp [flat]

theorem shut_flat_append (flat : ∀ t ∈ fs, t.isFlat) :
    shut awaited (fs ++ ts) = shut awaited ts := by
  induction fs with
  | nil => rfl
  | cons t fs ih =>
    rw [List.cons_append, shut_of_isFlat (flat t (by simp)),
      ih fun u member => flat u (by simp [member])]

theorem shut_append_flat (flat : ∀ t ∈ fs, t.isFlat) :
    shut awaited (ts ++ fs) = shut awaited ts := by
  induction ts generalizing awaited with
  | nil =>
    have alone : shut awaited (fs ++ []) = shut awaited [] := shut_flat_append flat
    rwa [List.append_nil] at alone
  | cons t ts ih =>
    rw [List.cons_append, shut, shut]
    simp only [ih]

theorem shut_of_leaf {t : Token} (none : t.closing? = none) (other : awaited.head? ≠ some t)
    (closed : shut awaited (t :: ts)) : shut awaited ts := by
  rw [shut, none] at closed
  simp only [other, ↓reduceIte] at closed
  split_ifs at closed
  · exact closed
  · exact (Bool.and_eq_true_iff.1 closed).2

end Token

namespace Node

theorem build_shut (base : List Node) {stack : List Frame} (only : OnlyBraces stack)
    (inner : List Frame) (siblings : List Node) (ls ms : List Lexeme)
    (shut : Token.shut (awaited inner) (ls.map Lexeme.token))
    (opens : ∀ f ∈ inner, f.opening.token.closing?.isSome) :
    build (under base inner ++ stack) (bottom base inner siblings) (ls ++ ms) =
      build stack ((build inner siblings ls).reverse ++ base) ms := by
  -- What is open in `inner` is open on top of `stack` here, with the nodes `base` under it.
  fun_induction build inner siblings ls with
  | case1 inner siblings =>
    obtain _ | ⟨f, inner⟩ := inner
    · simp [under, bottom, finish]
    · obtain ⟨c, closes⟩ := Option.isSome_iff_exists.1 (opens f (by simp))
      simp [Token.shut, awaited_cons closes] at shut
  | case2 inner siblings l ls opening ih =>
    obtain ⟨c, closes⟩ := Option.isSome_iff_exists.1 opening
    rw [List.cons_append, build_open opening, ← ih]
    · rfl
    · simpa [Token.shut, closes, awaited_cons (f := ⟨l, siblings⟩) closes] using shut
    · simpa [opening] using opens
  | case3 siblings l ls plain f outer closes ih =>
    have none : l.token.closing? = none := by simpa using plain
    have bracket : l.token.isFlat = false := by
      by_contra flat
      exact (Token.closing?_of_isFlat (by simpa using flat)).2 _ closes
    rw [List.cons_append, under, List.cons_append,
      build_close (f := ⟨f.opening, bottom base outer f.outer⟩) none closes, ← ih]
    · rw [cons_bottom]
      rfl
    · rw [List.map_cons, Token.shut, none, awaited_cons closes] at shut
      simpa [bracket] using shut
    · exact fun f' member => opens f' (by simp [member])
  | case4 siblings l ls plain f outer other ih =>
    have none : l.token.closing? = none := by simpa using plain
    obtain ⟨c, closes⟩ := Option.isSome_iff_exists.1 (opens f (by simp))
    rw [List.cons_append, under, List.cons_append, build_leaf none (by simpa using other),
      cons_bottom, ← ih, under]
    · rfl
    · have apart : (awaited (f :: outer)).head? ≠ some l.token := by
        rw [awaited_cons closes, List.head?_cons, ← closes]
        exact other
      exact Token.shut_of_leaf none apart shut
    · exact opens
  | case5 siblings l ls plain ih =>
    have none : l.token.closing? = none := by simpa using plain
    have brace : l.token ≠ .closeCurly := by
      intro brace
      rw [List.map_cons, Token.shut, none] at shut
      simp [brace, Token.isFlat, awaited] at shut
    have leaf : build (under base [] ++ stack) (bottom base [] siblings) (l :: ls ++ ms) =
        build (under base [] ++ stack) (Node.leaf l :: bottom base [] siblings) (ls ++ ms) :=
      build_leaf none (only.leaf brace)
    rw [leaf, cons_bottom, ← ih]
    · exact Token.shut_of_leaf none (by simp [awaited]) shut
    · simp

end Node

namespace Lexer

section Cut

variable {ls ms : List Lexeme} {x more rest : List Char}

theorem Scans.plain (scans : Scans ls rest) :
    plain (ls.flatMap Lexeme.text ++ rest) = ls.map Lexeme.unplaced ++ plain rest := by
  induction scans with
  | nil => rfl
  | @cons l c u ls rest text scanned later ih =>
    rw [List.append_assoc] at scanned
    rw [List.flatMap_cons, List.append_assoc, text, plain_append scanned, ih, ← text]
    rfl

theorem scans_lexemes (cs : List Char) : Scans (lexemes cs) [] :=
  scans_lexemesFrom .origin cs

theorem flatMap_text_lexemes (cs : List Char) : (lexemes cs).flatMap Lexeme.text = cs :=
  flatMap_text_lexemesFrom .origin cs

theorem Scans.append (front : Scans ls (ms.flatMap Lexeme.text ++ rest)) (behind : Scans ms rest) :
    Scans (ls ++ ms) rest := by
  induction ls with
  | nil => exact behind
  | cons l ls ih =>
    cases front with
    | cons text scanned later =>
      refine .cons text ?_ (ih later)
      simpa using scanned

theorem exists_quote_of_call {c : Char} {cs after : List Char} {name : String}
    (scanned : scan c cs = (.function name, after)) (url : Text.sameName name "url") :
    ∃ q ∈ after, q = '"' ∨ q = '\'' := by
  obtain ⟨_, read⟩ : startsName (c :: cs) ∧ identLike (c :: cs) = (.function name, after) :=
    isRead_of_scan scanned
  rcases identLike_cases (c :: cs) with ⟨s, left, _, ⟨call, none⟩ | found⟩ | ident
  · obtain ⟨same, rfl⟩ := Prod.mk.inj (read.symm.trans call)
    cases same
    obtain ⟨q, more, first, quote⟩ := urlToken?_eq_none_iff.1 (none url)
    exact ⟨q, (List.dropWhile_sublist _).subset (first ▸ List.mem_cons_self), quote⟩
  · rw [read] at found
    obtain ⟨u, same⟩ | ⟨u, same⟩ := urlToken?_token found <;> cases same
  · cases read.symm.trans ident

/-- Lexemes that are closed by themselves are scanned before a part of what follows them, if there
is no quote behind it. -/
theorem Scans.cut_before (scans : Scans ls (x ++ more))
    (plain : '\\' ∉ ls.flatMap Lexeme.text ++ x ++ more)
    (ended : ∀ l ∈ ls, l.token.IsEnded l.text) (quotes : ∀ q ∈ more, q ≠ '"' ∧ q ≠ '\'')
    (stops : Stops rest) (solid : x = [] → ∀ c ∈ rest.head?, Text.isBlank c = false) :
    Scans ls (x ++ rest) := by
  generalize whole : x ++ more = after at scans
  induction scans with
  | nil => exact .nil _
  | @cons l c u ls after text scanned later ih =>
    subst whole
    have plainLater : '\\' ∉ ls.flatMap Lexeme.text ++ x ++ more :=
      fun member => plain (by simpa using .inr (by simpa using member))
    refine .cons text ?_ (ih plainLater (fun l' member => ended l' (by simp [member])) rfl)
    have plainWhole : '\\' ∉ c :: (u ++ (ls.flatMap Lexeme.text ++ x)) := by
      intro member
      apply plain
      rw [List.flatMap_cons, text]
      simp only [List.cons_append, List.mem_cons, List.mem_append] at member ⊢
      tauto
    have own : '\\' ∉ c :: u := fun member => plainWhole (by
      rw [← List.cons_append]
      exact List.mem_append_left _ member)
    have scannedWhole : scan c (u ++ (ls.flatMap Lexeme.text ++ x) ++ more) =
        (l.token, ls.flatMap Lexeme.text ++ x ++ more) := by simpa using scanned
    suffices cut : scan c (u ++ (ls.flatMap Lexeme.text ++ x) ++ rest) =
        (l.token, ls.flatMap Lexeme.text ++ x ++ rest) by simpa using cut
    refine scan_cut ⟨.inl plainWhole, ?_⟩ stops (text ▸ ended l (by simp)) (fun _ => own) ?_ ?_
      scannedWhole
    · exact fun _ head => plain (by simp [List.mem_of_head? head])
    · intro _ none
      exact solid (List.append_eq_nil_iff.1 none).2
    · intro name call url
      rw [call] at scannedWhole
      obtain ⟨q, member, quote⟩ := exists_quote_of_call scannedWhole url
      have inside : q ∈ ls.flatMap Lexeme.text ++ x := by
        rcases List.mem_append.1 member with inside | behind
        · exact inside
        · obtain ⟨double, single⟩ := quotes q behind
          exact absurd quote (by simp [double, single])
      exact ⟨q, inside, by rcases quote with rfl | rfl <;> rfl⟩

end Cut

end Lexer

namespace Lexer

def isTame (c : Char) : Bool :=
  !(['"', '\'', '(', ')', '[', ']', '\x7b', '\x7d', '/', '\\'].contains c)

def isTrail (c : Char) : Bool :=
  Text.isWhiteSpace c || c == ';'

theorem ne_of_isTame {c d : Char} (tame : isTame c) (wild : isTame d = false) : c ≠ d := by
  rintro rfl
  simp [tame] at wild

theorem isTame_of_all {p : Char → Bool} {c : Char}
    (wild : ['"', '\'', '(', ')', '[', ']', '\x7b', '\x7d', '/', '\\'].all fun d => !p d)
    (holds : p c) : isTame c := by
  by_contra other
  simp only [isTame, Bool.not_eq_true', Bool.not_eq_false, List.contains_iff_mem] at other
  have none := List.all_eq_true.1 wild c other
  simp [holds] at none

theorem isTame_of_isWordChar (c : Char) (word : IsWordChar c) : isTame c :=
  isTame_of_all (p := fun d => isNameChar d || d == '+' || d == '.' || d == '%') rfl
    (by simpa [IsWordChar, or_assoc] using word)

theorem isTame_of_isTrail {c : Char} (trail : isTrail c) : isTame c :=
  isTame_of_all rfl trail

section Tame

variable {c : Char} {u cs after : List Char} {t : Token} {n : String}

theorem name_of_identLike (read : identLike cs = (t, after)) (other : ∀ n, t ≠ .ident n) :
    ∃ left, (name cs).2 = '(' :: left ∧ after <:+ left ∧ ((∃ n, t = .function n) → after = left) := by
  rcases identLike_cases cs with ⟨s, left, same, ⟨call, _⟩ | found⟩ | ident
  · obtain ⟨rfl, rfl⟩ := Prod.mk.inj (read.symm.trans call)
    exact ⟨after, by rw [same], List.suffix_rfl, fun _ => rfl⟩
  · rw [read] at found
    refine ⟨left, by rw [same], urlToken?_suffix found, ?_⟩
    rintro ⟨n, rfl⟩
    obtain ⟨u, same⟩ | ⟨u, same⟩ := urlToken?_token found <;> cases same
  · exact absurd (Prod.mk.inj (read.symm.trans ident)).1 (other _)

theorem exists_paren {text left : List Char} (same : (name (text ++ after)).2 = '(' :: left)
    (shorter : after <:+ left) : ∃ front inside, text = front ++ '(' :: inside ∧
      left = inside ++ after := by
  obtain ⟨front, whole⟩ := same ▸ name_suffix (text ++ after)
  obtain ⟨inside, rfl⟩ := shorter
  rw [← List.cons_append, ← List.append_assoc, List.append_cancel_right_eq] at whole
  exact ⟨front, inside, whole.symm, rfl⟩

theorem startsMark_cases (starts : StartsMark (c :: cs)) :
    (∃ left, c = '-' ∧ cs = '-' :: '>' :: left) ∨
      (∃ left, c = '<' ∧ cs = '!' :: '-' :: '-' :: left) ∨ ∃ left, c = '/' ∧ cs = '*' :: left := by
  obtain ⟨mark, known, left, same⟩ := starts
  simp only [marks, List.mem_cons, List.not_mem_nil, or_false] at known
  rcases known with rfl | rfl | rfl
  · exact .inl ⟨left, (List.cons.inj same).1.symm, (List.cons.inj same).2.symm⟩
  · exact .inr (.inl ⟨left, (List.cons.inj same).1.symm, (List.cons.inj same).2.symm⟩)
  · exact .inr (.inr ⟨left, (List.cons.inj same).1.symm, (List.cons.inj same).2.symm⟩)

theorem flat_of_scan (tame : ∀ x ∈ c :: u, isTame x) (scanned : scan c (u ++ after) = (t, after)) :
    t.isFlat ∧ t.IsEnded (c :: u) := by
  have first := tame c (by simp)
  have noParen : '(' ∉ c :: u := fun member => absurd (tame _ member) (by decide)
  have call : identLike (c :: u ++ after) = (t, after) → (∀ n, t ≠ .ident n) → '(' ∈ c :: u := by
    intro read other
    obtain ⟨left, same, shorter, _⟩ := name_of_identLike read other
    obtain ⟨front, inside, text, _⟩ := exists_paren same shorter
    simp [text]
  have read := isRead_of_scan scanned
  unfold IsRead at read
  cases t
  case comment =>
    rcases startsMark_cases read with ⟨left, rfl, same⟩ | ⟨left, rfl, same⟩ | ⟨left, rfl, same⟩
    · rw [same, scan_cdc] at scanned
      cases scanned
    · rw [same, scan_cdo] at scanned
      cases scanned
    · exact absurd first (by decide)
  case string => rcases read.1 with rfl | rfl <;> exact absurd first (by decide)
  case badString => rcases read.1 with rfl | rfl <;> exact absurd first (by decide)
  case function => exact absurd (call read.2 (by simp)) noParen
  case url => exact absurd (call read.2 (by simp)) noParen
  case badUrl => exact absurd (call read.2 (by simp)) noParen
  case openParen => exact absurd first (by rw [← (List.cons.inj read).1]; decide)
  case openSquare => exact absurd first (by rw [← (List.cons.inj read).1]; decide)
  case openCurly => exact absurd first (by rw [← (List.cons.inj read).1]; decide)
  case closeParen => exact absurd first (by rw [← (List.cons.inj read).1]; decide)
  case closeSquare => exact absurd first (by rw [← (List.cons.inj read).1]; decide)
  case closeCurly => exact absurd first (by rw [← (List.cons.inj read).1]; decide)
  all_goals exact ⟨rfl, trivial⟩

theorem blank_of_scan (blank : Text.isBlank c) (scanned : scan c (u ++ after) = (t, after)) :
    ∀ x ∈ c :: u, Text.isBlank x := by
  rw [scan_of_blank blank] at scanned
  have whole := List.takeWhile_append_dropWhile (p := Text.isBlank) (l := u ++ after)
  rw [(Prod.mk.inj scanned).2, List.append_cancel_right_eq] at whole
  intro x member
  rcases List.mem_cons.1 member with rfl | inside
  · exact blank
  · exact List.mem_takeWhile_imp (whole ▸ inside)

theorem tame_of_mark (starts : StartsMark (c :: (u ++ after))) (other : t ≠ .comment)
    (scanned : scan c (u ++ after) = (t, after)) : ∀ x ∈ c :: u, isTame x := by
  rcases startsMark_cases starts with ⟨left, rfl, same⟩ | ⟨left, rfl, same⟩ | ⟨left, rfl, same⟩
  · rw [same, scan_cdc] at scanned
    obtain ⟨_, rfl⟩ := Prod.mk.inj scanned
    obtain rfl : u = ['-', '>'] := List.append_cancel_right same
    exact List.all_eq_true.1 rfl
  · rw [same, scan_cdo] at scanned
    obtain ⟨_, rfl⟩ := Prod.mk.inj scanned
    obtain rfl : u = ['!', '-', '-'] := List.append_cancel_right same
    exact List.all_eq_true.1 rfl
  · rw [same, scan_comment] at scanned
    exact absurd (Prod.mk.inj scanned).1.symm other

theorem takes_ident {p : Char → Prop} (words : ∀ c, IsWordChar c → p c) (plain : '\\' ∉ cs)
    (read : identLike cs = (.ident n, after)) : Takes p cs after := by
  rcases identLike_cases cs with ⟨s, left, _, ⟨call, _⟩ | found⟩ | ident
  · cases read.symm.trans call
  · rw [read] at found
    obtain ⟨u, same⟩ | ⟨u, same⟩ := urlToken?_token found <;> cases same
  · rw [(Prod.mk.inj (read.symm.trans ident)).2]
    exact takes_name words plain

theorem takes_hashToken {p : Char → Prop} (words : ∀ c, IsWordChar c → p c) (plain : '\\' ∉ cs)
    (scanned : hashToken cs = (t, after)) : Takes p cs after := by
  suffices taken : Takes p cs (hashToken cs).2 by rwa [scanned] at taken
  unfold hashToken
  split
  · exact takes_name words plain
  · split
    · split
      · exact takes_name words plain
      · exact .refl _
    · exact .refl _

theorem exists_paren_of_function (text : List Char)
    (read : identLike (text ++ after) = (.function n, after)) : ∃ body, text = body ++ ['('] := by
  obtain ⟨left, same, shorter, stop⟩ := name_of_identLike read (by simp)
  obtain ⟨body, inside, whole, rest⟩ := exists_paren same shorter
  obtain rfl : inside = [] := List.append_left_eq_self.1 ((stop ⟨n, rfl⟩).trans rest).symm
  exact ⟨body, whole⟩

theorem tame_of_takes (first : isTame c) (taken : Takes (fun x => isTame x) (u ++ after) after) :
    ∀ x ∈ c :: u, isTame x :=
  ((Takes.cons (p := fun x => isTame x) first (u ++ after)).trans taken).text

/-- A token that goes on into blanks and semicolons, from a character that is no blank, is made up
of tame characters. -/
theorem tame_of_scan (plain : '\\' ∉ c :: u ++ after) (scanned : scan c (u ++ after) = (t, after))
    (ended : t.IsEnded (c :: u)) {front trail : List Char} (text : c :: u = front ++ trail)
    (some : front ≠ []) (longer : trail ≠ []) (trails : ∀ x ∈ trail, isTrail x)
    (last : ∀ x ∈ front.getLast?, Text.isWhiteSpace x = false) : ∀ x ∈ c :: u, isTame x := by
  have ending : ∀ body x, c :: u = body ++ [x] → isTrail x := by
    intro body x same
    obtain ⟨trail', y, rfl⟩ := (List.eq_nil_or_concat trail).resolve_left longer
    rw [text, List.concat_eq_append, ← List.append_assoc] at same
    obtain ⟨_, rfl⟩ := List.append_singleton_inj.1 same
    exact trails y (by simp)
  have wild : ∀ {x : Char}, isTrail x = false → ∀ body, c :: u ≠ body ++ [x] :=
    fun none body same => by simp [ending body _ same] at none
  have long : ∀ x, c :: u ≠ [x] := by
    intro x single
    have length := congrArg List.length (text.symm.trans single)
    have first := List.length_pos_iff.2 some
    have second := List.length_pos_iff.2 longer
    simp only [List.length_append, List.length_singleton] at length
    omega
  have sign : t.css.toList ++ after = c :: (u ++ after) → c :: u = t.css.toList :=
    fun same => (List.append_cancel_right (same.trans List.cons_append.symm)).symm
  have words := isTame_of_isWordChar
  have plainLater : '\\' ∉ u ++ after := fun member => plain (List.mem_cons_of_mem _ member)
  have hash : c = '#' → ∀ x ∈ c :: u, isTame x := by
    rintro rfl
    exact tame_of_takes rfl (takes_hashToken words plainLater scanned)
  have read := isRead_of_scan scanned
  unfold IsRead at read
  cases t
  case whitespace =>
    obtain ⟨front', y, rfl⟩ := (List.eq_nil_or_concat front).resolve_left some
    have blank := blank_of_scan read scanned y (by simp [text])
    simp [Text.isWhiteSpace_of_isBlank blank] at last
  case comment =>
    obtain ⟨body, same⟩ := ended
    exact absurd (by simpa using same) (wild (x := '/') rfl ('/' :: '*' :: (body ++ ['*'])))
  case cdo => exact tame_of_mark read (by simp) scanned
  case cdc => exact tame_of_mark read (by simp) scanned
  case number => exact (takes_numericToken words plain read.2).text
  case percentage => exact (takes_numericToken words plain read.2).text
  case dimension => exact (takes_numericToken words plain read.2).text
  case string =>
    obtain ⟨quote, body, same⟩ := ended
    have quoted : isTrail quote = false := by
      rw [← (List.cons.inj same).1]
      rcases read.1 with rfl | rfl <;> rfl
    exact absurd same (wild quoted (quote :: body))
  case badString => exact ended.elim
  case url => exact absurd ended.choose_spec (wild (x := ')') rfl _)
  case badUrl => exact absurd ended.choose_spec (wild (x := ')') rfl _)
  case function =>
    obtain ⟨body, same⟩ := exists_paren_of_function (c :: u) read.2
    exact absurd same (wild (x := '(') rfl body)
  case ident => exact (takes_ident words plain read.2).text
  case atKeyword =>
    obtain ⟨rfl, _, same⟩ := read
    have taken := takes_name words plainLater
    rw [(Prod.mk.inj same).2] at taken
    exact tame_of_takes rfl taken
  case hash => exact hash read
  case idHash => exact hash read
  case delim d => exact absurd (sign read) (by simpa [Token.css, Char.toString] using long d)
  all_goals
    rw [sign read]
    first
    | exact List.all_eq_true.1 rfl
    | exact absurd (sign read) (long _)

end Tame

end Lexer

section Closed

open Lexer

variable {cs : List Char}

theorem IsClosedText.of_scans {ls : List Lexeme} (plain : '\\' ∉ cs) (scans : Scans ls [])
    (text : ls.flatMap Lexeme.text = cs) (ended : ∀ l ∈ ls, l.token.IsEnded l.text)
    (shut : Token.shut [] (ls.map Lexeme.token)) : IsClosedText cs := by
  have whole : (lexemes cs).map Lexeme.unplaced = ls.map Lexeme.unplaced := by
    have same := scans.plain
    rwa [List.append_nil, text, plain_nil, List.append_nil] at same
  refine ⟨plain, fun l member => ?_, ?_⟩
  · have there : l.unplaced ∈ ls.map Lexeme.unplaced := whole ▸ List.mem_map_of_mem member
    obtain ⟨m, inside, same⟩ := List.mem_map.1 there
    have token : m.unplaced.token = l.unplaced.token := congrArg Lexeme.token same
    have chars : m.unplaced.text = l.unplaced.text := congrArg Lexeme.text same
    exact token ▸ chars ▸ ended m inside
  · have tokens : (lexemes cs).map Lexeme.token = ls.map Lexeme.token := by
      have mapped := congrArg (List.map Lexeme.token) whole
      rwa [List.map_map, List.map_map] at mapped
    rwa [tokens]

theorem Lexer.Scans.flat {ls : List Lexeme} {rest : List Char} (scans : Scans ls rest)
    (tame : ∀ c ∈ ls.flatMap Lexeme.text, isTame c) :
    ∀ l ∈ ls, l.token.isFlat ∧ l.token.IsEnded l.text := by
  induction scans with
  | nil => simp
  | @cons l c u ls rest text scanned later ih =>
    intro l' member
    rcases List.mem_cons.1 member with rfl | behind
    · rw [List.append_assoc] at scanned
      rw [List.flatMap_cons, text] at tame
      rw [text]
      exact flat_of_scan (fun x inside => tame x (List.mem_append_left _ inside)) scanned
    · rw [List.flatMap_cons] at tame
      exact ih (fun x inside => tame x (List.mem_append_right _ inside)) l' behind

theorem Lexer.exists_split {ls : List Lexeme} {v tail : List Char}
    (text : ls.flatMap Lexeme.text = v ++ tail) :
    ∃ front behind x, ls = front ++ behind ∧ v = front.flatMap Lexeme.text ++ x ∧
      (x = [] ∨ ∃ l later y, behind = l :: later ∧ l.text = x ++ y ∧ y ≠ []) := by
  induction ls generalizing v with
  | nil =>
    obtain ⟨rfl, rfl⟩ := List.append_eq_nil_iff.1 text.symm
    exact ⟨[], [], [], rfl, rfl, .inl rfl⟩
  | cons l ls ih =>
    rw [List.flatMap_cons] at text
    rcases List.append_eq_append_iff.1 text with ⟨a, rfl, rest⟩ | ⟨y, own, rest⟩
    · obtain ⟨front, behind, x, rfl, rfl, cut⟩ := ih rest
      exact ⟨l :: front, behind, x, rfl, by simp, cut⟩
    · rcases eq_or_ne y [] with rfl | some
      · exact ⟨[l], ls, [], rfl, by simpa using own.symm, .inl rfl⟩
      · exact ⟨[], l :: ls, v, rfl, rfl, .inr ⟨l, ls, y, rfl, own, some⟩⟩

theorem IsClosedText.exists_split {v tail : List Char} (closed : IsClosedText (v ++ tail)) :
    ∃ front behind x, Scans (front ++ behind) [] ∧ v = front.flatMap Lexeme.text ++ x ∧
      behind.flatMap Lexeme.text = x ++ tail ∧
      (x = [] ∨ ∃ l later y, behind = l :: later ∧ l.text = x ++ y ∧ y ≠ []) ∧
      (∀ l ∈ front ++ behind, l.token.IsEnded l.text) ∧
      Token.shut [] ((front ++ behind).map Lexeme.token) := by
  have text := flatMap_text_lexemes (v ++ tail)
  obtain ⟨front, behind, x, split, rfl, cut⟩ := Lexer.exists_split text
  refine ⟨front, behind, x, split ▸ scans_lexemes _, rfl, ?_, cut, split ▸ closed.ended,
    split ▸ closed.shut⟩
  rw [split, List.flatMap_append, List.append_assoc, List.append_cancel_left_eq] at text
  exact text

/-- The lexemes from a place on after which a text has blanks and semicolons only. The one over that
place is a name that goes on in white space. -/
theorem Lexer.tame_of_cut {behind : List Lexeme} {x tail : List Char} (scans : Scans behind [])
    (text : behind.flatMap Lexeme.text = x ++ tail) (plain : '\\' ∉ x ++ tail)
    (ended : ∀ l ∈ behind, l.token.IsEnded l.text)
    (cut : x = [] ∨ ∃ l later y, behind = l :: later ∧ l.text = x ++ y ∧ y ≠ [])
    (last : ∀ z ∈ x.getLast?, Text.isWhiteSpace z = false) (trails : ∀ z ∈ tail, isTrail z) :
    ∀ z ∈ behind.flatMap Lexeme.text, isTame z := by
  rcases eq_or_ne x [] with rfl | some
  · rw [text]
    exact fun z member => isTame_of_isTrail (trails z member)
  obtain ⟨l, later, y, rfl, own, longer⟩ := cut.resolve_left some
  rw [List.flatMap_cons, own, List.append_assoc, List.append_cancel_left_eq] at text
  subst text
  cases scans with
  | @cons _ c u _ _ chars scanned _ =>
    rw [List.append_nil, List.append_nil] at scanned
    have inside : c :: u = x ++ y := chars.symm.trans own
    have ends : l.token.IsEnded (c :: u) := chars ▸ ended l (by simp)
    have plainOwn : '\\' ∉ c :: u ++ later.flatMap Lexeme.text := by
      rwa [inside, List.append_assoc]
    have trailsOwn : ∀ z ∈ y, isTrail z := fun z member => trails z (by simp [member])
    have tameOwn := tame_of_scan plainOwn scanned ends inside some longer trailsOwn last
    intro z member
    rw [List.flatMap_cons, List.mem_append, chars] at member
    rcases member with here | there
    · exact tameOwn z here
    · exact isTame_of_isTrail (trails z (List.mem_append_right _ there))

theorem IsClosedText.dropTrail {v tail : List Char} (closed : IsClosedText (v ++ tail))
    (last : ∀ x ∈ v.getLast?, Text.isWhiteSpace x = false) (trails : ∀ x ∈ tail, isTrail x) :
    IsClosedText v := by
  obtain ⟨front, behind, x, scans, rfl, text, cut, ended, shut⟩ := closed.exists_split
  have plain := closed.plain
  have lastOwn : ∀ z ∈ x.getLast?, Text.isWhiteSpace z = false := by
    intro z member
    refine last z ?_
    rw [List.getLast?_append, Option.mem_def.1 member]
    rfl
  have plainBehind : '\\' ∉ x ++ tail := by
    rw [List.append_assoc] at plain
    exact fun member => plain (List.mem_append_right _ member)
  have tame := Lexer.tame_of_cut scans.append_right text plainBehind
    (fun l member => ended l (by simp [member])) cut lastOwn trails
  have scansFront : Scans front (x ++ []) := by
    have first := scans.append_left
    rw [List.append_nil, text] at first
    refine first.cut_before plain (fun l member => ended l (by simp [member])) ?_
      (by simp [Stops]) (by simp)
    intro q member
    have solid := isTame_of_isTrail (trails q member)
    exact ⟨ne_of_isTame solid rfl, ne_of_isTame solid rfl⟩
  have flat := (scans_lexemes x).flat (by
    rw [flatMap_text_lexemes]
    exact fun c member => tame c (by simp [text, member]))
  have flatBehind := scans.append_right.flat tame
  have scansAll : Scans (front ++ lexemes x) [] := by
    apply Scans.append _ (scans_lexemes x)
    rwa [flatMap_text_lexemes]
  refine .of_scans (fun member => plain (List.mem_append_left _ member)) scansAll
    (by simp [flatMap_text_lexemes]) ?_ ?_
  · intro l member
    rcases List.mem_append.1 member with inside | inside
    · exact ended l (by simp [inside])
    · exact (flat l inside).2
  · have flatMarks : ∀ t ∈ behind.map Lexeme.token, t.isFlat := by
      simpa using fun l member => (flatBehind l member).1
    have flatHere : ∀ t ∈ (lexemes x).map Lexeme.token, t.isFlat := by
      simpa using fun l member => (flat l member).1
    rw [List.map_append, Token.shut_append_flat flatMarks] at shut
    rwa [List.map_append, Token.shut_append_flat flatHere]

theorem isBlank_of_ascii {c : Char} (white : Text.isWhiteSpace c) (ascii : c.toNat < 0x80) :
    Text.isBlank c ∨ c = '\x0b' := by
  have code : c.toNat = 9 ∨ c.toNat = 10 ∨ c.toNat = 11 ∨ c.toNat = 12 ∨ c.toNat = 13 ∨
      c.toNat = 32 := by
    simp only [Text.isWhiteSpace, Bool.or_eq_true, Bool.and_eq_true, decide_eq_true_eq,
      beq_iff_eq] at white
    omega
  rw [← Char.ofNat_toNat c]
  rcases code with code | code | code | code | code | code <;> rw [code] <;> decide

theorem IsClosedText.dropLead {lead w : List Char} (closed : IsClosedText (lead ++ w))
    (white : ∀ x ∈ lead, Text.isWhiteSpace x ∧ x.toNat < 0x80)
    (first : ∀ x ∈ w.head?, Text.isWhiteSpace x = false) : IsClosedText w := by
  obtain ⟨front, behind, x, scans, rfl, text, cut, ended, shut⟩ := closed.exists_split
  obtain rfl : x = [] := by
    by_contra some
    obtain ⟨l, later, y, rfl, own, longer⟩ := cut.resolve_left some
    rw [List.flatMap_cons, own, List.append_assoc, List.append_cancel_left_eq] at text
    obtain ⟨c, x, rfl⟩ := List.exists_cons_of_ne_nil some
    obtain ⟨d, y, rfl⟩ := List.exists_cons_of_ne_nil longer
    have scansOwn := scans.append_right
    cases scansOwn with
    | @cons _ _ u _ _ chars scanned _ =>
      rw [List.append_nil, List.append_nil] at scanned
      obtain ⟨rfl, rfl⟩ := List.cons.inj (own.symm.trans chars)
      obtain ⟨space, ascii⟩ := white c (by simp)
      rcases isBlank_of_ascii space ascii with blank | rfl
      · have solid := first d (by simp [← text])
        have white := blank_of_scan blank scanned d (by simp)
        simp [Text.isWhiteSpace_of_isBlank white] at solid
      · have single : (x ++ d :: y) ++ later.flatMap Lexeme.text = later.flatMap Lexeme.text :=
          (Prod.mk.inj scanned).2
        simpa using List.append_left_eq_self.1 single
  rw [List.append_nil] at closed white
  have flat := scans.append_left.flat fun c member =>
    isTame_of_isTrail (by simp [isTrail, (white c member).1])
  refine .of_scans (fun member => closed.plain (List.mem_append_right _ member))
    scans.append_right text (fun l member => ended l (List.mem_append_right _ member)) ?_
  rwa [List.map_append, Token.shut_flat_append (by simpa using fun l member => (flat l member).1)]
    at shut

theorem IsClosedText.build (closed : IsClosedText cs) {c : Char} (ends : c = ';' ∨ c = '\x7d')
    {stack : List Node.Frame} (only : Node.OnlyBraces stack) (siblings : List Node)
    (rest : List Char) :
    Node.build stack siblings (Lexer.plain (cs ++ c :: rest)) =
      Node.build stack ((Node.plain cs).reverse ++ siblings) (Lexer.plain (c :: rest)) := by
  have text := flatMap_text_lexemes cs
  have stops : Stops (c :: rest) := by
    rintro x ⟨⟩
    rcases ends with rfl | rfl <;> simp
  have solid : ∀ x ∈ (c :: rest).head?, Text.isBlank x = false := by
    rintro x ⟨⟩
    rcases ends with rfl | rfl <;> rfl
  have whole : Scans (lexemes cs) ([] ++ []) := scans_lexemes cs
  have scans : Scans (lexemes cs) (c :: rest) :=
    whole.cut_before (by rw [text]; simpa using closed.plain) closed.ended (by simp) stops
      fun _ => solid
  have split := scans.plain
  rw [text] at split
  have tokens : (Lexer.plain cs).map Lexeme.token = (lexemes cs).map Lexeme.token := by
    rw [Lexer.plain, List.map_map]
    rfl
  rw [split]
  exact Node.build_shut siblings only [] [] _ _ (tokens ▸ closed.shut) (by simp)

end Closed

end CssOutline