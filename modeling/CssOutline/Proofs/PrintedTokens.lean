import CssOutline.Proofs.QuotedStrings
import CssOutline.Proofs.Slices

/-! Tokens that are printed instead of cut out. A sign is printed as it stood in the text; what is
printed for a name, a string or an url is read as the token that it was printed for. -/

namespace CssOutline

/-- How a token is written. -/
inductive Token.Kind where
  | blank
  /-- Comments and what surrounds another language. -/
  | mark
  | numeric
  | bracket
  | sign
  | quoted
  | hash
  | atKeyword
  | named

def Token.kind : Token → Kind
  | whitespace => .blank
  | comment => .mark
  | cdo => .mark
  | cdc => .mark
  | number _ => .numeric
  | percentage _ => .numeric
  | dimension _ _ => .numeric
  | openParen => .bracket
  | openSquare => .bracket
  | openCurly => .bracket
  | closeParen => .bracket
  | closeSquare => .bracket
  | closeCurly => .bracket
  | delim _ => .sign
  | colon => .sign
  | semicolon => .sign
  | comma => .sign
  | includeMatch => .sign
  | dashMatch => .sign
  | startMatch => .sign
  | endMatch => .sign
  | substringMatch => .sign
  | string _ => .quoted
  | badString _ => .quoted
  | hash _ => .hash
  | idHash _ => .hash
  | atKeyword _ => .atKeyword
  | ident _ => .named
  | function _ => .named
  | url _ => .named
  | badUrl _ => .named

namespace Lexer

/-- What the text of a token is, by how the token is written. -/
def IsRead (c : Char) (cs : List Char) (t : Token) (after : List Char) : Prop :=
  match t.kind with
  | .blank => Text.isBlank c
  | .mark => StartsMark (c :: cs)
  | .numeric => startsNumber (c :: cs) ∧ numericToken (c :: cs) = (t, after)
  | .bracket => t.css.toList ++ after = c :: cs
  | .sign => t.css.toList ++ after = c :: cs
  | .quoted => (c = '"' ∨ c = '\'') ∧ stringToken c cs = (t, after)
  | .hash => c = '#'
  | .atKeyword =>
    c = '@' ∧ startsName cs ∧ (.atKeyword (String.ofList (name cs).1), (name cs).2) = (t, after)
  | .named => startsName (c :: cs) ∧ identLike (c :: cs) = (t, after)

section Scan

variable {c : Char} {cs after : List Char} {t : Token}

theorem kind_numericToken (cs : List Char) : (numericToken cs).1.kind = .numeric := by
  unfold numericToken
  simp only
  split
  · rfl
  · split <;> rfl

theorem kind_identLike (cs : List Char) : (identLike cs).1.kind = .named := by
  rcases identLike_cases cs with ⟨s, left, _, ⟨call, _⟩ | found⟩ | ident
  · rw [call]
    rfl
  · generalize identLike cs = result at found
    obtain ⟨t, after⟩ := result
    rcases urlToken?_token found with ⟨u, rfl⟩ | ⟨u, rfl⟩ <;> rfl
  · rw [ident]
    rfl

theorem kind_stringToken (quote : Char) (cs : List Char) :
    (stringToken quote cs).1.kind = .quoted := by
  unfold stringToken
  simp only
  split <;> rfl

theorem isRead_hashToken (scanned : hashToken cs = (t, after)) : IsRead '#' cs t after := by
  unfold hashToken at scanned
  split at scanned
  · cases scanned
    exact rfl
  · split at scanned
    · split at scanned <;> cases scanned <;> exact rfl
    · cases scanned
      exact rfl

theorem isRead_single {u : Token} (sign : u.kind = .sign ∨ u.kind = .bracket)
    (text : u.css.toList = [c]) (scanned : (u, cs) = (t, after)) : IsRead c cs t after := by
  cases scanned
  unfold IsRead
  rcases sign with kind | kind <;> simp only [kind] <;> rw [text] <;> rfl

theorem isRead_matchToken {u : Token} (sign : u.kind = .sign) (text : u.css.toList = [c, '='])
    (scanned : matchToken c u cs = (t, after)) : IsRead c cs t after := by
  unfold matchToken at scanned
  split at scanned
  · cases scanned
    unfold IsRead
    simp only [sign]
    rw [text]
    rfl
  · exact isRead_single (.inl rfl) (by simp [Token.css, Char.toString]) scanned

theorem isRead_signToken (known : c ∈ signs) (scanned : signToken c cs = (t, after)) :
    IsRead c cs t after := by
  have string : (c = '"' ∨ c = '\'') → stringToken c cs = (t, after) → IsRead c cs t after := by
    intro quote same
    have kind := kind_stringToken c cs
    rw [same] at kind
    unfold IsRead
    simp only [kind]
    exact ⟨quote, same⟩
  simp only [signs, List.mem_cons, List.not_mem_nil, or_false] at known
  rcases known with rfl | rfl | rfl | rfl | rfl | rfl | rfl | rfl | rfl | rfl | rfl | rfl | rfl |
    rfl | rfl | rfl | rfl | rfl
  · exact string (.inl rfl) scanned
  · exact string (.inr rfl) scanned
  · exact isRead_hashToken scanned
  · simp only [signToken] at scanned
    split_ifs at scanned with starts
    · cases scanned
      exact ⟨rfl, starts, rfl⟩
    · exact isRead_single (.inl rfl) rfl scanned
  · exact isRead_matchToken (u := .endMatch) rfl rfl scanned
  · exact isRead_matchToken (u := .substringMatch) rfl rfl scanned
  · exact isRead_matchToken (u := .startMatch) rfl rfl scanned
  · exact isRead_matchToken (u := .dashMatch) rfl rfl scanned
  · exact isRead_matchToken (u := .includeMatch) rfl rfl scanned
  · exact isRead_single (u := .openParen) (.inr rfl) rfl scanned
  · exact isRead_single (u := .closeParen) (.inr rfl) rfl scanned
  · exact isRead_single (u := .openSquare) (.inr rfl) rfl scanned
  · exact isRead_single (u := .closeSquare) (.inr rfl) rfl scanned
  · exact isRead_single (u := .openCurly) (.inr rfl) rfl scanned
  · exact isRead_single (u := .closeCurly) (.inr rfl) rfl scanned
  · exact isRead_single (u := .comma) (.inl rfl) rfl scanned
  · exact isRead_single (u := .colon) (.inl rfl) rfl scanned
  · exact isRead_single (u := .semicolon) (.inl rfl) rfl scanned

theorem isRead_of_scan (scanned : scan c cs = (t, after)) : IsRead c cs t after := by
  by_cases blank : Text.isBlank c
  · rw [scan_of_blank blank] at scanned
    cases scanned
    exact blank
  have solid : Text.isBlank c = false := by simpa using blank
  by_cases number : startsNumber (c :: cs)
  · rw [scan_of_number number] at scanned
    have kind := kind_numericToken (c :: cs)
    rw [scanned] at kind
    unfold IsRead
    simp only [kind]
    exact ⟨number, scanned⟩
  have none : startsNumber (c :: cs) = false := by simpa using number
  by_cases starts : StartsMark (c :: cs)
  · have kind : t.kind = .mark := by
      obtain ⟨mark, known, rest, same⟩ := starts
      simp only [marks, List.mem_cons, List.not_mem_nil, or_false] at known
      rcases known with rfl | rfl | rfl
      all_goals
        obtain ⟨rfl, rfl⟩ := List.cons.inj same
        rw [← (Prod.mk.inj scanned).1]
        rfl
    unfold IsRead
    simp only [kind]
    exact starts
  by_cases sign : c ∈ signs
  · rw [scan_of_sign solid none starts sign] at scanned
    exact isRead_signToken sign scanned
  rw [scan_of_other solid none starts sign, otherToken] at scanned
  split_ifs at scanned with named
  · have kind := kind_identLike (c :: cs)
    rw [scanned] at kind
    unfold IsRead
    simp only [kind]
    exact ⟨named, scanned⟩
  · exact isRead_single (.inl rfl) (by simp [Token.css, Char.toString]) scanned

end Scan

/-- What is taken from the front of a text holds characters of one kind only. -/
def Takes (p : Char → Prop) (cs after : List Char) : Prop :=
  ∃ front, front ++ after = cs ∧ ∀ c ∈ front, p c

section Takes

variable {p : Char → Prop}

theorem Takes.refl (cs : List Char) : Takes p cs cs :=
  ⟨[], rfl, by simp⟩

theorem Takes.trans {as bs cs : List Char} (first : Takes p as bs) (second : Takes p bs cs) :
    Takes p as cs := by
  obtain ⟨front, rfl, all⟩ := first
  obtain ⟨more, rfl, allMore⟩ := second
  refine ⟨front ++ more, by simp, fun c member => ?_⟩
  rcases List.mem_append.1 member with before | later
  · exact all c before
  · exact allMore c later

theorem Takes.subset {cs after : List Char} (takes : Takes p cs after) : after ⊆ cs := by
  obtain ⟨front, rfl, _⟩ := takes
  exact List.subset_append_right front after

theorem Takes.cons {c : Char} (first : p c) (cs : List Char) : Takes p (c :: cs) cs :=
  ⟨[c], rfl, by simpa using first⟩

theorem Takes.text {text after : List Char} (takes : Takes p (text ++ after) after) :
    ∀ x ∈ text, p x := by
  obtain ⟨front, same, all⟩ := takes
  rw [List.append_cancel_right_eq] at same
  exact same ▸ all

theorem takes_dropWhile {q : Char → Bool} (holds : ∀ c, q c → p c) (cs : List Char) :
    Takes p cs (cs.dropWhile q) :=
  ⟨cs.takeWhile q, List.takeWhile_append_dropWhile,
    fun c member => holds c (List.mem_takeWhile_imp member)⟩

def IsWordChar (c : Char) : Prop :=
  isNameChar c ∨ c = '+' ∨ c = '.' ∨ c = '%'

variable (words : ∀ c, IsWordChar c → p c)

include words

theorem of_isDigit (c : Char) (digit : c.isDigit) : p c :=
  words c (.inl (by simp [isNameChar, digit]))

theorem takes_name {cs : List Char} (plain : '\\' ∉ cs) : Takes p cs (name cs).2 := by
  induction cs with
  | nil => simpa [name] using Takes.refl []
  | cons c cs ih =>
    have slash : c ≠ '\\' := fun same => plain (by simp [same])
    rw [name.eq_def]
    simp only [slash, if_false]
    split_ifs with part
    · exact (Takes.cons (words c (.inl part)) cs).trans
        (ih fun member => plain (by simp [member]))
    · exact .refl _

theorem takes_takeSign (cs : List Char) : Takes p cs (Number.takeSign cs).2 := by
  unfold Number.takeSign
  split
  · exact .cons (words '-' (.inl rfl)) _
  · exact .cons (words '+' (by simp [IsWordChar])) _
  · exact .refl _

theorem takes_fraction? (cs : List Char) : Takes p cs (fraction? cs).2 := by
  unfold fraction?
  split
  · split
    · exact .refl _
    · exact (Takes.cons (words '.' (by simp [IsWordChar])) _).trans
        (takes_dropWhile (of_isDigit words) _)
  · exact .refl _

theorem takes_exponent? (cs : List Char) : Takes p cs (exponent? cs).2 := by
  obtain _ | ⟨c, cs⟩ := cs
  · exact .refl _
  rw [exponent?]
  split
  · rename_i mark
    have part : isNameChar c := by rcases mark with rfl | rfl <;> rfl
    split
    · exact .refl _
    · exact ((Takes.cons (words c (.inl part)) cs).trans (takes_takeSign words cs)).trans
        (takes_dropWhile (of_isDigit words) _)
  · exact .refl _

theorem takes_numericToken {cs after : List Char} {t : Token} (plain : '\\' ∉ cs)
    (scanned : numericToken cs = (t, after)) : Takes p cs after := by
  suffices taken : Takes p cs (numericToken cs).2 by rwa [scanned] at taken
  have number := (((takes_takeSign words cs).trans (takes_dropWhile (of_isDigit words) _)).trans
    (takes_fraction? words _)).trans (takes_exponent? words _)
  unfold numericToken
  simp only
  split
  · rename_i after same
    rw [same] at number
    exact number.trans (.cons (words '%' (by simp [IsWordChar])) after)
  · split
    · exact number.trans (takes_name words fun member => plain (number.subset member))
    · exact number

theorem takes_identLike (paren : p '(') {cs after : List Char} {t : Token} (plain : '\\' ∉ cs)
    (scanned : identLike cs = (t, after)) (url : ∀ u, t ≠ .url u) (badUrl : ∀ u, t ≠ .badUrl u) :
    Takes p cs after := by
  have named := takes_name words plain
  rcases identLike_cases cs with ⟨s, left, same, ⟨call, _⟩ | found⟩ | ident
  · rw [same] at named
    obtain ⟨_, rfl⟩ := Prod.mk.inj (scanned.symm.trans call)
    exact named.trans (.cons paren after)
  · rw [scanned] at found
    rcases urlToken?_token found with ⟨u, rfl⟩ | ⟨u, rfl⟩
    · exact absurd rfl (url u)
    · exact absurd rfl (badUrl u)
  · rwa [(Prod.mk.inj (scanned.symm.trans ident)).2]

end Takes

section Blanks

theorem isBlank_of_isWordChar (c : Char) (word : IsWordChar c) : Text.isBlank c = false := by
  refine isBlank_eq_false fun x blank => ?_
  rintro rfl
  simp only [Text.isBlank, Bool.or_eq_true, beq_iff_eq] at blank
  rcases blank with (((rfl | rfl) | rfl) | rfl) | rfl <;>
    exact absurd word (by simp [IsWordChar]; decide)

/-- A token that holds no blank does not end with one. -/
theorem Takes.getLast? {text after : List Char}
    (takes : Takes (Text.isBlank · = false) (text ++ after) after) :
    ∀ x ∈ text.getLast?, Text.isBlank x = false :=
  fun x member => takes.text x (List.mem_of_getLast? member)

theorem isBlank_of_concat {text body : List Char} {x : Char} (same : text = body ++ [x])
    (solid : Text.isBlank x = false) : ∀ y ∈ text.getLast?, Text.isBlank y = false := by
  subst same
  simpa using solid

theorem Slice.isBlank_getLast? {l : Lexeme} (slice : Slice [l]) (visible : l.token ≠ .whitespace) :
    ∀ x ∈ l.text.getLast?, Text.isBlank x = false := by
  obtain ⟨c, u, rest, text, scanned, unescaped, plain⟩ := slice.exists_scan
  have first : Text.isBlank c = false := by
    by_contra blank
    rw [scan_of_blank (by simpa using blank)] at scanned
    exact visible (Prod.mk.inj scanned).1.symm
  have read := isRead_of_scan scanned
  have whole := plain.whole
  have hashless := plain.hashless
  rw [text] at whole hashless ⊢
  rw [← List.cons_append] at unescaped
  have sign : l.token.css.toList ++ rest = c :: u ++ rest → c :: u = l.token.css.toList :=
    fun same => (List.append_cancel_right same).symm
  obtain ⟨t, _, start⟩ := l
  simp only at read whole visible sign
  cases t
  case whitespace => exact absurd rfl visible
  case comment =>
    obtain ⟨body, same⟩ := whole
    have ending : c :: u = '/' :: '*' :: (body ++ ['*']) ++ ['/'] := by simp [same]
    exact isBlank_of_concat ending rfl
  case string s =>
    obtain ⟨quote, body, same⟩ := whole
    have solid : Text.isBlank quote = false := (List.cons.inj same).1 ▸ first
    have ending : c :: u = quote :: body ++ [quote] := same
    exact isBlank_of_concat ending solid
  case url s =>
    obtain ⟨body, same⟩ := whole
    exact isBlank_of_concat same rfl
  case hash name => exact absurd (by simp [show c = '#' from read]) hashless
  case idHash name => exact absurd (by simp [show c = '#' from read]) hashless
  case number => exact (takes_numericToken isBlank_of_isWordChar unescaped read.2).getLast?
  case percentage => exact (takes_numericToken isBlank_of_isWordChar unescaped read.2).getLast?
  case dimension => exact (takes_numericToken isBlank_of_isWordChar unescaped read.2).getLast?
  case ident =>
    exact (takes_identLike isBlank_of_isWordChar rfl unescaped read.2 (by simp) (by simp)).getLast?
  case function =>
    exact (takes_identLike isBlank_of_isWordChar rfl unescaped read.2 (by simp) (by simp)).getLast?
  case atKeyword name =>
    obtain ⟨rfl, _, same⟩ := read
    have taken := (Takes.cons (p := (Text.isBlank · = false)) (c := '@') rfl (u ++ rest)).trans
      (takes_name isBlank_of_isWordChar fun member => unescaped (List.mem_cons_of_mem _ member))
    rw [(Prod.mk.inj same).2] at taken
    exact taken.getLast?
  case delim d =>
    have single : c :: u = [d] := by simpa [Token.css, Char.toString] using sign read
    have ending : c :: u = [] ++ [d] := single
    exact isBlank_of_concat ending ((List.cons.inj single).1 ▸ first)
  case badString => exact whole.elim
  case badUrl => exact whole.elim
  case cdo => exact whole.elim
  case cdc => exact whole.elim
  all_goals
    rw [sign read]
    rintro x ⟨⟩
    rfl

end Blanks

section Contents

theorem urlToken?_of_identLike {cs rest : List Char} {u : String}
    (scanned : identLike cs = (.url u, rest)) :
    ∃ after, after <:+ cs ∧ urlToken? after = some (.url u, rest) := by
  rcases identLike_cases cs with ⟨s, left, same, ⟨call, _⟩ | found⟩ | ident
  · cases scanned.symm.trans call
  · have shorter := name_suffix cs
    rw [same] at shorter
    exact ⟨left, (List.suffix_cons _ _).trans shorter, scanned ▸ found⟩
  · cases scanned.symm.trans ident

theorem isNewline_of_mem_string {quote : Char} {cs : List Char} (plain : '\\' ∉ cs) :
    ∀ x ∈ (string quote cs).1, Text.isNewline x = false := by
  induction cs with
  | nil => simp [string.eq_def]
  | cons c cs ih =>
    have slash : c ≠ '\\' := fun same => plain (by simp [same])
    rw [string.eq_def]
    simp only [slash, if_false]
    split_ifs with same line
    · simp
    · simp
    · intro x member
      rcases List.mem_cons.1 member with rfl | later
      · unfold known
        split
        · rfl
        · simpa using line
      · exact ih (fun member => plain (by simp [member])) x later

/-- A character of an url that is written as it is. -/
def IsUrlChar (c : Char) : Prop :=
  Text.isBlank c = false ∧ c ≠ ')' ∧ breaksUrl c = false ∧ c ≠ '\\' ∧ known c = c

theorem isUrlChar_of_mem_urlBody {cs u after : List Char} (plain : '\\' ∉ cs)
    (found : urlBody cs = (some u, after)) : ∀ x ∈ u, IsUrlChar x := by
  induction cs generalizing u with
  | nil =>
    rw [urlBody.eq_def] at found
    cases found
    simp
  | cons c cs ih =>
    have slash : c ≠ '\\' := fun same => plain (by simp [same])
    rw [urlBody.eq_def] at found
    simp only [slash, if_false] at found
    split_ifs at found with blank paren breaks
    · split at found <;> cases found <;> simp
    · cases found
      simp
    · cases found
    · obtain ⟨inner, left⟩ := Prod.mk.inj found
      obtain ⟨u, body, rfl⟩ := Option.map_eq_some_iff.1 inner
      intro x member
      rcases List.mem_cons.1 member with rfl | later
      · unfold known
        split
        · exact ⟨rfl, by decide, by decide, by decide, rfl⟩
        · rename_i nonzero
          exact ⟨by simpa using blank, paren, by simpa using breaks, slash, if_neg nonzero⟩
      · exact ih (fun member => plain (by simp [member])) (Prod.ext body left) x later

theorem urlBody_append {u : List Char} (chars : ∀ x ∈ u, IsUrlChar x) (rest : List Char) :
    urlBody (u ++ ')' :: rest) = (some u, rest) := by
  induction u with
  | nil =>
    rw [List.nil_append, urlBody.eq_def]
    simp [show Text.isBlank ')' = false from rfl]
  | cons c u ih =>
    obtain ⟨blank, paren, breaks, slash, same⟩ := chars c (by simp)
    rw [List.cons_append, urlBody.eq_def]
    simp [blank, paren, breaks, slash, same, ih fun x member => chars x (by simp [member])]

theorem scan_url (cs : List Char) :
    scan 'u' ('r' :: 'l' :: '(' :: cs) = (urlToken? cs).getD (.function "url", cs) := by
  have named : IsName "url" := ⟨by decide, by decide⟩
  have printed : (Printer.identifier "url").toList = ['u', 'r', 'l'] := by decide +kernel
  have stops : ∀ x ∈ ('(' :: cs).head?, endsName x := by simp; decide
  have whole := named.scan_identifier printed stops (by simp)
  rw [identLike_paren (named.name_identifier stops), if_pos (by decide +kernel)] at whole
  simpa using whole

end Contents

end Lexer

def Value.Means (v : Value) (gs : List Gist) : Prop :=
  ∃ text, v.render = .ok text ∧ Node.Visible text.toList ∧ Lexer.Means text.toList gs

namespace Value

open Lexer

theorem means_raw {text : List Char} {gs : List Gist} (visible : Node.Visible text)
    (means : Lexer.Means text gs) : (raw (String.ofList text)).Means gs :=
  ⟨_, rfl, by rwa [String.toList_ofList], by rwa [String.toList_ofList]⟩

theorem visible_identifier {s : String} (named : IsName s) (more : List Char) :
    Node.Visible ((Printer.identifier s).toList ++ more) := by
  obtain ⟨c, cs, chars⟩ := named.exists_identifier
  refine ⟨c, cs ++ more, by rw [chars]; rfl, ?_⟩
  have starts := named.startsName_identifier []
  rw [chars] at starts
  exact isBlank_of_startsName starts

theorem means_keyword {s : String} (named : IsName s) :
    (keyword s).Means (Node.gists [Node.word s]) := by
  refine ⟨_, rfl, ?_, ?_⟩
  · rw [← List.append_nil (Printer.identifier s).toList]
    exact visible_identifier named []
  · apply Node.Spells.means
    apply named.spells_identifier.mono
    intro rest ends
    refine ⟨ends.endsIdent, fun _ angle => ?_⟩
    rcases ends '>' angle with same | same | same | same <;> cases same

theorem means_string {q : Quoted} (plain : q.IsPlain) :
    (string q).Means [(.string q.content, [])] := by
  refine ⟨_, rfl, ?_, (plain.spells.mono fun _ _ => trivial).means⟩
  rw [Quoted.toList_render]
  refine ⟨_, _, rfl, ?_⟩
  rcases plain.quote with same | same <;> rw [same] <;> rfl

theorem means_url {u : String} (chars : ∀ x ∈ u.toList, IsUrlChar x) :
    (verbatimCall "url" u).Means [(.url u, [])] := by
  have printed : (Printer.identifier "url").toList = ['u', 'r', 'l'] := by decide +kernel
  have text : (Printer.identifier "url" ++ "(" ++ u ++ ")").toList =
      'u' :: ('r' :: 'l' :: '(' :: (u.toList ++ [')'])) := by
    simp [String.toList_append, printed]
  have read : ∀ rest, urlToken? (u.toList ++ ')' :: rest) = some (.url u, rest) := by
    intro rest
    obtain ⟨x, xs, same, blank, double, single⟩ : ∃ x xs, u.toList ++ ')' :: rest = x :: xs ∧
        Text.isBlank x = false ∧ x ≠ '"' ∧ x ≠ '\'' := by
      cases list : u.toList with
      | nil => exact ⟨')', rest, rfl, rfl, by decide, by decide⟩
      | cons x xs =>
        obtain ⟨blank, _, breaks, _⟩ := chars x (by simp [list])
        refine ⟨x, xs ++ ')' :: rest, rfl, blank, ?_, ?_⟩ <;> rintro rfl <;> cases breaks
    have front : (u.toList ++ ')' :: rest).dropWhile Text.isBlank = u.toList ++ ')' :: rest := by
      rw [same, List.dropWhile_cons_of_neg (by simp [blank])]
    rw [urlToken?_eq_url_iff, front]
    exact ⟨by simp [same, double, single], urlBody_append chars rest⟩
  have scanned : ∀ rest, scan 'u' ('r' :: 'l' :: '(' :: (u.toList ++ [')']) ++ rest) =
      (.url u, rest) := by
    intro rest
    have whole := scan_url (u.toList ++ ')' :: rest)
    rw [read] at whole
    simpa using whole
  refine ⟨_, rfl, ?_, ?_⟩
  · rw [text]
    exact ⟨'u', _, rfl, rfl⟩
  · intro rest _
    rw [text]
    exact gists_of_scan (l := ⟨.url u, _, .origin⟩) rfl (scanned rest)

end Value

end CssOutline
