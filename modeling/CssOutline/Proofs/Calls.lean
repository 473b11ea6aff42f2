import CssOutline.Proofs.Trimming

/-! Calls mean what they are read from. -/

namespace CssOutline

open Lexer

namespace Lexer

theorem urlToken?_quote {q : Char} (quote : q = '"' ∨ q = '\'') (cs : List Char) :
    urlToken? (q :: cs) = none := by
  unfold urlToken?
  rcases quote with rfl | rfl <;> rfl

theorem urlToken?_of_identLike_function {cs after : List Char} {s : String}
    (scanned : identLike cs = (.function s, after)) (url : Text.sameName s "url") :
    urlToken? after = none := by
  by_cases paren : (name cs).2.head? = some '('
  · obtain ⟨left, same⟩ := List.head?_eq_some_iff.1 paren
    rw [identLike_paren (Prod.ext rfl same)] at scanned
    split_ifs at scanned with isUrl
    · cases found : urlToken? left with
      | none =>
        rw [found] at scanned
        rwa [← (Prod.mk.inj scanned).2]
      | some result =>
        rw [found, Option.getD_some] at scanned
        subst scanned
        rcases urlToken?_token found with ⟨u, same⟩ | ⟨u, same⟩ <;> cases same
    · cases (Prod.mk.inj scanned).1
      exact absurd url isUrl
  · rw [identLike_other (s := (name cs).1) rfl paren] at scanned
    cases scanned

theorem gists_closeParen (rest : List Char) :
    gists (')' :: rest) = [(.closeParen, [])] ++ gists rest :=
  gists_of_scan (l := ⟨.closeParen, [')'], .origin⟩) (u := []) rfl rfl

end Lexer

theorem IsName.means_call {s : String} (named : IsName s) {inside : List Char} {gs : List Gist}
    (means : Lexer.Means inside gs)
    (quoted : Text.sameName s "url" → ∃ q cs, inside = q :: cs ∧ (q = '"' ∨ q = '\'')) :
    Lexer.Means ((Printer.identifier s).toList ++ '(' :: (inside ++ [')']))
      ((.function s, []) :: (gs ++ [(.closeParen, [])])) := by
  obtain ⟨c, cs, chars⟩ := named.exists_identifier
  intro rest _
  have stops : ∀ x ∈ ('(' :: (inside ++ ')' :: rest)).head?, endsName x := by simp; decide
  have scanned : scan c (cs ++ ['('] ++ (inside ++ ')' :: rest)) =
      (.function s, inside ++ ')' :: rest) := by
    rw [List.append_assoc, List.singleton_append,
      named.scan_identifier chars stops (by simp), identLike_paren (named.name_identifier stops),
      String.ofList_toList]
    split_ifs with url
    · obtain ⟨q, more, rfl, quote⟩ := quoted url
      rw [List.cons_append, urlToken?_quote quote]
      rfl
    · rfl
  have text : (Printer.identifier s).toList ++ '(' :: (inside ++ [')']) ++ rest =
      c :: (cs ++ ['(']) ++ (inside ++ ')' :: rest) := by
    rw [chars]
    simp
  have stop : Grammar.EndsWord (')' :: rest) := by
    rintro x ⟨⟩
    exact .inr (.inr (.inr rfl))
  rw [text, gists_of_scan (l := ⟨.function s, c :: (cs ++ ['(']), .origin⟩) rfl scanned,
    means _ stop, gists_closeParen]
  simp [Lexeme.gists, Lexeme.gist?]

namespace Node

theorem gists_dropTrivia {ns : List Node} (whole : ∀ n ∈ ns, n.Whole) :
    gists (dropTrivia ns) = gists ns := by
  obtain ⟨lead, same, trivia, _⟩ := exists_dropTrivia ns
  have none : gists lead = [] :=
    gists_of_trivia (fun n member => whole n (by rw [same]; simp [member])) trivia
  conv_rhs => rw [same, gists_append, none, List.nil_append]

theorem gists_significant {ns : List Node} (whole : ∀ n ∈ ns, n.Whole) :
    gists (significant ns) = gists ns := by
  induction ns with
  | nil => rfl
  | cons n ns ih =>
    have later := ih fun m member => whole m (by simp [member])
    by_cases trivia : n.isTrivia
    · have none : gists [n] = [] :=
        gists_of_trivia (by simpa using whole n (by simp)) (by simpa using trivia)
      rw [gists_cons, none, ← later]
      simp [significant, trivia]
    · rw [significant_cons (by simpa using trivia), gists_cons n ns, ← later]
      exact gists_cons n (significant ns)

theorem Sliced.exists_trimmedText {body : List Node} (sliced : Sliced body) :
    ∃ core trail, dropTrivia body = core ++ trail ∧ (∀ n ∈ trail, n.token = .whitespace) ∧
      (∀ n ∈ core.getLast?, n.token ≠ .whitespace) ∧
      trimmedText body = String.ofList (textOf core) := by
  obtain ⟨lead, whole, _, first⟩ := exists_dropTrivia body
  obtain ⟨core, trail, split, blanks, last⟩ := exists_trail (dropTrivia body)
  refine ⟨core, trail, split, blanks, last, ?_⟩
  have firstCore : ∀ n ∈ core.head?, n.token ≠ .whitespace := by
    intro n head
    refine ne_whitespace_of_solid (first n ?_)
    rw [split, List.head?_append, Option.mem_def.1 head]
    rfl
  rw [whole, split] at sliced
  rw [trimmedText, split, sliced.right.trim firstCore last blanks]

theorem Sliced.means_trimmedText {body : List Node} (sliced : Sliced body) :
    Lexer.Means (trimmedText body).toList (gists body) := by
  obtain ⟨core, trail, split, blanks, last, text⟩ := sliced.exists_trimmedText
  obtain ⟨lead, whole, _, _⟩ := exists_dropTrivia body
  have inner : Sliced (core ++ trail) := by
    rw [whole, split] at sliced
    exact sliced.right
  have none : gists trail = [] :=
    gists_of_trivia inner.right.whole fun n member => isTrivia_iff.2 (.inl (blanks n member))
  have kept : gists body = gists core := by
    rw [← gists_dropTrivia sliced.whole, split, gists_append, none, List.append_nil]
  rw [text, String.toList_ofList, kept]
  exact inner.left.means last

end Node

def Quoted.Starts (cs : List Char) : Prop :=
  ∃ q rest, cs = q :: rest ∧ (q = '"' ∨ q = '\'')

theorem Quoted.Starts.append {cs : List Char} (starts : Starts cs) (ds : List Char) :
    Starts (cs ++ ds) := by
  obtain ⟨q, rest, rfl, quote⟩ := starts
  exact ⟨q, rest ++ ds, rfl, quote⟩

def Value.IsQuoted (v : Value) : Prop :=
  ∀ text, v.render = .ok text → Quoted.Starts text.toList

namespace Value

variable {v : Value} {vs : List Value}

theorem IsQuoted.renderAll (quoted : v.IsQuoted) (separator : String) {texts : List String}
    (renders : renderAll (v :: vs) = .ok texts) :
    Quoted.Starts (separator.intercalate texts).toList := by
  rw [Value.renderAll] at renders
  cases first : v.render with
  | error e => simp [first, bind, Except.bind] at renders
  | ok text =>
    cases later : Value.renderAll vs with
    | error e => simp [first, later, bind, Except.bind] at renders
    | ok more =>
      rw [first, later] at renders
      cases renders
      have starts := quoted text first
      cases more with
      | nil => simpa using starts
      | cons next more =>
        rw [String.intercalate_cons_cons, String.toList_append, String.toList_append,
          List.append_assoc]
        exact starts.append _

theorem IsQuoted.list (quoted : v.IsQuoted) : (list (v :: vs)).IsQuoted := by
  intro text rendered
  rw [render] at rendered
  cases all : Value.renderAll (v :: vs) with
  | error e => simp [all, bind, Except.bind] at rendered
  | ok texts =>
    rw [all] at rendered
    cases rendered
    exact quoted.renderAll " " all

end Value

namespace Piece

/-- What has been read of a group starts with a quote. -/
def Opens (parts : List (List Char × Value)) (group : List Value) : Prop :=
  (∃ v vs, group = v :: vs ∧ v.IsQuoted) ∨
    group = [] ∧ ∃ t v more, parts = (t, v) :: more ∧ Quoted.Starts t ∧ v.IsQuoted

variable {parts : List (List Char × Value)} {group : List Value}

theorem Opens.concat (opens : Opens parts group) (p : List Char × Value) :
    Opens (parts ++ [p]) group := by
  obtain same | ⟨none, t, v, more, rfl, starts, quoted⟩ := opens
  · exact .inl same
  · exact .inr ⟨none, t, v, more ++ [p], rfl, starts, quoted⟩

theorem Opens.exists_first (opens : Opens parts group) :
    ∃ v vs, group ++ wordValue parts = v :: vs ∧ v.IsQuoted := by
  obtain ⟨v, vs, rfl, quoted⟩ | ⟨rfl, t, v, more, rfl, starts, quoted⟩ := opens
  · exact ⟨v, _, rfl, quoted⟩
  · obtain _ | ⟨p, more⟩ := more
    · exact ⟨v, [], rfl, quoted⟩
    · refine ⟨_, [], rfl, fun text rendered => ?_⟩
      cases rendered
      rw [String.toList_ofList]
      exact starts.append _

theorem Opens.groupsFrom {ps : List Piece} {found : List (List Value)} (opens : Opens parts group)
    (groups : groupsFrom parts group ps = some found) :
    ∃ v vs later, found = (v :: vs) :: later ∧ v.IsQuoted := by
  induction ps generalizing parts group found with
  | nil =>
    cases groups
    obtain ⟨v, vs, same, quoted⟩ := opens.exists_first
    exact ⟨v, vs, [], by rw [same], quoted⟩
  | cons p ps ih =>
    have closed : Opens [] (group ++ wordValue parts) := .inl opens.exists_first
    rw [Piece.groupsFrom] at groups
    split at groups
    · exact ih closed groups
    · exact ih closed groups
    · obtain ⟨later, _, rfl⟩ := Option.map_eq_some_iff.1 groups
      obtain ⟨v, vs, same, quoted⟩ := opens.exists_first
      exact ⟨v, vs, later, by rw [same], quoted⟩
    · exact ih (opens.concat _) groups
    · exact ih (opens.concat _) groups
    · cases groups

/-- The arguments that are read from pieces after a string start with its quote. -/
theorem exists_isQuoted_of_arguments? {p : Piece} {ps : List Piece} {v : Value} {vs : List Value}
    (word : p.kind = .word v) (starts : Quoted.Starts p.text) (quoted : v.IsQuoted)
    (read : arguments? (p :: ps) = some vs) : ∃ w ws, vs = w :: ws ∧ w.IsQuoted := by
  unfold arguments? at read
  split at read
  · cases read
  all_goals
    rename_i found
    rw [groups, Piece.groupsFrom] at found
    simp only [word, List.nil_append] at found
    obtain ⟨w, ws, later, same, first⟩ :=
      Opens.groupsFrom (.inr ⟨rfl, p.text, v, [], rfl, starts, quoted⟩) found
  · cases same
  · subst same
    obtain _ | ⟨w', ws⟩ := ws
    · obtain ⟨more, _, rfl⟩ := Option.map_eq_some_iff.1 read
      exact ⟨w, more, rfl, first⟩
    · obtain ⟨more, _, rfl⟩ := Option.map_eq_some_iff.1 read
      exact ⟨_, more, rfl, first.list⟩

end Piece

namespace Node

variable {l c : Lexeme} {body : List Node} {name : String}

/-- A block as it stands in the text that it was cut out of. -/
theorem Sliced.exists_scans (sliced : Sliced [block l body (some c)]) :
    ∃ x u rest, l.text = x :: u ∧
      scan x (u ++ (textOf body ++ (c.text ++ rest))) =
        (l.token, textOf body ++ (c.text ++ rest)) := by
  obtain ⟨rest, _, scans⟩ := sliced.slice.scans
  cases scans with
  | @cons _ x u _ _ text scanned _ =>
    refine ⟨x, u, rest, text, ?_⟩
    simpa [List.flatMap_append, flatMap_text_lexemesOf, textOf] using scanned

theorem text_closeParen (sliced : Sliced [block l body (some c)]) (closes : c.token = .closeParen) :
    c.text = [')'] := by
  have slice : Lexer.Slice ((l :: lexemesOf body) ++ [c]) := by
    simpa [lexemesOf, lexemes] using sliced.slice
  obtain ⟨x, u, rest, text, scanned, _⟩ := slice.right.exists_scan
  have read := isRead_of_scan scanned
  rw [closes] at read
  have same : [')'] ++ rest = (x :: u) ++ rest := read
  rw [text, ← List.append_cancel_right same]

theorem Sliced.exists_string_of_quote {n : Node} {ns : List Node} (sliced : Sliced (n :: ns))
    (starts : Quoted.Starts (textOf (n :: ns))) :
    ∃ l s, n = leaf l ∧ l.token = .string s ∧ Quoted.Starts l.text := by
  obtain ⟨q, after, same, quote⟩ := starts
  obtain ⟨l, ls, first, token⟩ : ∃ l ls, n.lexemes = l :: ls ∧ l.token = n.token := by
    cases n with
    | leaf l => exact ⟨l, [], rfl, rfl⟩
    | block l body closing => exact ⟨l, _, rfl, rfl⟩
  have slice : Lexer.Slice ([l] ++ (ls ++ lexemesOf ns)) := by
    simpa [lexemesOf, first] using sliced.slice
  obtain ⟨x, u, rest, text, scanned, _, plain⟩ := slice.left.exists_scan
  obtain rfl : x = q := by
    rw [textOf, ← flatMap_text_lexemes, first, List.flatMap_cons, text] at same
    exact (List.cons.inj same).1
  have scanned : stringToken x (u ++ rest) = (l.token, rest) := by
    rcases quote with rfl | rfl <;> exact scanned
  have kind := kind_stringToken x (u ++ rest)
  rw [scanned] at kind
  have whole := plain.whole
  cases read : l.token <;> rw [read] at kind whole <;> cases kind
  case badString => exact whole.elim
  case string s =>
    obtain ⟨l', rfl, _⟩ := (sliced.whole n (by simp)).eq_leaf (token ▸ read) rfl
    cases first
    exact ⟨l, s, rfl, read, x, u, text, quote⟩

/-- What stands in the parentheses after `url` is a string, unless it is an url. -/
theorem Sliced.exists_string (sliced : Sliced [block l body (some c)])
    (token : l.token = .function name) (closes : c.token = .closeParen)
    (url : Text.sameName name "url") :
    ∃ l' more s, dropTrivia body = leaf l' :: more ∧ l'.token = .string s ∧
      Quoted.Starts l'.text := by
  obtain ⟨x, u, rest, text, scanned⟩ := sliced.exists_scans
  have read := isRead_of_scan scanned
  rw [token] at read
  obtain ⟨_, named⟩ := read
  obtain ⟨q, after, same, quote⟩ :=
    urlToken?_eq_none_iff.1 (urlToken?_of_identLike_function named url)
  rw [text_closeParen sliced closes] at same
  have inner := sliced.body
  have blanks : ∀ n ∈ body.takeWhile (·.token == .whitespace), n.token = .whitespace :=
    fun n member => by simpa using List.mem_takeWhile_imp member
  have first := List.head?_dropWhile_not (fun n : Node => n.token == .whitespace) body
  have split := List.takeWhile_append_dropWhile (p := fun n : Node => n.token == .whitespace)
    (l := body)
  generalize body.takeWhile (·.token == .whitespace) = lead at blanks split
  generalize body.dropWhile (·.token == .whitespace) = solid at first split
  subst split
  have front := inner.left.isBlank_of_blank blanks
  rw [textOf_append, List.append_assoc, List.dropWhile_append_of_pos front] at same
  obtain _ | ⟨n, more⟩ := solid
  · obtain ⟨rfl, _⟩ := List.cons.inj same
    rcases quote with quote | quote <;> cases quote
  have visible := inner.right.visible (by simpa using first)
  obtain ⟨x, chars, text, visible⟩ := visible
  have starts : Quoted.Starts (textOf (n :: more)) := by
    rw [text, List.cons_append, List.dropWhile_cons_of_neg (by simp [visible])] at same
    exact ⟨x, chars, text, (List.cons.inj same).1 ▸ quote⟩
  obtain ⟨l', s, rfl, string, starts⟩ := inner.right.exists_string_of_quote starts
  have solid : (leaf l').isTrivia = false := by simp [isTrivia, Node.token, string, Token.isTrivia]
  refine ⟨l', more, s, ?_, string, starts⟩
  have trivia : ∀ n ∈ lead, n.isTrivia := fun n member => isTrivia_iff.2 (.inl (blanks n member))
  rw [dropTrivia, List.dropWhile_append_of_pos trivia, List.dropWhile_cons_of_neg (by simp [solid])]

theorem isQuoted_string (s : String) (source : List Char) :
    (Value.string ⟨s, Quoted.quoteOf source⟩).IsQuoted := by
  intro text rendered
  cases rendered
  rw [Quoted.toList_render]
  exact ⟨_, _, rfl, Quoted.isQuote_quoteOf source⟩

theorem gists_block (l c : Lexeme) (body : List Node) :
    gists [block l body (some c)] = Lexeme.gists [l] ++ (gists body ++ Lexeme.gists [c]) := by
  simp [gists, lexemesOf, lexemes, Lexeme.gists, ← List.filterMap_append]

theorem lays_pieces_none (ns : List Node) :
    Piece.Lays (dropTrivia ns) (pieces none ns) (significant (dropTrivia ns)) := by
  obtain ⟨lead, whole, blank, first⟩ := exists_dropTrivia ns
  have skipped : pieces none ns = pieces none (dropTrivia ns) := by
    conv_lhs => rw [whole, pieces_none_append blank]
  rw [skipped]
  cases same : dropTrivia ns with
  | nil =>
    rw [pieces.eq_def]
    exact .trail (by simp)
  | cons n more =>
    rw [pieces_none_solid (first n (by rw [same]; rfl))]
    exact @Piece.lays_pieces [] (by simp) (n :: more)

theorem Sliced.exists_isQuoted (sliced : Sliced [block l body (some c)])
    (token : l.token = .function name) (closes : c.token = .closeParen)
    (url : Text.sameName name "url") {vs : List Value}
    (read : Piece.arguments? (pieces none body) = some vs) :
    ∃ v more, vs = v :: more ∧ v.IsQuoted := by
  obtain ⟨l', more, s, same, string, starts⟩ := sliced.exists_string token closes url
  obtain ⟨lead, whole, blank, first⟩ := exists_dropTrivia body
  have solid : (leaf l').isTrivia = false := first _ (by rw [same]; rfl)
  rw [whole, pieces_none_append blank, same, pieces_none_solid solid,
    pieces_solid more solid] at read
  refine Piece.exists_isQuoted_of_arguments? (v := .string ⟨s, Quoted.quoteOf l'.text⟩) ?_ ?_
    (isQuoted_string s _) read
  · simp [piece, isComma, isBang, value?, Node.token, string, Value.ofToken]
  · exact starts

theorem Sliced.starts_trimmedText (sliced : Sliced [block l body (some c)])
    (token : l.token = .function name) (closes : c.token = .closeParen)
    (url : Text.sameName name "url") : Quoted.Starts (trimmedText body).toList := by
  obtain ⟨l', more, s, same, string, starts⟩ := sliced.exists_string token closes url
  obtain ⟨core, trail, split, blanks, _, text⟩ := sliced.body.exists_trimmedText
  rw [same] at split
  rw [text, String.toList_ofList]
  obtain _ | ⟨n, core⟩ := core
  · have blank : l'.token = .whitespace :=
      blanks (leaf l') (by rw [← List.nil_append trail, ← split]; simp)
    rw [string] at blank
    cases blank
  · obtain ⟨rfl, _⟩ := List.cons.inj split
    exact starts.append _

theorem Sliced.means_arguments (sliced : Sliced body) (speaks : ∀ n ∈ body, n.Speaks)
    {vs : List Value} (read : Piece.arguments? (pieces none body) = some vs) :
    ∃ texts, Value.renderAll vs = .ok texts ∧
      Lexer.Means (", ".intercalate texts).toList (gists body) := by
  obtain ⟨lead, whole, _, _⟩ := exists_dropTrivia body
  have inner : Sliced (dropTrivia body) := by
    rw [whole] at sliced
    exact sliced.right
  have kept : gists (significant (dropTrivia body)) = gists body := by
    rw [gists_significant inner.whole, gists_dropTrivia sliced.whole]
  have grouped : ∀ found, Piece.groups (pieces none body) = some found →
      Value.Grouped found (gists body) := by
    intro found groups
    rw [← kept]
    have speaks : ∀ n ∈ dropTrivia body, n.Speaks :=
      fun n member => speaks n ((List.dropWhile_sublist _).subset member)
    exact (lays_pieces_none body).grouped (by simpa using inner) speaks Piece.spans_nil .nil groups
  unfold Piece.arguments? at read
  split at read
  · cases read
  · rename_i groups
    cases read
    have none : gists body = [] := by
      generalize gists body = gs at grouped
      cases grouped _ groups with
      | single listed =>
        cases listed
        rfl
      | cons _ later => cases later
    refine ⟨[], rfl, fun rest _ => ?_⟩
    rw [none]
    rfl
  · rename_i found _ groups
    obtain ⟨text, texts, renders, _, means⟩ :=
      ((grouped _ groups).joined read).exists_texts Value.separates_comma
    exact ⟨_, renders, means⟩

theorem Sliced.means_callValue (sliced : Sliced [block l body (some c)])
    (token : l.token = .function name) (closes : c.token = .closeParen)
    (speaks : ∀ n ∈ body, n.Speaks) :
    (callValue name body (pieces none body)).Means (gists [block l body (some c)]) := by
  have named : IsName name := by
    obtain ⟨x, u, rest, _, scanned⟩ := sliced.exists_scans
    have sound := scan_isSound x (u ++ (textOf body ++ (c.text ++ rest)))
    rwa [scanned, token] at sound
  have inner := sliced.body
  have gist : gists [block l body (some c)] =
      (.function name, []) :: (gists body ++ [(.closeParen, [])]) := by
    simp [gists_block, Lexeme.gists, Lexeme.gist?, token, closes]
  have printed : ∀ inside : String, (Printer.identifier name ++ "(" ++ inside ++ ")").toList =
      (Printer.identifier name).toList ++ '(' :: (inside.toList ++ [')']) := by simp
  have call : ∀ (v : Value) (inside : String),
      v.render = .ok (Printer.identifier name ++ "(" ++ inside ++ ")") →
      Lexer.Means inside.toList (gists body) →
      (Text.sameName name "url" → Quoted.Starts inside.toList) →
      v.Means ((.function name, []) :: (gists body ++ [(.closeParen, [])])) := by
    intro v inside render means quoted
    refine ⟨_, render, ?_, ?_⟩
    · rw [printed]
      exact Value.visible_identifier named _
    · rw [printed]
      exact named.means_call means quoted
  rw [gist]
  unfold callValue
  cases read : Piece.arguments? (pieces none body) with
  | none =>
    exact call _ (trimmedText body) rfl inner.means_trimmedText
      (sliced.starts_trimmedText token closes)
  | some vs =>
    obtain ⟨texts, renders, means⟩ := inner.means_arguments speaks read
    have render : (Value.call name vs).render =
        .ok (Printer.identifier name ++ "(" ++ ", ".intercalate texts ++ ")") := by
      rw [Value.render, renders]
      rfl
    refine call _ _ render means fun url => ?_
    obtain ⟨v, more, rfl, quoted⟩ := sliced.exists_isQuoted token closes url read
    exact quoted.renderAll ", " renders

theorem Sliced.value?_function {closing : Option Lexeme} (sliced : Sliced [block l body closing])
    (token : l.token = .function name) (lead : List Char) :
    value? lead (block l body closing) = some (callValue name body (pieces none body)) := by
  obtain ⟨color, math⟩ := (sliced.slice.plain l (by simp [lexemesOf, lexemes])).unread name token
  simp [value?, color?, calc?, token, color, Math.ofTerms?_of_not_isName math]

theorem speaks (n : Node) : n.Speaks := by
  intro lead v comments sliced solid value
  match n with
  | leaf l =>
    cases value
    exact sliced.means_ofToken comments solid
  | block l body closing =>
    obtain ⟨c, rfl, closes⟩ : ∃ c, closing = some c ∧ l.token.closing? = some c.token := by
      cases sliced.whole _ (List.mem_append_right _ List.mem_cons_self) with
      | block closes _ => exact ⟨_, rfl, closes⟩
    by_cases call : ∃ name, l.token = .function name
    · obtain ⟨name, token⟩ := call
      rw [sliced.right.value?_function token] at value
      cases value
      have close : c.token = .closeParen := by
        rw [token] at closes
        exact (Option.some.inj closes).symm
      exact sliced.right.means_callValue token close fun m member => speaks m
    · have text : v = .raw (String.ofList (textOf (lead ++ [block l body (some c)]))) := by
        rw [value?] at value
        split at value
        · cases value
        · rename_i token
          exact absurd ⟨_, token⟩ call
        · cases value
          simp [textOf_append, textOf]
      rw [text]
      exact sliced.means_source comments solid
termination_by sizeOf n
decreasing_by
  have smaller := List.sizeOf_lt_of_mem member
  simp only [block.sizeOf_spec]
  omega

end Node

end CssOutline
