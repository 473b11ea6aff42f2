import CssOutline.Proofs.CustomValues
import CssOutline.Proofs.GrammarValues
import CssOutline.Proofs.PrintedTokens

/-! What the values of nodes mean. -/

namespace CssOutline

open Lexer

theorem IsName.means_at {s : String} (named : IsName s) :
    Lexer.Means ('@' :: (Printer.identifier s).toList) [(.atKeyword s, [])] := by
  intro rest ends
  have stops : ∀ x ∈ rest.head?, endsName x := fun x head => (ends.endsIdent x head).1
  have scans : ∀ cs, startsName cs →
      scan '@' cs = (.atKeyword (String.ofList (name cs).1), (name cs).2) :=
    fun cs starts => if_pos starts
  have scanned : scan '@' ((Printer.identifier s).toList ++ rest) = (.atKeyword s, rest) := by
    rw [scans _ (named.startsName_identifier rest), named.name_identifier stops,
      String.ofList_toList]
  exact gists_of_scan (l := ⟨.atKeyword s, _, .origin⟩) rfl scanned

theorem Value.means_of_render {v : Value} {text : List Char} {gs : List Gist}
    (render : v.render = .ok (String.ofList text)) (visible : Node.Visible text)
    (means : Lexer.Means text gs) : v.Means gs :=
  ⟨_, render, by rwa [String.toList_ofList], by rwa [String.toList_ofList]⟩

namespace Node

section Slices

variable {ns lead : List Node} {n : Node} {l : Lexeme}

theorem gists_of_trivia (whole : ∀ n ∈ ns, n.Whole) (trivia : ∀ n ∈ ns, n.isTrivia) :
    gists ns = [] := by
  induction ns with
  | nil => rfl
  | cons n ns ih =>
    have later := ih (fun m member => whole m (by simp [member]))
      fun m member => trivia m (by simp [member])
    rw [← List.singleton_append, gists_append, later, List.append_nil]
    rcases isTrivia_iff.1 (trivia n (by simp)) with same | same
    all_goals
      obtain ⟨l, rfl, token⟩ := (whole n (by simp)).eq_leaf same rfl
      simp [gists, lexemesOf, lexemes, Lexeme.gists, Lexeme.gist?, token]

theorem isTrivia_of_comment (comment : n.token = .comment) : n.isTrivia :=
  isTrivia_iff.2 (.inr comment)

/-- A slice that starts and ends with something else than a blank, kept as text. -/
theorem Sliced.means_raw (sliced : Sliced ns) (some : ns ≠ [])
    (first : ∀ n ∈ ns.head?, n.token ≠ .whitespace)
    (last : ∀ n ∈ ns.getLast?, n.token ≠ .whitespace) :
    (Value.raw (String.ofList (textOf ns))).Means (gists ns) := by
  obtain ⟨n, ns, rfl⟩ := List.exists_cons_of_ne_nil some
  exact Value.means_of_render rfl (sliced.visible (first n rfl)) (sliced.means last)

theorem Sliced.means_source (sliced : Sliced (lead ++ [n]))
    (comments : ∀ m ∈ lead, m.token = .comment) (solid : n.isTrivia = false) :
    (Value.raw (String.ofList (textOf (lead ++ [n])))).Means (gists [n]) := by
  have visible : ∀ m ∈ lead ++ [n], m.token ≠ .whitespace := by
    intro m member blank
    rcases List.mem_append.1 member with before | here
    · simp [comments m before] at blank
    · obtain rfl := List.mem_singleton.1 here
      simp [isTrivia_iff.2 (.inl blank)] at solid
  have empty : gists lead = [] :=
    gists_of_trivia (fun m member => sliced.whole m (by simp [member]))
      fun m member => isTrivia_of_comment (comments m member)
  have means := sliced.means_raw (by simp) (fun m member => visible m (List.mem_of_head? member))
    fun m member => visible m (List.mem_of_getLast? member)
  rwa [gists_append, empty, List.nil_append] at means

theorem Sliced.means_exactOrRaw (sliced : Sliced (lead ++ [n]))
    (comments : ∀ m ∈ lead, m.token = .comment) (solid : n.isTrivia = false) (v : Value) :
    (v.exactOrRaw (String.ofList (textOf (lead ++ [n])))).Means (gists [n]) := by
  obtain ⟨text, render, visible, means⟩ := sliced.means_source comments solid
  cases render
  exact ⟨_, Grammar.render_exactOrRaw v _, visible, means⟩

theorem gists_leaf (l : Lexeme) : gists [leaf l] = Lexeme.gists [l] := rfl

section Token

variable (sliced : Sliced [leaf l])

include sliced

theorem Sliced.means_ident {name : String} (token : l.token = .ident name)
    (source : List Char) : (Value.ofToken source (.ident name)).Means (gists [leaf l]) := by
  obtain ⟨c, u, rest, text, scanned, _, _⟩ := sliced.slice.exists_scan
  have sound := scan_isSound c (u ++ rest)
  rw [scanned, token] at sound
  have gist : gists [leaf l] = gists [word name] := by
    simp [gists_leaf, Lexeme.gists, Lexeme.gist?, token, word, atom]
  rw [gist]
  simp only [Value.ofToken]
  split_ifs with current
  · have printed : Printer.identifier "currentcolor" = "currentcolor" := by decide +kernel
    have same : gists [word name] = gists [word "currentcolor"] := by
      simp [gists_leaf, Lexeme.gists, Lexeme.gist?, word, atom, current]
    obtain ⟨text, render, visible, means⟩ :=
      Value.means_keyword (s := "currentcolor") ⟨by decide, by decide⟩
    cases render
    rw [same]
    rw [printed] at visible means
    exact ⟨_, rfl, visible, means⟩
  · exact Value.means_keyword sound

theorem Sliced.means_string {s : String} (token : l.token = .string s) (source : List Char) :
    (Value.ofToken source (.string s)).Means (gists [leaf l]) := by
  obtain ⟨c, u, rest, text, scanned, unescaped, _⟩ := sliced.slice.exists_scan
  have sound := scan_isSound c (u ++ rest)
  rw [scanned, token] at sound
  have read := isRead_of_scan scanned
  rw [token] at read
  obtain ⟨_, quoted⟩ := read
  have content : s.toList = (Lexer.string c (u ++ rest)).1 := by
    have first := congrArg Prod.fst quoted
    simp only [stringToken] at first
    split at first <;> cases first
    exact String.toList_ofList
  have lines := @isNewline_of_mem_string c _ fun member => unescaped (List.mem_cons_of_mem c member)
  have plain : Quoted.IsPlain ⟨s, Quoted.quoteOf source⟩ := by
    refine ⟨Quoted.isQuote_quoteOf source, fun x member => ?_⟩
    have line := lines x (content ▸ member)
    refine ⟨?_, ?_, ?_⟩ <;> rintro rfl
    · exact sound member
    · cases line
    · cases line
  have gist : gists [leaf l] = [(.string s, [])] := by
    simp [gists_leaf, Lexeme.gists, Lexeme.gist?, token]
  rw [gist]
  exact Value.means_string plain

theorem Sliced.means_url {u : String} (token : l.token = .url u) (source : List Char) :
    (Value.ofToken source (.url u)).Means (gists [leaf l]) := by
  obtain ⟨c, w, rest, text, scanned, unescaped, _⟩ := sliced.slice.exists_scan
  have read := isRead_of_scan scanned
  rw [token] at read
  obtain ⟨_, scanned⟩ := read
  have chars : ∀ x ∈ u.toList, IsUrlChar x := by
    obtain ⟨after, suffix, found⟩ := urlToken?_of_identLike scanned
    have body := (urlToken?_eq_url_iff.1 found).2
    refine isUrlChar_of_mem_urlBody (fun member => unescaped ?_) body
    exact suffix.subset ((List.dropWhile_sublist _).subset member)
  have gist : gists [leaf l] = [(.url u, [])] := by
    simp [gists_leaf, Lexeme.gists, Lexeme.gist?, token]
  rw [gist]
  exact Value.means_url chars

theorem Sliced.means_atKeyword {s : String} (token : l.token = .atKeyword s)
    (source : List Char) : (Value.ofToken source (.atKeyword s)).Means (gists [leaf l]) := by
  obtain ⟨c, u, rest, text, scanned, _, _⟩ := sliced.slice.exists_scan
  have read := isRead_of_scan scanned
  rw [token] at read
  obtain ⟨_, starts, same⟩ := read
  cases (Prod.mk.inj same).1
  have named : IsName (String.ofList (name (u ++ rest)).1) := isName_name starts
  have gist : gists [leaf l] = [(l.token, [])] := by
    simp [gists_leaf, Lexeme.gists, Lexeme.gist?, token]
  rw [gist, token]
  have printed : ∀ s : String, ("@" ++ s).toList = '@' :: s.toList := by simp
  refine ⟨_, rfl, ?_, ?_⟩
  · rw [Token.css, printed]
    exact ⟨'@', _, rfl, rfl⟩
  · rw [Token.css, printed]
    exact named.means_at

/-- A sign is printed as it stands in the text. -/
theorem Sliced.means_sign (sign : l.token.kind = .sign) :
    (Value.raw l.token.css).Means (gists [leaf l]) := by
  obtain ⟨c, u, rest, text, scanned, _, _⟩ := sliced.slice.exists_scan
  have read := isRead_of_scan scanned
  unfold IsRead at read
  simp only [sign] at read
  rw [← List.cons_append, List.append_cancel_right_eq, ← text] at read
  have printed : l.token.css = String.ofList (textOf ([] ++ [leaf l])) := by
    simp [textOf, Node.text, ← read]
  rw [printed]
  have solid : (leaf l).isTrivia = false := by
    cases trivia : (leaf l).isTrivia with
    | false => rfl
    | true =>
      rcases isTrivia_iff.1 trivia with same | same
      all_goals
        have same : l.token = _ := same
        rw [same] at sign
        cases sign
  have alone : Sliced ([] ++ [leaf l]) := sliced
  exact alone.means_source (by simp) solid

theorem Sliced.kind_ne_hash : l.token.kind ≠ .hash := by
  intro token
  obtain ⟨c, u, rest, text, scanned, _, plain⟩ := sliced.slice.exists_scan
  have read := isRead_of_scan scanned
  unfold IsRead at read
  simp only [token] at read
  exact plain.hashless (by simp [text, read])

end Token

theorem Sliced.means_ofToken (sliced : Sliced (lead ++ [leaf l]))
    (comments : ∀ m ∈ lead, m.token = .comment) (solid : (leaf l).isTrivia = false) :
    (Value.ofToken (textOf lead ++ l.text) l.token).Means (gists [leaf l]) := by
  have single := sliced.right
  obtain ⟨t, text, start⟩ := l
  have source : textOf lead ++ text = textOf (lead ++ [leaf ⟨t, text, start⟩]) := by
    simp [textOf_append, textOf, Node.text]
  have plain : t.IsWhole text :=
    (single.slice.plain ⟨t, text, start⟩ (by simp [lexemesOf, lexemes])).whole
  have flat : t.isFlat := by
    cases single.whole _ List.mem_cons_self with
    | leaf flat => exact flat
  cases t
  case ident name => exact single.means_ident rfl _
  case atKeyword name => exact single.means_atKeyword rfl _
  case hash name => exact absurd rfl single.kind_ne_hash
  case idHash name => exact absurd rfl single.kind_ne_hash
  case string s => exact single.means_string rfl _
  case url u => exact single.means_url rfl _
  case number n =>
    rw [source]
    exact sliced.means_exactOrRaw comments solid _
  case percentage n =>
    rw [source]
    exact sliced.means_exactOrRaw comments solid _
  case dimension n unit =>
    rw [source]
    exact sliced.means_exactOrRaw comments solid _
  case whitespace => cases solid
  case comment => cases solid
  case badString => exact plain.elim
  case badUrl => exact plain.elim
  case cdo => exact plain.elim
  case cdc => exact plain.elim
  all_goals first | exact single.means_sign rfl | cases flat

end Slices

end Node

end CssOutline
