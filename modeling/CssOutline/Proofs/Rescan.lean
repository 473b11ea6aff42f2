import CssOutline.Proofs.NumberCuts

/-! Scanning a part of a text by itself. A token that is closed by its own last characters is scanned
before any rest, and one that has ended before the rest of the text is scanned before any other rest
at which everything stops. Signs and marks of several characters are cut out of the text as a
whole. -/

namespace CssOutline

namespace Lexer

variable {w v more rest : List Char}

section Words

theorem matchToken_other {c : Char} {t : Token} {cs : List Char} (other : cs.head? ≠ some '=') :
    matchToken c t cs = (.delim c, cs) := by
  unfold matchToken
  split
  · exact absurd rfl other
  · rfl

theorem matchToken_cut {c : Char} {t u : Token} (stops : Stops rest)
    (scanned : matchToken c t (w ++ more) = (u, v ++ more)) :
    matchToken c t (w ++ rest) = (u, v ++ rest) := by
  by_cases equals : (w ++ more).head? = some '='
  · obtain _ | ⟨x, w⟩ := w
    · obtain ⟨after, rfl⟩ := List.head?_eq_some_iff.1 equals
      exact absurd (Prod.mk.inj scanned).2.symm (ne_of_suffix_tail List.suffix_rfl)
    · obtain rfl : x = '=' := by simpa using equals
      exact pair_cut scanned rest
  · have other : (w ++ rest).head? ≠ some '=' := stops.head?_ne_append (by decide) equals
    rw [matchToken_other equals] at scanned
    rw [matchToken_other other]
    exact pair_cut scanned rest

theorem hashToken_name {c : Char} (cs : List Char) (plain : startsName (c :: cs) = false)
    (part : c.isDigit || c == '-') :
    hashToken (c :: cs) = (.hash (String.ofList (name (c :: cs)).1), (name (c :: cs)).2) := by
  unfold hashToken
  rw [if_neg (by simp [plain])]
  simp only [part, if_true]

theorem hashToken_sign {cs : List Char} (plain : startsName cs = false)
    (sign : ∀ c ∈ cs.head?, (c.isDigit || c == '-') = false) :
    hashToken cs = (.delim '#', cs) := by
  unfold hashToken
  rw [if_neg (by simp [plain])]
  split
  · rw [if_neg (by simp [sign _ rfl])]
  · rfl

theorem hashToken_suffix_tail {c : Char} {cs : List Char} (plain : startsName (c :: cs) = false)
    (part : c.isDigit || c == '-') : (hashToken (c :: cs)).2 <:+ cs := by
  have slash : c ≠ '\\' := by
    rintro rfl
    simp at part
  have taken : isNameChar c := by
    rcases Bool.or_eq_true_iff.1 part with digit | hyphen
    · simp [isNameChar, digit]
    · simp [isNameChar, hyphen]
  rw [hashToken_name cs plain part, name.eq_def]
  simp only [slash, taken, if_true, if_false]
  exact name_suffix cs

theorem hashToken_cut {t : Token} (clear : Clear w v more)
    (stops : Stops rest) (scanned : hashToken (w ++ more) = (t, v ++ more)) :
    hashToken (w ++ rest) = (t, v ++ rest) := by
  have inside : startsName (w ++ more) → v ++ more <:+ (name (w ++ more)).2 := by
    intro starts
    unfold hashToken at scanned
    rw [if_pos starts] at scanned
    exact (Prod.mk.inj scanned).2 ▸ List.suffix_rfl
  have same := startsName_cut clear stops inside
  cases starts : startsName (w ++ more) with
  | true =>
    unfold hashToken at scanned ⊢
    rw [if_pos starts] at scanned
    rw [if_pos (same.trans starts)]
    obtain ⟨rfl, left⟩ := Prod.mk.inj scanned
    rw [name_cut clear stops (Prod.ext rfl left)]
  | false =>
    have cutStarts := same.trans starts
    by_cases sign : ∀ c ∈ (w ++ more).head?, (c.isDigit || c == '-') = false
    · rw [hashToken_sign starts sign] at scanned
      rw [hashToken_sign cutStarts ?_]
      · exact pair_cut scanned rest
      · obtain _ | ⟨c, w⟩ := w
        · exact stops.head rfl rfl rfl rfl rfl rfl
        · simpa using sign
    · simp only [Option.mem_def, not_forall, Bool.not_eq_false] at sign
      obtain ⟨c, head, part⟩ := sign
      obtain _ | ⟨x, w⟩ := w
      · obtain ⟨cs, rfl⟩ := List.head?_eq_some_iff.1 head
        have left := hashToken_suffix_tail starts part
        rw [List.nil_append] at scanned
        rw [scanned] at left
        exact absurd left (not_suffix_tail List.suffix_rfl)
      · obtain rfl : x = c := by simpa using head
        rw [List.cons_append, hashToken_name (w ++ more) starts part] at scanned
        rw [List.cons_append, hashToken_name (w ++ rest) cutStarts part]
        obtain ⟨rfl, left⟩ := Prod.mk.inj scanned
        rw [← List.cons_append, name_cut clear stops (Prod.ext rfl left)]
        rfl

theorem string_closed {quote : Char} {body s cs : List Char} (plain : '\\' ∉ body)
    (scanned : string quote (body ++ quote :: cs) = (s, true, cs)) (ds : List Char) :
    string quote (body ++ quote :: ds) = (s, true, ds) := by
  induction body generalizing s with
  | nil =>
    rw [List.nil_append, string.eq_def] at scanned ⊢
    simp only [if_true] at scanned ⊢
    obtain ⟨rfl, _⟩ := Prod.mk.inj scanned
    rfl
  | cons c body ih =>
    have slash : c ≠ '\\' := fun same => plain (by simp [same])
    have longer : body ++ quote :: cs ≠ cs := ne_of_suffix_tail List.suffix_rfl
    rw [List.cons_append, string.eq_def] at scanned ⊢
    simp only [slash, if_false] at scanned ⊢
    split_ifs at scanned ⊢ with same line
    · exact absurd (Prod.mk.inj (Prod.mk.inj scanned).2).2 longer
    · cases (Prod.mk.inj (Prod.mk.inj scanned).2).1
    · obtain ⟨rfl, after⟩ := Prod.mk.inj scanned
      rw [ih (fun member => plain (by simp [member])) (Prod.ext rfl after)]

theorem commentEnd_closed {body cs : List Char}
    (scanned : commentEnd (body ++ '*' :: '/' :: cs) = cs) (ds : List Char) :
    commentEnd (body ++ '*' :: '/' :: ds) = ds := by
  induction body with
  | nil => rfl
  | cons c body ih =>
    by_cases closes : c = '*' ∧ body.head? = some '/'
    · obtain ⟨rfl, head⟩ := closes
      obtain ⟨body, rfl⟩ := List.head?_eq_some_iff.1 head
      exact absurd scanned (ne_of_suffix_tail (List.suffix_cons _ _))
    · have skips : ∀ es, commentEnd (c :: body ++ '*' :: '/' :: es) =
          commentEnd (body ++ '*' :: '/' :: es) := by
        intro es
        rw [List.cons_append, commentEnd.eq_def]
        split
        · rename_i same
          cases same
        · rename_i same
          obtain ⟨rfl, tail⟩ := List.cons.inj same
          obtain _ | ⟨x, body⟩ := body
          · cases (List.cons.inj tail).1
          · exact absurd ⟨rfl, congrArg some (List.cons.inj tail).1⟩ closes
        · rename_i same
          rw [(List.cons.inj same).2]
      rw [skips] at scanned ⊢
      exact ih scanned

theorem dropWhile_paren (body cs : List Char) :
    (body ++ ')' :: cs).dropWhile Text.isBlank = body.dropWhile Text.isBlank ++ ')' :: cs := by
  rw [List.dropWhile_append]
  split
  · rename_i empty
    rw [List.isEmpty_iff.1 empty]
    rfl
  · rfl

theorem urlBody_closed {body u cs : List Char} (plain : '\\' ∉ body)
    (scanned : urlBody (body ++ ')' :: cs) = (some u, cs)) (ds : List Char) :
    urlBody (body ++ ')' :: ds) = (some u, ds) := by
  induction body generalizing u with
  | nil =>
    rw [List.nil_append, urlBody.eq_def] at scanned ⊢
    simp only [if_true, show Text.isBlank ')' = false from rfl, Bool.false_eq_true,
      if_false] at scanned ⊢
    obtain ⟨same, _⟩ := Prod.mk.inj scanned
    rw [same]
  | cons c body ih =>
    have slash : c ≠ '\\' := fun same => plain (by simp [same])
    have longer : ∀ front, front ++ ')' :: cs ≠ cs := fun _ => ne_of_suffix_tail List.suffix_rfl
    rw [List.cons_append, urlBody.eq_def] at scanned ⊢
    simp only [slash, if_false] at scanned ⊢
    split_ifs at scanned ⊢ with blank paren breaks
    · -- Only blanks stand before the parenthesis: with anything else the url would be bad.
      rw [dropWhile_paren] at scanned ⊢
      cases left : body.dropWhile Text.isBlank with
      | nil =>
        rw [left] at scanned
        obtain ⟨same, _⟩ := Prod.mk.inj scanned
        rw [← same]
        rfl
      | cons x xs =>
        rw [left, List.cons_append] at scanned
        split at scanned
        · rename_i same
          cases same
        · rename_i same
          rw [(Prod.mk.inj scanned).2] at same
          exact absurd (List.cons.inj same).2 (longer xs)
        · cases (Prod.mk.inj scanned).1
    · exact absurd (Prod.mk.inj scanned).2 (longer body)
    · cases (Prod.mk.inj scanned).1
    · obtain ⟨inner, after⟩ := Prod.mk.inj scanned
      obtain ⟨u, found, rfl⟩ := Option.map_eq_some_iff.1 inner
      rw [ih (fun member => plain (by simp [member])) (Prod.ext found after)]
      rfl

def unquotedUrl (start : List Char) : Token × List Char :=
  match urlBody start with
  | (some u, after) => (.url (String.ofList u), after)
  | (none, after) =>
    (.badUrl (String.ofList (before start (badUrlEnd after))), (badUrlEnd after).drop 1)

theorem urlToken?_eq_some_iff {cs : List Char} {result : Token × List Char} :
    urlToken? cs = some result ↔
      (∀ x ∈ (cs.dropWhile Text.isBlank).head?, x ≠ '"' ∧ x ≠ '\'') ∧
        unquotedUrl (cs.dropWhile Text.isBlank) = result := by
  unfold urlToken?
  split
  · rename_i same
    simp [same]
  · rename_i same
    simp [same]
  · rename_i double single
    have first : ∀ x ∈ (cs.dropWhile Text.isBlank).head?, x ≠ '"' ∧ x ≠ '\'' := by
      intro x head
      obtain ⟨xs, same⟩ := List.head?_eq_some_iff.1 head
      constructor
      · rintro rfl
        exact double xs same
      · rintro rfl
        exact single xs same
    rw [and_iff_right first, unquotedUrl]
    rcases urlBody (cs.dropWhile Text.isBlank) with ⟨_ | u, after⟩ <;> exact Option.some_inj

theorem urlToken?_eq_none_iff {cs : List Char} :
    urlToken? cs = none ↔
      ∃ q more, cs.dropWhile Text.isBlank = q :: more ∧ (q = '"' ∨ q = '\'') := by
  constructor
  · intro none
    unfold urlToken? at none
    split at none
    · rename_i same
      exact ⟨_, _, same, .inl rfl⟩
    · rename_i same
      exact ⟨_, _, same, .inr rfl⟩
    · split at none <;> cases none
  · rintro ⟨q, more, same, quote⟩
    rw [urlToken?, same]
    rcases quote with rfl | rfl <;> rfl

theorem urlToken?_eq_url_iff {cs after : List Char} {u : String} :
    urlToken? cs = some (.url u, after) ↔
      (∀ x ∈ (cs.dropWhile Text.isBlank).head?, x ≠ '"' ∧ x ≠ '\'') ∧
        urlBody (cs.dropWhile Text.isBlank) = (some u.toList, after) := by
  rw [urlToken?_eq_some_iff, unquotedUrl]
  refine and_congr_right fun _ => ?_
  split
  · rename_i body left found
    rw [found]
    simp only [Prod.mk.injEq, Token.url.injEq, Option.some.injEq]
    rw [← String.toList_inj, String.toList_ofList]
  · rename_i found
    simp [found]

theorem urlToken?_closed {body cs : List Char} {u : String} (plain : '\\' ∉ body)
    (scanned : urlToken? (body ++ ')' :: cs) = some (.url u, cs)) (ds : List Char) :
    urlToken? (body ++ ')' :: ds) = some (.url u, ds) := by
  have inside : '\\' ∉ body.dropWhile Text.isBlank :=
    fun member => plain ((List.dropWhile_sublist _).subset member)
  rw [urlToken?_eq_url_iff, dropWhile_paren] at scanned ⊢
  obtain ⟨first, found⟩ := scanned
  refine ⟨?_, urlBody_closed inside found ds⟩
  cases left : body.dropWhile Text.isBlank with
  | nil => simp
  | cons x xs => simpa [left] using first

theorem urlBody_gap_paren {c : Char} {cs after : List Char} (blank : Text.isBlank c)
    (left : cs.dropWhile Text.isBlank = ')' :: after) : urlBody (c :: cs) = (some [], after) := by
  rw [urlBody.eq_def]
  simp only [blank, if_true, left]

theorem urlBody_gap_other {c x : Char} {cs after : List Char} (blank : Text.isBlank c)
    (left : cs.dropWhile Text.isBlank = x :: after) (other : x ≠ ')') :
    urlBody (c :: cs) = (none, after) := by
  rw [urlBody.eq_def]
  simp only [blank, if_true, left]

theorem urlBody_solid {c : Char} (solid : Text.isBlank c = false) (slash : c ≠ '\\')
    (cs : List Char) : urlBody (c :: cs) =
      if c = ')' then (some [], cs)
      else if breaksUrl c then (none, cs)
      else ((urlBody cs).1.map (known c :: ·), (urlBody cs).2) := by
  rw [urlBody.eq_def]
  simp only [solid, slash, if_false, Bool.false_eq_true]

theorem urlBody_bad {body after cs : List Char} (plain : '\\' ∉ body)
    (scanned : urlBody (body ++ ')' :: cs) = (none, after)) :
    ∃ tail, tail ⊆ body ∧ after = tail ++ ')' :: cs ∧
      ∀ ds, urlBody (body ++ ')' :: ds) = (none, tail ++ ')' :: ds) := by
  induction body with
  | nil =>
    rw [List.nil_append, urlBody.eq_def] at scanned
    cases (Prod.mk.inj scanned).1
  | cons c body ih =>
    have slash : c ≠ '\\' := fun same => plain (by simp [same])
    simp only [List.cons_append] at scanned ⊢
    cases blank : Text.isBlank c with
    | true =>
      cases left : body.dropWhile Text.isBlank with
      | nil =>
        have behind : (body ++ ')' :: cs).dropWhile Text.isBlank = ')' :: cs := by
          rw [dropWhile_paren, left, List.nil_append]
        rw [urlBody_gap_paren blank behind] at scanned
        cases (Prod.mk.inj scanned).1
      | cons x xs =>
        have inside : xs ⊆ c :: body := fun y member => List.mem_cons_of_mem c
          ((List.dropWhile_sublist _).subset (left ▸ List.mem_cons_of_mem x member))
        have behind : ∀ es, (body ++ ')' :: es).dropWhile Text.isBlank = x :: (xs ++ ')' :: es) := by
          intro es
          rw [dropWhile_paren, left, List.cons_append]
        have other : x ≠ ')' := by
          rintro rfl
          rw [urlBody_gap_paren blank (behind cs)] at scanned
          cases (Prod.mk.inj scanned).1
        rw [urlBody_gap_other blank (behind cs) other] at scanned
        exact ⟨xs, inside, (Prod.mk.inj scanned).2.symm,
          fun ds => urlBody_gap_other blank (behind ds) other⟩
    | false =>
      simp only [urlBody_solid blank slash] at scanned ⊢
      split_ifs at scanned ⊢ with paren breaks
      · cases (Prod.mk.inj scanned).1
      · exact ⟨body, List.subset_cons_self _ _, (Prod.mk.inj scanned).2.symm, fun _ => rfl⟩
      · obtain ⟨inner, rfl⟩ := Prod.mk.inj scanned
        have none := Option.map_eq_none_iff.1 inner
        obtain ⟨tail, inside, left, always⟩ :=
          ih (fun member => plain (by simp [member])) (Prod.ext none rfl)
        refine ⟨tail, fun y member => List.mem_cons_of_mem c (inside member), left, fun ds => ?_⟩
        rw [always]
        rfl

theorem badUrlEnd_paren {tail : List Char} (plain : '\\' ∉ tail) (paren : ')' ∉ tail)
    (cs : List Char) : badUrlEnd (tail ++ ')' :: cs) = ')' :: cs := by
  induction tail with
  | nil => rfl
  | cons c tail ih =>
    rw [List.cons_append, badUrlEnd.eq_def]
    split
    · rename_i same
      cases same
    · rename_i same
      exact absurd (List.cons.inj same).1 (fun first => paren (by simp [first]))
    · rename_i same
      exact absurd (List.cons.inj same).1 (fun first => plain (by simp [first]))
    · rename_i same
      exact absurd (List.cons.inj same).1 (fun first => plain (by simp [first]))
    · rename_i same
      rw [← (List.cons.inj same).2]
      exact ih (fun member => plain (by simp [member])) (fun member => paren (by simp [member]))

/-- A bad url that ends at the last parenthesis has no other behind what makes it bad. -/
theorem not_mem_of_badUrlEnd {tail cs : List Char} (plain : '\\' ∉ tail)
    (ended : (badUrlEnd (tail ++ ')' :: cs)).drop 1 = cs) : ')' ∉ tail := by
  induction tail with
  | nil => simp
  | cons c tail ih =>
    have slash : c ≠ '\\' := fun same => plain (by simp [same])
    have paren : c ≠ ')' := by
      rintro rfl
      exact ne_of_suffix_tail List.suffix_rfl ended
    have skips : badUrlEnd (c :: (tail ++ ')' :: cs)) = badUrlEnd (tail ++ ')' :: cs) := by
      rw [badUrlEnd.eq_def]
      split
      · rename_i same
        cases same
      · rename_i same
        exact absurd (List.cons.inj same).1 paren
      · rename_i same
        exact absurd (List.cons.inj same).1 slash
      · rename_i same
        exact absurd (List.cons.inj same).1 slash
      · rename_i same
        rw [(List.cons.inj same).2]
    rw [List.cons_append, skips] at ended
    simpa [paren.symm] using ih (fun member => plain (by simp [member])) ended

theorem before_right (front cs : List Char) : before (front ++ cs) cs = front := by
  simp [before]

theorem urlToken?_eq_badUrl_iff {cs after : List Char} {u : String} :
    urlToken? cs = some (.badUrl u, after) ↔
      (∀ x ∈ (cs.dropWhile Text.isBlank).head?, x ≠ '"' ∧ x ≠ '\'') ∧
        ∃ left, urlBody (cs.dropWhile Text.isBlank) = (none, left) ∧
          String.ofList (before (cs.dropWhile Text.isBlank) (badUrlEnd left)) = u ∧
          (badUrlEnd left).drop 1 = after := by
  rw [urlToken?_eq_some_iff, unquotedUrl]
  refine and_congr_right fun _ => ?_
  split
  · rename_i found
    simp [found]
  · rename_i found
    simp [found]

theorem urlToken?_bad {body cs : List Char} {u : String} (plain : '\\' ∉ body)
    (scanned : urlToken? (body ++ ')' :: cs) = some (.badUrl u, cs)) (ds : List Char) :
    urlToken? (body ++ ')' :: ds) = some (.badUrl u, ds) := by
  have inside : '\\' ∉ body.dropWhile Text.isBlank :=
    fun member => plain ((List.dropWhile_sublist _).subset member)
  rw [urlToken?_eq_badUrl_iff, dropWhile_paren] at scanned ⊢
  obtain ⟨first, left, found, rfl, ended⟩ := scanned
  obtain ⟨tail, within, rfl, always⟩ := urlBody_bad inside found
  have plainTail : '\\' ∉ tail := fun member => inside (within member)
  have paren := not_mem_of_badUrlEnd plainTail ended
  refine ⟨?_, _, always ds, ?_, ?_⟩
  · cases left : body.dropWhile Text.isBlank with
    | nil => simp
    | cons x xs => simpa [left] using first
  · rw [badUrlEnd_paren plainTail paren, badUrlEnd_paren plainTail paren, before_right,
      before_right]
  · rw [badUrlEnd_paren plainTail paren]
    rfl

theorem urlToken?_cut (visible : ∃ x ∈ v, Text.isBlank x = false)
    (quoted : urlToken? (v ++ more) = none) : urlToken? (v ++ rest) = none := by
  obtain ⟨x, member, solid⟩ := visible
  have some : v.dropWhile Text.isBlank ≠ [] := by
    intro none
    rw [List.dropWhile_eq_nil_iff] at none
    simp [none x member] at solid
  obtain ⟨y, ys, same⟩ := List.exists_cons_of_ne_nil some
  have dropped : ∀ cs, (v ++ cs).dropWhile Text.isBlank = y :: (ys ++ cs) := by
    intro cs
    rw [List.dropWhile_append, same]
    rfl
  obtain ⟨q, left, first, quote⟩ := urlToken?_eq_none_iff.1 quoted
  obtain ⟨rfl, _⟩ := List.cons.inj ((dropped more).symm.trans first)
  exact urlToken?_eq_none_iff.2 ⟨y, ys ++ rest, dropped rest, quote⟩

theorem identLike_paren {cs s after : List Char} (named : name cs = (s, '(' :: after)) :
    identLike cs =
      if Text.sameName (String.ofList s) "url" then
        (urlToken? after).getD (.function (String.ofList s), after)
      else (.function (String.ofList s), after) := by
  unfold identLike
  rw [named]
  rfl

theorem identLike_other {cs s after : List Char} (named : name cs = (s, after))
    (other : after.head? ≠ some '(') : identLike cs = (.ident (String.ofList s), after) := by
  unfold identLike
  rw [named]
  simp only
  split
  · exact absurd rfl other
  · rfl

/-- A name before a parenthesis is a call or an url, and any other name is an identifier. -/
theorem identLike_cases (cs : List Char) :
    (∃ s left, name cs = (s, '(' :: left) ∧
      (identLike cs = (.function (String.ofList s), left) ∧
          (Text.sameName (String.ofList s) "url" → urlToken? left = none) ∨
        urlToken? left = some (identLike cs))) ∨
    identLike cs = (.ident (String.ofList (name cs).1), (name cs).2) := by
  by_cases paren : (name cs).2.head? = some '('
  · obtain ⟨left, same⟩ := List.head?_eq_some_iff.1 paren
    have named : name cs = ((name cs).1, '(' :: left) := Prod.ext rfl same
    refine .inl ⟨_, left, named, ?_⟩
    rw [identLike_paren named]
    split_ifs with url
    · cases found : urlToken? left with
      | none => exact .inl ⟨rfl, fun _ => rfl⟩
      | some result => exact .inr rfl
    · exact .inl ⟨rfl, fun same => absurd same url⟩
  · exact .inr (identLike_other rfl paren)

theorem identLike_suffix_paren {cs s after : List Char} (named : name cs = (s, '(' :: after)) :
    (identLike cs).2 <:+ after := by
  rw [identLike_paren named]
  split
  · cases found : urlToken? after with
    | none => exact List.suffix_rfl
    | some result => exact urlToken?_suffix found
  · exact List.suffix_rfl

theorem identLike_suffix (cs : List Char) : (identLike cs).2 <:+ (name cs).2 := by
  by_cases paren : (name cs).2.head? = some '('
  · obtain ⟨after, same⟩ := List.head?_eq_some_iff.1 paren
    rw [same]
    exact (identLike_suffix_paren (Prod.ext rfl same)).trans (List.suffix_cons _ _)
  · have same : (identLike cs).2 = (name cs).2 := by
      rw [identLike_other (s := (name cs).1) rfl paren]
    exact same ▸ List.suffix_rfl

theorem urlToken?_token {cs after : List Char} {t : Token}
    (found : urlToken? cs = some (t, after)) :
    (∃ u, t = .url u) ∨ ∃ u, t = .badUrl u := by
  obtain ⟨_, read⟩ := urlToken?_eq_some_iff.1 found
  unfold unquotedUrl at read
  split at read <;> cases read
  · exact .inl ⟨_, rfl⟩
  · exact .inr ⟨_, rfl⟩

end Words

end Lexer

/-- A token with its text that is closed by its own last characters, if it has to be closed, and is
no mark of another language. -/
def Token.IsWhole (text : List Char) : Token → Prop
  | comment => ∃ body, text = '/' :: '*' :: (body ++ ['*', '/'])
  | string _ => ∃ quote body, text = quote :: (body ++ [quote])
  | url _ => ∃ body, text = body ++ [')']
  | badString _ => False
  | badUrl _ => False
  | cdo => False
  | cdc => False
  | _ => True

/-- A token with its text that is closed by its own last characters, if it has to be closed. -/
def Token.IsEnded (text : List Char) : Token → Prop
  | comment => ∃ body, text = '/' :: '*' :: (body ++ ['*', '/'])
  | string _ => ∃ quote body, text = quote :: (body ++ [quote])
  | url _ => ∃ body, text = body ++ [')']
  | badUrl _ => ∃ body, text = body ++ [')']
  | badString _ => False
  | _ => True

theorem Token.IsWhole.isEnded {t : Token} {text : List Char} (whole : t.IsWhole text) :
    t.IsEnded text := by
  cases t <;> first | exact whole | exact whole.elim

def Token.isQuoted : Token → Bool
  | string _ => true
  | url _ => true
  | badUrl _ => true
  | _ => false

namespace Lexer

section Tokens

variable {w v more rest : List Char}

theorem exists_closed {body u s : List Char}
    (named : name (body ++ [')'] ++ v ++ more) = (s, '(' :: (u ++ more)))
    (shorter : v ++ more <:+ u ++ more) :
    ∃ inside, u = inside ++ [')'] ++ v ∧ inside ⊆ body := by
  obtain ⟨inside, rfl⟩ := suffix_of_append_suffix shorter
  obtain ⟨front, whole⟩ := congrArg Prod.snd named ▸ name_suffix (body ++ [')'] ++ v ++ more)
  simp only [← List.append_assoc, ← List.cons_append, List.append_cancel_right_eq] at whole
  rcases List.eq_nil_or_concat inside with rfl | ⟨inside, c, rfl⟩
  · simp at whole
  · simp only [List.concat_eq_append, ← List.cons_append, ← List.append_assoc] at whole ⊢
    obtain ⟨same, last⟩ := List.append_inj' whole rfl
    rw [last]
    refine ⟨inside, rfl, fun x member => ?_⟩
    rw [← same]
    simp [member]

/-- An url that is closed before a part of a text is read before it, whatever stands after it. -/
theorem url_cut {t : Token} {u u' s : List Char} (ended : t.IsEnded u)
    (plain : t.isQuoted → '\\' ∉ u) (named : name (u ++ v ++ more) = (s, '(' :: (u' ++ more)))
    (found : urlToken? (u' ++ more) = some (t, v ++ more)) :
    urlToken? (u' ++ rest) = some (t, v ++ rest) := by
  have closed : (∃ body, u = body ++ [')']) ∧ '\\' ∉ u := by
    obtain ⟨url, rfl⟩ | ⟨url, rfl⟩ := urlToken?_token found
    · exact ⟨ended, plain rfl⟩
    · exact ⟨ended, plain rfl⟩
  obtain ⟨⟨body, rfl⟩, unescaped⟩ := closed
  obtain ⟨inside, rfl, outside⟩ := exists_closed named (urlToken?_suffix found)
  have plainInside : '\\' ∉ inside :=
    fun member => unescaped (List.mem_append_left _ (outside member))
  simp only [List.append_assoc, List.cons_append, List.nil_append] at found ⊢
  obtain ⟨url, rfl⟩ | ⟨url, rfl⟩ := urlToken?_token found
  · exact urlToken?_closed plainInside found _
  · exact urlToken?_bad plainInside found _

theorem identLike_cut {t : Token} {u : List Char} (clear : Clear (u ++ v) v more) (stops : Stops rest)
    (ended : t.IsEnded u) (plain : t.isQuoted → '\\' ∉ u)
    (visible : ∀ name, t = .function name → Text.sameName name "url" →
      ∃ x ∈ v, Text.isBlank x = false)
    (scanned : identLike (u ++ v ++ more) = (t, v ++ more)) :
    identLike (u ++ v ++ rest) = (t, v ++ rest) := by
  have shorter := congrArg Prod.snd scanned ▸ identLike_suffix (u ++ v ++ more)
  obtain ⟨u', left⟩ := exists_append_of_suffix shorter
  obtain ⟨s, named⟩ : ∃ s, name (u ++ v ++ more) = (s, u' ++ more) := ⟨_, Prod.ext rfl left⟩
  rw [left] at shorter
  have clearName : Clear (u ++ v) u' more := by
    refine ⟨clear.escapes.imp_right fun ⟨behind, last⟩ => ⟨?_, last⟩, clear.fresh⟩
    rintro rfl
    exact behind (List.suffix_nil.1 (suffix_of_append_suffix shorter))
  have cut := name_cut clearName stops named
  by_cases paren : (u' ++ more).head? = some '('
  · obtain _ | ⟨x, u'⟩ := u'
    · -- The parenthesis stands behind the cut, but then it has been passed.
      obtain ⟨after, rfl⟩ := List.head?_eq_some_iff.1 paren
      have inside := identLike_suffix_paren named
      rw [scanned] at inside
      exact absurd rfl (ne_of_suffix_tail inside)
    · obtain rfl : x = '(' := by simpa using paren
      rw [List.cons_append] at named cut
      rw [identLike_paren named] at scanned
      rw [identLike_paren cut]
      split_ifs at scanned ⊢ with call
      · cases found : urlToken? (u' ++ more) with
        | some result =>
          rw [found, Option.getD_some] at scanned
          subst scanned
          rw [url_cut ended plain named found]
          rfl
        | none =>
          rw [found] at scanned
          obtain ⟨rfl, same⟩ := Prod.mk.inj scanned
          rw [List.append_cancel_right_eq] at same
          subst same
          rw [urlToken?_cut (visible _ rfl call) found]
          rfl
      · exact pair_cut scanned rest
  · have other : (u' ++ rest).head? ≠ some '(' := stops.head?_ne_append (by decide) paren
    rw [identLike_other named paren] at scanned
    rw [identLike_other cut other]
    exact pair_cut scanned rest

/-- The first characters of the tokens that are more than one sign and no name. -/
def marks : List (List Char) :=
  ["-->".toList, "<!--".toList, "/*".toList]

def StartsMark (cs : List Char) : Prop :=
  ∃ mark ∈ marks, mark <+: cs

def signs : List Char :=
  ['"', '\'', '#', '@', '$', '*', '^', '|', '~', '(', ')', '[', ']', '\x7b', '\x7d', ',', ':', ';']

def signToken (c : Char) (cs : List Char) : Token × List Char :=
  match c with
  | '"' => stringToken '"' cs
  | '\'' => stringToken '\'' cs
  | '#' => hashToken cs
  | '@' =>
    if startsName cs then (.atKeyword (String.ofList (name cs).1), (name cs).2)
    else (.delim '@', cs)
  | '$' => matchToken '$' .endMatch cs
  | '*' => matchToken '*' .substringMatch cs
  | '^' => matchToken '^' .startMatch cs
  | '|' => matchToken '|' .dashMatch cs
  | '~' => matchToken '~' .includeMatch cs
  | '(' => (.openParen, cs)
  | ')' => (.closeParen, cs)
  | '[' => (.openSquare, cs)
  | ']' => (.closeSquare, cs)
  | '\x7b' => (.openCurly, cs)
  | '\x7d' => (.closeCurly, cs)
  | ',' => (.comma, cs)
  | ':' => (.colon, cs)
  | ';' => (.semicolon, cs)
  | c => (.delim c, cs)

def otherToken (c : Char) (cs : List Char) : Token × List Char :=
  if startsName (c :: cs) then identLike (c :: cs) else (.delim c, cs)

theorem scan_of_blank {c : Char} (blank : Text.isBlank c) (cs : List Char) :
    scan c cs = (.whitespace, cs.dropWhile Text.isBlank) := by
  unfold scan
  rw [if_pos blank]

theorem scan_of_number {c : Char} {cs : List Char} (number : startsNumber (c :: cs)) :
    scan c cs = numericToken (c :: cs) := by
  have solid : Text.isBlank c = false := by
    by_contra blank
    simp only [Bool.not_eq_false, Text.isBlank, Bool.or_eq_true, beq_iff_eq] at blank
    rcases blank with (((rfl | rfl) | rfl) | rfl) | rfl <;>
      simp [startsNumber, startsDigits] at number
  unfold scan
  rw [if_neg (by simp [solid]), if_pos number]

section Scan

variable {c : Char} {cs : List Char} (blank : Text.isBlank c = false)
  (number : startsNumber (c :: cs) = false) (mark : ¬ StartsMark (c :: cs))

include blank number mark

theorem scan_of_sign (sign : c ∈ signs) : scan c cs = signToken c cs := by
  unfold scan
  rw [if_neg (by simp [blank]), if_neg (by simp [number])]
  simp only [signs, List.mem_cons, List.not_mem_nil, or_false] at sign
  rcases sign with rfl | rfl | rfl | rfl | rfl | rfl | rfl | rfl | rfl | rfl | rfl | rfl | rfl |
    rfl | rfl | rfl | rfl | rfl <;> rfl

theorem scan_of_other (other : c ∉ signs) : scan c cs = otherToken c cs := by
  unfold scan otherToken
  rw [if_neg (by simp [blank]), if_neg (by simp [number])]
  split
  · exact absurd ⟨"-->".toList, by simp [marks], List.prefix_append _ _⟩ mark
  · exact absurd ⟨"<!--".toList, by simp [marks], List.prefix_append _ _⟩ mark
  · exact absurd ⟨"/*".toList, by simp [marks], List.prefix_append _ _⟩ mark
  all_goals first | rfl | exact absurd (by simp [signs]) other

end Scan

theorem startsMark_cut {c : Char} (stops : Stops rest) (starts : StartsMark (c :: w ++ rest)) :
    StartsMark (c :: w ++ more) := by
  obtain ⟨mark, known, after, same⟩ := starts
  refine ⟨mark, known, ?_⟩
  rcases List.append_eq_append_iff.1 same with ⟨b, inside, _⟩ | ⟨b, inside, left⟩
  · rw [inside, List.append_assoc]
    exact List.prefix_append _ _
  obtain _ | ⟨x, b⟩ := b
  · rw [inside, List.append_nil]
    exact List.prefix_append _ _
  -- No character of a mark but the first can end a word.
  have late : x ∈ mark.tail := by simp [inside]
  have stop := stops x (by simp [left])
  simp only [marks, List.mem_cons, List.not_mem_nil, or_false] at known
  rcases known with rfl | rfl | rfl <;> rcases stop with rfl | rfl | rfl | rfl | rfl | rfl <;>
    exact absurd late (by decide)

theorem scan_comment (cs : List Char) : scan '/' ('*' :: cs) = (.comment, commentEnd cs) :=
  rfl

theorem scan_cdc (cs : List Char) : scan '-' ('-' :: '>' :: cs) = (.cdc, cs) :=
  rfl

theorem scan_cdo (cs : List Char) : scan '<' ('!' :: '-' :: '-' :: cs) = (.cdo, cs) :=
  rfl

theorem mark_cut {c : Char} {t : Token} {u : List Char} (ended : t.IsEnded (c :: u))
    (starts : StartsMark (c :: (u ++ v ++ more)))
    (scanned : scan c (u ++ v ++ more) = (t, v ++ more)) :
    scan c (u ++ v ++ rest) = (t, v ++ rest) := by
  obtain ⟨mark, known, after, same⟩ := starts
  simp only [marks, List.mem_cons, List.not_mem_nil, or_false] at known
  rcases known with rfl | rfl | rfl
  · obtain ⟨first, tail⟩ := List.cons.inj same
    obtain rfl : '-' = c := first
    have tail' : u ++ v ++ more = '-' :: '>' :: after := tail.symm
    rw [tail', scan_cdc] at scanned
    obtain ⟨rfl, rfl⟩ := Prod.mk.inj scanned
    have text : u = ['-', '>'] := by
      rw [List.append_assoc] at tail'
      exact (List.append_left_inj (v ++ more)).1 tail'
    rw [text]
    exact scan_cdc _
  · obtain ⟨first, tail⟩ := List.cons.inj same
    obtain rfl : '<' = c := first
    have tail' : u ++ v ++ more = '!' :: '-' :: '-' :: after := tail.symm
    rw [tail', scan_cdo] at scanned
    obtain ⟨rfl, rfl⟩ := Prod.mk.inj scanned
    have text : u = ['!', '-', '-'] := by
      rw [List.append_assoc] at tail'
      exact (List.append_left_inj (v ++ more)).1 tail'
    rw [text]
    exact scan_cdo _
  · obtain ⟨first, tail⟩ := List.cons.inj same
    obtain rfl : '/' = c := first
    have comment : t = .comment := by
      rw [← tail] at scanned
      exact (Prod.mk.inj scanned).1.symm
    subst comment
    obtain ⟨body, text⟩ := ended
    obtain ⟨_, rfl⟩ := List.cons.inj text
    simp only [List.cons_append, List.append_assoc, List.nil_append, scan_comment,
      Prod.mk.injEq, true_and] at scanned ⊢
    exact commentEnd_closed scanned _

theorem stringToken_cut {quote : Char} {t : Token} {u : List Char}
    (ended : t.IsEnded (quote :: u)) (plain : t.isQuoted → '\\' ∉ quote :: u)
    (scanned : stringToken quote (u ++ v ++ more) = (t, v ++ more)) :
    stringToken quote (u ++ v ++ rest) = (t, v ++ rest) := by
  obtain ⟨s, closed, after⟩ :
      ∃ s closed, string quote (u ++ v ++ more) = (s, closed, v ++ more) := by
    unfold stringToken at scanned
    exact ⟨_, _, Prod.ext rfl (Prod.ext rfl (Prod.mk.inj scanned).2)⟩
  unfold stringToken at scanned ⊢
  rw [after] at scanned
  cases closed with
  | false =>
    cases (Prod.mk.inj scanned).1
    exact ended.elim
  | true =>
    cases (Prod.mk.inj scanned).1
    obtain ⟨quote', body, text⟩ := ended
    obtain ⟨rfl, rfl⟩ := List.cons.inj text
    have unescaped := plain rfl
    rw [List.append_assoc, List.append_assoc, List.singleton_append] at after ⊢
    rw [string_closed (fun member => unescaped (by simp [member])) after]

theorem signToken_cut {c : Char} {t : Token} {u : List Char} (sign : c ∈ signs)
    (clear : Clear (u ++ v) v more) (stops : Stops rest)
    (ended : t.IsEnded (c :: u)) (plain : t.isQuoted → '\\' ∉ c :: u)
    (scanned : signToken c (u ++ v ++ more) = (t, v ++ more)) :
    signToken c (u ++ v ++ rest) = (t, v ++ rest) := by
  simp only [signs, List.mem_cons, List.not_mem_nil, or_false] at sign
  rcases sign with rfl | rfl | rfl | rfl | rfl | rfl | rfl | rfl | rfl | rfl | rfl | rfl | rfl |
    rfl | rfl | rfl | rfl | rfl
  · exact stringToken_cut ended plain scanned
  · exact stringToken_cut ended plain scanned
  · exact hashToken_cut clear stops scanned
  · have inside : startsName (u ++ v ++ more) → v ++ more <:+ (name (u ++ v ++ more)).2 := by
      intro starts
      simp only [signToken, starts, if_true] at scanned
      exact (Prod.mk.inj scanned).2 ▸ List.suffix_rfl
    simp only [signToken, startsName_cut clear stops inside] at scanned ⊢
    split_ifs at scanned ⊢ with starts
    · obtain ⟨rfl, left⟩ := Prod.mk.inj scanned
      rw [name_cut clear stops (Prod.ext rfl left)]
    · exact pair_cut scanned rest
  · exact matchToken_cut stops scanned
  · exact matchToken_cut stops scanned
  · exact matchToken_cut stops scanned
  · exact matchToken_cut stops scanned
  · exact matchToken_cut stops scanned
  all_goals exact pair_cut scanned rest

theorem blank_cut {c : Char} {t : Token} {u : List Char} (white : Text.isBlank c)
    (blank : t = .whitespace → v = [] → ∀ x ∈ rest.head?, Text.isBlank x = false)
    (scanned : scan c (u ++ v ++ more) = (t, v ++ more)) :
    scan c (u ++ v ++ rest) = (t, v ++ rest) := by
  rw [scan_of_blank white] at scanned ⊢
  obtain ⟨rfl, left⟩ := Prod.mk.inj scanned
  have whole := List.takeWhile_append_dropWhile (p := Text.isBlank) (l := u ++ v ++ more)
  rw [left, List.append_assoc, List.append_cancel_right_eq] at whole
  have blanks : ∀ x ∈ u, Text.isBlank x := fun x member =>
    List.mem_takeWhile_imp (whole ▸ member)
  have solid : ∀ x ∈ (v ++ rest).head?, Text.isBlank x = false := by
    obtain _ | ⟨x, v⟩ := v
    · exact blank rfl rfl
    · have stop := List.head?_dropWhile_not Text.isBlank (u ++ x :: v ++ more)
      rw [left] at stop
      simpa using stop
  rw [List.append_assoc, List.dropWhile_append_of_pos blanks, (span_of_stop solid).2]

theorem otherToken_cut {c : Char} {t : Token} {u : List Char}
    (clear : Clear (c :: (u ++ v)) v more) (stops : Stops rest) (ended : t.IsEnded (c :: u))
    (plain : t.isQuoted → '\\' ∉ c :: u)
    (visible : ∀ name, t = .function name → Text.sameName name "url" →
      ∃ x ∈ v, Text.isBlank x = false)
    (scanned : otherToken c (u ++ v ++ more) = (t, v ++ more)) :
    otherToken c (u ++ v ++ rest) = (t, v ++ rest) := by
  unfold otherToken at scanned ⊢
  have inside : startsName (c :: (u ++ v) ++ more) →
      v ++ more <:+ (name (c :: (u ++ v) ++ more)).2 := by
    intro starts
    have left := identLike_suffix (c :: (u ++ v ++ more))
    rw [List.cons_append] at starts
    rw [if_pos starts] at scanned
    rwa [scanned] at left
  have sameName := startsName_cut clear stops inside
  rw [List.cons_append, List.cons_append] at sameName
  rw [sameName]
  split_ifs at scanned ⊢ with starts
  · exact identLike_cut (u := c :: u) clear stops ended plain visible scanned
  · exact pair_cut scanned rest

/-- What has ended before a part of a text is scanned before it, whatever stands after the part, if
everything stops there. -/
theorem scan_cut {c : Char} {t : Token} {u : List Char} (clear : Clear (c :: (u ++ v)) v more)
    (stops : Stops rest) (ended : t.IsEnded (c :: u))
    (plain : t.isQuoted → '\\' ∉ c :: u)
    (blank : t = .whitespace → v = [] → ∀ x ∈ rest.head?, Text.isBlank x = false)
    (visible : ∀ name, t = .function name → Text.sameName name "url" →
      ∃ x ∈ v, Text.isBlank x = false)
    (scanned : scan c (u ++ v ++ more) = (t, v ++ more)) :
    scan c (u ++ v ++ rest) = (t, v ++ rest) := by
  by_cases white : Text.isBlank c
  · exact blank_cut white blank scanned
  have solid : Text.isBlank c = false := by simpa using white
  have sameNumber :
      startsNumber (c :: (u ++ v ++ rest)) = startsNumber (c :: (u ++ v ++ more)) := by
    apply startsNumber_cut (v := v) stops
    intro number
    have same : scan c (u ++ v ++ more) = _ := scan_of_number number
    rw [scanned] at same
    exact congrArg Prod.snd same
  by_cases number : startsNumber (c :: (u ++ v ++ more))
  · rw [scan_of_number number] at scanned
    rw [scan_of_number (sameNumber.trans number)]
    exact numericToken_cut clear stops scanned
  have none : startsNumber (c :: (u ++ v ++ more)) = false := by simpa using number
  by_cases mark : StartsMark (c :: (u ++ v ++ more))
  · exact mark_cut ended mark scanned
  have cutMark : ¬ StartsMark (c :: (u ++ v ++ rest)) :=
    fun starts => mark (startsMark_cut stops starts)
  by_cases sign : c ∈ signs
  · rw [scan_of_sign solid none mark sign] at scanned
    rw [scan_of_sign solid (sameNumber.trans none) cutMark sign]
    exact signToken_cut sign clear.tail stops ended plain scanned
  rw [scan_of_other solid none mark sign] at scanned
  rw [scan_of_other solid (sameNumber.trans none) cutMark sign]
  exact otherToken_cut clear stops ended plain visible scanned

end Tokens

end Lexer

end CssOutline
