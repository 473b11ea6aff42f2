import CssOutline.Proofs.MathSlices

/-! Places of lexemes. No token ends between a carriage return and the line feed after it, so every
lexeme starts at the place after the text in front of it, and behind all lexemes before it. -/

namespace CssOutline

namespace Text

/-- No line end goes from one text over into the other. -/
def Apart (front rest : List Char) : Prop :=
  front.getLast? = some '\r' → rest.head? ≠ some '\n'

/-- What is left of a text behind a part of it that does not end within a line end. -/
def Leaves (cs rest : List Char) : Prop :=
  ∃ front, cs = front ++ rest ∧ Apart front rest

section Leaves

variable {c : Char} {cs mid rest : List Char}

theorem Apart.left {front more : List Char} (apart : Apart front (rest ++ more)) :
    Apart front rest := by
  intro last first
  apply apart last
  rw [List.head?_append, first]
  rfl

theorem Apart.tail {front : List Char} (apart : Apart (c :: front) rest) : Apart front rest := by
  intro last
  apply apart
  rw [List.getLast?_cons, last]
  rfl

theorem Leaves.refl (cs : List Char) : Leaves cs cs :=
  ⟨[], rfl, by simp [Apart]⟩

theorem Leaves.trans (first : Leaves cs mid) (second : Leaves mid rest) : Leaves cs rest := by
  obtain ⟨front, rfl, apart⟩ := first
  obtain ⟨behind, rfl, later⟩ := second
  refine ⟨front ++ behind, by simp, ?_⟩
  rcases List.eq_nil_or_concat behind with rfl | ⟨behind, c, rfl⟩
  · simpa using apart
  · simpa [Apart] using later

theorem Leaves.cons (other : c ≠ '\r') (cs : List Char) : Leaves (c :: cs) cs :=
  ⟨[c], rfl, by simp [Apart, other]⟩

theorem Leaves.of_suffix (suffix : rest <:+ cs) (other : rest.head? ≠ some '\n') :
    Leaves cs rest := by
  obtain ⟨front, rfl⟩ := suffix
  exact ⟨front, rfl, fun _ => other⟩

theorem Leaves.of_forall {front : List Char} (other : ∀ c ∈ front, c ≠ '\r') (rest : List Char) :
    Leaves (front ++ rest) rest :=
  ⟨front, rfl, fun last => absurd rfl (other _ (List.mem_of_getLast? last))⟩

theorem leaves_dropWhile {p : Char → Bool} (other : p '\r' = false) (cs : List Char) :
    Leaves cs (cs.dropWhile p) := by
  have taken : ∀ c ∈ cs.takeWhile p, c ≠ '\r' := by
    rintro c member rfl
    simp [List.mem_takeWhile_imp member] at other
  have leaves := Leaves.of_forall taken (cs.dropWhile p)
  rwa [List.takeWhile_append_dropWhile] at leaves

theorem leaves_dropBlanks (cs : List Char) : Leaves cs (cs.dropWhile isBlank) := by
  refine .of_suffix (List.dropWhile_suffix _) fun first => ?_
  have stop := List.head?_dropWhile_not isBlank cs
  rw [first] at stop
  exact absurd stop (by decide)

end Leaves

end Text

namespace Lexer

open Text (Leaves leaves_dropWhile leaves_dropBlanks)

section Names

variable {c : Char} {cs rest : List Char}

theorem ne_return {p : Char → Bool} (none : p '\r' = false) (holds : p c) : c ≠ '\r' := by
  rintro rfl
  rw [none] at holds
  cases holds

theorem leaves_dropBlank (cs : List Char) : Leaves cs (dropBlank cs) := by
  unfold dropBlank
  split
  · exact ⟨['\r', '\n'], rfl, by simp [Text.Apart]⟩
  · rename_i c cs other
    split
    · refine ⟨[c], rfl, fun last first => ?_⟩
      obtain rfl : c = '\r' := by simpa using last
      obtain ⟨cs, rfl⟩ := List.head?_eq_some_iff.1 first
      exact other cs rfl rfl
    · exact .refl _
  · exact .refl _

theorem leaves_escape (other : startsNewline cs = false) : Leaves cs (escape cs).2 := by
  unfold escape
  split
  · exact .refl _
  · rename_i c cs
    split
    · refine .cons ?_ cs
      rintro rfl
      cases other
    · rename_i ds _ same
      have digits : ∀ d ∈ (c :: cs).take (((c :: cs).take 6).takeWhile isHexDigit).length,
          d ≠ '\r' := by
        intro d member
        have front : (c :: cs).take (((c :: cs).take 6).takeWhile isHexDigit).length =
            ((c :: cs).take 6).takeWhile isHexDigit :=
          (List.prefix_iff_eq_take.1
            ((List.takeWhile_prefix _).trans (List.take_prefix 6 (c :: cs)))).symm
        rw [front] at member
        exact ne_return (by decide) (List.mem_takeWhile_imp member)
      have leaves := Leaves.of_forall digits
        ((c :: cs).drop (((c :: cs).take 6).takeWhile isHexDigit).length)
      rw [List.take_append_drop] at leaves
      exact leaves.trans (leaves_dropBlank _)

theorem leaves_name (cs : List Char) : Leaves cs (name cs).2 := by
  fun_induction name cs with
  | case1 => exact .refl _
  | case2 => exact .refl _
  | case3 rest plain _ _ after same ih =>
    rw [same] at ih
    exact (Leaves.cons (by decide) rest).trans
      ((leaves_escape (by simpa using plain)).trans ih)
  | case4 c rest _ part _ after same ih =>
    rw [same] at ih
    exact (Leaves.cons (ne_return (by decide) part) rest).trans ih
  | case5 => exact .refl _

theorem leaves_takeSign (cs : List Char) : Leaves cs (Number.takeSign cs).2 := by
  unfold Number.takeSign
  split
  · exact .cons (by decide) _
  · exact .cons (by decide) _
  · exact .refl _

theorem leaves_fraction? (cs : List Char) : Leaves cs (fraction? cs).2 := by
  unfold fraction?
  split
  · split
    · exact .refl _
    · exact (Leaves.cons (by decide) _).trans (leaves_dropWhile (by decide) _)
  · exact .refl _

theorem leaves_exponent? (cs : List Char) : Leaves cs (exponent? cs).2 := by
  unfold exponent?
  split
  · exact .refl _
  · split
    · rename_i c cs mark
      have other : c ≠ '\r' := by
        rcases mark with rfl | rfl <;> decide
      split
      · exact .refl _
      · exact (Leaves.cons other _).trans
          ((leaves_takeSign _).trans (leaves_dropWhile (by decide) _))
    · exact .refl _

theorem leaves_numericToken (cs : List Char) : Leaves cs (numericToken cs).2 := by
  have number : Leaves cs
      (exponent? (fraction? ((Number.takeSign cs).2.dropWhile Char.isDigit)).2).2 :=
    (leaves_takeSign cs).trans ((leaves_dropWhile (by decide) _).trans
      ((leaves_fraction? _).trans (leaves_exponent? _)))
  unfold numericToken
  simp only
  split
  · rename_i after same
    rw [same] at number
    exact number.trans (.cons (by decide) after)
  · split
    · exact number.trans (leaves_name _)
    · exact number

end Names

section Quoted

variable {quote : Char} {cs rest : List Char}

theorem ne_return_of_newline {c : Char} (plain : ¬Text.isNewline c) : c ≠ '\r' := by
  rintro rfl
  exact plain (by decide)

theorem leaves_string (other : quote ≠ '\r') (cs : List Char) :
    Leaves cs (string quote cs).2.2 := by
  fun_induction string quote cs with
  | case1 => exact .refl _
  | case2 rest => exact .cons other rest
  | case3 => exact .refl _
  | case4 => exact .of_suffix List.nil_suffix (by simp)
  | case5 rest _ _ _ _ _ ih =>
    exact (Leaves.cons (by decide) rest).trans ((leaves_dropBlank rest).trans ih)
  | case6 rest _ plain _ s whole after same _ _ ih =>
    rw [same] at ih
    exact (Leaves.cons (by decide) rest).trans ((leaves_escape (by simpa using plain)).trans ih)
  | case7 c rest _ plain _ s whole after same ih =>
    rw [same] at ih
    exact (Leaves.cons (ne_return_of_newline plain) rest).trans ih

theorem ne_return_of_blank {c : Char} (plain : ¬Text.isBlank c) : c ≠ '\r' := by
  rintro rfl
  exact plain (by decide)

theorem leaves_urlBody (cs : List Char) : Leaves cs (urlBody cs).2 := by
  fun_induction urlBody cs with
  | case1 => exact .refl _
  | case2 => exact .of_suffix List.nil_suffix (by simp)
  | case3 c rest blank after same =>
    have blanks := leaves_dropBlanks (c :: rest)
    rw [List.dropWhile_cons_of_pos blank, same] at blanks
    exact blanks.trans (.cons (by decide) after)
  | case4 c rest blank d after _ same =>
    have blanks := leaves_dropBlanks (c :: rest)
    rw [List.dropWhile_cons_of_pos blank, same] at blanks
    have solid : ¬Text.isBlank d := by
      have stop := List.head?_dropWhile_not Text.isBlank rest
      simpa [same] using stop
    exact blanks.trans (.cons (ne_return_of_blank solid) after)
  | case5 => exact .cons (by decide) _
  | case6 c rest _ _ breaks => exact .cons (ne_return (by decide) breaks) rest
  | case7 rest => exact .cons (by decide) rest
  | case8 rest plain _ u after same _ _ _ ih =>
    rw [same] at ih
    exact (Leaves.cons (by decide) rest).trans ((leaves_escape (by simpa using plain)).trans ih)
  | case9 c rest solid _ _ _ u after same ih =>
    rw [same] at ih
    exact (Leaves.cons (ne_return_of_blank solid) rest).trans ih

theorem head?_badUrlEnd (cs : List Char) : ∀ c ∈ (badUrlEnd cs).head?, c = ')' := by
  fun_induction badUrlEnd cs <;> simp_all

theorem leaves_urlToken? {after : List Char} {t : Token} (found : urlToken? cs = some (t, after)) :
    Leaves cs after := by
  obtain ⟨_, read⟩ := urlToken?_eq_some_iff.1 found
  refine (leaves_dropBlanks cs).trans ?_
  have body := leaves_urlBody (cs.dropWhile Text.isBlank)
  unfold unquotedUrl at read
  split at read
  · rename_i u after' same
    rw [same] at body
    cases read
    exact body
  · rename_i after' same
    rw [same] at body
    cases read
    have stops := head?_badUrlEnd after'
    have stop : Leaves after' (badUrlEnd after') := by
      refine .of_suffix (badUrlEnd_suffix after') fun first => ?_
      exact absurd (stops _ first) (by decide)
    refine body.trans (stop.trans ?_)
    cases left : badUrlEnd after' with
    | nil => exact .refl _
    | cons c cs =>
      rw [left] at stops
      obtain rfl := stops c rfl
      exact .cons (by decide) cs

end Quoted

section Scan

variable {c : Char} {cs rest : List Char}

theorem leaves_commentEnd (cs : List Char) : Leaves cs (commentEnd cs) := by
  rcases commentEnd_cases cs with none | ⟨body, same⟩
  · rw [none]
    exact .of_suffix List.nil_suffix (by simp)
  · exact ⟨body ++ ['*', '/'], by simpa using same, by simp [Text.Apart]⟩

theorem leaves_identLike (cs : List Char) : Leaves cs (identLike cs).2 := by
  have named := leaves_name cs
  unfold identLike
  simp only
  split
  · rename_i after same
    rw [same] at named
    have inside := named.trans (.cons (by decide) after)
    split
    · cases found : urlToken? after with
      | none => exact inside
      | some read => exact inside.trans (leaves_urlToken? found)
    · exact inside
  · exact named

theorem leaves_hashToken (cs : List Char) : Leaves cs (hashToken cs).2 := by
  unfold hashToken
  split
  · exact leaves_name cs
  · split
    · split
      · exact leaves_name _
      · exact .refl _
    · exact .refl _

theorem leaves_matchToken (c : Char) (t : Token) (cs : List Char) :
    Leaves cs (matchToken c t cs).2 := by
  unfold matchToken
  split
  · exact .cons (by decide) _
  · exact .refl _

theorem leaves_scan (c : Char) (rest : List Char) : Leaves (c :: rest) (scan c rest).2 := by
  by_cases blank : Text.isBlank c
  · have blanks := leaves_dropBlanks (c :: rest)
    rw [List.dropWhile_cons_of_pos blank] at blanks
    rwa [scan_of_blank blank]
  have first := Leaves.cons (ne_return_of_blank blank) rest
  unfold scan
  rw [if_neg blank]
  split
  · exact leaves_numericToken _
  · split
    · exact first.trans ((Leaves.cons (by decide) _).trans (.cons (by decide) _))
    · exact first.trans ((Leaves.cons (by decide) _).trans
        ((Leaves.cons (by decide) _).trans (.cons (by decide) _)))
    · exact first.trans ((Leaves.cons (by decide) _).trans (leaves_commentEnd _))
    · exact first.trans (leaves_string (by decide) _)
    · exact first.trans (leaves_string (by decide) _)
    · exact first.trans (leaves_hashToken _)
    · split
      · exact first.trans (leaves_name _)
      · exact first
    · exact first.trans (leaves_matchToken _ _ _)
    · exact first.trans (leaves_matchToken _ _ _)
    · exact first.trans (leaves_matchToken _ _ _)
    · exact first.trans (leaves_matchToken _ _ _)
    · exact first.trans (leaves_matchToken _ _ _)
    · exact first
    · exact first
    · exact first
    · exact first
    · exact first
    · exact first
    · exact first
    · exact first
    · exact first
    · split
      · exact leaves_identLike _
      · exact first

end Scan

end Lexer

/-- Earlier lines come first, and earlier columns of the same line. -/
instance : LT Location :=
  ⟨fun a b => a.line < b.line ∨ a.line = b.line ∧ a.column < b.column⟩

namespace Location

variable {l m : Location}

theorem lt_iff : l < m ↔ l.line < m.line ∨ l.line = m.line ∧ l.column < m.column :=
  Iff.rfl

theorem lt_trans {n : Location} (first : l < m) (second : m < n) : l < n := by
  rw [lt_iff] at *
  omega

theorem units_pos (c : Char) : 0 < units c := by
  unfold units
  split <;> decide

/-- The place after a text that is not empty lies behind the place before it. -/
theorem lt_advance {cs : List Char} (some : cs ≠ []) : l < l.advance cs := by
  have newline : ∀ m : Location, m < ⟨m.line + 1, 1⟩ := fun m => .inl (Nat.lt_succ_self _)
  have next : ∀ (m : Location) (c : Char), m < ⟨m.line, m.column + units c⟩ :=
    fun m c => .inr ⟨rfl, Nat.lt_add_of_pos_right (units_pos c)⟩
  have go : ∀ {m n : Location} {rest : List Char}, m < n → (rest ≠ [] → n < n.advance rest) →
      m < n.advance rest := by
    intro m n rest step later
    by_cases none : rest = []
    · rw [none, advance]
      exact step
    · exact lt_trans step (later none)
  fun_induction advance l cs with
  | case1 => exact absurd rfl some
  | case2 l cs ih => exact go (newline l) ih
  | case3 l c cs _ _ ih => exact go (newline l) ih
  | case4 l c cs _ _ ih => exact go (next l c) ih

theorem advance_cons {c : Char} {cs : List Char} (plain : c = '\r' → cs.head? ≠ some '\n') :
    l.advance (c :: cs) =
      if Text.isNewline c then advance ⟨l.line + 1, 1⟩ cs
      else advance ⟨l.line, l.column + units c⟩ cs := by
  rw [advance.eq_def]
  split
  · rename_i none
    cases none
  · rename_i both
    obtain ⟨rfl, rfl⟩ := List.cons.inj both
    exact absurd rfl (plain rfl)
  · rename_i same
    obtain ⟨rfl, rfl⟩ := List.cons.inj same
    rfl

/-- The place after two texts, if no line end goes from one over into the other. -/
theorem advance_append {front rest : List Char} (apart : Text.Apart front rest) :
    l.advance (front ++ rest) = (l.advance front).advance rest := by
  have plain : ∀ {c : Char} {cs : List Char}, Text.Apart (c :: cs) rest →
      (∀ left, c = '\r' → cs = '\n' :: left → False) → c = '\r' →
      (cs ++ rest).head? ≠ some '\n' := by
    rintro c cs apart other rfl first
    cases cs with
    | nil => exact apart rfl first
    | cons d cs =>
      cases first
      exact other cs rfl rfl
  fun_induction advance l front with
  | case1 => rfl
  | case2 l cs ih => exact ih apart.tail.tail
  | case3 l c cs other newline ih =>
    rw [List.cons_append, advance_cons (plain apart other), if_pos newline, ih apart.tail]
  | case4 l c cs other newline ih =>
    rw [List.cons_append, advance_cons (plain apart other), if_neg newline, ih apart.tail]

end Location

namespace Lexer

theorem start_of_lexemesFrom {start : Location} {cs : List Char} (front : List Lexeme)
    {l : Lexeme} {rest : List Lexeme} (same : lexemesFrom start cs = front ++ l :: rest) :
    l.start = start.advance (front.flatMap Lexeme.text) := by
  fun_induction lexemesFrom start cs generalizing front with
  | case1 => simp at same
  | case2 start c cs _ text ih =>
    cases front with
    | nil =>
      obtain ⟨rfl, _⟩ := List.cons.inj same
      rfl
    | cons f front =>
      rw [List.cons_append, List.cons.injEq] at same
      obtain ⟨rfl, later⟩ := same
      have left := flatMap_text_lexemesFrom (start.advance text) (scan c cs).2
      rw [later, List.flatMap_append] at left
      obtain ⟨read, whole, apart⟩ := leaves_scan c cs
      have taken : text = read := by
        rw [← List.append_cancel_right_eq _ (scan c cs).2, ← whole]
        exact before_append ((scan_suffix c cs).trans (List.suffix_cons _ _))
      rw [← taken, ← left] at apart
      rw [ih front later, List.flatMap_cons, Location.advance_append apart.left]

theorem pairwise_start_lexemesFrom (start : Location) (cs : List Char) :
    (∀ l ∈ lexemesFrom start cs, l.start = start ∨ start < l.start) ∧
      ((lexemesFrom start cs).map Lexeme.start).Pairwise (· < ·) := by
  fun_induction lexemesFrom start cs with
  | case1 => simp
  | case2 start c cs _ text ih =>
    have some : text ≠ [] := text_ne_nil_of_mem_lexemesFrom start (c :: cs) ⟨_, text, start⟩ (by
      rw [lexemesFrom.eq_def]
      exact List.mem_cons_self)
    have behind : ∀ l ∈ lexemesFrom (start.advance text) (scan c cs).2, start < l.start := by
      intro l member
      have next := Location.lt_advance (l := start) some
      rcases ih.1 l member with same | later
      · rwa [same]
      · exact Location.lt_trans next later
    refine ⟨List.forall_mem_cons.2 ⟨.inl rfl, fun l member => .inr (behind l member)⟩, ?_⟩
    rw [List.map_cons, List.pairwise_cons]
    exact ⟨List.forall_mem_map.2 behind, ih.2⟩

end Lexer

end CssOutline
