import CssOutline.Proofs.PrintedNames
import Mathlib.Data.List.TakeWhile

/-! Names and numbers in a part of a text. What comes after them is looked at only to see that they
end there. So a name or a number that has ended before the rest of a text also ends before any other
rest at which everything stops, as long as no escape reaches up to where the text is cut. -/

namespace CssOutline

open Number (Format)

namespace Lexer

variable {w v more rest : List Char}

/-- A text that no name, number, mark or url before it goes on in. -/
def Stops (rest : List Char) : Prop :=
  ∀ x ∈ rest.head?, x = ' ' ∨ x = ',' ∨ x = ';' ∨ x = ')' ∨ x = '\x7d' ∨ x = '/'

theorem Stops.head (stops : Stops rest) {p : Char → Prop} (space : p ' ') (comma : p ',')
    (semicolon : p ';') (paren : p ')') (brace : p '\x7d') (slash : p '/') :
    ∀ x ∈ rest.head?, p x := by
  intro x head
  rcases stops x head with rfl | rfl | rfl | rfl | rfl | rfl <;> assumption

theorem Stops.head?_ne_append {c : Char} (stops : Stops rest)
    (other : c ∉ [' ', ',', ';', ')', '\x7d', '/']) (none : (w ++ more).head? ≠ some c) :
    (w ++ rest).head? ≠ some c := by
  obtain _ | ⟨x, w⟩ := w
  · intro head
    exact other (by simpa using stops c head)
  · simpa using none

theorem stops_of_endsWord (ends : Grammar.EndsWord rest) : Stops rest := by
  intro x head
  rcases ends x head with rfl | rfl | rfl | rfl <;> simp

/-- No escape in the part `w` of a text reaches up to its end, where `v` is left of it, and no name
in it goes on with an escape in the rest `more`. -/
structure Clear (w v more : List Char) : Prop where
  escapes : '\\' ∉ w ∨ v ≠ [] ∧ w.getLast? ≠ some '\\'
  fresh : w.getLast? = some '-' → more.head? ≠ some '\\'

theorem Clear.suffix {u : List Char} (clear : Clear w v more) (shorter : u <:+ w) :
    Clear u v more := by
  obtain ⟨front, rfl⟩ := shorter
  obtain _ | ⟨x, xs⟩ := u
  · exact ⟨.inl (by simp), by simp⟩
  · have last : (front ++ x :: xs).getLast? = (x :: xs).getLast? :=
      List.getLast?_append_of_ne_nil _ (by simp)
    refine ⟨?_, last ▸ clear.fresh⟩
    exact clear.escapes.imp (fun plain member => plain (List.mem_append_right _ member))
      (fun ⟨left, slash⟩ => ⟨left, last ▸ slash⟩)

theorem Clear.tail {c : Char} (clear : Clear (c :: w) v more) : Clear w v more :=
  clear.suffix (List.suffix_cons c w)

theorem Clear.slash (clear : Clear ('\\' :: w) v more) : v ≠ [] ∧ w ≠ [] := by
  rcases clear.escapes with plain | ⟨left, last⟩
  · simp at plain
  · refine ⟨left, ?_⟩
    rintro rfl
    simp at last

theorem eq_nil_of_append_suffix {α : Type} {v more : List α} (shorter : v ++ more <:+ more) :
    v = [] := by
  have length := shorter.length_le
  simp only [List.length_append] at length
  exact List.eq_nil_of_length_eq_zero (by omega)

theorem suffix_of_append_suffix {u : List Char} (shorter : v ++ more <:+ u ++ more) : v <:+ u := by
  obtain ⟨front, same⟩ := shorter
  rw [← List.append_assoc, List.append_cancel_right_eq] at same
  exact ⟨front, same⟩

theorem ne_of_suffix_tail {c : Char} {cs ds : List Char} (shorter : ds <:+ cs) :
    v ++ c :: cs ≠ ds := by
  rintro rfl
  have length := shorter.length_le
  simp only [List.length_append, List.length_cons] at length
  omega

theorem not_suffix_tail {c : Char} {cs ds : List Char} (shorter : ds <:+ cs) :
    ¬ v ++ c :: cs <:+ ds := by
  rintro ⟨front, same⟩
  rw [← List.append_assoc] at same
  exact ne_of_suffix_tail shorter same

theorem pair_cut {α : Type} {a b : α} (same : (a, w ++ more) = (b, v ++ more))
    (rest : List Char) : (a, w ++ rest) = (b, v ++ rest) := by
  obtain ⟨rfl, left⟩ := Prod.mk.inj same
  rw [List.append_cancel_right_eq] at left
  rw [left]

/-- A scanner that takes nothing before the cut takes nothing before a text that it stops at. -/
theorem start_cut {α : Type} {scan : List Char → α × List Char} {none a : α}
    (suffix : ∀ cs, (scan cs).2 <:+ cs) (stays : (scan more).2 = more → scan more = (none, more))
    (stop : scan rest = (none, rest)) (scanned : scan more = (a, v ++ more)) :
    scan rest = (a, v ++ rest) := by
  obtain rfl := eq_nil_of_append_suffix (congrArg Prod.snd scanned ▸ suffix more)
  have same := (stays (congrArg Prod.snd scanned)).symm.trans scanned
  obtain ⟨rfl, _⟩ := Prod.mk.inj same
  exact stop

section Names

theorem name_of_stays {cs : List Char} (stays : (name cs).2 = cs) : name cs = ([], cs) := by
  obtain _ | ⟨c, cs⟩ := cs
  · simp [name]
  rw [name.eq_def] at stays ⊢
  simp only at stays ⊢
  have longer : ∀ {after : List Char}, after <:+ cs → after ≠ c :: cs :=
    fun shorter => (ne_of_suffix_tail (v := []) shorter).symm
  split_ifs at stays ⊢ with slash line part
  · rfl
  · exact absurd stays (longer ((name_suffix _).trans (escape_suffix cs)))
  · exact absurd stays (longer (name_suffix cs))
  · rfl

theorem hexDigits_cut (w more rest : List Char)
    (inside : (((w ++ more).take 6).takeWhile isHexDigit).length < w.length) :
    ((w ++ rest).take 6).takeWhile isHexDigit = ((w ++ more).take 6).takeWhile isHexDigit := by
  rw [List.take_append, List.takeWhile_append] at inside ⊢
  rw [List.take_append, List.takeWhile_append]
  split_ifs at inside ⊢ with whole
  · have length := List.length_take (i := 6) (l := w)
    rw [List.length_append] at inside
    have none : 6 - w.length = 0 := by omega
    simp [none]
  · rfl

theorem dropBlank_of_solid {c : Char} {cs : List Char} (solid : Text.isBlank c = false) :
    dropBlank (c :: cs) = c :: cs := by
  unfold dropBlank
  split
  · rename_i same
    rw [(List.cons.inj same).1] at solid
    cases solid
  · rename_i same
    obtain ⟨rfl, rfl⟩ := List.cons.inj same
    simp [solid]
  · rename_i same
    cases same

theorem dropBlank_of_blank {c : Char} {cs : List Char} (blank : Text.isBlank c)
    (single : c = '\r' → cs.head? ≠ some '\n') : dropBlank (c :: cs) = cs := by
  unfold dropBlank
  split
  · rename_i same
    obtain ⟨rfl, rfl⟩ := List.cons.inj same
    exact absurd rfl (single rfl)
  · rename_i same
    obtain ⟨rfl, rfl⟩ := List.cons.inj same
    simp [blank]
  · rename_i same
    cases same

theorem dropBlank_cut (left : v ≠ []) (scanned : dropBlank (w ++ more) = v ++ more) :
    dropBlank (w ++ rest) = v ++ rest := by
  obtain _ | ⟨c, w⟩ := w
  · exact absurd (eq_nil_of_append_suffix (scanned ▸ dropBlank_suffix more)) left
  rw [List.cons_append] at scanned ⊢
  by_cases blank : Text.isBlank c
  · obtain _ | ⟨d, w⟩ := w
    · have shorter : v ++ more <:+ more := by
        rw [← scanned, List.nil_append]
        unfold dropBlank
        split
        · rename_i same
          rw [(List.cons.inj same).2]
          exact List.suffix_cons _ _
        · rename_i same
          obtain ⟨rfl, rfl⟩ := List.cons.inj same
          simp [blank]
        · exact List.nil_suffix
      exact absurd (eq_nil_of_append_suffix shorter) left
    by_cases pair : c = '\r' ∧ d = '\n'
    · obtain ⟨rfl, rfl⟩ := pair
      have same : w ++ more = v ++ more := scanned
      rw [List.append_cancel_right_eq] at same
      rw [← same]
      rfl
    · have single : ∀ cs, dropBlank (c :: (d :: w ++ cs)) = d :: w ++ cs := by
        intro cs
        apply dropBlank_of_blank blank
        rintro rfl head
        exact pair ⟨rfl, by simpa using head⟩
      rw [single, List.append_cancel_right_eq] at scanned
      rw [single, scanned]
  · have solid : Text.isBlank c = false := by simpa using blank
    rw [dropBlank_of_solid solid, ← List.cons_append, List.append_cancel_right_eq] at scanned
    rw [dropBlank_of_solid solid, ← scanned]
    rfl

/-- An escape that ends before the end of a part of a text is the same before any rest. -/
theorem escape_cut {x : Char} (left : v ≠ []) (scanned : escape (w ++ more) = (x, v ++ more)) :
    escape (w ++ rest) = (x, v ++ rest) := by
  obtain _ | ⟨c, w⟩ := w
  · exact absurd (eq_nil_of_append_suffix (congrArg Prod.snd scanned ▸ escape_suffix more)) left
  unfold escape at scanned ⊢
  simp only [List.cons_append] at scanned ⊢
  cases digits : ((c :: (w ++ more)).take 6).takeWhile isHexDigit with
  | nil =>
    rw [digits] at scanned
    obtain ⟨rfl, same⟩ := Prod.mk.inj scanned
    rw [List.append_cancel_right_eq] at same
    have cut := hexDigits_cut (c :: w) more rest
      (by rw [List.cons_append, digits]; simp)
    rw [List.cons_append, List.cons_append, digits] at cut
    rw [cut, ← same]
  | cons d ds =>
    rw [digits] at scanned
    obtain ⟨rfl, same⟩ := Prod.mk.inj scanned
    have few : (d :: ds).length < (c :: w).length := by
      have length := (same ▸ dropBlank_suffix _ : v ++ more <:+ _).length_le
      have some := List.length_pos_iff.2 left
      simp only [List.length_append, List.length_drop, List.length_cons] at length ⊢
      omega
    have cut := hexDigits_cut (c :: w) more rest
      (by rw [List.cons_append, digits]; exact few)
    rw [List.cons_append, List.cons_append, digits] at cut
    have dropped : ∀ es, (c :: (w ++ es)).drop (d :: ds).length =
        (c :: w).drop (d :: ds).length ++ es := by
      intro es
      rw [← List.cons_append, List.drop_append_of_le_length few.le]
    rw [dropped] at same
    rw [cut]
    simp only
    rw [dropped, dropBlank_cut left same]

theorem name_newline {d : Char} {cs : List Char} (line : Text.isNewline d) :
    name ('\\' :: d :: cs) = ([], '\\' :: d :: cs) := by
  rw [name.eq_def]
  simp [startsNewline, line]

theorem name_cut {s : List Char} (clear : Clear w v more) (stops : Stops rest)
    (scanned : name (w ++ more) = (s, v ++ more)) : name (w ++ rest) = (s, v ++ rest) := by
  -- An escape takes several characters, so the induction is on how many are left.
  induction h : w.length using Nat.strong_induction_on generalizing w s with
  | _ n ih =>
    subst h
    obtain _ | ⟨c, w⟩ := w
    · have stop : name rest = ([], rest) := name_of_endsName
        (stops.head (by decide) (by decide) (by decide) (by decide) (by decide) (by decide))
      exact start_cut name_suffix name_of_stays stop scanned
    by_cases slash : c = '\\'
    · subst slash
      obtain ⟨left, some⟩ := clear.slash
      obtain ⟨d, w, rfl⟩ := List.exists_cons_of_ne_nil some
      rw [List.cons_append] at scanned ⊢
      by_cases line : Text.isNewline d
      · rw [List.cons_append, name_newline line] at scanned ⊢
        exact pair_cut (w := '\\' :: d :: w) scanned rest
      · have valid : ∀ es, startsNewline (d :: w ++ es) = false := by
          simpa [startsNewline] using line
        rw [name_escape (valid _)] at scanned ⊢
        obtain ⟨rfl, after⟩ := Prod.mk.inj scanned
        obtain ⟨front, behind⟩ := after ▸ name_suffix (escape (d :: w ++ more)).2
        rw [← List.append_assoc] at behind
        have shorter : front ++ v <:+ d :: w :=
          suffix_of_append_suffix (behind ▸ escape_suffix (d :: w ++ more))
        have cut : escape (d :: w ++ rest) = ((escape (d :: w ++ more)).1, front ++ v ++ rest) :=
          escape_cut (by simp [left]) (Prod.ext rfl behind.symm)
        rw [← behind] at after ⊢
        rw [cut, ih (front ++ v).length (Nat.lt_succ_of_le shorter.length_le)
          (clear.tail.suffix shorter) (Prod.ext rfl after) rfl]
    · rw [List.cons_append, name.eq_def] at scanned ⊢
      simp only [slash, if_false] at scanned ⊢
      split_ifs at scanned ⊢ with part
      · rw [Prod.mk.injEq] at scanned
        obtain ⟨rfl, after⟩ := scanned
        rw [ih w.length (by simp) clear.tail (Prod.ext rfl after) rfl]
      · exact pair_cut (w := c :: w) scanned rest

theorem startsName_of_stops (stops : Stops rest) : startsName rest = false := by
  obtain _ | ⟨x, rest⟩ := rest
  · rfl
  rcases stops x rfl with rfl | rfl | rfl | rfl | rfl | rfl <;> rfl

theorem startsName_cons {c : Char} (hyphen : c ≠ '-') (slash : c ≠ '\\') (cs : List Char) :
    startsName (c :: cs) = isNameStart c := by
  unfold startsName
  split
  · rename_i same
    exact absurd (List.cons.inj same).1 hyphen
  · rename_i same
    exact absurd (List.cons.inj same).1 slash
  · rename_i same
    rw [(List.cons.inj same).1]
  · rename_i same
    cases same

theorem name_hyphen_suffix {cs : List Char} (plain : cs.head? ≠ some '\\')
    (starts : startsName ('-' :: cs)) : ∃ d ds, cs = d :: ds ∧ (name ('-' :: cs)).2 <:+ ds := by
  obtain _ | ⟨d, ds⟩ := cs
  · cases starts
  have slash : d ≠ '\\' := by simpa using plain
  have part : isNameChar d := by
    have second : isNameStart d ∨ d = '-' := by simpa [startsName, slash] using starts
    rcases second with start | rfl
    · simp [isNameChar, start]
    · decide
  refine ⟨d, ds, rfl, ?_⟩
  rw [name_cons (by decide) (by decide) (by decide), name.eq_def]
  simp only [slash, part, if_true, if_false]
  exact name_suffix ds

/-- Whether a text starts with a name does not change with what follows it if a name that it starts
with ends in it. -/
theorem startsName_cut (clear : Clear w v more) (stops : Stops rest)
    (inside : startsName (w ++ more) → v ++ more <:+ (name (w ++ more)).2) :
    startsName (w ++ rest) = startsName (w ++ more) := by
  obtain _ | ⟨c, w⟩ := w
  · rw [List.nil_append, List.nil_append, startsName_of_stops stops, eq_comm]
    by_contra starts
    rw [Bool.not_eq_false] at starts
    obtain _ | ⟨c, cs⟩ := more
    · cases starts
    · exact not_suffix_tail (name_suffix_tail starts) (inside starts)
  by_cases hyphen : c = '-'
  · subst hyphen
    obtain _ | ⟨d, w⟩ := w
    · have front : startsName ('-' :: rest) = false := by
        obtain _ | ⟨x, rest⟩ := rest
        · rfl
        · rcases stops x rfl with rfl | rfl | rfl | rfl | rfl | rfl <;> rfl
      rw [List.singleton_append, List.singleton_append, front, eq_comm]
      by_contra starts
      rw [Bool.not_eq_false] at starts
      obtain ⟨d, ds, rfl, shorter⟩ := name_hyphen_suffix (clear.fresh rfl) starts
      exact not_suffix_tail shorter (inside starts)
    · rfl
  by_cases slash : c = '\\'
  · subst slash
    obtain ⟨d, w, rfl⟩ := List.exists_cons_of_ne_nil clear.slash.2
    rfl
  · rw [List.cons_append, List.cons_append, startsName_cons hyphen slash,
      startsName_cons hyphen slash]

end Names

section Numbers

theorem isDigit_of_stops (stops : Stops rest) : ∀ x ∈ rest.head?, x.isDigit = false :=
  stops.head rfl rfl rfl rfl rfl rfl

theorem exponent?_of_stops (stops : Stops rest) : exponent? rest = (none, rest) := by
  obtain _ | ⟨x, rest⟩ := rest
  · rfl
  · rcases stops x rfl with rfl | rfl | rfl | rfl | rfl | rfl <;> simp [exponent?]

theorem takeWhile_eq_nil_of_stays {p : Char → Bool} {cs : List Char}
    (stays : cs.dropWhile p = cs) : cs.takeWhile p = [] := by
  have whole := List.takeWhile_append_dropWhile (p := p) (l := cs)
  rw [stays] at whole
  exact List.append_left_eq_self.1 whole

theorem span_of_stop {p : Char → Bool} (stop : ∀ x ∈ rest.head?, p x = false) :
    rest.takeWhile p = [] ∧ rest.dropWhile p = rest := by
  cases rest with
  | nil => simp
  | cons x rest => simp [stop x rfl]

/-- Characters of a kind that end in a text are the same before what is of another kind. -/
theorem span_cut {p : Char → Bool} (stop : ∀ x ∈ rest.head?, p x = false)
    (scanned : (w ++ more).dropWhile p = v ++ more) :
    (w ++ rest).takeWhile p = (w ++ more).takeWhile p ∧ (w ++ rest).dropWhile p = v ++ rest := by
  induction w with
  | nil =>
    rw [List.nil_append] at scanned
    obtain rfl := eq_nil_of_append_suffix (scanned ▸ List.dropWhile_suffix p)
    obtain ⟨taken, left⟩ := span_of_stop stop
    rw [List.nil_append] at *
    exact ⟨taken.trans (takeWhile_eq_nil_of_stays scanned).symm, left⟩
  | cons c w ih =>
    simp only [List.cons_append]
    cases part : p c with
    | false =>
      rw [List.cons_append, List.dropWhile_cons_of_neg (by simp [part]), ← List.cons_append,
        List.append_cancel_right_eq] at scanned
      subst scanned
      simp [part]
    | true =>
      rw [List.cons_append, List.dropWhile_cons_of_pos part] at scanned
      obtain ⟨taken, left⟩ := ih scanned
      rw [List.takeWhile_cons_of_pos part, List.takeWhile_cons_of_pos part,
        List.dropWhile_cons_of_pos part, taken, left]
      exact ⟨rfl, rfl⟩

theorem takeWhile_cut {p : Char → Bool} (stop : ∀ x ∈ rest.head?, p x = false)
    (none : (w ++ more).takeWhile p = []) : (w ++ rest).takeWhile p = [] := by
  have whole := List.takeWhile_append_dropWhile (p := p) (l := w ++ more)
  rw [none, List.nil_append] at whole
  rw [(span_cut stop whole).1, none]

theorem dropWhile_ne {p : Char → Bool} {cs ds xs : List Char} {x : Char} (shorter : ds <:+ cs)
    (taken : ds.takeWhile p = x :: xs) : ds.dropWhile p ≠ v ++ cs := by
  intro same
  have whole := congrArg List.length (List.takeWhile_append_dropWhile (p := p) (l := ds))
  have length := shorter.length_le
  rw [taken, same] at whole
  simp only [List.length_append, List.length_cons] at whole
  omega

theorem exists_takeSign (c : Char) (w : List Char) :
    ∃ negative u, u <:+ c :: w ∧
      ∀ more, Number.takeSign (c :: w ++ more) = (negative, u ++ more) := by
  by_cases minus : c = '-'
  · exact ⟨true, w, List.suffix_cons _ _, fun more => by rw [minus]; rfl⟩
  by_cases plus : c = '+'
  · exact ⟨false, w, List.suffix_cons _ _, fun more => by rw [plus]; rfl⟩
  refine ⟨false, c :: w, List.suffix_rfl, fun more => ?_⟩
  apply Grammar.takeSign_of_head
  simp [minus, plus]

theorem fraction?_of_stops (stops : Stops rest) : fraction? rest = (none, rest) := by
  obtain _ | ⟨x, rest⟩ := rest
  · rfl
  · rcases stops x rfl with rfl | rfl | rfl | rfl | rfl | rfl <;> rfl

theorem fraction?_other {c : Char} (noPoint : c ≠ '.') (cs : List Char) :
    fraction? (c :: cs) = (none, c :: cs) := by
  unfold fraction?
  split
  · rename_i same
    exact absurd (List.cons.inj same).1 noPoint
  · rfl

theorem fraction?_of_stays {cs : List Char} (stays : (fraction? cs).2 = cs) :
    fraction? cs = (none, cs) := by
  unfold fraction? at stays ⊢
  split
  · rename_i cs
    cases digits : cs.takeWhile Char.isDigit with
    | nil => rfl
    | cons d ds =>
      simp only [digits] at stays
      exact absurd stays (dropWhile_ne (v := ['.']) List.suffix_rfl digits)
  · rfl

theorem fraction?_cut {f : Option (List Char)} (stops : Stops rest)
    (scanned : fraction? (w ++ more) = (f, v ++ more)) :
    fraction? (w ++ rest) = (f, v ++ rest) := by
  have digit := isDigit_of_stops stops
  obtain _ | ⟨c, w⟩ := w
  · exact start_cut fraction?_suffix fraction?_of_stays (fraction?_of_stops stops) scanned
  by_cases point : c = '.'
  · subst point
    simp only [List.cons_append, fraction?] at scanned ⊢
    cases digits : (w ++ more).takeWhile Char.isDigit with
    | nil =>
      rw [digits] at scanned
      rw [takeWhile_cut digit digits]
      exact pair_cut (w := '.' :: w) scanned rest
    | cons d ds =>
      rw [digits] at scanned
      obtain ⟨rfl, left⟩ := Prod.mk.inj scanned
      obtain ⟨taken, after⟩ := span_cut digit left
      rw [taken, digits, after]
  · rw [List.cons_append, fraction?_other point] at scanned ⊢
    exact pair_cut (w := c :: w) scanned rest

theorem exponent?_other {c : Char} (noMark : ¬(c = 'e' ∨ c = 'E')) (cs : List Char) :
    exponent? (c :: cs) = (none, c :: cs) := by
  rw [exponent?, if_neg noMark]

theorem exponent?_of_stays {cs : List Char} (stays : (exponent? cs).2 = cs) :
    exponent? cs = (none, cs) := by
  obtain _ | ⟨c, cs⟩ := cs
  · rfl
  by_cases mark : c = 'e' ∨ c = 'E'
  · rw [exponent?, if_pos mark] at stays ⊢
    cases digits : (Number.takeSign cs).2.takeWhile Char.isDigit with
    | nil => rfl
    | cons d ds =>
      simp only [digits] at stays
      exact absurd stays (dropWhile_ne (v := [c]) (takeSign_suffix cs) digits)
  · exact exponent?_other mark cs

/-- Behind its mark an exponent is cut as its digits are, which may stand after a sign. -/
theorem exponent?_mark_cut {c : Char} {e : Option Int} (mark : c = 'e' ∨ c = 'E')
    (stops : Stops rest) (scanned : exponent? (c :: w ++ more) = (e, v ++ more)) :
    exponent? (c :: w ++ rest) = (e, v ++ rest) := by
  have digit := isDigit_of_stops stops
  rw [List.cons_append, exponent?, if_pos mark] at scanned ⊢
  obtain _ | ⟨d, w⟩ := w
  · have sign : Number.takeSign rest = (false, rest) := Grammar.takeSign_of_head
      (stops.head (by decide) (by decide) (by decide) (by decide) (by decide) (by decide))
    have none : rest.takeWhile Char.isDigit = [] := (span_of_stop digit).1
    simp only [List.nil_append] at scanned ⊢
    rw [sign, none]
    cases digits : (Number.takeSign more).2.takeWhile Char.isDigit with
    | nil =>
      rw [digits] at scanned
      exact pair_cut (w := [c]) scanned rest
    | cons x xs =>
      rw [digits] at scanned
      exact absurd (Prod.mk.inj scanned).2 (dropWhile_ne (takeSign_suffix more) digits)
  obtain ⟨negative, u, _, sign⟩ := exists_takeSign d w
  rw [sign more] at scanned
  rw [sign rest]
  simp only at scanned ⊢
  cases digits : (u ++ more).takeWhile Char.isDigit with
  | nil =>
    rw [digits] at scanned
    rw [takeWhile_cut digit digits]
    exact pair_cut (w := c :: d :: w) scanned rest
  | cons x xs =>
    rw [digits] at scanned
    obtain ⟨rfl, left⟩ := Prod.mk.inj scanned
    obtain ⟨taken, after⟩ := span_cut digit left
    rw [taken, digits, after]

theorem exponent?_cut {e : Option Int} (stops : Stops rest)
    (scanned : exponent? (w ++ more) = (e, v ++ more)) :
    exponent? (w ++ rest) = (e, v ++ rest) := by
  obtain _ | ⟨c, w⟩ := w
  · exact start_cut exponent?_suffix exponent?_of_stays (exponent?_of_stops stops) scanned
  by_cases mark : c = 'e' ∨ c = 'E'
  · exact exponent?_mark_cut mark stops scanned
  · rw [List.cons_append, exponent?_other mark] at scanned ⊢
    exact pair_cut (w := c :: w) scanned rest

def numericEnd (value : Number) (numeric : Number → Numeric) (cs : List Char) :
    Token × List Char :=
  match cs with
  | '%' :: after => (.percentage (numeric (value.div .double (Format.double.ofNat 100))), after)
  | _ =>
    if startsName cs then
      (.dimension (numeric value) (String.ofList (name cs).1), (name cs).2)
    else (.number (numeric value), cs)

theorem numericEnd_percent (value : Number) (numeric : Number → Numeric) (cs : List Char) :
    numericEnd value numeric ('%' :: cs) =
      (.percentage (numeric (value.div .double (Format.double.ofNat 100))), cs) := rfl

theorem numericEnd_other {cs : List Char} (other : cs.head? ≠ some '%') (value : Number)
    (numeric : Number → Numeric) :
    numericEnd value numeric cs =
      if startsName cs then
        (.dimension (numeric value) (String.ofList (name cs).1), (name cs).2)
      else (.number (numeric value), cs) := by
  unfold numericEnd
  split
  · exact absurd rfl other
  · rfl

theorem numericEnd_suffix (value : Number) (numeric : Number → Numeric) (cs : List Char) :
    (numericEnd value numeric cs).2 <:+ cs := by
  unfold numericEnd
  split
  · exact List.suffix_cons _ _
  · split
    · exact name_suffix _
    · exact List.suffix_rfl

theorem numericEnd_cut {value : Number} {numeric : Number → Numeric} {t : Token}
    (clear : Clear w v more) (stops : Stops rest)
    (scanned : numericEnd value numeric (w ++ more) = (t, v ++ more)) :
    numericEnd value numeric (w ++ rest) = (t, v ++ rest) := by
  by_cases percent : (w ++ more).head? = some '%'
  · obtain _ | ⟨c, w⟩ := w
    · obtain ⟨after, rfl⟩ := List.head?_eq_some_iff.1 percent
      exact absurd (Prod.mk.inj scanned).2.symm (ne_of_suffix_tail List.suffix_rfl)
    · obtain rfl : c = '%' := by simpa using percent
      rw [List.cons_append, numericEnd_percent] at scanned ⊢
      exact pair_cut scanned rest
  · have other : (w ++ rest).head? ≠ some '%' := stops.head?_ne_append (by decide) percent
    rw [numericEnd_other percent] at scanned
    have starts := startsName_cut clear stops fun starts => by
      rw [if_pos starts] at scanned
      exact (Prod.mk.inj scanned).2 ▸ List.suffix_rfl
    rw [numericEnd_other other, starts]
    split_ifs at scanned ⊢
    · obtain ⟨rfl, left⟩ := Prod.mk.inj scanned
      rw [name_cut clear stops (Prod.ext rfl left)]
    · exact pair_cut scanned rest

theorem exists_append_of_suffix {cs : List Char} (inside : v ++ more <:+ cs) :
    ∃ u, cs = u ++ more := by
  obtain ⟨front, rfl⟩ := inside
  exact ⟨front ++ v, by simp⟩

theorem numericToken_cut {c : Char} {t : Token} (clear : Clear (c :: w) v more)
    (stops : Stops rest) (scanned : numericToken (c :: w ++ more) = (t, v ++ more)) :
    numericToken (c :: w ++ rest) = (t, v ++ rest) := by
  obtain ⟨negative, u, unsigned, sign⟩ := exists_takeSign c w
  have token : ∀ cs, numericToken (c :: w ++ cs) =
      let number := fraction? ((u ++ cs).dropWhile Char.isDigit)
      let power := exponent? number.2
      let whole := (u ++ cs).takeWhile Char.isDigit
      numericEnd (writtenValue negative whole number.1 power.1)
        (fun x => ⟨Format.single.ofNumber x,
          if number.1.isNone && power.1.isNone then
            some (cutInteger (Number.signed negative (Number.ofDigits whole)))
          else none, u.length != (c :: w).length⟩) power.2 := by
    intro cs
    have length : ((u ++ cs).length != (c :: w ++ cs).length) = (u.length != (c :: w).length) := by
      rw [List.length_append, List.length_append, Bool.eq_iff_iff]
      simp
    simp only [numericToken, sign, length]
    rfl
  rw [token] at scanned ⊢
  simp only at scanned ⊢
  -- Each part of the number ends before what follows the whole, and so it ends there as well.
  obtain ⟨w₃, power⟩ :=
    exists_append_of_suffix (congrArg Prod.snd scanned ▸ numericEnd_suffix _ _ _)
  obtain ⟨w₂, number⟩ := exists_append_of_suffix (power ▸ exponent?_suffix _)
  obtain ⟨w₁, digits⟩ := exists_append_of_suffix (number ▸ fraction?_suffix _)
  obtain ⟨whole, afterWhole⟩ := span_cut (isDigit_of_stops stops) digits
  rw [digits] at number power scanned
  have cutNumber := fraction?_cut stops (Prod.ext rfl number)
  rw [number] at power scanned
  have cutPower := exponent?_cut stops (Prod.ext rfl power)
  rw [power] at scanned
  rw [whole, afterWhole, cutNumber]
  simp only
  rw [cutPower]
  have inside : w₃ <:+ c :: w := by
    have third : w₃ ++ more <:+ w₂ ++ more := power ▸ exponent?_suffix _
    have second : w₂ ++ more <:+ w₁ ++ more := number ▸ fraction?_suffix _
    have first : w₁ ++ more <:+ u ++ more := digits ▸ List.dropWhile_suffix _
    exact (suffix_of_append_suffix ((third.trans second).trans first)).trans unsigned
  exact numericEnd_cut (clear.suffix inside) stops scanned

theorem startsNumber_eq (cs : List Char) :
    startsNumber cs = startsDigits (Number.takeSign cs).2 := by
  unfold startsNumber Number.takeSign
  split
  · rfl
  · rfl
  · rename_i plus minus
    split
    · exact absurd rfl (minus _)
    · exact absurd rfl (plus _)
    · rfl

theorem numericToken_suffix (cs : List Char) :
    (numericToken cs).2 <:+ (fraction? ((Number.takeSign cs).2.dropWhile Char.isDigit)).2 := by
  have number := exponent?_suffix (fraction? ((Number.takeSign cs).2.dropWhile Char.isDigit)).2
  unfold numericToken
  simp only
  split
  · rename_i after same
    exact (same ▸ List.suffix_cons _ _ : after <:+ _).trans number
  · split
    · exact (name_suffix _).trans number
    · exact number

theorem digits_suffix {cs : List Char} (starts : startsDigits cs) :
    ∃ d ds, d.isDigit ∧ (cs = d :: ds ∨ cs = '.' :: d :: ds) ∧
      (fraction? (cs.dropWhile Char.isDigit)).2 <:+ ds := by
  unfold startsDigits at starts
  split at starts
  · rename_i d ds
    refine ⟨d, ds, starts, .inr rfl, ?_⟩
    rw [List.dropWhile_cons_of_neg (by decide), fraction?, List.takeWhile_cons_of_pos starts,
      List.dropWhile_cons_of_pos starts]
    exact List.dropWhile_suffix _
  · rename_i c cs _
    refine ⟨c, cs, starts, .inl rfl, ?_⟩
    rw [List.dropWhile_cons_of_pos starts]
    exact (fraction?_suffix _).trans (List.dropWhile_suffix _)
  · cases starts

theorem startsDigits_cons {c : Char} (point : c ≠ '.') (cs : List Char) :
    startsDigits (c :: cs) = c.isDigit := by
  unfold startsDigits
  split
  · rename_i same
    exact absurd (List.cons.inj same).1 point
  · rename_i same
    rw [(List.cons.inj same).1]
  · rename_i same
    cases same

theorem startsDigits_cut (stops : Stops rest)
    (inside : startsDigits (w ++ more) →
      v ++ more <:+ (fraction? ((w ++ more).dropWhile Char.isDigit)).2) :
    startsDigits (w ++ rest) = startsDigits (w ++ more) := by
  -- A first digit behind the cut would be taken, but what is left holds all from the cut on.
  have behind : ∀ {ds : List Char}, ds.length < more.length → startsDigits (w ++ more) →
      ¬ (fraction? ((w ++ more).dropWhile Char.isDigit)).2 <:+ ds := by
    intro ds shorter starts taken
    have length := ((inside starts).trans taken).length_le
    simp only [List.length_append] at length
    omega
  obtain _ | ⟨c, w⟩ := w
  · have front : startsDigits ([] ++ rest) = false := by
      obtain _ | ⟨x, rest⟩ := rest
      · rfl
      · rcases stops x rfl with rfl | rfl | rfl | rfl | rfl | rfl <;> rfl
    rw [front, eq_comm]
    by_contra starts
    rw [Bool.not_eq_false] at starts
    obtain ⟨d, ds, _, same, taken⟩ := digits_suffix starts
    refine behind ?_ starts taken
    rw [List.nil_append] at same
    rcases same with rfl | rfl <;> simp only [List.length_cons] <;> omega
  by_cases point : c = '.'
  · subst point
    obtain _ | ⟨d, w⟩ := w
    · have front : startsDigits (['.'] ++ rest) = false := by
        obtain _ | ⟨x, rest⟩ := rest
        · rfl
        · exact isDigit_of_stops stops x rfl
      rw [front, eq_comm]
      by_contra starts
      rw [Bool.not_eq_false] at starts
      obtain ⟨d, ds, digit, same | same, taken⟩ := digits_suffix starts
      · rw [← (List.cons.inj same).1] at digit
        cases digit
      · obtain rfl : more = d :: ds := (List.cons.inj same).2
        exact behind (by simp) starts taken
    · rfl
  · rw [List.cons_append, List.cons_append, startsDigits_cons point, startsDigits_cons point]

theorem startsNumber_cut {c : Char} (stops : Stops rest)
    (inside : startsNumber (c :: w ++ more) → v ++ more = (numericToken (c :: w ++ more)).2) :
    startsNumber (c :: w ++ rest) = startsNumber (c :: w ++ more) := by
  obtain ⟨negative, u, _, sign⟩ := exists_takeSign c w
  rw [startsNumber_eq, startsNumber_eq, sign, sign]
  apply startsDigits_cut stops (v := v)
  intro starts
  have taken := numericToken_suffix (c :: w ++ more)
  rw [← inside (by rw [startsNumber_eq, sign]; exact starts), sign] at taken
  exact taken

end Numbers

end Lexer

end CssOutline
