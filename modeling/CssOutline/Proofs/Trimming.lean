import CssOutline.Proofs.GroupedValues

/-! Values keep the tokens that they are read from. -/

namespace CssOutline

open Lexer

theorem Text.trim_append {cs trail : List Char} (first : ∀ x ∈ cs.head?, isWhiteSpace x = false)
    (last : ∀ x ∈ cs.getLast?, isWhiteSpace x = false) (blank : ∀ x ∈ trail, isWhiteSpace x) :
    trim (cs ++ trail) = cs := by
  have trimmedEnd : trimEnd (cs ++ trail) = cs := by
    have stops : cs.reverse.dropWhile isWhiteSpace = cs.reverse := by
      cases same : cs.reverse with
      | nil => rfl
      | cons x xs =>
        have solid := last x (by rw [← List.head?_reverse, same]; rfl)
        exact List.dropWhile_cons_of_neg (by simp [solid])
    rw [trimEnd, List.reverse_append, List.dropWhile_append_of_pos (by simpa using blank), stops,
      List.reverse_reverse]
  obtain _ | ⟨c, cs⟩ := cs
  · have all : trail.dropWhile isWhiteSpace = [] := by simpa using blank
    rw [List.nil_append, trim, trimStart, all]
    rfl
  · have solid := first c rfl
    rw [trim, trimStart, List.cons_append, List.dropWhile_cons_of_neg (by simp [solid]),
      ← List.cons_append, trimmedEnd]

namespace Node

section Trim

variable {ns core trail : List Node}

theorem Sliced.isWhiteSpace (sliced : Sliced ns) {x : Char} (member : x ∈ textOf ns)
    (solid : Text.isBlank x = false) : Text.isWhiteSpace x = false := by
  rw [← flatMap_text_lexemesOf, List.mem_flatMap] at member
  obtain ⟨l, inside, member⟩ := member
  by_contra white
  have blank := (sliced.slice.plain l inside).blank x member (by simpa using white)
  simp [blank] at solid

theorem Sliced.isBlank_getLast? (sliced : Sliced ns)
    (last : ∀ n ∈ ns.getLast?, n.token ≠ .whitespace) :
    ∀ x ∈ (textOf ns).getLast?, Text.isBlank x = false := by
  rcases List.eq_nil_or_concat ns with rfl | ⟨front, n, rfl⟩
  · simp [textOf]
  rw [List.concat_eq_append] at sliced last ⊢
  obtain ⟨l, found, blank, _⟩ := (sliced.whole n (by simp)).getLast?_lexemes
  obtain ⟨before, same⟩ := List.getLast?_eq_some_iff.1 found
  have slice := sliced.slice
  rw [lexemesOf_append, lexemesOf, lexemesOf, List.append_nil, same, ← List.append_assoc] at slice
  have single := slice.right
  obtain ⟨c, u, _, text, _⟩ := single.exists_scan
  have ending : (textOf (front ++ [n])).getLast? = l.text.getLast? := by
    rw [textOf_append, textOf, textOf, List.append_nil, ← flatMap_text_lexemes n, same,
      List.flatMap_append, List.flatMap_singleton, ← List.append_assoc, List.getLast?_append, text]
    simp [List.getLast?_cons]
  rw [ending]
  exact single.isBlank_getLast? fun white => last n (by simp) (blank white)

theorem Sliced.isBlank_head? (sliced : Sliced ns)
    (first : ∀ n ∈ ns.head?, n.token ≠ .whitespace) :
    ∀ x ∈ (textOf ns).head?, Text.isBlank x = false := by
  obtain _ | ⟨n, ns⟩ := ns
  · simp [textOf]
  obtain ⟨c, cs, same, solid⟩ := sliced.visible (first n rfl)
  rw [same]
  rintro x ⟨⟩
  exact solid

theorem isBlank_of_whitespace {l : Lexeme} (slice : Slice [l]) (blank : l.token = .whitespace) :
    ∀ x ∈ l.text, Text.isBlank x := by
  obtain ⟨c, u, rest, text, scanned, _⟩ := slice.exists_scan
  have read := isRead_of_scan scanned
  rw [blank] at read
  have first : Text.isBlank c := read
  rw [scan_of_blank first] at scanned
  have left : (u ++ rest).dropWhile Text.isBlank = rest := (Prod.mk.inj scanned).2
  have whole := List.takeWhile_append_dropWhile (p := Text.isBlank) (l := u ++ rest)
  rw [left, List.append_cancel_right_eq] at whole
  rw [text, ← whole]
  intro x member
  rcases List.mem_cons.1 member with rfl | taken
  · exact first
  · exact List.mem_takeWhile_imp taken

theorem Sliced.isBlank_of_blank (sliced : Sliced trail)
    (blank : ∀ n ∈ trail, n.token = .whitespace) : ∀ x ∈ textOf trail, Text.isBlank x := by
  induction trail with
  | nil => simp [textOf]
  | cons n trail ih =>
    have split : Sliced ([n] ++ trail) := sliced
    have later := ih split.right fun m member => blank m (by simp [member])
    have single := split.left
    intro x member
    rw [textOf, List.mem_append] at member
    rcases member with here | behind
    · obtain ⟨l, rfl, token⟩ := (single.whole n (by simp)).eq_leaf (blank n (by simp)) rfl
      exact isBlank_of_whitespace single.slice token x here
    · exact later x behind

/-- Trimming a slice takes the blanks from its end. -/
theorem Sliced.trim (sliced : Sliced (core ++ trail))
    (first : ∀ n ∈ core.head?, n.token ≠ .whitespace)
    (last : ∀ n ∈ core.getLast?, n.token ≠ .whitespace)
    (blank : ∀ n ∈ trail, n.token = .whitespace) :
    Text.trim (textOf (core ++ trail)) = textOf core := by
  have inner := sliced.left
  rw [textOf_append]
  apply Text.trim_append
  · exact fun x member =>
      inner.isWhiteSpace (List.mem_of_head? member) (inner.isBlank_head? first x member)
  · exact fun x member =>
      inner.isWhiteSpace (List.mem_of_getLast? member) (inner.isBlank_getLast? last x member)
  · exact fun x member =>
      Text.isWhiteSpace_of_isBlank (sliced.right.isBlank_of_blank blank x member)

theorem exists_trail (ns : List Node) :
    ∃ core trail, ns = core ++ trail ∧ (∀ n ∈ trail, n.token = .whitespace) ∧
      ∀ n ∈ core.getLast?, n.token ≠ .whitespace := by
  induction ns using List.reverseRecOn with
  | nil => exact ⟨[], [], rfl, by simp, by simp⟩
  | append_singleton ns n ih =>
    by_cases blank : n.token = .whitespace
    · obtain ⟨core, trail, rfl, blanks, last⟩ := ih
      exact ⟨core, trail ++ [n], by simp, by simpa [or_imp, forall_and, blank] using blanks, last⟩
    · exact ⟨ns ++ [n], [], by simp, by simp, by simpa using blank⟩

end Trim

end Node

end CssOutline
