import CssOutline.Proofs.Calls

/-! What the value of a declaration means. A value that is built of its groups means the nodes that
are left when the marks that make the declaration important are taken out; one that is kept as text
means what stands before the marks at its end, and only those are not part of it. -/

namespace CssOutline

open Lexer

namespace Node

variable {ns ms : List Node}

theorem isImportant_of_isBang {n : Node} (bang : n.isBang) : n.isImportant = false := by
  by_contra important
  have role := role_eq_important.2 (by simpa using important)
  rw [role_eq_bang.2 bang] at role
  cases role

theorem unmarked_append (none : unmarked ms = []) (first : ∀ n ∈ ms.head?, n.isImportant = false)
    (ns : List Node) : unmarked (ns ++ ms) = unmarked ns := by
  fun_induction unmarked ns with
  | case1 => exact none
  | case2 n => rw [List.singleton_append, unmarked_cons fun _ => first, none]
  | case3 n m ns marked ih =>
    rw [List.cons_append, List.cons_append, unmarked, if_pos marked, ih]
  | case4 n m ns plain ih =>
    rw [List.cons_append, List.cons_append, unmarked, if_neg plain, ← List.cons_append, ih]

end Node

namespace Piece

open Node (textOf significant Sliced gists)

variable {ns ms : List Node} {ps : List Piece}

theorem isOutside_piece {n : Node} (lead : List Char) : (n.piece lead).isOutside = false := by
  unfold Node.piece isOutside
  by_cases comma : n.isComma
  · simp [comma]
  by_cases bang : n.isBang
  · simp [comma, bang]
  · cases Node.value? lead n <;> simp [comma, bang]

structure Falls (tail : List Node) : Prop where
  unmarked : Node.unmarked (significant tail) = []
  first : ∀ n ∈ (significant tail).head?, n.isImportant = false

theorem Falls.gap {front tail : List Node} (falls : Falls tail)
    (marks : significant front = [] ∨
      ∃ bang word, significant front = [bang, word] ∧ bang.isBang ∧ word.isImportant) :
    Falls (front ++ tail) := by
  obtain none | ⟨bang, word, pair, isBang, isWord⟩ := marks
  · refine ⟨?_, ?_⟩ <;> rw [Node.significant_append, none, List.nil_append]
    · exact falls.unmarked
    · exact falls.first
  · refine ⟨?_, ?_⟩ <;> rw [Node.significant_append, pair]
    · rw [List.cons_append, List.cons_append, Node.unmarked, if_pos (by simp [isBang, isWord])]
      exact falls.unmarked
    · rintro n ⟨⟩
      exact Node.isImportant_of_isBang isBang

/-- The text of a value ends with the last node that is neither a blank nor part of a mark. -/
theorem Lays.exists_source (lays : Lays ns ps ms) :
    ∃ core tail, ns = core ++ tail ∧ source ps = textOf core ∧ (core = [] ↔ ps.all isOutside) ∧
      (∀ n ∈ core.getLast?, n.isTrivia = false) ∧ Falls tail := by
  induction lays with
  | @trail ns trivia =>
    have none := Node.significant_eq_nil trivia
    exact ⟨[], ns, rfl, rfl, by simp, by simp, by simp [none, Node.unmarked], by simp [none]⟩
  | @gap front ns ms p ps outside text marks _ ih =>
    obtain ⟨core, tail, rfl, same, empty, last, falls⟩ := ih
    by_cases all : ps.all isOutside
    · obtain rfl := empty.2 all
      refine ⟨[], front ++ tail, rfl, ?_, by simpa [outside] using all, by simp, falls.gap marks⟩
      rw [source_cons, if_pos all, if_pos outside]
      rfl
    · have some : core ≠ [] := fun none => all (empty.1 none)
      refine ⟨front ++ core, tail, by simp, ?_, ?_, ?_, falls⟩
      · rw [source_cons, if_neg all, text, same, Node.textOf_append]
      · simp only [List.append_eq_nil_iff, some, and_false, List.all_cons, all, Bool.and_false,
          Bool.false_eq_true]
      · rwa [List.getLast?_append_of_ne_nil _ some]
  | @solid lead ns ms n ps _ solid _ ih =>
    obtain ⟨core, tail, rfl, same, empty, last, falls⟩ := ih
    refine ⟨lead ++ n :: core, tail, by simp, ?_, by simp [isOutside_piece], ?_, falls⟩
    · have text : textOf (lead ++ n :: core) = (n.piece (textOf lead)).text ++ textOf core := by
        simp [Node.piece, Node.textOf_append, textOf]
      rw [source_cons, text]
      by_cases all : ps.all isOutside
      · rw [if_pos all, if_neg (by simp [isOutside_piece]), empty.2 all, textOf, List.append_nil]
      · rw [if_neg all, same]
    · obtain _ | ⟨m, core⟩ := core
      · simpa using solid
      · rw [List.getLast?_append_of_ne_nil _ (by simp), List.getLast?_cons_cons]
        exact last

end Piece

namespace Node

variable {ns : List Node} {v : Value} {important : Bool}

theorem lays_declared (whole : ∀ n ∈ ns, n.Whole) :
    Piece.Lays (dropTrivia ns) (Piece.markImportant (pieces none ns))
      (unmarked (significant ns)) := by
  obtain ⟨lead, split, blank, first⟩ := exists_dropTrivia ns
  rw [← significant_dropTrivia ns]
  have skipped : pieces none ns = pieces none (dropTrivia ns) := by
    conv_lhs => rw [split, pieces_none_append blank]
  rw [skipped]
  have wholeLater : ∀ n ∈ dropTrivia ns, n.Whole :=
    fun n member => whole n ((List.dropWhile_sublist _).subset member)
  cases same : dropTrivia ns with
  | nil =>
    rw [pieces.eq_def, Piece.markImportant.eq_def]
    exact .trail (by simp)
  | cons n more =>
    rw [pieces_none_solid (first n (by rw [same]; rfl))]
    exact @Piece.lays_markImportant [] (by simp) _ (same ▸ wholeLater)

theorem readDeclared_eq_ok : readDeclared ns = .ok (v, important) ↔
    Piece.value (Piece.markImportant (pieces none ns)) = .ok v ∧
      (Piece.markImportant (pieces none ns)).any Piece.isImportant = important := by
  rw [readDeclared]
  cases Piece.value (Piece.markImportant (pieces none ns)) <;> simp [Except.map]

theorem Sliced.exists_declared (sliced : Sliced ns)
    (read : readDeclared ns = .ok (v, important)) :
    ∃ text, v.render = .ok text ∧
      (Lexer.Means text.toList (gists (unmarked (significant ns))) ∨
        ∃ core, (∀ n ∈ core, n.Whole) ∧ Lexer.Means text.toList (gists core) ∧
          unmarked (significant core) = unmarked (significant ns)) := by
  have lays := lays_declared sliced.whole
  obtain ⟨lead, split, _, first⟩ := exists_dropTrivia ns
  have inner : Sliced (dropTrivia ns) := by
    rw [split] at sliced
    exact sliced.right
  obtain ⟨value, _⟩ := readDeclared_eq_ok.1 read
  rw [Piece.value] at value
  split at value
  · cases value
  rename_i found groups
  have speaks : ∀ n ∈ dropTrivia ns, n.Speaks := fun n _ => n.speaks
  have grouped : Value.Grouped found (gists (unmarked (significant ns))) :=
    lays.grouped (by simpa using inner) speaks Piece.spans_nil .nil groups
  split at value
  · cases value
  split at value
  · cases value
    obtain ⟨core, tail, whole, source, _, last, falls⟩ := lays.exists_source
    rw [whole] at inner first
    have firstCore : ∀ n ∈ core.head?, n.token ≠ .whitespace := by
      intro n head
      refine ne_whitespace_of_solid (first n ?_)
      rw [List.head?_append, Option.mem_def.1 head]
      rfl
    have lastCore : ∀ n ∈ core.getLast?, n.token ≠ .whitespace :=
      fun n member => ne_whitespace_of_solid (last n member)
    have alone : Sliced (core ++ []) := by simpa using inner.left
    have trimmed := alone.trim firstCore lastCore (by simp)
    rw [List.append_nil] at trimmed
    refine ⟨_, rfl, .inr ⟨core, inner.left.whole, ?_, ?_⟩⟩
    · rw [String.toList_ofList, source, trimmed]
      exact inner.left.means lastCore
    · rw [← significant_dropTrivia ns, whole, significant_append,
        unmarked_append falls.unmarked falls.first]
  · rename_i w values
    cases value
    obtain ⟨text, render, _, means⟩ := (grouped.joined values).means_single
    exact ⟨text, render, .inl means⟩
  · rename_i values
    cases value
    obtain ⟨text, render, _, means⟩ := (grouped.joined values).commaList
    exact ⟨text, render, .inl means⟩

end Node

end CssOutline
