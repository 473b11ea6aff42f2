import CssOutline.Proofs.Meanings

/-! How the pieces of a value lie on its nodes, and what the groups that are read from them mean.
Each piece takes up the nodes that it was made of; those that stand for something are kept in their
order, in words, in groups and in the whole value. -/

namespace CssOutline

open Lexer

namespace Node

theorem Whole.built {n : Node} (whole : n.Whole) : n.Built fun _ => True := by
  induction whole with
  | leaf flat => exact .leaf trivial (Token.closing?_of_isFlat flat).1
  | @block l c body closes inner ih =>
    refine .block trivial (by simp [closes]) ih (fun n member => ?_) fun _ _ => trivial
    cases inner n (List.dropLast_subset _ member) <;> rfl

theorem unmarked_cons {n : Node} {ms : List Node}
    (other : n.isBang → ∀ m ∈ ms.head?, m.isImportant = false) :
    unmarked (n :: ms) = n :: unmarked ms := by
  obtain _ | ⟨m, ms⟩ := ms
  · rfl
  · rw [unmarked, if_neg]
    simp only [Bool.and_eq_true, not_and, Bool.not_eq_true]
    exact fun bang => other bang m rfl

theorem exists_importantAfter? {ns : List Node} (whole : ∀ n ∈ ns, n.Whole) {lead t : List Char}
    {rest : List Piece} (found : Piece.importantAfter? (pieces (some lead) ns) = some (t, rest)) :
    ∃ gap word more, ns = gap ++ word :: more ∧ (∀ n ∈ gap, n.isTrivia) ∧ word.isImportant ∧
      t = lead ++ textOf (gap ++ [word]) ∧ rest = pieces (some []) more := by
  induction ns generalizing lead t with
  | nil =>
    rw [pieces.eq_def] at found
    cases found
  | cons n ns ih =>
    have wholeLater : ∀ m ∈ ns, m.Whole := fun m member => whole m (by simp [member])
    by_cases trivia : n.isTrivia
    · rcases isTrivia_iff.1 trivia with blank | comment
      · rw [pieces_blank_some ns blank, Piece.importantAfter?] at found
        obtain ⟨⟨t', rest'⟩, inner, same⟩ := Option.map_eq_some_iff.1 found
        cases same
        obtain ⟨gap, word, more, rfl, blanks, important, rfl, rest⟩ := ih wholeLater inner
        refine ⟨n :: gap, word, more, rfl, ?_, important, ?_, rest⟩
        · simpa [trivia] using blanks
        · simp [textOf]
      · rw [pieces_comment ns comment] at found
        obtain ⟨gap, word, more, rfl, blanks, important, rfl, rest⟩ := ih wholeLater found
        refine ⟨n :: gap, word, more, rfl, ?_, important, ?_, rest⟩
        · simpa [trivia] using blanks
        · simp [textOf]
    · have role := role?_piece (whole n (by simp)).built lead
      rw [pieces_solid ns (by simpa using trivia), Piece.importantAfter?] at found
      simp only [Option.getD_some] at found
      split at found
      · rename_i space
        simp [Piece.role?, space] at role
      · rename_i name word
        split at found
        · rename_i named
          cases found
          have important : n.isImportant := by
            rw [← role_eq_important]
            simpa [Piece.role?, word, Value.role, named] using role.symm
          exact ⟨[], n, ns, rfl, by simp, important, by simp [piece, textOf], rfl⟩
        · cases found
      · cases found

end Node

namespace Piece

open Node (textOf significant pieces)

/-- Pieces that lie on nodes, and the nodes that are kept of them: what lies outside of every word
is a blank or an exclamation mark with the word `important`. -/
inductive Lays : List Node → List Piece → List Node → Prop
  | trail {ns : List Node} (trivia : ∀ n ∈ ns, n.isTrivia) : Lays ns [] []
  | gap {front ns ms : List Node} {p : Piece} {ps : List Piece} (outside : p.isOutside)
    (text : p.text = textOf front)
    (marks : significant front = [] ∨
      ∃ bang word, significant front = [bang, word] ∧ bang.isBang ∧ word.isImportant)
    (later : Lays ns ps ms) : Lays (front ++ ns) (p :: ps) ms
  | solid {lead ns ms : List Node} {n : Node} {ps : List Piece}
    (comments : ∀ m ∈ lead, m.token = .comment) (solid : n.isTrivia = false)
    (later : Lays ns ps ms) : Lays (lead ++ n :: ns) (n.piece (textOf lead) :: ps) (n :: ms)

theorem comments_concat {lead : List Node} {n : Node} (comments : ∀ m ∈ lead, m.token = .comment)
    (comment : n.token = .comment) : ∀ m ∈ lead ++ [n], m.token = .comment := by
  intro m member
  rcases List.mem_append.1 member with before | here
  · exact comments m before
  · rwa [List.mem_singleton.1 here]

theorem significant_comments {lead : List Node} (comments : ∀ m ∈ lead, m.token = .comment) :
    significant lead = [] :=
  Node.significant_eq_nil fun m member => Node.isTrivia_of_comment (comments m member)

section

variable {lead ns ms : List Node} {n : Node} {ps : List Piece}
  (comments : ∀ m ∈ lead, m.token = .comment)

include comments

theorem Lays.blank (blank : n.token = .whitespace) (later : Lays ns ps ms) :
    Lays (lead ++ n :: ns) (⟨.space, textOf lead ++ n.text, textOf lead ++ n.text⟩ :: ps) ms := by
  have trivia : n.isTrivia := Node.isTrivia_iff.2 (.inl blank)
  have nothing : significant (lead ++ [n]) = [] := by
    rw [Node.significant_append, significant_comments comments]
    simp [significant, trivia]
  rw [List.append_cons]
  exact .gap rfl (by simp [Node.textOf_append, textOf]) (.inl nothing) later

theorem Lays.important {gap more : List Node} {word : Node} (solid : n.isTrivia = false)
    (bang : n.isBang) (blanks : ∀ m ∈ gap, m.isTrivia) (important : word.isImportant)
    (later : Lays more ps ms) {head : List Char} :
    Lays (lead ++ n :: (gap ++ word :: more))
      (⟨.important, (n.piece (textOf lead)).text ++ textOf (gap ++ [word]), head⟩ :: ps) ms := by
  have kept : significant (lead ++ n :: (gap ++ [word])) = [n, word] := by
    rw [Node.significant_append, significant_comments comments, Node.significant_cons solid,
      Node.significant_append, Node.significant_eq_nil blanks,
      Node.significant_cons (Node.isTrivia_of_isImportant important)]
    rfl
  have nodes : lead ++ n :: (gap ++ word :: more) = lead ++ n :: (gap ++ [word]) ++ more := by
    simp
  rw [nodes]
  exact .gap rfl (by simp [Node.piece, Node.textOf_append, textOf])
    (.inr ⟨n, word, kept, bang, important⟩) later

end

theorem isImportant_eq_false_of_importantAfter? {ns : List Node} (whole : ∀ n ∈ ns, n.Whole)
    (none : importantAfter? (pieces (some []) ns) = none) :
    ∀ m ∈ (significant ns).head?, m.isImportant = false := by
  intro m head
  have built : ∀ m ∈ ns, m.Built fun _ => True := fun m member => (whole m member).built
  have first := head?_roles_of_importantAfter? none (Node.isImportant_of_mem_pieces _)
  rw [Node.roles_pieces built, List.head?_map, Option.mem_def.1 head] at first
  simpa [Node.role_eq_important] using first

theorem lays_pieces {lead : List Node} (comments : ∀ m ∈ lead, m.token = .comment)
    (ns : List Node) : Lays (lead ++ ns) (pieces (some (textOf lead)) ns) (significant ns) := by
  induction ns generalizing lead with
  | nil =>
    rw [pieces.eq_def]
    exact .trail fun n member => Node.isTrivia_of_comment (comments n (by simpa using member))
  | cons n ns ih =>
    by_cases trivia : n.isTrivia
    · have skipped : significant (n :: ns) = significant ns := by simp [significant, trivia]
      rw [skipped]
      rcases Node.isTrivia_iff.1 trivia with blank | comment
      · rw [Node.pieces_blank_some ns blank]
        exact .blank comments blank (@ih [] (by simp))
      · rw [Node.pieces_comment ns comment, List.append_cons]
        have text : (some (textOf lead)).map (· ++ n.text) = some (textOf (lead ++ [n])) := by
          simp [Node.textOf_append, textOf]
        rw [text]
        exact ih (comments_concat comments comment)
    · have solid : n.isTrivia = false := by simpa using trivia
      rw [Node.pieces_solid ns solid, Node.significant_cons solid]
      exact .solid comments solid (@ih [] (by simp))

theorem lays_markImportant {lead : List Node} (comments : ∀ m ∈ lead, m.token = .comment)
    (ns : List Node) (whole : ∀ n ∈ ns, n.Whole) :
    Lays (lead ++ ns) (markImportant (pieces (some (textOf lead)) ns))
      (Node.unmarked (significant ns)) := by
  -- An exclamation mark takes the nodes up to its word, so the induction is on how many are left.
  induction h : ns.length using Nat.strong_induction_on generalizing ns lead with
  | _ length ih =>
    subst h
    obtain _ | ⟨n, ns⟩ := ns
    · rw [pieces.eq_def, markImportant.eq_def]
      exact .trail fun n member => Node.isTrivia_of_comment (comments n (by simpa using member))
    have wholeLater : ∀ m ∈ ns, m.Whole := fun m member => whole m (by simp [member])
    by_cases trivia : n.isTrivia
    · have skipped : significant (n :: ns) = significant ns := by simp [significant, trivia]
      rw [skipped]
      rcases Node.isTrivia_iff.1 trivia with blank | comment
      · rw [Node.pieces_blank_some ns blank, markImportant_of_ne (by simp)]
        exact .blank comments blank (@ih _ (by simp) [] (by simp) ns wholeLater rfl)
      · rw [Node.pieces_comment ns comment, List.append_cons]
        have text : (some (textOf lead)).map (· ++ n.text) = some (textOf (lead ++ [n])) := by
          simp [Node.textOf_append, textOf]
        rw [text]
        exact ih _ (by simp) (comments_concat comments comment) ns wholeLater rfl
    have solid : n.isTrivia = false := by simpa using trivia
    rw [Node.pieces_solid ns solid, Node.significant_cons solid, Option.getD_some]
    by_cases bang : n.isBang
    · have kind : (n.piece (textOf lead)).kind = .bang :=
        Node.kind_piece_bang (by simpa [Node.isBang] using bang) _
      cases found : importantAfter? (pieces (some []) ns) with
      | some result =>
        obtain ⟨t, rest⟩ := result
        obtain ⟨gap, word, more, rfl, blanks, important, rfl, rfl⟩ :=
          Node.exists_importantAfter? wholeLater found
        have kept : Node.unmarked (n :: significant (gap ++ word :: more)) =
            Node.unmarked (significant more) := by
          rw [Node.significant_append, Node.significant_eq_nil blanks, List.nil_append,
            Node.significant_cons (Node.isTrivia_of_isImportant important), Node.unmarked]
          simp [bang, important]
        have wholeMore : ∀ m ∈ more, m.Whole := fun m member => wholeLater m (by simp [member])
        rw [markImportant_of_some kind found, kept]
        exact .important comments solid bang blanks important
          (@ih more.length (by simp; omega) [] (by simp) more wholeMore rfl)
      | none =>
        have other := isImportant_eq_false_of_importantAfter? wholeLater found
        rw [markImportant_of_none kind found, Node.unmarked_cons fun _ => other]
        exact .solid comments solid (@ih _ (by simp) [] (by simp) ns wholeLater rfl)
    · have kind : (n.piece (textOf lead)).kind ≠ .bang :=
        Node.kind_piece_ne_bang (by simpa [Node.isBang] using bang) _
      rw [markImportant_of_ne kind, Node.unmarked_cons fun isBang => absurd isBang bang]
      exact .solid comments solid (@ih _ (by simp) [] (by simp) ns wholeLater rfl)

end Piece

end CssOutline
