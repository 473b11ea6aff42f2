import CssOutline.Proofs.Declarations

/-! What a custom property keeps of its nodes: their text from the first to the last, without the
blanks and comments around it and without `!important` at the end. Of the last node only the first
token is kept. -/

namespace CssOutline

namespace Node

def trimmed (ns : List Node) : List Node :=
  (dropTrivia (dropTrivia ns).reverse).reverse

/-- The nodes before an exclamation mark and the word `important` at the end. -/
def beforeImportant? (ns : List Node) : Option (List Node) :=
  match dropTrivia ns.reverse with
  | [] => none
  | word :: front =>
    match dropTrivia front with
    | [] => none
    | bang :: front => if word.isImportant && bang.isBang then some front.reverse else none

/-- The components of the value of a custom property, and what stands between them. -/
def components (ns : List Node) : List Node :=
  trimmed ((beforeImportant? ns).getD ns)

/-- The text up to the end of the first token of the last node. -/
def keptText (ns : List Node) : List Char :=
  textOf ns.dropLast ++ (ns.getLast?.map headText).getD []

theorem exists_dropTrivia (ns : List Node) :
    ∃ lead, ns = lead ++ dropTrivia ns ∧ (∀ n ∈ lead, n.isTrivia) ∧
      ∀ n ∈ (dropTrivia ns).head?, n.isTrivia = false := by
  refine ⟨ns.takeWhile isTrivia, List.takeWhile_append_dropWhile.symm, ?_, ?_⟩
  · exact fun n member => List.mem_takeWhile_imp member
  · intro n first
    have stop := List.head?_dropWhile_not isTrivia ns
    rw [dropTrivia] at first
    simpa [Option.mem_def.1 first] using stop

theorem exists_dropTrivia_reverse (ns : List Node) :
    ∃ trail, ns = (dropTrivia ns.reverse).reverse ++ trail ∧ (∀ n ∈ trail, n.isTrivia) ∧
      ∀ n ∈ (dropTrivia ns.reverse).reverse.getLast?, n.isTrivia = false := by
  obtain ⟨lead, whole, blank, first⟩ := exists_dropTrivia ns.reverse
  refine ⟨lead.reverse, ?_, by simpa using blank, by simpa using first⟩
  rw [← List.reverse_append, ← whole, List.reverse_reverse]

theorem exists_trimmed (ns : List Node) :
    ∃ lead trail, ns = lead ++ (trimmed ns ++ trail) ∧ (∀ n ∈ lead, n.isTrivia) ∧
      (∀ n ∈ trail, n.isTrivia) ∧ (∀ n ∈ (trimmed ns).head?, n.isTrivia = false) ∧
      ∀ n ∈ (trimmed ns).getLast?, n.isTrivia = false := by
  obtain ⟨lead, whole, blank, first⟩ := exists_dropTrivia ns
  obtain ⟨trail, inner, blankTrail, last⟩ := exists_dropTrivia_reverse (dropTrivia ns)
  refine ⟨lead, trail, ?_, blank, blankTrail, ?_, last⟩
  · rw [trimmed, ← inner, ← whole]
  · intro n member
    apply first n
    rw [inner, ← trimmed, List.head?_append, Option.mem_def.1 member]
    rfl

theorem exists_beforeImportant? {ns front : List Node} (found : beforeImportant? ns = some front) :
    ∃ bang gap word trail, ns = front ++ bang :: (gap ++ word :: trail) ∧ bang.isBang ∧
      word.isImportant ∧ (∀ n ∈ gap, n.isTrivia) ∧ ∀ n ∈ trail, n.isTrivia := by
  obtain ⟨trail, whole, blankTrail, _⟩ := exists_dropTrivia_reverse ns
  unfold beforeImportant? at found
  split at found
  · cases found
  rename_i word rest ending
  obtain ⟨gap, inner, blank, _⟩ := exists_dropTrivia rest
  split at found
  · cases found
  rename_i bang before same
  split at found
  · rename_i marked
    cases found
    obtain ⟨isWord, isBang⟩ : word.isImportant ∧ bang.isBang := by simpa using marked
    refine ⟨bang, gap.reverse, word, trail, ?_, isBang, isWord, by simpa using blank, blankTrail⟩
    rw [whole, ending, inner, same]
    simp
  · cases found

theorem significant_append (ns ms : List Node) :
    significant (ns ++ ms) = significant ns ++ significant ms :=
  List.filter_append ..

theorem significant_eq_nil {ns : List Node} (blank : ∀ n ∈ ns, n.isTrivia) :
    significant ns = [] := by
  simpa [significant] using blank

theorem significant_cons {n : Node} (solid : n.isTrivia = false) (ns : List Node) :
    significant (n :: ns) = n :: significant ns := by
  simp [significant, solid]

theorem significant_dropTrivia (ns : List Node) : significant (dropTrivia ns) = significant ns := by
  obtain ⟨lead, whole, blank, _⟩ := exists_dropTrivia ns
  conv_rhs => rw [whole, significant_append, significant_eq_nil blank, List.nil_append]

section Pieces

theorem pieces_none_append {lead : List Node} (blank : ∀ n ∈ lead, n.isTrivia) (ns : List Node) :
    pieces none (lead ++ ns) = pieces none ns := by
  induction lead with
  | nil => rfl
  | cons n lead ih =>
    have later := ih fun m member => blank m (by simp [member])
    rcases isTrivia_iff.1 (blank n (by simp)) with space | comment
    · rw [List.cons_append, pieces_blank_none _ space, later]
    · rw [List.cons_append, pieces_comment _ comment]
      exact later

theorem pieces_none_solid {n : Node} (solid : n.isTrivia = false) (ns : List Node) :
    pieces none (n :: ns) = pieces (some []) (n :: ns) := by
  rw [pieces_solid ns solid, pieces_solid ns solid]
  rfl

theorem exists_pieces_solid {n : Node} (solid : n.isTrivia = false) (ns more : List Node)
    (lead : List Char) :
    ∃ ps lead', pieces (some lead) (ns ++ n :: more) =
        ps ++ n.piece lead' :: pieces (some []) more ∧
      pieces (some lead) (ns ++ [n]) = ps ++ [n.piece lead'] ∧
      ps.flatMap Piece.text ++ lead' = lead ++ textOf ns := by
  have none : pieces (some []) [] = [] := by rw [pieces.eq_def]
  induction ns generalizing lead with
  | nil =>
    refine ⟨[], lead, pieces_solid more solid _, ?_, by simp [textOf]⟩
    rw [List.nil_append, pieces_solid [] solid, none]
    rfl
  | cons m ns ih =>
    simp only [List.cons_append, textOf]
    by_cases trivia : m.isTrivia
    · rcases isTrivia_iff.1 trivia with blank | comment
      · obtain ⟨ps, lead', whole, single, text⟩ := ih []
        refine ⟨⟨.space, lead ++ m.text, lead ++ m.text⟩ :: ps, lead', ?_, ?_, ?_⟩
        · rw [pieces_blank_some _ blank, whole, List.cons_append]
        · rw [pieces_blank_some _ blank, single, List.cons_append]
        · simp [text]
      · obtain ⟨ps, lead', whole, single, text⟩ := ih (lead ++ m.text)
        refine ⟨ps, lead', ?_, ?_, by simpa using text⟩
        · rw [pieces_comment _ comment]
          exact whole
        · rw [pieces_comment _ comment]
          exact single
    · obtain ⟨ps, lead', whole, single, text⟩ := ih []
      refine ⟨m.piece lead :: ps, lead', ?_, ?_, ?_⟩
      · rw [pieces_solid _ (by simpa using trivia), whole]
        rfl
      · rw [pieces_solid _ (by simpa using trivia), single]
        rfl
      · simpa [piece] using text

end Pieces

end Node

namespace Role

theorem unmarked_ne_self (rs : List Role) :
    unmarked (bang :: important :: rs) ≠ bang :: important :: rs := by
  have shorter : ∀ rs : List Role, (unmarked rs).length ≤ rs.length := by
    intro rs
    fun_induction unmarked rs with
    | case1 rs ih => simp only [List.length_cons]; omega
    | case2 r rs _ ih => simpa using ih
    | case3 => simp
  intro same
  have short := shorter rs
  have lengths := congrArg List.length same
  simp only [unmarked, List.length_cons] at lengths
  omega

theorem unmarked_eq_self_cons {r : Role} {rs : List Role} (plain : unmarked (r :: rs) = r :: rs) :
    (r = bang → rs.head? ≠ some important) ∧ unmarked rs = rs := by
  have other : r = bang → rs.head? ≠ some important := by
    rintro rfl first
    obtain _ | ⟨s, later⟩ := rs
    · cases first
    · cases first
      exact unmarked_ne_self later plain
  refine ⟨other, ?_⟩
  rw [unmarked_cons other] at plain
  exact (List.cons.inj plain).2

end Role

namespace Piece

theorem markImportant_append_of_plain {ps qs : List Piece}
    (plain : Role.unmarked (roles ps) = roles ps) (next : (roles qs).head? ≠ some .important) :
    markImportant (ps ++ qs) = ps ++ markImportant qs := by
  -- The mark of a piece in `ps` could only be completed by a word that is the first in `qs`.
  induction ps with
  | nil => rfl
  | cons p ps ih =>
    cases role : p.role? with
    | none =>
      have kind : p.kind ≠ .bang := by
        intro same
        simp [role?, same] at role
      rw [roles_cons_none role] at plain
      rw [List.cons_append, markImportant_of_ne kind, ih plain, List.cons_append]
    | some r =>
      rw [roles_cons_some role] at plain
      obtain ⟨other, plain⟩ := Role.unmarked_eq_self_cons plain
      rw [List.cons_append, List.cons_append, ← ih plain]
      by_cases kind : p.kind = .bang
      · cases found : importantAfter? (ps ++ qs) with
        | none => rw [markImportant_of_none kind found]
        | some result =>
          have first := congrArg List.head? (roles_of_importantAfter? found)
          have bang := (kind_of_role? role).1.2 kind
          cases here : roles ps with
          | nil =>
            have gone : roles (ps ++ qs) = roles qs := by
              rw [roles, List.filterMap_append, ← roles, here]
              rfl
            rw [gone] at first
            exact absurd first next
          | cons s rs =>
            have same : (roles (ps ++ qs)).head? = (roles ps).head? := by
              rw [roles, List.filterMap_append, ← roles, here]
              rfl
            rw [same] at first
            exact absurd first (other bang)
      · rw [markImportant_of_ne kind]

theorem isOutside_of_roles {ps : List Piece} (none : roles ps = []) : ∀ p ∈ ps, p.isOutside := by
  intro p member
  have role := List.filterMap_eq_nil_iff.1 none p member
  unfold role? at role
  unfold isOutside
  cases kind : p.kind <;> simp_all

theorem dropWhile_reverse_cons (p : Piece) (ps : List Piece) :
    (p :: ps).reverse.dropWhile isOutside =
      if ps.all isOutside then (if p.isOutside then [] else [p])
      else ps.reverse.dropWhile isOutside ++ [p] := by
  have none : (ps.reverse.dropWhile isOutside).isEmpty = ps.all isOutside := by
    rw [Bool.eq_iff_iff]
    simp
  rw [List.reverse_cons, List.dropWhile_append, none]
  split
  · rw [List.dropWhile_cons]
    rfl
  · rfl

theorem source_cons (p : Piece) (ps : List Piece) :
    source (p :: ps) =
      if ps.all isOutside then (if p.isOutside then [] else p.text)
      else p.text ++ source ps := by
  rw [source, dropWhile_reverse_cons]
  split
  · split <;> simp
  · simp [source]

theorem tokenSource_append_outside (ps : List Piece) {qs : List Piece}
    (outside : ∀ q ∈ qs, q.isOutside) : tokenSource (ps ++ qs) = tokenSource ps := by
  rw [tokenSource, List.reverse_append, List.dropWhile_append_of_pos (by simpa using outside),
    ← tokenSource]

theorem tokenSource_append_solid (ps : List Piece) {q : Piece} (solid : q.isOutside = false) :
    tokenSource (ps ++ [q]) = ps.flatMap text ++ q.head := by
  rw [tokenSource, List.reverse_append, List.reverse_singleton, List.singleton_append,
    List.dropWhile_cons_of_neg (by simp [solid])]
  simp

theorem any_isImportant_markImportant (ps : List Piece) (plain : ∀ p ∈ ps, p.isImportant = false) :
    (markImportant ps).any isImportant ↔ Role.unmarked (roles ps) ≠ roles ps := by
  fun_induction markImportant ps with
  | case1 => simp [roles, Role.unmarked]
  | case2 p ps bang t rest found _ ih =>
    have marks : roles (p :: ps) = .bang :: .important :: roles rest := by
      rw [roles_cons_some (r := .bang) (by simp [role?, bang]), roles_of_importantAfter? found]
    rw [marks]
    simp [isImportant, Role.unmarked_ne_self]
  | case3 p ps bang none ih =>
    rw [roles_cons_some (show p.role? = some .bang by simp [role?, bang]),
      Role.unmarked_cons fun _ => head?_roles_of_importantAfter? none
        (List.forall_mem_of_forall_mem_cons plain)]
    simpa [plain p (by simp)] using ih (List.forall_mem_of_forall_mem_cons plain)
  | case4 p ps noBang ih =>
    have later := List.forall_mem_of_forall_mem_cons plain
    cases role : p.role? with
    | none =>
      rw [roles_cons_none role]
      simpa [plain p (by simp)] using ih later
    | some r =>
      have other : r ≠ .bang := fun same => noBang ((kind_of_role? role).1.1 same)
      rw [roles_cons_some role, Role.unmarked_cons fun same => absurd same other]
      simpa [plain p (by simp)] using ih later

end Piece

namespace Node

theorem isTrivia_of_isBang {n : Node} (bang : n.isBang) : n.isTrivia = false := by
  have same : n.token = .delim '!' := by simpa [isBang] using bang
  simp [isTrivia, same, Token.isTrivia]

theorem isTrivia_of_isImportant {n : Node} (important : n.isImportant) : n.isTrivia = false := by
  unfold isImportant at important
  split at important
  · split at important
    · rename_i same
      simp [isTrivia, token, same, Token.isTrivia]
    · cases important
  · cases important

theorem exists_components (ns : List Node) :
    ∃ lead rest, ns = lead ++ (components ns ++ rest) ∧ (∀ n ∈ lead, n.isTrivia) ∧
      (∀ n ∈ (components ns).head?, n.isTrivia = false) ∧
      (∀ n ∈ (components ns).getLast?, n.isTrivia = false) ∧
      (significant rest).map role =
        if (beforeImportant? ns).isSome then [.bang, .important] else [] := by
  cases found : beforeImportant? ns with
  | none =>
    have same : components ns = trimmed ns := by rw [components, found]; rfl
    obtain ⟨lead, trail, whole, blank, blankTrail, first, last⟩ := exists_trimmed ns
    rw [same]
    exact ⟨lead, trail, whole, blank, first, last, by simp [significant_eq_nil blankTrail]⟩
  | some front =>
    have same : components ns = trimmed front := by rw [components, found]; rfl
    obtain ⟨bang, gap, word, trail, rfl, isBang, isWord, blankGap, blankTrail⟩ :=
      exists_beforeImportant? found
    obtain ⟨lead, trail', whole, blank, blankTrail', first, last⟩ := exists_trimmed front
    rw [same]
    refine ⟨lead, trail' ++ bang :: (gap ++ word :: trail), ?_, blank, first, last, ?_⟩
    · nth_rewrite 1 [whole]
      simp
    · rw [significant_append, significant_eq_nil blankTrail', List.nil_append,
        significant_cons (isTrivia_of_isBang isBang), significant_append,
        significant_eq_nil blankGap, List.nil_append,
        significant_cons (isTrivia_of_isImportant isWord), significant_eq_nil blankTrail]
      simp [role_eq_bang.2 isBang, role_eq_important.2 isWord]

theorem exists_pieces_components {core : List Node} (first : ∀ n ∈ core.head?, n.isTrivia = false)
    (last : ∀ n ∈ core.getLast?, n.isTrivia = false) (rest : List Node) :
    ∃ lead, pieces none (core ++ rest) = pieces none core ++ pieces lead rest ∧
      Piece.tokenSource (pieces none core) = keptText core := by
  rcases List.eq_nil_or_concat core with rfl | ⟨front, n, rfl⟩
  · refine ⟨none, ?_, ?_⟩
    · rw [List.nil_append, pieces.eq_def none [], List.nil_append]
    · rw [pieces.eq_def]
      rfl
  · have solid : n.isTrivia = false := last n (by simp)
    have leadless : ∀ ms, pieces none (front ++ n :: ms) = pieces (some []) (front ++ n :: ms) := by
      intro ms
      obtain _ | ⟨m, front⟩ := front
      · exact pieces_none_solid solid ms
      · exact pieces_none_solid (first m (by simp)) _
    obtain ⟨ps, lead, whole, single, text⟩ := exists_pieces_solid solid front rest []
    have outside : (n.piece lead).isOutside = false := by
      simp only [piece, Piece.isOutside]
      split_ifs
      · rfl
      · rfl
      · cases value? lead n <;> rfl
    rw [List.concat_eq_append]
    refine ⟨some [], ?_, ?_⟩
    · rw [List.append_assoc, List.singleton_append, leadless, whole, leadless, single]
      simp
    · rw [leadless, single, Piece.tokenSource_append_solid ps outside]
      simp only [piece, keptText, List.dropLast_concat, List.getLast?_concat, Option.map_some,
        Option.getD_some]
      rw [← List.append_assoc, text, List.nil_append]

/-- A custom property keeps the text of its components, of the last one only the first token. -/
theorem readCustom_eq {ns : List Node} {P : Lexeme → Prop} (built : ∀ n ∈ ns, n.Built P)
    (plain : unmarked (significant (components ns)) = significant (components ns)) :
    readCustom ns =
      (.raw (String.ofList (keptText (components ns))), (beforeImportant? ns).isSome) := by
  obtain ⟨lead, rest, whole, blank, first, last, ending⟩ := exists_components ns
  have builtCore : ∀ n ∈ components ns, n.Built P := by
    intro n member
    exact built n (by rw [whole]; simp [member])
  have builtRest : ∀ n ∈ rest, n.Built P := by
    intro n member
    exact built n (by rw [whole]; simp [member])
  obtain ⟨lead', split, kept⟩ := exists_pieces_components first last rest
  have all : pieces none ns = pieces none (components ns) ++ pieces lead' rest := by
    nth_rewrite 1 [whole]
    rw [pieces_none_append blank, split]
  have plainRoles : Role.unmarked (Piece.roles (pieces none (components ns))) =
      Piece.roles (pieces none (components ns)) := by
    rw [roles_pieces builtCore, ← map_role_unmarked, plain]
  have restRoles := roles_pieces builtRest lead'
  have next : (Piece.roles (pieces lead' rest)).head? ≠ some .important := by
    rw [restRoles, ending]
    split <;> simp
  have outside : ∀ p ∈ Piece.markImportant (pieces lead' rest), p.isOutside := by
    apply Piece.isOutside_of_roles
    rw [Piece.roles_markImportant _ (isImportant_of_mem_pieces lead'), restRoles, ending]
    split <;> rfl
  have flag : (Piece.markImportant (pieces lead' rest)).any Piece.isImportant =
      (beforeImportant? ns).isSome := by
    rw [Bool.eq_iff_iff, Piece.any_isImportant_markImportant _ (isImportant_of_mem_pieces lead'),
      restRoles, ending]
    cases beforeImportant? ns <;> simp [Role.unmarked]
  have none : (pieces .none (components ns)).any Piece.isImportant = false := by
    have later : ∀ p ∈ pieces .none (components ns), p.isImportant = false :=
      isImportant_of_mem_pieces .none
    simpa using later
  rw [readCustom, all, Piece.markImportant_append_of_plain plainRoles next,
    Piece.tokenSource_append_outside _ outside, kept, List.any_append, none, flag, Bool.false_or]

end Node

end CssOutline
