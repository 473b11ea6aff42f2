import CssOutline.Proofs.Bodies
import CssOutline.Proofs.Overrun

/-! When the nodes after a name make a declaration, and what a custom property keeps of them. Only
the role of each node matters for the first: a value is refused if it has a block in braces or
nothing but commas, however the functions and brackets in it are read. -/

namespace CssOutline

/-- What a node is to a value, whatever value it has itself. -/
inductive Role where
  | comma
  | bang
  /-- The word after an exclamation mark that makes a declaration important. -/
  | important
  | word
  | block
deriving DecidableEq, Repr

/-- Takes out each exclamation mark with the word `important` after it. -/
def Role.unmarked : List Role → List Role
  | bang :: important :: rs => unmarked rs
  | r :: rs => r :: unmarked rs
  | [] => []

namespace Node

def isBang (n : Node) : Bool :=
  n.token == .delim '!'

def isImportant : Node → Bool
  | leaf l =>
    match l.token with
    | .ident name => Text.sameName name "important"
    | _ => false
  | block _ _ _ => false

def role (n : Node) : Role :=
  if n.isComma then .comma
  else if n.isBang then .bang
  else if n.isImportant then .important
  else if n.isCurly then .block
  else .word

/-- Takes out each exclamation mark with the word `important` after it. -/
def unmarked : List Node → List Node
  | [] => []
  | [n] => [n]
  | n :: m :: ns => if n.isBang && m.isImportant then unmarked ns else n :: unmarked (m :: ns)

/-- The nodes after the name of a declaration: a colon, and then anything for a custom property,
or no block in braces and something else than commas for any other. -/
def Declares (name : String) (ns : List Node) : Prop :=
  ∃ colon value, dropTrivia ns = colon :: value ∧ colon.token = .colon ∧
    ("--".toList <+: name.toList ∨
      (∀ n ∈ value, n.isCurly = false) ∧ ∃ n ∈ unmarked (significant value), n.isComma = false)

end Node

/-- The role of a piece; none for blanks and for what makes the declaration important. -/
def Value.role : Value → Role
  | keyword name => if Text.sameName name "important" then .important else .word
  | _ => .word

def Piece.role? (p : Piece) : Option Role :=
  match p.kind with
  | .space => none
  | .important => none
  | .comma => some .comma
  | .bang => some .bang
  | .word v => some v.role
  | .block => some .block

def Piece.roles (ps : List Piece) : List Role :=
  ps.filterMap role?

namespace Piece

variable {p : Piece} {ps : List Piece}

theorem roles_cons_none (skipped : p.role? = none) : roles (p :: ps) = roles ps :=
  List.filterMap_cons_none skipped

theorem roles_cons_some {r : Role} (role : p.role? = some r) : roles (p :: ps) = r :: roles ps :=
  List.filterMap_cons_some role

theorem kind_of_role? {r : Role} (role : p.role? = some r) :
    (r = .bang ↔ p.kind = .bang) ∧ (r = .block ↔ p.isBlock) := by
  unfold role? at role
  unfold isBlock
  split at role
  case h_5 v kind =>
    have word : v.role = .important ∨ v.role = .word := by
      unfold Value.role
      split
      · split <;> simp
      · simp
    cases role
    rcases word with word | word <;> simp [word, kind]
  all_goals
    rename_i kind
    cases role
    try simp [kind]

end Piece

namespace Role

theorem unmarked_cons {r : Role} {rs : List Role} (other : r = bang → rs.head? ≠ some important) :
    unmarked (r :: rs) = r :: unmarked rs := by
  rw [unmarked.eq_def]
  split
  · rename_i same
    cases same
    exact absurd rfl (other rfl)
  · rename_i same
    cases same
    rfl
  · rename_i same
    cases same

theorem mem_unmarked {r : Role} (bang : r ≠ bang) (important : r ≠ important) (rs : List Role) :
    r ∈ unmarked rs ↔ r ∈ rs := by
  fun_induction unmarked rs with
  | case1 rs ih => simp [ih, bang, important]
  | case2 s rs _ ih => simp [ih]
  | case3 => simp

end Role

namespace Node

theorem role_eq_comma {n : Node} : n.role = .comma ↔ n.isComma := by
  unfold role
  split_ifs <;> simp_all

theorem role_eq_bang {n : Node} : n.role = .bang ↔ n.isBang := by
  unfold role
  split_ifs with comma <;> simp_all [isComma, isBang]

theorem role_eq_important {n : Node} : n.role = .important ↔ n.isImportant := by
  cases n with
  | block => simp only [role, isImportant]; split_ifs <;> simp_all
  | leaf l =>
    unfold role
    split_ifs with comma bang
    · have same : l.token = .comma := by simpa [isComma, token] using comma
      simp [isImportant, same]
    · have same : l.token = .delim '!' := by simpa [isBang, token] using bang
      simp [isImportant, same]
    · simp_all
    · simp_all
    · simp_all

theorem role_eq_block {n : Node} : n.role = .block ↔ n.isCurly := by
  cases curly : n.isCurly with
  | true =>
    have same : n.token = .openCurly := by simpa [isCurly] using curly
    have word : n.isImportant = false := by
      cases n with
      | block => rfl
      | leaf l =>
        have same : l.token = .openCurly := same
        simp [isImportant, same]
    simp [role, isComma, isBang, same, word, curly]
  | false =>
    unfold role
    split_ifs <;> simp_all

theorem map_role_unmarked (ns : List Node) :
    (unmarked ns).map role = Role.unmarked (ns.map role) := by
  fun_induction unmarked ns with
  | case1 => rfl
  | case2 n =>
    rw [List.map_singleton, Role.unmarked_cons (by simp)]
    rfl
  | case3 n m ns marked ih =>
    obtain ⟨bang, important⟩ : n.isBang ∧ m.isImportant := by simpa using marked
    rw [ih, List.map_cons, List.map_cons, role_eq_bang.2 bang, role_eq_important.2 important]
    rfl
  | case4 n m ns plain ih =>
    have other : n.role = .bang → ((m :: ns).map role).head? ≠ some .important := by
      intro bang important
      have word : m.role = .important := by simpa using important
      exact plain (by simp [role_eq_bang.1 bang, role_eq_important.1 word])
    rw [List.map_cons, ih, ← Role.unmarked_cons other]
    rfl

def piece (lead : List Char) (n : Node) : Piece where
  kind :=
    if n.isComma then .comma
    else if n.isBang then .bang
    else
      match value? lead n with
      | some v => .word v
      | none => .block
  text := lead ++ n.text
  head := lead ++ n.headText

theorem kind_piece_bang {n : Node} (bang : n.token = .delim '!') (lead : List Char) :
    (n.piece lead).kind = .bang := by
  simp [piece, isComma, isBang, bang]

theorem kind_piece_ne_bang {n : Node} (plain : n.token ≠ .delim '!') (lead : List Char) :
    (n.piece lead).kind ≠ .bang := by
  have noBang : n.isBang = false := by simpa [isBang] using plain
  rw [piece]
  by_cases comma : n.isComma
  · simp [comma]
  · cases value? lead n <;> simp [comma, noBang]

section Pieces

variable {n : Node} (ns : List Node)

theorem pieces_comment (comment : n.token = .comment) (lead : Option (List Char)) :
    pieces lead (n :: ns) = pieces (lead.map (· ++ n.text)) ns := by
  rw [pieces.eq_def]
  simp [comment]

theorem pieces_blank_none (blank : n.token = .whitespace) :
    pieces none (n :: ns) = pieces none ns := by
  rw [pieces.eq_def]
  simp [blank]

theorem pieces_blank_some (blank : n.token = .whitespace) (lead : List Char) :
    pieces (some lead) (n :: ns) =
      ⟨.space, lead ++ n.text, lead ++ n.text⟩ :: pieces (some []) ns := by
  rw [pieces.eq_def]
  simp [blank]

theorem pieces_solid (solid : n.isTrivia = false) (lead : Option (List Char)) :
    pieces lead (n :: ns) = n.piece (lead.getD []) :: pieces (some []) ns := by
  rw [pieces.eq_def]
  simp only
  split
  · simp_all [isTrivia, Token.isTrivia]
  · simp_all [isTrivia, Token.isTrivia]
  · simp_all [isTrivia, Token.isTrivia]
  · rw [piece]
    congr 2
    split
    · simp_all [isComma]
    · simp_all [isComma, isBang]
    · rename_i noComma noBang
      have comma : n.isComma = false := by simpa [isComma] using noComma
      have bang : n.isBang = false := by simpa [isBang] using noBang
      cases value? _ n <;> simp [comma, bang]

end Pieces

theorem isTrivia_iff {n : Node} : n.isTrivia ↔ n.token = .whitespace ∨ n.token = .comment := by
  unfold isTrivia
  generalize n.token = t
  cases t <;> simp [Token.isTrivia]

theorem role_value? {n : Node} {P : Lexeme → Prop} (built : n.Built P) (plain : n.isComma = false)
    (noBang : n.isBang = false) (lead : List Char) :
    ((value? lead n).map Value.role).getD .block = n.role := by
  unfold role
  rw [if_neg (by simp [plain]), if_neg (by simp [noBang])]
  cases built with
  | @leaf l _ flat =>
    obtain ⟨t, text, start⟩ := l
    cases t with
    | ident name =>
      simp only [value?, Value.ofToken, Option.map_some, Option.getD_some, isImportant]
      -- The one name that is no keyword is not the word either.
      by_cases current : Text.sameName name "currentcolor"
      · have other : Text.sameName name "important" = false := by
          simp only [Text.sameName, beq_iff_eq] at current ⊢
          rw [current]
          decide +kernel
        simp [current, other, Value.role, isCurly, token]
      · simp [current, Value.role, isCurly, token]
    | function => cases flat
    | openParen => cases flat
    | openSquare => cases flat
    | openCurly => cases flat
    | _ =>
      simp only [value?, Value.ofToken, Value.ofToken.hexOr, Value.exactOrRaw, Option.map_some,
        Option.getD_some]
      first | rfl | (split <;> first | rfl | (split <;> rfl))
  | @block l body closing _ opens _ _ _ =>
    obtain ⟨t, text, start⟩ := l
    cases t <;> simp only [Token.closing?, Option.isSome_none, Bool.false_eq_true] at opens
    case function name =>
      rw [value?]
      simp only [isImportant]
      split
      · rfl
      · rfl
      · simp only [callValue]
        split <;> rfl
    all_goals
      rw [value?]
      rfl

theorem role?_piece {n : Node} {P : Lexeme → Prop} (built : n.Built P) (lead : List Char) :
    (n.piece lead).role? = some n.role := by
  by_cases comma : n.isComma
  · simp [piece, Piece.role?, comma, role_eq_comma.2 comma]
  by_cases bang : n.isBang
  · simp [piece, Piece.role?, comma, bang, role_eq_bang.2 bang]
  have read := role_value? built (by simpa using comma) (by simpa using bang) lead
  rw [← read]
  unfold piece Piece.role?
  simp only [comma, bang, Bool.false_eq_true, ↓reduceIte]
  cases value? lead n <;> rfl

theorem roles_pieces {ns : List Node} {P : Lexeme → Prop} (built : ∀ n ∈ ns, n.Built P)
    (lead : Option (List Char)) :
    Piece.roles (pieces lead ns) = (significant ns).map role := by
  induction ns generalizing lead with
  | nil =>
    rw [pieces.eq_def]
    rfl
  | cons n ns ih =>
    have later := ih fun m member => built m (by simp [member])
    by_cases trivia : n.isTrivia
    · have skipped : significant (n :: ns) = significant ns := by simp [significant, trivia]
      rw [skipped]
      rcases isTrivia_iff.1 trivia with blank | comment
      · cases lead with
        | none => rw [pieces_blank_none ns blank, later]
        | some l => rw [pieces_blank_some ns blank, Piece.roles_cons_none rfl, later]
      · rw [pieces_comment ns comment, later]
    · have kept : significant (n :: ns) = n :: significant ns := by simp [significant, trivia]
      rw [kept, List.map_cons, pieces_solid ns (by simpa using trivia),
        Piece.roles_cons_some (role?_piece (built n (by simp)) _), later]

end Node

namespace Piece

theorem roles_of_importantAfter? {ps rest : List Piece} {t : List Char}
    (found : importantAfter? ps = some (t, rest)) : roles ps = .important :: roles rest := by
  obtain ⟨spaces, word, name, rfl, blank, kind, marked⟩ := exists_of_importantAfter? found
  have nothing : spaces.filterMap role? = [] :=
    List.filterMap_eq_nil_iff.2 fun p member => by simp [role?, blank p member]
  rw [roles, List.filterMap_append, nothing, List.nil_append]
  exact roles_cons_some (by simp [role?, kind, Value.role, marked])

theorem head?_roles_of_importantAfter? {ps : List Piece} (noWord : importantAfter? ps = none)
    (unmarked : ∀ p ∈ ps, p.isImportant = false) : (roles ps).head? ≠ some .important := by
  induction ps with
  | nil => simp [roles]
  | cons p ps ih =>
    have first := unmarked p (by simp)
    rw [importantAfter?] at noWord
    cases kind : p.kind with
    | space =>
      simp only [kind, Option.map_eq_none_iff] at noWord
      rw [roles_cons_none (by simp [role?, kind])]
      exact ih noWord fun q member => unmarked q (by simp [member])
    | important => simp [isImportant, kind] at first
    | comma => simp [roles_cons_some (show p.role? = some .comma by simp [role?, kind])]
    | bang => simp [roles_cons_some (show p.role? = some .bang by simp [role?, kind])]
    | block => simp [roles_cons_some (show p.role? = some .block by simp [role?, kind])]
    | word v =>
      rw [roles_cons_some (show p.role? = some v.role by simp [role?, kind])]
      cases v with
      | keyword name => simp_all [Value.role]
      | _ => simp [Value.role]

theorem roles_markImportant (ps : List Piece) (plain : ∀ p ∈ ps, p.isImportant = false) :
    roles (markImportant ps) = Role.unmarked (roles ps) := by
  fun_induction markImportant ps with
  | case1 => rfl
  | case2 p ps bang t rest found _ ih =>
    obtain ⟨spaces, word, _, rfl, _⟩ := exists_of_importantAfter? found
    have here := roles_of_importantAfter? found
    have marks : roles (p :: (spaces ++ word :: rest)) = .bang :: .important :: roles rest := by
      rw [roles_cons_some (r := .bang) (by simp [role?, bang]), here]
    rw [marks, Role.unmarked, ← ih fun q member => plain q (by simp [member]),
      roles_cons_none (by simp [role?])]
  | case3 p ps bang none ih =>
    have role : p.role? = some .bang := by simp [role?, bang]
    have later := List.forall_mem_of_forall_mem_cons plain
    rw [roles_cons_some role, roles_cons_some role, ih later,
      Role.unmarked_cons fun _ => head?_roles_of_importantAfter? none later]
  | case4 p ps noBang ih =>
    have later := List.forall_mem_of_forall_mem_cons plain
    cases role : p.role? with
    | none => rw [roles_cons_none role, roles_cons_none role, ih later]
    | some r =>
      have other : r ≠ .bang := fun same => noBang ((kind_of_role? role).1.1 same)
      rw [roles_cons_some role, roles_cons_some role, ih later,
        Role.unmarked_cons fun same => absurd same other]

theorem wordValue_eq_nil {parts : List (List Char × Value)} :
    wordValue parts = [] ↔ parts = [] := by
  unfold wordValue
  split <;> simp_all

/-- Without a block the groups are found, and all of them are empty only if there is nothing but
commas. -/
theorem groupsFrom_of_roles (ps : List Piece) (noBlock : Role.block ∉ roles ps)
    (parts : List (List Char × Value)) (group : List Value) :
    ∃ gs, groupsFrom parts group ps = some gs ∧
      (gs.all List.isEmpty ↔ (group = [] ∧ parts = []) ∧ ∀ r ∈ roles ps, r = .comma) := by
  -- A group is empty as long as nothing was added to it or to the word that is being read, so both
  -- are part of the statement.
  induction ps generalizing parts group with
  | nil => exact ⟨_, rfl, by simp [wordValue_eq_nil, roles]⟩
  | cons p ps ih =>
    rw [roles, List.filterMap_cons] at noBlock
    rw [groupsFrom, roles, List.filterMap_cons]
    cases kind : p.kind with
    | space =>
      simp only [role?, kind] at noBlock ⊢
      obtain ⟨gs, found, empty⟩ := ih noBlock [] (group ++ wordValue parts)
      exact ⟨gs, found, by simpa [wordValue_eq_nil, roles] using empty⟩
    | important =>
      simp only [role?, kind] at noBlock ⊢
      obtain ⟨gs, found, empty⟩ := ih noBlock [] (group ++ wordValue parts)
      exact ⟨gs, found, by simpa [wordValue_eq_nil, roles] using empty⟩
    | comma =>
      simp only [role?, kind, List.mem_cons, reduceCtorEq, false_or] at noBlock ⊢
      obtain ⟨gs, found, empty⟩ := ih noBlock [] []
      refine ⟨_, by rw [found]; rfl, ?_⟩
      rw [List.all_cons, Bool.and_eq_true, empty]
      simp [wordValue_eq_nil, roles]
    | bang =>
      simp only [role?, kind, List.mem_cons, reduceCtorEq, false_or] at noBlock ⊢
      obtain ⟨gs, found, empty⟩ := ih noBlock (parts ++ [(p.text, .raw "!")]) group
      refine ⟨gs, found, ?_⟩
      rw [empty]
      simp
    | word v =>
      have solid : v.role ≠ .comma := by cases v <;> simp [Value.role]; split <;> simp
      simp only [role?, kind, List.mem_cons, not_or] at noBlock ⊢
      obtain ⟨gs, found, empty⟩ := ih noBlock.2 (parts ++ [(p.text, v)]) group
      refine ⟨gs, found, ?_⟩
      rw [empty]
      simp [solid]
    | block => simp [role?, kind] at noBlock

theorem mem_roles_of_isBlock {ps : List Piece} : (∃ p ∈ ps, p.isBlock) ↔ Role.block ∈ roles ps := by
  constructor
  · rintro ⟨p, member, block⟩
    cases role : p.role? with
    | none =>
      unfold isBlock at block
      split at block
      · rename_i kind
        simp [role?, kind] at role
      · cases block
    | some r =>
      rw [(kind_of_role? role).2.2 block] at role
      exact List.mem_filterMap.2 ⟨p, member, role⟩
  · intro found
    obtain ⟨p, member, role⟩ := List.mem_filterMap.1 found
    exact ⟨p, member, (kind_of_role? role).2.1 rfl⟩

theorem value_isOk_iff (ps : List Piece) :
    (∃ v, value ps = .ok v) ↔ Role.block ∉ roles ps ∧ ∃ r ∈ roles ps, r ≠ .comma := by
  by_cases block : Role.block ∈ roles ps
  · have none : groups ps = none := groupsFrom_of_isBlock ps (mem_roles_of_isBlock.2 block) [] []
    simp [value, none, block]
  · obtain ⟨gs, found, empty⟩ := groupsFrom_of_roles ps block [] []
    have groups : groups ps = some gs := found
    simp only [true_and, and_self] at empty
    rw [value, groups]
    by_cases commas : ∀ r ∈ roles ps, r = .comma
    · have all := empty.2 commas
      simp only [all, ↓reduceIte]
      simpa [block] using commas
    · have some := mt empty.1 commas
      simp only [some]
      push Not at commas
      simp only [Bool.false_eq_true, ↓reduceIte, block, not_false_eq_true, true_and]
      refine ⟨fun _ => commas, fun _ => ?_⟩
      split <;> exact ⟨_, rfl⟩

end Piece

namespace Node

theorem isImportant_of_mem_pieces {ns : List Node} (lead : Option (List Char)) :
    ∀ p ∈ pieces lead ns, p.isImportant = false := by
  induction ns generalizing lead with
  | nil =>
    rw [pieces.eq_def]
    simp
  | cons n ns ih =>
    by_cases trivia : n.isTrivia
    · rcases isTrivia_iff.1 trivia with blank | comment
      · cases lead with
        | none =>
          rw [pieces_blank_none ns blank]
          exact ih none
        | some l =>
          rw [pieces_blank_some ns blank]
          simpa [Piece.isImportant] using ih (some [])
      · rw [pieces_comment ns comment]
        exact ih _
    · have first : (n.piece (lead.getD [])).isImportant = false := by
        simp only [piece, Piece.isImportant]
        split_ifs
        · rfl
        · rfl
        · cases value? (lead.getD []) n <;> rfl
      rw [pieces_solid ns (by simpa using trivia)]
      simpa [first] using ih (some [])

theorem mem_significant {n : Node} {ns : List Node} :
    n ∈ significant ns ↔ n ∈ ns ∧ n.isTrivia = false := by
  simp [significant]

theorem isTrivia_of_isCurly {n : Node} (curly : n.isCurly) : n.isTrivia = false := by
  have same : n.token = .openCurly := by simpa [isCurly] using curly
  simp [isTrivia, same, Token.isTrivia]

theorem readDeclared_isOk_iff {ns : List Node} {P : Lexeme → Prop} (built : ∀ n ∈ ns, n.Built P) :
    (∃ r, readDeclared ns = .ok r) ↔
      (∀ n ∈ ns, n.isCurly = false) ∧ ∃ n ∈ unmarked (significant ns), n.isComma = false := by
  have roles : Piece.roles (Piece.markImportant (pieces none ns)) =
      (unmarked (significant ns)).map role := by
    rw [Piece.roles_markImportant _ (isImportant_of_mem_pieces none), roles_pieces built,
      map_role_unmarked]
  have noBlock : Role.block ∉ (unmarked (significant ns)).map role ↔
      ∀ n ∈ ns, n.isCurly = false := by
    rw [map_role_unmarked, Role.mem_unmarked (by simp) (by simp)]
    simp only [List.mem_map, role_eq_block, not_exists, not_and, Bool.not_eq_true]
    constructor
    · intro none n member
      by_contra curly
      have curly : n.isCurly = true := by simpa using curly
      have kept := mem_significant.2 ⟨member, isTrivia_of_isCurly curly⟩
      simp [none n kept] at curly
    · exact fun none n member => none n (mem_significant.1 member).1
  have other : (∃ r ∈ (unmarked (significant ns)).map role, r ≠ .comma) ↔
      ∃ n ∈ unmarked (significant ns), n.isComma = false := by
    simp [role_eq_comma]
  have whole := Piece.value_isOk_iff (Piece.markImportant (pieces none ns))
  rw [roles, noBlock, other] at whole
  rw [← whole, readDeclared]
  cases Piece.value (Piece.markImportant (pieces none ns)) <;> simp [Except.map]

end Node

theorem Property.isCustom_parse (name : String) :
    (Property.parse name).isCustom ↔ "--".toList <+: name.toList := by
  have hyphens : "--".toList = ['-', '-'] := rfl
  rw [hyphens, Property.parse]
  split
  · rename_i rest same
    rw [same]
    simp [isCustom]
  · rename_i other
    simp only [isCustom, Bool.false_eq_true, false_iff]
    rintro ⟨rest, same⟩
    exact other rest same.symm

theorem Sketch.readDeclaration_isOk_iff {name : String} {ns : List Node} {P : Lexeme → Prop}
    (built : ∀ n ∈ ns, n.Built P) :
    (∃ d, readDeclaration name ns = .ok d) ↔ Node.Declares name ns := by
  unfold readDeclaration Node.Declares
  cases first : Node.dropTrivia ns with
  | nil => simp
  | cons colon value =>
    have later : ∀ n ∈ value, n.Built P := by
      intro n member
      have inside : n ∈ Node.dropTrivia ns := by simp [first, member]
      exact built n ((List.dropWhile_sublist _).subset inside)
    have accepted := Node.readDeclared_isOk_iff later
    by_cases isColon : colon.token = .colon
    · by_cases custom : "--".toList <+: name.toList
      · have parsed := (Property.isCustom_parse name).2 custom
        simp only [isColon, beq_self_eq_true, ↓reduceIte, parsed]
        exact ⟨fun _ => ⟨colon, value, rfl, isColon, .inl custom⟩, fun _ => ⟨_, rfl⟩⟩
      · have parsed : (Property.parse name).isCustom = false := by
          simpa using mt (Property.isCustom_parse name).1 custom
        have mapped : ∀ f : Value × Bool → Declaration,
            (∃ d, (Node.readDeclared value).map f = .ok d) ↔
              ∃ r, Node.readDeclared value = .ok r := by
          intro f
          cases Node.readDeclared value <;> simp [Except.map]
        simp only [isColon, beq_self_eq_true, ↓reduceIte, parsed, Bool.false_eq_true]
        rw [mapped, accepted]
        constructor
        · exact fun ok => ⟨colon, value, rfl, isColon, .inr ok⟩
        · rintro ⟨_, _, same, _, isCustom | ok⟩
          · exact absurd isCustom custom
          · cases same
            exact ok
    · simp [isColon]

end CssOutline
