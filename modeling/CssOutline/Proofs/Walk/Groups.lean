import CssOutline.Proofs.Walk

/-! The groups of a value read with a cursor. Nodes without a blank between them make one word,
commas separate groups of words, and an exclamation mark is tried as the start of `!important`
first. The pieces of the nodes say what comes out: a round of the reader takes one piece. -/

namespace CssOutline

open Node (textOf pieces value?)

namespace Walk

/-- Nodes without a blank between them: their values, and where they start and end. -/
structure Cluster where
  values : List Value
  span : Option (List Char × List Char)

namespace Cluster

def none : Cluster :=
  ⟨[], .none⟩

def push (w : Cluster) (start finish : List Char) (v : Value) : Cluster :=
  ⟨w.values ++ [v], some ((w.span.map Prod.fst).getD start, finish)⟩

def word (w : Cluster) : List Value :=
  match w.span with
  | .none => []
  | some (start, finish) =>
    match w.values with
    | [v] => [v]
    | _ => [.raw (String.ofList (Cursor.slice start finish))]

end Cluster

/-- The groups of a value as far as it has been read. -/
structure Grouping where
  closed : List (List Value)
  group : List Value
  cluster : Cluster
  important : Bool
  /-- The end of the last token that belongs to the value. -/
  finish : Option (List Char)

namespace Grouping

def start : Grouping :=
  ⟨[], [], .none, false, none⟩

def flush (s : Grouping) : Grouping :=
  { s with group := s.group ++ s.cluster.word, cluster := .none }

def separate (s : Grouping) (finish : List Char) : Grouping :=
  { s.flush with closed := s.closed ++ [s.flush.group], group := [], finish := some finish }

def push (s : Grouping) (start finish : List Char) (v : Value) : Grouping :=
  { s with cluster := s.cluster.push start finish v, finish := some finish }

def mark (s : Grouping) : Grouping :=
  { s.flush with important := true }

def groups (s : Grouping) : List (List Value) :=
  s.closed ++ [s.group]

end Grouping

def bang? (t : Token) : Option Unit :=
  if t == .delim '!' then some () else none

def importantWord? : Token → Option Unit
  | .ident name => if Text.sameName name "important" then some () else none
  | _ => none

def important : Walk Unit := do
  expect bang?
  expect importantWord?

/-- From before an exclamation mark: passes over it, and over the word `important` if that
follows. -/
def passBang (before : Cursor) : Walk Bool := do
  reset before
  match ← tryTo important with
  | .ok _ => pure true
  | .error _ => do
    let _ ← nextSpaced
    pure false

def rawBlock (start : Cursor) : Walk Value := do
  nested consumeRest
  let source ← since start
  pure (.raw (String.ofList source))

def tokenValue (function : String → Walk Value) (start : Cursor) : Token → Walk Value
  | .function name => function name
  | .openParen => rawBlock start
  | .openSquare => rawBlock start
  | .openCurly => refuse .blockInValue
  | t => do
    let source ← since start
    pure (.ofToken source t)

def groupToken (function : String → Walk Value) (marks : Bool) (s : Grouping) (before : Cursor) :
    Token → Walk Grouping
  | .whitespace => pure s.flush
  | .comma => do
    let after ← here
    pure (s.separate after.passed)
  | t =>
    if marks && t == .delim '!' then do
      let important ← passBang before
      let after ← here
      pure (if important then s.mark else s.push before.passed after.passed (.raw "!"))
    else do
      let v ← tokenValue function before t
      let after ← here
      pure (s.push before.passed after.passed v)

def groupStep (function : String → Walk Value) (marks : Bool) (s : Grouping) :
    Walk (Grouping ⊕ Grouping) := do
  let before ← here
  match ← attempt nextSpaced with
  | .error _ => pure (.inr s.flush)
  | .ok t => .inl <$> groupToken function marks s before t

def groupsWith (function : String → Walk Value) (marks : Bool) : Walk Grouping :=
  loop (groupStep function marks) .start

variable {c : Cursor} {q : List Char} {ns : List Node} {d : Nat}

theorem pieces_nil (lead : Option (List Char)) : pieces lead [] = [] := by
  rw [pieces.eq_def]

theorem pieces_comments {lead : List Node} (comments : ∀ m ∈ lead, m.isComment) (ns : List Node)
    (l : List Char) : pieces (some l) (lead ++ ns) = pieces (some (l ++ textOf lead)) ns := by
  induction lead generalizing l with
  | nil => rw [List.nil_append, textOf, List.append_nil]
  | cons m lead ih =>
    have comment : m.token = .comment := by simpa [Node.isComment] using comments m (by simp)
    rw [List.cons_append, Node.pieces_comment _ comment, Option.map_some,
      ih fun m' later => comments m' (by simp [later]), textOf, List.append_assoc]

theorem pieces_of_comments (comments : ∀ n ∈ ns, n.isComment) : pieces (some []) ns = [] := by
  rw [← List.append_nil ns, pieces_comments comments, pieces_nil]

theorem pieces_none_eq (ns : List Node) :
    pieces none ns = pieces (some []) (Node.dropTrivia ns) := by
  obtain ⟨lead, whole, blank, first⟩ := Node.exists_dropTrivia ns
  conv_lhs => rw [whole, Node.pieces_none_append blank]
  cases kept : Node.dropTrivia ns with
  | nil => rw [pieces_nil, pieces_nil]
  | cons n rest => exact Node.pieces_none_solid (first n (by simp [kept])) rest

theorem importantAfter?_of_role {p : Piece} {r : Role} (role : p.role? = some r) (ps : List Piece) :
    Piece.importantAfter? (p :: ps) = if r = .important then some (p.text, ps) else none := by
  rw [Piece.importantAfter?]
  unfold Piece.role? at role
  cases kind : p.kind with
  | word v =>
    rw [kind] at role
    cases role
    cases v with
    | keyword name => by_cases same : Text.sameName name "important" <;> simp [Value.role, same]
    | _ => rfl
  | _ =>
    rw [kind] at role
    cases role <;> rfl

theorem role?_block {l : Lexeme} {body : List Node} (opens : l.token.closing?.isSome)
    (closing : Option Lexeme) (lead : List Char) :
    ∃ r, ((Node.block l body closing).piece lead).role? = some r ∧ r ≠ .important := by
  have other : ∀ v, value? lead (.block l body closing) = some v → v.role = .word := by
    intro v value
    unfold value? at value
    split at value
    · cases value
    · split at value
      · cases value
        rfl
      · cases value
        rfl
      · cases value
        unfold Node.callValue
        split <;> rfl
    · cases value
      rfl
  have plain : (Node.block l body closing).isComma = false ∧
      (Node.block l body closing).isBang = false := by
    obtain ⟨t, text, start⟩ := l
    cases t <;> simp_all [Node.isComma, Node.isBang, Node.token, Token.closing?]
  simp only [Piece.role?, Node.piece, plain, Bool.false_eq_true, if_false]
  cases value : value? lead (.block l body closing) with
  | none => exact ⟨.block, rfl, by simp⟩
  | some v => exact ⟨.word, by simp [other v value], by simp⟩

theorem importantAfter?_piece {n : Node} (within : n.Within d) (lead : List Char)
    (ps : List Piece) :
    Piece.importantAfter? (n.piece lead :: ps) =
      if importantWord? n.token = some () then some (lead ++ n.text, ps) else none := by
  cases within with
  | @leaf _ l plain =>
    have built : (Node.leaf l).Built fun _ => True := .leaf trivial plain
    rw [importantAfter?_of_role (Node.role?_piece built lead), Node.piece]
    congr 1
    rw [Node.role_eq_important, Node.isImportant, Node.token]
    cases l.token <;> simp [importantWord?]
  | @block _ l body closing opens inner =>
    obtain ⟨r, role, other⟩ : ∃ r, ((Node.block l body closing).piece lead).role? = some r ∧ _ :=
      role?_block opens closing lead
    rw [importantAfter?_of_role role, if_neg other, if_neg]
    rw [Node.token]
    cases token : l.token <;> simp_all [importantWord?, Token.closing?]

theorem importantAfter?_blank (blank : ∀ n ∈ ns, n.isTrivia) (l : List Char) :
    Piece.importantAfter? (pieces (some l) ns) = none := by
  induction ns generalizing l with
  | nil =>
    rw [pieces_nil]
    rfl
  | cons n ns ih =>
    have later := ih fun m member => blank m (by simp [member])
    rcases Node.isTrivia_iff.1 (blank n (by simp)) with space | comment
    · rw [Node.pieces_blank_some _ space, Piece.importantAfter?, later]
      rfl
    · rw [Node.pieces_comment _ comment]
      exact later _

theorem importantAfter?_lead {lead rest : List Node} {n : Node} (within : n.Within d)
    (blank : ∀ m ∈ lead, m.isTrivia) (solid : n.isTrivia = false) (l : List Char) :
    Piece.importantAfter? (pieces (some l) (lead ++ n :: rest)) =
      if importantWord? n.token = some () then
        some (l ++ textOf lead ++ n.text, pieces (some []) rest)
      else none := by
  induction lead generalizing l with
  | nil =>
    rw [List.nil_append, Node.pieces_solid _ solid, importantAfter?_piece within, textOf,
      List.append_nil]
    rfl
  | cons m lead ih =>
    have later := ih fun m' member => blank m' (by simp [member])
    rw [List.cons_append, textOf]
    rcases Node.isTrivia_iff.1 (blank m (by simp)) with space | comment
    · rw [Node.pieces_blank_some _ space, Piece.importantAfter?, later]
      by_cases word : importantWord? n.token = some () <;> simp [word]
    · rw [Node.pieces_comment _ comment, Option.map_some, later]
      simp

theorem isTrivia_of_ne {n : Node} (space : n.token ≠ .whitespace) (spaced : n.isComment = false) :
    n.isTrivia = false := by
  have comment : n.token ≠ .comment := by simpa [Node.isComment] using spaced
  rw [← Bool.not_eq_true, Node.isTrivia_iff]
  simp [space, comment]

/-- From before an exclamation mark, after comments: with the word `important` after it the two are
passed over together. -/
theorem passBang_cases {lead rest : List Node} {n : Node}
    (within : ∀ m ∈ lead ++ n :: rest, m.Within d) (comments : ∀ m ∈ lead, m.isComment)
    (bang : n.token = .delim '!') (place : c.settle = ⟨q, none, lead ++ n :: rest⟩) (c' : Cursor) :
    (∃ t later, (passBang c).run c' =
        .done true ⟨q ++ textOf lead ++ n.text ++ t, none, later⟩ ∧ later <:+ rest ∧
      textOf rest = t ++ textOf later ∧
      Piece.importantAfter? (pieces (some []) rest) = some (t, pieces (some []) later)) ∨
    ((passBang c).run c' = .done false ⟨q ++ textOf lead ++ n.text, none, rest⟩ ∧
      Piece.importantAfter? (pieces (some []) rest) = none) := by
  have solid : n.isTrivia = false := by simp [Node.isTrivia, bang, Token.isTrivia]
  have spaced : n.isComment = false := by simp [Node.isComment, bang]
  have blank : ∀ m ∈ lead, m.isTrivia := fun m member =>
    Node.isTrivia_iff.2 (.inr (by simpa [Node.isComment] using comments m member))
  have first := expect_eq (nextAfter_lead place blank solid) bang?
  have behind := enter_plain (within n (by simp)) (by rw [bang]; rfl) (q ++ textOf lead) rest
  rw [behind, bang] at first
  -- If the word is missing the mark is taken alone.
  have alone : ∀ e c'', important.run c = .failed e c'' →
      (passBang c).run c' = .done false ⟨q ++ textOf lead ++ n.text, none, rest⟩ := by
    intro e c'' failed
    have taken := nextAfter_lead place comments spaced
    rw [behind] at taken
    rw [passBang, bind_done (by rfl), bind_done (tryTo_failed failed), nextSpaced, bind_done taken,
      run_pure]
  rcases next_cases (c := ⟨q ++ textOf lead ++ n.text, none, rest⟩) rfl with
    ⟨spent, _, run⟩ | ⟨gap, word, later, rfl, blank', solid', _, run⟩
  · refine .inr ⟨alone _ _ ((bind_done first _).trans (expect_end run _)), ?_⟩
    exact importantAfter?_blank (isTrivia_of_significant spent) []
  have second := expect_eq run importantWord?
  have here := within word (by simp)
  rw [importantAfter?_lead here blank' solid', List.nil_append]
  cases named : importantWord? word.token with
  | none =>
    rw [named] at second
    exact .inr ⟨alone _ _ ((bind_done first _).trans second), by simp⟩
  | some _ =>
    rw [named] at second
    have plain : word.token.closing? = none := by
      cases token : word.token <;> simp_all [importantWord?, Token.closing?]
    rw [enter_plain here plain] at second
    refine .inl ⟨textOf gap ++ word.text, later, ?_, ⟨gap ++ [word], by simp⟩,
      by simp [Node.textOf_append, textOf], by simp⟩
    have found : important.run c = _ := (bind_done first _).trans second
    rw [passBang, bind_done (by rfl), bind_done (tryTo_done found), run_pure]
    simp

/-- The pieces of a value, in a declaration with the marks in it joined. -/
def marked (marks : Bool) (ps : List Piece) : List Piece :=
  if marks then Piece.markImportant ps else ps

theorem marked_nil (marks : Bool) : marked marks [] = [] := by
  cases marks with
  | false => rfl
  | true => exact Piece.markImportant.eq_def []

theorem marked_of_ne {p : Piece} (plain : p.kind ≠ .bang) (marks : Bool) (ps : List Piece) :
    marked marks (p :: ps) = p :: marked marks ps := by
  cases marks with
  | false => rfl
  | true => exact Piece.markImportant_of_ne plain

def Grouping.take (s : Grouping) (q : List Char) (p : Piece) : Grouping :=
  match p.kind with
  | .space => s.flush
  | .important => s.mark
  | .comma => s.separate (q ++ p.text)
  | .bang => s.push q (q ++ p.text) (.raw "!")
  | .word v => s.push q (q ++ p.text) v
  | .block => s

def Grouping.takeAll (s : Grouping) (q : List Char) : List Piece → Except Setback Grouping
  | [] => .ok s.flush
  | p :: ps =>
    if p.isBlock then .error (.fault .blockInValue) else (s.take q p).takeAll (q ++ p.text) ps

theorem rawBlock_eq {l : Lexeme} {body : List Node} (closing : Option Lexeme)
    (lead rest : List Node) (start : Cursor) :
    (rawBlock start).run (.enter (start.passed ++ textOf lead) (.block l body closing) rest) =
      .done (.raw (String.ofList (textOf lead ++ (Node.block l body closing).text)))
        ⟨start.passed ++ textOf lead ++ (Node.block l body closing).text, none, rest⟩ := by
  obtain ⟨result, run, rfl⟩ :=
    consumeRest_finishes.reads.nested (l := l) closing (start.passed ++ textOf lead) rest
  rw [rawBlock, bind_done run, bind_done (by rfl), run_pure, List.append_assoc, Cursor.slice_append]

theorem take_piece {n : Node} (within : n.Within d) (plain : n.isComma = false) (lead : List Char)
    (s : Grouping) (q : List Char) :
    match value? lead n with
    | some v => (n.piece lead).isBlock = false ∧
        s.take q (n.piece lead) = s.push q (q ++ (n.piece lead).text) v
    | none => (n.piece lead).isBlock := by
  by_cases bang : n.isBang
  · have token : n.token = .delim '!' := by simpa [Node.isBang] using bang
    cases within with
    | @leaf _ l _ =>
      rw [Node.token] at token
      simp [value?, token, Value.ofToken, Piece.isBlock, Grouping.take, Node.piece, plain, bang]
      rfl
    | block opens _ => simp_all [Node.token, Token.closing?]
  · cases value : value? lead n <;>
      simp [value, Piece.isBlock, Grouping.take, Node.piece, plain, bang]

def ReadsFunctions (d : Nat) (function : String → Walk Value) : Prop :=
  ∀ {e body}, d = e + 1 → (∀ m ∈ body, m.Within e) → ∀ {l name}, l.token = .function name →
    ∀ closing lead q rest, ∃ v, value? lead (.block l body closing) = some v ∧
      (function name).run (.enter q (.block l body closing) rest) =
        .done v ⟨q ++ (Node.block l body closing).text, none, rest⟩

section Groups

variable {function : String → Walk Value} (functions : ReadsFunctions d function)

include functions in
theorem tokenValue_eq {n : Node} (within : n.Within d) (lead rest : List Node) (start : Cursor) :
    match value? (textOf lead) n with
    | some v => (tokenValue function start n.token).run
        (.enter (start.passed ++ textOf lead) n rest) =
        .done v ⟨start.passed ++ textOf lead ++ n.text, none, rest⟩
    | none => ∃ c, (tokenValue function start n.token).run
        (.enter (start.passed ++ textOf lead) n rest) = .failed (.fault .blockInValue) c := by
  cases within with
  | @leaf _ l plain =>
    simp only [value?, Node.token]
    have other : tokenValue function start l.token =
        since start >>= fun source => pure (.ofToken source l.token) := by
      unfold tokenValue
      split <;> simp_all [Token.closing?]
    have behind : Cursor.enter (start.passed ++ textOf lead) (.leaf l) rest =
      ⟨start.passed ++ textOf lead ++ l.text, none, rest⟩ := rfl
    rw [other, behind, bind_done (by rfl), run_pure, List.append_assoc, Cursor.slice_append,
      Node.text, List.append_assoc]
  | @block e l body closing opens inner =>
    cases token : l.token <;> simp only [token, Token.closing?, Option.isSome_none,
      Bool.false_eq_true] at opens
    case function name =>
      obtain ⟨v, value, run⟩ :=
        functions rfl inner token closing (textOf lead) (start.passed ++ textOf lead) rest
      rw [value, Node.token, token]
      exact run
    case openCurly =>
      simp only [value?, Node.token, token]
      exact ⟨_, rfl⟩
    all_goals
      simp only [value?, Node.token, token]
      exact rawBlock_eq closing lead rest start

def TakesPiece (function : String → Walk Value) (marks : Bool) (s : Grouping) (c : Cursor)
    (lead : List Node) (n : Node) (rest : List Node) : Prop :=
  ∃ p later, marked marks (pieces (some (textOf lead)) (n :: rest)) =
      p :: marked marks (pieces (some []) later) ∧ later <:+ rest ∧
    textOf (lead ++ n :: rest) = p.text ++ textOf later ∧
    if p.isBlock then
      ∃ c', (groupToken function marks s c n.token).run
        (.enter (c.passed ++ textOf lead) n rest) = .failed (.fault .blockInValue) c'
    else (groupToken function marks s c n.token).run (.enter (c.passed ++ textOf lead) n rest) =
        .done (s.take c.passed p) ⟨c.passed ++ p.text, none, later⟩

theorem textOf_lead (lead : List Node) (n : Node) (rest : List Node) :
    textOf (lead ++ n :: rest) = textOf lead ++ n.text ++ textOf rest := by
  simp [Node.textOf_append, textOf]

theorem takesPiece_bang {lead rest : List Node} {n : Node}
    (within : ∀ m ∈ lead ++ n :: rest, m.Within d) (comments : ∀ m ∈ lead, m.isComment)
    (bang : n.token = .delim '!') (function : String → Walk Value) (s : Grouping)
    (place : c.settle = ⟨c.passed, none, lead ++ n :: rest⟩) :
    TakesPiece function true s c lead n rest := by
  have kind := Node.kind_piece_bang bang (textOf lead)
  have step : groupToken function true s c n.token = _ :=
    (groupToken.eq_3 _ _ _ _ _ (by simp [bang]) (by simp [bang])).trans
      (if_pos (by simp [bang]))
  rw [TakesPiece, step, marked, if_pos rfl, textOf_lead,
    Node.pieces_solid _ (by simp [Node.isTrivia, bang, Token.isTrivia]), Option.getD_some]
  rcases passBang_cases within comments bang place (.enter (c.passed ++ textOf lead) n rest) with
    ⟨t, later, run, suffix, text, found⟩ | ⟨run, missing⟩
  · refine ⟨_, later, Piece.markImportant_of_some kind found, suffix, ?_, ?_⟩
    · rw [text]
      simp [Node.piece]
    rw [if_neg (by simp [Piece.isBlock]), bind_done run, bind_done (by rfl), run_pure]
    simp [Grouping.take, Node.piece]
  · refine ⟨_, rest, Piece.markImportant_of_none kind missing, List.suffix_rfl, rfl, ?_⟩
    rw [if_neg (by simp [Piece.isBlock, kind]), bind_done run, bind_done (by rfl), run_pure,
      Grouping.take, kind]
    simp [Node.piece]

include functions in
theorem takesPiece_value {n : Node} (within : n.Within d) (lead rest : List Node) {marks : Bool}
    (solid : n.isTrivia = false) (comma : n.token ≠ .comma)
    (bang : (marks && n.token == .delim '!') = false) (s : Grouping) (c : Cursor) :
    TakesPiece function marks s c lead n rest := by
  have space : n.token ≠ .whitespace := fun same => by
    simp [Node.isTrivia, same, Token.isTrivia] at solid
  have step : groupToken function marks s c n.token = _ :=
    (groupToken.eq_3 _ _ _ _ _ space comma).trans (if_neg (by simp [bang]))
  have alone : marked marks (n.piece (textOf lead) :: pieces (some []) rest) =
      n.piece (textOf lead) :: marked marks (pieces (some []) rest) := by
    cases marks with
    | false => rfl
    | true => exact Piece.markImportant_of_ne (Node.kind_piece_ne_bang (by simpa using bang) _)
  rw [TakesPiece, step, textOf_lead, Node.pieces_solid _ solid, Option.getD_some]
  refine ⟨_, rest, alone, List.suffix_rfl, rfl, ?_⟩
  have value := tokenValue_eq functions within lead rest c
  have taken := take_piece within (by simpa [Node.isComma] using comma) (textOf lead) s c.passed
  split at value
  · rename_i v same
    rw [same] at taken
    rw [if_neg (by simp [taken.1]), bind_done value, bind_done (by rfl), run_pure, taken.2]
    simp [Node.piece]
  · rename_i same
    obtain ⟨c', failed⟩ := value
    rw [same] at taken
    rw [if_pos taken]
    exact ⟨c', bind_failed failed _⟩

include functions in
theorem groupToken_piece {lead rest : List Node} {n : Node}
    (within : ∀ m ∈ lead ++ n :: rest, m.Within d) (comments : ∀ m ∈ lead, m.isComment)
    (spaced : n.isComment = false) (marks : Bool) (s : Grouping)
    (place : c.settle = ⟨c.passed, none, lead ++ n :: rest⟩) :
    TakesPiece function marks s c lead n rest := by
  have here := within n (by simp)
  by_cases space : n.token = .whitespace
  · rw [TakesPiece, Node.pieces_blank_some _ space, marked_of_ne (by simp)]
    refine ⟨_, rest, rfl, List.suffix_rfl, textOf_lead lead n rest, ?_⟩
    rw [if_neg (by simp [Piece.isBlock]), enter_plain here (by rw [space]; rfl), space]
    simp [groupToken, Grouping.take]
  have solid := isTrivia_of_ne space spaced
  by_cases comma : n.token = .comma
  · have kind : (n.piece (textOf lead)).kind = .comma := by simp [Node.piece, Node.isComma, comma]
    rw [TakesPiece, Node.pieces_solid _ solid, Option.getD_some, marked_of_ne (by simp [kind])]
    refine ⟨_, rest, rfl, List.suffix_rfl, textOf_lead lead n rest, ?_⟩
    rw [if_neg (by simp [Piece.isBlock, kind]), enter_plain here (by rw [comma]; rfl), comma,
      groupToken, bind_done (by rfl), run_pure, Grouping.take, kind, Node.piece]
    simp
  cases bang : marks && n.token == .delim '!' with
  | true =>
    obtain ⟨rfl, token⟩ : marks = true ∧ n.token = .delim '!' := by simpa using bang
    exact takesPiece_bang within comments token function s place
  | false => exact takesPiece_value functions here lead rest solid comma bang s c

include functions in
theorem exists_loops_groupStep (within : ∀ m ∈ ns, m.Within d) (marks : Bool) (s : Grouping)
    (q : List Char) :
    ∃ c, Loops (groupStep function marks) s ⟨q, none, ns⟩
        (.of (s.takeAll q (marked marks (pieces (some []) ns))) c) ∧
      ∀ s', s.takeAll q (marked marks (pieces (some []) ns)) = .ok s' →
        c = ⟨q ++ textOf ns, none, []⟩ := by
  induction size : ns.length using Nat.strong_induction_on generalizing ns s q with
  | _ size' ih =>
    subst size
    rcases exists_lead Node.isComment ns with comments | ⟨lead, n, rest, rfl, comments, spaced⟩
    · have run := attempt_failed (nextAfter_all (c := ⟨q, none, ns⟩) rfl comments)
      rw [pieces_of_comments comments, marked_nil]
      refine ⟨⟨q ++ textOf ns, .none, []⟩, .stop ?_, fun _ _ => rfl⟩
      rw [groupStep, bind_done (by rfl), nextSpaced, bind_done run, run_pure]
    · have run := attempt_done
        (nextAfter_lead (c := ⟨q, none, lead ++ n :: rest⟩) rfl comments spaced)
      obtain ⟨p, later, next, suffix, text, token⟩ := groupToken_piece functions within comments
        spaced marks s (c := ⟨q, none, lead ++ n :: rest⟩) rfl
      have step : (groupStep function marks s).run ⟨q, none, lead ++ n :: rest⟩ = _ :=
        (bind_done (by rfl) _).trans (bind_done run _)
      rw [pieces_comments comments, List.nil_append, next, Grouping.takeAll]
      split at token
      · rename_i block
        obtain ⟨c, failed⟩ := token
        rw [if_pos block]
        exact ⟨c, .fail (step.trans (bind_failed failed _)), by simp⟩
      · rename_i plain
        rw [if_neg plain]
        have shorter : later.length < (lead ++ n :: rest).length := length_lt_lead suffix
        obtain ⟨c, loops, spent⟩ := ih later.length shorter
          (fun m member => within m (by simp [suffix.subset member])) (s.take q p) (q ++ p.text) rfl
        refine ⟨c, .more (step.trans (bind_done token _)) shorter loops, fun s' read => ?_⟩
        rw [spent s' read, text, List.append_assoc]

end Groups

/-- The nodes of the word that is read, with the values they have; it ends at `q`. -/
def Cluster.Holds (w : Cluster) (parts : List (List Char × Value)) (q : List Char) : Prop :=
  w.values = parts.map Prod.snd ∧
    ((parts = [] ∧ w.span = .none) ∨
      parts ≠ [] ∧ ∃ start, w.span = some (start, q) ∧ q = start ++ parts.flatMap Prod.fst)

theorem Cluster.holds_none (q : List Char) : Cluster.none.Holds [] q :=
  ⟨rfl, .inl ⟨rfl, rfl⟩⟩

theorem Cluster.Holds.push {w : Cluster} {parts : List (List Char × Value)}
    (holds : w.Holds parts q) (t : List Char) (v : Value) :
    (w.push q (q ++ t) v).Holds (parts ++ [(t, v)]) (q ++ t) := by
  obtain ⟨values, ⟨rfl, span⟩ | ⟨_, start, span, whole⟩⟩ := holds
  · exact ⟨by simp [Cluster.push, values], .inr ⟨by simp, q, by simp [Cluster.push, span], by simp⟩⟩
  · refine ⟨by simp [Cluster.push, values], .inr ⟨by simp, start, by simp [Cluster.push, span], ?_⟩⟩
    simp [whole]

theorem Cluster.Holds.word_eq {w : Cluster} {parts : List (List Char × Value)}
    (holds : w.Holds parts q) : w.word = Piece.wordValue parts := by
  obtain ⟨values, ⟨rfl, span⟩ | ⟨some, start, span, rfl⟩⟩ := holds
  · simp [Cluster.word, span, Piece.wordValue]
  · rcases parts with _ | ⟨⟨_, v⟩, _ | ⟨⟨_, v'⟩, parts⟩⟩
    · exact absurd rfl some
    · simp [Cluster.word, span, values, Piece.wordValue]
    · simp [Cluster.word, span, values, Piece.wordValue]

theorem finish_take {p : Piece} (plain : ¬p.isBlock) (s : Grouping) (q : List Char) :
    (s.take q p).finish = if p.isOutside then s.finish else some (q ++ p.text) := by
  unfold Piece.isBlock at plain
  unfold Grouping.take Piece.isOutside
  cases kind : p.kind <;> simp_all [Grouping.flush, Grouping.mark, Grouping.separate, Grouping.push]

theorem important_take {p : Piece} (plain : ¬p.isBlock) (s : Grouping) (q : List Char) :
    (s.take q p).important = (s.important || p.isImportant) := by
  unfold Piece.isBlock at plain
  unfold Grouping.take Piece.isImportant
  cases kind : p.kind <;> simp_all [Grouping.flush, Grouping.mark, Grouping.separate, Grouping.push]

theorem exists_holds_take {s : Grouping} {parts : List (List Char × Value)} {p : Piece}
    (holds : s.cluster.Holds parts q) (plain : ¬p.isBlock) :
    ∃ parts', (s.take q p).cluster.Holds parts' (q ++ p.text) ∧ ∀ ps,
      (Piece.groupsFrom parts s.group (p :: ps)).map (s.closed ++ ·) =
        (Piece.groupsFrom parts' (s.take q p).group ps).map ((s.take q p).closed ++ ·) := by
  unfold Piece.isBlock at plain
  unfold Grouping.take
  cases kind : p.kind with
  | block => simp [kind] at plain
  | space =>
    refine ⟨[], Cluster.holds_none _, fun ps => ?_⟩
    simp [Piece.groupsFrom, kind, Grouping.flush, holds.word_eq]
  | important =>
    refine ⟨[], Cluster.holds_none _, fun ps => ?_⟩
    simp [Piece.groupsFrom, kind, Grouping.mark, Grouping.flush, holds.word_eq]
  | comma =>
    refine ⟨[], Cluster.holds_none _, fun ps => ?_⟩
    simp [Piece.groupsFrom, kind, Grouping.separate, Grouping.flush, holds.word_eq,
      Function.comp_def]
  | bang =>
    refine ⟨_, holds.push p.text (.raw "!"), fun ps => ?_⟩
    simp [Piece.groupsFrom, kind, Grouping.push]
  | word v =>
    refine ⟨_, holds.push p.text v, fun ps => ?_⟩
    simp [Piece.groupsFrom, kind, Grouping.push]

theorem takeAll_eq {s : Grouping} {parts : List (List Char × Value)}
    (holds : s.cluster.Holds parts q) (ps : List Piece) :
    match (Piece.groupsFrom parts s.group ps).map (s.closed ++ ·) with
    | none => s.takeAll q ps = .error (.fault .blockInValue)
    | some gs => ∃ s', s.takeAll q ps = .ok s' ∧ s'.groups = gs ∧
        s'.important = (s.important || ps.any Piece.isImportant) ∧
        s'.finish = if ps.all Piece.isOutside then s.finish else some (q ++ Piece.source ps) := by
  induction ps generalizing s parts q with
  | nil =>
    refine ⟨s.flush, rfl, ?_, by simp [Grouping.flush], rfl⟩
    simp [Grouping.groups, Grouping.flush, holds.word_eq]
  | cons p ps ih =>
    rw [Grouping.takeAll]
    by_cases block : p.isBlock
    · have kind : p.kind = .block := by
        unfold Piece.isBlock at block
        split at block <;> simp_all
      simp only [Piece.groupsFrom, kind, Option.map_none]
      rw [if_pos block]
    · obtain ⟨parts', holds', next⟩ := exists_holds_take holds block
      have later := ih holds'
      rw [next, if_neg block]
      split at later
      · exact later
      · obtain ⟨s', run, groups', important', finish'⟩ := later
        refine ⟨s', run, groups', ?_, ?_⟩
        · rw [important', important_take block, List.any_cons, Bool.or_assoc]
        · rw [finish', finish_take block, Piece.source_cons, List.all_cons]
          cases p.isOutside <;> cases ps.all Piece.isOutside <;> simp

/-- The groups of the pieces of `ns`, read from the place `q` to the end, or a block among them. -/
def Groups (q : List Char) (ns : List Node) (ps : List Piece) (o : Outcome Grouping) : Prop :=
  match Piece.groups ps with
  | none => ∃ c, o = .failed (.fault .blockInValue) c
  | some gs => ∃ s, o = .done s ⟨q ++ textOf ns, none, []⟩ ∧ s.groups = gs ∧
      s.important = ps.any Piece.isImportant ∧
      s.finish = if ps.all Piece.isOutside then none else some (q ++ Piece.source ps)

theorem groups_groupsWith {function : String → Walk Value} (functions : ReadsFunctions d function)
    (within : ∀ m ∈ ns, m.Within d) (marks : Bool) (q : List Char) :
    Groups q ns (marked marks (pieces (some []) ns))
      ((groupsWith function marks).run ⟨q, none, ns⟩) := by
  obtain ⟨c, loops, spent⟩ := exists_loops_groupStep functions within marks .start q
  have taken := takeAll_eq (s := .start) (Cluster.holds_none q) (marked marks (pieces (some []) ns))
  have same : (Piece.groupsFrom [] Grouping.start.group (marked marks (pieces (some []) ns))).map
      (Grouping.start.closed ++ ·) = Piece.groups (marked marks (pieces (some []) ns)) := by
    simp [Grouping.start, Piece.groups]
  rw [groupsWith, loops.run_loop, Groups]
  rw [same] at taken
  split
  · rename_i none
    rw [none] at taken
    exact ⟨c, by rw [taken]; rfl⟩
  · rename_i gs some
    rw [some] at taken
    obtain ⟨s, run, groups', important', finish'⟩ := taken
    refine ⟨s, by rw [run, ← spent s run]; rfl, groups', ?_, finish'⟩
    simpa [Grouping.start] using important'

end Walk

end CssOutline
