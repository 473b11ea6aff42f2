import CssOutline.Proofs.Walk.Preludes
import CssOutline.Proofs.Walk.Selectors

/-! Style sheets read with a cursor. The prelude of an at-rule and every block are readers of their
own that have to come to the end of their nodes; were one of them to have a setback, nothing would
stand in its place, which counts as a misuse. It is shown that for no text there is a misuse of any
kind, and that the rules are those of the reader that goes by nodes. -/

namespace CssOutline

open Node (textOf significant)
open Sketch (endsItem upTo stop? after itemText readHead readDeclaration ofRule ofAtRule ofIdent)

namespace Walk

def declaration (d : Nat) (name : String) : Walk Declaration := do
  expectColon
  let value ← if (Property.parse name).isCustom then customValue else declaredValue d
  pure ⟨.parse name, value.1, value.2⟩

def head (d : Nat) : Context → Walk Head
  | .style => .selectors <$> selectors d
  | .keyframes => .keyframes <$> keyframes

def notRead (start : Cursor) (reason : String) : Walk Rule := do
  let source ← since start
  pure (.unrecognized start.location reason (String.ofList (Text.trim source)))

/-- The inside of the block that was opened last, which has to be read to its end. -/
def block {α : Type} (r : Walk α) : Walk α := do
  match ← attempt (nested r) with
  | .ok a => pure a
  | .error _ => misuse .replaced

def verbatimText : Walk String := do
  let start ← here
  trimmedFrom start

abbrev Inner :=
  Option (Context → Walk (List Member))

def qualifiedRule (d : Nat) (inner : Inner) (context : Context) (stops : Node → Bool)
    (start : Cursor) : Walk Rule := do
  let found ← attempt (untilBefore stops (head d context))
  match ← attempt next with
  | .ok .openCurly =>
    match found, inner with
    | .error e, _ => notRead start e.message
    | .ok _, none => notRead start Fault.tooDeep.message
    | .ok h, some r => do
      let body ← block (r .style)
      pure (.style start.location h body)
  | _ => notRead start Fault.expectedBlock.message

def atRuleBody (kind : String) (r : Context → Walk (List Member)) : Walk AtBody :=
  if kind = "keyframes" then .members <$> block (r .keyframes)
  else if memberAtRules.contains kind then .members <$> block (r .style)
  else .verbatim <$> block verbatimText

def atRule (d : Nat) (inner : Inner) (start : Cursor) (name : String) : Walk Rule := do
  match ← attempt (untilBefore endsItem (atRulePrelude d (atRuleKind name))) with
  | .error _ => misuse .replaced
  | .ok clause =>
    match ← attempt next with
    | .ok .openCurly =>
      match inner with
      | none => notRead start Fault.tooDeep.message
      | some r => .atRule start.location name clause <$> atRuleBody (atRuleKind name) r
    | _ => pure (.atRule start.location name clause .none)

/-- The same text as a rule instead of a declaration. If that fails too, whichever skips less. -/
def retryAsRule (d : Nat) (inner : Inner) (start : Cursor) (e : Setback) : Walk Rule := do
  reset start
  let rule ← qualifiedRule d inner .style endsItem start
  if rule.isUnrecognized then do
    let after ← here
    let ruleText ← since start
    reset start
    let _ ← attempt (untilAfter Node.isSemicolon consumeRest)
    let text ← since start
    if ruleText.length < text.length then do
      reset after
      pure rule
    else notRead start e.message
  else pure rule

def declarationOrRule (d : Nat) (inner : Inner) (start : Cursor) (name : String) : Walk Member := do
  match ← attempt (untilAfter Node.isSemicolon (declaration d name)) with
  | .ok found => pure (.declaration found)
  | .error e => .rule <$> retryAsRule d inner start e

/-- The item that starts with a token, read from `start` on; none for a semicolon. -/
def bodyItem (d : Nat) (inner : Inner) (context : Context) (start : Cursor) (t : Token) :
    Walk (Option Member) :=
  match t, context with
  | .semicolon, _ => pure none
  | .atKeyword name, _ => (some ∘ .rule) <$> atRule d inner start name
  | .ident name, .style => some <$> declarationOrRule d inner start name
  | _, _ => do
    reset start
    (some ∘ .rule) <$> qualifiedRule d inner context endsItem start

def bodyStep (d : Nat) (inner : Inner) (context : Context) (members : List Member) :
    Walk (List Member ⊕ List Member) := do
  skipTrivia
  let start ← here
  match ← attempt next with
  | .error _ => pure (.inr members)
  | .ok t => do
    let found ← bodyItem d inner context start t
    pure (.inl (members ++ found.toList))

/-- Bodies in which bodies may nest `room` levels deep, with at most `d` levels of blocks. -/
def body : Nat → Nat → Context → Walk (List Member)
  | 0, d, context => loop (bodyStep d none context) []
  | _ + 1, 0, context => loop (bodyStep 0 (some fun _ => misuse .endless) context) []
  | room + 1, d + 1, context => loop (bodyStep (d + 1) (some (body room d)) context) []

def sheetItem (d : Nat) (inner : Inner) (start : Cursor) : Token → Walk (Option Rule)
  | .cdo => pure none
  | .cdc => pure none
  | .atKeyword name => some <$> atRule d inner start name
  | _ => do
    reset start
    some <$> qualifiedRule d inner .style Node.isCurly start

def sheetStep (d : Nat) (inner : Inner) (rules : List Rule) : Walk (List Rule ⊕ List Rule) := do
  skipTrivia
  let start ← here
  match ← attempt next with
  | .error _ => pure (.inr rules)
  | .ok t => do
    let found ← sheetItem d inner start t
    pure (.inl (rules ++ found.toList))

/-- Style sheets with at most `d` levels of blocks. -/
def sheet : Nat → Walk (List Rule)
  | 0 => loop (sheetStep 0 (some fun _ => misuse .endless)) []
  | d + 1 => loop (sheetStep (d + 1) (some (body (maxNesting - 1) d))) []

variable {c : Cursor} {q : List Char} {ns : List Node} {d : Nat} {p : Node → Bool}

theorem declaration_finishes (within : ∀ m ∈ ns, m.Within d) (name : String) :
    Finishes (declaration d name) ns (· = (readDeclaration name ns).mapError .fault) := by
  intro q
  rw [readDeclaration]
  rcases next_cases (c := ⟨q, none, ns⟩) rfl with
    ⟨spent, _, run⟩ | ⟨lead, n, rest, rfl, blank, solid, _, run⟩
  · refine ⟨.error (.fault .endOfInput), _, bind_failed (expect_end run _) _, by simp, ?_⟩
    rw [dropTrivia_blank (isTrivia_of_significant spent)]
    rfl
  rw [dropTrivia_lead blank solid]
  have colon := expect_eq run fun t => if t == .colon then some () else none
  by_cases separates : n.token = .colon
  · rw [if_pos (by simp [separates]),
      enter_plain (within n (by simp)) (by rw [separates]; rfl)] at colon
    have step : (declaration d name).run ⟨q, none, lead ++ n :: rest⟩ = _ := bind_done colon _
    replace within : ∀ m ∈ rest, m.Within d := fun m later => within m (by simp [later])
    simp only [separates, beq_self_eq_true, if_true]
    by_cases custom : (Property.parse name).isCustom
    · rw [if_pos custom] at step ⊢
      obtain ⟨result, c, value, spent, rfl⟩ :=
        customValue_finishes within (q ++ textOf lead ++ n.text)
      exact ⟨.ok _, c, step.trans (bind_done value _), fun _ _ => spent _ rfl, rfl⟩
    · rw [if_neg custom] at step ⊢
      obtain ⟨result, c, value, spent, rfl⟩ :=
        declaredValue_finishes d within (q ++ textOf lead ++ n.text)
      cases read : Node.readDeclared rest with
      | error fault =>
        rw [read] at value
        exact ⟨.error (.fault fault), c, step.trans (bind_failed value _), by simp, rfl⟩
      | ok v =>
        rw [read] at value spent
        exact ⟨.ok _, c, step.trans (bind_done value _), fun _ _ => spent v rfl, rfl⟩
  · rw [if_neg (by simp [separates])] at colon
    refine ⟨.error (.fault (.unexpectedToken n.token)), _, bind_failed colon _, by simp, ?_⟩
    simp [separates, Except.mapError]

theorem head_reads (within : ∀ m ∈ ns, m.Within d) (context : Context) :
    Reads (head d context) ns (· = (readHead context ns).mapError .fault) := by
  cases context with
  | style =>
    refine ((selectors_finishes d within).reads.map Head.selectors).imp ?_
    rintro result ⟨read, rfl, rfl⟩
    rw [readHead]
    cases Node.readSelectors ns <;> rfl
  | keyframes =>
    refine (keyframes_finishes.reads.map Head.keyframes).imp ?_
    rintro result ⟨read, rfl, rfl⟩
    rw [readHead]
    cases Node.readKeyframes ns <;> rfl

theorem Reads.untilAfter {α : Type} {r : Walk α} {φ : Except Setback α → Prop}
    (reads : Reads r (upTo p ns) φ) (q : List Char) :
    ∃ result, (untilAfter p r).run ⟨q, none, ns⟩ =
      .of result ⟨q ++ itemText p ns, none, after p ns⟩ ∧ φ result := by
  obtain ⟨result, run, holds⟩ := reads.untilBefore q
  refine ⟨result, ?_, holds⟩
  have passed : passNode.run ⟨q ++ textOf (upTo p ns), none, ns.dropWhile fun n => !p n⟩ =
      .done () ⟨q ++ itemText p ns, none, after p ns⟩ := by
    rw [itemText, stop?, after, passNode]
    cases ns.dropWhile fun n => !p n <;> simp
  rw [Walk.untilAfter, bind_done (attempt_of run), bind_done passed]
  cases result <;> rfl

theorem block_eq {α : Type} {r : Walk α} {l : Lexeme} {body : List Node} {a : α}
    (finishes : Finishes r body (· = .ok a)) (closing : Option Lexeme) (q : List Char)
    (rest : List Node) :
    (block r).run (.enter q (.block l body closing) rest) =
      .done a ⟨q ++ (Node.block l body closing).text, none, rest⟩ := by
  obtain ⟨result, run, rfl⟩ := finishes.reads.nested closing q rest
  rw [block, bind_done (attempt_done run), run_pure]

theorem verbatimText_finishes :
    Finishes verbatimText ns (· = .ok (String.ofList (Text.trim (textOf ns)))) := by
  intro q
  refine ⟨_, ⟨q ++ textOf ns, none, []⟩, ?_, fun _ _ => by simp [Cursor.Spent], rfl⟩
  rw [verbatimText, bind_done (by rfl)]
  exact trimmedFrom_eq rfl rfl

theorem notRead_eq {start : Cursor} {source : List Char}
    (passed : c.passed = start.passed ++ source) (reason : String) :
    (notRead start reason).run c =
      .done (.unrecognized start.location reason (String.ofList (Text.trim source))) c := by
  rw [notRead, bind_done (by rfl), run_pure, passed, Cursor.slice_append]

theorem ending_cases (stops : ∀ n, p n → n.isSemicolon ∨ n.isCurly) (within : ∀ m ∈ ns, m.Within d)
    (q : List Char) :
    (stop? p ns = none ∧ after p ns = [] ∧ ∃ e,
      (attempt next).run ⟨q, none, ns.dropWhile fun n => !p n⟩ = .done (.error e) ⟨q, none, []⟩) ∨
    (∃ e l body closing, d = e + 1 ∧ (∀ m ∈ body, m.Within e) ∧
      stop? p ns = some (.block l body closing) ∧
      (attempt next).run ⟨q, none, ns.dropWhile fun n => !p n⟩ =
        .done (.ok .openCurly) (.enter q (.block l body closing) (after p ns))) ∨
    ∃ l, stop? p ns = some (.leaf l) ∧
      (attempt next).run ⟨q, none, ns.dropWhile fun n => !p n⟩ =
        .done (.ok .semicolon) ⟨q ++ l.text, none, after p ns⟩ := by
  rcases exists_cut p ns with kept | ⟨front, stop, more, rfl, kept, ends⟩
  · have none : ns.dropWhile (fun n => !p n) = [] :=
      List.dropWhile_eq_nil_iff.2 (by simpa using kept)
    refine .inl ⟨by rw [stop?, none]; rfl, by rw [after, none]; rfl, .fault .endOfInput, ?_⟩
    rw [none]
    have run := attempt_failed
      (nextAfter_all (c := ⟨q, .none, []⟩) (p := Node.isTrivia) rfl (by simp))
    rwa [textOf, List.append_nil] at run
  rw [Sketch.stop?_cut kept ends, Sketch.after_cut kept ends, Sketch.dropWhile_cut kept ends]
  have here := within stop (by simp)
  rcases stops stop ends with semicolon | curly
  · have token : stop.token = .semicolon := by simpa [Node.isSemicolon] using semicolon
    have run := attempt_done (nextAfter_head (c := ⟨q, none, stop :: more⟩) (p := Node.isTrivia) rfl
      (by simp [Node.isTrivia, token, Token.isTrivia]))
    rw [enter_plain here (by rw [token]; rfl), token] at run
    cases here with
    | @leaf _ l plain => exact .inr (.inr ⟨l, rfl, run⟩)
    | block opens _ => simp_all [Node.token, Token.closing?]
  · have token : stop.token = .openCurly := by simpa [Node.isCurly] using curly
    have run := attempt_done (nextAfter_head (c := ⟨q, none, stop :: more⟩) (p := Node.isTrivia) rfl
      (by simp [Node.isTrivia, token, Token.isTrivia]))
    rw [token] at run
    obtain ⟨e, l, body, closing, rfl, rfl, inside⟩ := exists_block here (by rw [token]; rfl)
    exact .inr (.inl ⟨e, l, body, closing, rfl, inside, rfl, run⟩)

theorem bodyItem_other {t : Token} {context : Context} (plain : t ≠ .semicolon)
    (noKeyword : ∀ name, t ≠ .atKeyword name) (noIdent : ∀ name, t = .ident name → context ≠ .style)
    (inner : Inner) (start : Cursor) :
    bodyItem d inner context start t = (reset start >>= fun _ =>
      (some ∘ .rule) <$> qualifiedRule d inner context endsItem start) := by
  rw [bodyItem.eq_def]
  split
  · exact absurd rfl plain
  · exact absurd rfl (noKeyword _)
  · exact absurd rfl (noIdent _ rfl)
  · rfl

theorem after_suffix (p : Node → Bool) (ns : List Node) : after p ns <:+ ns :=
  (List.drop_suffix 1 _).trans (List.dropWhile_suffix _)

theorem after_cons_suffix (p : Node → Bool) (n : Node) (ns : List Node) :
    after p (n :: ns) <:+ ns := by
  rw [after, List.dropWhile_cons]
  split
  · exact after_suffix p ns
  · exact List.suffix_rfl

theorem ofIdent_suffix (room : Bool) (n : Node) (name : String) (rest : List Node) :
    (ofIdent room n name rest).2 <:+ rest := by
  unfold ofIdent
  split
  · exact after_suffix _ _
  · simp only
    split
    · split <;> exact after_cons_suffix _ _ _
    · exact after_cons_suffix _ _ _

theorem itemAt_suffix (context : Context) (room : Bool) (n : Node) (rest : List Node) :
    (Sketch.itemAt context room n rest).2 <:+ rest := by
  unfold Sketch.itemAt
  split
  · exact after_suffix _ _
  · exact ofIdent_suffix _ _ _ _
  · exact after_cons_suffix _ _ _

theorem ofBody_blank {lead : List Node} (blank : ∀ n ∈ lead, n.isTrivia) (context : Context)
    (room : Bool) (ns : List Node) :
    Sketch.ofBody context room (lead ++ ns) = Sketch.ofBody context room ns := by
  induction lead with
  | nil => rfl
  | cons n lead ih =>
    rw [List.cons_append, Sketch.ofBody_skip (by simp [blank n])]
    exact ih fun m later => blank m (by simp [later])

/-- What reads the bodies within a level, if there is room for them. -/
structure InnerReads (d : Nat) (room : Bool) (read : Context → List Node → List Member)
    (inner : Inner) : Prop where
  room : inner.isSome = room
  finishes : ∀ r ∈ inner, ∀ {e ms}, d = e + 1 → (∀ m ∈ ms, m.Within e) → ∀ context,
    Finishes (r context) ms (· = .ok (read context ms))

section Rules

variable {room : Bool} {read : Context → List Node → List Member} {inner : Inner}
  (reads : InnerReads d room read inner)

include reads in
theorem qualifiedRule_eq (stops : ∀ n, p n → n.isSemicolon ∨ n.isCurly)
    (within : ∀ m ∈ ns, m.Within d) (context : Context) (q : List Char) :
    ∃ s c, s = ofRule context room (Cursor.location ⟨q, none, ns⟩) (upTo p ns) (stop? p ns) ∧
      (qualifiedRule d inner context p ⟨q, none, ns⟩).run ⟨q, none, ns⟩ = .done (s.expand read) c ∧
      c.rest = after p ns ∧
      ∀ start fault source, s = .unrecognized start fault source → c.passed = q ++ source := by
  have front : ∀ m ∈ upTo p ns, m.Within d := fun m member =>
    within m ((List.takeWhile_prefix _).subset member)
  obtain ⟨result, run, rfl⟩ := (head_reads front context).untilBefore q
  have step : (qualifiedRule d inner context p ⟨q, none, ns⟩).run ⟨q, none, ns⟩ = _ :=
    bind_done (attempt_of run) _
  rcases ending_cases stops within (q ++ textOf (upTo p ns)) with
    ⟨none, rest, e, token⟩ | ⟨e, l, body, closing, same, inside, found, token⟩ | ⟨l, found, token⟩
  · refine ⟨_, ⟨q ++ textOf (upTo p ns), .none, []⟩, rfl,
      (step.trans (bind_done token _)).trans ?_, rest.symm, ?_⟩
    · rw [none]
      exact notRead_eq rfl _
    · rw [none]
      rintro start fault source ⟨⟩
      rfl
  · replace step := step.trans (bind_done token _)
    have opened :
        (Cursor.enter (q ++ textOf (upTo p ns)) (.block l body closing) (after p ns)).passed =
          q ++ (textOf (upTo p ns) ++ l.text) := List.append_assoc ..
    rw [found, ofRule]
    cases read' : readHead context (upTo p ns) with
    | error fault =>
      rw [read'] at step
      refine ⟨_, _, rfl, step.trans (notRead_eq opened _), rfl, ?_⟩
      rintro start fault source ⟨⟩
      exact opened
    | ok h =>
      rw [read'] at step
      obtain ⟨rfl, finishes⟩ := reads
      cases inner with
      | none =>
        refine ⟨_, _, rfl, step.trans (notRead_eq opened _), rfl, ?_⟩
        rintro start fault source ⟨⟩
        exact opened
      | some r =>
        have members := block_eq (l := l) (finishes r rfl same inside .style) closing
          (q ++ textOf (upTo p ns)) (after p ns)
        refine ⟨_, _, rfl, step.trans (bind_done members _), rfl, ?_⟩
        rintro start fault source ⟨⟩
  · refine ⟨_, ⟨q ++ textOf (upTo p ns) ++ l.text, .none, after p ns⟩, rfl,
      (step.trans (bind_done token _)).trans ?_, rfl, ?_⟩
    · rw [found]
      exact notRead_eq (List.append_assoc ..) _
    · rw [found]
      rintro start fault source ⟨⟩
      exact List.append_assoc ..

include reads in
theorem atRuleBody_eq {e : Nat} {l : Lexeme} {body : List Node} {r : Context → Walk (List Member)}
    (found : inner = some r) (same : d = e + 1) (inside : ∀ m ∈ body, m.Within e)
    (closing : Option Lexeme) (kind : String) (q : List Char) (rest : List Node) :
    (atRuleBody kind r).run (.enter q (.block l body closing) rest) =
      .done (if kind = "keyframes" then .members (read .keyframes body)
        else if memberAtRules.contains kind then .members (read .style body)
        else .verbatim (String.ofList (Text.trim (textOf body))))
        ⟨q ++ (Node.block l body closing).text, none, rest⟩ := by
  have members := fun context =>
    block_eq (l := l) (reads.finishes r found same inside context) closing q rest
  unfold atRuleBody
  split
  · exact bind_done (members .keyframes) _
  · split
    · exact bind_done (members .style) _
    · exact bind_done (block_eq verbatimText_finishes closing q rest) _

include reads in
theorem atRule_eq {n : Node} (within : ∀ m ∈ ns, m.Within d) (name : String) (q : List Char) :
    ∃ c, (atRule d inner ⟨q, none, n :: ns⟩ name).run ⟨q ++ n.text, none, ns⟩ =
        .done ((ofAtRule room n name (upTo endsItem ns) (stop? endsItem ns)).expand read) c ∧
      c.rest = after endsItem ns := by
  have front : ∀ m ∈ upTo endsItem ns, m.Within d := fun m member =>
    within m ((List.takeWhile_prefix _).subset member)
  have stops : ∀ m, endsItem m → m.isSemicolon ∨ m.isCurly := fun m ends => by
    simpa [endsItem] using ends
  obtain ⟨result, run, rfl⟩ :=
    (atRulePrelude_finishes front (atRuleKind name)).reads.untilBefore (q ++ n.text)
  have step : (atRule d inner ⟨q, none, n :: ns⟩ name).run ⟨q ++ n.text, none, ns⟩ = _ :=
    bind_done (attempt_done run) _
  rcases ending_cases stops within (q ++ n.text ++ textOf (upTo endsItem ns)) with
    ⟨none, rest, e, token⟩ | ⟨e, l, body, closing, same, inside, found, token⟩ | ⟨l, found, token⟩
  · refine ⟨⟨q ++ n.text ++ textOf (upTo endsItem ns), .none, []⟩,
      (step.trans (bind_done token _)).trans ?_, rest.symm⟩
    rw [none]
    rfl
  · replace step := step.trans (bind_done token _)
    rw [found, ofAtRule]
    cases inner with
    | none =>
      have tight : room = false := reads.room.symm
      refine ⟨.enter (q ++ n.text ++ textOf (upTo endsItem ns)) (.block l body closing)
        (after endsItem ns), step.trans ?_, rfl⟩
      have opened : (Cursor.enter (q ++ n.text ++ textOf (upTo endsItem ns))
          (.block l body closing) (after endsItem ns)).passed =
          q ++ (n.text ++ textOf (upTo endsItem ns) ++ l.text) := by
        simp [Cursor.enter, Node.headText]
      rw [notRead_eq opened, tight]
      rfl
    | some r =>
      have roomy : room = true := reads.room.symm
      have members := atRuleBody_eq reads rfl same inside closing (l := l) (atRuleKind name)
        (q ++ n.text ++ textOf (upTo endsItem ns)) (after endsItem ns)
      refine ⟨⟨q ++ n.text ++ textOf (upTo endsItem ns) ++ (Node.block l body closing).text, none,
        after endsItem ns⟩, step.trans ((bind_done members _).trans ?_), rfl⟩
      rw [roomy]
      by_cases keyframes : atRuleKind name = "keyframes"
      · simp only [keyframes, if_true]
        rfl
      · by_cases holds : memberAtRules.contains (atRuleKind name)
        · simp only [keyframes, holds, if_true, if_false]
          rfl
        · simp only [keyframes, holds, if_false]
          rfl
  · refine ⟨⟨q ++ n.text ++ textOf (upTo endsItem ns) ++ l.text, none, after endsItem ns⟩,
      (step.trans (bind_done token _)).trans ?_, rfl⟩
    rw [found]
    rfl

include reads in
theorem retryAsRule_eq {n : Node} {rest : List Node} {name : String} {fault : Fault}
    (failed : readDeclaration name (upTo Node.isSemicolon rest) = .error fault)
    (within : ∀ m ∈ n :: rest, m.Within d) (q : List Char) (c : Cursor) :
    ∃ s c', (ofIdent room n name rest).1 = .rule s ∧
      (retryAsRule d inner ⟨q, none, n :: rest⟩ (.fault fault)).run c = .done (s.expand read) c' ∧
      c'.rest = (ofIdent room n name rest).2 := by
  have stops : ∀ m, endsItem m → m.isSemicolon ∨ m.isCurly := fun m ends => by
    simpa [endsItem] using ends
  obtain ⟨s, c', same, run, later, passed⟩ := qualifiedRule_eq reads stops within .style q
  have step : (retryAsRule d inner ⟨q, none, n :: rest⟩ (.fault fault)).run c = _ :=
    (bind_done (by rfl) _).trans (bind_done run _)
  rw [ofIdent, failed]
  simp only
  rw [show ofRule .style room n.start (upTo endsItem (n :: rest)) (stop? endsItem (n :: rest)) = s
    from same.symm]
  cases s with
  | unrecognized start reason source =>
    have passed := passed start reason source rfl
    obtain ⟨result, taken, _⟩ : ∃ result, (untilAfter Node.isSemicolon consumeRest).run
        ⟨q, none, n :: rest⟩ = .of result _ ∧ _ := consumeRest_finishes.reads.untilAfter q
    replace step := step.trans ((bind_done (by rfl) _).trans ((bind_done (by rfl) _).trans
      ((bind_done (by rfl) _).trans
        ((bind_done (attempt_of taken) _).trans (bind_done (by rfl) _)))))
    rw [Cursor.slice_append, passed, Cursor.slice_append] at step
    by_cases less : source.length < (itemText Node.isSemicolon (n :: rest)).length
    · rw [if_pos less] at step
      simp only [less, if_true]
      exact ⟨_, c', rfl, step, later⟩
    · rw [if_neg less] at step
      simp only [less, if_false]
      exact ⟨_, _, rfl, step.trans (notRead_eq rfl _), rfl⟩
  | style => exact ⟨_, c', rfl, step, later⟩
  | statement => exact ⟨_, c', rfl, step, later⟩
  | members => exact ⟨_, c', rfl, step, later⟩
  | verbatim => exact ⟨_, c', rfl, step, later⟩

include reads in
theorem declarationOrRule_eq {n : Node} {rest : List Node} (within : ∀ m ∈ n :: rest, m.Within d)
    (name : String) (q : List Char) :
    ∃ c, (declarationOrRule d inner ⟨q, none, n :: rest⟩ name).run ⟨q ++ n.text, none, rest⟩ =
        .done ((ofIdent room n name rest).1.expand read) c ∧
      c.rest = (ofIdent room n name rest).2 := by
  have front : ∀ m ∈ upTo Node.isSemicolon rest, m.Within d := fun m member =>
    within m (List.mem_cons_of_mem n ((List.takeWhile_prefix _).subset member))
  obtain ⟨result, run, rfl⟩ := (declaration_finishes front name).reads.untilAfter (q ++ n.text)
  have step : (declarationOrRule d inner ⟨q, none, n :: rest⟩ name).run
      ⟨q ++ n.text, none, rest⟩ = _ :=
    bind_done (attempt_of run) _
  cases declared : readDeclaration name (upTo Node.isSemicolon rest) with
  | ok found =>
    rw [declared] at step
    rw [ofIdent, declared]
    exact ⟨_, step, rfl⟩
  | error fault =>
    rw [declared] at step
    obtain ⟨s, c, outlook, rule, later⟩ := retryAsRule_eq reads declared within q
      ⟨q ++ n.text ++ itemText Node.isSemicolon rest, none, after Node.isSemicolon rest⟩
    rw [outlook]
    exact ⟨c, step.trans (bind_done rule _), later⟩

include reads in
theorem bodyItem_eq {n : Node} {rest : List Node} (within : ∀ m ∈ n :: rest, m.Within d)
    (first : Sketch.isBetween n = false) (context : Context) (q : List Char) :
    ∃ c, (bodyItem d inner context ⟨q, none, n :: rest⟩ n.token).run (.enter q n rest) =
        .done (some ((Sketch.itemAt context room n rest).1.expand read)) c ∧
      c.rest = (Sketch.itemAt context room n rest).2 := by
  have here := within n (by simp)
  have later : ∀ m ∈ rest, m.Within d := fun m member => within m (by simp [member])
  rcases Sketch.atKeyword_or_ident_or_other context n with
    ⟨name, keyword⟩ | ⟨name, ident, rfl⟩ | other
  · rw [Sketch.itemAt_atKeyword keyword, enter_plain here (by rw [keyword]; rfl), keyword]
    obtain ⟨c, run, behind⟩ := atRule_eq reads (n := n) later name q
    exact ⟨c, bind_done run _, behind⟩
  · rw [Sketch.itemAt_ident ident, enter_plain here (by rw [ident]; rfl), ident]
    obtain ⟨c, run, behind⟩ := declarationOrRule_eq reads within name q
    exact ⟨c, bind_done run _, behind⟩
  · have stops : ∀ m, endsItem m → m.isSemicolon ∨ m.isCurly := fun m ends => by
      simpa [endsItem] using ends
    rw [Sketch.itemAt_other other.1 other.2]
    obtain ⟨s, c, rfl, run, behind, _⟩ := qualifiedRule_eq reads stops within context q
    have plain : n.token ≠ .semicolon := by
      intro semicolon
      simp [Sketch.isBetween, Node.isSemicolon, semicolon] at first
    rw [bodyItem_other plain other.1 other.2]
    exact ⟨c, (bind_done (by rfl) _).trans (bind_done run _), behind⟩

include reads in
theorem exists_loops_bodyStep (within : ∀ m ∈ ns, m.Within d) (place : c.settle = ⟨q, none, ns⟩)
    (context : Context) (members : List Member) :
    ∃ c', Loops (bodyStep d inner context) members c
        (.done (members ++ (Sketch.ofBody context room ns).map (Outlook.expand read)) c') ∧
      c'.Spent := by
  induction size : ns.length using Nat.strong_induction_on generalizing ns c q members with
  | _ size' ih =>
    subst size
    rcases skipTrivia_cases place with
      ⟨spent, skipped, run⟩ | ⟨lead, n, rest, rfl, blank, solid, _, skipped, run⟩
    · have step : (bodyStep d inner context members).run c = _ :=
        (bind_done skipped _).trans
          ((bind_done (by rfl) _).trans (bind_done (attempt_failed run) _))
      have none : Sketch.ofBody context room ns = [] := by
        rw [← List.append_nil ns, ofBody_blank (isTrivia_of_significant spent), Sketch.ofBody_nil]
      rw [none, List.map_nil, List.append_nil]
      exact ⟨_, .stop step, by simp [Cursor.Spent]⟩
    have step : (bodyStep d inner context members).run c = _ :=
      (bind_done skipped _).trans ((bind_done (by rfl) _).trans (bind_done (attempt_done run) _))
    replace within : ∀ m ∈ n :: rest, m.Within d := fun m member =>
      within m (List.mem_append_right lead member)
    -- A round that leaves a suffix of the nodes after its first one goes on from there.
    have goesOn : ∀ {c' : Cursor} {found : Option Member} {later : List Node},
        (bodyItem d inner context ⟨q ++ textOf lead, none, n :: rest⟩ n.token).run
          (.enter (q ++ textOf lead) n rest) = .done found c' → c'.rest = later → later <:+ rest →
        ∃ c'', Loops (bodyStep d inner context) members c (.done (members ++ found.toList ++
          (Sketch.ofBody context room later).map (Outlook.expand read)) c'') ∧ c''.Spent := by
      rintro c' found later item rfl suffix
      have shorter : c'.rest.length < (lead ++ n :: rest).length := length_lt_lead suffix
      obtain ⟨c'', loops, spent⟩ := ih c'.rest.length shorter
        (fun m member => within m (List.mem_cons_of_mem n (suffix.subset member))) c'.settle_eq
        (members ++ found.toList) rfl
      refine ⟨c'', .more (step.trans (bind_done item _)) ?_ loops, spent⟩
      rwa [Cursor.rest_eq place]
    rw [ofBody_blank blank]
    cases first : Sketch.isBetween n with
    | true =>
      have token : n.token = .semicolon := by
        simpa [Sketch.isBetween, solid, Node.isSemicolon] using first
      have item : (bodyItem d inner context ⟨q ++ textOf lead, none, n :: rest⟩ n.token).run
          (.enter (q ++ textOf lead) n rest) = .done none (.enter (q ++ textOf lead) n rest) := by
        rw [token]
        rfl
      rw [Sketch.ofBody_skip first]
      simpa using goesOn item rfl List.suffix_rfl
    | false =>
      obtain ⟨c', item, behind⟩ := bodyItem_eq reads within first context (q ++ textOf lead)
      rw [Sketch.ofBody_itemAt first]
      simpa using goesOn item behind (itemAt_suffix ..)

include reads in
theorem bodyLoop_finishes (within : ∀ m ∈ ns, m.Within d) (context : Context) :
    Finishes (loop (bodyStep d inner context) []) ns
      (· = .ok ((Sketch.ofBody context room ns).map (Outlook.expand read))) := by
  intro q
  obtain ⟨c, loops, spent⟩ :=
    exists_loops_bodyStep reads within (Cursor.settle_none q ns) context []
  exact ⟨.ok _, c, loops.run_loop, fun _ _ => spent, rfl⟩

end Rules

theorem body_finishes (room d : Nat) (within : ∀ m ∈ ns, m.Within d) (context : Context) :
    Finishes (body room d context) ns (· = .ok (readBody room context ns)) := by
  induction room generalizing d ns context with
  | zero => exact bodyLoop_finishes ⟨rfl, by simp⟩ within context
  | succ room ih =>
    cases d with
    | zero => exact bodyLoop_finishes ⟨rfl, by simp⟩ within context
    | succ d =>
      refine bodyLoop_finishes ⟨rfl, ?_⟩ within context
      rintro r ⟨⟩ e ms same inside context
      cases same
      exact ih d inside context

section Sheet

variable {read : Context → List Node → List Member} {inner : Inner}
  (reads : InnerReads d true read inner)

theorem ofSheet_blank {lead : List Node} (blank : ∀ n ∈ lead, n.isTrivia) (ns : List Node) :
    Sketch.ofSheet (lead ++ ns) = Sketch.ofSheet ns := by
  induction lead with
  | nil => rfl
  | cons n lead ih =>
    rw [List.cons_append, Sketch.ofSheet_skip (by simp [blank n])]
    exact ih fun m later => blank m (by simp [later])

include reads in
theorem sheetItem_eq {n : Node} {rest : List Node} (within : ∀ m ∈ n :: rest, m.Within d)
    (solid : n.isTrivia = false) (q : List Char) :
    ∃ found c, (sheetItem d inner ⟨q, none, n :: rest⟩ n.token).run (.enter q n rest) =
        .done found c ∧ c.rest <:+ rest ∧
      (Sketch.ofSheet (n :: rest)).map (Sketch.expand read) =
        found.toList ++ (Sketch.ofSheet c.rest).map (Sketch.expand read) := by
  have here := within n (by simp)
  have later : ∀ m ∈ rest, m.Within d := fun m member => within m (by simp [member])
  by_cases mark : n.token = .cdo ∨ n.token = .cdc
  · refine ⟨none, .enter q n rest, ?_, List.suffix_rfl, ?_⟩
    · rcases mark with token | token <;> rw [token] <;> rfl
    · rw [Sketch.ofSheet_skip (by rcases mark with token | token <;> simp [token])]
      rfl
  by_cases keyword : ∃ name, n.token = .atKeyword name
  · obtain ⟨name, keyword⟩ := keyword
    obtain ⟨c, run, behind⟩ := atRule_eq reads (n := n) later name q
    rw [Sketch.ofSheet_atKeyword keyword, keyword, enter_plain here (by rw [keyword]; rfl)]
    exact ⟨_, c, bind_done run _, behind ▸ after_suffix _ _, by rw [behind]; rfl⟩
  · obtain ⟨noCdo, noCdc⟩ := not_or.1 mark
    have noKeyword := not_exists.1 keyword
    obtain ⟨s, c, rfl, run, behind, _⟩ := qualifiedRule_eq reads (fun m => .inr) within .style q
    rw [Sketch.ofSheet_other (by simp [solid, noCdo, noCdc]) noKeyword,
      sheetItem.eq_4 _ _ _ _ noCdo noCdc noKeyword]
    exact ⟨_, c, (bind_done (by rfl) _).trans (bind_done run _), behind ▸ after_cons_suffix _ _ _,
      by rw [behind]; rfl⟩

include reads in
theorem exists_loops_sheetStep (within : ∀ m ∈ ns, m.Within d) (place : c.settle = ⟨q, none, ns⟩)
    (rules : List Rule) :
    ∃ c', Loops (sheetStep d inner) rules c
        (.done (rules ++ (Sketch.ofSheet ns).map (Sketch.expand read)) c') ∧ c'.Spent := by
  induction size : ns.length using Nat.strong_induction_on generalizing ns c q rules with
  | _ size' ih =>
    subst size
    rcases skipTrivia_cases place with
      ⟨spent, skipped, run⟩ | ⟨lead, n, rest, rfl, blank, solid, _, skipped, run⟩
    · have step : (sheetStep d inner rules).run c = _ :=
        (bind_done skipped _).trans
          ((bind_done (by rfl) _).trans (bind_done (attempt_failed run) _))
      have none : Sketch.ofSheet ns = [] := by
        rw [← List.append_nil ns, ofSheet_blank (isTrivia_of_significant spent), Sketch.ofSheet_nil]
      rw [none, List.map_nil, List.append_nil]
      exact ⟨_, .stop step, by simp [Cursor.Spent]⟩
    replace within : ∀ m ∈ n :: rest, m.Within d := fun m member =>
      within m (List.mem_append_right lead member)
    obtain ⟨found, c', item, suffix, next⟩ := sheetItem_eq reads within solid (q ++ textOf lead)
    have step : (sheetStep d inner rules).run c = _ :=
      (bind_done skipped _).trans ((bind_done (by rfl) _).trans
        ((bind_done (attempt_done run) _).trans (bind_done item _)))
    have shorter : c'.rest.length < (lead ++ n :: rest).length := length_lt_lead suffix
    obtain ⟨c'', loops, spent⟩ := ih c'.rest.length shorter
      (fun m member => within m (List.mem_cons_of_mem n (suffix.subset member))) c'.settle_eq
      (rules ++ found.toList) rfl
    refine ⟨c'', .more step (by rwa [Cursor.rest_eq place]) ?_, spent⟩
    rw [ofSheet_blank blank, next, ← List.append_assoc]
    exact loops

include reads in
theorem sheetLoop_finishes (within : ∀ m ∈ ns, m.Within d) :
    Finishes (loop (sheetStep d inner) []) ns
      (· = .ok ((Sketch.ofSheet ns).map (Sketch.expand read))) := by
  intro q
  obtain ⟨c, loops, spent⟩ := exists_loops_sheetStep reads within (Cursor.settle_none q ns) []
  exact ⟨.ok _, c, loops.run_loop, fun _ _ => spent, rfl⟩

end Sheet

theorem sheet_finishes (d : Nat) (within : ∀ m ∈ ns, m.Within d) :
    Finishes (sheet d) ns (· = .ok (readRules ns)) := by
  cases d with
  | zero => exact sheetLoop_finishes ⟨rfl, by simp⟩ within
  | succ d =>
    refine sheetLoop_finishes ⟨rfl, ?_⟩ within
    rintro r ⟨⟩ e ms same inside context
    cases same
    exact body_finishes (maxNesting - 1) d inside context

end Walk

end CssOutline
