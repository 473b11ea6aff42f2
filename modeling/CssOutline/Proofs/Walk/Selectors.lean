import CssOutline.Proofs.Walk

/-! Selectors read with a cursor. The argument of a function that takes selectors is first tried as
a list of selectors, one level of blocks further in, and kept as text if that fails; what comes out
is what the symbols of the nodes give. -/

namespace CssOutline

open Node (textOf significant dropTrivia symbols symbol?)
open ComplexSelector (push afterCombinator isCombinator readFrom)

namespace Walk

def attributeValue : Walk AttributeValue := do
  skipTrivia
  let start ← here
  match ← next with
  | .string s => do
    let source ← since start
    pure (.quoted ⟨s, Quoted.quoteOf source⟩)
  | .ident name => pure (.ident name)
  | _ => refuse (.selector .expectedAttributeValue)

def attributeFlag : Walk (Option String) := do
  if ← isExhausted then pure none
  else
    let flag ← expectIdent
    if !Text.sameName flag "i" && !Text.sameName flag "s" then refuse (.selector .unknownFlag)
    else pure (some flag)

def bracket : Walk Attribute := do
  let name ← expectIdent
  if ← isExhausted then pure ⟨name, none⟩
  else
    let t ← next
    match Attribute.operator? t with
    | none => refuse (.selector .unknownOperator)
    | some operator => do
      let value ← attributeValue
      (fun flag => ⟨name, some ⟨operator, value, flag⟩⟩) <$> attributeFlag

def argument (inner : Walk SelectorList) (name : String) : Walk Argument :=
  if takesSelectors name then do
    match ← tryTo inner with
    | .ok list => pure (.selectors list)
    | .error _ => Argument.raw <$> trimmedRest
  else Argument.raw <$> trimmedRest

def pseudoElement (inner : Walk SelectorList) : Walk Component := do
  match ← nextSpaced with
  | .ident name => pure (.pseudo .element name .none)
  | .function name => Component.pseudo .element name <$> nested (argument inner name)
  | _ => refuse (.selector .expectedPseudoElement)

def simple (inner : Walk SelectorList) : Token → Walk Component
  | .ident name => pure (.element name)
  | .delim '*' => pure .universal
  | .delim '&' => pure .nesting
  | .idHash name => pure (.identity name)
  | .delim '.' => do
    match ← nextSpaced with
    | .ident name => pure (.className name)
    | _ => refuse (.selector .expectedClass)
  | .openSquare => Component.hasAttribute <$> nested bracket
  | .colon => do
    match ← nextSpaced with
    | .colon => pseudoElement inner
    | .ident name => pure (.pseudo .classes name .none)
    | .function name => Component.pseudo .classes name <$> nested (argument inner name)
    | _ => refuse (.selector .expectedPseudoClass)
  | _ => refuse (.selector .unexpectedToken)

def combinator? : Token → Option Combinator
  | .delim '>' => some .child
  | .delim '+' => some .nextSibling
  | .delim '~' => some .laterSibling
  | _ => none

def complete : List Component → Except Fault ComplexSelector
  | [] => .error (.selector .empty)
  | c :: done =>
    if isCombinator c then .error (.selector .endsWithCombinator) else .ok (c :: done).reverse

/-- What a token adds to the components so far, last first; with them goes whether blanks came
last. -/
def addToken (inner : Walk SelectorList) (done : List Component) (gap : Bool) :
    Token → Walk (List Component × Bool)
  | .whitespace => pure (done, !done.isEmpty)
  | t =>
    match combinator? t with
    | some c =>
      if afterCombinator done then refuse (.selector .twoCombinators)
      else pure (.combinator c :: done, false)
    | none => do
      let component ← simple inner t
      pure (push done gap component, false)

def componentStep (inner : Walk SelectorList) (s : List Component × Bool) :
    Walk ((List Component × Bool) ⊕ ComplexSelector) := do
  match ← attempt nextSpaced with
  | .error _ =>
    match complete s.1 with
    | .ok selector => pure (.inr selector)
    | .error fault => refuse fault
  | .ok t => .inl <$> addToken inner s.1 s.2 t

def complexSelector (inner : Walk SelectorList) : Walk ComplexSelector := do
  skipTrivia
  loop (componentStep inner) ([], false)

/-- Selectors whose arguments hold at most `d` levels of blocks. -/
def selectors : Nat → Walk SelectorList
  | 0 => commaList (complexSelector (misuse .endless))
  | d + 1 => commaList (complexSelector (selectors d))

def keyframeStep (done : List Keyframe) : Walk (List Keyframe ⊕ List Keyframe) := do
  let t ← next
  match Node.keyframe? t with
  | none => refuse .keyframe
  | some k => do
    if ← isExhausted then pure (.inr (done ++ [k]))
    else
      expectComma
      pure (.inl (done ++ [k]))

def keyframes : Walk (List Keyframe) :=
  loop keyframeStep []

/-- The result of a reader that stops at `c`, where more nodes make it a setback. -/
def Answers {α : Type} (full : Except Fault α) (c : Cursor) : Except Setback α → Prop
  | .ok a =>
    full = match significant c.rest with
      | [] => .ok a
      | n :: _ => .error (.unexpectedToken n.token)
  | .error e => ∃ fault, e = .fault fault ∧ full = .error fault

section Bracket

variable {α β : Type} {c : Cursor} {q : List Char} {ns : List Node} {d : Nat}

theorem Reads.of_answers {r : Walk α} {full : Except Fault α}
    (answers : ∀ q, ∃ result c, r.run ⟨q, none, ns⟩ = .of result c ∧ Answers full c result) :
    Reads r ns (· = full.mapError .fault) := by
  intro q
  obtain ⟨result, c, run, answer⟩ := answers q
  cases result with
  | error e =>
    obtain ⟨fault, rfl, rfl⟩ := answer
    exact ⟨.error (.fault fault), c, entirely_failed run, rfl⟩
  | ok a =>
    refine ⟨full.mapError .fault, c, ?_, rfl⟩
    rw [show full = _ from answer, entirely_eq run]
    cases significant c.rest <;> rfl

theorem Answers.map {full : Except Fault α} {result : Except Setback α}
    (answer : Answers full c result) (f : α → β) : Answers (full.map f) c (result.map f) := by
  cases result with
  | error e =>
    obtain ⟨fault, rfl, rfl⟩ := answer
    exact ⟨fault, rfl, rfl⟩
  | ok a =>
    rw [show full = _ from answer]
    simp only [Answers, Except.map]
    cases significant c.rest <;> rfl

theorem attributeFlag_answers (place : c.settle = ⟨q, none, ns⟩) :
    ∃ result c', attributeFlag.run c = .of result c' ∧
      Answers (Attribute.flag? (significant ns)) c' result := by
  have ns_eq := Cursor.rest_eq place
  rcases next_cases place with ⟨spent, _, _⟩ | ⟨lead, n, rest, _, _, _, found, run⟩
  · refine ⟨.ok none, c, bind_done (isExhausted_true (ns_eq ▸ spent)) _, ?_⟩
    simp [Answers, ns_eq, spent, Attribute.flag?]
  · have flag := expect_eq run ident?
    rw [attributeFlag, bind_done (isExhausted_false (ns_eq ▸ found)), found]
    simp only [Bool.false_eq_true, if_false]
    cases named : ident? n.token with
    | none =>
      rw [named] at flag
      refine ⟨.error _, _, bind_failed flag _, .unexpectedToken n.token, rfl, ?_⟩
      simp only [Attribute.flag?]
      split
      · rename_i name token
        simp [token, ident?] at named
      · rfl
    | some name =>
      rw [named] at flag
      rw [expectIdent, bind_done flag]
      simp only [Attribute.flag?, ident?_eq_some.1 named]
      split
      · exact ⟨.error _, _, rfl, .selector .unknownFlag, rfl, rfl⟩
      · refine ⟨.ok (some name), _, rfl, ?_⟩
        cases last : significant rest <;> simp [Answers, last]

theorem attributeValue_eq (within : ∀ n ∈ ns, n.Within d) (place : c.settle = ⟨q, none, ns⟩) :
    (significant ns = [] ∧ ∃ c', attributeValue.run c = .failed (.fault .endOfInput) c') ∨
    ∃ v rest q', significant ns = v :: significant rest ∧
      attributeValue.run c =
        match Attribute.value? v with
        | none => .failed (.fault (.selector .expectedAttributeValue)) (.enter q' v rest)
        | some value => .done value (.enter q' v rest) := by
  rcases skipTrivia_cases place with
    ⟨spent, skipped, run⟩ | ⟨lead, v, rest, rfl, _, _, found, skipped, run⟩
  · exact .inl ⟨spent, _, by
      rw [attributeValue, bind_done skipped, bind_done (by rfl), bind_failed run]⟩
  · refine .inr ⟨v, rest, q ++ textOf lead, found, ?_⟩
    rw [attributeValue, bind_done skipped, bind_done (by rfl), bind_done run]
    split
    · rename_i s token
      have plain : v.token.closing? = none := by rw [token]; rfl
      rw [enter_plain (within v (by simp)) plain, bind_done (by rfl), run_pure,
        Cursor.slice_append, Attribute.value?, token]
    · rename_i name token
      rw [Attribute.value?, token]
      rfl
    · rename_i noString noIdent
      have none : Attribute.value? v = none := by
        unfold Attribute.value?
        split
        · rename_i s token
          exact absurd token (noString s)
        · rename_i name token
          exact absurd token (noIdent name)
        · rfl
      rw [none]
      rfl

theorem bracket_reads (within : ∀ n ∈ ns, n.Within d) :
    Reads bracket ns (· = (Attribute.read ns).mapError .fault) := by
  apply Reads.of_answers
  intro q
  rcases next_cases (c := ⟨q, none, ns⟩) rfl with
    ⟨spent, _, run⟩ | ⟨lead, n, rest, rfl, _, _, found, run⟩
  · refine ⟨.error _, _, bind_failed (expect_end run _) _, .endOfInput, rfl, ?_⟩
    rw [Attribute.read, spent]
  have name := expect_eq run ident?
  rw [Attribute.read, found]
  cases named : ident? n.token with
  | none =>
    rw [named] at name
    refine ⟨.error _, _, bind_failed name _, .unexpectedToken n.token, rfl, ?_⟩
    dsimp only
    split
    · rename_i name token
      simp [token, ident?] at named
    · rfl
  | some text =>
    rw [named] at name
    rw [bracket, expectIdent, bind_done name]
    simp only [ident?_eq_some.1 named]
    replace within : ∀ m ∈ rest, m.Within d := fun m later => within m (by simp [later])
    rcases next_cases (Cursor.settle_enter (q ++ textOf lead) n rest) with
      ⟨spent, _, _⟩ | ⟨lead, o, rest, rfl, _, _, found, run⟩
    · refine ⟨.ok ⟨text, none⟩, _, bind_done (isExhausted_true spent) _, ?_⟩
      simp [Answers, spent, Attribute.test?, Except.map]
    rw [found, bind_done (isExhausted_false found)]
    simp only [Bool.false_eq_true, if_false, bind_done run, Attribute.test?]
    cases operation : Attribute.operator? o.token with
    | none => exact ⟨.error _, _, rfl, .selector .unknownOperator, rfl, rfl⟩
    | some operator =>
      replace within : ∀ m ∈ rest, m.Within d := fun m later => within m (by simp [later])
      rcases attributeValue_eq within (Cursor.settle_enter _ o rest) with
        ⟨spent, c, run⟩ | ⟨v, rest, q, found, run⟩
      · refine ⟨.error _, c, bind_failed run _, .endOfInput, rfl, ?_⟩
        rw [spent]
        rfl
      rw [found]
      cases valued : Attribute.value? v with
      | none =>
        rw [valued] at run
        refine ⟨.error _, _, bind_failed run _, .selector .expectedAttributeValue, rfl, ?_⟩
        simp only [valued, Except.map]
      | some value =>
        rw [valued] at run
        obtain ⟨result, c, flag, answer⟩ := attributeFlag_answers (Cursor.settle_enter q v rest)
        refine ⟨_, c, (bind_done run _).trans (map_of flag _), ?_⟩
        have whole := answer.map fun flag => (⟨text, some ⟨operator, value, flag⟩⟩ : Attribute)
        simp only [valued]
        cases read : Attribute.flag? (significant rest) with
        | ok _ => simpa [read, Except.map] using whole
        | error _ => simpa [read, Except.map] using whole

end Bracket

section Components

variable {c : Cursor} {q : List Char} {ns : List Node} {d : Nat} {inner : Walk SelectorList}

/-- The argument is read as selectors or, from its start again, as text. -/
theorem argument_finishes (name : String) {body : List Node}
    (reads : Finishes inner body (· = (Node.readSelectors body).mapError .fault)) :
    Finishes (argument inner name) body (· = .ok (Argument.read name body (symbols body))) := by
  intro q
  obtain ⟨q', text⟩ := trimmedRest_eq (c := ⟨q, none, body⟩) rfl
  have raw : (Argument.raw <$> trimmedRest).run ⟨q, none, body⟩ =
      .of (.ok (.raw (Node.trimmedText body))) ⟨q', none, []⟩ := bind_done text _
  have spent : Cursor.Spent ⟨q', none, []⟩ := by simp [Cursor.Spent]
  unfold argument Argument.read
  split
  · obtain ⟨result, c, run, finished, rfl⟩ := reads q
    rw [Node.readSelectors] at run finished
    cases read : SelectorList.ofSymbols (symbols body) with
    | ok list =>
      rw [read] at run finished
      refine ⟨_, c, ?_, fun _ _ => finished list rfl, rfl⟩
      rw [bind_done (tryTo_done run)]
      rfl
    | error fault =>
      rw [read] at run
      refine ⟨_, _, ?_, fun _ _ => spent, rfl⟩
      rw [bind_done (tryTo_failed run)]
      exact raw
  · exact ⟨_, _, raw, fun _ _ => spent, rfl⟩

theorem token_of_isComment {n : Node} (comment : n.isComment) : n.token = .comment := by
  simpa [Node.isComment] using comment

theorem symbols_lead {lead : List Node} (comments : ∀ m ∈ lead, m.isComment)
    (within : ∀ m ∈ lead, m.Within d) (ns : List Node) : symbols (lead ++ ns) = symbols ns := by
  induction lead with
  | nil => rfl
  | cons m lead ih =>
    have token := token_of_isComment (comments m (by simp))
    have none : symbol? m = none := by
      cases within m (by simp) with
      | leaf => simp_all [symbol?, Node.token, Symbol.ofToken?]
      | block opens _ => simp_all [Node.token, Token.closing?]
    rw [List.cons_append, symbols, none]
    exact ih (fun m later => comments m (by simp [later])) fun m later => within m (by simp [later])

theorem symbol_cases {n : Node} (within : n.Within d) (kept : n.isComment = false) :
    (∃ name, n.token = .ident name ∧ symbol? n = some (.ident name)) ∨
    (n.token = .colon ∧ symbol? n = some .colon) ∨
    (∃ l body closing name, n = .block l body closing ∧ l.token = .function name ∧
      symbol? n = some (.function name (Argument.read name body (symbols body)))) ∨
    ((∀ name, n.token ≠ .ident name) ∧ n.token ≠ .colon ∧ (∀ name, n.token ≠ .function name) ∧
      ∃ s, symbol? n = some s ∧ (∀ name, s ≠ .ident name) ∧ s ≠ .colon ∧
        ∀ name a, s ≠ .function name a) := by
  cases within with
  | @leaf _ l plain =>
    have comment : l.token ≠ .comment := by simpa [Node.isComment, Node.token] using kept
    simp only [symbol?, Node.token]
    unfold Symbol.ofToken?
    split <;> simp_all
    intro name token
    simp [token, Token.closing?] at plain
  | @block _ l body closing opens inner =>
    cases token : l.token <;> simp_all [symbol?, Token.closing?, Node.token]

theorem ident_or_other {n : Node} (within : n.Within d) (kept : n.isComment = false) :
    (∃ name, n.token = .ident name ∧ symbol? n = some (.ident name)) ∨
    ((∀ name, n.token ≠ .ident name) ∧ ∃ s, symbol? n = some s ∧ ∀ name, s ≠ .ident name) := by
  rcases symbol_cases within kept with ident | ⟨token, symbol⟩ |
    ⟨l, body, closing, name, rfl, token, symbol⟩ | ⟨noIdent, _, _, s, symbol, notIdent, _, _⟩
  · exact .inl ident
  · exact .inr ⟨by simp [token], _, symbol, by simp⟩
  · exact .inr ⟨by simp [Node.token, token], _, symbol, by simp⟩
  · exact .inr ⟨noIdent, s, symbol, notIdent⟩

theorem symbol?_plain {n : Node} (within : n.Within d) (plain : n.token.closing? = none) :
    symbol? n = Symbol.ofToken? n.token := by
  cases within with
  | leaf => rfl
  | block opens _ =>
    rw [Node.token] at plain
    simp [plain] at opens

theorem symbols_cons {n : Node} {s : Symbol} (symbol : symbol? n = some s) (ns : List Node) :
    symbols (n :: ns) = s :: symbols ns := by
  rw [symbols, symbol]

/-- The component that a reader takes from the front of symbols, those of the nodes `ns` last. -/
def Takes (ss : List Symbol) (ns : List Node) (c : Cursor) : Except Setback Component → Prop
  | .ok s => c.rest <:+ ns ∧ ∀ done gap,
      readFrom done gap ss = readFrom (push done gap s) false (symbols c.rest)
  | .error e => ∃ fault, e = .fault fault ∧ ∀ done gap, readFrom done gap ss = .error fault

theorem nextSpaced_cases (within : ∀ m ∈ ns, m.Within d) (place : c.settle = ⟨q, none, ns⟩) :
    (symbols ns = [] ∧
      nextSpaced.run c = .failed (.fault .endOfInput) ⟨q ++ textOf ns, none, []⟩) ∨
    ∃ n rest q', n :: rest <:+ ns ∧ n.isComment = false ∧ symbols ns = symbols (n :: rest) ∧
      nextSpaced.run c = .done n.token (.enter q' n rest) := by
  rcases exists_lead Node.isComment ns with comments | ⟨lead, n, rest, rfl, comments, kept⟩
  · refine .inl ⟨?_, nextAfter_all place comments⟩
    simpa [symbols] using symbols_lead comments within []
  · refine .inr ⟨n, rest, q ++ textOf lead, ⟨lead, rfl⟩, kept, ?_,
      nextAfter_lead place comments kept⟩
    exact symbols_lead comments (fun m member => within m (by simp [member])) _

theorem nested_argument {body : List Node}
    (reads : Finishes inner body (· = (Node.readSelectors body).mapError .fault))
    (kind : PseudoKind) (name : String) (q : List Char) (l : Lexeme) (closing : Option Lexeme)
    (rest : List Node) :
    ∃ q', (Component.pseudo kind name <$> nested (argument inner name)).run
        (.enter q (.block l body closing) rest) =
      .of (.ok (.pseudo kind name (Argument.read name body (symbols body)))) ⟨q', none, rest⟩ := by
  obtain ⟨result, run, rfl⟩ := (argument_finishes name reads).reads.nested closing q rest
  exact ⟨_, map_of run _⟩

variable (reads : ∀ {l body closing}, Node.block l body closing ∈ ns →
  Finishes inner body (· = (Node.readSelectors body).mapError .fault))

include reads in
theorem pseudoElement_takes (within : ∀ m ∈ ns, m.Within d) (place : c.settle = ⟨q, none, ns⟩) :
    ∃ result c', (pseudoElement inner).run c = .of result c' ∧
      Takes (.colon :: .colon :: symbols ns) ns c' result := by
  rcases nextSpaced_cases within place with ⟨none, run⟩ | ⟨n, rest, q', suffix, kept, same, run⟩
  · refine ⟨.error _, _, bind_failed run _, .endOfInput, rfl, fun done gap => ?_⟩
    rw [none, readFrom]
  have later : rest <:+ ns := (List.suffix_cons n rest).trans suffix
  rw [pseudoElement, bind_done run, same]
  rcases symbol_cases (within n (suffix.subset (by simp))) kept with
    ⟨name, token, symbol⟩ | ⟨token, symbol⟩ | ⟨l, body, closing, name, rfl, token, symbol⟩ |
      ⟨noIdent, _, noFunction, s, symbol, notIdent, notColon, notFunction⟩
  · rw [token, symbols_cons symbol]
    refine ⟨.ok _, _, rfl, later, fun done gap => ?_⟩
    rw [readFrom, Cursor.rest_enter]
  · rw [token, symbols_cons symbol]
    refine ⟨.error _, _, rfl, .selector .expectedPseudoElement, rfl, fun done gap => ?_⟩
    simp only [readFrom]
  · have inside := reads (suffix.subset (by simp : Node.block l body closing ∈ _))
    obtain ⟨q', run⟩ := nested_argument inside .element name q' l closing rest
    rw [Node.token, token, symbols_cons symbol]
    refine ⟨_, _, run, later, fun done gap => ?_⟩
    rw [readFrom]
  · rw [symbols_cons symbol]
    refine ⟨.error (.fault (.selector .expectedPseudoElement)), .enter q' n rest, ?_,
      .selector .expectedPseudoElement, rfl, fun done gap => ?_⟩
    · split
      · rename_i name token
        exact absurd token (noIdent name)
      · rename_i name token
        exact absurd token (noFunction name)
      · rfl
    · cases s <;> simp_all [readFrom]

include reads in
theorem colon_takes (within : ∀ m ∈ ns, m.Within d) (place : c.settle = ⟨q, none, ns⟩) :
    ∃ result c', (simple inner .colon).run c = .of result c' ∧
      Takes (.colon :: symbols ns) ns c' result := by
  rw [simple]
  rcases nextSpaced_cases within place with ⟨none, run⟩ | ⟨n, rest, q', suffix, kept, same, run⟩
  · refine ⟨.error _, _, bind_failed run _, .endOfInput, rfl, fun done gap => ?_⟩
    rw [none, readFrom]
  have later : rest <:+ ns := (List.suffix_cons n rest).trans suffix
  rw [bind_done run, same]
  rcases symbol_cases (within n (suffix.subset (by simp))) kept with
    ⟨name, token, symbol⟩ | ⟨token, symbol⟩ | ⟨l, body, closing, name, rfl, token, symbol⟩ |
      ⟨noIdent, noColon, noFunction, s, symbol, notIdent, notColon, notFunction⟩
  · rw [token, symbols_cons symbol]
    refine ⟨.ok _, _, rfl, later, fun done gap => ?_⟩
    rw [readFrom, Cursor.rest_enter]
  · have inside : ∀ {l body closing}, Node.block l body closing ∈ rest →
        Finishes inner body (· = (Node.readSelectors body).mapError .fault) :=
      fun member => reads (later.subset member)
    obtain ⟨result, c', run, takes⟩ := pseudoElement_takes inside
      (fun m member => within m (later.subset member)) (Cursor.settle_enter q' n rest)
    rw [token, symbols_cons symbol]
    refine ⟨result, c', run, ?_⟩
    cases result with
    | ok s => exact ⟨takes.1.trans later, takes.2⟩
    | error e => exact takes
  · have inside := reads (suffix.subset (by simp : Node.block l body closing ∈ _))
    obtain ⟨q', run⟩ := nested_argument inside .classes name q' l closing rest
    rw [Node.token, token, symbols_cons symbol]
    refine ⟨_, _, run, later, fun done gap => ?_⟩
    rw [readFrom]
  · rw [symbols_cons symbol]
    refine ⟨.error (.fault (.selector .expectedPseudoClass)), .enter q' n rest, ?_,
      .selector .expectedPseudoClass, rfl, fun done gap => ?_⟩
    · split
      · exact absurd ‹_› noColon
      · rename_i name token
        exact absurd token (noIdent name)
      · rename_i name token
        exact absurd token (noFunction name)
      · rfl
    · cases s <;> simp_all [readFrom]

theorem dot_takes (inner : Walk SelectorList) (within : ∀ m ∈ ns, m.Within d)
    (place : c.settle = ⟨q, none, ns⟩) :
    ∃ result c', (simple inner (.delim '.')).run c = .of result c' ∧
      Takes (.dot :: symbols ns) ns c' result := by
  rw [simple]
  rcases nextSpaced_cases within place with ⟨none, run⟩ | ⟨n, rest, q', suffix, kept, same, run⟩
  · refine ⟨.error _, _, bind_failed run _, .endOfInput, rfl, fun done gap => ?_⟩
    rw [none, readFrom]
  have later : rest <:+ ns := (List.suffix_cons n rest).trans suffix
  rw [bind_done run, same]
  rcases ident_or_other (within n (suffix.subset (by simp))) kept with
    ⟨name, token, symbol⟩ | ⟨noIdent, s, symbol, notIdent⟩
  · rw [token, symbols_cons symbol]
    refine ⟨.ok _, _, rfl, later, fun done gap => ?_⟩
    rw [readFrom, Cursor.rest_enter]
  · rw [symbols_cons symbol]
    refine ⟨.error (.fault (.selector .expectedClass)), .enter q' n rest, ?_,
      .selector .expectedClass, rfl, fun done gap => ?_⟩
    · split
      · rename_i name token
        exact absurd token (noIdent name)
      · rfl
    · cases s <;> simp_all [readFrom]

include reads in
theorem simple_takes {n : Node} {rest : List Node} (whole : ns = n :: rest)
    (within : ∀ m ∈ ns, m.Within d) (kept : n.isComment = false)
    (solid : n.token ≠ .whitespace) (plain : combinator? n.token = none) (q : List Char) :
    ∃ result c', (simple inner n.token).run (.enter q n rest) = .of result c' ∧
      Takes (symbols ns) rest c' result := by
  subst whole
  have here := within n (by simp)
  replace within : ∀ m ∈ rest, m.Within d := fun m later => within m (by simp [later])
  have single : ∀ {s component}, n.token.closing? = none → Symbol.ofToken? n.token = some s →
      (∀ done gap ss, readFrom done gap (s :: ss) = readFrom (push done gap component) false ss) →
      ∃ result c', (pure component : Walk Component).run (.enter q n rest) = .of result c' ∧
        Takes (symbols (n :: rest)) rest c' result := by
    intro s component opens symbol taken
    rw [symbols_cons ((symbol?_plain here opens).trans symbol)]
    exact ⟨.ok component, _, rfl, List.suffix_rfl, fun done gap => taken done gap _⟩
  unfold simple
  split
  · rename_i name token
    exact single (by rw [token]; rfl) (by rw [token]; rfl) fun _ _ _ => by rw [readFrom]
  · rename_i token
    exact single (by rw [token]; rfl) (by rw [token]; rfl) fun _ _ _ => by rw [readFrom]
  · rename_i token
    exact single (by rw [token]; rfl) (by rw [token]; rfl) fun _ _ _ => by rw [readFrom]
  · rename_i name token
    exact single (by rw [token]; rfl) (by rw [token]; rfl) fun _ _ _ => by rw [readFrom]
  · rename_i token
    rw [symbols_cons ((symbol?_plain here (by rw [token]; rfl)).trans (by rw [token]; rfl))]
    exact dot_takes inner within (Cursor.settle_enter q n rest)
  · rename_i token
    obtain ⟨e, l, body, closing, rfl, rfl, inner⟩ := exists_block here (by rw [token]; rfl)
    rw [Node.token] at token
    have symbol : symbol? (.block l body closing) = some (.bracket (Attribute.read body)) := by
      simp [symbol?, token]
    obtain ⟨result, run, rfl⟩ := (bracket_reads inner).nested closing q rest
    refine ⟨_, _, map_of run _, ?_⟩
    rw [symbols_cons symbol]
    cases Attribute.read body with
    | ok a => exact ⟨List.suffix_rfl, fun done gap => by rw [readFrom]⟩
    | error fault => exact ⟨fault, rfl, fun done gap => by rw [readFrom]⟩
  · rename_i token
    rw [symbols_cons ((symbol?_plain here (by rw [token]; rfl)).trans (by rw [token]; rfl))]
    exact colon_takes (fun member => reads (List.mem_cons_of_mem n member)) within
      (Cursor.settle_enter q n rest)
  · rename_i other
    have symbol : ∃ s, symbol? n = some s ∧
        ∀ done gap ss, readFrom done gap (s :: ss) = .error (.selector .unexpectedToken) := by
      cases here with
      | @leaf _ l opens =>
        simp only [Node.token, Node.isComment, symbol?] at *
        unfold Symbol.ofToken?
        split <;> simp_all [readFrom, combinator?]
      | @block _ l body closing opens inner =>
        simp only [Node.token, symbol?] at *
        cases token : l.token <;> simp_all [readFrom, Token.closing?]
    obtain ⟨s, symbol, read⟩ := symbol
    rw [symbols_cons symbol]
    exact ⟨.error _, _, rfl, .selector .unexpectedToken, rfl, fun done gap => read done gap _⟩

theorem ofToken?_of_combinator? {t : Token} {combinator : Combinator}
    (found : combinator? t = some combinator) :
    Symbol.ofToken? t = some (.combinator combinator) ∧ t.closing? = none ∧ t ≠ .whitespace := by
  unfold combinator? at found
  split at found <;> simp_all [Symbol.ofToken?, Token.closing?]

theorem readFrom_nil (done : List Component) (gap : Bool) :
    readFrom done gap [] = complete done := by
  cases done <;> rw [readFrom, complete]

theorem componentStep_end (s : List Component × Bool) {c' : Cursor} {e : Setback}
    (run : nextSpaced.run c = .failed e c') :
    (componentStep inner s).run c =
      .of (((complete s.1).mapError .fault).map .inr) c' := by
  rw [componentStep, bind_done (attempt_failed run)]
  cases complete s.1 <;> rfl

theorem componentStep_token (s : List Component × Bool) {t : Token} {c' c'' : Cursor}
    {result : Except Setback (List Component × Bool)} (run : nextSpaced.run c = .done t c')
    (added : (addToken inner s.1 s.2 t).run c' = .of result c'') :
    (componentStep inner s).run c = .of (result.map .inl) c'' := by
  rw [componentStep, bind_done (attempt_done run)]
  exact map_of added _

/-- A token and the nodes that it takes with it, as the symbols say. -/
theorem addToken_eq {n : Node} {rest : List Node}
    (reads : ∀ {l body closing}, Node.block l body closing ∈ n :: rest →
      Finishes inner body (· = (Node.readSelectors body).mapError .fault))
    (within : ∀ m ∈ n :: rest, m.Within d) (kept : n.isComment = false) (q : List Char)
    (done : List Component) (gap : Bool) :
    ∃ result c', (addToken inner done gap n.token).run (.enter q n rest) = .of result c' ∧
      match result with
      | .ok s => c'.rest <:+ rest ∧
        readFrom done gap (symbols (n :: rest)) = readFrom s.1 s.2 (symbols c'.rest)
      | .error e => ∃ fault, e = .fault fault ∧
        readFrom done gap (symbols (n :: rest)) = .error fault := by
  have here := within n (by simp)
  by_cases blank : n.token = .whitespace
  · have symbol := symbol?_plain here (by rw [blank]; rfl)
    rw [blank] at symbol ⊢
    refine ⟨.ok (done, !done.isEmpty), _, rfl, List.suffix_rfl, ?_⟩
    rw [symbols_cons (symbol.trans rfl), readFrom, Cursor.rest_enter]
  rw [addToken.eq_def]
  split
  · contradiction
  cases found : combinator? n.token with
  | some combinator =>
    obtain ⟨symbol, plain, _⟩ := ofToken?_of_combinator? found
    rw [symbols_cons ((symbol?_plain here plain).trans symbol), readFrom]
    dsimp only
    split
    · exact ⟨.error _, _, rfl, .selector .twoCombinators, rfl, rfl⟩
    · exact ⟨.ok _, _, rfl, List.suffix_rfl, by rw [Cursor.rest_enter]⟩
  | none =>
    obtain ⟨result, c', run, takes⟩ := simple_takes reads rfl within kept blank found q
    cases result with
    | ok s =>
      exact ⟨.ok (push done gap s, false), c', bind_done run _, takes.1, takes.2 done gap⟩
    | error e =>
      obtain ⟨fault, rfl, read⟩ := takes
      exact ⟨.error (.fault fault), c', bind_failed run _, fault, rfl, read done gap⟩

theorem exists_loops_componentStep
    (reads : ∀ {l body closing}, Node.block l body closing ∈ ns →
      Finishes inner body (· = (Node.readSelectors body).mapError .fault))
    (within : ∀ m ∈ ns, m.Within d) (place : c.settle = ⟨q, none, ns⟩) (done : List Component)
    (gap : Bool) :
    ∃ result c', Loops (componentStep inner) (done, gap) c (.of result c') ∧
      (∀ selector, result = .ok selector → c'.Spent) ∧
      result = (readFrom done gap (symbols ns)).mapError .fault := by
  induction size : ns.length using Nat.strong_induction_on generalizing ns c q done gap with
  | _ size' ih =>
    subst size
    rcases nextSpaced_cases within place with ⟨none, run⟩ | ⟨n, rest, q', suffix, kept, same, run⟩
    · have last : (componentStep inner (done, gap)).run c = _ := componentStep_end (done, gap) run
      rw [none, readFrom_nil]
      cases read : complete done with
      | ok selector =>
        rw [read] at last
        exact ⟨.ok selector, _, .stop last, by simp [Cursor.Spent], rfl⟩
      | error fault =>
        rw [read] at last
        exact ⟨.error _, _, .fail last, by simp, rfl⟩
    have later : rest <:+ ns := (List.suffix_cons n rest).trans suffix
    have shorter : rest.length < ns.length := Nat.lt_of_lt_of_le (by simp) suffix.length_le
    have again : ∀ {c' : Cursor}, c'.rest <:+ rest → ∀ done gap, ∃ result c'',
        Loops (componentStep inner) (done, gap) c' (.of result c'') ∧
          (∀ selector, result = .ok selector → c''.Spent) ∧
          result = (readFrom done gap (symbols c'.rest)).mapError .fault := by
      intro c' suffix done gap
      have fewer : c'.rest.length < ns.length := Nat.lt_of_le_of_lt suffix.length_le shorter
      exact ih _ fewer (fun member => reads (later.subset (suffix.subset member)))
        (fun m member => within m (later.subset (suffix.subset member))) c'.settle_eq done gap rfl
    obtain ⟨added, c', step, takes⟩ := addToken_eq
      (fun member => reads (suffix.subset member)) (fun m member => within m (suffix.subset member))
      kept q' done gap
    have round := componentStep_token (done, gap) run step
    rw [same]
    cases added with
    | error e =>
      obtain ⟨fault, rfl, read⟩ := takes
      exact ⟨.error (.fault fault), c', .fail round, by simp, by rw [read]; rfl⟩
    | ok s =>
      obtain ⟨ends, read⟩ := takes
      obtain ⟨result, c'', loops, spent, equal⟩ := again ends s.1 s.2
      refine ⟨result, c'', .more round ?_ loops, spent, equal.trans (by rw [read])⟩
      rw [Cursor.rest_eq place]
      exact Nat.lt_of_le_of_lt ends.length_le shorter

theorem readFrom_dropTrivia (within : ∀ m ∈ ns, m.Within d) :
    readFrom [] false (symbols (dropTrivia ns)) = readFrom [] false (symbols ns) := by
  induction ns with
  | nil => rfl
  | cons n ns ih =>
    cases blank : n.isTrivia with
    | false => rw [dropTrivia, List.dropWhile_cons_of_neg (by simp [blank])]
    | true =>
      rw [dropTrivia, List.dropWhile_cons_of_pos blank]
      refine (ih fun m later => within m (by simp [later])).trans ?_
      have here := within n (by simp)
      rcases Node.isTrivia_iff.1 blank with token | token
      · have symbol := symbol?_plain here (by rw [token]; rfl)
        rw [symbols_cons (symbol.trans (by rw [token]; rfl)), readFrom]
        rfl
      · have symbol := symbol?_plain here (by rw [token]; rfl)
        rw [symbols, symbol, token]
        rfl

theorem complexSelector_finishes
    (reads : ∀ {l body closing}, Node.block l body closing ∈ ns →
      Finishes inner body (· = (Node.readSelectors body).mapError .fault))
    (within : ∀ m ∈ ns, m.Within d) :
    Finishes (complexSelector inner) ns
      (· = (ComplexSelector.read (symbols ns)).mapError .fault) := by
  intro q
  have skipped := skipTrivia_eq (c := ⟨q, none, ns⟩) rfl
  have kept : dropTrivia ns <:+ ns := List.dropWhile_suffix _
  obtain ⟨result, c, loops, rest⟩ := exists_loops_componentStep
    (fun member => reads (kept.subset member)) (fun m member => within m (kept.subset member))
    (Cursor.settle_none _ _) [] false
  refine ⟨result, c, ?_, ?_⟩
  · rw [complexSelector, bind_done skipped]
    exact loops.run_loop
  · rwa [readFrom_dropTrivia within] at rest

theorem segments_symbols (within : ∀ m ∈ ns, m.Within d) :
    segments Symbol.isComma (symbols ns) = (segments Node.isComma ns).map symbols := by
  induction ns using lead_induction (fun n => !n.isComma) with
  | all ns kept =>
    have plain : ∀ n ∈ ns, n.isComma = false := by simpa using kept
    rw [segments_of_forall plain, segments_of_forall (Node.isComma_symbols plain)]
    rfl
  | step front comma more kept separates ih =>
    have plain : ∀ n ∈ front, n.isComma = false := by simpa using kept
    have token : comma.token = .comma := by simpa [Node.isComma] using separates
    have symbol := symbol?_plain (within comma (by simp)) (by rw [token]; rfl)
    rw [segments_cut plain (by simpa using separates), Node.symbols_append,
      symbols_cons (symbol.trans (by rw [token]; rfl)),
      segments_cut (Node.isComma_symbols plain) rfl,
      ih more le_rfl fun m later => within m (by simp [later])]
    rfl

theorem selectorList_finishes
    (reads : ∀ {l body closing}, Node.block l body closing ∈ ns →
      Finishes inner body (· = (Node.readSelectors body).mapError .fault))
    (within : ∀ m ∈ ns, m.Within d) :
    Finishes (commaList (complexSelector inner)) ns
      (· = (Node.readSelectors ns).mapError .fault) := by
  intro q
  obtain ⟨result, c, run, spent, collects⟩ := commaList_eq within
    (fun part member => (complexSelector_finishes
      (fun inside => reads (mem_of_mem_segments member inside))
      fun m inside => within m (mem_of_mem_segments member inside)).reads) q
  refine ⟨result, c, run, spent, ?_⟩
  rw [collects.mapError_mapM, Node.readSelectors, SelectorList.ofSymbols, segments_symbols within,
    List.mapM_map]
  rfl

theorem selectors_finishes (d : Nat) (within : ∀ m ∈ ns, m.Within d) :
    Finishes (selectors d) ns (· = (Node.readSelectors ns).mapError .fault) := by
  induction d generalizing ns with
  | zero =>
    refine selectorList_finishes (fun member => ?_) within
    nomatch within _ member
  | succ d ih =>
    refine selectorList_finishes (fun member => ?_) within
    cases within _ member with
    | block _ inner => exact ih inner

end Components

section Keyframes

variable {c : Cursor} {q : List Char} {ns : List Node} {d : Nat}

theorem exists_loops_keyframeStep (place : c.settle = ⟨q, none, ns⟩) (done : List Keyframe) :
    ∃ result c', Loops keyframeStep done c (.of result c') ∧
      (∀ ks, result = .ok ks → c'.Spent) ∧
      result = ((Node.keyframesOf (significant ns)).map (done ++ ·)).mapError .fault := by
  induction size : ns.length using Nat.strong_induction_on generalizing ns c q done with
  | _ size' ih =>
    subst size
    rcases next_cases place with ⟨spent, _, run⟩ | ⟨lead, n, rest, rfl, _, _, found, run⟩
    · refine ⟨.error _, _, .fail (bind_failed run _), by simp, ?_⟩
      rw [spent]
      rfl
    rw [found]
    have first : (keyframeStep done).run c = _ := bind_done run _
    cases keyframe : Node.keyframe? n.token with
    | none =>
      rw [keyframe] at first
      refine ⟨.error _, _, .fail first, by simp, ?_⟩
      simp only [Node.keyframesOf, keyframe]
      rfl
    | some k =>
      rw [keyframe] at first
      rcases next_cases (Cursor.settle_enter (q ++ textOf lead) n rest) with
        ⟨spent, ends, _⟩ | ⟨gap, separator, more, rfl, _, _, next, taken⟩
      · replace first := first.trans (bind_done (isExhausted_true spent) _)
        refine ⟨.ok (done ++ [k]), _, .stop first, fun _ _ => ends, ?_⟩
        rw [spent, Node.keyframesOf.eq_def]
        simp only [keyframe]
        rfl
      replace first := first.trans (bind_done (isExhausted_false next) _)
      rw [next, Node.keyframesOf.eq_def]
      simp only [keyframe]
      have comma := expectComma_eq taken
      split at comma
      · have round : (keyframeStep done).run c = _ := first.trans (bind_done comma _)
        rename_i separates
        obtain ⟨result, c', loops, spent, equal⟩ := ih more.length (by simp; omega)
          (Cursor.settle_enter _ separator more) (done ++ [k]) rfl
        refine ⟨result, c', .more round ?_ loops, spent, equal.trans ?_⟩
        · simp [Cursor.rest_eq place]
          omega
        · rw [if_pos separates]
          cases Node.keyframesOf (significant more) <;> simp [Except.map, Except.mapError]
      · rename_i plain
        refine ⟨.error _, _, .fail (first.trans (bind_failed comma _)), by simp, ?_⟩
        rw [if_neg plain]
        rfl

theorem keyframes_finishes :
    Finishes keyframes ns (· = (Node.readKeyframes ns).mapError .fault) := by
  intro q
  obtain ⟨result, c, loops, spent, equal⟩ := exists_loops_keyframeStep (c := ⟨q, none, ns⟩) rfl []
  refine ⟨result, c, loops.run_loop, spent, ?_⟩
  rw [equal, Node.readKeyframes]
  cases Node.keyframesOf (significant ns) <;> rfl

end Keyframes

end Walk

end CssOutline
