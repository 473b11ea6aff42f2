import CssOutline.Proofs.MathSlices
import CssOutline.Proofs.MathWords
import CssOutline.Proofs.Walk.Math

/-! What math expressions are made of. Between two expressions there is a sign, a comma or a rounding
strategy, and an expression stands last. So the lexemes of an expression may be cut out of a text:
nothing in them swallows what follows. -/

namespace CssOutline

open Node (Placed Grown calc? terms lexemes lexemesOf textOf)
open Walk (terms_lead terms_blank exists_lead lead_induction segments_terms)

namespace Calc

variable {negative : Bool} {current : Calc} {operator t : Term} {ts : List Term} {es : List Calc}

theorem operands_cases (read : operands negative current (operator :: t :: ts) = some es) :
    ∃ e, t.expression = some e ∧
      ((operator.token = .delim '*' ∧ ∃ product, multiply current e = some product ∧
          operands negative product ts = some es) ∨
        ∃ minus later, operator.token = .delim (if minus then '-' else '+') ∧
          operands minus e ts = some later ∧ es = signed negative current :: later) := by
  rw [operands] at read
  cases found : t.expression with
  | none => simp [found] at read
  | some e =>
    refine ⟨e, rfl, ?_⟩
    simp only [found, Option.bind_eq_bind, Option.bind_some] at read
    split at read
    · rename_i star
      exact .inl ⟨star, by simpa [Option.bind_eq_some_iff] using read⟩
    · rename_i plus
      obtain ⟨later, found, same⟩ := Option.map_eq_some_iff.1 read
      exact .inr ⟨false, later, plus, found, same.symm⟩
    · rename_i minus
      obtain ⟨later, found, same⟩ := Option.map_eq_some_iff.1 read
      exact .inr ⟨true, later, minus, found, same.symm⟩
    · cases read

theorem operands_ne_nil (ts : List Term) : operands negative current ts ≠ some [] := by
  induction ts using List.twoStepInduction generalizing negative current with
  | nil => simp [operands]
  | singleton => simp [operands]
  | cons_cons operator t ts ih =>
    intro read
    obtain ⟨e, _, ⟨_, product, _, later⟩ | ⟨minus, later, _, _, same⟩⟩ := operands_cases read
    · exact ih later
    · cases same

theorem joints_of_operands (read : operands negative current ts = some es) :
    (∀ t ∈ ts, t.expression.isSome ∨ ∃ c, t.token = .delim c) ∧
      ∀ t ∈ ts.getLast?, t.expression.isSome := by
  induction ts using List.twoStepInduction generalizing negative current es with
  | nil => simp
  | singleton => simp [operands] at read
  | cons_cons operator t ts ih =>
    obtain ⟨e, found, rest⟩ := operands_cases read
    have sign : ∃ c, operator.token = .delim c := by
      rcases rest with ⟨star, _⟩ | ⟨minus, _, sign, _⟩
      · exact ⟨_, star⟩
      · exact ⟨_, sign⟩
    obtain ⟨joints, last⟩ : (∀ t ∈ ts, t.expression.isSome ∨ ∃ c, t.token = .delim c) ∧
        ∀ t ∈ ts.getLast?, t.expression.isSome := by
      rcases rest with ⟨_, product, _, later⟩ | ⟨minus, later, _, behind, _⟩
      · exact ih later
      · exact ih behind
    constructor
    · simpa [sign, found] using joints
    · obtain _ | ⟨t', ts⟩ := ts
      · simp [found]
      · simpa using last

theorem joints_of_ofTerms? {e : Calc} (read : ofTerms? ts = some e) :
    (∀ t ∈ ts, t.expression.isSome ∨ ∃ c, t.token = .delim c) ∧
      ∃ t ∈ ts.getLast?, t.expression.isSome := by
  obtain _ | ⟨t, ts⟩ := ts
  · cases read
  simp only [ofTerms?, Option.bind_eq_bind] at read
  obtain ⟨e, found, read⟩ := Option.bind_eq_some_iff.1 read
  obtain ⟨es, read, _⟩ := Option.bind_eq_some_iff.1 read
  obtain ⟨joints, last⟩ := joints_of_operands read
  refine ⟨by simpa [found] using joints, ?_⟩
  obtain _ | ⟨t', ts⟩ := ts
  · exact ⟨t, rfl, by simp [found]⟩
  · have member := List.getLast?_eq_some_getLast (List.cons_ne_nil t' ts)
    exact ⟨_, by rw [List.getLast?_cons_cons]; exact member, last _ member⟩

theorem renderAll_eq_map (es : List Calc) : renderAll es = es.map render := by
  induction es with
  | nil => rfl
  | cons e es ih => rw [renderAll, ih, List.map_cons]

end Calc

theorem Math.strategy?_cases (ts : List Term) :
    strategy? ts = (none, ts) ∨ ∃ s c rest keyword, ts = s :: c :: rest ∧
      s.token = .ident keyword ∧ c.token = .comma ∧ strategies.contains keyword.toLower ∧
      strategy? ts = (some keyword, rest) := by
  by_cases found : ∃ s c rest keyword, ts = s :: c :: rest ∧ s.token = .ident keyword ∧
      c.token = .comma ∧ strategies.contains keyword.toLower
  · obtain ⟨s, c, rest, keyword, rfl, first, second, known⟩ := found
    refine .inr ⟨s, c, rest, keyword, rfl, first, second, known, ?_⟩
    simp only [strategy?, first, second, known, if_true]
  · refine .inl (Walk.strategy?_eq_none fun s c rest keyword same first second known => ?_)
    exact found ⟨s, c, rest, keyword, same, first, second, known⟩

namespace Math

def arguments : Math → List Calc
  | .calc e => [e]
  | .variadic _ es => es
  | .clamp low value high => [low, value, high]
  | .unary _ e => [e]
  | .binary _ a b => [a, b]
  | .round _ value interval => value :: interval.toList

def keyword : Math → Option String
  | .round strategy _ _ => strategy
  | _ => none

/-- The parts of a call of a math function. -/
structure IsCall (m : Math) (name : String) (strategy : Option String) (es : List Calc) : Prop where
  name : m.name = name
  keyword : m.keyword = strategy
  arguments : m.arguments = es

theorem IsCall.render_eq {m : Math} {name : String} {strategy : Option String} {es : List Calc}
    (call : m.IsCall name strategy es) :
    m.render = callText name (strategy.toList ++ es.map Calc.render) := by
  obtain ⟨rfl, rfl, rfl⟩ := call
  cases m with
  | round strategy value interval => cases interval <;> rfl
  | variadic f es =>
    rw [render, Calc.renderAll_eq_map]
    rfl
  | _ => rfl

end Math

theorem Walk.isCall_ofArguments? {name : String} {es : List Calc} {m : Math}
    (read : ofArguments? name es = some m) : m.IsCall name none es := by
  unfold ofArguments? at read
  split at read <;> cases read <;> exact ⟨rfl, rfl, rfl⟩

theorem Walk.isCall_roundOf? {strategy : Option String} {es : List Calc} {m : Math}
    (read : roundOf? strategy es = some m) : m.IsCall "round" strategy es := by
  unfold roundOf? at read
  split at read <;> cases read <;> exact ⟨rfl, rfl, rfl⟩

theorem Walk.ofTerms?_eq_bind_roundOf? {name : String} (round : name.toLower = "round")
    (ts : List Term) : Math.ofTerms? name ts =
      (Calc.arguments? (Math.strategy? ts).2).bind (roundOf? (Math.strategy? ts).1) := by
  simp only [Math.ofTerms?, round]
  cases Calc.arguments? (Math.strategy? ts).2 with
  | none => rfl
  | some es => obtain _ | ⟨_, _ | ⟨_, _ | _⟩⟩ := es <;> rfl

/-- Lexemes of an expression, which nothing behind them belongs to. -/
structure Lexeme.Parts (ls : List Lexeme) : Prop where
  parts : ∀ l ∈ ls, l.token.isPart
  final : ∃ l ∈ (visible ls).getLast?, l.IsFinal

theorem Lexeme.Parts.isFinal {ls : List Lexeme} (parts : Parts ls) :
    ∀ l ∈ (visible ls).getLast?, l.IsFinal := by
  obtain ⟨l, member, final⟩ := parts.final
  intro l' member'
  cases member.symm.trans member'
  exact final

theorem Value.render_of_printsAs {v : Value} {source : String} (exact : v.printsAs source) :
    v.render = .ok source := by
  unfold printsAs at exact
  split at exact
  · rename_i text rendered
    rw [rendered, eq_of_beq exact]
  · cases exact

theorem Number.isFinal_format {l : Lexeme} (x : Number) (suffix : List Char)
    (text : l.text = x.format.toList ++ suffix) (known : ∀ c ∈ suffix, c.isAlpha ∨ c = '%') :
    l.IsFinal := by
  obtain ⟨negative, body, chars, some, decimal⟩ := x.exists_format
  have plain : ∀ c ∈ body ++ suffix, c ≠ '\\' ∧ c ≠ '-' := by
    intro c member
    rcases List.mem_append.1 member with inside | behind
    · refine ⟨?_, ?_⟩ <;> rintro rfl <;> rcases decimal _ inside with word | point
      all_goals first | cases word | cases point
    · refine ⟨?_, ?_⟩ <;> rintro rfl <;> rcases known _ behind with letter | percent
      all_goals first | cases letter | cases percent
  rw [chars, List.append_assoc] at text
  refine ⟨?_, ?_⟩
  · rw [text]
    intro member
    rcases List.mem_append.1 member with inside | behind
    · cases negative <;> simp [sign] at inside
    · exact (plain _ behind).1 rfl
  · rw [text, List.getLast?_append_of_ne_nil _ (by simp [some])]
    intro last
    exact (plain _ (List.mem_of_getLast? last)).2 rfl

namespace Calc

theorem ofLexeme?_cases {l : Lexeme} {e : Calc} (read : ofLexeme? l = some e) :
    l.token.kind = .numeric ∧ e.render.toList = l.text ∧ l.IsFinal := by
  have exact : ∀ {v : Value} {e' : Calc},
      (if v.printsAs (String.ofList l.text) then some e' else none) = some e →
      v.render = .ok e'.render → e' = e ∧ e.render.toList = l.text := by
    intro v e' read rendered
    split at read
    · rename_i printed
      cases read
      rw [Value.render_of_printsAs printed] at rendered
      exact ⟨rfl, by rw [← Except.ok.inj rendered, String.toList_ofList]⟩
    · cases read
  unfold ofLexeme? at read
  cases token : l.token <;> simp only [token, reduceCtorEq] at read
  case number n =>
    obtain ⟨rfl, text⟩ := exact read rfl
    refine ⟨rfl, text, Number.isFinal_format n.value [] ?_ (by simp)⟩
    rw [← text, List.append_nil]
    rfl
  case percentage n =>
    obtain ⟨rfl, text⟩ := exact read rfl
    refine ⟨rfl, text, Number.isFinal_format n.percent ['%'] ?_ (by simp)⟩
    rw [← text]
    exact String.toList_append
  case dimension n unit =>
    split at read
    · rename_i known
      obtain ⟨rfl, text⟩ := exact read rfl
      refine ⟨rfl, text, Number.isFinal_format n.value unit.toList ?_ ?_⟩
      · rw [← text]
        exact String.toList_append
      · exact fun c member => .inl ((Length.isAlpha_of_isUnit known).2 c member)
    · cases read

end Calc

def Token.isJoint : Token → Bool
  | delim _ => true
  | comma => true
  | ident _ => true
  | _ => false

theorem Token.flat_of_isJoint {t : Token} (joint : t.isJoint) : t.closing? = none ∧ t.isPart := by
  cases t <;> cases joint <;> exact ⟨rfl, rfl⟩

theorem Token.flat_of_isTrivia {t : Token} (trivia : t.isTrivia) : t.closing? = none ∧ t.isPart := by
  cases t <;> cases trivia <;> exact ⟨rfl, rfl⟩

namespace Node

/-- Nodes of expressions and what may stand between them, with an expression last. -/
structure Joined (ns : List Node) : Prop where
  joints : ∀ n ∈ ns, n.isTrivia ∨ (calc? n).isSome ∨ n.token.isJoint
  last : ∃ front n trail, ns = front ++ n :: trail ∧ (calc? n).isSome ∧ ∀ m ∈ trail, m.isTrivia

section Joined

variable {ns ms : List Node} {n : Node} {e : Calc}

theorem token_of_calc? (read : calc? n = some e) :
    n.token.kind = .numeric ∨ n.token = .openParen ∨ ∃ name, n.token = .function name := by
  cases n with
  | leaf l =>
    rw [calc?, Calc.ofLexeme?] at read
    simp only [token]
    cases token : l.token <;> simp [token] at read ⊢ <;> rfl
  | block l body closing =>
    rw [calc?] at read
    simp only [token]
    split at read
    · rename_i paren
      exact .inr (.inl paren)
    · rename_i name call
      exact .inr (.inr ⟨name, call⟩)
    · cases read

theorem solid_of_calc? (read : calc? n = some e) : n.isTrivia = false ∧ n.isComma = false := by
  unfold isTrivia isComma
  rcases token_of_calc? read with numeric | paren | ⟨name, call⟩
  · cases token : n.token <;> simp [token, Token.kind] at numeric <;> exact ⟨rfl, rfl⟩
  · rw [paren]
    exact ⟨rfl, rfl⟩
  · rw [call]
    exact ⟨rfl, rfl⟩

theorem exists_mem_terms (member : n ∈ ns) (solid : n.isTrivia = false) (lead : List Char) :
    ∃ t ∈ terms lead ns, t.token = n.token ∧ t.expression = calc? n := by
  induction ns generalizing lead with
  | nil => cases member
  | cons m ns ih =>
    rw [terms]
    rcases List.mem_cons.1 member with rfl | later
    · rw [if_neg (by simp [solid])]
      exact ⟨_, List.mem_cons_self, rfl, rfl⟩
    · split
      · exact ih later _
      · obtain ⟨t, inside, same⟩ := ih later []
        exact ⟨t, List.mem_cons_of_mem _ inside, same⟩

theorem exists_getLast?_terms {lead : List Char} {t : Term} (last : t ∈ (terms lead ns).getLast?) :
    ∃ front n trail, ns = front ++ n :: trail ∧ calc? n = t.expression ∧
      ∀ m ∈ trail, m.isTrivia := by
  induction ns generalizing lead with
  | nil => cases last
  | cons m ns ih =>
    rw [terms] at last
    split at last
    · obtain ⟨front, n, trail, rfl, same⟩ := ih last
      exact ⟨m :: front, n, trail, rfl, same⟩
    · cases later : (terms [] ns).getLast? with
      | none =>
        rw [List.getLast?_cons, later] at last
        cases last
        refine ⟨[], m, ns, rfl, rfl, fun m member => ?_⟩
        by_contra solid
        obtain ⟨t, inside, _⟩ := exists_mem_terms member (by simpa using solid) []
        rw [List.getLast?_eq_none_iff] at later
        rw [later] at inside
        cases inside
      | some t' =>
        rw [List.getLast?_cons, later] at last
        cases last
        obtain ⟨front, n, trail, rfl, same⟩ := ih later
        exact ⟨m :: front, n, trail, rfl, same⟩

theorem joined_of_ofTerms? {lead : List Char} (read : Calc.ofTerms? (terms lead ns) = some e) :
    Joined ns ∧ ∀ n ∈ ns, n.isComma = false := by
  obtain ⟨joints, t, last, some⟩ := Calc.joints_of_ofTerms? read
  obtain ⟨front, n, trail, whole, same, trivia⟩ := exists_getLast?_terms last
  have each : ∀ n ∈ ns, n.isTrivia ∨ (calc? n).isSome ∨ ∃ c, n.token = .delim c := by
    intro n member
    cases solid : n.isTrivia with
    | true => exact .inl rfl
    | false =>
      obtain ⟨t, inside, token, same⟩ := exists_mem_terms member solid lead
      exact .inr (token ▸ same ▸ joints t inside)
  refine ⟨⟨fun n member => (each n member).imp_right (.imp_right ?_), front, n, trail, whole,
    same ▸ some, trivia⟩, fun n member => ?_⟩
  · rintro ⟨c, sign⟩
    rw [sign]
    rfl
  · rcases each n member with trivia | some | ⟨c, sign⟩
    · unfold isTrivia at trivia
      unfold isComma
      cases token : n.token <;> simp [token, Token.isTrivia] at trivia ⊢
    · obtain ⟨e, read⟩ := Option.isSome_iff_exists.1 some
      exact (solid_of_calc? read).2
    · simp [isComma, sign]

theorem Joined.append {m : Node} (first : ∀ n ∈ ns, n.isTrivia ∨ (calc? n).isSome ∨ n.token.isJoint)
    (joint : m.token.isJoint) (second : Joined ms) : Joined (ns ++ m :: ms) := by
  obtain ⟨front, n, trail, rfl, some, trivia⟩ := second.last
  refine ⟨fun n' member => ?_, ns ++ m :: front, n, trail, by simp, some, trivia⟩
  rcases List.mem_append.1 member with before | behind
  · exact first n' before
  · rcases List.mem_cons.1 behind with rfl | later
    · exact .inr (.inr joint)
    · exact second.joints n' later

theorem arguments?_cut (kept : ∀ n ∈ ns, n.isComma = false) {comma : Node}
    (separates : comma.isComma) {es : List Calc}
    (read : Calc.arguments? (terms [] (ns ++ comma :: ms)) = some es) :
    ∃ e later, Calc.ofTerms? (terms [] ns) = some e ∧
      Calc.arguments? (terms [] ms) = some later ∧ es = e :: later := by
  rw [Calc.arguments?, segments_terms, segments_cut kept separates, List.map_cons, List.mapM_cons]
    at read
  simp only [Option.bind_eq_bind, Option.bind_eq_some_iff] at read
  obtain ⟨e, first, later, behind, same⟩ := read
  exact ⟨e, later, first, by rwa [Calc.arguments?, segments_terms], (Option.some.inj same).symm⟩

theorem arguments?_single (kept : ∀ n ∈ ns, n.isComma = false) {es : List Calc}
    (read : Calc.arguments? (terms [] ns) = some es) :
    ∃ e, Calc.ofTerms? (terms [] ns) = some e ∧ es = [e] := by
  rw [Calc.arguments?, segments_terms, segments_of_forall kept] at read
  simp only [List.map_cons, List.map_nil, List.mapM_cons, List.mapM_nil, Option.bind_eq_bind,
    Option.bind_eq_some_iff] at read
  obtain ⟨e, first, later, behind, same⟩ := read
  cases behind
  exact ⟨e, first, (Option.some.inj same).symm⟩

inductive Listed : List Node → List Calc → Prop
  | single {ns : List Node} {e : Calc} (other : ∀ n ∈ ns, n.isComma = false)
    (read : Calc.ofTerms? (terms [] ns) = some e) : Listed ns [e]
  | cut {ns ms : List Node} {comma : Node} {e : Calc} {es : List Calc}
    (other : ∀ n ∈ ns, n.isComma = false) (separates : comma.isComma)
    (first : Calc.ofTerms? (terms [] ns) = some e) (later : Listed ms es) :
    Listed (ns ++ comma :: ms) (e :: es)

theorem Listed.ne_nil {es : List Calc} (listed : Listed ns es) : es ≠ [] := by
  cases listed <;> simp

theorem Listed.joined {es : List Calc} (listed : Listed ns es) : Joined ns := by
  induction listed with
  | single _ read => exact (joined_of_ofTerms? read).1
  | @cut _ _ comma _ _ _ separates first _ ih =>
    have joint : comma.token.isJoint := by
      rw [show comma.token = .comma by simpa [isComma] using separates]
      rfl
    exact Joined.append (joined_of_ofTerms? first).1.joints joint ih

theorem listed_of_arguments? {es : List Calc}
    (read : Calc.arguments? (terms [] ns) = some es) : Listed ns es := by
  induction ns using lead_induction (fun n => !n.isComma) generalizing es with
  | all ns kept =>
    replace kept : ∀ n ∈ ns, n.isComma = false := by simpa using kept
    obtain ⟨e, only, rfl⟩ := arguments?_single kept read
    exact .single kept only
  | step front comma more kept separates ih =>
    replace kept : ∀ n ∈ front, n.isComma = false := by simpa using kept
    replace separates : comma.isComma := by simpa using separates
    obtain ⟨e, later, first, behind, rfl⟩ := arguments?_cut kept separates read
    exact .cut kept separates first (ih more le_rfl behind)

theorem exists_of_terms_cons {lead : List Char} {t : Term} {ts : List Term}
    (same : terms lead ns = t :: ts) :
    ∃ blank n rest, ns = blank ++ n :: rest ∧ (∀ m ∈ blank, m.isTrivia) ∧ n.token = t.token ∧
      terms [] rest = ts := by
  rcases exists_lead isTrivia ns with trivia | ⟨blank, n, rest, rfl, trivia, solid⟩
  · rw [terms_blank trivia] at same
    cases same
  · rw [terms_lead trivia solid] at same
    obtain ⟨rfl, rfl⟩ := List.cons.inj same
    exact ⟨blank, n, rest, rfl, trivia, rfl, rfl⟩

theorem ofTerms?_cases {name : String} {m : Math} (read : Math.ofTerms? name (terms [] ns) = some m) :
    (∃ es, Listed ns es ∧ m.IsCall name.toLower none es) ∨
    ∃ lead n gap comma rest keyword es, ns = lead ++ n :: (gap ++ comma :: rest) ∧
      (∀ m ∈ lead, m.isTrivia) ∧ (∀ m ∈ gap, m.isTrivia) ∧ n.token = .ident keyword ∧
      comma.token = .comma ∧ Math.strategies.contains keyword.toLower ∧
      Listed rest es ∧ m.IsCall name.toLower (some keyword) es := by
  by_cases whole : name.toLower = "calc"
  · simp only [Math.ofTerms?, whole, Option.map_eq_some_iff] at read
    obtain ⟨e, read, rfl⟩ := read
    exact .inl ⟨[e], .single (joined_of_ofTerms? read).2 read, whole.symm, rfl, rfl⟩
  by_cases round : name.toLower = "round"
  · rw [Walk.ofTerms?_eq_bind_roundOf? round] at read
    obtain ⟨es, arguments, made⟩ := Option.bind_eq_some_iff.1 read
    rw [round]
    rcases Math.strategy?_cases (terms [] ns) with
      other | ⟨s, c, ts, keyword, same, first, second, known, strategy⟩
    · rw [other] at arguments made
      exact .inl ⟨es, listed_of_arguments? arguments, Walk.isCall_roundOf? made⟩
    · rw [strategy] at arguments made
      obtain ⟨lead, n, later, rfl, blank, token, behind⟩ := exists_of_terms_cons same
      obtain ⟨gap, comma, rest, rfl, blank', token', behind⟩ := exists_of_terms_cons behind
      have listed : Listed rest es := listed_of_arguments? (behind ▸ arguments)
      exact .inr ⟨lead, n, gap, comma, rest, keyword, es, rfl, blank, blank', token.trans first,
        token'.trans second, known, listed, Walk.isCall_roundOf? made⟩
  · rw [Walk.ofTerms?_eq_bind whole round] at read
    obtain ⟨es, arguments, made⟩ := Option.bind_eq_some_iff.1 read
    exact .inl ⟨es, listed_of_arguments? arguments, Walk.isCall_ofArguments? made⟩

theorem joined_of_math {name : String} {m : Math}
    (read : Math.ofTerms? name (terms [] ns) = some m) : Joined ns := by
  obtain ⟨es, listed, _⟩ |
    ⟨lead, n, gap, comma, rest, keyword, es, rfl, blank, blank', token, token', _, listed, _⟩ :=
    ofTerms?_cases read
  · exact listed.joined
  · have trivial : ∀ {ns : List Node}, (∀ m ∈ ns, m.isTrivia) →
        ∀ m ∈ ns, m.isTrivia ∨ (calc? m).isSome ∨ m.token.isJoint :=
      fun trivia m member => .inl (trivia m member)
    refine Joined.append (trivial blank) (by rw [token]; rfl) ?_
    exact Joined.append (trivial blank') (by rw [token']; rfl) listed.joined

end Joined

section Parts

variable {awaited : Option Token} {last : Bool} {ns : List Node} {n : Node} {e : Calc}
  {more : List Char}

theorem Grown.lexemes_leaf (grown : Grown awaited last ns) (member : n ∈ ns)
    (flat : n.token.closing? = none) : ∃ l, n.lexemes = [l] ∧ l.token = n.token := by
  induction grown with
  | nil => cases member
  | leaf _ _ _ ih =>
    rcases List.mem_cons.1 member with rfl | later
    · exact ⟨_, rfl, rfl⟩
    · exact ih later
  | closed closes _ _ _ ih =>
    rcases List.mem_cons.1 member with rfl | later
    · cases closes.symm.trans flat
    · exact ih later
  | opened opens =>
    obtain rfl := List.mem_singleton.1 member
    cases opens.symm.trans flat

theorem mem_lexemesOf {l : Lexeme} : l ∈ lexemesOf ns ↔ ∃ n ∈ ns, l ∈ n.lexemes := by
  induction ns with
  | nil => simp [lexemesOf]
  | cons n ns ih => simp [lexemesOf, ih]

theorem parts_of_joined (grown : Grown awaited last ns) (joined : Joined ns)
    (each : ∀ n ∈ ns, (calc? n).isSome → Lexeme.Parts n.lexemes) :
    Lexeme.Parts (lexemesOf ns) := by
  constructor
  · intro l member
    obtain ⟨n, inside, here⟩ := mem_lexemesOf.1 member
    have leaf : n.token.closing? = none ∧ n.token.isPart → l.token.isPart := by
      rintro ⟨flat, part⟩
      obtain ⟨l', alone, same⟩ := grown.lexemes_leaf inside flat
      rw [alone] at here
      rw [List.mem_singleton.1 here, same]
      exact part
    rcases joined.joints n inside with trivia | some | joint
    · exact leaf (Token.flat_of_isTrivia trivia)
    · exact (each n inside some).parts l here
    · exact leaf (Token.flat_of_isJoint joint)
  · obtain ⟨front, n, trail, rfl, some, blank⟩ := joined.last
    obtain ⟨l, member, final⟩ := (each n (by simp) some).final
    refine ⟨l, ?_, final⟩
    have none : Lexeme.visible (lexemesOf trail) = [] := by
      rw [Lexeme.visible, List.filter_eq_nil_iff]
      intro l' inside
      obtain ⟨m, inside, here⟩ := mem_lexemesOf.1 inside
      have trivia := blank m inside
      obtain ⟨l', alone, same⟩ := grown.lexemes_leaf (n := m) (by simp [inside])
        (Token.flat_of_isTrivia trivia).1
      rw [alone] at here
      rw [List.mem_singleton.1 here, same]
      simpa [isTrivia] using trivia
    rw [lexemesOf_append, lexemesOf, Lexeme.visible_append, Lexeme.visible_append, none,
      List.append_nil, List.getLast?_append_of_ne_nil]
    · exact member
    · rintro empty
      rw [empty] at member
      cases member

theorem parts_of_leaf {l : Lexeme} (read : Calc.ofLexeme? l = some e) :
    Lexeme.Parts (leaf l).lexemes := by
  obtain ⟨numeric, _, final⟩ := Calc.ofLexeme?_cases read
  have visible : l.token.isTrivia = false ∧ l.token.isPart := by
    cases token : l.token <;> simp [token, Token.kind] at numeric <;> exact ⟨rfl, rfl⟩
  exact ⟨by simpa [lexemes] using visible.2, l, by simp [lexemes, Lexeme.visible, visible.1], final⟩

theorem parts_of_block {l : Lexeme} {body : List Node} {closing : Option Lexeme}
    (placed : Placed awaited last [block l body closing] more) (part : l.token.isPart)
    (inner : Lexeme.Parts (lexemesOf body)) : Lexeme.Parts (block l body closing).lexemes := by
  obtain ⟨parts, l', member, final⟩ := inner
  cases closing with
  | none =>
    refine ⟨by simpa [lexemes, part] using parts, l', ?_, final⟩
    rw [lexemes, Option.toList_none, List.append_nil, ← List.singleton_append,
      Lexeme.visible_append, List.getLast?_append, Option.mem_def.1 member]
    rfl
  | some c =>
    obtain ⟨t, _, opens, closes, _⟩ := placed.body
    have paren : c.token = .closeParen :=
      (closes c rfl).trans (Token.closing?_of_isPart part opens)
    have text : c.text = [')'] := by
      have here : c ∈ lexemesOf [block l body (some c)] := by simp [lexemesOf, lexemes]
      rw [placed.scans.text_of_bracket c here (by rw [paren]; rfl), paren]
      rfl
    have ends : c.token.isPart := by
      rw [paren]
      rfl
    refine ⟨?_, c, ?_, by simp [text], by simp [text]⟩
    · simpa [lexemes, part, ends, or_imp, forall_and] using parts
    · rw [lexemes, Option.toList_some, ← List.cons_append, Lexeme.visible_append,
        show Lexeme.visible [c] = [c] by simp [Lexeme.visible, paren, Token.isTrivia],
        List.getLast?_concat]
      rfl

theorem parts_of_calc? (n : Node) {e : Calc} {awaited : Option Token} {last : Bool}
    {more : List Char} (placed : Placed awaited last [n] more) (read : calc? n = some e) :
    Lexeme.Parts n.lexemes := by
  match n with
  | .leaf l => exact parts_of_leaf read
  | .block l body closing =>
    obtain ⟨joined, part⟩ : Joined body ∧ l.token.isPart := by
      rw [calc?] at read
      split at read
      · rename_i paren
        exact ⟨(joined_of_ofTerms? read).1, by rw [paren]; rfl⟩
      · rename_i name call
        obtain ⟨m, read, _⟩ := Option.map_eq_some_iff.1 read
        refine ⟨joined_of_math read, ?_⟩
        rw [call, Token.isPart, Math.sameName_of_isName (Math.isName_of_ofTerms? read)
          (by decide +kernel)]
        rfl
      · cases read
    obtain ⟨t, more', _, _, inner⟩ := placed.body
    refine parts_of_block placed part (parts_of_joined inner.grown joined fun m member some => ?_)
    obtain ⟨e', read'⟩ := Option.isSome_iff_exists.1 some
    obtain ⟨last', more', _, single⟩ := inner.single member
    have smaller := List.sizeOf_lt_of_mem member
    exact parts_of_calc? m single read'
termination_by sizeOf n

/-- The last lexeme of an expression that is closed is neither a blank nor a comment. -/
theorem Placed.solid_getLast? (placed : Placed awaited false (ns ++ [n]) more)
    (read : calc? n = some e) : ∀ l ∈ (lexemesOf (ns ++ [n])).getLast?, l.token.isTrivia = false := by
  have visible := (solid_of_calc? read).1
  obtain ⟨front, l, same, solid⟩ : ∃ front l, n.lexemes = front ++ [l] ∧
      l.token.isTrivia = false := by
    have grown := placed.grown.right
    cases grown with
    | leaf => exact ⟨[], _, rfl, visible⟩
    | @closed _ _ l c body _ closes =>
      refine ⟨l :: lexemesOf body, c, by simp [lexemes], ?_⟩
      have awaits : ∀ t u : Token, t.closing? = some u → u.isTrivia = false := by
        intro t u
        cases t <;> rintro ⟨⟩ <;> rfl
      exact awaits _ _ closes
  intro l' member
  rw [lexemesOf_append, lexemesOf, lexemesOf, List.append_nil, same, ← List.append_assoc,
    List.getLast?_concat] at member
  cases member
  exact solid

/-- What stands between the blanks and comments at both ends. -/
structure Core (ns core : List Node) : Prop where
  whole : ∃ lead trail, ns = lead ++ (core ++ trail) ∧ (∀ m ∈ lead, m.isTrivia) ∧
    ∀ m ∈ trail, m.isTrivia
  first : ∀ m ∈ core.head?, m.isTrivia = false
  last : ∃ front n, core = front ++ [n] ∧ (calc? n).isSome

theorem Joined.exists_core (joined : Joined ns) : ∃ core, Core ns core ∧ Joined core := by
  obtain ⟨front, n, trail, rfl, some, blank⟩ := joined.last
  have solid : n.isTrivia = false := by
    obtain ⟨e, read⟩ := Option.isSome_iff_exists.1 some
    exact (solid_of_calc? read).1
  obtain ⟨lead, mid, rfl, trivia, first⟩ : ∃ lead mid, front = lead ++ mid ∧
      (∀ m ∈ lead, m.isTrivia) ∧ ∀ m ∈ mid.head?, m.isTrivia = false := by
    rcases exists_lead isTrivia front with trivia | ⟨lead, m, rest, rfl, trivia, visible⟩
    · exact ⟨front, [], by simp, trivia, by simp⟩
    · exact ⟨lead, m :: rest, rfl, trivia, by simpa using visible⟩
  refine ⟨mid ++ [n], ⟨⟨lead, trail, by simp, trivia, blank⟩, ?_, mid, n, rfl, some⟩, ?_,
    mid, n, [], rfl, some, by simp⟩
  · obtain _ | ⟨m, mid⟩ := mid
    · simpa using solid
    · exact first
  · intro m member
    exact joined.joints m (by simp at member ⊢; tauto)

/-- A core stands in a text like all of the nodes do, and its lexemes may be cut out. -/
theorem Joined.exists_placed (joined : Joined ns) (placed : Placed awaited last ns more) :
    ∃ core, ∃ (last' : Bool) (more' : List Char), Core ns core ∧ (last' → last) ∧
      Placed awaited last' core more' ∧ Lexeme.Parts (lexemesOf core) ∧
      (last' = false → ∀ l ∈ (lexemesOf core).getLast?, l.token.isTrivia = false) := by
  obtain ⟨core, is, inner⟩ := joined.exists_core
  obtain ⟨lead, trail, rfl, _, _⟩ := is.whole
  obtain ⟨last', more', weaker, here⟩ := placed.right.front
  have each : ∀ n ∈ core, (calc? n).isSome → Lexeme.Parts n.lexemes := by
    intro n member some
    obtain ⟨e, read⟩ := Option.isSome_iff_exists.1 some
    obtain ⟨last'', more'', _, single⟩ := here.single member
    exact parts_of_calc? n single read
  have parts : Lexeme.Parts (lexemesOf core) := parts_of_joined here.grown inner each
  refine ⟨core, last', more', is, weaker, here, parts, ?_⟩
  rintro rfl
  obtain ⟨front, n, rfl, some⟩ := is.last
  obtain ⟨e, read⟩ := Option.isSome_iff_exists.1 some
  exact here.solid_getLast? read

theorem terms_append_blank {trail : List Node} (blank : ∀ m ∈ trail, m.isTrivia)
    (lead : List Char) : terms lead (ns ++ trail) = terms lead ns := by
  induction ns generalizing lead with
  | nil => rw [List.nil_append, terms_blank blank, terms]
  | cons m ns ih => rw [List.cons_append, terms, terms, ih, ih]

theorem Core.exists_terms {core : List Node} (is : Core ns core) :
    ∃ t ts lead, terms [] core = t :: ts ∧ t.lead = [] ∧
      terms [] ns = { t with lead := lead } :: ts := by
  obtain ⟨⟨lead, trail, rfl, trivia, blank⟩, first, front, n, same, _⟩ := is
  obtain ⟨c, cs, rfl⟩ : ∃ c cs, core = c :: cs := by
    obtain _ | ⟨c, cs⟩ := core
    · simp at same
    · exact ⟨c, cs, rfl⟩
  have solid : c.isTrivia = false := first c rfl
  refine ⟨⟨[], c.token, c.text, calc? c⟩, terms [] cs, textOf lead, ?_, rfl, ?_⟩
  · rw [terms, if_neg (by simp [solid])]
  · rw [List.cons_append, terms_lead trivia solid, terms_append_blank blank, List.nil_append]

theorem Core.ofTerms?_terms {core : List Node} (is : Core ns core) :
    Calc.ofTerms? (terms [] core) = Calc.ofTerms? (terms [] ns) := by
  obtain ⟨t, ts, lead, inner, _, outer⟩ := is.exists_terms
  rw [inner, outer]
  rfl

theorem spelled_terms (solid : n.isTrivia = false) (lead : List Char) :
    Walk.spelled (terms lead (ns ++ [n])) = lead ++ textOf (ns ++ [n]) := by
  induction ns generalizing lead with
  | nil => simp [terms, solid, Walk.spelled, textOf]
  | cons m ns ih =>
    rw [List.cons_append, terms]
    split
    · rw [ih]
      simp [textOf]
    · rw [Walk.spelled_cons, ih]
      simp [textOf]

theorem Core.source_terms {core : List Node} (is : Core ns core) :
    Term.source (terms [] ns) = textOf core := by
  obtain ⟨t, ts, lead, inner, none, outer⟩ := is.exists_terms
  obtain ⟨front, n, rfl, some⟩ := is.last
  obtain ⟨e, read⟩ := Option.isSome_iff_exists.1 some
  have whole : Walk.spelled (terms [] (front ++ [n])) = [] ++ textOf (front ++ [n]) :=
    spelled_terms (solid_of_calc? read).1 []
  rw [inner, Walk.spelled_cons, none, List.nil_append, List.nil_append] at whole
  rw [outer, ← whole]
  rfl

end Parts

end Node

end CssOutline
