import CssOutline.Proofs.Walk

/-! Math expressions read with a cursor: sums of products of leaves, where a leaf in parentheses or
a math function holds an expression one level of blocks further in. A product stops before the first
token that it cannot use and comes back to it; the terms of the nodes say what comes out. -/

namespace CssOutline

open Node (textOf significant calc? terms)
open Calc (operands multiply signed)

/-- The cursor stands behind the text `p`, and only blanks and comments of `ns` are left. -/
def Cursor.Halts (c : Cursor) (p : List Char) (ns : List Node) : Prop :=
  ∃ rest, c = ⟨p, none, rest⟩ ∧ rest <:+ ns ∧ ∀ n ∈ rest, n.isTrivia

namespace Cursor.Halts

variable {c : Cursor} {p : List Char} {ns ms : List Node}

theorem mono (halts : c.Halts p ns) (suffix : ns <:+ ms) : c.Halts p ms := by
  obtain ⟨rest, same, ending, blank⟩ := halts
  exact ⟨rest, same, ending.trans suffix, blank⟩

theorem spent (halts : c.Halts p ns) : c.Spent := by
  obtain ⟨rest, rfl, _, blank⟩ := halts
  exact blank

theorem eq_of_solid (halts : c.Halts p ns) (solid : ∀ n ∈ ns.getLast?, n.isTrivia = false) :
    c = ⟨p, none, []⟩ := by
  obtain ⟨rest, rfl, suffix, blank⟩ := halts
  obtain rfl : rest = [] := by
    obtain ⟨front, rfl⟩ := suffix
    by_contra some
    obtain ⟨behind, n, rfl⟩ := (List.eq_nil_or_concat rest).resolve_left some
    have visible := solid n (by simp)
    rw [blank n (by simp)] at visible
    cases visible
  rfl

end Cursor.Halts

namespace Walk

def roundingStrategy : Walk String := do
  let name ← expectIdent
  if Math.strategies.contains name.toLower then do
    expectComma
    pure name
  else fail .calc

/-- The math function of a name, other than `calc` and `round`, with its arguments. -/
def ofArguments? (name : String) (es : List Calc) : Option Math :=
  match name, es with
  | "min", es => some (.variadic .min es)
  | "max", es => some (.variadic .max es)
  | "hypot", es => some (.variadic .hypot es)
  | "clamp", [low, value, high] => some (.clamp low value high)
  | "abs", [e] => some (.unary .abs e)
  | "sign", [e] => some (.unary .sign e)
  | "mod", [a, b] => some (.binary .mod a b)
  | "rem", [a, b] => some (.binary .rem a b)
  | _, _ => none

def roundOf? (strategy : Option String) : List Calc → Option Math
  | [value] => some (.round strategy value none)
  | [value, interval] => some (.round strategy value (some interval))
  | _ => none

def mathFunction (inner : Walk Calc) (name : String) : Walk Math :=
  match name.toLower with
  | "calc" => Math.calc <$> inner
  | "round" => do
    let strategy ← tryTo roundingStrategy
    let es ← commaList inner
    orFail .calc (roundOf? strategy.toOption es)
  | lower => do
    let es ← commaList inner
    orFail .calc (ofArguments? lower es)

def calcLeaf (inner : Walk Calc) : Walk Calc := do
  skipTrivia
  let start ← here
  match ← next with
  | .openParen => nested inner
  | .function name =>
    if Math.isName name then Calc.function <$> nested (mathFunction inner name) else fail .calc
  | t => do
    let source ← since start
    orFail .calc (Calc.ofLexeme? ⟨t, source, start.location⟩)

def productStep (inner : Walk Calc) (e : Calc) : Walk (Calc ⊕ Calc) := do
  let state ← here
  match ← attempt next with
  | .error _ => do
    reset state
    pure (.inr e)
  | .ok t =>
    if t == .delim '*' then do
      let factor ← calcLeaf inner
      .inl <$> orFail .calc (multiply e factor)
    else if t == .delim '/' then fail .calc
    else do
      reset state
      pure (.inr e)

def product (inner : Walk Calc) : Walk Calc := do
  let e ← calcLeaf inner
  loop (productStep inner) e

def addOperand (inner : Walk Calc) (negative : Bool) (es : List Calc) :
    Walk (List Calc × List Char) := do
  let e ← product inner
  let finish ← here
  pure (es ++ [signed negative e], finish.passed)

def sumStep (inner : Walk Calc) (s : List Calc × List Char) :
    Walk ((List Calc × List Char) ⊕ (List Calc × List Char)) := do
  let state ← here
  match ← attempt next with
  | .error _ => do
    reset state
    pure (.inr s)
  | .ok t =>
    if t == .delim '+' then .inl <$> addOperand inner false s.1
    else if t == .delim '-' then .inl <$> addOperand inner true s.1
    else fail .calc

def sumOf (source : List Char) : List Calc → Calc
  | [e] => e
  | es => .sum es (String.ofList source)

def sum (inner : Walk Calc) : Walk Calc := do
  skipTrivia
  let start ← here
  let first ← addOperand inner false []
  let s ← loop (sumStep inner) first
  pure (sumOf (Cursor.slice start.passed s.2) s.1)

/-- Expressions with at most `d` levels of blocks in them. -/
def sums : Nat → Walk Calc
  | 0 => sum (misuse .endless)
  | d + 1 => sum (sums d)

variable {c : Cursor} {q : List Char} {ns : List Node} {d : Nat}

def spelled (ts : List Term) : List Char :=
  ts.flatMap fun t => t.lead ++ t.text

theorem spelled_cons (t : Term) (ts : List Term) :
    spelled (t :: ts) = t.lead ++ t.text ++ spelled ts :=
  List.flatMap_cons

theorem spelled_append (ts us : List Term) : spelled (ts ++ us) = spelled ts ++ spelled us :=
  List.flatMap_append

theorem terms_blank (blank : ∀ n ∈ ns, n.isTrivia) (l : List Char) : terms l ns = [] := by
  induction ns generalizing l with
  | nil => rfl
  | cons n ns ih =>
    rw [terms, if_pos (blank n (by simp))]
    exact ih (fun m later => blank m (by simp [later])) _

theorem terms_lead {lead rest : List Node} {n : Node} (blank : ∀ m ∈ lead, m.isTrivia)
    (solid : n.isTrivia = false) (l : List Char) :
    terms l (lead ++ n :: rest) =
      ⟨l ++ textOf lead, n.token, n.text, calc? n⟩ :: terms [] rest := by
  induction lead generalizing l with
  | nil => rw [List.nil_append, terms, if_neg (by simp [solid]), textOf, List.append_nil]
  | cons m lead ih =>
    rw [List.cons_append, terms, if_pos (blank m (by simp)),
      ih fun m' later => blank m' (by simp [later])]
    simp [textOf]

def operandsOf (negative : Bool) : List Term → Option (List Calc)
  | [] => none
  | t :: ts => t.expression.bind fun e => operands negative e ts

def operandsAfter : List Term → Option (List Calc)
  | [] => some []
  | operator :: ts =>
    if operator.token == .delim '+' then operandsOf false ts
    else if operator.token == .delim '-' then operandsOf true ts
    else none

theorem operands_eq {ts : List Term} (noFactor : ∀ t ∈ ts.head?, t.token ≠ .delim '*')
    (negative : Bool) (e : Calc) :
    operands negative e ts = (operandsAfter ts).map (signed negative e :: ·) := by
  rcases ts with _ | ⟨operator, _ | ⟨t, ts⟩⟩
  · rfl
  · simp only [operands, operandsAfter, operandsOf]
    split
    · rfl
    · split <;> rfl
  · have other := noFactor operator (by simp)
    simp only [operands, operandsAfter, operandsOf, beq_iff_eq]
    cases t.expression with
    | none => split <;> simp
    | some e' =>
      simp only [Option.bind_eq_bind, Option.bind_some]
      split <;> simp_all

theorem operands_factor (operator : Term) (star : operator.token = .delim '*') (t : Term)
    (ts : List Term) (negative : Bool) (e : Calc) :
    operands negative e (operator :: t :: ts) =
      t.expression.bind fun factor =>
        (multiply e factor).bind fun e' => operands negative e' ts := by
  simp only [operands, star]
  rfl

theorem operands_quotient {operator : Term} (slash : operator.token = .delim '/') (ts : List Term)
    (negative : Bool) (e : Calc) : operands negative e (operator :: ts) = none := by
  cases ts with
  | nil => rfl
  | cons t ts => cases read : t.expression <;> simp [operands, slash, read]

/-- What a reader of products leaves to be read, or that nothing can be read. -/
def Multiplies (before : Bool → Option (List Calc)) (q : List Char) (ns : List Node) (c : Cursor) :
    Except Setback Calc → Prop
  | .error _ => ∀ negative, before negative = none
  | .ok e => ∃ ts rest, rest <:+ ns ∧ c = ⟨q ++ spelled ts, none, rest⟩ ∧
      terms [] ns = ts ++ terms [] rest ∧
      (∀ negative, before negative = operands negative e (terms [] rest)) ∧
      ∀ t ∈ (terms [] rest).head?, t.token ≠ .delim '*'

section Expressions

variable {inner : Walk Calc}
  (deeper : ∀ {e ms}, d = e + 1 → (∀ m ∈ ms, m.Within e) →
    Finishes inner ms (·.toOption = Calc.ofTerms? (terms [] ms)))
  (functions : ∀ {e ms}, d = e + 1 → (∀ m ∈ ms, m.Within e) → ∀ name,
    Finishes (mathFunction inner name) ms (·.toOption = Math.ofTerms? name (terms [] ms)))

include deeper functions in
theorem calcLeaf_eq (within : ∀ m ∈ ns, m.Within d) (place : c.settle = ⟨q, none, ns⟩) :
    (terms [] ns = [] ∧ ∃ e c', (calcLeaf inner).run c = .failed e c') ∨
    ∃ t rest, terms [] ns = t :: terms [] rest ∧ rest <:+ ns ∧ rest.length < ns.length ∧
      ∃ result c', (calcLeaf inner).run c = .of result c' ∧ result.toOption = t.expression ∧
        ∀ e, result = .ok e → c' = ⟨q ++ (t.lead ++ t.text), none, rest⟩ := by
  rcases skipTrivia_cases place with
    ⟨spent, skipped, run⟩ | ⟨lead, n, rest, rfl, blank, solid, found, skipped, run⟩
  · have none := terms_blank (isTrivia_of_significant spent) []
    exact .inl ⟨none, _, _, by
      rw [calcLeaf, bind_done skipped, bind_done (by rfl), bind_failed run]⟩
  refine .inr ⟨_, rest, terms_lead blank solid [], ⟨lead ++ [n], by simp⟩, by simp; omega, ?_⟩
  rw [calcLeaf, bind_done skipped, bind_done (by rfl), bind_done run]
  have here := within n (by simp)
  split
  · rename_i token
    obtain ⟨e, l, body, closing, rfl, rfl, inside⟩ := exists_block here (by rw [token]; rfl)
    rw [Node.token] at token
    obtain ⟨result, run, equal⟩ := (deeper rfl inside).reads.nested closing (q ++ textOf lead) rest
    refine ⟨result, _, run, equal.trans ?_, fun _ _ => by simp⟩
    simp [calc?, token]
  · rename_i name token
    obtain ⟨e, l, body, closing, rfl, rfl, inside⟩ := exists_block here (by rw [token]; rfl)
    rw [Node.token] at token
    split
    · obtain ⟨result, run, equal⟩ :=
        (functions rfl inside name).reads.nested closing (q ++ textOf lead) rest
      refine ⟨result.map .function, _, map_of run _, ?_, fun _ _ => by simp⟩
      simp only [calc?, token, ← equal]
      cases result <;> rfl
    · rename_i other
      refine ⟨.error .calc, _, rfl, ?_, by simp⟩
      simp only [calc?, token, Math.ofTerms?_of_not_isName other]
      rfl
  · rename_i noParen noFunction
    cases here with
    | @leaf _ l plain =>
      obtain ⟨result, run, equal⟩ := toOption_orFail .calc (Calc.ofLexeme? l)
        ⟨q ++ textOf lead ++ l.text, none, rest⟩
      refine ⟨result, ⟨q ++ textOf lead ++ l.text, none, rest⟩, ?_, equal.trans (by rw [calc?]),
        fun _ _ => by simp [Node.text]⟩
      have behind : Cursor.enter (q ++ textOf lead) (.leaf l) rest =
        ⟨q ++ textOf lead ++ l.text, none, rest⟩ := rfl
      rw [behind, bind_done (by rfl), Cursor.slice_append]
      exact run
    | @block _ l body closing opens inside =>
      refine ⟨.error .calc, .enter (q ++ textOf lead) (.block l body closing) rest,
        (bind_done (by rfl) _).trans ?_, ?_, by simp⟩
      · cases token : l.token <;>
          simp_all [Node.token, Token.closing?, Calc.ofLexeme?, orFail, fail]
      · cases token : l.token <;> simp_all [Node.token, Token.closing?, calc?, Except.toOption]

include deeper functions in
theorem productStep_factor {lead rest : List Node} {n : Node}
    (within : ∀ m ∈ lead ++ n :: rest, m.Within d) (blank : ∀ m ∈ lead, m.isTrivia)
    (star : n.token = .delim '*') (q : List Char) (e : Calc) :
    (∃ e' c, (productStep inner e).run ⟨q, none, lead ++ n :: rest⟩ = .failed e' c ∧
      ∀ negative, operands negative e (terms [] (lead ++ n :: rest)) = none) ∨
    ∃ e' ts later, (productStep inner e).run ⟨q, none, lead ++ n :: rest⟩ =
        .done (.inl e') ⟨q ++ spelled ts, none, later⟩ ∧ later <:+ rest ∧
      terms [] (lead ++ n :: rest) = ts ++ terms [] later ∧
      ∀ negative, operands negative e (terms [] (lead ++ n :: rest)) =
        operands negative e' (terms [] later) := by
  have solid : n.isTrivia = false := by simp [Node.isTrivia, star, Token.isTrivia]
  have run := nextAfter_lead (c := ⟨q, none, lead ++ n :: rest⟩) rfl blank solid
  have step : (productStep inner e).run ⟨q, none, lead ++ n :: rest⟩ = _ :=
    (bind_done (by rfl) _).trans (bind_done (attempt_done run) _)
  simp only [star, beq_self_eq_true, if_true] at step
  rw [terms_lead blank solid, List.nil_append, star]
  rcases calcLeaf_eq deeper functions (fun m later => within m (by simp [later]))
    (Cursor.settle_enter (q ++ textOf lead) n rest) with
    ⟨none, e', c, leaf⟩ | ⟨t, later, next, suffix, shorter, result, c, leaf, equal, behind⟩
  · refine .inl ⟨e', c, step.trans (bind_failed leaf _), fun negative => ?_⟩
    rw [none]
    rfl
  rw [next]
  have factors := operands_factor ⟨textOf lead, .delim '*', n.text, calc? n⟩ rfl t (terms [] later)
  rw [← equal] at factors
  cases result with
  | error e' =>
    refine .inl ⟨e', c, step.trans (bind_failed leaf _), fun negative => ?_⟩
    rw [factors]
    rfl
  | ok factor =>
    obtain rfl := behind factor rfl
    replace step := step.trans (bind_done leaf _)
    cases product : multiply e factor with
    | none =>
      rw [product] at step
      refine .inl ⟨.calc, _, step, fun negative => ?_⟩
      simp [factors, Except.toOption, product]
    | some e' =>
      rw [product] at step
      refine .inr ⟨e', [⟨textOf lead, .delim '*', n.text, calc? n⟩, t], later, ?_, suffix, rfl,
        fun negative => ?_⟩
      · rw [step]
        simp [spelled]
        rfl
      · simp [factors, Except.toOption, product]

include deeper functions in
/-- The factors after a factor, up to the first token that is no operator of a product. -/
theorem exists_loops_productStep (within : ∀ m ∈ ns, m.Within d) (q : List Char) (e : Calc) :
    ∃ result c, Loops (productStep inner) e ⟨q, none, ns⟩ (.of result c) ∧
      Multiplies (fun negative => operands negative e (terms [] ns)) q ns c result := by
  induction size : ns.length using Nat.strong_induction_on generalizing ns q e with
  | _ size' ih =>
    subst size
    have stops : (productStep inner e).run ⟨q, none, ns⟩ = .done (.inr e) ⟨q, none, ns⟩ →
        (∀ t ∈ (terms [] ns).head?, t.token ≠ .delim '*') →
        ∃ result c, Loops (productStep inner) e ⟨q, none, ns⟩ (.of result c) ∧
          Multiplies (fun negative => operands negative e (terms [] ns)) q ns c result :=
      fun last other => ⟨.ok e, _, .stop last, [], ns, List.suffix_rfl, by simp [spelled], rfl,
        fun _ => rfl, other⟩
    rcases next_cases (c := ⟨q, none, ns⟩) rfl with
      ⟨spent, _, run⟩ | ⟨lead, n, rest, rfl, blank, solid, found, run⟩
    · apply stops
      · rw [productStep, bind_done (by rfl), bind_done (attempt_failed run), bind_done (by rfl)]
        rfl
      · simp [terms_blank (isTrivia_of_significant spent)]
    by_cases star : n.token = .delim '*'
    · rcases productStep_factor deeper functions within blank star q e with
        ⟨e', c, last, none⟩ | ⟨e', ts, later, round, suffix, whole, same⟩
      · exact ⟨.error e', c, .fail last, none⟩
      have shorter : later.length < (lead ++ n :: rest).length := length_lt_lead suffix
      have ending : later <:+ lead ++ n :: rest := suffix_lead suffix
      obtain ⟨result, c, loops, multiplies⟩ := ih later.length shorter
        (fun m member => within m (ending.subset member)) (q ++ spelled ts) e' rfl
      refine ⟨result, c, .more round shorter loops, ?_⟩
      cases result with
      | error _ => exact fun negative => (same negative).trans (multiplies negative)
      | ok product =>
        obtain ⟨us, rest', suffix', rfl, terms', operands', other⟩ := multiplies
        refine ⟨ts ++ us, rest', suffix'.trans ending, ?_, ?_, ?_, other⟩
        · rw [spelled_append, List.append_assoc]
        · rw [whole, terms', List.append_assoc]
        · exact fun negative => (same negative).trans (operands' negative)
    have step : (productStep inner e).run ⟨q, none, lead ++ n :: rest⟩ = _ :=
      (bind_done (by rfl) _).trans (bind_done (attempt_done run) _)
    by_cases slash : n.token = .delim '/'
    · rw [slash] at step
      refine ⟨.error .calc, _, .fail step, fun negative => ?_⟩
      rw [terms_lead blank solid]
      exact operands_quotient slash _ negative e
    · apply stops
      · rw [step]
        simp [star, slash, bind_done (show (reset _).run _ = _ from rfl)]
      · simp [terms_lead blank solid, star]

include deeper functions in
theorem product_multiplies (within : ∀ m ∈ ns, m.Within d) (place : c.settle = ⟨q, none, ns⟩) :
    ∃ result c', (product inner).run c = .of result c' ∧
      Multiplies (fun negative => operandsOf negative (terms [] ns)) q ns c' result := by
  rcases calcLeaf_eq deeper functions within place with
    ⟨blank, e, c', leaf⟩ | ⟨t, rest, first, suffix, _, result, c', leaf, equal, behind⟩
  · refine ⟨.error e, c', bind_failed leaf _, fun negative => ?_⟩
    rw [blank]
    rfl
  have start : ∀ negative, operandsOf negative (terms [] ns) =
      result.toOption.bind fun e => operands negative e (terms [] rest) := by
    intro negative
    rw [first, operandsOf, equal]
  cases result with
  | error e => exact ⟨.error e, c', bind_failed leaf _, start⟩
  | ok e =>
    obtain rfl := behind e rfl
    obtain ⟨result, c', loops, multiplies⟩ := exists_loops_productStep deeper functions
      (fun m member => within m (suffix.subset member)) (q ++ (t.lead ++ t.text)) e
    refine ⟨result, c', (bind_done leaf _).trans loops.run_loop, ?_⟩
    cases result with
    | error _ => exact fun negative => (start negative).trans (multiplies negative)
    | ok product =>
      obtain ⟨ts, later, suffix', rfl, terms', operands', other⟩ := multiplies
      refine ⟨t :: ts, later, suffix'.trans suffix, ?_, ?_, fun negative => ?_, other⟩
      · rw [spelled_cons, List.append_assoc]
      · rw [first, terms', List.cons_append]
      · exact (start negative).trans (operands' negative)

include deeper functions in
theorem addOperand_eq (within : ∀ m ∈ ns, m.Within d) (place : c.settle = ⟨q, none, ns⟩)
    (negative : Bool) (es : List Calc) :
    ∃ result c', (addOperand inner negative es).run c = .of result c' ∧
      match result with
      | .error _ => operandsOf negative (terms [] ns) = none
      | .ok s => ∃ e ts rest, s = (es ++ [signed negative e], q ++ spelled ts) ∧ rest <:+ ns ∧
          c' = ⟨q ++ spelled ts, none, rest⟩ ∧ terms [] ns = ts ++ terms [] rest ∧
          operandsOf negative (terms [] ns) =
            (operandsAfter (terms [] rest)).map (signed negative e :: ·) := by
  obtain ⟨result, c', run, multiplies⟩ := product_multiplies deeper functions within place
  cases result with
  | error e => exact ⟨.error e, c', bind_failed run _, multiplies negative⟩
  | ok e =>
    obtain ⟨ts, rest, suffix, rfl, terms', operands', other⟩ := multiplies
    refine ⟨.ok (es ++ [signed negative e], q ++ spelled ts), _, ?_, e, ts, rest, rfl, suffix, rfl,
      terms', (operands' negative).trans (operands_eq other negative e)⟩
    rw [addOperand, bind_done run, bind_done (by rfl), run_pure]
    rfl

/-- The operands of a sum, after those in `es`, and the place behind the last. -/
def Adds (es : List Calc) (q : List Char) (ts : List Term) :
    Except Setback (List Calc × List Char) → Prop
  | .error _ => operandsAfter ts = none
  | .ok s => (operandsAfter ts).map (es ++ ·) = some s.1 ∧ s.2 = q ++ spelled ts

theorem sumStep_token {n : Node} {rest : List Node} {q' : List Char} (s : List Calc × List Char)
    (run : next.run c = .done n.token (.enter q' n rest)) :
    (∃ negative, (sumStep inner s).run c =
        (.inl <$> addOperand inner negative s.1 : Walk (_ ⊕ (List Calc × List Char))).run
          (.enter q' n rest) ∧
      ∀ t ts, t.token = n.token → operandsAfter (t :: ts) = operandsOf negative ts) ∨
    ((sumStep inner s).run c = .failed .calc (.enter q' n rest) ∧
      ∀ t ts, t.token = n.token → operandsAfter (t :: ts) = none) := by
  have step : (sumStep inner s).run c = _ :=
    (bind_done (by rfl) _).trans (bind_done (attempt_done run) _)
  by_cases plus : n.token = .delim '+'
  · refine .inl ⟨false, ?_, fun t ts same => ?_⟩
    · rw [step, plus]
      rfl
    · simp [operandsAfter, same, plus]
  by_cases minus : n.token = .delim '-'
  · refine .inl ⟨true, ?_, fun t ts same => ?_⟩
    · rw [step, minus]
      rfl
    · simp [operandsAfter, same, minus]
  refine .inr ⟨?_, fun t ts same => ?_⟩
  · rw [step]
    simp [plus, minus]
    rfl
  · simp [operandsAfter, same, plus, minus]

include deeper functions in
theorem exists_loops_sumStep (within : ∀ m ∈ ns, m.Within d) (q : List Char) (es : List Calc) :
    ∃ result c, Loops (sumStep inner) (es, q) ⟨q, none, ns⟩ (.of result c) ∧
      (∀ s, result = .ok s → c.Halts s.2 ns) ∧ Adds es q (terms [] ns) result := by
  induction size : ns.length using Nat.strong_induction_on generalizing ns q es with
  | _ size' ih =>
    subst size
    rcases next_cases (c := ⟨q, none, ns⟩) rfl with
      ⟨spent, ends, run⟩ | ⟨lead, n, rest, rfl, blank, solid, found, run⟩
    · refine ⟨.ok (es, q), ⟨q, none, ns⟩, .stop ?_, ?_, ?_⟩
      · rw [sumStep, bind_done (by rfl), bind_done (attempt_failed run), bind_done (by rfl),
          run_pure]
      · rintro _ ⟨⟩
        exact ⟨ns, rfl, List.suffix_rfl, isTrivia_of_significant spent⟩
      · rw [terms_blank (isTrivia_of_significant spent)]
        simp [Adds, operandsAfter, spelled]
    rw [terms_lead blank solid]
    rcases sumStep_token (es, q) run with ⟨negative, step, after⟩ | ⟨step, after⟩
    · obtain ⟨result, c, added, rest'⟩ := addOperand_eq deeper functions
        (fun m member => within m (by simp [member]))
        (Cursor.settle_enter (q ++ textOf lead) n rest) negative es
      replace step := step.trans (map_of added _)
      cases result with
      | error e => exact ⟨.error e, c, .fail step, by simp, (after _ _ rfl).trans rest'⟩
      | ok s =>
        obtain ⟨e, ts, later, rfl, suffix, rfl, terms', operands'⟩ := rest'
        have shorter : later.length < (lead ++ n :: rest).length := length_lt_lead suffix
        have ending : later <:+ lead ++ n :: rest := suffix_lead suffix
        obtain ⟨result, c, loops, halts, adds⟩ := ih later.length shorter
          (fun m member => within m (by simp [suffix.subset member])) _
          (es ++ [signed negative e]) rfl
        refine ⟨result, c, .more step shorter loops,
          fun s made => (halts s made).mono ending, ?_⟩
        cases result with
        | error _ =>
          refine (after _ _ rfl).trans (operands'.trans ?_)
          rw [show operandsAfter _ = none from adds]
          rfl
        | ok s =>
          refine ⟨?_, ?_⟩
          · rw [after _ _ rfl, operands', Option.map_map, ← adds.1]
            simp [Function.comp_def]
          · rw [adds.2, spelled_cons, terms', spelled_append]
            simp
    · exact ⟨.error .calc, _, .fail step, by simp, after _ _ rfl⟩

def Expresses (r : Walk Calc) (ns : List Node) : Prop :=
  ∀ q, ∃ result c, r.run ⟨q, none, ns⟩ = .of result c ∧
    (∀ e, result = .ok e → c.Halts
      (q ++ textOf (ns.takeWhile Node.isTrivia) ++ Term.source (terms [] ns)) ns) ∧
    result.toOption = Calc.ofTerms? (terms [] ns)

theorem Expresses.finishes {r : Walk Calc} (expresses : Expresses r ns) :
    Finishes r ns (·.toOption = Calc.ofTerms? (terms [] ns)) := by
  intro q
  obtain ⟨result, c, run, halts, equal⟩ := expresses q
  exact ⟨result, c, run, fun e made => (halts e made).spent, equal⟩

theorem ofTerms?_eq (ts : List Term) :
    Calc.ofTerms? ts = (operandsOf false ts).map (sumOf (Term.source ts)) := by
  cases ts with
  | nil => rfl
  | cons t ts =>
    simp only [Calc.ofTerms?, operandsOf]
    cases t.expression with
    | none => rfl
    | some e =>
      simp only [Option.bind_eq_bind, Option.bind_some]
      cases operands false e ts with
      | none => rfl
      | some es => obtain _ | ⟨_, _ | _⟩ := es <;> rfl

theorem exists_terms_dropTrivia (ns : List Node) :
    (Calc.ofTerms? (terms [] (Node.dropTrivia ns)) = Calc.ofTerms? (terms [] ns) ∧
      Term.source (terms [] (Node.dropTrivia ns)) = Term.source (terms [] ns)) ∧
      Term.source (terms [] (Node.dropTrivia ns)) = spelled (terms [] (Node.dropTrivia ns)) := by
  rcases exists_lead Node.isTrivia ns with blank | ⟨lead, n, rest, rfl, blank, solid⟩
  · rw [Node.dropTrivia, List.dropWhile_eq_nil_iff.2 blank, terms_blank blank]
    exact ⟨⟨rfl, rfl⟩, rfl⟩
  · have kept : Node.dropTrivia (lead ++ n :: rest) = n :: rest := by
      rw [Node.dropTrivia, List.dropWhile_append_of_pos blank,
        List.dropWhile_cons_of_neg (by simp [solid])]
    have first : terms [] (n :: rest) = ⟨[], n.token, n.text, calc? n⟩ :: terms [] rest := by
      rw [terms, if_neg (by simp [solid])]
    rw [kept, first, terms_lead blank solid]
    exact ⟨⟨rfl, rfl⟩, by simp [Term.source, spelled]⟩

include deeper functions in
theorem sum_expresses (within : ∀ m ∈ ns, m.Within d) : Expresses (sum inner) ns := by
  intro q
  obtain ⟨same, source⟩ := exists_terms_dropTrivia ns
  have kept : Node.dropTrivia ns <:+ ns := List.dropWhile_suffix _
  rw [← same.1, ← same.2, ofTerms?_eq, source]
  have skipped := skipTrivia_eq (c := ⟨q, none, ns⟩) rfl
  replace within : ∀ m ∈ Node.dropTrivia ns, m.Within d :=
    fun m member => within m (kept.subset member)
  have ends : ∀ {c : Cursor} {p : List Char}, c.Halts p (Node.dropTrivia ns) → c.Halts p ns :=
    fun halts => halts.mono kept
  generalize q ++ textOf (ns.takeWhile Node.isTrivia) = q at skipped
  generalize Node.dropTrivia ns = ms at skipped within ends
  have step : (sum inner).run ⟨_, none, _⟩ = _ :=
    (bind_done skipped _).trans (bind_done (by rfl) _)
  obtain ⟨result, c, added, rest⟩ :=
    addOperand_eq deeper functions within (c := ⟨q, none, ms⟩) rfl false []
  cases result with
  | error e =>
    refine ⟨.error e, c, step.trans (bind_failed added _), by simp, ?_⟩
    rw [show operandsOf false _ = none from rest]
    rfl
  | ok s =>
    obtain ⟨e, ts, later, rfl, suffix, rfl, terms', operands'⟩ := rest
    obtain ⟨result, c, loops, halts, adds⟩ := exists_loops_sumStep deeper functions
      (fun m member => within m (suffix.subset member)) (q ++ spelled ts) [signed false e]
    replace step := step.trans (bind_done added _)
    cases result with
    | error e =>
      refine ⟨.error e, c, step.trans (bind_failed loops.run_loop _), by simp, ?_⟩
      rw [operands', show operandsAfter _ = none from adds]
      rfl
    | ok s =>
      obtain ⟨read, finish⟩ := adds
      have whole : s.2 = q ++ spelled (terms [] ms) := by
        rw [finish, List.append_assoc, ← spelled_append, ← terms']
      refine ⟨.ok (sumOf (spelled (terms [] ms)) s.1), c,
        step.trans ((bind_done loops.run_loop _).trans ?_),
        fun _ _ => whole ▸ ends ((halts _ rfl).mono suffix), ?_⟩
      · rw [whole, Cursor.slice_append]
        rfl
      · rw [operands', show Option.map (signed false e :: ·) _ = _ from read]
        rfl

end Expressions

theorem exists_of_mem_terms {l : List Char} {t : Term} (member : t ∈ terms l ns) :
    ∃ n ∈ ns, t.token = n.token ∧ t.expression = calc? n := by
  induction ns generalizing l with
  | nil => simp [terms] at member
  | cons n ns ih =>
    rw [terms] at member
    split at member
    · obtain ⟨m, inside, same⟩ := ih member
      exact ⟨m, by simp [inside], same⟩
    · rcases List.mem_cons.1 member with rfl | later
      · exact ⟨n, by simp, rfl, rfl⟩
      · obtain ⟨m, inside, same⟩ := ih later
        exact ⟨m, by simp [inside], same⟩

theorem exists_terms_append {n : Node} (solid : n.isTrivia = false) (front more : List Node)
    (l : List Char) :
    ∃ lead, terms l (front ++ n :: more) =
      terms l front ++ ⟨lead, n.token, n.text, calc? n⟩ :: terms [] more := by
  induction front generalizing l with
  | nil => exact ⟨_, terms_lead (List.forall_mem_nil _) solid l⟩
  | cons m front ih =>
    rw [List.cons_append, terms, terms]
    split
    · exact ih _
    · obtain ⟨lead, same⟩ := ih []
      exact ⟨lead, by rw [same, List.cons_append]⟩

theorem segments_terms (ns : List Node) :
    segments (fun t => t.token == .comma) (terms [] ns) =
      (segments Node.isComma ns).map (terms []) := by
  have plain : ∀ {ns : List Node}, (∀ n ∈ ns, n.isComma = false) →
      ∀ t ∈ terms [] ns, (t.token == .comma) = false := by
    intro ns kept t member
    obtain ⟨n, inside, same, _⟩ := exists_of_mem_terms member
    rw [same]
    exact kept n inside
  induction ns using lead_induction (fun n => !n.isComma) with
  | all ns kept =>
    replace kept : ∀ n ∈ ns, n.isComma = false := by simpa using kept
    rw [segments_of_forall kept, segments_of_forall (plain kept)]
    rfl
  | step front comma more kept separates ih =>
    replace kept : ∀ n ∈ front, n.isComma = false := by simpa using kept
    have token : comma.token = .comma := by simpa [Node.isComma] using separates
    have solid : comma.isTrivia = false := by simp [Node.isTrivia, token, Token.isTrivia]
    obtain ⟨lead, same⟩ := exists_terms_append solid front more []
    rw [segments_cut kept (by simpa using separates), same,
      segments_cut (plain kept) (by simp [token]), ih more le_rfl]
    rfl

section Functions

variable {inner : Walk Calc}
  (reads : ∀ {ms}, (∀ m ∈ ms, m.Within d) →
    Finishes inner ms (·.toOption = Calc.ofTerms? (terms [] ms)))

include reads in
theorem arguments_finishes (within : ∀ m ∈ ns, m.Within d) :
    Finishes (commaList inner) ns (·.toOption = Calc.arguments? (terms [] ns)) := by
  intro q
  obtain ⟨result, c, run, spent, collects⟩ := commaList_eq within (fun part member =>
    (reads fun m inside => within m (mem_of_mem_segments member inside)).reads) q
  refine ⟨result, c, run, spent, collects.toOption_mapM.trans ?_⟩
  rw [Calc.arguments?, segments_terms, List.mapM_map]
  rfl

theorem ofTerms?_eq_bind {name : String} (expression : name.toLower ≠ "calc")
    (round : name.toLower ≠ "round") (ts : List Term) :
    Math.ofTerms? name ts = (Calc.arguments? ts).bind (ofArguments? name.toLower) := by
  unfold Math.ofTerms?
  generalize name.toLower = lower at *
  cases Calc.arguments? ts with
  | none => split <;> simp_all
  | some es =>
    simp only [Option.bind_some]
    unfold ofArguments?
    split <;> simp_all

theorem strategy?_eq_none {ts : List Term}
    (other : ∀ s c rest name, ts = s :: c :: rest → s.token = .ident name → c.token = .comma →
      ¬Math.strategies.contains name.toLower) : Math.strategy? ts = (none, ts) := by
  unfold Math.strategy?
  split
  · split
    · rename_i first second
      rw [if_neg (other _ _ _ _ rfl first second)]
    · rfl
  · rfl

theorem roundingStrategy_eq (within : ∀ m ∈ ns, m.Within d) (q : List Char) :
    (∃ name q' rest, roundingStrategy.run ⟨q, none, ns⟩ = .done name ⟨q', none, rest⟩ ∧
      rest <:+ ns ∧ Math.strategy? (terms [] ns) = (some name, terms [] rest)) ∨
    ∃ e c, roundingStrategy.run ⟨q, none, ns⟩ = .failed e c ∧
      Math.strategy? (terms [] ns) = (none, terms [] ns) := by
  rcases next_cases (c := ⟨q, none, ns⟩) rfl with
    ⟨spent, _, run⟩ | ⟨lead, n, rest, rfl, blank, solid, _, run⟩
  · refine .inr ⟨_, _, bind_failed (expect_end run _) _, strategy?_eq_none ?_⟩
    simp [terms_blank (isTrivia_of_significant spent)]
  have name := expect_eq run ident?
  rw [terms_lead blank solid, List.nil_append]
  cases named : ident? n.token with
  | none =>
    rw [named] at name
    refine .inr ⟨_, _, bind_failed name _, strategy?_eq_none ?_⟩
    rintro s c later text same token -
    obtain ⟨rfl, _⟩ := List.cons.inj same
    simp [show n.token = _ from token, ident?] at named
  | some text =>
    rw [named] at name
    have token := ident?_eq_some.1 named
    have step : roundingStrategy.run _ = _ := bind_done name _
    cases known : Math.strategies.contains text.toLower with
    | false =>
      rw [known] at step
      refine .inr ⟨_, _, step, strategy?_eq_none ?_⟩
      rintro s c later text' same token' -
      obtain ⟨rfl, _⟩ := List.cons.inj same
      cases token.symm.trans token'
      rw [known]
      exact Bool.false_ne_true
    | true =>
      rw [known] at step
      rcases next_cases (Cursor.settle_enter (q ++ textOf lead) n rest) with
        ⟨spent, _, run'⟩ | ⟨gap, separator, more, rfl, blank', solid', _, run'⟩
      · refine .inr ⟨_, _, step.trans (bind_failed (expect_end run' _) _), strategy?_eq_none ?_⟩
        simp [terms_blank (isTrivia_of_significant spent)]
      have comma := expectComma_eq run'
      rw [terms_lead blank' solid', List.nil_append]
      split at comma
      · rename_i separates
        replace separates : separator.token = .comma := by simpa [Node.isComma] using separates
        have behind := enter_plain (within separator (by simp)) (by rw [separates]; rfl)
          (q ++ textOf lead ++ n.text ++ textOf gap) more
        rw [behind] at comma
        refine .inl ⟨text, _, more, step.trans (bind_done comma _), ?_, ?_⟩
        · exact ⟨lead ++ n :: (gap ++ [separator]), by simp⟩
        · simp only [Math.strategy?, token, separates, known, if_true]
      · rename_i plain
        refine .inr ⟨_, _, step.trans (bind_failed comma _), strategy?_eq_none ?_⟩
        rintro s c later text' same - token'
        obtain ⟨rfl, _⟩ := List.cons.inj (List.cons.inj same).2
        exact absurd token' (by simpa [Node.isComma] using plain)

include reads in
theorem mathFunction_finishes (within : ∀ m ∈ ns, m.Within d) (name : String) :
    Finishes (mathFunction inner name) ns (·.toOption = Math.ofTerms? name (terms [] ns)) := by
  unfold mathFunction
  split
  · rename_i lower
    intro q
    obtain ⟨result, c, run, spent, inside, equal, rfl⟩ := (reads within).map Math.calc q
    refine ⟨_, c, run, spent, ?_⟩
    simp only [Math.ofTerms?, lower, ← equal]
    cases inside <;> rfl
  · rename_i lower
    intro q
    have round : ∀ {strategy ts}, Math.strategy? (terms [] ns) = (strategy, ts) →
        Math.ofTerms? name (terms [] ns) = (Calc.arguments? ts).bind (roundOf? strategy) := by
      intro strategy ts same
      simp only [Math.ofTerms?, lower, same]
      cases Calc.arguments? ts with
      | none => rfl
      | some es => obtain _ | ⟨_, _ | ⟨_, _ | _⟩⟩ := es <;> rfl
    rcases roundingStrategy_eq within q with
      ⟨strategy, q', rest, run, suffix, same⟩ | ⟨e, c, run, same⟩
    · rw [round same]
      obtain ⟨result, c, run', finished⟩ := (arguments_finishes reads
        fun m member => within m (suffix.subset member)).orFail .calc (roundOf? (some strategy)) q'
      exact ⟨result, c, (bind_done (tryTo_done run) _).trans run', finished⟩
    · rw [round same]
      obtain ⟨result, c, run', finished⟩ :=
        (arguments_finishes reads within).orFail .calc (roundOf? none) q
      exact ⟨result, c, (bind_done (tryTo_failed run) _).trans run', finished⟩
  · rename_i noCalc noRound
    rw [ofTerms?_eq_bind noCalc noRound]
    exact (arguments_finishes reads within).orFail .calc (ofArguments? name.toLower)

end Functions

theorem sums_expresses (d : Nat) (within : ∀ m ∈ ns, m.Within d) : Expresses (sums d) ns := by
  induction d generalizing ns with
  | zero => exact sum_expresses (by simp) (by simp) within
  | succ d ih =>
    have reads : ∀ {ms}, (∀ m ∈ ms, m.Within d) →
        Finishes (sums d) ms (·.toOption = Calc.ofTerms? (terms [] ms)) :=
      fun inside => (ih inside).finishes
    refine sum_expresses (fun same inside => ?_) (fun same inside name => ?_) within
    · cases same
      exact reads inside
    · cases same
      exact mathFunction_finishes reads inside name

theorem sums_finishes (d : Nat) (within : ∀ m ∈ ns, m.Within d) :
    Finishes (sums d) ns (·.toOption = Calc.ofTerms? (terms [] ns)) :=
  (sums_expresses d within).finishes

theorem sums_run {e : Calc} (within : ∀ m ∈ ns, m.Within d)
    (read : Calc.ofTerms? (terms [] ns) = some e) (q : List Char) :
    ∃ c, (sums d).run ⟨q, none, ns⟩ = .done e c ∧ c.Halts
      (q ++ textOf (ns.takeWhile Node.isTrivia) ++ Term.source (terms [] ns)) ns := by
  obtain ⟨result, c, run, halts, equal⟩ := sums_expresses d within q
  rw [read] at equal
  cases result with
  | error _ => cases equal
  | ok e' =>
    cases equal
    exact ⟨c, run, halts _ rfl⟩

end Walk

end CssOutline
