import CssOutline.Proofs.Extents
import CssOutline.Proofs.GrammarHeads

/-! Reading with a cursor, token by token. After a token that opens a block the cursor stands before
the inside of the block: a nested reader may be started there and only there, and any other step
passes over the block first. A reader that is run on its own nodes has to come to their end. Readers
may come back with a setback and be tried again in another way; a misuse stops everything. -/

namespace CssOutline

open Node (textOf)

/-- The inside of a block: its nodes and its closing text. -/
structure Opened where
  body : List Node
  ending : List Char

namespace Node

def opened? : Node → Option Opened
  | leaf _ => none
  | block _ body closing => some ⟨body, (closing.map Lexeme.text).getD []⟩

def isComment (n : Node) : Bool :=
  n.token == .comment

end Node

/-- A place among nodes. -/
structure Cursor where
  /-- The text before it. -/
  passed : List Char
  /-- The block whose opening token was the last token taken. -/
  opened : Option Opened
  rest : List Node

namespace Cursor

def settle (c : Cursor) : Cursor :=
  match c.opened with
  | none => c
  | some o => ⟨c.passed ++ textOf o.body ++ o.ending, none, c.rest⟩

def skip (p : Node → Bool) (c : Cursor) : Cursor :=
  ⟨c.settle.passed ++ textOf (c.rest.takeWhile p), none, c.rest.dropWhile p⟩

def enter (passed : List Char) (n : Node) (rest : List Node) : Cursor :=
  ⟨passed ++ n.headText, n.opened?, rest⟩

def location (c : Cursor) : Location :=
  (c.rest.head?.map Node.start).getD .origin

def slice (start finish : List Char) : List Char :=
  finish.drop start.length

@[simp] theorem slice_append (start text : List Char) : slice start (start ++ text) = text := by
  simp [slice]

@[simp] theorem settle_none (passed : List Char) (rest : List Node) :
    settle ⟨passed, none, rest⟩ = ⟨passed, none, rest⟩ := rfl

@[simp] theorem rest_settle (c : Cursor) : c.settle.rest = c.rest := by
  unfold settle
  split <;> rfl

theorem settle_eq (c : Cursor) : c.settle = ⟨c.settle.passed, none, c.rest⟩ := by
  obtain ⟨passed, _ | o, rest⟩ := c <;> rfl

theorem rest_eq {c : Cursor} {q : List Char} {ns : List Node} (here : c.settle = ⟨q, none, ns⟩) :
    c.rest = ns := by
  rw [← rest_settle, here]

@[simp] theorem settle_enter (passed : List Char) (n : Node) (rest : List Node) :
    (enter passed n rest).settle = ⟨passed ++ n.text, none, rest⟩ := by
  cases n <;> simp [enter, settle, Node.opened?, Node.headText, Node.text]

@[simp] theorem rest_enter (passed : List Char) (n : Node) (rest : List Node) :
    (enter passed n rest).rest = rest := rfl

end Cursor

/-- What must not happen, whatever the text. -/
inductive Misuse where
  /-- A nested reader was started where no block is open. -/
  | misplaced
  /-- The setback of a reader was dropped and nothing put in the place of what it read. -/
  | replaced
  /-- More rounds or levels than there are nodes. -/
  | endless
deriving DecidableEq, Repr

/-- Why a reader comes back without a result. -/
inductive Setback where
  | fault (fault : Fault)
  | color
  | calc
  | feature
deriving DecidableEq, Repr

def Setback.message : Setback → String
  | .fault f => f.message
  | .color => "Not a color"
  | .calc => "Not a length-percentage expression"
  | .feature => "Invalid media feature"

/-- How the run of a reader ends. -/
inductive Outcome (α : Type) where
  | done (value : α) (after : Cursor)
  | failed (setback : Setback) (after : Cursor)
  | misused (misuse : Misuse)

namespace Outcome

variable {α β : Type}

def bind : Outcome α → (α → Cursor → Outcome β) → Outcome β
  | done a c, f => f a c
  | failed e c, _ => failed e c
  | misused m, _ => misused m

def of (result : Except Setback α) (after : Cursor) : Outcome α :=
  match result with
  | .ok a => done a after
  | .error e => failed e after

@[simp] theorem of_ok (a : α) (c : Cursor) : of (.ok a) c = done a c := rfl

@[simp] theorem of_error (e : Setback) (c : Cursor) :
    of (.error e : Except Setback α) c = failed e c := rfl

end Outcome

/-- A reader. -/
structure Walk (α : Type) where
  run : Cursor → Outcome α

namespace Walk

variable {α β σ : Type}

instance : Monad Walk where
  pure a := ⟨fun c => .done a c⟩
  bind r f := ⟨fun c => (r.run c).bind fun a => (f a).run⟩

@[simp] theorem run_pure (a : α) (c : Cursor) : (pure a : Walk α).run c = .done a c := rfl

theorem run_bind (r : Walk α) (f : α → Walk β) (c : Cursor) :
    (r >>= f).run c = (r.run c).bind fun a => (f a).run := rfl

theorem bind_done {r : Walk α} {c c' : Cursor} {a : α} (h : r.run c = .done a c')
    (f : α → Walk β) : (r >>= f).run c = (f a).run c' := by
  rw [run_bind, h]
  rfl

theorem bind_failed {r : Walk α} {c c' : Cursor} {e : Setback} (h : r.run c = .failed e c')
    (f : α → Walk β) : (r >>= f).run c = .failed e c' := by
  rw [run_bind, h]
  rfl

def fail (e : Setback) : Walk α :=
  ⟨fun c => .failed e c⟩

def refuse (f : Fault) : Walk α :=
  fail (.fault f)

def orFail (e : Setback) : Option α → Walk α
  | some a => pure a
  | none => fail e

def misuse (m : Misuse) : Walk α :=
  ⟨fun _ => .misused m⟩

def here : Walk Cursor :=
  ⟨fun c => .done c c⟩

def reset (c : Cursor) : Walk Unit :=
  ⟨fun _ => .done () c⟩

def since (start : Cursor) : Walk (List Char) :=
  ⟨fun c => .done (Cursor.slice start.passed c.passed) c⟩

def attempt (r : Walk α) : Walk (Except Setback α) :=
  ⟨fun c =>
    match r.run c with
    | .done a c => .done (.ok a) c
    | .failed e c => .done (.error e) c
    | .misused m => .misused m⟩

/-- Runs a reader and comes back to where it started if it has a setback. -/
def tryTo (r : Walk α) : Walk (Except Setback α) :=
  ⟨fun c =>
    match r.run c with
    | .done a c => .done (.ok a) c
    | .failed e _ => .done (.error e) c
    | .misused m => .misused m⟩

def nextAfter (p : Node → Bool) : Walk Token :=
  ⟨fun c =>
    let c := c.skip p
    match c.rest with
    | [] => .failed (.fault .endOfInput) c
    | n :: rest => .done n.token (.enter c.passed n rest)⟩

def next : Walk Token :=
  nextAfter Node.isTrivia

def nextSpaced : Walk Token :=
  nextAfter Node.isComment

def nextAny : Walk Token :=
  nextAfter fun _ => false

def skipTrivia : Walk Unit :=
  ⟨fun c => .done () (c.skip Node.isTrivia)⟩

def exhausted : Walk Unit :=
  ⟨fun c =>
    match next.run c with
    | .done t _ => .failed (.fault (.unexpectedToken t)) c
    | .failed _ _ => .done () c
    | .misused m => .misused m⟩

def isExhausted : Walk Bool := do
  let answer ← attempt exhausted
  pure answer.isOk

def expect (accept : Token → Option α) : Walk α := do
  let t ← next
  match accept t with
  | some a => pure a
  | none => refuse (.unexpectedToken t)

def expectColon : Walk Unit :=
  expect fun t => if t == .colon then some () else none

def expectComma : Walk Unit :=
  expect fun t => if t == .comma then some () else none

def ident? : Token → Option String
  | .ident name => some name
  | _ => none

def expectIdent : Walk String :=
  expect ident?

/-- Runs a reader that has to come to the end of the nodes. -/
def entirely (r : Walk α) : Walk α := do
  let a ← r
  exhausted
  pure a

/-- Runs a reader on the inside of the block that was opened last. -/
def nested (r : Walk α) : Walk α :=
  ⟨fun c =>
    match c.opened with
    | none => .misused .misplaced
    | some o =>
      match (entirely r).run ⟨c.passed, none, o.body⟩ with
      | .done a _ => .done a c.settle
      | .failed e _ => .failed e c.settle
      | .misused m => .misused m⟩

def untilBefore (p : Node → Bool) (r : Walk α) : Walk α :=
  ⟨fun c =>
    let stop : Cursor := c.skip fun n => !p n
    match (entirely r).run ⟨c.passed, c.opened, Sketch.upTo p c.rest⟩ with
    | .done a _ => .done a stop
    | .failed e _ => .failed e stop
    | .misused m => .misused m⟩

def passNode : Walk Unit :=
  ⟨fun c =>
    match c.rest with
    | [] => .done () c
    | n :: rest => .done () ⟨c.settle.passed ++ n.text, none, rest⟩⟩

/-- Runs a reader on the nodes before the first that satisfies `p`, and passes over that one. -/
def untilAfter (p : Node → Bool) (r : Walk α) : Walk α := do
  let result ← attempt (untilBefore p r)
  passNode
  match result with
  | .ok a => pure a
  | .error e => fail e

def iterate (step : σ → Walk (σ ⊕ α)) : Nat → σ → Walk α
  | 0, _ => misuse .endless
  | rounds + 1, s => do
    match ← step s with
    | .inl s => iterate step rounds s
    | .inr a => pure a

/-- Repeats a step, at most once for every node and once for their end. -/
def loop (step : σ → Walk (σ ⊕ α)) (s : σ) : Walk α :=
  ⟨fun c => (iterate step (c.rest.length + 1) s).run c⟩

def restStep : Unit → Walk (Unit ⊕ Unit) := fun _ => do
  match ← attempt nextAny with
  | .ok _ => pure (.inl ())
  | .error _ => pure (.inr ())

def consumeRest : Walk Unit :=
  loop restStep ()

def trimmedFrom (start : Cursor) : Walk String := do
  consumeRest
  let source ← since start
  pure (String.ofList (Text.trim source))

def trimmedRest : Walk String := do
  skipTrivia
  let start ← here
  trimmedFrom start

def commaStep (r : Walk α) (done : List α) : Walk (List α ⊕ List α) := do
  let a ← untilBefore Node.isComma r
  match ← tryTo expectComma with
  | .ok _ => pure (.inl (done ++ [a]))
  | .error _ => pure (.inr (done ++ [a]))

def commaList (r : Walk α) : Walk (List α) :=
  loop (commaStep r) []

/-- A loop in which every round takes a node, and its end. -/
inductive Loops (step : σ → Walk (σ ⊕ α)) : σ → Cursor → Outcome α → Prop
  | stop {s : σ} {c c' : Cursor} {a : α} (last : (step s).run c = .done (.inr a) c') :
    Loops step s c (.done a c')
  | fail {s : σ} {c c' : Cursor} {e : Setback} (last : (step s).run c = .failed e c') :
    Loops step s c (.failed e c')
  | more {s s' : σ} {c c' : Cursor} {o : Outcome α} (round : (step s).run c = .done (.inl s') c')
    (less : c'.rest.length < c.rest.length) (later : Loops step s' c' o) : Loops step s c o

theorem Loops.run_iterate {step : σ → Walk (σ ⊕ α)} {s : σ} {c : Cursor} {o : Outcome α}
    (loops : Loops step s c o) {rounds : Nat} (enough : c.rest.length < rounds) :
    (iterate step rounds s).run c = o := by
  induction loops generalizing rounds with
  | stop last =>
    obtain ⟨rounds, rfl⟩ := Nat.exists_eq_add_one_of_ne_zero (by omega : rounds ≠ 0)
    rw [iterate, bind_done last, run_pure]
  | fail last =>
    obtain ⟨rounds, rfl⟩ := Nat.exists_eq_add_one_of_ne_zero (by omega : rounds ≠ 0)
    rw [iterate, bind_failed last]
  | more round less _ ih =>
    obtain ⟨rounds, rfl⟩ := Nat.exists_eq_add_one_of_ne_zero (by omega : rounds ≠ 0)
    rw [iterate, bind_done round]
    exact ih (by omega)

theorem Loops.run_loop {step : σ → Walk (σ ⊕ α)} {s : σ} {c : Cursor} {o : Outcome α}
    (loops : Loops step s c o) : (loop step s).run c = o :=
  loops.run_iterate (Nat.lt_succ_self _)

end Walk

/-- A node of at most `d` levels of blocks, in which every opening token opens a block. -/
inductive Node.Within : Nat → Node → Prop
  | leaf {d : Nat} {l : Lexeme} (plain : l.token.closing? = none) : Within d (leaf l)
  | block {d : Nat} {l : Lexeme} {body : List Node} {closing : Option Lexeme}
    (opens : l.token.closing?.isSome) (inner : ∀ n ∈ body, Within d n) :
    Within (d + 1) (block l body closing)

/-- Only blanks and comments are left. -/
def Cursor.Spent (c : Cursor) : Prop :=
  ∀ n ∈ c.rest, n.isTrivia

namespace Walk

variable {α β σ : Type} {c c' : Cursor} {q : List Char} {ns : List Node} {p : Node → Bool} {d : Nat}

theorem skip_all (place : c.settle = ⟨q, none, ns⟩) (all : ∀ n ∈ ns, p n) :
    c.skip p = ⟨q ++ textOf ns, none, []⟩ := by
  rw [Cursor.skip, place, Cursor.rest_eq place, List.takeWhile_eq_self_iff.2 all,
    List.dropWhile_eq_nil_iff.2 all]

theorem skip_lead {lead rest : List Node} {n : Node}
    (place : c.settle = ⟨q, none, lead ++ n :: rest⟩) (all : ∀ m ∈ lead, p m) (stop : p n = false) :
    c.skip p = ⟨q ++ textOf lead, none, n :: rest⟩ := by
  rw [Cursor.skip, place, Cursor.rest_eq place, List.takeWhile_append_of_pos all,
    List.dropWhile_append_of_pos all, List.takeWhile_cons_of_neg (by simp [stop]),
    List.dropWhile_cons_of_neg (by simp [stop]), List.append_nil]

theorem nextAfter_all (place : c.settle = ⟨q, none, ns⟩) (all : ∀ n ∈ ns, p n) :
    (nextAfter p).run c = .failed (.fault .endOfInput) ⟨q ++ textOf ns, none, []⟩ := by
  simp only [nextAfter, skip_all place all]

theorem nextAfter_lead {lead rest : List Node} {n : Node}
    (place : c.settle = ⟨q, none, lead ++ n :: rest⟩) (all : ∀ m ∈ lead, p m) (stop : p n = false) :
    (nextAfter p).run c = .done n.token (.enter (q ++ textOf lead) n rest) := by
  simp only [nextAfter, skip_lead place all stop]

theorem nextAfter_head {n : Node} {rest : List Node} (place : c.settle = ⟨q, none, n :: rest⟩)
    (stop : p n = false) : (nextAfter p).run c = .done n.token (.enter q n rest) := by
  rw [nextAfter_lead place (List.forall_mem_nil _) stop, textOf, List.append_nil]

theorem exists_lead (p : Node → Bool) (ns : List Node) :
    (∀ n ∈ ns, p n) ∨
      ∃ lead n rest, ns = lead ++ n :: rest ∧ (∀ m ∈ lead, p m) ∧ p n = false := by
  induction ns with
  | nil => exact .inl (by simp)
  | cons m ns ih =>
    cases taken : p m with
    | false => exact .inr ⟨[], m, ns, rfl, by simp, taken⟩
    | true =>
      rcases ih with all | ⟨lead, n, rest, rfl, all, stop⟩
      · exact .inl (by simpa [taken] using all)
      · exact .inr ⟨m :: lead, n, rest, rfl, by simpa [taken] using all, stop⟩

theorem suffix_lead {lead rest later : List Node} {n : Node} (suffix : later <:+ rest) :
    later <:+ lead ++ n :: rest :=
  (suffix.trans (List.suffix_cons n rest)).trans (List.suffix_append lead _)

theorem length_lt_lead {lead rest later : List Node} {n : Node} (suffix : later <:+ rest) :
    later.length < (lead ++ n :: rest).length := by
  have few := suffix.length_le
  rw [List.length_append, List.length_cons]
  omega

theorem lead_induction (p : Node → Bool) {motive : List Node → Prop}
    (all : ∀ ns, (∀ n ∈ ns, p n) → motive ns)
    (step : ∀ lead n rest, (∀ m ∈ lead, p m) → p n = false →
      (∀ ms, ms.length ≤ rest.length → motive ms) → motive (lead ++ n :: rest))
    (ns : List Node) : motive ns := by
  induction size : ns.length using Nat.strong_induction_on generalizing ns with
  | _ size' ih =>
    rcases exists_lead p ns with taken | ⟨lead, n, rest, rfl, taken, stop⟩
    · exact all ns taken
    · refine step lead n rest taken stop fun ms shorter => ih ms.length ?_ ms rfl
      rw [List.length_append, List.length_cons] at size
      omega

theorem exists_cut (p : Node → Bool) (ns : List Node) :
    (∀ n ∈ ns, p n = false) ∨
      ∃ front stop more, ns = front ++ stop :: more ∧ (∀ n ∈ front, p n = false) ∧ p stop := by
  rcases exists_lead (fun n => !p n) ns with kept | ⟨front, stop, more, whole, kept, stops⟩
  · exact .inl (by simpa using kept)
  · exact .inr ⟨front, stop, more, whole, by simpa using kept, by simpa using stops⟩

theorem isTrivia_of_significant (none : Node.significant ns = []) : ∀ n ∈ ns, n.isTrivia := by
  simpa [Node.significant] using none

theorem significant_lead {lead rest : List Node} {n : Node} (blank : ∀ m ∈ lead, m.isTrivia)
    (solid : n.isTrivia = false) :
    Node.significant (lead ++ n :: rest) = n :: Node.significant rest := by
  rw [Node.significant_append, Node.significant_eq_nil blank, Node.significant_cons solid,
    List.nil_append]

theorem next_cases (place : c.settle = ⟨q, none, ns⟩) :
    (Node.significant ns = [] ∧ c.Spent ∧
      next.run c = .failed (.fault .endOfInput) ⟨q ++ textOf ns, none, []⟩) ∨
    ∃ lead n rest, ns = lead ++ n :: rest ∧ (∀ m ∈ lead, m.isTrivia) ∧ n.isTrivia = false ∧
      Node.significant ns = n :: Node.significant rest ∧
      next.run c = .done n.token (.enter (q ++ textOf lead) n rest) := by
  rcases exists_lead Node.isTrivia ns with blank | ⟨lead, n, rest, rfl, blank, solid⟩
  · refine .inl ⟨Node.significant_eq_nil blank, ?_, nextAfter_all place blank⟩
    rwa [Cursor.Spent, Cursor.rest_eq place]
  · exact .inr ⟨lead, n, rest, rfl, blank, solid, significant_lead blank solid,
      nextAfter_lead place blank solid⟩

theorem exhausted_eq (c : Cursor) :
    exhausted.run c =
      match Node.significant c.rest with
      | [] => .done () c
      | n :: _ => .failed (.fault (.unexpectedToken n.token)) c := by
  rcases next_cases c.settle_eq with ⟨none, _, run⟩ | ⟨lead, n, rest, _, _, _, found, run⟩
  · simp only [exhausted, run, none]
  · simp only [exhausted, run, found]

theorem attempt_of {r : Walk α} {result : Except Setback α} (run : r.run c = .of result c') :
    (attempt r).run c = .done result c' := by
  cases result <;> simp only [attempt, run, Outcome.of]

theorem attempt_done {r : Walk α} {a : α} (run : r.run c = .done a c') :
    (attempt r).run c = .done (.ok a) c' :=
  attempt_of run

theorem attempt_failed {r : Walk α} {e : Setback} (run : r.run c = .failed e c') :
    (attempt r).run c = .done (.error e) c' :=
  attempt_of run

theorem isExhausted_true (none : Node.significant c.rest = []) :
    isExhausted.run c = .done true c := by
  have run := exhausted_eq c
  rw [none] at run
  rw [isExhausted, bind_done (attempt_done run)]
  rfl

theorem isExhausted_false {n : Node} (found : Node.significant c.rest = n :: ns) :
    isExhausted.run c = .done false c := by
  have run := exhausted_eq c
  rw [found] at run
  rw [isExhausted, bind_done (attempt_failed run)]
  rfl

theorem ident?_eq_some {t : Token} {name : String} : ident? t = some name ↔ t = .ident name := by
  cases t <;> simp [ident?]

theorem expect_eq {t : Token} (run : next.run c = .done t c') (accept : Token → Option α) :
    (expect accept).run c =
      match accept t with
      | some a => .done a c'
      | none => .failed (.fault (.unexpectedToken t)) c' := by
  rw [expect, bind_done run]
  cases accept t <;> rfl

theorem expect_end {e : Setback} (run : next.run c = .failed e c') (accept : Token → Option α) :
    (expect accept).run c = .failed e c' :=
  bind_failed run _

theorem expectComma_eq {n : Node} (run : next.run c = .done n.token c') :
    expectComma.run c =
      if n.isComma then .done () c' else .failed (.fault (.unexpectedToken n.token)) c' := by
  rw [expectComma, expect_eq run, Node.isComma]
  by_cases comma : n.token == .comma <;> simp [comma]

theorem toOption_orFail (e : Setback) (o : Option α) (c : Cursor) :
    ∃ result : Except Setback α, (orFail e o).run c = .of result c ∧ result.toOption = o := by
  cases o with
  | some a => exact ⟨.ok a, rfl, rfl⟩
  | none => exact ⟨.error e, rfl, rfl⟩

theorem tryTo_done {r : Walk α} {a : α} (run : r.run c = .done a c') :
    (tryTo r).run c = .done (.ok a) c' := by
  simp only [tryTo, run]

theorem tryTo_failed {r : Walk α} {e : Setback} (run : r.run c = .failed e c') :
    (tryTo r).run c = .done (.error e) c := by
  simp only [tryTo, run]

/-- A reader that comes to the end of the nodes unless it has a setback. -/
def Finishes (r : Walk α) (ns : List Node) (φ : Except Setback α → Prop) : Prop :=
  ∀ q, ∃ result c, r.run ⟨q, none, ns⟩ = .of result c ∧ (∀ a, result = .ok a → c.Spent) ∧ φ result

def Reads (r : Walk α) (ns : List Node) (φ : Except Setback α → Prop) : Prop :=
  ∀ q, ∃ result c, (entirely r).run ⟨q, none, ns⟩ = .of result c ∧ φ result

theorem entirely_eq {r : Walk α} {a : α} (run : r.run c = .done a c') :
    (entirely r).run c =
      match Node.significant c'.rest with
      | [] => .done a c'
      | n :: _ => .failed (.fault (.unexpectedToken n.token)) c' := by
  rw [entirely, bind_done run, run_bind, exhausted_eq]
  cases Node.significant c'.rest <;> rfl

theorem entirely_done {r : Walk α} {a : α} (run : r.run c = .done a c') (spent : c'.Spent) :
    (entirely r).run c = .done a c' := by
  rw [entirely_eq run, Node.significant_eq_nil spent]

theorem map_of {r : Walk α} {result : Except Setback α} (run : r.run c = .of result c')
    (f : α → β) : (f <$> r).run c = .of (result.map f) c' := by
  cases result with
  | ok a => exact bind_done run _
  | error e => exact bind_failed run _

theorem entirely_failed {r : Walk α} {e : Setback} (run : r.run c = .failed e c') :
    (entirely r).run c = .failed e c' := by
  rw [entirely, bind_failed run]

theorem entirely_bind {r : Walk α} {a : α} (run : r.run c = .done a c') (f : α → Walk β) :
    (entirely (r >>= f)).run c = (entirely (f a)).run c' := by
  rw [entirely, run_bind, bind_done run, entirely, run_bind]

theorem Finishes.reads {r : Walk α} {φ : Except Setback α → Prop} (finishes : Finishes r ns φ) :
    Reads r ns φ := by
  intro q
  obtain ⟨result, c, run, spent, holds⟩ := finishes q
  refine ⟨result, c, ?_, holds⟩
  cases result with
  | ok a => exact entirely_done run (spent a rfl)
  | error e => exact entirely_failed run

theorem Finishes.map {r : Walk α} {φ : Except Setback α → Prop} (finishes : Finishes r ns φ)
    (f : α → β) : Finishes (f <$> r) ns fun result => ∃ inner, φ inner ∧ result = inner.map f := by
  intro q
  obtain ⟨result, c, run, spent, holds⟩ := finishes q
  refine ⟨result.map f, c, map_of run f, ?_, result, holds, rfl⟩
  cases result with
  | ok a => exact fun _ _ => spent a rfl
  | error e => simp [Except.map]

theorem Finishes.toOption_map {r : Walk α} {o : Option α}
    (finishes : Finishes r ns (·.toOption = o)) (f : α → β) :
    Finishes (f <$> r) ns (·.toOption = o.map f) := by
  intro q
  obtain ⟨result, c, run, spent, inner, rfl, rfl⟩ := finishes.map f q
  exact ⟨_, c, run, spent, by cases inner <;> rfl⟩

theorem Finishes.orFail {r : Walk α} {o : Option α} (finishes : Finishes r ns (·.toOption = o))
    (e : Setback) (f : α → Option β) :
    Finishes (r >>= fun a => Walk.orFail e (f a)) ns (·.toOption = o.bind f) := by
  intro q
  obtain ⟨result, c, run, spent, rfl⟩ := finishes q
  cases result with
  | error e => exact ⟨.error e, c, bind_failed run _, by simp, rfl⟩
  | ok a =>
    obtain ⟨result, last, equal⟩ := toOption_orFail e (f a) c
    exact ⟨result, c, (bind_done run _).trans last, fun _ _ => spent a rfl, equal⟩

theorem Reads.imp {r : Walk α} {φ ψ : Except Setback α → Prop} (reads : Reads r ns φ)
    (imp : ∀ result, φ result → ψ result) : Reads r ns ψ := by
  intro q
  obtain ⟨result, c, run, holds⟩ := reads q
  exact ⟨result, c, run, imp result holds⟩

theorem Reads.map {r : Walk α} {φ : Except Setback α → Prop} (reads : Reads r ns φ) (f : α → β) :
    Reads (f <$> r) ns fun result => ∃ inner, φ inner ∧ result = inner.map f := by
  intro q
  obtain ⟨result, c, run, holds⟩ := reads q
  refine ⟨result.map f, c, ?_, result, holds, rfl⟩
  rw [← map_of run f]
  change ((r.run _).bind _).bind _ = ((r.run _).bind _).bind _
  cases r.run ⟨q, none, ns⟩ with
  | done a c =>
    change (exhausted.run c).bind _ = ((exhausted.run c).bind _).bind _
    cases exhausted.run c <;> rfl
  | failed e c => rfl
  | misused m => rfl

theorem Reads.nested {r : Walk α} {φ : Except Setback α → Prop} {l : Lexeme} {body : List Node}
    (reads : Reads r body φ) (closing : Option Lexeme) (q : List Char) (rest : List Node) :
    ∃ result, (nested r).run (.enter q (.block l body closing) rest) =
      .of result ⟨q ++ (Node.block l body closing).text, none, rest⟩ ∧ φ result := by
  obtain ⟨result, c, run, holds⟩ := reads (q ++ l.text)
  refine ⟨result, ?_, holds⟩
  have inside : (Cursor.enter q (.block l body closing) rest).passed = q ++ l.text := rfl
  cases result with
  | ok a =>
    simp only [Walk.nested, Cursor.settle_enter, inside, Outcome.of]
    simp only [Cursor.enter, Node.opened?, run, Outcome.of]
  | error e =>
    simp only [Walk.nested, Cursor.settle_enter, inside, Outcome.of]
    simp only [Cursor.enter, Node.opened?, run, Outcome.of]

theorem Reads.untilBefore {r : Walk α} {φ : Except Setback α → Prop}
    (reads : Reads r (Sketch.upTo p ns) φ) (q : List Char) :
    ∃ result, (untilBefore p r).run ⟨q, none, ns⟩ =
      .of result ⟨q ++ textOf (Sketch.upTo p ns), none, ns.dropWhile fun n => !p n⟩ ∧ φ result := by
  obtain ⟨result, c, run, holds⟩ := reads q
  refine ⟨result, ?_, holds⟩
  cases result with
  | ok a =>
    simp only [Walk.untilBefore, run, Outcome.of]
    rfl
  | error e =>
    simp only [Walk.untilBefore, run, Outcome.of]
    rfl

theorem Reads.untilBefore_all {r : Walk α} {φ : Except Setback α → Prop} (reads : Reads r ns φ)
    (kept : ∀ n ∈ ns, p n = false) (q : List Char) :
    ∃ result, (Walk.untilBefore p r).run ⟨q, none, ns⟩ = .of result ⟨q ++ textOf ns, none, []⟩ ∧
      φ result := by
  have all : ∀ n ∈ ns, (!p n) = true := by simpa using kept
  have whole : Sketch.upTo p ns = ns := List.takeWhile_eq_self_iff.2 all
  have run := Reads.untilBefore (p := p) (r := r) (φ := φ) (whole.symm ▸ reads) q
  rwa [whole, List.dropWhile_eq_nil_iff.2 all] at run

theorem Reads.untilBefore_cut {r : Walk α} {φ : Except Setback α → Prop} {front : List Node}
    {stop : Node} (reads : Reads r front φ) (kept : ∀ n ∈ front, p n = false) (stops : p stop)
    (q : List Char) (more : List Node) :
    ∃ result, (Walk.untilBefore p r).run ⟨q, none, front ++ stop :: more⟩ =
      .of result ⟨q ++ textOf front, none, stop :: more⟩ ∧ φ result := by
  have whole : Sketch.upTo p (front ++ stop :: more) = front := Sketch.upTo_cut kept stops more
  have run := Reads.untilBefore (p := p) (r := r) (φ := φ) (whole.symm ▸ reads) q
  rwa [whole, Sketch.dropWhile_cut kept stops more] at run

theorem enter_plain {n : Node} (within : n.Within d) (plain : n.token.closing? = none)
    (q : List Char) (rest : List Node) : Cursor.enter q n rest = ⟨q ++ n.text, none, rest⟩ := by
  cases within with
  | leaf => rfl
  | block opens _ =>
    rw [Node.token] at plain
    simp [plain] at opens

theorem exists_block {n : Node} (within : n.Within d) (opens : n.token.closing?.isSome) :
    ∃ e l body closing, d = e + 1 ∧ n = .block l body closing ∧ ∀ m ∈ body, m.Within e := by
  cases within with
  | leaf plain =>
    rw [Node.token, plain] at opens
    simp at opens
  | block _ inner => exact ⟨_, _, _, _, rfl, rfl, inner⟩

theorem consumeRest_eq (place : c.settle = ⟨q, none, ns⟩) :
    consumeRest.run c = .done () ⟨q ++ textOf ns, none, []⟩ := by
  apply Loops.run_loop
  induction ns generalizing c q with
  | nil =>
    have run := attempt_failed (nextAfter_all (p := fun _ => false) place (by simp))
    apply Loops.stop
    rw [restStep, nextAny, bind_done run, run_pure]
  | cons n ns ih =>
    have run := attempt_done (nextAfter_head (p := fun _ => false) place rfl)
    have round : (restStep ()).run c = .done (.inl ()) (.enter q n ns) := by
      rw [restStep, nextAny, bind_done run, run_pure]
    rw [textOf, ← List.append_assoc]
    exact .more round (by simp [Cursor.rest_eq place]) (ih (Cursor.settle_enter ..))

theorem consumeRest_finishes : Finishes consumeRest ns (· = .ok ()) := fun _ =>
  ⟨.ok (), _, consumeRest_eq rfl, by simp [Cursor.Spent], rfl⟩

theorem skipTrivia_eq (place : c.settle = ⟨q, none, ns⟩) :
    skipTrivia.run c =
      .done () ⟨q ++ textOf (ns.takeWhile Node.isTrivia), none, Node.dropTrivia ns⟩ := by
  simp only [skipTrivia, Cursor.skip, place, Cursor.rest_eq place, Node.dropTrivia]

theorem skipTrivia_cases (place : c.settle = ⟨q, none, ns⟩) :
    (Node.significant ns = [] ∧ skipTrivia.run c = .done () ⟨q ++ textOf ns, none, []⟩ ∧
      next.run ⟨q ++ textOf ns, none, []⟩ =
        .failed (.fault .endOfInput) ⟨q ++ textOf ns, none, []⟩) ∨
    ∃ lead n rest, ns = lead ++ n :: rest ∧ (∀ m ∈ lead, m.isTrivia) ∧ n.isTrivia = false ∧
      Node.significant ns = n :: Node.significant rest ∧
      skipTrivia.run c = .done () ⟨q ++ textOf lead, none, n :: rest⟩ ∧
      next.run ⟨q ++ textOf lead, none, n :: rest⟩ =
        .done n.token (.enter (q ++ textOf lead) n rest) := by
  rcases exists_lead Node.isTrivia ns with blank | ⟨lead, n, rest, rfl, blank, solid⟩
  · refine .inl ⟨Node.significant_eq_nil blank, ?_, ?_⟩
    · simp only [skipTrivia, skip_all place blank]
    · rw [next]
      simpa [textOf] using nextAfter_all (c := ⟨q ++ textOf ns, none, []⟩) rfl (by simp)
  · refine .inr ⟨lead, n, rest, rfl, blank, solid, significant_lead blank solid, ?_,
      nextAfter_head rfl solid⟩
    simp only [skipTrivia, skip_lead place blank solid]

theorem trimmedFrom_eq {start : Cursor} {text : List Char} (place : c.settle = ⟨q, none, ns⟩)
    (whole : q ++ textOf ns = start.passed ++ text) :
    (trimmedFrom start).run c =
      .done (String.ofList (Text.trim text)) ⟨start.passed ++ text, none, []⟩ := by
  rw [trimmedFrom, bind_done (consumeRest_eq place), whole, bind_done (by rfl), run_pure,
    Cursor.slice_append]

theorem trimmedRest_eq (place : c.settle = ⟨q, none, ns⟩) :
    ∃ q', trimmedRest.run c = .done (Node.trimmedText ns) ⟨q', none, []⟩ := by
  refine ⟨q ++ textOf (ns.takeWhile Node.isTrivia) ++ textOf (Node.dropTrivia ns), ?_⟩
  rw [trimmedRest, bind_done (skipTrivia_eq place), bind_done (by rfl)]
  exact trimmedFrom_eq rfl rfl

/-- The results of a reader on one part after the other, up to the first setback. -/
inductive Collects (φ : List Node → Except Setback α → Prop) :
    List (List Node) → Except Setback (List α) → Prop
  | nil : Collects φ [] (.ok [])
  | stop {ns : List Node} {parts : List (List Node)} {e : Setback} (holds : φ ns (.error e)) :
    Collects φ (ns :: parts) (.error e)
  | cons {ns : List Node} {parts : List (List Node)} {a : α} {result : Except Setback (List α)}
    (holds : φ ns (.ok a)) (later : Collects φ parts result) :
    Collects φ (ns :: parts) (result.map (a :: ·))

theorem Collects.mapError_mapM {f : List Node → Except Fault α} {parts : List (List Node)}
    {result : Except Setback (List α)}
    (collects : Collects (fun ns result => result = (f ns).mapError .fault) parts result) :
    result = (parts.mapM f).mapError .fault := by
  induction collects with
  | nil => rfl
  | @stop ns parts e holds =>
    cases read : f ns with
    | ok a => simp [read, Except.mapError] at holds
    | error fault =>
      have same : e = .fault fault := by simpa [read, Except.mapError] using holds
      rw [List.mapM_cons, read, same]
      rfl
  | @cons ns parts a result holds _ ih =>
    cases read : f ns with
    | error fault => simp [read, Except.mapError] at holds
    | ok a' =>
      have same : a = a' := by simpa [read, Except.mapError] using holds
      rw [List.mapM_cons, read, ih, same]
      cases parts.mapM f <;> rfl

theorem Collects.toOption_mapM {f : List Node → Option α} {parts : List (List Node)}
    {result : Except Setback (List α)}
    (collects : Collects (fun ns result => result.toOption = f ns) parts result) :
    result.toOption = parts.mapM f := by
  induction collects with
  | nil => rfl
  | stop holds => rw [List.mapM_cons, ← holds]; rfl
  | @cons ns parts a result holds _ ih =>
    rw [List.mapM_cons, ← holds, ← ih]
    cases result <;> rfl

theorem expectComma_comma {n : Node} (within : n.Within d) (comma : n.isComma) (q : List Char)
    (rest : List Node) :
    expectComma.run ⟨q, none, n :: rest⟩ = .done () ⟨q ++ n.text, none, rest⟩ := by
  have token : n.token = .comma := by simpa [Node.isComma] using comma
  have solid : n.isTrivia = false := by simp [Node.isTrivia, token, Token.isTrivia]
  have plain : n.token.closing? = none := by rw [token]; rfl
  have run := nextAfter_head (c := ⟨q, none, n :: rest⟩) rfl solid
  rw [expectComma, expect, next, bind_done run, enter_plain within plain, token]
  rfl

theorem expectComma_end (q : List Char) :
    expectComma.run ⟨q, none, []⟩ = .failed (.fault .endOfInput) ⟨q ++ textOf [], none, []⟩ := by
  have run := nextAfter_all (c := ⟨q, none, []⟩) (p := Node.isTrivia) rfl (by simp)
  rw [expectComma, expect, next, bind_failed run]

theorem commaList_eq {r : Walk α} {φ : List Node → Except Setback α → Prop}
    (within : ∀ n ∈ ns, n.Within d)
    (reads : ∀ part ∈ segments Node.isComma ns, Reads r part (φ part)) :
    Finishes (commaList r) ns (Collects φ (segments Node.isComma ns)) := by
  intro q
  suffices loops : ∀ done, ∃ result c,
      Loops (commaStep r) done ⟨q, none, ns⟩ (.of (result.map (done ++ ·)) c) ∧
        (∀ as, result = .ok as → c.Spent) ∧ Collects φ (segments Node.isComma ns) result by
    obtain ⟨result, c, loops, rest⟩ := loops []
    refine ⟨result, c, ?_, rest⟩
    rw [commaList, loops.run_loop]
    cases result <;> rfl
  induction ns using lead_induction (fun n => !n.isComma) generalizing q with
  | all ns kept =>
    intro done
    replace kept : ∀ n ∈ ns, n.isComma = false := by simpa using kept
    have alone : segments Node.isComma ns = [ns] := segments_of_forall kept
    obtain ⟨result, run, holds⟩ := (reads ns (by simp [alone])).untilBefore_all kept q
    rw [alone]
    cases result with
    | error e => exact ⟨.error e, _, .fail (bind_failed run _), by simp, .stop holds⟩
    | ok a =>
      have last := tryTo_failed (expectComma_end (q ++ textOf ns))
      refine ⟨.ok [a], ⟨q ++ textOf ns, none, []⟩, .stop ?_, fun _ _ => ?_, .cons holds .nil⟩
      · rw [commaStep, bind_done run, bind_done last, run_pure]
      · simp [Cursor.Spent]
  | step front comma more kept separates ih =>
    intro done
    replace kept : ∀ n ∈ front, n.isComma = false := by simpa using kept
    replace separates : comma.isComma := by simpa using separates
    have parts : segments Node.isComma (front ++ comma :: more) =
        front :: segments Node.isComma more := segments_cut kept separates more
    obtain ⟨result, run, holds⟩ :=
      (reads front (by simp [parts])).untilBefore_cut kept separates q more
    rw [parts]
    cases result with
    | error e => exact ⟨.error e, _, .fail (bind_failed run _), by simp, .stop holds⟩
    | ok a =>
      have taken := tryTo_done
        (expectComma_comma (within comma (by simp)) separates (q ++ textOf front) more)
      have round : (commaStep r done).run ⟨q, none, front ++ comma :: more⟩ =
          .done (.inl (done ++ [a])) ⟨q ++ textOf front ++ comma.text, none, more⟩ := by
        rw [commaStep, bind_done run, bind_done taken, run_pure]
      obtain ⟨result, c, loops, spent, collects⟩ :=
        ih more le_rfl (fun n later => within n (by simp [later]))
          (fun part later => reads part (by simp [parts, later]))
          (q ++ textOf front ++ comma.text) (done ++ [a])
      refine ⟨result.map (a :: ·), c, .more round (by simp; omega) ?_, ?_, .cons holds collects⟩
      · cases result <;> simpa [Except.map] using loops
      · cases result with
        | ok as => exact fun _ _ => spent as rfl
        | error e => simp [Except.map]

end Walk

end CssOutline
