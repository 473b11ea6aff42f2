import CssOutline.Math.Reader
import CssOutline.Proofs.Lines
import Mathlib.Algebra.Field.Rat
import Mathlib.Tactic.Ring

/-! What a text denotes as a math expression. Units, percent signs and functions stand for anything,
numbers for the decimals that they are written as. Products bind tighter than sums, both from left to
right, and parentheses group, as does a call of `sum`. Blanks, comments and closing parentheses that
are missing at the end of a text change nothing. -/

namespace CssOutline

/-- The exact value of the decimal at the front of a text. -/
def Lexer.decimal (cs : List Char) : ℚ :=
  let (negative, unsigned) := Number.takeSign cs
  let whole := unsigned.takeWhile Char.isDigit
  let (fraction, after) := fraction? (unsigned.dropWhile Char.isDigit)
  let places : Int := (fraction.getD []).length
  let exponent : Int := (exponent? after).1.getD 0
  Number.signed negative (Number.ofDigits (whole ++ fraction.getD [])) * 10 ^ (exponent - places)

/-- What a function is called with: a keyword, such as a rounding strategy, or a quantity. -/
inductive Operand where
  | keyword (name : String)
  | quantity (value : ℚ)

/-- What units, percent signs and functions stand for. Functions get their names in lower case. -/
structure Meaning where
  unit : String → ℚ
  percent : ℚ
  call : String → List Operand → ℚ

/-- A token of an expression, and the quantity that begins with it if there is one. -/
structure Reading where
  token : Token
  quantity : Option ℚ

namespace Reading

def sumFrom (total product : ℚ) : List Reading → Option ℚ
  | [] => some (total + product)
  | [_] => none
  | operator :: r :: rs => do
    let q ← r.quantity
    match operator.token with
    | .delim '*' => sumFrom total (product * q) rs
    | .delim '+' => sumFrom (total + product) q rs
    | .delim '-' => sumFrom (total + product) (-q) rs
    | _ => none

def sum? : List Reading → Option ℚ
  | [] => none
  | r :: rs => do
    let q ← r.quantity
    sumFrom 0 q rs

def argument? (rs : List Reading) : Option Operand :=
  match sum? rs, rs with
  | some q, _ => some (.quantity q)
  | none, [⟨.ident name, _⟩] => some (.keyword name)
  | none, _ => none

theorem argument?_of_sum? {rs : List Reading} {q : ℚ} (sum : sum? rs = some q) :
    argument? rs = some (.quantity q) := by
  unfold argument?
  rw [sum]

def arguments? (rs : List Reading) : Option (List Operand) :=
  (segments (fun r => r.token == .comma) rs).mapM argument?

inductive Product : List Reading → ℚ → Prop
  | single {r : Reading} {q : ℚ} (quantity : r.quantity = some q) (other : r.token ≠ .comma) :
    Product [r] q
  | times {r s : Reading} {rs : List Reading} {p q : ℚ} (quantity : r.quantity = some p)
    (other : r.token ≠ .comma) (star : s.token = .delim '*') (later : Product rs q) :
    Product (r :: s :: rs) (p * q)

namespace Product

variable {rs ss : List Reading} {s : Reading} {p q : ℚ}

theorem append (first : Product rs p) (star : s.token = .delim '*') (second : Product ss q) :
    Product (rs ++ s :: ss) (p * q) := by
  induction first with
  | single quantity other => exact .times quantity other star second
  | times quantity other first later ih =>
    rw [mul_assoc]
    exact .times quantity other first ih

theorem sumFrom_star (product : Product rs q) (star : s.token = .delim '*') (total front : ℚ) :
    sumFrom total front (s :: rs) = some (total + front * q) := by
  induction product generalizing s front with
  | single quantity => simp [sumFrom, quantity, star]
  | times quantity _ next later ih =>
    rw [sumFrom, quantity, star]
    simp only [Option.bind_eq_bind, Option.bind_some]
    rw [ih next, mul_assoc]

theorem sum?_eq (product : Product rs q) : sum? rs = some q := by
  cases product with
  | single quantity => simp [sum?, quantity, sumFrom]
  | times quantity _ star later =>
    rw [sum?, quantity]
    simp only [Option.bind_eq_bind, Option.bind_some]
    rw [later.sumFrom_star star, zero_add]

theorem argument?_eq (product : Product rs q) : argument? rs = some (.quantity q) :=
  argument?_of_sum? product.sum?_eq

theorem other (product : Product rs q) : ∀ r ∈ rs, (r.token == .comma) = false := by
  induction product with
  | single _ other => simpa using other
  | times _ other star _ ih =>
    intro r member
    rcases List.mem_cons.1 member with rfl | member
    · simpa using other
    · rcases List.mem_cons.1 member with rfl | member
      · rw [star]
        rfl
      · exact ih r member

end Product

end Reading

namespace Meaning

open Node (Frame finish build)

variable (M : Meaning)

def lexeme? (l : Lexeme) : Option ℚ :=
  match l.token with
  | .number _ => some (Lexer.decimal l.text)
  | .percentage _ => some (Lexer.decimal l.text * M.percent)
  | .dimension _ unit => some (Lexer.decimal l.text * M.unit unit)
  | _ => none

mutual

def quantity? : Node → Option ℚ
  | .leaf l => M.lexeme? l
  | .block l body _ =>
    match l.token with
    | .openParen => Reading.sum? (readings body)
    | .function name =>
      if Text.sameName name "sum" then Reading.sum? (readings body)
      else (Reading.arguments? (readings body)).map (M.call name.toLower)
    | _ => none

def readings : List Node → List Reading
  | [] => []
  | n :: ns => if n.isTrivia then readings ns else ⟨n.token, quantity? n⟩ :: readings ns

end

def ofText? (cs : List Char) : Option ℚ :=
  Reading.sum? (M.readings (Node.ofText cs))

example : ofText? ⟨fun _ => 3, 1 / 100, fun _ _ => 0⟩ "1px - 2 * (3 - 50%)".toList = some (-2) := by
  decide +kernel

theorem readings_append (ns ms : List Node) :
    M.readings (ns ++ ms) = M.readings ns ++ M.readings ms := by
  induction ns with
  | nil => rfl
  | cons n ns ih =>
    rw [List.cons_append, readings, readings]
    split
    · exact ih
    · rw [ih, List.cons_append]

theorem readings_of_trivia {ns : List Node} (trivia : ∀ n ∈ ns, n.isTrivia) :
    M.readings ns = [] := by
  induction ns with
  | nil => rfl
  | cons n ns ih =>
    rw [readings, if_pos (trivia n (by simp)), ih fun m member => trivia m (by simp [member])]

theorem readings_single {n : Node} (solid : n.isTrivia = false) :
    M.readings [n] = [⟨n.token, M.quantity? n⟩] := by
  rw [readings, if_neg (by simp [solid]), readings]

theorem token_ne_comma {n : Node} {q : ℚ} (quantity : M.quantity? n = some q) :
    n.token ≠ .comma := by
  intro comma
  cases n with
  | leaf l =>
    have token : l.token = .comma := comma
    simp [quantity?, lexeme?, token] at quantity
  | block l body closing =>
    have token : l.token = .comma := comma
    simp [quantity?, token] at quantity

theorem quantity?_ident {n : Node} {name : String} (token : n.token = .ident name) :
    M.quantity? n = none := by
  cases n with
  | leaf l =>
    have token : l.token = .ident name := token
    simp [quantity?, lexeme?, token]
  | block l body closing =>
    have token : l.token = .ident name := token
    simp [quantity?, token]

section Places

mutual

theorem quantity?_unplaced : (n : Node) → M.quantity? n.unplaced = M.quantity? n
  | .leaf l => rfl
  | .block l body closing => by
    have inner := readings_unplacedAll body
    simp only [Node.unplaced, quantity?, inner]
    rfl

theorem readings_unplacedAll : (ns : List Node) →
    M.readings (Node.unplacedAll ns) = M.readings ns
  | [] => rfl
  | n :: ns => by
    have first := quantity?_unplaced n
    have later := readings_unplacedAll ns
    simp only [Node.unplacedAll, readings, Node.isTrivia_unplaced, Node.token_unplaced, first, later]

end

theorem readings_unplaced (ns : List Node) : M.readings (ns.map Node.unplaced) = M.readings ns := by
  rw [← Node.unplacedAll_eq_map, readings_unplacedAll]

theorem readings_ofText (cs : List Char) : M.readings (Node.ofText cs) = M.readings (Node.plain cs) := by
  rw [← Node.unplaced_ofText, readings_unplaced]

end Places

section Ends

variable {M} {stack : List Frame} {siblings others : List Node}

theorem quantity?_block {l : Lexeme} {body inside : List Node}
    (same : M.readings body = M.readings inside) (closing other : Option Lexeme) :
    M.quantity? (.block l body closing) = M.quantity? (.block l inside other) := by
  simp only [quantity?, same]

theorem readings_cons_block {l : Lexeme} {body inside : List Node}
    (same : M.readings body = M.readings inside) (closing other : Option Lexeme)
    (ns : List Node) :
    M.readings (.block l body closing :: ns) = M.readings (.block l inside other :: ns) := by
  rw [readings, readings, quantity?_block same closing other]
  rfl

theorem readings_finish (same : M.readings siblings.reverse = M.readings others.reverse) :
    M.readings (finish stack siblings) = M.readings (finish stack others) := by
  induction stack generalizing siblings others with
  | nil => exact same
  | cons f stack ih =>
    rw [finish, finish]
    apply ih
    rw [List.reverse_cons, List.reverse_cons, readings_append, readings_append,
      readings_cons_block same none none]

theorem readings_build_trivia {l : Lexeme} (trivia : l.token.isTrivia) (ls : List Lexeme) :
    M.readings (build stack siblings (ls ++ [l])) = M.readings (build stack siblings ls) := by
  have flat : l.token.closing? = none ∧ ∀ u : Token, u.closing? ≠ some l.token := by
    cases token : l.token <;> simp [token, Token.isTrivia] at trivia <;>
      exact ⟨rfl, fun u => by cases u <;> simp [Token.closing?]⟩
  fun_induction build stack siblings ls with
  | case1 stack siblings =>
    have nothing : M.readings [.leaf l] = [] :=
      readings_of_trivia M (by simpa [Node.isTrivia, Node.token] using trivia)
    rw [List.nil_append, Node.build_leaf flat.1 fun f _ => flat.2 _, Node.build_nil]
    apply readings_finish
    rw [List.reverse_cons, readings_append, nothing, List.append_nil]
  | case2 stack siblings l' ls opening ih =>
    rw [List.cons_append, Node.build_open opening, ih]
  | case3 siblings l' ls plain f outer closing ih =>
    rw [List.cons_append, Node.build_close (by simpa using plain) closing, ih]
  | case4 siblings l' ls plain f outer closing ih =>
    rw [List.cons_append, Node.build_leaf (by simpa using plain) (by simpa using closing), ih]
  | case5 siblings l' ls plain ih =>
    rw [List.cons_append, Node.build_leaf (by simpa using plain) (by simp), ih]

def OnlyParens (stack : List Frame) : Prop :=
  ∀ f ∈ stack, f.opening.token.closing? = some .closeParen

theorem readings_build_closers (parens : OnlyParens stack) {j : Nat} (few : j ≤ stack.length) :
    M.readings (build stack siblings (Lexer.plain (List.replicate j ')'))) =
      M.readings (finish stack siblings) := by
  induction j generalizing stack siblings with
  | zero => rw [List.replicate_zero, Lexer.plain_nil, Node.build_nil]
  | succ j ih =>
    obtain _ | ⟨f, stack⟩ := stack
    · simp at few
    have closing : Lexer.plain (')' :: List.replicate j ')') =
        ⟨.closeParen, [')'], .origin⟩ :: Lexer.plain (List.replicate j ')') :=
      Lexer.plain_single rfl
    rw [List.replicate_succ, closing, Node.build_close rfl (parens f (by simp)),
      ih (fun f' member => parens f' (by simp [member])) (by simpa using few), finish]
    apply readings_finish
    rw [List.reverse_cons, List.reverse_cons, readings_append, readings_append,
      readings_cons_block rfl _ none]

end Ends

end Meaning

end CssOutline
