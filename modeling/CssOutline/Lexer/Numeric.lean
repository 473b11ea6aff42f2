import CssOutline.Lexer.Name
import CssOutline.Token

/-!
Numeric tokens: an optional sign, digits, a fraction and an exponent, then a percent sign or a
unit. The value is built up in double precision digit by digit, in the order they are written,
and rounded to single precision at the end.
-/

namespace CssOutline.Lexer

open Number (Format)

/-- Whether a text starts with a digit, or with a point before a digit. -/
def startsDigits : List Char → Bool
  | '.' :: d :: _ => d.isDigit
  | c :: _ => c.isDigit
  | [] => false

def startsNumber : List Char → Bool
  | '+' :: cs => startsDigits cs
  | '-' :: cs => startsDigits cs
  | cs => startsDigits cs

/-- The digits after a point, if any stand there. -/
def fraction? : List Char → Option (List Char) × List Char
  | '.' :: cs =>
    match cs.takeWhile Char.isDigit with
    | [] => (none, '.' :: cs)
    | ds => (some ds, cs.dropWhile Char.isDigit)
  | cs => (none, cs)

/-- The exponent after its mark, if digits stand there. -/
def exponent? : List Char → Option Int × List Char
  | [] => (none, [])
  | c :: cs =>
    if c = 'e' ∨ c = 'E' then
      match (Number.takeSign cs).2.takeWhile Char.isDigit with
      | [] => (none, c :: cs)
      | ds =>
        (some (Number.signed (Number.takeSign cs).1 (Number.ofDigits ds)),
          (Number.takeSign cs).2.dropWhile Char.isDigit)
    else (none, c :: cs)

def digit (c : Char) : Number :=
  Format.double.ofNat (c.toNat - 48)

def ten : Number := Format.double.ofNat 10

def tenth : Number := Format.double.ofRatio false 1 10

def wholeValue (ds : List Char) : Number :=
  ds.foldl (fun x c => (x.mul .double ten).add .double (digit c)) (Format.double.ofNat 0)

def fractionValue (ds : List Char) : Number :=
  (ds.foldl
    (fun (x, factor) c =>
      (x.add .double ((digit c).mul .double factor), factor.mul .double tenth))
    (Format.double.ofNat 0, tenth)).1

def writtenValue (negative : Bool) (whole : List Char) (fraction : Option (List Char))
    (exponent : Option Int) : Number :=
  let magnitude := (wholeValue whole).add .double (fractionValue (fraction.getD []))
  let value := if negative then magnitude.neg else magnitude
  match exponent with
  | none => value
  | some k => value.mul .double (Format.double.powerOfTen k)

def cutInteger (i : Int) : Int :=
  max (-0x80000000) (min i 0x7fffffff)

/-- The numeric token at the front of a text that starts with a number. -/
def numericToken (cs : List Char) : Token × List Char :=
  let (negative, unsigned) := Number.takeSign cs
  let whole := unsigned.takeWhile Char.isDigit
  let (fraction, afterFraction) := fraction? (unsigned.dropWhile Char.isDigit)
  let (exponent, rest) := exponent? afterFraction
  let value := writtenValue negative whole fraction exponent
  let integer :=
    if fraction.isNone && exponent.isNone then
      some (cutInteger (Number.signed negative (Number.ofDigits whole)))
    else none
  let numeric (x : Number) : Numeric :=
    ⟨Format.single.ofNumber x, integer, unsigned.length != cs.length⟩
  match rest with
  | '%' :: after => (.percentage (numeric (value.div .double (Format.double.ofNat 100))), after)
  | _ =>
    if startsName rest then
      (.dimension (numeric value) (String.ofList (name rest).1), (name rest).2)
    else (.number (numeric value), rest)

theorem takeSign_suffix (cs : List Char) : (Number.takeSign cs).2 <:+ cs := by
  unfold Number.takeSign
  split
  · exact List.suffix_cons _ _
  · exact List.suffix_cons _ _
  · exact List.suffix_refl _

theorem fraction?_suffix (cs : List Char) : (fraction? cs).2 <:+ cs := by
  unfold fraction?
  split
  · split
    · exact List.suffix_refl _
    · exact (List.dropWhile_suffix _).trans (List.suffix_cons _ _)
  · exact List.suffix_refl _

theorem exponent?_suffix (cs : List Char) : (exponent? cs).2 <:+ cs := by
  unfold exponent?
  split
  · exact List.suffix_refl _
  · split
    · split
      · exact List.suffix_refl _
      · exact ((List.dropWhile_suffix _).trans (takeSign_suffix _)).trans (List.suffix_cons _ _)
    · exact List.suffix_refl _

theorem fraction?_dropWhile_suffix_tail {c : Char} {rest : List Char}
    (h : startsDigits (c :: rest)) :
    (fraction? ((c :: rest).dropWhile Char.isDigit)).2 <:+ rest := by
  by_cases digit : c.isDigit
  · rw [List.dropWhile_cons_of_pos digit]
    exact (fraction?_suffix _).trans (List.dropWhile_suffix _)
  · rw [List.dropWhile_cons_of_neg (by simpa using digit)]
    unfold startsDigits at h
    split at h
    · rename_i d tail eq
      simp only [List.cons.injEq] at eq
      obtain ⟨rfl, rfl⟩ := eq
      simp only [fraction?, List.takeWhile_cons_of_pos h]
      exact List.dropWhile_suffix _
    · simp_all
    · simp at h

theorem numericToken_suffix_tail {c : Char} {rest : List Char} (h : startsNumber (c :: rest)) :
    (numericToken (c :: rest)).2 <:+ rest := by
  have start : (fraction? ((Number.takeSign (c :: rest)).2.dropWhile Char.isDigit)).2 <:+ rest := by
    unfold startsNumber at h
    split at h
    · rename_i tail eq
      simp only [List.cons.injEq] at eq
      obtain ⟨rfl, rfl⟩ := eq
      exact (fraction?_suffix _).trans (List.dropWhile_suffix _)
    · rename_i tail eq
      simp only [List.cons.injEq] at eq
      obtain ⟨rfl, rfl⟩ := eq
      exact (fraction?_suffix _).trans (List.dropWhile_suffix _)
    · rename_i plus minus
      have same : (Number.takeSign (c :: rest)).2 = c :: rest := by
        unfold Number.takeSign
        split <;> simp_all
      rw [same]
      exact fraction?_dropWhile_suffix_tail h
  have number := (exponent?_suffix _).trans start
  unfold numericToken
  simp only
  split
  · rename_i after eq
    exact (eq ▸ List.suffix_cons _ _ : after <:+ _).trans number
  · split
    · exact (name_suffix _).trans number
    · exact number

end CssOutline.Lexer
