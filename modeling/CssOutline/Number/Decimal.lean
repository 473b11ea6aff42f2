import CssOutline.Number

/-!
Decimal text of numbers. A finite number is written with the fewest digits that read back to it
in its format, the nearest such decimal if there are several; style sheet tokens keep at most
six of these digits. Reading a decimal rounds it once.
-/

namespace CssOutline.Number

structure Decimal where
  digits : Nat
  exponent : Int
deriving DecidableEq, Repr

/-- The numbers that round to `m * 2 ^ e` reach up to half a unit of the last place on both
sides, a quarter below a significand where the exponent changes; the ends belong to them when
`m` is even. On the grid of multiples of `10 ^ k` this gives the point nearest to the number
among those that read back, the greater of two. -/
def gridPoint? (f : Format) (m : Nat) (e : Int) (k : Int) : Option Nat :=
  let unit := Nat.pow 2 (2 - e).toNat * Nat.pow 10 k.toNat
  let factor := Nat.pow 2 (e - 2).toNat * Nat.pow 10 (-k).toNat
  let below := if m = Nat.pow 2 (f.precision - 1) ∧ f.least < e then 1 else 2
  let value := 4 * m * factor
  let low := (4 * m - below) * factor
  let high := (4 * m + 2) * factor
  let readsBack (c : Nat) : Bool :=
    if m % 2 = 0 then low ≤ c * unit && c * unit ≤ high
    else low < c * unit && c * unit < high
  let floor := value / unit
  let ceiling := floor + 1
  match readsBack floor, readsBack ceiling with
  | true, true =>
    if ceiling * unit - value ≤ value - floor * unit then some ceiling else some floor
  | true, false => some floor
  | false, true => some ceiling
  | false, false => none

def shortestFrom (f : Format) (m : Nat) (e : Int) : Nat → Int → Decimal
  | 0, k =>
    ⟨m * Nat.pow 2 e.toNat * Nat.pow 10 (-k).toNat / (Nat.pow 2 (-e).toNat * Nat.pow 10 k.toNat), k⟩
  | steps + 1, k =>
    match gridPoint? f m e k with
    | some c => ⟨c, k⟩
    | none => shortestFrom f m e steps (k - 1)

/-- The shortest decimal that reads back to `m * 2 ^ e`. A number below `2 ^ (l + 1)` is below
`10 ^ k` for the first `k` tried, and twenty grids below it one has a point. -/
def shortest (f : Format) (m : Nat) (e : Int) : Decimal :=
  let l : Int := m.log2 + e
  shortestFrom f m e 20 (((l + 1) * 30103).fdiv 100000 + 1)

def digitsText (n : Nat) : String :=
  String.ofList (Nat.toDigits 10 n)

def zeros (n : Nat) : String :=
  String.ofList (List.replicate n '0')

def Decimal.plain (d : Decimal) : String :=
  if 0 ≤ d.exponent then digitsText d.digits ++ zeros d.exponent.toNat
  else
    let places := (-d.exponent).toNat
    let ds := Nat.toDigits 10 d.digits
    if ds.length ≤ places then "0." ++ zeros (places - ds.length) ++ digitsText d.digits
    else
      String.ofList (ds.take (ds.length - places)) ++ "." ++
        String.ofList (ds.drop (ds.length - places))

def sign (negative : Bool) : String :=
  if negative then "-" else ""

def text (f : Format) : Number → String
  | .nan => "NaN"
  | .infinite s => sign s ++ "inf"
  | .finite s m e =>
    if m = 0 then sign s ++ "0" else sign s ++ (shortest f m e).plain

def format (x : Number) : String :=
  if x.isZero then "0" else x.text .single

def Decimal.sixDigits (d : Decimal) : Decimal :=
  let n := (Nat.toDigits 10 d.digits).length
  if n ≤ 6 then d
  else ⟨(d.digits + 5 * Nat.pow 10 (n - 7)) / Nat.pow 10 (n - 6), d.exponent + (n - 6 : Nat)⟩

def Decimal.strip : Nat → Decimal → Decimal
  | 0, d => d
  | steps + 1, d =>
    if d.digits % 10 = 0 then strip steps ⟨d.digits / 10, d.exponent + 1⟩ else d

def Decimal.scientific (d : Decimal) : String :=
  let ds := Nat.toDigits 10 d.digits
  let exponent := d.exponent + (ds.length - 1 : Nat)
  let mantissa :=
    match ds with
    | [] => ""
    | [c] => String.ofList [c]
    | c :: rest => String.ofList (c :: '.' :: rest)
  mantissa ++ "e" ++ (if exponent < 0 then "-" else "") ++ digitsText exponent.natAbs

/-- The value of a numeric token in six digits: plain from `1e-6` up to `1e21`, scientific
outside. The flag says whether a point or an exponent was written. -/
def short : Number → String × Bool
  | .nan => ("5.10424e38", true)
  | .infinite s => (sign s ++ "3.40282e38", true)
  | .finite s m e =>
    if m = 0 then (sign s ++ "0", false)
    else
      let full := shortest .single m e
      let places : Int := (Nat.toDigits 10 full.digits).length + full.exponent
      let d := full.sixDigits.strip 7
      if -6 < places ∧ places ≤ 21 then (sign s ++ d.plain, decide (d.exponent < 0))
      else (sign s ++ d.scientific, true)

/-- The number nearest to `digits * 10 ^ exponent`. Exponents far outside every format are cut
so that no power of ten grows beyond what decides the result. -/
def Format.ofDecimal (f : Format) (negative : Bool) (digits : Nat) (exponent : Int) : Number :=
  let size : Int := (Nat.toDigits 10 digits).length
  if digits = 0 ∨ exponent + size < -400 then f.ofRatio negative 0 1
  else if 400 < exponent + size then .infinite negative
  else f.ofRatio negative (digits * Nat.pow 10 exponent.toNat) (Nat.pow 10 (-exponent).toNat)

def ofDigits (cs : List Char) : Nat :=
  cs.foldl (fun n c => 10 * n + (c.toNat - 48)) 0

def takeSign : List Char → Bool × List Char
  | '-' :: cs => (true, cs)
  | '+' :: cs => (false, cs)
  | cs => (false, cs)

theorem length_takeSign_le (cs : List Char) : (takeSign cs).2.length ≤ cs.length := by
  unfold takeSign
  split <;> simp

/-- Reads a decimal with optional sign, fraction and exponent, or a special value. -/
def parse? (f : Format) (s : String) : Option Number :=
  let (negative, cs) := takeSign s.toList
  if cs = ['N', 'a', 'N'] then some .nan
  else if cs = ['i', 'n', 'f'] then some (.infinite negative)
  else
    let whole := cs.takeWhile Char.isDigit
    let (fraction, rest) :=
      match cs.dropWhile Char.isDigit with
      | '.' :: r => (r.takeWhile Char.isDigit, r.dropWhile Char.isDigit)
      | r => ([], r)
    let exponent? : Option Int :=
      match rest with
      | [] => some 0
      | mark :: r =>
        let (minus, ds) := takeSign r
        if (mark = 'e' ∨ mark = 'E') ∧ ds ≠ [] ∧ ds.all Char.isDigit then
          some (signed minus (ofDigits ds))
        else none
    if whole = [] ∧ fraction = [] then none
    else
      exponent?.map fun k =>
        f.ofDecimal negative (ofDigits (whole ++ fraction)) (k - fraction.length)

end CssOutline.Number
