import CssOutline.Number.Decimal

/-!
Numbers in JSON text. Whole numbers within 64 bits are kept exactly. Every other one is a
double-precision number reached from its leading digits: digits are collected while they fit
into 64 bits, the rest only moves the exponent, and the collected integer is scaled by one
rounded power of ten. A number that grows beyond the format is not read.
-/

namespace CssOutline.Json

inductive Numeral where
  | natural (n : Nat)
  | negative (n : Nat)
  | float (x : Number)
deriving DecidableEq, Repr

namespace Numeral

/-- The decimal text of the number. -/
def text : Numeral → String
  | natural n => Number.digitsText n
  | negative n => "-" ++ Number.digitsText n
  | float x => x.text .double

/-- The parts of a written number: its sign, the digits before and after the point, and the
exponent. -/
structure Written where
  negative : Bool
  whole : List Char
  fraction : Option (List Char)
  exponent : Option Int

def limit : Nat := 0xffffffffffffffff

def collect (n count : Nat) : List Char → Nat × Nat × List Char
  | [] => (n, count, [])
  | c :: cs =>
    let next := 10 * n + (c.toNat - 48)
    if next ≤ limit then collect next (count + 1) cs else (n, count, c :: cs)

def scaleDown (x : Number) (k : Nat) : Number :=
  if k ≤ 308 then x.div .double (Number.Format.double.powerOfTen k)
  else if x.isZero then x
  else scaleDown (x.div .double (Number.Format.double.powerOfTen 308)) (k - 308)
termination_by k

def scale (n : Nat) (k : Int) : Option Number :=
  let x := Number.Format.double.ofNat n
  if k < 0 then some (scaleDown x k.natAbs)
  else if 308 < k then
    if x.isZero then some x else none
  else
    match x.mul .double (Number.Format.double.powerOfTen k) with
    | .infinite _ => none
    | y => some y

def ofWritten (w : Written) : Option Numeral :=
  let (n, _, left) := collect 0 0 w.whole
  let float (n : Nat) (k : Int) : Option Numeral :=
    (scale n k).map fun x => .float (if w.negative then x.neg else x)
  match w.fraction, w.exponent with
  | none, none =>
    if left ≠ [] then float n left.length
    else if !w.negative then some (.natural n)
    else if n = 0 ∨ 0x8000000000000000 < n then float n 0
    else some (.negative n)
  | fraction, exponent =>
    let (n, count, _) := collect n 0 (fraction.getD [])
    float n (exponent.getD 0 + left.length - count)

end Numeral

end CssOutline.Json
