/-!
Binary floating-point numbers as exact values. A number is a signed integer times a power of
two, or one of the special values; a format says which of them it holds, and every operation
is the exact result rounded to the nearest number of a format, ties to the even significand.
-/

namespace CssOutline

inductive Number where
  | nan
  | infinite (negative : Bool)
  /-- The value `significand * 2 ^ exponent`, with its sign. -/
  | finite (negative : Bool) (significand : Nat) (exponent : Int)
deriving DecidableEq, Repr

namespace Number

/-- A format holds the values `m * 2 ^ e` below `2 ^ bound` with `m < 2 ^ precision` and
`least ≤ e`. -/
structure Format where
  precision : Nat
  least : Int
  bound : Int

def Format.single : Format := ⟨24, -149, 128⟩

def Format.double : Format := ⟨53, -1074, 1024⟩

/-- The integer nearest to `num / den`, a half going to the even one. -/
def nearest (num den : Nat) : Nat :=
  let q := num / den
  let r := num % den
  if 2 * r > den ∨ (2 * r = den ∧ q % 2 = 1) then q + 1 else q

def scaled (num den : Nat) (e : Int) : Nat × Nat :=
  (num * Nat.pow 2 e.toNat, den * Nat.pow 2 (-e).toNat)

def magnitude (num den : Nat) : Int :=
  let k : Int := (num.log2 : Int) - den.log2
  let (n, d) := scaled num den (-k)
  if d ≤ n then k else k - 1

/-- The number of the format nearest to `num / den`. Significands use the whole precision
unless the exponent is the least one. -/
def Format.ofRatio (f : Format) (negative : Bool) (num den : Nat) : Number :=
  if num = 0 then .finite negative 0 f.least
  else
    let e := max (magnitude num den - (f.precision - 1)) f.least
    let (n, d) := scaled num den (-e)
    let m := nearest n d
    let (m, e) := if m = Nat.pow 2 f.precision then (m / 2, e + 1) else (m, e)
    if f.bound ≤ m.log2 + e then .infinite negative else .finite negative m e

def Format.ofNat (f : Format) (n : Nat) : Number :=
  f.ofRatio false n 1

def Format.ofInt (f : Format) (i : Int) : Number :=
  f.ofRatio (decide (i < 0)) i.natAbs 1

def Format.ofNumber (f : Format) : Number → Number
  | .finite s m e =>
    let (n, d) := scaled m 1 e
    f.ofRatio s n d
  | x => x

/-- The power of ten, rounded. Beyond `10 ^ ±400` every format here holds only infinity or
zero, so the exponent is cut there. -/
def Format.powerOfTen (f : Format) (k : Int) : Number :=
  let k := max (-400) (min k 400)
  f.ofRatio false (Nat.pow 10 k.toNat) (Nat.pow 10 (-k).toNat)

def signed (negative : Bool) (n : Nat) : Int :=
  if negative then -(n : Int) else n

def add (f : Format) : Number → Number → Number
  | .nan, _ => .nan
  | _, .nan => .nan
  | .infinite s, .infinite t => if s = t then .infinite s else .nan
  | .infinite s, _ => .infinite s
  | _, .infinite t => .infinite t
  | .finite s m e, .finite t n k =>
    let low := min e k
    let sum := signed s (m * Nat.pow 2 (e - low).toNat) + signed t (n * Nat.pow 2 (k - low).toNat)
    if sum = 0 then .finite (s && t) 0 f.least
    else
      let (num, den) := scaled sum.natAbs 1 low
      f.ofRatio (decide (sum < 0)) num den

def mul (f : Format) : Number → Number → Number
  | .nan, _ => .nan
  | _, .nan => .nan
  | .infinite s, .infinite t => .infinite (s != t)
  | .infinite s, .finite t n _ => if n = 0 then .nan else .infinite (s != t)
  | .finite s m _, .infinite t => if m = 0 then .nan else .infinite (s != t)
  | .finite s m e, .finite t n k =>
    let (num, den) := scaled (m * n) 1 (e + k)
    f.ofRatio (s != t) num den

def div (f : Format) : Number → Number → Number
  | .nan, _ => .nan
  | _, .nan => .nan
  | .infinite _, .infinite _ => .nan
  | .infinite s, .finite t _ _ => .infinite (s != t)
  | .finite s _ _, .infinite t => .finite (s != t) 0 f.least
  | .finite s m e, .finite t n k =>
    if n = 0 then
      if m = 0 then .nan else .infinite (s != t)
    else
      let (num, den) := scaled m n (e - k)
      f.ofRatio (s != t) num den

def neg : Number → Number
  | .nan => .nan
  | .infinite s => .infinite !s
  | .finite s m e => .finite (!s) m e

/-- The integer nearest to the number, a half going away from zero. -/
def round (f : Format) : Number → Number
  | .finite s m e =>
    let (num, den) := scaled m 1 e
    f.ofRatio s ((2 * num + den) / (2 * den)) 1
  | x => x

def isZero : Number → Bool
  | .finite _ m _ => m == 0
  | _ => false

def isNegative : Number → Bool
  | .nan => false
  | .infinite s => s
  | .finite s _ _ => s

def isBelowOne : Number → Bool
  | .nan => false
  | .infinite s => s
  | .finite s m e =>
    let (num, den) := scaled m 1 e
    s || num < den

def isWhole : Number → Bool
  | .finite _ m e =>
    let (num, den) := scaled m 1 e
    num % den == 0
  | _ => false

def one : Number := Format.single.ofNat 1

def zero : Number := Format.single.ofNat 0

end CssOutline.Number
