import CssOutline.Json.Reader
import CssOutline.Json.Writer
import CssOutline.Proofs.Spelling
import Mathlib.Data.List.TakeWhile

/-! The grammar of JSON texts. A text is made up of marks with blanks between them, and the marks
are those of one tree. Strings and numbers are scanned just as the grammar has them, and every tree
whose numbers can be written has a text. -/

namespace CssOutline.Json

open Numeral (Written)

/-- The parts of a text. A number is kept as it was written. -/
inductive Mark where
  | openBrace
  | closeBrace
  | openBracket
  | closeBracket
  | colon
  | comma
  | string (value : String)
  | number (literal : Written)
  | bool (value : Bool)
  | null

/-- What a text stands for. -/
inductive Tree where
  | null
  | bool (value : Bool)
  | number (literal : Written)
  | string (value : String)
  | array (items : List Tree)
  | object (members : List (String × Tree))

def IsUnit (digits : List Char) (n : Nat) : Prop :=
  ∃ a b c d, digits.map Text.hexValue? = [some a, some b, some c, some d] ∧
    n = ((a * 16 + b) * 16 + c) * 16 + d

def shortEscapes : List (Char × Char) :=
  [('"', '"'), ('\\', '\\'), ('/', '/'), ('b', '\x08'), ('f', '\x0c'), ('n', '\n'), ('r', '\r'),
    ('t', '\t')]

/-- The ways to write a character in a string literal. An escaped half of a surrogate pair without the
other half is left out: the format has it, but it writes no character. -/
inductive Spells : Char → List Char → Prop
  | plain {c : Char} (visible : 0x20 ≤ c.toNat) (quote : c ≠ '"') (slash : c ≠ '\\') :
    Spells c [c]
  | short {mark c : Char} (escape : (mark, c) ∈ shortEscapes) : Spells c ['\\', mark]
  | unit {c : Char} {digits : List Char} (code : IsUnit digits c.toNat) :
    Spells c ('\\' :: 'u' :: digits)
  | pair {c : Char} {high low : List Char} (wide : 0x10000 ≤ c.toNat)
    (first : IsUnit high (0xd800 + (c.toNat - 0x10000) / 0x400))
    (second : IsUnit low (0xdc00 + (c.toNat - 0x10000) % 0x400)) :
    Spells c ('\\' :: 'u' :: high ++ '\\' :: 'u' :: low)

inductive SpellsAll : List Char → List Char → Prop
  | nil : SpellsAll [] []
  | cons {c : Char} {s w cs : List Char} (first : Spells c w) (later : SpellsAll s cs) :
    SpellsAll (c :: s) (w ++ cs)

/-- What the format has between quotes, with the value of each escaped unit and nothing for other
characters. -/
inductive IsLiteral : List (Option Nat) → List Char → Prop
  | nil : IsLiteral [] []
  | plain {units : List (Option Nat)} {c : Char} {cs : List Char} (visible : 0x20 ≤ c.toNat)
    (quote : c ≠ '"') (slash : c ≠ '\\') (later : IsLiteral units cs) :
    IsLiteral (none :: units) (c :: cs)
  | short {units : List (Option Nat)} {mark c : Char} {cs : List Char}
    (escape : (mark, c) ∈ shortEscapes) (later : IsLiteral units cs) :
    IsLiteral (none :: units) ('\\' :: mark :: cs)
  | unit {units : List (Option Nat)} {n : Nat} {digits cs : List Char} (code : IsUnit digits n)
    (later : IsLiteral units cs) : IsLiteral (some n :: units) ('\\' :: 'u' :: digits ++ cs)

/-- Each half of a surrogate pair that is escaped stands next to the other half. -/
inductive IsPaired : List (Option Nat) → Prop
  | nil : IsPaired []
  | char {units : List (Option Nat)} (later : IsPaired units) : IsPaired (none :: units)
  | unit {units : List (Option Nat)} {n : Nat} (whole : n < 0xd800 ∨ 0xdfff < n)
    (later : IsPaired units) : IsPaired (some n :: units)
  | pair {units : List (Option Nat)} {high low : Nat} (first : 0xd800 ≤ high ∧ high ≤ 0xdbff)
    (second : 0xdc00 ≤ low ∧ low ≤ 0xdfff) (later : IsPaired units) :
    IsPaired (some high :: some low :: units)

def IsDigits (digits : List Char) : Prop :=
  digits ≠ [] ∧ ∀ c ∈ digits, c.isDigit

instance (digits : List Char) : Decidable (IsDigits digits) :=
  decidable_of_iff (digits ≠ [] ∧ digits.all Char.isDigit) (by simp [IsDigits])

inductive IsExponent : Option Int → List Char → Prop
  | none : IsExponent none []
  | plain {mark : Char} {digits : List Char} (letter : mark = 'e' ∨ mark = 'E')
    (number : IsDigits digits) :
    IsExponent (some (Number.ofDigits digits)) (mark :: digits)
  | plus {mark : Char} {digits : List Char} (letter : mark = 'e' ∨ mark = 'E')
    (number : IsDigits digits) :
    IsExponent (some (Number.ofDigits digits)) (mark :: '+' :: digits)
  | minus {mark : Char} {digits : List Char} (letter : mark = 'e' ∨ mark = 'E')
    (number : IsDigits digits) :
    IsExponent (some (-Number.ofDigits digits)) (mark :: '-' :: digits)

def fractionText : Option (List Char) → List Char
  | none => []
  | some digits => '.' :: digits

structure IsNumeral (w : Written) : Prop where
  whole : IsDigits w.whole
  zero : w.whole.head? = some '0' → w.whole = ['0']
  fraction : ∀ digits ∈ w.fraction, IsDigits digits

instance (w : Written) : Decidable (IsNumeral w) :=
  decidable_of_iff (IsDigits w.whole ∧ (w.whole.head? = some '0' → w.whole = ['0']) ∧
      ∀ digits ∈ w.fraction.toList, IsDigits digits)
    ⟨fun ⟨whole, zero, fraction⟩ => ⟨whole, zero, by simpa using fraction⟩,
      fun ⟨whole, zero, fraction⟩ => ⟨whole, zero, by simpa using fraction⟩⟩

structure IsUnsigned (w : Written) (cs : List Char) : Prop extends IsNumeral w where
  text : ∃ exponent, IsExponent w.exponent exponent ∧
    cs = w.whole ++ fractionText w.fraction ++ exponent

def Mark.IsText : Mark → List Char → Prop
  | openBrace, cs => cs = ['\x7b']
  | closeBrace, cs => cs = ['\x7d']
  | openBracket, cs => cs = ['[']
  | closeBracket, cs => cs = [']']
  | colon, cs => cs = [':']
  | comma, cs => cs = [',']
  | string s, cs => ∃ body, SpellsAll s.toList body ∧ cs = '"' :: body ++ ['"']
  | number w, cs =>
    ∃ unsigned, IsUnsigned w unsigned ∧ cs = if w.negative then '-' :: unsigned else unsigned
  | bool true, cs => cs = ['t', 'r', 'u', 'e']
  | bool false, cs => cs = ['f', 'a', 'l', 's', 'e']
  | null, cs => cs = ['n', 'u', 'l', 'l']

/-- Texts made up of marks, with blanks between and around them. -/
inductive MadeOf : List Char → List Mark → Prop
  | nil : MadeOf [] []
  | blank {c : Char} {cs : List Char} {ms : List Mark} (blank : isBlank c)
    (later : MadeOf cs ms) : MadeOf (c :: cs) ms
  | mark {m : Mark} {w cs : List Char} {ms : List Mark} (text : m.IsText w)
    (later : MadeOf cs ms) : MadeOf (w ++ cs) (m :: ms)

mutual

def Tree.marks : Tree → List Mark
  | .null => [.null]
  | .bool value => [.bool value]
  | .number literal => [.number literal]
  | .string value => [.string value]
  | .array items => .openBracket :: itemMarks [] items ++ [.closeBracket]
  | .object members => .openBrace :: memberMarks [] members ++ [.closeBrace]

def itemMarks (separator : List Mark) : List Tree → List Mark
  | [] => []
  | t :: ts => separator ++ t.marks ++ itemMarks [.comma] ts

def memberMarks (separator : List Mark) : List (String × Tree) → List Mark
  | [] => []
  | (key, t) :: ms =>
    separator ++ .string key :: .colon :: t.marks ++ memberMarks [.comma] ms

end

/-- A text that stands for a tree. -/
def Tree.IsText (t : Tree) (cs : List Char) : Prop :=
  MadeOf cs t.marks

/-! Strings and numbers are read from all their texts, and only from these. -/

theorem hexUnit?_eq_some_iff {cs rest : List Char} {n : Nat} :
    hexUnit? cs = some (n, rest) ↔ ∃ digits, IsUnit digits n ∧ cs = digits ++ rest := by
  constructor
  · intro found
    unfold hexUnit? at found
    split at found
    · simp only [Option.bind_eq_bind, Option.bind_eq_some_iff, Option.some.injEq,
        Prod.mk.injEq] at found
      obtain ⟨a, first, b, second, c, third, d, fourth, rfl, rfl⟩ := found
      exact ⟨[_, _, _, _], ⟨a, b, c, d, by simp [first, second, third, fourth], rfl⟩, rfl⟩
    · cases found
  · rintro ⟨digits, ⟨a, b, c, d, values, rfl⟩, rfl⟩
    obtain ⟨x, xs, rfl, first, values⟩ := List.map_eq_cons_iff.1 values
    obtain ⟨y, ys, rfl, second, values⟩ := List.map_eq_cons_iff.1 values
    obtain ⟨z, zs, rfl, third, values⟩ := List.map_eq_cons_iff.1 values
    obtain ⟨u, us, rfl, fourth, values⟩ := List.map_eq_cons_iff.1 values
    obtain rfl := List.map_eq_nil_iff.1 values
    simp [hexUnit?, first, second, third, fourth]

theorem hexValue?_lt {c : Char} {n : Nat} (value : Text.hexValue? c = some n) : n < 16 := by
  have low (a b : Char) (h : a ≤ b) : a.toNat ≤ b.toNat := h
  unfold Text.hexValue? at value
  split_ifs at value with digit lower upper
  · have := low _ _ digit.2
    simp only [Option.some.injEq, Char.reduceToNat] at *
    omega
  · have := low _ _ lower.2
    simp only [Option.some.injEq, Char.reduceToNat] at *
    omega
  · have := low _ _ upper.2
    simp only [Option.some.injEq, Char.reduceToNat] at *
    omega

theorem IsUnit.lt {digits : List Char} {n : Nat} (unit : IsUnit digits n) : n < 0x10000 := by
  obtain ⟨a, b, c, d, values, rfl⟩ := unit
  have small (v : Nat) (member : some v ∈ digits.map Text.hexValue?) : v < 16 := by
    obtain ⟨x, -, value⟩ := List.mem_map.1 member
    exact hexValue?_lt value
  rw [values] at small
  have := small a (by simp)
  have := small b (by simp)
  have := small c (by simp)
  have := small d (by simp)
  omega

theorem toNat_lt_or_lt (c : Char) :
    c.toNat < 0xd800 ∨ 0xdfff < c.toNat ∧ c.toNat < 0x110000 :=
  c.valid

theorem toNat_ofNat {n : Nat} (valid : n < 0xd800 ∨ 0xdfff < n ∧ n < 0x110000) :
    (Char.ofNat n).toNat = n := by
  rw [Char.ofNat, dif_pos valid]
  rfl

theorem hexUnit?_append {digits : List Char} {n : Nat} (unit : IsUnit digits n)
    (rest : List Char) : hexUnit? (digits ++ rest) = some (n, rest) :=
  hexUnit?_eq_some_iff.2 ⟨digits, unit, rfl⟩

theorem spells_of_unescape? {cs rest : List Char} {c : Char}
    (found : unescape? cs = some (c, rest)) : ∃ w, Spells c ('\\' :: w) ∧ cs = w ++ rest := by
  unfold unescape? at found
  split at found
  case h_9 tail =>
    split at found
    · cases found
    · rename_i high after first
      obtain ⟨digits, unit, rfl⟩ := hexUnit?_eq_some_iff.1 first
      have := unit.lt
      split_ifs at found with low wide
      · split at found
        · split at found
          · cases found
          · rename_i second last next
            obtain ⟨digits', unit', rfl⟩ := hexUnit?_eq_some_iff.1 next
            split_ifs at found with lower
            simp only [Option.some.injEq, Prod.mk.injEq] at found
            obtain ⟨same, rfl⟩ := found
            have code := congrArg Char.toNat same
            rw [toNat_ofNat (by omega)] at code
            refine ⟨'u' :: digits ++ '\\' :: 'u' :: digits', .pair (by omega) ?_ ?_, by simp⟩
            · rwa [show 0xd800 + (c.toNat - 0x10000) / 0x400 = high by omega]
            · rwa [show 0xdc00 + (c.toNat - 0x10000) % 0x400 = second by omega]
        · cases found
      · simp only [Option.some.injEq, Prod.mk.injEq] at found
        obtain ⟨rfl, rfl⟩ := found
        refine ⟨'u' :: digits, .unit ?_, rfl⟩
        rwa [toNat_ofNat (by omega)]
  case h_10 => cases found
  all_goals
    cases found
    exact ⟨[_], .short (by decide), rfl⟩

theorem unescape?_of_spells {c : Char} {w : List Char} (spells : Spells c ('\\' :: w))
    (rest : List Char) : unescape? (w ++ rest) = some (c, rest) := by
  have valid := toNat_lt_or_lt c
  cases spells with
  | plain visible quote slash => exact absurd rfl slash
  | short escape =>
    simp only [shortEscapes, List.mem_cons, Prod.mk.injEq, List.not_mem_nil, or_false] at escape
    rcases escape with same | same | same | same | same | same | same | same <;>
      obtain ⟨rfl, rfl⟩ := same <;> rfl
  | unit code =>
    simp only [List.cons_append, unescape?, hexUnit?_append code]
    rw [if_neg (by omega), if_neg (by omega), Char.ofNat_toNat]
  | @pair _ high low wide first second =>
    have text : 'u' :: high ++ '\\' :: 'u' :: low ++ rest =
        'u' :: (high ++ '\\' :: 'u' :: (low ++ rest)) := by simp
    change unescape? ('u' :: high ++ '\\' :: 'u' :: low ++ rest) = _
    rw [text]
    simp only [unescape?, hexUnit?_append first, hexUnit?_append second]
    rw [if_neg (by omega), if_pos (by omega), if_pos (by omega)]
    have code : 0x10000 + (0xd800 + (c.toNat - 0x10000) / 0x400 - 0xd800) * 0x400 +
        (0xdc00 + (c.toNat - 0x10000) % 0x400 - 0xdc00) = c.toNat := by omega
    rw [code, Char.ofNat_toNat]

theorem stringRest?_slash {cs after : List Char} {c : Char}
    (found : unescape? cs = some (c, after)) :
    stringRest? ('\\' :: cs) = (stringRest? after).map fun (s, tail) => (c :: s, tail) := by
  rw [stringRest?]
  split
  · simp_all
  · simp_all

theorem stringRest?_spells {c : Char} {w : List Char} (spells : Spells c w) (cs : List Char) :
    stringRest? (w ++ cs) = (stringRest? cs).map fun (s, tail) => (c :: s, tail) := by
  have escaped {w : List Char} (spells : Spells c ('\\' :: w)) :
      stringRest? ('\\' :: w ++ cs) = (stringRest? cs).map fun (s, tail) => (c :: s, tail) :=
    stringRest?_slash (unescape?_of_spells spells cs)
  cases spells with
  | plain visible quote slash =>
    rw [List.singleton_append, stringRest?]
    · rw [if_neg (by omega)]
    · exact quote
    · exact slash
  | short escape => exact escaped (.short escape)
  | unit code => exact escaped (.unit code)
  | pair wide first second => exact escaped (.pair wide first second)

theorem stringRest?_eq_some_iff {cs s rest : List Char} :
    stringRest? cs = some (s, rest) ↔ ∃ body, SpellsAll s body ∧ cs = body ++ '"' :: rest := by
  constructor
  · intro found
    fun_induction stringRest? cs generalizing s with
    | case1 => cases found
    | case2 tail =>
      cases found
      exact ⟨[], .nil, rfl⟩
    | case3 => cases found
    | case4 tail c after escape shorter ih =>
      simp only [Option.map_eq_some_iff, Prod.mk.injEq] at found
      obtain ⟨⟨s', tail'⟩, found, rfl, rfl⟩ := found
      obtain ⟨w, spells, rfl⟩ := spells_of_unescape? escape
      obtain ⟨body, all, rfl⟩ := ih found
      exact ⟨'\\' :: w ++ body, .cons spells all, by simp⟩
    | case5 => cases found
    | case6 c tail quote slash visible ih =>
      simp only [Option.map_eq_some_iff, Prod.mk.injEq] at found
      obtain ⟨⟨s', tail'⟩, found, rfl, rfl⟩ := found
      obtain ⟨body, all, rfl⟩ := ih found
      have solid : 0x20 ≤ c.toNat := by omega
      exact ⟨[c] ++ body, .cons (.plain solid quote slash) all, by simp⟩
  · rintro ⟨body, all, rfl⟩
    induction all with
    | nil => simp [stringRest?]
    | cons first later ih => rw [List.append_assoc, stringRest?_spells first, ih]; rfl

theorem isLiteral_of_spellsAll {s body : List Char} (all : SpellsAll s body) :
    ∃ units, IsLiteral units body ∧ IsPaired units := by
  induction all with
  | nil => exact ⟨[], .nil, .nil⟩
  | @cons c s w cs first later ih =>
    obtain ⟨units, literal, paired⟩ := ih
    have valid := toNat_lt_or_lt c
    cases first with
    | plain visible quote slash =>
      exact ⟨_, .plain visible quote slash literal, .char paired⟩
    | short escape => exact ⟨_, .short escape literal, .char paired⟩
    | unit code => exact ⟨_, .unit code literal, .unit (by omega) paired⟩
    | pair wide high low =>
      have halves : IsPaired (some (0xd800 + (c.toNat - 0x10000) / 0x400) ::
          some (0xdc00 + (c.toNat - 0x10000) % 0x400) :: units) :=
        .pair (by omega) (by omega) paired
      have text := IsLiteral.unit high (.unit low literal)
      exact ⟨_, by simpa using text, halves⟩

theorem spellsAll_of_isPaired {units : List (Option Nat)} (paired : IsPaired units) :
    ∀ {body : List Char}, IsLiteral units body → ∃ s, SpellsAll s body := by
  induction paired with
  | nil =>
    rintro _ ⟨⟩
    exact ⟨[], .nil⟩
  | char _ ih =>
    rintro _ (_ | ⟨visible, quote, slash, literal⟩ | ⟨escape, literal⟩ | _)
    · obtain ⟨s, all⟩ := ih literal
      exact ⟨_, .cons (.plain visible quote slash) all⟩
    · obtain ⟨s, all⟩ := ih literal
      exact ⟨_, .cons (.short escape) all⟩
  | @unit _ n whole _ ih =>
    rintro _ (_ | _ | _ | ⟨code, literal⟩)
    obtain ⟨s, all⟩ := ih literal
    have small := code.lt
    have value : (Char.ofNat n).toNat = n := toNat_ofNat (by omega)
    exact ⟨_, .cons (.unit (value.symm ▸ code)) all⟩
  | @pair _ high low first second _ ih =>
    rintro _ (_ | _ | _ | ⟨code, literal⟩)
    obtain _ | _ | _ | ⟨code', literal⟩ := literal
    obtain ⟨s, all⟩ := ih literal
    obtain ⟨c, value⟩ : ∃ c : Char, c.toNat = 0x10000 + (high - 0xd800) * 0x400 + (low - 0xdc00) :=
      ⟨_, toNat_ofNat (by omega)⟩
    have upper : 0xd800 + (c.toNat - 0x10000) / 0x400 = high := by omega
    have lower : 0xdc00 + (c.toNat - 0x10000) % 0x400 = low := by omega
    have text := SpellsAll.cons (.pair (by omega) (upper.symm ▸ code) (lower.symm ▸ code')) all
    exact ⟨_, by simpa using text⟩

theorem IsLiteral.unique {units units' : List (Option Nat)} {body : List Char}
    (literal : IsLiteral units body) (other : IsLiteral units' body) : units = units' := by
  have noEscape {c : Char} (escape : ('u', c) ∈ shortEscapes) : False := by
    simp [shortEscapes] at escape
  induction literal generalizing units' with
  | nil => cases other; rfl
  | plain _ _ slash _ ih =>
    rcases other with _ | ⟨-, -, -, later⟩ | _ | _
    · rw [ih later]
    · exact absurd rfl slash
    · exact absurd rfl slash
  | short escape _ ih =>
    rcases other with _ | ⟨-, -, slash, -⟩ | ⟨-, later⟩ | _
    · exact absurd rfl slash
    · rw [ih later]
    · exact (noEscape escape).elim
  | @unit _ n digits cs code _ ih =>
    generalize whole : '\\' :: 'u' :: digits ++ cs = text at other
    have value := hexUnit?_append code cs
    rcases other with _ | ⟨-, -, slash, -⟩ | ⟨escape, -⟩ | ⟨code', later⟩
    · cases whole
    · cases whole
      exact absurd rfl slash
    · cases whole
      exact (noEscape escape).elim
    · simp only [List.cons_append, List.cons.injEq, true_and] at whole
      rw [whole, hexUnit?_append code', Option.some.injEq, Prod.mk.injEq] at value
      obtain ⟨rfl, rfl⟩ := value
      rw [ih later]

theorem exists_spellsAll_iff {units : List (Option Nat)} {body : List Char}
    (literal : IsLiteral units body) : (∃ s, SpellsAll s body) ↔ IsPaired units := by
  constructor
  · rintro ⟨s, all⟩
    obtain ⟨units', literal', paired⟩ := isLiteral_of_spellsAll all
    rwa [literal.unique literal']
  · exact fun paired => spellsAll_of_isPaired paired literal

def EndsNumber (rest : List Char) : Prop :=
  ∀ x ∈ rest.head?, x.isDigit = false ∧ x ≠ '.' ∧ x ≠ 'e' ∧ x ≠ 'E'

theorem isDigits_takeWhile {cs : List Char} (found : cs.takeWhile Char.isDigit ≠ []) :
    IsDigits (cs.takeWhile Char.isDigit) :=
  ⟨found, fun _ member => List.mem_takeWhile_imp member⟩

theorem IsDigits.split {digits rest : List Char} (all : IsDigits digits)
    (stop : ∀ x ∈ rest.head?, x.isDigit = false) :
    (digits ++ rest).takeWhile Char.isDigit = digits ∧
      (digits ++ rest).dropWhile Char.isDigit = rest :=
  Grammar.takeWhile_dropWhile_append all.2 stop

theorem isExponent_of_exponent? {cs rest : List Char} {k : Option Int}
    (found : exponent? cs = some (k, rest)) : ∃ w, IsExponent k w ∧ cs = w ++ rest := by
  unfold exponent? at found
  split at found
  · cases found
    exact ⟨[], .none, rfl⟩
  · rename_i mark tail
    split_ifs at found with letter
    · simp only at found
      split at found
      · cases found
      · rename_i nonempty
        cases found
        have number := isDigits_takeWhile nonempty
        unfold Number.takeSign at number ⊢
        split at number
        · exact ⟨_, .minus letter number, by simp⟩
        · exact ⟨_, .plus letter number, by simp⟩
        · exact ⟨_, .plain letter number, by simp⟩
    · cases found
      exact ⟨[], .none, rfl⟩

theorem exponent?_append {k : Option Int} {w rest : List Char} (exponent : IsExponent k w)
    (ends : EndsNumber rest) : exponent? (w ++ rest) = some (k, rest) := by
  have stop : ∀ x ∈ rest.head?, x.isDigit = false := fun x head => (ends x head).1
  have written {mark : Char} (letter : mark = 'e' ∨ mark = 'E') {minus : Bool}
      {digits tail : List Char} (number : IsDigits digits)
      (sign : Number.takeSign tail = (minus, digits ++ rest)) :
      exponent? (mark :: tail) = some (some (Number.signed minus (Number.ofDigits digits)),
        rest) := by
    obtain ⟨front, back⟩ := number.split stop
    simp only [exponent?, letter, ↓reduceIte, sign, front, back]
    split
    · exact absurd rfl number.1
    · rfl
  cases exponent with
  | none =>
    cases rest with
    | nil => rfl
    | cons x rest =>
      obtain ⟨-, -, lower, upper⟩ := ends x rfl
      simp [exponent?, lower, upper]
  | plain letter number =>
    refine written letter number (Grammar.takeSign_of_head ?_)
    intro c head
    obtain ⟨d, ds, rfl⟩ := List.exists_cons_of_ne_nil number.1
    obtain rfl : d = c := by simpa using head
    have digit := number.2 d (by simp)
    exact ⟨Lexer.ne_of_isDigit digit rfl, Lexer.ne_of_isDigit digit rfl⟩
  | @plus _ digits letter number =>
    have sign : Number.takeSign ('+' :: (digits ++ rest)) = (false, digits ++ rest) := rfl
    exact written letter number sign
  | @minus _ digits letter number =>
    have sign : Number.takeSign ('-' :: (digits ++ rest)) = (true, digits ++ rest) := rfl
    exact written letter number sign

theorem IsExponent.stops {k : Option Int} {w rest : List Char} (exponent : IsExponent k w)
    (ends : EndsNumber rest) : ∀ x ∈ (w ++ rest).head?, x.isDigit = false ∧ x ≠ '.' := by
  have letter {mark : Char} (letter : mark = 'e' ∨ mark = 'E') :
      mark.isDigit = false ∧ mark ≠ '.' := by
    rcases letter with rfl | rfl <;> decide
  intro x head
  cases exponent with
  | none => exact ⟨(ends x head).1, (ends x head).2.1⟩
  | plain mark number => cases head; exact letter mark
  | plus mark number => cases head; exact letter mark
  | minus mark number => cases head; exact letter mark

theorem isDigits_of_fraction? {cs rest : List Char} {f : Option (List Char)}
    (found : fraction? cs = some (f, rest)) :
    (∀ digits ∈ f, IsDigits digits) ∧ cs = fractionText f ++ rest := by
  unfold fraction? at found
  split at found
  · rename_i tail
    split at found
    · cases found
    · rename_i nonempty
      cases found
      have number := isDigits_takeWhile nonempty
      exact ⟨by simpa using number, by simp [fractionText]⟩
  · cases found
    exact ⟨by simp, rfl⟩

theorem fraction?_append {f : Option (List Char)} {rest : List Char}
    (all : ∀ digits ∈ f, IsDigits digits)
    (stop : ∀ x ∈ rest.head?, x.isDigit = false ∧ x ≠ '.') :
    fraction? (fractionText f ++ rest) = some (f, rest) := by
  cases f with
  | none =>
    rw [fractionText, List.nil_append]
    unfold fraction?
    split
    · exact absurd rfl (stop '.' rfl).2
    · rfl
  | some digits =>
    obtain ⟨front, back⟩ := (all digits rfl).split fun x head => (stop x head).1
    simp only [fractionText, List.cons_append, fraction?, front, back]
    split
    · exact absurd rfl (all [] rfl).1
    · rfl

theorem isUnsigned_of_number? {negative : Bool} {cs rest : List Char} {n : Numeral}
    (found : number? negative cs = some (n, rest)) :
    ∃ w unsigned, w.negative = negative ∧ IsUnsigned w unsigned ∧ cs = unsigned ++ rest ∧
      Numeral.ofWritten w = some n := by
  unfold number? at found
  split at found
  · cases found
  · cases found
  · rename_i nonempty single
    simp only [Option.bind_eq_bind, Option.bind_eq_some_iff, Option.some.injEq, Prod.mk.injEq,
      Prod.exists] at found
    obtain ⟨f, afterFraction, fraction, k, afterExponent, exponent, n, range, rfl, rfl⟩ := found
    obtain ⟨digits, after⟩ := isDigits_of_fraction? fraction
    obtain ⟨text, written, rfl⟩ := isExponent_of_exponent? exponent
    refine ⟨_, _, rfl, ⟨⟨isDigits_takeWhile nonempty, ?_, digits⟩, text, written, rfl⟩, ?_, range⟩
    · intro zero
      obtain ⟨more, same⟩ : ∃ more, cs.takeWhile Char.isDigit = '0' :: more :=
        List.head?_eq_some_iff.1 zero
      cases more with
      | nil => exact same
      | cons c more => exact (single c more same).elim
    · rw [List.append_assoc, List.append_assoc, ← after, List.takeWhile_append_dropWhile]

theorem number?_append {w : Written} {unsigned rest : List Char} (text : IsUnsigned w unsigned)
    (ends : EndsNumber rest) :
    number? w.negative (unsigned ++ rest) = (Numeral.ofWritten w).map fun n => (n, rest) := by
  obtain ⟨mark, written, rfl⟩ := text.text
  have stops := written.stops ends
  have fraction := fraction?_append text.fraction stops
  have exponent := exponent?_append written ends
  have point : ∀ x ∈ (fractionText w.fraction ++ (mark ++ rest)).head?, x.isDigit = false := by
    cases w.fraction with
    | none => exact fun x head => (stops x head).1
    | some digits => rintro x ⟨⟩; rfl
  obtain ⟨front, back⟩ := text.whole.split point
  rw [List.append_assoc, List.append_assoc]
  simp only [number?, front, back, fraction]
  split
  · exact absurd ‹_› text.whole.1
  · rename_i same
    have zero := text.zero (by rw [same, List.head?_cons])
    simp [same] at zero
  · simp only [exponent, Option.bind_eq_bind, Option.bind_some, Option.map_eq_bind]
    rfl

/-! ### What may be written -/

theorem isUnit_code {c : Char} (control : c.toNat < 0x20) :
    IsUnit ['0', '0', Text.hexDigit (c.toNat / 16), Text.hexDigit (c.toNat % 16)] c.toNat := by
  have digit : ∀ n < 16, Text.hexValue? (Text.hexDigit n) = some n := by decide
  refine ⟨0, 0, c.toNat / 16, c.toNat % 16, ?_, by omega⟩
  have zero : Text.hexValue? '0' = some 0 := rfl
  simp [zero, digit _ (by omega : c.toNat / 16 < 16), digit _ (Nat.mod_lt c.toNat (by decide))]

theorem spells_escape (c : Char) : Spells c (escape c) := by
  unfold escape
  split_ifs with quote slash h3 h4 h5 h6 h7 control
  all_goals try subst c; exact .short (by decide)
  · exact .unit (isUnit_code control)
  · exact .plain (by omega) quote slash

theorem spellsAll_escape (s : List Char) : SpellsAll s (s.flatMap escape) := by
  induction s with
  | nil => exact .nil
  | cons c s ih => exact .cons (spells_escape c) ih

theorem ofDigits_toDigits (n : Nat) : Number.ofDigits (Nat.toDigits 10 n) = n :=
  Nat.ofDigitChars_toDigits (by decide) (by decide)

theorem isDigits_toDigits (n : Nat) : IsDigits (Nat.toDigits 10 n) :=
  ⟨Nat.toDigits_ne_nil, fun _ member => Nat.isDigit_of_mem_toDigits (by decide) (by decide) member⟩

def exponentText : Option Int → List Char
  | none => []
  | some (.ofNat n) => 'e' :: Nat.toDigits 10 n
  | some (.negSucc n) => 'e' :: '-' :: Nat.toDigits 10 (n + 1)

theorem isExponent_exponentText (k : Option Int) : IsExponent k (exponentText k) := by
  rcases k with _ | n | n
  · exact .none
  · have text := IsExponent.plain (.inl rfl) (isDigits_toDigits n)
    rwa [ofDigits_toDigits] at text
  · have text := IsExponent.minus (.inl rfl) (isDigits_toDigits (n + 1))
    rwa [ofDigits_toDigits] at text

def Mark.chars : Mark → List Char
  | openBrace => ['\x7b']
  | closeBrace => ['\x7d']
  | openBracket => ['[']
  | closeBracket => [']']
  | colon => [':']
  | comma => [',']
  | string value => (quote value).toList
  | number w =>
    let unsigned := w.whole ++ fractionText w.fraction ++ exponentText w.exponent
    if w.negative then '-' :: unsigned else unsigned
  | bool true => ['t', 'r', 'u', 'e']
  | bool false => ['f', 'a', 'l', 's', 'e']
  | null => ['n', 'u', 'l', 'l']

def Mark.IsProper : Mark → Prop
  | number w => IsNumeral w
  | _ => True

theorem Mark.isText_chars {m : Mark} (proper : m.IsProper) : m.IsText m.chars := by
  cases m with
  | string s => exact ⟨s.toList.flatMap escape, spellsAll_escape _, by simp [chars, quote]⟩
  | number w => exact ⟨_, ⟨proper, _, isExponent_exponentText _, rfl⟩, rfl⟩
  | bool value => cases value <;> rfl
  | _ => rfl

theorem madeOf_chars {ms : List Mark} (proper : ∀ m ∈ ms, m.IsProper) :
    MadeOf (ms.flatMap Mark.chars) ms := by
  induction ms with
  | nil => exact .nil
  | cons m ms ih =>
    have later := ih fun n member => proper n (by simp [member])
    exact .mark (Mark.isText_chars (proper m (by simp))) later

end CssOutline.Json
