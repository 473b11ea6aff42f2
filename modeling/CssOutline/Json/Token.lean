import CssOutline.Json.Numeral
import CssOutline.Text

/-!
Tokens of JSON text. Blanks only separate them. The first place where no token can be read
yields a last token `bad`, so a reader meets it after everything before it.
-/

namespace CssOutline.Json

inductive Token where
  | openBrace
  | closeBrace
  | openBracket
  | colon
  | comma
  | string (value : String)
  | number (value : Numeral)
  | bool (value : Bool)
  | null
  | bad
deriving DecidableEq, Repr

def isBlank (c : Char) : Bool :=
  c == ' ' || c == '\t' || c == '\n' || c == '\r'

def hexUnit? : List Char → Option (Nat × List Char)
  | a :: b :: c :: d :: rest => do
    let a ← Text.hexValue? a
    let b ← Text.hexValue? b
    let c ← Text.hexValue? c
    let d ← Text.hexValue? d
    some (((a * 16 + b) * 16 + c) * 16 + d, rest)
  | _ => none

/-- The character of an escape, after the backslash. Units of a surrogate pair stand together. -/
def unescape? : List Char → Option (Char × List Char)
  | '"' :: rest => some ('"', rest)
  | '\\' :: rest => some ('\\', rest)
  | '/' :: rest => some ('/', rest)
  | 'b' :: rest => some ('\x08', rest)
  | 'f' :: rest => some ('\x0c', rest)
  | 'n' :: rest => some ('\n', rest)
  | 'r' :: rest => some ('\r', rest)
  | 't' :: rest => some ('\t', rest)
  | 'u' :: rest =>
    match hexUnit? rest with
    | none => none
    | some (high, rest) =>
      if 0xdc00 ≤ high ∧ high ≤ 0xdfff then none
      else if 0xd800 ≤ high ∧ high ≤ 0xdbff then
        match rest with
        | '\\' :: 'u' :: rest =>
          match hexUnit? rest with
          | none => none
          | some (low, rest) =>
            if 0xdc00 ≤ low ∧ low ≤ 0xdfff then
              some (Char.ofNat (0x10000 + (high - 0xd800) * 0x400 + (low - 0xdc00)), rest)
            else none
        | _ => none
      else some (Char.ofNat high, rest)
  | _ => none

theorem length_of_hexUnit? {cs rest : List Char} {n : Nat} (h : hexUnit? cs = some (n, rest)) :
    rest.length < cs.length := by
  unfold hexUnit? at h
  split at h
  · simp only [Option.bind_eq_bind, Option.bind_eq_some_iff, Option.some.injEq,
      Prod.mk.injEq] at h
    obtain ⟨_, _, _, _, _, _, _, _, _, rfl⟩ := h
    simp only [List.length_cons]
    omega
  · simp at h

theorem length_of_unescape? {cs rest : List Char} {c : Char}
    (h : unescape? cs = some (c, rest)) : rest.length < cs.length := by
  unfold unescape? at h
  split at h
  case h_9 tail =>
    split at h
    · simp at h
    · rename_i high after eq
      have first := length_of_hexUnit? eq
      split at h
      · simp at h
      · split at h
        · split at h
          · split at h
            · simp at h
            · rename_i low last eq'
              have second := length_of_hexUnit? eq'
              split at h
              · simp only [Option.some.injEq, Prod.mk.injEq] at h
                obtain ⟨_, rfl⟩ := h
                simp only [List.length_cons] at *
                omega
              · simp at h
          · simp at h
        · simp only [Option.some.injEq, Prod.mk.injEq] at h
          obtain ⟨_, rfl⟩ := h
          simp only [List.length_cons]
          omega
  case h_10 => simp at h
  all_goals
    simp only [Option.some.injEq, Prod.mk.injEq] at h
    obtain ⟨_, rfl⟩ := h
    simp

def stringRest? (cs : List Char) : Option (List Char × List Char) :=
  match cs with
  | [] => none
  | '"' :: rest => some ([], rest)
  | '\\' :: rest =>
    match h : unescape? rest with
    | none => none
    | some (c, after) =>
      have := length_of_unescape? h
      (stringRest? after).map fun (s, tail) => (c :: s, tail)
  | c :: rest =>
    if c.toNat < 0x20 then none
    else (stringRest? rest).map fun (s, tail) => (c :: s, tail)
termination_by cs.length

def exponent? : List Char → Option (Option Int × List Char)
  | [] => some (none, [])
  | c :: cs =>
    if c = 'e' ∨ c = 'E' then
      let (minus, ds) := Number.takeSign cs
      match ds.takeWhile Char.isDigit with
      | [] => none
      | k => some (some (Number.signed minus (Number.ofDigits k)), ds.dropWhile Char.isDigit)
    else some (none, c :: cs)

def fraction? : List Char → Option (Option (List Char) × List Char)
  | '.' :: cs =>
    match cs.takeWhile Char.isDigit with
    | [] => none
    | ds => some (some ds, cs.dropWhile Char.isDigit)
  | cs => some (none, cs)

/-- A number after its sign: no zero stands before another digit, and digits follow a point. -/
def number? (negative : Bool) (cs : List Char) : Option (Numeral × List Char) :=
  match cs.takeWhile Char.isDigit with
  | [] => none
  | '0' :: _ :: _ => none
  | whole => do
    let (fraction, rest) ← fraction? (cs.dropWhile Char.isDigit)
    let (exponent, rest) ← exponent? rest
    let numeral ← Numeral.ofWritten ⟨negative, whole, fraction, exponent⟩
    some (numeral, rest)

/-- The token at the front of a text that does not start with a blank. -/
def token? : List Char → Option (Token × List Char)
  | '\x7b' :: rest => some (.openBrace, rest)
  | '\x7d' :: rest => some (.closeBrace, rest)
  | '[' :: rest => some (.openBracket, rest)
  | ':' :: rest => some (.colon, rest)
  | ',' :: rest => some (.comma, rest)
  | 'n' :: 'u' :: 'l' :: 'l' :: rest => some (.null, rest)
  | 't' :: 'r' :: 'u' :: 'e' :: rest => some (.bool true, rest)
  | 'f' :: 'a' :: 'l' :: 's' :: 'e' :: rest => some (.bool false, rest)
  | '"' :: rest => (stringRest? rest).map fun (s, tail) => (.string (String.ofList s), tail)
  | '-' :: rest => (number? true rest).map fun (n, tail) => (.number n, tail)
  | c :: rest =>
    if c.isDigit then (number? false (c :: rest)).map fun (n, tail) => (.number n, tail)
    else none
  | [] => none

theorem length_of_stringRest? {cs s rest : List Char} (h : stringRest? cs = some (s, rest)) :
    rest.length < cs.length := by
  fun_induction stringRest? cs generalizing s rest with
  | case1 => simp at h
  | case2 => simp_all
  | case3 => simp at h
  | case4 tail c after eq shorter ih =>
    simp only [Option.map_eq_some_iff, Prod.mk.injEq] at h
    obtain ⟨⟨s', tail'⟩, found, _, rfl⟩ := h
    have := ih found
    simp only [List.length_cons]
    omega
  | case5 => simp at h
  | case6 c tail _ _ _ ih =>
    simp only [Option.map_eq_some_iff, Prod.mk.injEq] at h
    obtain ⟨⟨s', tail'⟩, found, _, rfl⟩ := h
    have := ih found
    simp only [List.length_cons]
    omega

theorem length_dropWhile_le (p : Char → Bool) (cs : List Char) :
    (cs.dropWhile p).length ≤ cs.length :=
  (List.dropWhile_sublist p).length_le

theorem length_of_exponent? {cs rest : List Char} {k : Option Int}
    (h : exponent? cs = some (k, rest)) : rest.length ≤ cs.length := by
  unfold exponent? at h
  split at h
  · simp_all
  · rename_i c tail
    split at h
    · simp only at h
      split at h
      · simp at h
      · simp only [Option.some.injEq, Prod.mk.injEq] at h
        obtain ⟨_, rfl⟩ := h
        refine Nat.le_trans (length_dropWhile_le _ _) ?_
        exact Nat.le_trans (Number.length_takeSign_le tail) (by simp)
    · simp_all

theorem length_of_fraction? {cs rest : List Char} {ds : Option (List Char)}
    (h : fraction? cs = some (ds, rest)) : rest.length ≤ cs.length := by
  unfold fraction? at h
  split at h
  · split at h
    · simp at h
    · simp only [Option.some.injEq, Prod.mk.injEq] at h
      obtain ⟨_, rfl⟩ := h
      exact Nat.le_trans (length_dropWhile_le _ _) (by simp)
  · simp_all

theorem length_of_number? {negative : Bool} {cs rest : List Char} {n : Numeral}
    (h : number? negative cs = some (n, rest)) : rest.length < cs.length := by
  have parts := congrArg List.length (List.takeWhile_append_dropWhile (p := Char.isDigit)
    (l := cs))
  rw [List.length_append] at parts
  unfold number? at h
  split at h
  · simp at h
  · simp at h
  · rename_i nonempty _
    have pos : 0 < (cs.takeWhile Char.isDigit).length :=
      List.length_pos_iff.2 fun eq => nonempty eq
    simp only [Option.bind_eq_bind, Option.bind_eq_some_iff] at h
    obtain ⟨⟨fraction, afterFraction⟩, first, ⟨exponent, afterExponent⟩, second, _, _, last⟩ := h
    simp only [Option.some.injEq, Prod.mk.injEq] at last
    obtain ⟨_, rfl⟩ := last
    have exponentLength := length_of_exponent? second
    have fractionLength := length_of_fraction? first
    simp only at *
    omega

theorem length_of_token? {cs rest : List Char} {t : Token} (h : token? cs = some (t, rest)) :
    rest.length < cs.length := by
  unfold token? at h
  split at h
  case h_9 tail =>
    simp only [Option.map_eq_some_iff, Prod.mk.injEq] at h
    obtain ⟨⟨s, after⟩, found, _, rfl⟩ := h
    have := length_of_stringRest? found
    simp only [List.length_cons]
    omega
  case h_10 tail =>
    simp only [Option.map_eq_some_iff, Prod.mk.injEq] at h
    obtain ⟨⟨n, after⟩, found, _, rfl⟩ := h
    have := length_of_number? found
    simp only [List.length_cons]
    omega
  case h_11 c tail _ _ _ _ _ _ _ _ _ _ =>
    split at h
    · simp only [Option.map_eq_some_iff, Prod.mk.injEq] at h
      obtain ⟨⟨n, after⟩, found, _, rfl⟩ := h
      exact length_of_number? found
    · simp at h
  case h_12 => simp at h
  all_goals
    simp only [Option.some.injEq, Prod.mk.injEq] at h
    obtain ⟨_, rfl⟩ := h
    simp only [List.length_cons]
    omega

/-- All tokens of a text. -/
def tokens (cs : List Char) : List Token :=
  match cs with
  | [] => []
  | c :: rest =>
    if isBlank c then tokens rest
    else
      match h : token? (c :: rest) with
      | none => [.bad]
      | some (t, after) =>
        have : after.length < rest.length + 1 := length_of_token? h
        t :: tokens after
termination_by cs.length

end CssOutline.Json
