import CssOutline.Text

/-!
Names in style sheet text: which characters they hold, how escapes stand for other characters,
and when a text starts with one. Each reader returns the text that is left, which is a suffix of
what it was given.
-/

namespace CssOutline.Lexer

/-- What a NUL and an escape without a character stand for. -/
def replacement : Char := '\ufffd'

def known (c : Char) : Char :=
  if c = '\x00' then replacement else c

def isNameStart (c : Char) : Bool :=
  c.isAlpha || c == '_' || c == '\x00' || 0x80 ≤ c.toNat

def isNameChar (c : Char) : Bool :=
  isNameStart c || c.isDigit || c == '-'

def startsNewline : List Char → Bool
  | [] => false
  | c :: _ => Text.isNewline c

/-- Drops one blank; a carriage return and a line feed count as one. -/
def dropBlank : List Char → List Char
  | '\r' :: '\n' :: cs => cs
  | c :: cs => if Text.isBlank c then cs else c :: cs
  | [] => []

def charOfCode (n : Nat) : Char :=
  if n ≠ 0 ∧ n.isValidChar then Char.ofNat n else replacement

def isHexDigit (c : Char) : Bool :=
  (Text.hexValue? c).isSome

def hexNumber (cs : List Char) : Nat :=
  cs.foldl (fun n c => 16 * n + (Text.hexValue? c).getD 0) 0

/-- The character of an escape, from after the backslash: up to six hexadecimal digits with one
blank after them, or the next character itself. -/
def escape : List Char → Char × List Char
  | [] => (replacement, [])
  | c :: cs =>
    match ((c :: cs).take 6).takeWhile isHexDigit with
    | [] => (known c, cs)
    | ds => (charOfCode (hexNumber ds), dropBlank ((c :: cs).drop ds.length))

theorem dropBlank_suffix (cs : List Char) : dropBlank cs <:+ cs := by
  unfold dropBlank
  split
  · exact ⟨['\r', '\n'], rfl⟩
  · split
    · exact List.suffix_cons _ _
    · exact List.suffix_refl _
  · exact List.suffix_refl _

theorem escape_suffix (cs : List Char) : (escape cs).2 <:+ cs := by
  unfold escape
  split
  · exact List.suffix_refl _
  · split
    · exact List.suffix_cons _ _
    · exact (dropBlank_suffix _).trans (List.drop_suffix _ _)

def name (cs : List Char) : List Char × List Char :=
  match cs with
  | [] => ([], [])
  | c :: rest =>
    if c = '\\' then
      if startsNewline rest then ([], c :: rest)
      else
        have := (escape_suffix rest).length_le
        let (n, after) := name (escape rest).2
        ((escape rest).1 :: n, after)
    else if isNameChar c then
      let (n, after) := name rest
      (known c :: n, after)
    else ([], c :: rest)
termination_by cs.length

theorem name_suffix (cs : List Char) : (name cs).2 <:+ cs := by
  fun_induction name cs with
  | case1 => exact List.suffix_refl _
  | case2 => exact List.suffix_refl _
  | case3 rest _ _ _ after eq ih =>
    rw [eq] at ih
    exact (ih.trans (escape_suffix rest)).trans (List.suffix_cons _ _)
  | case4 c rest _ _ _ after eq ih =>
    rw [eq] at ih
    exact ih.trans (List.suffix_cons _ _)
  | case5 => exact List.suffix_refl _

/-- Whether a text starts with a name. After a leading hyphen a backslash always counts. -/
def startsName : List Char → Bool
  | '-' :: c :: _ => isNameStart c || c == '-' || c == '\\'
  | '\\' :: rest => !startsNewline rest
  | c :: _ => isNameStart c
  | [] => false

theorem name_suffix_tail {c : Char} {rest : List Char} (h : startsName (c :: rest)) :
    (name (c :: rest)).2 <:+ rest := by
  unfold name
  by_cases slash : c = '\\'
  · subst slash
    have notNewline : startsNewline rest = false := by
      simpa [startsName] using h
    simp only [notNewline, ↓reduceIte]
    exact (name_suffix _).trans (escape_suffix rest)
  · have nameChar : isNameChar c = true := by
      unfold startsName at h
      split at h <;> simp_all [isNameChar]
    simp only [slash, ↓reduceIte, nameChar]
    exact name_suffix rest

end CssOutline.Lexer
