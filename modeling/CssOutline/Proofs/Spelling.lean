import CssOutline.Proofs.Grammar
import CssOutline.Proofs.Lines

/-! How the words of plain style sheets are scanned. A name ends before any character that cannot
be part of one, and a number before any that cannot continue it, so each word is one token whatever
is written after such a character. -/

namespace CssOutline

namespace Lexer

theorem plain_append {c : Char} {cs rest : List Char} {t : Token}
    (scanned : scan c (cs ++ rest) = (t, rest)) :
    plain (c :: cs ++ rest) = ⟨t, c :: cs, .origin⟩ :: plain rest := by
  have length : (c :: (cs ++ rest)).length - rest.length = (c :: cs).length := by
    simp only [List.length_cons, List.length_append]
    omega
  rw [List.cons_append, plain_cons, scanned, before, length, ← List.cons_append, List.take_left]

def endsName (x : Char) : Bool :=
  !isNameChar x && x != '\\'

theorem isLower_iff {c : Char} : c.isLower ↔ 97 ≤ c.val.toNat ∧ c.val.toNat ≤ 122 := by
  change (decide ('a'.val ≤ c.val) && decide (c.val ≤ 'z'.val)) = true ↔ _
  rw [Bool.and_eq_true, decide_eq_true_eq, decide_eq_true_eq, UInt32.le_iff_toNat_le,
    UInt32.le_iff_toNat_le]
  rfl

theorem isAlpha_of_isLower {c : Char} (lower : c.isLower) : c.isAlpha := by
  change (c.isUpper || c.isLower) = true
  rw [lower, Bool.or_true]

theorem isNameChar_of_isNamePart {c : Char} (part : Grammar.isNamePart c) :
    isNameChar c ∧ c ≠ '\\' ∧ known c = c := by
  simp only [Grammar.isNamePart, Bool.or_eq_true, beq_iff_eq] at part
  have slash : c ≠ '\\' := by
    rintro rfl
    revert part
    decide
  have zero : c ≠ '\x00' := by
    rintro rfl
    revert part
    decide
  refine ⟨?_, slash, by simp [known, zero]⟩
  rcases part with (lower | digit) | rfl
  · simp [isNameChar, isNameStart, isAlpha_of_isLower lower]
  · simp [isNameChar, digit]
  · decide

theorem name_append {cs rest : List Char} (parts : ∀ c ∈ cs, Grammar.isNamePart c)
    (stop : ∀ x ∈ rest.head?, endsName x) : name (cs ++ rest) = (cs, rest) := by
  induction cs with
  | nil =>
    cases rest with
    | nil => simp [name]
    | cons x rest =>
      have ends := stop x rfl
      simp only [endsName, Bool.and_eq_true, Bool.not_eq_true', bne_iff_ne] at ends
      rw [List.nil_append, name]
      simp [ends.1, ends.2]
  | cons c cs ih =>
    obtain ⟨nameChar, slash, same⟩ := isNameChar_of_isNamePart (parts c (by simp))
    have later := ih fun d member => parts d (by simp [member])
    rw [List.cons_append, name]
    simp [slash, nameChar, later, same]

theorem isNamePart_of_isLower {c : Char} (lower : c.isLower) : Grammar.isNamePart c := by
  simp [Grammar.isNamePart, lower]

theorem ne_of_isLower {c x : Char} (lower : c.isLower) (other : x.isLower = false) : c ≠ x := by
  rintro rfl
  simp [lower] at other

theorem ne_of_isDigit {c x : Char} (digit : c.isDigit) (other : x.isDigit = false) : c ≠ x := by
  rintro rfl
  simp [digit] at other

theorem isDigit_of_isLower {c : Char} (lower : c.isLower) : c.isDigit = false := by
  by_contra digit
  simp only [Char.isDigit, isLower_iff, Bool.and_eq_true, decide_eq_true_eq, Bool.not_eq_false,
    UInt32.le_iff_toNat_le, ge_iff_le] at digit lower
  have nine : '9'.val.toNat = 57 := rfl
  omega

theorem isBlank_eq_false {c : Char} (other : ∀ x, Text.isBlank x → c ≠ x) :
    Text.isBlank c = false := by
  by_contra blank
  exact other c (by simpa using blank) rfl

theorem isLower_of_isBlank {x : Char} (blank : Text.isBlank x) :
    x.isLower = false ∧ x.isDigit = false := by
  simp only [Text.isBlank, Bool.or_eq_true, beq_iff_eq] at blank
  rcases blank with (((rfl | rfl) | rfl) | rfl) | rfl <;> decide

theorem startsDigits_of_isLower {c : Char} (lower : c.isLower) (rest : List Char) :
    startsDigits (c :: rest) = false := by
  unfold startsDigits
  split
  · rename_i same
    cases same
    exact absurd rfl (ne_of_isLower lower (x := '.') rfl)
  · rename_i same
    cases same
    exact isDigit_of_isLower lower
  · rfl

theorem startsNumber_of_isLower {c : Char} (lower : c.isLower) (rest : List Char) :
    startsNumber (c :: rest) = false := by
  unfold startsNumber
  split
  · rename_i same
    cases same
    exact absurd rfl (ne_of_isLower lower (x := '+') rfl)
  · rename_i same
    cases same
    exact absurd rfl (ne_of_isLower lower (x := '-') rfl)
  · exact startsDigits_of_isLower lower rest

theorem startsNumber_of_isDigit {c : Char} (digit : c.isDigit) (rest : List Char) :
    startsNumber (c :: rest) := by
  unfold startsNumber
  split
  · rename_i same
    cases same
    exact absurd rfl (ne_of_isDigit digit (x := '+') rfl)
  · rename_i same
    cases same
    exact absurd rfl (ne_of_isDigit digit (x := '-') rfl)
  · unfold startsDigits
    split
    · rename_i same
      cases same
      exact absurd rfl (ne_of_isDigit digit (x := '.') rfl)
    · rename_i same
      cases same
      exact digit
    · rename_i same
      cases same

theorem startsName_of_isLower {c : Char} (lower : c.isLower) (rest : List Char) :
    startsName (c :: rest) := by
  have start : isNameStart c := by simp [isNameStart, isAlpha_of_isLower lower]
  unfold startsName
  split
  · rename_i same
    cases same
    exact absurd rfl (ne_of_isLower lower (x := '-') rfl)
  · rename_i same
    cases same
    exact absurd rfl (ne_of_isLower lower (x := '\\') rfl)
  · rename_i same
    cases same
    exact start
  · rename_i same
    cases same

theorem scan_of_isLower {c : Char} (lower : c.isLower) (rest : List Char) :
    scan c rest = identLike (c :: rest) := by
  have blank : Text.isBlank c = false :=
    isBlank_eq_false fun x blank => ne_of_isLower lower (isLower_of_isBlank blank).1
  unfold scan
  simp only [blank, Bool.false_eq_true, ↓reduceIte, startsNumber_of_isLower lower]
  split
  case h_22 => simp [startsName_of_isLower lower]
  all_goals exact absurd lower (by decide)

/-- A text after which a name has ended and no function starts. -/
def EndsIdent (rest : List Char) : Prop :=
  ∀ x ∈ rest.head?, endsName x ∧ x ≠ '('

end Lexer

namespace Grammar

open Lexer

theorem Name.isNamePart (n : Name) : ∀ c ∈ n.chars, Grammar.isNamePart c := by
  intro c member
  rcases List.mem_cons.1 member with rfl | later
  · exact isNamePart_of_isLower n.lower
  · exact n.parts c later

theorem Name.name_append (n : Name) {rest : List Char} (stop : EndsIdent rest) :
    name (n.chars ++ rest) = (n.chars, rest) :=
  Lexer.name_append n.isNamePart fun x head => (stop x head).1

theorem identLike_of_name {cs chars rest : List Char} (named : name cs = (chars, rest))
    (stop : EndsIdent rest) : identLike cs = (.ident (String.ofList chars), rest) := by
  unfold identLike
  rw [named]
  cases rest with
  | nil => rfl
  | cons x rest =>
    have paren := (stop x rfl).2
    simp [paren]

theorem Name.scan (n : Name) {rest : List Char} (stop : EndsIdent rest) :
    Lexer.scan n.first (n.rest ++ rest) = (.ident n.text, rest) := by
  rw [scan_of_isLower n.lower]
  exact identLike_of_name (n.name_append stop) stop

theorem Name.scan_at (n : Name) {rest : List Char} (stop : EndsIdent rest) :
    Lexer.scan '@' (n.chars ++ rest) = (.atKeyword n.text, rest) := by
  have starts : startsName (n.chars ++ rest) := startsName_of_isLower n.lower _
  have scanned : Lexer.scan '@' (n.chars ++ rest) =
      if startsName (n.chars ++ rest) then
        (.atKeyword (String.ofList (name (n.chars ++ rest)).1), (name (n.chars ++ rest)).2)
      else (.delim '@', n.chars ++ rest) := rfl
  rw [scanned, if_pos starts, n.name_append stop]
  rfl

theorem Name.scan_hash (n : Name) {rest : List Char} (stop : EndsIdent rest) :
    Lexer.scan '#' (n.chars ++ rest) = (.idHash n.text, rest) := by
  have starts : startsName (n.chars ++ rest) := startsName_of_isLower n.lower _
  have scanned : Lexer.scan '#' (n.chars ++ rest) = hashToken (n.chars ++ rest) := rfl
  rw [scanned]
  unfold hashToken
  rw [if_pos starts, n.name_append stop]
  rfl

theorem Name.scan_custom (n : Name) {rest : List Char} (stop : EndsIdent rest) :
    Lexer.scan '-' ('-' :: n.chars ++ rest) =
      (.ident (String.ofList ('-' :: '-' :: n.chars)), rest) := by
  have arrow : n.first ≠ '>' := ne_of_isLower n.lower rfl
  have named : name ('-' :: '-' :: n.chars ++ rest) = ('-' :: '-' :: n.chars, rest) := by
    apply Lexer.name_append
    · intro c member
      simp only [List.mem_cons] at member
      rcases member with rfl | rfl | inside
      · rfl
      · rfl
      · exact n.isNamePart c inside
    · exact fun x head => (stop x head).1
  have scanned : Lexer.scan '-' ('-' :: n.chars ++ rest) =
      identLike ('-' :: '-' :: n.chars ++ rest) := by
    unfold Lexer.scan
    simp [Name.chars, arrow, Text.isBlank, startsNumber, startsDigits, startsName]
  rw [scanned, identLike_of_name named stop]

/-- A text after which a word has ended. -/
def EndsWord (rest : List Char) : Prop :=
  ∀ x ∈ rest.head?, x = ' ' ∨ x = ',' ∨ x = ';' ∨ x = ')'

theorem EndsWord.endsIdent {rest : List Char} (ends : EndsWord rest) : EndsIdent rest := by
  intro x head
  rcases ends x head with rfl | rfl | rfl | rfl <;> decide

def Digits.value (d : Digits) : Number :=
  writtenValue false d.chars none none

def Digits.numeric (d : Digits) (x : Number) : Numeric :=
  ⟨Number.Format.single.ofNumber x,
    some (cutInteger (Number.signed false (Number.ofDigits d.chars))), false⟩

def Word.token : Word → Token
  | name n => .ident n.text
  | number d .none => .number (d.numeric d.value)
  | number d .percent =>
    .percentage (d.numeric (d.value.div .double (Number.Format.double.ofNat 100)))
  | number d (.unit first rest _ _) =>
    .dimension (d.numeric d.value) (String.ofList (first :: rest))

theorem Digits.isDigit (d : Digits) : ∀ c ∈ d.chars, c.isDigit := by
  intro c member
  rcases List.mem_cons.1 member with rfl | later
  · exact d.digit
  · exact d.digits c later

theorem takeSign_of_head {cs : List Char} (plain : ∀ c ∈ cs.head?, c ≠ '-' ∧ c ≠ '+') :
    Number.takeSign cs = (false, cs) := by
  unfold Number.takeSign
  split
  · exact absurd rfl (plain '-' rfl).1
  · exact absurd rfl (plain '+' rfl).2
  · rfl

theorem takeWhile_dropWhile_append {α : Type} {p : α → Bool} {front rest : List α}
    (all : ∀ x ∈ front, p x) (stop : ∀ x ∈ rest.head?, p x = false) :
    (front ++ rest).takeWhile p = front ∧ (front ++ rest).dropWhile p = rest := by
  rw [List.takeWhile_append_of_pos all, List.dropWhile_append_of_pos all]
  cases rest with
  | nil => simp
  | cons x rest => simp [stop x rfl]

/-- The token of digits with what follows them. -/
def Digits.tokenBefore (d : Digits) : List Char → Token × List Char
  | '%' :: after =>
    (.percentage (d.numeric (d.value.div .double (Number.Format.double.ofNat 100))), after)
  | tail =>
    if startsName tail then
      (.dimension (d.numeric d.value) (String.ofList (name tail).1), (name tail).2)
    else (.number (d.numeric d.value), tail)

/-- A number is its digits if neither a fraction nor an exponent follows them. -/
theorem Digits.scan (d : Digits) {tail : List Char}
    (digit : ∀ x ∈ tail.head?, x.isDigit = false) (point : ∀ x ∈ tail.head?, x ≠ '.')
    (exponent : exponent? tail = (none, tail)) :
    Lexer.scan d.first (d.rest ++ tail) = d.tokenBefore tail := by
  have blank : Text.isBlank d.first = false :=
    isBlank_eq_false fun x blank => ne_of_isDigit d.digit (isLower_of_isBlank blank).2
  have starts := startsNumber_of_isDigit d.digit (d.rest ++ tail)
  have sign : Number.takeSign (d.chars ++ tail) = (false, d.chars ++ tail) := by
    apply takeSign_of_head
    intro c head
    cases head
    exact ⟨ne_of_isDigit d.digit rfl, ne_of_isDigit d.digit rfl⟩
  obtain ⟨whole, after⟩ := takeWhile_dropWhile_append d.isDigit digit
  have fraction : fraction? tail = (none, tail) := by
    unfold fraction?
    split
    · exact absurd rfl (point '.' rfl)
    · rfl
  unfold Lexer.scan
  rw [if_neg (by simp [blank]), if_pos starts, ← List.cons_append, ← Digits.chars]
  unfold numericToken
  simp only [sign, whole, after, fraction, exponent]
  unfold tokenBefore
  split
  · simp [value, numeric]
  · simp only [value, numeric, Option.isNone_none, Bool.and_self, ↓reduceIte, bne_self_eq_false]

theorem EndsWord.exponent {rest : List Char} (ends : EndsWord rest) :
    exponent? rest = (none, rest) := by
  cases rest with
  | nil => rfl
  | cons x rest =>
    rcases ends x rfl with rfl | rfl | rfl | rfl <;> simp [exponent?]

/-- The letter of an exponent is part of a unit if no digit follows. -/
theorem exponent?_unit {first : Char} {letters rest : List Char}
    (lower : ∀ c ∈ letters, c.isLower) (ends : EndsWord rest) :
    exponent? (first :: (letters ++ rest)) = (none, first :: (letters ++ rest)) := by
  have sign : Number.takeSign (letters ++ rest) = (false, letters ++ rest) := by
    apply takeSign_of_head
    intro c head
    cases letters with
    | nil => rcases ends c head with rfl | rfl | rfl | rfl <;> decide
    | cons l letters =>
      cases head
      have letter := lower c (by simp)
      exact ⟨ne_of_isLower letter rfl, ne_of_isLower letter rfl⟩
  have digits : (letters ++ rest).takeWhile Char.isDigit = [] := by
    cases letters with
    | nil =>
      cases rest with
      | nil => rfl
      | cons x rest => rcases ends x rfl with rfl | rfl | rfl | rfl <;> rfl
    | cons l letters =>
      rw [List.cons_append, List.takeWhile_cons_of_neg]
      simp [isDigit_of_isLower (lower l (by simp))]
  simp [exponent?, sign, digits]

theorem Word.scan (w : Word) {c : Char} {cs : List Char} (chars : w.chars = c :: cs)
    {rest : List Char} (ends : EndsWord rest) :
    Lexer.scan c (cs ++ rest) = (w.token, rest) := by
  cases w with
  | name n =>
    cases chars
    exact n.scan ends.endsIdent
  | number d suffix =>
    obtain ⟨rfl, rfl⟩ : d.first = c ∧ d.rest ++ suffix.chars = cs := by
      simpa [Word.chars, Digits.chars] using chars
    rw [List.append_assoc]
    cases suffix with
    | none =>
      rw [Suffix.chars, List.nil_append, d.scan _ _ ends.exponent]
      · cases rest with
        | nil => rfl
        | cons x rest => rcases ends x rfl with rfl | rfl | rfl | rfl <;> rfl
      · intro x head
        rcases ends x head with rfl | rfl | rfl | rfl <;> rfl
      · intro x head
        rcases ends x head with rfl | rfl | rfl | rfl <;> decide
    | percent =>
      rw [Suffix.chars, d.scan (by simp) (by simp) rfl]
      rfl
    | unit first letters lower all =>
      have named : Lexer.name (first :: (letters ++ rest)) = (first :: letters, rest) := by
        rw [← List.cons_append]
        apply Lexer.name_append
        · intro c member
          rcases List.mem_cons.1 member with rfl | later
          · exact isNamePart_of_isLower lower
          · exact isNamePart_of_isLower (all c later)
        · exact fun x head => (ends.endsIdent x head).1
      have percent : first ≠ '%' := ne_of_isLower lower rfl
      rw [Suffix.chars, List.cons_append, d.scan _ _ (exponent?_unit all ends)]
      · unfold Digits.tokenBefore
        split
        · rename_i same
          exact absurd (List.cons.inj same).1 percent
        · rw [if_pos (startsName_of_isLower lower _), named]
          rfl
      · simpa using isDigit_of_isLower lower
      · simpa using ne_of_isLower lower rfl

end Grammar

end CssOutline
