import CssOutline.Proofs.PrintedNames
import CssOutline.Proofs.SelectorShape
import CssOutline.Math.Reader
import Mathlib

/-! The words of math expressions. The names of functions, units and rounding strategies hold letters
and hyphens only, in either case, and are written as they are; decimals hold letters, digits and
points after their sign. -/

namespace CssOutline

namespace Text

/-- Letters and hyphens, of which the first is a letter. -/
def isPlainWord (s : String) : Bool :=
  s.toList.head?.any Char.isAlpha && s.toList.all fun c => c.isAlpha || c == '-'

theorem toLower_cases (c : Char) : c.toLower = c ∨ c.isAlpha := by
  unfold Char.toLower
  split
  · rename_i upper
    right
    simpa [Char.isAlpha, Char.isUpper] using Or.inl upper
  · exact .inl rfl

theorem isAlpha_of_toLower {c : Char} (letter : c.toLower.isAlpha) : c.isAlpha := by
  rcases toLower_cases c with same | plain
  · rwa [same] at letter
  · exact plain

theorem toList_toLower (s : String) : s.toLower.toList = s.toList.map Char.toLower :=
  String.toList_map

/-- A lowered letter is not a capital any more. -/
theorem toLower_toLower_char (c : Char) : c.toLower.toLower = c.toLower := by
  have last : 'Z'.val.toNat = 90 := rfl
  have step : ('a'.val - 'A'.val).toNat = 32 := rfl
  unfold Char.toLower
  split
  · rename_i capital
    simp only [ge_iff_le, UInt32.le_iff_toNat_le, last] at capital
    rw [dif_neg]
    have moved : (c.val + ('a'.val - 'A'.val)).toNat = c.val.toNat + 32 := by
      rw [UInt32.toNat_add, step]
      omega
    have first : 'A'.val.toNat = 65 := rfl
    simp only [ge_iff_le, UInt32.le_iff_toNat_le, moved, last]
    omega
  · rfl

theorem toLower_toLower (s : String) : s.toLower.toLower = s.toLower := by
  apply String.toList_inj.1
  rw [toList_toLower, toList_toLower, List.map_map]
  exact List.map_congr_left fun c _ => toLower_toLower_char c

theorem isPlainWord_of_toLower {s : String} (word : isPlainWord s.toLower) : isPlainWord s := by
  unfold isPlainWord at word ⊢
  rw [toList_toLower] at word
  cases chars : s.toList with
  | nil => simp [chars] at word
  | cons c cs =>
    simp only [chars, List.map_cons, List.head?_cons, Option.any_some, List.all_cons, List.all_map,
      Bool.and_eq_true, List.all_eq_true, Bool.or_eq_true, beq_iff_eq,
      Function.comp_apply] at word ⊢
    refine ⟨isAlpha_of_toLower word.1, .inl (isAlpha_of_toLower word.1), fun x member => ?_⟩
    rcases toLower_cases x with same | letter
    · simpa [same] using word.2.2 x member
    · exact .inl letter

theorem isPlainWord_of_contains {known : List String} (all : known.all isPlainWord) {s : String}
    (found : known.contains s.toLower) : isPlainWord s := by
  exact isPlainWord_of_toLower (List.all_eq_true.1 all _ (by simpa using found))

section Word

variable {s : String} (word : isPlainWord s)

include word

theorem isPlainWord_cons : ∃ c cs, s.toList = c :: cs ∧ c.isAlpha ∧
    ∀ x ∈ c :: cs, x.isAlpha ∨ x = '-' := by
  obtain ⟨first, all⟩ := Bool.and_eq_true_iff.1 word
  cases chars : s.toList with
  | nil => simp [chars] at first
  | cons c cs =>
    rw [chars] at first all
    exact ⟨c, cs, rfl, by simpa using first, by simpa using all⟩

theorem isName_of_isPlainWord : IsName s := by
  obtain ⟨c, cs, chars, _, all⟩ := isPlainWord_cons word
  constructor
  · rintro rfl
    cases chars
  · rw [chars]
    intro zero
    rcases all _ zero with letter | same
    · cases letter
    · cases same

theorem identifier_of_isPlainWord : Printer.identifier s = s := by
  obtain ⟨c, cs, chars, first, all⟩ := isPlainWord_cons word
  have single : ∀ x ∈ c :: cs, Printer.nameChar x = [x] := by
    intro x member
    unfold Printer.nameChar
    rcases all x member with letter | rfl
    · simp [Char.isAlphanum, letter]
    · rfl
  have whole : ∀ ds : List Char, (∀ x ∈ ds, Printer.nameChar x = [x]) →
      Printer.nameChars ds = ds := by
    intro ds single
    rw [Printer.nameChars, List.flatMap_congr single]
    simp
  have hyphen : c ≠ '-' := by
    rintro rfl
    cases first
  have digit : c.isDigit = false := by
    by_contra digit
    rw [Bool.not_eq_false] at digit
    have start : Lexer.isNameStart c := by simp [Lexer.isNameStart, first]
    rw [Lexer.isDigit_of_isNameStart start] at digit
    cases digit
  have printed : Printer.identifierChars (c :: cs) = c :: cs := by
    unfold Printer.identifierChars
    split
    · rename_i same
      exact absurd (List.cons.inj same).1 hyphen
    · rename_i same
      exact absurd (List.cons.inj same).1 hyphen
    · rename_i same
      exact absurd (List.cons.inj same).1 hyphen
    · rw [Printer.startChars, digit]
      exact whole _ single
  rw [Printer.identifier, chars, printed, ← chars, String.ofList_toList]

theorem plain_call (url : sameName s "url" = false) (rest : List Char) :
    Lexer.plain (s.toList ++ '(' :: rest) =
      ⟨.function s, s.toList ++ ['('], .origin⟩ :: Lexer.plain rest := by
  have named := isName_of_isPlainWord word
  have printed := congrArg String.toList (identifier_of_isPlainWord word)
  obtain ⟨c, cs, chars⟩ := named.exists_identifier
  have stops : ∀ x ∈ ('(' :: rest).head?, Lexer.endsName x := by simp; decide
  have read := named.scan_identifier chars stops (by simp)
  have call : Lexer.scan c (cs ++ ['('] ++ rest) = (.function s, rest) := by
    rw [List.append_assoc, List.singleton_append, read, Lexer.identLike, named.name_identifier stops]
    simp [url]
  have opening := Lexer.plain_append call
  rw [← printed, chars]
  simpa using opening

theorem spells_plainWord : Node.Spells (fun rest => Lexer.EndsIdent rest) s.toList
    [Node.atom (.ident s) s.toList] := by
  have printed := identifier_of_isPlainWord word
  have spelled := (isName_of_isPlainWord word).spells_identifier
  rw [Node.word, printed] at spelled
  refine spelled.mono fun rest ends => ⟨ends, ?_⟩
  rintro rfl
  cases word

theorem visible_of_isPlainWord (more : List Char) : Node.Visible (s.toList ++ more) := by
  obtain ⟨c, cs, chars, first, _⟩ := isPlainWord_cons word
  have start : Lexer.startsName (c :: cs) := by
    have starts := (isName_of_isPlainWord word).startsName_identifier []
    rwa [identifier_of_isPlainWord word, List.append_nil, chars] at starts
  exact ⟨c, cs ++ more, by rw [chars]; rfl, Lexer.isBlank_of_startsName start⟩

end Word

end Text

theorem Math.isPlainWord_of_isName {name : String} (known : Math.isName name) :
    Text.isPlainWord name :=
  Text.isPlainWord_of_contains (by decide +kernel) known

theorem Math.sameName_of_isName {name other : String} (known : Math.isName name)
    (unknown : Math.isName other = false) : Text.sameName name other = false := by
  by_contra same
  rw [Bool.not_eq_false, Text.sameName, beq_iff_eq] at same
  rw [Math.isName, same, ← Math.isName, unknown] at known
  cases known

theorem Math.isName_of_ofTerms? {name : String} {ts : List Term} {m : Math}
    (read : Math.ofTerms? name ts = some m) : Math.isName name := by
  by_contra other
  rw [Math.ofTerms?_of_not_isName other] at read
  cases read

theorem Math.isPlainWord_of_strategy {name : String}
    (known : Math.strategies.contains name.toLower) : Text.isPlainWord name :=
  Text.isPlainWord_of_contains (by decide +kernel) known

theorem Length.isAlpha_of_isUnit {unit : String} (known : Length.isUnit unit) :
    unit.toList ≠ [] ∧ ∀ c ∈ unit.toList, c.isAlpha := by
  have all : Length.units.all fun u => u.toList ≠ [] ∧ u.toList.all Char.isAlpha := by
    decide +kernel
  have here := List.all_eq_true.1 all _ (List.contains_iff_mem.1 known)
  simp only [Text.toList_toLower, List.all_map, Bool.decide_and, Bool.and_eq_true, decide_eq_true_eq,
    List.all_eq_true] at here
  exact ⟨by simpa using here.1, fun c member => Text.isAlpha_of_toLower (here.2 c member)⟩

namespace Number

def IsDecimalChar (c : Char) : Prop :=
  c.isAlphanum ∨ c = '.'

theorem isDecimalChar_digits (n : Nat) : ∀ c ∈ (digitsText n).toList, IsDecimalChar c := by
  intro c member
  rw [digitsText, String.toList_ofList] at member
  exact .inl (by simp [Char.isAlphanum, Nat.isDigit_of_mem_toDigits (by decide) (by decide) member])

theorem isDecimalChar_zeros (n : Nat) : ∀ c ∈ (zeros n).toList, IsDecimalChar c := by
  intro c member
  rw [zeros, String.toList_ofList] at member
  rw [List.eq_of_mem_replicate member]
  exact .inl rfl

theorem Decimal.isDecimalChar_plain (d : Decimal) :
    d.plain.toList ≠ [] ∧ ∀ c ∈ d.plain.toList, IsDecimalChar c := by
  have digits : ∀ c ∈ Nat.toDigits 10 d.digits, IsDecimalChar c := by
    simpa [digitsText] using isDecimalChar_digits d.digits
  have point : IsDecimalChar '.' := .inr rfl
  have zero : IsDecimalChar '0' := .inl rfl
  unfold Decimal.plain
  split_ifs with whole
  · refine ⟨?_, ?_⟩
    · simp [digitsText, String.toList_append, Nat.toDigits_ne_nil]
    · simpa [String.toList_append, or_imp, forall_and] using
        ⟨isDecimalChar_digits d.digits, isDecimalChar_zeros _⟩
  · simp only
    split_ifs
    · refine ⟨by simp [String.toList_append], ?_⟩
      simpa [String.toList_append, or_imp, forall_and, point, zero] using
        ⟨isDecimalChar_zeros _, isDecimalChar_digits d.digits⟩
    · refine ⟨by simp [String.toList_append], ?_⟩
      simpa [String.toList_append, or_imp, forall_and, point] using
        ⟨fun c member => digits c (List.mem_of_mem_take member),
          fun c member => digits c (List.mem_of_mem_drop member)⟩

/-- A decimal is a sign and what comes after it. -/
theorem exists_format (x : Number) : ∃ negative body,
    x.format.toList = (sign negative).toList ++ body ∧ body ≠ [] ∧ ∀ c ∈ body, IsDecimalChar c := by
  have zero : ∀ c ∈ ['0'], IsDecimalChar c := by simp [IsDecimalChar]
  unfold format
  split_ifs with none
  · exact ⟨false, ['0'], rfl, by simp, zero⟩
  · cases x with
    | nan => exact ⟨false, ['N', 'a', 'N'], rfl, by simp, by simp [IsDecimalChar]⟩
    | infinite negative =>
      refine ⟨negative, ['i', 'n', 'f'], ?_, by simp, by simp [IsDecimalChar]⟩
      simp [text, String.toList_append]
    | finite negative m e =>
      simp only [text]
      split_ifs
      · exact ⟨negative, ['0'], by simp [String.toList_append], by simp, zero⟩
      · obtain ⟨some, chars⟩ := (shortest .single m e).isDecimalChar_plain
        exact ⟨negative, _, by rw [String.toList_append], some, chars⟩

end Number

end CssOutline
