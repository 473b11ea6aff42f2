import CssOutline.Proofs.JsonGrammar
import CssOutline.Proofs.JsonRoundTrip

/-! The tokens of a JSON text are those of its marks, up to the first mark that has none: a closing
bracket, behind which nothing is read, or a number that is too great. Numbers are told apart by what
stands between them, so no two of them may be neighbours, and in a tree none are. -/

namespace CssOutline.Json

open Numeral (Written)

/-- The token of a mark. Closing brackets and numbers out of range have none. -/
def Mark.token? : Mark → Option Token
  | openBrace => some .openBrace
  | closeBrace => some .closeBrace
  | openBracket => some .openBracket
  | closeBracket => none
  | colon => some .colon
  | comma => some .comma
  | string value => some (.string value)
  | number literal => (Numeral.ofWritten literal).map .number
  | bool value => some (.bool value)
  | null => some .null

def tokensOf : List Mark → List Token
  | [] => []
  | m :: ms =>
    match m.token? with
    | none => [.bad]
    | some t => t :: tokensOf ms

def Mark.isNumber : Mark → Bool
  | number _ => true
  | _ => false

def Apart : List Mark → Prop
  | [] => True
  | m :: ms => (m.isNumber → ∀ n ∈ ms.head?, n.isNumber = false) ∧ Apart ms

/-! ### One mark -/

theorem IsUnsigned.exists_digit {w : Written} {unsigned : List Char}
    (text : IsUnsigned w unsigned) : ∃ c cs, unsigned = c :: cs ∧ c.isDigit := by
  obtain ⟨c, whole, same⟩ := List.exists_cons_of_ne_nil text.whole.1
  obtain ⟨exponent, -, rfl⟩ := text.text
  refine ⟨c, whole ++ fractionText w.fraction ++ exponent, by rw [same]; rfl, ?_⟩
  exact text.whole.2 c (by simp [same])

theorem isBlank_of_isDigit {c : Char} (digit : c.isDigit) : isBlank c = false := by
  simp [isBlank, Lexer.ne_of_isDigit digit]

/-- A mark does not start with a blank, and only a number starts as a number goes on. -/
theorem Mark.IsText.exists_cons {m : Mark} {w : List Char} (text : m.IsText w) :
    ∃ c cs, w = c :: cs ∧ isBlank c = false ∧
      (m.isNumber = false → c.isDigit = false ∧ c ≠ '.' ∧ c ≠ 'e' ∧ c ≠ 'E') := by
  cases m with
  | string s =>
    obtain ⟨body, -, rfl⟩ := text
    exact ⟨_, _, rfl, by decide, fun _ => by decide⟩
  | number literal =>
    obtain ⟨unsigned, number, rfl⟩ := text
    obtain ⟨c, cs, rfl, digit⟩ := number.exists_digit
    cases literal.negative with
    | true => exact ⟨_, _, rfl, by decide, by simp [isNumber]⟩
    | false => exact ⟨_, _, rfl, isBlank_of_isDigit digit, by simp [isNumber]⟩
  | bool value =>
    cases value <;> obtain rfl := text <;> exact ⟨_, _, rfl, by decide, by decide⟩
  | _ =>
    obtain rfl := text
    exact ⟨_, _, rfl, by decide, by decide⟩

theorem token?_of_isDigit {c : Char} (digit : c.isDigit) (cs : List Char) :
    token? (c :: cs) = (number? false (c :: cs)).map fun (n, tail) => (.number n, tail) := by
  have other {x : Char} (plain : x.isDigit = false) : c ≠ x := Lexer.ne_of_isDigit digit plain
  rw [token?, if_pos digit]
  all_goals first | exact other rfl | exact fun _ same => absurd same (other rfl)

theorem token?_append {m : Mark} {w rest : List Char} (text : m.IsText w)
    (ends : m.isNumber → EndsNumber rest) :
    token? (w ++ rest) = m.token?.map fun t => (t, rest) := by
  cases m with
  | string s =>
    obtain ⟨body, spells, rfl⟩ := text
    have found : stringRest? (body ++ '"' :: rest) = some (s.toList, rest) :=
      stringRest?_eq_some_iff.2 ⟨body, spells, rfl⟩
    have start : '"' :: body ++ ['"'] ++ rest = '"' :: (body ++ '"' :: rest) := by simp
    rw [start, token?, found]
    simp [Mark.token?]
  | number literal =>
    obtain ⟨unsigned, number, rfl⟩ := text
    have found := number?_append number (ends rfl)
    cases sign : literal.negative with
    | true =>
      rw [sign] at found
      simp only [↓reduceIte, List.cons_append, token?, found]
      simp [Mark.token?, Function.comp_def]
    | false =>
      obtain ⟨c, cs, rfl, digit⟩ := number.exists_digit
      rw [sign] at found
      simp only [Bool.false_eq_true, ↓reduceIte, List.cons_append] at found ⊢
      rw [token?_of_isDigit digit, found]
      simp [Mark.token?, Function.comp_def]
  | bool value => cases value <;> obtain rfl := text <;> rfl
  | closeBracket =>
    obtain rfl := text
    rfl
  | _ =>
    obtain rfl := text
    rfl

theorem exists_mark_of_token? {cs rest : List Char} {t : Token}
    (found : token? cs = some (t, rest)) :
    ∃ m w, Mark.IsText m w ∧ m.token? = some t ∧ cs = w ++ rest := by
  have number {negative : Bool} {cs : List Char} {n : Numeral}
      (found : number? negative cs = some (n, rest)) :
      ∃ m w, Mark.IsText m w ∧ m.token? = some (.number n) ∧
        (if negative then '-' :: cs else cs) = w ++ rest := by
    obtain ⟨literal, unsigned, rfl, text, rfl, range⟩ := isUnsigned_of_number? found
    refine ⟨.number literal, _, ⟨unsigned, text, rfl⟩, by simp [Mark.token?, range], ?_⟩
    split <;> rfl
  unfold token? at found
  split at found
  case h_9 tail =>
    simp only [Option.map_eq_some_iff, Prod.mk.injEq] at found
    obtain ⟨⟨s, after⟩, found, rfl, rfl⟩ := found
    obtain ⟨body, spells, rfl⟩ := stringRest?_eq_some_iff.1 found
    exact ⟨.string (String.ofList s), _, ⟨body, by simpa using spells, rfl⟩, rfl, by simp⟩
  case h_10 tail =>
    simp only [Option.map_eq_some_iff, Prod.mk.injEq] at found
    obtain ⟨⟨n, after⟩, found, rfl, rfl⟩ := found
    exact number found
  case h_11 =>
    split at found
    · simp only [Option.map_eq_some_iff, Prod.mk.injEq] at found
      obtain ⟨⟨n, after⟩, found, rfl, rfl⟩ := found
      exact number found
    · cases found
  case h_12 => cases found
  case h_6 => cases found; exact ⟨.null, _, rfl, rfl, rfl⟩
  case h_7 => cases found; exact ⟨.bool true, _, rfl, rfl, rfl⟩
  case h_8 => cases found; exact ⟨.bool false, _, rfl, rfl, rfl⟩
  case h_1 => cases found; exact ⟨.openBrace, _, rfl, rfl, rfl⟩
  case h_2 => cases found; exact ⟨.closeBrace, _, rfl, rfl, rfl⟩
  case h_3 => cases found; exact ⟨.openBracket, _, rfl, rfl, rfl⟩
  case h_4 => cases found; exact ⟨.colon, _, rfl, rfl, rfl⟩
  case h_5 => cases found; exact ⟨.comma, _, rfl, rfl, rfl⟩

/-! ### Whole texts -/

theorem tokens_of_token?_eq_none {c : Char} {rest : List Char} (solid : isBlank c = false)
    (missing : token? (c :: rest) = none) : tokens (c :: rest) = [.bad] := by
  rw [tokens]
  simp only [solid, Bool.false_eq_true, ↓reduceIte]
  split
  · rfl
  · simp_all

theorem MadeOf.endsNumber {cs : List Char} {ms : List Mark} (made : MadeOf cs ms)
    (other : ∀ m ∈ ms.head?, m.isNumber = false) : EndsNumber cs := by
  cases made with
  | nil => simp [EndsNumber]
  | blank blank later =>
    rintro x ⟨⟩
    simp only [isBlank, Bool.or_eq_true, beq_iff_eq] at blank
    rcases blank with ((rfl | rfl) | rfl) | rfl <;> decide
  | @mark m w cs ms text later =>
    obtain ⟨c, cs, rfl, -, plain⟩ := text.exists_cons
    rintro x ⟨⟩
    exact plain (other m rfl)

theorem MadeOf.tokens_eq {cs : List Char} {ms : List Mark} (made : MadeOf cs ms)
    (apart : Apart ms) : tokens cs = tokensOf ms := by
  induction made with
  | nil => simp [tokens, tokensOf]
  | blank blank later ih => rw [tokens_blank blank, ih apart]
  | @mark m w cs ms text later ih =>
    obtain ⟨c, w, rfl, solid, -⟩ := text.exists_cons
    have found := token?_append text fun number => later.endsNumber (apart.1 number)
    rw [List.cons_append] at found ⊢
    cases token : m.token? with
    | none => simp [tokens_of_token?_eq_none solid (by rw [found, token]; rfl), tokensOf, token]
    | some t =>
      rw [token] at found
      simp [tokens_of_token? solid found, tokensOf, token, ih apart.2]

theorem exists_madeOf {cs : List Char} (good : .bad ∉ tokens cs) :
    ∃ ms, MadeOf cs ms ∧ tokensOf ms = tokens cs := by
  fun_induction tokens cs with
  | case1 => exact ⟨[], .nil, rfl⟩
  | case2 c rest blank ih =>
    obtain ⟨ms, made, same⟩ := ih good
    exact ⟨ms, .blank blank made, same⟩
  | case3 => simp at good
  | case4 c rest solid t after found shorter ih =>
    obtain ⟨ms, made, same⟩ := ih fun member => good (by simp [member])
    obtain ⟨m, w, text, token, split⟩ := exists_mark_of_token? found
    refine ⟨m :: ms, split ▸ .mark text made, ?_⟩
    simp [tokensOf, token, same]

/-! ### The marks of a tree -/

theorem apart_append {front : List Mark} (other : ∀ m ∈ front, m.isNumber = false)
    (ms : List Mark) : Apart (front ++ ms) ↔ Apart ms := by
  induction front with
  | nil => rfl
  | cons m front ih =>
    rw [List.cons_append, Apart, ih fun n member => other n (by simp [member])]
    simp [other m (by simp)]

theorem apart_cons {m : Mark} (other : m.isNumber = false) (ms : List Mark) :
    Apart (m :: ms) ↔ Apart ms := by
  have single : ∀ n ∈ [m], n.isNumber = false := by simpa using other
  exact apart_append single ms

mutual

theorem Tree.apart_marks {rest : List Mark} (later : Apart rest)
    (stop : ∀ m ∈ rest.head?, m.isNumber = false) : (t : Tree) → Apart (t.marks ++ rest)
  | .null => (apart_cons rfl _).2 later
  | .bool _ => (apart_cons rfl _).2 later
  | .number _ => ⟨fun _ => stop, later⟩
  | .string _ => (apart_cons rfl _).2 later
  | .array items => by
    have closed : Apart (.closeBracket :: rest) := (apart_cons rfl _).2 later
    have inner : Apart (itemMarks [] items ++ .closeBracket :: rest) :=
      apart_itemMarks (by simp) closed (by simp [Mark.isNumber]) items
    rw [Tree.marks, List.append_assoc]
    exact (apart_cons rfl _).2 inner
  | .object members => by
    have closed : Apart (.closeBrace :: rest) := (apart_cons rfl _).2 later
    have inner : Apart (memberMarks [] members ++ .closeBrace :: rest) :=
      apart_memberMarks (by simp) closed (by simp [Mark.isNumber]) members
    rw [Tree.marks, List.append_assoc]
    exact (apart_cons rfl _).2 inner

theorem apart_itemMarks {separator rest : List Mark}
    (other : ∀ m ∈ separator, m.isNumber = false) (later : Apart rest)
    (stop : ∀ m ∈ rest.head?, m.isNumber = false) :
    (items : List Tree) → Apart (itemMarks separator items ++ rest)
  | [] => later
  | t :: ts => by
    have next : Apart (itemMarks [.comma] ts ++ rest) :=
      apart_itemMarks (by simp [Mark.isNumber]) later stop ts
    have head : ∀ m ∈ (itemMarks [.comma] ts ++ rest).head?, m.isNumber = false := by
      cases ts with
      | nil => exact stop
      | cons => simp [itemMarks, Mark.isNumber]
    rw [itemMarks, List.append_assoc, List.append_assoc]
    exact (apart_append other _).2 (t.apart_marks next head)

theorem apart_memberMarks {separator rest : List Mark}
    (other : ∀ m ∈ separator, m.isNumber = false) (later : Apart rest)
    (stop : ∀ m ∈ rest.head?, m.isNumber = false) :
    (members : List (String × Tree)) → Apart (memberMarks separator members ++ rest)
  | [] => later
  | (key, t) :: ms => by
    have next : Apart (memberMarks [.comma] ms ++ rest) :=
      apart_memberMarks (by simp [Mark.isNumber]) later stop ms
    have head : ∀ m ∈ (memberMarks [.comma] ms ++ rest).head?, m.isNumber = false := by
      cases ms with
      | nil => exact stop
      | cons => simp [memberMarks, Mark.isNumber]
    have named : ∀ m ∈ separator ++ [.string key, .colon], m.isNumber = false := by
      simpa [or_imp, forall_and, Mark.isNumber] using other
    have text : memberMarks separator ((key, t) :: ms) ++ rest =
        (separator ++ [.string key, .colon]) ++ (t.marks ++ (memberMarks [.comma] ms ++ rest)) := by
      simp [memberMarks]
    rw [text]
    exact (apart_append named _).2 (t.apart_marks next head)

end

theorem Tree.IsText.tokens_eq {t : Tree} {cs : List Char} (text : t.IsText cs) :
    tokens cs = tokensOf t.marks := by
  have nothing : Apart [] := trivial
  have apart := t.apart_marks nothing (by simp)
  rw [List.append_nil] at apart
  exact MadeOf.tokens_eq text apart

end CssOutline.Json
