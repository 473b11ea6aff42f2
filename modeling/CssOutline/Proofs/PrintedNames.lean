import CssOutline.Proofs.GrammarNodes

/-! Printed names and strings are scanned as what they were printed from. Every character that a
name cannot hold is escaped, so the name goes on exactly as far as it was printed; only two hyphens
before a closing angle bracket are another token. -/

namespace CssOutline

namespace Lexer

theorem isDigit_iff {c : Char} : c.isDigit ↔ 48 ≤ c.toNat ∧ c.toNat ≤ 57 := by
  simp only [Char.isDigit, Bool.and_eq_true, decide_eq_true_eq, UInt32.le_iff_toNat_le, ge_iff_le]
  rfl

theorem isAlpha_iff {c : Char} :
    c.isAlpha ↔ 65 ≤ c.toNat ∧ c.toNat ≤ 90 ∨ 97 ≤ c.toNat ∧ c.toNat ≤ 122 := by
  unfold Char.isAlpha Char.isUpper Char.isLower
  simp only [Bool.or_eq_true, Bool.and_eq_true, decide_eq_true_eq, UInt32.le_iff_toNat_le,
    ge_iff_le]
  rfl

theorem isHexDigit_iff {c : Char} :
    isHexDigit c ↔ 48 ≤ c.toNat ∧ c.toNat ≤ 57 ∨ 97 ≤ c.toNat ∧ c.toNat ≤ 102 ∨
      65 ≤ c.toNat ∧ c.toNat ≤ 70 := by
  have hex : isHexDigit c ↔ ('0' ≤ c ∧ c ≤ '9') ∨ ('a' ≤ c ∧ c ≤ 'f') ∨ ('A' ≤ c ∧ c ≤ 'F') := by
    unfold isHexDigit Text.hexValue?
    split_ifs <;> simp_all
  rw [hex]
  simp only [Char.le_def, UInt32.le_iff_toNat_le]
  rfl

theorem toDigits_hex : ∀ n < 128, Nat.toDigits 16 n ≠ [] ∧ (Nat.toDigits 16 n).length < 6 ∧
    (∀ d ∈ Nat.toDigits 16 n, isHexDigit d) ∧ hexNumber (Nat.toDigits 16 n) = n := by
  have all : (List.range 128).all (fun n => !(Nat.toDigits 16 n).isEmpty &&
      decide ((Nat.toDigits 16 n).length < 6) && (Nat.toDigits 16 n).all isHexDigit &&
      hexNumber (Nat.toDigits 16 n) == n) = true := by decide +kernel
  intro n small
  simpa [and_assoc] using List.all_eq_true.1 all n (by simpa using small)

theorem charOfCode_toNat {c : Char} (known : c ≠ '\x00') : charOfCode c.toNat = c := by
  have nonzero : c.toNat ≠ 0 := by
    intro zero
    apply known
    rw [← Char.ofNat_toNat c, zero]
  rw [charOfCode, if_pos ⟨nonzero, c.valid⟩, Char.ofNat_toNat]

theorem escape_hex {c : Char} (code : c.toNat < 128) (known : c ≠ '\x00') (rest : List Char) :
    escape ((Text.hex c.toNat).toList ++ ' ' :: rest) = (c, rest) := by
  obtain ⟨some, short, digits, value⟩ := toDigits_hex c.toNat code
  rw [Text.hex, String.toList_ofList]
  generalize Nat.toDigits 16 c.toNat = ds at some short digits value
  have taken : ((ds ++ ' ' :: rest).take 6).takeWhile isHexDigit = ds := by
    obtain ⟨k, more⟩ : ∃ k, 6 - ds.length = k + 1 := ⟨5 - ds.length, by omega⟩
    rw [List.take_append, List.take_of_length_le (by omega), more, List.take_succ_cons,
      List.takeWhile_append_of_pos digits, List.takeWhile_cons_of_neg (by decide), List.append_nil]
  obtain ⟨d, ds', rfl⟩ := List.exists_cons_of_ne_nil some
  rw [List.cons_append, escape, ← List.cons_append, taken]
  simp only
  rw [List.drop_left, value, charOfCode_toNat known]
  rfl

theorem escape_plain {c : Char} (plain : isHexDigit c = false) (nonzero : c ≠ '\x00')
    (rest : List Char) : escape (c :: rest) = (c, rest) := by
  have none : ((c :: rest).take 6).takeWhile isHexDigit = [] := by
    rw [List.take_succ_cons, List.takeWhile_cons_of_neg (by simp [plain])]
  rw [escape, none]
  simp [known, nonzero]

section Name

variable {c : Char} {rest : List Char}

theorem name_escape (line : startsNewline rest = false) :
    name ('\\' :: rest) =
      ((escape rest).1 :: (name (escape rest).2).1, (name (escape rest).2).2) := by
  rw [name]
  simp [line]

theorem name_cons (part : isNameChar c) (slash : c ≠ '\\') (nonzero : c ≠ '\x00') :
    name (c :: rest) = (c :: (name rest).1, (name rest).2) := by
  rw [name]
  simp [part, slash, known, nonzero]

theorem name_of_endsName (ends : ∀ x ∈ rest.head?, endsName x) : name rest = ([], rest) := by
  cases rest with
  | nil => simp [name]
  | cons x rest =>
    have stop := ends x rfl
    simp only [endsName, Bool.and_eq_true, Bool.not_eq_true', bne_iff_ne] at stop
    rw [name]
    simp [stop.1, stop.2]

theorem startsNewline_hex (code : c.toNat < 128) (rest : List Char) :
    startsNewline ((Text.hex c.toNat).toList ++ rest) = false := by
  obtain ⟨some, _, digits, _⟩ := toDigits_hex c.toNat code
  rw [Text.hex, String.toList_ofList]
  obtain ⟨d, ds, same⟩ := List.exists_cons_of_ne_nil some
  have digit := digits d (by simp [same])
  rw [same, List.cons_append, startsNewline]
  by_contra newline
  simp only [Text.isNewline, Bool.not_eq_false, Bool.or_eq_true, beq_iff_eq] at newline
  rcases newline with (rfl | rfl) | rfl <;> exact absurd digit (by decide)

theorem name_hexEscape (code : c.toNat < 128) (nonzero : c ≠ '\x00') (rest : List Char) :
    name (Printer.hexEscape c ++ rest) = (c :: (name rest).1, (name rest).2) := by
  have whole : Printer.hexEscape c ++ rest =
      '\\' :: ((Text.hex c.toNat).toList ++ ' ' :: rest) := by simp [Printer.hexEscape]
  rw [whole, name_escape (startsNewline_hex code _), escape_hex code nonzero]

/-- Whether a character of a name is printed as it is. -/
def isPrintedPlain (c : Char) : Bool :=
  c.isAlphanum || c == '_' || c == '-' || 0x80 ≤ c.toNat

theorem isPrintedPlain_eq_false (escaped : isPrintedPlain c = false) :
    c.toNat < 128 ∧ isHexDigit c = false := by
  simp only [isPrintedPlain, Char.isAlphanum, Bool.or_eq_false_iff,
    decide_eq_false_iff_not] at escaped
  obtain ⟨⟨⟨⟨alpha, digit⟩, _⟩, _⟩, high⟩ := escaped
  refine ⟨by omega, ?_⟩
  rw [← Bool.not_eq_true] at alpha digit ⊢
  rw [isAlpha_iff] at alpha
  rw [isDigit_iff] at digit
  rw [isHexDigit_iff]
  omega

theorem isNameChar_of_isPrintedPlain (plain : isPrintedPlain c) : isNameChar c := by
  simp only [isPrintedPlain, Char.isAlphanum, Bool.or_eq_true] at plain
  simp only [isNameChar, isNameStart, Bool.or_eq_true]
  tauto

theorem ne_slash_of_isPrintedPlain (plain : isPrintedPlain c) : c ≠ '\\' := by
  rintro rfl
  revert plain
  decide

theorem startsNewline_of_printable (printable : Printer.isNonPrintable c = false) :
    startsNewline (c :: rest) = false := by
  by_contra newline
  simp only [startsNewline, Text.isNewline, Bool.not_eq_false, Bool.or_eq_true,
    beq_iff_eq] at newline
  rcases newline with (rfl | rfl) | rfl <;> exact absurd printable (by decide)

theorem name_nameChar (nonzero : c ≠ '\x00') (rest : List Char) :
    name (Printer.nameChar c ++ rest) = (c :: (name rest).1, (name rest).2) := by
  unfold Printer.nameChar
  split_ifs with plain control
  · exact name_cons (isNameChar_of_isPrintedPlain plain) (ne_slash_of_isPrintedPlain plain) nonzero
  · obtain ⟨code, _⟩ := isPrintedPlain_eq_false (by simpa [isPrintedPlain] using plain)
    exact name_hexEscape code nonzero rest
  · obtain ⟨_, other⟩ := isPrintedPlain_eq_false (by simpa [isPrintedPlain] using plain)
    have line : startsNewline (c :: rest) = false :=
      startsNewline_of_printable (by simpa using control)
    rw [List.cons_append, List.cons_append, List.nil_append, name_escape line,
      escape_plain other nonzero]

end Name

section Identifier

variable {cs : List Char}

theorem name_nameChars (nonzero : '\x00' ∉ cs) (rest : List Char) :
    name (Printer.nameChars cs ++ rest) = (cs ++ (name rest).1, (name rest).2) := by
  induction cs with
  | nil => rfl
  | cons c cs ih =>
    have first : c ≠ '\x00' := fun same => nonzero (by simp [same])
    rw [Printer.nameChars, List.flatMap_cons, List.append_assoc, name_nameChar first,
      ← Printer.nameChars, ih fun member => nonzero (by simp [member])]
    rfl

theorem name_startChars (nonzero : '\x00' ∉ cs) (rest : List Char) :
    name (Printer.startChars cs ++ rest) = (cs ++ (name rest).1, (name rest).2) := by
  obtain _ | ⟨c, cs⟩ := cs
  · rfl
  rw [Printer.startChars]
  split
  · rename_i digit
    have code : c.toNat < 128 := by
      have range := isDigit_iff.1 digit
      omega
    have first : c ≠ '\x00' := fun same => nonzero (by simp [same])
    rw [List.append_assoc, name_hexEscape code first,
      name_nameChars fun member => nonzero (by simp [member])]
    rfl
  · exact name_nameChars nonzero rest

theorem name_identifierChars (nonzero : '\x00' ∉ cs) (rest : List Char) :
    name (Printer.identifierChars cs ++ rest) = (cs ++ (name rest).1, (name rest).2) := by
  have hyphen : ∀ rest, name ('-' :: rest) = ('-' :: (name rest).1, (name rest).2) :=
    fun rest => name_cons (by decide) (by decide) (by decide)
  unfold Printer.identifierChars
  split
  · rename_i cs
    rw [List.cons_append, List.cons_append, hyphen, hyphen, name_nameChars (by simpa using nonzero)]
    rfl
  · rw [List.cons_append, List.cons_append, List.nil_append, name_escape (by rfl),
      escape_plain (by decide) (by decide)]
    rfl
  · rename_i cs _ _
    rw [List.cons_append, hyphen, name_startChars (by simpa using nonzero)]
    rfl
  · exact name_startChars nonzero rest

/-- A printed name that may not start with a digit starts with a letter or an escape. -/
theorem exists_startChars (nonempty : cs ≠ []) (hyphen : cs.head? ≠ some '-')
    (nonzero : '\x00' ∉ cs) (rest : List Char) :
    ∃ x more, Printer.startChars cs = x :: more ∧
      (isNameStart x ∨ x = '\\' ∧ startsNewline (more ++ rest) = false) := by
  obtain ⟨c, cs, rfl⟩ := List.exists_cons_of_ne_nil nonempty
  have escaped : c.toNat < 128 → ∃ x more, Printer.hexEscape c ++ Printer.nameChars cs = x :: more ∧
      (isNameStart x ∨ x = '\\' ∧ startsNewline (more ++ rest) = false) := by
    intro code
    refine ⟨'\\', _, rfl, .inr ⟨rfl, ?_⟩⟩
    simp only [List.append_eq, List.append_assoc]
    exact startsNewline_hex code _
  rw [Printer.startChars]
  split
  · rename_i digit
    have range := isDigit_iff.1 digit
    exact escaped (by omega)
  · rename_i digit
    rw [Printer.nameChars, List.flatMap_cons, ← Printer.nameChars, Printer.nameChar]
    have first : c ≠ '\x00' := fun same => nonzero (by simp [same])
    split_ifs with plain control
    · have start : isNameStart c := by
        have other : c ≠ '-' := by simpa using hyphen
        simp only [Char.isAlphanum, Bool.or_eq_true, beq_iff_eq, decide_eq_true_eq] at plain
        simp only [isNameStart, Bool.or_eq_true, beq_iff_eq, decide_eq_true_eq]
        tauto
      exact ⟨c, _, rfl, .inl start⟩
    · obtain ⟨code, _⟩ := isPrintedPlain_eq_false (by simpa [isPrintedPlain] using plain)
      exact escaped code
    · exact ⟨'\\', _, rfl, .inr ⟨rfl, startsNewline_of_printable (by simpa using control)⟩⟩

theorem startsName_identifierChars (nonempty : cs ≠ []) (nonzero : '\x00' ∉ cs) (rest : List Char) :
    startsName (Printer.identifierChars cs ++ rest) := by
  unfold Printer.identifierChars
  split
  · rfl
  · rfl
  · rename_i cs noPair single
    have first : cs.head? ≠ some '-' := by
      intro head
      obtain ⟨more, rfl⟩ := List.head?_eq_some_iff.1 head
      exact noPair more rfl
    obtain ⟨x, more, same, start | ⟨rfl, _⟩⟩ :=
      exists_startChars (by simpa using single) first (by simpa using nonzero) rest
    · simp [same, startsName, start]
    · simp [same, startsName]
  · rename_i noPair single noHyphen
    have first : cs.head? ≠ some '-' := by
      intro head
      obtain ⟨more, rfl⟩ := List.head?_eq_some_iff.1 head
      exact noHyphen more rfl
    obtain ⟨x, more, same, start | ⟨rfl, line⟩⟩ :=
      exists_startChars nonempty first nonzero rest
    · rw [same, List.cons_append]
      unfold startsName
      split
      · rename_i other
        rw [(List.cons.inj other).1] at start
        exact absurd start (by decide)
      · rename_i other
        rw [(List.cons.inj other).1] at start
        exact absurd start (by decide)
      · rename_i other
        rw [← (List.cons.inj other).1]
        exact start
      · rename_i other
        cases other
    · simp [same, startsName, line]

theorem isDigit_of_isNameStart {c : Char} (start : isNameStart c) : c.isDigit = false := by
  by_contra digit
  have range := isDigit_iff.1 (by simpa using digit)
  simp only [isNameStart, Bool.or_eq_true, beq_iff_eq, decide_eq_true_eq] at start
  rcases start with ((alpha | rfl) | rfl) | high
  · have letters := isAlpha_iff.1 alpha
    omega
  · exact absurd range (by decide)
  · exact absurd range (by decide)
  · omega

theorem isBlank_of_startsName {c : Char} {rest : List Char} (starts : startsName (c :: rest)) :
    Text.isBlank c = false := by
  by_contra blank
  simp only [Text.isBlank, Bool.not_eq_false, Bool.or_eq_true, beq_iff_eq] at blank
  rcases blank with (((rfl | rfl) | rfl) | rfl) | rfl <;>
    simp [startsName, isNameStart] at starts

theorem startsDigits_of_isNameStart {c : Char} (start : isNameStart c) (rest : List Char) :
    startsDigits (c :: rest) = false := by
  unfold startsDigits
  split
  · rename_i same
    rw [(List.cons.inj same).1] at start
    exact absurd start (by decide)
  · rename_i same
    rw [← (List.cons.inj same).1]
    exact isDigit_of_isNameStart start
  · rfl

theorem startsNumber_of_startsName {c : Char} {rest : List Char} (starts : startsName (c :: rest)) :
    startsNumber (c :: rest) = false := by
  by_cases hyphen : c = '-'
  · subst hyphen
    obtain _ | ⟨d, rest⟩ := rest
    · rfl
    have second : isNameStart d ∨ d = '-' ∨ d = '\\' := by
      simpa [startsName, or_assoc] using starts
    have digits : startsNumber ('-' :: d :: rest) = startsDigits (d :: rest) := rfl
    rw [digits]
    rcases second with start | rfl | rfl
    · exact startsDigits_of_isNameStart start rest
    · rfl
    · rfl
  by_cases slash : c = '\\'
  · subst slash
    rfl
  have start : isNameStart c := by
    unfold startsName at starts
    split at starts <;> simp_all
  unfold startsNumber
  split
  · rename_i same
    rw [(List.cons.inj same).1] at start
    exact absurd start (by decide)
  · rename_i same
    exact absurd (List.cons.inj same).1 hyphen
  · exact startsDigits_of_isNameStart start rest

theorem scan_of_startsName {c : Char} {rest : List Char} (starts : startsName (c :: rest))
    (mark : ∀ after, c :: rest ≠ '-' :: '-' :: '>' :: after) :
    scan c rest = identLike (c :: rest) := by
  unfold scan
  simp only [isBlank_of_startsName starts, startsNumber_of_startsName starts, Bool.false_eq_true,
    ↓reduceIte]
  split
  case h_1 after => exact absurd rfl (mark after)
  case h_22 => simp [starts]
  all_goals simp [startsName, isNameStart] at starts

end Identifier

end Lexer

/-- A name that a style sheet can hold: it has a character, and none of them is NUL. -/
structure IsName (s : String) : Prop where
  nonempty : s ≠ ""
  nonzero : '\x00' ∉ s.toList

def Node.word (s : String) : Node :=
  atom (.ident s) (Printer.identifier s).toList

namespace IsName

open Lexer
open Node (Spells atom word)

variable {s : String} (named : IsName s)

include named

theorem toList_ne_nil : s.toList ≠ [] := by
  simpa using named.nonempty

theorem name_identifier {rest : List Char} (ends : ∀ x ∈ rest.head?, endsName x) :
    name ((Printer.identifier s).toList ++ rest) = (s.toList, rest) := by
  rw [Printer.identifier, String.toList_ofList, name_identifierChars named.nonzero,
    name_of_endsName ends, List.append_nil]

theorem startsName_identifier (rest : List Char) :
    startsName ((Printer.identifier s).toList ++ rest) := by
  rw [Printer.identifier, String.toList_ofList]
  exact startsName_identifierChars named.toList_ne_nil named.nonzero rest

theorem exists_identifier : ∃ c cs, (Printer.identifier s).toList = c :: cs := by
  apply List.exists_cons_of_ne_nil
  intro empty
  have starts := named.startsName_identifier []
  rw [empty] at starts
  cases starts

/-- Only two hyphens can start the mark that ends a comment of another language. -/
theorem eq_hyphens_of_mark {rest after : List Char} (ends : ∀ x ∈ rest.head?, endsName x)
    (mark : (Printer.identifier s).toList ++ rest = '-' :: '-' :: '>' :: after) :
    s = "--" ∧ rest.head? = some '>' := by
  have hyphens : name ('-' :: '-' :: '>' :: after) = (['-', '-'], '>' :: after) := by
    have stops : ∀ x ∈ ('>' :: after).head?, endsName x := by simp; decide
    rw [name_cons (by decide) (by decide) (by decide),
      name_cons (by decide) (by decide) (by decide), name_of_endsName stops]
  have read := named.name_identifier ends
  rw [mark, hyphens] at read
  obtain ⟨chars, rfl⟩ := Prod.mk.inj read
  exact ⟨String.toList_injective chars.symm, rfl⟩

theorem scan_identifier {c : Char} {cs rest : List Char}
    (chars : (Printer.identifier s).toList = c :: cs)
    (ends : ∀ x ∈ rest.head?, endsName x) (mark : s = "--" → rest.head? ≠ some '>') :
    scan c (cs ++ rest) = identLike ((Printer.identifier s).toList ++ rest) := by
  have starts := named.startsName_identifier rest
  have none : ∀ after, (Printer.identifier s).toList ++ rest ≠ '-' :: '-' :: '>' :: after := by
    intro after same
    obtain ⟨hyphens, angle⟩ := named.eq_hyphens_of_mark ends same
    exact mark hyphens angle
  rw [chars] at starts none ⊢
  exact scan_of_startsName starts none

theorem spells_identifier :
    Spells (fun rest => EndsIdent rest ∧ (s = "--" → rest.head? ≠ some '>'))
      (Printer.identifier s).toList [word s] := by
  obtain ⟨c, cs, chars⟩ := named.exists_identifier
  have scanned : ∀ rest, EndsIdent rest ∧ (s = "--" → rest.head? ≠ some '>') →
      scan c (cs ++ rest) = (.ident s, rest) := by
    rintro rest ⟨ends, mark⟩
    have stops : ∀ x ∈ rest.head?, endsName x := fun x head => (ends x head).1
    rw [named.scan_identifier chars stops mark,
      Grammar.identLike_of_name (named.name_identifier stops) ends, String.ofList_toList]
  rw [word, chars]
  exact Spells.atom rfl scanned

theorem spells_hash :
    Spells (fun rest => ∀ x ∈ rest.head?, endsName x) ('#' :: (Printer.identifier s).toList)
      [atom (.idHash s) ('#' :: (Printer.identifier s).toList)] := by
  apply Spells.atom rfl
  intro rest ends
  have scanned : ∀ cs, scan '#' cs = hashToken cs := fun _ => rfl
  rw [scanned, hashToken.eq_def, if_pos (named.startsName_identifier rest),
    named.name_identifier ends,
    String.ofList_toList]

theorem spells_call {ok : List Char → Prop} {inside : List Char} {ns : List Node}
    (notUrl : Text.sameName s "url" = false) (spells : Spells ok inside ns)
    (closes : ∀ rest, ok (')' :: rest)) :
    Spells (fun _ => True) ((Printer.identifier s).toList ++ '(' :: (inside ++ [')']))
      [.block ⟨.function s, (Printer.identifier s).toList ++ ['('], .origin⟩ ns
        (some ⟨.closeParen, [')'], .origin⟩)] := by
  obtain ⟨c, cs, chars⟩ := named.exists_identifier
  intro stack siblings rest _
  have stops : ∀ x ∈ ('(' :: (inside ++ ')' :: rest)).head?, endsName x := by simp; decide
  have scanned : scan c (cs ++ ['('] ++ (inside ++ ')' :: rest)) =
      (.function s, inside ++ ')' :: rest) := by
    rw [List.append_assoc, List.singleton_append,
      named.scan_identifier chars stops (by simp), identLike, named.name_identifier stops]
    simp [notUrl]
  have opening := Lexer.plain_append scanned
  have closing : Lexer.plain (')' :: rest) = ⟨.closeParen, [')'], .origin⟩ :: Lexer.plain rest :=
    Lexer.plain_single rfl
  have whole : (Printer.identifier s).toList ++ '(' :: (inside ++ [')']) ++ rest =
      c :: (cs ++ ['(']) ++ (inside ++ ')' :: rest) := by
    rw [chars]
    simp
  rw [whole, opening, Node.build_open rfl, spells _ _ _ (closes rest), closing,
    Node.build_close rfl rfl, chars]
  simp

end IsName

namespace Node

def squares (inside : List Node) : Node :=
  block ⟨.openSquare, ['['], .origin⟩ inside (some ⟨.closeSquare, [']'], .origin⟩)

theorem Spells.squares {ok : List Char → Prop} {cs : List Char} {ns : List Node}
    (inside : Spells ok cs ns) (closes : ∀ rest, ok (']' :: rest)) :
    Spells (fun _ => True) ('[' :: (cs ++ [']'])) [squares ns] := by
  intro stack siblings rest _
  have opening : Lexer.plain ('[' :: (cs ++ ']' :: rest)) =
      ⟨.openSquare, ['['], .origin⟩ :: Lexer.plain (cs ++ ']' :: rest) := Lexer.plain_single rfl
  have closing : Lexer.plain (']' :: rest) = ⟨.closeSquare, [']'], .origin⟩ :: Lexer.plain rest :=
    Lexer.plain_single rfl
  rw [List.cons_append, List.append_assoc, List.singleton_append, opening, build_open rfl,
    inside _ _ _ (closes rest), closing, build_close rfl rfl]
  simp [Node.squares]

end Node

namespace Quoted

open Lexer

/-- A string whose text is read back: written with one of the two quotes, and without the
characters that are not escaped. -/
structure IsPlain (q : Quoted) : Prop where
  quote : q.quote = '"' ∨ q.quote = '\''
  known : ∀ c ∈ q.content.toList, c ≠ '\x00' ∧ c ≠ '\r' ∧ c ≠ '\x0c'

def charText (quote c : Char) : List Char :=
  if c = '\\' then ['\\', '\\']
  else if c = '\n' then ['\\', 'a', ' ']
  else if c = quote then ['\\', c]
  else [c]

theorem toList_render (q : Quoted) :
    q.render.toList = q.quote :: (q.content.toList.flatMap (charText q.quote) ++ [q.quote]) := by
  rw [render, String.toList_ofList]
  rfl

section String

variable {quote c : Char} {rest : List Char} (isQuote : quote = '"' ∨ quote = '\'')

include isQuote

theorem string_escape (nonempty : rest ≠ []) (line : startsNewline rest = false) :
    Lexer.string quote ('\\' :: rest) =
      ((escape rest).1 :: (Lexer.string quote (escape rest).2).1,
        (Lexer.string quote (escape rest).2).2) := by
  have slash : '\\' ≠ quote := by rcases isQuote with rfl | rfl <;> decide
  rw [Lexer.string.eq_def]
  simp [slash, nonempty, line, Text.isNewline]

theorem string_charText (known : c ≠ '\x00' ∧ c ≠ '\r' ∧ c ≠ '\x0c') (rest : List Char) :
    Lexer.string quote (charText quote c ++ rest) =
      (c :: (Lexer.string quote rest).1, (Lexer.string quote rest).2) := by
  unfold charText
  split_ifs with slash newline same
  · subst slash
    rw [List.cons_append, List.cons_append, List.nil_append,
      string_escape isQuote (by simp) (by rfl), escape_plain (by decide) (by decide)]
  · subst newline
    have code : escape ('a' :: ' ' :: rest) = ('\n', rest) :=
      escape_hex (c := '\n') (by decide) (by decide) rest
    rw [List.cons_append, List.cons_append, List.cons_append, List.nil_append,
      string_escape isQuote (by simp) (by rfl), code]
  · subst same
    have plain : isHexDigit c = false := by rcases isQuote with rfl | rfl <;> decide
    have line : startsNewline (c :: rest) = false := by rcases isQuote with rfl | rfl <;> rfl
    rw [List.cons_append, List.cons_append, List.nil_append,
      string_escape isQuote (by simp) line, escape_plain plain known.1]
  · have line : Text.isNewline c = false := by simp [Text.isNewline, newline, known.2.1, known.2.2]
    rw [List.cons_append, List.nil_append, Lexer.string.eq_def]
    simp [same, line, slash, Lexer.known, known.1]

end String

theorem IsPlain.string_content {q : Quoted} (plain : q.IsPlain) (rest : List Char) :
    Lexer.string q.quote (q.content.toList.flatMap (charText q.quote) ++ q.quote :: rest) =
      (q.content.toList, true, rest) := by
  have chars : ∀ cs : List Char, (∀ c ∈ cs, c ≠ '\x00' ∧ c ≠ '\r' ∧ c ≠ '\x0c') →
      Lexer.string q.quote (cs.flatMap (charText q.quote) ++ q.quote :: rest) =
        (cs, true, rest) := by
    intro cs known
    induction cs with
    | nil =>
      rw [List.flatMap_nil, List.nil_append, Lexer.string.eq_def]
      simp
    | cons c cs ih =>
      rw [List.flatMap_cons, List.append_assoc, string_charText plain.quote (known c (by simp)),
        ih fun d member => known d (by simp [member])]
  exact chars _ plain.known

theorem IsPlain.spells {q : Quoted} (plain : q.IsPlain) :
    Node.Spells (fun _ => True) q.render.toList
      [Node.atom (.string q.content) q.render.toList] := by
  have scanned : ∀ rest, scan q.quote
      (q.content.toList.flatMap (charText q.quote) ++ [q.quote] ++ rest) =
        (.string q.content, rest) := by
    intro rest
    have token : ∀ cs, scan q.quote cs = stringToken q.quote cs := by
      intro cs
      rcases plain.quote with same | same <;> rw [same] <;> rfl
    rw [List.append_assoc, List.singleton_append, token, stringToken, plain.string_content]
    simp
  rw [toList_render]
  exact Node.Spells.atom rfl fun rest _ => scanned rest

/-- The quote at the end of a printed string is the one that it was printed with. -/
theorem quoteOf_render {q : Quoted} (quote : q.quote = '"' ∨ q.quote = '\'') :
    quoteOf q.render.toList = q.quote := by
  rw [toList_render, quoteOf, ← List.cons_append, List.reverse_append]
  rcases quote with same | same <;> simp [same]

end Quoted

end CssOutline
