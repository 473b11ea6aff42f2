import CssOutline.Proofs.Declarations
import CssOutline.Proofs.MathWords
import CssOutline.Proofs.UnquotedUrls

/-! Names that are printed as they are. The properties of declarations and the names of at-rules are
not escaped where they are printed: what is printed is scanned as the same name exactly if the name
needs no escape. -/

namespace CssOutline

namespace Text

theorem isAlpha_toLower {c : Char} (letter : c.isAlpha) : c.toLower.isAlpha := by
  have step : ('a'.val - 'A'.val).toNat = 32 := rfl
  have first : 'A'.val.toNat = 65 := rfl
  have last : 'Z'.val.toNat = 90 := rfl
  unfold Char.toLower
  split
  · rename_i capital
    simp only [ge_iff_le, UInt32.le_iff_toNat_le, first, last] at capital
    rw [Lexer.isAlpha_iff]
    have moved : (c.val + ('a'.val - 'A'.val)).toNat = c.val.toNat + 32 := by
      rw [UInt32.toNat_add, step]
      omega
    right
    change 97 ≤ (c.val + ('a'.val - 'A'.val)).toNat ∧ (c.val + ('a'.val - 'A'.val)).toNat ≤ 122
    omega
  · exact letter

theorem eq_of_toLower_eq {c d : Char} (other : d.isAlpha = false) (same : c.toLower = d) :
    c = d := by
  rcases toLower_cases c with kept | letter
  · exact kept.symm.trans same
  · rw [← same, isAlpha_toLower letter] at other
    cases other

end Text

namespace Lexer

variable {cs : List Char}

theorem length_escape_le {cs : List Char} (some : cs ≠ []) :
    (escape cs).2.length < cs.length := by
  obtain ⟨c, rest, rfl⟩ := List.exists_cons_of_ne_nil some
  have tail := (escape_suffix_tail c rest).length_le
  rw [List.length_cons]
  omega

theorem length_name_le (cs : List Char) :
    (name cs).1.length + (name cs).2.length ≤ cs.length := by
  fun_induction name cs with
  | case1 => simp
  | case2 => simp
  | case3 rest _ _ n after same ih =>
    rw [same] at ih
    have shorter := (escape_suffix rest).length_le
    simp only [List.length_cons] at ih ⊢
    omega
  | case4 c rest _ _ n after same ih =>
    rw [same] at ih
    simp only [List.length_cons] at ih ⊢
    omega
  | case5 => simp

theorem isPrintedPlain_iff {c : Char} :
    isPrintedPlain c ↔ isNameChar c ∧ c ≠ '\x00' := by
  simp only [isPrintedPlain, isNameChar, isNameStart, Char.isAlphanum, Bool.or_eq_true,
    beq_iff_eq, decide_eq_true_eq]
  constructor
  · intro plain
    refine ⟨by tauto, ?_⟩
    rintro rfl
    revert plain
    decide
  · tauto

/-- If a name takes up as many characters as it has and each of them stands for itself, up to a
change `f` that gives no escape away, then no character of it was escaped. -/
theorem isPrintedPlain_of_name {f : Char → Char} (kept : f replacement = replacement)
    (cs : List Char) (same : (name cs).1.map f ++ (name cs).2 = cs) :
    ∀ c ∈ (name cs).1.map f, isPrintedPlain c := by
  fun_induction name cs with
  | case1 => simp
  | case2 => simp
  | case3 rest _ _ n after read ih =>
    -- The backslash stands for one character and takes up two.
    exfalso
    have bound := length_name_le (escape rest).2
    rw [read] at bound
    have lengths := congrArg List.length same
    simp only [List.map_cons, List.cons_append, List.length_cons, List.length_append,
      List.length_map] at lengths bound
    cases rest with
    | nil =>
      have first := (List.cons.inj same).1
      rw [escape, kept] at first
      revert first
      decide
    | cons c rest =>
      have shorter := length_escape_le (List.cons_ne_nil c rest)
      omega
  | case4 c rest _ part n after read ih =>
    rw [read] at ih
    obtain ⟨first, later⟩ := List.cons.inj same
    intro x member
    rcases List.mem_cons.1 member with rfl | inside
    · rw [first]
      refine isPrintedPlain_iff.2 ⟨part, ?_⟩
      rintro rfl
      have replaced : known '\x00' = replacement := rfl
      rw [replaced, kept] at first
      revert first
      decide
    · exact ih later x inside
  | case5 => simp

theorem nameChars_of_isPrintedPlain (plain : ∀ c ∈ cs, isPrintedPlain c) :
    Printer.nameChars cs = cs := by
  induction cs with
  | nil => rfl
  | cons c cs ih =>
    have first : Printer.nameChar c = [c] := if_pos (plain c (by simp))
    rw [Printer.nameChars, List.flatMap_cons, first, ← Printer.nameChars,
      ih fun d member => plain d (by simp [member])]
    rfl

theorem isDigit_eq_false_of_starts {c : Char}
    (starts : isNameStart c ∨ c = '-' ∨ c = '\\') : c.isDigit = false := by
  rcases starts with start | rfl | rfl
  · exact isDigit_of_isNameStart start
  · rfl
  · rfl

theorem identifierChars_eq_iff (nonempty : cs ≠ []) (nonzero : '\x00' ∉ cs) :
    Printer.identifierChars cs = cs ↔ startsName cs ∧ ∀ c ∈ cs, isPrintedPlain c := by
  constructor
  · intro same
    have starts := startsName_identifierChars nonempty nonzero []
    have read := name_identifierChars nonzero []
    simp only [List.append_nil, same, name] at starts read
    refine ⟨starts, fun c member => ?_⟩
    have plain := isPrintedPlain_of_name (f := id) rfl cs (by simp [read])
    exact plain c (by simpa [read] using member)
  · rintro ⟨starts, plain⟩
    unfold Printer.identifierChars
    split
    · rename_i cs
      rw [nameChars_of_isPrintedPlain fun c member => plain c (by simp [member])]
    · simp [startsName, isNameStart] at starts
    · rename_i cs _ single
      obtain _ | ⟨d, cs⟩ := cs
      · exact absurd rfl single
      have second : isNameStart d ∨ d = '-' ∨ d = '\\' := by
        simpa [startsName, or_assoc] using starts
      rw [Printer.startChars, if_neg (by simp [isDigit_eq_false_of_starts second]),
        nameChars_of_isPrintedPlain fun c member => plain c (by simp [member])]
    · rename_i noHyphen
      obtain ⟨d, cs, rfl⟩ := List.exists_cons_of_ne_nil nonempty
      have first : isNameStart d ∨ d = '-' ∨ d = '\\' := by
        unfold startsName at starts
        split at starts <;> simp_all
      rw [Printer.startChars, if_neg (by simp [isDigit_eq_false_of_starts first]),
        nameChars_of_isPrintedPlain plain]

theorem startsName_cons_cons (c d : Char) (ds : List Char) :
    startsName (c :: d :: ds) = if c = '-' then isNameStart d || d == '-' || d == '\\'
      else if c = '\\' then !Text.isNewline d else isNameStart c := by
  by_cases hyphen : c = '-'
  · simp [hyphen, startsName]
  · by_cases slash : c = '\\' <;> simp [hyphen, slash, startsName, startsNewline]

theorem startsName_of_append {rest : List Char} (nonempty : cs ≠ [])
    (ends : ∀ x ∈ rest.head?, endsName x) (starts : startsName (cs ++ rest)) : startsName cs := by
  match cs with
  | c :: d :: ds =>
    rwa [List.cons_append, List.cons_append, startsName_cons_cons, ← startsName_cons_cons] at starts
  | [c] =>
    by_cases hyphen : c = '-'
    · obtain _ | ⟨x, rest⟩ := rest
      · exact starts
      · have stop := ends x rfl
        simp only [endsName, isNameChar, Bool.and_eq_true, Bool.not_eq_true', bne_iff_ne,
          Bool.or_eq_false_iff, beq_eq_false_iff_ne] at stop
        simp [hyphen, startsName, stop] at starts
    · by_cases slash : c = '\\'
      · rw [slash]
        rfl
      · simp_all [startsName]

theorem lexemesFrom_eq_nil {start : Location} (none : lexemesFrom start cs = []) : cs = [] := by
  have whole := flatMap_text_lexemesFrom start cs
  rw [none] at whole
  exact whole.symm

theorem name_of_lexemes {m : String} (single : (lexemes cs).map Lexeme.token = [.ident m]) :
    startsName cs ∧ name cs = (m.toList, []) := by
  obtain _ | ⟨c, rest⟩ := cs
  · simp [lexemes, lexemesFrom] at single
  rw [Quoted.lexemes_cons, List.map_cons, List.cons.injEq, List.map_eq_nil_iff] at single
  have left := lexemesFrom_eq_nil single.2
  have scanned : scan c rest = (.ident m, []) := Prod.ext single.1 left
  have named : startsName (c :: rest) ∧ identLike (c :: rest) = (.ident m, []) :=
    isRead_of_scan scanned
  refine ⟨named.1, ?_⟩
  rcases identLike_cases (c :: rest) with ⟨s, after, _, ⟨call, _⟩ | found⟩ | ident
  · rw [named.2] at call
    cases call
  · rw [named.2] at found
    rcases urlToken?_token found with ⟨u, other⟩ | ⟨u, other⟩ <;> cases other
  · obtain ⟨token, after⟩ := Prod.mk.inj (ident.symm.trans named.2)
    rw [← Token.ident.inj token, String.toList_ofList, ← after]

end Lexer

open Lexer

theorem IsName.identifier_eq_iff {s : String} (named : IsName s) :
    Printer.identifier s = s ↔ startsName s.toList ∧ ∀ c ∈ s.toList, isPrintedPlain c := by
  rw [← identifierChars_eq_iff named.toList_ne_nil named.nonzero, ← String.toList_inj,
    Printer.identifier, String.toList_ofList]

theorem IsName.lexemes_of_plain {s : String} (named : IsName s) (plain : Printer.identifier s = s) :
    lexemes s.toList = [⟨.ident s, s.toList, .origin⟩] := by
  obtain ⟨c, cs, chars⟩ := named.exists_identifier
  have ends : ∀ x ∈ ([] : List Char).head?, endsName x := by simp
  have scanned := named.scan_identifier chars ends (by simp)
  have read := named.name_identifier ends
  rw [plain] at chars
  simp only [List.append_nil, plain, chars] at scanned read
  have whole : scan c cs = (.ident s, []) := by
    rw [scanned, identLike, read]
    simp [← chars]
  rw [chars, Quoted.lexemes_cons, whole]
  simp [before, lexemesFrom]

namespace Property

theorem parse_toLower {name : String} (other : (parse name).isCustom = false) :
    parse name.toLower = parse name := by
  have split : ∀ {n : String}, (parse n).isCustom = false →
      parse n = standard (Vendor.split n.toLower).1 (Vendor.split n.toLower).2 := by
    intro n isStandard
    unfold parse at isStandard ⊢
    split
    · rename_i hyphens
      simp [hyphens, isCustom] at isStandard
    · rfl
  have lower : (parse name.toLower).isCustom = false := by
    rw [← Bool.not_eq_true, isCustom_parse] at other ⊢
    rintro ⟨rest, hyphens⟩
    apply other
    rw [Text.toList_toLower] at hyphens
    rcases chars : name.toList with _ | ⟨c, _ | ⟨d, cs⟩⟩
    · simp [chars] at hyphens
    · simp [chars] at hyphens
    · simp only [chars, List.map_cons] at hyphens
      obtain ⟨first, later⟩ := List.cons.inj hyphens
      rw [Text.eq_of_toLower_eq (by decide) first.symm,
        Text.eq_of_toLower_eq (by decide) (List.cons.inj later).1.symm]
      exact ⟨cs, rfl⟩
  rw [split other, split lower, Text.toLower_toLower]

theorem parse_text_parse (name : String) : parse (parse name).text = parse name := by
  rw [text_parse]
  split
  · rfl
  · rename_i other
    exact parse_toLower (by simpa using other)

theorem exists_text_eq_map (name : String) : ∃ f : Char → Char,
    f replacement = replacement ∧ (∀ c, f c = '\x00' → c = '\x00') ∧
      (parse name).text.toList = name.toList.map f := by
  rw [text_parse]
  split
  · exact ⟨id, rfl, fun _ => id, by simp⟩
  · exact ⟨Char.toLower, rfl, fun c => Text.eq_of_toLower_eq rfl, Text.toList_toLower name⟩

theorem isName_text {name : String} (named : IsName name) : IsName (parse name).text := by
  refine ⟨text_parse_ne_empty named.nonempty, ?_⟩
  obtain ⟨f, _, nonzero, chars⟩ := exists_text_eq_map name
  rw [chars]
  intro zero
  obtain ⟨c, member, same⟩ := List.mem_map.1 zero
  exact named.nonzero (nonzero c same ▸ member)

/-- The text of a property is one identifier, and the same property is read from it, exactly if it
needs no escape. -/
theorem lexemes_text_iff {name : String} (named : IsName name) :
    (∃ m, (lexemes (parse name).text.toList).map Lexeme.token = [.ident m] ∧
      parse m = parse name) ↔ Printer.identifier (parse name).text = (parse name).text := by
  constructor
  · rintro ⟨m, single, same⟩
    obtain ⟨starts, read⟩ := name_of_lexemes single
    obtain ⟨f, kept, _, chars⟩ := exists_text_eq_map m
    rw [same] at chars
    refine (isName_text named).identifier_eq_iff.2 ⟨starts, ?_⟩
    have plain := isPrintedPlain_of_name kept (parse name).text.toList
      (by rw [read, chars, List.append_nil])
    rwa [read, ← chars] at plain
  · intro plain
    refine ⟨(parse name).text, ?_, parse_text_parse name⟩
    rw [(isName_text named).lexemes_of_plain plain]
    rfl

end Property

/-- What starts with an at sign and a name is an at keyword of just this name exactly if the name
needs no escape. -/
theorem IsName.head?_lexemes_at_iff {s : String} (named : IsName s) {rest : List Char}
    (ends : ∀ x ∈ rest.head?, endsName x) :
    (lexemes ('@' :: (s.toList ++ rest))).head? = some ⟨.atKeyword s, '@' :: s.toList, .origin⟩ ↔
      Printer.identifier s = s := by
  have scanned : ∀ cs, scan '@' cs =
      if startsName cs then (.atKeyword (String.ofList (name cs).1), (name cs).2)
      else (.delim '@', cs) := fun cs => rfl
  rw [Quoted.lexemes_cons, List.head?_cons, Option.some.injEq, Lexeme.mk.injEq, scanned]
  constructor
  · rintro ⟨token, text, -⟩
    split at token
    · rename_i starts
      have chars : (name (s.toList ++ rest)).1 = s.toList := by
        simpa [starts] using congrArg String.toList (Token.atKeyword.inj token)
      have suffix : (name (s.toList ++ rest)).2 <:+ '@' :: (s.toList ++ rest) :=
        (name_suffix _).trans (List.suffix_cons _ _)
      simp only [starts, ↓reduceIte] at text
      have after : (name (s.toList ++ rest)).2 = rest := by
        have whole := before_append suffix
        rw [text, List.cons_append] at whole
        exact List.append_cancel_left (List.cons.inj whole).2
      have plain := isPrintedPlain_of_name (f := id) rfl (s.toList ++ rest)
        (by rw [List.map_id, chars, after])
      rw [chars, List.map_id] at plain
      exact named.identifier_eq_iff.2 ⟨startsName_of_append named.toList_ne_nil ends starts, plain⟩
    · cases token
  · intro plain
    have starts := named.startsName_identifier rest
    have read := named.name_identifier ends
    rw [plain] at starts read
    refine ⟨?_, ?_, rfl⟩
    · simp [starts, read]
    · rw [if_pos starts, read]
      exact before_right ('@' :: s.toList) rest

end CssOutline
