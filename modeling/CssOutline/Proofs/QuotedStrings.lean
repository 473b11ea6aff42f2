import CssOutline.Proofs.SelectorShape
import Mathlib

/-! Strings that are read and printed. The writer escapes the quote, backslashes and line feeds;
carriage returns and form feeds, which also end a line, it does not. A string without these two is
scanned as itself, and one with either of them is not. -/

namespace CssOutline

open Lexer

namespace Quoted

theorem string_flatMap_charText {quote : Char} (isQuote : quote = '"' ∨ quote = '\'')
    {cs : List Char} (known : ∀ c ∈ cs, c ≠ '\x00' ∧ c ≠ '\r' ∧ c ≠ '\x0c') (rest : List Char) :
    Lexer.string quote (cs.flatMap (charText quote) ++ rest) =
      (cs ++ (Lexer.string quote rest).1, (Lexer.string quote rest).2) := by
  induction cs with
  | nil => rfl
  | cons c cs ih =>
    rw [List.flatMap_cons, List.append_assoc, string_charText isQuote (known c (by simp)),
      ih fun d member => known d (by simp [member])]
    rfl

theorem string_line {quote c : Char} (isQuote : quote = '"' ∨ quote = '\'')
    (line : c = '\r' ∨ c = '\x0c') (rest : List Char) :
    Lexer.string quote (charText quote c ++ rest) = ([], false, c :: rest) := by
  have text : charText quote c = [c] := by
    rcases isQuote with rfl | rfl <;> rcases line with rfl | rfl <;> rfl
  rw [text, List.singleton_append, Lexer.string.eq_def]
  rcases isQuote with rfl | rfl <;> rcases line with rfl | rfl <;> simp [Text.isNewline]

theorem string_broken {quote : Char} (isQuote : quote = '"' ∨ quote = '\'')
    {cs : List Char} (nonzero : '\x00' ∉ cs) (broken : '\r' ∈ cs ∨ '\x0c' ∈ cs)
    (rest : List Char) :
    (Lexer.string quote (cs.flatMap (charText quote) ++ rest)).2.1 = false := by
  induction cs with
  | nil => simp at broken
  | cons c cs ih =>
    rw [List.flatMap_cons, List.append_assoc]
    by_cases line : c = '\r' ∨ c = '\x0c'
    · rw [string_line isQuote line]
    · have first : c ≠ '\x00' := fun zero => nonzero (by simp [zero])
      have later : '\r' ∈ cs ∨ '\x0c' ∈ cs := by
        simpa [eq_comm, not_or.1 line] using broken
      rw [string_charText isQuote ⟨first, not_or.1 line⟩]
      exact ih (fun zero => nonzero (by simp [zero])) later

theorem scan_quote {quote : Char} (isQuote : quote = '"' ∨ quote = '\'') (cs : List Char) :
    scan quote cs = stringToken quote cs := by
  rcases isQuote with rfl | rfl <;> rfl

theorem lexemes_cons (c : Char) (rest : List Char) :
    lexemes (c :: rest) =
      ⟨(scan c rest).1, before (c :: rest) (scan c rest).2, .origin⟩ ::
        lexemesFrom (Location.origin.advance (before (c :: rest) (scan c rest).2))
          (scan c rest).2 := by
  rw [lexemes, lexemesFrom]

/-- The printed text is one string token with the same content exactly if the content holds no
line end that the writer leaves as it is. -/
theorem lexemes_render_iff {q : Quoted} (quote : q.quote = '"' ∨ q.quote = '\'')
    (nonzero : '\x00' ∉ q.content.toList) :
    lexemes q.render.toList = [⟨.string q.content, q.render.toList, .origin⟩] ↔
      '\r' ∉ q.content.toList ∧ '\x0c' ∉ q.content.toList := by
  rw [toList_render, lexemes_cons, scan_quote quote, stringToken]
  constructor
  · intro single
    by_contra broken
    have cut := string_broken quote nonzero (by tauto) [q.quote]
    simp [cut] at single
  · rintro ⟨noReturn, noFeed⟩
    have known : ∀ c ∈ q.content.toList, c ≠ '\x00' ∧ c ≠ '\r' ∧ c ≠ '\x0c' := by
      intro c member
      refine ⟨?_, ?_, ?_⟩ <;> rintro rfl <;> contradiction
    have closes : Lexer.string q.quote [q.quote] = ([], true, []) := by
      rw [Lexer.string.eq_def]
      simp
    have all : ∀ cs, before cs [] = cs := by simp [before]
    rw [string_flatMap_charText quote known, closes]
    simp [all, lexemesFrom]

end Quoted

theorem Value.eq_of_ofToken_string {source : List Char} {t : Token} {q : Quoted}
    (read : ofToken source t = .string q) :
    t = .string q.content ∧ q.quote = Quoted.quoteOf source := by
  have hex : ∀ name, ofToken.hexOr source name ≠ .string q := by
    intro name
    unfold ofToken.hexOr
    split <;> simp
  have kept : ∀ v : Value, v ≠ .string q → exactOrRaw v (String.ofList source) ≠ .string q := by
    intro v other
    unfold exactOrRaw
    split <;> simp [other]
  cases t with
  | string s =>
    cases read
    exact ⟨rfl, rfl⟩
  | ident name =>
    simp only [ofToken] at read
    split at read <;> cases read
  | hash name => exact absurd read (hex name)
  | idHash name => exact absurd read (hex name)
  | number n =>
    refine absurd read (kept _ ?_)
    split <;> simp
  | percentage n => exact absurd read (kept _ (by simp))
  | dimension n unit => exact absurd read (kept _ (by simp))
  | _ => cases read

namespace Node

theorem token_of_value?_string {lead : List Char} {n : Node} {q : Quoted}
    (read : n.value? lead = some (.string q)) :
    n.token = .string q.content ∧ ∃ source, q.quote = Quoted.quoteOf source := by
  cases n with
  | leaf l =>
    rw [value?, Option.some.injEq] at read
    obtain ⟨token, quote⟩ := Value.eq_of_ofToken_string read
    exact ⟨token, _, quote⟩
  | block l body closing =>
    unfold value? at read
    split at read
    · cases read
    · split at read
      · cases read
      · cases read
      · unfold callValue at read
        split at read <;> cases read
    · cases read

theorem token_of_attributeValue?_quoted {n : Node} {q : Quoted}
    (read : Attribute.value? n = some (.quoted q)) :
    n.token = .string q.content ∧ ∃ source, q.quote = Quoted.quoteOf source := by
  unfold Attribute.value? at read
  split at read
  · rename_i token
    cases read
    exact ⟨token, _, rfl⟩
  · cases read
  · cases read

/-- Where a string token of a text is read as a string, in a value or in the condition on an
attribute, its printed text is one string token with the content of the source exactly if the
content holds neither a carriage return nor a form feed. -/
theorem string_survives_iff {css : List Char} {ns : List Node} {n : Node} {q : Quoted}
    (inside : Inside (ofText css) ns) (member : n ∈ ns)
    (read : (∃ lead, n.value? lead = some (.string q)) ∨
      Attribute.value? n = some (.quoted q)) :
    n.token = .string q.content ∧
      (lexemes q.render.toList = [⟨.string q.content, q.render.toList, .origin⟩] ↔
        '\r' ∉ q.content.toList ∧ '\x0c' ∉ q.content.toList) := by
  have origin : n.token = .string q.content ∧ ∃ source, q.quote = Quoted.quoteOf source := by
    rcases read with ⟨lead, value⟩ | condition
    · exact token_of_value?_string value
    · exact token_of_attributeValue?_quoted condition
  obtain ⟨token, source, quote⟩ := origin
  have sound : n.token.IsSound := by
    cases (inside.level (level_isSound css)).built n member with
    | leaf holds _ => exact holds
    | block holds _ _ _ _ => exact holds
  rw [token] at sound
  exact ⟨token, Quoted.lexemes_render_iff (quote ▸ Quoted.isQuote_quoteOf source) sound⟩

def escapedStrings : List Char :=
  "f('\\27 \\a \\22\\\\')[a=\"\\d \"]".toList

theorem string_survives_iff_escapedStrings :
    ∃ inCall inSquares n m, Inside (ofText escapedStrings) inCall ∧ n ∈ inCall ∧
      n.value? [] = some (.string ⟨"'\n\"\\", '\''⟩) ∧
      lexemes "'\\'\\a \"\\\\'".toList =
        [⟨.string "'\n\"\\", "'\\'\\a \"\\\\'".toList, .origin⟩] ∧
      Inside (ofText escapedStrings) inSquares ∧ m ∈ inSquares ∧
      Attribute.value? m = some (.quoted ⟨"\r", '"'⟩) ∧
      lexemes "\"\r\"".toList ≠ [⟨.string "\r", "\"\r\"".toList, .origin⟩] := by
  let n : Node := .leaf ⟨.string "'\n\"\\", "'\\27 \\a \\22\\\\'".toList, ⟨1, 3⟩⟩
  let a : Node := .leaf ⟨.ident "a", ['a'], ⟨1, 19⟩⟩
  let equals : Node := .leaf ⟨.delim '=', ['='], ⟨1, 20⟩⟩
  let m : Node := .leaf ⟨.string "\r", "\"\\d \"".toList, ⟨1, 21⟩⟩
  let call : Node :=
    .block ⟨.function "f", ['f', '('], ⟨1, 1⟩⟩ [n] (some ⟨.closeParen, [')'], ⟨1, 17⟩⟩)
  let squares : Node := .block ⟨.openSquare, ['['], ⟨1, 18⟩⟩ [a, equals, m]
    (some ⟨.closeSquare, [']'], ⟨1, 26⟩⟩)
  have nodes : ofText escapedStrings = [call, squares] := by cbv
  have inCall : Inside (ofText escapedStrings) [n] := .block .self (nodes ▸ List.mem_cons_self)
  have inSquares : Inside (ofText escapedStrings) [a, equals, m] :=
    .block .self (nodes ▸ List.mem_cons_of_mem _ List.mem_cons_self)
  have value : n.value? [] = some (.string ⟨"'\n\"\\", '\''⟩) := by rfl
  have condition : Attribute.value? m = some (.quoted ⟨"\r", '"'⟩) := by rfl
  have whole := (string_survives_iff inCall (by simp) (.inl ⟨[], value⟩)).2.2 (by decide)
  have broken := mt (string_survives_iff inSquares (by simp) (.inr condition)).2.1 (by decide)
  exact ⟨_, _, n, m, inCall, by simp, value, whole, inSquares, by simp, condition, broken⟩

end Node

end CssOutline
