import CssOutline.Lexer.Numeric
import CssOutline.Lexer.Quoted

/-!
The lexemes of a style sheet. Every character belongs to exactly one of them: their texts make up
the sheet, and each starts where the texts before it end.
-/

namespace CssOutline.Lexer

def commentEnd : List Char → List Char
  | [] => []
  | '*' :: '/' :: cs => cs
  | _ :: cs => commentEnd cs

/-- An identifier, or a function if a parenthesis follows, or an unquoted url. -/
def identLike (cs : List Char) : Token × List Char :=
  let n := String.ofList (name cs).1
  match (name cs).2 with
  | '(' :: rest =>
    if Text.sameName n "url" then (urlToken? rest).getD (.function n, rest)
    else (.function n, rest)
  | rest => (.ident n, rest)

def hashToken (cs : List Char) : Token × List Char :=
  if startsName cs then (.idHash (String.ofList (name cs).1), (name cs).2)
  else
    match cs with
    | c :: _ =>
      if c.isDigit || c == '-' then (.hash (String.ofList (name cs).1), (name cs).2)
      else (.delim '#', cs)
    | [] => (.delim '#', cs)

/-- A two-character token if the text goes on with an equals sign. -/
def matchToken (c : Char) (t : Token) : List Char → Token × List Char
  | '=' :: cs => (t, cs)
  | cs => (.delim c, cs)

def scan (c : Char) (rest : List Char) : Token × List Char :=
  if Text.isBlank c then (.whitespace, rest.dropWhile Text.isBlank)
  else if startsNumber (c :: rest) then numericToken (c :: rest)
  else
    match c, rest with
    | '-', '-' :: '>' :: after => (.cdc, after)
    | '<', '!' :: '-' :: '-' :: after => (.cdo, after)
    | '/', '*' :: after => (.comment, commentEnd after)
    | '"', _ => stringToken '"' rest
    | '\'', _ => stringToken '\'' rest
    | '#', _ => hashToken rest
    | '@', _ =>
      if startsName rest then (.atKeyword (String.ofList (name rest).1), (name rest).2)
      else (.delim '@', rest)
    | '$', _ => matchToken '$' .endMatch rest
    | '*', _ => matchToken '*' .substringMatch rest
    | '^', _ => matchToken '^' .startMatch rest
    | '|', _ => matchToken '|' .dashMatch rest
    | '~', _ => matchToken '~' .includeMatch rest
    | '(', _ => (.openParen, rest)
    | ')', _ => (.closeParen, rest)
    | '[', _ => (.openSquare, rest)
    | ']', _ => (.closeSquare, rest)
    | '\x7b', _ => (.openCurly, rest)
    | '\x7d', _ => (.closeCurly, rest)
    | ',', _ => (.comma, rest)
    | ':', _ => (.colon, rest)
    | ';', _ => (.semicolon, rest)
    | _, _ => if startsName (c :: rest) then identLike (c :: rest) else (.delim c, rest)

theorem commentEnd_suffix (cs : List Char) : commentEnd cs <:+ cs := by
  fun_induction commentEnd cs with
  | case1 => exact List.suffix_refl _
  | case2 cs => exact ⟨['*', '/'], rfl⟩
  | case3 c cs _ ih => exact ih.trans (List.suffix_cons _ _)

theorem identLike_suffix_tail {c : Char} {rest : List Char} (h : startsName (c :: rest)) :
    (identLike (c :: rest)).2 <:+ rest := by
  have named := name_suffix_tail h
  unfold identLike
  simp only
  split
  · rename_i after eq
    have inside : after <:+ rest := (eq ▸ List.suffix_cons _ _ : after <:+ _).trans named
    split
    · rcases found : urlToken? after with _ | ⟨t, left⟩
      · exact inside
      · exact (urlToken?_suffix found).trans inside
    · exact inside
  · exact named

theorem hashToken_suffix (cs : List Char) : (hashToken cs).2 <:+ cs := by
  unfold hashToken
  split
  · exact name_suffix cs
  · split
    · split
      · exact name_suffix _
      · exact List.suffix_refl _
    · exact List.suffix_refl _

theorem matchToken_suffix (c : Char) (t : Token) (cs : List Char) :
    (matchToken c t cs).2 <:+ cs := by
  unfold matchToken
  split
  · exact List.suffix_cons _ _
  · exact List.suffix_refl _

theorem scan_suffix (c : Char) (rest : List Char) : (scan c rest).2 <:+ rest := by
  unfold scan
  split
  · exact List.dropWhile_suffix _
  · split
    · rename_i number
      exact numericToken_suffix_tail number
    · split
      · exact ⟨['-', '>'], rfl⟩
      · exact ⟨['!', '-', '-'], rfl⟩
      · exact (commentEnd_suffix _).trans (List.suffix_cons _ _)
      · exact string_suffix _ _
      · exact string_suffix _ _
      · exact hashToken_suffix _
      · split
        · exact name_suffix _
        · exact List.suffix_refl _
      · exact matchToken_suffix _ _ _
      · exact matchToken_suffix _ _ _
      · exact matchToken_suffix _ _ _
      · exact matchToken_suffix _ _ _
      · exact matchToken_suffix _ _ _
      · exact List.suffix_refl _
      · exact List.suffix_refl _
      · exact List.suffix_refl _
      · exact List.suffix_refl _
      · exact List.suffix_refl _
      · exact List.suffix_refl _
      · exact List.suffix_refl _
      · exact List.suffix_refl _
      · exact List.suffix_refl _
      · split
        · rename_i named
          exact identLike_suffix_tail named
        · exact List.suffix_refl _

/-- The lexemes of a text that starts at a place. -/
def lexemesFrom (start : Location) (cs : List Char) : List Lexeme :=
  match cs with
  | [] => []
  | c :: rest =>
    have := (scan_suffix c rest).length_le
    let text := before (c :: rest) (scan c rest).2
    ⟨(scan c rest).1, text, start⟩ :: lexemesFrom (start.advance text) (scan c rest).2
termination_by cs.length

def lexemes (cs : List Char) : List Lexeme :=
  lexemesFrom .origin cs

theorem flatMap_text_lexemesFrom (start : Location) (cs : List Char) :
    (lexemesFrom start cs).flatMap Lexeme.text = cs := by
  fun_induction lexemesFrom start cs with
  | case1 => rfl
  | case2 start c rest _ text ih =>
    rw [List.flatMap_cons, ih]
    exact before_append ((scan_suffix c rest).trans (List.suffix_cons _ _))

end CssOutline.Lexer
