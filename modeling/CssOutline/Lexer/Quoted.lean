import CssOutline.Lexer.Name
import CssOutline.Token

/-!
Quoted strings and unquoted urls. A string ends at its quote or with the text; a line end cuts
it off. An url ends at a parenthesis or with the text; a character it cannot hold makes it bad,
and then it reaches up to the next parenthesis that is not escaped.
-/

namespace CssOutline.Lexer

/-- The content of a string after its opening quote, whether it is whole, and the text left. -/
def string (quote : Char) (cs : List Char) : List Char × Bool × List Char :=
  match cs with
  | [] => ([], true, [])
  | c :: rest =>
    if c = quote then ([], true, rest)
    else if Text.isNewline c then ([], false, c :: rest)
    else if c = '\\' then
      if rest = [] then ([], true, [])
      else if startsNewline rest then
        have := (dropBlank_suffix rest).length_le
        string quote (dropBlank rest)
      else
        have := (escape_suffix rest).length_le
        let (s, whole, after) := string quote (escape rest).2
        ((escape rest).1 :: s, whole, after)
    else
      let (s, whole, after) := string quote rest
      (known c :: s, whole, after)
termination_by cs.length

theorem string_suffix (quote : Char) (cs : List Char) : (string quote cs).2.2 <:+ cs := by
  fun_induction string quote cs with
  | case1 => exact List.suffix_refl _
  | case2 => exact List.suffix_cons _ _
  | case3 => exact List.suffix_refl _
  | case4 => exact List.nil_suffix
  | case5 rest _ _ _ _ _ ih =>
    exact (ih.trans (dropBlank_suffix rest)).trans (List.suffix_cons _ _)
  | case6 rest _ _ _ s whole after eq _ _ ih =>
    rw [eq] at ih
    exact (ih.trans (escape_suffix rest)).trans (List.suffix_cons _ _)
  | case7 c rest _ _ _ s whole after eq ih =>
    rw [eq] at ih
    exact ih.trans (List.suffix_cons _ _)

def stringToken (quote : Char) (cs : List Char) : Token × List Char :=
  let (s, whole, after) := string quote cs
  (if whole then .string (String.ofList s) else .badString (String.ofList s), after)

/-- Characters that make an url bad: quotes, an opening parenthesis, non-printable ones. -/
def breaksUrl (c : Char) : Bool :=
  let n := c.toNat
  c == '"' || c == '\'' || c == '(' || (1 ≤ n && n ≤ 8) || n == 0xb ||
    (0xe ≤ n && n ≤ 0x1f) || n == 0x7f

/-- The url at the front of a text, if it is not bad, and the text after it or after what made
it bad. -/
def urlBody (cs : List Char) : Option (List Char) × List Char :=
  match cs with
  | [] => (some [], [])
  | c :: rest =>
    if Text.isBlank c then
      match rest.dropWhile Text.isBlank with
      | [] => (some [], [])
      | ')' :: after => (some [], after)
      | _ :: after => (none, after)
    else if c = ')' then (some [], rest)
    else if breaksUrl c then (none, rest)
    else if c = '\\' then
      if startsNewline rest then (none, rest)
      else
        have := (escape_suffix rest).length_le
        let (u, after) := urlBody (escape rest).2
        (u.map ((escape rest).1 :: ·), after)
    else
      let (u, after) := urlBody rest
      (u.map (known c :: ·), after)
termination_by cs.length

theorem urlBody_suffix (cs : List Char) : (urlBody cs).2 <:+ cs := by
  fun_induction urlBody cs with
  | case1 => exact List.suffix_refl _
  | case2 => exact List.nil_suffix
  | case3 c rest _ after eq =>
    have : after <:+ rest.dropWhile Text.isBlank := eq ▸ List.suffix_cons _ _
    exact (this.trans (List.dropWhile_suffix _)).trans (List.suffix_cons _ _)
  | case4 c rest _ d after _ eq =>
    have : after <:+ rest.dropWhile Text.isBlank := eq ▸ List.suffix_cons _ _
    exact (this.trans (List.dropWhile_suffix _)).trans (List.suffix_cons _ _)
  | case5 => exact List.suffix_cons _ _
  | case6 => exact List.suffix_cons _ _
  | case7 => exact List.suffix_cons _ _
  | case8 rest _ _ u after eq _ _ _ ih =>
    rw [eq] at ih
    exact (ih.trans (escape_suffix rest)).trans (List.suffix_cons _ _)
  | case9 c rest _ _ _ _ u after eq ih =>
    rw [eq] at ih
    exact ih.trans (List.suffix_cons _ _)

def badUrlEnd : List Char → List Char
  | [] => []
  | ')' :: cs => ')' :: cs
  | '\\' :: ')' :: cs => badUrlEnd cs
  | '\\' :: '\\' :: cs => badUrlEnd cs
  | _ :: cs => badUrlEnd cs

theorem badUrlEnd_suffix (cs : List Char) : badUrlEnd cs <:+ cs := by
  fun_induction badUrlEnd cs with
  | case1 => exact List.suffix_refl _
  | case2 => exact List.suffix_refl _
  | case3 cs ih => exact ih.trans ⟨['\\', ')'], rfl⟩
  | case4 cs ih => exact ih.trans ⟨['\\', '\\'], rfl⟩
  | case5 c cs _ _ _ ih => exact ih.trans (List.suffix_cons _ _)

def before (cs rest : List Char) : List Char :=
  cs.take (cs.length - rest.length)

theorem before_append {cs rest : List Char} (h : rest <:+ cs) : before cs rest ++ rest = cs := by
  obtain ⟨front, rfl⟩ := h
  simp [before]

def urlToken? (cs : List Char) : Option (Token × List Char) :=
  match cs.dropWhile Text.isBlank with
  | '"' :: _ => none
  | '\'' :: _ => none
  | start =>
    match urlBody start with
    | (some u, after) => some (.url (String.ofList u), after)
    | (none, after) =>
      let stop := badUrlEnd after
      some (.badUrl (String.ofList (before start stop)), stop.drop 1)

theorem urlToken?_suffix {cs after : List Char} {t : Token} (h : urlToken? cs = some (t, after)) :
    after <:+ cs := by
  unfold urlToken? at h
  split at h
  · simp at h
  · simp at h
  · refine List.IsSuffix.trans ?_ (List.dropWhile_suffix Text.isBlank)
    split at h
    · rename_i u after' eq
      simp only [Option.some.injEq, Prod.mk.injEq] at h
      obtain ⟨_, rfl⟩ := h
      have found := urlBody_suffix (cs.dropWhile Text.isBlank)
      rwa [eq] at found
    · rename_i after' eq
      simp only [Option.some.injEq, Prod.mk.injEq] at h
      obtain ⟨_, rfl⟩ := h
      have found := urlBody_suffix (cs.dropWhile Text.isBlank)
      rw [eq] at found
      exact ((List.drop_suffix _ _).trans (badUrlEnd_suffix _)).trans found

end CssOutline.Lexer
