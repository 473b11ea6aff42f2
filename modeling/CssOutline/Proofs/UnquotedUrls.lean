import CssOutline.Proofs.PrintedTokens

/-! Unquoted urls that are read and printed. The url is kept without its escapes and printed as it
is kept. It is scanned as itself again if none of its characters had to be escaped, and with any
such character it is not. -/

namespace CssOutline

open Lexer

namespace Lexer

theorem escape_suffix_tail (c : Char) (cs : List Char) : (escape (c :: cs)).2 <:+ cs := by
  unfold escape
  split
  · rename_i same
    cases same
  · rename_i d ds same
    obtain ⟨rfl, rfl⟩ := List.cons.inj same
    split
    · exact List.suffix_rfl
    · rename_i digits found
      cases same : ((c :: cs).take 6).takeWhile isHexDigit with
      | nil => exact absurd same found
      | cons x xs =>
        have dropped : (c :: cs).drop (x :: xs).length <:+ cs := List.drop_suffix xs.length cs
        exact (dropBlank_suffix _).trans dropped

theorem eq_nil_or_paren_of_suffix {cs w : List Char} (shorter : cs <:+ w ++ [')']) :
    cs = [] ∨ ∃ v, cs = v ++ [')'] ∧ v.length ≤ w.length := by
  rcases List.eq_nil_or_concat cs with rfl | ⟨v, x, rfl⟩
  · exact .inl rfl
  · obtain ⟨front, same⟩ := shorter
    rw [List.concat_eq_append, ← List.append_assoc] at same
    obtain ⟨rfl, rfl⟩ := List.append_singleton_inj.1 same
    exact .inr ⟨v, by simp, by simp⟩

theorem escape_paren (w : List Char) :
    (escape (w ++ [')'])).2 = [] ∨
      ∃ v, (escape (w ++ [')'])).2 = v ++ [')'] ∧ v.length < w.length := by
  obtain _ | ⟨x, w⟩ := w
  · exact .inl rfl
  · rcases eq_nil_or_paren_of_suffix (escape_suffix_tail x (w ++ [')'])) with none | ⟨v, same, le⟩
    · exact .inl none
    · exact .inr ⟨v, same, by simp only [List.length_cons]; omega⟩

theorem length_urlBody_le {w u after : List Char} (found : urlBody (w ++ [')']) = (some u, after)) :
    u.length ≤ w.length := by
  induction h : w.length using Nat.strong_induction_on generalizing w u with
  | _ n ih =>
    subst h
    obtain _ | ⟨c, w⟩ := w
    · rw [show urlBody ([] ++ [')']) = (some [], []) from urlBody_append (u := []) (by simp) []]
        at found
      cases found
      simp
    · rw [List.cons_append, urlBody.eq_def] at found
      simp only at found
      split_ifs at found with blank paren breaks slash line
      · split at found <;> cases found <;> simp
      · cases found
        simp
      · cases found
      · cases found
      · obtain ⟨inner, left⟩ := Prod.mk.inj found
        obtain ⟨u, body, rfl⟩ := Option.map_eq_some_iff.1 inner
        rcases escape_paren w with none | ⟨v, same, shorter⟩
        · obtain rfl : u = [] := by simpa [none, urlBody] using body.symm
          simp
        · rw [same] at body left
          have fewer := ih v.length (by simp only [List.length_cons]; omega) (Prod.ext body left) rfl
          simp only [List.length_cons]
          omega
      · obtain ⟨inner, left⟩ := Prod.mk.inj found
        obtain ⟨u, body, rfl⟩ := Option.map_eq_some_iff.1 inner
        have fewer := ih w.length (by simp) (Prod.ext body left) rfl
        simpa using fewer

theorem isUrlChar_of_urlBody {u after : List Char} (found : urlBody (u ++ [')']) = (some u, after)) :
    ∀ x ∈ u, IsUrlChar x := by
  induction u with
  | nil => simp
  | cons c u ih =>
    rw [List.cons_append, urlBody.eq_def] at found
    simp only at found
    split_ifs at found with blank paren breaks slash line
    · split at found <;> cases found
    · cases found
    · cases found
    · cases found
    · -- The escape stands for a backslash, so something is left of the text, but too little.
      obtain ⟨inner, left⟩ := Prod.mk.inj found
      obtain ⟨v, body, same⟩ := Option.map_eq_some_iff.1 inner
      obtain ⟨first, rfl⟩ := List.cons.inj same
      rcases escape_paren v with none | ⟨w, rest, shorter⟩
      · obtain rfl : v = [] := by simpa [none, urlBody] using body.symm
        rw [slash] at first
        exact absurd first (by decide)
      · rw [rest] at body left
        have fewer := length_urlBody_le (Prod.ext body left)
        omega
    · obtain ⟨inner, left⟩ := Prod.mk.inj found
      obtain ⟨v, body, same⟩ := Option.map_eq_some_iff.1 inner
      obtain ⟨first, rfl⟩ := List.cons.inj same
      intro x member
      rcases List.mem_cons.1 member with rfl | later
      · exact ⟨by simpa using blank, paren, by simpa using breaks, slash, first⟩
      · exact ih (Prod.ext body left) x later

theorem urlToken?_eq_iff (u : String) :
    urlToken? (u.toList ++ [')']) = some (.url u, []) ↔ ∀ x ∈ u.toList, IsUrlChar x := by
  rw [urlToken?_eq_url_iff, dropWhile_paren]
  constructor
  · rintro ⟨-, found⟩
    have dropped : u.toList.dropWhile Text.isBlank = u.toList :=
      (List.dropWhile_suffix _).eq_of_length_le (length_urlBody_le found)
    rw [dropped] at found
    exact isUrlChar_of_urlBody found
  · intro chars
    have solid : u.toList.dropWhile Text.isBlank = u.toList := by
      cases same : u.toList with
      | nil => rfl
      | cons x xs => exact List.dropWhile_cons_of_neg (by simp [(chars x (by simp [same])).1])
    rw [solid]
    refine ⟨?_, urlBody_append chars []⟩
    intro x head
    cases same : u.toList with
    | nil =>
      rw [same] at head
      cases head
      exact ⟨by decide, by decide⟩
    | cons y ys =>
      rw [same] at head
      cases head
      have breaks := (chars x (by simp [same])).2.2.1
      constructor <;> rintro rfl <;> cases breaks

theorem urlBody_nonzero (cs : List Char) : ∀ u ∈ (urlBody cs).1, '\x00' ∉ u := by
  fun_induction urlBody cs with
  | case8 rest _ _ u after eq _ _ _ ih =>
    rw [eq] at ih
    intro v member
    obtain ⟨w, found, rfl⟩ := Option.map_eq_some_iff.1 member
    simpa [(escape_ne rest).symm] using ih w found
  | case9 c rest _ _ _ _ u after eq ih =>
    rw [eq] at ih
    intro v member
    obtain ⟨w, found, rfl⟩ := Option.map_eq_some_iff.1 member
    simpa [(known_ne c).symm] using ih w found
  | _ => simp

/-- Characters that stand in an unquoted url only as escapes. -/
def isEscapedInUrl (c : Char) : Bool :=
  Text.isBlank c || c == ')' || c == '\\' || breaksUrl c

theorem isUrlChar_iff {c : Char} (nonzero : c ≠ '\x00') :
    IsUrlChar c ↔ isEscapedInUrl c = false := by
  have same : known c = c := if_neg nonzero
  simp only [IsUrlChar, isEscapedInUrl, same, and_true, Bool.or_eq_false_iff, beq_eq_false_iff_ne]
  tauto

theorem lexemes_url_iff {u : String} (nonzero : '\x00' ∉ u.toList) {text : List Char}
    (printed : text = 'u' :: 'r' :: 'l' :: '(' :: (u.toList ++ [')'])) :
    lexemes text = [⟨.url u, text, .origin⟩] ↔ ∀ c ∈ u.toList, isEscapedInUrl c = false := by
  have chars : (∀ c ∈ u.toList, isEscapedInUrl c = false) ↔ ∀ c ∈ u.toList, IsUrlChar c :=
    forall₂_congr fun c member =>
      (isUrlChar_iff fun zero : c = '\x00' => nonzero (zero ▸ member)).symm
  rw [chars, ← urlToken?_eq_iff, printed, Quoted.lexemes_cons, scan_url]
  constructor
  · intro single
    obtain ⟨first, rest⟩ := List.cons.inj single
    cases found : urlToken? (u.toList ++ [')']) with
    | none =>
      rw [found] at first
      cases (Lexeme.mk.inj first).1
    | some result =>
      obtain ⟨t, after⟩ := result
      rw [found] at first rest
      obtain rfl : t = .url u := (Lexeme.mk.inj first).1
      cases after with
      | nil => rfl
      | cons x xs =>
        simp only [Option.getD_some, lexemesFrom] at rest
        cases rest
  · intro found
    have all : ∀ cs, before cs [] = cs := by simp [before]
    simp [found, all, lexemesFrom]

end Lexer

def Lexeme.HasUrl (l : Lexeme) : Prop :=
  ∀ u, l.token = .url u → '\x00' ∉ u.toList

theorem Lexer.lexemesFrom_hasUrl (start : Location) (cs : List Char) :
    ∀ l ∈ lexemesFrom start cs, l.HasUrl := by
  refine forall_mem_lexemesFrom (fun _ c rest u url => ?_) start cs
  have scanned : scan c rest = (.url u, (scan c rest).2) := Prod.ext url rfl
  have named : startsName (c :: rest) ∧ identLike (c :: rest) = (.url u, (scan c rest).2) :=
    isRead_of_scan scanned
  obtain ⟨after, _, found⟩ := urlToken?_of_identLike named.2
  have body := congrArg Prod.fst (urlToken?_eq_url_iff.1 found).2
  exact urlBody_nonzero _ _ body

namespace Node

theorem level_hasUrl (cs : List Char) : Level Lexeme.HasUrl (ofText cs) :=
  level_ofText (lexemesFrom_hasUrl _ cs)

/-- The value of an unquoted url of a text is printed as a call with the url as it is. The printed
text is one unquoted url with the same content exactly if no character of the url has to be
escaped. -/
theorem url_survives_iff {css : List Char} {ns : List Node} {n : Node} {u : String}
    (inside : Inside (ofText css) ns) (member : n ∈ ns) (token : n.token = .url u)
    (lead : List Char) :
    ∃ v text, n.value? lead = some v ∧ v.render = .ok text ∧
      (Lexer.lexemes text.toList = [⟨.url u, text.toList, .origin⟩] ↔
        ∀ c ∈ u.toList, isEscapedInUrl c = false) := by
  cases (inside.level (level_hasUrl css)).built n member with
  | @block l body closing holds opens _ _ _ =>
    rw [show l.token = .url u from token] at opens
    cases opens
  | @leaf l holds _ =>
    have url : l.token = .url u := token
    refine ⟨.verbatimCall "url" u, _, by rw [value?, url]; rfl, rfl, ?_⟩
    apply lexemes_url_iff (holds u url)
    simp [String.toList_append,
      show (Printer.identifier "url").toList = ['u', 'r', 'l'] by decide +kernel]

def escapedUrls : List Char :=
  "url(a\\)b)url(\\61.png)".toList

theorem url_survives_iff_escapedUrls :
    ∃ n m, n ∈ ofText escapedUrls ∧ m ∈ ofText escapedUrls ∧
      n.token = .url "a)b" ∧ Lexer.lexemes "url(a)b)".toList ≠
        [⟨.url "a)b", "url(a)b)".toList, .origin⟩] ∧
      m.token = .url "a.png" ∧ Lexer.lexemes "url(a.png)".toList =
        [⟨.url "a.png", "url(a.png)".toList, .origin⟩] := by
  let n : Node := .leaf ⟨.url "a)b", "url(a\\)b)".toList, ⟨1, 1⟩⟩
  let m : Node := .leaf ⟨.url "a.png", "url(\\61.png)".toList, ⟨1, 10⟩⟩
  have nodes : ofText escapedUrls = [n, m] := by cbv
  have first : n ∈ ofText escapedUrls := nodes ▸ List.mem_cons_self
  have second : m ∈ ofText escapedUrls := nodes ▸ List.mem_cons_of_mem _ List.mem_cons_self
  obtain ⟨v, text, value, printed, broken⟩ := url_survives_iff .self first rfl []
  obtain ⟨w, text', value', printed', whole⟩ := url_survives_iff .self second rfl []
  cases value
  cases value'
  cases printed
  cases printed'
  have escaped : ¬∀ c ∈ "a)b".toList, isEscapedInUrl c = false :=
    fun none => absurd (none ')' (by decide)) (by decide)
  have plain : ∀ c ∈ "a.png".toList, isEscapedInUrl c = false := by
    simpa using List.all_eq_true.1 (show "a.png".toList.all (fun c => !isEscapedInUrl c) by decide)
  exact ⟨n, m, first, second, rfl, mt broken.1 escaped, rfl, whole.2 plain⟩

end Node

end CssOutline
