import CssOutline.Proofs.JsonGrammar
import CssOutline.Proofs.Merge

/-! JSON text written for an outline reads back as that outline, in both spacings. The written
text is cut into tokens first, which forget the spacing; the reader then rebuilds the objects from
the inside, each from nothing, so keys have to be distinct and objects may not nest too deep. -/

namespace CssOutline.Json

theorem tokens_blank {c : Char} (blank : isBlank c) (cs : List Char) :
    tokens (c :: cs) = tokens cs := by
  rw [tokens]
  simp [blank]

theorem tokens_of_token? {c : Char} {rest after : List Char} {t : Token}
    (solid : isBlank c = false) (found : token? (c :: rest) = some (t, after)) :
    tokens (c :: rest) = t :: tokens after := by
  rw [tokens]
  simp only [solid, Bool.false_eq_true, ↓reduceIte]
  split
  · simp_all
  · simp_all

theorem tokens_blanks (n : Nat) (cs : List Char) :
    tokens (List.replicate n ' ' ++ cs) = tokens cs := by
  induction n with
  | zero => rfl
  | succ n ih => rw [List.replicate_succ, List.cons_append, tokens_blank rfl, ih]

theorem tokens_newline : tokens "\n".toList = [] := by
  rw [show "\n".toList = ['\n'] from rfl, tokens_blank rfl, tokens]

theorem tokens_lineBreak (spacing : Spacing) (depth : Nat) (cs : List Char) :
    tokens ((spacing.lineBreak depth).toList ++ cs) = tokens cs := by
  cases spacing with
  | compact => rfl
  | pretty =>
    simp only [Spacing.lineBreak, String.toList_append, String.toList_ofList, List.append_assoc]
    rw [show "\n".toList = ['\n'] from rfl, List.singleton_append, tokens_blank rfl, tokens_blanks]

theorem tokens_colon (spacing : Spacing) (cs : List Char) :
    tokens (spacing.colon.toList ++ cs) = .colon :: tokens cs := by
  cases spacing with
  | compact => exact tokens_of_token? rfl rfl
  | pretty =>
    have colon : tokens (':' :: ' ' :: cs) = .colon :: tokens (' ' :: cs) :=
      tokens_of_token? rfl rfl
    exact colon.trans (by rw [tokens_blank rfl])

theorem stringRest?_flatMap_escape (s tail : List Char) :
    stringRest? (s.flatMap escape ++ '"' :: tail) = some (s, tail) :=
  stringRest?_eq_some_iff.2 ⟨s.flatMap escape, spellsAll_escape s, rfl⟩

theorem tokens_quote (s : String) (cs : List Char) :
    tokens ((quote s).toList ++ cs) = .string s :: tokens cs := by
  have text : (quote s).toList ++ cs = '"' :: (s.toList.flatMap escape ++ '"' :: cs) := by
    simp [quote]
  have found : token? ('"' :: (s.toList.flatMap escape ++ '"' :: cs)) = some (.string s, cs) := by
    simp [token?, stringRest?_flatMap_escape]
  rw [text, tokens_of_token? rfl found]

/-- The tokens of the members of an object, the first after `separator`. -/
def memberTokens (separator : List Token) : Outline → List Token
  | .nil => []
  | .value key text rest =>
    separator ++ .string key :: .colon :: .string text :: memberTokens [.comma] rest
  | .block key body rest =>
    separator ++ .string key :: .colon :: .openBrace :: (memberTokens [] body ++
      .closeBrace :: memberTokens [.comma] rest)

theorem tokens_members (spacing : Spacing) (depth : Nat) (separator : String)
    (marks : List Token) (d : Outline) (cs : List Char)
    (separated : ∀ cs, tokens (separator.toList ++ cs) = marks ++ tokens cs) :
    tokens ((members spacing depth separator d).toList ++ cs) =
      memberTokens marks d ++ tokens cs := by
  have comma : ∀ cs, tokens (",".toList ++ cs) = [.comma] ++ tokens cs :=
    fun cs => tokens_of_token? rfl rfl
  have openBrace : ∀ cs, tokens ("\x7b".toList ++ cs) = .openBrace :: tokens cs :=
    fun cs => tokens_of_token? rfl rfl
  have closeBrace : ∀ cs, tokens ("\x7d".toList ++ cs) = .closeBrace :: tokens cs :=
    fun cs => tokens_of_token? rfl rfl
  induction d generalizing depth separator marks cs with
  | nil => rfl
  | value key text rest ih =>
    simp only [members, String.toList_append, List.append_assoc, separated, tokens_lineBreak,
      tokens_quote, tokens_colon, ih depth "," [.comma] cs comma, memberTokens, List.cons_append]
  | block key body rest inner ih =>
    have ending : ∀ cs, tokens ((if body.isEmpty then "" else spacing.lineBreak depth).toList ++
        cs) = tokens cs := by
      intro cs
      split
      · rfl
      · exact tokens_lineBreak spacing depth cs
    simp only [members, String.toList_append, List.append_assoc, separated, tokens_lineBreak,
      tokens_quote, tokens_colon, openBrace, inner (depth + 1) "" [] _ fun _ => rfl, ending,
      closeBrace, ih depth "," [.comma] cs comma, memberTokens, List.cons_append]

theorem tokens_write (spacing : Spacing) (d : Outline) (cs : List Char) :
    tokens ((write spacing d).toList ++ cs) =
      .openBrace :: (memberTokens [] d ++ .closeBrace :: tokens cs) := by
  have openBrace : ∀ cs, tokens ("\x7b".toList ++ cs) = .openBrace :: tokens cs :=
    fun cs => tokens_of_token? rfl rfl
  have closeBrace : ∀ cs, tokens ("\x7d".toList ++ cs) = .closeBrace :: tokens cs :=
    fun cs => tokens_of_token? rfl rfl
  have ending : ∀ cs, tokens ((if d.isEmpty then "" else spacing.lineBreak 0).toList ++ cs) =
      tokens cs := by
    intro cs
    split
    · rfl
    · exact tokens_lineBreak spacing 0 cs
  simp only [write, String.toList_append, List.append_assoc, openBrace]
  rw [tokens_members spacing 1 "" [] d _ fun _ => rfl, ending, closeBrace]

def closeObject (ts : List Token) (stack : List (Outline × String)) (current : Outline) :
    Except ReadError Outline :=
  match stack with
  | [] => if ts = [] then .ok current else .error .notJson
  | (parent, key) :: stack =>
    readObject ts stack (parent.insert key (.block current)) .commaOrEnd

theorem readObject_closeBrace (ts : List Token) (stack : List (Outline × String))
    (current : Outline) :
    readObject (.closeBrace :: ts) stack current .commaOrEnd = closeObject ts stack current := by
  cases stack <;> rfl

theorem readObject_empty (ts : List Token) (stack : List (Outline × String))
    (current : Outline) :
    readObject (.closeBrace :: ts) stack current .memberOrEnd = closeObject ts stack current := by
  cases stack <;> rfl

def Shallow (level : Nat) (d : Outline) : Prop :=
  d.Every (fun level _ text => text = none → level + 2 ≤ maxDepth) level

/-- The members of an object are inserted one by one, each block once it is complete. -/
def ReadsMembers (d : Outline) : Prop :=
  ∀ ts stack current, d.Distinct → Shallow stack.length d →
    readObject (memberTokens [.comma] d ++ ts) stack current .commaOrEnd =
      readObject ts stack (current.insertAll d.entries) .commaOrEnd

theorem readObject_body {d : Outline} (reads : ReadsMembers d) (ts : List Token)
    (stack : List (Outline × String)) (distinct : d.Distinct) (shallow : Shallow stack.length d) :
    readObject (memberTokens [] d ++ .closeBrace :: ts) stack .nil .memberOrEnd =
      closeObject ts stack d := by
  have later := reads (.closeBrace :: ts) stack .nil distinct shallow
  rw [Outline.insertAll_entries distinct.nodup_keys, readObject_closeBrace] at later
  cases d with
  | nil => exact readObject_empty ts stack .nil
  | value key text rest => exact later
  | block key body rest => exact later

theorem readsMembers (d : Outline) : ReadsMembers d := by
  induction d with
  | nil => intro ts stack current _ _; rfl
  | value key text rest ih =>
    rintro ts stack current (_ | ⟨-, distinct⟩) (_ | ⟨-, shallow⟩)
    exact ih ts stack _ distinct shallow
  | block key body rest inner ih =>
    rintro ts stack current (_ | _ | ⟨-, below, distinct⟩) (_ | _ | ⟨fits, deeper, shallow⟩)
    have room : stack.length + 2 ≤ maxDepth := fits rfl
    have tokens : memberTokens [.comma] (.block key body rest) ++ ts =
        .comma :: .string key :: .colon :: .openBrace ::
          (memberTokens [] body ++ .closeBrace :: (memberTokens [.comma] rest ++ ts)) := by
      simp [memberTokens]
    rw [tokens]
    simp only [readObject, room, ↓reduceIte]
    rw [readObject_body inner _ ((current, key) :: stack) below deeper, closeObject,
      ih ts stack _ distinct shallow]
    rfl

theorem read_write_of_distinct (spacing : Spacing) {d : Outline} (distinct : d.Distinct)
    (shallow : Shallow 0 d) {tail : String} (blank : tokens tail.toList = []) :
    read (write spacing d ++ tail) = .ok d := by
  rw [read, String.toList_append, tokens_write, blank, readTokens,
    readObject_body (readsMembers d) [] [] distinct shallow]
  rfl

end CssOutline.Json
