import CssOutline.Proofs.Items

/-! The bodies of a style sheet text. A node is built from lexemes in one way only: a token that
opens a block never stands alone, and a block that is not closed is the last node of its level.
The texts of the nodes make up the text, inside every block as well. -/

namespace CssOutline

namespace Node

/-- Whether a block, if the node is one, has its closing token. -/
def isClosed : Node → Bool
  | leaf _ => true
  | block _ _ closing => closing.isSome

inductive Built (P : Lexeme → Prop) : Node → Prop
  | leaf {l : Lexeme} (holds : P l) (plain : l.token.closing? = none) : Built P (leaf l)
  | block {l : Lexeme} {body : List Node} {closing : Option Lexeme} (holds : P l)
    (opens : l.token.closing?.isSome) (inner : ∀ n ∈ body, Built P n)
    (closed : ∀ n ∈ body.dropLast, n.isClosed) (closes : ∀ c ∈ closing, P c) :
    Built P (block l body closing)

structure Level (P : Lexeme → Prop) (ns : List Node) : Prop where
  built : ∀ n ∈ ns, n.Built P
  closed : ∀ n ∈ ns.dropLast, n.isClosed

/-- An open block, with only closed nodes before it on its level. -/
structure Frame.Built (P : Lexeme → Prop) (f : Frame) : Prop where
  holds : P f.opening
  opens : f.opening.token.closing?.isSome
  outer : ∀ n ∈ f.outer, n.Built P
  closed : ∀ n ∈ f.outer, n.isClosed

section Build

variable {P : Lexeme → Prop}

theorem Built.level {l : Lexeme} {body : List Node} {closing : Option Lexeme}
    (built : (Node.block l body closing).Built P) : Level P body := by
  cases built with
  | block _ _ inner closed _ => exact ⟨inner, closed⟩

theorem Level.suffix {ns ms : List Node} (level : Level P ns) (suffix : ms <:+ ns) :
    Level P ms := by
  obtain ⟨front, rfl⟩ := suffix
  refine ⟨fun n member => level.built n (by simp [member]), fun n member => ?_⟩
  have some : ms ≠ [] := by
    rintro rfl
    simp at member
  apply level.closed
  rw [List.dropLast_append_of_ne_nil some]
  exact List.mem_append_right _ member

theorem Level.isClosed {front more : List Node} {n : Node} (level : Level P (front ++ n :: more))
    (some : more ≠ []) : n.isClosed := by
  apply level.closed
  rw [List.dropLast_append_of_ne_nil (by simp), List.dropLast_cons_of_ne_nil some]
  simp

theorem finish_level (stack : List Frame) (siblings : List Node)
    (frames : ∀ f ∈ stack, f.Built P) (built : ∀ n ∈ siblings, n.Built P)
    (closed : ∀ n ∈ siblings.tail, n.isClosed) : Level P (finish stack siblings) := by
  have tidy : ∀ {ns : List Node}, (∀ n ∈ ns.tail, n.isClosed) →
      ∀ n ∈ ns.reverse.dropLast, n.isClosed := by
    intro ns tail n member
    rw [List.dropLast_reverse] at member
    exact tail n (List.mem_reverse.1 member)
  induction stack generalizing siblings with
  | nil => exact ⟨fun n member => built n (List.mem_reverse.1 member), tidy closed⟩
  | cons f stack ih =>
    have frame := frames f (by simp)
    rw [finish]
    apply ih _ fun f' later => frames f' (by simp [later])
    · intro n member
      rcases List.mem_cons.1 member with rfl | outer
      · exact .block frame.holds frame.opens (fun m inside => built m (List.mem_reverse.1 inside))
          (tidy closed) (by simp)
      · exact frame.outer n outer
    · exact frame.closed

theorem build_level (stack : List Frame) (siblings : List Node) (ls : List Lexeme)
    (frames : ∀ f ∈ stack, f.Built P) (built : ∀ n ∈ siblings, n.Built P)
    (closed : ∀ n ∈ siblings, n.isClosed) (holds : ∀ l ∈ ls, P l) :
    Level P (build stack siblings ls) := by
  fun_induction build stack siblings ls with
  | case1 stack siblings =>
    exact finish_level stack siblings frames built fun n later =>
      closed n (List.mem_of_mem_tail later)
  | case2 stack siblings l ls opens ih =>
    apply ih _ (by simp) (by simp) fun l' later => holds l' (by simp [later])
    intro f member
    rcases List.mem_cons.1 member with rfl | later
    · exact ⟨holds l (by simp), opens, built, closed⟩
    · exact frames f later
  | case3 siblings l ls _ f outer _ ih =>
    have frame := frames f (by simp)
    have inner : ∀ n ∈ siblings.reverse, n.Built P :=
      fun n inside => built n (List.mem_reverse.1 inside)
    have whole : (block f.opening siblings.reverse (some l)).Built P :=
      .block frame.holds frame.opens inner
        (fun n inside => closed n (List.mem_reverse.1 (List.dropLast_subset _ inside)))
        (by simpa using holds l (by simp))
    apply ih (fun f' later => frames f' (by simp [later]))
    · simpa [whole] using frame.outer
    · simpa [isClosed] using frame.closed
    · exact fun l' later => holds l' (by simp [later])
  | case4 siblings l ls plain f outer _ ih =>
    have single : (leaf l).Built P := .leaf (holds l (by simp)) (by simpa using plain)
    apply ih frames
    · simpa [single] using built
    · simpa [isClosed] using closed
    · exact fun l' later => holds l' (by simp [later])
  | case5 siblings l ls plain ih =>
    have single : (leaf l).Built P := .leaf (holds l (by simp)) (by simpa using plain)
    apply ih frames
    · simpa [single] using built
    · simpa [isClosed] using closed
    · exact fun l' later => holds l' (by simp [later])

theorem level_ofText {cs : List Char} (holds : ∀ l ∈ Lexer.lexemes cs, P l) :
    Level P (ofText cs) :=
  build_level [] [] _ (by simp) (by simp) (by simp) holds

end Build

/-- The nodes of a level and of every block in it. -/
inductive Inside (ns : List Node) : List Node → Prop
  | self : Inside ns ns
  | block {ms body : List Node} {l : Lexeme} {closing : Option Lexeme} (outer : Inside ns ms)
    (member : block l body closing ∈ ms) : Inside ns body

theorem Inside.level {P : Lexeme → Prop} {ns ms : List Node} (inside : Inside ns ms)
    (level : Level P ns) : Level P ms := by
  induction inside with
  | self => exact level
  | block _ member ih => exact (ih.built _ member).level

def openText : List Frame → List Node → List Char
  | [], siblings => textOf siblings.reverse
  | f :: stack, siblings =>
    openText stack f.outer ++ (f.opening.text ++ textOf siblings.reverse)

theorem openText_cons (stack : List Frame) (n : Node) (siblings : List Node) :
    openText stack (n :: siblings) = openText stack siblings ++ n.text := by
  cases stack <;> simp [openText, textOf_append, textOf]

theorem textOf_finish (stack : List Frame) (siblings : List Node) :
    textOf (finish stack siblings) = openText stack siblings := by
  induction stack generalizing siblings with
  | nil => rfl
  | cons f stack ih =>
    rw [finish, ih, openText_cons]
    simp [openText, text]

theorem textOf_build (stack : List Frame) (siblings : List Node) (ls : List Lexeme) :
    textOf (build stack siblings ls) = openText stack siblings ++ ls.flatMap Lexeme.text := by
  fun_induction build stack siblings ls with
  | case1 stack siblings => simp [textOf_finish]
  | case2 stack siblings l ls _ ih =>
    rw [ih, List.flatMap_cons]
    simp [openText, textOf]
  | case3 siblings l ls _ f outer _ ih =>
    rw [ih, openText_cons, List.flatMap_cons]
    simp [openText, text]
  | case4 siblings l ls _ f outer _ ih =>
    rw [ih, openText_cons, List.flatMap_cons]
    simp [text]
  | case5 siblings l ls _ ih =>
    rw [ih, openText_cons, List.flatMap_cons]
    simp [text]

theorem textOf_ofText (cs : List Char) : textOf (ofText cs) = cs := by
  rw [ofText, textOf_build, Lexer.lexemes, Lexer.flatMap_text_lexemesFrom]
  rfl

end Node

namespace Lexer

theorem text_ne_nil_of_mem_lexemesFrom (start : Location) (cs : List Char) :
    ∀ l ∈ lexemesFrom start cs, l.text ≠ [] := by
  refine forall_mem_lexemesFrom (fun _ c rest empty => ?_) start cs
  have shorter := (scan_suffix c rest).length_le
  have whole := congrArg List.length
    (before_append ((scan_suffix c rest).trans (List.suffix_cons c rest)))
  simp only at empty
  rw [empty] at whole
  simp only [List.length_append, List.length_cons, List.length_nil] at whole
  omega

end Lexer

def Lexeme.Spans (l : Lexeme) : Prop :=
  l.text ≠ []

namespace Node

theorem level_spans (cs : List Char) : Level Lexeme.Spans (ofText cs) :=
  level_ofText (Lexer.text_ne_nil_of_mem_lexemesFrom _ cs)

theorem Built.isCurly_iff {P : Lexeme → Prop} {n : Node} (built : n.Built P) :
    n.isCurly ↔ ∃ l body closing, n = Node.block l body closing ∧ l.token = .openCurly := by
  cases built with
  | @leaf l _ plain =>
    have other : l.token ≠ .openCurly := by
      intro same
      simp [same, Token.closing?] at plain
    simp [isCurly, token, other]
  | block => simp [isCurly, token]

end Node

end CssOutline
