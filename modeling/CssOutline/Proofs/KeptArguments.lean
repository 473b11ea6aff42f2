import CssOutline.Proofs.MathSlices
import CssOutline.Proofs.PrintedSelectors

/-! Arguments that are kept as text. If all brackets, strings, comments and urls in such a text are
closed and nothing is trimmed off it, the printed call is read as one function again, whatever
stands after it, and the text is kept as it is. -/

namespace CssOutline

open Lexer
open Node (Spells)

/-- A text without escapes in which everything is closed. It starts and ends where the text of an
argument does. -/
structure IsClosedArgument (text : String) : Prop where
  plain : '\\' ∉ text.toList
  ended : ∀ l ∈ lexemes text.toList, l.token.IsEnded l.text
  balanced : Token.balanced [] ((lexemes text.toList).map Lexeme.token)
  trimmed : Text.trim text.toList = text.toList
  visible : ∀ n ∈ (Node.plain text.toList).head?, n.isTrivia = false

def Token.isUnquoted : Token → Bool
  | comment => false
  | string _ => false
  | url _ => false
  | badString _ => false
  | badUrl _ => false
  | _ => true

theorem Token.isEnded_of_isUnquoted {t : Token} (unquoted : t.isUnquoted) (text : List Char) :
    t.IsEnded text := by
  cases t <;> trivial

theorem IsClosedArgument.of_isUnquoted {text : String} (plain : '\\' ∉ text.toList)
    (unquoted : ∀ l ∈ lexemes text.toList, l.token.isUnquoted)
    (balanced : Token.balanced [] ((lexemes text.toList).map Lexeme.token))
    (trimmed : Text.trim text.toList = text.toList)
    (visible : ∀ n ∈ (Node.plain text.toList).head?, n.isTrivia = false) :
    IsClosedArgument text :=
  ⟨plain, fun l member => Token.isEnded_of_isUnquoted (unquoted l member) _, balanced, trimmed,
    visible⟩

namespace Node

theorem grown_of_whole (awaited : Option Token) (closing : ∀ t ∈ awaited, t.isFlat = false) :
    (ns : List Node) → (∀ n ∈ ns, n.Whole) → Grown awaited false ns
  | [], _ => .nil
  | n :: ns, whole => by
    have later := grown_of_whole awaited closing ns fun m member => whole m (by simp [member])
    cases whole n (by simp) with
    | @leaf l flat =>
      refine .leaf (Token.closing?_of_isFlat flat).1 ?_ later
      rintro rfl
      simp [flat] at closing
    | @block l c body closes inner =>
      have bracket : c.token.isFlat = false := by
        by_contra flat
        exact (Token.closing?_of_isFlat (by simpa using flat)).2 _ closes
      exact .closed closes (grown_of_whole (some c.token) (by simpa using bracket) body inner) later
termination_by ns => sizeOf ns

end Node

namespace IsClosedArgument

variable {text : String}

theorem spells (closed : IsClosedArgument text) :
    Spells (fun rest => ∃ more, rest = ')' :: more) text.toList (Node.plain text.toList) := by
  rintro stack siblings _ ⟨more, rfl⟩
  have stops : Stops (')' :: more) := by
    rintro x ⟨⟩
    simp
  have solid : ∀ x ∈ (')' :: more).head?, Text.isBlank x = false := by
    rintro x ⟨⟩
    rfl
  have alone : Scans (lexemes text.toList) ([] ++ []) := scans_lexemes text.toList
  have scans : Scans (lexemes text.toList) (')' :: more) :=
    alone.cut_before (by simpa [flatMap_text_lexemes] using closed.plain) closed.ended (by simp)
      stops fun _ => solid
  have split := scans.plain
  rw [flatMap_text_lexemes] at split
  have level : Node.Grown (stack.head?.bind fun f => f.opening.token.closing?) false
      (Node.ofText text.toList) := by
    refine Node.grown_of_whole _ ?_ _ (Node.whole_ofText closed.balanced)
    intro t awaits
    obtain ⟨f, -, closes⟩ := Option.bind_eq_some_iff.1 awaits
    by_contra flat
    exact (Token.closing?_of_isFlat (by simpa using flat)).2 _ closes
  rw [split, ← Node.lexemesOf_ofText, level.build_closed fun f top => by rw [top]; rfl,
    Node.unplaced_ofText]

theorem trimmedText_plain (closed : IsClosedArgument text) :
    Node.trimmedText (Node.plain text.toList) = text := by
  have first : Node.dropTrivia (Node.plain text.toList) = Node.plain text.toList := by
    have visible := closed.visible
    cases nodes : Node.plain text.toList with
    | nil => rfl
    | cons n ns =>
      rw [nodes, List.head?_cons] at visible
      exact List.dropWhile_cons_of_neg (by simp [visible n rfl])
  rw [Node.trimmedText, first, ← Node.unplaced_ofText, Node.textOf_map_unplaced,
    Node.textOf_ofText, closed.trimmed, String.ofList_toList]

end IsClosedArgument

/-- A closed argument is read back from its call, if the function is one whose argument is kept:
one that takes no selectors, or the argument is none. -/
theorem Argument.verbatim_of_isClosed {name text : String} (named : IsName name)
    (notUrl : Text.sameName name "url" = false) (closed : IsClosedArgument text)
    (kept : takesSelectors name →
      ∃ fault, Node.readSelectors (Node.ofText text.toList) = .error fault) :
    Argument.Verbatim name text := by
  have call := named.spells_call notUrl closed.spells fun rest => ⟨rest, rfl⟩
  refine ⟨_, by simpa using call, ?_⟩
  have read : Argument.read name (Node.plain text.toList)
      (Node.symbols (Node.plain text.toList)) = .raw text := by
    rw [Argument.read, closed.trimmedText_plain]
    split_ifs with takes
    · obtain ⟨fault, refused⟩ := kept takes
      rw [← Node.readSelectors_unplaced, Node.unplaced_ofText, Node.readSelectors] at refused
      rw [refused]
    · rfl
  simp only [Node.symbol?, read]

example : Argument.Verbatim "nth-child" "2n+1" := by
  have named : IsName "nth-child" := ⟨by decide, by decide⟩
  have closed : IsClosedArgument "2n+1" := .of_isUnquoted (by decide) (by decide +kernel)
    (by decide +kernel) (by decide) (by decide +kernel)
  have plain : takesSelectors "nth-child" = false := by decide +kernel
  exact Argument.verbatim_of_isClosed named (by decide +kernel) closed (by simp [plain])

end CssOutline
