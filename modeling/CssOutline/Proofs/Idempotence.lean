import CssOutline.Proofs.Overrun
import CssOutline.Proofs.RoundTrip
import CssOutline.Proofs.Transport

/-! Decoding what has been decoded before. The outline of a style sheet always has a text. Where its
lines are read one by one, that text is read as the outline exactly if each line reads back; a
custom property that leaves a block open hides the lines after it. -/

namespace CssOutline

namespace Node

theorem build_flat (f : Frame) (stack : List Frame) (siblings : List Node) {ls : List Lexeme}
    (stays : ∀ l ∈ ls, l.token.closing? = none ∧ f.opening.token.closing? ≠ some l.token) :
    build (f :: stack) siblings ls = finish (f :: stack) ((ls.map leaf).reverse ++ siblings) := by
  induction ls generalizing siblings with
  | nil => rfl
  | cons l ls ih =>
    obtain ⟨opens, closes⟩ := stays l (by simp)
    have step : build (f :: stack) siblings (l :: ls) = _ := build_leaf opens (by simpa using closes)
    rw [step, ih _ fun m member => stays m (by simp [member])]
    simp

theorem ends_of_open {cs : List Char} {front : List Lexeme} {opening : Lexeme} {ls : List Lexeme}
    (lexed : Lexer.plain cs = front ++ opening :: ls) (flat : ∀ l ∈ front, l.token.isFlat)
    (opens : opening.token.closing?.isSome)
    (stays : ∀ l ∈ ls, l.token.closing? = none ∧ opening.token.closing? ≠ some l.token) :
    Ends cs (front.map leaf ++ [block opening (ls.map leaf) none]) := by
  intro stack siblings _
  rw [lexed]
  clear lexed
  induction front generalizing siblings with
  | nil =>
    rw [List.nil_append, build_open opens, build_flat _ _ _ stays]
    simp [finish]
  | cons l front ih =>
    obtain ⟨plain, closes⟩ := Token.closing?_of_isFlat (flat l (by simp))
    have step : build stack siblings (l :: (front ++ opening :: ls)) = _ :=
      build_leaf plain fun f _ => closes _
    rw [List.cons_append, step, ih (fun m member => flat m (by simp [member])) _]
    simp

end Node

/-- The lines of the written outline are read one by one: either all of them, or up to a custom
property that takes in the text after it; then `hidden` says whether an entry stands there. -/
def Outline.LineByLine (indent : List Char) (d : Outline) (hidden : Bool) : Prop :=
  d.SelfContained .sheet ∧ hidden = false ∨ ∃ ns, Overrun indent .sheet 0 d ['\n'] ns hidden

/-- Whatever was decoded can be encoded. It is decoded again as the same outline exactly if each of
its lines reads back and no entry is hidden. -/
theorem decode_encode_decode {css : String} {d : Outline} (decoded : decode css = .ok d)
    {indent : String} (blank : ∀ c ∈ indent.toList, Text.isBlank c) :
    ∃ text, d.encode indent = .ok text ∧ ∀ hidden, d.LineByLine indent.toList hidden →
      (decode text = .ok d ↔ hidden = false ∧ d.readsBack maxNesting .sheet) := by
  have distinct := distinct_decode decoded
  obtain ⟨text, encoded⟩ := encode_decode_ok decoded indent
  refine ⟨text, encoded, ?_⟩
  rintro hidden (⟨contained, rfl⟩ | ⟨ns, overrun⟩)
  · rw [Outline.decode_encode_iff contained distinct blank encoded]
    simp
  · exact Outline.decode_encode_iff_of_overrun overrun distinct blank encoded

def openSheet : String := "a \x7b --x: f(1); c: d \x7d"

def openOutline : Outline :=
  .block "a" (.value "--x" "f(" <| .value "c" "d" .nil) .nil

theorem lineByLine_openOutline : openOutline.LineByLine "  ".toList true := by
  let head : Grammar.Name := .ofChars 'a' [] rfl rfl
  let front : List Lexeme := [⟨.ident "--x", "--x".toList, .origin⟩, ⟨.colon, [':'], .origin⟩,
    ⟨.whitespace, [' '], .origin⟩]
  let opening : Lexeme := ⟨.function "f", "f(".toList, .origin⟩
  have stands : Node.Stands ' ' "a".toList [head.node] :=
    head.spells.stands (fun rest => Grammar.endsIdent_cons (by decide) rest)
      (Grammar.visible_of_isLower rfl [])
  have flat : ∀ l ∈ front, l.token.isFlat := by decide
  have whole : Lexer.plain (Outline.lineText "--x" "f(" ++ ';' ::
      ((Outline.value "c" "d" .nil).spread "  ".toList 1 ++ "\n\x7d\n".toList)) =
      front ++ opening :: Lexer.plain ";\n  c: d;\n\x7d\n".toList := by
    decide +kernel
  have single : Lexer.plain (Outline.lineText "--x" "f(" ++ [';']) =
      front ++ opening :: Lexer.plain [';'] := by
    decide +kernel
  have inner : Outline.Overrun "  ".toList (.body .style) 1
      (.value "--x" "f(" <| .value "c" "d" .nil) "\n\x7d\n".toList _ true :=
    .line rfl rfl (by decide) ⟨'-', _, rfl, rfl⟩
      (Node.ends_of_open whole flat rfl (by decide +kernel))
      (Node.ends_of_open single flat rfl (by decide +kernel))
  have all : Outline.Overrun "  ".toList .sheet 0 openOutline ['\n'] _ (true || _) :=
    .inside rfl stands rfl inner
  exact .inr ⟨_, all⟩

theorem decode_encode_decode_openSheet :
    decode openSheet = .ok openOutline ∧ openOutline.LineByLine "  ".toList true ∧
    ∃ text, openOutline.encode "  " = .ok text ∧ decode text ≠ .ok openOutline := by
  have decoded : decode openSheet = .ok openOutline := by decide +kernel
  have blank : ∀ c ∈ "  ".toList, Text.isBlank c := List.all_eq_true.1 rfl
  obtain ⟨text, encoded, back⟩ := decode_encode_decode decoded blank
  refine ⟨decoded, lineByLine_openOutline, text, encoded, ?_⟩
  rw [Ne, back true lineByLine_openOutline]
  simp

end CssOutline
