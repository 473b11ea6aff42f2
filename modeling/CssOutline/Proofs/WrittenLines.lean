import CssOutline.Proofs.LayoutErrors
import Mathlib.Data.List.Basic

/-! The lines of a written outline. They are a walk over the entries, each before those of its
block, and do not depend on the indent. A writer that takes the indent down into the blocks and one
text through the whole walk comes to the same as writing out these lines. -/

namespace CssOutline

namespace Outline

/-- The lines of the entries at a depth, in their order. -/
inductive Walk : Nat → Outline → List Line → Prop
  | nil {depth : Nat} : Walk depth nil []
  | statement {depth : Nat} {key : String} {rest : Outline} {later : List Line}
    (marked : isAtKey key) (walk : Walk depth rest later) :
    Walk depth (value key "" rest) (⟨depth, key ++ ";"⟩ :: later)
  | declaration {depth : Nat} {key text : String} {rest : Outline} {later : List Line}
    (other : ¬ (text = "" ∧ isAtKey key)) (walk : Walk depth rest later) :
    Walk depth (value key text rest) (⟨depth, key ++ ": " ++ text ++ ";"⟩ :: later)
  | oneLine {depth : Nat} {key text : String} {rest : Outline} {later : List Line}
    (marked : isAtKey key) (kept : text ≠ "") (walk : Walk depth rest later) :
    Walk depth (block key (value key text nil) rest)
      (⟨depth, key ++ " \x7b " ++ text ++ "; \x7d"⟩ :: later)
  | block {depth : Nat} {key : String} {body rest : Outline} {inside later : List Line}
    (other : ¬ (isAtKey key ∧ ∃ text ≠ "", body = value key text nil))
    (inner : Walk (depth + 1) body inside) (walk : Walk depth rest later) :
    Walk depth (block key body rest)
      (⟨depth, key ++ " \x7b"⟩ :: inside ++ ⟨depth, "\x7d"⟩ :: later)

theorem compactBody?_eq_some_iff {key text : String} {body : Outline} :
    compactBody? key body = some text ↔ isAtKey key ∧ text ≠ "" ∧ body = value key text nil := by
  constructor
  · intro kept
    have same := eq_value_of_compactBody? kept
    subst same
    simpa [compactBody?, and_assoc] using kept
  · rintro ⟨marked, kept, rfl⟩
    simp [compactBody?, marked, kept]

theorem compactBody?_eq_none_iff {key : String} {body : Outline} :
    compactBody? key body = none ↔ ¬ (isAtKey key ∧ ∃ text ≠ "", body = value key text nil) := by
  rw [Option.eq_none_iff_forall_ne_some]
  constructor
  · rintro none ⟨marked, text, kept, same⟩
    exact none text (compactBody?_eq_some_iff.2 ⟨marked, kept, same⟩)
  · rintro other text found
    obtain ⟨marked, kept, same⟩ := compactBody?_eq_some_iff.1 found
    exact other ⟨marked, text, kept, same⟩

theorem walk_lines (depth : Nat) (d : Outline) : Walk depth d (d.lines depth) := by
  induction d generalizing depth with
  | nil => exact .nil
  | value key text rest ih =>
    rw [lines]
    cases statement : isStatement key text with
    | true =>
      simp only [isStatement, Bool.and_eq_true, beq_iff_eq] at statement
      obtain ⟨rfl, marked⟩ := statement
      exact .statement marked (ih depth)
    | false =>
      simp only [isStatement, Bool.and_eq_false_iff, beq_eq_false_iff_ne] at statement
      refine .declaration ?_ (ih depth)
      rintro ⟨empty, marked⟩
      rcases statement with kept | unmarked
      · exact kept empty
      · simp [marked] at unmarked
  | block key body rest inner ih =>
    rw [lines]
    cases kept : compactBody? key body with
    | some text =>
      obtain ⟨marked, nonempty, rfl⟩ := compactBody?_eq_some_iff.1 kept
      exact .oneLine marked nonempty (ih depth)
    | none => exact .block (compactBody?_eq_none_iff.1 kept) (inner (depth + 1)) (ih depth)

theorem Walk.eq_lines {depth : Nat} {d : Outline} {ls : List Line} (walk : Walk depth d ls) :
    ls = d.lines depth := by
  induction walk with
  | nil => rfl
  | statement marked _ ih => simp [lines, isStatement, marked, ih]
  | @declaration depth key text rest later other _ ih =>
    have plain : isStatement key text = false := by simpa [isStatement] using other
    simp [lines, plain, ih]
  | oneLine marked kept _ ih => simp [lines, compactBody?_eq_some_iff.2 ⟨marked, kept, rfl⟩, ih]
  | block other _ _ inner ih => simp [lines, compactBody?_eq_none_iff.2 other, inner, ih]

def shown (depth : Nat) : Outline → List Occurrence
  | nil => []
  | value key text rest => ⟨depth, key, .value text⟩ :: rest.shown depth
  | block key body rest =>
    ⟨depth, key, .block body⟩ ::
      (if (compactBody? key body).isSome then [] else body.shown (depth + 1)) ++ rest.shown depth

namespace Occurrence

def unfolded (o : Occurrence) : List Occurrence :=
  match o.item with
  | .value _ => [o]
  | .block body =>
    match compactBody? o.key body with
    | some text => [o, ⟨o.depth + 1, o.key, .value text⟩]
    | none => [o]

def line (o : Occurrence) : Line :=
  ⟨o.depth,
    match o.item with
    | .value text =>
      if isStatement o.key text then o.key ++ ";" else o.key ++ ": " ++ text ++ ";"
    | .block body =>
      match compactBody? o.key body with
      | some text => o.key ++ " \x7b " ++ text ++ "; \x7d"
      | none => o.key ++ " \x7b"⟩

theorem line_ne_closing (o : Occurrence) : o.line.text ≠ "\x7d" := by
  obtain ⟨depth, key, item⟩ := o
  intro same
  have backwards := congrArg (fun s => s.toList.reverse) same
  cases item with
  | value text =>
    simp only [line] at backwards
    split at backwards <;> simp at backwards
  | block body =>
    simp only [line] at backwards
    split at backwards <;> simp at backwards

end Occurrence

def Line.isClosing (line : Line) : Bool :=
  line.text == "\x7d"

theorem Occurrence.isClosing_line (o : Occurrence) : o.line.isClosing = false := by
  simpa [Line.isClosing] using o.line_ne_closing

theorem filter_lines (depth : Nat) (d : Outline) :
    (d.lines depth).filter (!·.isClosing) = (d.shown depth).map Occurrence.line := by
  induction d generalizing depth with
  | nil => rfl
  | value key text rest ih =>
    have opening := Occurrence.isClosing_line ⟨depth, key, .value text⟩
    rw [lines, shown, List.map_cons, ← ih, List.filter_cons_of_pos]
    · rfl
    · exact Bool.not_eq_true' _ ▸ opening
  | block key body rest inner ih =>
    have opening := Occurrence.isClosing_line ⟨depth, key, .block body⟩
    have closing : Line.isClosing ⟨depth, "\x7d"⟩ = true := rfl
    rw [lines, shown]
    cases kept : compactBody? key body with
    | some text =>
      simp only [Occurrence.line, kept] at opening
      simp [opening, ih, Occurrence.line, kept]
    | none =>
      simp only [Occurrence.line, kept] at opening
      simp [opening, closing, ih, inner, Occurrence.line, kept]

theorem flatMap_shown (depth : Nat) (d : Outline) :
    (d.shown depth).flatMap Occurrence.unfolded = d.occurrences depth := by
  induction d generalizing depth with
  | nil => rfl
  | value key text rest ih => simp [shown, occurrences, ih, Occurrence.unfolded]
  | block key body rest inner ih =>
    rw [shown, occurrences]
    cases kept : compactBody? key body with
    | some text =>
      obtain ⟨_, _, rfl⟩ := compactBody?_eq_some_iff.1 kept
      simp [ih, Occurrence.unfolded, kept, occurrences]
    | none => simp [ih, inner, Occurrence.unfolded, kept]

def pushLine (out indent line : String) : String :=
  out ++ indent ++ line ++ "\n"

/-- Appends an outline to a text. Each line starts with `indent`, which grows by `unit` for the
lines of a block. -/
def appendTo (unit : String) :
    Outline → (indent : String) → (root : Bool) → (out : String) → Except LayoutError String
  | nil, _, _, out => .ok out
  | value key text rest, indent, root, out =>
    if key = "" then .error .emptyKey
    else if isStatement key text then
      rest.appendTo unit indent root (pushLine out indent (key ++ ";"))
    else if root then .error (.declarationAtRoot key)
    else rest.appendTo unit indent root (pushLine out indent (key ++ ": " ++ text ++ ";"))
  | block key body rest, indent, root, out =>
    if key = "" then .error .emptyKey
    else
      match compactBody? key body with
      | some text =>
        rest.appendTo unit indent root
          (pushLine out indent (key ++ " \x7b " ++ text ++ "; \x7d"))
      | none => do
        let out ← body.appendTo unit (indent ++ unit) false (pushLine out indent (key ++ " \x7b"))
        rest.appendTo unit indent root (pushLine out indent "\x7d")

def indentAt (unit : String) (depth : Nat) : String :=
  String.join (List.replicate depth unit)

theorem indentAt_succ (unit : String) (depth : Nat) :
    indentAt unit (depth + 1) = indentAt unit depth ++ unit := by
  rw [indentAt, List.replicate_succ', String.join_append, indentAt]
  simp

theorem pushLine_indentAt (unit out : String) (line : Line) :
    pushLine out (indentAt unit line.depth) line.text = out ++ line.render unit := by
  simp [pushLine, indentAt, Line.render, String.append_assoc]

def textAfter (unit out : String) (ls : List Line) : String :=
  out ++ String.join (ls.map (Line.render unit))

theorem textAfter_cons (unit out : String) (line : Line) (ls : List Line) :
    textAfter unit out (line :: ls) =
      textAfter unit (pushLine out (indentAt unit line.depth) line.text) ls := by
  rw [pushLine_indentAt]
  simp [textAfter, String.append_assoc]

theorem textAfter_append (unit out : String) (ls ms : List Line) :
    textAfter unit out (ls ++ ms) = textAfter unit (textAfter unit out ls) ms := by
  simp [textAfter, String.append_assoc]

-- The indent is that of the depth and what is already written stays in front.
theorem appendTo_eq (unit : String) (d : Outline) (depth : Nat) (out : String) :
    d.appendTo unit (indentAt unit depth) (depth == 0) out =
      (d.write depth).map (textAfter unit out) := by
  induction d generalizing depth out with
  | nil => simp [appendTo, write, Except.map, textAfter]
  | value key text rest ih =>
    have step (line : String) :
        rest.appendTo unit (indentAt unit depth) (depth == 0)
            (pushLine out (indentAt unit depth) line) =
          ((rest.write depth).map (⟨depth, line⟩ :: ·)).map (textAfter unit out) := by
      rw [ih]
      cases rest.write depth with
      | error e => rfl
      | ok ls => simp only [Except.map, textAfter_cons]
    rw [appendTo, write]
    simp only [step, beq_iff_eq]
    split
    · rfl
    · split
      · rfl
      · split <;> rfl
  | block key body rest inner ih =>
    have deeper : (depth + 1 == 0) = false := rfl
    rw [appendTo, write]
    by_cases empty : key = ""
    · simp [empty, Except.map]
    cases kept : compactBody? key body with
    | some text =>
      simp only [empty, ↓reduceIte, ih]
      cases rest.write depth with
      | error e => rfl
      | ok ls => simp only [Except.map, textAfter_cons]
    | none =>
      simp only [empty, ↓reduceIte, ← indentAt_succ, ← deeper, inner]
      cases body.write (depth + 1) with
      | error e => rfl
      | ok inside =>
        simp only [Except.map, bind, Except.bind, ih]
        cases rest.write depth with
        | error e => rfl
        | ok later => simp only [textAfter_append, textAfter_cons, List.cons_append]

theorem appendTo_eq_encode (unit : String) (d : Outline) :
    d.appendTo unit "" true "" = d.encode unit := by
  have nothing : textAfter unit "" = fun ls => String.join (ls.map (Line.render unit)) := by
    funext ls
    rw [textAfter, String.empty_append]
  rw [encode_eq_write, ← nothing]
  exact appendTo_eq unit d 0 ""

/-- If an outline can be written, then with every indent as the same lines, each after the indent
repeated as often as its depth says. They are the only walk over the entries; the ones that do not
end a block are in their order the first lines of all entries but those in one-line blocks, one for
each. A writer that adds up the indent and the text on its way gives the same text. -/
theorem walk_of_encode {d : Outline} {indent text : String}
    (encoded : d.encode indent = .ok text) :
    ∃ ls, (∀ unit, d.encode unit = .ok (String.join (ls.map fun line =>
        String.join (List.replicate line.depth unit) ++ line.text ++ "\n"))) ∧
      (∀ ms, Walk 0 d ms ↔ ms = ls) ∧
      (∃ os : List Occurrence, ls.filter (!·.isClosing) = os.map Occurrence.line ∧
        d.occurrences 0 = os.flatMap Occurrence.unfolded) ∧
      ∀ unit, d.appendTo unit "" true "" = d.encode unit := by
  refine ⟨d.lines 0, fun unit => ?_, fun ms => ⟨Walk.eq_lines, fun same => same ▸ walk_lines 0 d⟩,
    ⟨d.shown 0, filter_lines 0 d, (flatMap_shown 0 d).symm⟩, fun unit => appendTo_eq_encode unit d⟩
  have written : d.layoutError? true = none := by
    unfold encode at encoded
    split at encoded
    · cases encoded
    · assumption
  rw [encode, written]
  rfl

def layeredLines : Outline :=
  .value "@import a" "" <| .block "@x" (.value "@x" "y" .nil) <|
    .block "@layer b" (.value "c" "" <| .value "@layer b" "" <| .block "d" .nil .nil) .nil

theorem walk_of_encode_layeredLines :
    (∃ text, layeredLines.encode "\t" = .ok text) ∧
    Walk 0 layeredLines
      [⟨0, "@import a;"⟩, ⟨0, "@x \x7b y; \x7d"⟩, ⟨0, "@layer b \x7b"⟩, ⟨1, "c: ;"⟩,
        ⟨1, "@layer b;"⟩, ⟨1, "d \x7b"⟩, ⟨1, "\x7d"⟩, ⟨0, "\x7d"⟩] ∧
    layeredLines.encode "  " =
      .ok "@import a;\n@x \x7b y; \x7d\n@layer b \x7b\n  c: ;\n  @layer b;\n  d \x7b\n  \x7d\n\x7d\n" := by
  have encoded : layeredLines.encode "\t" =
      .ok "@import a;\n@x \x7b y; \x7d\n@layer b \x7b\n\tc: ;\n\t@layer b;\n\td \x7b\n\t\x7d\n\x7d\n" := by
    decide +kernel
  obtain ⟨ls, texts, walk, -, -⟩ := walk_of_encode encoded
  have lines := (walk _).1 (walk_lines 0 layeredLines)
  subst lines
  refine ⟨⟨_, encoded⟩, ?_, ?_⟩
  · exact (walk _).2 (by decide +kernel)
  · rw [texts]
    decide +kernel

end Outline

end CssOutline
