import CssOutline.Outline.Layout

/-! Which outlines cannot be written, and with which error. The entries are written one after the
other, each before those of its block, and the first that cannot be written stops everything. The
indent has no part in it. -/

namespace CssOutline

namespace Outline

structure Occurrence where
  depth : Nat
  key : String
  item : Item

def occurrences (depth : Nat) : Outline → List Occurrence
  | nil => []
  | value key text rest => ⟨depth, key, .value text⟩ :: rest.occurrences depth
  | block key body rest =>
    ⟨depth, key, .block body⟩ :: (body.occurrences (depth + 1) ++ rest.occurrences depth)

namespace Occurrence

/-- The key is empty, or a value that is not empty or not under the key of an at-rule stands
outside every block. -/
def Offends (o : Occurrence) : Prop :=
  o.key = "" ∨
    o.depth = 0 ∧ ∃ text ∈ o.item.text?, ¬ (text = "" ∧ o.key.toList.head? = some '@')

instance : DecidablePred Offends :=
  fun _ => inferInstanceAs (Decidable (_ ∨ _))

def error (o : Occurrence) : LayoutError :=
  if o.key = "" then .emptyKey else .declarationAtRoot o.key

theorem offends_value {depth : Nat} {key text : String} :
    Offends ⟨depth, key, .value text⟩ ↔
      key = "" ∨ depth = 0 ∧ isStatement key text = false := by
  simp [Offends, Item.text?, isStatement, isAtKey]

theorem offends_block {depth : Nat} {key : String} {body : Outline} :
    Offends ⟨depth, key, .block body⟩ ↔ key = "" := by
  simp [Offends, Item.text?]

end Occurrence

/-- The lines of an outline, written entry by entry up to the first that cannot be written. Into a
block that is written on one line the writer does not look. -/
def write (depth : Nat) : Outline → Except LayoutError (List Line)
  | nil => .ok []
  | value key text rest =>
    if key = "" then .error .emptyKey
    else if isStatement key text then (rest.write depth).map (⟨depth, key ++ ";"⟩ :: ·)
    else if depth = 0 then .error (.declarationAtRoot key)
    else (rest.write depth).map (⟨depth, key ++ ": " ++ text ++ ";"⟩ :: ·)
  | block key body rest =>
    if key = "" then .error .emptyKey
    else
      match compactBody? key body with
      | some text => (rest.write depth).map (⟨depth, key ++ " \x7b " ++ text ++ "; \x7d"⟩ :: ·)
      | none => do
        let inner ← body.write (depth + 1)
        let later ← rest.write depth
        .ok (⟨depth, key ++ " \x7b"⟩ :: inner ++ ⟨depth, "\x7d"⟩ :: later)

def linesOr (ls : List Line) : Option LayoutError → Except LayoutError (List Line)
  | none => .ok ls
  | some e => .error e

theorem map_cons_linesOr (line : Line) (ls : List Line) (e : Option LayoutError) :
    (linesOr ls e).map (line :: ·) = linesOr (line :: ls) e := by
  cases e <;> rfl

theorem eq_value_of_compactBody? {key text : String} {body : Outline}
    (kept : compactBody? key body = some text) : body = value key text nil := by
  unfold compactBody? at kept
  split at kept
  · split at kept
    · rename_i compact
      simp only [Bool.and_eq_true, beq_iff_eq] at compact
      rw [compact.1.2, Option.some.inj kept]
    · cases kept
  · cases kept

theorem write_eq (depth : Nat) (d : Outline) :
    d.write depth = linesOr (d.lines depth) (d.layoutError? (depth == 0)) := by
  induction d generalizing depth with
  | nil => rfl
  | value key text rest ih =>
    rw [write, layoutError?, lines, ih]
    by_cases empty : key = ""
    · simp [empty, linesOr]
    by_cases statement : isStatement key text
    · simp [empty, statement, map_cons_linesOr]
    · by_cases root : depth = 0
      · simp [empty, statement, root, linesOr]
      · simp [empty, statement, root, map_cons_linesOr]
  | block key body rest inner ih =>
    rw [write, layoutError?, lines, ih]
    by_cases empty : key = ""
    · simp [empty, linesOr]
    cases kept : compactBody? key body with
    | some text =>
      have compact := eq_value_of_compactBody? kept
      subst compact
      simp [empty, map_cons_linesOr, layoutError?]
    | none =>
      have deeper : (depth + 1 == 0) = false := rfl
      rw [inner, deeper]
      cases body.layoutError? false with
      | some e => simp [empty, linesOr, bind, Except.bind]
      | none =>
        cases rest.layoutError? (depth == 0) <;>
          simp [empty, linesOr, bind, Except.bind]

theorem encode_eq_write (indent : String) (d : Outline) :
    d.encode indent = (d.write 0).map fun ls => String.join (ls.map (Line.render indent)) := by
  rw [write_eq, encode]
  simp only [beq_self_eq_true]
  cases d.layoutError? true <;> rfl

theorem layoutError?_eq (depth : Nat) (d : Outline) :
    d.layoutError? (depth == 0) =
      ((d.occurrences depth).find? (·.Offends)).map Occurrence.error := by
  induction d generalizing depth with
  | nil => rfl
  | value key text rest ih =>
    rw [layoutError?, occurrences, ih]
    by_cases offends : Occurrence.Offends ⟨depth, key, .value text⟩
    · rw [List.find?_cons_of_pos (by simpa using offends), Option.map_some, Occurrence.error]
      by_cases empty : key = ""
      · simp [empty]
      · have root := (Occurrence.offends_value.1 offends).resolve_left empty
        simp [empty, root]
    · have silent := mt Occurrence.offends_value.2 offends
      simp only [not_or, not_and, Bool.not_eq_false] at silent
      have written : (depth == 0 && !isStatement key text) = false := by
        cases depth with
        | zero => simp [silent.2 rfl]
        | succ depth => rfl
      rw [List.find?_cons_of_neg (by simpa using offends)]
      simp [silent.1, written]
  | block key body rest inner ih =>
    have deeper : (depth + 1 == 0) = false := rfl
    rw [layoutError?, occurrences, ih, ← deeper, inner]
    by_cases offends : Occurrence.Offends ⟨depth, key, .block body⟩
    · rw [List.find?_cons_of_pos (by simpa using offends), Option.map_some, Occurrence.error]
      simp [Occurrence.offends_block.1 offends]
    · rw [List.find?_cons_of_neg (by simpa using offends), List.find?_append,
        if_neg (mt Occurrence.offends_block.2 offends)]
      cases (body.occurrences (depth + 1)).find? (·.Offends) <;> rfl

theorem encode_eq_error (indent : String) (d : Outline) (e : LayoutError) :
    d.encode indent = .error e ↔
      ((d.occurrences 0).find? (·.Offends)).map Occurrence.error = some e := by
  have walk := layoutError?_eq 0 d
  rw [beq_self_eq_true] at walk
  rw [encode_eq_write, write_eq, beq_self_eq_true, ← walk]
  cases d.layoutError? true <;> simp [linesOr, Except.map]

/-- An outline has no text exactly if one of its entries cannot be written, and then the error is
that of the first such entry, each entry standing before those of its block; so the indent is not
asked. -/
theorem encode_eq_error_iff (d : Outline) :
    (∀ indent, (∃ e, d.encode indent = .error e) ↔ ∃ o ∈ d.occurrences 0, o.Offends) ∧
    (∀ indent e, d.encode indent = .error e ↔
      ∃ before o after, d.occurrences 0 = before ++ o :: after ∧
        (∀ p ∈ before, ¬ p.Offends) ∧ o.Offends ∧ o.error = e) ∧
    ∀ indent other e, d.encode indent = .error e ↔ d.encode other = .error e := by
  refine ⟨fun indent => ?_, fun indent e => ?_, fun indent other e => ?_⟩
  · simp only [encode_eq_error, Option.map_eq_some_iff]
    constructor
    · rintro ⟨e, o, found, -⟩
      exact ⟨o, List.mem_of_find?_eq_some found, by simpa using List.find?_some found⟩
    · rintro ⟨o, member, offends⟩
      have some : ((d.occurrences 0).find? (·.Offends)).isSome :=
        List.find?_isSome.2 ⟨o, member, by simpa using offends⟩
      obtain ⟨first, found⟩ := Option.isSome_iff_exists.1 some
      exact ⟨first.error, first, found, rfl⟩
  · rw [encode_eq_error, Option.map_eq_some_iff]
    constructor
    · rintro ⟨o, found, same⟩
      obtain ⟨offends, before, after, split, silent⟩ := List.find?_eq_some_iff_append.1 found
      exact ⟨before, o, after, split, by simpa using silent, by simpa using offends, same⟩
    · rintro ⟨before, o, after, split, silent, offends, same⟩
      refine ⟨o, List.find?_eq_some_iff_append.2 ⟨by simpa using offends, before, after, split, ?_⟩,
        same⟩
      simpa using silent
  · rw [encode_eq_error, encode_eq_error]

example : (block "a" (block "b" (value "" "c" nil) nil) (value "d" "e" nil)).encode "" =
    .error .emptyKey := by
  rfl

end Outline

end CssOutline
