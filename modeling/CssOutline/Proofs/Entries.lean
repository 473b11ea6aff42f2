import CssOutline.Decode
import CssOutline.Proofs.Merge

/-! The one entry that a member of a body stands for. Adding members to an outline is merging
their entries in order, and however they are nested the keys stay distinct. -/

namespace CssOutline

/-- The entry a rule adds; none if it could not be read. -/
def Rule.entryOf? : Rule → Option (String × Item)
  | .style _ head body => some (head.render, .block (addMembers .nil body))
  | .atRule _ name clause body => some (atKey name clause, body.item (atKey name clause))
  | .unrecognized _ _ _ => none

def Member.entryOf? : Member → Option (String × Item)
  | .declaration d => some (d.entry.1, .value d.entry.2)
  | .rule r => r.entryOf?

theorem Rule.addTo_eq_mergeAll (d : Outline) (r : Rule) :
    r.addTo d = d.mergeAll r.entryOf?.toList := by
  cases r <;> simp [Rule.addTo, Rule.entryOf?]

theorem Member.addTo_eq_mergeAll (d : Outline) (m : Member) :
    m.addTo d = d.mergeAll m.entryOf?.toList := by
  cases m with
  | declaration d => simp [Member.addTo, Member.entryOf?]
  | rule rule => exact rule.addTo_eq_mergeAll d

theorem addMembers_eq_mergeAll (d : Outline) (ms : List Member) :
    addMembers d ms = d.mergeAll (ms.filterMap Member.entryOf?) := by
  induction ms generalizing d with
  | nil => rfl
  | cons m ms ih =>
    rw [addMembers, ih, m.addTo_eq_mergeAll, ← Outline.mergeAll_append]
    congr 1
    cases entry : m.entryOf? <;> simp [entry]

theorem outlineOf_eq_mergeAll (rules : List Rule) :
    outlineOf rules = Outline.nil.mergeAll (rules.filterMap Rule.entryOf?) := by
  suffices general : ∀ d : Outline,
      rules.foldl Rule.addTo d = d.mergeAll (rules.filterMap Rule.entryOf?) by
    exact general .nil
  induction rules with
  | nil => intro d; rfl
  | cons rule rules ih =>
    intro d
    rw [List.foldl_cons, ih, rule.addTo_eq_mergeAll, ← Outline.mergeAll_append]
    congr 1
    cases entry : rule.entryOf? <;> simp [entry]

theorem Outline.Every.mergeAll {P : Nat → String → Option String → Prop} {level : Nat}
    {d : Outline} (every : d.Every P level) (es : List (String × Item))
    (new : ∀ e ∈ es, e.2.Every P level e.1) : (d.mergeAll es).Every P level := by
  induction es generalizing d with
  | nil => exact every
  | cons e es ih =>
    have here := every.mergeItem e.1 e.2 (new e (by simp))
    exact ih here fun e' later => new e' (by simp [later])

theorem distinct_verbatimBlock (key text : String) : (verbatimBlock key text).Distinct := by
  rcases eq_or_ne (verbatimBody text) "" with empty | nonempty
  · rw [verbatimBlock, if_pos empty]
    exact .nil
  · rw [verbatimBlock, if_neg nonempty]
    exact .value List.not_mem_nil .nil

mutual

theorem Rule.distinct_addTo {d : Outline} (distinct : d.Distinct) :
    (r : Rule) → (r.addTo d).Distinct
  | .style _ head body => by
    rw [Rule.addTo]
    exact distinct.mergeItem _ _ (.block (distinct_addMembers .nil body))
  | .atRule _ name clause body => by
    rw [Rule.addTo]
    exact distinct.mergeItem _ _ (body.distinct_item _)
  | .unrecognized _ _ _ => by
    rw [Rule.addTo]
    exact distinct

theorem AtBody.distinct_item (key : String) : (b : AtBody) → (b.item key).Distinct
  | .none => by
    rw [AtBody.item]
    exact .value
  | .members list => by
    rw [AtBody.item]
    exact .block (distinct_addMembers .nil list)
  | .verbatim text => by
    rw [AtBody.item]
    exact .block (distinct_verbatimBlock key text)

theorem Member.distinct_addTo {d : Outline} (distinct : d.Distinct) :
    (m : Member) → (m.addTo d).Distinct
  | .declaration declaration => by
    rw [Member.addTo]
    exact distinct.mergeItem _ _ .value
  | .rule rule => by
    rw [Member.addTo]
    exact rule.distinct_addTo distinct

theorem distinct_addMembers {d : Outline} (distinct : d.Distinct) :
    (ms : List Member) → (addMembers d ms).Distinct
  | [] => distinct
  | m :: ms => by
    rw [addMembers]
    exact distinct_addMembers (m.distinct_addTo distinct) ms

end

theorem distinct_outlineOf (rules : List Rule) : (outlineOf rules).Distinct := by
  suffices general : ∀ d : Outline, d.Distinct → (rules.foldl Rule.addTo d).Distinct by
    exact general .nil .nil
  induction rules with
  | nil => intro d distinct; exact distinct
  | cons rule rules ih => intro d distinct; exact ih _ (rule.distinct_addTo distinct)

theorem exists_of_map_ok {ε α β : Type} {f : α → β} {r : Except ε α} {y : β}
    (mapped : r.map f = .ok y) : ∃ x, r = .ok x ∧ f x = y := by
  cases r with
  | error e => cases mapped
  | ok x => exact ⟨x, rfl, Except.ok.inj mapped⟩

theorem decode_eq_ok {css : String} {d : Outline} (decoded : decode css = .ok d) :
    d = outlineOf (readRules (Node.ofText css.toList)) := by
  obtain ⟨rules, read, rfl⟩ := exists_of_map_ok decoded
  unfold readSheet at read
  split at read
  · rename_i rest all
    split at read
    · cases read
    · cases read
      rw [all]
  · cases read
    rfl

/-- A style sheet with an entry can be read, and so can one without any text. -/
theorem decode_of_outlineOf {css : String} {d : Outline}
    (same : outlineOf (readRules (Node.ofText css.toList)) = d) (some : d ≠ .nil ∨ css = "") :
    decode css = .ok d := by
  have read : readSheet css = .ok (readRules (Node.ofText css.toList)) := by
    unfold readSheet
    split
    · rename_i start reason source rules found
      rw [if_neg, found]
      intro all
      have nothing : (readRules (Node.ofText css.toList)).filterMap Rule.entryOf? = [] := by
        rw [found, List.filterMap_eq_nil_iff]
        intro r member
        rcases List.mem_cons.1 member with rfl | later
        · rfl
        · have unread := List.all_eq_true.1 all r later
          cases r <;> simp_all [Rule.isUnrecognized, Rule.entryOf?]
      rw [outlineOf_eq_mergeAll, nothing] at same
      rcases some with entry | rfl
      · exact entry same.symm
      · simp [Node.ofText, Lexer.lexemes, Lexer.lexemesFrom, Node.build, Node.finish, readRules,
          Sketch.ofSheet] at found
    · rfl
  rw [decode, read, ← same]
  rfl

end CssOutline
