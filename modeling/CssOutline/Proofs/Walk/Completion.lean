import CssOutline.Proofs.Nesting
import CssOutline.Proofs.Walk.Sheet

/-! Reading a text with a cursor comes to its end without a misuse, whatever the text is: every
nested reader is started right behind an opening token, every prelude of an at-rule and every block
is read to its end, and the rules are those that are read from the nodes. So an at-rule has an empty
prelude only where nothing stands between its name and what ends the prelude. -/

namespace CssOutline

open Node (Inside)
open Sketch (endsItem upTo stop? ofRule ofAtRule ofBody ofSheet)

namespace Node

mutual

def height : Node → Nat
  | leaf _ => 0
  | block _ body _ => heightOf body + 1

def heightOf : List Node → Nat
  | [] => 0
  | n :: ns => max n.height (heightOf ns)

end

theorem height_le_heightOf {n : Node} {ns : List Node} (member : n ∈ ns) :
    n.height ≤ heightOf ns := by
  induction ns with
  | nil => cases member
  | cons m ns ih =>
    rw [heightOf]
    rcases List.mem_cons.1 member with rfl | later
    · exact le_max_left ..
    · exact (ih later).trans (le_max_right ..)

theorem Within.mono {d e : Nat} {n : Node} (within : n.Within d) (le : d ≤ e) : n.Within e := by
  induction within generalizing e with
  | leaf plain => exact .leaf plain
  | block opens _ ih =>
    obtain ⟨e, rfl⟩ := Nat.exists_eq_add_one_of_ne_zero (by omega : e ≠ 0)
    exact .block opens fun n member => ih n member (by omega)

theorem Built.within {P : Lexeme → Prop} {n : Node} (built : n.Built P) : n.Within n.height := by
  induction built with
  | leaf _ plain => exact .leaf plain
  | block _ opens _ _ _ ih =>
    rw [height]
    exact .block opens fun n member => (ih n member).mono (height_le_heightOf member)

theorem within_ofText {cs : List Char} {d : Nat} (deep : heightOf (ofText cs) ≤ d) :
    ∀ n ∈ ofText cs, n.Within d := by
  have level : Level (fun _ => True) (ofText cs) := level_ofText (by simp)
  exact fun n member => (level.built n member).within.mono ((height_le_heightOf member).trans deep)

end Node

theorem Prelude.read_eq_empty_iff {kind : String} {ns : List Node} :
    Prelude.read kind ns = .empty ↔ ∀ n ∈ ns, n.isTrivia := by
  constructor
  · intro empty
    by_contra filled
    have solid : Node.significant ns ≠ [] := fun none => filled (Walk.isTrivia_of_significant none)
    rw [Walk.read_eq_fitting? solid] at empty
    have other : ∀ clause, Walk.fitting? kind ns = some clause → clause ≠ .empty := by
      intro clause fits
      unfold Walk.fitting? at fits
      split at fits <;>
      · obtain ⟨_, _, rfl⟩ := Option.map_eq_some_iff.1 fits
        simp
    cases fits : Walk.fitting? kind ns with
    | none => simp [fits] at empty
    | some clause => exact other clause fits (by simpa [fits] using empty)
  · intro blank
    rw [Prelude.read, if_pos (Node.significant_eq_nil blank)]

namespace Sketch

def clause? : Sketch → Option (Location × String × Prelude)
  | statement start name clause => some (start, name, clause)
  | members start name clause _ _ => some (start, name, clause)
  | verbatim start name clause _ => some (start, name, clause)
  | _ => none

def ClauseFrom (ns : List Node) (s : Sketch) : Prop :=
  ∀ start name clause, s.clause? = some (start, name, clause) →
    ∃ keyword rest, keyword :: rest <:+ ns ∧ keyword.token = .atKeyword name ∧
      keyword.start = start ∧ clause = Prelude.read (atRuleKind name) (upTo endsItem rest)

theorem ClauseFrom.mono {ns ms : List Node} {s : Sketch} (origin : s.ClauseFrom ns)
    (suffix : ns <:+ ms) : s.ClauseFrom ms := by
  intro start name clause found
  obtain ⟨keyword, rest, inside, same⟩ := origin start name clause found
  exact ⟨keyword, rest, inside.trans suffix, same⟩

theorem clauseFrom_ofAtRule (room : Bool) {n : Node} {name : String}
    (keyword : n.token = .atKeyword name) (rest : List Node) :
    (ofAtRule room n name (upTo endsItem rest) (stop? endsItem rest)).ClauseFrom (n :: rest) := by
  intro start name' clause found
  have same : (n.start, name, Prelude.read (atRuleKind name) (upTo endsItem rest)) =
      (start, name', clause) := by
    unfold ofAtRule at found
    split at found
    · simp only at found
      split_ifs at found
      · cases found
      · exact Option.some.inj found
      · exact Option.some.inj found
      · exact Option.some.inj found
    · exact Option.some.inj found
  cases same
  exact ⟨n, rest, List.suffix_rfl, keyword, rfl, rfl⟩

theorem clauseFrom_of_isQualified {s : Sketch} (qualified : s.isQualified) (ns : List Node) :
    s.ClauseFrom ns := by
  intro start name clause found
  cases s <;> cases found <;> cases qualified

theorem clauseFrom_of_mem_ofBody {context : Context} {room : Bool} {ns : List Node} {s : Sketch}
    (member : .rule s ∈ ofBody context room ns) : s.ClauseFrom ns := by
  fun_induction ofBody context room ns with
  | case1 => cases member
  | case2 n rest _ ih => exact (ih member).mono (List.suffix_cons n rest)
  | case3 n rest _ name keyword _ ih =>
    rcases List.mem_cons.1 member with same | later
    · cases same
      exact clauseFrom_ofAtRule room keyword rest
    · exact (ih later).mono ((Walk.after_suffix _ _).trans (List.suffix_cons n rest))
  | case4 n rest _ name isStyle ident _ ih =>
    subst isStyle
    rcases List.mem_cons.1 member with same | later
    · cases declared : readDeclaration name (upTo Node.isSemicolon rest) with
      | ok d => simp [ofIdent, declared] at same
      | error fault =>
        obtain ⟨s', qualified, kept | kept⟩ := ofIdent_of_error room n declared <;>
        · rw [kept] at same
          cases same
          exact clauseFrom_of_isQualified qualified _
    · exact (ih later).mono ((Walk.ofIdent_suffix _ _ _ _).trans (List.suffix_cons n rest))
  | case5 n rest _ _ noKeyword noIdent ih =>
    rcases List.mem_cons.1 member with same | later
    · cases same
      exact clauseFrom_of_isQualified (isQualified_ofRule ..) _
    · exact (ih later).mono ((Walk.after_cons_suffix _ _ _).trans (List.suffix_cons n rest))

theorem clauseFrom_of_mem_ofSheet {ns : List Node} {s : Sketch} (member : s ∈ ofSheet ns) :
    s.ClauseFrom ns := by
  fun_induction ofSheet ns with
  | case1 => cases member
  | case2 n rest _ ih => exact (ih member).mono (List.suffix_cons n rest)
  | case3 n rest _ name keyword _ ih =>
    rcases List.mem_cons.1 member with rfl | later
    · exact clauseFrom_ofAtRule true keyword rest
    · exact (ih later).mono ((Walk.after_suffix _ _).trans (List.suffix_cons n rest))
  | case4 n rest _ _ _ ih =>
    rcases List.mem_cons.1 member with rfl | later
    · exact clauseFrom_of_isQualified (isQualified_ofRule ..) _
    · exact (ih later).mono ((Walk.after_cons_suffix _ _ _).trans (List.suffix_cons n rest))

end Sketch

theorem LiesIn.exists_clauseFrom {sheet : List Node} {k : Nat} {r : Rule}
    (lies : LiesIn (readRules sheet) k r) :
    ∃ ms s read, Inside sheet ms ∧ Sketch.ClauseFrom ms s ∧ s.expand read = r := by
  cases lies with
  | outside member =>
    obtain ⟨s, found, same⟩ := List.mem_map.1 member
    exact ⟨sheet, s, _, .self, Sketch.clauseFrom_of_mem_ofSheet found, same⟩
  | inside around holds member =>
    obtain ⟨_, context, ns, s, inside, found, expands⟩ := around.exists_sketch holds member
    exact ⟨ns, s, _, inside, Sketch.clauseFrom_of_mem_ofBody found, expands⟩

/-- The nodes `front` stand between the name of an at-rule and the semicolon or block that follows,
or the end. -/
def Node.PreludeOf (ns : List Node) (start : Location) (name : String) (front : List Node) : Prop :=
  ∃ before keyword rest, ns = before ++ keyword :: (front ++ rest) ∧ keyword.start = start ∧
    keyword.token = .atKeyword name ∧ (∀ n ∈ front, endsItem n = false) ∧
      ∀ n ∈ rest.head?, endsItem n

theorem LiesIn.exists_preludeOf {sheet : List Node} {k : Nat} {start : Location} {name : String}
    {clause : Prelude} {body : AtBody}
    (lies : LiesIn (readRules sheet) k (.atRule start name clause body)) :
    ∃ ms front, Inside sheet ms ∧ Node.PreludeOf ms start name front ∧
      clause = Prelude.read (atRuleKind name) front := by
  obtain ⟨ms, s, read, inside, origin, same⟩ := lies.exists_clauseFrom
  have found : s.clause? = some (start, name, clause) := by
    cases s <;> cases same <;> rfl
  obtain ⟨keyword, rest, ⟨before, rfl⟩, token, place, read⟩ := origin start name clause found
  refine ⟨_, upTo endsItem rest, inside, ⟨before, keyword, rest.dropWhile fun n => !endsItem n, ?_,
    place, token, ?_, ?_⟩, read⟩
  · rw [upTo, List.takeWhile_append_dropWhile]
  · intro n member
    simpa using List.mem_takeWhile_imp member
  · intro n first
    have stop := List.head?_dropWhile_not (fun n => !endsItem n) rest
    simpa [Option.mem_def.1 first] using stop

/-- Nothing is given up in silence. The cursor comes to the end of every text with the rules that
are read from its nodes, so no nested reader is started where no block is open and no prelude and no
block is dropped; and the prelude of an at-rule is empty exactly if nothing but blanks and comments
stands between its name and the semicolon, block or end that follows. -/
theorem nothing_replaced (css : String) :
    (∃ c, c.Spent ∧
      (Walk.sheet (Node.heightOf (Node.ofText css.toList))).run ⟨[], none, Node.ofText css.toList⟩ =
        .done (readRules (Node.ofText css.toList)) c) ∧
    ∀ k start name clause body,
      LiesIn (readRules (Node.ofText css.toList)) k (.atRule start name clause body) →
      ∃ ms front, Inside (Node.ofText css.toList) ms ∧ Node.PreludeOf ms start name front ∧
        (clause = .empty ↔ ∀ n ∈ front, n.isTrivia) := by
  constructor
  · obtain ⟨result, c, run, spent, rfl⟩ := Walk.sheet_finishes _ (Node.within_ofText le_rfl) []
    exact ⟨c, spent _ rfl, run⟩
  · intro k start name clause body lies
    obtain ⟨ms, front, inside, place, rfl⟩ := lies.exists_preludeOf
    exact ⟨ms, front, inside, place, Prelude.read_eq_empty_iff⟩

/-- An at-rule of this name whose prelude is empty, or is not. -/
def Rule.isAtRule (name : String) (empty : Bool) : Rule → Bool
  | .atRule _ other .empty _ => other == name && empty
  | .atRule _ other _ _ => other == name && !empty
  | _ => false

theorem Rule.isAtRule_iff {name : String} {empty : Bool} {r : Rule} :
    r.isAtRule name empty ↔
      ∃ start clause body, r = .atRule start name clause body ∧ (clause = .empty ↔ empty) := by
  cases r with
  | style start head body => simp [isAtRule]
  | unrecognized start reason source => simp [isAtRule]
  | atRule start other clause body =>
    cases clause <;> cases empty <;> simp [isAtRule]

def preludeSheet : String := "a\x7b@media /**/\x7b@layer x;\x7d\x7d"

theorem nothing_replaced_preludeSheet :
    (∃ start body ms front,
      LiesIn (readRules (Node.ofText preludeSheet.toList)) 1 (.atRule start "media" .empty body) ∧
        Node.PreludeOf ms start "media" front ∧ ∀ n ∈ front, n.isTrivia) ∧
    ∃ start clause body ms front,
      LiesIn (readRules (Node.ofText preludeSheet.toList)) 2 (.atRule start "layer" clause body) ∧
        clause ≠ .empty ∧ Node.PreludeOf ms start "layer" front ∧ ¬∀ n ∈ front, n.isTrivia := by
  have evaluated :
      (rulesIn (readRules (Node.ofText preludeSheet.toList)) 1).any (Rule.isAtRule "media" true) ∧
      (rulesIn (readRules (Node.ofText preludeSheet.toList)) 2).any
        (Rule.isAtRule "layer" false) := by
    decide +kernel
  simp only [List.any_eq_true, ← liesIn_iff, Rule.isAtRule_iff] at evaluated
  obtain ⟨⟨_, first, start, clause, body, rfl, empty⟩, _, second, start', clause', body', rfl,
    filled⟩ := evaluated
  constructor
  · obtain ⟨ms, front, _, place, iff⟩ := (nothing_replaced preludeSheet).2 _ _ _ _ _ first
    obtain rfl := empty.2 trivial
    exact ⟨start, body, ms, front, first, place, iff.1 rfl⟩
  · obtain ⟨ms, front, _, place, iff⟩ := (nothing_replaced preludeSheet).2 _ _ _ _ _ second
    have notEmpty : clause' ≠ .empty := fun none => Bool.false_ne_true (filled.1 none)
    exact ⟨start', clause', body', ms, front, second, notEmpty, place, mt iff.2 notEmpty⟩

end CssOutline
