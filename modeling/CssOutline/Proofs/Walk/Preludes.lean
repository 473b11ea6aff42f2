import CssOutline.Proofs.Walk.Values

/-! Preludes of at-rules read with a cursor. Each is tried in the way of its kind and kept as text
if that has a setback; either way the reader comes to the end of the nodes, so a prelude is empty
only if it holds nothing. -/

namespace CssOutline

open Node (textOf significant dropTrivia pieces)
open Condition (feature? read?)

namespace Walk

def spacedValue (d : Nat) : Walk Value := do
  skipTrivia
  componentValue d

def mediaFeature (d : Nat) : Walk Condition := do
  let name ← expectIdent
  let alone ← isExhausted
  if alone then pure (.feature name none)
  else do
    expectColon
    let v ← spacedValue d
    pure (.feature name (some v))

def featureOrRest (d : Nat) : Walk (Option Condition) := do
  match ← tryTo (mediaFeature d) with
  | .ok feature => pure (some feature)
  | .error _ => do
    consumeRest
    pure none

/-- The text from `start` on as a part of a condition. -/
def rawPart (start : Cursor) : Walk Condition := do
  let source ← since start
  pure (.raw (String.ofList source))

def conditionToken (inner : Walk (Option Condition)) (start : Cursor) : Token → Walk Condition
  | .ident name => pure (.keyword name)
  | .openParen => do
    match ← nested inner with
    | some feature => pure feature
    | none => rawPart start
  | .function _ => do
    nested consumeRest
    rawPart start
  | t => pure (.raw t.css)

def conditionStep (inner : Walk (Option Condition)) (parts : List Condition) :
    Walk (List Condition ⊕ List Condition) := do
  skipTrivia
  let start ← here
  match ← attempt next with
  | .error _ => if parts.isEmpty then fail .feature else pure (.inr parts)
  | .ok t => do
    let part ← conditionToken inner start t
    pure (.inl (parts ++ [part]))

def condition : Nat → Walk (List Condition)
  | 0 => loop (conditionStep (misuse .endless)) []
  | d + 1 => loop (conditionStep (featureOrRest d)) []

def preludeOf (d : Nat) : String → Walk Prelude
  | "media" => .media <$> commaList (condition d)
  | "supports" => .condition <$> condition d
  | "container" => .condition <$> condition d
  | "scope" => .condition <$> condition d
  | _ => .value <$> componentValue d

def atRulePrelude (d : Nat) (kind : String) : Walk Prelude := do
  skipTrivia
  let nothing ← isExhausted
  if nothing then pure .empty
  else do
    let start ← here
    match ← tryTo (preludeOf d kind) with
    | .ok clause => pure clause
    | .error _ => .raw <$> trimmedFrom start

variable {c : Cursor} {q : List Char} {ns : List Node} {d : Nat}

theorem dropTrivia_lead {lead rest : List Node} {n : Node} (blank : ∀ m ∈ lead, m.isTrivia)
    (solid : n.isTrivia = false) : dropTrivia (lead ++ n :: rest) = n :: rest := by
  rw [dropTrivia, List.dropWhile_append_of_pos blank, List.dropWhile_cons_of_neg (by simp [solid])]

theorem dropTrivia_blank (blank : ∀ n ∈ ns, n.isTrivia) : dropTrivia ns = [] :=
  List.dropWhile_eq_nil_iff.2 blank

theorem spacedValue_eq (d : Nat) (within : ∀ m ∈ ns, m.Within d)
    (place : c.settle = ⟨q, none, ns⟩) :
    ∃ result c', (spacedValue d).run c = .of result c' ∧
      (∀ v, result = .ok v → c'.Spent) ∧ result = (Node.readValue ns).mapError .fault := by
  have kept : dropTrivia ns <:+ ns := List.dropWhile_suffix _
  obtain ⟨result, c', run, spent, equal⟩ :=
    componentValue_finishes d (fun m member => within m (kept.subset member))
      (q ++ textOf (ns.takeWhile Node.isTrivia))
  rw [← pieces_none_eq] at equal
  exact ⟨result, c', (bind_done (skipTrivia_eq place) _).trans run, spent, equal⟩

theorem mediaFeature_finishes (within : ∀ m ∈ ns, m.Within d) :
    Finishes (mediaFeature d) ns (·.toOption = feature? ns) := by
  intro q
  unfold feature?
  rcases next_cases (c := ⟨q, none, ns⟩) rfl with
    ⟨spent, _, run⟩ | ⟨lead, n, rest, rfl, blank, solid, _, run⟩
  · refine ⟨.error _, _, bind_failed (expect_end run _) _, by simp, ?_⟩
    rw [dropTrivia_blank (isTrivia_of_significant spent)]
    rfl
  rw [dropTrivia_lead blank solid]
  have named := expect_eq run ident?
  cases name : ident? n.token with
  | none =>
    rw [name] at named
    refine ⟨.error _, _, bind_failed named _, by simp, ?_⟩
    simp only
    split
    · rename_i same
      simp [same, ident?] at name
    · rfl
  | some text =>
    rw [name] at named
    simp only [ident?_eq_some.1 name]
    have step : (mediaFeature d).run ⟨q, none, lead ++ n :: rest⟩ = _ := bind_done named _
    rcases next_cases (Cursor.settle_enter (q ++ textOf lead) n rest) with
      ⟨spent, ends, _⟩ | ⟨gap, separator, more, rfl, blank', solid', found, run'⟩
    · refine ⟨.ok (.feature text none), _, step.trans (bind_done (isExhausted_true spent) _),
        fun _ _ => ends, ?_⟩
      rw [dropTrivia_blank (isTrivia_of_significant spent)]
      rfl
    rw [dropTrivia_lead blank' solid']
    replace step := step.trans (bind_done (isExhausted_false found) _)
    have colon := expect_eq run' fun t => if t == .colon then some () else none
    by_cases separates : separator.token = .colon
    · rw [if_pos (by simp [separates])] at colon
      obtain ⟨result, c', read, spent, equal⟩ := spacedValue_eq d
        (fun m member => within m (by simp [member]))
        (Cursor.settle_enter (q ++ textOf lead ++ n.text ++ textOf gap) separator more)
      replace step := step.trans (bind_done colon _)
      simp only [separates, beq_self_eq_true, if_true]
      cases value : Node.readValue more with
      | ok v =>
        rw [value] at equal
        subst equal
        exact ⟨.ok (.feature text (some v)), c', step.trans (bind_done read _),
          fun _ _ => spent v rfl, rfl⟩
      | error fault =>
        rw [value] at equal
        subst equal
        exact ⟨.error (.fault fault), c', step.trans (bind_failed read _), by simp, rfl⟩
    · rw [if_neg (by simp [separates])] at colon
      refine ⟨.error _, _, step.trans (bind_failed colon _), by simp, ?_⟩
      simp [separates]
      rfl

theorem featureOrRest_finishes (within : ∀ m ∈ ns, m.Within d) :
    Finishes (featureOrRest d) ns (· = .ok (feature? ns)) := by
  intro q
  obtain ⟨result, c, run, spent, equal⟩ := mediaFeature_finishes within q
  cases result with
  | ok feature =>
    refine ⟨.ok (some feature), c, bind_done (tryTo_done run) _, fun _ _ => spent feature rfl, ?_⟩
    rw [← equal]
    rfl
  | error e =>
    refine ⟨.ok none, ⟨q ++ textOf ns, none, []⟩, (bind_done (tryTo_failed run) _).trans ?_,
      fun _ _ => by simp [Cursor.Spent], ?_⟩
    · exact bind_done (consumeRest_eq rfl) _
    · rw [← equal]
      rfl

section Conditions

variable {inner : Walk (Option Condition)}
  (features : ∀ {e ms}, d = e + 1 → (∀ m ∈ ms, m.Within e) →
    Finishes inner ms (· = .ok (feature? ms)))

include features in
theorem conditionToken_eq {n : Node} (within : n.Within d) (start : Cursor) (rest : List Node) :
    ∃ c', c'.settle = ⟨start.passed ++ n.text, none, rest⟩ ∧
      (conditionToken inner start n.token).run (.enter start.passed n rest) =
        .done (Condition.ofNode n) c' := by
  have behind := Cursor.settle_enter start.passed n rest
  cases within with
  | @leaf _ l plain =>
    refine ⟨_, behind, ?_⟩
    cases token : l.token <;>
      simp_all [Token.closing?, Node.token, conditionToken, Condition.ofNode]
  | @block e l body closing opens inside =>
    have raw : ∀ {c' : Cursor},
        c' = ⟨start.passed ++ (Node.block l body closing).text, none, rest⟩ →
        (rawPart start).run c' =
          .done (.raw (String.ofList (Node.block l body closing).text)) c' := by
      rintro c' rfl
      rw [rawPart, bind_done (by rfl), run_pure, Cursor.slice_append]
    cases token : l.token <;> simp only [token, Token.closing?, Option.isSome_none,
      Bool.false_eq_true] at opens
    case openParen =>
      obtain ⟨result, run, rfl⟩ := (features rfl inside).reads.nested closing start.passed rest
      refine ⟨_, Cursor.settle_none .., ?_⟩
      have step : (conditionToken inner start .openParen).run
          (.enter start.passed (.block l body closing) rest) = _ := bind_done run _
      simp only [Node.token, token, step, Condition.ofNode]
      cases feature? body with
      | some feature => rfl
      | none => exact raw rfl
    case function name =>
      obtain ⟨result, run, rfl⟩ :=
        consumeRest_finishes.reads.nested (l := l) closing start.passed rest
      refine ⟨_, Cursor.settle_none .., ?_⟩
      simp only [Node.token, token, conditionToken, Condition.ofNode]
      exact (bind_done run _).trans (raw rfl)
    all_goals
      refine ⟨_, behind, ?_⟩
      simp [Node.token, token, conditionToken, Condition.ofNode]

include features in
theorem exists_loops_conditionStep (within : ∀ m ∈ ns, m.Within d)
    (place : c.settle = ⟨q, none, ns⟩) (parts : List Condition) :
    ∃ result c', Loops (conditionStep inner) parts c (.of result c') ∧
      (∀ as, result = .ok as → c'.Spent) ∧
      result.toOption = match parts ++ (significant ns).map Condition.ofNode with
        | [] => none
        | parts => some parts := by
  induction size : ns.length using Nat.strong_induction_on generalizing ns c q parts with
  | _ size' ih =>
    subst size
    rcases skipTrivia_cases place with
      ⟨spent, skipped, run⟩ | ⟨lead, n, rest, rfl, _, _, found, skipped, run⟩
    · have step : (conditionStep inner parts).run c = _ :=
        (bind_done skipped _).trans
          ((bind_done (by rfl) _).trans (bind_done (attempt_failed run) _))
      rw [spent, List.map_nil, List.append_nil]
      cases parts with
      | nil => exact ⟨.error .feature, _, .fail step, by simp, rfl⟩
      | cons part parts =>
        exact ⟨.ok (part :: parts), _, .stop step, fun _ _ => by simp [Cursor.Spent], rfl⟩
    · obtain ⟨c', place', part⟩ := conditionToken_eq features (within n (by simp))
        ⟨q ++ textOf lead, none, n :: rest⟩ rest
      have step : (conditionStep inner parts).run c = _ :=
        (bind_done skipped _).trans ((bind_done (by rfl) _).trans
          ((bind_done (attempt_done run) _).trans (bind_done part _)))
      obtain ⟨result, c'', loops, spent, equal⟩ := ih rest.length (by simp; omega)
        (fun m member => within m (by simp [member])) place' (parts ++ [Condition.ofNode n]) rfl
      refine ⟨result, c'', .more step ?_ loops, spent, ?_⟩
      · rw [Cursor.rest_eq place', Cursor.rest_eq place]
        simp
        omega
      · rw [equal, found, List.map_cons, List.append_assoc]
        rfl

include features in
theorem conditions_finishes (within : ∀ m ∈ ns, m.Within d) :
    Finishes (loop (conditionStep inner) []) ns (·.toOption = read? ns) := by
  intro q
  obtain ⟨result, c, loops, spent, equal⟩ := exists_loops_conditionStep features within
    (Cursor.settle_none q ns) []
  refine ⟨result, c, loops.run_loop, spent, equal.trans ?_⟩
  cases parts : (significant ns).map Condition.ofNode <;> simp [read?, parts]

end Conditions

theorem condition_finishes (d : Nat) (within : ∀ m ∈ ns, m.Within d) :
    Finishes (condition d) ns (·.toOption = read? ns) := by
  cases d with
  | zero => exact conditions_finishes (by simp) within
  | succ d =>
    refine conditions_finishes (fun same inside => ?_) within
    cases same
    exact featureOrRest_finishes inside

theorem mapM_segments_dropTrivia (ns : List Node) :
    (segments Node.isComma (dropTrivia ns)).mapM read? = (segments Node.isComma ns).mapM read? := by
  obtain ⟨lead, whole, blank, _⟩ := Node.exists_dropTrivia ns
  have plain : ∀ n ∈ lead, n.isComma = false := by
    intro n member
    rcases Node.isTrivia_iff.1 (blank n member) with same | same <;> simp [Node.isComma, same]
  have first : ∀ front, read? (lead ++ front) = read? front := by
    intro front
    rw [read?, Node.significant_append, Node.significant_eq_nil blank, List.nil_append, read?]
  conv_rhs => rw [whole]
  rcases exists_cut Node.isComma (dropTrivia ns) with
    kept | ⟨front, comma, more, same, kept, separates⟩
  · have all : ∀ n ∈ lead ++ dropTrivia ns, n.isComma = false := by
      intro n member
      exact (List.mem_append.1 member).elim (plain n) (kept n)
    rw [segments_of_forall kept, segments_of_forall all, List.mapM_cons, List.mapM_cons, first]
  · have all : ∀ n ∈ lead ++ front, n.isComma = false := by
      intro n member
      exact (List.mem_append.1 member).elim (plain n) (kept n)
    rw [same, ← List.append_assoc, segments_cut kept separates, segments_cut all separates,
      List.mapM_cons, List.mapM_cons, first]

/-- The prelude of a kind, if the nodes fit that kind. -/
def fitting? (kind : String) (ns : List Node) : Option Prelude :=
  match kind with
  | "media" => ((segments Node.isComma ns).mapM read?).map .media
  | "supports" => (read? ns).map .condition
  | "container" => (read? ns).map .condition
  | "scope" => (read? ns).map .condition
  | _ => (Node.readValue ns).toOption.map .value

theorem preludeOf_finishes (within : ∀ m ∈ ns, m.Within d) (kind : String) :
    Finishes (preludeOf d kind) (dropTrivia ns) (·.toOption = fitting? kind ns) := by
  replace within : ∀ m ∈ dropTrivia ns, m.Within d := fun m member =>
    within m ((List.dropWhile_suffix _).subset member)
  have blanks : read? (dropTrivia ns) = read? ns := by
    rw [read?, read?, Node.significant_dropTrivia]
  have single := (condition_finishes d within).toOption_map Prelude.condition
  rw [blanks] at single
  unfold preludeOf fitting?
  split
  · rw [← mapM_segments_dropTrivia]
    refine Finishes.toOption_map ?_ Prelude.media
    intro q
    obtain ⟨result, c, run, spent, collects⟩ := commaList_eq within (fun part member =>
      (condition_finishes d fun m inside => within m (mem_of_mem_segments member inside)).reads) q
    exact ⟨result, c, run, spent, collects.toOption_mapM⟩
  · exact single
  · exact single
  · exact single
  · refine Finishes.toOption_map ?_ Prelude.value
    intro q
    obtain ⟨result, c, run, spent, equal⟩ := componentValue_finishes d within q
    refine ⟨result, c, run, spent, ?_⟩
    rw [equal, Node.readValue, pieces_none_eq]
    cases Piece.value (pieces (some []) (dropTrivia ns)) <;> rfl

theorem read_eq_fitting? (filled : significant ns ≠ []) (kind : String) :
    Prelude.read kind ns = (fitting? kind ns).getD (.raw (Node.trimmedText ns)) := by
  rw [Prelude.read, if_neg filled]
  simp only
  split
  · rfl
  · rfl
  · rfl
  · rfl
  · rename_i media supports container scope
    rw [fitting?.eq_5 kind ns media supports container scope]
    cases Node.readValue ns <;> rfl

/-- The reader of a prelude has a result and comes to the end, whatever the nodes are. -/
theorem atRulePrelude_finishes (within : ∀ m ∈ ns, m.Within d) (kind : String) :
    Finishes (atRulePrelude d kind) ns (· = .ok (Prelude.read kind ns)) := by
  intro q
  have step : (atRulePrelude d kind).run ⟨q, none, ns⟩ = _ := bind_done (skipTrivia_eq rfl) _
  have same := Node.significant_dropTrivia ns
  cases found : significant ns with
  | nil =>
    have none : significant (dropTrivia ns) = [] := same.trans found
    refine ⟨.ok .empty, _, step.trans (bind_done (isExhausted_true none) _),
      fun _ _ => isTrivia_of_significant none, ?_⟩
    rw [Prelude.read, if_pos found]
  | cons n rest =>
    replace step := step.trans (bind_done (isExhausted_false (same.trans found)) _)
    obtain ⟨result, c, run, spent, equal⟩ := preludeOf_finishes within kind
      (q ++ textOf (ns.takeWhile Node.isTrivia))
    rw [read_eq_fitting? (by simp [found]), ← equal]
    cases result with
    | ok clause =>
      exact ⟨.ok clause, c,
        step.trans ((bind_done (by rfl) _).trans (bind_done (tryTo_done run) _)),
        fun _ _ => spent clause rfl, rfl⟩
    | error e =>
      refine ⟨.ok (.raw (Node.trimmedText ns)),
        ⟨q ++ textOf (ns.takeWhile Node.isTrivia) ++ textOf (dropTrivia ns), none, []⟩,
        step.trans ((bind_done (by rfl) _).trans ((bind_done (tryTo_failed run) _).trans ?_)),
        fun _ _ => by simp [Cursor.Spent], rfl⟩
      exact bind_done (trimmedFrom_eq rfl rfl) _

end Walk

end CssOutline
