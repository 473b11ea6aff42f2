import CssOutline.Proofs.Walk.Colors
import CssOutline.Proofs.Walk.Groups
import CssOutline.Proofs.Walk.Math

/-! Values read with a cursor. A function is tried as a color, then as a math expression, each time
from its opening token on, and is a call in the end. Of a custom property the text is kept, up to
the end of the last token that was taken. -/

namespace CssOutline

open Node (textOf pieces value?)

namespace Walk

/-- The arguments of a call; empty parentheses hold none. -/
def Grouping.arguments? (s : Grouping) : Option (List Value) :=
  match s.groups with
  | [[]] => some []
  | gs => Piece.groupValues? gs

def tryNested {α : Type} : Option (Walk α) → Walk (Option α)
  | none => pure none
  | some r => do
    let result ← tryTo (nested r)
    pure result.toOption

def callArguments (inner : Walk Grouping) : Walk (List Value ⊕ String) := do
  skipTrivia
  let start ← here
  let groups ← tryTo inner
  match groups.toOption.bind Grouping.arguments? with
  | some vs => pure (.inl vs)
  | none => .inr <$> trimmedFrom start

def functionValue (color : ColorFunction → Walk Color) (expression : Walk Calc)
    (inner : Walk Grouping) (name : String) : Walk Value := do
  match ← tryNested ((ColorFunction.ofName? name).map color) with
  | some c => pure (.color c)
  | none =>
    match ← tryNested (if Math.isName name then some (mathFunction expression name) else none) with
    | some m => pure (.length (.math m))
    | none =>
      match ← nested (callArguments inner) with
      | .inl vs => pure (.call name vs)
      | .inr text => pure (.verbatimCall name text)

def groups : Nat → Bool → Walk Grouping
  | 0 => groupsWith fun _ => misuse .endless
  | d + 1 => groupsWith (functionValue (colors d) (sums d) (groups d false))

def sourceText (start : Cursor) : Option (List Char) → Walk (List Char)
  | some finish => pure (Cursor.slice start.passed finish)
  | none => since start

def valueOf (start : Cursor) (s : Grouping) : Walk Value :=
  if s.groups.all List.isEmpty then refuse .emptyValue
  else
    match Piece.groupValues? s.groups with
    | none => do
      let source ← sourceText start s.finish
      pure (.raw (String.ofList (Text.trim source)))
    | some [v] => pure v
    | some vs => pure (.commaList vs)

def componentValue (d : Nat) : Walk Value := do
  let start ← here
  let s ← groups d false
  valueOf start s

def declaredValue (d : Nat) : Walk (Value × Bool) := do
  skipTrivia
  let start ← here
  let s ← groups d true
  let v ← valueOf start s
  pure (v, s.important)

/-- The end of the text so far and whether the value is important, with one token more. -/
def customToken (s : List Char × Bool) (before : Cursor) : Token → Walk (List Char × Bool)
  | .whitespace => pure s
  | t =>
    if t == .delim '!' then do
      let important ← passBang before
      let after ← here
      pure (if important then (s.1, true) else (after.passed, s.2))
    else do
      let after ← here
      pure (after.passed, s.2)

def customStep (s : List Char × Bool) : Walk ((List Char × Bool) ⊕ (List Char × Bool)) := do
  let before ← here
  match ← attempt nextSpaced with
  | .error _ => pure (.inr s)
  | .ok t => .inl <$> customToken s before t

/-- The value of a custom property: its text up to the end of its last token. -/
def customValue : Walk (Value × Bool) := do
  skipTrivia
  let start ← here
  let s ← loop customStep (start.passed, false)
  pure (.raw (String.ofList (Cursor.slice start.passed s.1)), s.2)

variable {c : Cursor} {q : List Char} {ns : List Node} {d : Nat}

theorem tryNested_eq {α : Type} {o : Option (Walk α)} {x : Option α} {body : List Node}
    (reads : ∀ r ∈ o, Reads r body (·.toOption = x)) (missing : o = none → x = none) (l : Lexeme)
    (closing : Option Lexeme) (q : List Char) (rest : List Node) :
    (tryNested o).run (.enter q (.block l body closing) rest) =
      .done x (if x.isSome then ⟨q ++ (Node.block l body closing).text, none, rest⟩
        else .enter q (.block l body closing) rest) := by
  cases o with
  | none =>
    rw [missing rfl]
    rfl
  | some r =>
    obtain ⟨result, run, rfl⟩ := (reads r rfl).nested (l := l) closing q rest
    cases result with
    | ok a =>
      rw [tryNested, bind_done (tryTo_done run)]
      rfl
    | error e =>
      rw [tryNested, bind_done (tryTo_failed run)]
      rfl

theorem arguments?_eq {s : Grouping} {ps : List Piece} (groups : Piece.groups ps = some s.groups) :
    Piece.arguments? ps = s.arguments? := by
  unfold Piece.arguments? Grouping.arguments?
  rw [groups]
  split <;> simp_all

theorem callArguments_finishes {inner : Walk Grouping}
    (reads : ∀ q, Groups q (Node.dropTrivia ns) (pieces none ns)
      (inner.run ⟨q, none, Node.dropTrivia ns⟩)) :
    Finishes (callArguments inner) ns (· = .ok (match Piece.arguments? (pieces none ns) with
      | some vs => .inl vs
      | none => .inr (Node.trimmedText ns))) := by
  intro q
  have step : (callArguments inner).run ⟨q, none, ns⟩ = _ :=
    (bind_done (skipTrivia_eq rfl) _).trans (bind_done (by rfl) _)
  replace reads := reads (q ++ textOf (ns.takeWhile Node.isTrivia))
  have trimmed :
      Node.trimmedText ns = String.ofList (Text.trim (textOf (Node.dropTrivia ns))) := rfl
  rw [trimmed]
  generalize q ++ textOf (ns.takeWhile Node.isTrivia) = q at step reads
  generalize Node.dropTrivia ns = ms at step reads
  refine ⟨_, ⟨q ++ textOf ms, none, []⟩, step.trans ?_, fun _ _ => by simp [Cursor.Spent], rfl⟩
  -- Whether the groups were read or not, the text goes from the same place to the end.
  unfold Groups at reads
  split at reads
  · rename_i none
    obtain ⟨c, failed⟩ := reads
    rw [bind_done (tryTo_failed failed), Piece.arguments?, none]
    exact bind_done (trimmedFrom_eq rfl rfl) _
  · rename_i gs found
    obtain ⟨s, read, rfl, _⟩ := reads
    rw [bind_done (tryTo_done read), arguments?_eq found, Except.toOption, Option.bind_some]
    cases s.arguments? with
    | some vs => rfl
    | none => exact bind_done (trimmedFrom_eq (Cursor.settle_none _ _) (by simp [textOf])) _

section Functions

variable {body : List Node} (within : ∀ m ∈ body, m.Within d) (l : Lexeme) (name : String)
  (closing : Option Lexeme) (q : List Char) (rest : List Node)

include within

theorem tryNested_color {x : Option Color}
    (same : x = (ColorFunction.ofName? name).bind fun f => f.read (Node.colorItems body)) :
    (tryNested ((ColorFunction.ofName? name).map (colors d))).run
        (.enter q (.block l body closing) rest) =
      .done x (if x.isSome then ⟨q ++ (Node.block l body closing).text, none, rest⟩
        else .enter q (.block l body closing) rest) := by
  refine tryNested_eq ?_ ?_ l closing q rest
  · intro r found
    obtain ⟨f, named, rfl⟩ := Option.map_eq_some_iff.1 found
    rw [same, named]
    exact colors_reads d within f
  · intro none
    rw [same, Option.map_eq_none_iff.1 none]
    rfl

theorem tryNested_math {x : Option Math} (same : x = Math.ofTerms? name (Node.terms [] body)) :
    (tryNested (if Math.isName name then some (mathFunction (sums d) name) else none)).run
        (.enter q (.block l body closing) rest) =
      .done x (if x.isSome then ⟨q ++ (Node.block l body closing).text, none, rest⟩
        else .enter q (.block l body closing) rest) := by
  refine tryNested_eq ?_ ?_ l closing q rest
  · intro r found
    split at found
    · cases found
      rw [same]
      exact (mathFunction_finishes (sums_finishes d) within name).reads
    · cases found
  · intro none
    split at none
    · cases none
    · rename_i other
      rw [same, Math.ofTerms?_of_not_isName other]

theorem functionValue_eq {inner : Walk Grouping}
    (reads : ∀ q, Groups q (Node.dropTrivia body) (pieces none body)
      (inner.run ⟨q, none, Node.dropTrivia body⟩))
    (token : l.token = .function name) (lead : List Char) :
    ∃ v, value? lead (.block l body closing) = some v ∧
      (functionValue (colors d) (sums d) inner name).run (.enter q (.block l body closing) rest) =
        .done v ⟨q ++ (Node.block l body closing).text, none, rest⟩ := by
  have color : Node.color? (.block l body closing) =
      (ColorFunction.ofName? name).bind fun f => f.read (Node.colorItems body) := by
    rw [Node.color?, token]
  have expression : Node.calc? (.block l body closing) =
      (Math.ofTerms? name (Node.terms [] body)).map .function := by
    rw [Node.calc?, token]
  have value : value? lead (.block l body closing) = some (
      match Node.color? (.block l body closing), Math.ofTerms? name (Node.terms [] body) with
      | some c, _ => .color c
      | none, some m => .length (.math m)
      | none, none => Node.callValue name body (pieces none body)) := by
    rw [value?, token, expression]
    simp only
    cases Node.color? (.block l body closing) <;>
      cases Math.ofTerms? name (Node.terms [] body) <;> rfl
  refine ⟨_, value, ?_⟩
  cases colored : Node.color? (.block l body closing) with
  | some c =>
    exact bind_done (tryNested_color within l name closing q rest (colored.symm.trans color)) _
  | none =>
    have step : (functionValue (colors d) (sums d) inner name).run
        (.enter q (.block l body closing) rest) = _ :=
      bind_done (tryNested_color within l name closing q rest (colored.symm.trans color)) _
    cases read : Math.ofTerms? name (Node.terms [] body) with
    | some m =>
      exact step.trans (bind_done (tryNested_math within l name closing q rest read.symm) _)
    | none =>
      replace step :=
        step.trans (bind_done (tryNested_math within l name closing q rest read.symm) _)
      obtain ⟨result, run, rfl⟩ :=
        (callArguments_finishes reads).reads.nested (l := l) closing q rest
      rw [step, Node.callValue]
      refine (bind_done run _).trans ?_
      cases Piece.arguments? (pieces none body) <;> rfl

end Functions

theorem groups_groups (d : Nat) (within : ∀ m ∈ ns, m.Within d) (marks : Bool) (q : List Char) :
    Groups q ns (marked marks (pieces (some []) ns)) ((groups d marks).run ⟨q, none, ns⟩) := by
  induction d generalizing ns marks q with
  | zero => exact groups_groupsWith (by intro _ _ same; cases same) within marks q
  | succ d ih =>
    refine groups_groupsWith ?_ within marks q
    intro e body same inside l name token closing lead q rest
    cases same
    refine functionValue_eq inside l name closing q rest (fun q => ?_) token lead
    rw [pieces_none_eq]
    exact ih (fun m member => inside m ((List.dropWhile_suffix _).subset member)) false q

theorem groups_of_isOutside {ps : List Piece} (outside : ps.all Piece.isOutside)
    (group : List Value) : Piece.groupsFrom [] group ps = some [group] := by
  induction ps with
  | nil => simp [Piece.groupsFrom, Piece.wordValue]
  | cons p ps ih =>
    rw [List.all_cons, Bool.and_eq_true] at outside
    have later := ih outside.2
    have first := outside.1
    unfold Piece.isOutside at first
    cases kind : p.kind <;> simp_all [Piece.groupsFrom, Piece.wordValue]

theorem valueOf_eq {s : Grouping} {ps : List Piece} (found : Piece.groups ps = some s.groups)
    (finish : s.finish = if ps.all Piece.isOutside then none else some (q ++ Piece.source ps))
    (c : Cursor) :
    (valueOf ⟨q, none, ns⟩ s).run c = .of ((Piece.value ps).mapError .fault) c := by
  rw [valueOf, Piece.value, found]
  simp only
  split
  · rfl
  · rename_i filled
    -- A value with a word in it has a last token.
    have inside : ¬ps.all Piece.isOutside := by
      intro outside
      have none := groups_of_isOutside outside []
      rw [← Piece.groups, found] at none
      simp [Option.some.inj none] at filled
    rw [if_neg inside] at finish
    rw [finish]
    rcases Piece.groupValues? s.groups with _ | _ | ⟨v, _ | _⟩
    · simp only [sourceText, Cursor.slice_append]
      rfl
    · rfl
    · rfl
    · rfl

theorem componentValue_finishes (d : Nat) (within : ∀ m ∈ ns, m.Within d) :
    Finishes (componentValue d) ns
      (· = (Piece.value (pieces (some []) ns)).mapError .fault) := by
  intro q
  have read := groups_groups d within false q
  have step : (componentValue d).run ⟨q, none, ns⟩ = _ := bind_done (by rfl) _
  rw [marked, if_neg Bool.false_ne_true, Groups] at read
  split at read
  · rename_i none
    obtain ⟨c, failed⟩ := read
    refine ⟨.error (.fault .blockInValue), c, step.trans (bind_failed failed _), by simp, ?_⟩
    rw [Piece.value, none]
    rfl
  · rename_i gs found
    obtain ⟨s, done, rfl, _, finish⟩ := read
    refine ⟨_, _, step.trans ((bind_done done _).trans (valueOf_eq found finish _)),
      fun _ _ => by simp [Cursor.Spent], rfl⟩

theorem declaredValue_finishes (d : Nat) (within : ∀ m ∈ ns, m.Within d) :
    Finishes (declaredValue d) ns (· = (Node.readDeclared ns).mapError .fault) := by
  intro q
  have kept : Node.dropTrivia ns <:+ ns := List.dropWhile_suffix _
  have step : (declaredValue d).run ⟨q, none, ns⟩ = _ :=
    (bind_done (skipTrivia_eq rfl) _).trans (bind_done (by rfl) _)
  have read := groups_groups d (fun m member => within m (kept.subset member)) true
    (q ++ textOf (ns.takeWhile Node.isTrivia))
  rw [marked, if_pos rfl, Groups, ← pieces_none_eq] at read
  rw [Node.readDeclared]
  generalize Piece.markImportant (pieces none ns) = ps at read
  split at read
  · rename_i none
    obtain ⟨c, failed⟩ := read
    refine ⟨.error (.fault .blockInValue), c, step.trans (bind_failed failed _), by simp, ?_⟩
    rw [Piece.value, none]
    rfl
  · rename_i gs found
    obtain ⟨s, done, rfl, important', finish⟩ := read
    replace step := step.trans (bind_done done _)
    rw [run_bind, valueOf_eq found finish] at step
    rw [← important']
    cases read : Piece.value ps with
    | error fault =>
      rw [read] at step
      exact ⟨.error (.fault fault), _, step, by simp, rfl⟩
    | ok v =>
      rw [read] at step
      exact ⟨.ok (v, s.important), _, step, fun _ _ => by simp [Cursor.Spent], rfl⟩

theorem tokenSource_cons (p : Piece) (ps : List Piece) :
    Piece.tokenSource (p :: ps) =
      if ps.all Piece.isOutside then (if p.isOutside then [] else p.head)
      else p.text ++ Piece.tokenSource ps := by
  rw [Piece.tokenSource, Piece.tokenSource, Piece.dropWhile_reverse_cons]
  by_cases outside : ps.all Piece.isOutside
  · by_cases last : p.isOutside <;> simp [outside, last]
  · rw [if_neg outside, if_neg outside]
    cases kept : ps.reverse.dropWhile Piece.isOutside with
    | nil => exact absurd (by simpa using kept) outside
    | cons last front => simp

theorem customToken_piece {lead rest : List Node} {n : Node}
    (within : ∀ m ∈ lead ++ n :: rest, m.Within d) (comments : ∀ m ∈ lead, m.isComment)
    (spaced : n.isComment = false) (place : c.settle = ⟨q, none, lead ++ n :: rest⟩)
    (s : List Char × Bool) :
    ∃ p later c', Piece.markImportant (pieces (some (textOf lead)) (n :: rest)) =
        p :: Piece.markImportant (pieces (some []) later) ∧ later <:+ rest ∧
      c'.settle = ⟨q ++ p.text, none, later⟩ ∧
      (customToken s c n.token).run (.enter (q ++ textOf lead) n rest) =
        .done (if p.isOutside then s.1 else q ++ p.head, s.2 || p.isImportant) c' := by
  have behind := Cursor.settle_enter (q ++ textOf lead) n rest
  rw [List.append_assoc] at behind
  by_cases space : n.token = .whitespace
  · rw [Node.pieces_blank_some _ space, Piece.markImportant_of_ne (by simp)]
    refine ⟨_, rest, _, rfl, List.suffix_rfl, behind, ?_⟩
    rw [space, customToken, run_pure]
    simp [Piece.isOutside, Piece.isImportant]
  rw [Node.pieces_solid _ (isTrivia_of_ne space spaced), Option.getD_some,
    customToken.eq_2 _ _ _ space]
  -- A piece other than `!important` ends with its first token.
  have alone : (n.piece (textOf lead)).isOutside = false ∧
      (n.piece (textOf lead)).isImportant = false := by
    simp only [Piece.isOutside, Piece.isImportant, Node.piece]
    by_cases comma : n.isComma
    · simp [comma]
    · by_cases bang : n.isBang
      · simp [comma, bang]
      · cases value? (textOf lead) n <;> simp [comma, bang]
  by_cases bang : n.token = .delim '!'
  · have kind := Node.kind_piece_bang bang (textOf lead)
    rw [if_pos (by simp [bang])]
    rcases passBang_cases within comments bang place (.enter (q ++ textOf lead) n rest) with
      ⟨t, later, run, suffix, _, found⟩ | ⟨run, missing⟩
    · refine ⟨_, later, ⟨q ++ textOf lead ++ n.text ++ t, none, later⟩,
        Piece.markImportant_of_some kind found, suffix, by simp [Node.piece], ?_⟩
      rw [bind_done run, bind_done (by rfl), run_pure]
      simp [Piece.isOutside, Piece.isImportant]
    · refine ⟨_, rest, ⟨q ++ textOf lead ++ n.text, none, rest⟩,
        Piece.markImportant_of_none kind missing, List.suffix_rfl, by simp [Node.piece], ?_⟩
      have short : n.headText = n.text := by
        cases within n (by simp) with
        | leaf => rfl
        | block opens _ => simp_all [Node.token, Token.closing?]
      rw [bind_done run, bind_done (by rfl), run_pure, alone.1, alone.2]
      simp [Node.piece, short]
  · rw [if_neg (by simp [bang])]
    refine ⟨_, rest, _, Piece.markImportant_of_ne (Node.kind_piece_ne_bang bang _), List.suffix_rfl,
      behind, ?_⟩
    rw [bind_done (by rfl), run_pure, alone.1, alone.2]
    simp [Node.piece, Cursor.enter]

theorem exists_loops_customStep (within : ∀ m ∈ ns, m.Within d) (place : c.settle = ⟨q, none, ns⟩)
    (s : List Char × Bool) :
    ∃ c' ps, ps = Piece.markImportant (pieces (some []) ns) ∧ c'.Spent ∧
      Loops customStep s c (.done
        (if ps.all Piece.isOutside then s.1 else q ++ Piece.tokenSource ps,
          s.2 || ps.any Piece.isImportant) c') := by
  induction size : ns.length using Nat.strong_induction_on generalizing ns c q s with
  | _ size' ih =>
    subst size
    rcases exists_lead Node.isComment ns with comments | ⟨lead, n, rest, rfl, comments, spaced⟩
    · have run := attempt_failed (nextAfter_all place comments)
      have none : [] = Piece.markImportant (pieces (some []) ns) := by
        rw [pieces_of_comments comments]
        exact (marked_nil true).symm
      refine ⟨⟨q ++ textOf ns, .none, []⟩, [], none, by simp [Cursor.Spent], .stop ?_⟩
      rw [customStep, bind_done (by rfl), nextSpaced, bind_done run, run_pure]
      simp
    · have run := attempt_done (nextAfter_lead place comments spaced)
      obtain ⟨p, later, c', next, suffix, place', token⟩ :=
        customToken_piece within comments spaced place s
      have step : (customStep s).run c = _ :=
        (bind_done (by rfl) _).trans ((bind_done run _).trans (bind_done token _))
      have shorter : later.length < (lead ++ n :: rest).length := length_lt_lead suffix
      obtain ⟨c'', ps, same, spent, loops⟩ := ih later.length shorter
        (fun m member => within m (by simp [suffix.subset member])) place'
        (if p.isOutside then s.1 else q ++ p.head, s.2 || p.isImportant) rfl
      refine ⟨c'', p :: ps, ?_, spent, .more step ?_ ?_⟩
      · rw [pieces_comments comments, List.nil_append, next, same]
      · rw [Cursor.rest_eq place', Cursor.rest_eq place]
        exact shorter
      · have ending : (if ps.all Piece.isOutside then (if p.isOutside then s.1 else q ++ p.head)
            else q ++ p.text ++ Piece.tokenSource ps) =
            if (p :: ps).all Piece.isOutside then s.1 else q ++ Piece.tokenSource (p :: ps) := by
          rw [tokenSource_cons, List.all_cons]
          cases p.isOutside <;> cases ps.all Piece.isOutside <;> simp
        rw [← ending, List.any_cons, ← Bool.or_assoc]
        exact loops

theorem customValue_finishes (within : ∀ m ∈ ns, m.Within d) :
    Finishes customValue ns (· = .ok (Node.readCustom ns)) := by
  intro q
  have kept : Node.dropTrivia ns <:+ ns := List.dropWhile_suffix _
  have step : customValue.run ⟨q, none, ns⟩ = _ :=
    (bind_done (skipTrivia_eq rfl) _).trans (bind_done (by rfl) _)
  generalize q ++ textOf (ns.takeWhile Node.isTrivia) = q at step
  obtain ⟨c, ps, same, spent, loops⟩ := exists_loops_customStep
    (fun m member => within m (kept.subset member)) (Cursor.settle_none q _) (q, false)
  rw [← pieces_none_eq] at same
  refine ⟨.ok _, c, step.trans (bind_done loops.run_loop _), fun _ _ => spent, ?_⟩
  rw [Node.readCustom, ← same]
  by_cases outside : ps.all Piece.isOutside
  · have empty : Piece.tokenSource ps = [] := by
      rw [Piece.tokenSource, List.dropWhile_eq_nil_iff.2 (by simpa using outside)]
    simp [outside, empty, Cursor.slice]
  · simp [outside]

end Walk

end CssOutline
