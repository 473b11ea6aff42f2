import CssOutline.Proofs.BodyItems
import CssOutline.Proofs.RoundTrip
import CssOutline.Proofs.SelectorKeys
import CssOutline.Proofs.Transport

/-! How deep the bodies of a style sheet nest. A rule with a body lies in at most 63 others; where
64 bodies are around it, an item that would be such a rule is kept as text that was not read, and
only there nesting is given as the reason. The outline of a sheet nests no deeper than its bodies,
since merging never makes an outline deeper than both of its parts. -/

namespace CssOutline

open Node (Inside)
open Sketch (isBetween)

namespace Rule

/-- The members of the body, of a style rule or of an at-rule that holds members. -/
def members? : Rule → Option (List Member)
  | style _ _ body => some body
  | atRule _ _ _ (.members body) => some body
  | _ => none

/-- Whether a rule was read with its block, also if the block is kept as text. -/
def hasBody : Rule → Bool
  | style _ _ _ => true
  | atRule _ _ _ .none => false
  | atRule _ _ _ _ => true
  | unrecognized _ _ _ => false

end Rule

/-- A rule of a tree and the number of bodies around it. -/
inductive LiesIn (rules : List Rule) : Nat → Rule → Prop
  | outside {r : Rule} (member : r ∈ rules) : LiesIn rules 0 r
  | inside {k : Nat} {outer r : Rule} {body : List Member} (around : LiesIn rules k outer)
    (holds : outer.members? = some body) (member : .rule r ∈ body) : LiesIn rules (k + 1) r

def Member.rule? : Member → Option Rule
  | declaration _ => none
  | rule r => some r

def rulesIn (rules : List Rule) : Nat → List Rule
  | 0 => rules
  | k + 1 => (rulesIn rules k).flatMap fun r => (r.members?.getD []).filterMap Member.rule?

theorem liesIn_iff {rules : List Rule} {k : Nat} {r : Rule} :
    LiesIn rules k r ↔ r ∈ rulesIn rules k := by
  constructor
  · intro lies
    induction lies with
    | outside member => exact member
    | inside _ holds member ih =>
      exact List.mem_flatMap.2 ⟨_, ih, by simpa [holds] using ⟨_, member, rfl⟩⟩
  · intro member
    induction k generalizing r with
    | zero => exact .outside member
    | succ k ih =>
      obtain ⟨outer, around, inner⟩ := List.mem_flatMap.1 member
      obtain ⟨m, found, same⟩ := List.mem_filterMap.1 inner
      cases holds : outer.members? with
      | none => simp [holds] at found
      | some body =>
        cases m with
        | declaration d => cases same
        | rule r' =>
          cases same
          exact .inside (ih around) holds (by simpa [holds] using found)

section Reasons

theorem map_ne_error {ε α β : Type} {r : Except ε α} {e : ε} (f : α → β) (other : r ≠ .error e) :
    r.map f ≠ .error e := by
  cases r with
  | error e' => exact fun same => other (congrArg Except.error (Except.error.inj same))
  | ok a => exact fun same => nomatch same

namespace Attribute

theorem flag?_ne_tooDeep (ns : List Node) : flag? ns ≠ .error .tooDeep := by
  unfold flag?
  split
  · simp
  · split
    · split
      · simp
      · split <;> simp
    · simp

theorem test?_ne_tooDeep (ns : List Node) : test? ns ≠ .error .tooDeep := by
  unfold test?
  split
  · simp
  · split
    · simp
    · split
      · simp
      · split
        · simp
        · exact map_ne_error _ (flag?_ne_tooDeep _)

theorem read_ne_tooDeep (ns : List Node) : read ns ≠ .error .tooDeep := by
  unfold read
  split
  · simp
  · split
    · exact map_ne_error _ (test?_ne_tooDeep _)
    · simp

end Attribute

theorem Node.bracket_ne_tooDeep (ns : List Node) :
    ∀ s ∈ symbols ns, s ≠ .bracket (.error .tooDeep) := by
  induction ns with
  | nil => simp [symbols]
  | cons n ns ih =>
    rw [symbols]
    split
    · rename_i s found
      intro t member
      rcases List.mem_cons.1 member with rfl | later
      · rintro rfl
        cases n with
        | leaf l =>
          rw [symbol?] at found
          unfold Symbol.ofToken? at found
          split at found <;> cases found
        | block l body closing =>
          rw [symbol?] at found
          split at found
          · cases found
          · simp only [Option.some.injEq, Symbol.bracket.injEq] at found
            exact Attribute.read_ne_tooDeep body found
          · cases found
      · exact ih t later
    · exact ih

theorem ComplexSelector.readFrom_ne_tooDeep (done : List Component) (gap : Bool)
    (ss : List Symbol) (plain : ∀ s ∈ ss, s ≠ .bracket (.error .tooDeep)) :
    readFrom done gap ss ≠ .error .tooDeep := by
  fun_induction readFrom done gap ss
  case case12 fault ss =>
    intro same
    cases same
    exact plain _ List.mem_cons_self rfl
  all_goals first
    | (simp; done)
    | (rename_i ih; exact ih fun s member => plain s (by simp [member]))

theorem exists_of_mapM_error {ε α β : Type} {f : α → Except ε β} {xs : List α} {e : ε}
    (failed : xs.mapM f = .error e) : ∃ x ∈ xs, f x = .error e := by
  induction xs with
  | nil => cases failed
  | cons x xs ih =>
    rw [List.mapM_cons] at failed
    cases first : f x with
    | error e' =>
      rw [first] at failed
      exact ⟨x, by simp, by rw [first, Except.error.inj failed]⟩
    | ok y =>
      cases later : xs.mapM f with
      | error e' =>
        rw [first, later] at failed
        obtain ⟨x', member, same⟩ := ih (by rw [later, Except.error.inj failed])
        exact ⟨x', by simp [member], same⟩
      | ok ys =>
        rw [first, later] at failed
        cases failed

theorem Node.readSelectors_ne_tooDeep (ns : List Node) : readSelectors ns ≠ .error .tooDeep := by
  intro failed
  obtain ⟨part, found, same⟩ := exists_of_mapM_error failed
  refine ComplexSelector.readFrom_ne_tooDeep [] false part (fun s member => ?_) same
  exact bracket_ne_tooDeep ns s (mem_of_mem_segments found member)

theorem Node.keyframesOf_ne_tooDeep (ns : List Node) : keyframesOf ns ≠ .error .tooDeep := by
  fun_induction keyframesOf ns
  all_goals first
    | (simp; done)
    | (rename_i ih; exact map_ne_error _ ih)

theorem Sketch.readHead_ne_tooDeep (context : Context) (ns : List Node) :
    readHead context ns ≠ .error .tooDeep := by
  cases context with
  | style => exact map_ne_error _ (Node.readSelectors_ne_tooDeep ns)
  | keyframes => exact map_ne_error _ (Node.keyframesOf_ne_tooDeep _)

theorem Piece.value_ne_tooDeep (ps : List Piece) : value ps ≠ .error .tooDeep := by
  unfold value
  split
  · simp
  · split
    · simp
    · split <;> simp

theorem Sketch.readDeclaration_ne_tooDeep (name : String) (ns : List Node) :
    readDeclaration name ns ≠ .error .tooDeep := by
  unfold readDeclaration
  split
  · simp
  · split
    · simp only
      split
      · simp
      · exact map_ne_error _ (map_ne_error _ (Piece.value_ne_tooDeep _))
    · simp

theorem head?_toList_append {s : String} {c : Char} (first : s.toList.head? = some c)
    (t : String) : (s ++ t).toList.head? = some c := by
  rw [String.toList_append, List.head?_append, first, Option.some_or]

theorem Fault.head?_message (fault : Fault) :
    fault = .tooDeep ∨ fault.message.toList.head? ∈ [some 'I', some 'D', some 'U', some 'E'] := by
  cases fault with
  | tooDeep => exact .inl rfl
  | selector f =>
    have first : (selector f).message.toList.head? = some 'I' :=
      head?_toList_append (by decide) f.message
    simp [first]
  | unexpectedToken t =>
    have text : (unexpectedToken t).message = "Unexpected token '" ++ (t.css ++ "'") := by
      rw [← String.append_assoc]
      rfl
    have first := head?_toList_append (s := "Unexpected token '") (c := 'U') (by decide)
      (t.css ++ "'")
    rw [text, first]
    simp
  | _ => exact .inr (by decide)

theorem Fault.eq_tooDeep_of_message {fault : Fault}
    (same : fault.message = "Rule nesting is too deep") : fault = .tooDeep := by
  rcases fault.head?_message with deep | other
  · exact deep
  · rw [same] at other
    exact absurd other (by decide)

end Reasons

namespace Sketch

def hasBlock : Sketch → Bool
  | style _ _ _ => true
  | members _ _ _ _ _ => true
  | verbatim _ _ _ _ => true
  | _ => false

theorem hasBody_expand (read : Context → List Node → List Member) (s : Sketch) :
    (s.expand read).hasBody = s.hasBlock := by
  cases s <;> rfl

structure Limits (roomy tight : Sketch) : Prop where
  tight_open : tight.hasBlock = false
  refused : roomy.hasBlock → ∃ start fault source, tight = unrecognized start fault source
  reason : ∀ start source, roomy ≠ unrecognized start .tooDeep source

theorem limits_ofAtRule (keyword : Node) (name : String) (front : List Node)
    (stop : Option Node) :
    Limits (ofAtRule true keyword name front stop) (ofAtRule false keyword name front stop) := by
  rcases stop with _ | _ | ⟨opening, body, closing⟩
  · exact ⟨rfl, by simp [ofAtRule, hasBlock], by simp [ofAtRule]⟩
  · exact ⟨rfl, by simp [ofAtRule, hasBlock], by simp [ofAtRule]⟩
  · refine ⟨rfl, fun _ => ⟨_, _, _, rfl⟩, fun start source => ?_⟩
    simp only [ofAtRule, Bool.not_true, Bool.false_eq_true, ↓reduceIte]
    split_ifs <;> simp

theorem limits_ofRule (context : Context) (start : Location) (front : List Node)
    (stop : Option Node) :
    Limits (ofRule context true start front stop) (ofRule context false start front stop) := by
  rcases stop with _ | _ | ⟨opening, body, closing⟩
  · exact ⟨rfl, by simp [ofRule, hasBlock], by simp [ofRule]⟩
  · exact ⟨rfl, by simp [ofRule, hasBlock], by simp [ofRule]⟩
  · have head := readHead_ne_tooDeep context front
    cases read : readHead context front with
    | error fault =>
      rw [read] at head
      refine ⟨by simp [ofRule, read, hasBlock], by simp [ofRule, read], ?_⟩
      simp only [ofRule, read]
      intro start' source same
      exact head (by rw [(unrecognized.inj same).2.1])
    | ok head => exact ⟨by simp [ofRule, read, hasBlock], by simp [ofRule, read],
        by simp [ofRule, read]⟩

end Sketch

inductive Outlook.Limits : Outlook → Outlook → Prop
  | declaration (d : Declaration) : Limits (declaration d) (declaration d)
  | rule {roomy tight : Sketch} (limits : roomy.Limits tight) : Limits (rule roomy) (rule tight)

namespace Sketch

theorem ofIdent_eq_rule (room : Bool) (n : Node) {name : String} {rest : List Node} {fault : Fault}
    (failed : readDeclaration name (upTo Node.isSemicolon rest) = .error fault) :
    ∃ s, (ofIdent room n name rest).1 = .rule s ∧
      (s = ofRule .style room n.start (upTo endsItem (n :: rest)) (stop? endsItem (n :: rest)) ∨
        ∃ source, s = unrecognized n.start fault source) := by
  unfold ofIdent
  rw [failed]
  simp only
  split
  · split
    · exact ⟨_, rfl, .inl rfl⟩
    · exact ⟨_, rfl, .inr ⟨_, rfl⟩⟩
  · exact ⟨_, rfl, .inl rfl⟩

theorem limits_ofIdent (n : Node) (name : String) (rest : List Node) :
    (ofIdent true n name rest).1.Limits (ofIdent false n name rest).1 := by
  cases read : readDeclaration name (upTo Node.isSemicolon rest) with
  | ok d =>
    have same : ∀ room, (ofIdent room n name rest).1 = .declaration d := by
      intro room
      rw [ofIdent, read]
    rw [same, same]
    exact .declaration d
  | error fault =>
    have rule := limits_ofRule .style n.start (upTo endsItem (n :: rest))
      (stop? endsItem (n :: rest))
    have declared : fault ≠ .tooDeep := by
      rintro rfl
      exact readDeclaration_ne_tooDeep _ _ read
    obtain ⟨roomy, first, roomyIs⟩ := ofIdent_eq_rule true n read
    obtain ⟨tight, second, tightIs⟩ := ofIdent_eq_rule false n read
    rw [first, second]
    refine .rule ⟨?_, ?_, ?_⟩
    · rcases tightIs with rfl | ⟨source, rfl⟩
      · exact rule.tight_open
      · rfl
    · intro block
      rcases roomyIs with rfl | ⟨source, rfl⟩
      · rcases tightIs with rfl | ⟨source, rfl⟩
        · exact rule.refused block
        · exact ⟨_, _, _, rfl⟩
      · cases block
    · rcases roomyIs with rfl | ⟨source, rfl⟩
      · exact rule.reason
      · simp [declared]

theorem limits_itemAt (context : Context) (n : Node) (rest : List Node) :
    (itemAt context true n rest).1.Limits (itemAt context false n rest).1 := by
  rcases atKeyword_or_ident_or_other context n with ⟨name, keyword⟩ | ⟨name, ident, rfl⟩ | other
  · rw [itemAt_atKeyword keyword, itemAt_atKeyword keyword]
    exact .rule (limits_ofAtRule n name _ _)
  · rw [itemAt_ident ident, itemAt_ident ident]
    exact limits_ofIdent n name rest
  · rw [itemAt_other other.1 other.2, itemAt_other other.1 other.2]
    exact .rule (limits_ofRule context n.start _ _)

theorem exists_itemAt_of_mem {context : Context} {room : Bool} {ns : List Node} {o : Outlook}
    (member : o ∈ ofBody context room ns) : ∃ n rest, o = (itemAt context room n rest).1 := by
  fun_induction ofBody context room ns with
  | case1 => cases member
  | case2 n rest _ ih => exact ih member
  | case3 n rest _ name keyword _ ih =>
    rcases List.mem_cons.1 member with rfl | later
    · exact ⟨n, rest, by rw [itemAt_atKeyword keyword]⟩
    · exact ih later
  | case4 n rest _ name isStyle ident _ ih =>
    subst isStyle
    rcases List.mem_cons.1 member with rfl | later
    · exact ⟨n, rest, by rw [itemAt_ident ident]⟩
    · exact ih later
  | case5 n rest _ _ noKeyword noIdent ih =>
    rcases List.mem_cons.1 member with rfl | later
    · exact ⟨n, rest, by rw [itemAt_other noKeyword noIdent]⟩
    · exact ih later

theorem refused_of_single {context : Context} {item : List Node} {roomy : Sketch} {tight : Outlook}
    (first : ofBody context true item = [.rule roomy]) (block : roomy.hasBlock)
    (second : ofBody context false item = [tight]) :
    ∃ start fault source, tight = .rule (unrecognized start fault source) := by
  induction item with
  | nil => simp [ofBody_nil] at first
  | cons n rest ih =>
    cases skipped : isBetween n with
    | true =>
      rw [ofBody_skip skipped] at first second
      exact ih first second
    | false =>
      rw [ofBody_itemAt skipped, List.cons.injEq] at first second
      have limits := limits_itemAt context n rest
      rw [first.1, second.1] at limits
      cases limits with
      | rule limits =>
        obtain ⟨start, fault, source, rfl⟩ := limits.refused block
        exact ⟨start, fault, source, rfl⟩

theorem hasBlock_of_mem_ofBody {context : Context} {ns : List Node} {s : Sketch}
    (member : .rule s ∈ ofBody context false ns) : s.hasBlock = false := by
  obtain ⟨n, rest, same⟩ := exists_itemAt_of_mem member
  have limits := limits_itemAt context n rest
  rw [← same] at limits
  generalize (itemAt context true n rest).1 = o at limits
  cases limits with
  | rule limits => exact limits.tight_open

theorem ne_tooDeep_of_mem_ofBody {context : Context} {ns : List Node} {s : Sketch}
    (member : .rule s ∈ ofBody context true ns) (start : Location) (source : List Char) :
    s ≠ unrecognized start .tooDeep source := by
  obtain ⟨n, rest, same⟩ := exists_itemAt_of_mem member
  have limits := limits_itemAt context n rest
  rw [← same] at limits
  generalize (itemAt context false n rest).1 = o at limits
  cases limits with
  | rule limits => exact limits.reason start source

theorem ne_tooDeep_of_mem_ofSheet {ns : List Node} {s : Sketch} (member : s ∈ ofSheet ns)
    (start : Location) (source : List Char) : s ≠ unrecognized start .tooDeep source := by
  fun_induction ofSheet ns with
  | case1 => cases member
  | case2 n rest _ ih => exact ih member
  | case3 n rest _ name _ _ ih =>
    rcases List.mem_cons.1 member with rfl | later
    · exact (limits_ofAtRule n name _ _).reason start source
    · exact ih later
  | case4 n rest _ _ _ ih =>
    rcases List.mem_cons.1 member with rfl | later
    · exact (limits_ofRule .style n.start _ _).reason start source
    · exact ih later

end Sketch

def readerAt (k : Nat) : Context → List Node → List Member :=
  if k < maxNesting then readBody (maxNesting - 1 - k) else fun _ _ => []

theorem readBody_eq_map_readerAt {k : Nat} (fits : k < maxNesting) (context : Context)
    (ns : List Node) :
    readBody (maxNesting - 1 - k) context ns =
      (Sketch.ofBody context (k + 1 < maxNesting) ns).map (Outlook.expand (readerAt (k + 1))) := by
  by_cases last : k + 1 < maxNesting
  · have room : maxNesting - 1 - k = maxNesting - 1 - (k + 1) + 1 := by omega
    simp [room, readBody, readerAt, last]
  · have room : maxNesting - 1 - k = 0 := by omega
    simp [room, readBody, readerAt, last]

/-- A rule with `k` bodies around it comes from a sketch of some nodes, which has no block at the
limit and is not refused before. -/
structure Drawn (sheet : List Node) (k : Nat) (s : Sketch) : Prop where
  le : k ≤ maxNesting
  origin : ∃ ms, Inside sheet ms ∧ s.From ms
  limit : k = maxNesting → s.hasBlock = false
  reason : k < maxNesting → ∀ start source, s ≠ .unrecognized start .tooDeep source

theorem Drawn.exists_block {sheet : List Node} {k : Nat} {s : Sketch} (drawn : Drawn sheet k s)
    {read : Context → List Node → List Member} {body : List Member}
    (holds : (s.expand read).members? = some body) :
    k < maxNesting ∧ ∃ context ns, Inside sheet ns ∧ body = read context ns := by
  obtain ⟨ms, inside, origin⟩ := drawn.origin
  have fits : s.hasBlock → k < maxNesting := by
    intro block
    rcases Nat.lt_or_eq_of_le drawn.le with less | limit
    · exact less
    · simp [drawn.limit limit] at block
  cases origin with
  | style _ _ member =>
    cases holds
    exact ⟨fits rfl, _, _, inside.block member, rfl⟩
  | members member =>
    cases holds
    exact ⟨fits rfl, _, _, inside.block member, rfl⟩
  | statement => cases holds
  | verbatim => cases holds
  | unrecognized => cases holds

theorem Drawn.exists_item {sheet : List Node} {k : Nat} {s : Sketch} (drawn : Drawn sheet k s)
    {body : List Member} (holds : (s.expand (readerAt k)).members? = some body) {m : Member}
    (member : m ∈ body) :
    k < maxNesting ∧ ∃ context ns o, Inside sheet ns ∧
      o ∈ Sketch.ofBody context (k + 1 < maxNesting) ns ∧ o.expand (readerAt (k + 1)) = m := by
  obtain ⟨fits, context, ns, inside, rfl⟩ := drawn.exists_block holds
  rw [readerAt, if_pos fits, readBody_eq_map_readerAt fits] at member
  obtain ⟨o, found, same⟩ := List.mem_map.1 member
  exact ⟨fits, context, ns, o, inside, found, same⟩

theorem Outlook.expand_eq_rule {read : Context → List Node → List Member} {o : Outlook} {r : Rule}
    (same : o.expand read = .rule r) : ∃ s, o = .rule s ∧ s.expand read = r := by
  cases o with
  | declaration d => cases same
  | rule s => exact ⟨s, rfl, Member.rule.inj same⟩

-- From the outside in: what is drawn in the block of a rule has one body more around it.
theorem LiesIn.exists_drawn {sheet : List Node} {k : Nat} {r : Rule}
    (lies : LiesIn (readRules sheet) k r) :
    ∃ s, Drawn sheet k s ∧ s.expand (readerAt k) = r := by
  induction lies with
  | outside member =>
    obtain ⟨s, found, same⟩ := List.mem_map.1 member
    refine ⟨s, ⟨by simp, ⟨sheet, .self, Sketch.from_ofSheet sheet found⟩, by simp [maxNesting],
      fun _ => Sketch.ne_tooDeep_of_mem_ofSheet found⟩, same⟩
  | @inside k outer r body _ holds member ih =>
    obtain ⟨_, drawn, rfl⟩ := ih
    obtain ⟨fits, context, ns, o, inside, found, same⟩ := drawn.exists_item holds member
    obtain ⟨s, rfl, expands⟩ := Outlook.expand_eq_rule same
    refine ⟨s, ⟨fits, ⟨ns, inside, Sketch.from_ofBody context _ ns found⟩, ?_, ?_⟩, expands⟩
    · intro limit
      rw [show decide (k + 1 < maxNesting) = false by simp [limit]] at found
      exact Sketch.hasBlock_of_mem_ofBody found
    · intro less
      rw [decide_eq_true less] at found
      exact Sketch.ne_tooDeep_of_mem_ofBody found

theorem LiesIn.exists_sketch {sheet : List Node} {k : Nat} {outer r : Rule} {body : List Member}
    (around : LiesIn (readRules sheet) k outer) (holds : outer.members? = some body)
    (member : .rule r ∈ body) :
    k < maxNesting ∧ ∃ context ns s, Inside sheet ns ∧
      .rule s ∈ Sketch.ofBody context (k + 1 < maxNesting) ns ∧ s.expand (readerAt (k + 1)) = r := by
  obtain ⟨_, drawn, rfl⟩ := around.exists_drawn
  obtain ⟨fits, context, ns, o, inside, found, same⟩ := drawn.exists_item holds member
  obtain ⟨s, rfl, expands⟩ := Outlook.expand_eq_rule same
  exact ⟨fits, context, ns, s, inside, found, expands⟩

/-- An item that would be a rule with a body, if bodies nested one level deeper, is kept as text
that was not read. -/
def RefusesRule (context : Context) (item : List Node) (member : Member) : Prop :=
  ∀ room r, readBody (room + 1) context item = [.rule r] → r.hasBody →
    ∃ start reason source, member = .rule (.unrecognized start reason source)

theorem cut_refusesRule {ns : List Node} (level : Node.Level Lexeme.Spans ns) (context : Context) :
    Cut isBetween (fun item more member =>
      BodyItem 0 context item more member ∧ RefusesRule context item member) ns
      (readBody 0 context ns) := by
  refine (Sketch.cut_ofBody context false level).map fun item more o taken => ⟨⟨?_, ?_⟩, ?_⟩
  · rw [Outlook.stops_expand]
    exact taken.ends
  · rw [readBody, taken.alone, List.map_singleton]
  · intro room r roomy body
    rw [readBody] at roomy
    obtain ⟨o', single, same⟩ := List.map_eq_singleton_iff.1 roomy
    cases o' with
    | declaration d => cases same
    | rule s =>
      cases same
      rw [Sketch.hasBody_expand] at body
      obtain ⟨start, fault, source, rfl⟩ := Sketch.refused_of_single single body taken.alone
      exact ⟨_, _, _, rfl⟩

namespace Outline

theorem Every.height_le {limit level : Nat} {P : Nat → String → Option String → Prop}
    (bound : ∀ level key, P level key none → level < limit) {d : Outline} (every : d.Every P level) :
    d.height ≤ limit - level := by
  induction every with
  | nil => simp [height]
  | value _ _ ih => exact ih
  | block here _ _ inner later =>
    have fits := bound _ _ here
    rw [height]
    omega

theorem every_of_height_le {limit level : Nat} {d : Outline} (low : d.height + level ≤ limit) :
    d.Every (fun level _ text => text = none → level < limit) level := by
  induction d generalizing level with
  | nil => exact .nil
  | value key text rest ih => exact .value (by simp) (ih low)
  | block key body rest inner later =>
    rw [height] at low
    refine .block (fun _ => by omega) (inner (by omega)) (later (by omega))

theorem height_merge_le (d e : Outline) : (d.merge e).height ≤ max d.height e.height := by
  have front : d.Every (fun level _ text => text = none → level < max d.height e.height) 0 :=
    every_of_height_le (by omega)
  have back : e.Every (fun level _ text => text = none → level < max d.height e.height) 0 :=
    every_of_height_le (by omega)
  exact Every.height_le (fun _ _ fits => fits rfl) (back.mergeInto front)

end Outline

theorem readSheet_eq_ok {css : String} {rules : List Rule} (read : readSheet css = .ok rules) :
    rules = readRules (Node.ofText css.toList) := by
  unfold readSheet at read
  split at read
  · rename_i all
    split at read
    · cases read
    · cases read
      rw [all]
  · cases read
    rfl

/-- Bodies nest exactly 64 deep: no rule with a body has 64 others around it, the items there that
would be such rules are not read, only there nesting is the reason, and the outline of the sheet
has at most 64 blocks within one another, however its parts are merged. -/
theorem nesting_readSheet {css : String} {rules : List Rule} (read : readSheet css = .ok rules) :
    (∀ k r, LiesIn rules k r → r.hasBody → k < 64) ∧
    (∀ r body, LiesIn rules 63 r → r.members? = some body →
      ∃ context ns, Inside (Node.ofText css.toList) ns ∧ body = readBody 0 context ns ∧
        Cut isBetween (fun item more member =>
          BodyItem 0 context item more member ∧ RefusesRule context item member) ns body) ∧
    (∀ k start source, LiesIn rules k (.unrecognized start "Rule nesting is too deep" source) →
      k = 64) ∧
    ∃ d, decode css = .ok d ∧ d.height ≤ 64 ∧
      ∀ e : Outline, e.height ≤ 64 → (d.merge e).height ≤ 64 := by
  obtain rfl := readSheet_eq_ok read
  refine ⟨?_, ?_, ?_, ?_⟩
  · intro k r lies body
    obtain ⟨s, drawn, rfl⟩ := lies.exists_drawn
    rw [Sketch.hasBody_expand] at body
    rcases Nat.lt_or_eq_of_le drawn.le with less | limit
    · exact less
    · simp [drawn.limit limit] at body
  · intro r body lies holds
    obtain ⟨s, drawn, rfl⟩ := lies.exists_drawn
    obtain ⟨_, context, ns, inside, rfl⟩ := drawn.exists_block holds
    have level := inside.level (Node.level_spans css.toList)
    exact ⟨context, ns, inside, rfl, cut_refusesRule level context⟩
  · intro k start source lies
    obtain ⟨s, drawn, same⟩ := lies.exists_drawn
    rcases Nat.lt_or_eq_of_le drawn.le with less | limit
    · cases s with
      | unrecognized start' fault source' =>
        have deep := Fault.eq_tooDeep_of_message (Rule.unrecognized.inj same).2.1
        exact absurd (by rw [deep]) (drawn.reason less start' source')
      | _ => cases same
    · exact limit
  · have decoded : decode css = .ok (outlineOf (readRules (Node.ofText css.toList))) := by
      rw [decode, read]
      rfl
    have low : (outlineOf (readRules (Node.ofText css.toList))).height ≤ maxNesting - 0 :=
      Outline.Every.height_le (fun _ _ allowed => allowed.2.1 rfl) (every_decode decoded)
    exact ⟨_, decoded, low, fun e small => (Outline.height_merge_le _ e).trans (max_le low small)⟩

def deepSheet : String := String.ofList (List.replicate 66 ['a', '\x7b']).flatten

theorem nesting_readSheet_deepSheet :
    ∃ rules, readSheet deepSheet = .ok rules ∧
      (∃ r, LiesIn rules 63 r ∧ r.hasBody) ∧ (∃ r, LiesIn rules 64 r ∧ r.isUnrecognized) ∧
      (∀ k r, LiesIn rules k r → r.hasBody → k < 64) ∧
      ∃ d, decode deepSheet = .ok d ∧ d.height ≤ 64 := by
  have evaluated : (readSheet deepSheet).toOption.any (fun rules =>
      (rulesIn rules 63).any Rule.hasBody && (rulesIn rules 64).any Rule.isUnrecognized) := by
    decide +kernel
  cases read : readSheet deepSheet with
  | error e => simp [read, Except.toOption] at evaluated
  | ok rules =>
    simp only [read, Except.toOption, Option.any_some, Bool.and_eq_true, List.any_eq_true,
      ← liesIn_iff] at evaluated
    obtain ⟨bound, _, _, d, decoded, low, _⟩ := nesting_readSheet read
    exact ⟨rules, rfl, evaluated.1, evaluated.2, bound, d, decoded, low⟩

end CssOutline
