import CssOutline.Proofs.Extents

/-! The items of every body of a style sheet text: where each of them ends, which of them are
declarations, and the text that a custom property keeps. -/

namespace CssOutline

open Node (Inside Level)
open Sketch (isBetween isAround)

theorem exists_readBody_eq_map (room : Nat) :
    ∃ roomy read, ∀ context ns,
      readBody room context ns = (Sketch.ofBody context roomy ns).map (Outlook.expand read) := by
  cases room with
  | zero => exact ⟨false, fun _ _ => [], fun _ _ => rfl⟩
  | succ room => exact ⟨true, readBody room, fun _ _ => rfl⟩

/-- An item of a body, the nodes after it and the member that it is read as, also by itself. -/
structure BodyItem (room : Nat) (context : Context) (item more : List Node) (member : Member) :
    Prop where
  ends : EndsAfter member.stops item more
  alone : readBody room context item = [member]

structure SheetItem (item more : List Node) (rule : Rule) : Prop where
  ends : EndsAfter rule.stops item more
  alone : readRules item = [rule]

theorem cut_readBody {room : Nat} {context : Context} {ns : List Node}
    {Holds : List Node → List Node → Member → Prop} (level : Level Lexeme.Spans ns)
    (holds : ∀ {roomy read item more o}, Sketch.IsItem context roomy item more o →
      BodyItem room context item more (o.expand read) → Holds item more (o.expand read)) :
    Cut isBetween Holds ns (readBody room context ns) := by
  obtain ⟨roomy, read, same⟩ := exists_readBody_eq_map room
  rw [same]
  refine (Sketch.cut_ofBody context roomy level).map fun item more o taken => holds taken ⟨?_, ?_⟩
  · rw [Outlook.stops_expand]
    exact taken.ends
  · rw [same, taken.alone, List.map_singleton]

def nestedSheet : String := "a\x7b--x:f(y);b\x7bc\x7dd\x7d"

def lexemeAt (column : Nat) (text : String) (token : Token) : Lexeme :=
  ⟨token, text.toList, ⟨1, column⟩⟩

def nestedValue : List Node :=
  [.block (lexemeAt 7 "f(" (.function "f")) [.leaf (lexemeAt 9 "y" (.ident "y"))]
    (some (lexemeAt 10 ")" .closeParen))]

def nestedBody : List Node :=
  [.leaf (lexemeAt 3 "--x" (.ident "--x")), .leaf (lexemeAt 6 ":" .colon)] ++ nestedValue ++
    [.leaf (lexemeAt 11 ";" .semicolon), .leaf (lexemeAt 12 "b" (.ident "b")),
      .block (lexemeAt 13 "\x7b" .openCurly) [.leaf (lexemeAt 14 "c" (.ident "c"))]
        (some (lexemeAt 15 "\x7d" .closeCurly)), .leaf (lexemeAt 16 "d" (.ident "d"))]

theorem inside_nestedBody : Inside (Node.ofText nestedSheet.toList) nestedBody := by
  have lexed : Lexer.lexemes nestedSheet.toList =
      [lexemeAt 1 "a" (.ident "a"), lexemeAt 2 "\x7b" .openCurly, lexemeAt 3 "--x" (.ident "--x"),
        lexemeAt 6 ":" .colon, lexemeAt 7 "f(" (.function "f"), lexemeAt 9 "y" (.ident "y"),
        lexemeAt 10 ")" .closeParen, lexemeAt 11 ";" .semicolon, lexemeAt 12 "b" (.ident "b"),
        lexemeAt 13 "\x7b" .openCurly, lexemeAt 14 "c" (.ident "c"),
        lexemeAt 15 "\x7d" .closeCurly, lexemeAt 16 "d" (.ident "d"),
        lexemeAt 17 "\x7d" .closeCurly] := by
    decide +kernel
  have nodes : Node.ofText nestedSheet.toList =
      [.leaf (lexemeAt 1 "a" (.ident "a")),
        .block (lexemeAt 2 "\x7b" .openCurly) nestedBody
          (some (lexemeAt 17 "\x7d" .closeCurly))] := by
    rw [Node.ofText, lexed]
    rfl
  rw [nodes]
  exact .block .self (List.mem_cons_of_mem _ List.mem_cons_self)

/-- A sheet and every body in it are read item by item, each up to the first node that ends it. -/
theorem cut_readRules (css : String) :
    Node.textOf (Node.ofText css.toList) = css.toList ∧
    Cut isAround SheetItem (Node.ofText css.toList) (readRules (Node.ofText css.toList)) ∧
    ∀ ns, Inside (Node.ofText css.toList) ns → ∀ room context,
      Cut isBetween (BodyItem room context) ns (readBody room context ns) := by
  have level := Node.level_spans css.toList
  refine ⟨Node.textOf_ofText _, ?_, ?_⟩
  · refine (Sketch.cut_ofSheet level).map fun item more s ⟨ends, alone⟩ => ⟨?_, ?_⟩
    · rw [Sketch.stops_expand]
      exact ends
    · rw [readRules, alone, List.map_singleton]
  · intro ns inside room context
    exact cut_readBody (inside.level level) fun _ item => item

theorem cut_readRules_nestedBody :
    Inside (Node.ofText nestedSheet.toList) nestedBody ∧
      Cut isBetween (BodyItem 62 .style) nestedBody (readBody 62 .style nestedBody) :=
  ⟨inside_nestedBody, (cut_readRules nestedSheet).2.2 nestedBody inside_nestedBody 62 .style⟩

/-- An item that starts with a name is a declaration exactly if the nodes after the name are one,
and a rule or text that was not read otherwise. -/
def DeclaresOrRules (item more : List Node) (member : Member) : Prop :=
  ∀ n rest name, item = n :: rest → n.token = .ident name →
    ((∃ d, member = .declaration d) ↔
      Node.Declares name (Sketch.upTo Node.isSemicolon (rest ++ more))) ∧
    ((∃ d, member = .declaration d) ∨ ∃ rule, member = .rule rule ∧ rule.isQualified)

theorem Outlook.Answers.declares {o : Outlook} {name : String} {ns : List Node} {P : Lexeme → Prop}
    (built : ∀ n ∈ ns, n.Built P) (answers : o.Answers (Sketch.readDeclaration name ns))
    (read : Context → List Node → List Member) :
    ((∃ d, o.expand read = .declaration d) ↔ Node.Declares name ns) ∧
      ((∃ d, o.expand read = .declaration d) ∨
        ∃ rule, o.expand read = .rule rule ∧ rule.isQualified) := by
  rw [← Sketch.readDeclaration_isOk_iff built]
  cases declared : Sketch.readDeclaration name ns with
  | ok d =>
    rw [declared] at answers
    cases answers
    simp [expand]
  | error fault =>
    rw [declared] at answers
    obtain ⟨s, rfl, qualified⟩ := answers
    simp [expand, Sketch.isQualified_expand, qualified]

theorem Sketch.IsItem.built_value {roomy : Bool} {context : Context} {n : Node}
    {rest more : List Node} {o : Outlook} (taken : IsItem context roomy (n :: rest) more o) :
    ∀ m ∈ upTo Node.isSemicolon (rest ++ more), m.Built Lexeme.Spans := by
  intro m member
  have inside := (List.takeWhile_sublist _).subset member
  exact taken.level.built m (by simpa using .inr (List.mem_append.1 inside))

/-- In every body that holds rules, what an item with a name in front is depends only on whether a
value follows it. -/
theorem declaration_iff_declares (css : String) {ns : List Node}
    (inside : Inside (Node.ofText css.toList) ns) (room : Nat) :
    Cut isBetween (fun item more member =>
      BodyItem room .style item more member ∧ DeclaresOrRules item more member) ns
      (readBody room .style ns) := by
  refine cut_readBody (inside.level (Node.level_spans css.toList)) fun taken item => ⟨item, ?_⟩
  rintro n rest name rfl ident
  exact (taken.answers rfl ident rfl).declares taken.built_value _

theorem declaration_iff_declares_nestedBody :
    Inside (Node.ofText nestedSheet.toList) nestedBody ∧
      Cut isBetween (fun item more member =>
        BodyItem 62 .style item more member ∧ DeclaresOrRules item more member) nestedBody
        (readBody 62 .style nestedBody) :=
  ⟨inside_nestedBody, declaration_iff_declares nestedSheet inside_nestedBody 62⟩

def GivesCustom (item : List Node) (name : String) (value : List Node) : Prop :=
  ∃ key gap colon stop, item = key :: (gap ++ colon :: (value ++ stop)) ∧
    key.token = .ident name ∧ "--".toList <+: name.toList ∧ (∀ n ∈ gap, n.isTrivia) ∧
    colon.token = .colon ∧ (∀ n ∈ value, n.isSemicolon = false) ∧ ∀ n ∈ stop, n.isSemicolon

/-- The text of a custom property, whose components hold no `!important`, goes up to the end of the
first token of its last component. That is all of their text if the last one is a single token,
and less than that if it is a closed block or function. -/
def KeepsCustom (item : List Node) (member : Member) : Prop :=
  ∀ name value, GivesCustom item name value →
    Node.unmarked (Node.significant (Node.components value)) =
      Node.significant (Node.components value) →
    member = .declaration ⟨.custom name,
      .raw (String.ofList (Node.keptText (Node.components value))),
      (Node.beforeImportant? value).isSome⟩ ∧
    ((∀ n ∈ value, n.isClosed) →
      (Node.keptText (Node.components value) = Node.textOf (Node.components value) ↔
        ∀ n ∈ (Node.components value).getLast?, ∃ l, n = .leaf l))

theorem Node.keptText_eq_textOf_iff {ns : List Node} (built : ∀ n ∈ ns, n.Built Lexeme.Spans)
    (closed : ∀ n ∈ ns, n.isClosed) :
    keptText ns = textOf ns ↔ ∀ n ∈ ns.getLast?, ∃ l, n = .leaf l := by
  rcases List.eq_nil_or_concat ns with rfl | ⟨front, last, rfl⟩
  · simp [keptText, textOf]
  rw [List.concat_eq_append] at built closed ⊢
  have kept : keptText (front ++ [last]) = textOf front ++ last.headText := by simp [keptText]
  have whole : textOf (front ++ [last]) = textOf front ++ last.text := by
    simp [textOf_append, textOf]
  rw [kept, whole, List.append_cancel_left_eq]
  cases built last (by simp) with
  | leaf => simp [headText, text]
  | @block l body closing _ _ _ _ closes =>
    obtain ⟨c, rfl⟩ := Option.isSome_iff_exists.1 (closed _ (by simp : block l body closing ∈ _))
    have spans : c.text ≠ [] := closes c rfl
    simp [headText, text, spans]

theorem mem_components {n : Node} {value : List Node} (member : n ∈ Node.components value) :
    n ∈ value := by
  obtain ⟨lead, rest, whole, _⟩ := Node.exists_components value
  rw [whole]
  simp [member]

theorem readDeclaration_of_custom {name : String} {gap value : List Node} {colon : Node}
    (custom : "--".toList <+: name.toList) (blank : ∀ n ∈ gap, n.isTrivia)
    (isColon : colon.token = .colon) :
    Sketch.readDeclaration name (gap ++ colon :: value) =
      .ok ⟨.custom name, (Node.readCustom value).1, (Node.readCustom value).2⟩ := by
  have solid : colon.isTrivia = false := by simp [Node.isTrivia, isColon, Token.isTrivia]
  have first : Node.dropTrivia (gap ++ colon :: value) = colon :: value := by
    rw [Node.dropTrivia, List.dropWhile_append_of_pos blank,
      List.dropWhile_cons_of_neg (by simp [solid])]
  have parsed : Property.parse name = .custom name := by
    obtain ⟨rest, same⟩ := custom
    have hyphens : name.toList = '-' :: '-' :: rest := same.symm
    simp [Property.parse, hyphens]
  rw [Sketch.readDeclaration, first]
  simp [isColon, parsed, Property.isCustom]

theorem EndsAfter.eq_nil_of_forall {p : Node → Bool} {item more : List Node}
    (ends : EndsAfter p item more) (kept : ∀ n ∈ item, p n = false) : more = [] := by
  rcases ends with ⟨front, stop, rfl, stops, _⟩ | ⟨_, none⟩
  · have plain := kept stop (by simp)
    simp [plain] at stops
  · exact none

theorem Sketch.upTo_of_stop {p : Node → Bool} {value stop more : List Node}
    (plain : ∀ n ∈ value, p n = false) (stops : ∀ n ∈ stop, p n) (last : stop = [] → more = []) :
    upTo p (value ++ (stop ++ more)) = value := by
  obtain _ | ⟨s, stop⟩ := stop
  · rw [last rfl, List.append_nil, List.append_nil]
    exact List.takeWhile_eq_self_iff.2 (by simpa using plain)
  · exact upTo_cut plain (stops s (by simp)) _

/-- What a custom property keeps of its value, in every body that holds rules. -/
theorem custom_keeps_first_token_of_last (css : String) {ns : List Node}
    (inside : Inside (Node.ofText css.toList) ns) (room : Nat) :
    Cut isBetween (fun item more member =>
      BodyItem room .style item more member ∧ KeepsCustom item member) ns
      (readBody room .style ns) := by
  refine cut_readBody (inside.level (Node.level_spans css.toList)) fun {_ _ _ more _} taken item =>
    ⟨item, ?_⟩
  rintro name value
    ⟨key, gap, colon, stop, rfl, ident, custom, blank, isColon, plain, stops⟩ unmarked
  have answers := taken.answers rfl ident rfl
  have gapPlain : ∀ n ∈ gap, n.isSemicolon = false := by
    intro n member
    rcases Node.isTrivia_iff.1 (blank n member) with same | same <;> simp [Node.isSemicolon, same]
  have colonPlain : colon.isSemicolon = false := by simp [Node.isSemicolon, isColon]
  have declared : Sketch.upTo Node.isSemicolon (gap ++ colon :: (value ++ stop) ++ more) =
      gap ++ colon :: Sketch.upTo Node.isSemicolon (value ++ (stop ++ more)) := by
    rw [List.append_assoc, List.cons_append, List.append_assoc,
      Sketch.upTo_past gapPlain colonPlain]
  rw [declared, readDeclaration_of_custom custom blank isColon] at answers
  cases answers
  have last : stop = [] → more = [] := by
    rintro rfl
    apply EndsAfter.eq_nil_of_forall (p := Node.isSemicolon) taken.ends
    intro n member
    simp only [List.append_nil, List.mem_cons, List.mem_append] at member
    rcases member with rfl | inGap | rfl | inValue
    · simp [Node.isSemicolon, ident]
    · exact gapPlain n inGap
    · exact colonPlain
    · exact plain n inValue
  have built : ∀ n ∈ value, n.Built Lexeme.Spans := by
    intro n member
    exact taken.level.built n (by simp [member])
  rw [Sketch.upTo_of_stop plain stops last, Node.readCustom_eq built unmarked]
  refine ⟨rfl, fun closed => Node.keptText_eq_textOf_iff ?_ ?_⟩
  · exact fun n member => built n (mem_components member)
  · exact fun n member => closed n (mem_components member)

theorem custom_keeps_first_token_of_last_nestedBody :
    Inside (Node.ofText nestedSheet.toList) nestedBody ∧
      GivesCustom (nestedBody.take 4) "--x" nestedValue ∧
      Node.keptText (Node.components nestedValue) = "f(".toList ∧
      Node.textOf (Node.components nestedValue) = "f(y)".toList ∧
      Cut isBetween (fun item more member =>
        BodyItem 62 .style item more member ∧ KeepsCustom item member) nestedBody
        (readBody 62 .style nestedBody) := by
  refine ⟨inside_nestedBody, ?_, rfl, rfl,
    custom_keeps_first_token_of_last nestedSheet inside_nestedBody 62⟩
  exact ⟨_, [], _, [.leaf (lexemeAt 11 ";" .semicolon)], rfl, rfl, ⟨['x'], rfl⟩, by simp, rfl,
    by simp [nestedValue, Node.isSemicolon, Node.token, lexemeAt],
    by simp [Node.isSemicolon, Node.token, lexemeAt]⟩

end CssOutline
