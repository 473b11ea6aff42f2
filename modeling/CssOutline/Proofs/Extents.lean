import CssOutline.Proofs.CustomValues

/-! How far the items of a body go. An item is read from its own nodes alone: a declaration up to a
semicolon, a rule up to a semicolon or a block in braces, and either up to the end of the body if
nothing else ends it. Where neither a declaration nor a rule can be read, the text that is left
out ends where a rule would have ended. -/

namespace CssOutline

/-- Nodes as items, with only nodes that `skips` takes between them. `Holds` is about the nodes of
an item, the nodes after it and what it is read as. -/
inductive Cut {α : Type} (skips : Node → Bool) (Holds : List Node → List Node → α → Prop) :
    List Node → List α → Prop
  | nil : Cut skips Holds [] []
  | skip {n : Node} {ns : List Node} {xs : List α} (skipped : skips n)
    (later : Cut skips Holds ns xs) : Cut skips Holds (n :: ns) xs
  | item {n : Node} {front more : List Node} {x : α} {xs : List α} (first : skips n = false)
    (holds : Holds (n :: front) more x) (later : Cut skips Holds more xs) :
    Cut skips Holds (n :: (front ++ more)) (x :: xs)

namespace Cut

variable {α β : Type} {skips : Node → Bool}

theorem map {Holds : List Node → List Node → α → Prop} {Holds' : List Node → List Node → β → Prop}
    {f : α → β} (imp : ∀ item more x, Holds item more x → Holds' item more (f x))
    {ns : List Node} {xs : List α} (cut : Cut skips Holds ns xs) :
    Cut skips Holds' ns (xs.map f) := by
  induction cut with
  | nil => exact .nil
  | skip skipped _ ih => exact .skip skipped ih
  | item first holds _ ih => exact .item first (imp _ _ _ holds) ih

theorem of_step {P : Lexeme → Prop} {Holds : List Node → List Node → α → Prop}
    {read : List Node → List α} (none : read [] = [])
    (skip : ∀ n rest, skips n → read (n :: rest) = read rest)
    (step : ∀ n rest, Node.Level P (n :: rest) → skips n = false →
      ∃ front more x, rest = front ++ more ∧ read (n :: rest) = x :: read more ∧
        Holds (n :: front) more x)
    (ns : List Node) (level : Node.Level P ns) : Cut skips Holds ns (read ns) := by
  induction size : ns.length using Nat.strong_induction_on generalizing ns with
  | _ size' ih =>
    subst size
    obtain _ | ⟨n, rest⟩ := ns
    · rw [none]
      exact .nil
    cases skipped : skips n with
    | true =>
      rw [skip n rest skipped]
      have inner := level.suffix (List.suffix_cons n rest)
      exact .skip skipped (ih rest.length (by simp) rest inner rfl)
    | false =>
      obtain ⟨front, more, x, rfl, taken, holds⟩ := step n rest level skipped
      have shorter : more.length < (n :: (front ++ more)).length := by
        simp only [List.length_cons, List.length_append]
        omega
      have suffix : more <:+ n :: (front ++ more) := ⟨n :: front, rfl⟩
      rw [taken]
      exact .item skipped holds (ih more.length shorter more (level.suffix suffix) rfl)

end Cut

/-- An item ends with the first node that `stops`, or with the last node there is. -/
def EndsAfter (stops : Node → Bool) (item more : List Node) : Prop :=
  (∃ front stop, item = front ++ [stop] ∧ stops stop ∧ ∀ n ∈ front, stops n = false) ∨
    (∀ n ∈ item, stops n = false) ∧ more = []

namespace EndsAfter

open Sketch

variable {p : Node → Bool} {item more : List Node}

theorem cons {n : Node} (plain : p n = false) (ends : EndsAfter p item more) :
    EndsAfter p (n :: item) more := by
  rcases ends with ⟨front, stop, rfl, stops, kept⟩ | ⟨kept, rfl⟩
  · exact .inl ⟨n :: front, stop, rfl, stops, by simpa [plain] using kept⟩
  · exact .inr ⟨by simpa [plain] using kept, rfl⟩

theorem upTo_append (ends : EndsAfter p item more) : upTo p (item ++ more) = upTo p item := by
  rcases ends with ⟨front, stop, rfl, stops, kept⟩ | ⟨_, rfl⟩
  · rw [List.append_assoc, List.singleton_append, upTo_cut kept stops, upTo_cut kept stops]
  · rw [List.append_nil]

theorem stop?_append (ends : EndsAfter p item more) : stop? p (item ++ more) = stop? p item := by
  rcases ends with ⟨front, stop, rfl, stops, kept⟩ | ⟨_, rfl⟩
  · rw [List.append_assoc, List.singleton_append, stop?_cut kept stops, stop?_cut kept stops]
  · rw [List.append_nil]

theorem after_append (ends : EndsAfter p item more) : after p (item ++ more) = more := by
  rcases ends with ⟨front, stop, rfl, stops, kept⟩ | ⟨kept, rfl⟩
  · rw [List.append_assoc, List.singleton_append, after_cut kept stops]
  · rw [List.append_nil, after, List.dropWhile_eq_nil_iff.2 (by simpa using kept)]
    rfl

theorem after_eq_nil (ends : EndsAfter p item more) : after p item = [] := by
  rcases ends with ⟨front, stop, rfl, stops, kept⟩ | ⟨kept, rfl⟩
  · rw [after_cut kept stops]
  · rw [after, List.dropWhile_eq_nil_iff.2 (by simpa using kept)]
    rfl

theorem of_forall (kept : ∀ n ∈ item, p n = false) : EndsAfter p item [] :=
  .inr ⟨kept, rfl⟩

end EndsAfter

theorem exists_endsAfter_cons (p : Node → Bool) (n : Node) (rest : List Node) :
    ∃ front more, rest = front ++ more ∧ EndsAfter p (n :: front) more := by
  induction rest generalizing n with
  | nil =>
    refine ⟨[], [], rfl, ?_⟩
    cases stops : p n with
    | true => exact .inl ⟨[], n, rfl, stops, by simp⟩
    | false => exact .of_forall (by simpa using stops)
  | cons m rest ih =>
    cases stops : p n with
    | true => exact ⟨[], m :: rest, rfl, .inl ⟨[], n, rfl, stops, by simp⟩⟩
    | false =>
      obtain ⟨front, more, rfl, ends⟩ := ih m
      exact ⟨m :: front, more, rfl, ends.cons stops⟩

theorem exists_endsAfter (p : Node → Bool) (ns : List Node) :
    ∃ item more, ns = item ++ more ∧ EndsAfter p item more := by
  obtain _ | ⟨n, rest⟩ := ns
  · exact ⟨[], [], rfl, .of_forall (by simp)⟩
  · obtain ⟨front, more, rfl, ends⟩ := exists_endsAfter_cons p n rest
    exact ⟨n :: front, more, rfl, ends⟩

def Member.stops : Member → Node → Bool
  | declaration _ => Node.isSemicolon
  | rule _ => Sketch.endsItem

/-- What ends a rule outside every block: a semicolon only if it is an at-rule. -/
def Rule.stops : Rule → Node → Bool
  | atRule _ _ _ _ => Sketch.endsItem
  | _ => Node.isCurly

def Rule.isQualified : Rule → Bool
  | atRule _ _ _ _ => false
  | _ => true

def Outlook.stops : Outlook → Node → Bool
  | declaration _ => Node.isSemicolon
  | rule _ => Sketch.endsItem

theorem Outlook.stops_expand (read : Context → List Node → List Member) (o : Outlook) :
    (o.expand read).stops = o.stops := by
  cases o <;> rfl

theorem Node.Built.exists_leaf_of_isSemicolon {P : Lexeme → Prop} {n : Node} (built : n.Built P)
    (semicolon : n.isSemicolon) : ∃ l, n = .leaf l := by
  cases built with
  | leaf => exact ⟨_, rfl⟩
  | @block l _ _ _ opens =>
    have same : l.token = .semicolon := by simpa [isSemicolon, token] using semicolon
    simp [same, Token.closing?] at opens

namespace Sketch

def isQualified : Sketch → Bool
  | style _ _ _ => true
  | unrecognized _ _ _ => true
  | _ => false

theorem isQualified_expand (read : Context → List Node → List Member) (s : Sketch) :
    (s.expand read).isQualified = s.isQualified := by
  cases s <;> rfl

def stops : Sketch → Node → Bool
  | style _ _ _ => Node.isCurly
  | unrecognized _ _ _ => Node.isCurly
  | _ => endsItem

theorem stops_expand (read : Context → List Node → List Member) (s : Sketch) :
    (s.expand read).stops = s.stops := by
  cases s <;> rfl

theorem isQualified_ofRule (context : Context) (room : Bool) (start : Location)
    (front : List Node) (stop : Option Node) :
    (ofRule context room start front stop).isQualified := by
  unfold ofRule
  split
  · simp only
    split
    · rfl
    · split <;> rfl
  · rfl
  · rfl

theorem stops_ofRule (context : Context) (room : Bool) (start : Location)
    (front : List Node) (stop : Option Node) :
    (ofRule context room start front stop).stops = Node.isCurly := by
  have qualified := isQualified_ofRule context room start front stop
  cases same : ofRule context room start front stop <;> simp_all [isQualified, stops]

theorem stops_ofAtRule (keyword : Node) (name : String) (front : List Node) (stop : Option Node) :
    (ofAtRule true keyword name front stop).stops = endsItem := by
  unfold ofAtRule
  split
  · simp only [Bool.not_true, Bool.false_eq_true, ↓reduceIte]
    split_ifs <;> rfl
  · rfl

/-- The text of a rule that is not read goes at most to the end of the first token of its block. -/
theorem source_ofRule {context : Context} {room : Bool} {start start' : Location}
    {front body : List Node} {opening : Lexeme} {closing : Option Lexeme} {fault : Fault}
    {source : List Char}
    (failed : ofRule context room start front (some (.block opening body closing)) =
      unrecognized start' fault source) :
    source = Node.textOf front ++ opening.text := by
  unfold ofRule at failed
  simp only at failed
  split at failed
  · cases failed
    rfl
  · split at failed
    · cases failed
    · cases failed
      rfl

end Sketch

def Outlook.Answers (o : Outlook) : Except Fault Declaration → Prop
  | .ok d => o = declaration d
  | .error _ => ∃ s, o = rule s ∧ s.isQualified

namespace Sketch

variable {n : Node} {name : String} {rest : List Node} {room : Bool}

theorem ofIdent_of_error (room : Bool) (n : Node) {fault : Fault}
    (failed : readDeclaration name (upTo Node.isSemicolon rest) = .error fault) :
    ∃ s, s.isQualified ∧
      (ofIdent room n name rest = (.rule s, after endsItem (n :: rest)) ∨
        ofIdent room n name rest = (.rule s, after Node.isSemicolon (n :: rest))) := by
  have qualified := isQualified_ofRule .style room n.start (upTo endsItem (n :: rest))
    (stop? endsItem (n :: rest))
  rw [ofIdent, failed]
  simp only
  split
  · split
    · exact ⟨_, qualified, .inl rfl⟩
    · exact ⟨_, rfl, .inr rfl⟩
  · exact ⟨_, qualified, .inl rfl⟩

theorem plain_of_ident (ident : n.token = .ident name) : endsItem n = false := by
  simp [endsItem, Node.isSemicolon, Node.isCurly, ident]

theorem upTo_past {p : Node → Bool} {front : List Node} {m : Node}
    (kept : ∀ m ∈ front, p m = false) (plain : p m = false) (more : List Node) :
    upTo p (front ++ m :: more) = front ++ m :: upTo p more := by
  rw [upTo, List.takeWhile_append_of_pos (by simpa using kept),
    List.takeWhile_cons_of_pos (by simp [plain]), upTo]

theorem readDeclaration_curly_of_error {P : Lexeme → Prop} {front later : List Node} {stop : Node}
    {fault : Fault} (built : ∀ m ∈ front ++ stop :: later, m.Built P) (curly : stop.isCurly)
    (failed : readDeclaration name (front ++ stop :: later) = .error fault) :
    ∃ fault', readDeclaration name (front ++ [stop]) = .error fault' := by
  cases read : readDeclaration name (front ++ [stop]) with
  | error fault' => exact ⟨fault', rfl⟩
  | ok d =>
    -- A declaration of the nodes up to the block is that of a custom property, and then the nodes
    -- after the block change nothing.
    exfalso
    have builtAlone : ∀ m ∈ front ++ [stop], m.Built P := by
      intro m member
      simp only [List.mem_append, List.mem_cons, List.not_mem_nil] at member
      exact built m (by simp only [List.mem_append, List.mem_cons]; tauto)
    obtain ⟨colon, value, first, isColon, accepted⟩ :=
      (readDeclaration_isOk_iff builtAlone).1 ⟨d, read⟩
    have notColon : stop.token ≠ .colon := by
      have same : stop.token = .openCurly := by simpa [Node.isCurly] using curly
      simp [same]
    have whole : ∃ value', value = value' ++ [stop] ∧
        Node.dropTrivia (front ++ stop :: later) = colon :: (value' ++ stop :: later) := by
      rw [Node.dropTrivia, List.dropWhile_append] at first ⊢
      cases inner : List.dropWhile Node.isTrivia front with
      | nil =>
        have solid := Node.isTrivia_of_isCurly curly
        simp [inner, solid] at first
        exact absurd (first.1 ▸ isColon) notColon
      | cons m value' =>
        simp only [inner, List.isEmpty_cons, Bool.false_eq_true, ↓reduceIte,
          List.cons_append] at first
        obtain ⟨rfl, rfl⟩ := List.cons.inj first
        exact ⟨value', rfl, by simp⟩
    obtain ⟨value', rfl, whole⟩ := whole
    rcases accepted with custom | ⟨noBlock, _⟩
    · have declares : Node.Declares name (front ++ stop :: later) :=
        ⟨colon, _, whole, isColon, .inl custom⟩
      obtain ⟨d', read'⟩ := (readDeclaration_isOk_iff built).2 declares
      rw [read'] at failed
      cases failed
    · have none := noBlock stop (by simp)
      simp [none] at curly

theorem ofIdent_of_semicolon (room : Bool) {front : List Node} {l : Lexeme} {fault : Fault}
    (semicolon : (Node.leaf l).isSemicolon) (kept : ∀ m ∈ n :: front, endsItem m = false)
    (failed : readDeclaration name front = .error fault) (more : List Node) :
    ofIdent room n name (front ++ .leaf l :: more) =
      (.rule (unrecognized n.start fault (Node.textOf (n :: front) ++ l.text)), more) := by
  have stops : endsItem (.leaf l) := by simp [endsItem, semicolon]
  have plain : ∀ m ∈ n :: front, m.isSemicolon = false :=
    fun m member => (endsItem_eq_false.1 (kept m member)).1
  have whole : n :: (front ++ .leaf l :: more) = (n :: front) ++ .leaf l :: more := rfl
  rw [ofIdent, upTo_cut (fun m member => plain m (by simp [member])) semicolon, failed, whole,
    upTo_cut kept stops, stop?_cut kept stops, itemText_cut plain semicolon,
    after_cut plain semicolon]
  simp [ofRule, Node.text]

theorem ofIdent_of_curly {front body : List Node} {opening closing : Lexeme} {fault : Fault}
    (curly : opening.token = .openCurly) (spans : closing.text ≠ [])
    (kept : ∀ m ∈ n :: front, endsItem m = false) {more : List Node}
    (failed : readDeclaration name (upTo Node.isSemicolon
      (front ++ .block opening body (some closing) :: more)) = .error fault) :
    ofIdent room n name (front ++ .block opening body (some closing) :: more) =
      (.rule (ofRule .style room n.start (n :: front)
        (some (.block opening body (some closing)))), more) := by
  have stops : endsItem (.block opening body (some closing)) := by
    simp [endsItem, Node.isCurly, Node.token, curly]
  have open_ : (Node.block opening body (some closing)).isSemicolon = false := by
    simp [Node.isSemicolon, Node.token, curly]
  have plain : ∀ m ∈ n :: front, m.isSemicolon = false :=
    fun m member => (endsItem_eq_false.1 (kept m member)).1
  have whole : n :: (front ++ .block opening body (some closing) :: more) =
      (n :: front) ++ .block opening body (some closing) :: more := rfl
  -- The rule is kept because its source ends with the opening brace, and that of the declaration
  -- has the closing one as well.
  have longer : (Node.textOf (n :: front) ++ opening.text).length <
      (itemText Node.isSemicolon
        ((n :: front) ++ .block opening body (some closing) :: more)).length := by
    have text : (Node.block opening body (some closing)).text =
        opening.text ++ Node.textOf body ++ closing.text := by simp [Node.text]
    have closed := List.length_pos_of_ne_nil spans
    rw [itemText, upTo_past plain open_, Node.textOf_append,
      Node.textOf.eq_2 (.block opening body (some closing)), text]
    simp only [List.length_append]
    omega
  rw [ofIdent, failed]
  simp only
  rw [whole, upTo_cut kept stops, stop?_cut kept stops, after_cut kept stops]
  split
  · rename_i source same
    rw [if_pos, same]
    rw [source_ofRule same]
    exact longer
  · rfl

theorem exists_ofIdent_curly (room : Bool) {front more : List Node} {stop : Node} {fault : Fault}
    (level : Node.Level Lexeme.Spans (n :: (front ++ stop :: more))) (some : more ≠ [])
    (curly : stop.isCurly) (kept : ∀ m ∈ n :: front, endsItem m = false)
    (failed : readDeclaration name (upTo Node.isSemicolon (front ++ stop :: more)) = .error fault) :
    ∃ s, s.isQualified ∧ ofIdent room n name (front ++ stop :: more) = (.rule s, more) ∧
      ofIdent room n name (front ++ [stop]) = (.rule s, []) := by
  have built := level.built stop (by simp)
  have closed : stop.isClosed := by
    rw [← List.cons_append] at level
    exact level.isClosed some
  obtain ⟨opening, body, closing, rfl, token⟩ := built.isCurly_iff.1 curly
  obtain ⟨c, rfl⟩ := Option.isSome_iff_exists.1 closed
  have spans : c.text ≠ [] := by
    cases built with
    | block _ _ _ _ closes => exact closes c rfl
  have plain : ∀ m ∈ front, m.isSemicolon = false :=
    fun m member => (endsItem_eq_false.1 (kept m (by simp [member]))).1
  have open_ : (Node.block opening body (.some c)).isSemicolon = false := by
    simp [Node.isSemicolon, Node.token, token]
  have builtMore : ∀ m ∈ upTo Node.isSemicolon (front ++ .block opening body (.some c) :: more),
      m.Built Lexeme.Spans := by
    intro m member
    exact level.built m (List.mem_cons_of_mem _ ((List.takeWhile_sublist _).subset member))
  have alone : ∃ fault', readDeclaration name
      (upTo Node.isSemicolon (front ++ [.block opening body (.some c)])) = .error fault' := by
    rw [upTo_past plain open_] at builtMore failed ⊢
    exact readDeclaration_curly_of_error builtMore curly failed
  obtain ⟨fault', alone⟩ := alone
  exact ⟨_, isQualified_ofRule .., ofIdent_of_curly token spans kept failed,
    ofIdent_of_curly token spans kept alone⟩

theorem exists_ofIdent (room : Bool) (level : Node.Level Lexeme.Spans (n :: rest))
    (ident : n.token = .ident name) :
    ∃ front more o, rest = front ++ more ∧ ofIdent room n name rest = (o, more) ∧
      ofIdent room n name front = (o, []) ∧ EndsAfter o.stops (n :: front) more ∧
      o.Answers (readDeclaration name (upTo Node.isSemicolon rest)) := by
  have plain := plain_of_ident ident
  have noSemicolon := (endsItem_eq_false.1 plain).1
  cases read : readDeclaration name (upTo Node.isSemicolon rest) with
  | ok d =>
    obtain ⟨front, more, rfl, ends⟩ := exists_endsAfter Node.isSemicolon rest
    refine ⟨front, more, .declaration d, rfl, ?_, ?_, ends.cons noSemicolon, rfl⟩
    · rw [ofIdent, read, ends.after_append]
    · rw [ends.upTo_append] at read
      rw [ofIdent, read, ends.after_eq_nil]
  | error fault =>
    obtain ⟨front, more, rfl, ends⟩ := exists_endsAfter endsItem rest
    have whole := ends.cons plain
    by_cases last : more = [] ∧ ∀ m ∈ front, m.isSemicolon = false
    · -- Both readings go to the end.
      obtain ⟨rfl, none⟩ := last
      rw [List.append_nil] at read ⊢
      have noMore : after Node.isSemicolon (n :: front) = [] :=
        (EndsAfter.of_forall (by simpa [noSemicolon] using none)).after_eq_nil
      obtain ⟨s, qualified, taken | taken⟩ := ofIdent_of_error room n read
      · rw [whole.after_eq_nil] at taken
        exact ⟨front, [], .rule s, by simp, taken, taken, whole, s, rfl, qualified⟩
      · rw [noMore] at taken
        exact ⟨front, [], .rule s, by simp, taken, taken, whole, s, rfl, qualified⟩
    rcases ends with ⟨front, stop, rfl, stops, kept⟩ | ⟨kept, rfl⟩
    · have keptAll : ∀ m ∈ n :: front, endsItem m = false := by simpa [plain] using kept
      have keptSemicolon : ∀ m ∈ front, m.isSemicolon = false :=
        fun m member => (endsItem_eq_false.1 (kept m member)).1
      rw [List.append_assoc, List.singleton_append] at level read ⊢
      by_cases semicolon : stop.isSemicolon
      · obtain ⟨l, rfl⟩ := (level.built stop (by simp)).exists_leaf_of_isSemicolon semicolon
        rw [upTo_cut keptSemicolon semicolon] at read
        have taken := ofIdent_of_semicolon room semicolon keptAll read
        refine ⟨front ++ [.leaf l], more, .rule _, by simp, taken more, taken [], ?_, _, rfl, rfl⟩
        exact whole
      · have noEnd : stop.isSemicolon = false := by simpa using semicolon
        have curly : stop.isCurly := by simpa [endsItem, semicolon] using stops
        have some : more ≠ [] := by
          rintro rfl
          refine last ⟨rfl, fun m member => ?_⟩
          rcases List.mem_append.1 member with inFront | isStop
          · exact keptSemicolon m inFront
          · rw [List.mem_singleton.1 isStop, noEnd]
        obtain ⟨s, qualified, taken, alone⟩ :=
          exists_ofIdent_curly room level some curly keptAll read
        exact ⟨front ++ [stop], more, .rule s, by simp, taken, alone, whole, s, rfl, qualified⟩
    · exact absurd ⟨rfl, fun m member => (endsItem_eq_false.1 (kept m member)).1⟩ last

def itemAt (context : Context) (room : Bool) (n : Node) (rest : List Node) : Outlook × List Node :=
  match n.token, context with
  | .atKeyword name, _ =>
    (.rule (ofAtRule room n name (upTo endsItem rest) (stop? endsItem rest)), after endsItem rest)
  | .ident name, .style => ofIdent room n name rest
  | _, _ =>
    (.rule (ofRule context room n.start (upTo endsItem (n :: rest)) (stop? endsItem (n :: rest))),
      after endsItem (n :: rest))

/-- Blanks, comments and semicolons stand between the items of a body. -/
def isBetween (n : Node) : Bool :=
  n.isTrivia || n.isSemicolon

section Item

variable {context : Context} {name : String}

theorem itemAt_atKeyword (keyword : n.token = .atKeyword name) (rest : List Node) :
    itemAt context room n rest =
      (.rule (ofAtRule room n name (upTo endsItem rest) (stop? endsItem rest)),
        after endsItem rest) := by
  simp [itemAt, keyword]

theorem itemAt_ident (ident : n.token = .ident name) (rest : List Node) :
    itemAt .style room n rest = ofIdent room n name rest := by
  simp [itemAt, ident]

theorem itemAt_other (noKeyword : ∀ name, n.token ≠ .atKeyword name)
    (noIdent : ∀ name, n.token = .ident name → context ≠ .style) (rest : List Node) :
    itemAt context room n rest =
      (.rule (ofRule context room n.start (upTo endsItem (n :: rest)) (stop? endsItem (n :: rest))),
        after endsItem (n :: rest)) := by
  rw [itemAt.eq_def]
  split
  · rename_i name keyword
    exact absurd keyword (noKeyword name)
  · rename_i name ident
    exact absurd rfl (noIdent name ident)
  · rfl

theorem atKeyword_or_ident_or_other (context : Context) (n : Node) :
    (∃ name, n.token = .atKeyword name) ∨ (∃ name, n.token = .ident name ∧ context = .style) ∨
      (∀ name, n.token ≠ .atKeyword name) ∧ ∀ name, n.token = .ident name → context ≠ .style := by
  by_cases keyword : ∃ name, n.token = .atKeyword name
  · exact .inl keyword
  by_cases ident : ∃ name, n.token = .ident name ∧ context = .style
  · exact .inr (.inl ident)
  · exact .inr (.inr ⟨not_exists.1 keyword, fun name isIdent style => ident ⟨name, isIdent, style⟩⟩)

theorem ofBody_itemAt (first : isBetween n = false) (rest : List Node) :
    ofBody context room (n :: rest) =
      (itemAt context room n rest).1 :: ofBody context room (itemAt context room n rest).2 := by
  rcases atKeyword_or_ident_or_other context n with ⟨name, keyword⟩ | ⟨name, ident, rfl⟩ | other
  · rw [ofBody_atKeyword keyword, itemAt_atKeyword keyword]
  · rw [ofBody_ident ident, itemAt_ident ident]
  · rw [ofBody_other (by simpa [isBetween] using first) other.1 other.2,
      itemAt_other other.1 other.2]

theorem exists_itemAt (context : Context) (room : Bool)
    (level : Node.Level Lexeme.Spans (n :: rest)) :
    ∃ front more o, rest = front ++ more ∧ itemAt context room n rest = (o, more) ∧
      itemAt context room n front = (o, []) ∧ EndsAfter o.stops (n :: front) more ∧
      ∀ name, n.token = .ident name → context = .style →
        o.Answers (readDeclaration name (upTo Node.isSemicolon rest)) := by
  rcases atKeyword_or_ident_or_other context n with ⟨name, keyword⟩ | ⟨name, ident, rfl⟩ | other
  · have plain : endsItem n = false := by
      simp [endsItem, Node.isSemicolon, Node.isCurly, keyword]
    obtain ⟨front, more, rfl, ends⟩ := exists_endsAfter endsItem rest
    refine ⟨front, more, .rule (ofAtRule room n name (upTo endsItem front) (stop? endsItem front)),
      rfl, ?_, ?_, ends.cons plain, by simp [keyword]⟩
    · rw [itemAt_atKeyword keyword, ends.upTo_append, ends.stop?_append, ends.after_append]
    · rw [itemAt_atKeyword keyword, ends.after_eq_nil]
  · obtain ⟨front, more, o, rfl, taken, alone, ends, answers⟩ :=
      exists_ofIdent room level ident
    refine ⟨front, more, o, rfl, ?_, ?_, ends, ?_⟩
    · rw [itemAt_ident ident, taken]
    · rw [itemAt_ident ident, alone]
    · intro name' same _
      cases ident.symm.trans same
      exact answers
  · obtain ⟨front, more, rfl, ends⟩ := exists_endsAfter_cons endsItem n rest
    refine ⟨front, more, .rule (ofRule context room n.start (upTo endsItem (n :: front))
      (stop? endsItem (n :: front))), rfl, ?_, ?_, ends, fun name ident style =>
        absurd style (other.2 name ident)⟩
    · rw [itemAt_other other.1 other.2, ← List.cons_append, ends.upTo_append, ends.stop?_append,
        ends.after_append]
    · rw [itemAt_other other.1 other.2, ends.after_eq_nil]

end Item

structure IsItem (context : Context) (room : Bool) (item more : List Node) (o : Outlook) :
    Prop where
  ends : EndsAfter o.stops item more
  alone : ofBody context room item = [o]
  level : Node.Level Lexeme.Spans (item ++ more)
  answers : ∀ {n rest name}, item = n :: rest → n.token = .ident name → context = .style →
    o.Answers (readDeclaration name (upTo Node.isSemicolon (rest ++ more)))

theorem ofBody_nil (context : Context) (room : Bool) : ofBody context room [] = [] := by
  rw [ofBody.eq_def]

theorem cut_ofBody (context : Context) (room : Bool) {ns : List Node}
    (level : Node.Level Lexeme.Spans ns) :
    Cut isBetween (IsItem context room) ns (ofBody context room ns) := by
  apply Cut.of_step (ofBody_nil context room) (fun n rest skipped => ofBody_skip skipped) _ ns level
  intro n rest level first
  obtain ⟨front, more, o, rfl, taken, alone, ends, answers⟩ :=
    exists_itemAt context room level
  refine ⟨front, more, o, rfl, ?_, ends, ?_, level, ?_⟩
  · rw [ofBody_itemAt first, taken]
  · rw [ofBody_itemAt first, alone, ofBody_nil]
  · intro m rest name same
    cases same
    exact answers name

/-- Blanks, comments and the marks of comments in another language stand between the rules of a
sheet. -/
def isAround (n : Node) : Bool :=
  n.isTrivia || n.token == .cdo || n.token == .cdc

theorem ofSheet_nil : ofSheet [] = [] := by
  rw [ofSheet.eq_def]

theorem cut_ofSheet {P : Lexeme → Prop} {ns : List Node} (level : Node.Level P ns) :
    Cut isAround (fun item more s => EndsAfter s.stops item more ∧ ofSheet item = [s]) ns
      (ofSheet ns) := by
  apply Cut.of_step ofSheet_nil (fun n rest skipped => ofSheet_skip skipped) ?_ ns level
  intro n rest _ first
  by_cases keyword : ∃ name, n.token = .atKeyword name
  · obtain ⟨name, keyword⟩ := keyword
    have plain : endsItem n = false := by
      simp [endsItem, Node.isSemicolon, Node.isCurly, keyword]
    obtain ⟨front, more, rfl, ends⟩ := exists_endsAfter endsItem rest
    refine ⟨front, more, ofAtRule true n name (upTo endsItem front) (stop? endsItem front), rfl,
      ?_, ?_, ?_⟩
    · rw [ofSheet_atKeyword keyword, ends.upTo_append, ends.stop?_append, ends.after_append]
    · rw [stops_ofAtRule]
      exact ends.cons plain
    · rw [ofSheet_atKeyword keyword, ends.after_eq_nil, ofSheet_nil]
  · have kept : ¬(n.isTrivia || n.token == .cdo || n.token == .cdc) := by
      simpa [isAround] using first
    obtain ⟨front, more, rfl, ends⟩ := exists_endsAfter_cons Node.isCurly n rest
    refine ⟨front, more, ofRule .style true n.start (upTo Node.isCurly (n :: front))
      (stop? Node.isCurly (n :: front)), rfl, ?_, ?_, ?_⟩
    · rw [ofSheet_other kept (not_exists.1 keyword), ← List.cons_append, ends.upTo_append,
        ends.stop?_append, ends.after_append]
    · rw [stops_ofRule]
      exact ends
    · rw [ofSheet_other kept (not_exists.1 keyword), ends.after_eq_nil, ofSheet_nil]

end Sketch

end CssOutline
