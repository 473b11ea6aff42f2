import CssOutline.Proofs.GrammarValues

/-! Plain keys read back. The nodes of a selector are read as its components, those of a condition
as its parts, and both are written as they were; so the nodes before a block open a rule with the
key that they spell. -/

namespace CssOutline

theorem segments_of_forall {α : Type} {p : α → Bool} {xs : List α} (kept : ∀ x ∈ xs, p x = false) :
    segments p xs = [xs] := by
  induction xs with
  | nil => rfl
  | cons x xs ih =>
    have first := kept x (by simp)
    rw [segments, if_neg (by simp [first]), ih fun y member => kept y (by simp [member])]

theorem segments_cut {α : Type} {p : α → Bool} {xs : List α} (kept : ∀ x ∈ xs, p x = false) {c : α}
    (separates : p c) (ys : List α) : segments p (xs ++ c :: ys) = xs :: segments p ys := by
  induction xs with
  | nil => rw [List.nil_append, segments, if_pos separates]
  | cons x xs ih =>
    have first := kept x (by simp)
    rw [List.cons_append, segments, if_neg (by simp [first]),
      ih fun y member => kept y (by simp [member])]

theorem mapM_map_ok {ε α β γ : Type} {f : β → Except ε γ} {g : α → β} {h : α → γ}
    (item : ∀ a, f (g a) = .ok (h a)) (as : List α) : (as.map g).mapM f = .ok (as.map h) := by
  induction as with
  | nil => rfl
  | cons a as ih =>
    rw [List.map_cons, List.mapM_cons, item, ih]
    rfl

namespace Node

theorem symbols_append (ns ms : List Node) : symbols (ns ++ ms) = symbols ns ++ symbols ms := by
  induction ns with
  | nil => rfl
  | cons n ns ih =>
    rw [List.cons_append, symbols, symbols, ih]
    cases symbol? n <;> rfl

theorem isComma_symbols {ns : List Node} (kept : ∀ n ∈ ns, n.isComma = false) :
    ∀ s ∈ symbols ns, s.isComma = false := by
  induction ns with
  | nil => simp [symbols]
  | cons n ns ih =>
    have later := ih fun m member => kept m (by simp [member])
    have first : ∀ s, symbol? n = some s → s.isComma = false := by
      have plain := kept n (by simp)
      intro s found
      cases n with
      | leaf l =>
        rw [symbol?] at found
        unfold Symbol.ofToken? at found
        split at found <;> first | cases found; rfl | simp_all [isComma, token]
      | block l body closing =>
        rw [symbol?] at found
        split at found <;> cases found <;> rfl
    rw [symbols]
    cases found : symbol? n with
    | none => exact later
    | some s =>
      intro t member
      rcases List.mem_cons.1 member with rfl | inside
      · exact first t found
      · exact later t inside

end Node

namespace Grammar

open Node (Spells atom gap symbols)
open ComplexSelector (push afterCombinator)

section Selectors

def Subject.component : Subject → Component
  | element n => .element n.text
  | universal => .universal
  | nesting => .nesting

def Filter.component : Filter → Component
  | className n => .className n.text
  | identity n => .identity n.text
  | pseudo n => .pseudo .classes n.text .none

def Compound.components (c : Compound) : List Component :=
  (c.subject.map Subject.component).toList ++ c.filters.map Filter.component

def Complex.components (s : Complex) : List Component :=
  s.first.components ++ s.more.flatMap fun (c, compound) =>
    .combinator c :: compound.components

theorem Subject.readFrom (s : Subject) (done : List Component) (gap : Bool) (ns : List Node) :
    ComplexSelector.readFrom done gap (symbols (s.nodes ++ ns)) =
      ComplexSelector.readFrom (push done gap s.component) false (symbols ns) := by
  cases s <;> simp [Subject.nodes, Name.node, atom, symbols, Node.symbol?, Symbol.ofToken?,
    ComplexSelector.readFrom, Subject.component]

theorem Filter.readFrom (f : Filter) (done : List Component) (gap : Bool) (ns : List Node) :
    ComplexSelector.readFrom done gap (symbols (f.nodes ++ ns)) =
      ComplexSelector.readFrom (push done gap f.component) false (symbols ns) := by
  cases f <;> simp [Filter.nodes, Name.node, Node.colon, atom, symbols, Node.symbol?,
    Symbol.ofToken?, ComplexSelector.readFrom, Filter.component]

theorem readFrom_filters (fs : List Filter) (done : List Component) (ns : List Node) :
    ComplexSelector.readFrom done false (symbols (fs.flatMap Filter.nodes ++ ns)) =
      ComplexSelector.readFrom ((fs.map Filter.component).reverse ++ done) false (symbols ns) := by
  induction fs generalizing done with
  | nil => rfl
  | cons f fs ih =>
    rw [List.flatMap_cons, List.append_assoc, f.readFrom, ih]
    simp [push]

/-- What the components of a compound are put after. -/
def opened (done : List Component) (gap : Bool) : List Component :=
  if gap && !afterCombinator done then .combinator .descendant :: done else done

theorem push_eq (done : List Component) (gap : Bool) (c : Component) :
    push done gap c = c :: opened done gap := by
  unfold push opened
  split <;> rfl

theorem Compound.readFrom (c : Compound) (done : List Component) (gap : Bool) (ns : List Node) :
    ComplexSelector.readFrom done gap (symbols (c.nodes ++ ns)) =
      ComplexSelector.readFrom (c.components.reverse ++ opened done gap) false (symbols ns) := by
  obtain ⟨subject, filters, something⟩ := c
  unfold Compound.nodes Compound.components
  cases subject with
  | some s =>
    simp only [Option.map_some, Option.getD_some, List.append_assoc]
    rw [s.readFrom, readFrom_filters, push_eq]
    simp
  | none =>
    cases filters with
    | nil => simp at something
    | cons f fs =>
      simp only [Option.map_none, Option.getD_none, List.nil_append, List.flatMap_cons,
        List.append_assoc]
      rw [f.readFrom, readFrom_filters, push_eq]
      simp

/-- Components that a selector may end with. -/
def Ended (done : List Component) : Prop :=
  done ≠ [] ∧ afterCombinator done = false

theorem Compound.ended (c : Compound) (done : List Component) :
    Ended (c.components.reverse ++ done) := by
  obtain ⟨subject, filters, something⟩ := c
  unfold Compound.components
  rcases List.eq_nil_or_concat filters with rfl | ⟨front, f, rfl⟩
  · cases subject with
    | none => simp at something
    | some s => cases s <;> exact ⟨List.cons_ne_nil _ _, rfl⟩
  · simp only [List.concat_eq_append, List.map_append, ← List.append_assoc, List.reverse_append]
    cases f <;> exact ⟨List.cons_ne_nil _ _, rfl⟩

theorem readFrom_combinator (c : Combinator) (compound : Compound) {done : List Component}
    (ended : Ended done) (ns : List Node) :
    ComplexSelector.readFrom done false (symbols (combinatorNode c :: (compound.nodes ++ ns))) =
      ComplexSelector.readFrom (compound.components.reverse ++ .combinator c :: done) false
        (symbols ns) := by
  obtain ⟨some, simple⟩ := ended
  cases c with
  | descendant =>
    have space : symbols (combinatorNode .descendant :: (compound.nodes ++ ns)) =
        .space :: symbols (compound.nodes ++ ns) := rfl
    rw [space, ComplexSelector.readFrom, compound.readFrom]
    simp [opened, some, simple]
  | _ =>
    have mark : ∀ d : Combinator, combinatorNode d ≠ gap [' '] →
        symbols (combinatorNode d :: (compound.nodes ++ ns)) =
          .combinator d :: symbols (compound.nodes ++ ns) := by
      intro d other
      cases d <;> first | rfl | exact absurd rfl other
    rw [mark _ (by simp [combinatorNode, gap, atom]), ComplexSelector.readFrom,
      if_neg (by simp [simple]), compound.readFrom]
    rfl

theorem Complex.readFrom (s : Complex) (ns : List Node) :
    ComplexSelector.readFrom [] false (symbols (s.nodes ++ ns)) =
        ComplexSelector.readFrom s.components.reverse false (symbols ns) ∧
      Ended s.components.reverse := by
  obtain ⟨first, more⟩ := s
  have later : ∀ (more : List (Combinator × Compound)) {done : List Component}, Ended done →
      ComplexSelector.readFrom done false (symbols ((more.flatMap fun (c, compound) =>
          combinatorNode c :: compound.nodes) ++ ns)) =
        ComplexSelector.readFrom ((more.flatMap fun (c, compound) =>
          .combinator c :: compound.components).reverse ++ done) false (symbols ns) ∧
      Ended ((more.flatMap fun (c, compound) =>
          .combinator c :: compound.components).reverse ++ done) := by
    intro more
    induction more with
    | nil => exact fun ended => ⟨rfl, ended⟩
    | cons part more ih =>
      intro done ended
      obtain ⟨c, compound⟩ := part
      have rest := ih (compound.ended (.combinator c :: done))
      simp only [List.flatMap_cons, List.cons_append, List.append_assoc, List.reverse_append,
        List.reverse_cons, List.nil_append] at rest ⊢
      rw [readFrom_combinator c compound ended]
      exact rest
  have start := first.ended []
  rw [List.append_nil] at start
  have rest := later more start
  simp only [Complex.nodes, Complex.components, List.append_assoc, List.reverse_append]
  rw [first.readFrom]
  simpa [opened] using rest

theorem Complex.read (s : Complex) {lead last : List Node} (before : lead = [] ∨ lead = [gap [' ']])
    (after : last = [] ∨ last = [gap [' ']]) :
    ComplexSelector.read (symbols (lead ++ (s.nodes ++ last))) = .ok s.components := by
  obtain ⟨whole, some, simple⟩ := s.readFrom last
  have skipped : ComplexSelector.read (symbols (lead ++ (s.nodes ++ last))) =
      ComplexSelector.readFrom [] false (symbols (s.nodes ++ last)) := by
    rcases before with rfl | rfl
    · rfl
    · rfl
  have done : ∀ gap, ComplexSelector.readFrom s.components.reverse gap [] = .ok s.components := by
    intro gap
    obtain ⟨c, rest, same⟩ := List.exists_cons_of_ne_nil some
    rw [same] at simple
    have last : ComplexSelector.isCombinator c = false := simple
    rw [same, ComplexSelector.readFrom, if_neg (by simp [last]), ← same, List.reverse_reverse]
  rw [skipped, whole]
  rcases after with rfl | rfl
  · exact done false
  · exact done (!s.components.reverse.isEmpty)

/-- Selectors with commas between them are read one by one. -/
theorem readSelectors_nodes (selectors : Many Complex) {lead : List Node}
    (before : lead = [] ∨ lead = [gap [' ']]) :
    Node.readSelectors (lead ++ (selectors.nodes [Node.comma, gap [' ']] Complex.nodes ++
      [gap [' ']])) = .ok (selectors.toList.map Complex.components) := by
  have blank : ∀ {ns : List Node}, ns = [] ∨ ns = [gap [' ']] → ∀ n ∈ ns, n.isComma = false := by
    rintro ns (rfl | rfl) n member
    · cases member
    · rw [List.mem_singleton.1 member]
      rfl
  have kept : ∀ (s : Complex) {lead last : List Node}, lead = [] ∨ lead = [gap [' ']] →
      last = [] ∨ last = [gap [' ']] → ∀ n ∈ lead ++ (s.nodes ++ last), n.isComma = false := by
    intro s lead last before after n member
    rcases List.mem_append.1 member with inLead | inRest
    · exact blank before n inLead
    rcases List.mem_append.1 inRest with inside | inLast
    · exact (s.inner n inside).2
    · exact blank after n inLast
  induction selectors using Many.induction generalizing lead with
  | single s =>
    have all := kept s before (.inr rfl)
    rw [Many.nodes_single, Node.readSelectors, SelectorList.ofSymbols,
      segments_of_forall (Node.isComma_symbols all), List.mapM_cons, s.read before (.inr rfl)]
    rfl
  | cons s next rest ih =>
    have comma : symbols (Node.comma :: gap [' '] ::
        ((Many.nodes [Node.comma, gap [' ']] Complex.nodes ⟨next, rest⟩) ++ [gap [' ']])) =
        .comma :: symbols ([gap [' ']] ++
          ((Many.nodes [Node.comma, gap [' ']] Complex.nodes ⟨next, rest⟩) ++ [gap [' ']])) := rfl
    have later := ih (.inr rfl)
    have all := kept s before (.inl rfl)
    have first := s.read before (.inl rfl)
    rw [List.append_nil] at all first
    rw [Node.readSelectors, SelectorList.ofSymbols] at later
    rw [Many.nodes_cons, Node.readSelectors, SelectorList.ofSymbols, List.append_assoc,
      ← List.append_assoc, List.append_assoc [Node.comma, gap [' ']], Node.symbols_append,
      List.cons_append, List.cons_append, List.nil_append, comma,
      segments_cut (Node.isComma_symbols all) rfl, List.mapM_cons, first, later]
    rfl

theorem renderComponents_append (cs ds : List Component) :
    renderComponents (cs ++ ds) = renderComponents cs ++ renderComponents ds := by
  induction cs with
  | nil => simp [renderComponents]
  | cons c cs ih => rw [List.cons_append, renderComponents, renderComponents, ih, String.append_assoc]

theorem renderComponents_flatMap {α : Type} {components : α → List Component}
    {text : α → List Char} (item : ∀ a, renderComponents (components a) = String.ofList (text a))
    (as : List α) : renderComponents (as.flatMap components) = String.ofList (as.flatMap text) := by
  induction as with
  | nil => rfl
  | cons a as ih =>
    rw [List.flatMap_cons, List.flatMap_cons, renderComponents_append, item, ih,
      String.ofList_append]

theorem Subject.render (s : Subject) : s.component.render = String.ofList s.chars := by
  cases s with
  | element n => exact n.identifier_text
  | universal => rfl
  | nesting => rfl

theorem Filter.render (f : Filter) : f.component.render = String.ofList f.chars := by
  cases f with
  | className n =>
    rw [component, Component.render, n.identifier_text]
    simp [chars, Name.text]
  | identity n =>
    rw [component, Component.render, n.identifier_text]
    simp [chars, Name.text]
  | pseudo n =>
    rw [component, Component.render, n.identifier_text, Argument.render]
    simp [chars, Name.text, PseudoKind.mark]

theorem Compound.render (c : Compound) : renderComponents c.components = String.ofList c.chars := by
  have subject : renderComponents (c.subject.map Subject.component).toList =
      String.ofList ((c.subject.map Subject.chars).getD []) := by
    cases c.subject with
    | none => rfl
    | some s =>
      change s.component.render ++ "" = _
      rw [s.render, String.append_empty]
      rfl
  have filter : ∀ f : Filter, renderComponents [f.component] = String.ofList f.chars := by
    intro f
    rw [renderComponents, renderComponents, f.render, String.append_empty]
  have filters := renderComponents_flatMap filter c.filters
  rw [← List.map_eq_flatMap] at filters
  rw [Compound.components, Compound.chars, renderComponents_append, subject, filters,
    String.ofList_append]

theorem Complex.render (s : Complex) : renderComponents s.components = String.ofList s.chars := by
  have part : ∀ p : Combinator × Compound,
      renderComponents (.combinator p.1 :: p.2.components) =
        String.ofList (p.1.symbol.toList ++ p.2.chars) := by
    intro p
    rw [renderComponents, Component.render, p.2.render, String.ofList_append, String.ofList_toList]
  rw [Complex.components, Complex.chars, renderComponents_append, s.first.render,
    String.ofList_append]
  exact congrArg (String.ofList s.first.chars ++ ·) (renderComponents_flatMap part s.more)

theorem renderSelectors_map (ss : List Complex) :
    renderSelectors (ss.map Complex.components) = ss.map fun s => String.ofList s.chars := by
  induction ss with
  | nil => rfl
  | cons s ss ih => rw [List.map_cons, renderSelectors, s.render, ih, List.map_cons]

theorem render_selectors (selectors : Many Complex) :
    SelectorList.render (selectors.toList.map Complex.components) = (Key.style selectors).text := by
  rw [SelectorList.render, renderSelectors_map, Many.intercalate_text]
  rfl

end Selectors

section Conditions

def Test.condition : Test → Condition
  | name n => .keyword n.text
  | feature n value => .feature n.text (value.map Groups.value)

theorem Test.ofNode (t : Test) : Condition.ofNode t.node = t.condition := by
  cases t with
  | name n => rfl
  | feature n value =>
    cases value with
    | none => rfl
    | some v =>
      have read : Condition.feature? (n.node :: Node.colon :: gap [' '] :: v.nodes) =
          some (.feature n.text (some v.value)) := by
        have first : Node.dropTrivia (n.node :: Node.colon :: gap [' '] :: v.nodes) =
            n.node :: Node.colon :: gap [' '] :: v.nodes := rfl
        have second : Node.dropTrivia (Node.colon :: gap [' '] :: v.nodes) =
            Node.colon :: gap [' '] :: v.nodes := rfl
        have ident : n.node.token = .ident n.text := rfl
        have colon : (Node.colon.token == .colon) = true := rfl
        simp only [Condition.feature?, first, ident, second, colon, if_true, v.readValue]
      change (Condition.feature? (n.node :: Node.colon :: gap [' '] :: v.nodes)).getD _ = _
      rw [read]
      rfl

theorem Tests.read? (ts : Tests) {last : List Node} (after : last = [] ∨ last = [gap [' ']]) :
    Condition.read? (gap [' '] :: (ts.nodes ++ last)) = some (ts.toList.map Test.condition) := by
  have word : ∀ t : Test, t.node.isTrivia = false := by
    rintro (n | ⟨n, _ | v⟩) <;> rfl
  have parts : (Node.significant ts.nodes).map Condition.ofNode = ts.toList.map Test.condition := by
    induction ts using Many.induction with
    | single t =>
      rw [Tests.nodes, Many.nodes_single]
      simp [Node.significant, word, t.ofNode, Many.toList]
    | cons t next rest ih =>
      have skip : Node.significant (t.node :: gap [' '] :: Tests.nodes ⟨next, rest⟩) =
          t.node :: Node.significant (Tests.nodes ⟨next, rest⟩) := by
        rw [Node.significant, List.filter_cons_of_pos (by simp [word])]
        rfl
      rw [Tests.nodes, Many.nodes_cons]
      change (Node.significant (t.node :: gap [' '] :: Tests.nodes ⟨next, rest⟩)).map _ = _
      rw [skip, List.map_cons, t.ofNode, ih]
      rfl
  have whole : Node.significant (gap [' '] :: (ts.nodes ++ last)) = Node.significant ts.nodes := by
    rcases after with rfl | rfl
    · rw [List.append_nil]
      rfl
    · change Node.significant (ts.nodes ++ [gap [' ']]) = _
      rw [Node.significant, List.filter_append]
      exact List.append_nil _
  rw [Condition.read?, whole, parts]
  rfl

theorem readMedia_nodes (queries : Many Tests) :
    (segments Node.isComma (gap [' '] :: (queries.nodes [Node.comma, gap [' ']] Tests.nodes ++
      [gap [' ']]))).mapM Condition.read? =
        some (queries.toList.map fun ts => ts.toList.map Test.condition) := by
  have kept : ∀ ts : Tests, ∀ n ∈ gap [' '] :: ts.nodes, n.isComma = false := by
    intro ts n member
    rcases List.mem_cons.1 member with rfl | inside
    · rfl
    · exact (ts.inner n inside).2
  induction queries using Many.induction with
  | single ts =>
    have all : ∀ n ∈ gap [' '] :: (ts.nodes ++ [gap [' ']]), n.isComma = false := by
      intro n member
      rw [← List.cons_append] at member
      rcases List.mem_append.1 member with inside | last
      · exact kept ts n inside
      · rw [List.mem_singleton.1 last]
        rfl
    rw [Many.nodes_single, segments_of_forall all, List.mapM_cons, ts.read? (.inr rfl)]
    rfl
  | cons ts next rest ih =>
    have first := ts.read? (.inl rfl)
    rw [List.append_nil] at first
    have cut : gap [' '] :: (Many.nodes [Node.comma, gap [' ']] Tests.nodes ⟨ts, next :: rest⟩ ++
        [gap [' ']]) = (gap [' '] :: ts.nodes) ++ Node.comma :: (gap [' '] ::
          (Many.nodes [Node.comma, gap [' ']] Tests.nodes ⟨next, rest⟩ ++ [gap [' ']])) := by
      simp [Many.nodes_cons]
    rw [cut, segments_cut (kept ts) rfl, List.mapM_cons, first, ih]
    rfl

theorem Test.render (t : Test) : t.condition.render = .ok (String.ofList t.chars) := by
  cases t with
  | name n => exact congrArg Except.ok n.identifier_text
  | feature n value =>
    cases value with
    | none =>
      change Except.ok ("(" ++ Printer.identifier n.text ++ ")") = _
      rw [n.identifier_text]
      simp [chars, Name.text, String.append_assoc]
    | some v =>
      change (v.value.render.bind fun text => Except.ok _) = _
      rw [v.render_value, n.identifier_text]
      apply congrArg Except.ok
      apply String.toList_inj.1
      simp [chars, Name.text]

theorem Tests.render (ts : Tests) :
    Condition.renderAll (ts.toList.map Test.condition) = .ok (String.ofList ts.chars) := by
  rw [Condition.renderAll, mapM_map_ok Test.render]
  exact congrArg Except.ok (Many.intercalate_text " " Test.chars ts)

theorem render_media (queries : Many Tests) :
    (Prelude.media (queries.toList.map fun ts => ts.toList.map Test.condition)).render =
      .ok (String.ofList (queries.chars [',', ' '] Tests.chars)) := by
  rw [Prelude.render, mapM_map_ok Tests.render]
  exact congrArg Except.ok (Many.intercalate_text ", " Tests.chars queries)

end Conditions

section Openings

theorem significant_ne_nil {ns : List Node} {n : Node} (member : n ∈ ns) (word : n.isTrivia = false) :
    Node.significant ns ≠ [] := by
  intro none
  have kept : n ∈ Node.significant ns := List.mem_filter.2 ⟨member, by simp [word]⟩
  rw [none] at kept
  cases kept

theorem Name.atKey_text (word : Name) {clause : Prelude} {cs : List Char}
    (rendered : clause.render = .ok (String.ofList cs)) (visible : Node.Visible cs) :
    atKey word.text clause = String.ofList ('@' :: word.chars ++ ' ' :: cs) := by
  have text : String.ofList cs ≠ "" := by
    obtain ⟨c, rest, rfl, _⟩ := visible
    simp
  have key : atRuleKey word.text clause = .ok ("@" ++ word.text ++ " " ++ String.ofList cs) := by
    rw [atRuleKey, rendered]
    change Except.ok (if String.ofList cs = "" then _ else _) = _
    rw [if_neg text]
  rw [atKey, key]
  apply String.toList_inj.1
  simp [Name.text]

theorem Name.atRuleKind_text (n : Name) : atRuleKind n.text = n.text := by
  have dash : n.first ≠ '-' := Lexer.ne_of_isLower n.lower rfl
  rw [atRuleKind, n.toLower_text]
  simp [Vendor.split, Vendor.strip?, Vendor.mark, Name.text, Name.chars, dash.symm]

theorem Name.opens?_rule (word : Name) (place : Place) {kind : String}
    (named : word.text = kind) (members : memberAtRules.contains kind) {ns : List Node}
    {clause : Prelude} (read : Prelude.read kind ns = clause) {cs : List Char}
    (rendered : clause.render = .ok (String.ofList cs)) (visible : Node.Visible cs) :
    place.opens? (word.atNode :: ns) =
      some (String.ofList ('@' :: word.chars ++ ' ' :: cs), some .style) := by
  have keyframes : kind ≠ "keyframes" := by
    rintro rfl
    revert members
    decide
  have same : atRuleKind word.text = kind := word.atRuleKind_text.trans named
  change (Sketch.ofAtRule true word.atNode word.text ns (some (.braces []))).opens? = _
  unfold Sketch.ofAtRule
  simp only [Node.curly, Bool.not_true, Bool.false_eq_true, if_false, same, if_neg keyframes,
    if_pos members, Sketch.opens?, read, word.atKey_text rendered visible]

theorem Tests.significant_ne_nil (ts : Tests) {ns : List Node} (inside : ∀ n ∈ ts.nodes, n ∈ ns) :
    Node.significant ns ≠ [] := by
  have word : ts.first.node.isTrivia = false := by
    obtain n | ⟨n, _ | v⟩ := ts.first <;> rfl
  exact Grammar.significant_ne_nil (inside _ (by simp [Tests.nodes, Many.nodes])) word

theorem read_media (queries : Many Tests) :
    Prelude.read "media" (gap [' '] :: (queries.nodes [Node.comma, gap [' ']] Tests.nodes ++
        [gap [' ']])) = .media (queries.toList.map fun ts => ts.toList.map Test.condition) := by
  have some : Node.significant (gap [' '] :: (queries.nodes [Node.comma, gap [' ']] Tests.nodes ++
      [gap [' ']])) ≠ [] := by
    apply queries.first.significant_ne_nil
    intro n member
    simp [Many.nodes, member]
  rw [Prelude.read, if_neg some]
  simp only [readMedia_nodes queries]
  rfl

theorem read_condition (ts : Tests) {kind : String} (named : kind = "supports" ∨ kind = "container") :
    Prelude.read kind (gap [' '] :: (ts.nodes ++ [gap [' ']])) =
      .condition (ts.toList.map Test.condition) := by
  have some : Node.significant (gap [' '] :: (ts.nodes ++ [gap [' ']])) ≠ [] := by
    apply ts.significant_ne_nil
    intro n member
    simp [member]
  have parts := ts.read? (.inr rfl)
  rw [Prelude.read, if_neg some]
  rcases named with rfl | rfl
  · simp only [parts]
    rfl
  · simp only [parts]
    rfl

/-- The name of a layer is a value of one word. -/
theorem read_layer (n : Name) {last : List Node} (after : last = [] ∨ last = [gap [' ']]) :
    ∃ clause, Prelude.read "layer" (gap [' '] :: n.node :: last) = clause ∧
      clause.render = .ok n.text := by
  let word : Groups := ⟨⟨.name n, []⟩, []⟩
  have some : Node.significant (gap [' '] :: n.node :: last) ≠ [] :=
    significant_ne_nil (n := n.node) (by simp) rfl
  have read : Node.readValue (gap [' '] :: n.node :: last) = .ok word.value := by
    rcases after with rfl | rfl
    · exact word.readValue
    · exact word.readValue_space
  have chars : word.chars = n.chars := by
    simp [word, Groups.chars, Words.chars, Many.chars_single, Word.chars]
  refine ⟨.value word.value, ?_, ?_⟩
  · rw [Prelude.read, if_neg some]
    simp [read]
  · rw [Prelude.render, word.render_value, chars]
    rfl

/-- Nodes that a rule starts with, and no custom property. -/
def Leads (n : Node) : Prop :=
  n.isTrivia = false ∧ n.token ≠ .cdo ∧ n.token ≠ .cdc ∧
    ∀ name, n.token = .ident name → (Property.parse name).isCustom = false

theorem Leads.endsAtBraces {n : Node} {rest : List Node} (leads : Leads n)
    (inline : Inline (n :: rest)) {place : Place} (style : place.context = .style) :
    place.endsAtBraces (n :: rest) := by
  obtain ⟨solid, cdo, cdc, ident⟩ := leads
  have kept : (n :: rest).all (!Sketch.endsItem ·) := by simpa [Inline] using inline
  have custom : Node.startsCustom (n :: rest) = false := by
    rw [Node.startsCustom]
    split
    · rename_i named _
      exact ident _ named
    · rfl
  cases place with
  | sheet =>
    change (!n.isTrivia && (n :: rest).all (!Sketch.endsItem ·) &&
      (n.token != .cdo && n.token != .cdc)) = true
    rw [solid, kept]
    simp [cdo, cdc]
  | body context =>
    obtain rfl : context = .style := style
    change (!n.isTrivia && (n :: rest).all (!Sketch.endsItem ·) &&
      !Node.startsCustom (n :: rest)) = true
    rw [solid, kept, custom]
    rfl

theorem Compound.leads (c : Compound) : ∃ n rest, c.nodes = n :: rest ∧ Leads n ∧
    ∀ name, n.token ≠ .atKeyword name := by
  have name : ∀ n : Name, Leads n.node := by
    intro n
    refine ⟨rfl, by simp [Name.node, atom, Node.token], by simp [Name.node, atom, Node.token], ?_⟩
    intro text same
    cases same
    exact n.isCustom_text
  have mark : ∀ (t : Token) (cs : List Char), t.isTrivia = false → t ≠ .cdo → t ≠ .cdc →
      (∀ name, t ≠ .ident name) → Leads (atom t cs) :=
    fun t cs solid cdo cdc ident => ⟨solid, cdo, cdc, fun name same => absurd same (ident name)⟩
  obtain ⟨subject, filters, something⟩ := c
  unfold Compound.nodes
  cases subject with
  | some s =>
    cases s with
    | element n => exact ⟨n.node, _, rfl, name n, by simp [Name.node, atom, Node.token]⟩
    | universal =>
      exact ⟨_, _, rfl, mark _ _ rfl (by simp) (by simp) (by simp), by simp [atom, Node.token]⟩
    | nesting =>
      exact ⟨_, _, rfl, mark _ _ rfl (by simp) (by simp) (by simp), by simp [atom, Node.token]⟩
  | none =>
    cases filters with
    | nil => simp at something
    | cons f fs =>
      cases f <;> exact ⟨_, _, rfl, mark _ _ rfl (by simp) (by simp) (by simp),
        by simp [Node.colon, atom, Node.token]⟩

theorem Name.leads_atNode (word : Name) : Leads word.atNode := by
  refine ⟨rfl, ?_, ?_, ?_⟩ <;> simp [Name.atNode, atom, Node.token]

theorem Key.endsAtBraces (k : Key) {place : Place} (style : place.context = .style) :
    place.endsAtBraces (k.nodes ++ [gap [' ']]) := by
  have inline := k.inline.append inline_space
  cases k with
  | style selectors =>
    obtain ⟨n, rest, same, leads, _⟩ := selectors.first.first.leads
    have whole : (Key.style selectors).nodes = n :: (rest ++ (selectors.first.more.flatMap fun
        (c, compound) => combinatorNode c :: compound.nodes) ++ selectors.more.flatMap fun a =>
          [Node.comma, gap [' ']] ++ a.nodes) := by
      rw [Key.nodes, Many.nodes, Complex.nodes, same]
      rfl
    rw [whole] at inline ⊢
    exact leads.endsAtBraces inline style
  | media queries => exact Name.media.leads_atNode.endsAtBraces inline style
  | supports condition => exact Name.supports.leads_atNode.endsAtBraces inline style
  | container condition => exact Name.container.leads_atNode.endsAtBraces inline style
  | layer n => exact Name.layer.leads_atNode.endsAtBraces inline style

/-- The nodes of a key open a rule with this key. -/
theorem Key.opens? (k : Key) {place : Place} (style : place.context = .style) :
    place.opens? (k.nodes ++ [gap [' ']]) = some (k.text, some .style) := by
  cases k with
  | style selectors =>
    obtain ⟨n, rest, same, _, keyword⟩ := selectors.first.first.leads
    have read := readSelectors_nodes selectors (.inl rfl)
    have whole : ∃ rest, (Key.style selectors).nodes ++ [gap [' ']] = n :: rest := by
      rw [Key.nodes, Many.nodes, Complex.nodes, same]
      exact ⟨_, rfl⟩
    obtain ⟨rest, whole⟩ := whole
    have front : place.opens? (n :: rest) =
        (Sketch.ofRule .style true n.start (n :: rest) (some (.braces []))).opens? := by
      unfold Place.opens? Place.openSketch
      simp only [style]
    rw [List.nil_append, ← Key.nodes, whole] at read
    rw [whole, front]
    simp only [Sketch.ofRule, Sketch.readHead, read, Except.map, Node.curly, if_true,
      Sketch.opens?, Head.render, render_selectors]
  | media queries =>
    exact Name.media.opens?_rule place rfl (by decide) (read_media queries)
      (render_media queries) (Many.visible Tests.visible _ queries)
  | supports condition =>
    exact Name.supports.opens?_rule place rfl (by decide)
      (read_condition condition (.inl rfl)) condition.render condition.visible
  | container condition =>
    exact Name.container.opens?_rule place rfl (by decide)
      (read_condition condition (.inr rfl)) condition.render condition.visible
  | layer n =>
    obtain ⟨clause, read, rendered⟩ := read_layer n (.inr rfl)
    exact Name.layer.opens?_rule place rfl (by decide) read rendered
      (visible_of_isLower n.lower n.rest)

end Openings

end Grammar

end CssOutline
