import CssOutline.Proofs.Contributions
import CssOutline.Proofs.KeptArguments
import Mathlib

/-! Selectors and their keys. A list of selectors that was read from a text and whose parts are read
apart is read back from its key, so that two of them with one key are the same. All selectors of the
style rules in a sheet were read from a text, at whatever depth, and rules under the same keys are
those that are merged. -/

namespace CssOutline

open Node (Inside Spells)

namespace Node

theorem Spells.plain {ok : List Char → Prop} {cs : List Char} {ns : List Node}
    (spells : Spells ok cs ns) (last : ok []) : Node.plain cs = ns := by
  have read := spells [] [] [] last
  rw [List.append_nil] at read
  rw [Node.plain, read]
  simp [build, finish]

theorem readSelectors_render {list : SelectorList} (nonempty : list ≠ [])
    (back : Everywhere ComplexSelector.ReadsBack list) :
    readSelectors (ofText list.render.toList) = .ok list := by
  obtain ⟨ns, spells, read⟩ := exists_spells_selectors list nonempty back
  have last : EndsSelector [] := by simp [EndsSelector]
  rw [← readSelectors_unplaced, unplaced_ofText, SelectorList.render, spells.plain last]
  exact read

end Node

namespace SelectorList

theorem Proper.readSelectors_render {list : SelectorList} (proper : Proper list)
    (legible : Everywhere ComplexSelector.Legible list) :
    Node.readSelectors (Node.ofText list.render.toList) = .ok list :=
  Node.readSelectors_render proper.nonempty
    (everywhere_and (fun _ proper legible => ⟨proper, legible⟩) list proper.everywhere legible)

theorem Proper.eq_of_render_eq {A B : SelectorList} (proper : Proper A) (proper' : Proper B)
    (legible : Everywhere ComplexSelector.Legible A)
    (legible' : Everywhere ComplexSelector.Legible B) (same : A.render = B.render) : A = B := by
  have first := proper.readSelectors_render legible
  rw [same, proper'.readSelectors_render legible'] at first
  exact (Except.ok.inj first).symm

end SelectorList

namespace Sketch

inductive From (ns : List Node) : Sketch → Prop
  | style {start : Location} {context : Context} {head : Head} {front block : List Node}
    {opening : Lexeme} {closing : Option Lexeme} (inside : front ⊆ ns)
    (read : readHead context front = .ok head) (member : .block opening block closing ∈ ns) :
    From ns (style start head block)
  | statement {start : Location} {name : String} {clause : Prelude} :
    From ns (statement start name clause)
  | members {start : Location} {name : String} {clause : Prelude} {context : Context}
    {block : List Node} {opening : Lexeme} {closing : Option Lexeme}
    (member : .block opening block closing ∈ ns) : From ns (members start name clause context block)
  | verbatim {start : Location} {name : String} {clause : Prelude} {block : List Node} :
    From ns (verbatim start name clause block)
  | unrecognized {start : Location} {fault : Fault} {source : List Char} :
    From ns (unrecognized start fault source)

theorem From.mono {ns ms : List Node} {s : Sketch} (origin : s.From ns) (subset : ns ⊆ ms) :
    s.From ms := by
  cases origin with
  | style inside read member => exact .style (List.Subset.trans inside subset) read (subset member)
  | statement => exact .statement
  | members member => exact .members (subset member)
  | verbatim => exact .verbatim
  | unrecognized => exact .unrecognized

section

variable (p : Node → Bool) (ns : List Node)

theorem upTo_subset : upTo p ns ⊆ ns :=
  (List.takeWhile_sublist _).subset

theorem after_subset : after p ns ⊆ ns :=
  fun _ member => (List.dropWhile_sublist _).subset (List.mem_of_mem_drop member)

theorem stop?_mem : ∀ n ∈ stop? p ns, n ∈ ns :=
  fun _ member => (List.dropWhile_sublist _).subset (List.mem_of_head? member)

end

theorem from_ofAtRule (room : Bool) (keyword : Node) (name : String) (front : List Node)
    {stop : Option Node} {ns : List Node} (stops : ∀ n ∈ stop, n ∈ ns) :
    (ofAtRule room keyword name front stop).From ns := by
  unfold ofAtRule
  split
  · have member := stops _ rfl
    simp only
    split_ifs
    · exact .unrecognized
    · exact .members member
    · exact .members member
    · exact .verbatim
  · exact .statement

theorem from_ofRule (context : Context) (room : Bool) (start : Location) {front : List Node}
    {stop : Option Node} {ns : List Node} (inside : front ⊆ ns) (stops : ∀ n ∈ stop, n ∈ ns) :
    (ofRule context room start front stop).From ns := by
  unfold ofRule
  split
  · have member := stops _ rfl
    simp only
    split
    · exact .unrecognized
    · rename_i head read
      split_ifs
      · exact .style inside read member
      · exact .unrecognized
  · exact .unrecognized
  · exact .unrecognized

theorem from_ofIdent (room : Bool) (n : Node) (name : String) (rest : List Node) {s : Sketch}
    (same : (ofIdent room n name rest).1 = .rule s) : s.From (n :: rest) := by
  have rule := from_ofRule .style room n.start (upTo_subset endsItem (n :: rest))
    (stop?_mem endsItem (n :: rest))
  unfold ofIdent at same
  split at same
  · cases same
  · simp only at same
    split at same
    · split at same
      · cases same
        exact rule
      · cases same
        exact .unrecognized
    · cases same
      exact rule

theorem ofIdent_subset (room : Bool) (n : Node) (name : String) (rest : List Node) :
    (ofIdent room n name rest).2 ⊆ n :: rest := by
  unfold ofIdent
  split
  · exact List.Subset.trans (after_subset _ _) (List.subset_cons_self _ _)
  · simp only
    split
    · split <;> exact after_subset _ _
    · exact after_subset _ _

theorem from_ofBody (context : Context) (room : Bool) (ns : List Node) {s : Sketch}
    (member : .rule s ∈ ofBody context room ns) : s.From ns := by
  fun_induction ofBody context room ns with
  | case1 => cases member
  | case2 n rest _ ih => exact (ih member).mono (List.subset_cons_self _ _)
  | case3 n rest _ name _ _ ih =>
    rcases List.mem_cons.1 member with same | later
    · cases same
      exact (from_ofAtRule room n name _ (stop?_mem _ _)).mono (List.subset_cons_self _ _)
    · exact (ih later).mono (List.Subset.trans (after_subset _ _) (List.subset_cons_self _ _))
  | case4 n rest _ name isStyle _ _ ih =>
    subst isStyle
    rcases List.mem_cons.1 member with same | later
    · exact from_ofIdent room n name rest same.symm
    · exact (ih later).mono (ofIdent_subset room n name rest)
  | case5 n rest _ _ _ _ ih =>
    rcases List.mem_cons.1 member with same | later
    · cases same
      exact from_ofRule context room n.start (upTo_subset _ _) (stop?_mem _ _)
    · exact (ih later).mono (after_subset _ _)

theorem from_ofSheet (ns : List Node) {s : Sketch} (member : s ∈ ofSheet ns) : s.From ns := by
  fun_induction ofSheet ns with
  | case1 => cases member
  | case2 n rest _ ih => exact (ih member).mono (List.subset_cons_self _ _)
  | case3 n rest _ name _ _ ih =>
    rcases List.mem_cons.1 member with rfl | later
    · exact (from_ofAtRule true n name _ (stop?_mem _ _)).mono (List.subset_cons_self _ _)
    · exact (ih later).mono (List.Subset.trans (after_subset _ _) (List.subset_cons_self _ _))
  | case4 n rest _ _ _ ih =>
    rcases List.mem_cons.1 member with rfl | later
    · exact from_ofRule .style true n.start (upTo_subset _ _) (stop?_mem _ _)
    · exact (ih later).mono (after_subset _ _)

end Sketch

/-- A rule and the keys under which it stands: those of the blocks around it and its own. -/
inductive StandsAt (rules : List Rule) : List String → Rule → Prop
  | outside {r : Rule} {key : String} {item : Item} (member : r ∈ rules)
    (adds : r.entryOf? = some (key, item)) : StandsAt rules [key] r
  | style {path : List String} {start : Location} {head : Head} {body : List Member} {r : Rule}
    {key : String} {item : Item} (outer : StandsAt rules path (.style start head body))
    (member : .rule r ∈ body) (adds : r.entryOf? = some (key, item)) :
    StandsAt rules (path ++ [key]) r
  | atRule {path : List String} {start : Location} {name : String} {clause : Prelude}
    {body : List Member} {r : Rule} {key : String} {item : Item}
    (outer : StandsAt rules path (.atRule start name clause (.members body)))
    (member : .rule r ∈ body) (adds : r.entryOf? = some (key, item)) :
    StandsAt rules (path ++ [key]) r

namespace StandsAt

theorem getLast? {rules : List Rule} {path : List String} {r : Rule}
    (stands : StandsAt rules path r) : path.getLast? = r.entryOf?.map Prod.fst := by
  cases stands with
  | outside _ adds => rw [adds]; rfl
  | style _ _ adds => rw [adds]; simp
  | atRule _ _ adds => rw [adds]; simp

theorem dropLast_append {rules : List Rule} {path : List String} {r : Rule}
    (stands : StandsAt rules path r) {key : String} {item : Item}
    (adds : r.entryOf? = some (key, item)) : path.dropLast ++ [key] = path := by
  have last := stands.getLast?
  rw [adds, Option.map_some] at last
  exact List.dropLast_append_getLast? key last

theorem mem_of_mem_ofBlock {path : List String} {key : String} {inner all : List Contribution}
    (whole : path.dropLast ++ [key] = path)
    (found : ∀ c ∈ Contribution.ofBlock key inner, ⟨path.dropLast ++ c.path, c.mark⟩ ∈ all) :
    ∀ c ∈ inner, ⟨path ++ c.path, c.mark⟩ ∈ all := by
  intro c member
  have inside := found (Contribution.within key c)
    (List.mem_cons_of_mem _ (List.mem_map_of_mem member))
  rw [← whole, List.append_assoc]
  exact inside

theorem mem_contributionsOf {ms : List Member} {r : Rule} (member : .rule r ∈ ms) :
    ∀ c ∈ r.contributions, c ∈ contributionsOf ms := by
  induction ms with
  | nil => cases member
  | cons m ms ih =>
    intro c found
    rw [contributionsOf, List.mem_append]
    rcases List.mem_cons.1 member with rfl | later
    · exact .inl (by rwa [Member.contributions])
    · exact .inr (ih later c found)

theorem mem_sheetContributions {rules : List Rule} {path : List String} {r : Rule}
    (stands : StandsAt rules path r) :
    ∀ c ∈ r.contributions, ⟨path.dropLast ++ c.path, c.mark⟩ ∈ sheetContributions rules := by
  induction stands with
  | outside member _ => exact fun c found => List.mem_flatMap.2 ⟨_, member, found⟩
  | style outer member _ ih =>
    intro c found
    rw [List.dropLast_concat]
    rw [Rule.contributions] at ih
    exact mem_of_mem_ofBlock (outer.dropLast_append rfl) ih c (mem_contributionsOf member c found)
  | atRule outer member _ ih =>
    intro c found
    rw [List.dropLast_concat]
    rw [Rule.contributions, AtBody.contributions] at ih
    exact mem_of_mem_ofBlock (outer.dropLast_append rfl) ih c (mem_contributionsOf member c found)

theorem body_contributes {rules : List Rule} {path : List String} {start : Location} {head : Head}
    {body : List Member} (stands : StandsAt rules path (.style start head body)) :
    ⟨path, .block⟩ ∈ sheetContributions rules ∧
      ∀ c ∈ contributionsOf body, ⟨path ++ c.path, c.mark⟩ ∈ sheetContributions rules := by
  have whole := stands.dropLast_append rfl
  have found := stands.mem_sheetContributions
  rw [Rule.contributions] at found
  refine ⟨?_, mem_of_mem_ofBlock whole found⟩
  have block := found ⟨[head.render], .block⟩ List.mem_cons_self
  rwa [whole] at block

inductive IsReader : (Context → List Node → List Member) → Prop
  | body (room : Nat) : IsReader (readBody room)
  | nothing : IsReader fun _ _ => []

theorem IsReader.exists_sketch {read : Context → List Node → List Member} (reader : IsReader read)
    {context : Context} {ns : List Node} {r : Rule} (member : .rule r ∈ read context ns) :
    ∃ s inner, Sketch.From ns s ∧ IsReader inner ∧ s.expand inner = r := by
  have step : ∀ {roomy inner}, IsReader inner →
      .rule r ∈ (Sketch.ofBody context roomy ns).map (Outlook.expand inner) →
      ∃ s inner, Sketch.From ns s ∧ IsReader inner ∧ s.expand inner = r := by
    intro roomy inner reader member
    obtain ⟨o, found, same⟩ := List.mem_map.1 member
    cases o with
    | declaration d => cases same
    | rule s =>
      have origin := Sketch.from_ofBody context roomy ns found
      exact ⟨s, inner, origin, reader, Member.rule.inj same⟩
  cases reader with
  | nothing => cases member
  | body room =>
    cases room with
    | zero => exact step .nothing member
    | succ room => exact step (.body room) member

theorem exists_sketch {ns : List Node} {path : List String} {r : Rule}
    (stands : StandsAt (readRules ns) path r) :
    ∃ ms s read, Inside ns ms ∧ Sketch.From ms s ∧ IsReader read ∧ s.expand read = r := by
  -- From the outside in: a rule in a body was read from the block of the rule around it.
  induction stands with
  | outside member _ =>
    obtain ⟨s, found, same⟩ := List.mem_map.1 member
    exact ⟨ns, s, _, .self, Sketch.from_ofSheet ns found, .body _, same⟩
  | style _ member _ ih =>
    obtain ⟨ms, s, read, inside, origin, reader, same⟩ := ih
    cases origin with
    | style _ _ block =>
      cases same
      obtain ⟨s, inner, origin, reader, rfl⟩ := reader.exists_sketch member
      exact ⟨_, s, inner, inside.block block, origin, reader, rfl⟩
    | _ => cases same
  | atRule _ member _ ih =>
    obtain ⟨ms, s, read, inside, origin, reader, same⟩ := ih
    cases origin with
    | members block =>
      cases same
      obtain ⟨s, inner, origin, reader, rfl⟩ := reader.exists_sketch member
      exact ⟨_, s, inner, inside.block block, origin, reader, rfl⟩
    | _ => cases same

theorem proper {css : String} {path : List String} {start : Location} {list : SelectorList}
    {body : List Member}
    (stands : StandsAt (readRules (Node.ofText css.toList)) path
      (.style start (.selectors list) body)) : list.Proper := by
  obtain ⟨ms, s, read, inside, origin, _, same⟩ := stands.exists_sketch
  have level := inside.level (Node.level_isSound css.toList)
  cases origin with
  | @style _ context _ front _ _ _ subset read _ =>
    cases same
    cases context with
    | style =>
      obtain ⟨list, selectors, same⟩ := exists_of_map_ok read
      cases same
      exact Node.proper_of_readSelectors (fun n member => level.built n (subset member)) selectors
    | keyframes =>
      obtain ⟨list, _, same⟩ := exists_of_map_ok read
      cases same
  | _ => cases same

end StandsAt

/-- Lists of selectors that are read from texts, and whose parts are read apart, are the same if
their keys are. So the style rules of a sheet that contribute to one block have the same
selectors. -/
theorem selectors_eq_of_same_key :
    (∀ (s t : String) (A B : SelectorList),
      Node.readSelectors (Node.ofText s.toList) = .ok A →
      Node.readSelectors (Node.ofText t.toList) = .ok B →
      Everywhere ComplexSelector.Legible A → Everywhere ComplexSelector.Legible B →
      A.render = B.render → A = B) ∧
    (∀ (rules : List Rule) (path : List String) (start : Location) (head : Head)
      (body : List Member), StandsAt rules path (.style start head body) →
      ⟨path, .block⟩ ∈ sheetContributions rules ∧
        ∀ c ∈ contributionsOf body, ⟨path ++ c.path, c.mark⟩ ∈ sheetContributions rules) ∧
    ∀ (css : String) (path : List String) (start start' : Location) (A B : SelectorList)
      (body body' : List Member),
      StandsAt (readRules (Node.ofText css.toList)) path (.style start (.selectors A) body) →
      StandsAt (readRules (Node.ofText css.toList)) path (.style start' (.selectors B) body') →
      Everywhere ComplexSelector.Legible A → Everywhere ComplexSelector.Legible B → A = B := by
  refine ⟨?_, fun rules path start head body stands => stands.body_contributes, ?_⟩
  · intro s t A B first second legible legible' same
    have proper := Node.proper_of_readSelectors (Node.level_isSound s.toList).built first
    have proper' := Node.proper_of_readSelectors (Node.level_isSound t.toList).built second
    exact proper.eq_of_render_eq proper' legible legible' same
  · intro css path start start' A B body body' stands stands' legible legible'
    -- The last of the keys is that of the rule itself.
    have same : A.render = B.render := by
      have keys := stands.getLast?.symm.trans stands'.getLast?
      simpa [Rule.entryOf?, Head.render] using keys
    exact stands.proper.eq_of_render_eq stands'.proper legible legible' same

def spacedSelectors : SelectorList :=
  [[.element "a", .combinator .child, .element "b",
    .pseudo .classes "is" (.selectors [[.className "c"], [.identity "d"]]),
    .pseudo .classes "lang" (.raw "en")]]

theorem legible_spacedSelectors : Everywhere ComplexSelector.Legible spacedSelectors := by
  have lang : IsName "lang" := ⟨by decide, by decide⟩
  have closed : IsClosedArgument "en" := .of_isUnquoted (by decide) (by decide +kernel)
    (by decide +kernel) (by decide) (by decide +kernel)
  have plain : takesSelectors "lang" = false := by decide +kernel
  have kept : Argument.Verbatim "lang" "en" :=
    Argument.verbatim_of_isClosed lang (by decide +kernel) closed (by simp [plain])
  have single : ∀ c : Component, c.Legible → ComplexSelector.Legible [c] :=
    fun c legible => ⟨.singleton c, by simpa using legible⟩
  refine ⟨⟨⟨?_, ?_⟩, ?_⟩, trivial⟩
  · simp [Component.apart_iff, Component.endsWithName, Component.endsWithHyphens,
      Component.isElement]
  · simpa [Component.Legible] using kept
  · exact ⟨trivial, trivial, trivial,
      ⟨⟨single _ trivial, trivial, trivial⟩, ⟨single _ trivial, trivial, trivial⟩, trivial⟩,
      trivial, trivial⟩

def spacedSheet : String :=
  "e\x7ba > b:is( .c,#d ):lang( en )\x7b--x:y\x7da>b:is(.c, #d):lang(en)\x7b--z:y\x7d\x7d"

theorem exists_standsAt_spacedSheet :
    ∃ path start start' body body',
      StandsAt (readRules (Node.ofText spacedSheet.toList)) path
        (.style start (.selectors spacedSelectors) body) ∧
      StandsAt (readRules (Node.ofText spacedSheet.toList)) path
        (.style start' (.selectors spacedSelectors) body') := by
  have read : readRules (Node.ofText spacedSheet.toList) =
      [.style ⟨1, 1⟩ (.selectors [[.element "e"]])
        [.rule (.style ⟨1, 3⟩ (.selectors spacedSelectors)
          [.declaration ⟨.custom "--x", .raw "y", false⟩]),
        .rule (.style ⟨1, 38⟩ (.selectors spacedSelectors)
          [.declaration ⟨.custom "--z", .raw "y", false⟩])]] := by cbv
  rw [read]
  exact ⟨_, _, _, _, _, .style (.outside List.mem_cons_self rfl) List.mem_cons_self rfl,
    .style (.outside List.mem_cons_self rfl) (List.mem_cons_of_mem _ List.mem_cons_self) rfl⟩

theorem selectors_eq_of_same_key_spacedSheet :
    (∃ A B, Node.readSelectors (Node.ofText "a > b:is( .c,#d ):lang( en )".toList) = .ok A ∧
      Node.readSelectors (Node.ofText "a>b:is(.c, #d):lang(en)".toList) = .ok B ∧
      Everywhere ComplexSelector.Legible A ∧ Everywhere ComplexSelector.Legible B ∧
      A.render = B.render ∧ A = B) ∧
    ∃ A B path start start' body body',
      StandsAt (readRules (Node.ofText spacedSheet.toList)) path
        (.style start (.selectors A) body) ∧
      StandsAt (readRules (Node.ofText spacedSheet.toList)) path
        (.style start' (.selectors B) body') ∧
      Everywhere ComplexSelector.Legible A ∧ Everywhere ComplexSelector.Legible B ∧ A = B := by
  have legible := legible_spacedSelectors
  constructor
  · have spaced : Node.readSelectors (Node.ofText "a > b:is( .c,#d ):lang( en )".toList) =
        .ok spacedSelectors := by cbv
    have tight : Node.readSelectors (Node.ofText "a>b:is(.c, #d):lang(en)".toList) =
        .ok spacedSelectors := by cbv
    exact ⟨_, _, spaced, tight, legible, legible, rfl,
      selectors_eq_of_same_key.1 _ _ _ _ spaced tight legible legible rfl⟩
  · obtain ⟨path, start, start', body, body', first, second⟩ := exists_standsAt_spacedSheet
    exact ⟨_, _, path, start, start', body, body', first, second, legible, legible,
      selectors_eq_of_same_key.2.2 _ _ _ _ _ _ _ _ first second legible legible⟩

/-- Two texts whose selectors differ but have the same key. -/
def ShareKey (s t : String) : Prop :=
  ∃ A B : SelectorList, Node.readSelectors (Node.ofText s.toList) = .ok A ∧
    Node.readSelectors (Node.ofText t.toList) = .ok B ∧ A.render = B.render ∧ A ≠ B

/-- Selectors whose parts are not read apart may share a key: names with only a comment between
them, two hyphens before an angle bracket, a carriage return in quotes, and text that is kept
without a blank that selectors cannot hold. -/
theorem different_selectors_share_key :
    ShareKey "a/**/b" "ab" ∧
    ShareKey ":is(.--/**/>b)" ":is(.-->b)" ∧
    ShareKey ":is([a=\"\\d \"]:lang(x/*\"](*/))" ":is([a=\"\r\"]:lang(x/*\"](*/))" ∧
    ShareKey ":is(a\x0b)" ":is(a)" ∧
    decode "a/**/b\x7bc:d\x7dab\x7be:f\x7d" =
      .ok (.block "ab" (.value "c" "d" (.value "e" "f" .nil)) .nil) := by
  refine ⟨?_, ?_, ?_, ?_, by decide +kernel⟩
  · exact ⟨[[.element "a", .element "b"]], [[.element "ab"]], by cbv, by cbv, by cbv, by simp⟩
  · exact ⟨[[.pseudo .classes "is"
        (.selectors [[.className "--", .combinator .child, .element "b"]])]],
      [[.pseudo .classes "is" (.raw ".-->b")]], by cbv, by cbv, by cbv, by simp⟩
  · exact ⟨[[.pseudo .classes "is" (.selectors
        [[.hasAttribute ⟨"a", some ⟨.exact, .quoted ⟨"\r", '"'⟩, none⟩⟩,
          .pseudo .classes "lang" (.raw "x/*\"](*/")]])]],
      [[.pseudo .classes "is" (.raw "[a=\"\r\"]:lang(x/*\"](*/)")]],
      by cbv, by cbv, by cbv, by simp⟩
  · exact ⟨[[.pseudo .classes "is" (.raw "a")]],
      [[.pseudo .classes "is" (.selectors [[.element "a"]])]], by cbv, by cbv, by cbv, by simp⟩

end CssOutline
