import CssOutline.Proofs.SelectorKeys
import CssOutline.Proofs.Walk.Completion

/-! Selectors that are written by hand. A list of selectors whose parts are names, strings and
further selectors, put together as selectors are, is read back from its text, and the reader stops
at the end of that text. -/

namespace CssOutline

open Node (textOf)
open Walk
open ComplexSelector (isCombinator)

def Component.Writable : Component → Prop
  | hasAttribute a => ∀ t ∈ a.test, t.value.Legible
  | pseudo _ _ (.raw _) => False
  | _ => True

/-- A selector in its shape, of names and strings that a text can hold, in which no component runs
into the next. -/
structure ComplexSelector.Writable (s : ComplexSelector) : Prop where
  proper : Proper s
  apart : s.IsChain Component.Apart
  components : ∀ c ∈ s, c.Writable

theorem Component.Writable.legible {c : Component} (writable : c.Writable) : c.Legible := by
  cases c with
  | hasAttribute a => exact writable
  | pseudo kind name argument =>
    cases argument with
    | raw text => exact writable.elim
    | _ => trivial
  | _ => trivial

theorem ComplexSelector.Writable.readsBack {s : ComplexSelector} (writable : Writable s) :
    ReadsBack s :=
  ⟨writable.proper, writable.apart, fun c member => (writable.components c member).legible⟩

theorem everywhere_mono {P Q : ComplexSelector → Prop} (implies : ∀ s, P s → Q s)
    {list : SelectorList} (every : Everywhere P list) : Everywhere Q list :=
  everywhere_and (fun s holds _ => implies s holds) list every every

namespace Walk

variable {α : Type} {r : Walk α} {a : α} {as : List α} {c c' : Cursor} {q : List Char}
  {ns : List Node} {d : Nat}

theorem exists_of_run_bind {β : Type} {f : α → Walk β} {b : β}
    (run : (r >>= f).run c = .done b c') :
    ∃ a c₁, r.run c = .done a c₁ ∧ (f a).run c₁ = .done b c' := by
  rw [run_bind] at run
  cases first : r.run c with
  | done a c₁ => exact ⟨a, c₁, rfl, by rwa [first] at run⟩
  | failed e c₁ => rw [first] at run; cases run
  | misused m => rw [first] at run; cases run

theorem untilBefore_stops {p : Node → Bool} (run : (untilBefore p r).run c = .done a c') :
    c' = c.skip fun n => !p n := by
  simp only [untilBefore] at run
  split at run <;> cases run
  rfl

theorem commaStep_stops (within : ∀ n ∈ ns, n.Within d) {done : List α} {s : List α ⊕ List α}
    (run : (commaStep r done).run ⟨q, none, ns⟩ = .done s c') :
    match s with
    | .inl _ => ∃ read more, ns = read ++ more ∧ c' = ⟨q ++ textOf read, none, more⟩
    | .inr _ => c' = ⟨q ++ textOf ns, none, []⟩ := by
  rw [commaStep] at run
  obtain ⟨a, c₁, read, run⟩ := exists_of_run_bind run
  have stop := untilBefore_stops read
  rcases exists_lead (fun n => !n.isComma) ns with kept | ⟨front, comma, more, rfl, kept, mark⟩
  · rw [skip_all rfl kept] at stop
    subst stop
    rw [bind_done (tryTo_failed (expectComma_end _)), run_pure] at run
    cases run
    rfl
  · rw [skip_lead rfl kept mark] at stop
    subst stop
    have separates : comma.isComma := by simpa using mark
    rw [bind_done (tryTo_done (expectComma_comma (within comma (by simp)) separates _ _)),
      run_pure] at run
    cases run
    exact ⟨front ++ [comma], more, by simp, by simp [Node.textOf_append, textOf]⟩

theorem iterate_commaStep_stops (within : ∀ n ∈ ns, n.Within d) {rounds : Nat} {done : List α}
    (run : (iterate (commaStep r) rounds done).run ⟨q, none, ns⟩ = .done as c') :
    c' = ⟨q ++ textOf ns, none, []⟩ := by
  induction rounds generalizing q ns done with
  | zero => cases run
  | succ rounds ih =>
    rw [iterate] at run
    obtain ⟨s, c₁, step, later⟩ := exists_of_run_bind run
    have stops := commaStep_stops within step
    cases s with
    | inr result =>
      cases later
      exact stops
    | inl done =>
      obtain ⟨read, more, rfl, rfl⟩ := stops
      rw [Node.textOf_append, ← List.append_assoc]
      exact ih (fun n member => within n (by simp [member])) later

theorem commaList_stops (within : ∀ n ∈ ns, n.Within d)
    (run : (commaList r).run ⟨q, none, ns⟩ = .done as c') : c' = ⟨q ++ textOf ns, none, []⟩ := by
  have rounds : (iterate (commaStep r) (ns.length + 1) []).run ⟨q, none, ns⟩ = .done as c' := run
  exact iterate_commaStep_stops within rounds

theorem selectors_run {list : SelectorList} (within : ∀ n ∈ ns, n.Within d)
    (read : Node.readSelectors ns = .ok list) :
    (selectors d).run ⟨q, none, ns⟩ = .done list ⟨q ++ textOf ns, none, []⟩ := by
  obtain ⟨result, c, run, _, same⟩ := selectors_finishes d within q
  rw [read] at same
  subst same
  have done : (selectors d).run ⟨q, none, ns⟩ = .done list c := run
  have stops : c = ⟨q ++ textOf ns, none, []⟩ := by
    cases d with
    | zero => exact commaList_stops within done
    | succ d => exact commaList_stops within done
  rw [done, stops]

end Walk

/-- Selectors are read back from their text, all of which the reader takes. -/
theorem selectors_round_trip {list : SelectorList} (nonempty : list ≠ [])
    (writable : Everywhere ComplexSelector.Writable list) :
    Node.readSelectors (Node.ofText list.render.toList) = .ok list ∧
      ∀ d, Node.heightOf (Node.ofText list.render.toList) ≤ d →
        (Walk.selectors d).run ⟨[], none, Node.ofText list.render.toList⟩ =
          .done list ⟨list.render.toList, none, []⟩ := by
  have read := Node.readSelectors_render nonempty
    (everywhere_mono (fun _ => ComplexSelector.Writable.readsBack) writable)
  refine ⟨read, fun d deep => ?_⟩
  have run := selectors_run (q := []) (Node.within_ofText deep) read
  rwa [List.nil_append, Node.textOf_ofText] at run

def nestedSelectors : SelectorList :=
  [[.className "--", .combinator .nextSibling, .identity "7"], [.pseudo .element "x" .none]]

def intricateSelectors : SelectorList :=
  [[.combinator .child, .element "1 a\né", .combinator .descendant,
      .hasAttribute ⟨"x y", some ⟨.startMatch, .quoted ⟨"'\n\"\\", '"'⟩, some "I"⟩⟩,
      .pseudo .classes "is" (.selectors nestedSelectors)],
    [.universal, .nesting]]

theorem writable_intricateSelectors : Everywhere ComplexSelector.Writable intricateSelectors := by
  have named : ∀ name ∈ ["1 a\né", "x y", "is", "--", "7", "x"], IsName name := by
    have all : ∀ name ∈ ["1 a\né", "x y", "is", "--", "7", "x"],
        name ≠ "" ∧ '\x00' ∉ name.toList := by decide
    exact fun name member => ⟨(all name member).1, (all name member).2⟩
  have condition : Attribute.Proper
      ⟨"x y", some ⟨.startMatch, .quoted ⟨"'\n\"\\", '"'⟩, some "I"⟩⟩ := by
    refine ⟨named _ (by simp), ?_⟩
    rintro t ⟨⟩
    exact ⟨⟨.inl rfl, by decide⟩, by simp⟩
  have takes : takesSelectors "is" := by decide +kernel
  have writable : ∀ s ∈ intricateSelectors ++ nestedSelectors, ComplexSelector.Writable s := by
    intro s member
    simp only [intricateSelectors, nestedSelectors, List.cons_append, List.nil_append,
      List.mem_cons, List.not_mem_nil, or_false] at member
    rcases member with rfl | rfl | rfl | rfl
    all_goals refine ⟨⟨⟨by simp, by simp, by simp [isCombinator], by simp [isCombinator]⟩, ?_⟩,
      ?_, ?_⟩
    all_goals simp [Component.Proper, Argument.Proper, Component.apart_iff, Component.endsWithName,
      Component.endsWithHyphens, Component.isElement, Component.Writable, AttributeValue.Legible,
      named, condition, takes]
  have nested : Everywhere ComplexSelector.Writable nestedSelectors :=
    ⟨⟨writable _ (by simp [nestedSelectors]), trivial, trivial, trivial, trivial⟩,
      ⟨writable _ (by simp [nestedSelectors]), trivial, trivial⟩, trivial⟩
  exact ⟨⟨writable _ (by simp [intricateSelectors]), trivial, trivial, trivial, trivial, nested,
      trivial⟩,
    ⟨writable _ (by simp [intricateSelectors]), trivial, trivial, trivial⟩, trivial⟩

theorem selectors_round_trip_intricate :
    intricateSelectors ≠ [] ∧ Everywhere ComplexSelector.Writable intricateSelectors ∧
      intricateSelectors.render =
        ">\\31 \\ a\\a é [x\\ y^=\"'\\a \\\"\\\\\" I]:is(.--+#\\37 , ::x), *&" ∧
      Node.readSelectors (Node.ofText intricateSelectors.render.toList) = .ok intricateSelectors ∧
      (Walk.selectors 2).run ⟨[], none, Node.ofText intricateSelectors.render.toList⟩ =
        .done intricateSelectors ⟨intricateSelectors.render.toList, none, []⟩ := by
  have nonempty : intricateSelectors ≠ [] := by simp [intricateSelectors]
  have printed : intricateSelectors.render =
      ">\\31 \\ a\\a é [x\\ y^=\"'\\a \\\"\\\\\" I]:is(.--+#\\37 , ::x), *&" := by decide +kernel
  obtain ⟨read, run⟩ := selectors_round_trip nonempty writable_intricateSelectors
  refine ⟨nonempty, writable_intricateSelectors, printed, read, run 2 ?_⟩
  rw [printed]
  decide +kernel

end CssOutline
