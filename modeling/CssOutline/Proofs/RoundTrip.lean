import CssOutline.Proofs.GrammarHeads
import CssOutline.Proofs.ReadBack

/-! Plain style sheets read back. Every line of a plain outline is one item, and each reads back as
its entry; so the text of the outline is read as the outline, as long as its blocks nest no deeper
than bodies are read. -/

namespace CssOutline

/-- How deep blocks nest. -/
def Outline.height : Outline → Nat
  | nil => 0
  | value _ _ rest => rest.height
  | block _ body rest => max (body.height + 1) rest.height

namespace Grammar

open Node (Stands gap semicolon)
open Lexer

section Lines

variable {place : Place} (style : place.context = .style)

theorem isStatement_layer (n : Name) : Outline.isStatement (Key.layer n).text "" := by
  have marked : Outline.isAtKey (Key.layer n).text := by
    rw [Outline.isAtKey, Key.text, String.toList_ofList]
    rfl
  simp [Outline.isStatement, marked]

theorem lineText_layer (n : Name) :
    Outline.lineText (Key.layer n).text "" = (Key.layer n).text.toList := by
  rw [Outline.lineText, if_pos (isStatement_layer n)]

theorem lineText_declaration (l : Label) (v : Groups) :
    Outline.lineText l.text (String.ofList v.chars) = l.chars ++ ':' :: ' ' :: v.chars := by
  have plain : Outline.isStatement l.text (String.ofList v.chars) = false := by
    obtain ⟨c, rest, same, _⟩ := v.visible
    simp [Outline.isStatement, same]
  rw [Outline.lineText, if_neg (by simp [plain])]
  simp [Label.text]

theorem stands_layer (n : Name) :
    Stands ';' (Outline.lineText (Key.layer n).text "") (Key.layer n).nodes := by
  rw [lineText_layer]
  exact (Key.layer n).stands (by decide)

theorem stands_declaration (l : Label) (v : Groups) :
    Stands ';' (Outline.lineText l.text (String.ofList v.chars))
      (l.node :: Node.colon :: gap [' '] :: v.nodes) := by
  rw [lineText_declaration]
  exact l.stands v

include style in
theorem endsAtSemicolon_layer (n : Name) : place.endsAtSemicolon (Key.layer n).nodes := by
  cases place with
  | sheet => rfl
  | body context =>
    obtain rfl : context = .style := style
    rfl

theorem endsAtSemicolon_declaration (l : Label) (v : Groups) :
    (Place.body .style).endsAtSemicolon (l.node :: Node.colon :: gap [' '] :: v.nodes) := by
  have kept : (l.node :: Node.colon :: gap [' '] :: v.nodes).all (!Sketch.endsItem ·) := by
    have inline := l.inline v
    simpa [Inline] using inline
  have word : l.node.isTrivia = false := by cases l <;> rfl
  unfold Place.endsAtSemicolon
  simp [kept, word]

theorem entriesAt_layer (n : Name) (room : Nat) :
    entriesAt room place ((Key.layer n).nodes ++ [semicolon]) =
      [((Key.layer n).text, .value "")] := by
  obtain ⟨clause, read, rendered⟩ := read_layer n (.inl rfl)
  have kept : ∀ m ∈ [gap [' '], n.node], Sketch.endsItem m = false :=
    Inline.cons rfl (inline_single rfl)
  have kind : atRuleKind Name.layer.text = "layer" := Name.layer.atRuleKind_text
  have key : atKey Name.layer.text clause = (Key.layer n).text :=
    Name.layer.atKey_text rendered (visible_of_isLower n.lower n.rest)
  have items : ∀ roomy, place.items roomy (Name.layer.atNode ::
      ([gap [' '], n.node] ++ semicolon :: [])) =
      [.rule (.statement .origin Name.layer.text clause)] := by
    intro roomy
    have statement : ∀ r, Sketch.ofAtRule r Name.layer.atNode Name.layer.text [gap [' '], n.node]
        (some semicolon) = .statement .origin Name.layer.text clause := by
      intro r
      rw [← read, ← kind]
      rfl
    rw [← List.cons_append, Place.items_atKeyword rfl kept rfl, statement, Place.items_nil]
  change entriesAt room place (Name.layer.atNode :: ([gap [' '], n.node] ++ semicolon :: [])) = _
  cases room with
  | zero =>
    rw [entriesAt, items]
    exact congrArg (fun k => [(k, Item.value "")]) key
  | succ room =>
    rw [entriesAt, items]
    exact congrArg (fun k => [(k, Item.value "")]) key

theorem entriesAt_declaration (l : Label) (v : Groups) (room : Nat) :
    entriesAt room (.body .style) (l.node :: Node.colon :: gap [' '] :: v.nodes ++ [semicolon]) =
      [(l.text, .value (String.ofList v.chars))] := by
  obtain ⟨d, read, entry⟩ := l.readDeclaration v
  have plain : ∀ m ∈ Node.colon :: gap [' '] :: v.nodes, m.isSemicolon = false :=
    fun m member => (Sketch.endsItem_eq_false.1
      (l.inline v m (by simp only [List.mem_cons] at member ⊢; exact .inr member))).1
  have items : ∀ roomy, (Place.body .style).items roomy
      (l.node :: ((Node.colon :: gap [' '] :: v.nodes) ++ semicolon :: [])) = [.declaration d] := by
    intro roomy
    rw [Place.items, Sketch.ofBody_ident l.token_node, Sketch.ofIdent, Sketch.upTo_cut plain rfl,
      read, Sketch.after_cut plain rfl]
    simp only
    rw [Sketch.ofBody.eq_def]
  change entriesAt room (.body .style)
    (l.node :: ((Node.colon :: gap [' '] :: v.nodes) ++ semicolon :: [])) = _
  cases room <;> simp only [entriesAt, items, List.filterMap_cons, List.filterMap_nil,
    Outlook.entryOf?, entry]

end Lines

theorem isAtKey_label (l : Label) : Outline.isAtKey l.text = false := by
  rw [Outline.isAtKey, Label.text, String.toList_ofList]
  cases l with
  | standard n => simp [Label.chars, Name.chars, ne_of_isLower n.lower (x := '@') rfl]
  | custom n => rfl

theorem Supported.compactBody? {inside : Bool} {body : Outline} (supported : Supported inside body)
    (key : String) : Outline.compactBody? key body = none := by
  cases supported with
  | nil => rfl
  | block k inner later => rfl
  | layer n later =>
    cases later <;> simp [Outline.compactBody?]
  | declaration l v later =>
    have other : Outline.isAtKey key → l.text ≠ key := by
      rintro marked rfl
      simp [isAtKey_label] at marked
    cases later <;> simp [Outline.compactBody?]
    intro marked same
    exact absurd same (other marked)

theorem Key.text_ne_empty (k : Key) : k.text ≠ "" := by
  obtain ⟨c, rest, same, _⟩ := k.visible
  simp [Key.text, same]

theorem Label.text_ne_empty (l : Label) : l.text ≠ "" := by
  obtain ⟨c, rest, same, _⟩ := l.visible
  simp [Label.text, same]

theorem Supported.layoutError? {inside : Bool} {d : Outline} (supported : Supported inside d) :
    d.layoutError? (!inside) = none := by
  induction supported with
  | nil => rfl
  | block k inner later below ih =>
    have inside : Outline.layoutError? false _ = none := below
    rw [Outline.layoutError?, if_neg k.text_ne_empty, ih, inside]
    rfl
  | layer n later ih =>
    rw [Outline.layoutError?, if_neg (Key.layer n).text_ne_empty,
      if_neg (by simp [isStatement_layer]), ih]
  | declaration l v later ih =>
    rw [Outline.layoutError?, if_neg l.text_ne_empty]
    exact ih

theorem Supported.selfContained {inside : Bool} {d : Outline} (supported : Supported inside d)
    {place : Place} (style : place.context = .style) (body : inside → place = .body .style) :
    Outline.SelfContained place d := by
  induction supported generalizing place with
  | nil => exact .nil
  | block k inner later below ih =>
    have context : Place.bodyContext (k.nodes ++ [gap [' ']]) = .style :=
      ((Place.opens?_eq_some (k.opens? style)).2 .style rfl).symm
    refine .block (inner.compactBody? k.text) (k.stands (by decide)) (k.endsAtBraces style) ?_
      (ih style body)
    rw [context]
    exact below rfl fun _ => rfl
  | layer n later ih =>
    exact .value (stands_layer n) (endsAtSemicolon_layer style n) (ih style body)
  | declaration l v later ih =>
    obtain rfl := body rfl
    exact .value (stands_declaration l v) (endsAtSemicolon_declaration l v) (ih style body)

theorem Supported.readsBack {inside : Bool} {d : Outline} (supported : Supported inside d)
    {place : Place} (style : place.context = .style) (body : inside → place = .body .style)
    {room : Nat} (fits : d.height ≤ room) : d.readsBack room place := by
  induction supported generalizing place room with
  | nil => rfl
  | @block inside k b r inner later below ih =>
    have deep : b.height + 1 ≤ room ∧ r.height ≤ room := by
      rw [Outline.height] at fits
      omega
    have room_ne : room ≠ 0 := by omega
    have head : Node.plain (k.text.toList ++ [' ']) = k.nodes ++ [gap [' ']] :=
      Node.plain_space (k.stands (by decide))
    rw [Outline.readsBack, inner.compactBody? k.text, head]
    simp only [k.opens? style]
    rw [below rfl (fun _ => rfl) (by omega), ih style body deep.2]
    simp [room_ne]
  | layer n later ih =>
    rw [Outline.readsBack, Node.plain_semicolon (stands_layer n), entriesAt_layer,
      ih style body fits]
    simp
  | declaration l v later ih =>
    obtain rfl := body rfl
    rw [Outline.readsBack, Node.plain_semicolon (stands_declaration l v), entriesAt_declaration,
      ih style body fits]
    simp

end Grammar

/-- The text of a plain outline, with any indent, reads back as the outline. -/
theorem decode_encode_plain {d : Outline} (supported : Grammar.Supported false d)
    (distinct : d.Distinct) (shallow : d.height ≤ 64) {indent : String}
    (blank : ∀ c ∈ indent.toList, Text.isBlank c) :
    ∃ text, d.encode indent = .ok text ∧ decode text = .ok d := by
  have contained : d.SelfContained .sheet := supported.selfContained rfl (by simp)
  have back : d.readsBack maxNesting .sheet := supported.readsBack rfl (by simp) shallow
  have encoded : ∃ text, d.encode indent = .ok text := by
    rw [Outline.encode, show d.layoutError? true = none from supported.layoutError?]
    exact ⟨_, rfl⟩
  obtain ⟨text, encoded⟩ := encoded
  exact ⟨text, encoded, (Outline.decode_encode_iff contained distinct blank encoded).2 back⟩

/-- A layer and a nested rule with a custom property and two groups of words. -/
def plainOutline : Outline :=
  .value "@layer ui" "" <|
    .block "@media print, (hover) and (width: 90px)"
      (.block "a:hover, .b>*" (.value "color" "red 010%, 1em" <| .value "--x" "y" .nil) .nil) .nil

theorem supported_plainOutline : Grammar.Supported false plainOutline := by
  let ninety : Grammar.Word :=
    .number ⟨'9', ['0'], rfl, List.all_eq_true.1 rfl⟩ (.unit 'p' ['x'] rfl (List.all_eq_true.1 rfl))
  let queries : Grammar.Many Grammar.Tests :=
    ⟨⟨.name (.ofChars 'p' ['r', 'i', 'n', 't'] rfl rfl), []⟩,
      [⟨.feature (.ofChars 'h' ['o', 'v', 'e', 'r'] rfl rfl) none,
        [.name (.ofChars 'a' ['n', 'd'] rfl rfl),
          .feature (.ofChars 'w' ['i', 'd', 't', 'h'] rfl rfl) (some ⟨⟨ninety, []⟩, []⟩)]⟩]⟩
  let hover : Grammar.Compound := ⟨some (.element (.ofChars 'a' [] rfl rfl)),
    [.pseudo (.ofChars 'h' ['o', 'v', 'e', 'r'] rfl rfl)], .inl rfl⟩
  let className : Grammar.Compound := ⟨none, [.className (.ofChars 'b' [] rfl rfl)], by simp⟩
  let tenth : Grammar.Word := .number ⟨'0', ['1', '0'], rfl, List.all_eq_true.1 rfl⟩ .percent
  let one : Grammar.Word :=
    .number ⟨'1', [], rfl, List.all_eq_true.1 rfl⟩ (.unit 'e' ['m'] rfl (List.all_eq_true.1 rfl))
  refine .layer (.ofChars 'u' ['i'] rfl rfl) (.block (.media queries) ?_ .nil)
  refine .block (.style ⟨⟨hover, []⟩, [⟨className, [(.child, ⟨some .universal, [], .inl rfl⟩)]⟩]⟩) ?_ .nil
  refine .declaration (.standard (.ofChars 'c' ['o', 'l', 'o', 'r'] rfl rfl))
    ⟨⟨.name (.ofChars 'r' ['e', 'd'] rfl rfl), [tenth]⟩, [⟨one, []⟩]⟩ ?_
  exact .declaration (.custom (.ofChars 'x' [] rfl rfl))
    ⟨⟨.name (.ofChars 'y' [] rfl rfl), []⟩, []⟩ .nil

theorem distinct_plainOutline : plainOutline.Distinct := by
  refine .value (by decide) (.block (by decide) (.block (by decide) ?_ .nil) .nil)
  exact .value (by decide) (.value (by decide) .nil)

theorem decode_encode_plain_plainOutline :
    Grammar.Supported false plainOutline ∧ plainOutline.Distinct ∧ plainOutline.height ≤ 64 ∧
    ∃ text, plainOutline.encode " \t" = .ok text ∧ decode text = .ok plainOutline :=
  ⟨supported_plainOutline, distinct_plainOutline, by decide,
    decode_encode_plain supported_plainOutline distinct_plainOutline (by decide)
      (List.all_eq_true.1 rfl)⟩

end CssOutline
