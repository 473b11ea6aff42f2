import CssOutline.Proofs.ReadBack

/-! Outlines with a line that does not end. A custom property whose text leaves a block open takes
in all the text after it, and is still read as itself. So the outline comes back exactly if each
line reads back and nothing stands after that one. -/

namespace CssOutline

namespace Piece

def isFirm (p : Piece) : Bool :=
  match p.kind with
  | .comma => true
  | .block => true
  | .word (.keyword _) => false
  | .word _ => true
  | _ => false

section Marks

variable {q : Piece} {ps : List Piece}

theorem markImportant_of_ne (plain : q.kind ≠ .bang) :
    markImportant (q :: ps) = q :: markImportant ps := by
  rw [markImportant.eq_def]
  simp only

theorem markImportant_of_some (bang : q.kind = .bang) {t : List Char} {rest : List Piece}
    (found : importantAfter? ps = some (t, rest)) :
    markImportant (q :: ps) = ⟨.important, q.text ++ t, q.text ++ t⟩ :: markImportant rest := by
  rw [markImportant.eq_def]
  simp only [bang]
  split
  · rename_i same
    rw [found] at same
    cases same
    rfl
  · rename_i same
    rw [found] at same
    cases same

theorem markImportant_of_none (bang : q.kind = .bang) (none : importantAfter? ps = none) :
    markImportant (q :: ps) = q :: markImportant ps := by
  rw [markImportant.eq_def]
  simp only [bang]
  split
  · rename_i same
    rw [none] at same
    cases same
  · rfl

end Marks

variable {p : Piece} (firm : p.isFirm)

include firm

theorem importantAfter?_cons (ps : List Piece) : importantAfter? (p :: ps) = none := by
  unfold isFirm at firm
  rw [importantAfter?]
  split
  · simp_all
  · simp_all
  · rfl

theorem importantAfter?_append (ps : List Piece) :
    importantAfter? (ps ++ [p]) = (importantAfter? ps).map fun (t, rest) => (t, rest ++ [p]) := by
  induction ps with
  | nil => exact importantAfter?_cons firm []
  | cons q ps ih =>
    rw [List.cons_append, importantAfter?, importantAfter?, ih]
    split
    · cases importantAfter? ps <;> rfl
    · split <;> rfl
    · rfl

theorem markImportant_append (ps : List Piece) :
    markImportant (ps ++ [p]) = markImportant ps ++ [p] := by
  fun_induction markImportant ps with
  | case1 =>
    have plain : p.kind ≠ .bang := by
      intro same
      simp [isFirm, same] at firm
    rw [List.nil_append, markImportant_of_ne plain, markImportant.eq_def]
  | case2 q ps bang t rest found _ ih =>
    have later : importantAfter? (ps ++ [p]) = some (t, rest ++ [p]) := by
      rw [importantAfter?_append firm, found]
      rfl
    rw [List.cons_append, markImportant_of_some bang later, ih, List.cons_append]
  | case3 q ps bang none ih =>
    have later : importantAfter? (ps ++ [p]) = .none := by
      rw [importantAfter?_append firm, none]
      rfl
    rw [List.cons_append, markImportant_of_none bang later, ih, List.cons_append]
  | case4 q ps plain ih =>
    rw [List.cons_append, markImportant_of_ne plain, ih, List.cons_append]

theorem tokenSource_append (ps : List Piece) :
    tokenSource (ps ++ [p]) = ps.flatMap text ++ p.head := by
  have outside : p.isOutside = false := by
    unfold isFirm at firm
    unfold isOutside
    split <;> simp_all
  rw [tokenSource, List.reverse_append, List.reverse_singleton, List.singleton_append,
    List.dropWhile_cons_of_neg (by simp [outside])]
  simp

theorem isImportant_of_isFirm : p.isImportant = false := by
  unfold isFirm at firm
  unfold isImportant
  split <;> simp_all

end Piece

namespace Node

section Open

variable {opening : Lexeme} (opens : opening.token.closing?.isSome)

include opens

theorem pieces_block (lead : Option (List Char)) (inside : List Node) :
    ∃ p : Piece, pieces lead [block opening inside none] = [p] ∧ p.isFirm ∧
      p.head = lead.getD [] ++ opening.text := by
  obtain ⟨t, text, start⟩ := opening
  cases t <;> simp only [Token.closing?, Option.isSome_none, Bool.false_eq_true] at opens
  case function name =>
    have word : ∃ v, value? (lead.getD []) (block ⟨.function name, text, start⟩ inside none) =
        some v ∧ ∀ k, v ≠ .keyword k := by
      rw [value?]
      simp only
      split
      · exact ⟨_, rfl, by simp⟩
      · exact ⟨_, rfl, by simp⟩
      · refine ⟨_, rfl, ?_⟩
        unfold callValue
        split <;> simp
    obtain ⟨v, value, other⟩ := word
    rw [pieces.eq_def]
    refine ⟨_, rfl, ?_, rfl⟩
    simp only [token, value, Piece.isFirm]
  all_goals
    rw [pieces.eq_def]
    refine ⟨_, rfl, ?_, rfl⟩
    simp [Piece.isFirm, value?, token]

omit opens in
theorem exists_pieces_cons (lead : Option (List Char)) (n : Node) :
    ∃ front lead', ∀ more, pieces lead (n :: more) = front ++ pieces lead' more := by
  by_cases comment : n.token = .comment
  · refine ⟨[], lead.map (· ++ n.text), fun more => ?_⟩
    rw [pieces.eq_def]
    simp [comment]
  by_cases blank : n.token = .whitespace
  · cases lead with
    | none =>
      refine ⟨[], none, fun more => ?_⟩
      rw [pieces.eq_def]
      simp [blank]
    | some l =>
      refine ⟨[⟨.space, l ++ n.text, l ++ n.text⟩], some [], fun more => ?_⟩
      rw [pieces.eq_def]
      simp [blank]
  · refine ⟨pieces lead [n], some [], fun more => ?_⟩
    rw [pieces.eq_def, pieces.eq_def lead [n]]
    simp only
    split
    · contradiction
    · contradiction
    · contradiction
    · rw [pieces.eq_def (some []) []]
      rfl

theorem readCustom_block (ns inside inside' : List Node) :
    readCustom (ns ++ [block opening inside none]) =
      readCustom (ns ++ [block opening inside' none]) := by
  have last : ∀ (ns : List Node) (lead : Option (List Char)), ∃ ps head, ∀ inside, ∃ p : Piece,
      pieces lead (ns ++ [block opening inside none]) = ps ++ [p] ∧ p.isFirm ∧ p.head = head := by
    intro ns
    induction ns with
    | nil =>
      intro lead
      exact ⟨[], _, fun inside => pieces_block opens lead inside⟩
    | cons n ns ih =>
      intro lead
      obtain ⟨front, lead', step⟩ := exists_pieces_cons lead n
      obtain ⟨ps, head, same⟩ := ih lead'
      refine ⟨front ++ ps, head, fun inside => ?_⟩
      obtain ⟨p, whole, firm⟩ := same inside
      exact ⟨p, by rw [List.cons_append, step, whole, List.append_assoc], firm⟩
  obtain ⟨ps, head, same⟩ := last ns none
  have read : ∀ inside, readCustom (ns ++ [block opening inside none]) =
      (.raw (String.ofList ((Piece.markImportant ps).flatMap Piece.text ++ head)),
        (Piece.markImportant ps).any Piece.isImportant) := by
    intro inside
    obtain ⟨p, pieces, firm, rfl⟩ := same inside
    rw [readCustom, pieces, Piece.markImportant_append firm, Piece.tokenSource_append firm]
    simp [Piece.isImportant_of_isFirm firm]
  rw [read, read]

theorem readDeclaration_block {n : Node} {rest : List Node} (custom : startsCustom (n :: rest)) :
    ∃ name d, n.token = .ident name ∧ ∀ inside,
      Sketch.readDeclaration name (rest ++ [block opening inside none]) = .ok d := by
  rw [startsCustom] at custom
  split at custom
  · rename_i name ident colon
    cases first : dropTrivia rest with
    | nil => simp [first] at colon
    | cons m later =>
      have isColon : m.token = .colon := by simpa [first] using colon
      refine ⟨name, ⟨Property.parse name, (readCustom (later ++ [block opening [] none])).1,
        (readCustom (later ++ [block opening [] none])).2⟩, ident, fun inside => ?_⟩
      have whole : dropTrivia (rest ++ [block opening inside none]) =
          m :: (later ++ [block opening inside none]) := by
        rw [dropTrivia, List.dropWhile_append, ← dropTrivia, first]
        rfl
      rw [Sketch.readDeclaration, whole]
      simp [isColon, custom, readCustom_block opens later inside []]
  · cases custom

theorem entriesAt_custom {front : List Node} (custom : startsCustom front)
    (plain : ∀ n ∈ front, n.isSemicolon = false) :
    ∃ e, ∀ room inside, entriesAt room (.body .style) (front ++ [block opening inside none]) =
      [e] := by
  obtain _ | ⟨n, rest⟩ := front
  · cases custom
  obtain ⟨name, d, ident, declared⟩ := readDeclaration_block opens custom
  have kept : ∀ inside, ∀ m ∈ rest ++ [block opening inside none], m.isSemicolon = false := by
    intro inside m member
    rcases List.mem_append.1 member with inRest | last
    · exact plain m (by simp [inRest])
    · rw [List.mem_singleton.1 last]
      by_contra semicolon
      have same : opening.token = .semicolon := by simpa [isSemicolon, token] using semicolon
      simp [same, Token.closing?] at opens
  have items : ∀ roomy inside, (Place.body .style).items roomy
      (n :: rest ++ [block opening inside none]) = [.declaration d] := by
    intro roomy inside
    have all : Sketch.upTo isSemicolon (rest ++ [block opening inside none]) =
        rest ++ [block opening inside none] :=
      List.takeWhile_eq_self_iff.2 (by simpa using kept inside)
    have nothing : Sketch.after isSemicolon (rest ++ [block opening inside none]) = [] := by
      rw [Sketch.after, List.dropWhile_eq_nil_iff.2 (by simpa using kept inside)]
      rfl
    rw [List.cons_append, Place.items, Sketch.ofBody_ident ident, Sketch.ofIdent, all, declared,
      nothing]
    simp only
    rw [Sketch.ofBody.eq_def]
  refine ⟨(d.entry.1, .value d.entry.2), fun room inside => ?_⟩
  cases room with
  | zero =>
    rw [entriesAt, items]
    rfl
  | succ room =>
    rw [entriesAt, items]
    rfl

end Open

/-- Up to its end the text is read as these nodes, and none of the open blocks ends. -/
def Ends (cs : List Char) (ns : List Node) : Prop :=
  ∀ stack siblings, OnlyBraces stack →
    build stack siblings (Lexer.plain cs) = finish stack (ns.reverse ++ siblings)

theorem Ends.plain {cs : List Char} {ns : List Node} (ends : Ends cs ns) : plain cs = ns := by
  rw [Node.plain, ends [] [] (by simp [OnlyBraces])]
  simp [finish]

end Node

namespace Outline

open Node (Stands Ends gap semicolon braces curly)

/-- The lines of an outline up to one that takes in all the text after it, which includes the text
`after` the outline. It is a custom property and leaves a block open. The last index says whether
an entry comes after that line. -/
inductive Overrun (indent : List Char) :
    Place → Nat → Outline → List Char → List Node → Bool → Prop
  | line {depth : Nat} {key text : String} {rest : Outline} {after : List Char}
    {front taken alone : List Node} {opening : Lexeme} (opens : opening.token.closing?.isSome)
    (custom : Node.startsCustom front) (plain : ∀ n ∈ front, n.isSemicolon = false)
    (solid : ∃ c cs, lineText key text = c :: cs ∧ Text.isBlank c = false)
    (whole : Ends (lineText key text ++ ';' :: (rest.spread indent depth ++ after))
      (front ++ [.block opening taken none]))
    (single : Ends (lineText key text ++ [';']) (front ++ [.block opening alone none])) :
    Overrun indent (.body .style) depth (value key text rest) after
      (gap ('\n' :: pad indent depth) :: (front ++ [.block opening taken none])) (!rest.isEmpty)
  | inside {place : Place} {depth : Nat} {key : String} {body rest : Outline} {after : List Char}
    {ns inside : List Node} {hidden : Bool} (open_ : compactBody? key body = none)
    (head : Stands ' ' key.toList ns) (ends : place.endsAtBraces (ns ++ [gap [' ']]))
    (inner : Overrun indent (.body (Place.bodyContext (ns ++ [gap [' ']]))) (depth + 1) body
      ('\n' :: (pad indent depth ++ '\x7d' :: (rest.spread indent depth ++ after))) inside hidden) :
    Overrun indent place depth (block key body rest) after
      (gap ('\n' :: pad indent depth) :: (ns ++ [gap [' ']] ++ [curly none inside]))
      (hidden || !rest.isEmpty)
  | value {place : Place} {depth : Nat} {key text : String} {rest : Outline} {after : List Char}
    {ns more : List Node} {hidden : Bool} (line : Stands ';' (lineText key text) ns)
    (ends : place.endsAtSemicolon ns) (later : Overrun indent place depth rest after more hidden) :
    Overrun indent place depth (value key text rest) after
      (gap ('\n' :: pad indent depth) :: (ns ++ semicolon :: more)) hidden
  | compact {place : Place} {depth : Nat} {key text : String} {body rest : Outline}
    {after : List Char} {ns ms more : List Node} {hidden : Bool}
    (kept : compactBody? key body = some text) (head : Stands ' ' key.toList ns)
    (ends : place.endsAtBraces (ns ++ [gap [' ']])) (inside : Stands ';' text.toList ms)
    (later : Overrun indent place depth rest after more hidden) :
    Overrun indent place depth (block key body rest) after
      (gap ('\n' :: pad indent depth) :: (ns ++ [gap [' ']] ++
        braces (gap [' '] :: (ms ++ [semicolon, gap [' ']])) :: more)) hidden
  | block {place : Place} {depth : Nat} {key : String} {body rest : Outline} {after : List Char}
    {ns inside more : List Node} {hidden : Bool} (open_ : compactBody? key body = none)
    (head : Stands ' ' key.toList ns) (ends : place.endsAtBraces (ns ++ [gap [' ']]))
    (inner : Laid indent (.body (Place.bodyContext (ns ++ [gap [' ']]))) (depth + 1) body inside)
    (later : Overrun indent place depth rest after more hidden) :
    Overrun indent place depth (block key body rest) after
      (gap ('\n' :: pad indent depth) :: (ns ++ [gap [' ']] ++
        braces (inside ++ [gap ('\n' :: pad indent depth)]) :: more)) hidden

section Lines

variable {indent : List Char} {place : Place} {depth : Nat} {d : Outline} {after : List Char}
  {ns : List Node} {hidden : Bool}

theorem Overrun.ends (blank : ∀ c ∈ indent, Text.isBlank c)
    (overrun : Overrun indent place depth d after ns hidden) :
    Ends (d.spread indent depth ++ after) ns := by
  induction overrun with
  | @line depth key text rest after front taken alone opening _ _ _ solid whole _ =>
    intro stack siblings only
    have start : ∀ s ∈ (lineText key text ++ ';' :: (rest.spread indent depth ++ after)).head?,
        Text.isBlank s = false := by
      obtain ⟨c, cs, same, solid⟩ := solid
      simpa [same] using solid
    simp only [spread, List.cons_append, List.append_assoc]
    rw [Node.build_gap only _ _ rfl (isBlank_pad blank depth) start, whole _ _ only]
    simp
  | @inside place depth key body rest after ns inside hidden open_ head _ _ inner =>
    intro stack siblings only
    have deeper : Node.OnlyBraces (⟨⟨.openCurly, ['\x7b'], .origin⟩,
        gap [' '] :: (ns.reverse ++ gap ('\n' :: pad indent depth) :: siblings)⟩ :: stack) := by
      intro f member
      rcases List.mem_cons.1 member with rfl | later
      · rfl
      · exact only f later
    have below := inner _ [] deeper
    rw [List.append_nil] at below
    simp only [spread, open_, List.cons_append, List.append_assoc]
    rw [Node.build_gap only _ _ rfl (isBlank_pad blank depth) (head.solid _), head.2 _ _ _ only,
      Node.build_space only _ _ (by simp; rfl), Lexer.plain_openCurly, Node.build_open rfl, below,
      Node.finish]
    simp [curly]
  | value line _ _ ih =>
    intro stack siblings only
    simp only [spread, List.cons_append, List.append_assoc]
    rw [build_valueLine blank _ only _ _ line, ih _ _ only]
    simp
  | @compact _ depth key text body rest after ns ms more _ kept head _ inside _ ih =>
    intro stack siblings only
    have line := build_blockLine blank depth only siblings (rest.spread indent depth ++ after) head
      fun stack siblings only => inside.build_compact only siblings _
    rw [ih _ _ only] at line
    simpa [spread, kept] using line
  | @block _ depth key body rest after ns inside more _ open_ head _ inner _ ih =>
    intro stack siblings only
    have line := build_blockLine blank depth only siblings (rest.spread indent depth ++ after) head
      fun stack siblings only => build_body blank depth only siblings _ fun rest =>
        inner.build blank only siblings rest
    rw [ih _ _ only] at line
    simpa [spread, open_] using line

theorem Overrun.ne_nil (overrun : Overrun indent place depth d after ns hidden) : d ≠ .nil := by
  cases overrun <;> simp

theorem Overrun.textOf_ne_nil (overrun : Overrun indent place depth d after ns hidden) :
    Node.textOf ns ≠ [] := by
  cases overrun <;> simp [Node.textOf, Node.text, gap]

theorem Overrun.solid (overrun : Overrun indent place 0 d after ns hidden) :
    ∀ s ∈ (d.spread indent 0 ++ after).tail.head?, Text.isBlank s = false := by
  cases overrun with
  | line _ _ _ solid _ _ => exact solid_value solid _ _ _
  | value line _ _ => exact solid_value line.1 _ _ _
  | inside _ head _ _ => exact solid_block head.1 _ _ _ _
  | compact _ head _ _ _ => exact solid_block head.1 _ _ _ _
  | block _ head _ _ _ => exact solid_block head.1 _ _ _ _

theorem Overrun.entriesAt_iff (blank : ∀ c ∈ indent, Text.isBlank c)
    (overrun : Overrun indent place depth d after ns hidden) (distinct : d.Distinct) {room : Nat}
    (roomy : place = .sheet → room ≠ 0) :
    (entriesAt room place ns).length ≤ d.entries.length ∧
      (entriesAt room place ns = d.entries ↔ hidden = false ∧ d.readsBack room place) := by
  -- That there are no more entries than in the outline goes along, since an entry that is missing
  -- from the front could else be made up for by one at the end.
  induction overrun generalizing room with
  | @line depth key text rest after front taken alone opening opens custom plain _ _ single =>
    obtain ⟨e, same⟩ := Node.entriesAt_custom opens custom plain
    have readsBack : (Outline.value key text .nil).readsBack room (.body .style) ↔
        e = (key, .value text) := by
      rw [Outline.readsBack, single.plain, same]
      simp [Outline.readsBack]
    rw [entriesAt_gap, same, entries, readsBack_value, Bool.and_eq_true, readsBack]
    refine ⟨by simp, ?_⟩
    cases rest <;> simp [entries, isEmpty, Outline.readsBack]
  | @inside place depth key body rest after ns inside hidden open_ head ends inner below =>
    obtain _ | _ | ⟨_, distinctBody, _⟩ := distinct
    have filled : 1 < (curly none inside).text.length := by
      have text := List.length_pos_of_ne_nil inner.textOf_ne_nil
      simp only [curly, Node.text, List.length_append, List.length_cons, List.length_nil]
      omega
    have none_left : (entriesAt room place []).length ≤ rest.entries.length := by
      simp [entriesAt_nil]
    obtain ⟨length, split⟩ := entriesAt_block_iff roomy ends filled none_left _ _
    have inner_iff : ∀ room, outlineAt room (.body (Place.bodyContext (ns ++ [gap [' ']]))) inside =
        body ↔ hidden = false ∧
          body.readsBack room (.body (Place.bodyContext (ns ++ [gap [' ']]))) := by
      intro room
      obtain ⟨few, same⟩ := below distinctBody (by simp)
      rw [outlineAt, mergeAll_eq_iff distinctBody.nodup_keys few, same]
    have single := readsBack_block_iff roomy ends filled open_ head inner_iff
      fun empty => absurd empty inner.ne_nil
    refine ⟨length, ?_⟩
    rw [split, ← single, readsBack_block, entriesAt_nil]
    cases rest <;> simp [entries, isEmpty, Outline.readsBack]
  | value line ends _ ih =>
    obtain _ | ⟨_, distinct⟩ := distinct
    obtain ⟨few, same⟩ := ih distinct roomy
    obtain ⟨length, split⟩ := entriesAt_value_iff ends few _ _
    refine ⟨length, ?_⟩
    rw [split, same, readsBack_value, Bool.and_eq_true, readsBack_value_iff line]
    exact and_left_comm
  | compact kept head ends inside _ ih =>
    obtain _ | _ | ⟨_, _, distinct⟩ := distinct
    obtain ⟨few, same⟩ := ih distinct roomy
    obtain ⟨length, split⟩ := entriesAt_block_iff roomy ends (Node.one_lt_length_braces _) few _ _
    refine ⟨length, ?_⟩
    rw [split, same, readsBack_block, Bool.and_eq_true, readsBack_compact_iff kept head inside]
    exact and_left_comm
  | block open_ head ends inner _ ih =>
    obtain _ | _ | ⟨_, distinctBody, distinct⟩ := distinct
    obtain ⟨few, same⟩ := ih distinct roomy
    obtain ⟨length, split⟩ := entriesAt_block_iff roomy ends (Node.one_lt_length_braces _) few _ _
    have single := inner.readsBack_iff blank roomy ends open_ head distinctBody fun room =>
      inner.entriesAt_iff blank distinctBody (by simp) _
    refine ⟨length, ?_⟩
    rw [split, same, readsBack_block, Bool.and_eq_true, single]
    exact and_left_comm

end Lines

/-- An outline with a line that takes in the rest comes back from its text exactly if each line
reads back and none is hidden. -/
theorem decode_encode_iff_of_overrun {d : Outline} {indent text : String} {ns : List Node}
    {hidden : Bool} (overrun : Overrun indent.toList .sheet 0 d ['\n'] ns hidden)
    (distinct : d.Distinct) (blank : ∀ c ∈ indent.toList, Text.isBlank c)
    (encoded : d.encode indent = .ok text) :
    decode text = .ok d ↔ hidden = false ∧ d.readsBack maxNesting .sheet := by
  have written := toList_of_encode encoded
  have roomy : Place.sheet = .sheet → maxNesting ≠ 0 := by simp [maxNesting]
  obtain ⟨few, same⟩ := overrun.entriesAt_iff blank distinct roomy
  have nodes : Node.plain ('\n' :: text.toList) = ns := by
    rw [written]
    exact (overrun.ends blank).plain
  have solid := overrun.solid
  rw [← written] at solid
  rw [← same]
  exact decode_eq_ok_iff distinct solid nodes few fun empty => absurd empty overrun.ne_nil

end Outline

end CssOutline
