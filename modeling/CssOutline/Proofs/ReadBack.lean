import CssOutline.Proofs.Lines
import Mathlib.Data.List.TakeWhile

/-! When a written outline reads back. If every line of it is read as one item of its own, the
whole reads back exactly if each line does by itself: the line of a value as that value, the head
of a block as its key. -/

namespace CssOutline

namespace Node

theorem plain_semicolon {cs : List Char} {ns : List Node} (stands : Stands ';' cs ns) :
    plain (cs ++ [';']) = ns ++ [semicolon] := by
  have empty : OnlyBraces [] := by simp [OnlyBraces]
  rw [plain, stands.2 [] [] [] empty, build_semicolon empty, Lexer.plain_nil]
  simp [build, finish]

theorem plain_space {cs : List Char} {ns : List Node} (stands : Stands ' ' cs ns) :
    plain (cs ++ [' ']) = ns ++ [gap [' ']] := by
  have empty : OnlyBraces [] := by simp [OnlyBraces]
  rw [plain, stands.2 [] [] [] empty, build_space empty _ _ (by simp), Lexer.plain_nil]
  simp [build, finish]

theorem plain_compact {key text : List Char} {ns ms : List Node} (head : Stands ' ' key ns)
    (inside : Stands ';' text ms) :
    plain (key ++ ' ' :: '\x7b' :: (' ' :: (text ++ [';', ' ']) ++ ['\x7d'])) =
      ns ++ [gap [' '], braces (gap [' '] :: (ms ++ [semicolon, gap [' ']]))] := by
  have empty : OnlyBraces [] := by simp [OnlyBraces]
  rw [plain, head.build_braces empty [] [] fun stack siblings only =>
    inside.build_compact only siblings [], Lexer.plain_nil]
  simp [build, finish]

end Node

namespace Outline

open Node (Stands gap semicolon braces)

/-- Each line of the outline by itself is read as its entry. The head of a block has to be read as
a rule with its key, and then the lines of the block as well. -/
def readsBack (room : Nat) (place : Place) : Outline → Bool
  | nil => true
  | value key text rest =>
    decide (entriesAt room place (Node.plain (lineText key text ++ [';'])) =
      [(key, .value text)]) && rest.readsBack room place
  | block key body rest =>
    (match compactBody? key body with
    | some text =>
      decide (entriesAt room place (Node.plain
        (key.toList ++ ' ' :: '\x7b' :: (' ' :: (text.toList ++ [';', ' ']) ++ ['\x7d']))) =
        [(key, .block body)])
    | none =>
      match place.opens? (Node.plain (key.toList ++ [' '])) with
      | some (head, some context) =>
        room != 0 && head == key && body.readsBack (room - 1) (.body context)
      | some (head, none) => room != 0 && head == key && body == nil
      | none => false) && rest.readsBack room place

theorem compactBody?_verbatimBlock {key : String} (marked : isAtKey key) (text : String) :
    verbatimBlock key text = nil ∨ compactBody? key (verbatimBlock key text) ≠ none := by
  rcases eq_or_ne (verbatimBody text) "" with empty | kept
  · rw [verbatimBlock, if_pos empty]
    exact .inl rfl
  · rw [verbatimBlock, if_neg kept]
    simp [compactBody?, marked, kept]

theorem verbatimBlock_of_blank (key : String) {cs : List Char} (blank : ∀ c ∈ cs, Text.isBlank c) :
    verbatimBlock key (String.ofList (Text.trim cs)) = nil := by
  have trimmed : Text.trim cs = [] := by
    have start : Text.trimStart cs = [] := by
      rw [Text.trimStart, List.dropWhile_eq_nil_iff]
      exact fun c member => Text.isWhiteSpace_of_isBlank (blank c member)
    rw [Text.trim, start]
    rfl
  rw [trimmed]
  rfl

section Steps

variable {room : Nat} {place : Place} {front more : List Node} {key : String} {rest : Outline}

theorem append_eq_cons_iff_of_length {α : Type} {es fs xs : List α} {x : α}
    (single : es.length ≤ 1) (few : fs.length ≤ xs.length) :
    es ++ fs = x :: xs ↔ es = [x] ∧ fs = xs := by
  constructor
  · intro same
    have total := congrArg List.length same
    rw [List.length_append, List.length_cons] at total
    match es, single, same, total with
    | [], _, _, total => simp only [List.length_nil] at total; omega
    | [e], _, same, _ => simpa using same
  · rintro ⟨rfl, rfl⟩
    rfl

theorem entriesAt_value_iff (ends : place.endsAtSemicolon front)
    (few : (entriesAt room place more).length ≤ rest.entries.length) (blanks : List Char)
    (text : String) :
    (entriesAt room place (gap blanks :: (front ++ semicolon :: more))).length ≤
        (value key text rest).entries.length ∧
      (entriesAt room place (gap blanks :: (front ++ semicolon :: more)) =
        (value key text rest).entries ↔
      entriesAt room place (front ++ [semicolon]) = [(key, .value text)] ∧
        entriesAt room place more = rest.entries) := by
  obtain ⟨cut, single⟩ := entriesAt_semicolon room ends more
  rw [entriesAt_gap, cut, entries, append_eq_cons_iff_of_length single few, List.length_append,
    List.length_cons]
  exact ⟨by omega, Iff.rfl⟩

variable (roomy : place = .sheet → room ≠ 0) (ends : place.endsAtBraces front)
  {closing : Option Lexeme} {inside : List Node}
  (filled : 1 < (Node.curly closing inside).text.length)

include roomy ends filled

theorem entriesAt_block_iff (few : (entriesAt room place more).length ≤ rest.entries.length)
    (blanks : List Char) (body : Outline) :
    (entriesAt room place (gap blanks :: (front ++ Node.curly closing inside :: more))).length ≤
        (block key body rest).entries.length ∧
      (entriesAt room place (gap blanks :: (front ++ Node.curly closing inside :: more)) =
        (block key body rest).entries ↔
      entriesAt room place (front ++ [Node.curly closing inside]) = [(key, .block body)] ∧
        entriesAt room place more = rest.entries) := by
  obtain ⟨cut, single⟩ := entriesAt_curly room roomy ends filled more
  rw [entriesAt_gap, cut, entries, append_eq_cons_iff_of_length single few, List.length_append,
    List.length_cons]
  exact ⟨by omega, Iff.rfl⟩

/-- The head of a block has to be read as a rule with its key, and then the block as its body. A
body kept as text is empty, or it would be written on one line. -/
theorem entriesAt_open_iff {body : Outline} (open_ : compactBody? key body = none)
    (blank : body = nil → ∀ c ∈ Node.textOf inside, Text.isBlank c) :
    entriesAt room place (front ++ [Node.curly closing inside]) = [(key, .block body)] ↔
      match place.opens? front with
      | some (head, some _) => room ≠ 0 ∧ head = key ∧
        outlineAt (room - 1) (.body (Place.bodyContext front)) inside = body
      | some (head, none) => room ≠ 0 ∧ head = key ∧ body = nil
      | none => False := by
  rw [entriesAt_curly_single room roomy ends filled]
  cases opened : place.opens? front with
  | none => cases room <;> simp
  | some pair =>
    obtain ⟨head, how⟩ := pair
    obtain ⟨marked, sameContext⟩ := Place.opens?_eq_some opened
    cases room with
    | zero => cases how <;> simp
    | succ room =>
      cases how with
      | some context => simp [sameContext context rfl]
      | none =>
        have kept : head = key → (verbatimBlock head (String.ofList (Text.trim (Node.textOf inside))) =
            body ↔ body = .nil) := by
          rintro rfl
          constructor
          · rintro rfl
            exact (compactBody?_verbatimBlock (marked rfl) _).resolve_right (absurd open_)
          · intro empty
            rw [empty]
            exact verbatimBlock_of_blank head (blank empty)
        by_cases same : head = key
        · simp [same, ← kept same]
        · simp [same]

end Steps

section Single

variable {room : Nat} {place : Place} {key text : String} {body : Outline} {ns ms : List Node}

theorem readsBack_value (rest : Outline) : (value key text rest).readsBack room place =
    ((value key text nil).readsBack room place && rest.readsBack room place) := by
  simp [readsBack]

theorem readsBack_block (rest : Outline) : (block key body rest).readsBack room place =
    ((block key body nil).readsBack room place && rest.readsBack room place) := by
  simp [readsBack]

theorem readsBack_value_iff (line : Stands ';' (lineText key text) ns) :
    (value key text nil).readsBack room place ↔
      entriesAt room place (ns ++ [semicolon]) = [(key, .value text)] := by
  rw [readsBack, Node.plain_semicolon line]
  simp [readsBack]

theorem readsBack_compact_iff (kept : compactBody? key body = some text)
    (head : Stands ' ' key.toList ns) (inside : Stands ';' text.toList ms) :
    (block key body nil).readsBack room place ↔
      entriesAt room place (ns ++ [gap [' ']] ++
        [braces (gap [' '] :: (ms ++ [semicolon, gap [' ']]))]) = [(key, .block body)] := by
  rw [readsBack, kept]
  simp only [Node.plain_compact head inside]
  simp [readsBack]

/-- A block reads back if its head does and, where the text of the block is read as its body only
under a condition, if that holds as well. -/
theorem readsBack_block_iff (roomy : place = .sheet → room ≠ 0)
    (ends : place.endsAtBraces (ns ++ [gap [' ']])) {closing : Option Lexeme} {inside : List Node}
    (filled : 1 < (Node.curly closing inside).text.length) (open_ : compactBody? key body = none)
    (head : Stands ' ' key.toList ns) {whole : Prop}
    (inner : ∀ room, outlineAt room (.body (Place.bodyContext (ns ++ [gap [' ']]))) inside = body ↔
      whole ∧ body.readsBack room (.body (Place.bodyContext (ns ++ [gap [' ']]))))
    (empty : body = nil → whole ∧ ∀ c ∈ Node.textOf inside, Text.isBlank c) :
    whole ∧ (block key body nil).readsBack room place ↔
      entriesAt room place (ns ++ [gap [' ']] ++ [Node.curly closing inside]) =
        [(key, .block body)] := by
  rw [entriesAt_open_iff roomy ends filled open_ fun none => (empty none).2, readsBack, open_,
    Node.plain_space head]
  cases opened : place.opens? (ns ++ [gap [' ']]) with
  | none => simp
  | some pair =>
    obtain ⟨head', how⟩ := pair
    cases how with
    | some context =>
      rw [(Place.opens?_eq_some opened).2 context rfl]
      simp only [inner, readsBack, Bool.and_true, Bool.and_eq_true, bne_iff_ne, beq_iff_eq]
      tauto
    | none =>
      have always : body = nil → whole := fun none => (empty none).1
      simp only [readsBack, Bool.and_true, Bool.and_eq_true, bne_iff_ne, beq_iff_eq]
      tauto

end Single

section Lines

variable {indent : List Char} {place : Place} {depth : Nat} {d : Outline} {ns : List Node}

theorem Laid.length_entriesAt (laid : Laid indent place depth d ns) {room : Nat}
    (roomy : place = .sheet → room ≠ 0) (blanks : List Char) :
    (entriesAt room place (ns ++ [gap blanks])).length ≤ d.entries.length := by
  induction laid with
  | nil => simp [entriesAt_gap, entriesAt_nil, entries]
  | value _ ends _ ih =>
    rw [List.cons_append, List.append_assoc, List.cons_append]
    exact (entriesAt_value_iff ends (ih roomy) _ _).1
  | compact _ _ ends _ _ ih =>
    rw [List.cons_append, List.append_assoc, List.cons_append]
    exact (entriesAt_block_iff roomy ends (Node.one_lt_length_braces _) (ih roomy) _ _).1
  | block _ _ ends _ _ _ ih =>
    rw [List.cons_append, List.append_assoc, List.cons_append]
    exact (entriesAt_block_iff roomy ends (Node.one_lt_length_braces _) (ih roomy) _ _).1

theorem Laid.readsBack_iff (blank : ∀ c ∈ indent, Text.isBlank c) {key : String} {body : Outline}
    {inside : List Node} (inner : Laid indent (.body (Place.bodyContext (ns ++ [gap [' ']])))
      (depth + 1) body inside) {room : Nat} (roomy : place = .sheet → room ≠ 0)
    (ends : place.endsAtBraces (ns ++ [gap [' ']])) (open_ : compactBody? key body = none)
    (head : Stands ' ' key.toList ns) (distinct : body.Distinct)
    (below : ∀ room, entriesAt room (.body (Place.bodyContext (ns ++ [gap [' ']])))
      (inside ++ [gap ('\n' :: pad indent depth)]) = body.entries ↔
        body.readsBack room (.body (Place.bodyContext (ns ++ [gap [' ']])))) :
    (Outline.block key body .nil).readsBack room place ↔
      entriesAt room place (ns ++ [gap [' ']] ++ [braces (inside ++ [gap ('\n' :: pad indent depth)])]) =
        [(key, .block body)] := by
  have body_iff : ∀ room, outlineAt room (.body (Place.bodyContext (ns ++ [gap [' ']])))
      (inside ++ [gap ('\n' :: pad indent depth)]) = body ↔
      True ∧ body.readsBack room (.body (Place.bodyContext (ns ++ [gap [' ']]))) := by
    intro room
    rw [outlineAt, mergeAll_eq_iff distinct.nodup_keys (inner.length_entriesAt (by simp) _),
      below, true_and]
  have empty : body = .nil → True ∧
      ∀ c ∈ Node.textOf (inside ++ [gap ('\n' :: pad indent depth)]), Text.isBlank c := by
    rintro rfl
    cases inner with
    | nil => simpa [Node.textOf, Node.text, gap] using ⟨rfl, isBlank_pad blank depth⟩
  rw [← readsBack_block_iff roomy ends (Node.one_lt_length_braces _) open_ head body_iff empty,
    true_and]

theorem Laid.entriesAt_iff (blank : ∀ c ∈ indent, Text.isBlank c)
    (laid : Laid indent place depth d ns) (distinct : d.Distinct) {room : Nat}
    (roomy : place = .sheet → room ≠ 0) (blanks : List Char) :
    entriesAt room place (ns ++ [gap blanks]) = d.entries ↔ d.readsBack room place := by
  induction laid generalizing room blanks with
  | nil => simp [entriesAt_gap, entriesAt_nil, entries, readsBack]
  | value line ends later ih =>
    obtain _ | ⟨_, distinct⟩ := distinct
    rw [readsBack_value, Bool.and_eq_true, readsBack_value_iff line, List.cons_append,
      List.append_assoc, List.cons_append,
      (entriesAt_value_iff ends (later.length_entriesAt roomy blanks) _ _).2, ih distinct roomy]
  | compact kept head ends inside later ih =>
    obtain _ | _ | ⟨_, _, distinct⟩ := distinct
    rw [readsBack_block, Bool.and_eq_true, readsBack_compact_iff kept head inside,
      List.cons_append, List.append_assoc, List.cons_append,
      (entriesAt_block_iff roomy ends (Node.one_lt_length_braces _)
        (later.length_entriesAt roomy blanks) _ _).2, ih distinct roomy]
  | @block place depth key body rest ns inside more open_ head ends inner later below ih =>
    obtain _ | _ | ⟨_, distinctBody, distinct⟩ := distinct
    have single := inner.readsBack_iff blank roomy ends open_ head distinctBody fun room =>
      below distinctBody (by simp) _
    rw [readsBack_block, Bool.and_eq_true, single, List.cons_append, List.append_assoc,
      List.cons_append, (entriesAt_block_iff roomy ends (Node.one_lt_length_braces _)
        (later.length_entriesAt roomy blanks) _ _).2, ih distinct roomy]

end Lines

end Outline

namespace Node

def bottom (base : List Node) (stack : List Frame) (siblings : List Node) : List Node :=
  if stack.isEmpty then siblings ++ base else siblings

def under (base : List Node) : List Frame → List Frame
  | [] => []
  | f :: stack => ⟨f.opening, bottom base stack f.outer⟩ :: under base stack

theorem cons_bottom (base : List Node) (stack : List Frame) (n : Node) (siblings : List Node) :
    n :: bottom base stack siblings = bottom base stack (n :: siblings) := by
  unfold bottom
  split <;> rfl

theorem finish_under (base : List Node) (stack : List Frame) (siblings : List Node) :
    finish (under base stack) (bottom base stack siblings) =
      base.reverse ++ finish stack siblings := by
  induction stack generalizing siblings with
  | nil => simp [under, bottom, finish]
  | cons f stack ih =>
    rw [under, finish, finish, ← ih, ← cons_bottom]
    rfl

theorem build_under (base : List Node) (stack : List Frame) (siblings : List Node)
    (ls : List Lexeme) :
    build (under base stack) (bottom base stack siblings) ls =
      base.reverse ++ build stack siblings ls := by
  fun_induction build stack siblings ls with
  | case1 stack siblings => rw [build_nil, finish_under]
  | case2 stack siblings l ls opening ih =>
    rw [build_open opening, ← ih]
    rfl
  | case3 siblings l ls plain f outer closing ih =>
    rw [under, build_close (f := ⟨f.opening, bottom base outer f.outer⟩) (by simpa using plain)
      closing, cons_bottom, ← ih]
    rfl
  | case4 siblings l ls plain f outer closing ih =>
    rw [under, build_leaf (by simpa using plain) (by simpa using closing), cons_bottom, ← ih, under]
  | case5 siblings l ls plain ih =>
    rw [under, build_leaf (by simpa using plain) (by simp), cons_bottom, ← ih, under]

theorem plain_newline {cs : List Char} (solid : ∀ s ∈ cs.head?, Text.isBlank s = false) :
    plain ('\n' :: cs) = gap ['\n'] :: plain cs := by
  have empty : OnlyBraces [] := by simp [OnlyBraces]
  have first : build [] [] (Lexer.plain ('\n' :: cs)) =
      build [] [gap ['\n']] (Lexer.plain cs) :=
    build_gap empty [] cs rfl (by simp : ∀ b ∈ ([] : List Char), Text.isBlank b) solid
  exact first.trans (build_under [gap ['\n']] [] [] (Lexer.plain cs))

end Node

namespace Outline

open Node (gap)

theorem solid_value {key text : String} (line : ∃ c cs, lineText key text = c :: cs ∧
    Text.isBlank c = false) (rest : Outline) (indent after : List Char) :
    ∀ s ∈ ((value key text rest).spread indent 0 ++ after).tail.head?, Text.isBlank s = false := by
  obtain ⟨c, cs, same, solid⟩ := line
  simp [spread, pad, same, solid]

theorem solid_block {key : String} (head : ∃ c cs, key.toList = c :: cs ∧ Text.isBlank c = false)
    (body rest : Outline) (indent after : List Char) :
    ∀ s ∈ ((block key body rest).spread indent 0 ++ after).tail.head?, Text.isBlank s = false := by
  obtain ⟨c, cs, same, solid⟩ := head
  simp [spread, pad, same, solid]

theorem SelfContained.solid {place : Place} {d : Outline} (contained : SelfContained place d)
    (indent : List Char) :
    ∀ s ∈ (d.spread indent 0 ++ ['\n']).tail.head?, Text.isBlank s = false := by
  cases contained with
  | nil => simp [spread]
  | value line _ _ => exact solid_value line.1 _ _ _
  | compact _ head _ _ _ => exact solid_block head.1 _ _ _ _
  | block _ head _ _ _ => exact solid_block head.1 _ _ _ _

/-- A text that does not start with a blank and is read as few entries is decoded as an outline
exactly if it is read as the entries of the outline. A line break may stand before it. -/
theorem decode_eq_ok_iff {text : String} {d : Outline} (distinct : d.Distinct)
    (solid : ∀ s ∈ text.toList.head?, Text.isBlank s = false) {ns : List Node}
    (nodes : Node.plain ('\n' :: text.toList) = ns)
    (few : (entriesAt maxNesting .sheet ns).length ≤ d.entries.length)
    (written : d = .nil → text = "") :
    decode text = .ok d ↔ entriesAt maxNesting .sheet ns = d.entries := by
  have whole : outlineAt maxNesting .sheet (Node.plain text.toList) = d ↔
      entriesAt maxNesting .sheet ns = d.entries := by
    rw [← nodes, Node.plain_newline solid, entriesAt_gap] at few ⊢
    rw [outlineAt, mergeAll_eq_iff distinct.nodup_keys few]
  rw [← whole, ← outlineOf_readRules_ofText]
  constructor
  · intro decoded
    exact (decode_eq_ok decoded).symm
  · intro same
    apply decode_of_outlineOf same
    rcases eq_or_ne d .nil with rfl | entry
    · exact .inr (written rfl)
    · exact .inl entry

theorem decode_encode_iff {d : Outline} (contained : SelfContained .sheet d)
    (distinct : d.Distinct) {indent text : String} (blank : ∀ c ∈ indent.toList, Text.isBlank c)
    (encoded : d.encode indent = .ok text) :
    decode text = .ok d ↔ d.readsBack maxNesting .sheet := by
  have written := toList_of_encode encoded
  have solid := contained.solid indent.toList
  rw [← written] at solid
  obtain ⟨ns, laid⟩ := contained.laid indent.toList 0
  have roomy : Place.sheet = .sheet → maxNesting ≠ 0 := by simp [maxNesting]
  have empty : Node.OnlyBraces [] := by simp [Node.OnlyBraces]
  have nodes : Node.plain ('\n' :: text.toList) = ns ++ [gap ['\n']] := by
    have newline : Node.build [] ns.reverse (Lexer.plain ['\n']) =
        Node.build [] (gap ['\n'] :: ns.reverse) (Lexer.plain []) :=
      Node.build_gap empty _ [] rfl (by simp : ∀ b ∈ ([] : List Char), Text.isBlank b) (by simp)
    rw [written, Node.plain, laid.build blank empty, List.append_nil, newline, Lexer.plain_nil]
    simp [Node.build, Node.finish]
  rw [← laid.entriesAt_iff blank distinct roomy ['\n']]
  refine decode_eq_ok_iff distinct solid nodes (laid.length_entriesAt roomy ['\n']) ?_
  rintro rfl
  have nothing : text.toList = [] := by simpa [spread] using written
  simpa using nothing

end Outline

end CssOutline
