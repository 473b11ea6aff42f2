import CssOutline.Proofs.ClosedTexts
import CssOutline.Proofs.GrammarHeads
import Mathlib.Data.List.DropRight

/-! Bodies that are kept as text. An at-rule with a name that no reader knows keeps its body without
the white space around it and without one run of semicolons at its end. What is kept comes back from
its written line unless it still ends with a semicolon. -/

namespace CssOutline

section Ends

variable {p : Char → Bool} {cs trail : List Char}

theorem exists_rdropWhile (p : Char → Bool) (cs : List Char) :
    ∃ trail, cs = cs.rdropWhile p ++ trail ∧ ∀ x ∈ trail, p x :=
  ⟨cs.rtakeWhile p, List.rdropWhile_append_rtakeWhile.symm,
    fun _ member => List.mem_rtakeWhile_imp member⟩

theorem getLast?_rdropWhile (p : Char → Bool) (cs : List Char) :
    ∀ x ∈ (cs.rdropWhile p).getLast?, p x = false := by
  intro x member
  rw [List.rdropWhile, List.getLast?_reverse] at member
  have stop := List.head?_dropWhile_not p cs.reverse
  rw [Option.mem_def.1 member] at stop
  exact stop

theorem rdropWhile_of_last (last : ∀ x ∈ cs.getLast?, p x = false) : cs.rdropWhile p = cs := by
  rw [List.rdropWhile_eq_self_iff]
  intro some
  simp [last _ (List.getLast?_eq_some_getLast some)]

theorem rdropWhile_append (all : ∀ x ∈ trail, p x) (last : ∀ x ∈ cs.getLast?, p x = false) :
    (cs ++ trail).rdropWhile p = cs := by
  rw [List.rdropWhile, List.reverse_append, List.dropWhile_append_of_pos (by simpa using all)]
  exact rdropWhile_of_last last

end Ends

def keptText (body : List Char) : List Char :=
  ((((body.dropWhile Text.isWhiteSpace).rdropWhile Text.isWhiteSpace).rdropWhile (· == ';')).rdropWhile
    Text.isWhiteSpace)

theorem verbatimBody_trim (body : List Char) :
    verbatimBody (String.ofList (Text.trim body)) = String.ofList (keptText body) := by
  have once : Text.trimEnd (Text.trim body) = Text.trim body :=
    List.rdropWhile_idempotent _ (Text.trimStart body)
  rw [verbatimBody, String.toList_ofList, once]
  rfl

section Kept

variable {body v : List Char}

theorem keptText_prefix (body : List Char) : keptText body <+: body.dropWhile Text.isWhiteSpace :=
  ((List.rdropWhile_prefix _ _).trans (List.rdropWhile_prefix _ _)).trans
    (List.rdropWhile_prefix _ _)

theorem head?_keptText (body : List Char) :
    ∀ x ∈ (keptText body).head?, Text.isWhiteSpace x = false := by
  intro x head
  obtain ⟨after, whole⟩ := keptText_prefix body
  have stop := List.head?_dropWhile_not Text.isWhiteSpace body
  rw [← whole, List.head?_append, Option.mem_def.1 head] at stop
  exact stop

theorem getLast?_keptText (body : List Char) :
    ∀ x ∈ (keptText body).getLast?, Text.isWhiteSpace x = false :=
  getLast?_rdropWhile _ _

/-- What is taken off the end of a body: white space, semicolons and white space again. A semicolon
before them is kept only if they are more than one run. -/
theorem exists_trails (body : List Char) :
    ∃ blanks semicolons tail, body.dropWhile Text.isWhiteSpace =
        keptText body ++ (blanks ++ (semicolons ++ tail)) ∧
      (∀ x ∈ blanks, Text.isWhiteSpace x) ∧ (∀ x ∈ semicolons, x = ';') ∧
      (∀ x ∈ tail, Text.isWhiteSpace x) ∧
      ((keptText body).getLast? = some ';' → blanks ≠ [] ∧ semicolons ≠ []) := by
  obtain ⟨first, one⟩ : ∃ cs, cs = (body.dropWhile Text.isWhiteSpace).rdropWhile Text.isWhiteSpace :=
    ⟨_, rfl⟩
  obtain ⟨second, two⟩ : ∃ cs, cs = first.rdropWhile (· == ';') := ⟨_, rfl⟩
  have kept : keptText body = second.rdropWhile Text.isWhiteSpace := by
    rw [two, one]
    rfl
  obtain ⟨tail, wholeBody, white⟩ :=
    exists_rdropWhile Text.isWhiteSpace (body.dropWhile Text.isWhiteSpace)
  obtain ⟨semicolons, wholeFirst, semicolon⟩ := exists_rdropWhile (· == ';') first
  obtain ⟨blanks, wholeSecond, blank⟩ := exists_rdropWhile Text.isWhiteSpace second
  rw [← one] at wholeBody
  rw [← two] at wholeFirst
  rw [← kept] at wholeSecond
  refine ⟨blanks, semicolons, tail, ?_, blank, by simpa using semicolon, white, fun last => ?_⟩
  · rw [wholeBody, wholeFirst, wholeSecond, List.append_assoc, List.append_assoc]
  have some : blanks ≠ [] := by
    rintro rfl
    rw [List.append_nil] at wholeSecond
    have stop := getLast?_rdropWhile (· == ';') first ';' (by rw [← two, wholeSecond]; exact last)
    simp at stop
  refine ⟨some, ?_⟩
  rintro rfl
  rw [List.append_nil] at wholeFirst
  obtain ⟨front, x, rfl⟩ := (List.eq_nil_or_concat blanks).resolve_left some
  have stop := getLast?_rdropWhile Text.isWhiteSpace (body.dropWhile Text.isWhiteSpace) x
    (by rw [← one, wholeFirst, wholeSecond]; simp)
  simp [blank x (by simp)] at stop

theorem keptText_of_semicolons {front blanks semicolons tail : List Char}
    (white : ∀ x ∈ blanks, Text.isWhiteSpace x) (some : blanks ≠ [])
    (semicolon : ∀ x ∈ semicolons, x = ';') (more : semicolons ≠ [])
    (trail : ∀ x ∈ tail, Text.isWhiteSpace x) :
    (keptText (front ++ ';' :: (blanks ++ (semicolons ++ tail)))).getLast? = Option.some ';' := by
  obtain ⟨before, start⟩ : ∃ before, ∀ rest, (front ++ ';' :: rest).dropWhile Text.isWhiteSpace =
      before ++ ';' :: rest := by
    refine ⟨front.dropWhile Text.isWhiteSpace, fun rest => ?_⟩
    rw [List.dropWhile_append]
    split
    · rename_i empty
      rw [List.isEmpty_iff.1 empty]
      rfl
    · rfl
  have first : (before ++ ';' :: (blanks ++ (semicolons ++ tail))).rdropWhile Text.isWhiteSpace =
      before ++ ';' :: (blanks ++ semicolons) := by
    have same : before ++ ';' :: (blanks ++ (semicolons ++ tail)) =
        (before ++ ';' :: (blanks ++ semicolons)) ++ tail := by simp
    rw [same]
    apply rdropWhile_append trail
    obtain ⟨s, x, rfl⟩ := (List.eq_nil_or_concat semicolons).resolve_left more
    obtain rfl := semicolon x (by simp)
    have ending : before ++ ';' :: (blanks ++ s.concat ';') =
        (before ++ ';' :: (blanks ++ s)) ++ [';'] := by simp
    rw [ending, List.getLast?_concat]
    rintro x ⟨⟩
    rfl
  have second : (before ++ ';' :: (blanks ++ semicolons)).rdropWhile (· == ';') =
      before ++ ';' :: blanks := by
    have same : before ++ ';' :: (blanks ++ semicolons) = (before ++ ';' :: blanks) ++ semicolons := by
      simp
    rw [same]
    apply rdropWhile_append (by simpa using semicolon)
    obtain ⟨s, x, rfl⟩ := (List.eq_nil_or_concat blanks).resolve_left some
    have space := white x (by simp)
    have other : x ≠ ';' := by
      rintro rfl
      cases space
    have ending : before ++ ';' :: s.concat x = (before ++ ';' :: s) ++ [x] := by simp
    rw [ending, List.getLast?_concat]
    rintro y ⟨⟩
    simpa using other
  have third : (before ++ ';' :: blanks).rdropWhile Text.isWhiteSpace = before ++ [';'] := by
    have same : before ++ ';' :: blanks = (before ++ [';']) ++ blanks := by simp
    rw [same]
    exact rdropWhile_append white (by simp; rfl)
  rw [keptText, start, first, second, third]
  simp

theorem keptText_written_iff (some : v ≠ []) (first : ∀ x ∈ v.head?, Text.isWhiteSpace x = false)
    (last : ∀ x ∈ v.getLast?, Text.isWhiteSpace x = false) :
    keptText (' ' :: (v ++ [';', ' '])) = v ↔ v.getLast? ≠ Option.some ';' := by
  have start : (' ' :: (v ++ [';', ' '])).dropWhile Text.isWhiteSpace = v ++ [';', ' '] := by
    obtain ⟨c, cs, rfl⟩ := List.exists_cons_of_ne_nil some
    rw [List.dropWhile_cons_of_pos (by decide), List.cons_append,
      List.dropWhile_cons_of_neg (by simp [first c rfl])]
  have white : (v ++ [';', ' ']).rdropWhile Text.isWhiteSpace = v ++ [';'] := by
    have same : v ++ [';', ' '] = (v ++ [';']) ++ [' '] := by simp
    rw [same]
    exact rdropWhile_append (by simp; rfl) (by simp; rfl)
  rw [keptText, start, white, List.rdropWhile_concat_pos _ _ _ (by simp)]
  constructor
  · intro same semicolon
    have shorter := (List.rdropWhile_prefix Text.isWhiteSpace (v.rdropWhile (· == ';'))).length_le
    rw [same] at shorter
    have whole := (List.rdropWhile_prefix (· == ';') v).eq_of_length_le shorter
    have stop := getLast?_rdropWhile (· == ';') v ';' (by rw [whole]; exact semicolon)
    simp at stop
  · intro other
    have stays : v.rdropWhile (· == ';') = v := by
      apply rdropWhile_of_last
      rintro x member
      simp only [beq_eq_false_iff_ne]
      rintro rfl
      exact other member
    rw [stays, rdropWhile_of_last last]

end Kept

open Node (Stands OnlyBraces gap semicolon braces)

def ruleKey (n : Grammar.Name) : String :=
  "@" ++ n.text

def ruleText (n : Grammar.Name) (body : List Char) : String :=
  String.ofList ('@' :: n.chars ++ ' ' :: '\x7b' :: (body ++ ['\x7d']))

/-- The outline of an at-rule that keeps its body as text. -/
def ruleOutline (n : Grammar.Name) (kept : String) : Outline :=
  .block (ruleKey n) (if kept = "" then .nil else .value (ruleKey n) kept .nil) .nil

theorem stands_ruleKey (n : Grammar.Name) : Stands ' ' ('@' :: n.chars) [n.atNode] := by
  refine ⟨⟨'@', n.chars, rfl, rfl⟩, fun stack siblings rest _ => ?_⟩
  have ends : Lexer.EndsIdent (' ' :: rest) := by
    rintro x ⟨⟩
    decide
  rw [Lexer.plain_append (n.scan_at ends)]
  exact Node.build_leaf rfl fun f _ => (Token.closing?_of_isFlat rfl).2 _

theorem opens?_rule {n : Grammar.Name} (members : n.text ∉ memberAtRules)
    (frames : n.text ≠ "keyframes") :
    Place.sheet.opens? [n.atNode, gap [' ']] = some (ruleKey n, none) := by
  have other : memberAtRules.contains n.text = false := by simpa using members
  change (Sketch.ofAtRule true n.atNode n.text [gap [' ']] (some (.braces []))).opens? = _
  unfold Sketch.ofAtRule
  simp only [Node.curly, Bool.not_true, Bool.false_eq_true, if_false, n.atRuleKind_text,
    if_neg frames, other, Sketch.opens?]
  rfl

theorem outlineAt_rule {n : Grammar.Name} (members : n.text ∉ memberAtRules)
    (frames : n.text ≠ "keyframes") {inside more : List Node}
    (blank : entriesAt maxNesting .sheet more = []) :
    outlineAt maxNesting .sheet ([n.atNode, gap [' ']] ++ braces inside :: more) =
      ruleOutline n (String.ofList (keptText (Node.textOf inside))) := by
  have ends : Place.sheet.endsAtBraces [n.atNode, gap [' ']] := rfl
  have roomy : Place.sheet = .sheet → maxNesting ≠ 0 := by simp [maxNesting]
  have filled := Node.one_lt_length_braces inside
  rw [outlineAt, (entriesAt_curly _ roomy ends filled more).1, blank, List.append_nil,
    entriesAt_curly_single _ roomy ends filled, opens?_rule members frames]
  simp only [maxNesting, Option.map_some, verbatimBlock, verbatimBody_trim]
  rfl

theorem Node.textOf_plain (cs : List Char) : Node.textOf (Node.plain cs) = cs := by
  have texts : (Lexer.plain cs).flatMap Lexeme.text = cs := by
    rw [Lexer.plain, List.flatMap_map]
    exact Lexer.flatMap_text_lexemes cs
  rw [← Node.flatMap_text_lexemesOf, Node.plain, Node.lexemesOf_build]
  exact texts

section Rule

variable {n : Grammar.Name} (members : n.text ∉ memberAtRules) (frames : n.text ≠ "keyframes")
  {body tail : List Char} {inside : List Node}

include members frames

theorem decode_rule (text : Node.textOf inside = body)
    (reads : ∀ stack siblings rest, OnlyBraces stack →
      Node.build stack siblings (Lexer.plain (body ++ '\x7d' :: rest)) =
        Node.build stack (inside.reverse ++ siblings) (Lexer.plain ('\x7d' :: rest)))
    (blank : entriesAt maxNesting .sheet (Node.plain tail) = []) :
    decode (String.ofList ('@' :: n.chars ++ ' ' :: '\x7b' :: (body ++ '\x7d' :: tail))) =
      .ok (ruleOutline n (String.ofList (keptText body))) := by
  have empty : OnlyBraces [] := by simp [OnlyBraces]
  have nodes : Node.plain ('@' :: n.chars ++ ' ' :: '\x7b' :: (body ++ '\x7d' :: tail)) =
      [n.atNode, gap [' ']] ++ braces inside :: Node.plain tail := by
    rw [Node.plain, (stands_ruleKey n).build_braces empty [] tail fun stack siblings only =>
      reads stack siblings tail only]
    exact Node.build_under [braces inside, gap [' '], n.atNode] [] [] (Lexer.plain tail)
  apply decode_of_outlineOf
  · rw [outlineOf_readRules_ofText, String.toList_ofList, nodes, outlineAt_rule members frames blank,
      text]
  · exact .inl (by simp [ruleOutline])

theorem decode_closed (closed : IsClosedText body) :
    decode (ruleText n body) = .ok (ruleOutline n (String.ofList (keptText body))) := by
  refine decode_rule members frames (Node.textOf_plain body)
    (fun stack siblings rest only => closed.build (.inr rfl) only siblings rest) ?_
  simp [Node.plain, Node.build, Node.finish, entriesAt_nil]

end Rule

def writtenBody (kept : List Char) : List Char :=
  if kept = [] then ['\n'] else ' ' :: (kept ++ [';', ' '])

theorem encode_ruleOutline (n : Grammar.Name) (kept : List Char) (indent : String) :
    (ruleOutline n (String.ofList kept)).encode indent =
      .ok (String.ofList ('@' :: n.chars ++ ' ' :: '\x7b' :: (writtenBody kept ++
        '\x7d' :: ['\n']))) := by
  have chars : (ruleKey n).toList = '@' :: n.chars := by
    rw [ruleKey, Grammar.Name.text, String.toList_append, String.toList_ofList]
    simp
  have some : ruleKey n ≠ "" := by
    intro empty
    simp [empty] at chars
  have marked : Outline.isAtKey (ruleKey n) := by
    rw [Outline.isAtKey, chars]
    rfl
  have fine : (ruleOutline n (String.ofList kept)).layoutError? true = none := by
    unfold ruleOutline
    split <;> simp [Outline.layoutError?, some]
  have encoded : ∃ text, (ruleOutline n (String.ofList kept)).encode indent = .ok text := by
    rw [Outline.encode, fine]
    exact ⟨_, rfl⟩
  obtain ⟨text, encoded⟩ := encoded
  have written := Outline.toList_of_encode encoded
  rw [encoded, Except.ok.injEq, ← String.toList_inj, String.toList_ofList]
  suffices whole : '\n' :: text.toList = '\n' :: _ from (List.cons.inj whole).2
  rw [written]
  have none : String.ofList kept = "" ↔ kept = [] := by
    rw [← String.toList_inj, String.toList_ofList]
    rfl
  unfold ruleOutline writtenBody
  by_cases empty : kept = []
  · rw [if_pos (none.2 empty), if_pos empty]
    simp [Outline.spread, Outline.compactBody?, Outline.pad, chars]
  · rw [if_neg (mt none.1 empty), if_neg empty]
    simp [Outline.spread, Outline.compactBody?, Outline.pad, chars, marked, empty]

theorem ruleOutline_inj {n : Grammar.Name} {a b : String} (same : ruleOutline n a = ruleOutline n b) :
    a = b := by
  have bodies := (Outline.block.inj same).2.1
  split_ifs at bodies with first second second
  · rw [first, second]
  · exact (Outline.value.inj bodies).2.1

theorem decode_written_iff {n : Grammar.Name} (members : n.text ∉ memberAtRules)
    (frames : n.text ≠ "keyframes") {kept : List Char} (closed : IsClosedText kept)
    (first : ∀ x ∈ kept.head?, Text.isWhiteSpace x = false)
    (last : ∀ x ∈ kept.getLast?, Text.isWhiteSpace x = false) {text : String} {indent : String}
    (encoded : (ruleOutline n (String.ofList kept)).encode indent = .ok text) :
    decode text = .ok (ruleOutline n (String.ofList kept)) ↔ kept.getLast? ≠ some ';' := by
  rw [encode_ruleOutline, Except.ok.injEq] at encoded
  subst encoded
  have empty : OnlyBraces [] := by simp [OnlyBraces]
  have newline : Node.plain ['\n'] = [gap ['\n']] := by
    have none : ∀ b ∈ [], Text.isBlank b := by simp
    have first : Node.build [] [] (Lexer.plain ('\n' :: ([] ++ []))) = _ :=
      Node.build_gap empty [] [] rfl none (by simp)
    rw [List.nil_append, Lexer.plain_nil] at first
    exact first
  have blank : entriesAt maxNesting .sheet (Node.plain ['\n']) = [] := by
    rw [newline, entriesAt_gap, entriesAt_nil]
  have reads : ∃ inside, Node.textOf inside = writtenBody kept ∧
      ∀ stack siblings rest, OnlyBraces stack →
        Node.build stack siblings (Lexer.plain (writtenBody kept ++ '\x7d' :: rest)) =
          Node.build stack (inside.reverse ++ siblings) (Lexer.plain ('\x7d' :: rest)) := by
    unfold writtenBody
    split
    · refine ⟨[gap ['\n']], rfl, fun stack siblings rest only => ?_⟩
      have none : ∀ b ∈ [], Text.isBlank b := by simp
      exact Node.build_gap only siblings _ rfl none (by simp; rfl)
    · rename_i nonempty
      have stands : Stands ';' kept (Node.plain kept) := by
        refine ⟨?_, fun stack siblings rest only => closed.build (.inl rfl) only siblings rest⟩
        obtain ⟨c, cs, rfl⟩ := List.exists_cons_of_ne_nil nonempty
        refine ⟨c, cs, rfl, ?_⟩
        by_contra space
        have white := Text.isWhiteSpace_of_isBlank (by simpa using space)
        simp [first c rfl] at white
      refine ⟨gap [' '] :: (Node.plain kept ++ [semicolon, gap [' ']]), ?_,
        fun stack siblings rest only => stands.build_compact only siblings rest⟩
      simp [Node.textOf, Node.textOf_append, Node.textOf_plain, Node.text, gap, semicolon]
  obtain ⟨inside, text, reads⟩ := reads
  rw [decode_rule members frames text reads blank, Except.ok.injEq]
  have same : ruleOutline n (String.ofList (keptText (writtenBody kept))) =
      ruleOutline n (String.ofList kept) ↔ keptText (writtenBody kept) = kept := by
    refine ⟨fun same => ?_, fun same => by rw [same]⟩
    rw [← String.toList_ofList (l := keptText (writtenBody kept)), ruleOutline_inj same,
      String.toList_ofList]
  rw [same]
  unfold writtenBody
  split
  · rename_i none
    subst none
    exact ⟨fun _ => by simp, fun _ => by decide⟩
  · rename_i nonempty
    exact keptText_written_iff nonempty first last

/-- A semicolon, white space and more semicolons at the end of a body. -/
def EndsInRuns (body : List Char) : Prop :=
  ∃ front blanks semicolons tail, body = front ++ ';' :: (blanks ++ (semicolons ++ tail)) ∧
    (∀ x ∈ blanks, Text.isWhiteSpace x) ∧ blanks ≠ [] ∧ (∀ x ∈ semicolons, x = ';') ∧
    semicolons ≠ [] ∧ ∀ x ∈ tail, Text.isWhiteSpace x

theorem getLast?_keptText_iff (body : List Char) :
    (keptText body).getLast? = some ';' ↔ EndsInRuns body := by
  constructor
  · intro last
    obtain ⟨blanks, semicolons, tail, whole, white, semicolon, trail, runs⟩ := exists_trails body
    obtain ⟨front, same⟩ := List.getLast?_eq_some_iff.1 last
    refine ⟨body.takeWhile Text.isWhiteSpace ++ front, blanks, semicolons, tail, ?_, white,
      (runs last).1, semicolon, (runs last).2, trail⟩
    rw [List.append_assoc, ← List.singleton_append, ← List.append_assoc front, ← same, ← whole,
      List.takeWhile_append_dropWhile]
  · rintro ⟨front, blanks, semicolons, tail, rfl, white, some, semicolon, more, trail⟩
    exact keptText_of_semicolons white some semicolon more trail

theorem isClosedText_keptText {body : List Char} (closed : IsClosedText body)
    (ascii : ∀ x ∈ body.takeWhile Text.isWhiteSpace, x.toNat < 0x80) :
    IsClosedText (keptText body) := by
  obtain ⟨blanks, semicolons, tail, whole, white, semicolon, trail, _⟩ := exists_trails body
  have inner : IsClosedText (body.dropWhile Text.isWhiteSpace) := by
    rw [← List.takeWhile_append_dropWhile (p := Text.isWhiteSpace) (l := body)] at closed
    refine closed.dropLead (fun x member => ⟨List.mem_takeWhile_imp member, ascii x member⟩) ?_
    intro x head
    have stop := List.head?_dropWhile_not Text.isWhiteSpace body
    rwa [Option.mem_def.1 head] at stop
  rw [whole] at inner
  refine inner.dropTrail (getLast?_keptText body) fun x member => ?_
  rcases List.mem_append.1 member with blank | later
  · simp [Lexer.isTrail, white x blank]
  · rcases List.mem_append.1 later with mark | space
    · simp [Lexer.isTrail, semicolon x mark]
    · simp [Lexer.isTrail, trail x space]

/-- The body of an at-rule with an unknown name and no prelude, with everything closed in it, is
kept without the white space around it and the semicolons at its end. A semicolon is left at the end
of what is kept exactly if more than one run of them stood there. Written with any indent, what is
kept comes back exactly if no semicolon is left, as long as it is closed by itself, and it is if only
ASCII white space stood before it. -/
theorem decode_encode_verbatim {n : Grammar.Name} (members : n.text ∉ memberAtRules)
    (frames : n.text ≠ "keyframes") {body : List Char} (closed : IsClosedText body) :
    decode (ruleText n body) = .ok (ruleOutline n (String.ofList (keptText body))) ∧
    (∀ x ∈ (keptText body).head?, Text.isWhiteSpace x = false) ∧
    (∀ x ∈ (keptText body).getLast?, Text.isWhiteSpace x = false) ∧
    ((keptText body).getLast? = some ';' ↔ EndsInRuns body) ∧
    ((∀ x ∈ body.takeWhile Text.isWhiteSpace, x.toNat < 0x80) → IsClosedText (keptText body)) ∧
    ∀ indent, ∃ text, (ruleOutline n (String.ofList (keptText body))).encode indent = .ok text ∧
      (IsClosedText (keptText body) →
        (decode text = .ok (ruleOutline n (String.ofList (keptText body))) ↔ ¬ EndsInRuns body)) := by
  refine ⟨decode_closed members frames closed, head?_keptText body, getLast?_keptText body,
    getLast?_keptText_iff body, isClosedText_keptText closed, fun indent => ?_⟩
  have encoded := encode_ruleOutline n (keptText body) indent
  refine ⟨_, encoded, fun inner => ?_⟩
  rw [decode_written_iff members frames inner (head?_keptText body) (getLast?_keptText body) encoded,
    ← getLast?_keptText_iff]

def semicolonRuns : List Char :=
  " a(\"\x7d\"); ; ".toList

theorem isClosedText_semicolonRuns : IsClosedText semicolonRuns := by
  have lexed : Lexer.lexemes semicolonRuns =
      [⟨.whitespace, [' '], ⟨1, 1⟩⟩, ⟨.function "a", ['a', '('], ⟨1, 2⟩⟩,
        ⟨.string "\x7d", ['"', '\x7d', '"'], ⟨1, 4⟩⟩, ⟨.closeParen, [')'], ⟨1, 7⟩⟩,
        ⟨.semicolon, [';'], ⟨1, 8⟩⟩, ⟨.whitespace, [' '], ⟨1, 9⟩⟩,
        ⟨.semicolon, [';'], ⟨1, 10⟩⟩, ⟨.whitespace, [' '], ⟨1, 11⟩⟩] := by cbv
  refine ⟨by decide, ?_, by rw [lexed]; rfl⟩
  rw [lexed]
  intro l member
  simp only [List.mem_cons, List.not_mem_nil, or_false] at member
  rcases member with rfl | rfl | rfl | rfl | rfl | rfl | rfl | rfl
  case inr.inr.inl => exact ⟨'"', ['\x7d'], rfl⟩
  all_goals trivial

theorem decode_encode_verbatim_semicolonRuns :
    ∃ (n : Grammar.Name) (text : String), n.text = "x" ∧
      decode (ruleText n semicolonRuns) = .ok (ruleOutline n "a(\"\x7d\");") ∧
      (ruleOutline n "a(\"\x7d\");").encode "" = .ok text ∧
      decode text ≠ .ok (ruleOutline n "a(\"\x7d\");") := by
  let n : Grammar.Name := .ofChars 'x' [] rfl rfl
  obtain ⟨decoded, _, _, runs, inner, written⟩ := decode_encode_verbatim (n := n) (by decide)
    (by decide) isClosedText_semicolonRuns
  have kept : keptText semicolonRuns = "a(\"\x7d\");".toList := by decide
  rw [kept] at runs inner
  rw [kept, String.ofList_toList] at decoded written
  obtain ⟨text, encoded, back⟩ := written ""
  refine ⟨n, text, rfl, decoded, encoded, fun same => ?_⟩
  have ascii : ∀ x ∈ semicolonRuns.takeWhile Text.isWhiteSpace, x.toNat < 0x80 := by
    simpa using List.all_eq_true.1
      (show (semicolonRuns.takeWhile Text.isWhiteSpace).all fun x => x.toNat < 0x80 by decide)
  exact (back (inner ascii)).1 same (runs.1 rfl)

end CssOutline
