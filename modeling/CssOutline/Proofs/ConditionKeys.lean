import CssOutline.Proofs.MathSlices
import CssOutline.Proofs.MathWords
import CssOutline.Proofs.Trimming
import CssOutline.Proofs.VerbatimBodies
import CssOutline.Proofs.Walk.Completion

/-! The groups of conditions in the keys of at-rules. A key holds one part for each token and group
of the prelude, in source order: functions and groups in parentheses are kept as they stand, or
written anew if they are features, but of a group in square brackets only the bracket is left. Only
where a media query is empty the text of the whole prelude is kept instead. -/

namespace CssOutline

open Node (Inside)

def joined : List (Except RenderError String) → Except RenderError String
  | [] => .ok ""
  | p :: ps => do
    let front ← p
    let rest ← joined ps
    .ok (front ++ rest)

section Joined

variable {α : Type} {ps qs : List (Except RenderError String)}

theorem joined_append : joined (ps ++ qs) = (do
    let front ← joined ps
    let rest ← joined qs
    .ok (front ++ rest)) := by
  induction ps with
  | nil => cases h : joined qs <;> simp [joined, h, bind, Except.bind]
  | cons p ps ih =>
    rw [List.cons_append, joined, joined, ih]
    cases p <;> cases joined ps <;> cases joined qs <;>
      simp [bind, Except.bind, String.append_assoc]

theorem joined_eq_ok_iff {text : String} :
    joined ps = .ok text ↔ ∃ texts, ps = texts.map .ok ∧ text = String.join texts := by
  induction ps generalizing text with
  | nil => simp [joined, eq_comm, String.join]
  | cons p ps ih =>
    rw [joined]
    constructor
    · intro ok
      cases p with
      | error e => cases ok
      | ok front =>
        cases rest : joined ps with
        | error e => rw [rest] at ok; cases ok
        | ok t =>
          rw [rest] at ok
          cases ok
          obtain ⟨texts, rfl, rfl⟩ := ih.1 rest
          exact ⟨front :: texts, rfl, by simp [String.join_cons]⟩
    · rintro ⟨texts, same, rfl⟩
      cases texts with
      | nil => cases same
      | cons front texts =>
        obtain ⟨rfl, rfl⟩ := List.cons.inj same
        rw [ih.2 ⟨texts, rfl, rfl⟩, String.join_cons]
        rfl

theorem intercalate_cons (separator first : String) (texts : List String) :
    separator.intercalate (first :: texts) = first ++ String.join (texts.map (separator ++ ·)) := by
  induction texts generalizing first with
  | nil => simp [String.join]
  | cons next texts ih =>
    rw [String.intercalate_cons_cons, ih, List.map_cons, String.join_cons]
    simp [String.append_assoc]

theorem joined_map (separator : String) (f : α → Except RenderError String) (xs : List α) :
    joined (xs.map fun x => (f x).map (separator ++ ·)) =
      (xs.mapM f).map fun texts => String.join (texts.map (separator ++ ·)) := by
  induction xs with
  | nil => rfl
  | cons x xs ih =>
    rw [List.map_cons, joined, ih, List.mapM_cons]
    cases f x <;> cases xs.mapM f <;>
      simp [Except.map, bind, Except.bind, pure, Except.pure, String.join_cons]

theorem intercalate_eq_joined (separator : String) (f : α → Except RenderError String) (x : α)
    (xs : List α) :
    (do
      let texts ← (x :: xs).mapM f
      .ok (separator.intercalate texts)) =
      joined (f x :: xs.map fun y => (f y).map (separator ++ ·)) := by
  rw [joined, joined_map, List.mapM_cons]
  cases f x <;> cases xs.mapM f <;>
    simp [Except.map, bind, Except.bind, pure, Except.pure, intercalate_cons]

theorem joined_cons_map (p : Except RenderError String) (text : String) :
    (joined (p :: ps)).map (text ++ ·) = joined (p.map (text ++ ·) :: ps) := by
  rw [joined, joined]
  cases p <;> cases joined ps <;> simp [Except.map, bind, Except.bind, String.append_assoc]

theorem joined_pair (p : Except RenderError String) : joined (p :: ps) = joined [p, joined ps] := by
  cases p <;> cases h : joined ps <;> simp [joined, h, bind, Except.bind]

theorem joined_comma (p : Except RenderError String) :
    p.map (", " ++ ·) = joined [.ok ",", p.map (" " ++ ·)] := by
  cases p <;> simp [joined, Except.map, bind, Except.bind, ← String.append_assoc]

end Joined

namespace Condition

def spaced (c : Condition) : Except RenderError String :=
  c.render.map (" " ++ ·)

theorem renderAll_spaced {parts : List Condition} (some : parts ≠ []) :
    (renderAll parts).map (" " ++ ·) = joined (parts.map spaced) := by
  obtain ⟨c, cs, rfl⟩ := List.exists_cons_of_ne_nil some
  rw [renderAll, intercalate_eq_joined, joined_cons_map]
  rfl

theorem read?_eq_some {ns : List Node} {parts : List Condition} (read : read? ns = some parts) :
    parts ≠ [] ∧ parts = (Node.significant ns).map ofNode := by
  unfold read? at read
  split at read
  · cases read
  · rename_i other
    cases read
    exact ⟨other, rfl⟩

end Condition

namespace Node

def part (kind : String) (n : Node) : Except RenderError String :=
  if kind = "media" ∧ n.isComma then .ok "," else (Condition.ofNode n).spaced

theorem part_of_not_comma {kind : String} {n : Node} (other : ¬(kind = "media" ∧ n.isComma)) :
    n.part kind = (Condition.ofNode n).spaced :=
  if_neg other

theorem map_part_segments {ns s : List Node} {ss : List (List Node)}
    (cut : segments isComma ns = s :: ss) :
    (significant ns).map (part "media") =
      (significant s).map (Condition.spaced ∘ Condition.ofNode) ++
        ss.flatMap fun t => .ok "," :: (significant t).map (Condition.spaced ∘ Condition.ofNode) := by
  induction ns generalizing s ss with
  | nil =>
    cases cut
    rfl
  | cons n ns ih =>
    obtain ⟨t, ts, later⟩ := List.exists_cons_of_ne_nil (segments_ne_nil isComma ns)
    rw [segments, later] at cut
    have here := ih later
    by_cases comma : n.isComma
    · have solid : n.isTrivia = false := by
        have token : n.token = .comma := by simpa [isComma] using comma
        simp [isTrivia, token, Token.isTrivia]
      have gives : n.part "media" = .ok "," := if_pos ⟨rfl, comma⟩
      rw [if_pos comma] at cut
      cases cut
      simp [significant, solid, gives] at here ⊢
      exact here
    · have gives : n.part "media" = (Condition.ofNode n).spaced :=
        part_of_not_comma fun both => comma both.2
      rw [if_neg comma] at cut
      cases cut
      by_cases trivia : n.isTrivia
      · simpa [significant, trivia] using here
      · simp [significant, trivia, gives] at here ⊢
        exact here

end Node

namespace Prelude

def queryParts (ns : List Node) : List (Except RenderError String) :=
  (Node.significant ns).map (Condition.spaced ∘ Condition.ofNode)

theorem query_spaced {ns : List Node} {q : List Condition} (read : Condition.read? ns = some q) :
    (Condition.renderAll q).map (" " ++ ·) = joined (queryParts ns) := by
  obtain ⟨some, rfl⟩ := Condition.read?_eq_some read
  rw [Condition.renderAll_spaced some, List.map_map]
  rfl

theorem queries_spaced {ss : List (List Node)} {qs : List (List Condition)}
    (read : ss.mapM Condition.read? = some qs) :
    joined (qs.map fun q => (Condition.renderAll q).map (", " ++ ·)) =
      joined (ss.flatMap fun t => .ok "," :: queryParts t) := by
  induction ss generalizing qs with
  | nil =>
    cases read
    rfl
  | cons t ss ih =>
    rw [List.mapM_cons] at read
    cases first : Condition.read? t with
    | none => simp [first] at read
    | some q =>
      cases later : ss.mapM Condition.read? with
      | none => simp [first, later] at read
      | some rest =>
        obtain rfl : q :: rest = qs := by simpa [first, later] using read
        rw [List.map_cons, joined, ih later, List.flatMap_cons, joined_append, joined_comma,
          query_spaced first, ← joined_pair]

theorem media_spaced {ns : List Node} {queries : List (List Condition)}
    (read : (segments Node.isComma ns).mapM Condition.read? = some queries) :
    (media queries).render.map (" " ++ ·) =
      joined ((Node.significant ns).map (Node.part "media")) := by
  obtain ⟨s, ss, cut⟩ := List.exists_cons_of_ne_nil (segments_ne_nil Node.isComma ns)
  rw [cut, List.mapM_cons] at read
  cases first : Condition.read? s with
  | none => simp [first] at read
  | some q =>
    cases later : ss.mapM Condition.read? with
    | none => simp [first, later] at read
    | some qs =>
      obtain rfl : q :: qs = queries := by simpa [first, later] using read
      rw [render, intercalate_eq_joined, joined_cons_map, query_spaced first, joined,
        queries_spaced later, Node.map_part_segments cut, joined_append]
      rfl

/-- The at-rules whose preludes are conditions. -/
def conditionKinds : List String :=
  ["media", "supports", "container", "scope"]

/-- Some query of a list that is not empty itself has no part. -/
def HasEmptyQuery (kind : String) (ns : List Node) : Prop :=
  kind = "media" ∧ Node.significant ns ≠ [] ∧
    ∃ query ∈ segments Node.isComma ns, Node.significant query = []

theorem read?_eq_none {ns : List Node} : Condition.read? ns = none ↔ Node.significant ns = [] := by
  unfold Condition.read?
  split
  · rename_i none
    simpa using none
  · rename_i some
    simpa using some

theorem mapM_read?_eq_none {ss : List (List Node)} :
    ss.mapM Condition.read? = none ↔ ∃ query ∈ ss, Node.significant query = [] := by
  induction ss with
  | nil => simp
  | cons s ss ih =>
    rw [List.mapM_cons]
    simp only [List.mem_cons, exists_eq_or_imp, ← ih]
    rw [← read?_eq_none]
    cases Condition.read? s <;> cases ss.mapM Condition.read? <;> simp

theorem read_of_emptyQuery {kind : String} {ns : List Node} (empty : HasEmptyQuery kind ns) :
    read kind ns = raw (Node.trimmedText ns) := by
  obtain ⟨rfl, some, query⟩ := empty
  rw [read, if_neg some]
  simp only
  rw [mapM_read?_eq_none.2 query]
  rfl

theorem render_read {kind : String} {ns : List Node} (known : kind ∈ conditionKinds)
    (some : Node.significant ns ≠ []) (full : ¬HasEmptyQuery kind ns) :
    (read kind ns).render.map (" " ++ ·) = joined ((Node.significant ns).map (Node.part kind)) := by
  obtain ⟨parts, found⟩ : ∃ parts, Condition.read? ns = Option.some parts :=
    Option.ne_none_iff_exists'.1 (mt read?_eq_none.1 some)
  have single : kind ≠ "media" → (condition parts).render.map (" " ++ ·) =
      joined ((Node.significant ns).map (Node.part kind)) := by
    intro other
    have gives : ∀ n : Node, n.part kind = (Condition.ofNode n).spaced :=
      fun n => Node.part_of_not_comma fun both => other both.1
    rw [render, query_spaced found, queryParts]
    congr 1
    exact List.map_congr_left fun n _ => (gives n).symm
  rw [read, if_neg some]
  simp only [conditionKinds, List.mem_cons, List.not_mem_nil, or_false] at known
  rcases known with rfl | rfl | rfl | rfl
  · cases queries : (segments Node.isComma ns).mapM Condition.read? with
    | none => exact absurd ⟨rfl, some, mapM_read?_eq_none.1 queries⟩ full
    | some list => simpa [queries] using media_spaced queries
  · simpa [found] using single (by decide)
  · simpa [found] using single (by decide)
  · simpa [found] using single (by decide)

end Prelude

namespace Node

/-- A function, or a group in parentheses or square brackets. -/
def isGroup (n : Node) : Bool :=
  match n.token with
  | .function _ => true
  | .openParen => true
  | .openSquare => true
  | _ => false

/-- What stands in the parentheses of `(name)`, or of `(name: value)`. -/
inductive IsFeature (body : List Node) (name : String) : Option Value → Prop
  | name {n : Node} {rest : List Node} (first : dropTrivia body = n :: rest)
    (ident : n.token = .ident name) (last : dropTrivia rest = []) : IsFeature body name none
  | value {n colon : Node} {rest value : List Node} {v : Value}
    (first : dropTrivia body = n :: rest) (ident : n.token = .ident name)
    (second : dropTrivia rest = colon :: value) (isColon : colon.token = .colon)
    (read : readValue value = .ok v) : IsFeature body name (some v)

theorem feature?_eq_some_iff {body : List Node} {c : Condition} :
    Condition.feature? body = some c ↔ ∃ name v, c = .feature name v ∧ IsFeature body name v := by
  constructor
  · intro found
    unfold Condition.feature? at found
    split at found
    · cases found
    · rename_i n rest first
      split at found
      · rename_i name ident
        split at found
        · rename_i last
          cases found
          exact ⟨name, none, rfl, .name first ident last⟩
        · rename_i colon value second
          split at found
          · rename_i isColon
            split at found
            · rename_i v read
              cases found
              exact ⟨name, some v, rfl, .value first ident second (by simpa using isColon) read⟩
            · cases found
          · cases found
      · cases found
  · rintro ⟨name, v, rfl, feature⟩
    cases feature with
    | name first ident last => simp [Condition.feature?, first, ident, last]
    | value first ident second isColon read =>
      simp [Condition.feature?, first, ident, second, isColon, read]

/-- What the key of an at-rule holds for a group of its condition: a feature anew, if its value has
a text; any other group in parentheses and a function as they stand in the sheet; of a group in
square brackets only the bracket. -/
inductive Kept : Node → String → Prop
  | call {n : Node} {name : String} (token : n.token = .function name) :
    Kept n (String.ofList n.text)
  | parens {l : Lexeme} {body : List Node} {closing : Option Lexeme} (token : l.token = .openParen)
    (other : ∀ name v, ¬IsFeature body name v) :
    Kept (block l body closing) (String.ofList (block l body closing).text)
  | name {l : Lexeme} {body : List Node} {closing : Option Lexeme} {name : String}
    (token : l.token = .openParen) (feature : IsFeature body name none) :
    Kept (block l body closing) ("(" ++ Printer.identifier name ++ ")")
  | value {l : Lexeme} {body : List Node} {closing : Option Lexeme} {name text : String} {v : Value}
    (token : l.token = .openParen) (feature : IsFeature body name (some v))
    (printed : v.render = .ok text) :
    Kept (block l body closing) ("(" ++ Printer.identifier name ++ ": " ++ text ++ ")")
  | bracket {n : Node} (token : n.token = .openSquare) : Kept n "["

theorem render_call {n : Node} {name : String} (token : n.token = .function name) :
    (Condition.ofNode n).render = .ok (String.ofList n.text) := by
  rw [Condition.ofNode.eq_def, token]
  rfl

theorem render_bracket {n : Node} (token : n.token = .openSquare) :
    (Condition.ofNode n).render = .ok "[" := by
  rw [Condition.ofNode.eq_def, token]
  cases n <;> rfl

theorem ofNode_parens {l : Lexeme} {body : List Node} {closing : Option Lexeme}
    (token : l.token = .openParen) :
    Condition.ofNode (block l body closing) = (Condition.feature? body).getD
      (.raw (String.ofList (block l body closing).text)) := by
  rw [Condition.ofNode.eq_def, show (block l body closing).token = .openParen from token]

theorem render_parens_iff {l : Lexeme} {body : List Node} {closing : Option Lexeme}
    (token : l.token = .openParen) {text : String} :
    (Condition.ofNode (block l body closing)).render = .ok text ↔
      (block l body closing).Kept text := by
  rw [ofNode_parens token]
  constructor
  · intro printed
    cases feature : Condition.feature? body with
    | none =>
      rw [feature] at printed
      cases printed
      refine .parens token fun name v isFeature => ?_
      rw [feature?_eq_some_iff.2 ⟨name, v, rfl, isFeature⟩] at feature
      cases feature
    | some c =>
      obtain ⟨name, v, rfl, isFeature⟩ := feature?_eq_some_iff.1 feature
      rw [feature] at printed
      cases v with
      | none =>
        cases printed
        exact .name token isFeature
      | some v =>
        cases value : v.render with
        | error e => simp [Condition.render, value, bind, Except.bind] at printed
        | ok t =>
          obtain rfl : "(" ++ Printer.identifier name ++ ": " ++ t ++ ")" = text := by
            simpa [Condition.render, value, bind, Except.bind] using printed
          exact .value token isFeature value
  · intro kept
    cases kept with
    | call other => cases token.symm.trans other
    | bracket other => cases token.symm.trans other
    | parens _ other =>
      have none : Condition.feature? body = none := by
        by_contra some
        obtain ⟨c, found⟩ := Option.ne_none_iff_exists'.1 some
        obtain ⟨name, v, _, feature⟩ := feature?_eq_some_iff.1 found
        exact other name v feature
      rw [none]
      rfl
    | name _ feature =>
      rw [feature?_eq_some_iff.2 ⟨_, _, rfl, feature⟩]
      rfl
    | value _ feature printed =>
      rw [feature?_eq_some_iff.2 ⟨_, _, rfl, feature⟩]
      simp [Condition.render, printed, bind, Except.bind]

theorem render_ofNode_iff {P : Lexeme → Prop} {n : Node} (built : n.Built P) (group : n.isGroup)
    {text : String} : (Condition.ofNode n).render = .ok text ↔ n.Kept text := by
  unfold isGroup at group
  split at group
  · rename_i name token
    rw [render_call token]
    constructor
    · rintro ⟨⟩
      exact .call token
    · intro kept
      cases kept with
      | call => rfl
      | bracket other => cases token.symm.trans other
      | parens other => cases token.symm.trans other
      | name other => cases token.symm.trans other
      | value other => cases token.symm.trans other
  · rename_i token
    cases built with
    | @leaf l _ plain =>
      rw [show l.token = .openParen from token] at plain
      cases plain
    | block => exact render_parens_iff token
  · rename_i token
    rw [render_bracket token]
    constructor
    · rintro ⟨⟩
      exact .bracket token
    · intro kept
      cases kept with
      | bracket => rfl
      | call other => cases token.symm.trans other
      | parens other => cases token.symm.trans other
      | name other => cases token.symm.trans other
      | value other => cases token.symm.trans other
  · cases group

theorem render_ofNode_of_not_group {n : Node} (other : n.isGroup = false) :
    (Condition.ofNode n).render = .ok n.token.css := by
  unfold isGroup at other
  rw [Condition.ofNode.eq_def]
  split
  · rename_i name ident
    rw [ident]
    rfl
  · rename_i paren
    rw [paren] at other
    cases other
  · rename_i name call
    rw [call] at other
    cases other
  · rfl

/-- What a key holds for a token or group of a condition: commas stand between media queries, and
everything else follows a blank. -/
inductive Part (kind : String) : Node → String → Prop
  | comma {n : Node} (media : kind = "media") (token : n.token = .comma) : Part kind n ","
  | sign {n : Node} (plain : ¬(kind = "media" ∧ n.token = .comma)) (other : n.isGroup = false) :
    Part kind n (" " ++ n.token.css)
  | group {n : Node} {text : String} (group : n.isGroup) (kept : n.Kept text) :
    Part kind n (" " ++ text)

theorem isComma_eq_false_of_isGroup {n : Node} (group : n.isGroup) : n.isComma = false := by
  unfold isGroup at group
  unfold isComma
  split at group <;> simp_all

theorem part_eq_ok_iff {P : Lexeme → Prop} {kind text : String} {n : Node} (built : n.Built P) :
    n.part kind = .ok text ↔ n.Part kind text := by
  have isComma : n.isComma ↔ n.token = .comma := by simp [Node.isComma]
  have spaced : ∀ c : Condition, c.spaced = .ok text ↔ ∃ t, c.render = .ok t ∧ text = " " ++ t := by
    intro c
    unfold Condition.spaced
    cases c.render <;> simp [Except.map, eq_comm]
  by_cases comma : kind = "media" ∧ n.isComma
  · rw [part, if_pos comma]
    constructor
    · rintro ⟨⟩
      exact .comma comma.1 (isComma.1 comma.2)
    · intro gives
      cases gives with
      | comma => rfl
      | sign plain => exact absurd ⟨comma.1, isComma.1 comma.2⟩ plain
      | group group => simp [isComma_eq_false_of_isGroup group] at comma
  · rw [part_of_not_comma comma, spaced]
    have plain : ¬(kind = "media" ∧ n.token = .comma) := fun both =>
      comma ⟨both.1, isComma.2 both.2⟩
    constructor
    · rintro ⟨t, printed, rfl⟩
      cases group : n.isGroup with
      | true => exact .group group ((render_ofNode_iff built group).1 printed)
      | false =>
        rw [render_ofNode_of_not_group group] at printed
        cases printed
        exact .sign plain group
    · intro gives
      cases gives with
      | comma media token => exact absurd ⟨media, token⟩ plain
      | sign _ other => exact ⟨_, render_ofNode_of_not_group other, rfl⟩
      | group group kept => exact ⟨_, (render_ofNode_iff built group).2 kept, rfl⟩

end Node

theorem Number.short_ne_empty (x : Number) : x.short.1 ≠ "" := by
  have signed : ∀ (s : Bool) {text : String}, text ≠ "" → sign s ++ text ≠ "" :=
    fun s _ some => append_ne_empty_right (sign s) some
  cases x with
  | nan => simp [short]
  | infinite s => exact signed s (by decide)
  | finite s m e =>
    rw [short]
    split_ifs
    · exact signed s (by decide)
    · simp only
      split_ifs
      · apply signed s
        have some := (((shortest .single m e).sixDigits.strip 7).isDecimalChar_plain).1
        simpa using some
      · apply signed s
        unfold Decimal.scientific
        simp only
        exact append_ne_empty_left (append_ne_empty_left (append_ne_empty_right _ (by decide)) _) _

theorem Token.css_ne_empty {t : Token} (named : t.IsNamed) : t.css ≠ "" := by
  have numeric : ∀ (value : Number) (integer : Option Int) (signed : Bool),
      Printer.numeric value integer signed ≠ "" := by
    intro value integer signed
    unfold Printer.numeric
    exact append_ne_empty_left (append_ne_empty_right _ value.short_ne_empty) _
  cases t with
  | ident name => exact Printer.identifier_ne_empty named
  | delim c => simp [css, Char.toString]
  | number n => exact numeric _ _ _
  | percentage n => exact append_ne_empty_left (numeric _ _ _) _
  | dimension n u => exact append_ne_empty_left (numeric _ _ _) _
  | function name => exact append_ne_empty_right _ (by decide)
  | string s => exact append_ne_empty_left (append_ne_empty_left (by decide) _) _
  | url u => exact append_ne_empty_left (append_ne_empty_left (by decide) _) _
  | badString s => exact append_ne_empty_left (by decide) _
  | badUrl s => exact append_ne_empty_left (append_ne_empty_left (by decide) _) _
  | atKeyword name => exact append_ne_empty_left (by decide) _
  | hash name => exact append_ne_empty_left (by decide) _
  | idHash name => exact append_ne_empty_left (by decide) _
  | _ => simp [css]

namespace Node

theorem Kept.ne_empty {n : Node} {text : String} (kept : n.Kept text)
    (built : n.Built Lexeme.Spans) : text ≠ "" := by
  have spans : n.text ≠ [] := by
    cases built with
    | leaf holds _ => exact holds
    | block holds _ _ _ _ =>
      rw [Node.text, List.append_assoc]
      exact List.append_ne_nil_of_left_ne_nil holds _
  cases kept with
  | call => simpa using spans
  | parens => simpa using spans
  | name => exact append_ne_empty_left (append_ne_empty_left (by decide) _) _
  | value =>
    rw [String.append_assoc, String.append_assoc, String.append_assoc]
    exact append_ne_empty_left (by decide) _
  | bracket => decide

theorem Part.cases {kind text : String} {n : Node} (gives : n.Part kind text)
    (built : n.Built Lexeme.Spans) (named : n.token.IsNamed) :
    text = "," ∨ ∃ t, text = " " ++ t ∧ t ≠ "" := by
  cases gives with
  | comma => exact .inl rfl
  | sign => exact .inr ⟨_, rfl, Token.css_ne_empty named⟩
  | group _ kept => exact .inr ⟨_, rfl, kept.ne_empty built⟩

theorem map_part_eq_iff {P : Lexeme → Prop} {kind : String} {ns : List Node} {texts : List String}
    (built : ∀ n ∈ ns, n.Built P) :
    ns.map (part kind) = texts.map .ok ↔ List.Forall₂ (Part kind) ns texts := by
  induction ns generalizing texts with
  | nil => cases texts <;> simp
  | cons n ns ih =>
    cases texts with
    | nil => simp
    | cons t texts =>
      rw [List.map_cons, List.map_cons, List.cons.injEq, List.forall₂_cons,
        part_eq_ok_iff (built n (by simp)), ih fun m member => built m (by simp [member])]

end Node

namespace Prelude

variable {kind name key : String} {ns : List Node}

theorem atRuleKey_eq_ok_iff {clause : Prelude} : atRuleKey name clause = .ok key ↔
    ∃ text, clause.render = .ok text ∧
      key = if text = "" then "@" ++ name else "@" ++ name ++ " " ++ text := by
  unfold atRuleKey
  cases clause.render <;> simp [bind, Except.bind, eq_comm]

theorem atRuleKey_read_iff (known : kind ∈ conditionKinds) (full : ¬HasEmptyQuery kind ns)
    (built : ∀ n ∈ ns, n.Built Lexeme.Spans) (named : ∀ n ∈ ns, n.token.IsNamed) :
    atRuleKey name (read kind ns) = .ok key ↔ ∃ texts,
      List.Forall₂ (Node.Part kind) (Node.significant ns) texts ∧
        key = "@" ++ name ++ String.join texts := by
  have inside : ∀ n ∈ Node.significant ns, n ∈ ns := fun n member => (List.mem_filter.1 member).1
  by_cases none : Node.significant ns = []
  · rw [read, if_pos none, none]
    simp [atRuleKey, render, bind, Except.bind, eq_comm, String.join]
  have printed : ∀ {row}, (read kind ns).render.map (" " ++ ·) = .ok row ↔ ∃ texts,
      List.Forall₂ (Node.Part kind) (Node.significant ns) texts ∧ row = String.join texts := by
    intro row
    rw [render_read known none full, joined_eq_ok_iff]
    simp only [Node.map_part_eq_iff fun n member => built n (inside n member)]
  have nonempty : ∀ {text}, (read kind ns).render = .ok text → text ≠ "" := by
    rintro text ok rfl
    obtain ⟨texts, parts, same⟩ := printed.1 (congrArg (Except.map (" " ++ ·)) ok)
    obtain ⟨n, rest, first⟩ := List.exists_cons_of_ne_nil none
    rw [first] at parts
    obtain ⟨t, texts, gives, _, rfl⟩ := List.forall₂_cons_left_iff.1 parts
    have here := inside n (by simp [first])
    rw [String.join_cons] at same
    rcases gives.cases (built n here) (named n here) with rfl | ⟨u, rfl, some⟩
    · have chars := congrArg String.toList same
      simp [String.toList_append] at chars
    · have chars := congrArg String.toList same
      simp [String.toList_append] at chars
      exact some chars.1
  rw [atRuleKey_eq_ok_iff]
  constructor
  · rintro ⟨text, ok, rfl⟩
    obtain ⟨texts, parts, same⟩ := printed.1 (congrArg (Except.map (" " ++ ·)) ok)
    exact ⟨texts, parts, by rw [if_neg (nonempty ok), ← same, String.append_assoc]⟩
  · rintro ⟨texts, parts, rfl⟩
    obtain ⟨text, ok, same⟩ := exists_of_map_ok (printed.2 ⟨texts, parts, rfl⟩)
    exact ⟨text, ok, by simp only [if_neg (nonempty ok), ← same, String.append_assoc]⟩

end Prelude

/-- Texts that stand in another one after the other. -/
def InOrder : List (List Char) → List Char → Prop
  | [], _ => True
  | t :: ts, cs => ∃ front rest, cs = front ++ (t ++ rest) ∧ InOrder ts rest

section InOrder

variable {ts : List (List Char)} {cs : List Char}

theorem InOrder.prepend (order : InOrder ts cs) (more : List Char) : InOrder ts (more ++ cs) := by
  cases ts with
  | nil => trivial
  | cons t ts =>
    obtain ⟨front, rest, rfl, later⟩ := order
    exact ⟨more ++ front, rest, by simp, later⟩

theorem inOrder_textOf (p : Node → Bool) (ns : List Node) :
    InOrder ((ns.filter p).map Node.text) (Node.textOf ns) := by
  induction ns with
  | nil => trivial
  | cons n ns ih =>
    rw [Node.textOf]
    by_cases kept : p n
    · rw [List.filter_cons_of_pos kept]
      exact ⟨[], Node.textOf ns, rfl, ih⟩
    · rw [List.filter_cons_of_neg kept]
      exact ih.prepend n.text

theorem trimEnd_append {front : List Char}
    (last : ∀ x ∈ front.getLast?, Text.isWhiteSpace x = false)
    (cs : List Char) : Text.trimEnd (front ++ cs) = front ++ Text.trimEnd cs := by
  obtain ⟨trail, same, blank⟩ := exists_rdropWhile Text.isWhiteSpace cs
  have solid : ∀ x ∈ (front ++ cs.rdropWhile Text.isWhiteSpace).getLast?,
      Text.isWhiteSpace x = false := by
    intro x member
    rw [List.getLast?_append] at member
    cases inner : (cs.rdropWhile Text.isWhiteSpace).getLast? with
    | none => exact last x (by simpa [inner] using member)
    | some y => exact getLast?_rdropWhile _ cs x (by simpa [inner] using member)
  have whole := rdropWhile_append blank solid
  rwa [List.append_assoc, ← same] at whole

theorem InOrder.trimEnd (order : InOrder ts cs)
    (solid : ∀ t ∈ ts, ∀ x ∈ t.getLast?, Text.isWhiteSpace x = false) (some : ∀ t ∈ ts, t ≠ []) :
    InOrder ts (Text.trimEnd cs) := by
  induction ts generalizing cs with
  | nil => trivial
  | cons t ts ih =>
    obtain ⟨front, rest, rfl, later⟩ := order
    have last : ∀ x ∈ (front ++ t).getLast?, Text.isWhiteSpace x = false := by
      intro x member
      rw [List.getLast?_append, List.getLast?_eq_some_getLast (some t (by simp))] at member
      exact solid t (by simp) x (by
        rw [List.getLast?_eq_some_getLast (some t (by simp))]
        exact member)
    refine ⟨front, Text.trimEnd rest, ?_, ih later (fun u member => solid u (by simp [member]))
      fun u member => some u (by simp [member])⟩
    rw [← List.append_assoc, trimEnd_append last, List.append_assoc]

end InOrder

namespace Lexer

theorem Scans.text_of_comma {ls : List Lexeme} {rest : List Char} (scans : Scans ls rest) :
    ∀ l ∈ ls, l.token = .comma → l.text = [','] := by
  induction scans with
  | nil => simp
  | @cons l c u ls rest text scanned _ ih =>
    refine List.forall_mem_cons.2 ⟨fun comma => ?_, ih⟩
    have read := isRead_of_scan scanned
    rw [comma] at read
    have same : ',' :: (ls.flatMap Lexeme.text ++ rest) =
        c :: (u ++ ls.flatMap Lexeme.text ++ rest) :=
      read
    rw [List.append_assoc, List.cons.injEq, List.self_eq_append_left] at same
    rw [text, ← same.1, same.2]

end Lexer

namespace Text

theorem mem_trim {cs : List Char} {c : Char} (member : c ∈ cs) (solid : isWhiteSpace c = false) :
    c ∈ trim cs := by
  have started : c ∈ trimStart cs := by
    rw [← List.takeWhile_append_dropWhile (p := isWhiteSpace) (l := cs), List.mem_append] at member
    rcases member with blank | rest
    · simp [List.mem_takeWhile_imp blank] at solid
    · exact rest
  obtain ⟨trail, same, blank⟩ := exists_rdropWhile isWhiteSpace (trimStart cs)
  rw [same, List.mem_append] at started
  rcases started with rest | blanks
  · exact rest
  · simp [blank c blanks] at solid

theorem trim_of_head? {cs : List Char} (first : ∀ x ∈ cs.head?, isWhiteSpace x = false) :
    trim cs = trimEnd cs := by
  obtain _ | ⟨c, cs⟩ := cs
  · rfl
  · rw [trim, trimStart, List.dropWhile_cons_of_neg (by simp [first c rfl])]

end Text

namespace Node

variable {awaited : Option Token} {last : Bool} {front : List Node} {more : List Char}

theorem closing?_of_isGroup {n : Node} (group : n.isGroup) :
    n.token.closing? = some .closeParen ∨ n.token.closing? = some .closeSquare := by
  unfold isGroup at group
  split at group
  · rename_i call
    exact .inl (by rw [call]; rfl)
  · rename_i paren
    exact .inl (by rw [paren]; rfl)
  · rename_i square
    exact .inr (by rw [square]; rfl)
  · cases group

theorem Placed.getLast?_text {n : Node} (placed : Placed awaited last front more)
    (member : n ∈ front) (group : n.isGroup) (built : n.Built Lexeme.Spans) (closed : n.isClosed) :
    n.text.getLast? = some ')' ∨ n.text.getLast? = some ']' := by
  have closes := closing?_of_isGroup group
  cases built with
  | @leaf l _ plain => simp [token, plain] at closes
  | @block l body closing =>
    obtain ⟨c, rfl⟩ := Option.isSome_iff_exists.1 closed
    obtain ⟨last', more', _, single⟩ := placed.single member
    obtain ⟨t, _, awaits, found, _⟩ := single.body
    obtain rfl : c.token = t := found c rfl
    have text : c.token.kind = .bracket → c.text = c.token.css.toList :=
      single.scans.text_of_bracket c (by simp [lexemesOf, lexemes])
    have ends : (block l body (some c)).text = l.text ++ textOf body ++ c.text := rfl
    rw [ends]
    rcases closes with paren | square
    · obtain token : c.token = .closeParen := Option.some.inj (awaits.symm.trans paren)
      rw [text (by rw [token]; rfl), token]
      exact .inl (by simp [Token.css])
    · obtain token : c.token = .closeSquare := Option.some.inj (awaits.symm.trans square)
      rw [text (by rw [token]; rfl), token]
      exact .inr (by simp [Token.css])

theorem filter_isGroup_dropTrivia (ns : List Node) :
    (dropTrivia ns).filter isGroup = ns.filter isGroup := by
  conv_rhs => rw [← List.takeWhile_append_dropWhile (p := isTrivia) (l := ns), List.filter_append]
  have none : (ns.takeWhile isTrivia).filter isGroup = [] := by
    refine List.filter_eq_nil_iff.2 fun n member => ?_
    have trivia := List.mem_takeWhile_imp member
    unfold isTrivia Token.isTrivia at trivia
    unfold isGroup
    split at trivia <;> simp_all
  rw [none, List.nil_append, dropTrivia]

end Node

theorem exists_forall₂_iff {α β : Type} {R : α → β → Prop} {xs : List α} :
    (∃ ys, List.Forall₂ R xs ys) ↔ ∀ x ∈ xs, ∃ y, R x y := by
  induction xs with
  | nil => simp
  | cons x xs ih =>
    rw [List.forall_mem_cons, ← ih]
    constructor
    · rintro ⟨ys, related⟩
      obtain ⟨y, ys, first, later, rfl⟩ := List.forall₂_cons_left_iff.1 related
      exact ⟨⟨y, first⟩, ys, later⟩
    · rintro ⟨⟨y, first⟩, ys, later⟩
      exact ⟨y :: ys, .cons first later⟩

namespace Node

theorem exists_part_iff (kind : String) {n : Node} :
    (∃ text, n.Part kind text) ↔ (n.isGroup → ∃ text, n.Kept text) := by
  constructor
  · rintro ⟨text, gives⟩ group
    cases gives with
    | comma _ token => simp [isGroup, token] at group
    | sign _ other => simp [other] at group
    | group _ kept => exact ⟨_, kept⟩
  · intro kept
    by_cases group : n.isGroup
    · obtain ⟨text, here⟩ := kept group
      exact ⟨_, .group group here⟩
    · by_cases comma : kind = "media" ∧ n.token = .comma
      · exact ⟨_, .comma comma.1 comma.2⟩
      · exact ⟨_, .sign comma (by simpa using group)⟩

theorem isTrivia_of_isGroup {n : Node} (group : n.isGroup) : n.isTrivia = false := by
  unfold isGroup at group
  unfold isTrivia Token.isTrivia
  split at group <;> simp_all

end Node

namespace Prelude

variable {kind name : String} {awaited : Option Token} {last : Bool} {ns : List Node}
  {more : List Char}

theorem trimmedText_ne_empty (empty : HasEmptyQuery kind ns)
    (placed : Node.Placed awaited last ns more) (built : ∀ n ∈ ns, n.Built Lexeme.Spans) :
    Node.trimmedText ns ≠ "" := by
  obtain ⟨-, some, query, found, none⟩ := empty
  obtain ⟨n, member, comma⟩ : ∃ n ∈ ns, n.isComma := by
    by_contra other
    rw [segments_of_forall fun n member => by
      by_contra comma
      exact other ⟨n, member, by simpa using comma⟩] at found
    obtain rfl := List.mem_singleton.1 found
    exact some none
  have token : n.token = .comma := by simpa [Node.isComma] using comma
  have text : n.text = [','] := by
    cases built n member with
    | @leaf l _ _ =>
      obtain ⟨front, behind, rfl⟩ := List.append_of_mem member
      refine placed.scans.text_of_comma l ?_ token
      simp [Node.lexemesOf_append, Node.lexemesOf, Node.lexemes]
    | @block l _ _ _ opens =>
      rw [show l.token = .comma from token] at opens
      cases opens
  have kept : n ∈ Node.dropTrivia ns := by
    rw [← List.takeWhile_append_dropWhile (p := Node.isTrivia) (l := ns), List.mem_append] at member
    rcases member with trivia | here
    · have blank := List.mem_takeWhile_imp trivia
      simp [Node.isTrivia, token, Token.isTrivia] at blank
    · exact here
  have inside : ',' ∈ Node.textOf (Node.dropTrivia ns) := by
    obtain ⟨front, behind, same⟩ := List.append_of_mem kept
    simp [same, Node.textOf_append, Node.textOf, text]
  intro blank
  have trimmed : ',' ∈ Text.trim (Node.textOf (Node.dropTrivia ns)) :=
    Text.mem_trim inside (by decide)
  rw [← String.toList_ofList (l := Text.trim _)] at trimmed
  rw [show String.ofList (Text.trim (Node.textOf (Node.dropTrivia ns))) = "" from blank] at trimmed
  simp at trimmed

theorem exists_atRuleKey_read_iff (known : kind ∈ conditionKinds) (full : ¬HasEmptyQuery kind ns)
    (built : ∀ n ∈ ns, n.Built Lexeme.Spans) (named : ∀ n ∈ ns, n.token.IsNamed) :
    (∃ key, atRuleKey name (read kind ns) = .ok key) ↔
      ∀ n ∈ ns, n.isGroup → ∃ text, n.Kept text := by
  have groups : (∀ n ∈ Node.significant ns, n.isGroup → ∃ text, n.Kept text) ↔
      ∀ n ∈ ns, n.isGroup → ∃ text, n.Kept text := by
    simp only [Node.significant, List.mem_filter, and_imp]
    exact forall₂_congr fun n member =>
      ⟨fun kept group => kept (by simp [Node.isTrivia_of_isGroup group]) group,
        fun kept _ => kept⟩
  rw [← groups]
  simp only [atRuleKey_read_iff known full built named, ← Node.exists_part_iff kind,
    ← exists_forall₂_iff]
  constructor
  · rintro ⟨_, texts, parts, _⟩
    exact ⟨texts, parts⟩
  · rintro ⟨texts, parts⟩
    exact ⟨_, texts, parts, rfl⟩

end Prelude

theorem Node.Placed.inOrder_trimmedText {awaited : Option Token} {last : Bool} {front : List Node}
    {more : List Char} (placed : Placed awaited last front more)
    (built : ∀ n ∈ front, n.Built Lexeme.Spans)
    (closed : ∀ n ∈ front, n.isGroup → n.isClosed)
    (solid : ∀ x ∈ (textOf (dropTrivia front)).head?, Text.isWhiteSpace x = false) :
    InOrder ((front.filter isGroup).map text) (trimmedText front).toList := by
  have ends : ∀ n ∈ front.filter isGroup,
      n.text.getLast? = some ')' ∨ n.text.getLast? = some ']' := by
    intro n member
    obtain ⟨here, group⟩ := List.mem_filter.1 member
    exact placed.getLast?_text here group (built n here) (closed n here group)
  have order := inOrder_textOf isGroup (dropTrivia front)
  rw [filter_isGroup_dropTrivia] at order
  rw [trimmedText, String.toList_ofList, Text.trim_of_head? solid]
  refine order.trimEnd (List.forall_mem_map.2 fun n member x found => ?_)
    (List.forall_mem_map.2 fun n member none => ?_)
  · rcases ends n member with paren | square
    · rw [paren] at found
      cases found
      decide
    · rw [square] at found
      cases found
      decide
  · rcases ends n member with paren | square
    · simp [none] at paren
    · simp [none] at square

/-- Of a condition nothing is lost but what stands in square brackets. The key of an at-rule with a
condition is its name and one part for each token and group of the condition, in source order, and
there is a key if each feature among the groups has a text. If a media query is empty, the prelude
is kept as it stands but for white space at its ends; then closed groups stand in the key in source
order, unless the first one is a function whose name starts with what is taken for white space. -/
theorem groups_in_key {css : String} {k : Nat} {start : Location} {name : String}
    {clause : Prelude} {body : AtBody}
    (lies : LiesIn (readRules (Node.ofText css.toList)) k (.atRule start name clause body))
    (condition : atRuleKind name ∈ Prelude.conditionKinds) :
    ∃ ms front, Inside (Node.ofText css.toList) ms ∧ Node.PreludeOf ms start name front ∧
      (¬Prelude.HasEmptyQuery (atRuleKind name) front →
        ((∃ key, atRuleKey name clause = .ok key) ↔
          ∀ n ∈ front, n.isGroup → ∃ text, n.Kept text) ∧
        ∀ key, atRuleKey name clause = .ok key ↔ ∃ texts,
          List.Forall₂ (Node.Part (atRuleKind name)) (Node.significant front) texts ∧
            key = "@" ++ name ++ String.join texts) ∧
      (Prelude.HasEmptyQuery (atRuleKind name) front →
        atRuleKey name clause = .ok ("@" ++ name ++ " " ++ Node.trimmedText front) ∧
        ((∀ n ∈ front, n.isGroup → n.isClosed) →
          (∀ x ∈ (Node.textOf (Node.dropTrivia front)).head?, Text.isWhiteSpace x = false) →
          InOrder ((front.filter Node.isGroup).map Node.text)
            (Node.trimmedText front).toList)) := by
  obtain ⟨ms, front, inside, place, rfl⟩ := lies.exists_preludeOf
  have isFront : ∀ n ∈ front, n ∈ ms := by
    obtain ⟨before, keyword, rest, rfl, _⟩ := place
    intro n member
    simp [member]
  have built : ∀ n ∈ front, n.Built Lexeme.Spans := fun n member =>
    (inside.level (Node.level_spans css.toList)).built n (isFront n member)
  obtain ⟨awaited, last, more, placed⟩ : ∃ awaited last more,
      Node.Placed awaited last front more := by
    obtain ⟨awaited, last, more, whole⟩ := inside.placed
    obtain ⟨before, keyword, rest, rfl, _⟩ := place
    rw [List.append_cons] at whole
    obtain ⟨last', more', _, here⟩ := whole.right.front
    exact ⟨awaited, last', more', here⟩
  refine ⟨ms, front, inside, place, fun full => ?_, fun empty => ⟨?_, fun closed solid => ?_⟩⟩
  · have named : ∀ n ∈ front, n.token.IsNamed := by
      have level : Node.Level (fun l => l.token.IsNamed) (Node.ofText css.toList) :=
        Node.level_ofText (Lexer.lexemesFrom_isNamed _ _)
      intro n member
      cases (inside.level level).built n (isFront n member) with
      | leaf holds => exact holds
      | block holds => exact holds
    exact ⟨Prelude.exists_atRuleKey_read_iff condition full built named,
      fun _ => Prelude.atRuleKey_read_iff condition full built named⟩
  · rw [Prelude.read_of_emptyQuery empty, Prelude.atRuleKey_eq_ok_iff]
    exact ⟨_, rfl, by rw [if_neg (Prelude.trimmedText_ne_empty empty placed built)]⟩
  · exact placed.inOrder_trimmedText built closed solid

def Rule.hasKey (name key : String) : Rule → Bool
  | .atRule _ other clause _ => other == name && (atRuleKey other clause).toOption == some key
  | _ => false

theorem Rule.hasKey_iff {name key : String} {r : Rule} : r.hasKey name key ↔
    ∃ start clause body, r = .atRule start name clause body ∧ atRuleKey name clause = .ok key := by
  cases r with
  | style start head body => simp [hasKey]
  | unrecognized start reason source => simp [hasKey]
  | atRule start other clause body =>
    have same : (atRuleKey other clause).toOption = some key ↔
        atRuleKey other clause = .ok key := by
      cases atRuleKey other clause <;> simp [Except.toOption]
    simp only [hasKey, Bool.and_eq_true, beq_iff_eq, same, atRule.injEq]
    constructor
    · rintro ⟨rfl, keyed⟩
      exact ⟨start, clause, body, ⟨rfl, rfl, rfl, rfl⟩, keyed⟩
    · rintro ⟨_, _, _, ⟨_, rfl, rfl, rfl⟩, keyed⟩
      exact ⟨rfl, keyed⟩

def groupedSheet : String :=
  "@container x [c] (d:1px) f(e){@media (a) ,, [b] g([h]) {}}"

theorem groups_in_key_groupedSheet :
    (∃ start clause body, LiesIn (readRules (Node.ofText groupedSheet.toList)) 0
        (.atRule start "container" clause body) ∧
      atRuleKey "container" clause = .ok "@container x [ (d: 1px) f(e)" ∧
      ∃ ms front texts, Node.PreludeOf ms start "container" front ∧
        List.Forall₂ (Node.Part "container") (Node.significant front) texts ∧
        "@container x [ (d: 1px) f(e)" = "@" ++ "container" ++ String.join texts) ∧
    ∃ start clause body, LiesIn (readRules (Node.ofText groupedSheet.toList)) 1
        (.atRule start "media" clause body) ∧
      atRuleKey "media" clause = .ok "@media (a) ,, [b] g([h])" := by
  have evaluated :
      (rulesIn (readRules (Node.ofText groupedSheet.toList)) 0).any
        (Rule.hasKey "container" "@container x [ (d: 1px) f(e)") ∧
      (rulesIn (readRules (Node.ofText groupedSheet.toList)) 1).any
        (Rule.hasKey "media" "@media (a) ,, [b] g([h])") := by
    decide +kernel
  simp only [List.any_eq_true, ← liesIn_iff, Rule.hasKey_iff] at evaluated
  obtain ⟨⟨_, first, start, clause, body, rfl, keyed⟩, _, second, start', clause', body', rfl,
    keyed'⟩ := evaluated
  refine ⟨⟨start, clause, body, first, keyed, ?_⟩, start', clause', body', second, keyed'⟩
  have kind : atRuleKind "container" = "container" := by decide +kernel
  obtain ⟨ms, front, _, place, parts, _⟩ := groups_in_key first (by rw [kind]; decide)
  rw [kind] at parts
  obtain ⟨texts, each, whole⟩ := ((parts fun empty => absurd empty.1 (by decide)).2 _).1 keyed
  exact ⟨ms, front, texts, place, each, whole⟩

end CssOutline
