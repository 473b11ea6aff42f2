import CssOutline.Proofs.Layout

/-! What the groups of a value mean. -/

namespace CssOutline

open Lexer

/-- Values that mean this one after the other, with something between them. -/
inductive Value.Joined (between : List Gist) : List Value → List Gist → Prop
  | single {v : Value} {gs : List Gist} (means : v.Means gs) : Joined between [v] gs
  | cons {v : Value} {vs : List Value} {gs hs : List Gist} (means : v.Means gs)
    (later : Joined between vs hs) : Joined between (v :: vs) (gs ++ (between ++ hs))

inductive Value.Listed : List Value → List Gist → Prop
  | nil : Listed [] []
  | cons {v : Value} {vs : List Value} {gs hs : List Gist} (means : v.Means gs)
    (later : Listed vs hs) : Listed (v :: vs) (gs ++ hs)

def commaGist : List Gist := [(.comma, [])]

/-- Groups that mean this one after the other, with commas between them. -/
inductive Value.Grouped : List (List Value) → List Gist → Prop
  | single {vs : List Value} {gs : List Gist} (listed : Listed vs gs) : Grouped [vs] gs
  | cons {vs : List Value} {vss : List (List Value)} {gs hs : List Gist} (listed : Listed vs gs)
    (later : Grouped vss hs) : Grouped (vs :: vss) (gs ++ (commaGist ++ hs))

namespace Value

theorem Listed.append {vs ws : List Value} {gs hs : List Gist} (first : Listed vs gs)
    (second : Listed ws hs) : Listed (vs ++ ws) (gs ++ hs) := by
  induction first with
  | nil => exact second
  | cons means _ ih =>
    rw [List.append_assoc]
    exact .cons means ih

theorem Listed.joined {v : Value} {vs : List Value} {gs : List Gist}
    (listed : Listed (v :: vs) gs) :
    Joined [] (v :: vs) gs := by
  induction vs generalizing v gs with
  | nil =>
    cases listed with
    | cons means later =>
      cases later
      rw [List.append_nil]
      exact .single means
  | cons w vs ih =>
    cases listed with
    | cons means later => exact .cons means (ih later)

theorem Joined.means_single {between : List Gist} {v : Value} {gs : List Gist}
    (joined : Joined between [v] gs) : v.Means gs := by
  cases joined with
  | single means => exact means
  | cons _ later => cases later

theorem gists_space {rest : List Char} (solid : Node.Solid rest) :
    gists (' ' :: rest) = gists rest := by
  have stays : rest.dropWhile Text.isBlank = rest := by
    obtain _ | ⟨x, rest⟩ := rest
    · rfl
    · exact List.dropWhile_cons_of_neg (by simp [solid x rfl])
  have scanned : scan ' ' ([] ++ rest) = (.whitespace, rest) := by
    rw [scan_of_blank rfl, List.nil_append, stays]
  exact gists_of_scan (l := ⟨.whitespace, [' '], .origin⟩) rfl scanned

theorem gists_comma (rest : List Char) : gists (',' :: rest) = commaGist ++ gists rest :=
  gists_of_scan (l := ⟨.comma, [','], .origin⟩) (u := []) rfl rfl

def Separates (separator : String) (between : List Gist) : Prop :=
  ∀ {cs ds : List Char} {gs hs : List Gist}, Lexer.Means cs gs → Lexer.Means ds hs →
    Node.Visible ds → Lexer.Means (cs ++ (separator.toList ++ ds)) (gs ++ (between ++ hs))

theorem separates_space : Separates " " [] := by
  intro cs ds gs hs first second visible rest ends
  have stops : Grammar.EndsWord (' ' :: (ds ++ rest)) := by
    rintro x ⟨⟩
    exact .inl rfl
  have split : cs ++ (" ".toList ++ ds) ++ rest = cs ++ (' ' :: (ds ++ rest)) := by simp
  rw [split, first _ stops, gists_space (visible.solid rest), second rest ends]
  simp

theorem separates_comma : Separates ", " commaGist := by
  intro cs ds gs hs first second visible rest ends
  have stops : Grammar.EndsWord (',' :: ' ' :: (ds ++ rest)) := by
    rintro x ⟨⟩
    exact .inr (.inl rfl)
  have split : cs ++ (", ".toList ++ ds) ++ rest = cs ++ (',' :: ' ' :: (ds ++ rest)) := by simp
  rw [split, first _ stops, gists_comma, gists_space (visible.solid rest), second rest ends]
  simp

theorem Joined.exists_texts {separator : String} {between : List Gist}
    (separates : Separates separator between) {vs : List Value} {gs : List Gist}
    (joined : Joined between vs gs) :
    ∃ text texts, renderAll vs = .ok (text :: texts) ∧
      Node.Visible (separator.intercalate (text :: texts)).toList ∧
      Lexer.Means (separator.intercalate (text :: texts)).toList gs := by
  induction joined with
  | single means =>
    obtain ⟨text, render, visible, means⟩ := means
    refine ⟨text, [], ?_, by simpa using visible, by simpa using means⟩
    rw [renderAll, render]
    rfl
  | cons means later ih =>
    obtain ⟨text, render, visible, means⟩ := means
    obtain ⟨next, texts, renders, visibleLater, meansLater⟩ := ih
    refine ⟨text, next :: texts, ?_, ?_, ?_⟩
    · rw [renderAll, render, renders]
      rfl
    · rw [String.intercalate_cons_cons, String.toList_append, String.toList_append,
        List.append_assoc]
      exact visible.append _
    · rw [String.intercalate_cons_cons, String.toList_append, String.toList_append,
        List.append_assoc]
      exact separates means meansLater visibleLater

theorem Joined.list {vs : List Value} {gs : List Gist} (joined : Joined [] vs gs) :
    (list vs).Means gs := by
  obtain ⟨text, texts, renders, visible, means⟩ := joined.exists_texts separates_space
  refine ⟨_, ?_, visible, means⟩
  rw [render, renders]
  rfl

theorem Joined.commaList {vs : List Value} {gs : List Gist} (joined : Joined commaGist vs gs) :
    (commaList vs).Means gs := by
  obtain ⟨text, texts, renders, visible, means⟩ := joined.exists_texts separates_comma
  refine ⟨_, ?_, visible, means⟩
  rw [render, renders]
  rfl

theorem Listed.exists_value {vs : List Value} {gs : List Gist} (listed : Listed vs gs)
    {vss : List (List Value)} {ws : List Value}
    (found : Piece.groupValues? (vs :: vss) = some ws) :
    ∃ v later, ws = v :: later ∧ v.Means gs ∧ Piece.groupValues? vss = some later := by
  obtain _ | ⟨v, _ | ⟨w, vs⟩⟩ := vs
  · cases found
  · obtain ⟨later, rest, rfl⟩ := Option.map_eq_some_iff.1 found
    exact ⟨v, later, rfl, listed.joined.means_single, rest⟩
  · obtain ⟨later, rest, rfl⟩ := Option.map_eq_some_iff.1 found
    exact ⟨_, later, rfl, listed.joined.list, rest⟩

theorem Grouped.joined {vss : List (List Value)} {vs : List Value} {gs : List Gist}
    (grouped : Grouped vss gs) (found : Piece.groupValues? vss = some vs) :
    Joined commaGist vs gs := by
  induction grouped generalizing vs with
  | single listed =>
    obtain ⟨v, later, rfl, means, rest⟩ := listed.exists_value found
    cases rest
    exact .single means
  | cons listed _ ih =>
    obtain ⟨v, later, rfl, means, rest⟩ := listed.exists_value found
    exact .cons means (ih rest)

end Value

namespace Node

def Speaks (n : Node) : Prop :=
  ∀ (lead : List Node) (v : Value), (∀ m ∈ lead, m.token = .comment) → Sliced (lead ++ [n]) →
    n.isTrivia = false → value? (textOf lead) n = some v → v.Means (gists [n])

theorem ne_whitespace_of_solid {n : Node} (solid : n.isTrivia = false) : n.token ≠ .whitespace := by
  intro blank
  simp [isTrivia_iff.2 (.inl blank)] at solid

end Node

namespace Piece

open Node (textOf gists Sliced significant)
open Value (Listed Grouped)

/-- Parts of a word and the nodes they were made of. -/
structure Spans (parts : List (List Char × Value)) (ws : List Node) : Prop where
  text : parts.flatMap Prod.fst = textOf ws
  empty : parts = [] ↔ ws = []
  visible : ∀ n ∈ ws, n.token ≠ .whitespace
  single : ∀ t v, parts = [(t, v)] → v.Means (gists ws)

theorem spans_nil : Spans [] [] where
  text := rfl
  empty := by simp
  visible := by simp
  single := by simp

variable {parts : List (List Char × Value)} {ws lead ns ms : List Node} {n : Node}

theorem Spans.listed (spans : Spans parts ws) (sliced : Sliced ws) :
    Listed (wordValue parts) (gists ws) := by
  obtain _ | ⟨⟨t, v⟩, _ | ⟨p, parts⟩⟩ := parts
  · rw [spans.empty.1 rfl]
    exact .nil
  · have means := Listed.cons (spans.single t v rfl) .nil
    rwa [List.append_nil] at means
  · have some : ws ≠ [] := fun none => by simpa using spans.empty.2 none
    have means := sliced.means_raw some
      (fun n member => spans.visible n (List.mem_of_head? member))
      fun n member => spans.visible n (List.mem_of_getLast? member)
    rw [← spans.text] at means
    have listed := Listed.cons means .nil
    rwa [List.append_nil] at listed

theorem Spans.concat (spans : Spans parts ws) (comments : ∀ m ∈ lead, m.token = .comment)
    (solid : n.isTrivia = false) (whole : ∀ m ∈ lead, m.Whole) {v : Value}
    (means : v.Means (gists [n])) :
    Spans (parts ++ [(textOf lead ++ n.text, v)]) (ws ++ (lead ++ [n])) where
  text := by simp [spans.text, Node.textOf_append, textOf]
  empty := by simp
  visible := by
    intro m member
    simp only [List.mem_append, List.mem_singleton] at member
    rcases member with before | comment | rfl
    · exact spans.visible m before
    · simp [comments m comment]
    · exact Node.ne_whitespace_of_solid solid
  single := by
    intro t v' same
    have none : parts = [] := by
      obtain _ | ⟨p, parts⟩ := parts
      · rfl
      · simp at same
    have first := spans.empty.1 none
    subst none first
    have empty : gists lead = [] := Node.gists_of_trivia whole
      fun m member => Node.isTrivia_of_comment (comments m member)
    obtain ⟨_, rfl⟩ : _ ∧ v = v' := by simpa using same
    rwa [List.nil_append, Node.gists_append, empty, List.nil_append]

theorem gists_comma (whole : n.Whole) (comma : n.token = .comma) : Node.gists [n] = commaGist := by
  obtain ⟨l, rfl, token⟩ := whole.eq_leaf comma rfl
  simp [Node.gists_leaf, Lexeme.gists, Lexeme.gist?, token, commaGist]

theorem means_bang (sliced : Sliced [n]) (bang : n.token = .delim '!') :
    (Value.raw "!").Means (Node.gists [n]) := by
  obtain ⟨l, rfl, token⟩ := (sliced.whole n (by simp)).eq_leaf bang rfl
  have means := sliced.means_sign (by rw [token]; rfl)
  rwa [token] at means

theorem groupsFrom_of_isOutside {p : Piece} (outside : p.isOutside) (group : List Value)
    (ps : List Piece) :
    groupsFrom parts group (p :: ps) = groupsFrom [] (group ++ wordValue parts) ps := by
  rw [groupsFrom]
  unfold isOutside at outside
  split at outside
  · rename_i kind
    simp only [kind]
  · rename_i kind
    simp only [kind]
  · cases outside

/-- A node that is no comma goes on with the word before it, by a value that means the node. -/
theorem exists_part (comments : ∀ m ∈ lead, m.token = .comment) (solid : n.isTrivia = false)
    (sliced : Sliced (lead ++ [n])) (speaks : n.Speaks) (comma : n.isComma = false)
    {group : List Value} {ps : List Piece} {found : List (List Value)}
    (groups : groupsFrom parts group (n.piece (textOf lead) :: ps) = some found) :
    ∃ v : Value, v.Means (Node.gists [n]) ∧
      groupsFrom (parts ++ [(textOf lead ++ n.text, v)]) group ps = some found := by
  rw [groupsFrom] at groups
  by_cases bang : n.isBang
  · simp only [Node.piece, comma, bang, if_true] at groups
    have mark : n.token = .delim '!' := by simpa [Node.isBang] using bang
    exact ⟨_, means_bang sliced.right mark, groups⟩
  · cases value : Node.value? (textOf lead) n with
    | none =>
      simp only [Node.piece, comma, bang, value] at groups
      cases groups
    | some v =>
      simp only [Node.piece, comma, bang, value] at groups
      exact ⟨v, speaks lead v comments sliced solid value, groups⟩

theorem Lays.grouped {ps : List Piece} (lays : Lays ns ps ms) (sliced : Sliced (ws ++ ns))
    (speaks : ∀ n ∈ ns, n.Speaks) (spans : Spans parts ws) {group : List Value} {gs : List Gist}
    (listed : Listed group gs) {found : List (List Value)}
    (groups : groupsFrom parts group ps = some found) :
    Grouped found (gs ++ (gists ws ++ gists ms)) := by
  -- The word that is being read lies on the nodes `ws` before those of the pieces, and the group
  -- holds the words before it. Both change from piece to piece.
  induction lays generalizing ws parts group gs found with
  | trail trivia =>
    cases groups
    have all := listed.append (spans.listed sliced.left)
    have none : Node.gists [] = [] := rfl
    rw [none, List.append_nil]
    exact .single all
  | @gap front ns ms p ps outside _ _ _ ih =>
    rw [groupsFrom_of_isOutside outside] at groups
    have read := ih (by simpa using sliced.right.right)
      (fun n member => speaks n (by simp [member])) spans_nil
      (listed.append (spans.listed sliced.left)) groups
    have none : Node.gists [] = [] := rfl
    rwa [none, List.nil_append, List.append_assoc] at read
  | @solid lead ns ms n ps comments solid _ ih =>
    have whole := sliced.whole
    have speaksLater : ∀ m ∈ ns, m.Speaks := fun m member => speaks m (by simp [member])
    have slicedHere : Sliced (ws ++ (lead ++ [n]) ++ ns) := by simpa using sliced
    rw [Node.gists_cons n ms]
    by_cases comma : n.isComma
    · rw [groupsFrom] at groups
      simp only [Node.piece, comma, if_true] at groups
      obtain ⟨later, rest, rfl⟩ := Option.map_eq_some_iff.1 groups
      have read := ih (by simpa using slicedHere.right) speaksLater spans_nil .nil rest
      have token : n.token = .comma := by simpa [Node.isComma] using comma
      have all := Grouped.cons (listed.append (spans.listed sliced.left)) read
      rw [gists_comma (whole n (by simp)) token]
      simpa [List.append_assoc, Node.gists_nil] using all
    · obtain ⟨v, means, rest⟩ := exists_part comments solid slicedHere.left.right
        (speaks n (by simp)) (by simpa using comma) groups
      have wholeLead : ∀ m ∈ lead, m.Whole := fun m member => whole m (by simp [member])
      have read := ih slicedHere speaksLater (spans.concat comments solid wholeLead means) listed
        rest
      have empty : Node.gists lead = [] := Node.gists_of_trivia wholeLead
        fun m member => Node.isTrivia_of_comment (comments m member)
      simpa [Node.gists_append, empty] using read

end Piece

end CssOutline
