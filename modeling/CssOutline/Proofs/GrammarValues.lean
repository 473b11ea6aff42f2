import CssOutline.Proofs.GrammarNodes

/-! Plain values read back. The nodes of a value are read as its words in its groups, and these
are written as the value was: a name as it is, and a number from its source text if it would be
written differently. -/

namespace CssOutline

namespace Printer

theorem nameChars_of_isNamePart {cs : List Char} (parts : ∀ c ∈ cs, Grammar.isNamePart c) :
    nameChars cs = cs := by
  induction cs with
  | nil => rfl
  | cons c cs ih =>
    have first : nameChar c = [c] := by
      have part := parts c (by simp)
      simp only [Grammar.isNamePart, Bool.or_eq_true, beq_iff_eq] at part
      rcases part with (lower | digit) | rfl
      · simp [nameChar, Char.isAlphanum, Lexer.isAlpha_of_isLower lower]
      · simp [nameChar, Char.isAlphanum, digit]
      · rfl
    have later := ih fun d member => parts d (by simp [member])
    rw [nameChars] at later ⊢
    rw [List.flatMap_cons, first, later, List.singleton_append]

end Printer

namespace Node

/-- A word, a blank or a comma. -/
def isPlain : Node → Bool
  | leaf l =>
    match l.token with
    | .ident _ => true
    | .number _ => true
    | .percentage _ => true
    | .dimension _ _ => true
    | .whitespace => true
    | .comma => true
    | _ => false
  | block _ _ _ => false

/-- What a plain node is within a value. -/
def plainPiece (n : Node) : Piece :=
  match n.token with
  | .whitespace => ⟨.space, n.text, n.text⟩
  | .comma => ⟨.comma, n.text, n.text⟩
  | t => ⟨.word (.ofToken n.text t), n.text, n.text⟩

theorem pieces_of_isPlain {ns : List Node} (plain : ∀ n ∈ ns, n.isPlain) :
    pieces (some []) ns = ns.map plainPiece := by
  induction ns with
  | nil => simp [pieces]
  | cons n ns ih =>
    have first := plain n (by simp)
    have later := ih fun m member => plain m (by simp [member])
    cases n with
    | block _ _ _ => cases first
    | leaf l =>
      obtain ⟨t, text, start⟩ := l
      rw [pieces.eq_def, List.map_cons, ← later]
      cases t <;> simp [isPlain] at first <;> simp [plainPiece, token, value?, Node.text, headText]

theorem pieces_none {n : Node} (word : n.isTrivia = false) (ns : List Node) :
    pieces none (n :: ns) = pieces (some []) (n :: ns) := by
  rw [pieces.eq_def, pieces.eq_def]
  unfold isTrivia at word
  simp only
  generalize n.token = t at word ⊢
  cases t <;> first | rfl | cases word

theorem pieces_gap (blanks : List Char) (ns : List Node) :
    pieces none (gap blanks :: ns) = pieces none ns := by
  rw [pieces.eq_def]
  rfl

end Node

namespace Grammar

open Lexer

theorem Name.identifier_text (n : Name) : Printer.identifier n.text = n.text := by
  have dash : n.first ≠ '-' := ne_of_isLower n.lower rfl
  have start : Printer.startChars n.chars = n.chars := by
    have digit := isDigit_of_isLower n.lower
    have rest := Printer.nameChars_of_isNamePart n.isNamePart
    rw [chars] at rest ⊢
    simp [Printer.startChars, digit, rest]
  have plain : Printer.identifierChars n.chars = Printer.startChars n.chars := by
    unfold Printer.identifierChars
    split
    · rename_i same
      exact absurd (List.cons.inj same).1 dash
    · rename_i same
      exact absurd (List.cons.inj same).1 dash
    · rename_i same
      exact absurd (List.cons.inj same).1 dash
    · rfl
  rw [Printer.identifier, text, String.toList_ofList, plain, start]

theorem toLower_of_isNamePart {c : Char} (part : isNamePart c) : c.toLower = c := by
  unfold Char.toLower
  apply dif_neg
  rintro ⟨low, high⟩
  simp only [isNamePart, Lexer.isLower_iff, Char.isDigit, Bool.or_eq_true, Bool.and_eq_true,
    decide_eq_true_eq, beq_iff_eq, UInt32.le_iff_toNat_le, ge_iff_le] at part low high
  have upperA : 'A'.val.toNat = 65 := rfl
  have upperZ : 'Z'.val.toNat = 90 := rfl
  have nine : '9'.val.toNat = 57 := rfl
  rcases part with (lower | digit) | rfl
  · omega
  · omega
  · exact absurd low (by decide)

theorem Name.toLower_text (n : Name) : n.text.toLower = n.text := by
  apply String.toList_inj.1
  change (n.text.map Char.toLower).toList = n.text.toList
  rw [String.toList_map, text, String.toList_ofList]
  have same : n.chars.map Char.toLower = n.chars.map id :=
    List.map_congr_left fun c member => toLower_of_isNamePart (n.isNamePart c member)
  rw [same, List.map_id]

def Word.value (w : Word) : Value :=
  .ofToken w.chars w.token

def Words.value (ws : Words) : Value :=
  match ws.more with
  | [] => ws.first.value
  | _ :: _ => .list (ws.toList.map Word.value)

def Groups.value (gs : Groups) : Value :=
  match gs.more with
  | [] => gs.first.value
  | _ :: _ => .commaList (gs.toList.map Words.value)

open Node (gap plainPiece)

theorem Word.plainPiece_node (w : Word) :
    plainPiece w.node = ⟨.word w.value, w.chars, w.chars⟩ := by
  cases w with
  | name n => rfl
  | number d suffix => cases suffix <;> rfl

theorem Groups.isPlain (gs : Groups) : ∀ n ∈ gs.nodes, n.isPlain := by
  have word : ∀ w : Word, ∀ n ∈ [w.node], n.isPlain := by
    rintro (n | ⟨d, _ | _ | _⟩) <;> simp [Word.node, Word.token, Node.atom, Node.isPlain]
  have space : ∀ n ∈ [gap [' ']], n.isPlain := by simp [gap, Node.isPlain]
  have comma : ∀ n ∈ [Node.comma, gap [' ']], n.isPlain := by
    simp [gap, Node.comma, Node.atom, Node.isPlain]
  exact Many.forall_nodes comma (Many.forall_nodes space word) gs

/-- Pieces before which a word has ended. -/
def EndsPiece (ps : List Piece) : Prop :=
  ∀ p ∈ ps.head?, p.kind = .space ∨ p.kind = .comma

theorem EndsPiece.groupsFrom_word {ps : List Piece} (ends : EndsPiece ps) (w : Word)
    (group : List Value) :
    Piece.groupsFrom [] group (plainPiece w.node :: ps) =
      Piece.groupsFrom [] (group ++ [w.value]) ps := by
  rw [Piece.groupsFrom, w.plainPiece_node]
  cases ps with
  | nil => simp [Piece.groupsFrom, Piece.wordValue]
  | cons p ps =>
    simp only [List.nil_append]
    rw [Piece.groupsFrom, Piece.groupsFrom]
    rcases ends p rfl with space | comma
    · simp [space, Piece.wordValue]
    · simp [comma, Piece.wordValue]

theorem groupsFrom_space {p : Piece} (space : p.kind = .space) (group : List Value)
    (ps : List Piece) : Piece.groupsFrom [] group (p :: ps) = Piece.groupsFrom [] group ps := by
  rw [Piece.groupsFrom]
  simp [space, Piece.wordValue]

theorem groupsFrom_comma {p : Piece} (comma : p.kind = .comma) (group : List Value)
    (ps : List Piece) :
    Piece.groupsFrom [] group (p :: ps) = (Piece.groups ps).map (group :: ·) := by
  rw [Piece.groupsFrom]
  simp [comma, Piece.wordValue, Piece.groups]

theorem Words.groupsFrom (ws : Words) (group : List Value) {ps : List Piece} (ends : EndsPiece ps) :
    Piece.groupsFrom [] group (ws.nodes.map plainPiece ++ ps) =
      Piece.groupsFrom [] (group ++ ws.toList.map Word.value) ps := by
  induction ws using Many.induction generalizing group with
  | single w =>
    rw [Words.nodes, Many.nodes_single]
    exact ends.groupsFrom_word w group
  | cons w next rest ih =>
    have before : EndsPiece (plainPiece (gap [' ']) ::
        ((Words.nodes ⟨next, rest⟩).map plainPiece ++ ps)) := by
      simp [EndsPiece, plainPiece, gap, Node.token]
    rw [Words.nodes, Many.nodes_cons]
    refine (before.groupsFrom_word w group).trans ?_
    rw [groupsFrom_space rfl, ih]
    simp [Many.toList]

/-- The words of each group are read, whatever blanks come last. -/
theorem Groups.groups (gs : Groups) {ps : List Piece} (blank : ∀ p ∈ ps, p.kind = .space) :
    Piece.groups (gs.nodes.map plainPiece ++ ps) =
      some (gs.toList.map fun ws => ws.toList.map Word.value) := by
  have ends : EndsPiece ps := fun p head => .inl (blank p (List.mem_of_head? head))
  have last : ∀ group, Piece.groupsFrom [] group ps = some [group] := by
    intro group
    clear ends
    induction ps with
    | nil => simp [Piece.groupsFrom, Piece.wordValue]
    | cons p ps ih =>
      rw [groupsFrom_space (blank p (by simp)), ih fun q member => blank q (by simp [member])]
  induction gs using Many.induction with
  | single ws =>
    rw [Groups.nodes, Many.nodes_single, Piece.groups, ws.groupsFrom [] ends, last]
    rfl
  | cons ws next rest ih =>
    have comma : EndsPiece (plainPiece Node.comma :: plainPiece (gap [' ']) ::
        ((Groups.nodes ⟨next, rest⟩).map plainPiece ++ ps)) := by
      simp [EndsPiece, plainPiece, Node.comma, Node.atom, Node.token]
    rw [Groups.nodes, Many.nodes_cons, List.map_append, List.append_assoc]
    refine (ws.groupsFrom [] comma).trans ?_
    rw [groupsFrom_comma rfl, Piece.groups, groupsFrom_space rfl, ← Piece.groups, ih]
    rfl

theorem groupValues?_words (gs : List Words) :
    Piece.groupValues? (gs.map fun ws => ws.toList.map Word.value) = some (gs.map Words.value) := by
  induction gs with
  | nil => rfl
  | cons ws gs ih =>
    rw [List.map_cons, List.map_cons]
    obtain ⟨first, _ | ⟨next, more⟩⟩ := ws
    · change (Piece.groupValues? _).map _ = _
      rw [ih]
      rfl
    · change (Piece.groupValues? _).map _ = _
      rw [ih]
      rfl

/-- Pieces of a value, with blanks after them. -/
theorem Groups.value_pieces (gs : Groups) {ps : List Piece} (blank : ∀ p ∈ ps, p.kind = .space) :
    Piece.value (gs.nodes.map plainPiece ++ ps) = .ok gs.value := by
  have some : ¬(gs.toList.map fun ws => ws.toList.map Word.value).all List.isEmpty := by
    simp [Many.toList]
  rw [Piece.value, gs.groups blank]
  simp only [some, groupValues?_words]
  obtain ⟨first, more⟩ := gs
  cases more with
  | nil => rfl
  | cons next more => rfl

/-- The first node of a value is a word. -/
theorem Groups.pieces_none (gs : Groups) (ns : List Node) :
    Node.pieces none (gs.nodes ++ ns) = Node.pieces (some []) (gs.nodes ++ ns) := by
  have word : gs.first.first.node.isTrivia = false := by
    obtain n | ⟨d, _ | _ | _⟩ := gs.first.first <;> rfl
  exact Node.pieces_none word _

theorem Groups.pieces_space (gs : Groups) :
    Node.pieces none (gap [' '] :: gs.nodes) = gs.nodes.map plainPiece := by
  have first := gs.pieces_none []
  rw [List.append_nil] at first
  rw [Node.pieces_gap, first, Node.pieces_of_isPlain gs.isPlain]

theorem Groups.readValue (gs : Groups) : Node.readValue (gap [' '] :: gs.nodes) = .ok gs.value := by
  have none : ∀ p ∈ ([] : List Piece), p.kind = .space := by simp
  have read := gs.value_pieces none
  rw [List.append_nil] at read
  rw [Node.readValue, gs.pieces_space, read]

theorem Groups.readValue_space (gs : Groups) :
    Node.readValue (gap [' '] :: (gs.nodes ++ [gap [' ']])) = .ok gs.value := by
  have plain : ∀ n ∈ gs.nodes ++ [gap [' ']], n.isPlain := by
    intro n member
    rcases List.mem_append.1 member with inside | last
    · exact gs.isPlain n inside
    · rw [List.mem_singleton.1 last]
      rfl
  rw [Node.readValue, Node.pieces_gap, gs.pieces_none, Node.pieces_of_isPlain plain,
    List.map_append]
  exact gs.value_pieces (by simp [plainPiece, gap, Node.token])

section Rendering

theorem render_exactOrRaw (v : Value) (source : String) :
    (v.exactOrRaw source).render = .ok source := by
  unfold Value.exactOrRaw
  split
  · rename_i exact
    unfold Value.printsAs at exact
    split at exact
    · rename_i text rendered
      rw [rendered, eq_of_beq exact]
    · cases exact
  · rfl

theorem Word.render_value (w : Word) : w.value.render = .ok (String.ofList w.chars) := by
  cases w with
  | name n =>
    have ident : (Word.name n).value =
        if Text.sameName n.text "currentcolor" then .color .current else .keyword n.text := rfl
    rw [ident]
    split
    · rename_i same
      let word : Name :=
        .ofChars 'c' ['u', 'r', 'r', 'e', 'n', 't', 'c', 'o', 'l', 'o', 'r'] rfl rfl
      have lower : n.text = "currentcolor" := by
        rw [Text.sameName, n.toLower_text] at same
        exact (eq_of_beq same).trans word.toLower_text
      exact congrArg Except.ok lower.symm
    · exact congrArg Except.ok n.identifier_text
  | number d suffix => cases suffix <;> exact render_exactOrRaw _ _

theorem renderAll_map {α : Type} {value : α → Value} {text : α → List Char}
    (item : ∀ a, (value a).render = .ok (String.ofList (text a))) (as : List α) :
    Value.renderAll (as.map value) = .ok (as.map fun a => String.ofList (text a)) := by
  induction as with
  | nil => rfl
  | cons a as ih =>
    rw [List.map_cons, Value.renderAll, item a, ih]
    rfl

theorem Many.intercalate_text {α : Type} (separator : String) (text : α → List Char) (m : Many α) :
    separator.intercalate (m.toList.map fun a => String.ofList (text a)) =
      String.ofList (m.chars separator.toList text) := by
  induction m using Many.induction with
  | single a => simp [Many.toList, Many.chars]
  | cons a b rest ih =>
    have later : separator.intercalate (String.ofList (text b) :: rest.map fun a =>
        String.ofList (text a)) = String.ofList (Many.chars separator.toList text ⟨b, rest⟩) := ih
    rw [Many.toList, List.map_cons, List.map_cons, String.intercalate_cons_cons, later,
      Many.chars_cons, String.ofList_append, String.ofList_append, String.ofList_toList,
      String.append_assoc]

theorem Words.render_value (ws : Words) : ws.value.render = .ok (String.ofList ws.chars) := by
  obtain ⟨first, _ | ⟨next, more⟩⟩ := ws
  · rw [Words.chars, Many.chars_single]
    exact first.render_value
  · have texts := renderAll_map Word.render_value (first :: next :: more)
    have joined := Many.intercalate_text " " Word.chars ⟨first, next :: more⟩
    rw [Words.value, Value.render, Many.toList, texts]
    exact congrArg Except.ok joined

theorem Groups.render_value (gs : Groups) : gs.value.render = .ok (String.ofList gs.chars) := by
  obtain ⟨first, _ | ⟨next, more⟩⟩ := gs
  · rw [Groups.chars, Many.chars_single]
    exact first.render_value
  · have texts := renderAll_map Words.render_value (first :: next :: more)
    have joined := Many.intercalate_text ", " Words.chars ⟨first, next :: more⟩
    rw [Groups.value, Value.render, Many.toList, texts]
    exact congrArg Except.ok joined

end Rendering

section Declarations

theorem Groups.last_word (gs : Groups) : ∃ front w, gs.nodes = front ++ [Word.node w] := by
  have words : ∀ ws : Words, ∃ front w, ws.nodes = front ++ [Word.node w] := by
    intro ws
    induction ws using Many.induction with
    | single w => exact ⟨[], w, Many.nodes_single _ _ w⟩
    | cons w next rest ih =>
      obtain ⟨front, last, same⟩ := ih
      refine ⟨w.node :: gap [' '] :: front, last, ?_⟩
      rw [Words.nodes, Many.nodes_cons, ← Words.nodes, same]
      rfl
  induction gs using Many.induction with
  | single ws =>
    rw [Groups.nodes, Many.nodes_single]
    exact words ws
  | cons ws next rest ih =>
    obtain ⟨front, last, same⟩ := ih
    refine ⟨ws.nodes ++ (Node.comma :: gap [' '] :: front), last, ?_⟩
    rw [Groups.nodes, Many.nodes_cons, ← Groups.nodes, same]
    simp

theorem plainPiece_text (n : Node) : (plainPiece n).text = n.text ∧ (plainPiece n).head = n.text := by
  unfold plainPiece
  split <;> exact ⟨rfl, rfl⟩

theorem flatMap_plainPiece (ns : List Node) :
    (ns.map plainPiece).flatMap Piece.text = Node.textOf ns := by
  induction ns with
  | nil => rfl
  | cons n ns ih => rw [List.map_cons, List.flatMap_cons, ih, (plainPiece_text n).1, Node.textOf]

theorem Many.textOf_nodes {α : Type} {between : List Node} {nodes : α → List Node}
    {text : α → List Char} (item : ∀ a, Node.textOf (nodes a) = text a) (m : Many α) :
    Node.textOf (m.nodes between nodes) = m.chars (Node.textOf between) text := by
  induction m using Many.induction with
  | single a => rw [Many.nodes_single, Many.chars_single, item]
  | cons a b rest ih =>
    rw [Many.nodes_cons, Many.chars_cons, Node.textOf_append, Node.textOf_append, item, ih]

theorem Groups.textOf_nodes (gs : Groups) : Node.textOf gs.nodes = gs.chars := by
  have word : ∀ w : Word, Node.textOf [w.node] = w.chars := by
    intro w
    simp [Node.textOf, Word.node, Node.atom, Node.text]
  exact Many.textOf_nodes (Many.textOf_nodes word) gs

theorem Groups.tokenSource (gs : Groups) :
    Piece.tokenSource (gs.nodes.map plainPiece) = gs.chars := by
  obtain ⟨front, w, same⟩ := gs.last_word
  have outside : Piece.isOutside (plainPiece w.node) = false := by rw [w.plainPiece_node]; rfl
  have text := gs.textOf_nodes
  rw [same, Node.textOf_append] at text
  rw [Piece.tokenSource, same, List.map_append, List.reverse_append, List.map_singleton,
    List.reverse_singleton, List.singleton_append, List.dropWhile_cons_of_neg (by simp [outside])]
  simp only [List.reverse_reverse, flatMap_plainPiece, plainPiece_text]
  rw [← text]
  simp [Node.textOf]

theorem plainPiece_kind (n : Node) : (plainPiece n).kind = .space ∨ (plainPiece n).kind = .comma ∨
    ∃ v, (plainPiece n).kind = .word v := by
  unfold plainPiece
  split
  · exact .inl rfl
  · exact .inr (.inl rfl)
  · exact .inr (.inr ⟨_, rfl⟩)

theorem markImportant_plain (ns : List Node) :
    Piece.markImportant (ns.map plainPiece) = ns.map plainPiece ∧
      (ns.map plainPiece).any Piece.isImportant = false := by
  induction ns with
  | nil => exact ⟨Piece.markImportant.eq_def [], rfl⟩
  | cons n ns ih =>
    rw [List.map_cons, Piece.markImportant.eq_def, List.any_cons, ih.2, Piece.isImportant]
    rcases plainPiece_kind n with space | comma | ⟨v, word⟩
    · simp [space, ih.1]
    · simp [comma, ih.1]
    · simp [word, ih.1]

theorem Groups.readDeclared (gs : Groups) :
    Node.readDeclared (gap [' '] :: gs.nodes) = .ok (gs.value, false) := by
  have read := gs.readValue
  rw [Node.readValue, gs.pieces_space] at read
  obtain ⟨unmarked, plain⟩ := markImportant_plain gs.nodes
  rw [Node.readDeclared, gs.pieces_space, unmarked, read, plain]
  rfl

theorem Groups.readCustom (gs : Groups) :
    Node.readCustom (gap [' '] :: gs.nodes) = (.raw (String.ofList gs.chars), false) := by
  obtain ⟨unmarked, plain⟩ := markImportant_plain gs.nodes
  rw [Node.readCustom, gs.pieces_space, unmarked, plain, gs.tokenSource]

theorem Name.isCustom_text (n : Name) : (Property.parse n.text).isCustom = false := by
  have dash : n.first ≠ '-' := ne_of_isLower n.lower rfl
  unfold Property.parse
  split
  · rename_i same
    rw [Name.text, String.toList_ofList] at same
    exact absurd (List.cons.inj same).1 dash
  · rfl

theorem Label.token_node (l : Label) : l.node.token = .ident l.text := by
  cases l <;> rfl

theorem Label.readDeclaration (l : Label) (v : Groups) :
    ∃ d, Sketch.readDeclaration l.text (Node.colon :: gap [' '] :: v.nodes) = .ok d ∧
      d.entry = (l.text, String.ofList v.chars) := by
  have first : Node.dropTrivia (Node.colon :: gap [' '] :: v.nodes) =
      Node.colon :: gap [' '] :: v.nodes := rfl
  have colon : (Node.colon.token == .colon) = true := rfl
  have named := Property.text_parse l.text
  rw [Sketch.readDeclaration, first]
  simp only [colon, if_true]
  cases l with
  | standard n =>
    have standard : (Property.parse (Label.standard n).text).isCustom = false := n.isCustom_text
    rw [if_neg (by simp [standard])] at named
    rw [if_neg (by simp [standard]), v.readDeclared]
    refine ⟨_, rfl, ?_⟩
    simp only [Declaration.entry, named, v.render_value, textOr, Bool.false_eq_true, if_false,
      String.append_empty]
    exact congrArg (·, String.ofList v.chars) n.toLower_text
  | custom n =>
    have custom : (Property.parse (Label.custom n).text).isCustom := by
      simp [Property.parse, Label.text, Label.chars, Property.isCustom]
    rw [if_pos custom] at named
    rw [if_pos custom, v.readCustom]
    refine ⟨_, rfl, ?_⟩
    simp [Declaration.entry, named, Value.render, textOr]

end Declarations

end Grammar

end CssOutline
