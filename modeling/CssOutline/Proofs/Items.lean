import CssOutline.Proofs.Keys
import CssOutline.Proofs.Places

/-! Where the items of a body end. Nodes up to a semicolon or a block in braces are read as one
item, whatever follows them, unless they hold such a mark themselves; a custom property goes on
over a block. -/

namespace CssOutline

namespace Node

def semicolon : Node :=
  leaf ⟨.semicolon, [';'], .origin⟩

def gap (blanks : List Char) : Node :=
  leaf ⟨.whitespace, blanks, .origin⟩

def curly (closing : Option Lexeme) (inside : List Node) : Node :=
  block ⟨.openCurly, ['\x7b'], .origin⟩ inside closing

abbrev braces (inside : List Node) : Node :=
  curly (some ⟨.closeCurly, ['\x7d'], .origin⟩) inside

end Node

namespace Sketch

section Cut

variable {p : Node → Bool} {front : List Node} (kept : ∀ n ∈ front, p n = false) {stop : Node}
  (stops : p stop) (more : List Node)

include kept stops

theorem dropWhile_cut : (front ++ stop :: more).dropWhile (fun n => !p n) = stop :: more := by
  rw [List.dropWhile_append_of_pos (by simpa using kept),
    List.dropWhile_cons_of_neg (by simp [stops])]

theorem upTo_cut : upTo p (front ++ stop :: more) = front := by
  rw [upTo, List.takeWhile_append_of_pos (by simpa using kept),
    List.takeWhile_cons_of_neg (by simp [stops]), List.append_nil]

theorem stop?_cut : stop? p (front ++ stop :: more) = some stop := by
  rw [stop?, dropWhile_cut kept stops, List.head?_cons]

theorem after_cut : after p (front ++ stop :: more) = more := by
  rw [after, dropWhile_cut kept stops, List.drop_one, List.tail_cons]

theorem itemText_cut :
    itemText p (front ++ stop :: more) = Node.textOf front ++ stop.text := by
  rw [itemText, upTo_cut kept stops, stop?_cut kept stops]
  rfl

end Cut

theorem endsItem_eq_false {n : Node} :
    endsItem n = false ↔ n.isSemicolon = false ∧ n.isCurly = false := by
  simp [endsItem]

end Sketch

namespace Node

theorem one_lt_length_braces (inside : List Node) : 1 < (braces inside).text.length := by
  simp [curly, text]

theorem textOf_append (ns ms : List Node) : textOf (ns ++ ms) = textOf ns ++ textOf ms := by
  induction ns with
  | nil => rfl
  | cons n ns ih => rw [List.cons_append, textOf, textOf, ih, List.append_assoc]

def startsCustom : List Node → Bool
  | [] => false
  | n :: rest =>
    match n.token, (dropTrivia rest).head?.map token with
    | .ident name, some .colon => (Property.parse name).isCustom
    | _, _ => false

theorem exists_ident_of_startsCustom {n : Node} {rest : List Node}
    (custom : startsCustom (n :: rest)) : ∃ name, n.token = .ident name := by
  rw [startsCustom] at custom
  split at custom
  · rename_i name ident _
    exact ⟨name, ident⟩
  · cases custom

end Node

namespace Piece

def isBlock (p : Piece) : Bool :=
  match p.kind with
  | .block => true
  | _ => false

theorem groupsFrom_of_isBlock (ps : List Piece) (found : ∃ p ∈ ps, p.isBlock)
    (parts : List (List Char × Value)) (group : List Value) : groupsFrom parts group ps = none := by
  induction ps generalizing parts group with
  | nil => simp at found
  | cons p ps ih =>
    rw [groupsFrom]
    cases kind : p.kind with
    | block => rfl
    | _ =>
      have later : ∃ p ∈ ps, p.isBlock := by simpa [isBlock, kind] using found
      simp [ih later]

theorem exists_of_importantAfter? {ps rest : List Piece} {t : List Char}
    (found : importantAfter? ps = some (t, rest)) :
    ∃ spaces word name, ps = spaces ++ word :: rest ∧ (∀ p ∈ spaces, p.kind = .space) ∧
      word.kind = .word (.keyword name) ∧ Text.sameName name "important" := by
  induction ps generalizing t rest with
  | nil => simp [importantAfter?] at found
  | cons p ps ih =>
    rw [importantAfter?] at found
    split at found
    · rename_i space
      obtain ⟨⟨t', rest'⟩, inner, same⟩ := Option.map_eq_some_iff.1 found
      cases same
      obtain ⟨spaces, word, name, rfl, blank, kind, marked⟩ := ih inner
      exact ⟨p :: spaces, word, name, rfl, List.forall_mem_cons.2 ⟨space, blank⟩, kind, marked⟩
    · rename_i name kind
      split at found
      · rename_i marked
        cases found
        exact ⟨[], p, name, rfl, by simp, kind, marked⟩
      · cases found
    · cases found

theorem isBlock_markImportant (ps : List Piece) (found : ∃ p ∈ ps, p.isBlock) :
    ∃ p ∈ markImportant ps, p.isBlock := by
  fun_induction markImportant ps with
  | case1 => exact found
  | case2 p ps bang t rest same _ ih =>
    obtain ⟨spaces, word, name, rfl, blank, kind, _⟩ := exists_of_importantAfter? same
    have later : ∃ p ∈ rest, p.isBlock := by
      obtain ⟨q, member, block⟩ := found
      simp only [List.mem_cons, List.mem_append] at member
      rcases member with rfl | inSpaces | rfl | inRest
      · simp [isBlock, bang] at block
      · simp [isBlock, blank q inSpaces] at block
      · simp [isBlock, kind] at block
      · exact ⟨q, inRest, block⟩
    obtain ⟨q, member, block⟩ := ih later
    exact ⟨q, by simp [member], block⟩
  | case3 p ps bang none ih =>
    have later : ∃ p ∈ ps, p.isBlock := by simpa [isBlock, bang] using found
    obtain ⟨q, member, block⟩ := ih later
    exact ⟨q, by simp [member], block⟩
  | case4 p ps bang ih =>
    obtain ⟨q, member, block⟩ := found
    rcases List.mem_cons.1 member with rfl | later
    · exact ⟨q, by simp, block⟩
    · obtain ⟨q', member', block'⟩ := ih ⟨q, later, block⟩
      exact ⟨q', by simp [member'], block'⟩

end Piece

namespace Node

theorem isBlock_pieces (lead : Option (List Char)) (closing : Option Lexeme)
    (front inside more : List Node) :
    ∃ p ∈ pieces lead (front ++ curly closing inside :: more), p.isBlock := by
  induction front generalizing lead with
  | nil =>
    rw [List.nil_append, pieces.eq_def]
    simp [curly, token, value?, Piece.isBlock]
  | cons n front ih =>
    rw [List.cons_append, pieces.eq_def]
    simp only
    split
    · exact ih _
    · exact ih _
    · obtain ⟨p, member, block⟩ := ih (some [])
      exact ⟨p, by simp [member], block⟩
    · obtain ⟨p, member, block⟩ := ih (some [])
      exact ⟨p, by simp [member], block⟩

theorem readDeclared_curly (closing : Option Lexeme) (front inside more : List Node) :
    readDeclared (front ++ curly closing inside :: more) = .error .blockInValue := by
  have found := Piece.isBlock_markImportant _ (isBlock_pieces none closing front inside more)
  rw [readDeclared, Piece.value, Piece.groups, Piece.groupsFrom_of_isBlock _ found]
  rfl

end Node

/-- How a rule with a block is read: its key, and what its block holds if that is not kept as
text. -/
def Sketch.opens? : Sketch → Option (String × Option Context)
  | style _ head _ => some (head.render, some .style)
  | members _ name clause context _ => some (atKey name clause, some context)
  | verbatim _ name clause _ => some (atKey name clause, none)
  | statement _ _ _ => none
  | unrecognized _ _ _ => none

namespace Place

def context : Place → Context
  | sheet => .style
  | body context => context

def endsAtSemicolon (place : Place) : List Node → Bool
  | [] => false
  | n :: rest =>
    !n.isTrivia &&
    match place, n.token with
    | sheet, .atKeyword _ => rest.all (!Sketch.endsItem ·)
    | sheet, _ => false
    | body .keyframes, _ => (n :: rest).all (!Sketch.endsItem ·)
    | body .style, _ =>
      (n :: rest).all (!Sketch.endsItem ·) ||
        (Node.startsCustom (n :: rest) && (n :: rest).all (!·.isSemicolon))

/-- Nodes that are read as one item up to a block in braces after them. -/
def endsAtBraces (place : Place) : List Node → Bool
  | [] => false
  | n :: rest =>
    !n.isTrivia && (n :: rest).all (!Sketch.endsItem ·) &&
    match place with
    | sheet => n.token != .cdo && n.token != .cdc
    | body .keyframes => true
    | body .style => !Node.startsCustom (n :: rest)

def openSketch (place : Place) (room : Bool) (front inside : List Node) : Sketch :=
  match front with
  | [] => .unrecognized .origin .expectedBlock []
  | n :: rest =>
    match n.token with
    | .atKeyword name => .ofAtRule room n name rest (some (.braces inside))
    | _ => .ofRule place.context room n.start (n :: rest) (some (.braces inside))

section

variable {n : Node} {rest inside : List Node} {place : Place} {room : Bool}

theorem openSketch_atKeyword {name : String} (keyword : n.token = .atKeyword name) :
    place.openSketch room (n :: rest) inside =
      .ofAtRule room n name rest (some (.braces inside)) := by
  simp only [openSketch, keyword]

theorem openSketch_other (noKeyword : ∀ name, n.token ≠ .atKeyword name) :
    place.openSketch room (n :: rest) inside =
      .ofRule place.context room n.start (n :: rest) (some (.braces inside)) := by
  simp only [openSketch]

end

end Place

namespace Sketch

variable {n : Node} {name : String} {rest : List Node}

theorem readDeclaration_custom (ident : n.token = .ident name)
    (custom : Node.startsCustom (n :: rest)) : ∃ d, readDeclaration name rest = .ok d := by
  unfold Node.startsCustom at custom
  simp only [ident] at custom
  split at custom
  · rename_i same colon
    cases same
    unfold readDeclaration
    cases first : Node.dropTrivia rest with
    | nil => simp [first] at colon
    | cons m later =>
      have isColon : m.token = .colon := by simpa [first] using colon
      simp [isColon, custom]
  · cases custom

theorem readDeclaration_curly (ident : n.token = .ident name)
    (notCustom : Node.startsCustom (n :: rest) = false) (closing : Option Lexeme)
    (inside more : List Node) :
    ∃ fault, readDeclaration name (rest ++ .curly closing inside :: more) = .error fault := by
  cases first : Node.dropTrivia rest with
  | nil =>
    have block : Node.dropTrivia (rest ++ .curly closing inside :: more) =
        .curly closing inside :: more := by
      rw [Node.dropTrivia, List.dropWhile_append, ← Node.dropTrivia, first]
      rfl
    rw [readDeclaration, block]
    exact ⟨_, rfl⟩
  | cons m later =>
    have solid : Node.dropTrivia (rest ++ .curly closing inside :: more) =
        m :: (later ++ .curly closing inside :: more) := by
      rw [Node.dropTrivia, List.dropWhile_append, ← Node.dropTrivia, first]
      rfl
    rw [readDeclaration, solid]
    by_cases colon : m.token = .colon
    · have standard : (Property.parse name).isCustom = false := by
        simpa [Node.startsCustom, ident, first, colon] using notCustom
      simp [colon, standard, Node.readDeclared_curly, Except.map]
    · simp [colon]

theorem ofIdent_semicolon (room : Bool) (ident : n.token = .ident name)
    (ends : (∀ m ∈ n :: rest, endsItem m = false) ∨
      Node.startsCustom (n :: rest) ∧ ∀ m ∈ n :: rest, m.isSemicolon = false) :
    ∃ o, ∀ more, ofIdent room n name (rest ++ .semicolon :: more) = (o, more) := by
  have plain : ∀ m ∈ n :: rest, m.isSemicolon = false := by
    rcases ends with kept | ⟨_, plain⟩
    · exact fun m member => (endsItem_eq_false.1 (kept m member)).1
    · exact plain
  have cut : ∀ more, upTo Node.isSemicolon (rest ++ .semicolon :: more) = rest ∧
      after Node.isSemicolon (rest ++ .semicolon :: more) = more := by
    intro more
    have inRest : ∀ m ∈ rest, m.isSemicolon = false := fun m member => plain m (by simp [member])
    exact ⟨upTo_cut inRest rfl more, after_cut inRest rfl more⟩
  cases read : readDeclaration name rest with
  | ok d =>
    refine ⟨.declaration d, fun more => ?_⟩
    simp [ofIdent, cut, read]
  | error fault =>
    have kept : ∀ m ∈ n :: rest, endsItem m = false := by
      rcases ends with kept | ⟨custom, _⟩
      · exact kept
      · obtain ⟨d, ok⟩ := readDeclaration_custom ident custom
        simp [ok] at read
    refine ⟨.rule (.unrecognized n.start fault (Node.textOf (n :: rest) ++ [';'])), fun more => ?_⟩
    have whole : n :: (rest ++ Node.semicolon :: more) = (n :: rest) ++ .semicolon :: more := rfl
    rw [ofIdent, (cut more).1, read, whole, upTo_cut kept rfl more, stop?_cut kept rfl more,
      itemText_cut plain rfl more, after_cut plain rfl more]
    simp [ofRule, Node.semicolon, Node.text]

theorem upTo_semicolon_curly {front : List Node} (plain : ∀ m ∈ front, m.isSemicolon = false)
    (closing : Option Lexeme) (inside more : List Node) :
    upTo Node.isSemicolon (front ++ .curly closing inside :: more) =
      front ++ .curly closing inside :: upTo Node.isSemicolon more := by
  rw [upTo, List.takeWhile_append_of_pos (by simpa using plain), List.takeWhile_cons_of_pos rfl,
    upTo]

/-- The text up to a brace is shorter than the text up to the semicolon after its block. -/
theorem length_lt_itemText_curly {front : List Node}
    (plain : ∀ m ∈ front, m.isSemicolon = false) {closing : Option Lexeme} {inside : List Node}
    (filled : 1 < (Node.curly closing inside).text.length) (more : List Node) :
    (Node.textOf front ++ ['\x7b']).length <
      (itemText Node.isSemicolon (front ++ .curly closing inside :: more)).length := by
  rw [itemText, upTo_semicolon_curly plain]
  simp only [Node.textOf, Node.textOf_append, List.length_append, List.length_cons,
    List.length_nil]
  omega

theorem source_of_ofRule_curly {context : Context} {room : Bool} {start place : Location}
    {fault : Fault} {front inside : List Node} {closing : Option Lexeme} {source : List Char}
    (same : ofRule context room start front (some (.curly closing inside)) =
      .unrecognized place fault source) : source = Node.textOf front ++ ['\x7b'] := by
  unfold ofRule at same
  simp only [Node.curly] at same
  split at same
  · cases same
    rfl
  · split at same <;> cases same
    rfl

/-- If the declaration fails, the rule that ends at the block skips less than the text up to the
next semicolon. -/
theorem ofIdent_curly (room : Bool) (ident : n.token = .ident name)
    (kept : ∀ m ∈ n :: rest, endsItem m = false)
    (notCustom : Node.startsCustom (n :: rest) = false) {closing : Option Lexeme}
    {inside : List Node} (filled : 1 < (Node.curly closing inside).text.length)
    (more : List Node) :
    ofIdent room n name (rest ++ .curly closing inside :: more) =
      (.rule (ofRule .style room n.start (n :: rest) (some (.curly closing inside))), more) := by
  have plain : ∀ m ∈ n :: rest, m.isSemicolon = false :=
    fun m member => (endsItem_eq_false.1 (kept m member)).1
  have declared := upTo_semicolon_curly (fun m member => plain m (List.mem_cons_of_mem n member))
    closing inside more
  obtain ⟨fault, failed⟩ := readDeclaration_curly ident notCustom closing inside
    (upTo Node.isSemicolon more)
  have whole : n :: (rest ++ .curly closing inside :: more) =
      (n :: rest) ++ .curly closing inside :: more := rfl
  rw [ofIdent, declared, failed]
  simp only
  rw [whole, upTo_cut kept rfl more, stop?_cut kept rfl more, after_cut kept rfl more]
  split
  · rename_i source same
    have shorter : source.length < (itemText Node.isSemicolon
        ((n :: rest) ++ .curly closing inside :: more)).length := by
      rw [source_of_ofRule_curly same]
      exact length_lt_itemText_curly plain filled more
    rw [if_pos shorter, same]
  · rfl

end Sketch

namespace Place

theorem items_nil (place : Place) (room : Bool) : place.items room [] = [] := by
  cases place <;> simp [items, Sketch.ofSheet, Sketch.ofBody]

theorem items_gap (place : Place) (room : Bool) (blanks : List Char) (ns : List Node) :
    place.items room (.gap blanks :: ns) = place.items room ns := by
  cases place with
  | sheet => rw [items, items, Sketch.ofSheet_skip rfl]
  | body context => exact Sketch.ofBody_skip rfl

/-- Whether a rule has room for its block: at the top of a sheet it always has. -/
def hasRoom (room : Bool) : Place → Bool
  | sheet => true
  | body _ => room

section Steps

variable {place : Place} {room : Bool} {n : Node} {rest : List Node} {stop : Node}

theorem items_atKeyword {name : String} (keyword : n.token = .atKeyword name)
    (kept : ∀ m ∈ rest, Sketch.endsItem m = false) (stops : Sketch.endsItem stop)
    (more : List Node) :
    place.items room (n :: rest ++ stop :: more) =
      .rule (.ofAtRule (place.hasRoom room) n name rest (some stop)) :: place.items room more := by
  cases place with
  | sheet =>
    rw [items, List.cons_append, Sketch.ofSheet_atKeyword keyword, Sketch.upTo_cut kept stops,
      Sketch.stop?_cut kept stops, Sketch.after_cut kept stops]
    rfl
  | body context =>
    rw [items, List.cons_append, Sketch.ofBody_atKeyword keyword, Sketch.upTo_cut kept stops,
      Sketch.stop?_cut kept stops, Sketch.after_cut kept stops]
    rfl

theorem items_sheet_curly (skipped : ¬(n.isTrivia || n.token == .cdo || n.token == .cdc))
    (noKeyword : ∀ name, n.token ≠ .atKeyword name)
    (kept : ∀ m ∈ n :: rest, m.isCurly = false) (stops : stop.isCurly) (more : List Node) :
    sheet.items room (n :: rest ++ stop :: more) =
      .rule (.ofRule .style true n.start (n :: rest) (some stop)) :: sheet.items room more := by
  rw [items, List.cons_append, Sketch.ofSheet_other skipped noKeyword, ← List.cons_append,
    Sketch.upTo_cut kept stops, Sketch.stop?_cut kept stops, Sketch.after_cut kept stops]
  rfl

theorem items_body_other {context : Context} (solid : n.isTrivia = false)
    (noKeyword : ∀ name, n.token ≠ .atKeyword name)
    (noIdent : ∀ name, n.token = .ident name → context ≠ .style)
    (kept : ∀ m ∈ n :: rest, Sketch.endsItem m = false) (stops : Sketch.endsItem stop)
    (more : List Node) :
    (body context).items room (n :: rest ++ stop :: more) =
      .rule (.ofRule context room n.start (n :: rest) (some stop)) ::
        (body context).items room more := by
  have skipped : ¬(n.isTrivia || n.isSemicolon) := by
    simp [solid, (Sketch.endsItem_eq_false.1 (kept n (by simp))).1]
  rw [items, List.cons_append, Sketch.ofBody_other skipped noKeyword noIdent, ← List.cons_append,
    Sketch.upTo_cut kept stops, Sketch.stop?_cut kept stops, Sketch.after_cut kept stops]
  rfl

end Steps

theorem items_semicolon {place : Place} (room : Bool) {front : List Node}
    (ends : place.endsAtSemicolon front) :
    ∃ o, ∀ more, place.items room (front ++ .semicolon :: more) = o :: place.items room more := by
  obtain _ | ⟨n, rest⟩ := front
  · cases ends
  simp only [endsAtSemicolon, Bool.and_eq_true, Bool.not_eq_true'] at ends
  obtain ⟨solid, ends⟩ := ends
  cases place with
  | sheet =>
    split at ends
    · rename_i name _ keyword
      exact ⟨_, items_atKeyword keyword (by simpa using ends) rfl⟩
    · cases ends
    · contradiction
    · contradiction
  | body context =>
    have cut : (∀ m ∈ n :: rest, Sketch.endsItem m = false) ∨ context = .style ∧
        Node.startsCustom (n :: rest) ∧ ∀ m ∈ n :: rest, m.isSemicolon = false := by
      cases context with
      | style => simpa using ends
      | keyframes => exact .inl (by simpa using ends)
    by_cases ident : ∃ name, n.token = .ident name ∧ context = .style
    · obtain ⟨name, ident, rfl⟩ := ident
      obtain ⟨o, whole⟩ := Sketch.ofIdent_semicolon room ident (cut.imp_right And.right)
      refine ⟨o, fun more => ?_⟩
      rw [items, List.cons_append, Sketch.ofBody_ident ident, whole]
      rfl
    · have kept : ∀ m ∈ n :: rest, Sketch.endsItem m = false := by
        rcases cut with kept | ⟨style, custom, _⟩
        · exact kept
        · obtain ⟨name, isIdent⟩ := Node.exists_ident_of_startsCustom custom
          exact absurd ⟨name, isIdent, style⟩ ident
      by_cases keyword : ∃ name, n.token = .atKeyword name
      · obtain ⟨name, keyword⟩ := keyword
        exact ⟨_, items_atKeyword keyword (fun m member => kept m (by simp [member])) rfl⟩
      · have noIdent : ∀ name, n.token = .ident name → context ≠ .style :=
          fun name isIdent isStyle => ident ⟨name, isIdent, isStyle⟩
        exact ⟨_, items_body_other solid (not_exists.1 keyword) noIdent kept rfl⟩

theorem items_curly {place : Place} {room : Bool} (roomy : place = .sheet → room = true)
    {front : List Node} (ends : place.endsAtBraces front) {closing : Option Lexeme}
    {inside : List Node} (filled : 1 < (Node.curly closing inside).text.length)
    (more : List Node) :
    place.items room (front ++ .curly closing inside :: more) =
      .rule (place.openSketch room front inside) :: place.items room more := by
  obtain _ | ⟨n, rest⟩ := front
  · cases ends
  simp only [endsAtBraces, Bool.and_eq_true, Bool.not_eq_true'] at ends
  obtain ⟨⟨solid, all⟩, ends⟩ := ends
  have kept : ∀ m ∈ n :: rest, Sketch.endsItem m = false := by simpa using all
  by_cases keyword : ∃ name, n.token = .atKeyword name
  · obtain ⟨name, keyword⟩ := keyword
    have enough : place.hasRoom room = room := by
      cases place with
      | sheet => exact (roomy rfl).symm
      | body _ => rfl
    rw [items_atKeyword keyword (fun m member => kept m (by simp [member])) rfl, enough,
      openSketch_atKeyword keyword]
    rfl
  · have noKeyword := not_exists.1 keyword
    cases place with
    | sheet =>
      have skipped : ¬(n.isTrivia || n.token == .cdo || n.token == .cdc) := by
        simpa [solid] using ends
      rw [items_sheet_curly skipped noKeyword
        (fun m member => (Sketch.endsItem_eq_false.1 (kept m member)).2) rfl, roomy rfl,
        openSketch_other noKeyword]
      rfl
    | body context =>
      by_cases ident : ∃ name, n.token = .ident name ∧ context = .style
      · obtain ⟨name, ident, rfl⟩ := ident
        rw [items, List.cons_append, Sketch.ofBody_ident ident,
          Sketch.ofIdent_curly room ident kept (by simpa using ends) filled,
          openSketch_other noKeyword]
        rfl
      · have noIdent : ∀ name, n.token = .ident name → context ≠ .style :=
          fun name isIdent isStyle => ident ⟨name, isIdent, isStyle⟩
        rw [items_body_other solid noKeyword noIdent kept rfl, openSketch_other noKeyword]
        rfl

/-- How the rule that the nodes start is read, with room for its block. -/
def opens? (place : Place) (front : List Node) : Option (String × Option Context) :=
  (place.openSketch true front []).opens?

theorem entryOf?_openSketch (place : Place) (front inside : List Node)
    (inner : Context → List Node → Outline) :
    (place.openSketch true front inside).entryOf? inner =
      (place.opens? front).map fun (key, how) => (key, .block (
        match how with
        | some context => inner context inside
        | none => verbatimBlock key (String.ofList (Text.trim (Node.textOf inside))))) := by
  obtain _ | ⟨n, rest⟩ := front
  · rfl
  unfold opens? openSketch
  simp only
  split
  · rename_i name keyword
    simp only [Sketch.ofAtRule, Node.curly, Bool.not_true, Bool.false_eq_true, ↓reduceIte]
    split_ifs <;> rfl
  · simp only [Sketch.ofRule, Node.curly, ↓reduceIte]
    cases Sketch.readHead place.context (n :: rest) <;> rfl

theorem entryOf?_openSketch_full (place : Place) (front inside : List Node)
    (inner : Context → List Node → Outline) :
    (place.openSketch false front inside).entryOf? inner = none := by
  obtain _ | ⟨n, rest⟩ := front
  · rfl
  unfold openSketch
  simp only
  split
  · rfl
  · simp only [Sketch.ofRule, Node.curly, Bool.false_eq_true, ↓reduceIte]
    cases Sketch.readHead place.context (n :: rest) <;> rfl

def bodyContext : List Node → Context
  | [] => .style
  | n :: _ =>
    match n.token with
    | .atKeyword name => if atRuleKind name = "keyframes" then .keyframes else .style
    | _ => .style

theorem opens?_eq_some {place : Place} {front : List Node} {key : String} {how : Option Context}
    (opened : place.opens? front = some (key, how)) :
    (how = none → Outline.isAtKey key) ∧ ∀ context, how = some context →
      context = bodyContext front := by
  obtain _ | ⟨n, rest⟩ := front
  · cases opened
  unfold opens? openSketch at opened
  simp only at opened
  split at opened
  · rename_i name keyword
    simp only [Sketch.ofAtRule, Node.curly, Bool.not_true, Bool.false_eq_true, ↓reduceIte]
      at opened
    split_ifs at opened with keyframes <;> cases opened <;>
      simp [bodyContext, keyword, keyframes, isAtKey_atKey]
  · rename_i noKeyword
    simp only [Sketch.ofRule, Node.curly, ↓reduceIte] at opened
    cases read : Sketch.readHead place.context (n :: rest) with
    | error fault => simp [read, Sketch.opens?] at opened
    | ok head =>
      simp only [read, Sketch.opens?, Option.some.injEq, Prod.mk.injEq] at opened
      obtain ⟨_, rfl⟩ := opened
      simp [bodyContext]

end Place

theorem entriesAt_gap (room : Nat) (place : Place) (blanks : List Char) (ns : List Node) :
    entriesAt room place (.gap blanks :: ns) = entriesAt room place ns := by
  cases room <;> simp only [entriesAt, Place.items_gap]

theorem entriesAt_nil (room : Nat) (place : Place) : entriesAt room place [] = [] := by
  cases room <;> simp [entriesAt, Place.items_nil]

theorem entriesAt_semicolon (room : Nat) {place : Place} {front : List Node}
    (ends : place.endsAtSemicolon front) (more : List Node) :
    entriesAt room place (front ++ .semicolon :: more) =
        entriesAt room place (front ++ [.semicolon]) ++ entriesAt room place more ∧
      (entriesAt room place (front ++ [.semicolon])).length ≤ 1 := by
  cases room with
  | zero =>
    obtain ⟨o, whole⟩ := Place.items_semicolon false ends
    simp only [entriesAt, whole, Place.items_nil, ← List.filterMap_append]
    refine ⟨rfl, ?_⟩
    exact List.length_filterMap_le _ [o]
  | succ room =>
    obtain ⟨o, whole⟩ := Place.items_semicolon true ends
    simp only [entriesAt, whole, Place.items_nil, ← List.filterMap_append]
    refine ⟨rfl, ?_⟩
    exact List.length_filterMap_le _ [o]

section Braces

variable (room : Nat) {place : Place} (roomy : place = .sheet → room ≠ 0) {front : List Node}
  (ends : place.endsAtBraces front) {closing : Option Lexeme}
  {inside : List Node} (filled : 1 < (Node.curly closing inside).text.length)

include roomy ends filled

theorem entriesAt_curly (more : List Node) :
    entriesAt room place (front ++ .curly closing inside :: more) =
        entriesAt room place (front ++ [.curly closing inside]) ++ entriesAt room place more ∧
      (entriesAt room place (front ++ [.curly closing inside])).length ≤ 1 := by
  cases room with
  | zero =>
    have inBody : place = .sheet → false = true := fun sheet => absurd rfl (roomy sheet)
    have whole := Place.items_curly inBody ends filled
    simp only [entriesAt, whole, Place.items_nil, ← List.filterMap_append]
    refine ⟨rfl, ?_⟩
    exact List.length_filterMap_le _ [_]
  | succ room =>
    have inRoom : place = .sheet → true = true := fun _ => rfl
    have whole := Place.items_curly inRoom ends filled
    simp only [entriesAt, whole, Place.items_nil, ← List.filterMap_append]
    refine ⟨rfl, ?_⟩
    exact List.length_filterMap_le _ [_]

theorem entriesAt_curly_single :
    entriesAt room place (front ++ [.curly closing inside]) =
      match room with
      | 0 => []
      | room + 1 => ((place.opens? front).map fun (key, how) => (key, Item.block (
        match how with
        | some context => outlineAt room (.body context) inside
        | none => verbatimBlock key (String.ofList (Text.trim (Node.textOf inside)))))).toList := by
  cases room with
  | zero =>
    rw [entriesAt, Place.items_curly (fun sheet => absurd rfl (roomy sheet)) ends filled,
      List.filterMap_cons, Outlook.entryOf?, Place.entryOf?_openSketch_full, Place.items_nil]
    rfl
  | succ room =>
    rw [entriesAt, Place.items_curly (fun _ => rfl) ends filled, List.filterMap_cons, Outlook.entryOf?,
      Place.entryOf?_openSketch, Place.items_nil]
    cases place.opens? front <;> rfl

end Braces

end CssOutline
