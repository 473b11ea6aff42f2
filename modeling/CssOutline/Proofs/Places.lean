import CssOutline.Proofs.Entries
import Mathlib.Data.List.Basic

/-! Where a lexeme stands in the text does not matter for the outline. The readers of values,
selectors and preludes see only tokens and their texts, so nodes may be compared with their places
removed. -/

namespace CssOutline

/-- The lexeme at the start of a text. -/
def Lexeme.unplaced (l : Lexeme) : Lexeme :=
  { l with start := .origin }

@[simp] theorem Lexeme.token_unplaced (l : Lexeme) : l.unplaced.token = l.token := rfl

namespace Node

mutual

def unplaced : Node → Node
  | leaf l => leaf l.unplaced
  | block l body closing => block l.unplaced (unplacedAll body) (closing.map Lexeme.unplaced)

def unplacedAll : List Node → List Node
  | [] => []
  | n :: ns => n.unplaced :: unplacedAll ns

end

theorem unplacedAll_eq_map (ns : List Node) : unplacedAll ns = ns.map unplaced := by
  induction ns with
  | nil => rfl
  | cons n ns ih => rw [unplacedAll, ih, List.map_cons]

@[simp] theorem token_unplaced (n : Node) : n.unplaced.token = n.token := by
  cases n <;> rfl

@[simp] theorem start_unplaced (n : Node) : n.unplaced.start = .origin := by
  cases n <;> rfl

@[simp] theorem headText_unplaced (n : Node) : n.unplaced.headText = n.headText := by
  cases n <;> rfl

@[simp] theorem isTrivia_unplaced (n : Node) : n.unplaced.isTrivia = n.isTrivia := by
  simp [isTrivia]

@[simp] theorem isComma_unplaced (n : Node) : n.unplaced.isComma = n.isComma := by
  simp [isComma]

@[simp] theorem isSemicolon_unplaced (n : Node) : n.unplaced.isSemicolon = n.isSemicolon := by
  simp [isSemicolon]

@[simp] theorem isCurly_unplaced (n : Node) : n.unplaced.isCurly = n.isCurly := by
  simp [isCurly]

mutual

@[simp] theorem text_unplaced : (n : Node) → n.unplaced.text = n.text
  | leaf l => rfl
  | block l body closing => by
    rw [unplaced, text, text, textOf_unplacedAll body]
    cases closing <;> rfl

theorem textOf_unplacedAll : (ns : List Node) → textOf (unplacedAll ns) = textOf ns
  | [] => rfl
  | n :: ns => by rw [unplacedAll, textOf, textOf, text_unplaced n, textOf_unplacedAll ns]

end

@[simp] theorem textOf_map_unplaced (ns : List Node) : textOf (ns.map unplaced) = textOf ns := by
  rw [← unplacedAll_eq_map, textOf_unplacedAll]

@[simp] theorem dropTrivia_unplaced (ns : List Node) :
    dropTrivia (ns.map unplaced) = (dropTrivia ns).map unplaced := by
  rw [dropTrivia, List.dropWhile_map]
  congr 2
  funext n
  simp

@[simp] theorem significant_unplaced (ns : List Node) :
    significant (ns.map unplaced) = (significant ns).map unplaced := by
  rw [significant, List.filter_map]
  congr 2
  funext n
  simp

@[simp] theorem trimmedText_unplaced (ns : List Node) :
    trimmedText (ns.map unplaced) = trimmedText ns := by
  simp [trimmedText]

mutual

@[simp] theorem color?_unplaced : (n : Node) → color? n.unplaced = color? n
  | leaf l => rfl
  | block l body closing => by
    rw [unplaced, color?, color?, colorItems_unplacedAll body]
    rfl

theorem colorItems_unplacedAll : (ns : List Node) → colorItems (unplacedAll ns) = colorItems ns
  | [] => rfl
  | n :: ns => by
    rw [unplacedAll, colorItems, colorItems, colorItems_unplacedAll ns, color?_unplaced n,
      isTrivia_unplaced, token_unplaced]

end

mutual

@[simp] theorem calc?_unplaced : (n : Node) → calc? n.unplaced = calc? n
  | leaf l => rfl
  | block l body closing => by
    rw [unplaced, calc?, calc?, terms_unplacedAll [] body]
    rfl

theorem terms_unplacedAll (lead : List Char) :
    (ns : List Node) → terms lead (unplacedAll ns) = terms lead ns
  | [] => rfl
  | n :: ns => by
    rw [unplacedAll, terms, terms, terms_unplacedAll _ ns, terms_unplacedAll _ ns,
      calc?_unplaced n, isTrivia_unplaced, token_unplaced, text_unplaced]

end

mutual

@[simp] theorem value?_unplaced (lead : List Char) :
    (n : Node) → value? lead n.unplaced = value? lead n
  | leaf l => rfl
  | block l body closing => by
    have color := color?_unplaced (block l body closing)
    have math := calc?_unplaced (block l body closing)
    have text := text_unplaced (block l body closing)
    rw [unplaced] at color math text ⊢
    rw [value?, value?, color, math, text, pieces_unplacedAll none body, unplacedAll_eq_map]
    simp only [callValue, trimmedText_unplaced]
    rfl

theorem pieces_unplacedAll (lead : Option (List Char)) :
    (ns : List Node) → pieces lead (unplacedAll ns) = pieces lead ns
  | [] => rfl
  | n :: ns => by
    rw [unplacedAll, pieces.eq_def, pieces.eq_def lead (n :: ns)]
    simp only [token_unplaced, text_unplaced, headText_unplaced, value?_unplaced _ n,
      pieces_unplacedAll _ ns]

end

@[simp] theorem pieces_unplaced (lead : Option (List Char)) (ns : List Node) :
    pieces lead (ns.map unplaced) = pieces lead ns := by
  rw [← unplacedAll_eq_map, pieces_unplacedAll]

end Node

namespace Attribute

@[simp] theorem value?_unplaced (n : Node) : value? n.unplaced = value? n := by
  simp [value?]

theorem flag?_unplaced (ns : List Node) : flag? (ns.map Node.unplaced) = flag? ns := by
  cases ns with
  | nil => rfl
  | cons n rest => cases rest <;> simp [flag?]

theorem test?_unplaced (ns : List Node) : test? (ns.map Node.unplaced) = test? ns := by
  cases ns with
  | nil => rfl
  | cons o rest =>
    cases rest with
    | nil => simp [test?]
    | cons v rest => simp [test?, flag?_unplaced]

@[simp] theorem read_unplaced (ns : List Node) : read (ns.map Node.unplaced) = read ns := by
  unfold read
  rw [Node.significant_unplaced]
  cases Node.significant ns with
  | nil => rfl
  | cons n rest => simp [test?_unplaced]

end Attribute

namespace Node

mutual

@[simp] theorem symbol?_unplaced : (n : Node) → symbol? n.unplaced = symbol? n
  | leaf l => rfl
  | block l body closing => by
    rw [unplaced, symbol?, symbol?, symbols_unplacedAll body, unplacedAll_eq_map]
    simp only [Argument.read, trimmedText_unplaced, Attribute.read_unplaced]
    rfl

theorem symbols_unplacedAll : (ns : List Node) → symbols (unplacedAll ns) = symbols ns
  | [] => rfl
  | n :: ns => by
    rw [unplacedAll, symbols, symbols, symbol?_unplaced n, symbols_unplacedAll ns]

end

@[simp] theorem readSelectors_unplaced (ns : List Node) :
    readSelectors (ns.map unplaced) = readSelectors ns := by
  rw [← unplacedAll_eq_map, readSelectors, symbols_unplacedAll, readSelectors]

theorem keyframesOf_unplaced (ns : List Node) :
    keyframesOf (ns.map unplaced) = keyframesOf ns := by
  fun_induction keyframesOf ns with
  | case1 => rfl
  | case2 n rest none => simp [keyframesOf, none]
  | case3 n k some => simp [keyframesOf, some]
  | case4 n k separator rest comma some ih => simp [keyframesOf, some, comma, ih]
  | case5 n k separator rest comma some => simp [keyframesOf, some, comma]

@[simp] theorem readKeyframes_unplaced (ns : List Node) :
    readKeyframes (ns.map unplaced) = readKeyframes ns := by
  rw [readKeyframes, significant_unplaced, keyframesOf_unplaced, readKeyframes]

end Node

theorem segments_map {α β : Type} (p : β → Bool) (f : α → β) (xs : List α) :
    segments p (xs.map f) = (segments (p ∘ f) xs).map (List.map f) := by
  induction xs with
  | nil => rfl
  | cons x xs ih =>
    rw [List.map_cons, segments, segments, ih]
    by_cases cut : p (f x)
    · simp [cut]
    · simp only [cut, Function.comp_apply, Bool.false_eq_true, ↓reduceIte]
      cases segments (p ∘ f) xs <;> rfl

namespace Condition

theorem feature?_unplaced (ns : List Node) : feature? (ns.map Node.unplaced) = feature? ns := by
  unfold feature?
  rw [Node.dropTrivia_unplaced]
  cases Node.dropTrivia ns with
  | nil => rfl
  | cons n rest =>
    simp only [List.map_cons, Node.token_unplaced, Node.dropTrivia_unplaced]
    cases Node.dropTrivia rest with
    | nil => rfl
    | cons separator rest => simp [Node.readValue]

@[simp] theorem ofNode_unplaced (n : Node) : ofNode n.unplaced = ofNode n := by
  have text := n.text_unplaced
  cases n with
  | leaf l =>
    obtain ⟨t, _, _⟩ := l
    cases t <;> rfl
  | block l body closing =>
    obtain ⟨t, _, _⟩ := l
    rw [Node.unplaced, Node.unplacedAll_eq_map] at text ⊢
    cases t <;> simp [ofNode, Node.token, Lexeme.unplaced, feature?_unplaced, ← text]

theorem read?_unplaced (ns : List Node) : read? (ns.map Node.unplaced) = read? ns := by
  simp only [read?, Node.significant_unplaced, List.map_map]
  congr 2
  funext n
  simp

end Condition

@[simp] theorem Prelude.read_unplaced (kind : String) (ns : List Node) :
    read kind (ns.map Node.unplaced) = read kind ns := by
  have queries : (segments Node.isComma (ns.map Node.unplaced)).mapM Condition.read? =
      (segments Node.isComma ns).mapM Condition.read? := by
    have comma : Node.isComma ∘ Node.unplaced = Node.isComma := by
      funext n
      simp
    rw [segments_map, comma]
    generalize segments Node.isComma ns = parts
    induction parts with
    | nil => rfl
    | cons part parts ih =>
      rw [List.map_cons, List.mapM_cons, List.mapM_cons, ih, Condition.read?_unplaced]
  simp only [read, Node.significant_unplaced, List.map_eq_nil_iff, Node.trimmedText_unplaced,
    Condition.read?_unplaced, queries, Node.readValue, Node.pieces_unplaced]

namespace Sketch

section Steps

variable {context : Context} {room : Bool} {n : Node} {rest : List Node}

theorem ofBody_skip (skipped : n.isTrivia || n.isSemicolon) :
    ofBody context room (n :: rest) = ofBody context room rest := by
  rw [ofBody.eq_def]
  simp only [skipped, ↓reduceIte]

theorem ofBody_atKeyword {name : String} (keyword : n.token = .atKeyword name) :
    ofBody context room (n :: rest) =
      .rule (ofAtRule room n name (upTo endsItem rest) (stop? endsItem rest)) ::
        ofBody context room (after endsItem rest) := by
  rw [ofBody.eq_def]
  simp [Node.isTrivia, Node.isSemicolon, keyword, Token.isTrivia]

theorem ofBody_ident {name : String} (ident : n.token = .ident name) :
    ofBody .style room (n :: rest) =
      (ofIdent room n name rest).1 :: ofBody .style room (ofIdent room n name rest).2 := by
  rw [ofBody.eq_def]
  simp [Node.isTrivia, Node.isSemicolon, ident, Token.isTrivia]

theorem ofBody_other (kept : ¬(n.isTrivia || n.isSemicolon))
    (noKeyword : ∀ name, n.token ≠ .atKeyword name)
    (noIdent : ∀ name, n.token = .ident name → context ≠ .style) :
    ofBody context room (n :: rest) =
      .rule (ofRule context room n.start (upTo endsItem (n :: rest))
        (stop? endsItem (n :: rest))) :: ofBody context room (after endsItem (n :: rest)) := by
  rw [ofBody.eq_def]
  simp only [kept, Bool.false_eq_true, ↓reduceIte]

theorem ofSheet_skip (skipped : n.isTrivia || n.token == .cdo || n.token == .cdc) :
    ofSheet (n :: rest) = ofSheet rest := by
  rw [ofSheet.eq_def]
  simp only [skipped, ↓reduceIte]

theorem ofSheet_atKeyword {name : String} (keyword : n.token = .atKeyword name) :
    ofSheet (n :: rest) =
      ofAtRule true n name (upTo endsItem rest) (stop? endsItem rest) ::
        ofSheet (after endsItem rest) := by
  rw [ofSheet.eq_def]
  simp [Node.isTrivia, keyword, Token.isTrivia]

theorem ofSheet_other (kept : ¬(n.isTrivia || n.token == .cdo || n.token == .cdc))
    (noKeyword : ∀ name, n.token ≠ .atKeyword name) :
    ofSheet (n :: rest) =
      ofRule .style true n.start (upTo Node.isCurly (n :: rest))
        (stop? Node.isCurly (n :: rest)) :: ofSheet (after Node.isCurly (n :: rest)) := by
  rw [ofSheet.eq_def]
  simp only [kept, Bool.false_eq_true, ↓reduceIte]

end Steps

def unplaced : Sketch → Sketch
  | style _ head block => style .origin head (block.map Node.unplaced)
  | statement _ name clause => statement .origin name clause
  | members _ name clause context block =>
    members .origin name clause context (block.map Node.unplaced)
  | verbatim _ name clause block => verbatim .origin name clause (block.map Node.unplaced)
  | unrecognized _ fault source => unrecognized .origin fault source

@[simp] theorem endsItem_unplaced (n : Node) : endsItem n.unplaced = endsItem n := by
  simp [endsItem]

section Cut

variable (p : Node → Bool) (same : ∀ n : Node, p n.unplaced = p n)

include same

theorem upTo_unplaced (ns : List Node) :
    upTo p (ns.map Node.unplaced) = (upTo p ns).map Node.unplaced := by
  rw [upTo, List.takeWhile_map]
  congr 2
  funext n
  simp [same]

theorem dropWhile_unplaced (ns : List Node) :
    (ns.map Node.unplaced).dropWhile (fun n => !p n) =
      (ns.dropWhile fun n => !p n).map Node.unplaced := by
  rw [List.dropWhile_map]
  congr 2
  funext n
  simp [same]

theorem stop?_unplaced (ns : List Node) :
    stop? p (ns.map Node.unplaced) = (stop? p ns).map Node.unplaced := by
  rw [stop?, dropWhile_unplaced p same, List.head?_map, stop?]

theorem after_unplaced (ns : List Node) :
    after p (ns.map Node.unplaced) = (after p ns).map Node.unplaced := by
  rw [after, dropWhile_unplaced p same, ← List.map_drop, after]

theorem itemText_unplaced (ns : List Node) : itemText p (ns.map Node.unplaced) = itemText p ns := by
  rw [itemText, upTo_unplaced p same, stop?_unplaced p same, itemText]
  cases stop? p ns <;> simp

end Cut

theorem ofAtRule_unplaced (room : Bool) (keyword : Node) (name : String) (front : List Node)
    (stop : Option Node) :
    ofAtRule room keyword.unplaced name (front.map Node.unplaced) (stop.map Node.unplaced) =
      (ofAtRule room keyword name front stop).unplaced := by
  cases stop with
  | none => simp [ofAtRule, unplaced]
  | some n =>
    cases n with
    | leaf l => simp [ofAtRule, unplaced, Node.unplaced]
    | block opening body closing =>
      simp only [ofAtRule, Option.map_some, Node.unplaced, Node.unplacedAll_eq_map,
        Prelude.read_unplaced, Node.start_unplaced, Node.text_unplaced, Node.textOf_map_unplaced]
      split_ifs <;> rfl

theorem readHead_unplaced (context : Context) (front : List Node) :
    readHead context (front.map Node.unplaced) = readHead context front := by
  cases context <;> simp [readHead]

theorem ofRule_unplaced (context : Context) (room : Bool) (start : Location) (front : List Node)
    (stop : Option Node) :
    ofRule context room .origin (front.map Node.unplaced) (stop.map Node.unplaced) =
      (ofRule context room start front stop).unplaced := by
  cases stop with
  | none => simp [ofRule, unplaced]
  | some n =>
    cases n with
    | leaf l => simp [ofRule, unplaced, Node.unplaced, Lexeme.unplaced]
    | block opening body closing =>
      simp only [ofRule, Option.map_some, Node.unplaced, Node.unplacedAll_eq_map,
        readHead_unplaced, Node.textOf_map_unplaced]
      cases readHead context front with
      | error fault => rfl
      | ok head => cases room <;> rfl

theorem readDeclaration_unplaced (name : String) (ns : List Node) :
    readDeclaration name (ns.map Node.unplaced) = readDeclaration name ns := by
  unfold readDeclaration
  rw [Node.dropTrivia_unplaced]
  cases Node.dropTrivia ns with
  | nil => rfl
  | cons n rest => simp [Node.readCustom, Node.readDeclared]

end Sketch

def Outlook.unplaced : Outlook → Outlook
  | declaration d => declaration d
  | rule sketch => rule sketch.unplaced

namespace Sketch

theorem ofIdent_unplaced (room : Bool) (n : Node) (name : String) (rest : List Node) :
    ofIdent room n.unplaced name (rest.map Node.unplaced) =
      ((ofIdent room n name rest).1.unplaced,
        (ofIdent room n name rest).2.map Node.unplaced) := by
  unfold ofIdent
  rw [← List.map_cons, upTo_unplaced _ (by simp), upTo_unplaced _ (by simp), readDeclaration_unplaced,
    stop?_unplaced _ (by simp), after_unplaced _ (by simp), after_unplaced _ (by simp),
    after_unplaced _ (by simp), itemText_unplaced _ (by simp), Node.start_unplaced,
    ofRule_unplaced _ _ n.start]
  cases readDeclaration name (upTo Node.isSemicolon rest) with
  | ok d => rfl
  | error fault =>
    simp only
    generalize ofRule Context.style room n.start _ _ = rule
    cases rule with
    | unrecognized start fault source =>
      simp only [unplaced]
      split <;> rfl
    | _ => rfl

theorem ofBody_unplaced (context : Context) (room : Bool) (ns : List Node) :
    ofBody context room (ns.map Node.unplaced) = (ofBody context room ns).map Outlook.unplaced := by
  fun_induction ofBody context room ns with
  | case1 => simp [ofBody]
  | case2 n rest skipped ih => rw [List.map_cons, ofBody_skip (by simpa using skipped), ih]
  | case3 n rest _ name keyword _ ih =>
    rw [List.map_cons, ofBody_atKeyword (by simpa using keyword),
      upTo_unplaced _ endsItem_unplaced, stop?_unplaced _ endsItem_unplaced,
      after_unplaced _ endsItem_unplaced, ofAtRule_unplaced, ih]
    rfl
  | case4 n rest _ name isStyle ident _ ih =>
    subst isStyle
    rw [List.map_cons, ofBody_ident (by simpa using ident), ofIdent_unplaced, ih]
    rfl
  | case5 n rest kept _ noKeyword noIdent ih =>
    rw [List.map_cons, ofBody_other (by simpa using kept) (by simpa using noKeyword)
      (by simpa using fun name => noIdent name), ← List.map_cons,
      upTo_unplaced _ endsItem_unplaced, stop?_unplaced _ endsItem_unplaced,
      after_unplaced _ endsItem_unplaced, Node.start_unplaced, ofRule_unplaced _ _ n.start, ih]
    rfl

theorem ofSheet_unplaced (ns : List Node) :
    ofSheet (ns.map Node.unplaced) = (ofSheet ns).map unplaced := by
  fun_induction ofSheet ns with
  | case1 => simp [ofSheet]
  | case2 n rest skipped ih => rw [List.map_cons, ofSheet_skip (by simpa using skipped), ih]
  | case3 n rest _ name keyword _ ih =>
    rw [List.map_cons, ofSheet_atKeyword (by simpa using keyword),
      upTo_unplaced _ endsItem_unplaced, stop?_unplaced _ endsItem_unplaced,
      after_unplaced _ endsItem_unplaced, ofAtRule_unplaced, ih]
    rfl
  | case4 n rest kept _ noKeyword ih =>
    rw [List.map_cons, ofSheet_other (by simpa using kept) (by simpa using noKeyword),
      ← List.map_cons, upTo_unplaced _ Node.isCurly_unplaced,
      stop?_unplaced _ Node.isCurly_unplaced, after_unplaced _ Node.isCurly_unplaced,
      Node.start_unplaced, ofRule_unplaced _ _ n.start, ih]
    rfl

end Sketch

namespace Lexer

theorem unplaced_lexemesFrom (a b : Location) (cs : List Char) :
    (lexemesFrom a cs).map Lexeme.unplaced = (lexemesFrom b cs).map Lexeme.unplaced := by
  fun_induction lexemesFrom a cs generalizing b with
  | case1 => simp [lexemesFrom]
  | case2 a c rest _ text ih =>
    rw [lexemesFrom, List.map_cons, List.map_cons]
    exact congrArg₂ List.cons rfl (ih _)

/-- The lexemes of a text without their places. -/
def plain (cs : List Char) : List Lexeme :=
  (lexemes cs).map Lexeme.unplaced

@[simp] theorem plain_nil : plain [] = [] := by
  simp [plain, lexemes, lexemesFrom]

theorem plain_cons (c : Char) (rest : List Char) :
    plain (c :: rest) =
      ⟨(scan c rest).1, before (c :: rest) (scan c rest).2, .origin⟩ ::
        plain (scan c rest).2 := by
  rw [plain, lexemes, lexemesFrom, List.map_cons]
  exact congrArg₂ List.cons rfl (unplaced_lexemesFrom _ _ _)

end Lexer

namespace Node

def Frame.unplaced (f : Frame) : Frame :=
  ⟨f.opening.unplaced, f.outer.map Node.unplaced⟩

@[simp] theorem Frame.opening_unplaced (f : Frame) : f.unplaced.opening = f.opening.unplaced := rfl

theorem finish_unplaced (stack : List Frame) (siblings : List Node) :
    (finish stack siblings).map unplaced =
      finish (stack.map Frame.unplaced) (siblings.map unplaced) := by
  induction stack generalizing siblings with
  | nil => simp [finish]
  | cons f stack ih =>
    rw [finish, ih, List.map_cons, List.map_cons, finish, unplaced, unplacedAll_eq_map,
      List.map_reverse]
    rfl

section Steps

variable {stack : List Frame} {siblings : List Node} {l : Lexeme} {ls : List Lexeme}

theorem build_nil : build stack siblings [] = finish stack siblings := by
  rw [build.eq_def]

theorem build_open (opening : l.token.closing?.isSome) :
    build stack siblings (l :: ls) = build (⟨l, siblings⟩ :: stack) [] ls := by
  rw [build.eq_def]
  simp only [opening, ↓reduceIte]

theorem build_close {f : Frame} (plain : l.token.closing? = none)
    (closing : f.opening.token.closing? = some l.token) :
    build (f :: stack) siblings (l :: ls) =
      build stack (block f.opening siblings.reverse (some l) :: f.outer) ls := by
  rw [build.eq_def]
  simp [plain, closing]

theorem build_leaf (plain : l.token.closing? = none)
    (inside : ∀ f ∈ stack.head?, f.opening.token.closing? ≠ some l.token) :
    build stack siblings (l :: ls) = build stack (leaf l :: siblings) ls := by
  rw [build.eq_def]
  cases stack with
  | nil => simp [plain]
  | cons f stack => simp [plain, inside f rfl]

end Steps

theorem build_unplaced (stack : List Frame) (siblings : List Node) (ls : List Lexeme) :
    (build stack siblings ls).map unplaced =
      build (stack.map Frame.unplaced) (siblings.map unplaced) (ls.map Lexeme.unplaced) := by
  fun_induction build stack siblings ls with
  | case1 stack siblings => rw [finish_unplaced, List.map_nil, build_nil]
  | case2 stack siblings l ls opening ih =>
    rw [ih, List.map_cons, List.map_cons, build_open (l := l.unplaced) opening]
    rfl
  | case3 siblings l ls plain f outer closing ih =>
    rw [ih, List.map_cons, List.map_cons, List.map_cons,
      build_close (f := f.unplaced) (l := l.unplaced) (by simpa using plain) closing, unplaced,
      unplacedAll_eq_map, List.map_reverse]
    rfl
  | case4 siblings l ls plain f outer closing ih =>
    rw [ih, List.map_cons, List.map_cons, List.map_cons,
      build_leaf (l := l.unplaced) (by simpa using plain) (by simpa using closing)]
    rfl
  | case5 siblings l ls plain ih =>
    rw [ih, List.map_cons, List.map_cons, List.map_nil,
      build_leaf (l := l.unplaced) (by simpa using plain) (by simp)]
    rfl

/-- The nodes of a text without their places. -/
def plain (cs : List Char) : List Node :=
  build [] [] (Lexer.plain cs)

theorem unplaced_ofText (cs : List Char) : (ofText cs).map unplaced = plain cs := by
  rw [ofText, build_unplaced]
  rfl

end Node

/-- Where items stand: outside every block, or in a block that holds rules or keyframes. -/
inductive Place where
  | sheet
  | body (context : Context)
deriving DecidableEq, Repr

def Place.items (room : Bool) : Place → List Node → List Outlook
  | sheet, ns => (Sketch.ofSheet ns).map .rule
  | body context, ns => Sketch.ofBody context room ns

/-- The entry of a rule whose block is still to be read. -/
def Sketch.entryOf? (inner : Context → List Node → Outline) : Sketch → Option (String × Item)
  | style _ head block => some (head.render, .block (inner .style block))
  | statement _ name clause => some (atKey name clause, .value "")
  | members _ name clause context block =>
    some (atKey name clause, .block (inner context block))
  | verbatim _ name clause block =>
    some (atKey name clause,
      .block (verbatimBlock (atKey name clause) (String.ofList (Text.trim (Node.textOf block)))))
  | unrecognized _ _ _ => none

def Outlook.entryOf? (inner : Context → List Node → Outline) : Outlook → Option (String × Item)
  | declaration d => some (d.entry.1, .value d.entry.2)
  | rule sketch => sketch.entryOf? inner

theorem Outlook.entryOf?_expand (read : Context → List Node → List Member) (o : Outlook) :
    (o.expand read).entryOf? = o.entryOf? fun context ns => addMembers .nil (read context ns) := by
  cases o with
  | declaration d => rfl
  | rule sketch => cases sketch <;> rfl

/-- The entries read from nodes, below which blocks may nest `room` levels deep. -/
def entriesAt : Nat → Place → List Node → List (String × Item)
  | 0, place, ns => (place.items false ns).filterMap (·.entryOf? fun _ _ => .nil)
  | room + 1, place, ns =>
    (place.items true ns).filterMap
      (·.entryOf? fun context block => .mergeAll .nil (entriesAt room (.body context) block))

/-- The outline read from nodes. -/
def outlineAt (room : Nat) (place : Place) (ns : List Node) : Outline :=
  .mergeAll .nil (entriesAt room place ns)

theorem addMembers_readBody (room : Nat) (context : Context) (ns : List Node) :
    addMembers .nil (readBody room context ns) = outlineAt room (.body context) ns := by
  induction room generalizing context ns with
  | zero =>
    rw [addMembers_eq_mergeAll, readBody, List.filterMap_map, outlineAt, entriesAt]
    congr 2
    funext o
    exact o.entryOf?_expand _
  | succ room ih =>
    rw [addMembers_eq_mergeAll, readBody, List.filterMap_map, outlineAt, entriesAt]
    congr 2
    funext o
    simp only [Function.comp_apply, o.entryOf?_expand, ih]
    rfl

theorem outlineOf_readRules (ns : List Node) :
    outlineOf (readRules ns) = outlineAt maxNesting .sheet ns := by
  rw [outlineOf_eq_mergeAll, readRules, List.filterMap_map, outlineAt, maxNesting, entriesAt,
    Place.items, List.filterMap_map]
  congr 2
  funext s
  have expanded := (Outlook.rule s).entryOf?_expand (readBody 63)
  simp only [addMembers_readBody] at expanded
  exact expanded

theorem entriesAt_unplaced (room : Nat) (place : Place) (ns : List Node) :
    entriesAt room place (ns.map Node.unplaced) = entriesAt room place ns := by
  have items : ∀ (place : Place) (room : Bool) (ns : List Node),
      place.items room (ns.map Node.unplaced) =
        (place.items room ns).map Outlook.unplaced := by
    intro place room ns
    cases place with
    | sheet => simp [Place.items, Sketch.ofSheet_unplaced, Outlook.unplaced]
    | body context => simp [Place.items, Sketch.ofBody_unplaced]
  have entry : ∀ (inner : Context → List Node → Outline) (o : Outlook),
      (∀ context ns, inner context (ns.map Node.unplaced) = inner context ns) →
      o.unplaced.entryOf? inner = o.entryOf? inner := by
    intro inner o same
    cases o with
    | declaration d => rfl
    | rule sketch =>
      cases sketch <;> simp [Outlook.unplaced, Sketch.unplaced, Outlook.entryOf?, Sketch.entryOf?,
        same]
  induction room generalizing place ns with
  | zero =>
    rw [entriesAt, items, List.filterMap_map, entriesAt]
    congr 2
    funext o
    exact entry _ o (by simp)
  | succ room ih =>
    rw [entriesAt, items, List.filterMap_map, entriesAt]
    congr 2
    funext o
    exact entry _ o fun context block => by rw [ih]

/-- The outline of a text is that of its nodes without their places. -/
theorem outlineOf_readRules_ofText (cs : List Char) :
    outlineOf (readRules (Node.ofText cs)) = outlineAt maxNesting .sheet (Node.plain cs) := by
  rw [outlineOf_readRules, outlineAt, ← entriesAt_unplaced, Node.unplaced_ofText, outlineAt]

end CssOutline
