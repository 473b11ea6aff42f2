import CssOutline.Proofs.LineEnds
import CssOutline.Proofs.Nesting

/-! Places of rules. The rules of a sheet, each listed before those in its body, start one behind the
other, each where its first token does; and what is kept of a rule that was not read is the text
from there on. -/

namespace CssOutline

open Node (Inside)
open Sketch (isBetween isAround endsItem)

namespace Sketch

def start : Sketch → Location
  | style start _ _ => start
  | statement start _ _ => start
  | members start _ _ _ _ => start
  | verbatim start _ _ _ => start
  | unrecognized start _ _ => start

theorem start_expand (read : Context → List Node → List Member) (s : Sketch) :
    (s.expand read).start = s.start := by
  cases s <;> rfl

def block? : Sketch → Option (List Node)
  | style _ _ block => some block
  | members _ _ _ _ block => some block
  | _ => none

/-- What is kept of nodes that are not read as a rule: their text, without what follows the first
token of the last one if that is a block. -/
def Keeps (item : List Node) (source : List Char) : Prop :=
  source = Node.textOf item ∨
    ∃ front last, item = front ++ [last] ∧ source = Node.textOf front ++ last.headText

structure Covers (item : List Node) (s : Sketch) : Prop where
  start : ∀ n ∈ item.head?, s.start = n.start
  block : ∀ body ∈ s.block?, ∃ front opening closing, item = front ++ [.block opening body closing]
  source : ∀ start fault source, s = .unrecognized start fault source → Keeps item source

section Covers

variable {p : Node → Bool} {context : Context} {room : Bool} {n : Node} {item rest more : List Node}
  {name : String}

theorem upTo_append_stop? (none : after p item = []) :
    upTo p item ++ (stop? p item).toList = item := by
  have whole := List.takeWhile_append_dropWhile (p := fun n => !p n) (l := item)
  rw [upTo, stop?]
  rw [after] at none
  cases left : item.dropWhile fun n => !p n with
  | nil => simpa [left] using whole
  | cons m ms =>
    obtain rfl : ms = [] := by simpa [left] using none
    simpa [left] using whole

theorem itemText_of_after (none : after p item = []) : itemText p item = Node.textOf item := by
  conv_rhs => rw [← upTo_append_stop? none, Node.textOf_append]
  rw [itemText]
  cases stop? p item <;> simp [Node.textOf]

theorem covers_ofAtRule (room : Bool) (keyword : Node) (name : String) (front : List Node)
    (stop : Option Node) :
    Covers (keyword :: (front ++ stop.toList)) (ofAtRule room keyword name front stop) := by
  rcases stop with _ | l | ⟨opening, body, closing⟩
  · exact ⟨by simp [ofAtRule, start], by simp [ofAtRule, block?], by simp [ofAtRule]⟩
  · exact ⟨by simp [ofAtRule, start], by simp [ofAtRule, block?], by simp [ofAtRule]⟩
  · have whole : keyword :: (front ++ (some (Node.block opening body closing)).toList) =
        (keyword :: front) ++ [.block opening body closing] := rfl
    rw [whole]
    unfold ofAtRule
    simp only
    split_ifs
    · refine ⟨by simp [start], by simp [block?], ?_⟩
      rintro _ _ _ ⟨⟩
      exact .inr ⟨_, _, rfl, by simp [Node.textOf, Node.headText]⟩
    · exact ⟨by simp [start], fun b found => ⟨_, _, _, by cases found; rfl⟩, by simp⟩
    · exact ⟨by simp [start], fun b found => ⟨_, _, _, by cases found; rfl⟩, by simp⟩
    · exact ⟨by simp [start], by simp [block?], by simp⟩

theorem covers_ofRule (context : Context) (room : Bool) {front : List Node} {stop : Option Node}
    (whole : front ++ stop.toList = n :: rest) :
    Covers (n :: rest) (ofRule context room n.start front stop) := by
  rcases stop with _ | l | ⟨opening, body, closing⟩
  · refine ⟨by simp [ofRule, start], by simp [ofRule, block?], ?_⟩
    rintro _ _ _ ⟨⟩
    exact .inl (by simp [← whole])
  · refine ⟨by simp [ofRule, start], by simp [ofRule, block?], ?_⟩
    rintro _ _ _ ⟨⟩
    rw [← whole]
    exact .inl (by simp [Node.textOf_append, Node.textOf, Node.text])
  · have last : n :: rest = front ++ [.block opening body closing] := whole.symm
    have kept : Keeps (n :: rest) (Node.textOf front ++ opening.text) := .inr ⟨_, _, last, rfl⟩
    unfold ofRule
    simp only
    split
    · refine ⟨by simp [start], by simp [block?], ?_⟩
      rintro _ _ _ ⟨⟩
      exact kept
    · split
      · exact ⟨by simp [start], fun b found => ⟨_, _, _, by cases found; exact last⟩, by simp⟩
      · refine ⟨by simp [start], by simp [block?], ?_⟩
        rintro _ _ _ ⟨⟩
        exact kept

theorem after_isSemicolon_eq_nil (ends : EndsAfter endsItem item more) :
    after Node.isSemicolon item = [] := by
  rcases ends with ⟨front, stop, rfl, _, kept⟩ | ⟨kept, rfl⟩
  · have plain : ∀ m ∈ front, m.isSemicolon = false :=
      fun m member => (endsItem_eq_false.1 (kept m member)).1
    cases semicolon : stop.isSemicolon with
    | true => exact after_cut plain semicolon []
    | false =>
      refine (EndsAfter.of_forall fun m member => ?_).after_eq_nil
      rcases List.mem_append.1 member with before | here
      · exact plain m before
      · rw [List.mem_singleton.1 here, semicolon]
  · exact (EndsAfter.of_forall fun m member =>
      (endsItem_eq_false.1 (kept m member)).1).after_eq_nil

theorem covers_ofIdent (ends : EndsAfter endsItem (n :: rest) more) {s : Sketch}
    (taken : (ofIdent room n name rest).1 = .rule s) : Covers (n :: rest) s := by
  have asRule := covers_ofRule .style room (upTo_append_stop? ends.after_eq_nil)
  unfold ofIdent at taken
  split at taken
  · cases taken
  · simp only at taken
    split at taken
    · split at taken
      · cases taken
        exact asRule
      · cases taken
        refine ⟨by simp [start], by simp [block?], ?_⟩
        rintro _ _ _ ⟨⟩
        exact .inl (itemText_of_after (after_isSemicolon_eq_nil ends))
    · cases taken
      exact asRule

theorem after_of_cons (plain : p n = false) (none : after p (n :: rest) = []) :
    after p rest = [] := by
  rwa [after, List.dropWhile_cons_of_pos (by simp [plain])] at none

theorem endsItem_of_atKeyword (keyword : n.token = .atKeyword name) : endsItem n = false := by
  simp [endsItem, Node.isSemicolon, Node.isCurly, keyword]

theorem IsItem.covers {s : Sketch} (taken : IsItem context room (n :: rest) more (.rule s))
    (first : isBetween n = false) : Covers (n :: rest) s := by
  have ends : EndsAfter endsItem (n :: rest) more := taken.ends
  have none := ends.after_eq_nil
  have alone := taken.alone
  rw [ofBody_itemAt first] at alone
  have here := (List.cons.inj alone).1
  rcases atKeyword_or_ident_or_other context n with ⟨name, keyword⟩ | ⟨name, ident, rfl⟩ | other
  · rw [itemAt_atKeyword keyword] at here
    cases here
    have whole := upTo_append_stop? (after_of_cons (endsItem_of_atKeyword keyword) none)
    have covers := covers_ofAtRule room n name (upTo endsItem rest) (stop? endsItem rest)
    rwa [whole] at covers
  · rw [itemAt_ident ident] at here
    exact covers_ofIdent ends here
  · rw [itemAt_other other.1 other.2] at here
    cases here
    exact covers_ofRule context room (upTo_append_stop? none)

theorem covers_of_ofSheet {s : Sketch} (ends : EndsAfter s.stops (n :: rest) more)
    (alone : ofSheet (n :: rest) = [s]) (first : isAround n = false) : Covers (n :: rest) s := by
  by_cases keyword : ∃ name, n.token = .atKeyword name
  · obtain ⟨name, keyword⟩ := keyword
    rw [ofSheet_atKeyword keyword] at alone
    obtain ⟨rfl, _⟩ := List.cons.inj alone
    rw [stops_ofAtRule] at ends
    have whole := upTo_append_stop?
      (after_of_cons (endsItem_of_atKeyword keyword) ends.after_eq_nil)
    have covers := covers_ofAtRule true n name (upTo endsItem rest) (stop? endsItem rest)
    rwa [whole] at covers
  · rw [ofSheet_other (by simpa [isAround] using first) (not_exists.1 keyword)] at alone
    obtain ⟨rfl, _⟩ := List.cons.inj alone
    rw [stops_ofRule] at ends
    exact covers_ofRule .style true (upTo_append_stop? ends.after_eq_nil)

end Covers

end Sketch

mutual

/-- A rule and the rules within it, each before those in its body. -/
def Rule.listed : Rule → List Rule
  | .style start head body => .style start head body :: listedIn body
  | .atRule start name clause body => .atRule start name clause body :: body.listed
  | .unrecognized start reason source => [.unrecognized start reason source]

def AtBody.listed : AtBody → List Rule
  | .none => []
  | .members list => listedIn list
  | .verbatim _ => []

def Member.listed : Member → List Rule
  | .declaration _ => []
  | .rule rule => rule.listed

def listedIn : List Member → List Rule
  | [] => []
  | m :: ms => m.listed ++ listedIn ms

end

/-- The rules of a tree, each before those in its body. -/
def listedRules (rules : List Rule) : List Rule :=
  rules.flatMap Rule.listed

theorem listedIn_eq_flatMap (ms : List Member) : listedIn ms = ms.flatMap Member.listed := by
  induction ms with
  | nil => rfl
  | cons m ms ih => rw [listedIn, ih, List.flatMap_cons]

mutual

theorem LiesIn.exists_of_mem_listed {rules : List Rule} {k : Nat} {outer r : Rule}
    (lies : LiesIn rules k outer) (member : r ∈ outer.listed) : ∃ k', LiesIn rules k' r := by
  cases outer with
  | style start head body =>
    rcases List.mem_cons.1 member with rfl | inner
    · exact ⟨k, lies⟩
    · exact LiesIn.exists_of_mem_listedIn body (fun r here => .inside lies rfl here) inner
  | atRule start name clause body =>
    rcases List.mem_cons.1 member with rfl | inner
    · exact ⟨k, lies⟩
    · cases body with
      | none => cases inner
      | verbatim text => cases inner
      | members list =>
        exact LiesIn.exists_of_mem_listedIn list (fun r here => .inside lies rfl here) inner
  | unrecognized start reason source =>
    obtain rfl := List.mem_singleton.1 member
    exact ⟨k, lies⟩

theorem LiesIn.exists_of_mem_listedIn {rules : List Rule} {k : Nat} {r : Rule} (ms : List Member)
    (lies : ∀ r, .rule r ∈ ms → LiesIn rules k r) (member : r ∈ listedIn ms) :
    ∃ k', LiesIn rules k' r := by
  cases ms with
  | nil => cases member
  | cons m ms =>
    have later := fun r here => lies r (List.mem_cons_of_mem m here)
    cases m with
    | declaration d => exact LiesIn.exists_of_mem_listedIn ms later member
    | rule outer =>
      rcases List.mem_append.1 member with first | behind
      · exact LiesIn.exists_of_mem_listed (lies outer List.mem_cons_self) first
      · exact LiesIn.exists_of_mem_listedIn ms later behind

end

def Node.starts (ns : List Node) : List Location :=
  (Node.lexemesOf ns).map Lexeme.start

namespace Node

theorem starts_append (ns ms : List Node) : starts (ns ++ ms) = starts ns ++ starts ms := by
  rw [starts, lexemesOf_append, List.map_append]
  rfl

theorem exists_starts_cons (n : Node) (rest : List Node) :
    ∃ more, starts (n :: rest) = n.start :: more := by
  cases n with
  | leaf l => exact ⟨_, rfl⟩
  | block l body closing => exact ⟨_, rfl⟩

theorem sublist_of_block {n : Node} {rest front body : List Node} {opening : Lexeme}
    {closing : Option Lexeme} (last : n :: rest = front ++ [block opening body closing]) :
    (n.start :: starts body).Sublist (starts (n :: rest)) := by
  have inner : starts [block opening body closing] =
      opening.start :: (starts body ++ closing.toList.map Lexeme.start) := by
    simp [starts, lexemesOf, lexemes]
  have within := List.sublist_append_left (starts body) (closing.toList.map Lexeme.start)
  obtain _ | ⟨m, front⟩ := front
  · obtain ⟨rfl, rfl⟩ := List.cons.inj last
    rw [inner]
    exact within.cons_cons _
  · rw [List.cons_append, List.cons.injEq] at last
    obtain ⟨rfl, rfl⟩ := last
    obtain ⟨more, first⟩ := exists_starts_cons n front
    rw [← List.cons_append, starts_append, first, inner, List.cons_append]
    exact ((within.cons _).trans (List.sublist_append_right _ _)).cons_cons _

end Node

theorem Cut.sublist_starts {α : Type} {P : Lexeme → Prop} {skips : Node → Bool}
    {Holds : List Node → List Node → α → Prop} {places : α → List Location}
    (within : ∀ {n item more x}, skips n = false → (∀ m ∈ n :: item, m.Built P) →
      Holds (n :: item) more x → (places x).Sublist (Node.starts (n :: item)))
    {ns : List Node} {xs : List α} (built : ∀ n ∈ ns, n.Built P) (cut : Cut skips Holds ns xs) :
    (xs.flatMap places).Sublist (Node.starts ns) := by
  induction cut with
  | nil => exact List.nil_sublist _
  | @skip n ns xs _ _ ih =>
    rw [← List.singleton_append, Node.starts_append]
    exact (ih fun m member => built m (by simp [member])).trans (List.sublist_append_right _ _)
  | @item n item more x xs first holds _ ih =>
    rw [List.flatMap_cons, ← List.cons_append, Node.starts_append]
    exact (within first (fun m member => built m (by
      rcases List.mem_cons.1 member with rfl | inside <;> simp [*])) holds).append
        (ih fun m member => built m (by simp [member]))

namespace Sketch

theorem Covers.sublist_starts {P : Lexeme → Prop} {n : Node} {rest : List Node} {s : Sketch}
    (covers : Covers (n :: rest) s) (built : ∀ m ∈ n :: rest, m.Built P)
    {read : Context → List Node → List Member}
    (inner : ∀ context body, Node.Level P body →
      ((listedIn (read context body)).map Rule.start).Sublist (Node.starts body)) :
    ((s.expand read).listed.map Rule.start).Sublist (Node.starts (n :: rest)) := by
  obtain ⟨more, first⟩ := Node.exists_starts_cons n rest
  have start := covers.start n rfl
  have alone : [s.start].Sublist (Node.starts (n :: rest)) := by
    rw [start, first]
    exact (List.nil_sublist more).cons_cons _
  have around : ∀ context body, s.block? = some body →
      (s.start :: (listedIn (read context body)).map Rule.start).Sublist
        (Node.starts (n :: rest)) := by
    intro context body found
    obtain ⟨front, opening, closing, last⟩ := covers.block body found
    have level : Node.Level P body := (built (.block opening body closing) (by simp [last])).level
    rw [start]
    exact ((inner context body level).cons_cons _).trans (Node.sublist_of_block last)
  cases s with
  | style start head block => exact around .style block rfl
  | members start name clause context block => exact around context block rfl
  | statement start name clause => exact alone
  | verbatim start name clause block => exact alone
  | unrecognized start fault source => exact alone

end Sketch

theorem sublist_starts_ofBody (context : Context) (room : Bool) {ns : List Node}
    (level : Node.Level Lexeme.Spans ns) {read : Context → List Node → List Member}
    (inner : ∀ context body, Node.Level Lexeme.Spans body →
      ((listedIn (read context body)).map Rule.start).Sublist (Node.starts body)) :
    ((listedIn ((Sketch.ofBody context room ns).map (Outlook.expand read))).map Rule.start).Sublist
      (Node.starts ns) := by
  have cut := Sketch.cut_ofBody context room level
  rw [listedIn_eq_flatMap, List.flatMap_map, List.map_flatMap]
  refine Cut.sublist_starts (fun {n item more o} first built taken => ?_) level.built cut
  cases o with
  | declaration d => exact List.nil_sublist _
  | rule s => exact (taken.covers first).sublist_starts built inner

-- By induction on the levels that are left: the rules of a block are placed within its nodes.
theorem sublist_starts_readBody (room : Nat) (context : Context) {ns : List Node}
    (level : Node.Level Lexeme.Spans ns) :
    ((listedIn (readBody room context ns)).map Rule.start).Sublist (Node.starts ns) := by
  induction room generalizing context ns with
  | zero => exact sublist_starts_ofBody context false level fun _ _ _ => List.nil_sublist _
  | succ room ih => exact sublist_starts_ofBody context true level fun context _ => ih context

theorem sublist_starts_readRules {ns : List Node} (level : Node.Level Lexeme.Spans ns) :
    ((listedRules (readRules ns)).map Rule.start).Sublist (Node.starts ns) := by
  have cut := Sketch.cut_ofSheet level
  rw [listedRules, readRules, List.flatMap_map, List.map_flatMap]
  refine Cut.sublist_starts (fun {n item more s} first built taken => ?_) level.built cut
  exact (Sketch.covers_of_ofSheet taken.1 taken.2 first).sublist_starts built
    fun context _ => sublist_starts_readBody _ context

theorem pairwise_start_listedRules (css : String) :
    ((listedRules (readRules (Node.ofText css.toList))).map Rule.start).Pairwise (· < ·) := by
  have places := (Lexer.pairwise_start_lexemesFrom .origin css.toList).2
  have sublist := sublist_starts_readRules (Node.level_spans css.toList)
  rw [Node.starts, Node.lexemesOf_ofText] at sublist
  exact places.sublist sublist

theorem Cut.exists_item {α : Type} {skips : Node → Bool} {Holds : List Node → List Node → α → Prop}
    {ns : List Node} {xs : List α} (cut : Cut skips Holds ns xs) {x : α} (member : x ∈ xs) :
    ∃ front n item more, ns = front ++ n :: (item ++ more) ∧ skips n = false ∧
      Holds (n :: item) more x := by
  induction cut with
  | nil => cases member
  | @skip n ns xs _ _ ih =>
    obtain ⟨front, m, item, more, rfl, found⟩ := ih member
    exact ⟨n :: front, m, item, more, rfl, found⟩
  | @item n item more y xs first holds _ ih =>
    rcases List.mem_cons.1 member with rfl | later
    · exact ⟨[], n, item, more, rfl, first, holds⟩
    · obtain ⟨front, m, item', more', rfl, found⟩ := ih later
      exact ⟨n :: (item ++ front), m, item', more', by simp, found⟩

theorem Node.Inside.exists_lexemes {cs : List Char} {ns : List Node}
    (inside : Inside (ofText cs) ns) :
    ∃ front more, Lexer.lexemes cs = front ++ (lexemesOf ns ++ more) := by
  induction inside with
  | self => exact ⟨[], [], by simp [lexemesOf_ofText]⟩
  | @block ms body l closing _ member ih =>
    obtain ⟨front, more, whole⟩ := ih
    obtain ⟨before, behind, rfl⟩ := List.append_of_mem member
    refine ⟨front ++ (lexemesOf before ++ [l]), closing.toList ++ lexemesOf behind ++ more, ?_⟩
    rw [whole, lexemesOf_append]
    simp [lexemesOf, lexemes]

theorem Node.Inside.exists_before {cs : List Char} {front item more : List Node} {n : Node}
    (inside : Inside (ofText cs) (front ++ n :: (item ++ more))) :
    ∃ before after, cs = before ++ (textOf (n :: item) ++ after) ∧
      n.start = Location.origin.advance before := by
  obtain ⟨first, last, whole⟩ := inside.exists_lexemes
  obtain ⟨l, ls, lexed, start⟩ : ∃ l ls, n.lexemes = l :: ls ∧ n.start = l.start := by
    cases n with
    | leaf l => exact ⟨l, [], rfl, rfl⟩
    | block l body closing => exact ⟨l, _, rfl, rfl⟩
  have split : Lexer.lexemes cs =
      (first ++ lexemesOf front) ++ (lexemesOf (n :: item) ++ (lexemesOf more ++ last)) := by
    rw [whole, lexemesOf_append, lexemesOf, lexemesOf_append, lexemesOf]
    simp
  refine ⟨(first ++ lexemesOf front).flatMap Lexeme.text,
    (lexemesOf more ++ last).flatMap Lexeme.text, ?_, ?_⟩
  · rw [← flatMap_text_lexemesOf, ← List.flatMap_append, ← List.flatMap_append, ← split]
    exact (Lexer.flatMap_text_lexemesFrom _ cs).symm
  · have here : Lexer.lexemesFrom .origin cs =
        (first ++ lexemesOf front) ++ l :: (ls ++ lexemesOf item ++ (lexemesOf more ++ last)) := by
      rw [← Lexer.lexemes, split, lexemesOf, lexed]
      simp
    rw [start]
    exact Lexer.start_of_lexemesFrom _ here

/-- A rule is read from the nodes `n :: item` of a sheet, also where they stand by themselves, and
starts at the place after the text `before` in front of them. If it is not recognized, it keeps
their text without white space at its ends. -/
structure Rule.ReadAt (css before : List Char) (n : Node) (item : List Node) (r : Rule) :
    Prop where
  inside : ∃ front more, Inside (Node.ofText css) (front ++ n :: (item ++ more))
  alone : readRules (n :: item) = [r] ∨
    ∃ room context, readBody room context (n :: item) = [.rule r]
  solid : n.isTrivia = false
  whole : ∃ after, css = before ++ (Node.textOf (n :: item) ++ after)
  start : r.start = Location.origin.advance before
  source : ∀ start reason source, r = .unrecognized start reason source →
    ∃ slice, Sketch.Keeps (n :: item) slice ∧ source = String.ofList (Text.trim slice)

theorem Sketch.Covers.exists_readAt {css : List Char} {front item more : List Node} {n : Node}
    {s : Sketch} (covers : Covers (n :: item) s) (read : Context → List Node → List Member)
    (inside : Inside (Node.ofText css) (front ++ n :: (item ++ more)))
    (solid : n.isTrivia = false)
    (alone : readRules (n :: item) = [s.expand read] ∨
      ∃ room context, readBody room context (n :: item) = [.rule (s.expand read)]) :
    ∃ before, (s.expand read).ReadAt css before n item := by
  obtain ⟨before, after, whole, start⟩ := inside.exists_before
  refine ⟨before, ⟨front, more, inside⟩, alone, solid, ⟨after, whole⟩, ?_, ?_⟩
  · rw [start_expand, covers.start n rfl, start]
  · intro start reason source same
    cases s with
    | unrecognized start fault text =>
      cases same
      exact ⟨text, covers.source _ _ _ rfl, rfl⟩
    | style start head block => cases same
    | statement start name clause => cases same
    | members start name clause context block => cases same
    | verbatim start name clause block => cases same

theorem LiesIn.exists_readAt {css : List Char} {k : Nat} {r : Rule}
    (lies : LiesIn (readRules (Node.ofText css)) k r) :
    ∃ before n item, r.ReadAt css before n item := by
  have level := Node.level_spans css
  cases lies with
  | outside member =>
    obtain ⟨s, found, rfl⟩ := List.mem_map.1 member
    obtain ⟨front, n, item, more, whole, first, ends, alone⟩ :=
      (Sketch.cut_ofSheet level).exists_item found
    have solid : n.isTrivia = false := by
      simp only [isAround, Bool.or_eq_false_iff] at first
      exact first.1.1
    have inside : Inside (Node.ofText css) (front ++ n :: (item ++ more)) := by
      rw [← whole]
      exact .self
    obtain ⟨before, readAt⟩ := (Sketch.covers_of_ofSheet ends alone first).exists_readAt
      (readBody (maxNesting - 1)) inside solid (.inl (by rw [readRules, alone]; rfl))
    exact ⟨before, n, item, readAt⟩
  | inside around holds member =>
    obtain ⟨fits, context, ns, s, inside, found, rfl⟩ := around.exists_sketch holds member
    obtain ⟨front, n, item, more, rfl, first, taken⟩ :=
      (Sketch.cut_ofBody context _ (inside.level level)).exists_item found
    have solid : n.isTrivia = false := by
      simp only [isBetween, Bool.or_eq_false_iff] at first
      exact first.1
    obtain ⟨before, readAt⟩ := (taken.covers first).exists_readAt _ inside solid
      (.inr ⟨_, context, by rw [readBody_eq_map_readerAt fits, taken.alone]; rfl⟩)
    exact ⟨before, n, item, readAt⟩

theorem readSheet_eq_error_iff {css : String} {e : ParseError} : readSheet css = .error e ↔
    ∃ source rules, readRules (Node.ofText css.toList) =
      .unrecognized e.start e.message source :: rules ∧ rules.all Rule.isUnrecognized := by
  unfold readSheet
  constructor
  · intro failed
    split at failed
    · rename_i start reason source rules same
      split at failed
      · rename_i all
        cases failed
        exact ⟨source, rules, same, all⟩
      · cases failed
    · cases failed
  · rintro ⟨source, rules, same, all⟩
    rw [same]
    simp [all]

/-- The places of rules. The rules of a sheet, each before those in its body, start one behind the
other. Each is read from nodes of the sheet and starts where the first token of them does; a rule
that is not recognized keeps the text from there on. Where no sheet can be read, the place and the
message are those of the first rule. -/
theorem rules_in_order (css : String) :
    ((listedRules (readRules (Node.ofText css.toList))).map Rule.start).Pairwise (· < ·) ∧
    (∀ r ∈ listedRules (readRules (Node.ofText css.toList)),
      ∃ before n item, r.ReadAt css.toList before n item) ∧
    (∀ rules, readSheet css = .ok rules → rules = readRules (Node.ofText css.toList)) ∧
    ∀ e, readSheet css = .error e ↔ ∃ source rules, readRules (Node.ofText css.toList) =
      .unrecognized e.start e.message source :: rules ∧ rules.all Rule.isUnrecognized := by
  refine ⟨pairwise_start_listedRules css, fun r member => ?_, fun rules read => readSheet_eq_ok read,
    fun e => readSheet_eq_error_iff⟩
  obtain ⟨r', outer, inner⟩ := List.mem_flatMap.1 member
  obtain ⟨k, lies⟩ := LiesIn.exists_of_mem_listed (.outside outer) inner
  exact lies.exists_readAt

/-- Two rules and two texts that are not read, on three lines; the second rule stands behind a
character of two units. -/
def placedSheet : String := "a\r\n\x7b/*😀*/b\x7b\x7d\r\n1;\x7d2"

def unreadSheet : String := "\n 1 2"

theorem rules_in_order_placedSheet :
    (listedRules (readRules (Node.ofText placedSheet.toList))).map Rule.start =
      [⟨1, 1⟩, ⟨2, 8⟩, ⟨3, 1⟩, ⟨3, 4⟩] ∧
    ([⟨1, 1⟩, ⟨2, 8⟩, ⟨3, 1⟩, ⟨3, 4⟩] : List Location).Pairwise (· < ·) ∧
    (∃ r ∈ listedRules (readRules (Node.ofText placedSheet.toList)),
      (r.isUnrecognized ∧ r.start = ⟨3, 1⟩) ∧
        ∃ before n item, r.ReadAt placedSheet.toList before n item) ∧
    ∃ e, readSheet unreadSheet = .error e ∧ e.start = ⟨2, 2⟩ := by
  have places : (listedRules (readRules (Node.ofText placedSheet.toList))).map Rule.start =
      [⟨1, 1⟩, ⟨2, 8⟩, ⟨3, 1⟩, ⟨3, 4⟩] := by
    decide +kernel
  have unread : (listedRules (readRules (Node.ofText placedSheet.toList))).any
      fun r => r.isUnrecognized && r.start == ⟨3, 1⟩ := by
    decide +kernel
  have failed : (readSheet unreadSheet).toOption.isNone ∧
      (readRules (Node.ofText unreadSheet.toList)).head?.map Rule.start = some ⟨2, 2⟩ := by
    decide +kernel
  simp only [List.any_eq_true, Bool.and_eq_true, beq_iff_eq] at unread
  obtain ⟨r, member, found⟩ := unread
  obtain ⟨order, placed, _⟩ := rules_in_order placedSheet
  rw [places] at order
  refine ⟨places, order, ⟨r, member, found, placed r member⟩, ?_⟩
  cases read : readSheet unreadSheet with
  | ok rules => simp [read, Except.toOption] at failed
  | error e =>
    obtain ⟨source, rules, first, _⟩ := ((rules_in_order unreadSheet).2.2.2 e).1 read
    rw [first] at failed
    exact ⟨e, rfl, by simpa [Rule.start] using failed.2⟩

end CssOutline
