import CssOutline.Outline.Layout
import CssOutline.Proofs.Entries
import Mathlib.Data.List.Basic

/-! Keys are never empty. The lexer makes no empty identifier, so no selector, keyframe, at-rule
or property that is read from its lexemes has an empty text. -/

namespace CssOutline

def Token.IsNamed : Token → Prop
  | .ident name => name ≠ ""
  | _ => True

namespace Lexer

theorem name_ne_nil {c : Char} {rest : List Char} (h : startsName (c :: rest)) :
    (name (c :: rest)).1 ≠ [] := by
  unfold name
  by_cases slash : c = '\\'
  · subst slash
    have notNewline : startsNewline rest = false := by
      simpa [startsName] using h
    simp [notNewline]
  · have nameChar : isNameChar c = true := by
      unfold startsName at h
      split at h <;> simp_all [isNameChar]
    simp [slash, nameChar]

theorem numericToken_isNamed (cs : List Char) : (numericToken cs).1.IsNamed := by
  unfold numericToken
  simp only
  split
  · trivial
  · split <;> trivial

theorem urlToken?_isNamed {cs after : List Char} {t : Token}
    (h : urlToken? cs = some (t, after)) : t.IsNamed := by
  unfold urlToken? at h
  split at h
  · simp at h
  · simp at h
  · split at h
    · obtain ⟨rfl, _⟩ : _ = t ∧ _ := by simpa using h
      trivial
    · obtain ⟨rfl, _⟩ : _ = t ∧ _ := by simpa using h
      trivial

theorem identLike_isNamed {c : Char} {rest : List Char} (h : startsName (c :: rest)) :
    (identLike (c :: rest)).1.IsNamed := by
  unfold identLike
  simp only
  split
  · rename_i after _
    split
    · rcases found : urlToken? after with _ | ⟨t, left⟩
      · trivial
      · exact urlToken?_isNamed found
    · trivial
  · simpa [Token.IsNamed] using name_ne_nil h

theorem hashToken_isNamed (cs : List Char) : (hashToken cs).1.IsNamed := by
  unfold hashToken
  split
  · trivial
  · split
    · split <;> trivial
    · trivial

theorem matchToken_isNamed (c : Char) {t : Token} (named : t.IsNamed) (cs : List Char) :
    (matchToken c t cs).1.IsNamed := by
  unfold matchToken
  split
  · exact named
  · trivial

theorem stringToken_isNamed (quote : Char) (cs : List Char) :
    (stringToken quote cs).1.IsNamed := by
  unfold stringToken
  simp only
  split <;> trivial

theorem scan_isNamed (c : Char) (rest : List Char) : (scan c rest).1.IsNamed := by
  unfold scan
  split
  · trivial
  · split
    · exact numericToken_isNamed _
    · split
      case h_4 => exact stringToken_isNamed _ _
      case h_5 => exact stringToken_isNamed _ _
      case h_6 => exact hashToken_isNamed _
      case h_7 => split <;> trivial
      case h_8 => exact matchToken_isNamed _ (by trivial) _
      case h_9 => exact matchToken_isNamed _ (by trivial) _
      case h_10 => exact matchToken_isNamed _ (by trivial) _
      case h_11 => exact matchToken_isNamed _ (by trivial) _
      case h_12 => exact matchToken_isNamed _ (by trivial) _
      case h_22 =>
        split
        · rename_i named
          exact identLike_isNamed named
        · trivial
      all_goals trivial

/-- What holds of every lexeme that is scanned by itself holds of all that a text is made of. -/
theorem forall_mem_lexemesFrom {p : Lexeme → Prop}
    (single : ∀ start c rest, p ⟨(scan c rest).1, before (c :: rest) (scan c rest).2, start⟩)
    (start : Location) (cs : List Char) : ∀ l ∈ lexemesFrom start cs, p l := by
  fun_induction lexemesFrom start cs with
  | case1 => simp
  | case2 start c rest _ text ih => exact List.forall_mem_cons.2 ⟨single start c rest, ih⟩

theorem lexemesFrom_isNamed (start : Location) (cs : List Char) :
    ∀ l ∈ lexemesFrom start cs, l.token.IsNamed :=
  forall_mem_lexemesFrom (fun _ c rest => scan_isNamed c rest) start cs

end Lexer

namespace Node

/-- Every identifier among the nodes and inside their blocks has a name. -/
inductive IsNamed : Node → Prop
  | leaf {l : Lexeme} (token : l.token.IsNamed) : IsNamed (leaf l)
  | block {l : Lexeme} {body : List Node} {closing : Option Lexeme} (token : l.token.IsNamed)
    (inner : ∀ n ∈ body, IsNamed n) : IsNamed (block l body closing)

theorem IsNamed.token {n : Node} (named : n.IsNamed) : n.token.IsNamed := by
  cases named with
  | leaf token => exact token
  | block token _ => exact token

/-- The nodes around an open block. -/
def Frame.IsNamed (f : Frame) : Prop :=
  f.opening.token.IsNamed ∧ ∀ n ∈ f.outer, n.IsNamed

theorem finish_isNamed (stack : List Frame) (siblings : List Node)
    (frames : ∀ f ∈ stack, f.IsNamed) (named : ∀ n ∈ siblings, n.IsNamed) :
    ∀ n ∈ finish stack siblings, n.IsNamed := by
  induction stack generalizing siblings with
  | nil => simpa [finish] using named
  | cons f stack ih =>
    rw [finish]
    apply ih _ fun f' later => frames f' (by simp [later])
    intro n member
    rcases List.mem_cons.1 member with rfl | outer
    · exact .block (frames f (by simp)).1 (by simpa using named)
    · exact (frames f (by simp)).2 n outer

theorem build_isNamed (stack : List Frame) (siblings : List Node) (ls : List Lexeme)
    (frames : ∀ f ∈ stack, f.IsNamed) (named : ∀ n ∈ siblings, n.IsNamed)
    (tokens : ∀ l ∈ ls, l.token.IsNamed) : ∀ n ∈ build stack siblings ls, n.IsNamed := by
  have push : ∀ {n : Node} {ns : List Node}, n.IsNamed → (∀ m ∈ ns, m.IsNamed) →
      ∀ m ∈ n :: ns, m.IsNamed := by
    intro n ns first rest m member
    rcases List.mem_cons.1 member with rfl | later
    · exact first
    · exact rest m later
  fun_induction build stack siblings ls with
  | case1 stack siblings => exact finish_isNamed stack siblings frames named
  | case2 stack siblings l ls _ ih =>
    apply ih _ (by simp) fun l' later => tokens l' (by simp [later])
    intro f member
    rcases List.mem_cons.1 member with rfl | later
    · exact ⟨tokens l (by simp), named⟩
    · exact frames f later
  | case3 siblings l ls _ f outer _ ih =>
    obtain ⟨opening, around⟩ := frames f (by simp)
    apply ih (fun f' later => frames f' (by simp [later])) _
      fun l' later => tokens l' (by simp [later])
    exact push (.block opening (by simpa using named)) around
  | case4 siblings l ls _ f outer _ ih =>
    exact ih frames (push (.leaf (tokens l (by simp))) named)
      fun l' later => tokens l' (by simp [later])
  | case5 siblings l ls _ ih =>
    exact ih frames (push (.leaf (tokens l (by simp))) named)
      fun l' later => tokens l' (by simp [later])

theorem ofText_isNamed (cs : List Char) : ∀ n ∈ ofText cs, n.IsNamed :=
  build_isNamed [] [] _ (by simp) (by simp) (Lexer.lexemesFrom_isNamed _ cs)

end Node

theorem append_ne_empty_left {a : String} (nonempty : a ≠ "") (b : String) : a ++ b ≠ "" := by
  intro empty
  exact nonempty (String.append_eq_empty_iff.1 empty).1

theorem append_ne_empty_right (a : String) {b : String} (nonempty : b ≠ "") : a ++ b ≠ "" := by
  intro empty
  exact nonempty (String.append_eq_empty_iff.1 empty).2

/-- A list of texts joined by commas is empty only if its first text is. -/
theorem intercalate_ne_empty (separator : String) {text : String} (nonempty : text ≠ "")
    (texts : List String) : separator.intercalate (text :: texts) ≠ "" := by
  cases texts with
  | nil => simpa using nonempty
  | cons next texts =>
    rw [String.intercalate_cons_cons, String.append_assoc]
    exact append_ne_empty_left nonempty _

theorem Printer.identifier_ne_empty {name : String} (nonempty : name ≠ "") :
    Printer.identifier name ≠ "" := by
  have charNonempty : ∀ c, Printer.nameChar c ≠ [] := by
    intro c
    unfold Printer.nameChar
    split_ifs <;> simp [Printer.hexEscape]
  have startNonempty : ∀ cs, cs ≠ [] → Printer.startChars cs ≠ [] := by
    intro cs cons
    obtain ⟨c, rest, rfl⟩ := List.exists_cons_of_ne_nil cons
    rw [Printer.startChars]
    by_cases digit : c.isDigit
    · simp [digit, Printer.hexEscape]
    · simp [digit, Printer.nameChars, charNonempty]
  have chars : name.toList ≠ [] := by simpa using nonempty
  have printed : Printer.identifierChars name.toList ≠ [] := by
    unfold Printer.identifierChars
    split
    · simp
    · simp
    · simp
    · exact startNonempty _ chars
  intro empty
  apply printed
  simpa [Printer.identifier] using congrArg String.toList empty

def Symbol.IsNamed : Symbol → Prop
  | .ident name => name ≠ ""
  | _ => True

def Component.IsNamed : Component → Prop
  | .element name => name ≠ ""
  | _ => True

@[simp] theorem Component.combinator_isNamed (c : Combinator) : (combinator c).IsNamed := trivial

theorem Component.render_ne_empty {c : Component} (named : c.IsNamed) : c.render ≠ "" := by
  cases c with
  | element name =>
    rw [Component.render]
    exact Printer.identifier_ne_empty named
  | universal => simp [Component.render]
  | className name =>
    rw [Component.render]
    exact append_ne_empty_left (by simp) _
  | identity name =>
    rw [Component.render]
    exact append_ne_empty_left (by simp) _
  | hasAttribute condition =>
    rw [Component.render, Attribute.render]
    exact append_ne_empty_right _ (by simp)
  | pseudo kind name argument =>
    rw [Component.render, String.append_assoc]
    exact append_ne_empty_left (by cases kind <;> simp [PseudoKind.mark]) _
  | combinator combinator =>
    rw [Component.render]
    cases combinator <;> simp [Combinator.symbol]
  | nesting => simp [Component.render]

namespace Node

theorem symbol?_isNamed {n : Node} (named : n.IsNamed) {s : Symbol} (found : symbol? n = some s) :
    s.IsNamed := by
  cases named with
  | @leaf l token =>
    rw [symbol?] at found
    unfold Symbol.ofToken? at found
    split at found
    case h_10 name same =>
      cases found
      rwa [same] at token
    case h_2 => cases found
    all_goals
      cases found
      trivial
  | block token inner =>
    rw [symbol?] at found
    split at found
    all_goals
      cases found
      trivial

theorem symbols_isNamed (ns : List Node) (named : ∀ n ∈ ns, n.IsNamed) :
    ∀ s ∈ symbols ns, s.IsNamed := by
  induction ns with
  | nil => simp [symbols]
  | cons n ns ih =>
    have later := ih fun m member => named m (by simp [member])
    rw [symbols]
    split
    · rename_i s found
      intro t member
      rcases List.mem_cons.1 member with rfl | rest
      · exact symbol?_isNamed (named n (by simp)) found
      · exact later t rest
    · exact later

end Node

namespace ComplexSelector

theorem push_isNamed {done : List Component} {new : Component} (gap : Bool)
    (named : ∀ c ∈ done, c.IsNamed) (newNamed : new.IsNamed) :
    ∀ c ∈ push done gap new, c.IsNamed := by
  unfold push
  split <;> simpa [newNamed] using named

theorem readFrom_isNamed (done : List Component) (gap : Bool) (ss : List Symbol)
    (named : ∀ c ∈ done, c.IsNamed) (symbols : ∀ s ∈ ss, s.IsNamed) {selector : ComplexSelector}
    (read : readFrom done gap ss = .ok selector) :
    selector ≠ [] ∧ ∀ c ∈ selector, c.IsNamed := by
  have tail : ∀ {s : Symbol} {ss : List Symbol}, (∀ t ∈ s :: ss, t.IsNamed) →
      ∀ t ∈ ss, t.IsNamed := by
    intro s ss all t later
    exact all t (by simp [later])
  -- Only an element selector needs the name its symbol has; every other component has a text
  -- of its own.
  fun_induction readFrom done gap ss
  case case3 =>
    cases read
    refine ⟨by simp, fun c member => named c (List.mem_reverse.1 member)⟩
  case case4 ih => exact ih named (tail symbols) read
  case case6 c ss _ ih =>
    exact ih (by simpa using named) (tail symbols) read
  case case7 name ss ih =>
    exact ih (push_isNamed _ named (symbols (.ident name) (by simp))) (tail symbols) read
  case case13 ih => exact ih (push_isNamed _ named trivial) (tail (tail symbols)) read
  all_goals first
    | cases read
    | (rename_i ih; exact ih (push_isNamed _ named trivial) (tail symbols) read)
    | (rename_i ih; exact ih (push_isNamed _ named trivial) (tail (tail symbols)) read)
    | (rename_i ih; exact ih (push_isNamed _ named trivial) (tail (tail (tail symbols))) read)

end ComplexSelector

theorem renderComponents_ne_empty {selector : ComplexSelector} (cons : selector ≠ [])
    (named : ∀ c ∈ selector, c.IsNamed) : renderComponents selector ≠ "" := by
  obtain ⟨c, rest, rfl⟩ := List.exists_cons_of_ne_nil cons
  rw [renderComponents]
  exact append_ne_empty_left (Component.render_ne_empty (named c (by simp))) _

theorem mem_of_mem_segments {α : Type} {p : α → Bool} {xs s : List α}
    (found : s ∈ segments p xs) {x : α} (member : x ∈ s) : x ∈ xs := by
  induction xs generalizing s with
  | nil => simp_all [segments]
  | cons y xs ih =>
    unfold segments at found
    split at found
    · rcases List.mem_cons.1 found with rfl | later
      · simp at member
      · simp [ih later member]
    · split at found
      · simp_all
      · rename_i first later same
        rcases List.mem_cons.1 found with rfl | found
        · rcases List.mem_cons.1 member with rfl | member
          · simp
          · have := ih (s := first) (by simp [same]) member
            simp [this]
        · have := ih (s := s) (by simp [same, found]) member
          simp [this]

theorem segments_ne_nil {α : Type} (p : α → Bool) (xs : List α) : segments p xs ≠ [] := by
  have length := length_segments p xs
  intro none
  simp [none] at length

/-- A list that reads element by element starts with what its first element reads as. -/
theorem exists_of_mapM_ok {ε α β : Type} {f : α → Except ε β} {x : α} {xs : List α} {ys : List β}
    (read : (x :: xs).mapM f = .ok ys) :
    ∃ y rest, f x = .ok y ∧ xs.mapM f = .ok rest ∧ ys = y :: rest := by
  rw [List.mapM_cons] at read
  cases first : f x with
  | error e => simp [first, bind, Except.bind] at read
  | ok y =>
    cases later : xs.mapM f with
    | error e => simp [first, later, bind, Except.bind] at read
    | ok rest =>
      simp only [first, later, bind, Except.bind, pure, Except.pure, Except.ok.injEq] at read
      exact ⟨y, rest, rfl, rfl, read.symm⟩

theorem Node.render_ne_empty_of_readSelectors {ns : List Node} (named : ∀ n ∈ ns, n.IsNamed)
    {list : SelectorList} (read : readSelectors ns = .ok list) : list.render ≠ "" := by
  obtain ⟨segment, later, cut⟩ :=
    List.exists_cons_of_ne_nil (segments_ne_nil Symbol.isComma (symbols ns))
  unfold readSelectors SelectorList.ofSymbols at read
  rw [cut] at read
  obtain ⟨first, rest, readFirst, _, rfl⟩ := exists_of_mapM_ok read
  obtain ⟨cons, firstNamed⟩ :=
    ComplexSelector.readFrom_isNamed [] false segment (by simp) (fun s member =>
      symbols_isNamed ns named s (mem_of_mem_segments (by rw [cut]; simp) member)) readFirst
  rw [SelectorList.render, renderSelectors]
  exact intercalate_ne_empty _ (renderComponents_ne_empty cons firstNamed) _

theorem Node.render_ne_empty_of_readKeyframes {ns : List Node} {ks : List Keyframe}
    (read : readKeyframes ns = .ok ks) : Keyframe.renderAll ks ≠ "" := by
  have cons : ks ≠ [] := by
    unfold readKeyframes keyframesOf at read
    split at read
    · cases read
    · split at read
      · cases read
      · cases read
        simp
      · split at read
        · obtain ⟨rest, _, rfl⟩ := exists_of_map_ok read
          simp
        · cases read
  obtain ⟨k, rest, rfl⟩ := List.exists_cons_of_ne_nil cons
  rw [Keyframe.renderAll, List.map_cons]
  apply intercalate_ne_empty
  cases k with
  | start => simp [Keyframe.render]
  | finish => simp [Keyframe.render]
  | percentage value =>
    rw [Keyframe.render]
    exact append_ne_empty_right _ (by simp)

theorem Vendor.strip?_eq_some {v : Vendor} {name rest : String} (found : v.strip? name = some rest) :
    v.mark ++ rest = name := by
  unfold Vendor.strip? at found
  split at found
  · rename_i marked
    obtain ⟨after, same⟩ := List.isPrefixOf_iff_prefix.1 marked.1
    have dropped : name.toList.drop v.mark.length = after := by
      rw [← same, ← String.length_toList, List.drop_left]
    apply String.toList_inj.1
    simp [← Option.some.inj found, dropped, same]
  · cases found

theorem Vendor.mark_split (name : String) : (split name).1.mark ++ (split name).2 = name := by
  unfold Vendor.split
  cases found : [webkit, moz, ms, o].findSome? fun v => (v.strip? name).map (v, ·) with
  | none => simp [mark]
  | some pair =>
    obtain ⟨v, _, stripped⟩ := List.exists_of_findSome?_eq_some found
    obtain ⟨rest, same, rfl⟩ := Option.map_eq_some_iff.1 stripped
    exact strip?_eq_some same

theorem Property.text_parse (name : String) :
    (parse name).text = if (parse name).isCustom then name else name.toLower := by
  unfold parse
  split
  · simp [text, isCustom]
  · simp [text, isCustom, Vendor.mark_split]

theorem Property.text_parse_ne_empty {name : String} (nonempty : name ≠ "") :
    (parse name).text ≠ "" := by
  rw [text_parse]
  split
  · exact nonempty
  · change name.map Char.toLower ≠ ""
    simpa using nonempty

theorem isAtKey_atKey (name : String) (clause : Prelude) : Outline.isAtKey (atKey name clause) := by
  unfold atKey
  split
  · rename_i key rendered
    unfold atRuleKey at rendered
    cases text : clause.render with
    | error e => simp [text, bind, Except.bind] at rendered
    | ok t =>
      simp only [text, bind, Except.bind, Except.ok.injEq] at rendered
      rw [← rendered]
      split <;> simp [Outline.isAtKey]
  · simp [Outline.isAtKey]

theorem ne_empty_of_isAtKey {key : String} (marked : Outline.isAtKey key) : key ≠ "" := by
  rintro rfl
  simp [Outline.isAtKey] at marked

end CssOutline
