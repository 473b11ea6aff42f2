import CssOutline.Proofs.Bodies
import CssOutline.Proofs.PrintedNames
import Mathlib.Data.List.Chain

/-! The shape of selectors that are read from a text. Combinators stand between simple selectors,
except for one at the front; every name has a character and none of them is NUL. This holds at
every depth of the arguments of pseudo-classes and pseudo-elements. -/

namespace CssOutline

/-- The names and strings that the lexer makes hold no NUL, and names are not empty. -/
def Token.IsSound : Token → Prop
  | ident name => IsName name
  | function name => IsName name
  | idHash name => IsName name
  | string s => '\x00' ∉ s.toList
  | _ => True

namespace Lexer

theorem known_ne (c : Char) : known c ≠ '\x00' := by
  unfold known
  split
  · decide
  · assumption

theorem charOfCode_ne (n : Nat) : charOfCode n ≠ '\x00' := by
  unfold charOfCode
  split
  · rename_i valid
    intro zero
    have code : (Char.ofNat n).toNat = n := by
      unfold Char.ofNat
      rw [dif_pos valid.2]
      rfl
    rw [zero] at code
    exact valid.1 code.symm
  · decide

theorem escape_ne (cs : List Char) : (escape cs).1 ≠ '\x00' := by
  unfold escape
  split
  · decide
  · split
    · exact known_ne _
    · exact charOfCode_ne _

theorem name_nonzero (cs : List Char) : '\x00' ∉ (name cs).1 := by
  fun_induction name cs with
  | case1 => simp
  | case2 => simp
  | case3 rest _ _ n after same ih =>
    rw [same] at ih
    simpa [(escape_ne rest).symm] using ih
  | case4 c rest _ _ n after same ih =>
    rw [same] at ih
    simpa [(known_ne c).symm] using ih
  | case5 => simp

theorem string_nonzero (quote : Char) (cs : List Char) : '\x00' ∉ (string quote cs).1 := by
  fun_induction string quote cs with
  | case1 => simp
  | case2 => simp
  | case3 => simp
  | case4 => simp
  | case5 rest _ _ _ _ _ ih => exact ih
  | case6 rest _ _ _ s whole after same _ _ ih =>
    rw [same] at ih
    simpa [(escape_ne rest).symm] using ih
  | case7 c rest _ _ _ s whole after same ih =>
    rw [same] at ih
    simpa [(known_ne c).symm] using ih

theorem isName_name {cs : List Char} (starts : startsName cs) :
    IsName (String.ofList (name cs).1) := by
  obtain _ | ⟨c, rest⟩ := cs
  · cases starts
  · exact ⟨by simpa using name_ne_nil starts, by simpa using name_nonzero (c :: rest)⟩

theorem identLike_isSound {cs : List Char} (starts : startsName cs) : (identLike cs).1.IsSound := by
  have named := isName_name starts
  unfold identLike
  simp only
  split
  · rename_i after _
    split
    · cases found : urlToken? after with
      | none => exact named
      | some found' =>
        obtain ⟨t, rest⟩ := found'
        unfold urlToken? at found
        split at found
        · cases found
        · cases found
        · split at found <;> cases found <;> trivial
    · exact named
  · exact named

theorem stringToken_isSound (quote : Char) (cs : List Char) : (stringToken quote cs).1.IsSound := by
  have known := string_nonzero quote cs
  unfold stringToken
  simp only
  split
  · simpa [Token.IsSound] using known
  · trivial

theorem hashToken_isSound (cs : List Char) : (hashToken cs).1.IsSound := by
  unfold hashToken
  split
  · rename_i starts
    exact isName_name starts
  · split
    · split <;> trivial
    · trivial

theorem matchToken_isSound (c : Char) {t : Token} (sound : t.IsSound) (cs : List Char) :
    (matchToken c t cs).1.IsSound := by
  unfold matchToken
  split
  · exact sound
  · trivial

theorem scan_isSound (c : Char) (rest : List Char) : (scan c rest).1.IsSound := by
  unfold scan
  split
  · trivial
  · split
    · unfold numericToken
      simp only
      split
      · trivial
      · split <;> trivial
    · split
      case h_4 => exact stringToken_isSound _ _
      case h_5 => exact stringToken_isSound _ _
      case h_6 => exact hashToken_isSound _
      case h_7 => split <;> trivial
      case h_8 => exact matchToken_isSound _ (by trivial) _
      case h_9 => exact matchToken_isSound _ (by trivial) _
      case h_10 => exact matchToken_isSound _ (by trivial) _
      case h_11 => exact matchToken_isSound _ (by trivial) _
      case h_12 => exact matchToken_isSound _ (by trivial) _
      case h_22 =>
        split
        · rename_i starts
          exact identLike_isSound starts
        · trivial
      all_goals trivial

theorem lexemesFrom_isSound (start : Location) (cs : List Char) :
    ∀ l ∈ lexemesFrom start cs, l.token.IsSound :=
  forall_mem_lexemesFrom (fun _ c rest => scan_isSound c rest) start cs

end Lexer

def Lexeme.IsSound (l : Lexeme) : Prop :=
  l.token.IsSound

theorem Node.level_isSound (cs : List Char) : Level Lexeme.IsSound (ofText cs) :=
  level_ofText (Lexer.lexemesFrom_isSound _ cs)

def AttributeValue.Proper : AttributeValue → Prop
  | quoted q => (q.quote = '"' ∨ q.quote = '\'') ∧ '\x00' ∉ q.content.toList
  | ident name => IsName name

structure AttributeTest.Proper (t : AttributeTest) : Prop where
  value : t.value.Proper
  flag : ∀ flag ∈ t.flag, flag ∈ ["i", "I", "s", "S"]

structure Attribute.Proper (a : Attribute) : Prop where
  name : IsName a.name
  test : ∀ t ∈ a.test, t.Proper

/-- Only functions that take selectors have them, and then at least one. -/
def Argument.Proper (name : String) : Argument → Prop
  | selectors list => takesSelectors name ∧ list ≠ []
  | _ => True

def Component.Proper : Component → Prop
  | element name => IsName name
  | className name => IsName name
  | identity name => IsName name
  | hasAttribute a => a.Proper
  | pseudo _ name argument => IsName name ∧ argument.Proper name
  | _ => True

namespace ComplexSelector

/-- Combinators stand alone, and between simple selectors or, unless they are blanks, before
them. -/
structure Shaped (s : ComplexSelector) : Prop where
  nonempty : s ≠ []
  first : s.head? ≠ some (.combinator .descendant)
  last : ∀ c ∈ s.getLast?, isCombinator c = false
  apart : s.IsChain fun c d => isCombinator c → isCombinator d = false

structure Proper (s : ComplexSelector) : Prop where
  shaped : Shaped s
  components : ∀ c ∈ s, c.Proper

end ComplexSelector

mutual

def Component.Within (P : ComplexSelector → Prop) : Component → Prop
  | .pseudo _ _ argument => argument.Within P
  | _ => True

def Argument.Within (P : ComplexSelector → Prop) : Argument → Prop
  | .selectors list => Everywhere P list
  | _ => True

/-- The selectors of a list satisfy `P`, and so do those in its arguments at any depth. -/
def Everywhere (P : ComplexSelector → Prop) : List (List Component) → Prop
  | [] => True
  | s :: ss => (P s ∧ AllWithin P s) ∧ Everywhere P ss

def AllWithin (P : ComplexSelector → Prop) : List Component → Prop
  | [] => True
  | c :: cs => c.Within P ∧ AllWithin P cs

end

section Within

variable {P : ComplexSelector → Prop}

theorem allWithin_iff {cs : List Component} : AllWithin P cs ↔ ∀ c ∈ cs, c.Within P := by
  induction cs with
  | nil => simp [AllWithin]
  | cons c cs ih => simp [AllWithin, ih]

variable {Q R : ComplexSelector → Prop}

mutual

theorem Component.within_and (both : ∀ s, P s → Q s → R s) :
    (c : Component) → c.Within P → c.Within Q → c.Within R
  | .pseudo _ _ argument, first, second => argument.within_and both first second
  | .element _, _, _ => trivial
  | .universal, _, _ => trivial
  | .className _, _, _ => trivial
  | .identity _, _, _ => trivial
  | .hasAttribute _, _, _ => trivial
  | .combinator _, _, _ => trivial
  | .nesting, _, _ => trivial

theorem Argument.within_and (both : ∀ s, P s → Q s → R s) :
    (a : Argument) → a.Within P → a.Within Q → a.Within R
  | .selectors list, first, second => everywhere_and both list first second
  | .none, _, _ => trivial
  | .raw _, _, _ => trivial

theorem everywhere_and (both : ∀ s, P s → Q s → R s) :
    (ss : List (List Component)) → Everywhere P ss → Everywhere Q ss → Everywhere R ss
  | [], _, _ => trivial
  | s :: ss, ⟨⟨first, inside⟩, later⟩, ⟨⟨second, inside'⟩, later'⟩ =>
    ⟨⟨both s first second, allWithin_and both s inside inside'⟩,
      everywhere_and both ss later later'⟩

theorem allWithin_and (both : ∀ s, P s → Q s → R s) :
    (cs : List Component) → AllWithin P cs → AllWithin Q cs → AllWithin R cs
  | [], _, _ => trivial
  | c :: cs, ⟨first, later⟩, ⟨second, later'⟩ =>
    ⟨c.within_and both first second, allWithin_and both cs later later'⟩

end

end Within

theorem eq_or_eq_of_toLower {c lower upper : Char}
    (pair : upper.val + ('a'.val - 'A'.val) = lower.val) (same : c.toLower = lower) :
    c = lower ∨ c = upper := by
  unfold Char.toLower at same
  split at same
  · right
    apply Char.ext
    have moved : c.val + ('a'.val - 'A'.val) = lower.val := congrArg Char.val same
    exact (UInt32.add_left_inj _).1 (moved.trans pair.symm)
  · exact .inl same

theorem Text.sameName_iff {a b : String} :
    sameName a b ↔ a.toList.map Char.toLower = b.toList.map Char.toLower := by
  unfold sameName String.toLower
  rw [beq_iff_eq, ← String.toList_inj, String.toList_map, String.toList_map]

theorem eq_or_eq_of_sameName {s lower : String} (upper : String) {l u : Char}
    (single : lower.toList = [l]) (capital : upper.toList = [u]) (plain : l.toLower = l)
    (pair : u.val + ('a'.val - 'A'.val) = l.val) (same : Text.sameName s lower) :
    s = lower ∨ s = upper := by
  have chars : s.toList.map Char.toLower = [l] := by
    rw [Text.sameName_iff.1 same, single, List.map_singleton, plain]
  obtain ⟨c, one, low⟩ := List.map_eq_singleton_iff.1 chars
  rcases eq_or_eq_of_toLower pair low with rfl | rfl
  · exact .inl (String.toList_injective (one.trans single.symm))
  · exact .inr (String.toList_injective (one.trans capital.symm))

theorem Quoted.isQuote_quoteOf (source : List Char) :
    quoteOf source = '"' ∨ quoteOf source = '\'' := by
  unfold quoteOf
  cases quote : source.reverse.find? fun c => c == '"' || c == '\'' with
  | none => exact .inl rfl
  | some c => simpa using List.find?_some quote

namespace Attribute

theorem proper_of_flag? {ns : List Node} {flag : Option String} (read : flag? ns = .ok flag) :
    ∀ f ∈ flag, f ∈ ["i", "I", "s", "S"] := by
  unfold flag? at read
  split at read
  · cases read
    simp
  · split at read
    · rename_i f _
      split at read
      · cases read
      · rename_i known
        split at read
        · cases read
          have either : Text.sameName f "i" ∨ Text.sameName f "s" := by
            by_contra neither
            apply known
            simpa using neither
          intro f' member
          cases member
          rcases either with same | same
          · rcases eq_or_eq_of_sameName "I" rfl rfl rfl rfl same with rfl | rfl <;> simp
          · rcases eq_or_eq_of_sameName "S" rfl rfl rfl rfl same with rfl | rfl <;> simp
        · cases read
    · cases read

theorem proper_of_value? {n : Node} (sound : n.token.IsSound) {value : AttributeValue}
    (found : value? n = some value) : value.Proper := by
  unfold value? at found
  split at found
  · rename_i s same
    cases found
    rw [same] at sound
    exact ⟨Quoted.isQuote_quoteOf n.text, sound⟩
  · rename_i name same
    cases found
    rw [same] at sound
    exact sound
  · cases found

theorem proper_of_test? {ns : List Node} (sound : ∀ n ∈ ns, n.token.IsSound)
    {test : Option AttributeTest} (read : test? ns = .ok test) : ∀ t ∈ test, t.Proper := by
  unfold test? at read
  split at read
  · cases read
    simp
  · split at read
    · cases read
    · split at read
      · cases read
      · rename_i operator _ _ v rest
        split at read
        · cases read
        · rename_i value found
          obtain ⟨flag, readFlag, rfl⟩ := exists_of_map_ok read
          intro t member
          cases member
          exact ⟨proper_of_value? (sound v (by simp)) found, proper_of_flag? readFlag⟩

theorem proper_of_read {body : List Node} (sound : ∀ n ∈ body, n.token.IsSound) {a : Attribute}
    (found : read body = .ok a) : a.Proper := by
  have kept : ∀ n ∈ Node.significant body, n.token.IsSound :=
    fun n member => sound n (List.mem_filter.1 member).1
  unfold read at found
  split at found
  · cases found
  · rename_i n rest same
    rw [same] at kept
    split at found
    · rename_i name token
      obtain ⟨test, readTest, rfl⟩ := exists_of_map_ok found
      have named := kept n (by simp)
      rw [token] at named
      exact ⟨named, proper_of_test? (fun m member => kept m (by simp [member])) readTest⟩
    · cases found

end Attribute

/-- What a symbol makes is proper, and so are the selectors in it. -/
def Symbol.Proper : Symbol → Prop
  | ident name => IsName name
  | identity name => IsName name
  | bracket (.ok a) => a.Proper
  | function name argument =>
    IsName name ∧ argument.Proper name ∧ argument.Within ComplexSelector.Proper
  | combinator c => c ≠ .descendant
  | _ => True

namespace ComplexSelector

def Sound (c : Component) : Prop :=
  c.Proper ∧ c.Within Proper

theorem sound_push {done : List Component} {new : Component} (gap : Bool)
    (sound : ∀ c ∈ done, Sound c) (newSound : Sound new) : ∀ c ∈ push done gap new, Sound c := by
  have blank : Sound (.combinator .descendant) := ⟨trivial, trivial⟩
  unfold push
  split <;> simpa [newSound, blank] using sound

theorem sound_readFrom (done : List Component) (gap : Bool) (ss : List Symbol)
    (sound : ∀ c ∈ done, Sound c) (symbols : ∀ s ∈ ss, s.Proper) {selector : ComplexSelector}
    (read : readFrom done gap ss = .ok selector) : ∀ c ∈ selector, Sound c := by
  have tail : ∀ {s : Symbol} {ss : List Symbol}, (∀ t ∈ s :: ss, t.Proper) →
      ∀ t ∈ ss, t.Proper := List.forall_mem_of_forall_mem_cons
  fun_induction readFrom done gap ss
  case case3 =>
    cases read
    exact fun c member => sound c (List.mem_reverse.1 member)
  case case4 ih => exact ih sound (tail symbols) read
  case case6 c ss _ ih =>
    have mark : Sound (.combinator c) := ⟨trivial, trivial⟩
    exact ih (by simpa [mark] using sound) (tail symbols) read
  case case7 name ss ih =>
    exact ih (sound_push _ sound ⟨symbols (.ident name) (by simp), trivial⟩) (tail symbols) read
  case case8 ih => exact ih (sound_push _ sound ⟨trivial, trivial⟩) (tail symbols) read
  case case9 ih => exact ih (sound_push _ sound ⟨trivial, trivial⟩) (tail symbols) read
  case case10 name ss ih =>
    exact ih (sound_push _ sound ⟨symbols (.identity name) (by simp), trivial⟩) (tail symbols) read
  case case11 a ss ih =>
    exact ih (sound_push _ sound ⟨symbols (.bracket (.ok a)) (by simp), trivial⟩)
      (tail symbols) read
  case case13 name ss ih =>
    exact ih (sound_push _ sound ⟨symbols (.ident name) (by simp), trivial⟩)
      (tail (tail symbols)) read
  case case16 name ss ih =>
    exact ih (sound_push _ sound ⟨⟨symbols (.ident name) (by simp), trivial⟩, trivial⟩)
      (tail (tail (tail symbols))) read
  case case17 name argument ss ih =>
    obtain ⟨named, proper, within⟩ := symbols (.function name argument) (by simp)
    exact ih (sound_push _ sound ⟨⟨named, proper⟩, within⟩) (tail (tail (tail symbols))) read
  case case20 name ss ih =>
    exact ih (sound_push _ sound ⟨⟨symbols (.ident name) (by simp), trivial⟩, trivial⟩)
      (tail (tail symbols)) read
  case case21 name argument ss ih =>
    obtain ⟨named, proper, within⟩ := symbols (.function name argument) (by simp)
    exact ih (sound_push _ sound ⟨⟨named, proper⟩, within⟩) (tail (tail symbols)) read
  all_goals cases read

/-- The components so far, last first, and whether blanks came after them. -/
structure Unfinished (done : List Component) (gap : Bool) : Prop where
  first : done.getLast? ≠ some (.combinator .descendant)
  apart : done.IsChain fun c d => isCombinator c → isCombinator d = false
  gap : gap → done ≠ []

namespace Unfinished

variable {done : List Component} {gap : Bool} (unfinished : Unfinished done gap)

include unfinished

theorem space : Unfinished done (!done.isEmpty) :=
  ⟨unfinished.first, unfinished.apart, by simp⟩

theorem cons_simple {c : Component} (simple : isCombinator c = false) :
    Unfinished (c :: done) false := by
  refine ⟨?_, ?_, by simp⟩
  · cases done with
    | nil =>
      rintro ⟨⟩
      cases simple
    | cons d done => simpa using unfinished.first
  · cases done with
    | nil => exact .singleton c
    | cons d done => exact .cons_cons (by simp [simple]) unfinished.apart

theorem cons_combinator {c : Combinator} (some : c ≠ .descendant ∨ done ≠ [])
    (alone : afterCombinator done = false) : Unfinished (.combinator c :: done) false := by
  refine ⟨?_, ?_, by simp⟩
  · cases done with
    | nil => simpa using some
    | cons d done => simpa using unfinished.first
  · cases done with
    | nil => exact .singleton _
    | cons d done => exact .cons_cons (fun _ => alone) unfinished.apart

theorem push {c : Component} (simple : isCombinator c = false) :
    Unfinished (push done gap c) false := by
  unfold ComplexSelector.push
  split
  · rename_i blank
    obtain ⟨isGap, alone⟩ : gap = true ∧ afterCombinator done = false := by simpa using blank
    exact (unfinished.cons_combinator (.inr (unfinished.gap isGap)) alone).cons_simple simple
  · exact unfinished.cons_simple simple

theorem shaped_reverse {c : Component} {rest : List Component} (same : done = c :: rest)
    (simple : isCombinator c = false) : Shaped done.reverse := by
  refine ⟨by simp [same], ?_, ?_, ?_⟩
  · rw [List.head?_reverse]
    exact unfinished.first
  · simpa [List.getLast?_reverse, same] using simple
  · rw [List.isChain_reverse]
    -- In the reverse order the first of two neighbours is the second one.
    refine unfinished.apart.imp fun a b alone combinator => ?_
    by_contra both
    simp [alone (by simpa using both)] at combinator

end Unfinished

theorem shaped_readFrom (done : List Component) (gap : Bool) (ss : List Symbol)
    (unfinished : Unfinished done gap) (symbols : ∀ s ∈ ss, s.Proper) {selector : ComplexSelector}
    (read : readFrom done gap ss = .ok selector) : Shaped selector := by
  have tail : ∀ {s : Symbol} {ss : List Symbol}, (∀ t ∈ s :: ss, t.Proper) →
      ∀ t ∈ ss, t.Proper := List.forall_mem_of_forall_mem_cons
  fun_induction readFrom done gap ss
  case case3 c rest simple =>
    cases read
    exact unfinished.shaped_reverse rfl (by simpa using simple)
  case case4 ih => exact ih unfinished.space (tail symbols) read
  case case6 c ss alone ih =>
    have mark : c ≠ .descendant := symbols (.combinator c) (by simp)
    exact ih (unfinished.cons_combinator (.inl mark) (by simpa using alone)) (tail symbols) read
  all_goals first
    | cases read
    | (rename_i ih; exact ih (unfinished.push rfl) (tail symbols) read)
    | (rename_i ih; exact ih (unfinished.push rfl) (tail (tail symbols)) read)
    | (rename_i ih; exact ih (unfinished.push rfl) (tail (tail (tail symbols))) read)

theorem proper_of_read {ss : List Symbol} (symbols : ∀ s ∈ ss, s.Proper)
    {selector : ComplexSelector} (found : read ss = .ok selector) :
    Proper selector ∧ ∀ c ∈ selector, c.Within Proper := by
  have start : Unfinished [] false := ⟨by simp, .nil, by simp⟩
  have sound := sound_readFrom [] false ss (by simp) symbols found
  exact ⟨⟨shaped_readFrom [] false ss start symbols found, fun c member => (sound c member).1⟩,
    fun c member => (sound c member).2⟩

end ComplexSelector

/-- A list of at least one selector, in their shape throughout. -/
structure SelectorList.Proper (list : SelectorList) : Prop where
  nonempty : list ≠ []
  everywhere : Everywhere ComplexSelector.Proper list

theorem SelectorList.proper_of_ofSymbols {ss : List Symbol} (symbols : ∀ s ∈ ss, s.Proper)
    {list : SelectorList} (read : ofSymbols ss = .ok list) : list.Proper := by
  have all : ∀ (parts : List (List Symbol)) {list : SelectorList},
      (∀ part ∈ parts, ∀ s ∈ part, s.Proper) → parts.mapM ComplexSelector.read = .ok list →
      list.length = parts.length ∧ Everywhere ComplexSelector.Proper list := by
    intro parts
    induction parts with
    | nil =>
      intro list _ read
      cases read
      exact ⟨rfl, trivial⟩
    | cons part parts ih =>
      intro list proper read
      obtain ⟨s, rest, first, later, rfl⟩ := exists_of_mapM_ok read
      obtain ⟨length, within⟩ := ih (fun p member => proper p (by simp [member])) later
      have here := ComplexSelector.proper_of_read (proper part (by simp)) first
      exact ⟨by simp [length], ⟨here.1, allWithin_iff.2 here.2⟩, within⟩
  obtain ⟨length, within⟩ := all _ (fun part found s member =>
    symbols s (mem_of_mem_segments found member)) read
  refine ⟨?_, within⟩
  rintro rfl
  exact segments_ne_nil Symbol.isComma ss (List.length_eq_zero_iff.1 length.symm)

namespace Node

theorem proper_symbols {ns : List Node}
    (proper : ∀ n ∈ ns, ∀ s, symbol? n = some s → s.Proper) : ∀ s ∈ symbols ns, s.Proper := by
  induction ns with
  | nil => simp [symbols]
  | cons n ns ih =>
    have later := ih fun m member => proper m (by simp [member])
    rw [symbols]
    cases found : symbol? n with
    | none => exact later
    | some s =>
      intro t member
      rcases List.mem_cons.1 member with rfl | inside
      · exact proper n (by simp) t found
      · exact later t inside

theorem Built.token_isSound {n : Node} (built : n.Built Lexeme.IsSound) : n.token.IsSound := by
  cases built with
  | leaf sound _ => exact sound
  | block sound _ _ _ _ => exact sound

theorem Built.proper_symbol? {n : Node} (built : n.Built Lexeme.IsSound) :
    ∀ s, symbol? n = some s → s.Proper := by
  induction built with
  | @leaf l sound _ =>
    intro s found
    have token : l.token.IsSound := sound
    rw [symbol?] at found
    unfold Symbol.ofToken? at found
    split at found
    case h_10 name same =>
      cases found
      rwa [same] at token
    case h_11 name same =>
      cases found
      rwa [same] at token
    case h_2 => cases found
    all_goals
      cases found
      first | trivial | exact fun same => nomatch same
  | @block l body closing sound _ inner _ _ ih =>
    intro s found
    have token : l.token.IsSound := sound
    rw [symbol?] at found
    split at found
    · rename_i name same
      cases found
      rw [same] at token
      refine ⟨token, ?_⟩
      unfold Argument.read
      split
      · rename_i takes
        split
        · rename_i list read
          obtain ⟨some, within⟩ := SelectorList.proper_of_ofSymbols (proper_symbols ih) read
          exact ⟨⟨takes, some⟩, within⟩
        · exact ⟨trivial, trivial⟩
      · exact ⟨trivial, trivial⟩
    · cases found
      cases read : Attribute.read body with
      | error fault => trivial
      | ok a => exact Attribute.proper_of_read (fun m member => (inner m member).token_isSound) read
    · cases found
      trivial

theorem proper_of_readSelectors {ns : List Node} (built : ∀ n ∈ ns, n.Built Lexeme.IsSound)
    {list : SelectorList} (read : readSelectors ns = .ok list) : list.Proper :=
  SelectorList.proper_of_ofSymbols
    (proper_symbols fun n member => (built n member).proper_symbol?) read

end Node

end CssOutline
