import CssOutline.Proofs.PlainNames
import CssOutline.Proofs.Walk.Completion

/-! Where the keys of an outline come from. Merging adds no key of its own, so every key below every
path was put there by a rule or a declaration. The key of an at-rule starts with an at sign and that
of a style rule does not; the property of a declaration starts with one only if it is a name that
would have to be escaped. -/

namespace CssOutline

/-- What stands at a path of keys within an item. -/
def Item.at? (path : List String) : Item → Option Item
  | .value text => if path = [] then some (.value text) else none
  | .block body => body.at? path

namespace Outline

variable {d e : Outline} {path : List String}

theorem at?_cons (k : String) (path : List String) (d : Outline) :
    d.at? (k :: path) = (d.get? k).bind (Item.at? path) := by
  rw [at?]
  rcases d.get? k with _ | text | body <;> rfl

/-- Joining an item with another puts nothing at a path where neither has something, if this holds
for blocks. -/
theorem at?_join {old : Option Item} {item : Item}
    (blocks : ∀ body new, old = some (.block body) → item = .block new →
      (body.merge new).at? path ≠ none → body.at? path ≠ none ∨ new.at? path ≠ none)
    (found : (Item.join old item).at? path ≠ none) :
    old.bind (Item.at? path) ≠ none ∨ item.at? path ≠ none := by
  unfold Item.join at found
  split at found
  · exact blocks _ _ rfl rfl found
  · exact .inr found

theorem at?_merge (distinct : e.Distinct) (found : (d.merge e).at? path ≠ none) :
    d.at? path ≠ none ∨ e.at? path ≠ none := by
  induction path generalizing d e with
  | nil => exact .inl (by simp [at?])
  | cons k path ih =>
    rw [at?_cons, get?_merge d e k distinct.nodup_keys] at found
    rw [at?_cons, at?_cons]
    cases incoming : e.get? k with
    | none => exact .inl (by simpa [incoming] using found)
    | some item =>
      rw [incoming] at found
      refine at?_join (fun body new _ same => ih ?_) found
      subst same
      cases distinct.get? incoming with
      | block inner => exact inner

theorem at?_mergeAll {es : List (String × Item)} (distinct : ∀ e ∈ es, e.2.Distinct)
    (found : (d.mergeAll es).at? path ≠ none) :
    d.at? path ≠ none ∨ ∃ e ∈ es, (cons e.1 e.2 nil).at? path ≠ none := by
  induction es generalizing d with
  | nil => exact .inl found
  | cons e es ih =>
    rw [mergeAll_cons] at found
    rcases ih (fun f later => distinct f (by simp [later])) found with before | ⟨f, later, holds⟩
    · rw [mergeItem_eq_mergeInto] at before
      have single : (cons e.1 e.2 nil).Distinct :=
        (distinct_cons e.1 e.2 nil).2 ⟨by simp [keys], distinct e (by simp), .nil⟩
      rcases at?_merge single before with old | new
      · exact .inl old
      · exact .inr ⟨e, by simp, new⟩
    · exact .inr ⟨f, by simp [later], holds⟩

theorem exists_of_at?_mergeAll {es : List (String × Item)} (distinct : ∀ e ∈ es, e.2.Distinct)
    {k : String} (found : (nil.mergeAll es).at? (k :: path) ≠ none) :
    ∃ item, (k, item) ∈ es ∧ item.at? path ≠ none := by
  rcases at?_mergeAll distinct found with none | ⟨⟨key, item⟩, member, holds⟩
  · exact absurd rfl none
  · rw [at?_cons, get?_cons] at holds
    split_ifs at holds with same
    · exact ⟨item, same ▸ member, holds⟩
    · exact absurd rfl holds

end Outline

theorem Member.distinct_entryOf? {m : Member} {e : String × Item} (adds : m.entryOf? = some e) :
    e.2.Distinct := by
  unfold Member.entryOf? at adds
  split at adds
  · cases adds
    exact .value
  · unfold Rule.entryOf? at adds
    split at adds
    · cases adds
      exact .block (distinct_addMembers .nil _)
    · cases adds
      exact AtBody.distinct_item _ _
    · cases adds

/-- A member of a tree that puts something at a path of keys: a rule stands under its own key, a
declaration under its property, and a body that is kept as text under the key of its rule again. -/
inductive Puts (rules : List Rule) : List String → Member → Prop
  | rule {path : List String} {r : Rule} (stands : StandsAt rules path r) :
    Puts rules path (.rule r)
  | declaration {path : List String} {outer : Rule} {body : List Member} {d : Declaration}
    (stands : StandsAt rules path outer) (holds : outer.members? = some body)
    (member : .declaration d ∈ body) : Puts rules (path ++ [d.entry.1]) (.declaration d)
  | verbatim {path : List String} {start : Location} {name : String} {clause : Prelude}
    {text : String} (stands : StandsAt rules path (.atRule start name clause (.verbatim text))) :
    Puts rules (path ++ [atKey name clause]) (.rule (.atRule start name clause (.verbatim text)))

theorem StandsAt.inside {rules : List Rule} {path : List String} {outer r : Rule}
    {body : List Member} {key : String} {item : Item} (stands : StandsAt rules path outer)
    (holds : outer.members? = some body) (member : .rule r ∈ body)
    (adds : r.entryOf? = some (key, item)) : StandsAt rules (path ++ [key]) r := by
  cases outer with
  | style start head members =>
    cases holds
    exact stands.style member adds
  | atRule start name clause kept =>
    cases kept with
    | members list =>
      cases holds
      exact stands.atRule member adds
    | _ => cases holds
  | unrecognized => cases holds

theorem Rule.entryOf?_cases {r : Rule} {key : String} {body : Outline}
    (adds : r.entryOf? = some (key, .block body)) :
    (∃ ms, r.members? = some ms ∧ body = Outline.nil.mergeAll (ms.filterMap Member.entryOf?)) ∨
    ∃ start name clause text, r = .atRule start name clause (.verbatim text) ∧
      key = atKey name clause ∧ body = verbatimBlock key text := by
  cases r with
  | style start head ms =>
    simp only [entryOf?, Option.some.injEq, Prod.mk.injEq, Item.block.injEq] at adds
    obtain ⟨-, rfl⟩ := adds
    exact .inl ⟨ms, rfl, addMembers_eq_mergeAll .nil ms⟩
  | atRule start name clause kept =>
    rw [entryOf?, Option.some.injEq, Prod.mk.injEq] at adds
    obtain ⟨rfl, item⟩ := adds
    cases kept with
    | none =>
      rw [AtBody.item] at item
      cases item
    | members ms =>
      rw [AtBody.item, Item.block.injEq] at item
      exact .inl ⟨ms, rfl, item ▸ addMembers_eq_mergeAll .nil ms⟩
    | verbatim text =>
      rw [AtBody.item, Item.block.injEq] at item
      exact .inr ⟨start, name, clause, text, rfl, rfl, item.symm⟩
  | unrecognized => cases adds

theorem StandsAt.exists_puts {rules : List Rule} {path below : List String} {r : Rule}
    {key : String} {item : Item} (stands : StandsAt rules path r) (adds : r.entryOf? = some (key, item))
    (found : item.at? below ≠ none) : ∃ m, Puts rules (path ++ below) m := by
  -- From the outside in, one key after the other.
  induction below generalizing path r key item with
  | nil => exact ⟨_, by simpa using Puts.rule stands⟩
  | cons k below ih =>
    obtain ⟨body, rfl⟩ : ∃ body, item = .block body := by
      cases item with
      | value text => exact absurd rfl found
      | block body => exact ⟨body, rfl⟩
    rcases Rule.entryOf?_cases adds with
      ⟨ms, holds, rfl⟩ | ⟨start, name, clause, text, rfl, rfl, block⟩
    · have distinct : ∀ e ∈ ms.filterMap Member.entryOf?, e.2.Distinct := by
        intro e member
        obtain ⟨m, _, adds⟩ := List.mem_filterMap.1 member
        exact Member.distinct_entryOf? adds
      obtain ⟨inner, member, deeper⟩ := Outline.exists_of_at?_mergeAll distinct found
      obtain ⟨m, inBody, adds⟩ := List.mem_filterMap.1 member
      cases m with
      | declaration d =>
        cases adds
        have last : below = [] := by
          by_contra more
          exact absurd (if_neg more) deeper
        subst last
        exact ⟨_, .declaration stands holds inBody⟩
      | rule inside =>
        have later := ih (stands.inside holds inBody adds) adds deeper
        rwa [List.append_assoc] at later
    · have single : k = atKey name clause ∧ below = [] := by
        rw [Item.at?, block, verbatimBlock] at found
        split_ifs at found with empty
        · exact absurd rfl found
        · by_contra other
          apply found
          rw [Outline.at?_cons, Outline.get?]
          split_ifs with same
          · exact if_neg fun last => other ⟨same.symm, last⟩
          · rfl
      rw [single.1, single.2]
      exact ⟨_, .verbatim stands⟩

theorem exists_puts_of_at? {rules : List Rule} {k : String} {path : List String}
    (found : (outlineOf rules).at? (k :: path) ≠ none) : ∃ m, Puts rules (k :: path) m := by
  have distinct : ∀ e ∈ rules.filterMap Rule.entryOf?, e.2.Distinct := by
    intro e member
    obtain ⟨r, _, adds⟩ := List.mem_filterMap.1 member
    exact Member.distinct_entryOf? (m := .rule r) adds
  rw [outlineOf_eq_mergeAll] at found
  obtain ⟨item, member, deeper⟩ := Outline.exists_of_at?_mergeAll distinct found
  obtain ⟨r, inSheet, adds⟩ := List.mem_filterMap.1 member
  exact (StandsAt.outside inSheet adds).exists_puts adds deeper

section Marks

open Outline (isAtKey)

theorem isAtKey_append {a b : String} (first : isAtKey a = false) (second : isAtKey b = false) :
    isAtKey (a ++ b) = false := by
  unfold isAtKey at first second ⊢
  rw [String.toList_append, List.head?_append]
  cases head : a.toList.head? with
  | none => simpa using second
  | some c => simpa [head] using first

theorem isAtKey_append_left {a : String} (nonempty : a ≠ "") (b : String) :
    isAtKey (a ++ b) = isAtKey a := by
  obtain ⟨c, cs, chars⟩ := List.exists_cons_of_ne_nil (show a.toList ≠ [] by simpa using nonempty)
  simp [isAtKey, chars]

theorem isAtKey_intercalate {separator : String} (between : isAtKey separator = false)
    {texts : List String} (all : ∀ t ∈ texts, isAtKey t = false) :
    isAtKey (separator.intercalate texts) = false := by
  induction texts with
  | nil => rfl
  | cons t texts ih =>
    cases texts with
    | nil => simpa using all t (by simp)
    | cons next texts =>
      rw [String.intercalate_cons_cons]
      exact isAtKey_append (isAtKey_append (all t (by simp)) between)
        (ih fun u member => all u (by simp [member]))

theorem head?_nameChar (c : Char) : ∃ x, (Printer.nameChar c).head? = some x ∧ x ≠ '@' := by
  unfold Printer.nameChar
  split_ifs with plain
  · refine ⟨c, rfl, ?_⟩
    rintro rfl
    revert plain
    decide
  · exact ⟨_, rfl, by decide⟩
  · exact ⟨_, rfl, by decide⟩
  · exact ⟨_, rfl, by decide⟩

theorem head?_nameChars (cs : List Char) : (Printer.nameChars cs).head? ≠ some '@' := by
  cases cs with
  | nil => simp [Printer.nameChars]
  | cons c cs =>
    obtain ⟨x, first, other⟩ := head?_nameChar c
    rw [Printer.nameChars, List.flatMap_cons, List.head?_append, first]
    simpa using other

theorem isAtKey_identifier (name : String) : isAtKey (Printer.identifier name) = false := by
  have start : ∀ cs, (Printer.startChars cs).head? ≠ some '@' := by
    intro cs
    cases cs with
    | nil => simp [Printer.startChars]
    | cons c cs =>
      rw [Printer.startChars]
      split
      · simp [Printer.hexEscape]
      · exact head?_nameChars (c :: cs)
  unfold isAtKey
  rw [Printer.identifier, String.toList_ofList, Printer.identifierChars.eq_def]
  split
  · rfl
  · rfl
  · rfl
  · simpa using start name.toList

theorem Component.isAtKey_render (c : Component) : isAtKey c.render = false := by
  cases c with
  | element name => exact isAtKey_identifier name
  | universal => rfl
  | className name => exact isAtKey_append rfl (isAtKey_identifier name)
  | identity name => exact isAtKey_append rfl (isAtKey_identifier name)
  | hasAttribute a =>
    rw [render, Attribute.render, String.append_assoc, String.append_assoc,
      isAtKey_append_left (by decide)]
    rfl
  | pseudo kind name argument =>
    rw [render, String.append_assoc]
    cases kind <;> exact isAtKey_append_left (by decide) _
  | combinator k => cases k <;> rfl
  | nesting => rfl

theorem isAtKey_renderComponents (cs : List Component) : isAtKey (renderComponents cs) = false := by
  induction cs with
  | nil => rfl
  | cons c cs ih =>
    rw [renderComponents]
    exact isAtKey_append c.isAtKey_render ih

theorem Number.isAtKey_format (x : Number) : isAtKey x.format = false := by
  obtain ⟨negative, body, chars, _, decimal⟩ := exists_format x
  rw [isAtKey, chars]
  cases negative with
  | true => rfl
  | false =>
    cases body with
    | nil => rfl
    | cons c body =>
      have other : c ≠ '@' := by
        rintro rfl
        rcases decimal '@' (by simp) with letter | point
        · cases letter
        · cases point
      simpa [sign] using other

theorem Head.isAtKey_render (head : Head) : isAtKey head.render = false := by
  cases head with
  | selectors list =>
    apply isAtKey_intercalate rfl
    induction list with
    | nil => simp [renderSelectors]
    | cons s list ih => simpa [renderSelectors] using ⟨isAtKey_renderComponents s, ih⟩
  | keyframes list =>
    apply isAtKey_intercalate rfl
    intro t member
    obtain ⟨k, _, rfl⟩ := List.mem_map.1 member
    cases k with
    | start => rfl
    | finish => rfl
    | percentage value => exact isAtKey_append value.isAtKey_format rfl

theorem identifier_ne_of_isAtKey {name : String} (marked : isAtKey name) :
    Printer.identifier name ≠ name := by
  intro plain
  rw [← plain, isAtKey_identifier] at marked
  cases marked

end Marks

def Lexeme.HasKeyword (l : Lexeme) : Prop :=
  ∀ s, l.token = .atKeyword s → IsName s

theorem Lexer.lexemesFrom_hasKeyword (start : Location) (cs : List Char) :
    ∀ l ∈ lexemesFrom start cs, l.HasKeyword := by
  refine forall_mem_lexemesFrom (fun _ c rest s keyword => ?_) start cs
  have scanned : scan c rest = (.atKeyword s, (scan c rest).2) := Prod.ext keyword rfl
  have read : c = '@' ∧ startsName rest ∧
      (.atKeyword (String.ofList (name rest).1), (name rest).2) =
        (Token.atKeyword s, (scan c rest).2) := isRead_of_scan scanned
  have named := isName_name read.2.1
  rwa [Token.atKeyword.inj (congrArg Prod.fst read.2.2)] at named

theorem Node.level_hasKeyword (cs : List Char) : Level Lexeme.HasKeyword (ofText cs) :=
  level_ofText (Lexer.lexemesFrom_hasKeyword _ cs)

namespace Sketch

theorem exists_ident_of_mem_ofBody {context : Context} {room : Bool} {ns : List Node}
    {d : Declaration} (member : .declaration d ∈ ofBody context room ns) :
    ∃ n ∈ ns, ∃ name, n.token = .ident name ∧ d.property = Property.parse name := by
  fun_induction ofBody context room ns with
  | case1 => cases member
  | case2 n rest _ ih =>
    obtain ⟨m, later, found⟩ := ih member
    exact ⟨m, List.mem_cons_of_mem n later, found⟩
  | case3 n rest _ name keyword _ ih =>
    rcases List.mem_cons.1 member with same | later
    · cases same
    · obtain ⟨m, inside, found⟩ := ih later
      exact ⟨m, List.mem_cons_of_mem n (after_subset _ _ inside), found⟩
  | case4 n rest _ name isStyle ident _ ih =>
    subst isStyle
    rcases List.mem_cons.1 member with same | later
    · refine ⟨n, by simp, name, ident, ?_⟩
      cases read : readDeclaration name (upTo Node.isSemicolon rest) with
      | ok d' =>
        simp only [ofIdent, read, Outlook.declaration.injEq] at same
        exact same ▸ property_of_readDeclaration read
      | error fault =>
        obtain ⟨s, first, _⟩ := ofIdent_eq_rule room n read
        rw [first] at same
        cases same
    · obtain ⟨m, inside, found⟩ := ih later
      exact ⟨m, ofIdent_subset room n name rest inside, found⟩
  | case5 n rest _ _ noKeyword noIdent ih =>
    rcases List.mem_cons.1 member with same | later
    · cases same
    · obtain ⟨m, inside, found⟩ := ih later
      exact ⟨m, after_subset _ _ inside, found⟩

end Sketch

namespace LiesIn

variable {css : String} {k : Nat}

theorem exists_property {r : Rule} {body : List Member} {d : Declaration}
    (lies : LiesIn (readRules (Node.ofText css.toList)) k r) (holds : r.members? = some body)
    (member : .declaration d ∈ body) : ∃ name, IsName name ∧ d.property = Property.parse name := by
  obtain ⟨s, drawn, rfl⟩ := lies.exists_drawn
  obtain ⟨_, context, ns, o, inside, found, same⟩ := drawn.exists_item holds member
  cases o with
  | rule s => cases same
  | declaration d' =>
    cases same
    obtain ⟨n, here, name, ident, property⟩ := Sketch.exists_ident_of_mem_ofBody found
    have sound := ((inside.level (Node.level_isSound css.toList)).built n here).token_isSound
    rw [ident] at sound
    exact ⟨name, sound, property⟩

theorem isName_atRule {start : Location} {name : String} {clause : Prelude} {body : AtBody}
    (lies : LiesIn (readRules (Node.ofText css.toList)) k (.atRule start name clause body)) :
    IsName name := by
  obtain ⟨ms, front, inside, ⟨before, keyword, rest, rfl, _, token, _⟩, _⟩ := lies.exists_preludeOf
  have built := (inside.level (Node.level_hasKeyword css.toList)).built keyword (by simp)
  cases built with
  | leaf holds _ => exact holds name token
  | block holds _ _ _ _ => exact holds name token

end LiesIn

theorem exists_key_eq {name key : String} {clause : Prelude}
    (keyed : atRuleKey name clause = .ok key ∨ key = atKey name clause) :
    ∃ more : List Char, key.toList = '@' :: (name.toList ++ more) ∧
      ∀ x ∈ more.head?, Lexer.endsName x := by
  have spaced : ∀ text : String, ∃ more : List Char,
      ("@" ++ name ++ " " ++ text).toList = '@' :: (name.toList ++ more) ∧
        ∀ x ∈ more.head?, Lexer.endsName x := by
    intro text
    refine ⟨' ' :: text.toList, by simp, ?_⟩
    simp
    decide
  have printed : ∀ {key : String}, atRuleKey name clause = .ok key → ∃ more : List Char,
      key.toList = '@' :: (name.toList ++ more) ∧ ∀ x ∈ more.head?, Lexer.endsName x := by
    intro key keyed
    unfold atRuleKey at keyed
    cases text : clause.render with
    | error e => simp [text, bind, Except.bind] at keyed
    | ok t =>
      simp only [text, bind, Except.bind, Except.ok.injEq] at keyed
      rw [← keyed]
      split
      · exact ⟨[], by simp, by simp⟩
      · exact spaced t
  rcases keyed with keyed | rfl
  · exact printed keyed
  · unfold atKey
    split
    · rename_i key rendered
      exact printed rendered
    · exact spaced unableToParse

def Member.isAtRule : Member → Bool
  | .rule (.atRule _ _ _ _) => true
  | _ => false

theorem Puts.key_cases {rules : List Rule} {path : List String} {key : String} {m : Member}
    (puts : Puts rules (path ++ [key]) m) :
    (m.isAtRule ∧ ∃ name clause, key = atKey name clause) ∨
    (m.isAtRule = false ∧ ∃ head : Head, key = head.render) ∨
    ∃ d, m = .declaration d ∧ key = d.entry.1 := by
  generalize whole : path ++ [key] = keys at puts
  have last : keys.getLast? = some key := by simp [← whole]
  cases puts with
  | @rule _ r stands =>
    rw [stands.getLast?] at last
    cases r with
    | style start head body =>
      exact .inr (.inl ⟨rfl, head, (Option.some.inj last).symm⟩)
    | atRule start name clause body =>
      exact .inl ⟨rfl, name, clause, (Option.some.inj last).symm⟩
    | unrecognized => cases last
  | @declaration _ _ _ d _ _ _ =>
    rw [List.getLast?_concat] at last
    exact .inr (.inr ⟨d, rfl, (Option.some.inj last).symm⟩)
  | @verbatim _ _ name clause _ _ =>
    rw [List.getLast?_concat] at last
    exact .inl ⟨rfl, name, clause, (Option.some.inj last).symm⟩

/-- Names are read back from what is printed for them exactly if they need no escape. The text of a
property is one identifier from which the same property is read, and the key of an at-rule begins
with an at keyword that is its name and takes up just that name. Every key of the outline was put
there by a rule or a declaration. It starts with an at sign if that is an at-rule, and otherwise
only if it is a property that would have to be escaped. -/
theorem names_read_back {css : String} {rules : List Rule} (read : readSheet css = .ok rules) :
    (∀ k r body d, LiesIn rules k r → r.members? = some body → .declaration d ∈ body →
      ((∃ m, (Lexer.lexemes d.entry.1.toList).map Lexeme.token = [.ident m] ∧
          Property.parse m = d.property) ↔ Printer.identifier d.entry.1 = d.entry.1)) ∧
    (∀ k start name clause body key, LiesIn rules k (.atRule start name clause body) →
      atRuleKey name clause = .ok key ∨ key = atKey name clause →
      ((Lexer.lexemes key.toList).head? = some ⟨.atKeyword name, '@' :: name.toList, .origin⟩ ↔
        Printer.identifier name = name)) ∧
    ∃ d, decode css = .ok d ∧
      (∀ path key, d.at? (path ++ [key]) ≠ none → ∃ m, Puts rules (path ++ [key]) m) ∧
      ∀ path key m, Puts rules (path ++ [key]) m →
        (m.isAtRule → Outline.isAtKey key) ∧
        (Outline.isAtKey key → m.isAtRule ∨
          ∃ d, m = .declaration d ∧ d.entry.1 = key ∧ Printer.identifier key ≠ key) := by
  have decoded : decode css = .ok (outlineOf rules) := by
    rw [decode, read]
    rfl
  obtain rfl := readSheet_eq_ok read
  refine ⟨?_, ?_, _, decoded, ?_, ?_⟩
  · intro k r body d lies holds member
    obtain ⟨name, named, property⟩ := lies.exists_property holds member
    rw [Declaration.entry, property]
    exact Property.lexemes_text_iff named
  · intro k start name clause body key lies keyed
    obtain ⟨more, chars, ends⟩ := exists_key_eq keyed
    rw [chars]
    exact lies.isName_atRule.head?_lexemes_at_iff ends
  · intro path key found
    have some : path ++ [key] ≠ [] := by simp
    obtain ⟨first, rest, same⟩ := List.exists_cons_of_ne_nil some
    rw [same] at found ⊢
    exact exists_puts_of_at? found
  · intro path key m puts
    rcases puts.key_cases with ⟨isAt, name, clause, rfl⟩ | ⟨other, head, rfl⟩ | ⟨d, rfl, rfl⟩
    · exact ⟨fun _ => isAtKey_atKey name clause, fun _ => .inl isAt⟩
    · simp [other, head.isAtKey_render]
    · exact ⟨fun isAt => absurd isAt (by simp [Member.isAtRule]),
        fun marked => .inr ⟨d, rfl, rfl, identifier_ne_of_isAtKey marked⟩⟩

/-- A declaration whose property is an escaped at sign and a letter beside a plain one, and an
at-rule whose name is an escaped digit and a letter beside a plain one. -/
def escapedSheet : String := "a\x7b\\@x:y;c:d\x7d@\\31 x f;@media g\x7b\x7d"

def showsNames (properties : Property × Property) (keys : (String × String) × (String × String)) :
    List Rule → Bool
  | [.style _ _ [.declaration d, .declaration e],
      .atRule _ name clause _, .atRule _ other last _] =>
    (d.property, e.property) == properties &&
      ((name, atKey name clause), (other, atKey other last)) == keys
  | _ => false

theorem names_read_back_escapedSheet :
    (¬∃ m, (Lexer.lexemes "@x".toList).map Lexeme.token = [.ident m] ∧
      Property.parse m = .standard .none "@x") ∧
    (∃ m, (Lexer.lexemes "c".toList).map Lexeme.token = [.ident m] ∧
      Property.parse m = .standard .none "c") ∧
    (Lexer.lexemes "@1x f".toList).head? ≠ some ⟨.atKeyword "1x", "@1x".toList, .origin⟩ ∧
    (Lexer.lexemes "@media g".toList).head? = some ⟨.atKeyword "media", "@media".toList, .origin⟩ ∧
    ∃ rules, readSheet escapedSheet = .ok rules ∧ (∃ m, Puts rules ["a", "@x"] m) ∧
      ∀ m, Puts rules ["a", "@x"] m → m.isAtRule ∨ ∃ d, m = .declaration d := by
  have evaluated : (readSheet escapedSheet).toOption.any
      (showsNames (.standard .none "@x", .standard .none "c")
        (("1x", "@1x f"), ("media", "@media g"))) := by decide +kernel
  have outline : decode escapedSheet = .ok (.block "a" (.value "@x" "y" (.value "c" "d" .nil))
      (.value "@1x f" "" (.block "@media g" .nil .nil))) := by decide +kernel
  cases read : readSheet escapedSheet with
  | error e => simp [read, Except.toOption] at evaluated
  | ok rules =>
    obtain ⟨properties, keywords, d, decoded, comes, marks⟩ := names_read_back read
    obtain rfl := Except.ok.inj (outline.symm.trans decoded)
    simp only [read, Except.toOption, Option.any_some] at evaluated
    unfold showsNames at evaluated
    split at evaluated
    · rename_i d e start name clause body start' other last body'
      simp only [Bool.and_eq_true, beq_iff_eq, Prod.mk.injEq] at evaluated
      obtain ⟨⟨escaped, plain⟩, ⟨rfl, digit⟩, rfl, media⟩ := evaluated
      have first := properties 0 _ _ d (.outside List.mem_cons_self) rfl (by simp)
      have second := properties 0 _ _ e (.outside List.mem_cons_self) rfl (by simp)
      have third := keywords 0 start "1x" clause body _ (.outside (by simp)) (.inr digit.symm)
      have fourth := keywords 0 start' "media" last body' _ (.outside (by simp)) (.inr media.symm)
      have firstKey : d.entry.1 = "@x" := (congrArg Property.text escaped).trans (by decide +kernel)
      have secondKey : e.entry.1 = "c" := (congrArg Property.text plain).trans (by decide +kernel)
      rw [firstKey, escaped] at first
      rw [secondKey, plain] at second
      refine ⟨mt first.1 (by decide +kernel), second.2 (by decide +kernel),
        mt third.1 (by decide +kernel), fourth.2 (by decide +kernel), _, rfl, ?_, ?_⟩
      · exact comes ["a"] "@x" (by decide +kernel)
      · intro m puts
        rcases (marks ["a"] "@x" m puts).2 rfl with isAt | ⟨d, same, _⟩
        · exact .inl isAt
        · exact .inr ⟨d, same⟩
    · cases evaluated

-- A name that is not escaped may take in a part of the prelude, and still be another name's text.
example : (Lexer.lexemes "@\\5c 5c".toList).map Lexeme.token = [.atKeyword "\\5c"] := by
  decide +kernel

end CssOutline
