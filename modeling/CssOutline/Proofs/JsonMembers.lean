import CssOutline.Proofs.JsonNumbers
import CssOutline.Proofs.JsonTexts
import CssOutline.Proofs.Reachable

/-! What a JSON text is read as. On the marks of an object the reader inserts the members one by one
until it meets the first value that no member may have; and whatever it reads to the end are the
marks of one object all of whose member values are allowed. -/

namespace CssOutline.Json

open Numeral (Written)

mutual

/-- What a member with this value is read as. Values that are not read count as empty. -/
def Tree.item : Tree → Item
  | .string value => .value value
  | .number literal => .value literal.decimal
  | .object members => .block (.ofEntries (entriesOf members))
  | _ => .value ""

def entriesOf : List (String × Tree) → List (String × Item)
  | [] => []
  | (key, t) :: ms => (key, t.item) :: entriesOf ms

end

mutual

def Tree.values : Tree → List Tree
  | .array items => itemValues items
  | .object members => memberValues members
  | _ => []

def itemValues : List Tree → List Tree
  | [] => []
  | t :: ts => t.values ++ itemValues ts

def memberValues : List (String × Tree) → List Tree
  | [] => []
  | (_, t) :: ms => t :: t.values ++ memberValues ms

end

mutual

/-- How deep objects nest. An array counts as `array` levels. -/
def Tree.depth (array : Nat) : Tree → Nat
  | .array items => itemDepth array items + array
  | .object members => memberDepth array members + 1
  | _ => 0

def itemDepth (array : Nat) : List Tree → Nat
  | [] => 0
  | t :: ts => max (t.depth array) (itemDepth array ts)

def memberDepth (array : Nat) : List (String × Tree) → Nat
  | [] => 0
  | (_, t) :: ms => max (t.depth array) (memberDepth array ms)

end

def Tree.IsAllowed : Tree → Prop
  | .string _ => True
  | .object _ => True
  | .number literal => literal.InRange
  | _ => False

/-- How a value is reported where none of its type may stand. -/
def Tree.found? : Tree → Option Found
  | .null => some .null
  | .bool value => some (.bool value)
  | .number literal => (Numeral.ofWritten literal).map .number
  | .string value => some (.string value)
  | .array _ => some .sequence
  | .object _ => none

def Tree.refusal? : Tree → Option ReadError
  | .string _ => none
  | .object _ => none
  | .number literal => if (Numeral.ofWritten literal).isSome then none else some .notJson
  | .null => some (.memberType .null)
  | .bool value => some (.memberType (.bool value))
  | .array _ => some (.memberType .sequence)

theorem Tree.refusal?_eq_none_iff (t : Tree) : t.refusal? = none ↔ t.IsAllowed := by
  cases t <;> simp [refusal?, IsAllowed, Written.InRange, Option.isSome_iff_ne_none]

theorem Tree.refusal?_of_not_isAllowed {t : Tree} {found : Found} (refused : ¬ t.IsAllowed)
    (type : t.found? = some found) : t.refusal? = some (.memberType found) := by
  cases t with
  | string => exact absurd trivial refused
  | object => exact absurd trivial refused
  | number literal =>
    rw [found?, Option.map_eq_some_iff] at type
    obtain ⟨n, range, -⟩ := type
    exact absurd (by simp [Tree.IsAllowed, Written.InRange, range]) refused
  | _ => cases type; rfl

/-! ### From the tree to the result -/

def afterValues (values : List Tree) (next : Except ReadError Outline) :
    Except ReadError Outline :=
  match values.findSome? Tree.refusal? with
  | none => next
  | some e => .error e

theorem afterValues_append (front back : List Tree) (next : Except ReadError Outline) :
    afterValues (front ++ back) next = afterValues front (afterValues back next) := by
  unfold afterValues
  rw [List.findSome?_append]
  cases front.findSome? Tree.refusal? <;> rfl

theorem afterValues_of_allowed {values : List Tree} (allowed : ∀ v ∈ values, v.IsAllowed)
    (next : Except ReadError Outline) : afterValues values next = next := by
  have none : values.findSome? Tree.refusal? = none :=
    List.findSome?_eq_none_iff.2 fun v member => v.refusal?_eq_none_iff.2 (allowed v member)
  rw [afterValues, none]

def ReadsValue (t : Tree) : Prop :=
  ∀ rest stack current key, t.depth 1 + stack.length + 1 ≤ maxDepth →
    readObject (tokensOf (t.marks ++ rest)) stack current (.value key) =
      afterValues (t :: t.values)
        (readObject (tokensOf rest) stack (current.insert key t.item) .commaOrEnd)

def ReadsOn (members : List (String × Tree)) : Prop :=
  ∀ rest stack current, memberDepth 1 members + stack.length + 1 ≤ maxDepth →
    readObject (tokensOf (memberMarks [.comma] members ++ rest)) stack current .commaOrEnd =
      afterValues (memberValues members)
        (readObject (tokensOf rest) stack (current.insertAll (entriesOf members)) .commaOrEnd)

theorem readObject_members {members : List (String × Tree)} (reads : ReadsOn members)
    (rest : List Mark) (stack : List (Outline × String))
    (room : memberDepth 1 members + stack.length + 1 ≤ maxDepth) :
    readObject (tokensOf (memberMarks [] members ++ .closeBrace :: rest)) stack .nil
      .memberOrEnd = afterValues (memberValues members)
        (closeObject (tokensOf rest) stack (.ofEntries (entriesOf members))) := by
  have later := reads (.closeBrace :: rest) stack .nil room
  rw [show tokensOf (.closeBrace :: rest) = .closeBrace :: tokensOf rest from rfl,
    readObject_closeBrace] at later
  cases members with
  | nil => exact readObject_empty (tokensOf rest) stack .nil
  | cons m ms => exact later

mutual

theorem Tree.readsValue : (t : Tree) → ReadsValue t
  | .null => fun _ _ _ _ _ => rfl
  | .bool _ => fun _ _ _ _ _ => rfl
  | .string _ => fun _ _ _ _ _ => rfl
  | .number literal => by
    intro rest stack current key _
    cases range : Numeral.ofWritten literal with
    | none =>
      simp [Tree.marks, tokensOf, Mark.token?, range, readObject, afterValues, Tree.refusal?,
        Tree.values]
    | some n =>
      simp [Tree.marks, tokensOf, Mark.token?, range, readObject, afterValues, Tree.refusal?,
        Tree.values, Tree.item, Written.decimal]
  | .array items => by
    intro rest stack current key room
    have fits : stack.length + 2 ≤ maxDepth := by
      rw [Tree.depth] at room
      omega
    have stops : afterValues (.array items :: (Tree.array items).values)
        (readObject (tokensOf rest) stack (current.insert key (Tree.array items).item)
          .commaOrEnd) = .error (.memberType .sequence) := rfl
    rw [stops]
    simp [Tree.marks, tokensOf, Mark.token?, readObject, fits]
  | .object members => by
    intro rest stack current key room
    rw [Tree.depth] at room
    have fits : stack.length + 2 ≤ maxDepth := by omega
    have inner := readObject_members (readsOn members) rest ((current, key) :: stack)
      (by rw [List.length_cons]; omega)
    have text : (Tree.object members).marks ++ rest =
        .openBrace :: (memberMarks [] members ++ .closeBrace :: rest) := by simp [Tree.marks]
    have opens (ts : List Token) : readObject (.openBrace :: ts) stack current (.value key) =
        readObject ts ((current, key) :: stack) .nil .memberOrEnd := by
      simp only [readObject, fits, ↓reduceIte]
    rw [text]
    exact (opens _).trans inner

theorem readsOn : (members : List (String × Tree)) → ReadsOn members
  | [] => fun _ _ _ _ => rfl
  | (key, t) :: ms => by
    intro rest stack current room
    rw [memberDepth] at room
    have text : memberMarks [.comma] ((key, t) :: ms) ++ rest =
        .comma :: .string key :: .colon :: (t.marks ++ (memberMarks [.comma] ms ++ rest)) := by
      simp [memberMarks]
    have here := t.readsValue (memberMarks [.comma] ms ++ rest) stack current key (by omega)
    have later := readsOn ms rest stack (current.insert key t.item) (by omega)
    rw [text, memberValues, afterValues_append]
    exact here.trans (congrArg (afterValues (t :: t.values)) later)

end

theorem read_of_isText {text : String} {members : List (String × Tree)}
    (grammar : (Tree.object members).IsText text.toList)
    (shallow : (Tree.object members).depth 1 ≤ maxDepth) :
    read text = afterValues (memberValues members) (.ok (.ofEntries (entriesOf members))) := by
  have whole := readObject_members (readsOn members) [] [] (by simpa [Tree.depth] using shallow)
  rw [read, grammar.tokens_eq]
  exact whole

/-! ### From the result to the tree -/

section Inversion

variable {stack : List (Outline × String)} {current d : Outline}

theorem not_ok_of_number (literal : Written) (rest : List Mark) {expect : Expect}
    (other : ∀ key, expect ≠ .value key) :
    readObject (tokensOf (.number literal :: rest)) stack current expect ≠ .ok d := by
  rw [tokensOf]
  cases range : Numeral.ofWritten literal <;> cases expect <;>
    simp_all [Mark.token?, readObject]

theorem marks_of_commaOrEnd {ms : List Mark}
    (ok : readObject (tokensOf ms) stack current .commaOrEnd = .ok d) :
    (∃ rest, ms = .closeBrace :: rest ∧ closeObject (tokensOf rest) stack current = .ok d) ∨
      ∃ rest, ms = .comma :: rest ∧ readObject (tokensOf rest) stack current .member = .ok d := by
  cases ms with
  | nil => simp [tokensOf, readObject] at ok
  | cons m rest =>
    cases m with
    | closeBrace => exact .inl ⟨rest, rfl, readObject_closeBrace _ stack current ▸ ok⟩
    | comma => exact .inr ⟨rest, rfl, ok⟩
    | number literal => exact absurd ok (not_ok_of_number literal rest (by simp))
    | _ => simp [tokensOf, Mark.token?, readObject] at ok

theorem marks_of_colon {ms : List Mark} {key : String}
    (ok : readObject (tokensOf ms) stack current (.colon key) = .ok d) :
    ∃ rest, ms = .colon :: rest ∧
      readObject (tokensOf rest) stack current (.value key) = .ok d := by
  cases ms with
  | nil => simp [tokensOf, readObject] at ok
  | cons m rest =>
    cases m with
    | colon => exact ⟨rest, rfl, ok⟩
    | number literal => exact absurd ok (not_ok_of_number literal rest (by simp))
    | _ => simp [tokensOf, Mark.token?, readObject] at ok

theorem marks_of_member {ms : List Mark}
    (ok : readObject (tokensOf ms) stack current .member = .ok d) :
    ∃ key rest, ms = .string key :: .colon :: rest ∧
      readObject (tokensOf rest) stack current (.value key) = .ok d := by
  cases ms with
  | nil => simp [tokensOf, readObject] at ok
  | cons m rest =>
    cases m with
    | string key =>
      have colon : readObject (tokensOf rest) stack current (.colon key) = .ok d := ok
      obtain ⟨rest, rfl, ok⟩ := marks_of_colon colon
      exact ⟨key, rest, rfl, ok⟩
    | number literal => exact absurd ok (not_ok_of_number literal rest (by simp))
    | _ => simp [tokensOf, Mark.token?, readObject] at ok

theorem marks_of_memberOrEnd {ms : List Mark}
    (ok : readObject (tokensOf ms) stack current .memberOrEnd = .ok d) :
    (∃ rest, ms = .closeBrace :: rest ∧ closeObject (tokensOf rest) stack current = .ok d) ∨
      readObject (tokensOf ms) stack current .member = .ok d := by
  cases ms with
  | nil => simp [tokensOf, readObject] at ok
  | cons m rest =>
    cases m with
    | closeBrace => exact .inl ⟨rest, rfl, readObject_empty _ stack current ▸ ok⟩
    | string key => exact .inr ok
    | number literal => exact absurd ok (not_ok_of_number literal rest (by simp))
    | _ => simp [tokensOf, Mark.token?, readObject] at ok

theorem marks_of_value {ms : List Mark} {key : String}
    (ok : readObject (tokensOf ms) stack current (.value key) = .ok d) :
    (∃ (t : Tree) (rest : List Mark), ms = t.marks ++ rest ∧ t.depth 1 = 0 ∧ t.values = [] ∧
      t.IsAllowed ∧
      readObject (tokensOf rest) stack (current.insert key t.item) .commaOrEnd = .ok d) ∨
    ∃ rest, ms = .openBrace :: rest ∧ stack.length + 2 ≤ maxDepth ∧
      readObject (tokensOf rest) ((current, key) :: stack) .nil .memberOrEnd = .ok d := by
  cases ms with
  | nil => simp [tokensOf, readObject] at ok
  | cons m rest =>
    cases m with
    | string value => exact .inl ⟨.string value, rest, rfl, rfl, rfl, trivial, ok⟩
    | number literal =>
      cases range : Numeral.ofWritten literal with
      | none => simp [tokensOf, Mark.token?, range, readObject] at ok
      | some n =>
        refine .inl ⟨.number literal, rest, rfl, rfl, rfl, ?_, ?_⟩
        · simp [Tree.IsAllowed, Written.InRange, range]
        · simpa [tokensOf, Mark.token?, range, readObject, Tree.item, Written.decimal] using ok
    | openBrace =>
      have room : stack.length + 2 ≤ maxDepth := by
        by_contra narrow
        simp [tokensOf, Mark.token?, readObject, narrow] at ok
      have opened : readObject (tokensOf rest) ((current, key) :: stack) .nil .memberOrEnd =
          .ok d := by
        simpa [tokensOf, Mark.token?, readObject, room] using ok
      exact .inr ⟨rest, rfl, room, opened⟩
    | openBracket =>
      by_cases room : stack.length + 2 ≤ maxDepth <;>
        simp [tokensOf, Mark.token?, readObject, room] at ok
    | _ => simp [tokensOf, Mark.token?, readObject] at ok

end Inversion

def ClosesWith (separator ms : List Mark) (stack : List (Outline × String)) (current d : Outline) :
    Prop :=
  ∃ members rest, ms = memberMarks separator members ++ .closeBrace :: rest ∧
    memberDepth 1 members + stack.length + 1 ≤ maxDepth ∧
    (∀ v ∈ memberValues members, v.IsAllowed) ∧
    closeObject (tokensOf rest) stack (current.insertAll (entriesOf members)) = .ok d

section Soundness

variable {stack : List (Outline × String)} {current d : Outline}

theorem closesWith_closeBrace {separator rest : List Mark} (room : stack.length + 1 ≤ maxDepth)
    (ok : closeObject (tokensOf rest) stack current = .ok d) :
    ClosesWith separator (.closeBrace :: rest) stack current d :=
  ⟨[], rest, rfl, by simpa [memberDepth] using room, by simp [memberValues], ok⟩

theorem ClosesWith.cons {rest : List Mark} {t : Tree} {key : String}
    (later : ClosesWith [.comma] rest stack (current.insert key t.item) d)
    (room : t.depth 1 + stack.length + 1 ≤ maxDepth)
    (allowed : ∀ v ∈ t :: t.values, v.IsAllowed) :
    ClosesWith [.comma] (.comma :: .string key :: .colon :: (t.marks ++ rest)) stack current d := by
  obtain ⟨members, after, rfl, fits, all, ok⟩ := later
  refine ⟨(key, t) :: members, after, by simp [memberMarks], ?_, ?_, ok⟩
  · rw [memberDepth]
    omega
  · intro v member
    rw [memberValues, List.mem_append] at member
    exact member.elim (allowed v) (all v)

theorem closesWith_of_memberOrEnd {ms : List Mark} (room : stack.length + 1 ≤ maxDepth)
    (ok : readObject (tokensOf ms) stack current .memberOrEnd = .ok d)
    (later : readObject (tokensOf (.comma :: ms)) stack current .commaOrEnd = .ok d →
      ClosesWith [.comma] (.comma :: ms) stack current d) :
    ClosesWith [] ms stack current d := by
  obtain ⟨rest, rfl, closed⟩ | next := marks_of_memberOrEnd ok
  · exact closesWith_closeBrace room closed
  · obtain ⟨members, rest, text, fits, all, ok⟩ := later next
    refine ⟨members, rest, ?_, fits, all, ok⟩
    cases members with
    | nil => simp [memberMarks] at text
    | cons m members => simpa [memberMarks] using text

/-- By induction on the number of marks: the object inside a value is read up to its end first, and
then the object around it. -/
theorem closesWith_of_commaOrEnd {ms : List Mark} (room : stack.length + 1 ≤ maxDepth)
    (ok : readObject (tokensOf ms) stack current .commaOrEnd = .ok d) :
    ClosesWith [.comma] ms stack current d := by
  induction size : ms.length using Nat.strongRecOn generalizing ms stack current with
  | ind n ih =>
    obtain ⟨rest, rfl, closed⟩ | ⟨rest, rfl, more⟩ := marks_of_commaOrEnd ok
    · exact closesWith_closeBrace room closed
    obtain ⟨key, rest, rfl, more⟩ := marks_of_member more
    simp only [List.length_cons] at size
    obtain ⟨t, rest, rfl, flat, nothing, allowed, more⟩ | ⟨rest, rfl, fits, more⟩ :=
      marks_of_value more
    · have later := ih _ (by rw [List.length_append] at size; omega) room more rfl
      exact later.cons (by omega) (by simpa [nothing] using allowed)
    · have inner : ClosesWith [] rest ((current, key) :: stack) .nil d :=
        closesWith_of_memberOrEnd fits more fun next =>
          ih (rest.length + 1) (by simp only [List.length_cons] at size; omega) fits next rfl
      obtain ⟨members, after, rfl, deep, all, closed⟩ := inner
      have later := ih _ (by simp at size; omega) room closed rfl
      have whole : ClosesWith [.comma] (.comma :: .string key :: .colon ::
          ((Tree.object members).marks ++ after)) stack current d := by
        refine later.cons ?_ ?_
        · simp only [Tree.depth, List.length_cons] at deep ⊢
          omega
        · simpa [Tree.values, Tree.IsAllowed] using all
      simpa [Tree.marks] using whole

end Soundness

theorem bad_not_mem_of_readObject {ts : List Token} {stack : List (Outline × String)}
    {current d : Outline} {expect : Expect} (ok : readObject ts stack current expect = .ok d) :
    .bad ∉ ts := by
  have closed {ts : List Token} {stack : List (Outline × String)} {current : Outline}
      (outer : ∀ (parent : Outline) (key : String) (stack : List (Outline × String)),
        readObject ts stack (parent.insert key (.block current)) .commaOrEnd = .ok d → .bad ∉ ts)
      (ok : closeObject ts stack current = .ok d) : .bad ∉ .closeBrace :: ts := by
    cases stack with
    | nil =>
      rw [closeObject] at ok
      split at ok
      · simp [‹ts = []›]
      · cases ok
    | cons p stack => simpa using outer p.1 p.2 stack ok
  fun_induction readObject ts stack current expect with
  | case2 ts stack current close outer => exact closed outer ok
  | case7 ts stack current close outer => exact closed outer ok
  | case3 ts stack current key _ ih => simpa using ih ok
  | case4 ts stack current key _ ih => simpa using ih ok
  | case5 ts stack current key _ ih => simpa using ih ok
  | case6 ts stack current _ ih => simpa using ih ok
  | case8 ts stack current key s _ ih => simpa using ih ok
  | case9 ts stack current key n _ ih => simpa using ih ok
  | case10 ts stack current key _ _ ih => simpa using ih ok
  | _ => cases ok

theorem exists_tree_of_read {text : String} {d : Outline} (ok : read text = .ok d) :
    ∃ members, (Tree.object members).IsText text.toList ∧
      (Tree.object members).depth 1 ≤ maxDepth ∧ (∀ v ∈ memberValues members, v.IsAllowed) ∧
      d = .ofEntries (entriesOf members) := by
  unfold read readTokens at ok
  split at ok
  case h_1 ts tokens =>
    have good := bad_not_mem_of_readObject ok
    obtain ⟨ms, made, same⟩ : ∃ ms, MadeOf text.toList ms ∧ tokensOf ms = .openBrace :: ts := by
      rw [← tokens]
      exact exists_madeOf (by simpa [tokens] using good)
    obtain ⟨ms, rfl, rfl⟩ : ∃ rest, ms = .openBrace :: rest ∧ tokensOf rest = ts := by
      cases ms with
      | nil => cases same
      | cons m rest =>
        cases m with
        | openBrace => exact ⟨rest, rfl, (List.cons.inj same).2⟩
        | number literal =>
          cases range : Numeral.ofWritten literal <;>
            simp [tokensOf, Mark.token?, range] at same
        | _ => simp [tokensOf, Mark.token?] at same
    have root : ([] : List (Outline × String)).length + 1 ≤ maxDepth := by decide
    obtain ⟨members, rest, rfl, fits, allowed, closed⟩ :=
      closesWith_of_memberOrEnd root ok (closesWith_of_commaOrEnd root)
    rw [closeObject] at closed
    split at closed
    · rename_i ended
      obtain rfl : rest = [] := by
        cases rest with
        | nil => rfl
        | cons m rest =>
          rw [tokensOf] at ended
          split at ended <;> cases ended
      refine ⟨members, ?_, by simpa [Tree.depth] using fits, allowed, (Except.ok.inj closed).symm⟩
      simpa [Tree.IsText, Tree.marks] using made
    · cases closed
  all_goals cases ok

end CssOutline.Json
