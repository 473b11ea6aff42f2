import CssOutline.Json.Reader
import CssOutline.Proofs.Entries

/-! Outlines that can be built. Whatever is inserted, merged, collected, read from JSON with
repeated keys or decoded, in any order and number, no level of the outline holds a key twice; and
what is inserted or merged leaves the keys of the top level where they are. -/

namespace CssOutline

namespace Outline

theorem Distinct.insertAll {d : Outline} (distinct : d.Distinct) (es : List (String × Item))
    (new : ∀ e ∈ es, e.2.Distinct) : (d.insertAll es).Distinct := by
  induction es generalizing d with
  | nil => exact distinct
  | cons e es ih =>
    have here := distinct.insert e.1 e.2 (new e (by simp))
    exact ih here fun e' later => new e' (by simp [later])

theorem keys_insert_extends (k : String) (item : Item) (d : Outline) :
    d.keys <+: (d.insert k item).keys := by
  rw [keys_insert]
  split
  · exact List.prefix_refl _
  · exact List.prefix_append _ _

theorem keys_mergeItem_extends (k : String) (item : Item) (d : Outline) :
    d.keys <+: (d.mergeItem k item).keys := by
  rw [mergeItem_eq_insert]
  exact keys_insert_extends k _ d

theorem keys_merge_extends (d e : Outline) : d.keys <+: (d.merge e).keys := by
  induction e using cons_induction generalizing d with
  | nil => exact List.prefix_refl _
  | cons k item rest ih =>
    rw [merge_cons]
    exact (keys_mergeItem_extends k item d).trans (ih _)

end Outline

namespace Json

theorem distinct_of_close {ts : List Token} {stack : List (Outline × String)}
    {current d : Outline}
    (read : (match stack with
      | [] => if ts = [] then .ok current else .error .notJson
      | (parent, key) :: stack =>
        readObject ts stack (parent.insert key (.block current)) .commaOrEnd :
        Except ReadError Outline) = .ok d)
    (outer : ∀ (parent : Outline) (key : String) (stack : List (Outline × String)),
      (parent.insert key (.block current)).Distinct → (∀ p ∈ stack, p.1.Distinct) →
      readObject ts stack (parent.insert key (.block current)) .commaOrEnd = .ok d → d.Distinct)
    (distinct : current.Distinct) (waiting : ∀ p ∈ stack, p.1.Distinct) : d.Distinct := by
  cases stack with
  | nil =>
    simp only at read
    split at read
    · exact Except.ok.inj read ▸ distinct
    · cases read
  | cons p stack =>
    have parent := waiting p (by simp)
    exact outer p.1 p.2 stack (parent.insert p.2 _ (.block distinct))
      (fun q later => waiting q (by simp [later])) read

-- The objects that are still open wait on the stack with their keys distinct.
theorem distinct_of_readObject {ts : List Token} {stack : List (Outline × String)}
    {current d : Outline} {expect : Expect} (distinct : current.Distinct)
    (waiting : ∀ p ∈ stack, p.1.Distinct) (read : readObject ts stack current expect = .ok d) :
    d.Distinct := by
  fun_induction readObject ts stack current expect with
  | case2 ts stack current close outer => exact distinct_of_close read outer distinct waiting
  | case3 ts stack current key _ ih => exact ih distinct waiting read
  | case4 ts stack current key _ ih => exact ih distinct waiting read
  | case5 ts stack current key _ ih => exact ih distinct waiting read
  | case6 ts stack current _ ih => exact ih distinct waiting read
  | case7 ts stack current close outer => exact distinct_of_close read outer distinct waiting
  | case8 ts stack current key s _ ih => exact ih (distinct.insert _ _ .value) waiting read
  | case9 ts stack current key n _ ih => exact ih (distinct.insert _ _ .value) waiting read
  | case10 ts stack current key _ _ ih => exact ih .nil (by simpa [distinct] using waiting) read
  | _ => cases read

theorem distinct_of_read {text : String} {d : Outline} (ok : read text = .ok d) : d.Distinct := by
  unfold read readTokens at ok
  split at ok
  · exact distinct_of_readObject .nil (by simp) ok
  all_goals cases ok

end Json

/-- Outlines built from the empty one. What is put under a key is a value or an outline that was
itself built, whether put together for it or found in another one. -/
inductive Outline.Reachable : Outline → Prop
  | nil : Reachable .nil
  | insert {d : Outline} {item : Item} (outer : Reachable d) (key : String)
    (inner : ∀ body ∈ item.body?, Reachable body) : Reachable (d.insert key item)
  | mergeItem {d : Outline} {item : Item} (outer : Reachable d) (key : String)
    (inner : ∀ body ∈ item.body?, Reachable body) : Reachable (d.mergeItem key item)
  | merge {d e : Outline} (front : Reachable d) (back : Reachable e) : Reachable (d.merge e)
  | ofEntries (es : List (String × Item))
    (inner : ∀ e ∈ es, ∀ body ∈ e.2.body?, Reachable body) : Reachable (.ofEntries es)
  | found {d body : Outline} {key : String} (outer : Reachable d)
    (here : d.get? key = some (.block body)) : Reachable body
  | read {text : String} {d : Outline} (ok : Json.read text = .ok d) : Reachable d
  | decode {css : String} {d : Outline} (ok : CssOutline.decode css = .ok d) : Reachable d

theorem Item.distinct_of_body? {item : Item} (inner : ∀ body ∈ item.body?, body.Distinct) :
    item.Distinct := by
  cases item with
  | value text => exact .value
  | block body => exact .block (inner body rfl)

theorem Outline.Reachable.distinct {d : Outline} (reachable : d.Reachable) : d.Distinct := by
  induction reachable with
  | nil => exact .nil
  | insert _ key _ outer inner => exact outer.insert key _ (Item.distinct_of_body? inner)
  | mergeItem _ key _ outer inner => exact outer.mergeItem key _ (Item.distinct_of_body? inner)
  | merge _ _ front back => exact back.mergeInto front
  | ofEntries es _ inner =>
    exact Outline.Distinct.nil.insertAll es fun e member => Item.distinct_of_body? (inner e member)
  | found _ here outer =>
    obtain _ | body := outer.get? here
    exact body
  | read ok => exact Json.distinct_of_read ok
  | decode ok =>
    rw [decode_eq_ok ok]
    exact distinct_outlineOf _

/-- Keys differ on every level of an outline that can be built, and the operations that add to it
only append keys to those of its top level. -/
theorem distinct_of_reachable {d : Outline} (reachable : d.Reachable) :
    d.Distinct ∧
      (∀ key item, d.keys <+: (d.insert key item).keys) ∧
      (∀ key item, d.keys <+: (d.mergeItem key item).keys) ∧
      ∀ e, d.keys <+: (d.merge e).keys :=
  ⟨reachable.distinct, fun key item => d.keys_insert_extends key item,
    fun key item => d.keys_mergeItem_extends key item, fun e => d.keys_merge_extends e⟩

def repeatedJson : String :=
  "\x7b\"a\":\x7b\"x\":1,\"x\":\"2\"\x7d,\"b\":\"\",\"a\":\x7b\"y\":\"3\"\x7d\x7d"

def repeatedSheet : String := "b\x7bx:4\x7da\x7by:z;x:w\x7db\x7bx:5\x7d"

theorem distinct_of_reachable_repeated :
    ∃ d e, Json.read repeatedJson = .ok d ∧ decode repeatedSheet = .ok e ∧
      (d.merge e).Reachable ∧ (d.merge e).Distinct ∧ (d.merge e).keys = ["a", "b"] ∧
      ((d.merge e).insert "a" (.value "")).keys = ["a", "b"] ∧
      (d.merge e).keys <+: ((d.merge e).merge (.value "c" "" .nil)).keys := by
  have read : Json.read repeatedJson =
      .ok (.block "a" (.value "y" "3" .nil) (.value "b" "" .nil)) := by decide +kernel
  have decoded : decode repeatedSheet =
      .ok (.block "b" (.value "x" "5" .nil) <|
        .block "a" (.value "y" "z" <| .value "x" "w" .nil) .nil) := by
    decide +kernel
  have reachable := Outline.Reachable.merge (.read read) (.decode decoded)
  obtain ⟨distinct, _, _, merged⟩ := distinct_of_reachable reachable
  exact ⟨_, _, read, decoded, reachable, distinct, by decide, by decide, merged _⟩

end CssOutline
