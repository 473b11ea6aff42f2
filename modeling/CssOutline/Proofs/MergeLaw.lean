import CssOutline.Proofs.Associativity

/-! The law of merging. It says which keys a merge has and in which order, and what stands under
each of them, block by block. The merge follows it, and no other outline does; so whatever follows
the law is the merge. -/

namespace CssOutline

namespace Outline

/-- What is said of the merge `m` of `b` into `a`. -/
inductive MergeLaw : Outline → Outline → Outline → Prop
  | intro {a b m : Outline} (keys : m.keys = a.keys ++ b.keys.filter (· ∉ a.keys))
    (front : ∀ k, b.get? k = none → m.get? k = a.get? k)
    (back : ∀ k, a.get? k = none → m.get? k = b.get? k)
    (blocks : ∀ k A B, a.get? k = some (.block A) → b.get? k = some (.block B) →
      ∃ M, m.get? k = some (.block M))
    (inner : ∀ k A B M, a.get? k = some (.block A) → b.get? k = some (.block B) →
      m.get? k = some (.block M) → MergeLaw A B M)
    (otherwise : ∀ k item, b.get? k = some item →
      (¬ ∃ A B, a.get? k = some (.block A) ∧ item = .block B) → m.get? k = some item) :
    MergeLaw a b m

theorem eraseDups_append_of_nodup {xs ys : List String} (front : xs.Nodup) (back : ys.Nodup) :
    (xs ++ ys).eraseDups = xs ++ ys.filter (· ∉ xs) := by
  have new : ys.removeAll xs = ys.filter (· ∉ xs) := by simp [List.removeAll]
  rw [List.eraseDups_append, new, eraseDups_of_nodup front, eraseDups_of_nodup (back.filter _)]

theorem join_of_not_blocks (old : Option Item) (item : Item)
    (other : ¬ ∃ A B, old = some (.block A) ∧ item = .block B) : Item.join old item = item := by
  rcases old with _ | _ | A
  · rfl
  · rfl
  · cases item with
    | value text => rfl
    | block B => exact absurd ⟨A, B, rfl, rfl⟩ other

theorem mergeLaw_merge {a b : Outline} (first : a.Distinct) (second : b.Distinct) :
    MergeLaw a b (a.merge b) := by
  induction b using body_induction generalizing a with
  | step b ih =>
    have under := fun k => get?_merge a b k second.nodup_keys
    refine .intro ?keys ?front ?back ?blocks ?inner ?otherwise
    case keys =>
      rw [keys_merge a b first.nodup_keys,
        eraseDups_append_of_nodup first.nodup_keys second.nodup_keys]
    case front =>
      intro k lacks
      rw [under, lacks]
    case back =>
      intro k lacks
      rw [under, lacks]
      cases b.get? k with
      | none => rfl
      | some item => rfl
    case blocks =>
      intro k A B inA inB
      rw [under, inA, inB]
      exact ⟨A.merge B, rfl⟩
    case inner =>
      intro k A B M inA inB merged
      obtain _ | distinctA := first.get? inA
      obtain _ | distinctB := second.get? inB
      obtain rfl : A.merge B = M := by simpa [under, inA, inB, Item.join] using merged
      exact ih k B inB distinctA distinctB
    case otherwise =>
      intro k item found other
      rw [under, found]
      simp only [join_of_not_blocks _ item other]

theorem MergeLaw.unique {a b m n : Outline} (law : MergeLaw a b m) (first : a.Distinct)
    (second : b.Distinct) (other : MergeLaw a b n) : m = n := by
  induction law generalizing n with
  | @intro a b m keys front back blocks inner otherwise ih =>
    obtain ⟨keys', front', back', blocks', inner', otherwise'⟩ := other
    apply ext_get?
    · rw [keys, ← eraseDups_append_of_nodup first.nodup_keys second.nodup_keys]
      exact nodup_eraseDups _
    · rw [keys, keys']
    · intro k
      rcases inB : b.get? k with _ | item
      · rw [front k inB, front' k inB]
      · by_cases both : ∃ A B, a.get? k = some (.block A) ∧ item = .block B
        · obtain ⟨A, B, inA, rfl⟩ := both
          obtain _ | distinctA := first.get? inA
          obtain _ | distinctB := second.get? inB
          obtain ⟨M, inM⟩ := blocks k A B inA inB
          obtain ⟨N, inN⟩ := blocks' k A B inA inB
          have same : M = N :=
            ih k A B M inA inB inM distinctA distinctB (inner' k A B N inA inB inN)
          rw [inM, inN, same]
        · rw [otherwise k item inB both, otherwise' k item inB both]

theorem MergeLaw.eq_merge {a b m : Outline} (law : MergeLaw a b m) (first : a.Distinct)
    (second : b.Distinct) : a.merge b = m :=
  (mergeLaw_merge first second).unique first second law

theorem mergeLaw_nil (a : Outline) : MergeLaw a nil a := by
  refine .intro ?_ ?_ ?_ ?_ ?_ ?_ <;> simp [keys, get?]

theorem nil_mergeLaw (a : Outline) : MergeLaw nil a a := by
  refine .intro ?_ ?_ ?_ ?_ ?_ ?_ <;> simp [keys, get?]

theorem mergeLaw_self (a : Outline) : MergeLaw a a a := by
  induction a using body_induction with
  | step a ih =>
    refine .intro ?keys ?front ?back ?blocks ?inner ?otherwise
    case keys =>
      have none_new : a.keys.filter (· ∉ a.keys) = [] := by simp
      rw [none_new, List.append_nil]
    case front => exact fun _ _ => rfl
    case back => exact fun _ _ => rfl
    case blocks => exact fun _ A _ here _ => ⟨A, here⟩
    case inner =>
      intro k A B M inA inB inM
      obtain rfl : A = B := by simpa [inA] using inB
      obtain rfl : A = M := by simpa [inA] using inM
      exact ih k A inA
    case otherwise => exact fun _ _ here _ => here

/-- The merge of two outlines is the one outline that follows the law; merging an outline into
itself, or the empty one on either side, changes nothing. -/
theorem merge_law {a b : Outline} (first : a.Distinct) (second : b.Distinct) :
    (∀ m, a.merge b = m ↔ MergeLaw a b m) ∧
      a.merge a = a ∧ a.merge nil = a ∧ nil.merge a = a := by
  refine ⟨?_, ?_, ?_, ?_⟩
  · intro m
    constructor
    · rintro rfl
      exact mergeLaw_merge first second
    · exact fun law => law.eq_merge first second
  · exact (mergeLaw_self a).eq_merge first first
  · exact (mergeLaw_nil a).eq_merge first .nil
  · exact (nil_mergeLaw a).eq_merge .nil first

theorem merge_law_layered :
    let a := block ".a" (value "color" "red" (value "margin" "0" nil))
      (block "@page" (value "size" "a4" nil) (value "@layer" "base" nil))
    let b := value "@page" "none" (block ".b" nil
      (block ".a" (value "margin" "1px" (value "width" "2px" nil)) nil))
    a.Distinct ∧ b.Distinct ∧
      MergeLaw a b (block ".a" (value "color" "red" (value "margin" "1px" (value "width" "2px" nil)))
        (value "@page" "none" (value "@layer" "base" (block ".b" nil nil)))) ∧
      a.merge a = a := by
  intro a b
  have first : a.Distinct :=
    .block (by decide) (.value (by decide) (.value (by decide) .nil))
      (.block (by decide) (.value (by decide) .nil) (.value (by decide) .nil))
  have second : b.Distinct :=
    .value (by decide) (.block (by decide) .nil
      (.block (by decide) (.value (by decide) (.value (by decide) .nil)) .nil))
  obtain ⟨only, self, -⟩ := merge_law first second
  exact ⟨first, second, (only _).1 (by decide), self⟩

end Outline

end CssOutline
