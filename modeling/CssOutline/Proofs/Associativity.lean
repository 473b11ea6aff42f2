import CssOutline.Proofs.Contributions
import CssOutline.Proofs.Entries

/-! Merging three outlines in either order. Where a block, a value and a block meet under one key,
the value hides the first block from the last if it is merged first, and only there the two orders
can differ. The parts of a style sheet can be decoded by themselves and merged, as long as no path
receives a value and a block. -/

namespace CssOutline

namespace Outline

theorem sizeOf_body_lt {d body : Outline} {k : String} (found : d.get? k = some (.block body)) :
    sizeOf body < sizeOf d := by
  induction d with
  | nil => simp [get?] at found
  | value key text rest ih =>
    by_cases same : key = k
    · simp [get?, same] at found
    · have inner := ih (by simpa [get?, same] using found)
      simp only [value.sizeOf_spec]
      omega
  | block key inner rest _ ih =>
    by_cases same : key = k
    · obtain rfl : inner = body := by simpa [get?, same] using found
      simp only [block.sizeOf_spec]
      omega
    · have inner := ih (by simpa [get?, same] using found)
      simp only [block.sizeOf_spec]
      omega

theorem body_induction {motive : Outline → Prop}
    (step : ∀ d, (∀ k body, d.get? k = some (.block body) → motive body) → motive d) (d : Outline) :
    motive d := by
  induction size : sizeOf d using Nat.strongRecOn generalizing d with
  | ind n ih =>
    subst size
    exact step d fun k body found => ih _ (sizeOf_body_lt found) body rfl

theorem ext_get? {d e : Outline} (nodup : d.keys.Nodup) (keys : d.keys = e.keys)
    (items : ∀ k, d.get? k = e.get? k) : d = e := by
  induction d using cons_induction generalizing e with
  | nil => cases e <;> simp_all [Outline.keys]
  | cons k item rest ih =>
    induction e using cons_induction with
    | nil => simp [Outline.keys] at keys
    | cons k' item' rest' _ =>
      rw [keys_cons, keys_cons, List.cons.injEq] at keys
      obtain ⟨rfl, later⟩ := keys
      rw [keys_cons, List.nodup_cons] at nodup
      have here := items k
      rw [get?_cons, get?_cons, if_pos rfl, if_pos rfl, Option.some.injEq] at here
      have same : rest = rest' := by
        apply ih nodup.2 later
        intro j
        by_cases first : k = j
        · subst first
          rw [(get?_eq_none_iff rest k).2 nodup.1, (get?_eq_none_iff rest' k).2 (later ▸ nodup.1)]
        · have other := items j
          rwa [get?_cons, get?_cons, if_neg first, if_neg first] at other
      rw [here, same]

theorem Distinct.merge {d e : Outline} (front : d.Distinct) (back : e.Distinct) :
    (d.merge e).Distinct :=
  back.mergeInto front

theorem keys_merge_assoc {a b c : Outline} (first : a.Distinct) (second : b.Distinct)
    (third : c.Distinct) : ((a.merge b).merge c).keys = (a.merge (b.merge c)).keys := by
  calc ((a.merge b).merge c).keys
      = ((a.keys ++ b.keys).eraseDups ++ c.keys.eraseDups).eraseDups := by
        rw [keys_merge _ c (first.merge second).nodup_keys, keys_merge a b first.nodup_keys,
          eraseDups_of_nodup third.nodup_keys]
    _ = (a.keys.eraseDups ++ (b.keys ++ c.keys).eraseDups).eraseDups := by
        rw [eraseDups_append_eraseDups, eraseDups_append_eraseDups, List.append_assoc]
    _ = (a.merge (b.merge c)).keys := by
        rw [keys_merge a _ first.nodup_keys, keys_merge b c second.nodup_keys,
          eraseDups_of_nodup first.nodup_keys]

/-- A block, a value and a block meet at a path: the only place where the order of merging
matters. Up to there all three outlines hold blocks. -/
def Hides (a b c : Outline) (path : List String) (first last : Outline) : Prop :=
  a.at? path = some (.block first) ∧ (∃ text, b.at? path = some (.value text)) ∧
    c.at? path = some (.block last)

theorem at?_single (d : Outline) (k : String) : d.at? [k] = d.get? k := by
  rcases found : d.get? k with _ | _ | _ <;> simp [at?, found]

theorem hides_cons {a b c A B C : Outline} {k : String} (first : a.get? k = some (.block A))
    (second : b.get? k = some (.block B)) (third : c.get? k = some (.block C))
    (path : List String) (X Z : Outline) :
    Hides a b c (k :: path) X Z ↔ Hides A B C path X Z := by
  simp [Hides, at?, first, second, third]

theorem merge_assoc_iff {a b c : Outline} (first : a.Distinct) (second : b.Distinct)
    (third : c.Distinct) :
    (a.merge b).merge c = a.merge (b.merge c) ↔
      ∀ path A C, Hides a b c path A C → A.merge C = C := by
  induction c using body_induction generalizing a b with
  | step c ih =>
    -- Under one key the items decide; only three blocks lead further down.
    have under : ∀ k, ((a.merge b).merge c).get? k = (a.merge (b.merge c)).get? k ↔
        ∀ path A C, Hides a b c (k :: path) A C → A.merge C = C := by
      intro k
      rw [get?_merge _ c k third.nodup_keys, get?_merge a b k second.nodup_keys,
        get?_merge a _ k (second.merge third).nodup_keys, get?_merge b c k third.nodup_keys]
      rcases inA : a.get? k with _ | _ | A <;> rcases inB : b.get? k with _ | text | B <;>
        rcases inC : c.get? k with _ | _ | C
      case some.block.some.value.some.block =>
        have only : ∀ path X Z, Hides a b c (k :: path) X Z ↔ path = [] ∧ A = X ∧ C = Z := by
          intro path X Z
          by_cases root : path = []
          · simp [Hides, at?, inA, inB, inC, root]
          · simp [Hides, at?, inB, root]
        simp [Item.join, only, eq_comm]
      case some.block.some.block.some.block =>
        obtain _ | distinctA := first.get? inA
        obtain _ | distinctB := second.get? inB
        obtain _ | distinctC := third.get? inC
        simpa [Item.join, hides_cons inA inB inC] using ih k C inC distinctA distinctB distinctC
      all_goals simp [Item.join, Hides, at?, inA, inB, inC]
    constructor
    · intro same path A C hides
      cases path with
      | nil => simp [Hides, at?] at hides
      | cons k path => exact (under k).1 (by rw [same]) path A C hides
    · intro taken
      apply ext_get? ((first.merge second).merge third).nodup_keys (keys_merge_assoc first second third)
      exact fun k => (under k).2 fun path A C hides => taken _ A C hides

example :
    let a := Outline.block "k" (.value "x" "1" .nil) .nil
    let b := Outline.value "k" "v" .nil
    let c := Outline.block "k" (.value "y" "2" .nil) .nil
    (a.merge b).merge c = c ∧
      a.merge (b.merge c) = .block "k" (.value "x" "1" (.value "y" "2" .nil)) .nil := by
  decide

end Outline

namespace Contribution

theorem Models.unique {cs : List Contribution} {d e : Outline} (first : Models cs d)
    (second : Models cs e) : d = e := by
  induction d using Outline.body_induction generalizing cs e with
  | step d ih =>
    have keys : d.keys = e.keys := by rw [(first []).keys d rfl, (second []).keys e rfl]
    apply Outline.ext_get? first.nodup_keys keys
    intro k
    cases inD : d.get? k with
    | none =>
      rw [Outline.get?_eq_none_iff, keys, ← Outline.get?_eq_none_iff] at inD
      rw [inD]
    | some item =>
      cases item with
      | value text =>
        have last := ((first [k]).value (by simp) text).1 (by rw [Outline.at?_single, inD])
        have found := ((second [k]).value (by simp) text).2 last
        rw [← found, Outline.at?_single]
      | block body =>
        obtain ⟨body', found⟩ := ((second [k]).block (by simp)).2 (first.block_mem inD)
        rw [Outline.at?_single] at found
        rw [found, ih k body inD (first.below inD) (second.below found)]

end Contribution

open Contribution

theorem outlineOf_append {front back : List Rule}
    (consistent : Consistent (sheetContributions (front ++ back))) :
    outlineOf (front ++ back) = (outlineOf front).merge (outlineOf back) := by
  have whole := models_outlineOf (front ++ back) consistent
  rw [sheetContributions, List.flatMap_append] at whole consistent
  have first := models_outlineOf front (consistent.mono (List.subset_append_left _ _))
  have second := models_outlineOf back (consistent.mono (List.subset_append_right _ _))
  exact whole.unique (first.merge second consistent)

/-- Three outlines merge alike in both orders unless a value in the second stands, at some path,
between a block of the first and a block of the third; and two lists of rules that give no path
both a value and a block can be turned into outlines one by one. -/
theorem merge_assoc_of_not_hides :
    (∀ a b c : Outline, a.Distinct → b.Distinct → c.Distinct →
      (∀ path A C, ¬Outline.Hides a b c path A C) →
      (a.merge b).merge c = a.merge (b.merge c)) ∧
    ∀ front back : List Rule, Consistent (sheetContributions (front ++ back)) →
      outlineOf (front ++ back) = (outlineOf front).merge (outlineOf back) := by
  refine ⟨?_, fun front back => outlineOf_append⟩
  intro a b c first second third free
  rw [Outline.merge_assoc_iff first second third]
  exact fun path A C hides => absurd hides (free path A C)

def layered (first second : String) : Outline :=
  .block "m" (.value "x" first (.block "n" (.value "y" second .nil) .nil)) .nil

theorem not_hides_layered (path : List String) (A C : Outline) :
    ¬Outline.Hides (layered "1" "2") (.block "m" (.value "x" "3" .nil) .nil) (layered "4" "5")
      path A C := by
  rintro ⟨first, ⟨text, second⟩, -⟩
  rcases path with _ | ⟨k, _ | ⟨j, path⟩⟩
  · simp [Outline.at?] at second
  · by_cases m : "m" = k <;> simp [Outline.at?, Outline.get?, m] at second
  · by_cases m : "m" = k <;> by_cases x : "x" = j <;>
      simp_all [layered, Outline.at?, Outline.get?]

theorem merge_assoc_of_not_hides_layered :
    (layered "1" "2").Distinct ∧ (layered "4" "5").Distinct ∧
    ((layered "1" "2").merge (.block "m" (.value "x" "3" .nil) .nil)).merge (layered "4" "5") =
      (layered "1" "2").merge
        (Outline.merge (.block "m" (.value "x" "3" .nil) .nil) (layered "4" "5")) ∧
    Consistent (sheetContributions (scatteredRules ++ scatteredRules)) ∧
    outlineOf (scatteredRules ++ scatteredRules) =
      (outlineOf scatteredRules).merge (outlineOf scatteredRules) := by
  have layeredDistinct : ∀ first second, (layered first second).Distinct := by
    intro first second
    refine .block (by simp [Outline.keys]) (.value ?_ (.block ?_ (.value ?_ .nil) .nil)) .nil
    all_goals simp [Outline.keys]
  have middle : (Outline.block "m" (.value "x" "3" .nil) .nil).Distinct :=
    .block (by simp [Outline.keys]) (.value (by simp [Outline.keys]) .nil) .nil
  have consistent : Consistent (sheetContributions (scatteredRules ++ scatteredRules)) := by
    decide +kernel
  obtain ⟨assoc, split⟩ := merge_assoc_of_not_hides
  exact ⟨layeredDistinct _ _, layeredDistinct _ _,
    assoc _ _ _ (layeredDistinct _ _) middle (layeredDistinct _ _) not_hides_layered,
    consistent, split _ _ consistent⟩

end CssOutline
