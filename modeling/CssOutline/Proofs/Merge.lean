import CssOutline.Outline
import Mathlib.Data.List.Dedup
import Mathlib.Data.List.Nodup

/-! What stands under each key after an insertion or a merge, and in which order.
A merge keeps the keys it finds and appends the new ones; two blocks under one key are merged,
and otherwise the incoming item stands there. Merging an outline is merging its entries one by
one, and outlines with distinct keys are exactly those that merging into nothing leaves as they
are. -/

namespace CssOutline

section FirstOccurrences

variable {α : Type _} [BEq α] [LawfulBEq α]

theorem eraseDups_of_nodup {xs : List α} (nodup : xs.Nodup) : xs.eraseDups = xs := by
  induction xs with
  | nil => rfl
  | cons x xs ih =>
    obtain ⟨new, nodup⟩ := List.nodup_cons.1 nodup
    have kept : xs.filter (fun y => !y == x) = xs := by
      apply List.filter_eq_self.2
      intro y found
      simpa using fun eq : y = x => new (eq ▸ found)
    rw [List.eraseDups_cons, kept, ih nodup]

theorem nodup_eraseDups (xs : List α) : xs.eraseDups.Nodup := by
  induction size : xs.length using Nat.strongRecOn generalizing xs with
  | ind n ih =>
    cases xs with
    | nil => simp
    | cons x xs =>
      have shorter := List.length_filter_le (fun y => !y == x) xs
      rw [List.eraseDups_cons, List.nodup_cons]
      constructor
      · simp [List.mem_eraseDups]
      · exact ih _ (by simp only [List.length_cons] at size; omega) _ rfl

omit [LawfulBEq α] in
theorem length_eraseDups_le (xs : List α) : xs.eraseDups.length ≤ xs.length := by
  induction size : xs.length using Nat.strongRecOn generalizing xs with
  | ind n ih =>
    cases xs with
    | nil => simp
    | cons x xs =>
      have shorter := List.length_filter_le (fun y => !y == x) xs
      rw [List.length_cons] at size
      have inner := ih _ (by omega) (xs.filter fun y => !y == x) rfl
      rw [List.eraseDups_cons, List.length_cons]
      omega

theorem nodup_of_length_eraseDups (xs : List α) (whole : xs.length ≤ xs.eraseDups.length) :
    xs.Nodup := by
  induction xs with
  | nil => exact List.nodup_nil
  | cons x xs ih =>
    have shorter := List.length_filter_le (fun y => !y == x) xs
    have erased := length_eraseDups_le (xs.filter fun y => !y == x)
    rw [List.eraseDups_cons, List.length_cons, List.length_cons] at whole
    have kept : xs.filter (fun y => !y == x) = xs :=
      List.filter_sublist.eq_of_length (by omega)
    have new : x ∉ xs := by
      intro found
      rw [← kept] at found
      simp at found
    rw [kept] at whole
    exact List.nodup_cons.2 ⟨new, ih (by omega)⟩

theorem filter_eraseDups (p : α → Bool) (xs : List α) :
    xs.eraseDups.filter p = (xs.filter p).eraseDups := by
  induction size : xs.length using Nat.strongRecOn generalizing xs with
  | ind n ih =>
    cases xs with
    | nil => simp
    | cons x xs =>
      have shorter := List.length_filter_le (fun y => !y == x) xs
      have inner := ih _ (by simp only [List.length_cons] at size; omega)
        (xs.filter fun y => !y == x) rfl
      rw [List.eraseDups_cons]
      by_cases keep : p x
      · rw [List.filter_cons_of_pos keep, List.filter_cons_of_pos keep, List.eraseDups_cons, inner]
        simp only [List.filter_filter, Bool.and_comm]
      · rw [List.filter_cons_of_neg keep, List.filter_cons_of_neg keep, inner, List.filter_filter]
        congr 1
        apply List.filter_congr
        intro y _
        by_cases same : y = x
        · simp [same, keep]
        · simp [same]

/-- The first occurrences in two lists on end are those of the lists of first occurrences. -/
theorem eraseDups_append_eraseDups (xs ys : List α) :
    (xs.eraseDups ++ ys.eraseDups).eraseDups = (xs ++ ys).eraseDups := by
  have removed : ys.eraseDups.removeAll xs.eraseDups = (ys.removeAll xs).eraseDups := by
    simp only [List.removeAll, ← filter_eraseDups]
    apply List.filter_congr
    intro y _
    simp [List.mem_eraseDups]
  rw [List.eraseDups_append, List.eraseDups_append, removed,
    eraseDups_of_nodup (nodup_eraseDups xs), eraseDups_of_nodup (nodup_eraseDups _)]

theorem nodup_extended {xs : List α} (nodup : xs.Nodup) (x : α) :
    (if x ∈ xs then xs else xs ++ [x]).Nodup := by
  split
  · exact nodup
  · rename_i new
    exact List.concat_eq_append ▸ nodup.concat new

theorem eraseDups_extended (xs : List α) (x : α) (ys : List α) :
    ((if x ∈ xs then xs else xs ++ [x]) ++ ys).eraseDups = (xs ++ x :: ys).eraseDups := by
  split
  · rename_i found
    simp [List.eraseDups_append, List.removeAll, found]
  · simp

end FirstOccurrences

namespace Outline

/-- Keys differ on every level. -/
inductive Distinct : Outline → Prop
  | nil : Distinct nil
  | value {key text : String} {rest : Outline} (new : key ∉ rest.keys) (later : Distinct rest) :
    Distinct (value key text rest)
  | block {key : String} {body rest : Outline} (new : key ∉ rest.keys) (inner : Distinct body)
    (later : Distinct rest) : Distinct (block key body rest)

end Outline

def Item.join : Option Item → Item → Item
  | some (.block body), .block incoming => .block (body.merge incoming)
  | _, item => item

namespace Outline

@[simp] theorem keys_cons (k : String) (item : Item) (d : Outline) :
    (cons k item d).keys = k :: d.keys := by
  cases item <;> rfl

@[simp] theorem get?_cons (k j : String) (item : Item) (d : Outline) :
    (cons k item d).get? j = if k = j then some item else d.get? j := by
  cases item <;> rfl

theorem get?_eq_none_iff (d : Outline) (k : String) : d.get? k = none ↔ k ∉ d.keys := by
  induction d with
  | nil => simp [get?, keys]
  | value key text rest ih =>
    by_cases same : key = k
    · simp [get?, keys, same]
    · simp [get?, keys, same, Ne.symm same, ih]
  | block key body rest _ ih =>
    by_cases same : key = k
    · simp [get?, keys, same]
    · simp [get?, keys, same, Ne.symm same, ih]

theorem keys_insert (k : String) (item : Item) (d : Outline) :
    (d.insert k item).keys = if k ∈ d.keys then d.keys else d.keys ++ [k] := by
  induction d with
  | nil => simp [insert, keys]
  | value key text rest ih =>
    by_cases same : key = k
    · simp [insert, keys, same]
    · simp only [insert, same, ↓reduceIte, keys, ih, List.mem_cons, Ne.symm same, false_or]
      split <;> simp
  | block key body rest _ ih =>
    by_cases same : key = k
    · simp [insert, keys, same]
    · simp only [insert, same, ↓reduceIte, keys, ih, List.mem_cons, Ne.symm same, false_or]
      split <;> simp

theorem get?_insert (k j : String) (item : Item) (d : Outline) :
    (d.insert k item).get? j = if k = j then some item else d.get? j := by
  induction d with
  | nil => simp [insert, get?]
  | value key text rest ih =>
    by_cases same : key = k
    · subst same
      by_cases found : key = j <;> simp [insert, get?, found]
    · by_cases found : key = j
      · subst found
        simp [insert, get?, same, Ne.symm same]
      · simp [insert, get?, same, found, ih]
  | block key body rest _ ih =>
    by_cases same : key = k
    · subst same
      by_cases found : key = j <;> simp [insert, get?, found]
    · by_cases found : key = j
      · subst found
        simp [insert, get?, same, Ne.symm same]
      · simp [insert, get?, same, found, ih]

theorem putBlock_eq_insert (d : Outline) (k : String) (new : Outline) (join : Outline → Outline) :
    d.putBlock k new join = d.insert k (.block
      (match d.get? k with
      | some (.block body) => join body
      | _ => new)) := by
  induction d with
  | nil => rfl
  | value key text rest ih =>
    by_cases same : key = k
    · simp [putBlock, insert, get?, same, cons]
    · simp only [putBlock, insert, get?, same, ↓reduceIte, ih]
  | block key body rest _ ih =>
    by_cases same : key = k
    · simp [putBlock, insert, get?, same, cons]
    · simp only [putBlock, insert, get?, same, ↓reduceIte, ih]

theorem mergeItem_eq_insert (d : Outline) (k : String) (item : Item) :
    d.mergeItem k item = d.insert k (Item.join (d.get? k) item) := by
  cases item with
  | value text => rcases d.get? k with _ | _ | _ <;> rfl
  | block body =>
    rw [mergeItem, putBlock_eq_insert]
    rcases d.get? k with _ | _ | _ <;> rfl

theorem keys_mergeItem (d : Outline) (k : String) (item : Item) :
    (d.mergeItem k item).keys = if k ∈ d.keys then d.keys else d.keys ++ [k] := by
  rw [mergeItem_eq_insert, keys_insert]

theorem get?_mergeItem (d : Outline) (k j : String) (item : Item) :
    (d.mergeItem k item).get? j =
      if k = j then some (Item.join (d.get? k) item) else d.get? j := by
  rw [mergeItem_eq_insert, get?_insert]

def mergeAll (d : Outline) (es : List (String × Item)) : Outline :=
  es.foldl (fun d e => d.mergeItem e.1 e.2) d

@[simp] theorem mergeAll_nil (d : Outline) : d.mergeAll [] = d := rfl

@[simp] theorem mergeAll_cons (d : Outline) (e : String × Item) (es : List (String × Item)) :
    d.mergeAll (e :: es) = (d.mergeItem e.1 e.2).mergeAll es := rfl

theorem mergeAll_append (d : Outline) (es fs : List (String × Item)) :
    d.mergeAll (es ++ fs) = (d.mergeAll es).mergeAll fs := by
  simp [mergeAll]

theorem mergeInto_eq_mergeAll (e d : Outline) : e.mergeInto d = d.mergeAll e.entries := by
  induction e generalizing d with
  | nil => rfl
  | value key text rest ih => rw [mergeInto, ih]; rfl
  | block key body rest _ ih => rw [mergeInto, ih]; rfl

/-- The keys of a merge are those in front and the new ones, each once. -/
theorem keys_mergeAll (d : Outline) (es : List (String × Item)) (nodup : d.keys.Nodup) :
    (d.mergeAll es).keys = (d.keys ++ es.map Prod.fst).eraseDups := by
  induction es generalizing d with
  | nil => simp [eraseDups_of_nodup nodup]
  | cons e es ih =>
    rw [mergeAll_cons, ih _ (keys_mergeItem d e.1 e.2 ▸ nodup_extended nodup e.1), keys_mergeItem,
      eraseDups_extended, List.map_cons]

theorem keys_merge (d e : Outline) (nodup : d.keys.Nodup) :
    (d.merge e).keys = (d.keys ++ e.keys).eraseDups := by
  rw [merge, mergeInto_eq_mergeAll, keys_mergeAll d _ nodup, keys_eq_map_entries e]

theorem merge_cons (d : Outline) (k : String) (item : Item) (rest : Outline) :
    d.merge (cons k item rest) = (d.mergeItem k item).merge rest := by
  cases item <;> rfl

theorem cons_induction {motive : Outline → Prop} (nil : motive nil)
    (cons : ∀ k item rest, motive rest → motive (cons k item rest)) (d : Outline) : motive d := by
  induction d with
  | nil => exact nil
  | value key text rest ih => exact cons key (.value text) rest ih
  | block key body rest _ ih => exact cons key (.block body) rest ih

/-- Under each key a merge leaves what the outline in front has there, joined with the incoming
item if there is one. -/
theorem get?_merge (d e : Outline) (k : String) (nodup : e.keys.Nodup) :
    (d.merge e).get? k =
      match e.get? k with
      | none => d.get? k
      | some item => some (Item.join (d.get? k) item) := by
  induction e using cons_induction generalizing d with
  | nil => rfl
  | cons key item rest ih =>
    rw [keys_cons, List.nodup_cons] at nodup
    rw [merge_cons, ih _ nodup.2, get?_cons, get?_mergeItem]
    by_cases same : key = k
    · subst same
      have absent := (get?_eq_none_iff rest key).2 nodup.1
      simp [absent]
    · simp [same]

theorem entries_injective {d e : Outline} (same : d.entries = e.entries) : d = e := by
  induction d using cons_induction generalizing e with
  | nil => cases e <;> simp_all [entries]
  | cons k item rest ih =>
    cases e with
    | nil => simp [entries] at same
    | value key text rest' =>
      simp only [entries_cons, entries, List.cons.injEq, Prod.mk.injEq] at same
      obtain ⟨⟨rfl, rfl⟩, same⟩ := same
      rw [ih same]
      rfl
    | block key body rest' =>
      simp only [entries_cons, entries, List.cons.injEq, Prod.mk.injEq] at same
      obtain ⟨⟨rfl, rfl⟩, same⟩ := same
      rw [ih same]
      rfl

theorem entries_insert_new (d : Outline) (k : String) (item : Item) (new : k ∉ d.keys) :
    (d.insert k item).entries = d.entries ++ [(k, item)] := by
  induction d with
  | nil => simp [insert, entries]
  | value key text rest ih =>
    simp only [keys, List.mem_cons, not_or] at new
    simp [insert, entries, Ne.symm new.1, ih new.2]
  | block key body rest _ ih =>
    simp only [keys, List.mem_cons, not_or] at new
    simp [insert, entries, Ne.symm new.1, ih new.2]

def insertAll (d : Outline) (es : List (String × Item)) : Outline :=
  es.foldl (fun d e => d.insert e.1 e.2) d

theorem entries_insertAll (d : Outline) (es : List (String × Item))
    (nodup : (d.keys ++ es.map Prod.fst).Nodup) :
    (d.insertAll es).entries = d.entries ++ es := by
  induction es generalizing d with
  | nil => simp [insertAll]
  | cons e es ih =>
    have new : e.1 ∉ d.keys := by
      intro found
      exact (List.nodup_append.1 nodup).2.2 _ found _ (by simp) rfl
    rw [insertAll, List.foldl_cons, ← insertAll, ih]
    · rw [entries_insert_new d e.1 e.2 new, List.append_assoc]
      rfl
    · rw [keys_insert, if_neg new]
      simpa using nodup

theorem mergeAll_eq_insertAll (d : Outline) (es : List (String × Item))
    (nodup : (d.keys ++ es.map Prod.fst).Nodup) : d.mergeAll es = d.insertAll es := by
  induction es generalizing d with
  | nil => rfl
  | cons e es ih =>
    have new : e.1 ∉ d.keys := by
      intro found
      exact (List.nodup_append.1 nodup).2.2 _ found _ (by simp) rfl
    have alone : d.mergeItem e.1 e.2 = d.insert e.1 e.2 := by
      rw [mergeItem_eq_insert, (get?_eq_none_iff d e.1).2 new]
      cases e.2 <;> rfl
    rw [mergeAll_cons, alone, ih]
    · rfl
    · rw [keys_insert, if_neg new]
      simpa using nodup

theorem insertAll_entries {d : Outline} (nodup : d.keys.Nodup) : nil.insertAll d.entries = d := by
  apply entries_injective
  rw [entries_insertAll]
  · rfl
  · rw [← keys_eq_map_entries]
    exact nodup

theorem mergeAll_entries {d : Outline} (nodup : d.keys.Nodup) : nil.mergeAll d.entries = d := by
  rw [mergeAll_eq_insertAll, insertAll_entries nodup]
  rw [← keys_eq_map_entries]
  exact nodup

theorem mergeAll_eq_iff {d : Outline} (nodup : d.keys.Nodup) {es : List (String × Item)}
    (few : es.length ≤ d.entries.length) : nil.mergeAll es = d ↔ es = d.entries := by
  constructor
  · intro merged
    have keys : (es.map Prod.fst).eraseDups = d.keys := by
      rw [← merged, keys_mergeAll nil es List.nodup_nil]
      rfl
    have length : d.entries.length = d.keys.length := by
      rw [keys_eq_map_entries, List.length_map]
    have distinct : (es.map Prod.fst).Nodup := by
      apply nodup_of_length_eraseDups
      rw [keys, List.length_map, ← length]
      exact few
    rw [mergeAll_eq_insertAll nil es distinct] at merged
    rw [← merged, entries_insertAll nil es distinct]
    rfl
  · rintro rfl
    exact mergeAll_entries nodup

theorem Distinct.nodup_keys {d : Outline} (distinct : d.Distinct) : d.keys.Nodup := by
  induction distinct with
  | nil => exact List.nodup_nil
  | value new _ ih => exact List.nodup_cons.2 ⟨new, ih⟩
  | block new _ _ _ ih => exact List.nodup_cons.2 ⟨new, ih⟩

/-- Every entry satisfies `P` with its level, its key and its text, which a block has not. -/
inductive Every (P : Nat → String → Option String → Prop) : Nat → Outline → Prop
  | nil {level : Nat} : Every P level nil
  | value {level : Nat} {key text : String} {rest : Outline} (here : P level key (some text))
    (later : Every P level rest) : Every P level (value key text rest)
  | block {level : Nat} {key : String} {body rest : Outline} (here : P level key none)
    (inner : Every P (level + 1) body) (later : Every P level rest) :
    Every P level (block key body rest)

end Outline

inductive Item.Every (P : Nat → String → Option String → Prop) (level : Nat) (key : String) :
    Item → Prop
  | value {text : String} (here : P level key (some text)) : Item.Every P level key (.value text)
  | block {body : Outline} (here : P level key none) (inner : body.Every P (level + 1)) :
    Item.Every P level key (.block body)

/-- The block of an item has distinct keys. -/
inductive Item.Distinct : Item → Prop
  | value {text : String} : Item.Distinct (.value text)
  | block {body : Outline} (inner : body.Distinct) : Item.Distinct (.block body)

namespace Outline

theorem every_cons (P : Nat → String → Option String → Prop) (level : Nat) (k : String)
    (item : Item) (rest : Outline) :
    (cons k item rest).Every P level ↔ item.Every P level k ∧ rest.Every P level := by
  cases item with
  | value text =>
    constructor
    · rintro (_ | ⟨here, later⟩)
      exact ⟨.value here, later⟩
    · rintro ⟨⟨here⟩, later⟩
      exact .value here later
  | block body =>
    constructor
    · rintro (_ | _ | ⟨here, inner, later⟩)
      exact ⟨.block here inner, later⟩
    · rintro ⟨_ | ⟨here, inner⟩, later⟩
      exact .block here inner later

theorem distinct_cons (k : String) (item : Item) (rest : Outline) :
    (cons k item rest).Distinct ↔ k ∉ rest.keys ∧ item.Distinct ∧ rest.Distinct := by
  cases item with
  | value text =>
    constructor
    · rintro (_ | ⟨new, later⟩)
      exact ⟨new, .value, later⟩
    · rintro ⟨new, _, later⟩
      exact .value new later
  | block body =>
    constructor
    · rintro (_ | _ | ⟨new, inner, later⟩)
      exact ⟨new, .block inner, later⟩
    · rintro ⟨new, _ | inner, later⟩
      exact .block new inner later

theorem insert_cons (k key : String) (new item : Item) (rest : Outline) :
    (cons key item rest).insert k new =
      if key = k then cons k new rest else cons key item (rest.insert k new) := by
  cases item <;> rfl

theorem Every.insert {P : Nat → String → Option String → Prop} {level : Nat} {d : Outline}
    (every : d.Every P level) (k : String) (item : Item) (new : item.Every P level k) :
    (d.insert k item).Every P level := by
  induction d using cons_induction with
  | nil => exact (every_cons P level k item .nil).2 ⟨new, .nil⟩
  | cons key old rest ih =>
    obtain ⟨here, later⟩ := (every_cons P level key old rest).1 every
    rw [insert_cons]
    split
    · exact (every_cons P level k item rest).2 ⟨new, later⟩
    · exact (every_cons P level key old _).2 ⟨here, ih later⟩

theorem Distinct.insert {d : Outline} (distinct : d.Distinct) (k : String) (item : Item)
    (new : item.Distinct) : (d.insert k item).Distinct := by
  induction d using cons_induction with
  | nil => exact (distinct_cons k item .nil).2 ⟨List.not_mem_nil, new, .nil⟩
  | cons key old rest ih =>
    obtain ⟨other, here, later⟩ := (distinct_cons key old rest).1 distinct
    rw [insert_cons]
    split
    · rename_i same
      exact (distinct_cons k item rest).2 ⟨same ▸ other, new, later⟩
    · rename_i different
      refine (distinct_cons key old _).2 ⟨?_, here, ih later⟩
      rw [keys_insert]
      split
      · exact other
      · simp [other, different]

theorem Every.get? {P : Nat → String → Option String → Prop} {level : Nat} {d : Outline}
    (every : d.Every P level) {k : String} {item : Item} (found : d.get? k = some item) :
    item.Every P level k := by
  induction d using cons_induction with
  | nil => simp [Outline.get?] at found
  | cons key old rest ih =>
    obtain ⟨here, later⟩ := (every_cons P level key old rest).1 every
    rw [get?_cons] at found
    split at found
    · rename_i same
      exact same ▸ Option.some.inj found ▸ here
    · exact ih later found

theorem Distinct.get? {d : Outline} (distinct : d.Distinct) {k : String} {item : Item}
    (found : d.get? k = some item) : item.Distinct := by
  induction d using cons_induction with
  | nil => simp [Outline.get?] at found
  | cons key old rest ih =>
    obtain ⟨_, here, later⟩ := (distinct_cons key old rest).1 distinct
    rw [get?_cons] at found
    split at found
    · exact Option.some.inj found ▸ here
    · exact ih later found

theorem Every.mergeInto {P : Nat → String → Option String → Prop} {level : Nat}
    {e : Outline} (incoming : e.Every P level) {d : Outline} (every : d.Every P level) :
    (e.mergeInto d).Every P level := by
  induction incoming generalizing d with
  | nil => exact every
  | value here _ ih => exact ih (every.insert _ _ (.value here))
  | block here inner _ below ih =>
    apply ih
    rw [putBlock_eq_insert]
    apply every.insert _ _ (.block here _)
    split
    · rename_i old found
      obtain _ | ⟨_, old⟩ := every.get? found
      exact below old
    · exact inner

theorem Distinct.mergeInto {e d : Outline} (incoming : e.Distinct) (distinct : d.Distinct) :
    (e.mergeInto d).Distinct := by
  induction incoming generalizing d with
  | nil => exact distinct
  | value _ _ ih => exact ih (distinct.insert _ _ .value)
  | block _ inner _ below ih =>
    apply ih
    rw [putBlock_eq_insert]
    apply distinct.insert _ _ (.block _)
    split
    · rename_i old found
      obtain _ | old := distinct.get? found
      exact below old
    · exact inner

theorem Every.mergeItem {P : Nat → String → Option String → Prop} {level : Nat} {d : Outline}
    (every : d.Every P level) (k : String) (item : Item) (new : item.Every P level k) :
    (d.mergeItem k item).Every P level := by
  rw [mergeItem_eq_mergeInto]
  exact Every.mergeInto ((every_cons P level k item .nil).2 ⟨new, .nil⟩) every

theorem Distinct.mergeItem {d : Outline} (distinct : d.Distinct) (k : String) (item : Item)
    (new : item.Distinct) : (d.mergeItem k item).Distinct := by
  rw [mergeItem_eq_mergeInto]
  exact Distinct.mergeInto ((distinct_cons k item .nil).2 ⟨List.not_mem_nil, new, .nil⟩) distinct

end Outline

end CssOutline
