import CssOutline.Decode
import CssOutline.Proofs.Merge

/-! The outline of a style sheet read off its parts. Every part contributes a block or a value at
a path of keys; unless some path receives both, the outline holds a block where a block was
contributed, the last of the values where values were, and keys in the order in which they first
appear. Bodies are turned into outlines of their own before they are merged, so the statement is
carried through merges of whole outlines, path by path. -/

namespace CssOutline

/-- What is contributed at a path. -/
inductive Mark where
  | block
  | value (text : String)
deriving DecidableEq, Repr

structure Contribution where
  path : List String
  mark : Mark
deriving DecidableEq, Repr

namespace Contribution

def within (key : String) (c : Contribution) : Contribution :=
  ⟨key :: c.path, c.mark⟩

def ofBlock (key : String) (inner : List Contribution) : List Contribution :=
  ⟨[key], .block⟩ :: inner.map (within key)

def text? (path : List String) (c : Contribution) : Option String :=
  match c.mark with
  | .block => none
  | .value text => if c.path = path then some text else none

/-- The values at a path, in source order. -/
def texts (path : List String) (cs : List Contribution) : List String :=
  cs.filterMap (text? path)

def key? (path : List String) (c : Contribution) : Option String :=
  if c.path.dropLast = path then c.path.getLast? else none

/-- The keys right below a path, in source order. -/
def keysBelow (path : List String) (cs : List Contribution) : List String :=
  cs.filterMap (key? path)

/-- No path receives both a block and a value. -/
def Consistent (cs : List Contribution) : Prop :=
  ∀ path text, ⟨path, .block⟩ ∈ cs → ⟨path, .value text⟩ ∉ cs

theorem consistent_iff (cs : List Contribution) :
    Consistent cs ↔ ∀ c ∈ cs, ∀ e ∈ cs, c.path = e.path → c.mark = .block → e.mark = .block := by
  constructor
  · rintro consistent ⟨path, mark⟩ first ⟨path', mark'⟩ second same block
    simp only at same block
    subst same block
    cases mark' with
    | block => rfl
    | value text => exact absurd second (consistent path text first)
  · intro alike path text block value
    simpa using alike _ block _ value rfl rfl

instance (cs : List Contribution) : Decidable (Consistent cs) :=
  decidable_of_iff _ (consistent_iff cs).symm

end Contribution

open Contribution

mutual

/-- What a rule contributes to the outline it is added to. -/
def Rule.contributions : Rule → List Contribution
  | .style _ head body => ofBlock head.render (contributionsOf body)
  | .atRule _ name clause body => body.contributions (atKey name clause)
  | .unrecognized _ _ _ => []

def AtBody.contributions (key : String) : AtBody → List Contribution
  | .none => [⟨[key], .value ""⟩]
  | .members list => ofBlock key (contributionsOf list)
  | .verbatim text =>
    ofBlock key (if verbatimBody text = "" then [] else [⟨[key], .value (verbatimBody text)⟩])

def Member.contributions : Member → List Contribution
  | .declaration d => [⟨[d.entry.1], .value d.entry.2⟩]
  | .rule rule => rule.contributions

def contributionsOf : List Member → List Contribution
  | [] => []
  | m :: ms => m.contributions ++ contributionsOf ms

end

/-- What stands at a path of keys. -/
def Outline.at? : List String → Outline → Option Item
  | [], d => some (.block d)
  | k :: path, d =>
    match d.get? k with
    | none => none
    | some (.value text) => if path = [] then some (.value text) else none
    | some (.block body) => body.at? path

namespace Contribution

structure Describes (cs : List Contribution) (path : List String) (found : Option Item) :
    Prop where
  block : path ≠ [] → ((∃ body, found = some (.block body)) ↔ ⟨path, .block⟩ ∈ cs)
  value : path ≠ [] → ∀ text, found = some (.value text) ↔ (texts path cs).getLast? = some text
  keys : ∀ body, found = some (.block body) → body.keys = (keysBelow path cs).eraseDups

def Models (cs : List Contribution) (d : Outline) : Prop :=
  ∀ path, Describes cs path (d.at? path)

theorem mem_texts {path : List String} {text : String} {cs : List Contribution} :
    text ∈ texts path cs ↔ ⟨path, .value text⟩ ∈ cs := by
  simp only [texts, List.mem_filterMap]
  constructor
  · rintro ⟨⟨p, mark⟩, found, eq⟩
    cases mark with
    | block => simp [text?] at eq
    | value t =>
      simp only [text?, Option.ite_none_right_eq_some, Option.some.injEq] at eq
      obtain ⟨rfl, rfl⟩ := eq
      exact found
  · intro found
    exact ⟨_, found, by simp [text?]⟩

theorem texts_append (path : List String) (cs es : List Contribution) :
    texts path (cs ++ es) = texts path cs ++ texts path es := by
  simp [texts]

theorem keysBelow_append (path : List String) (cs es : List Contribution) :
    keysBelow path (cs ++ es) = keysBelow path cs ++ keysBelow path es := by
  simp [keysBelow]

theorem Consistent.mono {cs es : List Contribution} (consistent : Consistent es)
    (sub : cs ⊆ es) : Consistent cs :=
  fun path text block value => consistent path text (sub block) (sub value)

theorem Models.at?_ne_none {cs : List Contribution} {d : Outline} (models : Models cs d)
    {c : Contribution} (found : c ∈ cs) (nonempty : c.path ≠ []) : d.at? c.path ≠ none := by
  intro absent
  obtain ⟨path, mark⟩ := c
  have described := models path
  rw [absent] at described
  cases mark with
  | block => simpa using (described.block nonempty).2 found
  | value text =>
    have member := mem_texts.2 found
    obtain ⟨last, eq⟩ := Option.isSome_iff_exists.1
      (List.getLast?_isSome.2 (List.ne_nil_of_mem member))
    simpa using (described.value nonempty last).2 eq

theorem key?_of_head_ne {c : Contribution} {k : String} {path : List String}
    (other : c.path.head? ≠ some k) : key? (k :: path) c = none := by
  unfold key?
  rw [if_neg]
  intro same
  apply other
  cases eq : c.path with
  | nil => simp [eq] at same
  | cons j rest =>
    cases rest with
    | nil => simp [eq] at same
    | cons j' rest =>
      simp only [eq, List.dropLast_cons_cons, List.cons.injEq] at same
      simp [same.1]

theorem text?_of_head_ne {c : Contribution} {k : String} {path : List String}
    (other : c.path.head? ≠ some k) : text? (k :: path) c = none := by
  unfold text?
  split
  · rfl
  · rw [if_neg]
    intro same
    simp [same] at other

section Silent

variable {cs es : List Contribution} {k : String} {path : List String} {found : Option Item}

theorem texts_of_head_ne (silent : ∀ c ∈ cs, c.path.head? ≠ some k) : texts (k :: path) cs = [] :=
  List.filterMap_eq_nil_iff.2 fun c member => text?_of_head_ne (silent c member)

theorem keysBelow_of_head_ne (silent : ∀ c ∈ cs, c.path.head? ≠ some k) :
    keysBelow (k :: path) cs = [] :=
  List.filterMap_eq_nil_iff.2 fun c member => key?_of_head_ne (silent c member)

theorem Describes.congr (described : Describes cs path found)
    (blocks : ⟨path, .block⟩ ∈ es ↔ ⟨path, .block⟩ ∈ cs) (values : texts path es = texts path cs)
    (keys : keysBelow path es = keysBelow path cs) : Describes es path found := by
  constructor
  · intro nonempty
    rw [blocks]
    exact described.block nonempty
  · intro nonempty text
    rw [values]
    exact described.value nonempty text
  · intro body eq
    rw [keys]
    exact described.keys body eq

theorem Describes.append_left (silent : ∀ c ∈ cs, c.path.head? ≠ some k)
    (described : Describes es (k :: path) found) : Describes (cs ++ es) (k :: path) found := by
  have noBlock : ⟨k :: path, .block⟩ ∉ cs := fun member => silent _ member rfl
  refine described.congr (by simp [noBlock]) ?_ ?_
  · rw [texts_append, texts_of_head_ne silent, List.nil_append]
  · rw [keysBelow_append, keysBelow_of_head_ne silent, List.nil_append]

theorem Describes.append_right (silent : ∀ c ∈ es, c.path.head? ≠ some k)
    (described : Describes cs (k :: path) found) : Describes (cs ++ es) (k :: path) found := by
  have noBlock : ⟨k :: path, .block⟩ ∉ es := fun member => silent _ member rfl
  refine described.congr (by simp [noBlock]) ?_ ?_
  · rw [texts_append, texts_of_head_ne silent, List.append_nil]
  · rw [keysBelow_append, keysBelow_of_head_ne silent, List.append_nil]

end Silent

def below? (k : String) (c : Contribution) : Option Contribution :=
  match c.path with
  | j :: p :: path => if j = k then some ⟨p :: path, c.mark⟩ else none
  | _ => none

def below (k : String) (cs : List Contribution) : List Contribution :=
  cs.filterMap (below? k)

theorem mem_below {k p : String} {path : List String} {mark : Mark} {cs : List Contribution} :
    ⟨p :: path, mark⟩ ∈ below k cs ↔ ⟨k :: p :: path, mark⟩ ∈ cs := by
  simp only [below, List.mem_filterMap]
  constructor
  · rintro ⟨⟨q, m⟩, found, eq⟩
    unfold below? at eq
    split at eq
    · rename_i j p' path' shape
      simp only at shape
      split at eq
      · rename_i same
        simp only [Option.some.injEq, Contribution.mk.injEq, List.cons.injEq] at eq
        obtain ⟨⟨rfl, rfl⟩, rfl⟩ := eq
        rw [shape, same] at found
        exact found
      · simp at eq
    · simp at eq
  · intro found
    exact ⟨_, found, by simp [below?]⟩

theorem texts_below (k p : String) (path : List String) (cs : List Contribution) :
    texts (p :: path) (below k cs) = texts (k :: p :: path) cs := by
  rw [texts, below, List.filterMap_filterMap]
  apply List.filterMap_congr
  rintro ⟨q, mark⟩ _
  rcases q with _ | ⟨j, _ | ⟨p', rest⟩⟩
  · cases mark <;> simp [below?, text?]
  · cases mark <;> simp [below?, text?]
  · by_cases same : j = k
    · cases mark <;> simp [below?, text?, same]
    · cases mark <;> simp [below?, text?, same]

theorem keysBelow_below (k : String) (path : List String) (cs : List Contribution) :
    keysBelow path (below k cs) = keysBelow (k :: path) cs := by
  rw [keysBelow, below, List.filterMap_filterMap]
  apply List.filterMap_congr
  rintro ⟨q, mark⟩ _
  rcases q with _ | ⟨j, _ | ⟨p', rest⟩⟩
  · simp [below?, key?]
  · simp [below?, key?]
  · by_cases same : j = k
    · simp [below?, key?, same]
    · simp [below?, key?, same]

theorem below_append (k : String) (cs es : List Contribution) :
    below k (cs ++ es) = below k cs ++ below k es := by
  simp [below]

theorem Consistent.below {cs : List Contribution} (consistent : Consistent cs) (k : String) :
    Consistent (below k cs) := by
  intro path text block value
  cases path with
  | nil =>
    simp only [Contribution.below, List.mem_filterMap] at block
    obtain ⟨c, -, eq⟩ := block
    unfold below? at eq
    split at eq <;> simp at eq
  | cons p path => exact consistent _ text (mem_below.1 block) (mem_below.1 value)

theorem describes_of_below {cs : List Contribution} (consistent : Consistent cs) {k : String}
    (block : ⟨[k], .block⟩ ∈ cs) {path : List String} {body : Outline}
    (inner : Describes (below k cs) path (body.at? path)) :
    Describes cs (k :: path) (body.at? path) := by
  cases path with
  | nil =>
    constructor
    · simp [Outline.at?, block]
    · intro _ text
      have none : texts [k] cs = [] := by
        apply List.eq_nil_iff_forall_not_mem.2
        intro t member
        exact consistent _ t block (mem_texts.1 member)
      simp [Outline.at?, none]
    · intro found eq
      rw [← keysBelow_below]
      exact inner.keys found eq
  | cons p path =>
    constructor
    · intro _
      rw [← mem_below]
      exact inner.block (by simp)
    · intro _ text
      rw [← texts_below]
      exact inner.value (by simp) text
    · intro found eq
      rw [← keysBelow_below]
      exact inner.keys found eq

theorem Models.nodup_keys {cs : List Contribution} {d : Outline} (models : Models cs d) :
    d.keys.Nodup := by
  rw [(models []).keys d rfl]
  exact nodup_eraseDups _

theorem Models.silent {cs : List Contribution} {d : Outline} (models : Models cs d) {k : String}
    (absent : d.get? k = none) : ∀ c ∈ cs, c.path.head? ≠ some k := by
  intro c member head
  obtain ⟨path, eq⟩ := List.head?_eq_some_iff.1 head
  have found := models.at?_ne_none member (by simp [eq])
  rw [eq] at found
  simp [Outline.at?, absent] at found

theorem Models.block_mem {cs : List Contribution} {d : Outline} (models : Models cs d)
    {k : String} {body : Outline} (found : d.get? k = some (.block body)) :
    ⟨[k], .block⟩ ∈ cs :=
  ((models [k]).block (by simp)).1 ⟨body, by simp [Outline.at?, found]⟩

theorem Models.value_mem {cs : List Contribution} {d : Outline} (models : Models cs d)
    {k text : String} (found : d.get? k = some (.value text)) : ⟨[k], .value text⟩ ∈ cs := by
  have last := ((models [k]).value (by simp) text).1 (by simp [Outline.at?, found])
  exact mem_texts.1 (List.mem_of_getLast? last)

theorem Models.below {cs : List Contribution} {d : Outline} (models : Models cs d) {k : String}
    {body : Outline} (found : d.get? k = some (.block body)) : Models (below k cs) body := by
  intro path
  have outside := models (k :: path)
  have same : d.at? (k :: path) = body.at? path := by simp [Outline.at?, found]
  rw [same] at outside
  constructor
  · intro nonempty
    obtain ⟨p, rest, rfl⟩ := List.exists_cons_of_ne_nil nonempty
    rw [mem_below]
    exact outside.block (by simp)
  · intro nonempty text
    obtain ⟨p, rest, rfl⟩ := List.exists_cons_of_ne_nil nonempty
    rw [texts_below]
    exact outside.value (by simp) text
  · intro inner eq
    rw [keysBelow_below]
    exact outside.keys inner eq

theorem describes_value {cs es : List Contribution} {d e : Outline} (front : Models cs d)
    (back : Models es e) {k old new : String} {path : List String}
    (first : d.get? k = some (.value old)) (second : e.get? k = some (.value new)) :
    Describes (cs ++ es) (k :: path) (if path = [] then some (.value new) else none) := by
  have early := front (k :: path)
  have late := back (k :: path)
  simp only [Outline.at?, first, second] at early late
  by_cases root : path = []
  · simp only [root, ↓reduceIte] at early late ⊢
    have last := (late.value (by simp) new).1 rfl
    constructor
    · intro nonempty
      have before := early.block nonempty
      have after := late.block nonempty
      simp_all
    · intro nonempty text
      rw [texts_append, List.getLast?_append, last]
      simp
    · simp
  · simp only [root, ↓reduceIte] at early late ⊢
    constructor
    · intro nonempty
      have before := early.block nonempty
      have after := late.block nonempty
      simp_all
    · intro nonempty text
      have before := early.value nonempty
      have after := late.value nonempty
      rw [texts_append, List.getLast?_append]
      cases eq : (texts (k :: path) es).getLast? with
      | none => simpa using before text
      | some last => simpa using (after last).2 eq
    · simp

-- The induction is on the path: one key further in, both outlines and both lists of
-- contributions are replaced by what lies below that key.
theorem Models.merge {cs es : List Contribution} {d e : Outline} (front : Models cs d)
    (back : Models es e) (consistent : Consistent (cs ++ es)) :
    Models (cs ++ es) (d.merge e) := by
  intro path
  induction path generalizing cs es d e with
  | nil =>
    constructor
    · simp
    · simp
    · intro body eq
      obtain rfl : d.merge e = body := by simpa [Outline.at?] using eq
      rw [Outline.keys_merge d e front.nodup_keys, (front []).keys d rfl, (back []).keys e rfl,
        eraseDups_append_eraseDups, keysBelow_append]
  | cons k path ih =>
    have under := Outline.get?_merge d e k back.nodup_keys
    cases incoming : e.get? k with
    | none =>
      have same : (d.merge e).at? (k :: path) = d.at? (k :: path) := by
        simp [Outline.at?, under, incoming]
      rw [same]
      exact (front (k :: path)).append_right (back.silent incoming)
    | some item =>
      cases existing : d.get? k with
      | none =>
        have same : (d.merge e).at? (k :: path) = e.at? (k :: path) := by
          simp [Outline.at?, under, incoming, existing, Item.join]
        rw [same]
        exact (back (k :: path)).append_left (front.silent existing)
      | some old =>
        rw [incoming, existing] at under
        cases old with
        | value text =>
          cases item with
          | value text' =>
            simp only [Outline.at?, under, Item.join]
            exact describes_value front back existing incoming
          | block body' =>
            exact absurd (List.mem_append_left es (front.value_mem existing))
              (consistent _ _ (List.mem_append_right cs (back.block_mem incoming)))
        | block body =>
          cases item with
          | value text' =>
            exact absurd (List.mem_append_right cs (back.value_mem incoming))
              (consistent _ _ (List.mem_append_left es (front.block_mem existing)))
          | block body' =>
            simp only [Outline.at?, under, Item.join]
            apply describes_of_below consistent (List.mem_append_left es (front.block_mem existing))
            rw [below_append]
            refine ih (front.below existing) (back.below incoming) ?_
            rw [← below_append]
            exact consistent.below k

theorem models_nil : Models [] .nil := by
  intro path
  cases path with
  | nil => constructor <;> simp [Outline.at?, Outline.keys, keysBelow]
  | cons k path => constructor <;> simp [Outline.at?, Outline.get?, texts]

theorem models_value (k text : String) : Models [⟨[k], .value text⟩] (.value k text .nil) := by
  intro path
  cases path with
  | nil =>
    constructor
    · simp
    · simp
    · intro body eq
      obtain rfl : Outline.value k text .nil = body := by simpa [Outline.at?] using eq
      simp [Outline.keys, keysBelow, key?, List.eraseDups_cons]
  | cons j path =>
    by_cases same : k = j
    · subst same
      by_cases root : path = []
      · constructor <;> simp [Outline.at?, Outline.get?, texts, text?, root]
      · constructor <;> simp [Outline.at?, Outline.get?, texts, text?, root, Ne.symm root]
    · constructor <;> simp [Outline.at?, Outline.get?, texts, text?, same]

theorem below_ofBlock (k : String) (cs : List Contribution) (rooted : ∀ c ∈ cs, c.path ≠ []) :
    below k (ofBlock k cs) = cs := by
  have kept : ∀ c ∈ cs, (below? k ∘ within k) c = some c := by
    rintro ⟨path, mark⟩ member
    obtain ⟨p, rest, rfl⟩ := List.exists_cons_of_ne_nil (rooted _ member)
    simp [below?, within]
  have outer : below? k ⟨[k], .block⟩ = none := rfl
  rw [below, ofBlock, List.filterMap_cons_none outer, List.filterMap_map,
    List.filterMap_congr kept, List.filterMap_some]

theorem models_ofBlock {k : String} {cs : List Contribution} {body : Outline}
    (models : Models cs body) (consistent : Consistent (ofBlock k cs))
    (rooted : ∀ c ∈ cs, c.path ≠ []) : Models (ofBlock k cs) (.block k body .nil) := by
  intro path
  cases path with
  | nil =>
    constructor
    · simp
    · simp
    · intro found eq
      obtain rfl : Outline.block k body .nil = found := by simpa [Outline.at?] using eq
      have inside : keysBelow [] (cs.map (within k)) = [] := by
        apply List.filterMap_eq_nil_iff.2
        intro c member
        obtain ⟨inner, found, rfl⟩ := List.mem_map.1 member
        obtain ⟨p, rest, eq⟩ := List.exists_cons_of_ne_nil (rooted _ found)
        simp [key?, within, eq]
      have all : keysBelow [] (ofBlock k cs) = [k] := by
        rw [ofBlock, ← List.singleton_append, keysBelow_append, inside]
        simp [keysBelow, key?]
      rw [all]
      rfl
  | cons j path =>
    by_cases same : k = j
    · subst same
      have found : (Outline.block k body .nil).at? (k :: path) = body.at? path := by
        simp [Outline.at?, Outline.get?]
      rw [found]
      apply describes_of_below consistent (by simp [ofBlock])
      rw [below_ofBlock k cs rooted]
      exact models path
    · have silent : ∀ c ∈ ofBlock k cs, c.path.head? ≠ some j := by
        intro c member
        simp only [ofBlock, List.mem_cons, List.mem_map] at member
        rcases member with rfl | ⟨inner, -, rfl⟩ <;> simpa [within] using same
      have nothing := (models_nil (j :: path)).append_left silent
      simpa [Outline.at?, Outline.get?, same] using nothing

end Contribution

theorem rooted_ofBlock (k : String) (cs : List Contribution) :
    ∀ c ∈ ofBlock k cs, c.path ≠ [] := by
  intro c member
  simp only [ofBlock, List.mem_cons, List.mem_map] at member
  rcases member with rfl | ⟨inner, -, rfl⟩ <;> simp [within]

mutual

theorem Rule.rooted_contributions : (r : Rule) → ∀ c ∈ r.contributions, c.path ≠ []
  | .style _ head body => by
    rw [Rule.contributions]
    exact rooted_ofBlock _ _
  | .atRule _ name clause body => by
    rw [Rule.contributions]
    exact body.rooted_contributions _
  | .unrecognized _ _ _ => by simp [Rule.contributions]

theorem AtBody.rooted_contributions (key : String) :
    (b : AtBody) → ∀ c ∈ b.contributions key, c.path ≠ []
  | .none => by simp [AtBody.contributions]
  | .members list => by
    rw [AtBody.contributions]
    exact rooted_ofBlock _ _
  | .verbatim text => by
    rw [AtBody.contributions]
    exact rooted_ofBlock _ _

theorem Member.rooted_contributions : (m : Member) → ∀ c ∈ m.contributions, c.path ≠ []
  | .declaration d => by simp [Member.contributions]
  | .rule rule => by
    rw [Member.contributions]
    exact rule.rooted_contributions

theorem rooted_contributionsOf : (ms : List Member) → ∀ c ∈ contributionsOf ms, c.path ≠ []
  | [] => by simp [contributionsOf]
  | m :: ms => by
    intro c member
    rw [contributionsOf, List.mem_append] at member
    rcases member with first | later
    · exact m.rooted_contributions c first
    · exact rooted_contributionsOf ms c later

end

theorem Contribution.Consistent.ofBlock {k : String} {cs : List Contribution}
    (consistent : Consistent (ofBlock k cs)) : Consistent cs := by
  intro path text block value
  have inside : ∀ c ∈ cs, within k c ∈ Contribution.ofBlock k cs := by
    intro c member
    exact List.mem_cons_of_mem _ (List.mem_map_of_mem member)
  exact consistent (k :: path) text (inside _ block) (inside _ value)

mutual

theorem Rule.models_addTo {cs : List Contribution} {d : Outline} (models : Models cs d) :
    (r : Rule) → Consistent (cs ++ r.contributions) → Models (cs ++ r.contributions) (r.addTo d)
  | .style _ head body, consistent => by
    rw [Rule.contributions] at consistent ⊢
    rw [Rule.addTo, Outline.mergeItem_eq_mergeInto]
    have alone := consistent.mono (List.subset_append_right _ _)
    have inner := models_addMembers models_nil body (by simpa using alone.ofBlock)
    exact models.merge (models_ofBlock (by simpa using inner) alone (rooted_contributionsOf body))
      consistent
  | .atRule _ name clause body, consistent => by
    rw [Rule.contributions] at consistent ⊢
    rw [Rule.addTo, Outline.mergeItem_eq_mergeInto]
    have alone := consistent.mono (List.subset_append_right _ _)
    exact models.merge (body.models_item _ alone) consistent
  | .unrecognized _ _ _, _ => by
    simpa [Rule.contributions, Rule.addTo] using models

theorem AtBody.models_item (key : String) :
    (b : AtBody) → Consistent (b.contributions key) →
      Models (b.contributions key) (.cons key (b.item key) .nil)
  | .none, _ => by
    rw [AtBody.contributions, AtBody.item]
    exact models_value key ""
  | .members list, consistent => by
    rw [AtBody.contributions] at consistent ⊢
    rw [AtBody.item]
    have inner := models_addMembers models_nil list (by simpa using consistent.ofBlock)
    exact models_ofBlock (by simpa using inner) consistent (rooted_contributionsOf list)
  | .verbatim text, consistent => by
    rw [AtBody.contributions] at consistent ⊢
    rw [AtBody.item]
    refine models_ofBlock ?_ consistent ?_
    · rw [verbatimBlock]
      split
      · exact models_nil
      · exact models_value key _
    · split <;> simp

theorem Member.models_addTo {cs : List Contribution} {d : Outline} (models : Models cs d) :
    (m : Member) → Consistent (cs ++ m.contributions) →
      Models (cs ++ m.contributions) (m.addTo d)
  | .declaration declaration, consistent => by
    rw [Member.contributions] at consistent ⊢
    rw [Member.addTo, Outline.mergeItem_eq_mergeInto]
    exact models.merge (models_value _ _) consistent
  | .rule rule, consistent => by
    rw [Member.contributions] at consistent ⊢
    rw [Member.addTo]
    exact rule.models_addTo models consistent

theorem models_addMembers {cs : List Contribution} {d : Outline} (models : Models cs d) :
    (ms : List Member) → Consistent (cs ++ contributionsOf ms) →
      Models (cs ++ contributionsOf ms) (addMembers d ms)
  | [], _ => by simpa [contributionsOf, addMembers] using models
  | m :: ms, consistent => by
    rw [contributionsOf, ← List.append_assoc] at consistent ⊢
    rw [addMembers]
    have first := m.models_addTo models (consistent.mono (List.subset_append_left _ _))
    exact models_addMembers first ms consistent

end

def sheetContributions (rules : List Rule) : List Contribution :=
  rules.flatMap Rule.contributions

theorem models_outlineOf (rules : List Rule) (consistent : Consistent (sheetContributions rules)) :
    Models (sheetContributions rules) (outlineOf rules) := by
  suffices general : ∀ (cs : List Contribution) (d : Outline), Models cs d →
      Consistent (cs ++ sheetContributions rules) →
      Models (cs ++ sheetContributions rules) (rules.foldl Rule.addTo d) by
    exact general [] .nil models_nil consistent
  clear consistent
  induction rules with
  | nil =>
    intro cs d models _
    simpa [sheetContributions] using models
  | cons rule rules ih =>
    intro cs d models consistent
    rw [sheetContributions, List.flatMap_cons, ← List.append_assoc] at consistent ⊢
    have first := rule.models_addTo models (consistent.mono (List.subset_append_left _ _))
    exact ih _ _ first consistent

/-- The outline of a style sheet by paths: a block stands where one is contributed, a value where
values are, the last of them, and the keys below every block are in the order of their first
contributions. -/
theorem at?_outlineOf (rules : List Rule) (consistent : Consistent (sheetContributions rules)) :
    (∀ path, path ≠ [] →
      ((∃ body, (outlineOf rules).at? path = some (.block body)) ↔
        ⟨path, .block⟩ ∈ sheetContributions rules) ∧
      ((∃ text, (outlineOf rules).at? path = some (.value text)) ↔
        ∃ text, ⟨path, .value text⟩ ∈ sheetContributions rules) ∧
      ∀ text, (outlineOf rules).at? path = some (.value text) ↔
        (texts path (sheetContributions rules)).getLast? = some text) ∧
    ∀ path body, (outlineOf rules).at? path = some (.block body) →
      body.keys = (keysBelow path (sheetContributions rules)).eraseDups := by
  have models := models_outlineOf rules consistent
  refine ⟨?_, fun path body found => (models path).keys body found⟩
  intro path nonempty
  refine ⟨(models path).block nonempty, ?_, (models path).value nonempty⟩
  constructor
  · rintro ⟨text, found⟩
    exact ⟨text, mem_texts.1 (List.mem_of_getLast? (((models path).value nonempty text).1 found))⟩
  · rintro ⟨text, found⟩
    obtain ⟨last, eq⟩ := Option.isSome_iff_exists.1
      (List.getLast?_isSome.2 (List.ne_nil_of_mem (mem_texts.2 found)))
    exact ⟨last, ((models path).value nonempty last).2 eq⟩

/-- Two rules for `a` around another one, the later with a nested rule and a repeated property. -/
def scatteredRules : List Rule :=
  let declare (name text : String) : Member :=
    .declaration ⟨.standard .none name, .keyword text, false⟩
  let rule (name : String) (body : List Member) : Rule :=
    .style .origin (.selectors [[.element name]]) body
  [rule "a" [declare "color" "red", .rule (rule "b" [declare "x" "y"])],
    .atRule .origin "thing" .empty (.verbatim "some text;"),
    .atRule .origin "import" (.raw "c") .none,
    rule "a" [declare "margin" "auto", .rule (rule "b" [declare "x" "z"]), declare "color" "blue"]]

theorem at?_outlineOf_scatteredRules :
    Consistent (sheetContributions scatteredRules) ∧
      (outlineOf scatteredRules).at? ["a", "color"] = some (.value "blue") ∧
      (outlineOf scatteredRules).at? ["a", "b", "x"] = some (.value "z") ∧
      ∀ body, (outlineOf scatteredRules).at? ["a"] = some (.block body) →
        body.keys = ["color", "b", "margin"] := by
  have consistent : Consistent (sheetContributions scatteredRules) := by decide +kernel
  obtain ⟨found, keys⟩ := at?_outlineOf scatteredRules consistent
  refine ⟨consistent, ?_, ?_, ?_⟩
  · exact ((found ["a", "color"] (by simp)).2.2 "blue").2 (by decide +kernel)
  · exact ((found ["a", "b", "x"] (by simp)).2.2 "z").2 (by decide +kernel)
  · intro body here
    rw [keys ["a"] body here]
    decide +kernel

end CssOutline
