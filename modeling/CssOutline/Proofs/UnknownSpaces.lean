import CssOutline.Decode.Log

/-! Which values have no text, and what becomes of them. Rendering goes from left to right and stops
at the first color in a space that is not known; nothing else stops it. In an outline the word that
stands for such a value, or for such a prelude, is all that is left of it. -/

namespace CssOutline

def ColorSpace.names : List String :=
  ["srgb", "srgb-linear", "display-p3", "a98-rgb", "prophoto-rgb", "rec2020", "xyz", "xyz-d50",
    "xyz-d65"]

/-- Whether a space is none of these, in any case of its letters. -/
def ColorSpace.isUnknown (space : String) : Bool :=
  !names.contains space.toLower

/-- The spaces of the `color()` notations in a color, from left to right. -/
def Color.spaces : Color → List String
  | current => []
  | named _ => []
  | channels _ _ _ _ _ => []
  | predefined space _ _ _ _ => [space]
  | lightDark light dark => light.spaces ++ dark.spaces

mutual

/-- The spaces of the `color()` notations in a value, from left to right. -/
def Value.spaces : Value → List String
  | .call _ arguments => spacesOf arguments
  | .color c => c.spaces
  | .list items => spacesOf items
  | .commaList items => spacesOf items
  | .dimension _ _ => []
  | .percentage _ => []
  | .number _ => []
  | .integer _ => []
  | .string _ => []
  | .keyword _ => []
  | .verbatimCall _ _ => []
  | .length _ => []
  | .raw _ => []
  | .unmodeled _ _ => []

def spacesOf : List Value → List String
  | [] => []
  | v :: vs => v.spaces ++ spacesOf vs

end

def refusal? {α : Type} : Except RenderError α → Option RenderError
  | .ok _ => none
  | .error e => some e

@[simp] theorem refusal?_ok {α : Type} (a : α) : refusal? (.ok a) = none := rfl

theorem refusal?_eq_some {α : Type} {r : Except RenderError α} {e : RenderError} :
    refusal? r = some e ↔ r = .error e := by
  cases r <;> simp [refusal?]

theorem refusal?_bind {α β : Type} (r : Except RenderError α) {f : α → Except RenderError β}
    {later : Option RenderError} (next : ∀ a, refusal? (f a) = later) :
    refusal? (r >>= f) = (refusal? r).or later := by
  cases r with
  | ok a => exact next a
  | error e => rfl

theorem refusal?_bind_ok {α β : Type} (r : Except RenderError α) (f : α → β) :
    refusal? (r >>= fun a => .ok (f a)) = refusal? r := by
  rw [refusal?_bind r fun _ => refusal?_ok _, Option.or_none]

theorem ColorSpace.ofName_of_isUnknown {space : String} (unknown : isUnknown space) :
    ofName space = .error (.unknownColorSpace space) := by
  unfold ofName
  split <;> simp_all [isUnknown, names]

theorem ColorSpace.exists_ofName {space : String} (known : isUnknown space = false) :
    ∃ s, ofName space = .ok s := by
  simp only [isUnknown, names, Bool.not_eq_false', List.contains_iff_mem, List.mem_cons,
    List.not_mem_nil, or_false] at known
  unfold ofName
  rcases known with h | h | h | h | h | h | h | h | h <;> simp [h]

def firstUnknown (spaces : List String) : Option RenderError :=
  (spaces.find? ColorSpace.isUnknown).map .unknownColorSpace

theorem firstUnknown_append (front back : List String) :
    firstUnknown (front ++ back) = (firstUnknown front).or (firstUnknown back) := by
  rw [firstUnknown, List.find?_append, Option.map_or]
  rfl

theorem Color.refusal?_render (c : Color) : refusal? c.render = firstUnknown c.spaces := by
  induction c with
  | current => rfl
  | named name => rfl
  | channels model a b c alpha => rfl
  | predefined space a b c alpha =>
    rw [render, refusal?_bind_ok, spaces, firstUnknown]
    cases unknown : ColorSpace.isUnknown space with
    | true => simp [ColorSpace.ofName_of_isUnknown unknown, refusal?, unknown]
    | false =>
      obtain ⟨s, found⟩ := ColorSpace.exists_ofName unknown
      simp [found, unknown]
  | lightDark light dark first second =>
    rw [render, spaces, firstUnknown_append, ← first, ← second]
    exact refusal?_bind _ fun text => refusal?_bind_ok _ _

namespace Value

mutual

theorem refusal?_render : (v : Value) → refusal? v.render = firstUnknown v.spaces
  | .call name arguments => by
    rw [render, spaces, refusal?_bind_ok, refusal?_renderAll arguments]
  | .color c => by
    rw [render, spaces, c.refusal?_render]
  | .list items => by
    rw [render, spaces, refusal?_bind_ok, refusal?_renderAll items]
  | .commaList items => by
    rw [render, spaces, refusal?_bind_ok, refusal?_renderAll items]
  | .dimension _ _ => by rw [render, spaces]; rfl
  | .percentage _ => by rw [render, spaces]; rfl
  | .number _ => by rw [render, spaces]; rfl
  | .integer _ => by rw [render, spaces]; rfl
  | .string _ => by rw [render, spaces]; rfl
  | .keyword _ => by rw [render, spaces]; rfl
  | .verbatimCall _ _ => by rw [render, spaces]; rfl
  | .length _ => by rw [render, spaces]; rfl
  | .raw _ => by rw [render, spaces]; rfl
  | .unmodeled _ _ => by rw [render, spaces]; rfl

theorem refusal?_renderAll :
    (vs : List Value) → refusal? (renderAll vs) = firstUnknown (spacesOf vs)
  | [] => by
    rw [renderAll, spacesOf]
    rfl
  | v :: vs => by
    rw [renderAll, spacesOf, firstUnknown_append, ← refusal?_render v, ← refusal?_renderAll vs]
    exact refusal?_bind _ fun text => refusal?_bind_ok _ _

end

end Value

theorem firstUnknown_eq_some_iff {spaces : List String} {e : RenderError} :
    firstUnknown spaces = some e ↔
      ∃ before space after, spaces = before ++ space :: after ∧
        (∀ s ∈ before, ColorSpace.isUnknown s = false) ∧ ColorSpace.isUnknown space ∧
        e = .unknownColorSpace space := by
  simp only [firstUnknown, Option.map_eq_some_iff, List.find?_eq_some_iff_append]
  constructor
  · rintro ⟨space, ⟨unknown, before, after, split, known⟩, rfl⟩
    exact ⟨before, space, after, split, by simpa using known, unknown, rfl⟩
  · rintro ⟨before, space, after, split, known, unknown, rfl⟩
    exact ⟨space, ⟨unknown, before, after, split, by simpa using known⟩, rfl⟩

/-- A declaration whose value has no text holds instead the word that stands for it. -/
def Declaration.settled (d : Declaration) : Declaration :=
  match d.value.render with
  | .ok _ => d
  | .error _ => { d with value := .raw unableToParse }

def Prelude.settled (clause : Prelude) : Prelude :=
  match clause.render with
  | .ok _ => clause
  | .error _ => .raw unableToParse

mutual

def Rule.settled : Rule → Rule
  | .style start head body => .style start head (settledMembers body)
  | .atRule start name clause body => .atRule start name clause.settled body.settled
  | .unrecognized start reason source => .unrecognized start reason source

def AtBody.settled : AtBody → AtBody
  | .none => .none
  | .members list => .members (settledMembers list)
  | .verbatim text => .verbatim text

def Member.settled : Member → Member
  | .declaration d => .declaration d.settled
  | .rule rule => .rule rule.settled

def settledMembers : List Member → List Member
  | [] => []
  | m :: ms => m.settled :: settledMembers ms

end

def Event.isReplacement : Event → Bool
  | replacedKey _ _ _ => true
  | replacedValue _ _ => true
  | _ => false

theorem Declaration.entry_settled (d : Declaration) : d.settled.entry = d.entry := by
  unfold settled
  split
  · rfl
  · rename_i e refused
    simp [entry, refused, textOr, Value.render]

theorem Declaration.events_settled (d : Declaration) :
    d.settled.events = d.events.filter (!·.isReplacement) := by
  unfold settled
  split
  · rename_i text rendered
    simp [events, rendered]
  · rename_i e refused
    simp [events, refused, Value.render, Event.isReplacement]

theorem atRuleKey_settled (name : String) (clause : Prelude) :
    atRuleKey name clause.settled = .ok (atKey name clause) := by
  have word : unableToParse ≠ "" := by decide
  unfold Prelude.settled atKey atRuleKey
  cases rendered : clause.render with
  | ok text => simp [rendered, bind, Except.bind]
  | error e => simp [Prelude.render, bind, Except.bind, word]

theorem atKey_settled (name : String) (clause : Prelude) :
    atKey name clause.settled = atKey name clause := by
  rw [atKey, atRuleKey_settled]

theorem keyEvents_settled (start : Location) (name : String) (clause : Prelude) :
    keyEvents start name clause.settled =
      (keyEvents start name clause).filter (!·.isReplacement) := by
  rw [keyEvents, atRuleKey_settled, atKey_settled]
  unfold keyEvents
  cases atRuleKey name clause <;> rfl

mutual

theorem Rule.addTo_settled (d : Outline) : (r : Rule) → r.settled.addTo d = r.addTo d
  | .style start head body => by
    rw [Rule.settled, Rule.addTo, Rule.addTo, addMembers_settledMembers .nil body]
  | .atRule start name clause body => by
    rw [Rule.settled, Rule.addTo, Rule.addTo, atKey_settled, body.item_settled]
  | .unrecognized start reason source => by rw [Rule.settled]

theorem AtBody.item_settled (key : String) : (b : AtBody) → b.settled.item key = b.item key
  | .none => by rw [AtBody.settled]
  | .members list => by
    rw [AtBody.settled, AtBody.item, AtBody.item, addMembers_settledMembers .nil list]
  | .verbatim text => by rw [AtBody.settled]

theorem Member.addTo_settled (d : Outline) : (m : Member) → m.settled.addTo d = m.addTo d
  | .declaration declaration => by
    rw [Member.settled, Member.addTo, Member.addTo, declaration.entry_settled]
  | .rule rule => by
    rw [Member.settled, Member.addTo, Member.addTo, rule.addTo_settled]

theorem addMembers_settledMembers (d : Outline) :
    (ms : List Member) → addMembers d (settledMembers ms) = addMembers d ms
  | [] => by rw [settledMembers]
  | m :: ms => by
    rw [settledMembers, addMembers, addMembers, m.addTo_settled, addMembers_settledMembers _ ms]

end

mutual

theorem Rule.events_settled : (r : Rule) → r.settled.events = r.events.filter (!·.isReplacement)
  | .style start head body => by
    rw [Rule.settled, Rule.events, Rule.events, List.filter_cons_of_pos rfl,
      eventsOf_settledMembers body]
  | .atRule start name clause body => by
    rw [Rule.settled, Rule.events, Rule.events, List.filter_append, keyEvents_settled,
      body.events_settled]
  | .unrecognized start reason source => by
    rw [Rule.settled, Rule.events]
    rfl

theorem AtBody.events_settled :
    (b : AtBody) → b.settled.events = b.events.filter (!·.isReplacement)
  | .none => by
    rw [AtBody.settled, AtBody.events]
    rfl
  | .members list => by
    rw [AtBody.settled, AtBody.events, AtBody.events, eventsOf_settledMembers list]
  | .verbatim text => by
    rw [AtBody.settled, AtBody.events]
    rfl

theorem Member.events_settled :
    (m : Member) → m.settled.events = m.events.filter (!·.isReplacement)
  | .declaration d => by
    rw [Member.settled, Member.events, Member.events, d.events_settled]
  | .rule rule => by
    rw [Member.settled, Member.events, Member.events, rule.events_settled]

theorem eventsOf_settledMembers :
    (ms : List Member) → eventsOf (settledMembers ms) = (eventsOf ms).filter (!·.isReplacement)
  | [] => by
    rw [settledMembers, eventsOf]
    rfl
  | m :: ms => by
    rw [settledMembers, eventsOf, eventsOf, List.filter_append, m.events_settled,
      eventsOf_settledMembers ms]

end

theorem outlineOf_settled (rules : List Rule) :
    outlineOf (rules.map Rule.settled) = outlineOf rules := by
  rw [outlineOf, List.foldl_map, outlineOf]
  congr 1
  funext d r
  exact r.addTo_settled d

/-- A value has no text exactly if a `color()` in it is in a space that is not known, and the error
names the leftmost such space; the outline of a sheet is that of the sheet in which every value and
every prelude without a text is replaced by a fixed word, of which the same is reported except for
the replacements. -/
theorem refused_iff_unknown_space :
    (∀ (v : Value) (e : RenderError), v.render = .error e ↔
      ∃ before space after, v.spaces = before ++ space :: after ∧
        (∀ s ∈ before, ColorSpace.isUnknown s = false) ∧ ColorSpace.isUnknown space ∧
        e = .unknownColorSpace space) ∧
    ∀ rules : List Rule, outlineOf (rules.map Rule.settled) = outlineOf rules ∧
      (rules.map Rule.settled).flatMap Rule.events =
        (rules.flatMap Rule.events).filter (!·.isReplacement) := by
  refine ⟨fun v e => ?_, fun rules => ⟨outlineOf_settled rules, ?_⟩⟩
  · rw [← refusal?_eq_some, v.refusal?_render, firstUnknown_eq_some_iff]
  · rw [List.flatMap_map, List.filter_flatMap]
    congr 1
    funext r
    exact r.events_settled

example : refusal? (Value.list [.color (.predefined "XYZ" .nan .nan .nan .nan),
    .call "f" [.color (.lightDark .current (.predefined "Cmyk" .nan .nan .nan .nan))],
    .color (.predefined "lab" .nan .nan .nan .nan)]).render =
      some (.unknownColorSpace "Cmyk") := by
  decide +kernel

end CssOutline
