import CssOutline.Command.Folder
import CssOutline.Proofs.Entries
import CssOutline.Proofs.JsonRoundTrip
import CssOutline.Proofs.Keys
import CssOutline.Proofs.Places

/-! Every outline that decoding gives can be written: as a style sheet with any indent, and as
JSON that reads back to it. Keys are not empty, outside every block stand only blocks and
at-rules without a body, and blocks nest within the limit of the reader, which is below that of
JSON. -/

namespace CssOutline

namespace Sketch

/-- The rule of a sketch gets a key that is not empty, and a block only where there is room. -/
inductive Sound (room : Bool) : Sketch → Prop
  | style {start : Location} {head : Head} {block : List Node} (fits : room = true)
    (key : head.render ≠ "") (inner : ∀ n ∈ block, n.IsNamed) : Sound room (style start head block)
  | statement {start : Location} {name : String} {clause : Prelude} :
    Sound room (statement start name clause)
  | members {start : Location} {name : String} {clause : Prelude} {context : Context}
    {block : List Node} (fits : room = true) (inner : ∀ n ∈ block, n.IsNamed) :
    Sound room (members start name clause context block)
  | verbatim {start : Location} {name : String} {clause : Prelude} {block : List Node}
    (fits : room = true) : Sound room (verbatim start name clause block)
  | unrecognized {start : Location} {fault : Fault} {source : List Char} :
    Sound room (unrecognized start fault source)

theorem sound_ofAtRule (room : Bool) (keyword : Node) (name : String) (front : List Node)
    {stop : Option Node} (named : ∀ n ∈ stop, n.IsNamed) :
    (ofAtRule room keyword name front stop).Sound room := by
  cases stop with
  | none => exact .statement
  | some n =>
    cases n with
    | leaf l => exact .statement
    | block opening body closing =>
      have inner : ∀ n ∈ body, n.IsNamed := by
        cases named _ rfl with
        | block _ inner => exact inner
      simp only [ofAtRule]
      cases room with
      | false => exact .unrecognized
      | true =>
        simp only [Bool.not_true, Bool.false_eq_true, ↓reduceIte]
        split_ifs
        · exact .members rfl inner
        · exact .members rfl inner
        · exact .verbatim rfl

theorem render_ne_empty_of_readHead {context : Context} {front : List Node}
    (named : ∀ n ∈ front, n.IsNamed) {head : Head} (read : readHead context front = .ok head) :
    head.render ≠ "" := by
  cases context with
  | style =>
    obtain ⟨list, selectors, rfl⟩ := exists_of_map_ok read
    exact Node.render_ne_empty_of_readSelectors named selectors
  | keyframes =>
    obtain ⟨list, keyframes, rfl⟩ := exists_of_map_ok read
    exact Node.render_ne_empty_of_readKeyframes keyframes

theorem sound_ofRule (context : Context) (room : Bool) (start : Location) {front : List Node}
    {stop : Option Node} (namedFront : ∀ n ∈ front, n.IsNamed) (named : ∀ n ∈ stop, n.IsNamed) :
    (ofRule context room start front stop).Sound room := by
  cases stop with
  | none => exact .unrecognized
  | some n =>
    cases n with
    | leaf l => exact .unrecognized
    | block opening body closing =>
      have inner : ∀ n ∈ body, n.IsNamed := by
        cases named _ rfl with
        | block _ inner => exact inner
      simp only [ofRule]
      split
      · exact .unrecognized
      · rename_i head read
        split_ifs with fits
        · exact .style fits (render_ne_empty_of_readHead namedFront read) inner
        · exact .unrecognized

theorem property_of_readDeclaration {name : String} {ns : List Node} {d : Declaration}
    (read : readDeclaration name ns = .ok d) : d.property = Property.parse name := by
  unfold readDeclaration at read
  split at read
  · cases read
  · split at read
    · simp only at read
      split at read
      · cases read
        rfl
      · obtain ⟨_, _, rfl⟩ := exists_of_map_ok read
        rfl
    · cases read

theorem property_ne_empty_of_readDeclaration {name : String} (nonempty : name ≠ "")
    {ns : List Node} {d : Declaration} (read : readDeclaration name ns = .ok d) :
    d.property.text ≠ "" := by
  rw [property_of_readDeclaration read]
  exact Property.text_parse_ne_empty nonempty

end Sketch

inductive Outlook.Sound (room : Bool) : Outlook → Prop
  | declaration {d : Declaration} (key : d.property.text ≠ "") : Sound room (declaration d)
  | rule {sketch : Sketch} (sound : sketch.Sound room) : Sound room (rule sketch)

namespace Sketch

variable {ns : List Node} (named : ∀ n ∈ ns, n.IsNamed) (p : Node → Bool)

include named

theorem upTo_isNamed : ∀ n ∈ upTo p ns, n.IsNamed :=
  fun n member => named n ((List.takeWhile_sublist _).mem member)

theorem after_isNamed : ∀ n ∈ after p ns, n.IsNamed :=
  fun n member => named n ((List.dropWhile_sublist _).mem (List.mem_of_mem_drop member))

theorem stop?_isNamed : ∀ n ∈ stop? p ns, n.IsNamed :=
  fun n member => named n ((List.dropWhile_sublist _).mem (List.mem_of_head? member))

omit named

theorem sound_ofIdent (room : Bool) {n : Node} {name : String} (nonempty : name ≠ "")
    {rest : List Node} (named : ∀ m ∈ n :: rest, m.IsNamed) :
    (ofIdent room n name rest).1.Sound room := by
  have rule := sound_ofRule .style room n.start (upTo_isNamed named endsItem)
    (stop?_isNamed named endsItem)
  unfold ofIdent
  split
  · rename_i d read
    exact .declaration (property_ne_empty_of_readDeclaration nonempty read)
  · simp only
    split
    · split
      · exact .rule rule
      · exact .rule .unrecognized
    · exact .rule rule

theorem ofIdent_isNamed (room : Bool) {n : Node} (name : String) {rest : List Node}
    (named : ∀ m ∈ n :: rest, m.IsNamed) : ∀ m ∈ (ofIdent room n name rest).2, m.IsNamed := by
  unfold ofIdent
  split
  · exact after_isNamed (fun m member => named m (by simp [member])) _
  · simp only
    split
    · split
      · exact after_isNamed named _
      · exact after_isNamed named _
    · exact after_isNamed named _

theorem sound_ofBody (context : Context) (room : Bool) (ns : List Node)
    (named : ∀ n ∈ ns, n.IsNamed) : ∀ o ∈ ofBody context room ns, o.Sound room := by
  fun_induction ofBody context room ns with
  | case1 => simp
  | case2 n rest _ ih => exact ih fun m member => named m (by simp [member])
  | case3 n rest _ name _ _ ih =>
    have tail : ∀ m ∈ rest, m.IsNamed := fun m member => named m (by simp [member])
    intro o member
    rcases List.mem_cons.1 member with rfl | later
    · exact .rule (sound_ofAtRule room n name _ (stop?_isNamed tail _))
    · exact ih (after_isNamed tail _) o later
  | case4 n rest _ name isStyle same _ ih =>
    have nonempty : name ≠ "" := by
      have token := (named n (by simp)).token
      rwa [same] at token
    subst isStyle
    intro o member
    rcases List.mem_cons.1 member with rfl | later
    · exact sound_ofIdent room nonempty named
    · exact ih (ofIdent_isNamed room name named) o later
  | case5 n rest _ _ _ _ ih =>
    intro o member
    rcases List.mem_cons.1 member with rfl | later
    · exact .rule (sound_ofRule context room n.start (upTo_isNamed named _)
        (stop?_isNamed named _))
    · exact ih (after_isNamed named _) o later

theorem sound_ofSheet (ns : List Node) (named : ∀ n ∈ ns, n.IsNamed) :
    ∀ s ∈ ofSheet ns, s.Sound true := by
  fun_induction ofSheet ns with
  | case1 => simp
  | case2 n rest _ ih => exact ih fun m member => named m (by simp [member])
  | case3 n rest _ name _ _ ih =>
    have tail : ∀ m ∈ rest, m.IsNamed := fun m member => named m (by simp [member])
    intro s member
    rcases List.mem_cons.1 member with rfl | later
    · exact sound_ofAtRule true n name _ (stop?_isNamed tail _)
    · exact ih (after_isNamed tail _) s later
  | case4 n rest _ _ _ ih =>
    intro s member
    rcases List.mem_cons.1 member with rfl | later
    · exact sound_ofRule .style true n.start (upTo_isNamed named _) (stop?_isNamed named _)
    · exact ih (after_isNamed named _) s later

end Sketch

/-- Keys are not empty, blocks nest within the limit, and outside every block a value belongs to
an at-rule without a body. -/
def Allowed (level : Nat) (key : String) (text : Option String) : Prop :=
  key ≠ "" ∧ (text = none → level < maxNesting) ∧
    (level = 0 → ∀ t, text = some t → Outline.isStatement key t)

theorem allowed_block {level : Nat} {key : String} (nonempty : key ≠ "")
    (fits : level < maxNesting) : Allowed level key none :=
  ⟨nonempty, fun _ => fits, by simp⟩

theorem allowed_inner {level : Nat} {key : String} (nonempty : key ≠ "") (inside : 0 < level)
    (text : String) : Allowed level key (some text) :=
  ⟨nonempty, by simp, by omega⟩

theorem allowed_statement (level : Nat) {key : String} (marked : Outline.isAtKey key) :
    Allowed level key (some "") := by
  refine ⟨ne_empty_of_isAtKey marked, by simp, ?_⟩
  intro _ t same
  cases same
  simpa [Outline.isStatement] using marked

theorem every_addMembers {level : Nat} {ms : List Member}
    (every : ∀ m ∈ ms, ∀ e ∈ m.entryOf?, e.2.Every Allowed level e.1) :
    (addMembers .nil ms).Every Allowed level := by
  rw [addMembers_eq_mergeAll]
  apply Outline.Every.nil.mergeAll
  intro e member
  obtain ⟨m, found, entry⟩ := List.mem_filterMap.1 member
  exact every m found e entry

theorem every_verbatimBlock {level : Nat} (inside : 0 < level) {key : String}
    (nonempty : key ≠ "") (text : String) : (verbatimBlock key text).Every Allowed level := by
  rcases eq_or_ne (verbatimBody text) "" with empty | kept
  · rw [verbatimBlock, if_pos empty]
    exact .nil
  · rw [verbatimBlock, if_neg kept]
    exact .value (allowed_inner nonempty inside _) .nil

theorem Sketch.Sound.every_entry {room : Bool} {s : Sketch} (sound : s.Sound room) {level : Nat}
    (fits : room = true → level < maxNesting) {read : Context → List Node → List Member}
    (inner : room = true → ∀ context ns, (∀ n ∈ ns, n.IsNamed) →
      (addMembers .nil (read context ns)).Every Allowed (level + 1)) :
    ∀ e ∈ (s.expand read).entryOf?, e.2.Every Allowed level e.1 := by
  intro e entry
  cases sound with
  | style roomy key named =>
    cases entry
    exact .block (allowed_block key (fits roomy)) (inner roomy _ _ named)
  | @statement start name clause =>
    cases entry
    exact .value (allowed_statement level (isAtKey_atKey name clause))
  | @members start name clause _ _ roomy named =>
    cases entry
    have key := ne_empty_of_isAtKey (isAtKey_atKey name clause)
    exact .block (allowed_block key (fits roomy)) (inner roomy _ _ named)
  | @verbatim start name clause _ roomy =>
    cases entry
    have key := ne_empty_of_isAtKey (isAtKey_atKey name clause)
    exact .block (allowed_block key (fits roomy)) (every_verbatimBlock (by omega) key _)
  | unrecognized => cases entry

theorem Outlook.Sound.every_entry {room : Bool} {o : Outlook} (sound : o.Sound room) {level : Nat}
    (inside : 0 < level) (fits : room = true → level < maxNesting)
    {read : Context → List Node → List Member}
    (inner : room = true → ∀ context ns, (∀ n ∈ ns, n.IsNamed) →
      (addMembers .nil (read context ns)).Every Allowed (level + 1)) :
    ∀ e ∈ (o.expand read).entryOf?, e.2.Every Allowed level e.1 := by
  cases sound with
  | declaration key =>
    intro e entry
    cases entry
    exact .value (allowed_inner key inside _)
  | rule sound => exact sound.every_entry fits inner

-- The induction is on the levels left; a body at `level` has the rest of the limit below it.
theorem every_readBody (room level : Nat) (inside : 0 < level) (total : level + room = maxNesting)
    (context : Context) (ns : List Node) (named : ∀ n ∈ ns, n.IsNamed) :
    (addMembers .nil (readBody room context ns)).Every Allowed level := by
  induction room generalizing level context ns with
  | zero =>
    apply every_addMembers
    intro m member
    obtain ⟨o, found, rfl⟩ := List.mem_map.1 member
    exact (Sketch.sound_ofBody context false ns named o found).every_entry inside
      (by simp) (by simp)
  | succ room ih =>
    apply every_addMembers
    intro m member
    obtain ⟨o, found, rfl⟩ := List.mem_map.1 member
    apply (Sketch.sound_ofBody context true ns named o found).every_entry inside
    · intro _
      omega
    · intro _ context ns named
      exact ih (level + 1) (by omega) (by omega) context ns named

theorem every_outlineOf_readRules (ns : List Node) (named : ∀ n ∈ ns, n.IsNamed) :
    (outlineOf (readRules ns)).Every Allowed 0 := by
  rw [outlineOf_eq_mergeAll]
  apply Outline.Every.nil.mergeAll
  intro e member
  obtain ⟨r, found, entry⟩ := List.mem_filterMap.1 member
  obtain ⟨s, sketched, rfl⟩ := List.mem_map.1 found
  apply (Sketch.sound_ofSheet ns named s sketched).every_entry
    (fun _ => (by simp [maxNesting] : 0 < maxNesting)) _
    e entry
  intro _ context ns named
  exact every_readBody _ 1 (by omega) (by simp [maxNesting]) context ns named

theorem every_decode {css : String} {d : Outline} (decoded : decode css = .ok d) :
    d.Every Allowed 0 := by
  rw [decode_eq_ok decoded]
  exact every_outlineOf_readRules _ (Node.ofText_isNamed _)

theorem distinct_decode {css : String} {d : Outline} (decoded : decode css = .ok d) :
    d.Distinct := by
  rw [decode_eq_ok decoded]
  exact distinct_outlineOf _

theorem Outline.Every.layoutError?_eq_none {level : Nat} {d : Outline}
    (every : d.Every Allowed level) : d.layoutError? (level == 0) = none := by
  induction every with
  | nil => rfl
  | @value level key text rest here _ ih =>
    obtain ⟨nonempty, _, statement⟩ := here
    rw [layoutError?, if_neg nonempty, if_neg, ih]
    by_cases outside : level = 0
    · simp [statement outside text rfl]
    · simp [outside]
  | @block level key body rest here _ _ inner ih =>
    rw [layoutError?, if_neg here.1, ih]
    have below : body.layoutError? false = none := by simpa using inner
    simp [below]

theorem Outline.Every.shallow {level : Nat} {d : Outline} (every : d.Every Allowed level) :
    Json.Shallow level d := by
  induction every with
  | nil => exact .nil
  | value _ _ ih => exact .value (by simp) ih
  | block here _ _ inner ih =>
    refine .block (fun _ => ?_) inner ih
    have fits := here.2.1 rfl
    simp only [maxNesting, Json.maxDepth] at *
    omega

theorem encode_decode_ok {css : String} {d : Outline} (decoded : decode css = .ok d)
    (indent : String) : ∃ text, d.encode indent = .ok text := by
  have writable : d.layoutError? true = none := (every_decode decoded).layoutError?_eq_none
  rw [Outline.encode, writable]
  exact ⟨_, rfl⟩

theorem read_write_decode {css : String} {d : Outline} (decoded : decode css = .ok d)
    (spacing : Json.Spacing) {tail : String} (blank : Json.tokens tail.toList = []) :
    Json.read (Json.write spacing d ++ tail) = .ok d :=
  Json.read_write_of_distinct spacing (distinct_decode decoded) (every_decode decoded).shallow blank

/-- A command line is understood, and the run ends with code 0 and prints a text and no error. -/
def Command.Prints (read : SystemText → Except InputFault String) (standardInput : String)
    (arguments : List SystemText) (text : String) : Prop :=
  ∃ c, Command.parse? arguments = some c ∧
    ∀ remark, Command.report (c.run read standardInput) remark = ⟨0, text, ""⟩

theorem Command.prints_of_run {read : SystemText → Except InputFault String}
    {standardInput : String} {arguments : List SystemText} {c : Command} {text : String}
    (command : Command.parse? arguments = some c) (ok : c.run read standardInput = .ok text) :
    Command.Prints read standardInput arguments text :=
  ⟨c, command, fun remark => by rw [ok, Command.report]⟩

/-- What decoding gives is never refused further on: it has a style sheet text for every indent,
its JSON reads back as it in both spacings, and a command that decodes one input prints JSON for
which the command that encodes it prints that text. -/
theorem transport_decode {css : String} {d : Outline} (decoded : decode css = .ok d) :
    (∀ indent, ∃ text, d.encode indent = .ok text) ∧
    (∀ spacing, Json.read (Json.write spacing d) = .ok d) ∧
    ∀ read standardInput arguments path spacing,
      Command.parse? arguments = some (.decode [path] spacing) →
      Command.gather read standardInput [path] = .ok [css] →
      ∃ printed text, Command.Prints read standardInput arguments printed ∧
        d.encode Outline.defaultIndent = .ok text ∧
        ∀ read' standardInput' arguments' path',
          Command.parse? arguments' = some (.encode path' Outline.defaultIndent) →
          Command.gather read' standardInput' [path'] = .ok [printed] →
          Command.Prints read' standardInput' arguments' text := by
  refine ⟨encode_decode_ok decoded, ?_, ?_⟩
  · intro spacing
    have nothing : Json.tokens "".toList = [] := by simp [Json.tokens]
    have written := read_write_decode decoded spacing nothing
    rwa [String.append_empty] at written
  · intro read standardInput arguments path spacing command input
    obtain ⟨text, encoded⟩ := encode_decode_ok decoded Outline.defaultIndent
    have written := read_write_decode decoded spacing Json.tokens_newline
    refine ⟨Json.write spacing d ++ "\n", text, Command.prints_of_run command ?_, encoded, ?_⟩
    · rw [Command.run, Command.runFrom, Command.inputs, ← Command.gather, input]
      simp [Command.output, Command.decodeAll, decoded, Except.map, Command.collected]
    · intro read' standardInput' arguments' path' command' input'
      refine Command.prints_of_run command' ?_
      rw [Command.run, Command.runFrom, Command.inputs, ← Command.gather, input']
      simp [Command.output, written, encoded]

/-- A statement, two rules under one key, a nested rule and a body kept as text. -/
def mixedSheet : String :=
  "@import x; a \x7b b: c \x7d @media (d: e) \x7b a:hover \x7b --f: g \x7d \x7d a \x7b h: 1px \x7d @i \x7b j \x7d"

def mixedOutline : Outline :=
  .value "@import x" "" <| .block "a" (.value "b" "c" <| .value "h" "1px" .nil) <|
    .block "@media (d: e)" (.block "a:hover" (.value "--f" "g" .nil) .nil) <|
    .block "@i" (.value "@i" "j" .nil) .nil

def mixedFolder : Folder :=
  ⟨[("sheet.css", mixedSheet)]⟩

theorem transport_decode_mixedSheet :
    decode mixedSheet = .ok mixedOutline ∧
    (∃ text, mixedOutline.encode "\t" = .ok text) ∧
    Json.read (Json.write .pretty mixedOutline) = .ok mixedOutline ∧
    ∃ printed text,
      Command.Prints mixedFolder.read "" ["decode", "--compact", "sheet.css"] printed ∧
      mixedOutline.encode Outline.defaultIndent = .ok text ∧
      Command.Prints (Folder.read ⟨[]⟩) printed ["encode", "-"] text := by
  have decoded : decode mixedSheet = .ok mixedOutline := by decide +kernel
  obtain ⟨written, readBack, piped⟩ := transport_decode decoded
  obtain ⟨printed, text, decodes, encoded, encodes⟩ :=
    piped mixedFolder.read "" ["decode", "--compact", "sheet.css"] "sheet.css" .compact
      (by decide +kernel) (by decide +kernel)
  have received : Command.gather (Folder.read ⟨[]⟩) printed ["-"] = .ok [printed] := by
    have dash : Command.isStandardInput "-" := by decide +kernel
    simp [Command.gather, dash, Except.map]
  exact ⟨decoded, written _, readBack _, printed, text, decodes, encoded,
    encodes _ _ _ "-" (by decide +kernel) received⟩

end CssOutline
