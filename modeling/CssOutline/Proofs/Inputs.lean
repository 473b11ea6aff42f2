import CssOutline.Command.Folder
import CssOutline.Proofs.JsonReading
import CssOutline.Proofs.Nesting

/-! Lists of inputs. All inputs are read before any of them is decoded, so what cannot be read is
reported before what is not a style sheet; the standard input has a text only once; and of several
inputs whose paths are displayed alike the last is printed, in the place of the first. -/

namespace CssOutline

namespace Command

section Readings

variable (read : SystemText → Except InputFault String) (standardInput : Except InputFault String)

def left (before : List SystemText) : Except InputFault String :=
  if before.any isStandardInput then .ok "" else standardInput

def reading (before : List SystemText) (path : SystemText) : Except InputFault String :=
  if isStandardInput path then left standardInput before else read path

def readings (before : List SystemText) : List SystemText → List (Except InputFault String)
  | [] => []
  | path :: paths => reading read standardInput before path :: readings (before ++ [path]) paths

theorem left_append (before : List SystemText) (path : SystemText) :
    left standardInput (before ++ [path]) =
      if isStandardInput path then .ok "" else left standardInput before := by
  cases dash : isStandardInput path <;> simp [left, dash]

theorem gatherFrom_cons (before : List SystemText) (path : SystemText) (paths : List SystemText) :
    gatherFrom read (left standardInput before) (path :: paths) =
      match reading read standardInput before path with
      | .error fault => .error (.input path fault)
      | .ok text =>
        (gatherFrom read (left standardInput (before ++ [path])) paths).map (text :: ·) := by
  rw [left_append, reading]
  by_cases dash : isStandardInput path
  · cases left standardInput before <;> simp [dash]
  · cases found : read path <;> simp [dash, found]

theorem gatherFrom_outcome (before paths : List SystemText) :
    (∃ front path behind fault, ∃ texts : List String, paths = front ++ path :: behind ∧
      readings read standardInput before front = texts.map .ok ∧
      reading read standardInput (before ++ front) path = .error fault ∧
      gatherFrom read (left standardInput before) paths = .error (.input path fault)) ∨
    ∃ texts : List String, readings read standardInput before paths = texts.map .ok ∧
      gatherFrom read (left standardInput before) paths = .ok texts := by
  induction paths generalizing before with
  | nil => exact .inr ⟨[], rfl, rfl⟩
  | cons path paths ih =>
    rw [gatherFrom_cons]
    cases here : reading read standardInput before path with
    | error fault =>
      exact .inl ⟨[], path, paths, fault, [], rfl, rfl, by rwa [List.append_nil], rfl⟩
    | ok text =>
      rcases ih (before ++ [path]) with
        ⟨front, path', behind, fault, texts, rfl, earlier, fails, gathered⟩ | ⟨texts, all, gathered⟩
      · refine .inl ⟨path :: front, path', behind, fault, text :: texts, rfl, ?_, ?_, ?_⟩
        · rw [readings, here, earlier, List.map_cons]
        · rwa [List.append_cons]
        · simp [gathered, Except.map]
      · refine .inr ⟨text :: texts, ?_, ?_⟩
        · rw [readings, here, all, List.map_cons]
        · simp [gathered, Except.map]

end Readings

theorem decodeAll_outcome (texts : List String) :
    (∃ front text behind e, ∃ outlines : List Outline, texts = front ++ text :: behind ∧
      front.map CssOutline.decode = outlines.map .ok ∧ CssOutline.decode text = .error e ∧
      decodeAll texts = .error (.parse e)) ∨
    ∃ outlines : List Outline, texts.map CssOutline.decode = outlines.map .ok ∧
      decodeAll texts = .ok outlines := by
  induction texts with
  | nil => exact .inr ⟨[], rfl, rfl⟩
  | cons text texts ih =>
    rw [decodeAll]
    cases here : CssOutline.decode text with
    | error e => exact .inl ⟨[], text, texts, e, [], rfl, rfl, here, rfl⟩
    | ok d =>
      rcases ih with ⟨front, text', behind, e, outlines, rfl, earlier, fails, decoded⟩ |
        ⟨outlines, all, decoded⟩
      · refine .inl ⟨text :: front, text', behind, e, d :: outlines, rfl, ?_, fails, ?_⟩
        · rw [List.map_cons, here, earlier, List.map_cons]
        · simp [decoded, Except.map]
      · refine .inr ⟨d :: outlines, ?_, ?_⟩
        · rw [List.map_cons, here, all, List.map_cons]
        · simp [decoded, Except.map]

/-- What decoding inputs leads to, as a result and as what the run leaves behind. The first that
cannot be read is reported, whatever the others hold; then the first text that is no style sheet;
and else JSON is printed that reads back as the outline of the only input, or as an outline that
has, where a displayed path is met first, the outline of the last input displayed so. -/
inductive Decodes (read : SystemText → Except InputFault String)
    (standardInput : Except InputFault String) (paths : List SystemText) :
    Except Failure String → Report → Prop
  | unreadable {front behind : List SystemText} {texts : List String} {path : SystemText}
    {fault : InputFault} (inputs : paths = front ++ path :: behind)
    (earlier : readings read standardInput [] front = texts.map .ok)
    (fails : reading read standardInput front path = .error fault) :
    Decodes read standardInput paths (.error (.input path fault))
      ⟨1, "", errorLine (.input path fault)⟩
  | unparsed {texts front behind : List String} {text : String} {e : ParseError}
    {outlines : List Outline} (readable : readings read standardInput [] paths = texts.map .ok)
    (split : texts = front ++ text :: behind)
    (earlier : front.map CssOutline.decode = outlines.map .ok)
    (fails : CssOutline.decode text = .error e) :
    Decodes read standardInput paths (.error (.parse e)) ⟨1, "", errorLine (.parse e)⟩
  | single {path : SystemText} {text printed : String} {d : Outline} (inputs : paths = [path])
    (readable : reading read standardInput [] path = .ok text)
    (decoded : CssOutline.decode text = .ok d) (back : Json.read printed = .ok d) :
    Decodes read standardInput paths (.ok printed) ⟨0, printed, ""⟩
  | several {texts : List String} {printed : String} {outlines : List Outline} {d : Outline}
    (many : 1 < paths.length) (readable : readings read standardInput [] paths = texts.map .ok)
    (decoded : texts.map CssOutline.decode = outlines.map .ok)
    (back : Json.read printed = .ok d)
    (keys : d.keys = (paths.map SystemText.display).eraseDups)
    (last : ∀ front path e behind, paths.zip outlines = front ++ (path, e) :: behind →
      path.display ∉ behind.map (·.1.display) → d.get? path.display = some (.block e)) :
    Decodes read standardInput paths (.ok printed) ⟨0, printed, ""⟩

theorem length_readings (read : SystemText → Except InputFault String)
    (standardInput : Except InputFault String) (before paths : List SystemText) :
    (readings read standardInput before paths).length = paths.length := by
  induction paths generalizing before with
  | nil => rfl
  | cons path paths ih => rw [readings, List.length_cons, ih, List.length_cons]

theorem exists_decode {texts : List String} {outlines : List Outline}
    (decoded : texts.map CssOutline.decode = outlines.map .ok) {d : Outline}
    (member : d ∈ outlines) : ∃ text, CssOutline.decode text = .ok d := by
  have found : .ok d ∈ texts.map CssOutline.decode := by
    rw [decoded]
    exact List.mem_map_of_mem member
  obtain ⟨text, _, same⟩ := List.mem_map.1 found
  exact ⟨text, same⟩

theorem read_write_ofEntries {keys texts : List String} {outlines : List Outline}
    (decoded : texts.map CssOutline.decode = outlines.map .ok) (spacing : Json.Spacing)
    {tail : String} (blank : Json.tokens tail.toList = []) :
    Json.read (Json.write spacing (Outline.ofEntries (keys.zip (outlines.map .block))) ++ tail) =
      .ok (Outline.ofEntries (keys.zip (outlines.map .block))) := by
  have blocks : ∀ e ∈ keys.zip (outlines.map Item.block), ∃ text d,
      CssOutline.decode text = .ok d ∧ e.2 = .block d := by
    intro e member
    obtain ⟨d, inside, same⟩ := List.mem_map.1 (List.of_mem_zip member).2
    obtain ⟨text, here⟩ := exists_decode decoded inside
    exact ⟨text, d, here, same.symm⟩
  refine Json.read_write_of_distinct spacing ?_ ?_ blank
  · refine Outline.Distinct.insertAll .nil _ fun e member => ?_
    obtain ⟨text, d, here, same⟩ := blocks e member
    rw [same]
    exact .block (distinct_decode here)
  · refine Outline.Every.insertAll .nil _ fun e member => ?_
    obtain ⟨text, d, here, same⟩ := blocks e member
    have low : d.height ≤ maxNesting - 0 :=
      Outline.Every.height_le (fun _ _ allowed => allowed.2.1 rfl) (every_decode here)
    have room : d.height + 1 + 1 ≤ Json.maxDepth := by
      simp only [maxNesting, Json.maxDepth] at *
      omega
    rw [same]
    exact .block (fun _ => by decide) ((Json.shallow_iff_height (by decide) d).2 room)

theorem decodes_of_decoded {read : SystemText → Except InputFault String}
    {standardInput : Except InputFault String} {paths : List SystemText} {texts : List String}
    {outlines : List Outline} (some : paths ≠ [])
    (readable : readings read standardInput [] paths = texts.map .ok)
    (decoded : texts.map CssOutline.decode = outlines.map .ok) (spacing : Json.Spacing) :
    Decodes read standardInput paths (.ok (Json.write spacing (collected paths outlines) ++ "\n"))
      ⟨0, Json.write spacing (collected paths outlines) ++ "\n", ""⟩ := by
  have lengths : paths.length = texts.length ∧ texts.length = outlines.length := by
    have first := congrArg List.length readable
    have second := congrArg List.length decoded
    simp only [length_readings, List.length_map] at first second
    exact ⟨first, second⟩
  obtain ⟨path, rfl⟩ | many : (∃ path, paths = [path]) ∨ 1 < paths.length := by
    obtain _ | ⟨path, _ | _⟩ := paths
    · exact absurd rfl some
    · exact .inl ⟨path, rfl⟩
    · exact .inr (by simp)
  · obtain ⟨text, rfl⟩ := List.length_eq_one_iff.1 lengths.1.symm
    obtain ⟨d, rfl⟩ := List.length_eq_one_iff.1 lengths.2.symm
    have here : CssOutline.decode text = .ok d := by simpa using decoded
    exact .single rfl (by simpa [readings] using readable) here
      (read_write_decode here spacing Json.tokens_newline)
  · have whole : collected paths outlines =
        Outline.ofEntries ((paths.map SystemText.display).zip (outlines.map .block)) := by
      obtain _ | ⟨d, _ | ⟨d', ds⟩⟩ := outlines
      · rfl
      · simp only [List.length_cons, List.length_nil] at lengths
        omega
      · rfl
    rw [whole]
    refine .several many readable decoded
      (read_write_ofEntries decoded spacing Json.tokens_newline) ?_
      fun front path e behind split absent => ?_
    · have firsts : ((paths.map SystemText.display).zip (outlines.map Item.block)).map Prod.fst =
          paths.map SystemText.display := by
        apply List.map_fst_zip
        rw [List.length_map, List.length_map, lengths.1, lengths.2]
      rw [Outline.ofEntries, ← Outline.insertAll,
        Outline.keys_insertAll (d := .nil) List.nodup_nil, firsts]
      rfl
    · have cut : (paths.map SystemText.display).zip (outlines.map Item.block) =
          front.map (Prod.map SystemText.display .block) ++
            (path.display, .block e) :: behind.map (Prod.map SystemText.display .block) := by
        rw [List.zip_map, split, List.map_append, List.map_cons]
        rfl
      rw [Outline.ofEntries, ← Outline.insertAll]
      exact Outline.get?_insertAll cut (by simpa using absent) .nil

/-- Decoding leads to what it has to, for all lists of inputs and whatever the files and the
standard input hold: a result is printed with code 0, and of a failure nothing but its line. A path
that is text is displayed as it is. -/
theorem decode_inputs (read : SystemText → Except InputFault String)
    (standardInput : Except InputFault String) {paths : List SystemText} (some : paths ≠ [])
    (spacing : Json.Spacing) (remark : Option Json.Remark) :
    Decodes read standardInput paths ((Command.decode paths spacing).runFrom read standardInput)
        (report ((Command.decode paths spacing).runFrom read standardInput) remark) ∧
      ∀ s : String, (SystemText.ofString s).display = s := by
  refine ⟨?_, SystemText.display_ofString⟩
  rw [runFrom, inputs]
  have nothing : left standardInput [] = standardInput := rfl
  rcases gatherFrom_outcome read standardInput [] paths with
    ⟨front, path, behind, fault, texts, rfl, earlier, fails, gathered⟩ | ⟨texts, all, gathered⟩
  · rw [nothing] at gathered
    rw [gathered]
    exact .unreadable rfl earlier fails
  · rw [nothing] at gathered
    rw [gathered]
    simp only [output]
    rcases decodeAll_outcome texts with
      ⟨front, text, behind, e, outlines, rfl, earlier, fails, decoded⟩ | ⟨outlines, each, decoded⟩
    · rw [decoded]
      exact .unparsed all rfl earlier fails
    · rw [decoded]
      exact decodes_of_decoded some all each spacing

def ruleFolder : Folder :=
  ⟨[("x", "a\x7bb:c\x7d")]⟩

theorem decode_inputs_ruleFolder :
    (["-", "x", "-"] : List SystemText) ≠ [] ∧
    report ((Command.decode ["-", "x", "-"] .compact).runFrom ruleFolder.read
        (.ok "d\x7be:f\x7d")) none =
      ⟨0, "\x7b\"-\":\x7b\x7d,\"x\":\x7b\"a\":\x7b\"b\":\"c\"\x7d\x7d\x7d\n", ""⟩ ∧
    Decodes ruleFolder.read (.ok "d\x7be:f\x7d") ["-", "x", "-"]
      (.ok "\x7b\"-\":\x7b\x7d,\"x\":\x7b\"a\":\x7b\"b\":\"c\"\x7d\x7d\x7d\n")
      ⟨0, "\x7b\"-\":\x7b\x7d,\"x\":\x7b\"a\":\x7b\"b\":\"c\"\x7d\x7d\x7d\n", ""⟩ ∧
    Decodes ruleFolder.read (.error .notText) ["x", "-"] (.error (.input "-" .notText))
      ⟨1, "", "Error: Failed to read '-': stream did not contain valid UTF-8\n"⟩ ∧
    (SystemText.ofString "x").display = "x" := by
  have printed : (Command.decode ["-", "x", "-"] .compact).runFrom ruleFolder.read
      (.ok "d\x7be:f\x7d") =
      .ok "\x7b\"-\":\x7b\x7d,\"x\":\x7b\"a\":\x7b\"b\":\"c\"\x7d\x7d\x7d\n" := by
    decide +kernel
  have failed : (Command.decode ["x", "-"] .pretty).runFrom ruleFolder.read (.error .notText) =
      .error (.input "-" .notText) := by
    decide +kernel
  have line : report (.error (.input "-" .notText)) =
      ⟨1, "", "Error: Failed to read '-': stream did not contain valid UTF-8\n"⟩ := by
    decide +kernel
  have some : (["-", "x", "-"] : List SystemText) ≠ [] := List.cons_ne_nil _ _
  have ⟨outcome, shown⟩ := decode_inputs ruleFolder.read (.ok "d\x7be:f\x7d") some .compact none
  have ⟨refused, _⟩ := decode_inputs ruleFolder.read (.error .notText)
    (List.cons_ne_nil (↑"x") [↑"-"]) .pretty none
  rw [printed] at outcome
  rw [failed, line] at refused
  exact ⟨some, by rw [printed, report], outcome, refused, shown "x"⟩

def byteFiles : SystemText → Except InputFault String
  | ⟨[0xfe]⟩ => .ok "a\x7b\x7d"
  | ⟨[0xff]⟩ => .ok "b\x7b\x7d"
  | _ => .error .notFound

/-- The keys are not the paths but what is displayed of them. One path has two keys if it is spelled
in two ways, with the same components, and two paths that are no text have one key, under which the
second outline stands alone. -/
theorem keys_displayed :
    (components "./x" = components ".//x" ∧
      (Command.decode ["./x", ".//x"] .compact).run ruleFolder.read "" =
        .ok ("\x7b\"./x\":\x7b\"a\":\x7b\"b\":\"c\"\x7d\x7d," ++
          "\".//x\":\x7b\"a\":\x7b\"b\":\"c\"\x7d\x7d\x7d\n")) ∧
    components ⟨[0xfe]⟩ ≠ components ⟨[0xff]⟩ ∧
    (Command.decode [⟨[0xfe]⟩, ⟨[0xff]⟩] .compact).run byteFiles "" =
      .ok "\x7b\"\ufffd\":\x7b\"b\":\x7b\x7d\x7d\x7d\n" := by
  decide +kernel

end Command

end CssOutline
