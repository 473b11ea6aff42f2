import CssOutline.Proofs.JsonMembers
import CssOutline.Proofs.RoundTrip

/-! Which JSON texts are read, and what they mean. A text is read just if it is written for an
object that nests no deeper than the limit and all of whose member values are allowed. The members
then are inserted in order at every level, so what is read has distinct keys, nests no deeper than
objects may, and comes back from the text written for it. -/

namespace CssOutline

namespace Outline

theorem Every.insertAll {P : Nat → String → Option String → Prop} {level : Nat} {d : Outline}
    (every : d.Every P level) (es : List (String × Item))
    (new : ∀ e ∈ es, e.2.Every P level e.1) : (d.insertAll es).Every P level := by
  induction es generalizing d with
  | nil => exact every
  | cons e es ih =>
    have here := every.insert e.1 e.2 (new e (by simp))
    exact ih here fun e' later => new e' (by simp [later])

theorem keys_insertAll {d : Outline} (nodup : d.keys.Nodup) (es : List (String × Item)) :
    (d.insertAll es).keys = (d.keys ++ es.map Prod.fst).eraseDups := by
  induction es generalizing d with
  | nil => simp [insertAll, eraseDups_of_nodup nodup]
  | cons e es ih =>
    have here := keys_insert e.1 e.2 d
    rw [insertAll, List.foldl_cons, ← insertAll, ih (here ▸ nodup_extended nodup e.1), here,
      eraseDups_extended, List.map_cons]

theorem get?_insertAll_of_not_mem {k : String} {es : List (String × Item)}
    (absent : k ∉ es.map Prod.fst) (d : Outline) : (d.insertAll es).get? k = d.get? k := by
  induction es generalizing d with
  | nil => rfl
  | cons e es ih =>
    rw [List.map_cons, List.mem_cons, not_or] at absent
    rw [insertAll, List.foldl_cons, ← insertAll, ih absent.2, get?_insert,
      if_neg (Ne.symm absent.1)]

theorem get?_insertAll {es before after : List (String × Item)} {k : String} {item : Item}
    (last : es = before ++ (k, item) :: after) (absent : k ∉ after.map Prod.fst) (d : Outline) :
    (d.insertAll es).get? k = some item := by
  have split : d.insertAll es = ((d.insertAll before).insert k item).insertAll after := by
    rw [last, insertAll, List.foldl_append, List.foldl_cons]
    rfl
  rw [split, get?_insertAll_of_not_mem absent, get?_insert, if_pos rfl]

end Outline

namespace Json

open Numeral (Written)

/-! ### What is read can be written -/

theorem shallow_iff_height {level : Nat} (room : level + 1 ≤ maxDepth) (d : Outline) :
    Shallow level d ↔ d.height + level + 1 ≤ maxDepth := by
  unfold Shallow
  induction d generalizing level with
  | nil => exact ⟨fun _ => by simpa [Outline.height] using room, fun _ => .nil⟩
  | value key text rest ih =>
    rw [Outline.height, ← ih room]
    constructor
    · rintro (_ | ⟨-, later⟩)
      exact later
    · exact fun later => .value (by simp) later
  | block key body rest inner ih =>
    rw [Outline.height]
    constructor
    · rintro (_ | _ | ⟨fits, deeper, later⟩)
      have below := (inner (fits rfl)).1 deeper
      have beside := (ih room).1 later
      omega
    · intro low
      exact .block (fun _ => by omega) ((inner (by omega)).2 (by omega)) ((ih room).2 (by omega))

mutual

theorem Tree.every_item (level : Nat) (key : String) :
    (t : Tree) → t.depth 1 + level + 1 ≤ maxDepth →
      t.item.Every (fun level _ text => text = none → level + 2 ≤ maxDepth) level key
  | .object members, room => by
    rw [Tree.depth] at room
    rw [Tree.item]
    refine .block (fun _ => by omega) ?_
    exact Outline.Every.nil.insertAll _ (every_entriesOf (level + 1) members (by omega))
  | .string _, _ => .value (by simp)
  | .number _, _ => .value (by simp)
  | .null, _ => .value (by simp)
  | .bool _, _ => .value (by simp)
  | .array _, _ => .value (by simp)

theorem every_entriesOf (level : Nat) :
    (members : List (String × Tree)) → memberDepth 1 members + level + 1 ≤ maxDepth →
      ∀ e ∈ entriesOf members,
        e.2.Every (fun level _ text => text = none → level + 2 ≤ maxDepth) level e.1
  | [], _ => by simp [entriesOf]
  | (key, t) :: ms, room => by
    rw [memberDepth] at room
    have here := t.every_item level key (by omega)
    have later := every_entriesOf level ms (by omega)
    simpa [entriesOf] using ⟨here, fun k item => later (k, item)⟩

end

theorem shallow_of_read {text : String} {d : Outline} (ok : read text = .ok d) : Shallow 0 d := by
  obtain ⟨members, -, shallow, -, rfl⟩ := exists_tree_of_read ok
  rw [Tree.depth] at shallow
  exact Outline.Every.nil.insertAll _ (every_entriesOf 0 members shallow)

/-- An outline comes back from the JSON text written for it, on one line or on many, just if keys
are distinct on every level and no more objects nest than may, the root included. -/
theorem read_write_iff (spacing : Spacing) (d : Outline) :
    read (write spacing d) = .ok d ↔ d.Distinct ∧ d.height + 1 ≤ maxDepth := by
  have height : Shallow 0 d ↔ d.height + 1 ≤ maxDepth := shallow_iff_height (by decide) d
  constructor
  · intro ok
    exact ⟨distinct_of_read ok, height.1 (shallow_of_read ok)⟩
  · rintro ⟨distinct, low⟩
    have back : read (write spacing d ++ "") = .ok d :=
      read_write_of_distinct spacing distinct (height.2 low) (by simp [tokens])
    rwa [String.append_empty] at back

/-! ### Which texts are read -/

theorem map_fst_entriesOf (members : List (String × Tree)) :
    (entriesOf members).map Prod.fst = members.map Prod.fst := by
  induction members with
  | nil => rfl
  | cons m ms ih => simp [entriesOf, ih]

theorem entriesOf_append (front back : List (String × Tree)) :
    entriesOf (front ++ back) = entriesOf front ++ entriesOf back := by
  induction front with
  | nil => rfl
  | cons m ms ih => simp [entriesOf, ih]

theorem read_of_root {text : String} {t : Tree} {found : Found} (grammar : t.IsText text.toList)
    (type : t.found? = some found) : read text = .error (.rootType found) := by
  rw [read, grammar.tokens_eq]
  cases t with
  | object => cases type
  | number literal =>
    rw [Tree.found?, Option.map_eq_some_iff] at type
    obtain ⟨n, range, rfl⟩ := type
    simp [Tree.marks, tokensOf, Mark.token?, range, readTokens]
  | _ => cases type; rfl

theorem afterValues_of_first {before after : List Tree} {v : Tree} {found : Found}
    (allowed : ∀ u ∈ before, u.IsAllowed) (refused : ¬ v.IsAllowed)
    (type : v.found? = some found) (next : Except ReadError Outline) :
    afterValues (before ++ v :: after) next = .error (.memberType found) := by
  have here : afterValues (v :: after) next = .error (.memberType found) := by
    simp [afterValues, Tree.refusal?_of_not_isAllowed refused type]
  rw [afterValues_append, afterValues_of_allowed allowed, here]

theorem exists_isText_iff {body : List Char} :
    (∃ s, (Mark.string s).IsText ('"' :: body ++ ['"'])) ↔ ∃ s, SpellsAll s body := by
  constructor
  · rintro ⟨s, body', all, same⟩
    simp only [List.cons_append, List.cons.injEq, true_and, List.append_cancel_right_eq] at same
    exact ⟨_, same ▸ all⟩
  · rintro ⟨s, all⟩
    exact ⟨String.ofList s, body, by rwa [String.toList_ofList], rfl⟩

/-- A text is read just if it is written for an object within the nesting limit, in which every
member's value, at every depth, is a string, a number in range or an object. Its members then are
inserted in order: each key stands where it is met first and has the value it is given last; whole
numbers within 64 bits stay as they are written. A text for something else is refused for the type
of the first value that is not allowed. Strings are written by all literals of the format without a
half of a surrogate pair alone. -/
theorem read_iff (text : String) :
    (∀ d, read text = .ok d ↔ ∃ members, (Tree.object members).IsText text.toList ∧
      (Tree.object members).depth 1 ≤ maxDepth ∧ (∀ v ∈ memberValues members, v.IsAllowed) ∧
      d = .ofEntries (entriesOf members)) ∧
    (∀ (t : Tree) (found : Found), t.IsText text.toList → t.found? = some found →
      read text = .error (.rootType found)) ∧
    (∀ members before v after found, (Tree.object members).IsText text.toList →
      (Tree.object members).depth 1 ≤ maxDepth → memberValues members = before ++ v :: after →
      (∀ u ∈ before, u.IsAllowed) → ¬ v.IsAllowed → v.found? = some found →
      read text = .error (.memberType found)) ∧
    (∀ members, (Outline.ofEntries (entriesOf members)).keys =
        (members.map Prod.fst).eraseDups ∧
      ∀ before key t after, members = before ++ (key, t) :: after →
        key ∉ after.map Prod.fst →
        (Outline.ofEntries (entriesOf members)).get? key = some t.item) ∧
    (∀ units body, IsLiteral units body →
      ((∃ s, (Mark.string s).IsText ('"' :: body ++ ['"'])) ↔ IsPaired units)) ∧
    ∀ (w : Written) (cs : List Char), (Mark.number w).IsText cs →
      (w.IsInteger → w.decimal = String.ofList cs) ∧
      (w.size * (1 + 1 / 2 ^ 51) < overflow → w.InRange) ∧
      (overflow ≤ w.size * (1 - 1 / 2 ^ 51) → ¬ w.InRange) := by
  refine ⟨fun d => ⟨exists_tree_of_read, ?_⟩, ?_, ?_, ?_, ?_, ?_⟩
  · rintro ⟨members, grammar, shallow, allowed, rfl⟩
    rw [read_of_isText grammar shallow, afterValues_of_allowed allowed]
  · exact fun t found grammar type => read_of_root grammar type
  · intro members before v after found grammar shallow values allowed refused type
    rw [read_of_isText grammar shallow, values, afterValues_of_first allowed refused type]
  · intro members
    constructor
    · have keys := Outline.keys_insertAll Outline.Distinct.nil.nodup_keys (entriesOf members)
      rwa [map_fst_entriesOf] at keys
    · rintro before key t after rfl absent
      have split : entriesOf (before ++ (key, t) :: after) =
          entriesOf before ++ (key, t.item) :: entriesOf after := by
        rw [entriesOf_append, entriesOf]
      exact Outline.get?_insertAll split (by rwa [map_fst_entriesOf]) .nil
  · intro units body literal
    rw [← exists_spellsAll_iff literal]
    exact exists_isText_iff
  · rintro w cs ⟨unsigned, number, text⟩
    have fraction : ∀ c ∈ w.fraction.getD [], c.isDigit := by
      cases digits : w.fraction with
      | none => simp
      | some ds => exact (number.fraction ds digits).2
    exact ⟨decimal_of_isInteger ⟨unsigned, number, text⟩,
      inRange_of_size_lt number.whole.2 fraction, not_inRange_of_le_size number.whole.2 fraction⟩

theorem Tree.isText_chars {t : Tree} (proper : ∀ m ∈ t.marks, m.IsProper) :
    t.IsText (t.marks.flatMap Mark.chars) :=
  madeOf_chars proper

def repeatedMembers : List (String × Tree) :=
  [("a", .object [("x", .string "1")]), ("b", .string ""),
    ("a", .number ⟨true, ['1', '2'], none, none⟩)]

def repeatedText : String := "\x7b\"a\":\x7b\"x\":\"1\"\x7d,\"b\":\"\",\"a\":-12\x7d"

def misfitMembers : List (String × Tree) :=
  [("a", .object [("x", .array [.null])]), ("b", .null)]

def misfitText : String := "\x7b\"a\":\x7b\"x\":[null]\x7d,\"b\":null\x7d"

theorem isNumeral_twelve : IsNumeral ⟨true, ['1', '2'], none, none⟩ := by
  decide

theorem isText_twelve : (Mark.number ⟨true, ['1', '2'], none, none⟩).IsText ['-', '1', '2'] :=
  Mark.isText_chars isNumeral_twelve

def powerOfTen (k : Nat) : Written :=
  ⟨false, ['1'], none, some k⟩

theorem isText_powerOfTen (k : Nat) :
    (Mark.number (powerOfTen k)).IsText (Mark.number (powerOfTen k)).chars := by
  have digits : IsDigits ['1'] := by decide
  exact Mark.isText_chars ⟨digits, by simp [powerOfTen], by simp [powerOfTen]⟩

theorem size_powerOfTen (k : Nat) : (powerOfTen k).size = 10 ^ k := by
  simp [Written.size, powerOfTen, Number.ofDigits]

theorem isText_repeatedMembers : (Tree.object repeatedMembers).IsText repeatedText.toList := by
  have text : repeatedText.toList = (Tree.object repeatedMembers).marks.flatMap Mark.chars := by
    decide +kernel
  rw [text]
  exact Tree.isText_chars (by
    simp [repeatedMembers, Tree.marks, memberMarks, Mark.IsProper, isNumeral_twelve])

theorem isText_misfitMembers : (Tree.object misfitMembers).IsText misfitText.toList := by
  have text : misfitText.toList = (Tree.object misfitMembers).marks.flatMap Mark.chars := by
    decide +kernel
  rw [text]
  exact Tree.isText_chars (by
    simp [misfitMembers, Tree.marks, memberMarks, itemMarks, Mark.IsProper])

theorem read_iff_repeatedMembers :
    (∃ d, read repeatedText = .ok d ∧ d.keys = ["a", "b"] ∧
      d.get? "a" = some (.value "-12")) ∧
    read misfitText = .error (.memberType .sequence) ∧
    read "[]" = .error (.rootType .sequence) ∧
    (powerOfTen 308).InRange ∧ ¬ (powerOfTen 309).InRange := by
  obtain ⟨whole, -, -, inserted, -, numbers⟩ := read_iff repeatedText
  have allowed : ∀ v ∈ memberValues repeatedMembers, v.IsAllowed := by
    have range : Written.InRange ⟨true, ['1', '2'], none, none⟩ := by decide
    simp [repeatedMembers, memberValues, Tree.values, Tree.IsAllowed, range]
  have decimal : Written.decimal ⟨true, ['1', '2'], none, none⟩ = "-12" :=
    (numbers _ _ isText_twelve).1 ⟨rfl, rfl, by decide⟩
  refine ⟨⟨_, (whole _).2 ⟨repeatedMembers, isText_repeatedMembers, by decide, allowed, rfl⟩,
    ?_, ?_⟩, ?_, ?_, ?_, ?_⟩
  · exact (inserted repeatedMembers).1
  · rw [(inserted repeatedMembers).2 [("a", .object [("x", .string "1")]), ("b", .string "")] "a"
      (.number ⟨true, ['1', '2'], none, none⟩) [] rfl (by simp), Tree.item, decimal]
  · exact (read_iff misfitText).2.2.1 misfitMembers [.object [("x", .array [.null])]]
      (.array [.null]) [.null] .sequence isText_misfitMembers (by decide) rfl
      (by simp [Tree.IsAllowed]) (by simp [Tree.IsAllowed]) rfl
  · have text : (Tree.array []).IsText "[]".toList := Tree.isText_chars (by
      simp [Tree.marks, itemMarks, Mark.IsProper])
    exact (read_iff "[]").2.1 (.array []) .sequence text rfl
  · refine (numbers _ _ (isText_powerOfTen 308)).2.1 ?_
    rw [size_powerOfTen]
    exact pow_ten_mul_lt (by norm_num)
  · refine (numbers _ _ (isText_powerOfTen 309)).2.2 ?_
    have large : overflow < 10 ^ 308 * (10 * (1 - 1 / 2 ^ 51)) := lt_pow_ten_mul (by norm_num)
    rw [size_powerOfTen, pow_succ, mul_assoc]
    exact large.le

/-- A little less than the greatest number there is. -/
def closeNumber : Written :=
  ⟨false, ['1'], some "797693134862315708".toList, some 308⟩

def closeMembers : List (String × Tree) :=
  [("b", .object [("a", .number closeNumber)])]

def closeText : String := "\x7b\"b\":\x7b\"a\":1.797693134862315708e308\x7d\x7d"

theorem isText_closeMembers : (Tree.object closeMembers).IsText closeText.toList := by
  have text : closeText.toList = (Tree.object closeMembers).marks.flatMap Mark.chars := by
    decide +kernel
  have numeral : IsNumeral closeNumber := by decide +kernel
  rw [text]
  exact Tree.isText_chars (by simp [closeMembers, Tree.marks, memberMarks, Mark.IsProper, numeral])

theorem size_closeNumber : closeNumber.size < (2 ^ 53 - 1) * 2 ^ 971 := by
  have digits : Number.ofDigits (closeNumber.whole ++ closeNumber.fraction.getD []) =
      1797693134862315708 := by decide +kernel
  have exponent : closeNumber.exponent.getD 0 - ((closeNumber.fraction.getD []).length : Int) =
      (290 : Nat) := by decide +kernel
  have less : 1797693134862315708 * 10 ^ 290 < 9007199254740991 * 2 ^ 971 := by decide +kernel
  have cast := (Nat.cast_lt (α := ℚ)).2 less
  simp only [Nat.cast_mul, Nat.cast_pow, Nat.cast_ofNat] at cast
  have greatest : (2 : ℚ) ^ 53 - 1 = 9007199254740991 := by norm_num
  rw [Written.size, digits, exponent, zpow_natCast, greatest]
  exact cast

def nested : Nat → Tree
  | 0 => .array []
  | n + 1 => .object [("a", nested n)]

def deepText : String :=
  String.ofList ((nested maxDepth).marks.flatMap Mark.chars)

theorem isText_nested (n : Nat) : (nested n).IsText ((nested n).marks.flatMap Mark.chars) := by
  apply Tree.isText_chars
  induction n with
  | zero => simp [nested, Tree.marks, itemMarks, Mark.IsProper]
  | succ n ih => simpa [nested, Tree.marks, memberMarks, Mark.IsProper, or_imp, forall_and] using ih

theorem depth_nested (n : Nat) : (nested n).depth 0 = n := by
  induction n with
  | zero => rfl
  | succ n ih => simp [nested, Tree.depth, memberDepth, ih]

theorem values_nested (n : Nat) :
    ∃ before, (nested (n + 1)).values = before ++ [.array []] ∧ ∀ v ∈ before, v.IsAllowed := by
  induction n with
  | zero => exact ⟨[], rfl, by simp⟩
  | succ n ih =>
    obtain ⟨before, values, allowed⟩ := ih
    refine ⟨nested (n + 1) :: before, ?_, ?_⟩
    · rw [nested, Tree.values, memberValues, memberValues, values]
      simp
    · simpa [nested, Tree.IsAllowed] using allowed

/-- A half of a surrogate pair, and nothing else. -/
def loneSurrogate : List Char :=
  ['\\', 'u', 'd', 'e', 'a', 'd']

theorem isLiteral_loneSurrogate : IsLiteral [some 0xdead] loneSurrogate := by
  have code : IsUnit ['d', 'e', 'a', 'd'] 0xdead := ⟨13, 14, 10, 13, by decide, by decide⟩
  exact .unit code .nil

/-- The limits are not those of the format and of objects alone. A number below the greatest finite
one is not read if the rounded power of ten takes the product beyond it, an array in the innermost
object is too deep to be refused for its type, and a literal with a half of a surrogate pair is not
read, also before a value that would be refused for its type. -/
theorem limits_differ :
    ((Tree.object closeMembers).IsText closeText.toList ∧
      closeNumber.size < (2 ^ 53 - 1) * 2 ^ 971 ∧ ∀ d, read closeText ≠ .ok d) ∧
    (∃ members before, (Tree.object members).IsText deepText.toList ∧
      (Tree.object members).depth 0 = maxDepth ∧ memberValues members = before ++ [.array []] ∧
      (∀ v ∈ before, v.IsAllowed) ∧ ∀ found, read deepText ≠ .error (.memberType found)) ∧
    IsLiteral [some 0xdead] loneSurrogate ∧
    (∀ d, read ("\x7b\"a\":\"" ++ String.ofList loneSurrogate ++ "\"\x7d") ≠ .ok d) ∧
    ∀ found, read ("\x7b\"a\":\"" ++ String.ofList loneSurrogate ++ "\",\"b\":null\x7d") ≠
      .error (.memberType found) := by
  have close : read closeText = .error .notJson := by
    rw [read, isText_closeMembers.tokens_eq]
    decide +kernel
  have grammar : (nested maxDepth).IsText deepText.toList := by
    rw [deepText, String.toList_ofList]
    exact isText_nested maxDepth
  have deep : read deepText = .error .notJson := by
    rw [read, grammar.tokens_eq]
    decide +kernel
  obtain ⟨before, values, allowed⟩ := values_nested 126
  have alone : read ("\x7b\"a\":\"" ++ String.ofList loneSurrogate ++ "\"\x7d") =
      .error .notJson := by
    decide +kernel
  have aloneBefore : read ("\x7b\"a\":\"" ++ String.ofList loneSurrogate ++ "\",\"b\":null\x7d") =
      .error .notJson := by
    decide +kernel
  exact ⟨⟨isText_closeMembers, size_closeNumber, by simp [close]⟩,
    ⟨_, before, grammar, depth_nested maxDepth, values, allowed, by simp [deep]⟩,
    isLiteral_loneSurrogate, by simp [alone], by simp [aloneBefore]⟩

end Json

end CssOutline
