/-!
Texts as the system passes them. An argument or a path is a list of bytes that need not be UTF-8.
It is displayed with a replacement character for each part that is the longest beginning of a
character that does not go on, or else a single byte.
-/

namespace CssOutline

structure SystemText where
  bytes : List UInt8
deriving DecidableEq, Repr

namespace SystemText

def ofString (s : String) : SystemText :=
  ⟨s.toList.flatMap String.utf8EncodeChar⟩

instance : Coe String SystemText :=
  ⟨ofString⟩

instance : Coe (List String) (List SystemText) :=
  ⟨List.map ofString⟩

def continuations (first : UInt8) : Nat :=
  if 0xc2 ≤ first ∧ first ≤ 0xdf then 1
  else if 0xe0 ≤ first ∧ first ≤ 0xef then 2
  else if 0xf0 ≤ first ∧ first ≤ 0xf4 then 3
  else 0

/-- Whether a byte may follow the first one. Overlong forms, surrogates and what is beyond the last
character are ruled out here. -/
def follows (first second : UInt8) : Bool :=
  if first = 0xe0 then 0xa0 ≤ second && second ≤ 0xbf
  else if first = 0xed then 0x80 ≤ second && second ≤ 0x9f
  else if first = 0xf0 then 0x90 ≤ second && second ≤ 0xbf
  else if first = 0xf4 then 0x80 ≤ second && second ≤ 0x8f
  else 0x80 ≤ second && second ≤ 0xbf

/-- How many bytes after the first belong to a character that does not go on. -/
def broken (first : UInt8) : List UInt8 → Nat
  | [] => 0
  | second :: rest =>
    match continuations first with
    | 0 => 0
    | more + 1 =>
      if follows first second then
        1 + ((rest.take more).takeWhile fun b => 0x80 ≤ b && b ≤ 0xbf).length
      else 0

/-- The displayed characters after some bytes that are passed over. -/
def shown : Nat → List UInt8 → List Char
  | _, [] => []
  | skipped + 1, _ :: rest => shown skipped rest
  | 0, first :: rest =>
    match (first :: rest.take 3).toByteArray.utf8DecodeChar? 0 with
    | some c => c :: shown (c.utf8Size - 1) rest
    | none => '\ufffd' :: shown (broken first rest) rest

def display (t : SystemText) : String :=
  String.ofList (shown 0 t.bytes)

def text? (t : SystemText) : Option String :=
  if ofString t.display = t then some t.display else none

theorem shown_append (skipped : List UInt8) (rest : List UInt8) :
    shown skipped.length (skipped ++ rest) = shown 0 rest := by
  induction skipped with
  | nil => rfl
  | cons b bs ih => simpa [shown] using ih

theorem shown_encode (c : Char) (rest : List UInt8) :
    shown 0 (String.utf8EncodeChar c ++ rest) = c :: shown 0 rest := by
  have size : (String.utf8EncodeChar c).length = c.utf8Size := String.length_utf8EncodeChar c
  have wide : c.utf8Size ≤ 4 := c.utf8Size_le_four
  obtain ⟨first, bytes, encoded⟩ := List.exists_cons_of_length_pos
    (by rw [size]; exact c.utf8Size_pos : 0 < (String.utf8EncodeChar c).length)
  have length : bytes.length = c.utf8Size - 1 := by
    rw [← size, encoded, List.length_cons, Nat.add_sub_cancel]
  have front : first :: (bytes ++ rest).take 3 =
      String.utf8EncodeChar c ++ rest.take (3 - bytes.length) := by
    rw [encoded, List.cons_append, List.take_append, List.take_of_length_le (by omega)]
  have decoded : (first :: (bytes ++ rest).take 3).toByteArray.utf8DecodeChar? 0 = some c := by
    rw [front, List.toByteArray_append]
    exact ByteArray.utf8DecodeChar?_utf8EncodeChar_append
  rw [encoded, List.cons_append, shown, decoded]
  simp only
  rw [← length, shown_append]

theorem display_ofString (s : String) : (ofString s).display = s := by
  have all (cs : List Char) : shown 0 (cs.flatMap String.utf8EncodeChar) = cs := by
    induction cs with
    | nil => rfl
    | cons c cs ih => rw [List.flatMap_cons, shown_encode, ih]
  rw [display, ofString, all, String.ofList_toList]

/-- A character that does not go on is replaced as one, a byte that starts none by itself. -/
example : (⟨[0xff, 0x61, 0xe2, 0x82, 0x62]⟩ : SystemText).display = "\ufffda\ufffdb" := by
  decide +kernel

end SystemText

end CssOutline
