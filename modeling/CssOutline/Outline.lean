/-!
Outlines: ordered trees of rules. Each level is a run of keyed entries, an entry holding either a
value or a nested outline, its block. Levels and blocks are one inductive type, so recursion on
an outline is plain structural recursion. Inserting replaces an entry in place; merging joins
blocks that meet under one key.
-/

namespace CssOutline

inductive Outline where
  | nil
  | value (key text : String) (rest : Outline)
  | block (key : String) (body rest : Outline)
deriving DecidableEq, Repr, Inhabited

/-- What stands under a key. -/
inductive Item where
  | value (text : String)
  | block (body : Outline)
deriving DecidableEq, Repr

namespace Item

def text? : Item → Option String
  | value text => some text
  | block _ => none

def body? : Item → Option Outline
  | value _ => none
  | block body => some body

end Item

namespace Outline

def cons (key : String) : Item → Outline → Outline
  | .value text, rest => .value key text rest
  | .block body, rest => .block key body rest

def entries : Outline → List (String × Item)
  | nil => []
  | value key text rest => (key, .value text) :: rest.entries
  | block key body rest => (key, .block body) :: rest.entries

def keys : Outline → List String
  | nil => []
  | value key _ rest => key :: rest.keys
  | block key _ rest => key :: rest.keys

def size (d : Outline) : Nat :=
  d.keys.length

def isEmpty : Outline → Bool
  | nil => true
  | _ => false

def get? (k : String) : Outline → Option Item
  | nil => none
  | value key text rest => if key = k then some (.value text) else rest.get? k
  | block key body rest => if key = k then some (.block body) else rest.get? k

def contains (k : String) (d : Outline) : Bool :=
  (d.get? k).isSome

/-- Sets the item under a key: in place if the key is there, at the end otherwise. -/
def insert (k : String) (item : Item) : Outline → Outline
  | nil => cons k item nil
  | value key text rest =>
    if key = k then cons k item rest else value key text (rest.insert k item)
  | block key body rest =>
    if key = k then cons k item rest else block key body (rest.insert k item)

/-- Puts a block under a key. A block that is already there is joined instead; a value gives
way to the new block. -/
def putBlock (d : Outline) (k : String) (new : Outline) (join : Outline → Outline) : Outline :=
  match d with
  | nil => block k new nil
  | value key text rest =>
    if key = k then block k new rest else value key text (rest.putBlock k new join)
  | block key body rest =>
    if key = k then block k (join body) rest else block key body (rest.putBlock k new join)

/-- Merges every entry of an outline into another, in order. Two blocks under one key merge by
the same rule; otherwise the incoming item wins. -/
def mergeInto : Outline → Outline → Outline
  | nil, d => d
  | value key text rest, d => mergeInto rest (d.insert key (.value text))
  | block key body rest, d => mergeInto rest (d.putBlock key body (mergeInto body))

def merge (d incoming : Outline) : Outline :=
  incoming.mergeInto d

def mergeItem (k : String) : Item → Outline → Outline
  | .value text, d => d.insert k (.value text)
  | .block body, d => d.putBlock k body body.mergeInto

def ofEntries (es : List (String × Item)) : Outline :=
  es.foldl (fun d e => d.insert e.1 e.2) nil

@[simp] theorem entries_cons (k : String) (item : Item) (d : Outline) :
    (cons k item d).entries = (k, item) :: d.entries := by
  cases item <;> rfl

theorem keys_eq_map_entries (d : Outline) : d.keys = d.entries.map Prod.fst := by
  induction d with
  | nil => rfl
  | value key text rest ih => simp [keys, entries, ih]
  | block key body rest _ ih => simp [keys, entries, ih]

theorem mergeItem_eq_mergeInto (k : String) (item : Item) (d : Outline) :
    d.mergeItem k item = (cons k item nil).mergeInto d := by
  cases item <;> rfl

end Outline

end CssOutline
