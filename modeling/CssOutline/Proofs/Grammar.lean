import CssOutline.Outline
import CssOutline.Selector

/-! Outlines of plain style sheets. Names are lowercase; values are words between blanks and
commas; selectors are built of elements, classes, identities and pseudo-classes; conditions are
names and features in parentheses. Every part is given with the characters it is written in. -/

namespace CssOutline.Grammar

structure Many (α : Type) where
  first : α
  more : List α

namespace Many

variable {α : Type}

def toList (m : Many α) : List α :=
  m.first :: m.more

/-- The things one after the other, with a separator between them. -/
def chars (separator : List Char) (text : α → List Char) (m : Many α) : List Char :=
  text m.first ++ m.more.flatMap fun a => separator ++ text a

@[elab_as_elim] theorem induction {P : Many α → Prop} (single : ∀ a, P ⟨a, []⟩)
    (cons : ∀ a b rest, P ⟨b, rest⟩ → P ⟨a, b :: rest⟩) (m : Many α) : P m := by
  obtain ⟨first, more⟩ := m
  induction more generalizing first with
  | nil => exact single first
  | cons b rest ih => exact cons first b rest (ih b)

theorem chars_single (separator : List Char) (text : α → List Char) (a : α) :
    chars separator text ⟨a, []⟩ = text a := by
  simp [chars]

theorem chars_cons (separator : List Char) (text : α → List Char) (a b : α) (rest : List α) :
    chars separator text ⟨a, b :: rest⟩ =
      text a ++ (separator ++ chars separator text ⟨b, rest⟩) := by
  simp [chars]

end Many

def isNamePart (c : Char) : Bool :=
  c.isLower || c.isDigit || c == '-'

/-- A lowercase letter, then lowercase letters, digits and hyphens. -/
structure Name where
  first : Char
  rest : List Char
  lower : first.isLower
  parts : ∀ c ∈ rest, isNamePart c

def Name.ofChars (first : Char) (rest : List Char) (lower : first.isLower)
    (parts : rest.all isNamePart) : Name :=
  ⟨first, rest, lower, List.all_eq_true.1 parts⟩

def Name.chars (n : Name) : List Char :=
  n.first :: n.rest

def Name.text (n : Name) : String :=
  String.ofList n.chars

structure Digits where
  first : Char
  rest : List Char
  digit : first.isDigit
  digits : ∀ c ∈ rest, c.isDigit

def Digits.chars (d : Digits) : List Char :=
  d.first :: d.rest

inductive Suffix where
  | none
  | percent
  | unit (first : Char) (rest : List Char) (lower : first.isLower) (letters : ∀ c ∈ rest, c.isLower)

def Suffix.chars : Suffix → List Char
  | none => []
  | percent => ['%']
  | unit first rest _ _ => first :: rest

inductive Word where
  | name (name : Name)
  | number (digits : Digits) (suffix : Suffix)

def Word.chars : Word → List Char
  | name n => n.chars
  | number digits suffix => digits.chars ++ suffix.chars

abbrev Words := Many Word

def Words.chars (ws : Words) : List Char :=
  Many.chars [' '] Word.chars ws

/-- Groups of words with commas between them: the value of a declaration or a feature. -/
abbrev Groups := Many Words

def Groups.chars (gs : Groups) : List Char :=
  Many.chars [',', ' '] Words.chars gs

inductive Subject where
  | element (name : Name)
  | universal
  | nesting

def Subject.chars : Subject → List Char
  | element n => n.chars
  | universal => ['*']
  | nesting => ['&']

inductive Filter where
  | className (name : Name)
  | identity (name : Name)
  | pseudo (name : Name)

def Filter.chars : Filter → List Char
  | className n => '.' :: n.chars
  | identity n => '#' :: n.chars
  | pseudo n => ':' :: n.chars

structure Compound where
  subject : Option Subject
  filters : List Filter
  something : subject.isSome ∨ filters ≠ []

def Compound.chars (c : Compound) : List Char :=
  (c.subject.map Subject.chars).getD [] ++ c.filters.flatMap Filter.chars

structure Complex where
  first : Compound
  more : List (Combinator × Compound)

def Complex.chars (s : Complex) : List Char :=
  s.first.chars ++ s.more.flatMap fun (c, compound) => c.symbol.toList ++ compound.chars

inductive Test where
  | name (name : Name)
  | feature (name : Name) (value : Option Groups)

def Test.chars : Test → List Char
  | name n => n.chars
  | feature n none => '(' :: (n.chars ++ [')'])
  | feature n (some v) => '(' :: (n.chars ++ ':' :: ' ' :: (v.chars ++ [')']))

abbrev Tests := Many Test

def Tests.chars (ts : Tests) : List Char :=
  Many.chars [' '] Test.chars ts

inductive Key where
  | style (selectors : Many Complex)
  | media (queries : Many Tests)
  | supports (condition : Tests)
  | container (condition : Tests)
  | layer (name : Name)

def Key.chars : Key → List Char
  | style selectors => Many.chars [',', ' '] Complex.chars selectors
  | media queries => "@media ".toList ++ Many.chars [',', ' '] Tests.chars queries
  | supports condition => "@supports ".toList ++ condition.chars
  | container condition => "@container ".toList ++ condition.chars
  | layer n => "@layer ".toList ++ n.chars

def Key.text (k : Key) : String :=
  String.ofList k.chars

/-- What a value inside a block stands under. -/
inductive Label where
  | standard (name : Name)
  | custom (name : Name)

def Label.chars : Label → List Char
  | standard n => n.chars
  | custom n => '-' :: '-' :: n.chars

def Label.text (l : Label) : String :=
  String.ofList l.chars

/-- Every entry is a block under a key, a layer without a block or, inside a block only, a
declaration. -/
inductive Supported : Bool → Outline → Prop
  | nil {inside : Bool} : Supported inside .nil
  | block {inside : Bool} (key : Key) {body rest : Outline} (inner : Supported true body)
    (later : Supported inside rest) : Supported inside (.block key.text body rest)
  | layer {inside : Bool} (name : Name) {rest : Outline} (later : Supported inside rest) :
    Supported inside (.value (Key.layer name).text "" rest)
  | declaration (label : Label) (value : Groups) {rest : Outline} (later : Supported true rest) :
    Supported true (.value label.text (String.ofList value.chars) rest)

end CssOutline.Grammar
