import CssOutline.Proofs.PrintedSelectors
import CssOutline.Proofs.Walk.Completion

/-! How selectors are written. Between two simple selectors stand blanks, comments and at most one
sign of a combinator. A sign stands for its combinator, blanks without a sign stand for the
descendant combinator, and comments stand for nothing. So it is in the arguments of pseudo-classes
and pseudo-elements too, at any depth. -/

namespace CssOutline

open Node (symbol? symbols readSelectors trimmedText)
open ComplexSelector (push afterCombinator isCombinator readFrom)
open Walk (combinator? lead_induction)

def Node.signs (ns : List Node) : List Combinator :=
  ns.filterMap fun n => combinator? n.token

/-- A simple selector in its nodes, and the combinator that the nodes before it stand for. -/
structure SelectorPart where
  gap : List Node
  joint : Option Combinator
  nodes : List Node
  component : Component

namespace SelectorPart

def components (p : SelectorPart) : List Component :=
  (p.joint.map Component.combinator).toList ++ [p.component]

def source (p : SelectorPart) : List Node :=
  p.gap ++ p.nodes

structure Joined (p : SelectorPart) : Prop where
  gap : ∀ n ∈ p.gap, n.isTrivia ∨ (combinator? n.token).isSome
  sign : Node.signs p.gap = (p.joint.filter (· ≠ .descendant)).toList

def Spaced (p : SelectorPart) : Prop :=
  p.joint = some .descendant ↔
    (∃ n ∈ p.gap, n.token = .whitespace) ∧ ∀ n ∈ p.gap, ∀ c ∈ ['>', '+', '~'], n.token ≠ .delim c

structure InRow (parts : List SelectorPart) : Prop where
  joined : ∀ p ∈ parts, p.Joined
  relative : ∀ p ∈ parts.head?, p.joint ≠ some .descendant
  spaced : ∀ p ∈ parts.tail, p.Spaced

end SelectorPart

def PseudoKind.colons : PseudoKind → List Token
  | classes => [.colon]
  | element => [.colon, .colon]

/-- The colons before the name of a pseudo-class or pseudo-element, with comments behind them. -/
structure PseudoKind.Marks (kind : PseudoKind) (ns : List Node) : Prop where
  colons : (ns.filter fun n => !n.isComment).map Node.token = kind.colons
  first : ∀ n ∈ ns.head?, n.isComment = false

mutual

/-- The nodes of a simple selector, from its first token to its last. -/
inductive Component.WrittenAs : Component → List Node → Prop
  | element {n : Node} {name : String} (token : n.token = .ident name) :
    Component.WrittenAs (.element name) [n]
  | universal {n : Node} (token : n.token = .delim '*') : Component.WrittenAs .universal [n]
  | nesting {n : Node} (token : n.token = .delim '&') : Component.WrittenAs .nesting [n]
  | identity {n : Node} {name : String} (token : n.token = .idHash name) :
    Component.WrittenAs (.identity name) [n]
  | className {dot n : Node} {comments : List Node} {name : String} (sign : dot.token = .delim '.')
    (only : ∀ m ∈ comments, m.token = .comment) (token : n.token = .ident name) :
    Component.WrittenAs (.className name) (dot :: (comments ++ [n]))
  | hasAttribute {l : Lexeme} {body : List Node} {closing : Option Lexeme} {a : Attribute}
    (token : l.token = .openSquare) (read : Attribute.read body = .ok a) :
    Component.WrittenAs (.hasAttribute a) [.block l body closing]
  | pseudo {kind : PseudoKind} {marks : List Node} {n : Node} {name : String}
    (colons : kind.Marks marks) (token : n.token = .ident name) :
    Component.WrittenAs (.pseudo kind name .none) (marks ++ [n])
  | function {kind : PseudoKind} {marks body : List Node} {l : Lexeme} {closing : Option Lexeme}
    {name : String} {argument : Argument} (colons : kind.Marks marks)
    (token : l.token = .function name) (inside : Argument.WrittenAs name argument body) :
    Component.WrittenAs (.pseudo kind name argument) (marks ++ [.block l body closing])

/-- The nodes in the parentheses of a function. -/
inductive Argument.WrittenAs : String → Argument → List Node → Prop
  | selectors {name : String} {list : SelectorList} {body : List Node}
    (takes : takesSelectors name) (read : SelectorList.WrittenAs list body) :
    Argument.WrittenAs name (.selectors list) body
  | raw {name : String} {body : List Node}
    (other : takesSelectors name → ∃ fault, readSelectors body = .error fault) :
    Argument.WrittenAs name (.raw (trimmedText body)) body

inductive ComplexSelector.WrittenAs : ComplexSelector → List Node → Prop
  | parts {parts : List SelectorPart} {trail : List Node} (some : parts ≠ [])
    (row : SelectorPart.InRow parts)
    (simple : ∀ p ∈ parts, Component.WrittenAs p.component p.nodes)
    (blank : ∀ n ∈ trail, n.isTrivia) :
    ComplexSelector.WrittenAs (parts.flatMap SelectorPart.components)
      (parts.flatMap SelectorPart.source ++ trail)

/-- The nodes of a list of selectors, with the commas in it. -/
inductive SelectorList.WrittenAs : SelectorList → List Node → Prop
  | single {s : ComplexSelector} {ns : List Node} (only : ComplexSelector.WrittenAs s ns)
    (plain : ∀ n ∈ ns, n.isComma = false) : SelectorList.WrittenAs [s] ns
  | cons {s : ComplexSelector} {ss : SelectorList} {ns ms : List Node} {comma : Node}
    (first : ComplexSelector.WrittenAs s ns) (plain : ∀ n ∈ ns, n.isComma = false)
    (separates : comma.isComma) (later : SelectorList.WrittenAs ss ms) :
    SelectorList.WrittenAs (s :: ss) (ns ++ comma :: ms)

end

namespace Component.WrittenAs

variable {c : Component} {ns : List Node} (written : c.WrittenAs ns)

include written

theorem simple : isCombinator c = false := by
  cases written <;> rfl

theorem ne_nil : ns ≠ [] := by
  cases written <;> simp

end Component.WrittenAs

namespace Symbol

def IsOf (n : Node) : Symbol → Prop
  | space => n.token = .whitespace
  | comma => n.token = .comma
  | combinator c => combinator? n.token = some c
  | ident name => n.token = .ident name
  | universal => n.token = .delim '*'
  | nesting => n.token = .delim '&'
  | identity name => n.token = .idHash name
  | dot => n.token = .delim '.'
  | colon => n.token = .colon
  | bracket reading => ∃ l body closing, n = .block l body closing ∧ l.token = .openSquare ∧
      reading = Attribute.read body
  | function name argument => ∃ l body closing, n = .block l body closing ∧
      l.token = .function name ∧ argument = Argument.read name body (symbols body)
  | other => True

theorem isOf_of_symbol? {n : Node} {s : Symbol} (found : symbol? n = some s) : s.IsOf n := by
  cases n with
  | leaf l =>
    rw [symbol?] at found
    unfold ofToken? at found
    split at found
    case h_2 => cases found
    all_goals
      cases found
      simp_all [IsOf, Node.token, combinator?]
  | block l body closing =>
    rw [symbol?] at found
    split at found <;> cases found
    · rename_i name token
      exact ⟨l, body, closing, rfl, token, rfl⟩
    · rename_i token
      exact ⟨l, body, closing, rfl, token, rfl⟩
    · trivial

theorem comment_of_symbol? {n : Node} (none : symbol? n = none) : n.token = .comment := by
  cases n with
  | leaf l =>
    rw [symbol?] at none
    unfold ofToken? at none
    split at none <;> first | assumption | cases none
  | block l body closing =>
    rw [symbol?] at none
    split at none <;> cases none

/-- The symbols that make a simple selector. The symbol of a function may hold any argument here, also
none, where `Component.symbols` has that of a name. -/
inductive Makes : List Symbol → Component → Prop
  | element (name : String) : Makes [ident name] (.element name)
  | universal : Makes [universal] .universal
  | nesting : Makes [nesting] .nesting
  | identity (name : String) : Makes [identity name] (.identity name)
  | hasAttribute (a : Attribute) : Makes [bracket (.ok a)] (.hasAttribute a)
  | className (name : String) : Makes [dot, ident name] (.className name)
  | pseudo (kind : PseudoKind) (name : String) :
    Makes (kind.symbols ++ [ident name]) (.pseudo kind name .none)
  | function (kind : PseudoKind) (name : String) (argument : Argument) :
    Makes (kind.symbols ++ [function name argument]) (.pseudo kind name argument)

end Symbol

namespace ComplexSelector

theorem readFrom_cases {done : List Component} {gap : Bool} {ss : List Symbol}
    {selector : ComplexSelector} (read : readFrom done gap ss = .ok selector) :
    (ss = [] ∧ done ≠ [] ∧ afterCombinator done = false ∧ selector = done.reverse) ∨
    (∃ later, ss = .space :: later ∧ readFrom done (!done.isEmpty) later = .ok selector) ∨
    (∃ c later, ss = .combinator c :: later ∧ afterCombinator done = false ∧
      readFrom (.combinator c :: done) false later = .ok selector) ∨
    ∃ front c later, ss = front ++ later ∧ Symbol.Makes front c ∧
      readFrom (push done gap c) false later = .ok selector := by
  have simple : ∀ {front : List Symbol} {c : Component} {later : List Symbol},
      Symbol.Makes front c → readFrom (push done gap c) false later = .ok selector →
      ∃ front' c' later', front ++ later = front' ++ later' ∧ Symbol.Makes front' c' ∧
        readFrom (push done gap c') false later' = .ok selector :=
    fun makes read => ⟨_, _, _, rfl, makes, read⟩
  rw [readFrom.eq_def] at read
  split at read
  case h_1 =>
    split at read
    · cases read
    · rename_i c done
      split at read
      · cases read
      · rename_i other
        cases read
        exact .inl ⟨rfl, by simp, by simpa [afterCombinator] using other, rfl⟩
  case h_2 => exact .inr (.inl ⟨_, rfl, read⟩)
  case h_3 =>
    split at read
    · cases read
    · rename_i alone
      exact .inr (.inr (.inl ⟨_, _, rfl, by simpa using alone, read⟩))
  case h_4 name later => exact .inr (.inr (.inr (simple (.element name) read)))
  case h_5 later => exact .inr (.inr (.inr (simple .universal read)))
  case h_6 later => exact .inr (.inr (.inr (simple .nesting read)))
  case h_7 name later => exact .inr (.inr (.inr (simple (.identity name) read)))
  case h_8 a later => exact .inr (.inr (.inr (simple (.hasAttribute a) read)))
  case h_10 name later => exact .inr (.inr (.inr (simple (.className name) read)))
  case h_13 name later => exact .inr (.inr (.inr (simple (.pseudo .element name) read)))
  case h_14 name a later => exact .inr (.inr (.inr (simple (.function .element name a) read)))
  case h_17 name later => exact .inr (.inr (.inr (simple (.pseudo .classes name) read)))
  case h_18 name a later => exact .inr (.inr (.inr (simple (.function .classes name a) read)))
  all_goals cases read

end ComplexSelector

namespace Node

theorem signs_nil : signs [] = [] :=
  rfl

theorem signs_append (ns ms : List Node) : signs (ns ++ ms) = signs ns ++ signs ms :=
  List.filterMap_append

theorem signs_eq_nil {ns : List Node} : signs ns = [] ↔ ∀ n ∈ ns, combinator? n.token = none := by
  simp [signs, List.filterMap_eq_nil_iff]

theorem signs_of_trivia {ns : List Node} (blank : ∀ n ∈ ns, n.isTrivia) : signs ns = [] := by
  refine signs_eq_nil.2 fun n member => ?_
  have trivia := blank n member
  unfold isTrivia at trivia
  cases token : n.token <;> simp [token, Token.isTrivia] at trivia ⊢ <;> rfl

theorem ne_descendant_of_mem_signs {ns : List Node} {c : Combinator} (member : c ∈ signs ns) :
    c ≠ .descendant := by
  obtain ⟨n, _, sign⟩ := List.mem_filterMap.1 member
  rintro rfl
  unfold combinator? at sign
  split at sign <;> cases sign

theorem combinator?_eq_none {t : Token} :
    combinator? t = none ↔ ∀ c ∈ ['>', '+', '~'], t ≠ .delim c := by
  constructor
  · rintro none c member rfl
    simp only [List.mem_cons, List.not_mem_nil, or_false] at member
    rcases member with rfl | rfl | rfl <;> cases none
  · intro other
    unfold combinator?
    split <;> simp_all

end Node

namespace ComplexSelector

def jointOf (gap : Bool) : List Combinator → Option Combinator
  | c :: _ => some c
  | [] => if gap then some .descendant else none

structure Progress (parts : List SelectorPart) (loose : List Node) (done : List Component)
    (gap : Bool) : Prop where
  components : done.reverse =
    parts.flatMap SelectorPart.components ++ (Node.signs loose).map Component.combinator
  between : ∀ n ∈ loose, n.isTrivia ∨ (combinator? n.token).isSome
  single : Node.signs loose = [] ∨ ∃ c, Node.signs loose = [c]
  spaced : Node.signs loose = [] → (gap ↔ parts ≠ [] ∧ ∃ n ∈ loose, n.token = .whitespace)
  row : SelectorPart.InRow parts
  simple : ∀ p ∈ parts, p.component.WrittenAs p.nodes

namespace Progress

variable {parts : List SelectorPart} {loose : List Node} {done : List Component} {gap : Bool}

theorem start : Progress [] [] [] false :=
  ⟨rfl, by simp, .inl rfl, by simp, ⟨by simp, by simp, by simp⟩, by simp⟩

variable (progress : Progress parts loose done gap)

include progress

theorem done_eq_nil (none : Node.signs loose = []) : done = [] ↔ parts = [] := by
  have whole := progress.components
  rw [none, List.map_nil, List.append_nil] at whole
  rw [← List.reverse_eq_nil_iff, whole, List.flatMap_eq_nil_iff]
  constructor
  · intro all
    by_contra some
    obtain ⟨p, parts, rfl⟩ := List.exists_cons_of_ne_nil some
    simpa [SelectorPart.components] using all p (by simp)
  · rintro rfl
    simp

theorem afterCombinator_iff : afterCombinator done ↔ Node.signs loose ≠ [] := by
  have whole := progress.components
  rcases progress.single with none | ⟨c, sign⟩
  · rw [none, List.map_nil, List.append_nil] at whole
    simp only [none, ne_eq, not_true_eq_false, iff_false, Bool.not_eq_true]
    obtain rfl | ⟨front, p, rfl⟩ := List.eq_nil_or_concat parts
    · rw [List.reverse_eq_nil_iff.1 whole]
      rfl
    · have last : done = p.component :: (front.flatMap SelectorPart.components ++
          (p.joint.map Component.combinator).toList).reverse := by
        rw [← List.reverse_reverse done, whole]
        simp [SelectorPart.components]
      rw [last]
      exact (progress.simple p (by simp)).simple
  · have last : done = .combinator c :: (parts.flatMap SelectorPart.components).reverse := by
      rw [← List.reverse_reverse done, whole, sign]
      simp
    simp [last, sign, afterCombinator, isCombinator]

theorem signs_eq_nil (alone : afterCombinator done = false) : Node.signs loose = [] := by
  by_contra some
  rw [progress.afterCombinator_iff.2 some] at alone
  cases alone

theorem trivia {ns : List Node} {gap' : Bool} (blank : ∀ n ∈ ns, n.isTrivia)
    (spaced : Node.signs loose = [] →
      (gap' ↔ parts ≠ [] ∧ ∃ n ∈ loose ++ ns, n.token = .whitespace)) :
    Progress parts (loose ++ ns) done gap' := by
  have same : Node.signs (loose ++ ns) = Node.signs loose := by
    rw [Node.signs_append, Node.signs_of_trivia blank, List.append_nil]
  refine ⟨same ▸ progress.components, fun n member => ?_, same ▸ progress.single, same ▸ spaced,
    progress.row, progress.simple⟩
  exact (List.mem_append.1 member).elim (progress.between n) fun here => .inl (blank n here)

theorem comments {ns : List Node} (only : ∀ n ∈ ns, n.token = .comment) :
    Progress parts (loose ++ ns) done gap := by
  refine progress.trivia (fun n member => Node.isTrivia_iff.2 (.inr (only n member))) fun none => ?_
  have nowhere : ¬ ∃ n ∈ ns, n.token = .whitespace := by
    rintro ⟨n, member, white⟩
    rw [only n member] at white
    cases white
  rw [progress.spaced none]
  simp [or_and_right, exists_or, nowhere]

theorem space {n : Node} (white : n.token = .whitespace) :
    Progress parts (loose ++ [n]) done (!done.isEmpty) := by
  refine progress.trivia (by simpa using Node.isTrivia_iff.2 (.inl white)) fun none => ?_
  have empty := progress.done_eq_nil none
  simp [empty, white]

theorem combinator {n : Node} {c : Combinator} (sign : combinator? n.token = some c)
    (alone : afterCombinator done = false) :
    Progress parts (loose ++ [n]) (.combinator c :: done) false := by
  have none := progress.signs_eq_nil alone
  have only : Node.signs (loose ++ [n]) = [c] := by
    rw [Node.signs_append, none]
    simp [Node.signs, sign]
  refine ⟨?_, fun m member => ?_, .inr ⟨c, only⟩, by simp [only], progress.row, progress.simple⟩
  · rw [only, List.reverse_cons, progress.components, none]
    simp
  · rcases List.mem_append.1 member with before | here
    · exact progress.between m before
    · rw [List.mem_singleton.1 here, sign]
      exact .inr rfl

theorem signs_cases : Node.signs loose = [] ∨
    ∃ c, c ≠ .descendant ∧ Node.signs loose = [c] := by
  rcases progress.single with none | ⟨c, sign⟩
  · exact .inl none
  · have member : c ∈ Node.signs loose := by simp [sign]
    exact .inr ⟨c, Node.ne_descendant_of_mem_signs member, sign⟩

theorem joined (nodes : List Node) (c : Component) :
    SelectorPart.Joined ⟨loose, jointOf gap (Node.signs loose), nodes, c⟩ := by
  refine ⟨progress.between, ?_⟩
  rcases progress.signs_cases with none | ⟨c, other, sign⟩
  · simp only [none, jointOf]
    cases gap <;> rfl
  · simp [sign, jointOf, Option.filter, other]

theorem joint_iff : jointOf gap (Node.signs loose) = some .descendant ↔
    parts ≠ [] ∧ (∃ n ∈ loose, n.token = .whitespace) ∧ Node.signs loose = [] := by
  rcases progress.signs_cases with none | ⟨c, other, sign⟩
  · rw [none, jointOf, ← and_assoc, ← progress.spaced none]
    simp
  · simp [sign, jointOf, other]

theorem row_push (nodes : List Node) (c : Component) :
    SelectorPart.InRow (parts ++ [⟨loose, jointOf gap (Node.signs loose), nodes, c⟩]) := by
  obtain ⟨joined, relative, spaced⟩ := progress.row
  refine ⟨?_, ?_, ?_⟩
  · intro p member
    rcases List.mem_append.1 member with before | here
    · exact joined p before
    · rw [List.mem_singleton.1 here]
      exact progress.joined nodes c
  · obtain _ | ⟨q, parts⟩ := parts
    · rintro p ⟨⟩ blank
      exact (progress.joint_iff.1 blank).1 rfl
    · exact relative
  · obtain _ | ⟨q, parts⟩ := parts
    · simp
    · intro p member
      rcases List.mem_append.1 member with before | here
      · exact spaced p before
      · rw [List.mem_singleton.1 here, SelectorPart.Spaced, progress.joint_iff, Node.signs_eq_nil]
        simp [Node.combinator?_eq_none]

theorem push {c : Component} {nodes : List Node} (written : c.WrittenAs nodes) :
    Progress (parts ++ [⟨loose, jointOf gap (Node.signs loose), nodes, c⟩]) []
      (push done gap c) false := by
  refine ⟨?_, by simp, .inl rfl, by simp, progress.row_push nodes c, ?_⟩
  · have after := progress.afterCombinator_iff
    have components := progress.components
    rcases progress.single with none | ⟨d, sign⟩
    · rw [none, List.map_nil, List.append_nil] at components
      have alone : afterCombinator done = false := by simpa [none] using after
      cases gap <;>
        simp [ComplexSelector.push, alone, jointOf, none, components, SelectorPart.components,
          Node.signs_nil]
    · rw [sign] at components
      have combinator : afterCombinator done := by simpa [sign] using after
      simp [ComplexSelector.push, combinator, jointOf, sign, components, SelectorPart.components,
        Node.signs_nil]
  · intro p member
    rcases List.mem_append.1 member with before | here
    · exact progress.simple p before
    · rw [List.mem_singleton.1 here]
      exact written

theorem finish (some : done ≠ []) (alone : afterCombinator done = false) {comments : List Node}
    (only : ∀ n ∈ comments, n.token = .comment) :
    ComplexSelector.WrittenAs done.reverse
      (parts.flatMap SelectorPart.source ++ (loose ++ comments)) := by
  have none := progress.signs_eq_nil alone
  have components := progress.components
  rw [none, List.map_nil, List.append_nil] at components
  rw [components]
  refine .parts (mt (progress.done_eq_nil none).2 some) progress.row progress.simple ?_
  intro n member
  rcases List.mem_append.1 member with before | behind
  · refine (progress.between n before).resolve_right ?_
    simp [Node.signs_eq_nil.1 none n before]
  · exact Node.isTrivia_iff.2 (.inr (only n behind))

end Progress

end ComplexSelector

namespace Node

open ComplexSelector (Progress)

theorem comment_of_symbols {ns : List Node} (none : symbols ns = []) :
    ∀ n ∈ ns, n.token = .comment := by
  induction ns with
  | nil => simp
  | cons n ns ih =>
    rw [symbols] at none
    split at none
    · cases none
    · rename_i found
      exact List.forall_mem_cons.2 ⟨Symbol.comment_of_symbol? found, ih none⟩

theorem exists_of_symbols {ns : List Node} {s : Symbol} {ss : List Symbol}
    (same : symbols ns = s :: ss) :
    ∃ comments n rest, ns = comments ++ n :: rest ∧ (∀ m ∈ comments, m.token = .comment) ∧
      s.IsOf n ∧ symbols rest = ss := by
  induction ns with
  | nil => cases same
  | cons n ns ih =>
    rw [symbols] at same
    split at same
    · rename_i s' found
      obtain ⟨rfl, rfl⟩ := List.cons.inj same
      exact ⟨[], n, ns, rfl, by simp, Symbol.isOf_of_symbol? found, rfl⟩
    · rename_i found
      obtain ⟨comments, m, rest, rfl, only, is, later⟩ := ih same
      exact ⟨n :: comments, m, rest, rfl,
        List.forall_mem_cons.2 ⟨Symbol.comment_of_symbol? found, only⟩, is, later⟩

section Simple

variable {ns ms : List Node} {front ss : List Symbol} {c : Component}

def ReadInside (ns : List Node) : Prop :=
  ∀ l body closing, block l body closing ∈ ns → ∀ list, readSelectors body = .ok list →
    SelectorList.WrittenAs list body

theorem ReadInside.mono (inner : ReadInside ms) (among : ns ⊆ ms) : ReadInside ns :=
  fun l body closing member => inner l body closing (among member)

theorem writtenAs_argument {body : List Node}
    (inner : ∀ list, readSelectors body = .ok list → SelectorList.WrittenAs list body)
    (name : String) :
    Argument.WrittenAs name (Argument.read name body (symbols body)) body := by
  unfold Argument.read
  split
  · rename_i takes
    split
    · rename_i list read
      exact .selectors takes (inner list read)
    · rename_i fault refused
      exact .raw fun _ => ⟨fault, refused⟩
  · rename_i other
    exact .raw fun takes => absurd takes other

theorem exists_marks {kind : PseudoKind} {s : Symbol}
    (same : symbols ns = kind.symbols ++ s :: ss) :
    ∃ comments marks n rest, ns = comments ++ (marks ++ n :: rest) ∧
      (∀ m ∈ comments, m.token = .comment) ∧ kind.Marks marks ∧ s.IsOf n ∧ symbols rest = ss := by
  have none : ∀ {ms : List Node}, (∀ m ∈ ms, m.token = .comment) →
      ms.filter (fun n => !n.isComment) = [] := by
    intro ms only
    simpa [isComment] using only
  have kept : ∀ {m : Node}, m.token = .colon → m.isComment = false := by
    intro m colon
    simp [isComment, colon]
  cases kind with
  | classes =>
    obtain ⟨comments, m, rest, rfl, only, mark, same⟩ := exists_of_symbols same
    obtain ⟨gap, n, rest, rfl, only', is, later⟩ := exists_of_symbols same
    refine ⟨comments, m :: gap, n, rest, rfl, only, ⟨?_, by simpa using kept mark⟩, is, later⟩
    rw [List.filter_cons_of_pos (by simp [kept mark]), none only']
    exact congrArg ([·]) mark
  | element =>
    obtain ⟨comments, m, rest, rfl, only, mark, same⟩ := exists_of_symbols same
    obtain ⟨gap, m', rest, rfl, only', mark', same⟩ := exists_of_symbols same
    obtain ⟨gap', n, rest, rfl, only'', is, later⟩ := exists_of_symbols same
    refine ⟨comments, m :: (gap ++ m' :: gap'), n, rest, by simp, only,
      ⟨?_, by simpa using kept mark⟩, is, later⟩
    rw [List.filter_cons_of_pos (by simp [kept mark]), List.filter_append, none only',
      List.filter_cons_of_pos (by simp [kept mark']), none only'']
    exact congrArg₂ ([·, ·]) mark mark'

theorem exists_single {s : Symbol} (same : symbols ns = [s] ++ ss)
    (written : ∀ n, s.IsOf n → c.WrittenAs [n]) :
    ∃ comments nodes rest, ns = comments ++ (nodes ++ rest) ∧
      (∀ m ∈ comments, m.token = .comment) ∧ c.WrittenAs nodes ∧ symbols rest = ss := by
  obtain ⟨comments, n, rest, rfl, only, is, later⟩ := exists_of_symbols same
  exact ⟨comments, [n], rest, rfl, only, written n is, later⟩

theorem exists_of_makes (inner : ReadInside ns) (makes : Symbol.Makes front c)
    (same : symbols ns = front ++ ss) :
    ∃ comments nodes rest, ns = comments ++ (nodes ++ rest) ∧
      (∀ m ∈ comments, m.token = .comment) ∧ c.WrittenAs nodes ∧ symbols rest = ss := by
  cases makes with
  | element name => exact exists_single same fun _ token => .element token
  | universal => exact exists_single same fun _ token => .universal token
  | nesting => exact exists_single same fun _ token => .nesting token
  | identity name => exact exists_single same fun _ token => .identity token
  | hasAttribute a =>
    refine exists_single same ?_
    rintro _ ⟨l, body, closing, rfl, token, read⟩
    exact .hasAttribute token read.symm
  | className name =>
    obtain ⟨comments, dot, rest, rfl, only, sign, same⟩ := exists_of_symbols same
    obtain ⟨comments', n, rest, rfl, only', token, later⟩ := exists_of_symbols same
    exact ⟨comments, dot :: (comments' ++ [n]), rest, by simp, only, .className sign only' token,
      later⟩
  | pseudo kind name =>
    rw [List.append_assoc] at same
    obtain ⟨comments, marks, n, rest, rfl, only, colons, token, later⟩ := exists_marks same
    exact ⟨comments, marks ++ [n], rest, by simp, only, .pseudo colons token, later⟩
  | function kind name argument =>
    rw [List.append_assoc] at same
    obtain ⟨comments, marks, n, rest, rfl, only, colons, ⟨l, body, closing, rfl, token, rfl⟩,
      later⟩ := exists_marks same
    have inside := writtenAs_argument (inner l body closing (by simp)) name
    exact ⟨comments, marks ++ [block l body closing], rest, by simp, only,
      .function colons token inside, later⟩

theorem writtenAs_of_readFrom {parts : List SelectorPart} {loose : List Node}
    {done : List Component} {gap : Bool} {selector : ComplexSelector}
    (progress : Progress parts loose done gap) (inner : ReadInside ns)
    (read : readFrom done gap (symbols ns) = .ok selector) :
    selector.WrittenAs (parts.flatMap SelectorPart.source ++ (loose ++ ns)) := by
  -- A simple selector takes several nodes, so the induction is on how many are left.
  induction size : ns.length using Nat.strong_induction_on
    generalizing ns parts loose done gap with
  | _ size' ih =>
    subst size
    rcases ComplexSelector.readFrom_cases read with ⟨none, some, alone, rfl⟩ |
      ⟨later, same, read⟩ | ⟨c, later, same, alone, read⟩ | ⟨front, c, later, same, makes, read⟩
    · exact progress.finish some alone (comment_of_symbols none)
    · obtain ⟨comments, n, rest, rfl, only, white, rfl⟩ := exists_of_symbols same
      have written := ih rest.length (by simp; omega) ((progress.comments only).space white)
        (inner.mono (by simp)) read rfl
      simpa using written
    · obtain ⟨comments, n, rest, rfl, only, sign, rfl⟩ := exists_of_symbols same
      have written := ih rest.length (by simp; omega)
        ((progress.comments only).combinator sign alone) (inner.mono (by simp)) read rfl
      simpa using written
    · obtain ⟨comments, nodes, rest, rfl, only, here, rfl⟩ := exists_of_makes inner makes same
      have shorter : rest.length < (comments ++ (nodes ++ rest)).length := by
        have := List.length_pos_iff.2 here.ne_nil
        simp
        omega
      have written := ih rest.length shorter ((progress.comments only).push here)
        (inner.mono (by simp)) read rfl
      simpa [SelectorPart.source] using written

end Simple

section Lists

variable {d : Nat} {ns : List Node} {list : SelectorList}

theorem writtenAs_of_inner (inner : ReadInside ns) (within : ∀ n ∈ ns, n.Within d)
    (read : readSelectors ns = .ok list) : list.WrittenAs ns := by
  rw [readSelectors, SelectorList.ofSymbols, Walk.segments_symbols within, List.mapM_map] at read
  clear within
  induction ns using lead_induction (fun n => !n.isComma) generalizing list with
  | all ns other =>
    replace other : ∀ n ∈ ns, n.isComma = false := by simpa using other
    rw [segments_of_forall other] at read
    obtain ⟨s, rest, first, none, rfl⟩ := exists_of_mapM_ok read
    cases none
    exact .single (writtenAs_of_readFrom .start inner first) other
  | step front comma rest other separates ih =>
    replace other : ∀ n ∈ front, n.isComma = false := by simpa using other
    replace separates : comma.isComma := by simpa using separates
    rw [segments_cut other separates] at read
    obtain ⟨s, ss, first, later, rfl⟩ := exists_of_mapM_ok read
    have here : s.WrittenAs front := writtenAs_of_readFrom .start (inner.mono (by simp)) first
    exact .cons here other separates (ih rest le_rfl (inner.mono (by simp)) later)

theorem writtenAs_of_readSelectors (within : ∀ n ∈ ns, n.Within d)
    (read : readSelectors ns = .ok list) : list.WrittenAs ns := by
  induction d generalizing ns list with
  | zero =>
    refine writtenAs_of_inner (fun l body closing member => ?_) within read
    nomatch within _ member
  | succ d ih =>
    refine writtenAs_of_inner (fun l body closing member list read => ?_) within read
    cases within _ member with
    | block _ inside => exact ih inside read

end Lists

end Node

/-- Selectors that are read from a text have their shape at every depth: there is a selector, each
has simple selectors with a combinator at most between two of them, all names have characters, and
the combinator between two simple selectors is the descendant one exactly if there are blanks and no
sign of another one between them, outside comments. -/
theorem shape_of_selectors {css : List Char} {list : SelectorList}
    (read : Node.readSelectors (Node.ofText css) = .ok list) :
    list.Proper ∧ list.WrittenAs (Node.ofText css) :=
  ⟨Node.proper_of_readSelectors (Node.level_isSound css).built read,
    Node.writtenAs_of_readSelectors (Node.within_ofText le_rfl) read⟩

def gappedSelectors : List Char :=
  " > ul /* > */ li/**/ >a:/**/is(b  c,~d/**/.e /**/) , * &".toList

theorem shape_of_selectors_gappedSelectors :
    ∃ list, Node.readSelectors (Node.ofText gappedSelectors) = .ok list ∧
      list.render = ">ul li>a:is(b c, ~d.e), * &" ∧
      list.Proper ∧ list.WrittenAs (Node.ofText gappedSelectors) := by
  have text : (Node.readSelectors (Node.ofText gappedSelectors)).toOption.map SelectorList.render =
      some ">ul li>a:is(b c, ~d.e), * &" := by
    decide +kernel
  obtain ⟨list, found, printed⟩ := Option.map_eq_some_iff.1 text
  have read : Node.readSelectors (Node.ofText gappedSelectors) = .ok list := by
    cases result : Node.readSelectors (Node.ofText gappedSelectors) with
    | error fault =>
      rw [result] at found
      cases found
    | ok list' =>
      rw [result] at found
      exact congrArg _ (Option.some.inj found)
  exact ⟨list, read, printed, shape_of_selectors read⟩

end CssOutline
