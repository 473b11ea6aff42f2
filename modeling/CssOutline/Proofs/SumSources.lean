import CssOutline.Proofs.PrintedMath
import CssOutline.Proofs.Walk.Completion

/-! Sums and the texts that they remember. A sum is printed by its text and not by its operands, so
the two have to agree: the text alone is read as the same sum. What stands around the sum, a comma, a
parenthesis, a sign or the end of the input, has left nothing in it. -/

namespace CssOutline

open Node (Placed Inside Grown calc? terms ofText textOf lexemesOf block)

mutual

/-- The operands and the text of every sum in an expression. -/
def Length.sums : Length → List (List Calc × String)
  | .math f => f.sums
  | _ => []

def Calc.sums : Calc → List (List Calc × String)
  | .length l => l.sums
  | .number _ => []
  | .function f => f.sums
  | .product _ operand => operand.sums
  | .sum operands source => (operands, source) :: Calc.sumsOf operands

def Math.sums : Math → List (List Calc × String)
  | .calc e => e.sums
  | .variadic _ es => Calc.sumsOf es
  | .clamp low value high => low.sums ++ (value.sums ++ high.sums)
  | .unary _ e => e.sums
  | .binary _ a b => a.sums ++ b.sums
  | .round _ value none => value.sums
  | .round _ value (some interval) => value.sums ++ interval.sums

def Calc.sumsOf : List Calc → List (List Calc × String)
  | [] => []
  | e :: es => e.sums ++ Calc.sumsOf es

end

theorem Math.IsCall.sums_eq {m : Math} {name : String} {strategy : Option String} {es : List Calc}
    (call : m.IsCall name strategy es) : m.sums = Calc.sumsOf es := by
  obtain ⟨rfl, rfl, rfl⟩ := call
  cases m with
  | round strategy value interval => cases interval <;> simp [sums, Math.arguments, Calc.sumsOf]
  | _ => simp [sums, Math.arguments, Calc.sumsOf]

structure Node.Trimmed (ns : List Node) : Prop where
  first : ∀ n ∈ ns.head?, n.isTrivia = false
  last : ∀ n ∈ ns.getLast?, n.isTrivia = false

/-- A text that is read as an expression by itself, from its first character to its last. -/
structure Calc.IsTextOf (e : Calc) (cs : List Char) : Prop where
  read : ofTerms? (terms [] (ofText cs)) = some e
  whole : Term.source (terms [] (ofText cs)) = cs
  trimmed : Node.Trimmed (ofText cs)

theorem Calc.IsTextOf.run {e : Calc} {cs : List Char} (is : e.IsTextOf cs) {d : Nat}
    (deep : Node.heightOf (ofText cs) ≤ d) (q : List Char) :
    (Walk.sums d).run ⟨q, none, ofText cs⟩ = .done e ⟨q ++ cs, none, []⟩ := by
  obtain ⟨c, run, halts⟩ := Walk.sums_run (Node.within_ofText deep) is.read q
  have none : (ofText cs).takeWhile Node.isTrivia = [] := by
    cases nodes : ofText cs with
    | nil => rfl
    | cons n ns => simp [is.trimmed.first n (by simp [nodes])]
  rw [none, is.whole, textOf, List.append_nil] at halts
  rw [run, halts.eq_of_solid is.trimmed.last]

namespace Node

section Alone

variable {awaited : Option Token} {last : Bool} {ns ms : List Node} {more : List Char} {e : Calc}

theorem Trimmed.of_unplaced (trimmed : Trimmed ms) (same : ns.map unplaced = ms.map unplaced) :
    Trimmed ns := by
  have kinds : ns.map isTrivia = ms.map isTrivia := by
    simpa [Function.comp_def] using congrArg (List.map isTrivia) same
  refine ⟨fun n head => ?_, fun n final => ?_⟩
  · have kind : (ns.map isTrivia).head? = some n.isTrivia := by
      rw [List.head?_map, head]
      rfl
    rw [kinds, List.head?_map] at kind
    obtain ⟨m, head, equal⟩ := Option.map_eq_some_iff.1 kind
    exact equal ▸ trimmed.first m head
  · have kind : (ns.map isTrivia).getLast? = some n.isTrivia := by
      rw [List.getLast?_map, final]
      rfl
    rw [kinds, List.getLast?_map] at kind
    obtain ⟨m, final, equal⟩ := Option.map_eq_some_iff.1 kind
    exact equal ▸ trimmed.last m final

theorem Core.trimmed {core : List Node} (is : Core ns core) : Trimmed core := by
  refine ⟨is.first, fun n final => ?_⟩
  obtain ⟨front, m, rfl, some⟩ := is.last
  rw [List.getLast?_concat] at final
  cases final
  obtain ⟨e, read⟩ := Option.isSome_iff_exists.1 some
  exact (solid_of_calc? read).1

theorem Placed.scans_alone (placed : Placed awaited last ns more)
    (parts : Lexeme.Parts (lexemesOf ns))
    (solid : last = false → ∀ l ∈ (lexemesOf ns).getLast?, l.token.isTrivia = false) :
    Lexer.Scans (lexemesOf ns) [] := by
  cases last with
  | true => exact placed.ends rfl ▸ placed.scans
  | false =>
    rcases placed.scans.ended_cases with ended | ⟨-, front, l, whole, comment, -⟩
    · exact placed.scans.recut ended parts.isFinal parts.parts (by simp [Lexer.Stops]) (by simp)
    -- An open comment is a last lexeme, but the last one is no comment.
    · have visible := solid rfl l (by simp [whole])
      rw [comment] at visible
      cases visible

theorem Grown.ofText_textOf (grown : Grown awaited last ns)
    (scans : Lexer.Scans (lexemesOf ns) []) :
    (ofText (textOf ns)).map unplaced = ns.map unplaced := by
  have lexemes := scans.plain
  rw [List.append_nil, flatMap_text_lexemesOf, Lexer.plain_nil, List.append_nil] at lexemes
  rw [unplaced_ofText, plain, lexemes, grown.build_end (by simp), build_nil, finish,
    List.append_nil, List.reverse_reverse]

theorem isTextOf_of_ofTerms? (placed : Placed awaited last ns more)
    (read : Calc.ofTerms? (terms [] ns) = some e) :
    e.IsTextOf (Term.source (terms [] ns)) := by
  obtain ⟨core, last', more', is, -, here, parts, solid⟩ :=
    (joined_of_ofTerms? read).1.exists_placed placed
  have alone : (ofText (textOf core)).map unplaced = core.map unplaced :=
    here.grown.ofText_textOf (here.scans_alone parts solid)
  have same : terms [] (ofText (textOf core)) = terms [] core := by
    rw [← terms_unplacedAll, unplacedAll_eq_map, alone, ← unplacedAll_eq_map, terms_unplacedAll]
  obtain ⟨t, ts, lead, inner, -, outer⟩ := is.exists_terms
  rw [is.source_terms]
  refine ⟨by rw [same, is.ofTerms?_terms, read], ?_, is.trimmed.of_unplaced alone⟩
  rw [same, ← is.source_terms, inner, outer]
  rfl

end Alone

end Node

namespace Calc

variable {negative : Bool} {current e f product : Calc} {ts : List Term} {es : List Calc}
  {s : List Calc × String}

theorem sums_signed (negative : Bool) (e : Calc) : (signed negative e).sums = e.sums := by
  cases negative <;> rfl

theorem sums_multiply (multiplied : multiply e f = some product) (member : s ∈ product.sums) :
    s ∈ e.sums ∨ s ∈ f.sums := by
  unfold multiply at multiplied
  split at multiplied <;> cases multiplied
  · exact .inr member
  · exact .inl member

theorem sums_operands (read : operands negative current ts = some es) (member : s ∈ sumsOf es) :
    s ∈ current.sums ∨ ∃ t ∈ ts, ∃ f, t.expression = some f ∧ s ∈ f.sums := by
  induction ts using List.twoStepInduction generalizing negative current es with
  | nil =>
    cases read
    simpa [sumsOf, sums_signed] using member
  | singleton => simp [operands] at read
  | cons_cons operator t ts ih =>
    obtain ⟨f, found, rest⟩ := operands_cases read
    have here : s ∈ f.sums → ∃ t' ∈ operator :: t :: ts, ∃ f, t'.expression = some f ∧ s ∈ f.sums :=
      fun inside => ⟨t, by simp, f, found, inside⟩
    have later : (∃ t' ∈ ts, ∃ f, t'.expression = some f ∧ s ∈ f.sums) →
        ∃ t' ∈ operator :: t :: ts, ∃ f, t'.expression = some f ∧ s ∈ f.sums := by
      rintro ⟨t', behind, inside⟩
      exact ⟨t', by simp [behind], inside⟩
    rcases rest with ⟨_, product, multiplied, factors⟩ | ⟨minus, es, _, added, rfl⟩
    · rcases ih factors member with inside | behind
      · exact (sums_multiply multiplied inside).imp_right here
      · exact .inr (later behind)
    · rw [sumsOf, sums_signed, List.mem_append] at member
      rcases member with first | member
      · exact .inl first
      · exact .inr ((ih added member).elim here later)

theorem sums_ofTerms? (read : ofTerms? ts = some e) (member : s ∈ e.sums) :
    e = .sum s.1 s.2 ∧ s.2.toList = Term.source ts ∨
      ∃ t ∈ ts, ∃ f, t.expression = some f ∧ s ∈ f.sums := by
  rw [Walk.ofTerms?_eq] at read
  obtain ⟨es, operands, rfl⟩ := Option.map_eq_some_iff.1 read
  obtain _ | ⟨t, ts⟩ := ts
  · cases operands
  obtain ⟨f, first, operands⟩ := Option.bind_eq_some_iff.1 operands
  have inner : s ∈ sumsOf es → ∃ t' ∈ t :: ts, ∃ f, t'.expression = some f ∧ s ∈ f.sums := by
    intro inside
    rcases sums_operands operands inside with here | ⟨t', behind, f', found, there⟩
    · exact ⟨t, by simp, f, first, here⟩
    · exact ⟨t', by simp [behind], f', found, there⟩
  unfold Walk.sumOf at member
  split at member
  · exact .inr (inner (by simpa [sumsOf] using member))
  · rename_i other
    rcases List.mem_cons.1 member with rfl | inside
    · refine .inl ⟨?_, String.toList_ofList⟩
      unfold Walk.sumOf
      split
      · exact absurd rfl (other _)
      · rfl
    · exact .inr (inner inside)

def Remembered (sums : List (List Calc × String)) : Prop :=
  ∀ s ∈ sums, (Calc.sum s.1 s.2).IsTextOf s.2.toList

end Calc

namespace Node

open Calc (Remembered)

variable {awaited : Option Token} {last : Bool} {ns : List Node} {more : List Char} {e : Calc}

section Level

variable (each : ∀ n ∈ ns, ∀ f, calc? n = some f → Remembered f.sums)

include each

theorem remembered_of_ofTerms? (placed : Placed awaited last ns more)
    (read : Calc.ofTerms? (terms [] ns) = some e) : Remembered e.sums := by
  intro s member
  rcases Calc.sums_ofTerms? read member with ⟨rfl, source⟩ | ⟨t, inside, f, found, member⟩
  · rw [source]
    exact isTextOf_of_ofTerms? placed read
  · obtain ⟨n, here, _, same⟩ := Walk.exists_of_mem_terms inside
    exact each n here f (same ▸ found) s member

theorem remembered_of_listed (placed : Placed awaited last ns more) {es : List Calc}
    (listed : Listed ns es) : Remembered (Calc.sumsOf es) := by
  induction listed with
  | single _ read => simpa [Calc.sumsOf] using remembered_of_ofTerms? each placed read
  | @cut front rest comma e later _ _ first _ ih =>
    have right : Placed awaited last ([comma] ++ rest) more := placed.right
    have before : Remembered e.sums :=
      remembered_of_ofTerms? (fun n member => each n (by simp [member])) placed.left first
    have after : Remembered (Calc.sumsOf later) :=
      ih (fun n member => each n (by simp [member])) right.right
    intro s member
    rw [Calc.sumsOf, List.mem_append] at member
    exact member.elim (before s) (after s)

theorem remembered_of_math (placed : Placed awaited last ns more) {name : String} {m : Math}
    (read : Math.ofTerms? name (terms [] ns) = some m) : Remembered m.sums := by
  obtain ⟨es, listed, made⟩ |
    ⟨lead, n, gap, comma, rest, keyword, es, rfl, _, _, _, _, _, listed, made⟩ :=
    ofTerms?_cases read
  · rw [made.sums_eq]
    exact remembered_of_listed each placed listed
  · have behind : Placed awaited last ([n] ++ (gap ++ ([comma] ++ rest))) more := placed.right
    rw [made.sums_eq]
    exact remembered_of_listed (fun n member => each n (by simp [member]))
      behind.right.right.right listed

end Level

theorem remembered_of_leaf {l : Lexeme} (read : Calc.ofLexeme? l = some e) : Remembered e.sums := by
  have none : e.sums = [] := by
    unfold Calc.ofLexeme? at read
    cases token : l.token <;> simp only [token, reduceCtorEq] at read
    all_goals repeat' split at read
    all_goals cases read <;> rfl
  simp [none, Remembered]

theorem remembered_of_calc? (n : Node) {e : Calc} {awaited : Option Token} {last : Bool}
    {more : List Char} (placed : Placed awaited last [n] more) (read : calc? n = some e) :
    Remembered e.sums := by
  match n with
  | .leaf l => exact remembered_of_leaf read
  | .block l body closing =>
    obtain ⟨t, more', _, _, inner⟩ := placed.body
    have each : ∀ m ∈ body, ∀ f, calc? m = some f → Remembered f.sums := by
      intro m member f found
      obtain ⟨last', more', _, single⟩ := inner.single member
      have smaller := List.sizeOf_lt_of_mem member
      exact remembered_of_calc? m single found
    rw [calc?] at read
    split at read
    · exact remembered_of_ofTerms? each inner read
    · obtain ⟨m, made, rfl⟩ := Option.map_eq_some_iff.1 read
      exact remembered_of_math each inner made
    · cases read
termination_by sizeOf n

/-- The sums of a math function, however deep they are in it, are read from their texts alone: all of
the text is taken, and the operands and the text come out again. -/
theorem sum_read_from_source {css : List Char} {ns body : List Node} {l : Lexeme}
    {closing : Option Lexeme} {name source : String} {m : Math} {operands : List Calc}
    (inside : Inside (ofText css) ns) (member : block l body closing ∈ ns)
    (call : l.token = .function name) (read : Math.ofTerms? name (terms [] body) = some m)
    (sum : (operands, source) ∈ m.sums) :
    Calc.ofTerms? (terms [] (ofText source.toList)) = some (.sum operands source) ∧
      ∀ d, heightOf (ofText source.toList) ≤ d →
        (Walk.sums d).run ⟨[], none, ofText source.toList⟩ =
          .done (.sum operands source) ⟨source.toList, none, []⟩ := by
  obtain ⟨awaited, last, more, placed⟩ := inside.placed
  obtain ⟨last', more', _, single⟩ := placed.single member
  have made : calc? (block l body closing) = some (.function m) := by
    simp [calc?, call, read]
  have is := remembered_of_calc? _ single made _ sum
  exact ⟨is.read, fun d deep => is.run deep []⟩

def nestedSums : List Char :=
  "calc(2 * (1px + 50%/**/) - max(4px, 3px - 1em".toList

theorem sum_read_from_source_nestedSums :
    ∃ l body closing m operands, block l body closing ∈ ofText nestedSums ∧
      l.token = .function "calc" ∧ Math.ofTerms? "calc" (terms [] body) = some m ∧
      m.sums.map Prod.snd =
        ["2 * (1px + 50%/**/) - max(4px, 3px - 1em", "1px + 50%", "3px - 1em"] ∧
      (operands, "1px + 50%") ∈ m.sums ∧
      Calc.ofTerms? (terms [] (ofText "1px + 50%".toList)) = some (.sum operands "1px + 50%") ∧
      (Walk.sums 0).run ⟨[], none, ofText "1px + 50%".toList⟩ =
        .done (.sum operands "1px + 50%") ⟨"1px + 50%".toList, none, []⟩ := by
  have texts : (ofText nestedSums).map (fun n =>
      (n.token, ((n.value? []).bind Value.math?).map (·.sums.map Prod.snd))) =
      [(.function "calc",
        some ["2 * (1px + 50%/**/) - max(4px, 3px - 1em", "1px + 50%", "3px - 1em"])] := by
    decide +kernel
  obtain ⟨n, alone, same⟩ := List.map_eq_singleton_iff.1 texts
  obtain ⟨call, printed⟩ := Prod.mk.inj same
  obtain ⟨m, found, sources⟩ := Option.map_eq_some_iff.1 printed
  obtain ⟨v, read, math⟩ := Option.bind_eq_some_iff.1 found
  rw [Value.math?_eq_some math] at read
  obtain ⟨made, l, body, closing, rfl⟩ := calc?_of_value? read
  replace call : l.token = .function "calc" := call
  have read : Math.ofTerms? "calc" (terms [] body) = some m := by
    simpa [calc?, call] using made
  have member : block l body closing ∈ ofText nestedSums := alone ▸ List.mem_singleton_self _
  obtain ⟨⟨operands, source⟩, sum, rfl⟩ : ∃ s ∈ m.sums, s.2 = "1px + 50%" :=
    List.mem_map.1 (sources ▸ by simp)
  obtain ⟨again, run⟩ := sum_read_from_source .self member call read sum
  exact ⟨l, body, closing, m, operands, member, call, read, sources, sum, again,
    run 0 (by decide +kernel)⟩

end Node

end CssOutline
