import CssOutline.Proofs.DeclaredValues

/-! Values keep the tokens that they are read from. The marks that make a declaration important are
taken out of the tokens of the source and of those of the printed value; what is left of both is the
same. Only where taking out a mark brings an exclamation mark and the word `important` together is
it different: these are printed, as they are left. -/

namespace CssOutline

open Lexer (gists)

namespace Gist

def isBang (g : Gist) : Bool :=
  g.1 == .delim '!'

def isImportant (g : Gist) : Bool :=
  match g.1 with
  | .ident name => Text.sameName name "important"
  | _ => false

def depthAfter (depth : Nat) (g : Gist) : Nat :=
  if g.1.closing?.isSome then depth + 1
  else if g.1.isFlat then depth
  else depth - 1

/-- Takes out each exclamation mark outside of all brackets with the word `important` after it. -/
def unmarkedFrom : Nat → List Gist → List Gist
  | _, [] => []
  | _, [g] => [g]
  | depth, g :: h :: gs =>
    if depth = 0 ∧ isBang g ∧ isImportant h then unmarkedFrom 0 gs
    else g :: unmarkedFrom (depthAfter depth g) (h :: gs)

def unmarked (gs : List Gist) : List Gist :=
  unmarkedFrom 0 gs

theorem unmarkedFrom_nil (depth : Nat) : unmarkedFrom depth [] = [] := by
  rw [unmarkedFrom.eq_def]

theorem unmarkedFrom_cons {depth : Nat} {g : Gist} {gs : List Gist}
    (other : depth = 0 → isBang g → ∀ h ∈ gs.head?, isImportant h = false) :
    unmarkedFrom depth (g :: gs) = g :: unmarkedFrom (depthAfter depth g) gs := by
  obtain _ | ⟨h, gs⟩ := gs
  · rfl
  · rw [unmarkedFrom, if_neg]
    rintro ⟨outside, bang, important⟩
    simp [other outside bang h rfl] at important

end Gist

namespace Node

variable {n : Node} {ns : List Node}

theorem exists_gist {l : Lexeme} (flat : l.token.isFlat) (solid : (leaf l).isTrivia = false) :
    ∃ g : Gist, gists [leaf l] = [g] ∧ g.1.closing? = none ∧ g.1.isFlat ∧
      Gist.isBang g = (leaf l).isBang ∧ Gist.isImportant g = (leaf l).isImportant := by
  obtain ⟨t, text, start⟩ := l
  cases t
  case ident name =>
    refine ⟨(.ident (if Text.sameName name "currentcolor" then "currentcolor" else name), []),
      rfl, rfl, rfl, rfl, ?_⟩
    simp only [Gist.isImportant, isImportant]
    split_ifs with current
    · simp only [Text.sameName, beq_iff_eq] at current
      simp only [Text.sameName, current]
    · rfl
  case whitespace => cases solid
  case comment => cases solid
  all_goals first | exact ⟨_, rfl, rfl, rfl, rfl, rfl⟩ | cases flat

theorem gists_brackets {l c : Lexeme} (closes : l.token.closing? = some c.token) :
    Lexeme.gists [l] = [(l.token, [])] ∧ Lexeme.gists [c] = [(c.token, [])] ∧
      c.token.closing? = none ∧ c.token.isFlat = false ∧ (l.token == .delim '!') = false := by
  obtain ⟨t, text, start⟩ := l
  cases t <;> simp only [Token.closing?, Option.some.injEq, reduceCtorEq] at closes <;>
    simp [Lexeme.gists, Lexeme.gist?, ← closes, Token.closing?, Token.isFlat]

theorem unmarkedFrom_node (whole : n.Whole) (depth : Nat) (rest : List Gist)
    (other : depth = 0 → n.isBang → ∀ h ∈ rest.head?, Gist.isImportant h = false) :
    Gist.unmarkedFrom depth (gists [n] ++ rest) = gists [n] ++ Gist.unmarkedFrom depth rest := by
  induction whole generalizing depth rest with
  | @leaf l flat =>
    by_cases trivia : (leaf l).isTrivia
    · have none : gists [leaf l] = [] :=
        gists_of_trivia (by simpa using Whole.leaf flat) (by simpa using trivia)
      rw [none, List.nil_append, List.nil_append]
    · obtain ⟨g, same, opens, plain, bang, _⟩ := exists_gist flat (by simpa using trivia)
      rw [same, List.singleton_append, Gist.unmarkedFrom_cons fun outside isBang =>
        other outside (by rwa [← bang]), Gist.depthAfter, if_neg (by simp [opens]), if_pos plain]
      rfl
  | @block l c body closes inner ih =>
    have inside : ∀ ns : List Node, (∀ n ∈ ns, n ∈ body) → ∀ rest,
        Gist.unmarkedFrom (depth + 1) (gists ns ++ rest) =
          gists ns ++ Gist.unmarkedFrom (depth + 1) rest := by
      intro ns members rest
      induction ns with
      | nil => rfl
      | cons m ns later =>
        rw [gists_cons, List.append_assoc, ih m (members m (by simp)) _ _ (by simp),
          later fun n member => members n (by simp [member]), List.append_assoc]
    obtain ⟨first, last, ends, bracket, noBang⟩ := gists_brackets closes
    rw [gists_block, first, last, List.append_assoc, List.append_assoc, List.singleton_append,
      Gist.unmarkedFrom_cons fun _ bang => by simp [Gist.isBang, noBang] at bang,
      Gist.depthAfter, if_pos (by simp [closes]), inside body (fun n member => member),
      List.singleton_append, Gist.unmarkedFrom_cons (by simp), Gist.depthAfter,
      if_neg (by simp [ends]), if_neg (by simp [bracket])]
    simp

theorem exists_first_gist (whole : n.Whole) (solid : n.isTrivia = false) :
    ∃ g gs, gists [n] = g :: gs ∧ Gist.isBang g = n.isBang ∧ Gist.isImportant g = n.isImportant ∧
      (n.isBang ∨ n.isImportant → gs = []) := by
  cases whole with
  | leaf flat =>
    obtain ⟨g, same, _, _, bang, important⟩ := exists_gist flat solid
    exact ⟨g, [], same, bang, important, fun _ => rfl⟩
  | @block l c body closes inner =>
    obtain ⟨first, _, _, _, noBang⟩ := gists_brackets closes
    have noWord : Gist.isImportant (l.token, []) = false := by
      unfold Gist.isImportant
      split
      · rename_i name word
        have word : l.token = .ident name := word
        rw [word] at closes
        cases closes
      · rfl
    have none : (block l body (some c)).isBang = false := noBang
    refine ⟨(l.token, []), _, by rw [gists_block, first]; rfl, rfl, noWord, ?_⟩
    simp [none, isImportant]

theorem unmarked_gists (whole : ∀ n ∈ ns, n.Whole) (solid : ∀ n ∈ ns, n.isTrivia = false) :
    Gist.unmarked (gists ns) = gists (unmarked ns) := by
  fun_induction unmarked ns with
  | case1 => rfl
  | case2 n =>
    have single := unmarkedFrom_node (whole n (by simp)) 0 [] (by simp)
    rwa [List.append_nil, Gist.unmarkedFrom_nil, List.append_nil] at single
  | case3 n m ns marked ih =>
    obtain ⟨bang, important⟩ : n.isBang ∧ m.isImportant := by simpa using marked
    obtain ⟨g, gs, first, isBang, _, single⟩ :=
      exists_first_gist (whole n (by simp)) (solid n (by simp))
    obtain ⟨h, hs, second, _, isWord, alone⟩ :=
      exists_first_gist (whole m (by simp)) (solid m (by simp))
    rw [gists_cons, gists_cons m, first, second, single (.inl bang), alone (.inr important),
      List.singleton_append, List.singleton_append, Gist.unmarked, Gist.unmarkedFrom,
      if_pos ⟨rfl, isBang ▸ bang, isWord ▸ important⟩]
    exact ih (fun n member => whole n (by simp [member])) fun n member => solid n (by simp [member])
  | case4 n m ns plain ih =>
    have later := ih (fun n member => whole n (by simp [member]))
      fun n member => solid n (by simp [member])
    obtain ⟨h, hs, second, _, isWord, _⟩ :=
      exists_first_gist (whole m (by simp)) (solid m (by simp))
    have next : gists (m :: ns) = h :: (hs ++ gists ns) := by rw [gists_cons, second]; rfl
    rw [gists_cons n (m :: ns), gists_cons n (unmarked (m :: ns)), ← later]
    apply unmarkedFrom_node (whole n (by simp))
    rintro _ bang x head
    rw [next] at head
    cases head
    rw [isWord]
    simpa [bang] using plain

theorem unmarked_gists_significant (whole : ∀ n ∈ ns, n.Whole) :
    Gist.unmarked (gists ns) = gists (unmarked (significant ns)) := by
  rw [← gists_significant whole]
  apply unmarked_gists
  · exact fun n member => whole n (List.mem_of_mem_filter member)
  · exact fun n member => by simpa using (List.mem_filter.1 member).2

theorem unmarked_sublist (ns : List Node) : (unmarked ns).Sublist ns := by
  fun_induction unmarked ns with
  | case1 => exact .slnil
  | case2 n => exact .refl _
  | case3 n m ns _ ih => exact (ih.cons m).cons n
  | case4 n m ns _ ih => exact ih.cons_cons n

theorem length_gists_of_sublist {ms : List Node} (sublist : ms.Sublist ns)
    (whole : ∀ n ∈ ns, n.Whole) (solid : ∀ n ∈ ns, n.isTrivia = false) :
    (gists ms).length + ns.length ≤ (gists ns).length + ms.length := by
  induction sublist with
  | slnil => exact le_rfl
  | @cons ms ns n _ ih =>
    obtain ⟨g, gs, same, _⟩ := exists_first_gist (whole n (by simp)) (solid n (by simp))
    have later := ih (fun n member => whole n (by simp [member]))
      fun n member => solid n (by simp [member])
    rw [gists_cons, same]
    simp only [List.length_cons, List.length_append]
    omega
  | @cons_cons ms ns n _ ih =>
    have later := ih (fun n member => whole n (by simp [member]))
      fun n member => solid n (by simp [member])
    rw [gists_cons n ms, gists_cons n ns]
    simp only [List.length_cons, List.length_append]
    omega

theorem unmarked_gists_eq_iff (whole : ∀ n ∈ ns, n.Whole) :
    Gist.unmarked (gists ns) = gists ns ↔ unmarked (significant ns) = significant ns := by
  rw [unmarked_gists_significant whole, ← gists_significant whole]
  refine ⟨fun same => ?_, fun same => by rw [same]⟩
  have sublist := unmarked_sublist (significant ns)
  have lengths := length_gists_of_sublist sublist
    (fun n member => whole n (List.mem_of_mem_filter member))
    fun n member => by simpa using (List.mem_filter.1 member).2
  rw [same] at lengths
  exact sublist.eq_of_length_le (by omega)

theorem unmarked_roles_eq_iff (ns : List Node) :
    Role.unmarked (ns.map role) = ns.map role ↔ unmarked ns = ns := by
  rw [← map_role_unmarked]
  refine ⟨fun same => ?_, fun same => by rw [same]⟩
  have lengths := congrArg List.length same
  simp only [List.length_map] at lengths
  exact (unmarked_sublist ns).eq_of_length lengths

variable {v : Value} {important : Bool}

theorem important_iff (whole : ∀ n ∈ ns, n.Whole) (read : readDeclared ns = .ok (v, important)) :
    important ↔ Gist.unmarked (gists ns) ≠ gists ns := by
  obtain ⟨_, same⟩ := readDeclared_eq_ok.1 read
  have marks :=
    Piece.any_isImportant_markImportant (pieces none ns) (isImportant_of_mem_pieces none)
  rw [roles_pieces (fun n member => (whole n member).built), ne_eq, unmarked_roles_eq_iff] at marks
  rw [← same, marks, ne_eq, unmarked_gists_eq_iff whole]

end Node

def ColorFunction.names : List String :=
  ["rgb", "rgba", "hsl", "hsla", "hwb", "lab", "lch", "oklab", "oklch", "color", "light-dark"]

theorem ColorFunction.ofName?_eq_none {name : String} (other : name.toLower ∉ names) :
    ofName? name = none := by
  unfold ofName?
  split <;> simp_all [names]

def Text.isPrintable (c : Char) : Bool :=
  0x20 ≤ c.toNat && c.toNat ≤ 0x7e

/-- A text of printable characters and blanks without escapes and hashes, in which everything is
closed that is opened and no color and no math function is called. -/
structure IsPlainValue (css : List Char) : Prop where
  characters : css.all fun c => Text.isBlank c || Text.isPrintable c
  unescaped : '\\' ∉ css
  hashless : '#' ∉ css
  /-- Comments, strings and urls are closed, and nothing is one of the marks around comments of
  another language. -/
  whole : ∀ l ∈ Lexer.lexemes css, l.token.IsWhole l.text
  balanced : Token.balanced [] ((Lexer.lexemes css).map Lexeme.token)
  unread : ∀ l ∈ Lexer.lexemes css, ∀ name, l.token = .function name →
    name.toLower ∉ ColorFunction.names ∧ name.toLower ∉ Math.names

namespace IsPlainValue

variable {css : List Char}

theorem isBlank_of_isWhiteSpace {c : Char} (known : Text.isBlank c || Text.isPrintable c)
    (white : Text.isWhiteSpace c) : Text.isBlank c := by
  rcases Bool.or_eq_true_iff.1 known with blank | printable
  · exact blank
  · have space : c.toNat = ' '.toNat := by
      simp only [Text.isPrintable, Bool.and_eq_true, decide_eq_true_eq] at printable
      simp only [Text.isWhiteSpace, Bool.or_eq_true, Bool.and_eq_true, decide_eq_true_eq,
        beq_iff_eq] at white
      simp only [Char.reduceToNat]
      omega
    rw [Char.toNat_inj.1 space]
    rfl

theorem sliced (plain : IsPlainValue css) : Node.Sliced (Node.ofText css) := by
  refine ⟨⟨⟨[], by simp, ?_⟩, fun l member => ?_⟩, Node.whole_ofText plain.balanced⟩
  · rw [Node.lexemesOf_ofText]
    exact Lexer.scans_lexemesFrom _ css
  · rw [Node.lexemesOf_ofText] at member
    have text : ∀ c ∈ l.text, c ∈ css := by
      intro c inside
      rw [← Lexer.flatMap_text_lexemesFrom .origin css]
      exact List.mem_flatMap.2 ⟨l, member, inside⟩
    refine ⟨fun inside => plain.unescaped (text _ inside),
      fun inside => plain.hashless (text _ inside),
      fun c inside =>
        isBlank_of_isWhiteSpace (List.all_eq_true.1 plain.characters c (text c inside)),
      plain.whole l member, fun name token => ?_⟩
    obtain ⟨color, math⟩ := plain.unread l member name token
    refine ⟨ColorFunction.ofName?_eq_none color, ?_⟩
    simpa [Math.isName] using math

end IsPlainValue

/-- The value of a declaration has a text, and the tokens of that text are those of the source when
the marks are taken out of both; or those that are left of the source, where two of these would make
a mark. The declaration is important if there is a mark in the source. -/
theorem tokens_of_readDeclared {css : List Char} (plain : IsPlainValue css) {v : Value}
    {important : Bool} (read : Node.readDeclared (Node.ofText css) = .ok (v, important)) :
    (∃ text, v.render = .ok text ∧
      (Gist.unmarked (gists text.toList) = Gist.unmarked (gists css) ∨
        Gist.unmarked (Gist.unmarked (gists css)) ≠ Gist.unmarked (gists css) ∧
          gists text.toList = Gist.unmarked (gists css))) ∧
      (important ↔ Gist.unmarked (gists css) ≠ gists css) := by
  have sliced := plain.sliced
  have said : Node.gists (Node.ofText css) = gists css := by
    rw [Node.gists, Node.lexemesOf_ofText]
    rfl
  have important := Node.important_iff sliced.whole read
  rw [said] at important
  refine ⟨?_, important⟩
  obtain ⟨text, render, means⟩ := sliced.exists_declared read
  refine ⟨text, render, ?_⟩
  rw [← said, Node.unmarked_gists_significant sliced.whole]
  obtain means | ⟨core, whole, means, same⟩ := means
  · rw [means.gists_eq]
    exact (em _).imp_right fun unsettled => ⟨unsettled, rfl⟩
  · left
    rw [means.gists_eq, Node.unmarked_gists_significant whole, same]

theorem Node.exists_value_of_run {ns : List Node} {text : String} {important : Bool}
    (run : (readDeclared ns).toOption.map (fun r => (r.1.render.toOption, r.2)) =
      some (some text, important)) :
    ∃ v, readDeclared ns = .ok (v, important) ∧ v.render = .ok text := by
  cases read : readDeclared ns with
  | error fault =>
    rw [read] at run
    cases run
  | ok r =>
    obtain ⟨v, marked⟩ := r
    rw [read] at run
    cases render : v.render with
    | error e => simp [render, Except.toOption] at run
    | ok written =>
      simp only [Except.toOption, Option.map_some, render, Option.some.injEq, Prod.mk.injEq] at run
      obtain ⟨rfl, rfl⟩ := run
      exact ⟨v, rfl, render⟩

def markedCall : List Char :=
  "f( b,'a' )/**/ 0 !important".toList

theorem isPlainValue_markedCall : IsPlainValue markedCall := by
  have lexed : Lexer.lexemes markedCall = [
      ⟨.function "f", "f(".toList, ⟨1, 1⟩⟩, ⟨.whitespace, [' '], ⟨1, 3⟩⟩,
      ⟨.ident "b", ['b'], ⟨1, 4⟩⟩, ⟨.comma, [','], ⟨1, 5⟩⟩, ⟨.string "a", "'a'".toList, ⟨1, 6⟩⟩,
      ⟨.whitespace, [' '], ⟨1, 9⟩⟩, ⟨.closeParen, [')'], ⟨1, 10⟩⟩,
      ⟨.comment, "/**/".toList, ⟨1, 11⟩⟩, ⟨.whitespace, [' '], ⟨1, 15⟩⟩,
      ⟨.number ⟨.finite false 0 (-149), some 0, false⟩, ['0'], ⟨1, 16⟩⟩,
      ⟨.whitespace, [' '], ⟨1, 17⟩⟩, ⟨.delim '!', ['!'], ⟨1, 18⟩⟩,
      ⟨.ident "important", "important".toList, ⟨1, 19⟩⟩] := by decide +kernel
  refine ⟨by decide +kernel, by decide, by decide, ?_, by decide +kernel, ?_⟩
  · rw [lexed]
    simp only [List.forall_mem_cons]
    exact ⟨trivial, trivial, trivial, trivial, ⟨_, ['a'], rfl⟩, trivial, trivial, ⟨[], rfl⟩,
      trivial, trivial, trivial, trivial, trivial, by simp⟩
  · have unread : "f".toLower ∉ ColorFunction.names ∧ "f".toLower ∉ Math.names := by decide +kernel
    simpa [lexed] using unread

theorem tokens_of_readDeclared_markedCall :
    IsPlainValue markedCall ∧ ∃ v, Node.readDeclared (Node.ofText markedCall) = .ok (v, true) ∧
      v.render = .ok "f(b, 'a') 0" ∧
      Gist.unmarked (gists "f(b, 'a') 0".toList) = Gist.unmarked (gists markedCall) ∧
      Gist.unmarked (gists markedCall) ≠ gists markedCall := by
  obtain ⟨v, read, render⟩ : ∃ v, Node.readDeclared (Node.ofText markedCall) = .ok (v, true) ∧
      v.render = .ok "f(b, 'a') 0" := Node.exists_value_of_run (by decide +kernel)
  obtain ⟨⟨text, same, tokens⟩, marked⟩ := tokens_of_readDeclared isPlainValue_markedCall read
  rw [render] at same
  cases same
  refine ⟨isPlainValue_markedCall, v, read, render, ?_, marked.1 rfl⟩
  exact tokens.resolve_right fun rejoined => rejoined.1 (by decide +kernel)

/-- Between the mark that is taken out and what stands around it another mark is left. -/
def rejoinedMark : List Char :=
  "! !important important".toList

theorem unmarked_ne_rejoinedMark :
    IsPlainValue rejoinedMark ∧ ∃ v, Node.readDeclared (Node.ofText rejoinedMark) = .ok (v, true) ∧
      v.render = .ok "! important" ∧
      Gist.unmarked (gists "! important".toList) ≠ Gist.unmarked (gists rejoinedMark) := by
  obtain ⟨v, read, render⟩ : ∃ v, Node.readDeclared (Node.ofText rejoinedMark) = .ok (v, true) ∧
      v.render = .ok "! important" := Node.exists_value_of_run (by decide +kernel)
  have lexed : Lexer.lexemes rejoinedMark = [
      ⟨.delim '!', ['!'], ⟨1, 1⟩⟩, ⟨.whitespace, [' '], ⟨1, 2⟩⟩, ⟨.delim '!', ['!'], ⟨1, 3⟩⟩,
      ⟨.ident "important", "important".toList, ⟨1, 4⟩⟩, ⟨.whitespace, [' '], ⟨1, 13⟩⟩,
      ⟨.ident "important", "important".toList, ⟨1, 14⟩⟩] := by decide +kernel
  refine ⟨⟨by decide, by decide, by decide, ?_, by decide +kernel, ?_⟩, v, read, render,
    by decide +kernel⟩
  · simp [lexed, Token.IsWhole]
  · simp [lexed]

end CssOutline
