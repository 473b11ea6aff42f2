import CssOutline.Proofs.MathParts

/-! Printed math expressions denote what they are read from. A product is printed with its number in
front, a sum by the text that it was read from, and parentheses only where they hold a sum, in a call
of `sum`. What is read next to an expression, a sign, a comma or a parenthesis, does not change it. -/

namespace CssOutline

open Node (Placed Spells Visible calc? terms textOf lexemesOf block build gap atom)
open Walk (terms_lead terms_blank spelled)

namespace Meaning

variable {M : Meaning} {last : Bool}

namespace Reads

variable {ok ok' : List Node.Frame → List Char → Prop} {cs ds opening : List Char}
  {ns ms : List Node} {l : Lexeme}

theorem mono (reads : M.Reads ok cs ns) (stronger : ∀ stack rest, ok' stack rest → ok stack rest) :
    M.Reads ok' cs ns :=
  fun stack siblings rest parens kind => reads stack siblings rest parens (stronger stack rest kind)

theorem of_spells {kind : List Char → Prop} (spells : Spells kind cs ns) :
    M.Reads (fun _ => kind) cs ns :=
  fun stack siblings rest _ holds => by rw [spells stack siblings rest holds]

theorem append (first : M.Reads ok cs ns) (second : M.Reads ok' ds ms)
    (fits : ∀ stack rest, ok' stack rest → ok stack (ds ++ rest)) :
    M.Reads ok' (cs ++ ds) (ns ++ ms) := by
  intro stack siblings rest parens kind
  rw [List.append_assoc, first _ _ _ parens (fits stack rest kind), second _ _ _ parens kind]
  simp

theorem block (opens : ∀ rest, Lexer.plain (opening ++ rest) = l :: Lexer.plain rest)
    (closes : l.token.closing? = some .closeParen) (inside : M.Reads (Follows last) cs ns) :
    M.Reads (Follows last) (opening ++ (cs ++ [')']))
      [.block l ns (some ⟨.closeParen, [')'], .origin⟩)] := by
  intro stack siblings rest parens follows
  have closing : Lexer.plain (')' :: rest) = ⟨.closeParen, [')'], .origin⟩ :: Lexer.plain rest :=
    Lexer.plain_single rfl
  have deeper : OnlyParens (⟨l, siblings⟩ :: stack) := List.forall_mem_cons.2 ⟨closes, parens⟩
  have behind : Follows last (⟨l, siblings⟩ :: stack) (')' :: rest) := by
    cases last with
    | false => simp [Follows, Lexer.Stops]
    | true =>
      obtain ⟨j, few, rfl⟩ := follows
      exact ⟨j + 1, by simpa using few, rfl⟩
  rw [List.append_assoc, List.append_assoc, List.singleton_append, opens,
    Node.build_open (by rw [closes]; rfl), inside _ _ _ deeper behind, closing,
    Node.build_close rfl closes]
  simp

end Reads

structure Denotes (M : Meaning) (last : Bool) (cs : List Char) (q : ℚ) : Prop where
  visible : Visible cs
  reads : ∃ ns, M.Reads (Follows last) cs ns ∧ Reading.Product (M.readings ns) q

structure Lists (M : Meaning) (last : Bool) (cs : List Char) (operands : List Operand) : Prop where
  visible : Visible cs
  reads : ∃ ns, M.Reads (Follows last) cs ns ∧
    Reading.arguments? (M.readings ns) = some operands

/-- A text is read as an argument before a comma. -/
structure Argues (M : Meaning) (cs : List Char) (operand : Operand) : Prop where
  visible : Visible cs
  reads : ∃ ns, M.Reads (fun _ rest => rest.head? = some ',') cs ns ∧
    (∀ r ∈ M.readings ns, (r.token == .comma) = false) ∧
    Reading.argument? (M.readings ns) = some operand

section Texts

variable {cs ds : List Char} {p q : ℚ} {operand : Operand} {operands : List Operand}

theorem follows_mono {last' : Bool} (weaker : last → last') (stack : List Node.Frame)
    (rest : List Char) (follows : Follows last' stack rest) : Follows last stack rest := by
  cases last with
  | false => exact follows.stops
  | true => rwa [weaker rfl] at follows

theorem Denotes.mono {last' : Bool} (denotes : Denotes M last cs q) (weaker : last → last') :
    Denotes M last' cs q := by
  obtain ⟨ns, reads, product⟩ := denotes.reads
  exact ⟨denotes.visible, ns, reads.mono (follows_mono weaker), product⟩

theorem Denotes.times (first : Denotes M false cs p) (second : Denotes M last ds q) :
    Denotes M last (cs ++ ([' ', '*', ' '] ++ ds)) (p * q) := by
  obtain ⟨ns, readsFirst, productFirst⟩ := first.reads
  obtain ⟨ms, readsSecond, productSecond⟩ := second.reads
  have star : Spells Node.Solid [' ', '*', ' ']
      [gap [' '], atom (.delim '*') ['*'], gap [' ']] := by
    have sign : Spells (fun rest => rest.head? = some ' ') ['*'] [atom (.delim '*') ['*']] := by
      refine Spells.atom rfl fun rest head => ?_
      obtain ⟨rest, rfl⟩ := List.head?_eq_some_iff.1 head
      rfl
    have blank : Spells Node.Solid [' '] [gap [' ']] := Spells.space
    refine blank.append (sign.append Spells.space ?_) ?_
    · exact fun _ _ => rfl
    · intro rest _ x head
      cases head
      rfl
  refine ⟨first.visible.append _, _, readsFirst.append
    ((Reads.of_spells star).append readsSecond ?_) ?_, ?_⟩
  · exact fun _ rest _ => second.visible.solid rest
  · intro _ rest _
    simp [Follows, Lexer.Stops]
  · rw [readings_append, readings_append]
    exact productFirst.append rfl productSecond

theorem Denotes.argues (denotes : Denotes M false cs q) : Argues M cs (.quantity q) := by
  obtain ⟨ns, reads, product⟩ := denotes.reads
  refine ⟨denotes.visible, ns, reads.mono fun stack rest comma => ?_, product.other,
    product.argument?_eq⟩
  simp [Follows, Lexer.Stops, comma]

theorem Denotes.lists (denotes : Denotes M last cs q) : Lists M last cs [.quantity q] := by
  obtain ⟨ns, reads, product⟩ := denotes.reads
  refine ⟨denotes.visible, ns, reads, ?_⟩
  rw [Reading.arguments?, segments_of_forall product.other]
  simp [product.argument?_eq]

theorem arguments?_readings_cut {front rest : List Node} {comma : Node}
    (other : ∀ r ∈ M.readings front, (r.token == .comma) = false) (separates : comma.isComma)
    (first : Reading.argument? (M.readings front) = some operand)
    (later : Reading.arguments? (M.readings rest) = some operands) :
    Reading.arguments? (M.readings (front ++ comma :: rest)) = some (operand :: operands) := by
  have token : comma.token = .comma := by simpa [Node.isComma] using separates
  have solid : comma.isTrivia = false := by simp [Node.isTrivia, token, Token.isTrivia]
  rw [readings_append, readings, if_neg (by simp [solid]), Reading.arguments?,
    segments_cut other (by simp [token])]
  rw [Reading.arguments?] at later
  simp [first, later]

theorem Lists.cons (first : Argues M cs operand) (later : Lists M last ds operands) :
    Lists M last (cs ++ ([',', ' '] ++ ds)) (operand :: operands) := by
  obtain ⟨ns, readsFirst, other, argument⟩ := first.reads
  obtain ⟨ms, readsLater, arguments⟩ := later.reads
  refine ⟨first.visible.append _, _, readsFirst.append
    ((Reads.of_spells Spells.comma).append readsLater ?_) ?_, ?_⟩
  · exact fun _ rest _ => later.visible.solid rest
  · exact fun _ _ _ => rfl
  · have behind : Reading.arguments? (M.readings (gap [' '] :: ms)) = some operands := arguments
    exact arguments?_readings_cut other rfl argument behind

theorem Lists.intercalate {text : String} {texts : List String} (some : texts ≠ [])
    (first : Argues M text.toList operand)
    (later : Lists M last (", ".intercalate texts).toList operands) :
    Lists M last (", ".intercalate (text :: texts)).toList (operand :: operands) := by
  obtain ⟨next, texts, rfl⟩ := List.exists_cons_of_ne_nil some
  simpa [String.intercalate_cons_cons, String.toList_append] using Lists.cons first later

theorem argues_keyword {keyword : String} (word : Text.isPlainWord keyword) :
    Argues M keyword.toList (.keyword keyword) := by
  refine ⟨?_, _, (Reads.of_spells (Text.spells_plainWord word)).mono fun _ rest comma => ?_, ?_, ?_⟩
  · have visible := Text.visible_of_isPlainWord word []
    rwa [List.append_nil] at visible
  · intro x head
    rw [comma] at head
    cases head
    decide
  · rw [readings_single _ rfl]
    simp [Node.token, atom]
  · rw [readings_single _ rfl]
    rfl

theorem Lists.call {name : String} (word : Text.isPlainWord name)
    (other : Text.sameName name "sum" = false) (url : Text.sameName name "url" = false)
    (lower : name.toLower = name) (lists : Lists M last cs operands) :
    Denotes M last (name.toList ++ '(' :: (cs ++ [')'])) (M.call name operands) := by
  obtain ⟨ns, reads, arguments⟩ := lists.reads
  have opens : ∀ rest, Lexer.plain (name.toList ++ ['('] ++ rest) =
      ⟨.function name, name.toList ++ ['('], .origin⟩ :: Lexer.plain rest := by
    intro rest
    rw [List.append_assoc]
    exact Text.plain_call word url rest
  refine ⟨Text.visible_of_isPlainWord word _, _, (List.append_assoc _ ['('] _) ▸
    Reads.block opens rfl reads, ?_⟩
  · rw [readings_single _ rfl]
    refine .single ?_ (by simp [Node.token])
    simp [quantity?, other, arguments, lower]

theorem Reads.ofText?_eq {ns : List Node} (reads : M.Reads (Follows last) cs ns) :
    M.ofText? cs = Reading.sum? (M.readings ns) := by
  have follows : Follows last [] [] := by
    cases last with
    | false => simp [Follows, Lexer.Stops]
    | true => exact ⟨0, le_rfl, rfl⟩
  have whole := reads [] [] [] (by simp [OnlyParens]) follows
  rw [List.append_nil, Lexer.plain_nil, Node.build_nil, List.append_nil, Node.finish,
    List.reverse_reverse] at whole
  rw [ofText?, readings_ofText, Node.plain, whole]

end Texts

/-- An expression is printed as a text of its quantity, a number as one that may stand anywhere. -/
structure Keeps (M : Meaning) (last : Bool) (e : Calc) (q : ℚ) : Prop where
  text : Denotes M last e.render.toList q
  number : ∀ v, e = .number v → Denotes M false e.render.toList q

section Expressions

variable {e f product : Calc} {p q : ℚ}

theorem Keeps.mono {last' : Bool} (keeps : Keeps M last e q) (weaker : last → last') :
    Keeps M last' e q :=
  ⟨keeps.text.mono weaker, keeps.number⟩

theorem Keeps.multiply (first : Keeps M last e p) (second : Keeps M last f q)
    (multiplied : Calc.multiply e f = some product) : Keeps M last product (p * q) := by
  have front : ∀ {factor : Number} {operand : Calc} {p q : ℚ},
      Denotes M false (Calc.number factor).render.toList p →
      Denotes M last operand.render.toList q →
      Keeps M last (.product factor operand) (p * q) := by
    intro factor operand p q number text
    refine ⟨?_, by simp⟩
    have times := number.times text
    simpa [Calc.render, String.toList_append] using times
  unfold Calc.multiply at multiplied
  split at multiplied <;> cases multiplied
  · exact front (first.number _ rfl) second.text
  · rw [mul_comm]
    exact front (second.number _ rfl) first.text

end Expressions

/-- A term of an expression and what the nodes say at its place. -/
structure Agrees (M : Meaning) (last : Bool) (t : Term) (r : Reading) : Prop where
  token : t.token = r.token
  expression : ∀ e, t.expression = some e → ∃ q, r.quantity = some q ∧ Keeps M last e q

section Sums

variable {ts : List Term} {rs : List Reading} {negative : Bool} {current e : Calc}
  {es : List Calc} {p q : ℚ}

theorem exists_sumFrom (agree : List.Forall₂ (Agrees M last) ts rs)
    (read : Calc.operands negative current ts = some es) (total product : ℚ) :
    ∃ q, Reading.sumFrom total product rs = some q := by
  induction ts using List.twoStepInduction generalizing rs negative current es total product with
  | nil =>
    cases agree
    exact ⟨_, rfl⟩
  | singleton => simp [Calc.operands] at read
  | cons_cons operator t ts ih =>
    obtain _ | ⟨sign, _ | ⟨factor, agree⟩⟩ := agree
    obtain ⟨e, found, rest⟩ := Calc.operands_cases read
    obtain ⟨q, quantity, _⟩ := factor.expression e found
    rw [Reading.sumFrom, quantity, ← sign.token]
    obtain ⟨star, product', _, later⟩ | ⟨minus, later, token, behind, _⟩ := rest
    · rw [star]
      exact ih agree later _ _
    · rw [token]
      cases minus
      · exact ih agree behind _ _
      · exact ih agree behind _ _

theorem exists_product (agree : List.Forall₂ (Agrees M last) ts rs) (keeps : Keeps M last current p)
    (read : Calc.operands false current ts = some [e]) :
    ∃ q, Reading.sumFrom 0 p rs = some q ∧ Keeps M last e q := by
  induction ts using List.twoStepInduction generalizing rs current p with
  | nil =>
    cases agree
    cases read
    exact ⟨p, by rw [Reading.sumFrom, zero_add], keeps⟩
  | singleton => simp [Calc.operands] at read
  | cons_cons operator t ts ih =>
    obtain _ | ⟨sign, _ | ⟨factor, agree⟩⟩ := agree
    obtain ⟨f, found, rest⟩ := Calc.operands_cases read
    obtain ⟨q, quantity, keeps'⟩ := factor.expression f found
    rw [Reading.sumFrom, quantity, ← sign.token]
    obtain ⟨star, product, multiplied, later⟩ | ⟨_, later, _, behind, same⟩ := rest
    · rw [star]
      exact ih agree (keeps.multiply keeps' multiplied) later
    · rw [(List.cons.inj same).2.symm] at behind
      exact absurd behind (Calc.operands_ne_nil ts)

end Sums

section Nodes

variable {ns : List Node} {more : List Char} {e : Calc} {es : List Calc}

/-- What a node is read as is printed as what it denotes. -/
def Kept (M : Meaning) (n : Node) : Prop :=
  ∀ (awaited : Option Token) (last : Bool) (more : List Char) (e : Calc),
    Placed awaited last [n] more → calc? n = some e → ∃ q, M.quantity? n = some q ∧ Keeps M last e q

theorem agrees_terms {awaited : Option Token} (placed : Placed awaited last ns more)
    (kept : ∀ n ∈ ns, Kept M n) (lead : List Char) :
    List.Forall₂ (Agrees M last) (terms lead ns) (M.readings ns) := by
  have each : ∀ n ∈ ns, ∀ e, calc? n = some e → ∃ q, M.quantity? n = some q ∧ Keeps M last e q := by
    intro n member e read
    obtain ⟨last', more', weaker, single⟩ := placed.single member
    obtain ⟨q, quantity, keeps⟩ := kept n member _ _ _ _ single read
    exact ⟨q, quantity, keeps.mono weaker⟩
  clear placed kept
  induction ns generalizing lead with
  | nil => exact .nil
  | cons n ns ih =>
    have later := fun lead => ih lead fun m member => each m (by simp [member])
    rw [terms, readings]
    split
    · exact later _
    · exact .cons ⟨rfl, each n (by simp)⟩ (later _)

/-- Without the blanks and comments at its ends, an expression may be cut out of a text. -/
theorem exists_core (placed : Placed (some .closeParen) last ns more) (joined : Node.Joined ns) :
    ∃ core, Node.Core ns core ∧ M.Reads (Follows last) (textOf core) (core.map Node.unplaced) := by
  obtain ⟨core, last', more', is, weaker, here, parts, solid⟩ := joined.exists_placed placed
  exact ⟨core, is,
    (reads_of_placed parts.parts parts.isFinal here solid).mono (follows_mono weaker)⟩

theorem readings_core {core : List Node} (is : Node.Core ns core) :
    M.readings core = M.readings ns := by
  obtain ⟨lead, trail, rfl, trivia, blank⟩ := is.whole
  rw [readings_append, readings_append, readings_of_trivia M trivia, readings_of_trivia M blank]
  simp

theorem denotes_sum {core : List Node} {q : ℚ}
    (reads : M.Reads (Follows last) (textOf core) (core.map Node.unplaced))
    (sum : Reading.sum? (M.readings core) = some q) :
    Denotes M last (Calc.sum es (String.ofList (textOf core))).render.toList q := by
  have word : Text.isPlainWord "sum" := by decide +kernel
  have opens : ∀ rest, Lexer.plain ("sum".toList ++ ['('] ++ rest) =
      ⟨.function "sum", "sum".toList ++ ['('], .origin⟩ :: Lexer.plain rest := by
    intro rest
    rw [List.append_assoc]
    exact Text.plain_call word (by decide +kernel) rest
  have text : (Calc.sum es (String.ofList (textOf core))).render.toList =
      "sum".toList ++ ['('] ++ (textOf core ++ [')']) := by
    simp [Calc.render, String.toList_append]
  rw [text]
  refine ⟨⟨'s', _, rfl, rfl⟩, _, Reads.block opens rfl reads, ?_⟩
  rw [readings_single _ rfl]
  refine .single ?_ (by simp [Node.token])
  rw [← readings_unplaced] at sum
  simp [quantity?, Text.sameName, sum]

theorem exists_sum (placed : Placed (some .closeParen) last ns more) (kept : ∀ n ∈ ns, Kept M n)
    (read : Calc.ofTerms? (terms [] ns) = some e) :
    ∃ q, Reading.sum? (M.readings ns) = some q ∧ Keeps M last e q := by
  have agree := agrees_terms placed kept []
  obtain ⟨core, is, reads⟩ := exists_core (M := M) placed (Node.joined_of_ofTerms? read).1
  have source := is.source_terms
  rw [← readings_core is] at agree ⊢
  rw [Walk.ofTerms?_eq, source] at read
  obtain ⟨es, operands, rfl⟩ := Option.map_eq_some_iff.1 read
  generalize terms [] ns = ts at agree operands
  generalize found : M.readings core = rs at agree
  cases agree with
  | nil => cases operands
  | @cons t r ts rs first agree =>
    obtain ⟨f, begins, operands⟩ := Option.bind_eq_some_iff.1 operands
    obtain ⟨p, quantity, keeps⟩ := first.expression f begins
    have sum : ∀ {q}, Reading.sumFrom 0 p rs = some q → Reading.sum? (r :: rs) = some q := by
      intro q total
      simp only [Reading.sum?, quantity, Option.bind_eq_bind, Option.bind_some]
      exact total
    by_cases single : ∃ e, es = [e]
    · obtain ⟨e, rfl⟩ := single
      obtain ⟨q, total, keeps⟩ := exists_product agree keeps operands
      exact ⟨q, sum total, keeps⟩
    · obtain ⟨q, total⟩ := exists_sumFrom agree operands 0 p
      have several : Walk.sumOf (textOf core) es = .sum es (String.ofList (textOf core)) := by
        obtain _ | ⟨e, _ | _⟩ := es
        · rfl
        · exact absurd ⟨e, rfl⟩ single
        · rfl
      rw [several]
      exact ⟨q, sum total, denotes_sum reads (found ▸ sum total), by simp⟩

theorem exists_of_mem_readings {r : Reading} (member : r ∈ M.readings ns) :
    ∃ n ∈ ns, r.token = n.token := by
  induction ns with
  | nil => cases member
  | cons n ns ih =>
    rw [readings] at member
    split at member
    · obtain ⟨m, inside, same⟩ := ih member
      exact ⟨m, by simp [inside], same⟩
    · rcases List.mem_cons.1 member with rfl | later
      · exact ⟨n, by simp, rfl⟩
      · obtain ⟨m, inside, same⟩ := ih later
        exact ⟨m, by simp [inside], same⟩

theorem readings_other (kept : ∀ n ∈ ns, n.isComma = false) :
    ∀ r ∈ M.readings ns, (r.token == .comma) = false := by
  intro r member
  obtain ⟨n, inside, same⟩ := exists_of_mem_readings member
  rw [same]
  exact kept n inside

theorem exists_arguments (placed : Placed (some .closeParen) last ns more)
    (kept : ∀ n ∈ ns, Kept M n) (listed : Node.Listed ns es) :
    ∃ operands, Reading.arguments? (M.readings ns) = some operands ∧
      Lists M last (", ".intercalate (es.map Calc.render)).toList operands := by
  induction listed with
  | single other read =>
    obtain ⟨q, sum, keeps⟩ := exists_sum placed kept read
    refine ⟨[.quantity q], ?_, by simpa using keeps.text.lists⟩
    rw [Reading.arguments?, segments_of_forall (readings_other other)]
    simp [Reading.argument?_of_sum? sum]
  | @cut _ rest comma _ _ other separates first later ih =>
    obtain ⟨q, sum, keeps⟩ := exists_sum placed.left (fun n member => kept n (by simp [member])) first
    have right : Placed (some .closeParen) last ([comma] ++ rest) more := placed.right
    obtain ⟨operands, arguments, lists⟩ := ih right.right fun n member => kept n (by simp [member])
    exact ⟨.quantity q :: operands, arguments?_readings_cut (readings_other other) separates
      (Reading.argument?_of_sum? sum) arguments,
      lists.intercalate (mt List.map_eq_nil_iff.1 later.ne_nil) keeps.text.argues⟩

theorem exists_call {name : String} {m : Math} (placed : Placed (some .closeParen) last ns more)
    (kept : ∀ n ∈ ns, Kept M n) (read : Math.ofTerms? name (terms [] ns) = some m) :
    ∃ operands, Reading.arguments? (M.readings ns) = some operands ∧
      Denotes M last m.render.toList (M.call name.toLower operands) := by
  have lower : name.toLower.toLower = name.toLower := Text.toLower_toLower name
  have known : Math.isName name.toLower := by
    rw [Math.isName, lower]
    exact Math.isName_of_ofTerms? read
  have call : ∀ {texts operands}, Lists M last (", ".intercalate texts).toList operands →
      Denotes M last (callText name.toLower texts).toList (M.call name.toLower operands) := by
    intro texts operands lists
    have whole := lists.call (Math.isPlainWord_of_isName known)
      (Math.sameName_of_isName known (by decide +kernel))
      (Math.sameName_of_isName known (by decide +kernel)) lower
    simpa [callText, String.toList_append] using whole
  obtain ⟨es, listed, made⟩ |
    ⟨lead, n, gap, comma, rest, keyword, es, rfl, blank, blank', token, token', strategy, listed,
      made⟩ := Node.ofTerms?_cases read
  · obtain ⟨operands, arguments, lists⟩ := exists_arguments placed kept listed
    exact ⟨operands, arguments, made.render_eq ▸ call lists⟩
  · have text : m.render = callText name.toLower (keyword :: es.map Calc.render) := made.render_eq
    have behind : Placed (some .closeParen) last ([n] ++ (gap ++ ([comma] ++ rest))) more :=
      placed.right
    obtain ⟨operands, arguments, lists⟩ := exists_arguments behind.right.right.right
      (fun n member => kept n (by simp [member])) listed
    have solid : n.isTrivia = false := by simp [Node.isTrivia, token, Token.isTrivia]
    have name : M.readings (lead ++ n :: gap) = [⟨.ident keyword, none⟩] := by
      rw [readings_append, readings_of_trivia M blank, readings, if_neg (by simp [solid]),
        readings_of_trivia M blank', token, quantity?_ident M token]
      rfl
    have split : lead ++ n :: (gap ++ comma :: rest) = (lead ++ n :: gap) ++ comma :: rest := by
      simp
    refine ⟨.keyword keyword :: operands, ?_, text ▸ call (lists.intercalate
      (mt List.map_eq_nil_iff.1 listed.ne_nil)
      (argues_keyword (Math.isPlainWord_of_strategy strategy)))⟩
    rw [split]
    apply arguments?_readings_cut _ (by simp [Node.isComma, token']) _ arguments
    · simp [name]
    · rw [name]
      rfl

theorem denotes_leaf {awaited : Option Token} {l : Lexeme} (placed : Placed awaited last [.leaf l] more)
    (read : Calc.ofLexeme? l = some e) :
    ∃ q, M.lexeme? l = some q ∧ Denotes M false e.render.toList q := by
  obtain ⟨numeric, text, final⟩ := Calc.ofLexeme?_cases read
  obtain ⟨q, quantity⟩ : ∃ q, M.lexeme? l = some q := by
    unfold lexeme?
    cases token : l.token <;> simp [token, Token.kind] at numeric <;> exact ⟨_, rfl⟩
  have plain : l.token.isTrivia = false ∧ l.token.isPart ∧ l.token.closing? = none ∧
      some Token.closeParen ≠ some l.token ∧ l.token ≠ .comma ∧ l.token ≠ .whitespace := by
    cases token : l.token <;> simp [token, Token.kind] at numeric <;>
      simp [Token.isTrivia, Token.isPart, Token.closing?]
  obtain ⟨solid, part, flat, other, comma, white⟩ := plain
  have here : Placed (some .closeParen) false [.leaf l] more :=
    ⟨placed.scans, .leaf flat other .nil, by simp⟩
  have reads := reads_of_placed (M := M) (by simpa [lexemesOf, Node.lexemes] using part)
    (by simpa [lexemesOf, Node.lexemes, Lexeme.visible, solid] using final) here
    (by simpa [lexemesOf, Node.lexemes] using solid)
  have only : textOf [.leaf l] = e.render.toList := by
    rw [text, textOf, textOf, List.append_nil]
    rfl
  rw [only] at reads
  refine ⟨q, quantity, ?_, _, reads, ?_⟩
  · have alone : Lexer.Scans [l] more := placed.scans
    obtain ⟨c, u, chars, visible⟩ := alone.exists_solid white
    rw [text, chars]
    exact ⟨c, u, rfl, visible⟩
  · rw [readings_unplaced, readings_single (n := .leaf l) _ solid]
    exact .single quantity comma

theorem kept (n : Node) : Kept M n := by
  intro awaited last more e placed read
  match n with
  | .leaf l =>
    rw [calc?] at read
    obtain ⟨q, quantity, denotes⟩ := denotes_leaf placed read
    exact ⟨q, quantity, denotes.mono (by simp), fun _ _ => denotes⟩
  | .block l body closing =>
    obtain ⟨t, more', opens, _, inner⟩ := placed.body
    have each : ∀ m ∈ body, Kept M m := by
      intro m member
      have smaller := List.sizeOf_lt_of_mem member
      exact kept m
    have weaker : (last && closing.isNone) → last := fun both => (Bool.and_eq_true_iff.1 both).1
    rw [calc?] at read
    split at read
    · rename_i paren
      rw [paren] at opens
      obtain rfl := Option.some.inj opens
      obtain ⟨q, sum, keeps⟩ := exists_sum inner each read
      refine ⟨q, ?_, keeps.mono weaker⟩
      simp only [quantity?, paren, sum]
    · rename_i name call
      rw [call] at opens
      obtain rfl := Option.some.inj opens
      obtain ⟨m, made, rfl⟩ := Option.map_eq_some_iff.1 read
      obtain ⟨operands, arguments, denotes⟩ := exists_call inner each made
      refine ⟨_, ?_, denotes.mono weaker, by simp⟩
      have other : Text.sameName name "sum" = false :=
        Math.sameName_of_isName (Math.isName_of_ofTerms? made) (by decide +kernel)
      simp [quantity?, call, other, arguments]
    · cases read
termination_by sizeOf n

end Nodes

end Meaning

def Value.math? : Value → Option Math
  | length (.math m) => some m
  | _ => none

theorem Value.math?_eq_some {v : Value} {m : Math} (found : v.math? = some m) :
    v = length (.math m) := by
  unfold math? at found
  split at found <;> cases found
  rfl

namespace Node

variable {n : Node} {e : Calc} {m : Math}

theorem Grown.block {awaited awaited' : Option Token} {last : Bool} {l : Lexeme} {body : List Node}
    {closing : Option Lexeme} (grown : Grown awaited last [block l body closing]) :
    Grown awaited' last [block l body closing] := by
  cases grown with
  | closed closes inner => exact .closed closes inner .nil
  | opened opens inner => exact .opened opens inner

theorem ofText?_text {M : Meaning} {awaited : Option Token} {last : Bool} {more : List Char}
    {q : ℚ} {l : Lexeme} {body : List Node} {closing : Option Lexeme}
    (placed : Placed awaited last [block l body closing] more)
    (read : calc? (block l body closing) = some e)
    (quantity : M.quantity? (block l body closing) = some q) :
    M.ofText? (block l body closing).text = some q := by
  have here : Placed (some .closeParen) last [block l body closing] more :=
    ⟨placed.scans, placed.grown.block, placed.ends⟩
  have alone : lexemesOf [block l body closing] = (block l body closing).lexemes :=
    List.append_nil _
  have parts : Lexeme.Parts (lexemesOf [block l body closing]) := alone ▸ parts_of_calc? _ here read
  have reads := Meaning.reads_of_placed (M := M) parts.parts parts.isFinal here (by
    rintro rfl
    have alone : Placed (some .closeParen) false ([] ++ [block l body closing]) more := here
    exact alone.solid_getLast? read)
  rw [textOf, textOf, List.append_nil] at reads
  rw [reads.ofText?_eq, Meaning.readings_unplaced, Meaning.readings_single _ (solid_of_calc? read).1]
  exact (Reading.Product.single quantity (Meaning.token_ne_comma M quantity)).sum?_eq

theorem calc?_of_value? {lead : List Char} (read : n.value? lead = some (.length (.math m))) :
    calc? n = some (.function m) ∧ ∃ l body closing, n = block l body closing := by
  cases n with
  | leaf l =>
    exfalso
    rw [value?] at read
    have value := Option.some.inj read
    unfold Value.ofToken Value.ofToken.hexOr Value.exactOrRaw at value
    repeat' split at value
    all_goals cases value
  | block l body closing =>
    refine ⟨?_, l, body, closing, rfl⟩
    rw [value?] at read
    split at read
    · cases read
    · split at read
      · cases read
      · rename_i found
        cases read
        exact found
      · have value := Option.some.inj read
        unfold callValue at value
        split at value <;> cases value
    · cases read

/-- Whatever units, percent signs and functions stand for, a math function is printed as a text of the
quantity that it was in the source. -/
theorem same_quantity_printed {css : List Char} {ns : List Node} {lead : List Char}
    (inside : Inside (ofText css) ns) (member : n ∈ ns)
    (read : n.value? lead = some (.length (.math m))) (M : Meaning) :
    ∃ q, M.ofText? n.text = some q ∧ M.ofText? m.render.toList = some q := by
  obtain ⟨found, l, body, closing, rfl⟩ := calc?_of_value? read
  obtain ⟨awaited, last, more, placed⟩ := inside.placed
  obtain ⟨last', more', _, single⟩ := placed.single member
  obtain ⟨q, quantity, keeps⟩ := Meaning.kept (M := M) _ _ _ _ _ single found
  obtain ⟨ms, reads, product⟩ := keeps.text.reads
  exact ⟨q, ofText?_text single found quantity, reads.ofText?_eq ▸ product.sum?_eq⟩

def foldedCalc : List Char :=
  "calc((1px + 50%) * 2)".toList

theorem same_quantity_printed_foldedCalc :
    ∃ n m, n ∈ ofText foldedCalc ∧ n.value? [] = some (.length (.math m)) ∧
      m.render = "calc(2 * sum(1px + 50%))" ∧
      ∀ M : Meaning, ∃ q, M.ofText? foldedCalc = some q ∧ M.ofText? m.render.toList = some q := by
  have texts : (ofText foldedCalc).map (fun n =>
      (n.text, ((n.value? []).bind Value.math?).map Math.render)) =
        [(foldedCalc, some "calc(2 * sum(1px + 50%))")] := by
    decide +kernel
  obtain ⟨n, nodes, same⟩ := List.map_eq_singleton_iff.1 texts
  obtain ⟨text, printed⟩ := Prod.mk.inj same
  obtain ⟨m, found, printed⟩ := Option.map_eq_some_iff.1 printed
  obtain ⟨v, read, math⟩ := Option.bind_eq_some_iff.1 found
  rw [Value.math?_eq_some math] at read
  have member : n ∈ ofText foldedCalc := nodes ▸ List.mem_singleton_self n
  refine ⟨n, m, member, read, printed, fun M => ?_⟩
  rw [← text]
  exact same_quantity_printed .self member read M

end Node

end CssOutline
