import CssOutline.Proofs.Walk

/-! Colors read with a cursor. The operands of `light-dark` may be color functions again, one level
of blocks further in; no other color holds a block. -/

namespace CssOutline

open Node (textOf significant color? colorItems)

namespace Walk

/-- What a token adds to the channels so far and, after a slash, the alpha. -/
def addChannel (s : List Channel × Option (Option Channel)) :
    Token → Walk (List Channel × Option (Option Channel))
  | .comma => pure s
  | t =>
    match s.2, Channel.ofToken? t with
    | none, some channel => pure (s.1 ++ [channel], none)
    | none, none => if t == .delim '/' then pure (s.1, some none) else fail .color
    | some none, some channel => pure (s.1, some (some channel))
    | _, _ => fail .color

def channelStep (s : List Channel × Option (Option Channel)) :
    Walk ((List Channel × Option (Option Channel)) ⊕ (List Channel × Option Channel)) := do
  match ← attempt next with
  | .error _ => pure (.inr (s.1, s.2.join))
  | .ok t => .inl <$> addChannel s t

def channels : Walk (List Channel × Option Channel) :=
  loop channelStep ([], none)

def arrange (references : Number × Number × Number)
    (make : Number → Number → Number → Number → Color) :
    List Channel × Option Channel → Option Color
  | ([a, b, c], alpha) => some (finish a b c alpha)
  | ([a, b, c, d], none) => some (finish a b c (some d))
  | _ => none
where
  finish (a b c : Channel) (alpha : Option Channel) : Color :=
    make (a.scaled references.1) (b.scaled references.2.1) (c.scaled references.2.2)
      ((alpha.map (Channel.scaled .one)).getD .one)

def colorOperand (inner : ColorFunction → Walk Color) : Walk Color := do
  match ← next with
  | .function name =>
    match ColorFunction.ofName? name with
    | some f => nested (inner f)
    | none => fail .color
  | t => orFail .color (Color.ofToken? t)

def colorFunction (inner : ColorFunction → Walk Color) : ColorFunction → Walk Color
  | .lightDark => do
    let light ← untilBefore Node.isComma (colorOperand inner)
    expectComma
    Color.lightDark light <$> colorOperand inner
  | .predefined => do
    let space ← expectIdent
    let cs ← channels
    orFail .color (arrange (.one, .one, .one) (.predefined space) cs)
  | .model m => do
    let cs ← channels
    orFail .color (arrange m.references (.channels m) cs)

def colors : Nat → ColorFunction → Walk Color
  | 0 => colorFunction fun _ => misuse .endless
  | d + 1 => colorFunction (colors d)

variable {c : Cursor} {q : List Char} {ns : List Node} {d : Nat}

/-- The channels and the alpha that tokens add to those read before. -/
def channelsFrom (channels : List Channel) :
    Option (Option Channel) → List Token → Option (List Channel × Option Channel)
  | none, ts => (readChannels ts).map fun read => (channels ++ read.1, read.2)
  | some alpha, ts => (readChannels.alphaOf alpha ts).map (channels, ·)

theorem channelsFrom_comma (channels : List Channel) (after : Option (Option Channel))
    (ts : List Token) :
    channelsFrom channels after (.comma :: ts) = channelsFrom channels after ts := by
  cases after <;> simp [channelsFrom, readChannels, readChannels.alphaOf]

theorem readChannels_channel {t : Token} {channel : Channel}
    (found : Channel.ofToken? t = some channel) (ts : List Token) :
    readChannels (t :: ts) = (readChannels ts).map fun read => (channel :: read.1, read.2) := by
  rw [readChannels.eq_def]
  split
  · contradiction
  · rename_i same
    cases same
    simp [Channel.ofToken?] at found
  · rename_i same
    cases same
    simp [Channel.ofToken?] at found
  · rename_i same
    cases same
    rw [found]
    cases readChannels ts <;> rfl

theorem readChannels_other {t : Token} (other : Channel.ofToken? t = none) (comma : t ≠ .comma)
    (slash : t ≠ .delim '/') (ts : List Token) : readChannels (t :: ts) = none := by
  rw [readChannels.eq_def]
  split <;> simp_all

theorem alphaOf_token {t : Token} (comma : t ≠ .comma) (alpha : Option Channel) (ts : List Token) :
    readChannels.alphaOf alpha (t :: ts) =
      match Channel.ofToken? t, alpha with
      | some channel, none => readChannels.alphaOf (some channel) ts
      | _, _ => none := by
  rw [readChannels.alphaOf.eq_def]
  split
  · contradiction
  · rename_i same
    cases same
    contradiction
  · rename_i same
    cases same
    rfl

theorem addChannel_eq (channels : List Channel) (after : Option (Option Channel)) (t : Token)
    (ts : List Token) (c : Cursor) :
    (∃ s, (addChannel (channels, after) t).run c = .done s c ∧
      channelsFrom channels after (t :: ts) = channelsFrom s.1 s.2 ts) ∨
    ((addChannel (channels, after) t).run c = .failed .color c ∧
      channelsFrom channels after (t :: ts) = none) := by
  rw [addChannel.eq_def]
  split
  · exact .inl ⟨(channels, after), rfl, channelsFrom_comma channels after ts⟩
  rename_i comma
  cases after with
  | none =>
    cases found : Channel.ofToken? t with
    | some channel =>
      refine .inl ⟨(channels ++ [channel], none), rfl, ?_⟩
      simp only [channelsFrom, readChannels_channel found, Option.map_map]
      congr 1
      funext read
      simp
    | none =>
      by_cases slash : t = .delim '/'
      · subst slash
        refine .inl ⟨(channels, some none), rfl, ?_⟩
        simp only [channelsFrom, readChannels, Option.map_map]
        congr 1
        funext alpha
        simp
      · refine .inr ⟨by simp [slash]; rfl, ?_⟩
        rw [channelsFrom, readChannels_other found comma slash]
        rfl
  | some alpha =>
    rw [channelsFrom, alphaOf_token comma]
    cases found : Channel.ofToken? t with
    | none => exact .inr ⟨by cases alpha <;> rfl, rfl⟩
    | some channel =>
      cases alpha with
      | none => exact .inl ⟨(channels, some (some channel)), rfl, rfl⟩
      | some _ => exact .inr ⟨rfl, rfl⟩

theorem exists_loops_channelStep (place : c.settle = ⟨q, none, ns⟩) (channels : List Channel)
    (after : Option (Option Channel)) :
    ∃ result c', Loops channelStep (channels, after) c (.of result c') ∧
      (∀ read, result = .ok read → c'.Spent) ∧
      result.toOption = channelsFrom channels after ((significant ns).map Node.token) := by
  induction size : ns.length using Nat.strong_induction_on generalizing ns c q channels after with
  | _ size' ih =>
    subst size
    rcases next_cases place with ⟨spent, _, run⟩ | ⟨lead, n, rest, rfl, _, _, found, run⟩
    · refine ⟨.ok (channels, after.join), ⟨q ++ textOf ns, none, []⟩, .stop ?_, ?_, ?_⟩
      · rw [channelStep, bind_done (attempt_failed run)]
        rfl
      · simp [Cursor.Spent]
      · rw [spent]
        cases after <;> simp [channelsFrom, readChannels, readChannels.alphaOf, Except.toOption]
    · rw [found, List.map_cons]
      rcases addChannel_eq channels after n.token ((significant rest).map Node.token)
        (.enter _ n rest) with ⟨s, added, same⟩ | ⟨last, none⟩
      · have round : (channelStep (channels, after)).run c = _ :=
          (bind_done (attempt_done run) _).trans (bind_done added _)
        obtain ⟨result, c', loops, spent, equal⟩ := ih rest.length (by simp; omega)
          (Cursor.settle_enter _ n rest) s.1 s.2 rfl
        refine ⟨result, c', .more round ?_ loops, spent, equal.trans same.symm⟩
        simp [Cursor.rest_eq place]
        omega
      · have round : (channelStep (channels, after)).run c = _ :=
          (bind_done (attempt_done run) _).trans (bind_failed last _)
        exact ⟨.error .color, _, .fail round, by simp, none.symm⟩

theorem channels_finishes :
    Finishes channels ns (·.toOption = readChannels ((significant ns).map Node.token)) := by
  intro q
  obtain ⟨result, c, loops, spent, equal⟩ :=
    exists_loops_channelStep (c := ⟨q, none, ns⟩) rfl [] none
  refine ⟨result, c, loops.run_loop, spent, equal.trans ?_⟩
  simp [channelsFrom]

theorem colorOf_eq (references : Number × Number × Number)
    (make : Number → Number → Number → Number → Color) (ts : List Token) :
    colorOf references make ts = (readChannels ts).bind (arrange references make) := by
  unfold colorOf
  cases readChannels ts with
  | none => rfl
  | some read =>
    obtain ⟨channels, alpha⟩ := read
    simp only [Option.bind_eq_bind, Option.bind_some]
    obtain _ | ⟨_, _ | ⟨_, _ | ⟨_, _ | ⟨_, _ | _⟩⟩⟩⟩ := channels <;> cases alpha <;> rfl

theorem arranged_finishes (references : Number × Number × Number)
    (make : Number → Number → Number → Number → Color) :
    Finishes (channels >>= fun cs => orFail .color (arrange references make cs)) ns
      (·.toOption = colorOf references make ((significant ns).map Node.token)) := by
  rw [colorOf_eq]
  exact channels_finishes.orFail .color (arrange references make)

def onlyColor? (ns : List Node) : Option Color :=
  match significant ns with
  | [n] => color? n
  | _ => none

theorem colorItems_eq (ns : List Node) :
    colorItems ns = (significant ns).map fun n => (n.token, color? n) := by
  induction ns with
  | nil => rfl
  | cons n ns ih =>
    rw [colorItems]
    cases blank : n.isTrivia with
    | true => simp [ih, significant, blank]
    | false => simp [ih, Node.significant_cons blank]

theorem exists_of_read_lightDark {items : List (Token × Option Color)} {color : Color}
    (read : ColorFunction.lightDark.read items = some color) :
    ∃ s light t u dark, items = [(s, some light), (.comma, t), (u, some dark)] ∧
      color = .lightDark light dark := by
  rw [ColorFunction.read.eq_def] at read
  split at read
  · cases ‹ColorFunction.lightDark = _›
  · cases ‹ColorFunction.lightDark = _›
  · cases read
  · exact ⟨_, _, _, _, _, rfl, (Option.some.inj read).symm⟩
  · cases read

theorem read_lightDark {front more : List Node} {comma : Node}
    (kept : ∀ n ∈ front, n.isComma = false) (separates : comma.isComma) (within : comma.Within d) :
    ColorFunction.lightDark.read (colorItems (front ++ comma :: more)) =
      (onlyColor? front).bind fun light => (onlyColor? more).map (.lightDark light) := by
  have token : comma.token = .comma := by simpa [Node.isComma] using separates
  have solid : comma.isTrivia = false := by simp [Node.isTrivia, token, Token.isTrivia]
  have plain : color? comma = none := by
    cases within with
    | leaf => simp_all [color?, Node.token, Color.ofToken?]
    | block opens _ => simp_all [Node.token, Token.closing?]
  rw [colorItems_eq, Node.significant_append, Node.significant_cons solid, List.map_append,
    List.map_cons, token, plain]
  unfold onlyColor?
  rcases first : significant front with _ | ⟨a, _ | ⟨b, bs⟩⟩
  · simp [ColorFunction.read]
  · simp only [List.map_cons, List.map_nil, List.cons_append, List.nil_append]
    generalize color? a = light
    rcases significant more with _ | ⟨b, _ | ⟨c, cs⟩⟩
    · cases light <;> rfl
    · simp only [List.map_cons, List.map_nil]
      generalize color? b = dark
      cases light <;> cases dark <;> rfl
    · simp only [List.map_cons]
      generalize color? b = dark
      cases light <;> cases dark <;> rfl
  · have other : b.token ≠ .comma := by
      have member := (Node.mem_significant.1 (first ▸ by simp : b ∈ significant front)).1
      simpa [Node.isComma] using kept b member
    rw [Option.bind_none, Option.eq_none_iff_forall_ne_some]
    intro color read
    obtain ⟨s, light, t, u, dark, same, _⟩ := exists_of_read_lightDark read
    simp only [List.map_cons, List.cons_append, List.cons.injEq, Prod.mk.injEq] at same
    exact other same.2.1.1

section Functions

variable {inner : ColorFunction → Walk Color}
  (deeper : ∀ {e ms}, d = e + 1 → (∀ m ∈ ms, m.Within e) → ∀ f,
    Reads (inner f) ms (·.toOption = f.read (colorItems ms)))

include deeper in
/-- An operand is a token or a function with all that is in it. -/
theorem colorOperand_eq {n : Node} {rest : List Node} (within : n.Within d)
    (run : next.run c = .done n.token (.enter q n rest)) :
    ∃ result c', (colorOperand inner).run c = .of result c' ∧ c'.rest = rest ∧
      result.toOption = color? n := by
  rw [colorOperand, bind_done run]
  split
  · rename_i name token
    obtain ⟨e, l, body, closing, rfl, rfl, inside⟩ := exists_block within (by rw [token]; rfl)
    rw [Node.token] at token
    simp only [color?, token]
    cases ColorFunction.ofName? name with
    | none => exact ⟨.error .color, _, rfl, rfl, rfl⟩
    | some f =>
      obtain ⟨result, run, equal⟩ := (deeper rfl inside f).nested closing q rest
      exact ⟨result, _, run, rfl, equal⟩
  · rename_i other
    obtain ⟨result, run, equal⟩ :=
      toOption_orFail .color (Color.ofToken? n.token) (.enter q n rest)
    refine ⟨result, _, run, rfl, equal.trans ?_⟩
    cases within with
    | leaf => rfl
    | @block _ l body closing opens inside =>
      simp only [color?, Node.token] at *
      cases token : l.token <;> simp_all [Token.closing?, Color.ofToken?]

include deeper in
theorem colorOperand_reads (within : ∀ m ∈ ns, m.Within d) :
    Reads (colorOperand inner) ns (·.toOption = onlyColor? ns) := by
  intro q
  rcases next_cases (c := ⟨q, none, ns⟩) rfl with
    ⟨spent, _, run⟩ | ⟨lead, n, rest, rfl, _, _, found, run⟩
  · refine ⟨.error _, _, entirely_failed (bind_failed run _), ?_⟩
    rw [onlyColor?, spent]
    rfl
  obtain ⟨result, c, run, rfl, equal⟩ := colorOperand_eq deeper (within n (by simp)) run
  rw [onlyColor?, found]
  cases result with
  | error e =>
    refine ⟨.error e, c, entirely_failed run, ?_⟩
    cases significant c.rest with
    | nil => exact equal
    | cons => rfl
  | ok color =>
    have whole := entirely_eq run
    cases more : significant c.rest with
    | nil =>
      rw [more] at whole
      exact ⟨.ok color, c, whole, equal⟩
    | cons m ms =>
      rw [more] at whole
      exact ⟨.error (.fault (.unexpectedToken m.token)), c, whole, rfl⟩

theorem predefined_reads (within : ∀ m ∈ ns, m.Within d) :
    Reads (colorFunction inner .predefined) ns
      (·.toOption = ColorFunction.predefined.read (colorItems ns)) := by
  intro q
  rw [colorItems_eq]
  rcases next_cases (c := ⟨q, none, ns⟩) rfl with
    ⟨spent, _, run⟩ | ⟨lead, n, rest, rfl, _, _, found, run⟩
  · refine ⟨.error _, _, entirely_failed (bind_failed (expect_end run _) _), ?_⟩
    rw [spent]
    rfl
  have space := expect_eq run ident?
  rw [found, List.map_cons]
  cases named : ident? n.token with
  | none =>
    rw [named] at space
    refine ⟨.error _, _, entirely_failed (bind_failed space _), ?_⟩
    unfold ColorFunction.read
    split <;> simp_all [ident?, Except.toOption]
  | some name =>
    rw [named] at space
    have token := ident?_eq_some.1 named
    rw [enter_plain (within n (by simp)) (by rw [token]; rfl)] at space
    obtain ⟨result, c, run, equal⟩ : ∃ result c, (entirely _).run ⟨_, none, rest⟩ = _ ∧ _ :=
      (arranged_finishes (.one, .one, .one) (.predefined name)).reads (q ++ textOf lead ++ n.text)
    refine ⟨result, c, (entirely_bind space _).trans run, ?_⟩
    rw [token]
    refine equal.trans ?_
    rw [ColorFunction.read, List.map_map]
    rfl

include deeper in
theorem lightDark_reads (within : ∀ m ∈ ns, m.Within d) :
    Reads (colorFunction inner .lightDark) ns
      (·.toOption = ColorFunction.lightDark.read (colorItems ns)) := by
  intro q
  rcases exists_cut Node.isComma ns with kept | ⟨front, comma, more, rfl, kept, separates⟩
  · have none : ColorFunction.lightDark.read (colorItems ns) = none := by
      rw [colorItems_eq, Option.eq_none_iff_forall_ne_some]
      intro color read
      obtain ⟨s, light, t, u, dark, same, _⟩ := exists_of_read_lightDark read
      have comma : (Token.comma, t) ∈ (significant ns).map fun n => (n.token, color? n) := by
        simp [same]
      obtain ⟨n, member, token⟩ := List.mem_map.1 comma
      have plain := kept n (Node.mem_significant.1 member).1
      simp_all [Node.isComma]
    obtain ⟨result, run, _⟩ := (colorOperand_reads deeper within).untilBefore_all kept q
    cases result with
    | error e => exact ⟨.error e, _, entirely_failed (bind_failed run _), none.symm⟩
    | ok light =>
      refine ⟨.error _, _, entirely_failed ((bind_done run _).trans
        (bind_failed (expectComma_end _) _)), none.symm⟩
  · have here := within comma (by simp)
    rw [read_lightDark kept separates here]
    obtain ⟨result, run, equal⟩ := (colorOperand_reads deeper
      fun m member => within m (by simp [member])).untilBefore_cut kept separates q more
    rw [← equal]
    cases result with
    | error e => exact ⟨.error e, _, entirely_failed (bind_failed run _), rfl⟩
    | ok light =>
      have taken := expectComma_comma here separates (q ++ textOf front) more
      have later : ∀ m ∈ more, m.Within d := fun m member => within m (by simp [member])
      obtain ⟨result, c, run', inside, equal, rfl⟩ :=
        (colorOperand_reads deeper later).map (Color.lightDark light) _
      refine ⟨_, c, (entirely_bind run _).trans ((entirely_bind taken _).trans run'), ?_⟩
      rw [← equal]
      cases inside <;> rfl

end Functions

theorem colorFunction_reads {inner : ColorFunction → Walk Color}
    (deeper : ∀ {e ms}, d = e + 1 → (∀ m ∈ ms, m.Within e) → ∀ f,
      Reads (inner f) ms (·.toOption = f.read (colorItems ms)))
    (within : ∀ m ∈ ns, m.Within d) (f : ColorFunction) :
    Reads (colorFunction inner f) ns (·.toOption = f.read (colorItems ns)) := by
  cases f with
  | lightDark => exact lightDark_reads deeper within
  | predefined => exact predefined_reads within
  | model m =>
    refine (arranged_finishes m.references (.channels m)).reads.imp fun result equal => ?_
    rw [equal, colorItems_eq, ColorFunction.read, List.map_map]
    rfl

theorem colors_reads (d : Nat) (within : ∀ m ∈ ns, m.Within d) (f : ColorFunction) :
    Reads (colors d f) ns (·.toOption = f.read (colorItems ns)) := by
  induction d generalizing ns f with
  | zero => exact colorFunction_reads (by simp) within f
  | succ d ih =>
    refine colorFunction_reads (fun same inside f => ?_) within f
    cases same
    exact ih inside f

end Walk

end CssOutline
