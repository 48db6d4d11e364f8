import Pddl.Proofs.Composition
import Pddl.Proofs.OpenParens

/-!
# The limit on the nesting of expressions

A reader of expressions enters a level for each parenthesis that an expression opens, and for no
other one.  So within a limit it reads what it reads without one, as long as no more parentheses of
expressions are open at once in what it consumes than the limit allows, and beyond that it fails
(`read_withLimit_eq_ok`).  `Measures` says of a run without a limit which tokens it consumes, how
many levels it enters, and that it is the run within every limit that leaves room for them.
-/

namespace Pddl.Reader

variable {α β : Type} {c : Context} {s s' s₁ : State} {p q : Nat}

/-- The depth is within the limit, if there is one. -/
def WithinLimit (limit : Option Nat) (depth : Nat) : Prop :=
  ∀ k ∈ limit, depth ≤ k

/-- Two depths are within a limit if the greater one is. -/
lemma withinLimit_max {limit : Option Nat} {depth : Nat} :
    WithinLimit limit (depth + max p q) ↔
      WithinLimit limit (depth + p) ∧ WithinLimit limit (depth + q) := by
  constructor
  · intro h
    constructor
    · exact fun k hk => Nat.le_trans (by omega) (h k hk)
    · exact fun k hk => Nat.le_trans (by omega) (h k hk)
  · rintro ⟨hp, hq⟩ k hk
    have hpk := hp k hk
    have hqk := hq k hk
    omega

/-! ### Readers on one level -/

/-- The limit makes no difference to the reader. -/
def LimitFree (m : ReadM α) : Prop :=
  ∀ (c : Context) (limit : Option Nat) (s : State), m (c.withLimit limit) s = m (c.withLimit none) s

/-- The budget does not depend on the limit. -/
lemma limitFree_budget : LimitFree budget := by
  intro c limit s
  rw [budget_eq, budget_eq]
  rfl

/-- Readers that enter no level do not depend on the limit. -/
lemma limitFree_stepwise : Stepwise LimitFree :=
  unaffected_stepwise fun hlimit _ => hlimit

/-! ### Runs without a limit -/

/-- What the reader does within a limit it also does without one. -/
def Loosens (m : ReadM α) : Prop :=
  ∀ (c : Context) (limit : Option Nat) (s : State) (a : α) (s' : State),
    m (c.withLimit limit) s = .ok a s' → m (c.withLimit none) s = .ok a s'

/-- Readers that do not depend on the limit. -/
lemma LimitFree.loosens {m : ReadM α} (h : LimitFree m) : Loosens m :=
  fun c limit s _ _ hrun => (h c limit s).symm.trans hrun

/-- What readers do within a limit they also do without one. -/
lemma loosens_compositional : Compositional Loosens where
  pure := fun a => (limitFree_stepwise.pure a).loosens
  bind := by
    intro α β m f hm hf c limit s b s' h
    obtain ⟨a, s₁, hrun, hrest⟩ := bind_eq_ok.mp h
    exact bind_eq_ok.mpr ⟨a, s₁, hm c limit s a s₁ hrun, hf a c limit s₁ b s' hrest⟩
  get := fun _ hf c limit s a s' h => hf s c limit s a s' h
  rounds := fun _ hloop c limit s a s' h => hloop _ c limit s a s' h
  budget := limitFree_budget.loosens
  read := by
    intro α f _ hlimit _ hf c limit s a s' h
    change f (c.withLimit limit) (c.withLimit limit) s = .ok a s' at h
    change f (c.withLimit none) (c.withLimit none) s = .ok a s'
    rw [hlimit] at h ⊢
    exact hf c c limit s a s' h
  raise := fun _ => LimitFree.loosens fun _ _ _ => rfl
  peek := limitFree_stepwise.peek.loosens
  advance := limitFree_stepwise.advance.loosens
  report := fun token breach => (limitFree_stepwise.report token breach).loosens
  note := fun notice hlevel => (limitFree_stepwise.note notice hlevel).loosens
  declare := fun _ _ _ _ _ _ h => h
  nested := by
    intro α body hbody c limit s a s' h
    obtain ⟨-, s₁, hrun, hleave⟩ := nested_eq_ok.mp h
    exact nested_eq_ok.mpr ⟨by simp [Context.withLimit], s₁, hbody c limit _ a s₁ hrun, hleave⟩

/-! ### Levels that a run enters -/

/-- Within any limit that the level of `s` respects, the reader has this run from `s` exactly if
there is room for `p` more levels, and it has no other. -/
def RunsWithin (m : ReadM α) (c : Context) (s : State) (a : α) (s' : State) (p : Nat) : Prop :=
  ∀ limit, WithinLimit limit s.depth → ∀ b t,
    (m (c.withLimit limit) s = .ok b t ↔ (b = a ∧ t = s') ∧ WithinLimit limit (s.depth + p))

/-- Each run of the reader from `s` without a limit enters a number of levels and consumes tokens,
which satisfy `Q` together with its outcome. -/
def Measures (c : Context) (m : ReadM α) (s : State) (Q : α → State → Nat → List Token → Prop) :
    Prop :=
  ∀ a s', m (c.withLimit none) s = .ok a s' →
    ∃ p ts, Q a s' p ts ∧ Consumes s ts s' ∧ RunsWithin m c s a s' p

variable {m : ReadM α} {f : α → ReadM β} {Q R : α → State → Nat → List Token → Prop}
  {P : β → State → Nat → List Token → Prop}

/-- A weaker property of the runs. -/
lemma Measures.mono (h : Measures c m s Q) (hQ : ∀ a s' p ts, Q a s' p ts → R a s' p ts) :
    Measures c m s R := by
  intro a s' hrun
  obtain ⟨p, ts, hq, hc, hwithin⟩ := h a s' hrun
  exact ⟨p, ts, hQ a s' p ts hq, hc, hwithin⟩

/-- A reader that does not depend on the limit enters no level. -/
lemma Measures.of_limitFree (hfree : LimitFree m)
    (h : ∀ a s', m (c.withLimit none) s = .ok a s' → ∃ ts, Consumes s ts s' ∧ Q a s' 0 ts) :
    Measures c m s Q := by
  intro a s' hrun
  obtain ⟨ts, hc, hq⟩ := h a s' hrun
  refine ⟨0, ts, hq, hc, fun limit hfits b t => ?_⟩
  rw [hfree c limit s, hrun, EStateM.Result.ok.injEq]
  constructor
  · rintro ⟨rfl, rfl⟩
    exact ⟨⟨rfl, rfl⟩, hfits⟩
  · rintro ⟨⟨rfl, rfl⟩, -⟩
    exact ⟨rfl, rfl⟩

/-- A reader that has no run without a limit. -/
lemma Measures.of_ne_ok (h : ∀ a s', m (c.withLimit none) s ≠ .ok a s') : Measures c m s Q :=
  fun a s' hrun => absurd hrun (h a s')

/-- Failing at the current token. -/
lemma Measures.failHere {expected : String} {cause : Cause} :
    Measures c (failHere expected cause : ReadM α) s Q :=
  .of_ne_ok fun _ _ h => absurd h (by simp)

/-- Failing at a token. -/
lemma Measures.failAt {token : Token} {expected : String} {cause : Cause} :
    Measures c (failAt token expected cause : ReadM α) s Q :=
  .of_ne_ok fun _ _ h => absurd h (by simp)

/-- Returning a value. -/
lemma Measures.pure {a : α} (hv : s.cursor.Valid) (h : Q a s 0 []) :
    Measures c (pure a) s Q := by
  refine .of_limitFree (limitFree_stepwise.pure a) fun b s' hrun => ?_
  obtain ⟨rfl, rfl⟩ := pure_eq_ok.mp hrun
  exact ⟨[], .refl hv, h⟩

/-- One reader after another.  The levels of both have to fit. -/
lemma Measures.bind (hm : Measures c m s Q)
    (hf : ∀ a s₁ p ts, m (c.withLimit none) s = .ok a s₁ → Consumes s ts s₁ → Q a s₁ p ts →
      Measures c (f a) s₁ fun b s' q us => P b s' (max p q) (ts ++ us)) :
    Measures c (m >>= f) s P := by
  intro b s' hrun
  obtain ⟨a, s₁, hfirst, hrest⟩ := bind_eq_ok.mp hrun
  obtain ⟨p, ts, hq, hc, hwithin⟩ := hm a s₁ hfirst
  obtain ⟨q, us, hp, hc', hwithin'⟩ := hf a s₁ p ts hfirst hc hq b s' hrest
  refine ⟨max p q, ts ++ us, hp, hc.trans hc', fun limit hfits b' t => ?_⟩
  have hfits' : WithinLimit limit s₁.depth := hc.depth.symm ▸ hfits
  have hsecond := hwithin' limit hfits' b' t
  rw [hc.depth] at hsecond
  rw [withinLimit_max, bind_eq_ok]
  constructor
  · rintro ⟨a', s₁', hfirst', hrest'⟩
    obtain ⟨⟨rfl, rfl⟩, hp⟩ := (hwithin limit hfits a' s₁').mp hfirst'
    obtain ⟨heq, hq⟩ := hsecond.mp hrest'
    exact ⟨heq, hp, hq⟩
  · rintro ⟨heq, hp, hq⟩
    exact ⟨a, s₁, (hwithin limit hfits a s₁).mpr ⟨⟨rfl, rfl⟩, hp⟩, hsecond.mpr ⟨heq, hq⟩⟩

/-- A reader one level deeper. -/
lemma Measures.nested {R : α → State → Nat → List Token → Prop}
    (h : Measures c m s.deeper fun a s' p ts => R a s'.higher (p + 1) ts) :
    Measures c (nested m) s R := by
  intro a s' hrun
  obtain ⟨-, s₁, hbody, rfl⟩ := nested_eq_ok.mp hrun
  obtain ⟨p, ts, hr, hc, hwithin⟩ := h a s₁ hbody
  refine ⟨p + 1, ts, hr, hc.of_nested, fun limit hfits b t => ?_⟩
  have hlevels : s.depth + (p + 1) = s.deeper.depth + p := by
    change s.depth + (p + 1) = s.depth + 1 + p
    omega
  rw [nested_eq_ok, hlevels]
  constructor
  · rintro ⟨hlimit, t', hbody', rfl⟩
    obtain ⟨⟨rfl, rfl⟩, hp⟩ := (hwithin limit hlimit b t').mp hbody'
    exact ⟨⟨rfl, rfl⟩, hp⟩
  · rintro ⟨⟨rfl, rfl⟩, hp⟩
    have hlimit : WithinLimit limit s.deeper.depth :=
      fun k hk => Nat.le_trans (Nat.le_add_right _ _) (hp k hk)
    exact ⟨hlimit, s₁, (hwithin limit hlimit b s₁).mpr ⟨⟨rfl, rfl⟩, hp⟩, rfl⟩

/-! ### Parts and ends of expressions -/

/-- The reader consumes a whole part of an expression and enters a level for each parenthesis of it
that is open at once. -/
def MeasuresPart (c : Context) (m : ReadM α) (s : State) : Prop :=
  Measures c m s fun _ _ p ts => Raises ts p ∧ ts ≠ []

/-- The reader consumes the rest of an expression and enters a level for each further parenthesis
that is open at once in it. -/
def MeasuresRest (stretch : Stretch) (c : Context) (m : ReadM α) (s : State) : Prop :=
  Measures c m s fun _ _ p ts => Closes stretch ts p

variable {stretch : Stretch} {opener : Token}

/-- A look at the current token before the rest of an expression. -/
lemma MeasuresRest.current {f : Token → ReadM β}
    (h : MeasuresRest stretch c (f s.cursor.current) s) :
    MeasuresRest stretch c (Reader.current >>= f) s :=
  h

/-- A look at the current kind before the rest of an expression. -/
lemma MeasuresRest.currentKind {f : Token.Kind → ReadM β}
    (h : MeasuresRest stretch c (f s.cursor.current.kind) s) :
    MeasuresRest stretch c (Reader.currentKind >>= f) s :=
  h

/-- A look at the current kind before a part of an expression. -/
lemma MeasuresPart.currentKind {f : Token.Kind → ReadM β}
    (h : MeasuresPart c (f s.cursor.current.kind) s) :
    MeasuresPart c (Reader.currentKind >>= f) s :=
  h

/-- Returning what a reader has found. -/
lemma MeasuresRest.map {g : α → β} (h : MeasuresRest stretch c m s) :
    MeasuresRest stretch c (do return g (← m)) s := by
  refine Measures.bind h fun a s₁ p ts _ hc hts => .pure hc.valid ?_
  rw [List.append_nil, Nat.max_zero]
  exact hts

/-- A part before the rest of an expression. -/
lemma MeasuresPart.bind_rest (h : MeasuresPart c m s)
    (hf : ∀ a s₁, s₁.cursor.Valid → MeasuresRest .elsewhere c (f a) s₁) :
    MeasuresRest .elsewhere c (m >>= f) s := by
  refine Measures.bind h fun a s₁ p ts _ hc hts => (hf a s₁ hc.valid).mono ?_
  exact fun _ _ q us hus => .prepend hts.1 hus

/-- A reader that consumes nothing and enters no level before the rest of an expression. -/
lemma MeasuresRest.skip (hfree : LimitFree m)
    (h : ∀ a s₁, m (c.withLimit none) s = .ok a s₁ →
      Consumes s [] s₁ ∧ MeasuresRest stretch c (f a) s₁) : MeasuresRest stretch c (m >>= f) s := by
  have hm : Measures c m s fun _ _ p ts => p = 0 ∧ ts = [] :=
    .of_limitFree hfree fun a s₁ hrun => ⟨[], (h a s₁ hrun).1, rfl, rfl⟩
  refine hm.bind fun a s₁ p ts hrun _ hts => (h a s₁ hrun).2.mono ?_
  obtain ⟨rfl, rfl⟩ := hts
  intro _ _ q us hus
  rw [Nat.zero_max]
  exact hus

/-- Asking for a feature before the rest of an expression. -/
lemma MeasuresRest.require {feature : Feature} {f : Unit → ReadM β} (hv : s.cursor.Valid)
    (h : ∀ s₁, s₁.cursor.Valid → MeasuresRest stretch c (f ()) s₁) :
    MeasuresRest stretch c (require opener feature >>= f) s := by
  refine .skip (limitFree_stepwise.require _ _) fun _ s₁ hrun => ?_
  obtain ⟨-, hc⟩ := require_consumes hv hrun
  exact ⟨hc, h s₁ hc.valid⟩

/-- Consuming a token of the text. -/
lemma measures_advance (hv : s.cursor.Valid) (hkind : s.cursor.current.kind ≠ .endOfInput) :
    Measures c advance s fun t _ p ts =>
      t = s.cursor.current ∧ p = 0 ∧ ts = [s.cursor.current] := by
  refine .of_limitFree limitFree_stepwise.advance fun t s' hrun => ?_
  obtain ⟨rfl, hc⟩ := advance_consumes hv hrun hkind
  exact ⟨_, hc, rfl, rfl, rfl⟩

/-- Consuming a token of a kind. -/
lemma measures_expect {kind : Token.Kind} {expected : String} (hv : s.cursor.Valid)
    (hkind : kind ≠ .endOfInput) :
    Measures c (expect kind expected) s fun t _ p ts => t.kind = kind ∧ p = 0 ∧ ts = [t] := by
  refine .of_limitFree (limitFree_stepwise.expect _ _) fun t s' hrun => ?_
  obtain ⟨-, hkind, hc⟩ := expect_consumes hv hrun hkind
  exact ⟨_, hc, hkind, rfl, rfl⟩

/-- The word that an expression starts with. -/
lemma MeasuresRest.word {f : Token → ReadM β} (hv : s.cursor.Valid)
    (hend : s.cursor.current.kind ≠ .endOfInput) (hopen : s.cursor.current.kind ≠ .openParen)
    (hclose : s.cursor.current.kind ≠ .closeParen)
    (hname : s.cursor.current.isQuantifier = false)
    (h : ∀ s₁, Consumes s [s.cursor.current] s₁ →
      MeasuresRest .elsewhere c (f s.cursor.current) s₁) :
    MeasuresRest .opened c (advance >>= f) s := by
  refine (measures_advance hv hend).bind fun t s₁ p ts _ hc hts => ?_
  obtain ⟨rfl, rfl, rfl⟩ := hts
  refine (h s₁ hc).mono fun _ _ q us hus => ?_
  rw [Nat.zero_max]
  exact .word hopen hclose hname hus

/-- The closing parenthesis of an expression. -/
lemma MeasuresRest.close {f : Token → ReadM β} {b : β} (hv : s.cursor.Valid)
    (hkind : s.cursor.current.kind = .closeParen) (hf : f s.cursor.current = pure b)
    (hstretch : ∀ inner, stretch ≠ .listed inner) : MeasuresRest stretch c (advance >>= f) s := by
  refine (measures_advance hv (by rw [hkind]; decide)).bind fun t s₁ p ts _ hc hts => ?_
  obtain ⟨rfl, rfl, rfl⟩ := hts
  rw [hf]
  exact .pure hc.valid (.close hkind hstretch)

/-- Closing a form. -/
lemma measures_closeForm {reason : String} (hv : s.cursor.Valid) :
    MeasuresRest .elsewhere c (closeForm opener reason) s := by
  refine .of_limitFree (limitFree_stepwise.closeForm _ _) fun _ s' hrun => ?_
  obtain ⟨t, hkind, hc⟩ := closeForm_consumes hv hrun
  exact ⟨_, hc, .close hkind (by simp)⟩

/-- Closing a form and returning what it is. -/
lemma MeasuresRest.closeForm {reason : String} {b : β} (hv : s.cursor.Valid) :
    MeasuresRest .elsewhere c (do closeForm opener reason; return b) s :=
  .map (g := fun _ => b) (measures_closeForm hv)

/-- An atom from its name on. -/
lemma measures_atomicFormula {ground : Bool} (hv : s.cursor.Valid) :
    MeasuresRest .opened c (atomicFormula ground) s := by
  refine .of_limitFree (limitFree_stepwise.atomicFormula _) fun atom s' hrun => ?_
  obtain ⟨args, closing, hc, hname, hargs, hclose, -⟩ := atomicFormula_consumes hv hrun
  refine ⟨_, hc, .atom hname (fun t ht => ?_) hclose⟩
  rcases kind_of_isArgument (hargs t ht) with h | h <;> simp [h]

/-- A level that is entered with an opening parenthesis. -/
lemma MeasuresPart.nested {m : ReadM Token} {f : Token → ReadM β}
    (hm : Measures c m s.deeper fun t _ p ts => t.kind = .openParen ∧ p = 0 ∧ ts = [t])
    (hf : ∀ t s₁, s₁.cursor.Valid → MeasuresRest .opened c (f t) s₁) :
    MeasuresPart c (nested (m >>= f)) s := by
  refine Measures.nested (hm.bind fun t s₁ p ts _ hc hts => ?_)
  obtain ⟨hopen, rfl, rfl⟩ := hts
  refine (hf t s₁ hc.valid).mono fun _ _ q us hus => ?_
  rw [Nat.zero_max]
  exact ⟨.group hopen hus, List.cons_ne_nil _ _⟩

/-- A group that is read one level deeper. -/
lemma MeasuresPart.group {body : ReadM β} {expected : String} (hv : s.cursor.Valid)
    (hbody : ∀ s₁, s₁.cursor.Valid → MeasuresRest .opened c body s₁) :
    MeasuresPart c (Reader.nested (do let _ ← expect .openParen expected; body)) s :=
  .nested (measures_expect (State.deeper_valid hv) (by decide)) fun _ => hbody

/-- An atom with its parentheses. -/
lemma measures_parenthesizedAtom {ground : Bool} (hv : s.cursor.Valid) :
    MeasuresPart c (Reader.nested (parenthesizedAtom ground)) s :=
  .group hv fun _ hv₁ => measures_atomicFormula hv₁

/-- Returning what a part is. -/
lemma MeasuresPart.map {g : α → β} (h : MeasuresPart c m s) :
    MeasuresPart c (do return g (← m)) s := by
  refine Measures.bind h fun a s₁ p ts _ hc hts => .pure hc.valid ?_
  rw [List.append_nil, Nat.max_zero]
  exact hts

/-- A single token that is no parenthesis. -/
lemma MeasuresPart.word (hv : s.cursor.Valid) (hend : s.cursor.current.kind ≠ .endOfInput)
    (hopen : s.cursor.current.kind ≠ .openParen) (hclose : s.cursor.current.kind ≠ .closeParen) :
    MeasuresPart c advance s := by
  refine (measures_advance hv hend).mono ?_
  rintro _ _ _ _ ⟨-, rfl, rfl⟩
  exact ⟨.of_plain (by simp [hopen, hclose]), List.cons_ne_nil _ _⟩

/-- Parts that are read one after the other, up to a token that fails the test. -/
lemma measures_whileFuel {test : Token → Bool} {item : ReadM α}
    (hitem : ∀ s, s.cursor.Valid → MeasuresPart c item s) (fuel : Nat) :
    ∀ s, s.cursor.Valid → s.cursor.unread < fuel →
      Measures c (whileFuel test item fuel) s fun _ s' p ts =>
        Raises ts p ∧ test s'.cursor.current = false := by
  induction fuel with
  | zero => exact fun s _ h => absurd h (Nat.not_lt_zero _)
  | succ fuel ih =>
    intro s hv hfuel
    change Measures c (if test s.cursor.current then _ else _) s _
    by_cases htest : test s.cursor.current = true
    · rw [if_pos htest]
      refine Measures.bind (hitem s hv) fun a s₁ p ts _ hc hts => ?_
      have hlength : 0 < ts.length := List.length_pos_iff.mpr hts.2
      have hunread := hc.unread
      refine (ih s₁ hc.valid (by omega)).bind fun as s₂ q us _ hc' hus => .pure hc'.valid ?_
      rw [List.append_nil, Nat.max_zero]
      exact ⟨hts.1.append hus.1, hus.2⟩
    · rw [if_neg htest]
      exact .pure hv ⟨.nil, Bool.eq_false_iff.mpr htest⟩

/-- As many parts as there are. -/
lemma measures_readWhile {test : Token → Bool} {item : ReadM α}
    (hitem : ∀ s, s.cursor.Valid → MeasuresPart c item s) (hv : s.cursor.Valid) :
    Measures c (readWhile test item) s fun _ s' p ts =>
      Raises ts p ∧ test s'.cursor.current = false :=
  measures_whileFuel hitem _ s hv (Nat.lt_succ_self _)

/-! ### Numeric terms -/

/-- Reading a fluent. -/
lemma measures_fluent (hv : s.cursor.Valid) : MeasuresPart c fluent s := by
  refine .currentKind ?_
  by_cases hname : s.cursor.current.kind = .name
  · rw [if_pos hname]
    exact .map (.word hv (by simp [hname]) (by simp [hname]) (by simp [hname]))
  · rw [if_neg hname]
    exact .group hv fun s₁ hv₁ => measures_atomicFormula hv₁

/-- Reading arithmetic from its operator on. -/
lemma measures_arithmetic {term : ReadM Expr}
    (hterm : ∀ s, s.cursor.Valid → MeasuresPart c term s) (hv : s.cursor.Valid)
    (hkind : s.cursor.current.kind = .minus ∨ s.cursor.current.kind = .operator) :
    MeasuresRest .opened c (arithmetic term) s := by
  refine .current ?_
  cases ArithOp.ofText? s.cursor.current.text with
  | none => exact .failHere
  | some op =>
    refine .skip limitFree_stepwise.arithmeticAllowed fun allowed s₁ hrun => ?_
    simp only [arithmeticAllowed, bind_eq_ok, get_eq_ok, read_eq_ok, pure_eq_ok] at hrun
    obtain ⟨d, s₂, ⟨rfl, rfl⟩, d', s₃, ⟨rfl, rfl⟩, rfl, rfl⟩ := hrun
    refine ⟨.refl hv, ?_⟩
    split
    · refine .word hv ?_ ?_ ?_ (Token.isQuantifier_of_kind_ne ?_) fun s₁ hc₁ => ?_
      · rcases hkind with h | h <;> rw [h] <;> decide
      · rcases hkind with h | h <;> rw [h] <;> decide
      · rcases hkind with h | h <;> rw [h] <;> decide
      · rcases hkind with h | h <;> rw [h] <;> decide
      · refine (measures_readWhile hterm hc₁.valid).bind fun es s₂ p ts _ hc₂ hts => ?_
        have hclose : s₂.cursor.current.kind = .closeParen := by simpa using hts.2
        have hrest : MeasuresRest .elsewhere c (if op.accepts es.length then do
            let _ ← advance
            return Expr.arith op es
          else
            failAt s.cursor.current op.arityText (.operandCount op es.length)) s₂ := by
          split
          · exact .close hc₂.valid hclose rfl (by simp)
          · exact .failAt
        exact hrest.mono fun _ _ q us hus => .prepend hts.1 hus
    · exact .failHere

/-- Reading numeric terms. -/
lemma measures_numericTerm (budget : Nat) :
    ∀ s, s.cursor.Valid → MeasuresPart c (numericTerm budget) s := by
  induction budget with
  | zero => exact fun _ _ => .failHere
  | succ budget ih =>
    intro s hv
    refine .currentKind ?_
    cases hkind : s.cursor.current.kind with
    | number =>
      have hnumber : MeasuresPart c number s := by
        refine .of_limitFree limitFree_stepwise.number fun value s' hrun => ?_
        obtain ⟨t, htkind, -, hc⟩ := number_consumes hv hrun
        exact ⟨[t], hc, .of_plain (by simp [htkind]), List.cons_ne_nil _ _⟩
      exact hnumber.map
    | var | name => exact .map (.word hv (by simp [hkind]) (by simp [hkind]) (by simp [hkind]))
    | openParen =>
      have hadvance : Measures c advance s.deeper fun t _ p ts =>
          t.kind = .openParen ∧ p = 0 ∧ ts = [t] := by
        refine (measures_advance (State.deeper_valid hv) ?_).mono ?_
        · change s.cursor.current.kind ≠ _
          simp [hkind]
        · rintro _ _ _ _ ⟨rfl, rfl, rfl⟩
          exact ⟨hkind, rfl, rfl⟩
      refine .nested hadvance fun _ s₁ hv₁ => .currentKind ?_
      cases hinner : s₁.cursor.current.kind with
      | minus | operator => exact measures_arithmetic ih hv₁ (by simp [hinner])
      | name => exact .map (measures_atomicFormula hv₁)
      | _ => exact .failHere
    | _ => exact .failHere

/-- Reading a comparison from its operator on. -/
lemma measures_comparison {term : ReadM Expr}
    (hterm : ∀ s, s.cursor.Valid → MeasuresPart c term s) {governed : Bool} (hv : s.cursor.Valid)
    (hkind : s.cursor.current.kind = .operator) :
    MeasuresRest .opened c (comparison term governed) s := by
  refine .current ?_
  cases CompareOp.ofText? s.cursor.current.text with
  | none => exact .failHere
  | some op =>
    refine .word hv (by simp [hkind]) (by simp [hkind]) (by simp [hkind])
      (Token.isQuantifier_of_kind_ne (by simp [hkind])) fun s₁ hc₁ => ?_
    refine (hterm s₁ hc₁.valid).bind_rest fun left s₂ hv₂ => ?_
    refine (hterm s₂ hv₂).bind_rest fun right s₃ hv₃ => ?_
    split
    · exact .require hv₃ fun s₄ hv₄ => .closeForm hv₄
    · exact .closeForm hv₃

/-! ### Shared forms -/

/-- A look for a time specifier before the rest of an expression.  If it finds one, the current
token and the one after it are its words. -/
lemma MeasuresRest.timeAhead? {f : Option TimeSpec → ReadM β} (hv : s.cursor.Valid)
    (hkind : s.cursor.current.kind = .name)
    (hf : ∀ found s₁, s₁.cursor.Valid → s₁.cursor.current = s.cursor.current →
      (found ≠ none → s.cursor.current.isQuantifier = false ∧
        ∃ t rest, s₁.cursor.upcoming = s.cursor.current :: t :: rest ∧ t.kind = .name) →
      MeasuresRest stretch c (f found) s₁) :
    MeasuresRest stretch c (Reader.timeAhead? >>= f) s := by
  refine .skip limitFree_stepwise.timeAhead? fun found s₁ hrun => ?_
  obtain ⟨hc, hcurrent, hsome, -⟩ := timeAhead?_sound hv hkind hrun
  refine ⟨hc, hf found s₁ hc.valid hcurrent fun hfound => ?_⟩
  obtain ⟨time, rfl⟩ := Option.ne_none_iff_exists'.mp hfound
  obtain ⟨t, rest, hrest, htkind, hwords⟩ := hsome time rfl
  exact ⟨Token.isQuantifier_of_ofWords? hwords, t, rest, hc.upcoming.symm.trans hrest, htkind⟩

/-- Reading a timed expression from its time specifier on. -/
lemma measures_timed {operand : ReadM Expr}
    (hoperand : ∀ s, s.cursor.Valid → MeasuresPart c operand s) {time : TimeSpec}
    {allowed inEffect : Bool} (hv : s.cursor.Valid) (hkind : s.cursor.current.kind = .name)
    (hname : s.cursor.current.isQuantifier = false)
    (hnext : ∃ t rest, s.cursor.upcoming = s.cursor.current :: t :: rest ∧ t.kind = .name) :
    MeasuresRest .opened c (timed time allowed inEffect operand) s := by
  obtain ⟨t, rest, hrest, htkind⟩ := hnext
  unfold timed
  split
  · refine .word hv (by simp [hkind]) (by simp [hkind]) (by simp [hkind]) hname fun s₁ hc₁ => ?_
    have hupcoming : s₁.cursor.upcoming = t :: rest := by
      have happend := hc₁.upcoming
      rw [hrest] at happend
      exact ((List.cons.inj happend).2).symm
    have hcurrent := hc₁.valid.current_of_upcoming hupcoming
    have hsecond : MeasuresPart c advance s₁ := by
      refine .word hc₁.valid ?_ ?_ ?_ <;> rw [hcurrent, htkind] <;> decide
    refine hsecond.bind_rest fun _ s₂ hv₂ => ?_
    split
    · exact .failAt
    · refine .require hv₂ fun s₃ hv₃ => (hoperand s₃ hv₃).bind_rest fun inner s₄ hv₄ => ?_
      exact .closeForm hv₄
  · exact .failHere

/-- Reading operands up to the end of their group. -/
lemma measures_operands {operand : ReadM Expr}
    (hoperand : ∀ s, s.cursor.Valid → MeasuresPart c operand s) (hv : s.cursor.Valid) :
    MeasuresRest .elsewhere c (operands operand) s := by
  refine (measures_readWhile hoperand hv).bind fun es s₁ p ts _ hc hts => ?_
  refine (measures_expect hc.valid (by decide)).bind fun t s₂ q us _ hc₂ hus => ?_
  obtain ⟨hclose, rfl, rfl⟩ := hus
  exact .pure hc₂.valid (.prepend hts.1 (.close hclose (by simp)))

/-- A quantified expression from its word on. -/
lemma MeasuresRest.quantified {feature : Feature} {f : List TypedName → ReadM β}
    (hv : s.cursor.Valid) (hname : s.cursor.current.isQuantifier = true)
    (hf : ∀ vars s₁, s₁.cursor.Valid → MeasuresRest .elsewhere c (f vars) s₁) :
    MeasuresRest .opened c (do
      let _ ← advance
      Reader.require opener feature
      f (← quantifiedVariables)) s := by
  have hkind : s.cursor.current.kind = .name := by
    simp only [Token.isQuantifier, Bool.and_eq_true, decide_eq_true_eq] at hname
    exact hname.1
  refine (measures_advance hv (by simp [hkind])).bind fun t s₁ p ts _ hc₁ hts => ?_
  obtain ⟨rfl, rfl, rfl⟩ := hts
  have hrequire : Measures c (Reader.require opener feature) s₁
      fun _ _ p ts => p = 0 ∧ ts = [] := by
    refine .of_limitFree (limitFree_stepwise.require _ _) fun _ s₂ hrun => ?_
    exact ⟨[], (require_consumes hc₁.valid hrun).2, rfl, rfl⟩
  refine hrequire.bind fun _ s₂ p ts _ hc₂ hts => ?_
  obtain ⟨rfl, rfl⟩ := hts
  have hvars : Measures c quantifiedVariables s₂ fun _ _ p ts => p = 0 ∧ IsGroup ts := by
    refine .of_limitFree limitFree_stepwise.quantifiedVariables fun vars s₃ hrun => ?_
    obtain ⟨ts, hc, hgroup⟩ := quantifiedVariables_consumes hc₂.valid hrun
    exact ⟨ts, hc, rfl, hgroup⟩
  refine hvars.bind fun vars s₃ p ts _ hc₃ hts => (hf vars s₃ hc₃.valid).mono ?_
  obtain ⟨rfl, opening, inner, closing, rfl, hopen, hclose, hinner⟩ := hts
  intro _ _ q us hus
  simpa using Closes.quantified hname hopen hinner hclose hus

/-- A name that announces something else than a quantifier, before the rest of an expression. -/
lemma MeasuresRest.head {f : Token → ReadM β} (hv : s.cursor.Valid)
    (hkind : s.cursor.current.kind = .name)
    (hhead : ∀ quantifier, Head.ofKey s.cursor.current.key ≠ .quantifier quantifier)
    (h : ∀ s₁, s₁.cursor.Valid → MeasuresRest .elsewhere c (f s.cursor.current) s₁) :
    MeasuresRest .opened c (advance >>= f) s := by
  have hname : s.cursor.current.isQuantifier = false := by
    rw [Bool.eq_false_iff, Ne, Token.isQuantifier_iff hkind, not_exists]
    exact hhead
  exact .word hv (by simp [hkind]) (by simp [hkind]) (by simp [hkind]) hname
    fun s₁ hc => h s₁ hc.valid

/-- A timed expression, or an atom where no time is announced, from its name on. -/
lemma measures_timedOr {operand otherwise : ReadM Expr}
    (hoperand : ∀ s, s.cursor.Valid → MeasuresPart c operand s)
    (hotherwise : ∀ s, s.cursor.Valid → MeasuresRest .opened c otherwise s)
    {allowed inEffect : Bool} (hv : s.cursor.Valid) (hkind : s.cursor.current.kind = .name) :
    MeasuresRest .opened c (timeAhead? >>= fun found => match found with
      | some time => timed time allowed inEffect operand
      | none => otherwise) s := by
  refine .timeAhead? hv hkind fun found s₁ hv₁ hcurrent hfound => ?_
  cases found with
  | none => exact hotherwise s₁ hv₁
  | some time =>
    obtain ⟨hname, hnext⟩ := hfound (by simp)
    rw [← hcurrent] at hname hnext
    exact measures_timed hoperand hv₁ (by rw [hcurrent, hkind]) hname hnext

/-! ### Conditions, effects and duration constraints -/

/-- Reading conditions. -/
lemma measures_condition (budget : Nat) :
    ∀ temporal s, s.cursor.Valid → MeasuresPart c (condition budget temporal) s := by
  induction budget with
  | zero => exact fun _ _ _ => .failHere
  | succ budget ih =>
    intro temporal s hv
    refine .group hv fun s hv => .current ?_
    cases hkind : s.cursor.current.kind with
    | closeParen => exact .close hv hkind rfl (by simp)
    | operator => exact measures_comparison (measures_numericTerm budget) hv hkind
    | name =>
      cases hhead : Head.ofKey s.cursor.current.key with
      | conjunction =>
        refine .head hv hkind (by simp [hhead]) fun s₁ hv₁ => ?_
        exact .map (measures_operands (ih _) hv₁)
      | disjunction =>
        refine .head hv hkind (by simp [hhead]) fun s₁ hv₁ => .require hv₁ fun s₂ hv₂ => ?_
        exact .map (measures_operands (ih _) hv₂)
      | negation =>
        refine .head hv hkind (by simp [hhead]) fun s₁ hv₁ => ?_
        exact (ih _ s₁ hv₁).bind_rest fun operand s₂ hv₂ => .closeForm hv₂
      | quantifier quantifier =>
        have hname := (Token.isQuantifier_iff hkind).mpr ⟨_, hhead⟩
        refine .quantified hv hname fun vars s₁ hv₁ => ?_
        exact (ih _ s₁ hv₁).bind_rest fun operand s₂ hv₂ => .closeForm hv₂
      | time =>
        exact measures_timedOr (ih _) (fun _ hv₁ => .map (measures_atomicFormula hv₁)) hv hkind
      | conditional | update op => exact .failHere
      | symbol => exact .map (measures_atomicFormula hv)
    | _ => exact .failHere

/-- Reading an update from its operator on. -/
lemma measures_numericUpdate {term : ReadM Expr}
    (hterm : ∀ s, s.cursor.Valid → MeasuresPart c term s) {op : UpdateOp} (hv : s.cursor.Valid)
    (hkind : s.cursor.current.kind = .name)
    (hhead : ∀ quantifier, Head.ofKey s.cursor.current.key ≠ .quantifier quantifier) :
    MeasuresRest .opened c (numericUpdate op term) s := by
  refine .head hv hkind hhead fun s₁ hv₁ => .require hv₁ fun s₂ hv₂ => ?_
  refine (measures_fluent hv₂).bind_rest fun target s₃ hv₃ => ?_
  exact (hterm s₃ hv₃).bind_rest fun value s₄ hv₄ => .closeForm hv₄

/-- Reading effects. -/
lemma measures_effect (budget : Nat) :
    ∀ temporal s, s.cursor.Valid → MeasuresPart c (effect budget temporal) s := by
  induction budget with
  | zero => exact fun _ _ _ => .failHere
  | succ budget ih =>
    intro temporal s hv
    refine .group hv fun s hv => .current ?_
    cases hkind : s.cursor.current.kind with
    | closeParen => exact .close hv hkind rfl (by simp)
    | name =>
      cases hhead : Head.ofKey s.cursor.current.key with
      | conjunction =>
        refine .head hv hkind (by simp [hhead]) fun s₁ hv₁ => ?_
        exact .map (measures_operands (ih _) hv₁)
      | negation =>
        refine .head hv hkind (by simp [hhead]) fun s₁ hv₁ => ?_
        exact (measures_parenthesizedAtom hv₁).bind_rest fun deleted s₂ hv₂ => .closeForm hv₂
      | quantifier quantifier =>
        cases quantifier with
        | universal =>
          have hname := (Token.isQuantifier_iff hkind).mpr ⟨_, hhead⟩
          refine .quantified hv hname fun vars s₁ hv₁ => ?_
          exact (ih _ s₁ hv₁).bind_rest fun operand s₂ hv₂ => .closeForm hv₂
        | existential => exact .failHere
      | conditional =>
        refine .head hv hkind (by simp [hhead]) fun s₁ hv₁ => .require hv₁ fun s₂ hv₂ => ?_
        refine (measures_condition budget _ s₂ hv₂).bind_rest fun premise s₃ hv₃ => ?_
        exact (ih _ s₃ hv₃).bind_rest fun outcome s₄ hv₄ => .closeForm hv₄
      | time =>
        exact measures_timedOr (ih _) (fun _ hv₁ => .map (measures_atomicFormula hv₁)) hv hkind
      | update op =>
        exact measures_numericUpdate (measures_numericTerm budget) hv hkind (by simp [hhead])
      | disjunction => exact .failHere
      | symbol => exact .map (measures_atomicFormula hv)
    | _ => exact .failHere

/-- Reading duration constraints. -/
lemma measures_durationConstraint (budget : Nat) :
    ∀ s, s.cursor.Valid → MeasuresPart c (durationConstraint budget) s := by
  induction budget with
  | zero => exact fun _ _ => .failHere
  | succ budget ih =>
    intro s hv
    refine .group hv fun s hv => .current ?_
    cases hkind : s.cursor.current.kind with
    | closeParen => exact .close hv hkind rfl (by simp)
    | operator => exact measures_comparison (measures_numericTerm budget) hv hkind
    | name =>
      dsimp only
      split
      · rename_i hand
        refine .head hv hkind (by simp [hand, Head.ofKey]) fun s₁ hv₁ => ?_
        exact .require hv₁ fun s₂ hv₂ => .map (measures_operands ih hv₂)
      · exact measures_timedOr ih (fun _ _ => .failHere) hv hkind
    | _ => exact .failHere

/-- Reading the expression of a place. -/
lemma measures_position (position : Position) (hv : s.cursor.Valid) :
    MeasuresPart c position.reader s := by
  have hbudget : Measures c budget s fun _ s' p ts => s' = s ∧ p = 0 ∧ ts = [] := by
    refine .of_limitFree limitFree_budget fun n s' hrun => ?_
    obtain ⟨m, hm⟩ := budget_run (c := c.withLimit none) (s := s)
    rw [hm, EStateM.Result.ok.injEq] at hrun
    obtain ⟨rfl, rfl⟩ := hrun
    exact ⟨[], .refl hv, rfl, rfl, rfl⟩
  rw [position.reader_eq]
  refine hbudget.bind fun n s₁ p ts _ _ hts => ?_
  obtain ⟨rfl, rfl, rfl⟩ := hts
  have hread : MeasuresPart c (position.readWithin n) s₁ := by
    cases position with
    | numeric => exact measures_numericTerm n s₁ hv
    | condition temporal => exact measures_condition n temporal s₁ hv
    | effect temporal => exact measures_effect n temporal s₁ hv
    | duration => exact measures_durationConstraint n s₁ hv
  refine hread.mono fun _ _ q us hus => ?_
  rw [Nat.zero_max]
  exact hus

/-- Reading an element of an initial state. -/
lemma measures_initElement (hv : s.cursor.Valid) : MeasuresPart c initElement s := by
  refine .group hv fun s hv => .current ?_
  split
  · rename_i hequal
    simp only [Bool.and_eq_true, decide_eq_true_eq] at hequal
    refine .word hv (by simp [hequal.1]) (by simp [hequal.1]) (by simp [hequal.1])
      (Token.isQuantifier_of_kind_ne (by simp [hequal.1])) fun s₁ hc₁ => ?_
    refine (measures_fluent hc₁.valid).bind_rest fun target s₂ hv₂ => ?_
    exact (measures_position .numeric hv₂).bind_rest fun value s₃ hv₃ => .closeForm hv₃
  split
  · rename_i hnot
    simp only [Bool.and_eq_true, decide_eq_true_eq] at hnot
    refine .head hv hnot.1 (by simp [hnot.2, Head.ofKey]) fun s₁ hv₁ => ?_
    exact (measures_parenthesizedAtom hv₁).bind_rest fun deleted s₂ hv₂ => .closeForm hv₂
  · exact .map (measures_atomicFormula hv)

/-! ### The limit -/

/-- What is read as one expression: the expression of a place, or an element of an initial state. -/
inductive Form
  | expression (position : Position)
  | fact
deriving DecidableEq, Repr

/-- The reader of a form. -/
def Form.reader : Form → ReadM Expr
  | .expression position => position.reader
  | .fact => initElement

/-- What is read within a limit is read without one. -/
lemma Form.loosens (form : Form) : Loosens form.reader := by
  cases form with
  | expression position =>
    cases position with
    | numeric => exact loosens_compositional.anyNumericTerm
    | condition temporal => exact loosens_compositional.anyCondition temporal
    | effect temporal => exact loosens_compositional.anyEffect temporal
    | duration => exact loosens_compositional.anyDurationConstraint
  | fact => exact loosens_compositional.initElement

/-- Reading a form. -/
lemma Form.measures (form : Form) (hv : s.cursor.Valid) : MeasuresPart c form.reader s := by
  cases form with
  | expression position => exact measures_position position hv
  | fact => exact measures_initElement hv

/-- Anywhere in any text, outside of other expressions: an expression is read within a limit exactly
if it is read without one and at most as many parentheses of expressions as the limit allows are
open at once in the tokens that are consumed.  What is read and where the reader stops are then
the same. -/
theorem read_withLimit_eq_ok (form : Form) (c : Context) (limit : Nat) (text : String)
    (s s' : State) (e : Expr) (hs : s.cursor.Reached text) (hdepth : s.depth = 0) :
    form.reader (c.withLimit (some limit)) s = .ok e s' ↔
      form.reader (c.withLimit none) s = .ok e s' ∧
        ∃ tokens, s.cursor.upcoming = tokens ++ s'.cursor.upcoming ∧
          mostOpen .elsewhere 0 tokens ≤ limit := by
  have hstart : WithinLimit (some limit) s.depth := by simp [WithinLimit, hdepth]
  have hroom (p : Nat) : WithinLimit (some limit) (s.depth + p) ↔ p ≤ limit := by
    simp [WithinLimit, hdepth]
  constructor
  · intro hrun
    have hfree := form.loosens c (some limit) s e s' hrun
    obtain ⟨p, ts, ⟨hts, -⟩, hc, hwithin⟩ := form.measures hs.valid e s' hfree
    have hp := ((hwithin (some limit) hstart e s').mp hrun).2
    refine ⟨hfree, ts, hc.upcoming, ?_⟩
    rw [hts.mostOpen_eq]
    exact (hroom p).mp hp
  · rintro ⟨hfree, tokens, htokens, hmost⟩
    obtain ⟨p, ts, ⟨hts, -⟩, hc, hwithin⟩ := form.measures hs.valid e s' hfree
    have hsame : tokens = ts := List.append_cancel_right (htokens.symm.trans hc.upcoming)
    rw [hsame, hts.mostOpen_eq] at hmost
    exact (hwithin (some limit) hstart e s').mpr ⟨⟨rfl, rfl⟩, (hroom p).mpr hmost⟩

/-- A condition with four parentheses open at once, besides those of its variables. -/
theorem read_withLimit_eq_ok_quantified :
    ∃ s s' e, s.cursor.Reached "(forall (?x - (either a b)) (or (p ?x) (not (q ?x)))) )" ∧
      s.depth = 0 ∧
      (Form.expression (.condition false)).reader
        ((Context.unlimited .lenient true).withLimit none) s = .ok e s' ∧
      ∃ tokens, s.cursor.upcoming = tokens ++ s'.cursor.upcoming ∧
        mostOpen .elsewhere 0 tokens ≤ 4 := by
  have hok : (run (Form.expression (.condition false)).reader
      ((Context.unlimited .lenient true).withLimit (some 4))
      "(forall (?x - (either a b)) (or (p ?x) (not (q ?x)))) )").result.isOk = true := by
    decide +kernel
  cases hrun : (run (Form.expression (.condition false)).reader
      ((Context.unlimited .lenient true).withLimit (some 4))
      "(forall (?x - (either a b)) (or (p ?x) (not (q ?x)))) )").result with
  | error failure =>
    rw [hrun] at hok
    cases hok
  | ok e =>
    obtain ⟨cursor, s', hcursor, hread⟩ := run_eq_ok.mp hrun
    have hreached : (State.ofCursor cursor []).cursor.Reached
        "(forall (?x - (either a b)) (or (p ?x) (not (q ?x)))) )" := .start hcursor
    exact ⟨_, s', e, hreached, rfl, (read_withLimit_eq_ok _ _ 4 _ _ s' e hreached rfl).mp hread⟩

/-- One level less is not enough for it. -/
example :
    (run (Form.expression (.condition false)).reader
      ((Context.unlimited .lenient true).withLimit (some 3))
      "(forall (?x - (either a b)) (or (p ?x) (not (q ?x)))) )").result.isOk = false := by
  decide +kernel

end Pddl.Reader
