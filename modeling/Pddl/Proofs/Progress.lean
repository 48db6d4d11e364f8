import Pddl.Proofs.Enclosure

/-!
# Loops make progress

No reader puts tokens back (`Shrinks`), readers of parts that are not empty read a token (`Lowers`),
and each round of a loop but the last one consumes a token (`Progresses`).  So a loop that has more
rounds than there are unread tokens ends before it runs out of them, and further rounds make no
difference (`Sufficient`).
-/

namespace Pddl

namespace Cursor

variable {cursor after : Cursor} {token : Token}

/-- How many unread tokens a token that has been met is: the end of the input is none. -/
def weight (token : Token) : Nat :=
  if token.kind = .endOfInput then 0 else 1

/-- The unread tokens are the current one, the one in reserve, and the rest. -/
lemma unread_eq (cursor : Cursor) :
    cursor.unread =
      weight cursor.current + (cursor.reserve.map weight).getD 0 + cursor.rest.length := by
  obtain ⟨current, reserve, rest, failure, endOffset⟩ := cursor
  cases reserve with
  | none => by_cases hend : current.kind = .endOfInput <;> simp [unread, met, weight, hend]
  | some next =>
    by_cases hend : current.kind = .endOfInput <;>
      by_cases hlast : next.kind = .endOfInput <;> simp [unread, met, weight, hend, hlast]

/-- A token that is pulled is no longer among the rest. -/
lemma length_of_pull (h : pull cursor = .ok token after) :
    after.current = cursor.current ∧ after.reserve = cursor.reserve ∧
      weight token + after.rest.length ≤ cursor.rest.length := by
  rcases pull_eq_ok.mp h with ⟨hrest, hafter⟩ | ⟨-, -, rfl, rfl⟩
  · have hweight : weight token ≤ 1 := by unfold weight; split_ifs <;> omega
    rw [hafter, hrest, List.length_cons]
    exact ⟨rfl, rfl, by dsimp only; omega⟩
  · exact ⟨rfl, rfl, by simp [weight, Token.atEnd]⟩

/-- Looking ahead does not put tokens back. -/
lemma unread_of_peek (h : peek cursor = .ok token after) : after.unread ≤ cursor.unread := by
  rcases peek_cases.mp h with ⟨-, rfl⟩ | ⟨hreserve, pulled, hpull, rfl⟩
  · exact Nat.le_refl _
  · obtain ⟨hcurrent, -, hlength⟩ := length_of_pull hpull
    simp only [unread_eq, hcurrent, hreserve, Option.map_some, Option.map_none,
      Option.getD_some, Option.getD_none]
    omega

/-- Moving on does not put tokens back. -/
lemma unread_of_advance (h : advance cursor = .ok token after) : after.unread ≤ cursor.unread := by
  obtain ⟨-, ⟨next, hreserve, rfl⟩ | ⟨-, -, rfl⟩ | ⟨hreserve, hne, next, pulled, hpull, rfl⟩⟩ :=
    advance_cases.mp h
  · simp only [unread_eq, hreserve, Option.map_some, Option.map_none, Option.getD_some,
      Option.getD_none]
    omega
  · exact Nat.le_refl _
  · obtain ⟨-, hnone, hlength⟩ := length_of_pull hpull
    simp only [unread_eq, hreserve, hnone, Option.map_none, Option.getD_none]
    omega

/-- After moving on, no token is in reserve. -/
lemma reserve_of_advance (h : advance cursor = .ok token after) : after.reserve = none := by
  obtain ⟨-, ⟨next, -, rfl⟩ | ⟨hreserve, -, rfl⟩ | ⟨hreserve, -, next, pulled, hpull, rfl⟩⟩ :=
    advance_cases.mp h
  · rfl
  · exact hreserve
  · exact (length_of_pull hpull).2.1.trans hreserve

end Cursor

/-- The cursor at which the reader of a domain stands. -/
def Assembly.standpoint (assembly : Assembly) : Cursor :=
  assembly.cursor

namespace Reader

/-! ### Readers that put nothing back -/

section Runs

variable {σ α β : Type}

/-- Whenever the reader succeeds on a valid cursor, it leaves a valid one with no more unread
tokens. -/
def Shrinks (cursor : σ → Cursor) (m : ReaderT Context (EStateM Failure σ) α) : Prop :=
  ∀ c s a s', (cursor s).Valid → m c s = .ok a s' →
    (cursor s').Valid ∧ (cursor s').unread ≤ (cursor s).unread

/-- Whenever the reader succeeds on a valid cursor, it leaves a valid one with fewer unread
tokens. -/
def Lowers (cursor : σ → Cursor) (m : ReaderT Context (EStateM Failure σ) α) : Prop :=
  ∀ c s a s', (cursor s).Valid → m c s = .ok a s' →
    (cursor s').Valid ∧ (cursor s').unread < (cursor s).unread

variable {cursor : σ → Cursor} {m : ReaderT Context (EStateM Failure σ) α}
  {f : α → ReaderT Context (EStateM Failure σ) β}

/-- Returning a value. -/
lemma Shrinks.pure (a : α) :
    Shrinks cursor (Pure.pure a : ReaderT Context (EStateM Failure σ) α) := by
  intro c s b s' hv h
  obtain ⟨-, rfl⟩ := pure_eq_ok.mp h
  exact ⟨hv, Nat.le_refl _⟩

/-- Failing. -/
lemma Shrinks.throw (failure : Failure) :
    Shrinks cursor (MonadExcept.throw failure : ReaderT Context (EStateM Failure σ) α) :=
  fun _ _ _ _ _ h => absurd h (by simp)

/-- One reader after another. -/
lemma Shrinks.bind (hm : Shrinks cursor m) (hf : ∀ a, Shrinks cursor (f a)) :
    Shrinks cursor (m >>= f) := by
  intro c s b s' hv h
  obtain ⟨a, s₁, hrun, hrest⟩ := bind_eq_ok.mp h
  obtain ⟨hv₁, hle⟩ := hm c s a s₁ hv hrun
  obtain ⟨hv', hle'⟩ := hf a c s₁ b s' hv₁ hrest
  exact ⟨hv', Nat.le_trans hle' hle⟩

/-- Other readers after one that reads a token. -/
lemma Lowers.bind (hm : Lowers cursor m) (hf : ∀ a, Shrinks cursor (f a)) :
    Lowers cursor (m >>= f) := by
  intro c s b s' hv h
  obtain ⟨a, s₁, hrun, hrest⟩ := bind_eq_ok.mp h
  obtain ⟨hv₁, hlt⟩ := hm c s a s₁ hv hrun
  obtain ⟨hv', hle⟩ := hf a c s₁ b s' hv₁ hrest
  exact ⟨hv', Nat.lt_of_le_of_lt hle hlt⟩

/-- A reader that reads a token after another one. -/
lemma Shrinks.bind_lowers (hm : Shrinks cursor m) (hf : ∀ a, Lowers cursor (f a)) :
    Lowers cursor (m >>= f) := by
  intro c s b s' hv h
  obtain ⟨a, s₁, hrun, hrest⟩ := bind_eq_ok.mp h
  obtain ⟨hv₁, hle⟩ := hm c s a s₁ hv hrun
  obtain ⟨hv', hlt⟩ := hf a c s₁ b s' hv₁ hrest
  exact ⟨hv', Nat.lt_of_lt_of_le hlt hle⟩

end Runs

/-- A reader that leaves the cursor where it is. -/
lemma Shrinks.of_cursor_eq {α : Type} {m : ReadM α}
    (h : ∀ c s a s', m c s = .ok a s' → s'.cursor = s.cursor) : Shrinks State.cursor m := by
  intro c s a s' hv hrun
  rw [h c s a s' hrun]
  exact ⟨hv, Nat.le_refl _⟩

/-- No reader puts tokens back. -/
lemma shrinks_compositional : Compositional (Shrinks State.cursor) where
  pure := .pure
  bind := .bind
  get := fun _ hf c s a s' hv h => hf s c s a s' hv h
  read := fun _ _ _ hf c s a s' hv h => hf c c s a s' hv h
  rounds := fun _ hloop c s a s' hv h => hloop _ c s a s' hv h
  budget := .of_cursor_eq fun c s a s' h => by
    obtain ⟨n, hn⟩ := budget_run (c := c) (s := s)
    rw [hn] at h
    cases h
    rfl
  raise := .throw
  peek := by
    intro c s t s' hv h
    refine ⟨keepsValid_compositional.peek c s t s' hv h, ?_⟩
    obtain ⟨cursor, hstep, rfl⟩ := onCursor_eq_ok.mp h
    exact Cursor.unread_of_peek hstep
  advance := by
    intro c s t s' hv h
    refine ⟨keepsValid_compositional.advance c s t s' hv h, ?_⟩
    obtain ⟨cursor, hstep, rfl⟩ := onCursor_eq_ok.mp h
    exact Cursor.unread_of_advance hstep
  report := fun token breach => .of_cursor_eq fun c s u s' h => by rw [(report_eq_ok.mp h).2]
  note := fun notice _ => .of_cursor_eq fun c s u s' h => by cases h; rfl
  declare := fun flags => .of_cursor_eq fun c s u s' h => by cases h; rfl
  nested := by
    intro α body hbody c s a s' hv h
    obtain ⟨-, s₁, hrun, rfl⟩ := nested_eq_ok.mp h
    exact hbody c s.deeper a s₁ hv hrun

end Reader

/-- A reader that leaves the declarations alone. -/
lemma Assembly.shrinks_ofReader {α : Type} {m : ReadM α}
    (hm : Reader.Shrinks Reader.State.cursor m) :
    Reader.Shrinks Assembly.standpoint (Assembly.ofReader m) := by
  intro c a x a' hv h
  obtain ⟨s', hrun, rfl⟩ := ofReader_eq_ok.mp h
  exact hm c a.toState x s' hv hrun

/-- A reader that reads a token and leaves the declarations alone. -/
lemma Assembly.lowers_ofReader {α : Type} {m : ReadM α}
    (hm : Reader.Lowers Reader.State.cursor m) :
    Reader.Lowers Assembly.standpoint (Assembly.ofReader m) := by
  intro c a x a' hv h
  obtain ⟨s', hrun, rfl⟩ := ofReader_eq_ok.mp h
  exact hm c a.toState x s' hv hrun

/-- No reader of domains puts tokens back. -/
lemma Assembly.shrinks_compositional :
    Assembly.Compositional (Reader.Shrinks Reader.State.cursor)
      (Reader.Shrinks Assembly.standpoint) where
  pure := .pure
  bind := .bind
  throw := fun _ => .throw _
  ofReader := Assembly.shrinks_ofReader
  rounds := fun _ hloop c a x a' hv h => hloop _ c a x a' hv h
  declare := by
    intro change c a u a' hv h
    cases h
    exact ⟨hv, Nat.le_refl _⟩
  declared? := by
    intro c a x a' hv h
    cases h
    exact ⟨hv, Nat.le_refl _⟩

namespace Reader

/-! ### Items of loops -/

variable {α : Type} {c : Context} {s s' : State}

/-- The reader has left a valid cursor with fewer unread tokens. -/
def Advanced (s s' : State) : Prop :=
  s'.cursor.Valid ∧ s'.cursor.unread < s.cursor.unread

/-- What passes tokens, and not none, advances. -/
lemma Advanced.of_passes {ts : List Token} (h : s.cursor.Passes ts s'.cursor) (hne : ts ≠ []) :
    Advanced s s' := by
  refine ⟨h.valid, ?_⟩
  have hpos := List.length_pos_iff.mpr hne
  rw [← Cursor.length_upcoming, ← Cursor.length_upcoming, h.upcoming, List.length_append]
  omega

/-- What consumes a group or a single token advances. -/
lemma Advanced.of_term (h : ConsumesTerm s s') : Advanced s s' := by
  obtain ⟨ts, hc, hne, -⟩ := h.exists_tokens
  exact .of_passes hc.passes hne

/-- What spends tokens advances. -/
lemma Advanced.of_spends {item : ReadM α} {a : α} (hitem : Spends c s item)
    (h : item c s = .ok a s') : Advanced s s' := by
  obtain ⟨ts, hc, hne, -⟩ := hitem a s' h
  exact .of_passes hc.passes hne

/-- A reader that passes tokens, and not none, whenever it succeeds. -/
lemma Lowers.of_passes {m : ReadM α}
    (h : ∀ {c s a s'}, s.cursor.Valid → m c s = .ok a s' →
      ∃ t ts, s.cursor.Passes (t :: ts) s'.cursor) : Lowers State.cursor m := by
  intro c s a s' hv hrun
  obtain ⟨t, ts, hpasses⟩ := h hv hrun
  exact Advanced.of_passes hpasses (List.cons_ne_nil t ts)

/-- Expecting a token. -/
lemma expect_lowers {kind : Token.Kind} (hkind : kind ≠ .endOfInput) (expected : String) :
    Lowers State.cursor (expect kind expected) := by
  refine .of_passes fun hv h => ?_
  obtain ⟨-, -, hc⟩ := expect_consumes hv h hkind
  exact ⟨_, _, hc.passes⟩

/-- One level deeper. -/
lemma Lowers.nested {body : ReadM α} (hbody : Lowers State.cursor body) :
    Lowers State.cursor (nested body) := by
  intro c s a s' hv h
  obtain ⟨-, s₁, hrun, rfl⟩ := nested_eq_ok.mp h
  exact hbody c s.deeper a s₁ hv hrun

/-- The name and the parameters of a predicate or function. -/
lemma skeleton_lowers : Lowers State.cursor Assembly.skeleton := by
  intro c s a s' hv h
  obtain ⟨ts, hc, hgroup, -⟩ := skeleton_consumes hv h
  exact Advanced.of_passes hc.passes hgroup.ne_nil

/-- An element of an initial state. -/
lemma initElement_lowers : Lowers State.cursor initElement :=
  fun _ s a s' hv h => Advanced.of_term (.inl (initElement_group s a s' hv h).2)

/-- A section of a problem. -/
lemma problemSection_lowers : Lowers State.cursor problemSection := by
  intro c s part s' hv h
  obtain ⟨ts, hpasses, hgroup⟩ := problemSection_passes hv h
  exact Advanced.of_passes hpasses hgroup.ne_nil

/-- Expressions. -/
lemma Budgeted.lowers {reader : Nat → ReadM Expr} (h : Budgeted reader) (n : Nat) :
    Lowers State.cursor (reader n) := by
  intro c s e s' hv hrun
  cases h with
  | term => exact Advanced.of_term (numericTerm_sound n s e s' hv hrun).2
  | condition temporal =>
    exact Advanced.of_term (.inl (condition_sound n temporal s e s' hv hrun).2)
  | effect temporal => exact Advanced.of_term (.inl (effect_sound n temporal s e s' hv hrun).2)
  | duration => exact Advanced.of_term (.inl (durationConstraint_sound n s e s' hv hrun).2)

/-- Each item of a loop advances. -/
lemma Repeated.advanced {test : Token → Bool} {item : ReadM α} {a : α}
    (hrepeated : Repeated test item) (hv : s.cursor.Valid)
    (htest : test s.cursor.current = true) (h : item c s = .ok a s') : Advanced s s' := by
  cases hrepeated with
  | text hend =>
    simp only [bind_eq_ok, pure_eq_ok] at h
    obtain ⟨t, s₁, hadvance, -, rfl⟩ := h
    have hkind : s.cursor.current.kind ≠ .endOfInput := fun hkind => by
      rw [hend _ hkind] at htest
      cases htest
    exact .of_passes (advance_consumes hv hadvance hkind).2.passes (List.cons_ne_nil _ _)
  | flag => exact .of_spends (.requirementFlag hv htest) h
  | term budget => exact Budgeted.term.lowers budget c s _ s' hv h
  | condition budget temporal => exact (Budgeted.condition temporal).lowers budget c s _ s' hv h
  | effect budget temporal => exact (Budgeted.effect temporal).lowers budget c s _ s' hv h
  | duration budget => exact Budgeted.duration.lowers budget c s _ s' hv h
  | field => exact .of_spends (.actionField hv htest) h
  | durativeField => exact .of_spends (.durativeActionField hv htest) h
  | skeleton => exact skeleton_lowers c s _ s' hv h
  | fact => exact initElement_lowers c s _ s' hv h
  | part => exact problemSection_lowers c s _ s' hv h

/-! ### Rounds of loops -/

section Rounds

variable {σ ι α β γ : Type} {cursor : σ → Cursor}
  {loop : Nat → ι → ReaderT Context (EStateM Failure σ) α} {stops : Token → Prop} {c : Context}
  {s s₁ : σ}

/-- With more rounds than there are unread tokens, the number of rounds makes no difference. -/
def Sufficient (cursor : σ → Cursor) (loop : Nat → ReaderT Context (EStateM Failure σ) α) : Prop :=
  ∀ c s n m, (cursor s).Valid → (cursor s).unread < n → n ≤ m → loop n c s = loop m c s

/-- What a round of a loop does, given the outcome for each number of rounds that are left behind
it.  Either it is the last one, so that the outcome is the same for all numbers, and unless it fails
it stops at a token with the property; or it leads to a state with fewer unread tokens, from which
the loop goes on, and where that ends it ends. -/
def Rounds (cursor : σ → Cursor) (loop : Nat → ι → ReaderT Context (EStateM Failure σ) α)
    (stops : Token → Prop) (c : Context) (s : σ) (outcome : Nat → EStateM.Result Failure σ β) :
    Prop :=
  (∃ last, (∀ n, outcome n = last) ∧
    ∀ b s', last = .ok b s' → stops (cursor s').current) ∨
  ∃ (i : ι) (s₁ : σ) (finish : EStateM.Result Failure σ α → EStateM.Result Failure σ β),
    (cursor s₁).Valid ∧ (cursor s₁).unread < (cursor s).unread ∧
      (∀ n, outcome n = finish (loop n i c s₁)) ∧
      ∀ rest b s', finish rest = .ok b s' → ∃ a s₂, rest = .ok a s₂ ∧ cursor s₂ = cursor s'

/-- Each round of the loop reads a token or is the last one, and the loop stops at a token with the
property. -/
def Progresses (cursor : σ → Cursor)
    (loop : Nat → ι → ReaderT Context (EStateM Failure σ) α) (stops : Token → Prop) : Prop :=
  ∀ c s i, (cursor s).Valid → Rounds cursor loop stops c s fun n => loop (n + 1) i c s

/-- A round is the last one. -/
lemma Rounds.last {outcome : EStateM.Result Failure σ β}
    (h : ∀ b s', outcome = .ok b s' → stops (cursor s').current) :
    Rounds cursor loop stops c s fun _ => outcome :=
  Or.inl ⟨outcome, fun _ => rfl, h⟩

/-- The loop stops. -/
lemma Rounds.done (b : β) (h : stops (cursor s₁).current) :
    Rounds cursor loop stops c s fun _ => (pure b : ReaderT Context (EStateM Failure σ) β) c s₁ :=
  .last fun _ _ hlast => (pure_eq_ok.mp hlast).2 ▸ h

/-- A round begins with a reader; if that fails, it is the last one. -/
lemma Rounds.bind {m : ReaderT Context (EStateM Failure σ) β}
    {f : Nat → β → ReaderT Context (EStateM Failure σ) γ}
    (h : ∀ a s', m c s₁ = .ok a s' → Rounds cursor loop stops c s fun n => f n a c s') :
    Rounds cursor loop stops c s fun n => (m >>= f n) c s₁ := by
  cases hrun : m c s₁ with
  | ok a s' =>
    have hrest : (fun n => (m >>= f n) c s₁) = fun n => f n a c s' :=
      funext fun _ => bind_of_ok hrun
    rw [hrest]
    exact h a s' hrun
  | error failure s' => exact Or.inl ⟨_, fun _ => bind_of_error hrun, nofun⟩

/-- The loop goes on. -/
lemma Rounds.again (i : ι) (hv : (cursor s₁).Valid)
    (hlt : (cursor s₁).unread < (cursor s).unread) :
    Rounds cursor loop stops c s fun n => loop n i c s₁ :=
  Or.inr ⟨i, s₁, id, hv, hlt, fun _ => rfl, fun _ b s' h => ⟨b, s', h, rfl⟩⟩

/-- The loop goes on, and its value is used. -/
lemma Rounds.again_map (i : ι) (f : α → β) (hv : (cursor s₁).Valid)
    (hlt : (cursor s₁).unread < (cursor s).unread) :
    Rounds cursor loop stops c s fun n => (do return f (← loop n i)) c s₁ := by
  -- What follows the loop does not depend on where its outcome comes from.
  let finish (outcome : EStateM.Result Failure σ α) : EStateM.Result Failure σ β :=
    let loop : ReaderT Context (EStateM Failure σ) α := fun _ _ => outcome
    (do return f (← loop) : ReaderT Context (EStateM Failure σ) β) c s₁
  refine Or.inr ⟨i, s₁, finish, hv, hlt, fun _ => rfl, fun rest b s' h => ?_⟩
  obtain ⟨a, s₂, hrest, hpure⟩ := bind_eq_ok.mp h
  obtain ⟨-, rfl⟩ := pure_eq_ok.mp hpure
  exact ⟨a, s₂, hrest, rfl⟩

/-- A loop whose rounds read tokens has rounds enough. -/
lemma Progresses.sufficient (h : Progresses cursor loop stops) (i : ι) :
    Sufficient cursor fun n => loop n i := by
  intro c s n
  induction n generalizing s i with
  | zero => exact fun m _ hlt => absurd hlt (Nat.not_lt_zero _)
  | succ n ih =>
    intro m hv hlt hle
    cases m with
    | zero => exact absurd hle (Nat.not_succ_le_zero n)
    | succ m =>
      rcases h c s i hv with ⟨last, hlast, -⟩ | ⟨i₁, s₁, finish, hv₁, hlt₁, hfinish, -⟩
      · exact (hlast n).trans (hlast m).symm
      · have hrest := ih i₁ s₁ m hv₁ (by omega) (by omega)
        exact (hfinish n).trans ((congrArg finish hrest).trans (hfinish m).symm)

/-- A loop whose rounds read tokens does not stop for want of rounds. -/
lemma Progresses.stops_of_ok (h : Progresses cursor loop stops) :
    ∀ {n} i {s a s'}, (cursor s).Valid → (cursor s).unread < n → loop n i c s = .ok a s' →
      stops (cursor s').current := by
  intro n
  induction n with
  | zero => exact fun _ _ _ _ _ hlt => absurd hlt (Nat.not_lt_zero _)
  | succ n ih =>
    intro i s a s' hv hlt hrun
    rcases h c s i hv with ⟨last, hlast, hstops⟩ | ⟨i₁, s₁, finish, hv₁, hlt₁, hfinish, hends⟩
    · exact hstops a s' ((hlast n).symm.trans hrun)
    · obtain ⟨b, s₂, hrest, hsame⟩ := hends _ a s' ((hfinish n).symm.trans hrun)
      exact hsame ▸ ih i₁ hv₁ (by omega) hrest

end Rounds

/-- A loop of items that advance. -/
lemma whileFuel_progresses {test : Token → Bool} {item : ReadM α}
    (hrepeated : Repeated test item) :
    Progresses State.cursor (fun n (_ : Unit) => whileFuel test item n)
      fun token => test token = false := by
  intro c s _ hv
  refine .bind fun t s₁ hcurrent => ?_
  obtain ⟨rfl, rfl⟩ := current_eq_ok.mp hcurrent
  split_ifs with htest
  · refine .bind fun a s₁ hitem => ?_
    obtain ⟨hv₁, hlt⟩ := hrepeated.advanced hv htest hitem
    exact .again_map () _ hv₁ hlt
  · exact .done _ ((Bool.not_eq_true _).mp htest)

/-- Groups of typed names. -/
lemma typedGroups_progresses (kind : Token.Kind) (allowEither : Bool) :
    Progresses State.cursor (fun n (_ : Unit) => typedGroups kind allowEither n)
      fun token => token.kind = .closeParen ∨ token.kind = .endOfInput := by
  have hR := shrinks_compositional
  intro c s _ hv
  refine .bind fun names s₁ hnames => ?_
  obtain ⟨hv₁, hle₁⟩ :=
    hR.textsWhile (fun _ hend => by simp [isListed, hend]) c s names s₁ hv hnames
  refine .bind fun found s₂ hfound => ?_
  obtain ⟨rfl, rfl⟩ := currentKind_eq_ok.mp hfound
  cases hkind : s₁.cursor.current.kind with
  | minus =>
    dsimp only
    split_ifs
    · exact .last (by simp)
    refine .bind fun minus s₂ hminus => ?_
    obtain ⟨-, hc₂⟩ := advance_consumes hv₁ hminus (by rw [hkind]; decide)
    have hlt₂ := hc₂.unread
    refine .bind fun _ s₃ hrequire => ?_
    obtain ⟨hv₃, hle₃⟩ := hR.require _ _ c s₂ _ s₃ hc₂.valid hrequire
    refine .bind fun type s₄ htype => ?_
    obtain ⟨hv₄, hle₄⟩ := hR.typeSpec _ c s₃ type s₄ hv₃ htype
    rw [List.length_singleton] at hlt₂
    exact .again_map () _ hv₄ (by omega)
  | closeParen => exact .done _ (Or.inl hkind)
  | endOfInput => exact .done _ (Or.inr hkind)
  | _ => exact .last (by simp)

/-- Skipping tokens. -/
lemma skipRest_progresses :
    Progresses State.cursor skipRest fun token => token.kind = .endOfInput := by
  intro c s opened hv
  refine .bind fun found s₁ hfound => ?_
  obtain ⟨rfl, rfl⟩ := currentKind_eq_ok.mp hfound
  have hskip (opened : Nat) (hne : s.cursor.current.kind ≠ .endOfInput) :
      Rounds State.cursor skipRest (fun token => token.kind = .endOfInput) c s
        fun n => (do let _ ← advance; skipRest n opened) c s := by
    refine .bind fun t s₁ hadvance => ?_
    obtain ⟨-, hc⟩ := advance_consumes hv hadvance hne
    have hlt := hc.unread
    rw [List.length_singleton] at hlt
    exact .again opened hc.valid (by omega)
  cases hkind : s.cursor.current.kind with
  | endOfInput => exact .done _ hkind
  | closeParen =>
    cases opened with
    | zero => exact .last (by simp)
    | succ opened => exact hskip opened (by rw [hkind]; decide)
  | _ => exact hskip _ (by rw [hkind]; decide)

/-- A step of a plan. -/
lemma planStep_lowers (index : Int) : Lowers State.cursor (planStep index) := by
  have hR := shrinks_compositional
  refine hR.stepTime?.bind_lowers fun _ => ?_
  refine Lowers.bind (.nested ((expect_lowers (by decide) _).bind fun _ => hR.atomicFormula _))
    fun _ => ?_
  exact hR.bind hR.stepDuration? fun _ => hR.pure _

/-- Steps of a plan. -/
lemma planSteps_progresses :
    Progresses State.cursor planSteps fun token => token.kind = .endOfInput := by
  intro c s index hv
  refine .bind fun found s₁ hfound => ?_
  cases hfound
  split_ifs with hend
  · exact .done _ (of_decide_eq_true hend)
  · refine .bind fun step s₁ hstep => ?_
    obtain ⟨hv₁, hlt⟩ := planStep_lowers index c s step s₁ hv hstep
    exact .again_map (index + 1) _ hv₁ hlt

/-- All counted loops have enough rounds. -/
lemma Counted.sufficient {loop : Nat → ReadM α} (h : Counted loop) :
    Sufficient State.cursor loop := by
  cases h with
  | whileFuel hrepeated => exact (whileFuel_progresses hrepeated).sufficient ()
  | typedGroups kind allowEither => exact (typedGroups_progresses kind allowEither).sufficient ()
  | skipRest => exact skipRest_progresses.sufficient 0
  | planSteps => exact planSteps_progresses.sufficient 0

end Reader

/-! ### Rounds of loops over sections -/

namespace Assembly

/-- A loop of steps that read a token. -/
lemma whileFuel_progresses {test : Token → Bool} {step : AssembleM Unit}
    (hstep : Reader.Lowers standpoint step) :
    Reader.Progresses standpoint (fun n (_ : Unit) => whileFuel test step n)
      fun token => test token = false := by
  intro c a _ hv
  refine .bind fun t a₁ hcurrent => ?_
  cases hcurrent
  split_ifs with htest
  · refine .bind fun _ a₁ hrun => ?_
    obtain ⟨hv₁, hlt⟩ := hstep c a () a₁ hv hrun
    exact .again () hv₁ hlt
  · exact .done _ ((Bool.not_eq_true _).mp htest)

/-- Groups of functions. -/
lemma functionGroups_progresses :
    Reader.Progresses standpoint (fun n (_ : Unit) => functionGroups n)
      fun token => token.kind ≠ .openParen ∧ token.kind ≠ .minus := by
  have hR := Reader.shrinks_compositional
  have hA := shrinks_compositional
  intro c a _ hv
  refine .bind fun skeletons a₁ hskeletons => ?_
  obtain ⟨hv₁, hle₁⟩ :=
    hA.ofReader (hR.readWhile .skeleton hR.skeleton) c a skeletons a₁ hv hskeletons
  have hopen : a₁.cursor.current.kind ≠ .openParen := by
    obtain ⟨s₁, hrun, rfl⟩ := ofReader_eq_ok.mp hskeletons
    have hstop := (Reader.whileFuel_progresses .skeleton).stops_of_ok () hv
      (Nat.lt_succ_self _) hrun
    exact of_decide_eq_false hstop
  refine .bind fun kind a₂ hkind => ?_
  cases hkind
  split_ifs with hminus hempty
  · refine .last fun _ a' hlast => ?_
    obtain ⟨s', hfail, -⟩ := ofReader_eq_ok.mp hlast
    exact absurd hfail (by simp)
  · refine .bind fun minus a₂ hadvance => ?_
    obtain ⟨s₂, hrun, rfl⟩ := ofReader_eq_ok.mp hadvance
    obtain ⟨-, hc₂⟩ := Reader.advance_consumes hv₁ hrun (by rw [hminus]; decide)
    obtain ⟨hv₂, hlt₂⟩ := Reader.Advanced.of_passes hc₂.passes (List.cons_ne_nil _ _)
    refine .bind fun returns a₃ hreturns => ?_
    obtain ⟨hv₃, hle₃⟩ :=
      hA.ofReader (hR.name _) c { a₁ with toState := s₂ } returns a₃ hv₂ hreturns
    refine .bind fun _ a₄ hdeclare => ?_
    obtain ⟨hv₄, hle₄⟩ := hA.declareFunctions _ _ c a₃ _ a₄ hv₃ hdeclare
    exact .again () hv₄
      (Nat.lt_of_le_of_lt (Nat.le_trans hle₄ hle₃) (Nat.lt_of_lt_of_le hlt₂ hle₁))
  · refine .last fun _ a' hlast => ?_
    rw [declareFunctions_eq_ok _ _ hlast]
    exact ⟨hopen, hminus⟩

/-- A predicate. -/
lemma predicate_lowers : Reader.Lowers standpoint predicate :=
  (lowers_ofReader Reader.skeleton_lowers).bind fun _ => shrinks_compositional.declarePredicate _ _

/-- A section with its parentheses. -/
lemma parenthesizedSection_lowers : Reader.Lowers standpoint (do
    let _ ← ofReader Reader.openParen
    anySection) :=
  (lowers_ofReader (Reader.expect_lowers (by decide) _)).bind fun _ =>
    Compositional.anySection Reader.shrinks_compositional.toDocumentary shrinks_compositional

/-- All counted loops of readers of domains have enough rounds. -/
lemma Counted.sufficient {loop : Nat → AssembleM Unit} (h : Counted loop) :
    Reader.Sufficient standpoint loop := by
  cases h with
  | predicates => exact (whileFuel_progresses predicate_lowers).sufficient ()
  | sections => exact (whileFuel_progresses parenthesizedSection_lowers).sufficient ()
  | functionGroups => exact functionGroups_progresses.sufficient ()

end Assembly

end Pddl
