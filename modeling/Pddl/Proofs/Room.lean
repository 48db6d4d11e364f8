import Pddl.Proofs.Standpoints

/-!
# Room for open expressions

Expressions are read with a budget, and where that is spent they fail for want of room.  Since each
open expression has consumed its opening parenthesis, a budget that exceeds the number of unread
tokens is never spent (`Budgeted.hasRoom`); and as long as a budget is not spent, a larger one makes
no difference (`Budgeted.widens`).  So readers of documents do not fail for want of room if there is
no capacity or if it exceeds the number of unread tokens, and with any capacity they do what they do
without one unless they fail for want of room (`Boundless`).
-/

namespace Pddl

namespace Reader

variable {σ α β : Type} {c : Context}

/-! ### Outcomes -/

/-- The outcome is no failure for want of room. -/
def Spared (outcome : EStateM.Result Failure σ α) : Prop :=
  ∀ failure s, outcome = .error failure s → ¬ failure.IsTooDeep

/-- The outcome is the other one or a failure for want of room. -/
def OrTooDeep (outcome wide : EStateM.Result Failure σ α) : Prop :=
  outcome = wide ∨ ∃ failure s, outcome = .error failure s ∧ failure.IsTooDeep

section Outcomes

variable {cursor : σ → Cursor} {s : σ} {m m' : ReaderT Context (EStateM Failure σ) α}
  {f f' : α → ReaderT Context (EStateM Failure σ) β}

/-- One reader after another. -/
lemma Spared.bind (hm : Spared (m c s)) (hf : ∀ a s', m c s = .ok a s' → Spared (f a c s')) :
    Spared ((m >>= f) c s) := by
  cases hrun : m c s with
  | ok a s' =>
    rw [bind_of_ok hrun]
    exact hf a s' hrun
  | error failure s' =>
    rw [bind_of_error hrun]
    intro other t h
    cases h
    exact hm failure s' hrun

/-- Checking the depth. -/
lemma spared_checkDepth (s : State) : Spared (checkDepth c s) := by
  intro failure t h
  rw [checkDepth, bind_of_ok (read_eq_ok.mpr ⟨rfl, rfl⟩)] at h
  cases hlimit : c.settings.maxNestingDepth with
  | none =>
    rw [hlimit] at h
    cases h
  | some limit =>
    rw [hlimit] at h
    dsimp only at h
    rw [bind_of_ok (get_eq_ok.mpr ⟨rfl, rfl⟩)] at h
    split_ifs at h
    · cases h
      exact fun hdeep => by cases hdeep
    · cases h

/-- The failure is the same for a changed state. -/
lemma Spared.mapState {τ : Type} {change : σ → τ} {outcome : EStateM.Result Failure σ α}
    (h : Spared outcome) : Spared (Reader.mapState change outcome) := by
  intro failure t hchanged
  cases outcome with
  | ok a s => cases hchanged
  | error other s =>
    cases hchanged
    exact h _ s rfl

/-- One level deeper. -/
lemma Spared.nested {body : ReadM α} {s : State} (hbody : Spared (body c s.deeper)) :
    Spared (nested body c s) := by
  have hinside : Spared ((checkDepth >>= fun _ => body) c s.deeper) := by
    refine (spared_checkDepth _).bind fun _ s' h => ?_
    obtain ⟨-, rfl⟩ := checkDepth_eq_ok.mp h
    exact hbody
  rw [nested_eq_mapState]
  exact hinside.mapState

/-- The outcome is the other one. -/
lemma OrTooDeep.refl (outcome : EStateM.Result Failure σ α) : OrTooDeep outcome outcome :=
  Or.inl rfl

/-- An outcome that is not a failure for want of room is the other one. -/
lemma OrTooDeep.eq_of_spared {outcome wide : EStateM.Result Failure σ α}
    (h : OrTooDeep outcome wide) (hspared : Spared outcome) : outcome = wide := by
  rcases h with heq | ⟨failure, s, hfailure, hdeep⟩
  · exact heq
  · exact absurd hdeep (hspared failure s hfailure)

/-- The comparison is the same for changed states. -/
lemma OrTooDeep.mapState {τ : Type} {change : σ → τ} {outcome wide : EStateM.Result Failure σ α}
    (h : OrTooDeep outcome wide) :
    OrTooDeep (Reader.mapState change outcome) (Reader.mapState change wide) := by
  rcases h with rfl | ⟨failure, s, rfl, hdeep⟩
  · exact .refl _
  · exact Or.inr ⟨failure, change s, rfl, hdeep⟩

/-- One reader after another, in different contexts. -/
lemma OrTooDeep.bind {c' : Context} (hm : OrTooDeep (m c s) (m' c' s))
    (hf : ∀ a s', m c s = .ok a s' → OrTooDeep (f a c s') (f' a c' s')) :
    OrTooDeep ((m >>= f) c s) ((m' >>= f') c' s) := by
  rcases hm with heq | ⟨failure, s', hfailure, hdeep⟩
  · cases hrun : m c s with
    | ok a s' =>
      rw [bind_of_ok hrun, bind_of_ok (heq ▸ hrun)]
      exact hf a s' hrun
    | error failure s' =>
      rw [bind_of_error hrun, bind_of_error (heq ▸ hrun)]
      exact .refl _
  · exact Or.inr ⟨failure, s', bind_of_error hfailure, hdeep⟩

end Outcomes

/-- One level deeper, in contexts with the same limit. -/
lemma OrTooDeep.nested {c' : Context} {s : State} {body body' : ReadM α}
    (hcheck : checkDepth c s.deeper = checkDepth c' s.deeper)
    (hbody : OrTooDeep (body c s.deeper) (body' c' s.deeper)) :
    OrTooDeep (nested body c s) (nested body' c' s) := by
  have hinside : OrTooDeep ((checkDepth >>= fun _ => body) c s.deeper)
      ((checkDepth >>= fun _ => body') c' s.deeper) := by
    refine .bind (Or.inl hcheck) fun _ s' h => ?_
    obtain ⟨-, rfl⟩ := checkDepth_eq_ok.mp h
    exact hbody
  rw [nested_eq_mapState, nested_eq_mapState]
  exact hinside.mapState

/-! ### Readers that do not fail for want of room -/

/-- The reader puts no tokens back, and where the number of unread tokens leaves room it does not
fail for want of it. -/
structure HasRoom (cursor : σ → Cursor) (room : Context → Nat → Prop)
    (m : ReaderT Context (EStateM Failure σ) α) : Prop where
  shrinks : Shrinks cursor m
  spared : ∀ c s, (cursor s).Valid → room c (cursor s).unread → Spared (m c s)

section HasRoom

variable {cursor : σ → Cursor} {room : Context → Nat → Prop}
  {m : ReaderT Context (EStateM Failure σ) α} {f : α → ReaderT Context (EStateM Failure σ) β}

/-- Returning a value. -/
lemma HasRoom.pure (a : α) :
    HasRoom cursor room (Pure.pure a : ReaderT Context (EStateM Failure σ) α) :=
  ⟨.pure a, fun _ _ _ _ _ _ h => by cases h⟩

/-- Failing otherwise. -/
lemma HasRoom.throw {failure : Failure} (h : ¬ failure.IsTooDeep) :
    HasRoom cursor room (MonadExcept.throw failure : ReaderT Context (EStateM Failure σ) α) :=
  ⟨.throw failure, fun _ _ _ _ _ _ hrun => by cases hrun; exact h⟩

/-- One reader after another, if fewer unread tokens leave as much room. -/
lemma HasRoom.bind (hroom : ∀ c n n', n' ≤ n → room c n → room c n') (hm : HasRoom cursor room m)
    (hf : ∀ a, HasRoom cursor room (f a)) : HasRoom cursor room (m >>= f) where
  shrinks := hm.shrinks.bind fun a => (hf a).shrinks
  spared := by
    intro c s hv hs
    refine (hm.spared c s hv hs).bind fun a s' hrun => ?_
    obtain ⟨hv', hle⟩ := hm.shrinks c s a s' hv hrun
    exact (hf a).spared c s' hv' (hroom c _ _ hle hs)

end HasRoom

variable {room : Context → Nat → Prop}

/-- A step of the cursor. -/
lemma hasRoom_onCursor {step : CursorM α} (h : Shrinks State.cursor (onCursor step)) :
    HasRoom State.cursor room (onCursor step) where
  shrinks := h
  spared := by
    intro c s _ _ failure t hrun
    unfold Reader.onCursor at hrun
    cases hstep : step s.cursor with
    | ok a cursor =>
      rw [hstep] at hrun
      cases hrun
    | error error cursor =>
      rw [hstep] at hrun
      cases hrun
      exact id

/-- Readers on one level do not fail for want of room. -/
lemma hasRoom_stepwise (hroom : ∀ c n n', n' ≤ n → room c n → room c n') :
    Stepwise (HasRoom State.cursor room) where
  pure := .pure
  bind := .bind hroom
  get := fun _ hf => ⟨fun c s => (hf s).shrinks c s, fun c s => (hf s).spared c s⟩
  read := fun _ _ _ hf => ⟨fun c s => (hf c).shrinks c s, fun c s => (hf c).spared c s⟩
  rounds := fun _ hloop => ⟨fun c s => (hloop _).shrinks c s, fun c s => (hloop _).spared c s⟩
  throw := .throw
  peek := hasRoom_onCursor shrinks_compositional.peek
  advance := hasRoom_onCursor shrinks_compositional.advance
  report := by
    intro token breach
    refine ⟨shrinks_compositional.report token breach, fun c s _ _ failure t hrun => ?_⟩
    rw [report, bind_of_ok (read_eq_ok.mpr ⟨rfl, rfl⟩)] at hrun
    split_ifs at hrun
    · cases hrun
      exact fun hdeep => by cases hdeep
    · cases hrun
  note := fun notice hlevel =>
    ⟨shrinks_compositional.note notice hlevel, fun _ _ _ _ _ _ hrun => by cases hrun⟩

/-- Nor do readers on several levels. -/
lemma hasRoom_layered (hroom : ∀ c n n', n' ≤ n → room c n → room c n') :
    Layered (HasRoom State.cursor room) :=
  { hasRoom_stepwise hroom with
    nested := fun hbody => ⟨shrinks_compositional.nested hbody.shrinks,
      fun c s hv hs => .nested (hbody.spared c s.deeper hv hs)⟩ }

/-! ### Budgets are not spent -/

/-- There are fewer unread tokens than the number. -/
def Below (k : Nat) (_ : Context) (n : Nat) : Prop :=
  n < k

/-- Fewer unread tokens are below the number, too. -/
lemma Below.mono (k : Nat) : ∀ c n n', n' ≤ n → Below k c n → Below k c n' :=
  fun _ _ _ hle hlt => Nat.lt_of_le_of_lt hle hlt

/-- No number of unread tokens is below zero. -/
lemma hasRoom_below_zero {m : ReadM α} (h : Shrinks State.cursor m) :
    HasRoom State.cursor (Below 0) m :=
  ⟨h, fun _ _ _ hlt => absurd hlt (Nat.not_lt_zero _)⟩

/-- Behind an opening parenthesis there is one unread token less. -/
lemma hasRoom_opened {k : Nat} {expected : String} {rest : ReadM α}
    (h : HasRoom State.cursor (Below k) rest) : HasRoom State.cursor (Below (k + 1))
      (nested (expect .openParen expected >>= fun _ => rest)) := by
  have hL := hasRoom_layered (Below.mono (k + 1))
  refine hL.nested ⟨(hL.expect _ _).shrinks.bind fun _ => h.shrinks, fun c s hv hlt => ?_⟩
  refine ((hL.expect _ _).spared c s hv hlt).bind fun t s' hrun => ?_
  obtain ⟨-, -, hc⟩ := expect_consumes hv hrun (by decide)
  obtain ⟨hv', hlt'⟩ := Advanced.of_passes hc.passes (List.cons_ne_nil _ _)
  exact h.spared c s' hv' (Nat.lt_of_lt_of_le hlt' (Nat.lt_succ_iff.mp hlt))

/-- Readers have room for as many unread tokens as their budget if with a larger budget they have
room for one more token. -/
lemma hasRoom_of_succ {ι : Type} (reader : Nat → ι → ReadM Expr)
    (hshrinks : ∀ budget i, Shrinks State.cursor (reader budget i))
    (hsucc : ∀ budget k, k ≤ budget → (∀ i, HasRoom State.cursor (Below k) (reader budget i)) →
      ∀ i, HasRoom State.cursor (Below (k + 1)) (reader (budget + 1) i)) (budget : Nat) :
    ∀ k ≤ budget, ∀ i, HasRoom State.cursor (Below k) (reader budget i) := by
  induction budget with
  | zero => exact fun k hk i => Nat.le_zero.mp hk ▸ hasRoom_below_zero (hshrinks 0 i)
  | succ budget ih =>
    intro k hk
    cases k with
    | zero => exact fun i => hasRoom_below_zero (hshrinks _ i)
    | succ k =>
      have hle := Nat.le_of_succ_le_succ hk
      exact hsucc budget k hle (ih k hle)

/-- A numeric term with a larger budget. -/
lemma numericTerm_succ_hasRoom {budget k : Nat}
    (hterm : HasRoom State.cursor (Below k) (numericTerm budget)) :
    HasRoom State.cursor (Below (k + 1)) (numericTerm (budget + 1)) := by
  have hL := hasRoom_layered (Below.mono (k + 1))
  have hI := hasRoom_layered (Below.mono k)
  refine ⟨shrinks_compositional.numericTerm _, fun c s hv hlt => ?_⟩
  rw [numericTerm, bind_of_ok currentKind_run]
  cases hkind : s.cursor.current.kind with
  | number => exact (hL.bind hL.number fun _ => hL.pure _).spared c s hv hlt
  | var => exact (hL.bind hL.advance fun _ => hL.pure _).spared c s hv hlt
  | name => exact (hL.bind hL.advance fun _ => hL.pure _).spared c s hv hlt
  | openParen =>
    refine .nested ((hL.advance.spared c s.deeper hv hlt).bind fun t s₁ hrun => ?_)
    obtain ⟨-, hc⟩ := advance_consumes (State.deeper_valid hv) hrun (by
      rw [show s.deeper.cursor.current.kind = .openParen from hkind]
      decide)
    obtain ⟨hv₁, hlt₁⟩ := Advanced.of_passes hc.passes (List.cons_ne_nil _ _)
    have hroom : Below k c s₁.cursor.unread :=
      Nat.lt_of_lt_of_le hlt₁ (Nat.lt_succ_iff.mp hlt)
    refine HasRoom.spared (hI.bind hI.currentKind fun _ => ?_) c s₁ hv₁ hroom
    split
    · exact hI.arithmetic (.term _) hterm
    · exact hI.arithmetic (.term _) hterm
    · exact hI.bind (hI.atomicFormula _) fun _ => hI.pure _
    · exact hI.failHere _ fun h => by cases h
  | _ =>
    refine HasRoom.spared (hL.failHere _ ?_) c s hv hlt
    exact fun hdeep => by cases hdeep

/-- A numeric term. -/
lemma numericTerm_hasRoom (budget k : Nat) (hk : k ≤ budget) :
    HasRoom State.cursor (Below k) (numericTerm budget) :=
  hasRoom_of_succ (fun budget (_ : Unit) => numericTerm budget)
    (fun budget _ => shrinks_compositional.numericTerm budget)
    (fun _ _ _ hterm _ => numericTerm_succ_hasRoom (hterm ())) budget k hk ()

/-- A condition. -/
lemma condition_hasRoom (budget : Nat) :
    ∀ k ≤ budget, ∀ temporal, HasRoom State.cursor (Below k) (condition budget temporal) := by
  refine hasRoom_of_succ condition shrinks_compositional.condition
    (fun budget k hle hcondition temporal => ?_) budget
  obtain ⟨rest, hsucc, hrest⟩ := (hasRoom_layered (Below.mono k)).condition_succ
    (numericTerm_hasRoom budget k hle) hcondition temporal
  exact hsucc ▸ hasRoom_opened hrest

/-- An effect. -/
lemma effect_hasRoom (budget : Nat) :
    ∀ k ≤ budget, ∀ temporal, HasRoom State.cursor (Below k) (effect budget temporal) := by
  refine hasRoom_of_succ effect shrinks_compositional.effect
    (fun budget k hle heffect temporal => ?_) budget
  obtain ⟨rest, hsucc, hrest⟩ := (hasRoom_layered (Below.mono k)).effect_succ
    (numericTerm_hasRoom budget k hle) (condition_hasRoom budget k hle) heffect temporal
  exact hsucc ▸ hasRoom_opened hrest

/-- A duration constraint. -/
lemma durationConstraint_hasRoom (budget k : Nat) (hk : k ≤ budget) :
    HasRoom State.cursor (Below k) (durationConstraint budget) := by
  refine hasRoom_of_succ (fun budget (_ : Unit) => durationConstraint budget)
    (fun budget _ => shrinks_compositional.durationConstraint budget)
    (fun budget k hle hduration _ => ?_) budget k hk ()
  obtain ⟨rest, hsucc, hrest⟩ := (hasRoom_layered (Below.mono k)).durationConstraint_succ
    (numericTerm_hasRoom budget k hle) (hduration ())
  exact hsucc ▸ hasRoom_opened hrest

/-- A budget that exceeds the number of unread tokens is not spent. -/
lemma Budgeted.hasRoom {reader : Nat → ReadM Expr} (h : Budgeted reader) (k : Nat) :
    HasRoom State.cursor (Below k) (reader k) := by
  cases h with
  | term => exact numericTerm_hasRoom k k le_rfl
  | condition temporal => exact condition_hasRoom k k le_rfl temporal
  | effect temporal => exact effect_hasRoom k k le_rfl temporal
  | duration => exact durationConstraint_hasRoom k k le_rfl

/-! ### Larger budgets -/

/-- The second reader does what the first one does unless that fails for want of room. -/
def Widens (m m' : ReadM α) : Prop :=
  ∀ c s, OrTooDeep (m c s) (m' c s)

namespace Widens

variable {m m' : ReadM α} {f f' : α → ReadM β} {term term' : ReadM Expr}

/-- A reader does what it does. -/
lemma refl (m : ReadM α) : Widens m m :=
  fun _ _ => .refl _

/-- One reader after another. -/
lemma bind (hm : Widens m m') (hf : ∀ a, Widens (f a) (f' a)) : Widens (m >>= f) (m' >>= f') :=
  fun c s => (hm c s).bind fun a s' _ => hf a c s'

/-- A reader after the same one. -/
lemma after (hf : ∀ a, Widens (f a) (f' a)) : Widens (m >>= f) (m >>= f') :=
  .bind (.refl m) hf

/-- The same after a reader. -/
lemma before (hm : Widens m m') (f : α → ReadM β) : Widens (m >>= f) (m' >>= f) :=
  .bind hm fun _ => .refl _

/-- One reader or another. -/
lemma ite {p : Prop} [Decidable p] {other other' : ReadM α} (hm : Widens m m')
    (hother : Widens other other') :
    Widens (if p then m else other) (if p then m' else other') := by
  split_ifs
  · exact hm
  · exact hother

/-- One level deeper. -/
lemma nested (hm : Widens m m') : Widens (Reader.nested m) (Reader.nested m') :=
  fun c s => .nested rfl (hm c s.deeper)

/-- Repeating a reader. -/
lemma readWhile {test : Token → Bool} (hm : Widens m m') :
    Widens (Reader.readWhile test m) (Reader.readWhile test m') := by
  refine .after fun fuel => ?_
  induction fuel with
  | zero => exact .refl _
  | succ fuel ih =>
    exact .after fun _ => .ite (.bind hm fun _ => .before ih _) (.refl _)

/-- Reading operands. -/
lemma operands (hterm : Widens term term') :
    Widens (Reader.operands term) (Reader.operands term') :=
  .before (.readWhile hterm) _

/-- Reading arithmetic. -/
lemma arithmetic (hterm : Widens term term') :
    Widens (Reader.arithmetic term) (Reader.arithmetic term') := by
  refine .after fun token => ?_
  cases ArithOp.ofText? token.text with
  | none => exact .refl _
  | some op =>
    exact .after fun _ => .ite (.after fun _ => .before (.readWhile hterm) _) (.refl _)

/-- Reading a comparison. -/
lemma comparison (hterm : Widens term term') (governed : Bool) :
    Widens (Reader.comparison term governed) (Reader.comparison term' governed) := by
  refine .after fun token => ?_
  cases CompareOp.ofText? token.text with
  | none => exact .refl _
  | some op => exact .after fun _ => .bind hterm fun _ => .before hterm _

/-- Reading a timed expression. -/
lemma timed (hterm : Widens term term') (time : TimeSpec) (allowed inEffect : Bool) :
    Widens (Reader.timed time allowed inEffect term)
      (Reader.timed time allowed inEffect term') := by
  unfold Reader.timed
  refine .ite ?_ (.refl _)
  exact .after fun _ => .after fun _ => .ite (.refl _) (.after fun _ => .before hterm _)

/-- Reading an update. -/
lemma numericUpdate (hterm : Widens term term') (op : UpdateOp) :
    Widens (Reader.numericUpdate op term) (Reader.numericUpdate op term') :=
  .after fun _ => .after fun _ => .after fun _ => .before hterm _

/-- Failing for want of room is all that a spent budget does. -/
lemma of_failTooDeep (m : ReadM α) : Widens failTooDeep m :=
  fun _ s => Or.inr ⟨_, s, rfl, rfl⟩

end Widens

/-- A larger budget for a numeric term. -/
lemma numericTerm_widens (n : Nat) : ∀ n' ≥ n, Widens (numericTerm n) (numericTerm n') := by
  induction n with
  | zero => exact fun _ _ => .of_failTooDeep _
  | succ n ih =>
    intro n' hle
    obtain ⟨n', rfl⟩ := Nat.exists_eq_add_of_lt hle
    have hterm := ih (n + n') (Nat.le_add_right _ _)
    refine .after fun kind => ?_
    cases kind with
    | openParen =>
      refine .nested (.after fun _ => .after fun kind => ?_)
      cases kind with
      | minus => exact .arithmetic hterm
      | operator => exact .arithmetic hterm
      | _ => exact .refl _
    | _ => exact .refl _

/-- A larger budget for a condition. -/
lemma condition_widens (n : Nat) :
    ∀ n' ≥ n, ∀ temporal, Widens (condition n temporal) (condition n' temporal) := by
  induction n with
  | zero => exact fun _ _ _ => .of_failTooDeep _
  | succ n ih =>
    intro n' hle temporal
    obtain ⟨n', rfl⟩ := Nat.exists_eq_add_of_lt hle
    have hle := Nat.le_add_right n n'
    have ih := ih (n + n') hle
    refine .nested (.after fun _ => .after fun token => ?_)
    cases token.kind with
    | operator => exact .comparison (numericTerm_widens n _ hle) true
    | name =>
      cases Head.ofKey token.key with
      | conjunction => exact .after fun _ => .before (.operands (ih _)) _
      | disjunction => exact .after fun _ => .after fun _ => .before (.operands (ih _)) _
      | negation => exact .after fun _ => .before (ih _) _
      | quantifier quantifier =>
        exact .after fun _ => .after fun _ => .after fun _ => .before (ih _) _
      | time =>
        refine .after fun time => ?_
        cases time with
        | some time => exact .timed (ih _) time temporal false
        | none => exact .refl _
      | _ => exact .refl _
    | _ => exact .refl _

/-- A larger budget for an effect. -/
lemma effect_widens (n : Nat) :
    ∀ n' ≥ n, ∀ temporal, Widens (effect n temporal) (effect n' temporal) := by
  induction n with
  | zero => exact fun _ _ _ => .of_failTooDeep _
  | succ n ih =>
    intro n' hle temporal
    obtain ⟨n', rfl⟩ := Nat.exists_eq_add_of_lt hle
    have hle := Nat.le_add_right n n'
    have ih := ih (n + n') hle
    refine .nested (.after fun _ => .after fun token => ?_)
    cases token.kind with
    | name =>
      cases Head.ofKey token.key with
      | conjunction => exact .after fun _ => .before (.operands (ih _)) _
      | quantifier quantifier =>
        cases quantifier with
        | universal => exact .after fun _ => .after fun _ => .after fun _ => .before (ih _) _
        | existential => exact .refl _
      | conditional =>
        exact .after fun _ => .after fun _ =>
          .bind (condition_widens n _ hle temporal) fun _ => .before (ih _) _
      | time =>
        refine .after fun time => ?_
        cases time with
        | some time => exact .timed (ih _) time temporal true
        | none => exact .refl _
      | update op => exact .numericUpdate (numericTerm_widens n _ hle) op
      | _ => exact .refl _
    | _ => exact .refl _

/-- A larger budget for a duration constraint. -/
lemma durationConstraint_widens (n : Nat) :
    ∀ n' ≥ n, Widens (durationConstraint n) (durationConstraint n') := by
  induction n with
  | zero => exact fun _ _ => .of_failTooDeep _
  | succ n ih =>
    intro n' hle
    obtain ⟨n', rfl⟩ := Nat.exists_eq_add_of_lt hle
    have hle := Nat.le_add_right n n'
    have ih := ih (n + n') hle
    refine .nested (.after fun _ => .after fun token => ?_)
    cases token.kind with
    | operator => exact .comparison (numericTerm_widens n _ hle) false
    | name =>
      refine .ite (.after fun _ => .after fun _ => .before (.operands ih) _)
        (.after fun time => ?_)
      cases time with
      | some time => exact .timed ih time true true
      | none => exact .refl _
    | _ => exact .refl _

namespace Budgeted

variable {reader : Nat → ReadM Expr}

/-- With a larger budget a reader does the same unless the smaller one is spent. -/
lemma widens (h : Budgeted reader) {n n' : Nat} (hle : n ≤ n') : Widens (reader n) (reader n') := by
  cases h with
  | term => exact numericTerm_widens n n' hle
  | condition temporal => exact condition_widens n n' hle temporal
  | effect temporal => exact effect_widens n n' hle temporal
  | duration => exact durationConstraint_widens n n' hle

/-- Which budget a reader has makes no difference if it exceeds the number of unread tokens. -/
lemma eq_of_unread_lt (h : Budgeted reader) {n n' : Nat} {s : State} (hv : s.cursor.Valid)
    (hn : s.cursor.unread < n) (hn' : s.cursor.unread < n') : reader n c s = reader n' c s := by
  rcases Nat.le_total n n' with hle | hle
  · exact (h.widens hle c s).eq_of_spared ((h.hasRoom n).spared c s hv hn)
  · exact ((h.widens hle c s).eq_of_spared ((h.hasRoom n').spared c s hv hn')).symm

end Budgeted

/-! ### Readers of documents -/

/-- There is no capacity, or it exceeds the number. -/
def Context.Exceeds (c : Context) (n : Nat) : Prop :=
  ∀ capacity ∈ c.capacity, n < capacity

/-- What exceeds a number exceeds a smaller one, too. -/
lemma Context.Exceeds.mono : ∀ c : Context, ∀ n n', n' ≤ n → c.Exceeds n → c.Exceeds n' :=
  fun _ _ _ hle h capacity hcapacity => Nat.lt_of_le_of_lt hle (h capacity hcapacity)

/-- Readers of documents do not fail for want of room if the capacity exceeds the number of unread
tokens. -/
lemma hasRoom_documentary : Documentary (HasRoom State.cursor Context.Exceeds) :=
  { hasRoom_stepwise Context.Exceeds.mono, hasRoom_layered Context.Exceeds.mono with
    any := by
      intro reader hreader
      refine ⟨shrinks_compositional.any hreader, fun c s hv hs => ?_⟩
      have hlt : s.cursor.unread < c.capacity.getD (s.cursor.unread + 1) := by
        cases hcapacity : c.capacity with
        | none => exact Nat.lt_succ_self _
        | some capacity => exact hs capacity hcapacity
      rw [bind_of_ok budget_eq]
      exact (hreader.hasRoom _).spared c s hv hlt
    declare := fun flags =>
      ⟨shrinks_compositional.declare flags, fun _ _ _ _ _ _ hrun => by cases hrun⟩ }

/-- The capacity makes no difference to the reader. -/
def CapacityFree (m : ReadM α) : Prop :=
  Unaffected (fun capacity c => c.withCapacity capacity) m

/-- Readers that enter no level do not depend on the capacity. -/
lemma capacityFree_stepwise : Stepwise CapacityFree :=
  unaffected_stepwise fun _ hcapacity => hcapacity

/-- Checking the depth does not depend on the capacity. -/
lemma capacityFree_checkDepth : CapacityFree checkDepth := by
  refine Unaffected.read (fun _ _ => rfl) fun c => ?_
  split
  · exact capacityFree_stepwise.pure _
  · intro c capacity s
    rw [bind_of_ok (get_eq_ok.mpr ⟨rfl, rfl⟩), bind_of_ok (get_eq_ok.mpr ⟨rfl, rfl⟩)]
    split_ifs
    · rfl
    · rfl

/-- Readers with a given budget do not depend on the capacity. -/
lemma capacityFree_descending : Descending CapacityFree :=
  { capacityFree_stepwise with
    raise := fun _ _ _ _ => rfl
    nested := by
      intro α body hbody c capacity s
      have hinside := capacityFree_stepwise.bind capacityFree_checkDepth (fun _ => hbody) c capacity
        s.deeper
      rw [nested_eq_mapState, nested_eq_mapState]
      exact congrArg (mapState State.higher) hinside }

/-- The reader puts no tokens back, and with any capacity it does what it does without one unless it
fails for want of room. -/
structure Boundless (cursor : σ → Cursor) (m : ReaderT Context (EStateM Failure σ) α) : Prop where
  shrinks : Shrinks cursor m
  run : ∀ c capacity s, (cursor s).Valid →
    OrTooDeep (m (Context.withCapacity c capacity) s) (m (c.withCapacity none) s)

/-- A reader that does not depend on the capacity. -/
lemma CapacityFree.boundless {m : ReadM α} (h : CapacityFree m) (hm : Shrinks State.cursor m) :
    Boundless State.cursor m :=
  ⟨hm, fun c capacity s _ => Or.inl (h c capacity s)⟩

/-- One reader after another. -/
lemma Boundless.bind {cursor : σ → Cursor} {m : ReaderT Context (EStateM Failure σ) α}
    {f : α → ReaderT Context (EStateM Failure σ) β} (hm : Boundless cursor m)
    (hf : ∀ a, Boundless cursor (f a)) : Boundless cursor (m >>= f) where
  shrinks := hm.shrinks.bind fun a => (hf a).shrinks
  run := fun c capacity s hv => (hm.run c capacity s hv).bind fun a s' hrun =>
    (hf a).run c capacity s' (hm.shrinks _ s a s' hv hrun).1

/-- With any capacity readers of documents do what they do without one unless they fail for want of
room. -/
lemma boundless_documentary : Documentary (Boundless State.cursor) where
  pure := fun a => (capacityFree_stepwise.pure a).boundless (.pure a)
  bind := .bind
  get := fun _ hf => ⟨fun c s => (hf s).shrinks c s, fun c capacity s => (hf s).run c capacity s⟩
  read := by
    intro α f hstrict hlimit hcapacity hf
    refine ⟨shrinks_compositional.read hstrict hlimit hcapacity fun c => (hf c).shrinks, ?_⟩
    intro c capacity s hv
    rw [bind_of_ok (read_eq_ok.mpr ⟨rfl, rfl⟩), bind_of_ok (read_eq_ok.mpr ⟨rfl, rfl⟩),
      hcapacity, hcapacity]
    exact (hf c).run c capacity s hv
  rounds := fun _ hloop => ⟨fun c s => (hloop _).shrinks c s,
    fun c capacity s => (hloop _).run c capacity s⟩
  throw := fun h => (capacityFree_stepwise.throw h).boundless (.throw _)
  peek := capacityFree_stepwise.peek.boundless shrinks_compositional.peek
  advance := capacityFree_stepwise.advance.boundless shrinks_compositional.advance
  report := fun token breach => (capacityFree_stepwise.report token breach).boundless
    (shrinks_compositional.report token breach)
  note := fun notice hlevel => (capacityFree_stepwise.note notice hlevel).boundless
    (shrinks_compositional.note notice hlevel)
  declare := fun flags => ⟨shrinks_compositional.declare flags, fun _ _ _ _ => .refl _⟩
  nested := by
    intro α body hbody
    exact ⟨shrinks_compositional.nested hbody.shrinks, fun c capacity s hv =>
      .nested (capacityFree_checkDepth c capacity s.deeper) (hbody.run c capacity s.deeper hv)⟩
  any := by
    intro reader hreader
    refine ⟨shrinks_compositional.any hreader, fun c capacity s hv => ?_⟩
    rw [bind_of_ok budget_eq, bind_of_ok budget_eq,
      capacityFree_descending.withBudget hreader]
    rcases Nat.le_total (capacity.getD (s.cursor.unread + 1)) (s.cursor.unread + 1) with hle | hlt
    · exact hreader.widens hle _ s
    · exact Or.inl (hreader.eq_of_unread_lt hv hlt (Nat.lt_succ_self _))

end Reader

/-! ### Readers of domains -/

namespace Assembly

/-- Nor do readers of domains. -/
lemma hasRoom_compositional :
    Compositional (Reader.HasRoom Reader.State.cursor Reader.Context.Exceeds)
      (Reader.HasRoom standpoint Reader.Context.Exceeds) where
  pure := .pure
  bind := .bind Reader.Context.Exceeds.mono
  throw := .throw
  ofReader := by
    intro α m hm
    refine ⟨shrinks_ofReader hm.shrinks, fun c a hv hroom => ?_⟩
    rw [ofReader_eq_mapState]
    exact (hm.spared c a.toState hv hroom).mapState
  rounds := fun _ hloop => ⟨fun c a => (hloop _).shrinks c a, fun c a => (hloop _).spared c a⟩
  declare := fun change => ⟨shrinks_compositional.declare change, fun _ _ _ _ _ _ h => by cases h⟩
  declared? := ⟨shrinks_compositional.declared?, fun _ _ _ _ _ _ h => by cases h⟩

/-- With any capacity readers of domains do what they do without one unless they fail for want of
room. -/
lemma boundless_compositional :
    Compositional (Reader.Boundless Reader.State.cursor) (Reader.Boundless standpoint) where
  pure := fun a => ⟨.pure a, fun _ _ _ _ => .refl _⟩
  bind := .bind
  throw := fun _ => ⟨.throw _, fun _ _ _ _ => .refl _⟩
  ofReader := by
    intro α m hm
    refine ⟨shrinks_ofReader hm.shrinks, fun c capacity a hv => ?_⟩
    rw [ofReader_eq_mapState, ofReader_eq_mapState]
    exact (hm.run c capacity a.toState hv).mapState
  rounds := fun _ hloop => ⟨fun c a => (hloop _).shrinks c a,
    fun c capacity a => (hloop _).run c capacity a⟩
  declare := fun change => ⟨shrinks_compositional.declare change, fun _ _ _ _ => .refl _⟩
  declared? := ⟨shrinks_compositional.declared?, fun _ _ _ _ => .refl _⟩

end Assembly

/-! ### Calls -/

namespace Call

variable {parser : Parser}

/-- A call does not fail for want of room if the capacity exceeds the number of unread tokens. -/
lemma hasRoom (call : Call parser) :
    Reader.HasRoom Assembly.standpoint Reader.Context.Exceeds call.run :=
  call.run_of_documentary Reader.hasRoom_documentary Assembly.hasRoom_compositional

/-- With any capacity a call does what it does without one unless it fails for want of room. -/
lemma boundless (call : Call parser) : Reader.Boundless Assembly.standpoint call.run :=
  call.run_of_documentary Reader.boundless_documentary Assembly.boundless_compositional

end Call

end Pddl
