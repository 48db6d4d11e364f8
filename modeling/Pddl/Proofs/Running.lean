import Mathlib.Data.List.Basic
import Pddl.Reader.Domain

/-!
# Running readers

A reader is run in a context and a state; it succeeds with a value and a new state or fails.  This
file says when a reader that is put together from smaller ones succeeds: a sequence succeeds
exactly when its first part does and the rest does from where that left off
(`bind_eq_ok`).  All statements about what readers accept are derived from these equations, so that
no later proof has to look inside the monad.
-/

namespace Pddl.Reader

section Sequencing

variable {ρ ε σ α β : Type} {c : ρ} {s s' : σ}

/-- A reader that returns a value at once leaves its state alone. -/
lemma pure_run (a : α) : (pure a : ReaderT ρ (EStateM ε σ) α) c s = .ok a s := rfl

/-- A value that is returned at once is the only result. -/
@[simp] lemma pure_eq_ok {a b : α} :
    (pure a : ReaderT ρ (EStateM ε σ) α) c s = .ok b s' ↔ a = b ∧ s = s' := by
  rw [pure_run, EStateM.Result.ok.injEq]

/-- A sequence goes on from the result of its first part. -/
lemma bind_of_ok {m : ReaderT ρ (EStateM ε σ) α} {f : α → ReaderT ρ (EStateM ε σ) β} {a : α}
    (h : m c s = .ok a s') : (m >>= f) c s = f a c s' := by
  change EStateM.bind (m c) (fun a => f a c) s = _
  unfold EStateM.bind
  rw [h]

/-- A sequence fails with its first part. -/
lemma bind_of_error {m : ReaderT ρ (EStateM ε σ) α} {f : α → ReaderT ρ (EStateM ε σ) β} {e : ε}
    (h : m c s = .error e s') : (m >>= f) c s = .error e s' := by
  change EStateM.bind (m c) (fun a => f a c) s = _
  unfold EStateM.bind
  rw [h]

/-- A sequence succeeds exactly when its parts succeed one after the other. -/
@[simp] lemma bind_eq_ok {m : ReaderT ρ (EStateM ε σ) α} {f : α → ReaderT ρ (EStateM ε σ) β}
    {b : β} : (m >>= f) c s = .ok b s' ↔ ∃ a t, m c s = .ok a t ∧ f a c t = .ok b s' := by
  constructor
  · intro h
    cases hm : m c s with
    | ok a t => exact ⟨a, t, rfl, by rwa [bind_of_ok hm] at h⟩
    | error e t =>
      rw [bind_of_error hm] at h
      cases h
  · rintro ⟨a, t, hm, hf⟩
    rwa [bind_of_ok hm]

/-- Two sequences do the same if their first parts do and the rests do from where those leave
off. -/
lemma bind_congr_run {m m' : ReaderT ρ (EStateM ε σ) α} {f f' : α → ReaderT ρ (EStateM ε σ) β}
    (hm : m c s = m' c s) (hf : ∀ a t, m c s = .ok a t → f a c t = f' a c t) :
    (m >>= f) c s = (m' >>= f') c s := by
  cases hrun : m c s with
  | ok a t => rw [bind_of_ok hrun, bind_of_ok (hm ▸ hrun), hf a t hrun]
  | error e t => rw [bind_of_error hrun, bind_of_error (hm ▸ hrun)]

/-- A raised failure is no result. -/
@[simp] lemma throw_ne_ok {e : ε} {a : α} :
    (throw e : ReaderT ρ (EStateM ε σ) α) c s = .ok a s' ↔ False := by
  constructor
  · intro h
    cases h
  · exact False.elim

end Sequencing

variable {α : Type} {c : Context} {s s' : State}

/-! ### Looking at the state -/

/-- Asking for the state yields it. -/
@[simp] lemma get_eq_ok {t : State} : (get : ReadM State) c s = .ok t s' ↔ s = t ∧ s = s' := by
  change EStateM.Result.ok s s = _ ↔ _
  rw [EStateM.Result.ok.injEq]

/-- Asking for the context yields it. -/
@[simp] lemma read_eq_ok {d : Context} :
    (read : ReadM Context) c s = .ok d s' ↔ c = d ∧ s = s' := by
  change EStateM.Result.ok c s = _ ↔ _
  rw [EStateM.Result.ok.injEq]

/-- The current token is the cursor's. -/
lemma current_run : current c s = .ok s.cursor.current s := rfl

/-- The current token is the cursor's, and looking at it changes nothing. -/
@[simp] lemma current_eq_ok {t : Token} :
    current c s = .ok t s' ↔ s.cursor.current = t ∧ s = s' := by
  rw [current_run, EStateM.Result.ok.injEq]

/-- The current kind is that of the cursor's token. -/
lemma currentKind_run : currentKind c s = .ok s.cursor.current.kind s := rfl

/-- The current kind is that of the cursor's token, and looking at it changes nothing. -/
@[simp] lemma currentKind_eq_ok {k : Token.Kind} :
    currentKind c s = .ok k s' ↔ s.cursor.current.kind = k ∧ s = s' := by
  rw [currentKind_run, EStateM.Result.ok.injEq]

/-- The number of rounds is taken from the cursor. -/
lemma rounds_run : rounds c s = .ok (s.cursor.unread + 1) s := rfl

/-- The number of rounds is taken from the cursor, and taking it changes nothing. -/
@[simp] lemma rounds_eq_ok {n : Nat} :
    rounds c s = .ok n s' ↔ s.cursor.unread + 1 = n ∧ s = s' := by
  rw [rounds_run, EStateM.Result.ok.injEq]

/-- The budget is the capacity, or without one it is counted by the unread tokens. -/
lemma budget_eq : budget c s = .ok (c.capacity.getD (s.cursor.unread + 1)) s := by
  obtain ⟨settings, governs, capacity⟩ := c
  cases capacity <;> rfl

/-- The budget is found without changing the state. -/
lemma budget_run : ∃ n, budget c s = .ok n s :=
  ⟨_, budget_eq⟩

/-- Failing at the current token is no result. -/
@[simp] lemma failHere_ne_ok {expected : String} {cause : Cause} {a : α} :
    failHere expected cause c s = .ok a s' ↔ False := by
  simp [failHere]

/-- Failing at a token is no result. -/
@[simp] lemma failAt_ne_ok {token : Token} {expected : String} {cause : Cause} {a : α} :
    failAt token expected cause c s = .ok a s' ↔ False := by
  simp [failAt]

/-- Failing for want of room is no result. -/
@[simp] lemma failTooDeep_ne_ok {a : α} : failTooDeep c s = .ok a s' ↔ False := by
  simp [failTooDeep]

/-- A step of the cursor succeeds as it does on the cursor alone. -/
lemma onCursor_eq_ok {step : CursorM α} {a : α} :
    onCursor step c s = .ok a s' ↔
      ∃ cursor, step s.cursor = .ok a cursor ∧ s' = { s with cursor := cursor } := by
  unfold onCursor
  constructor
  · intro h
    split at h
    · rename_i cursor heq
      cases h
      exact ⟨cursor, heq, rfl⟩
    · cases h
  · rintro ⟨cursor, hstep, rfl⟩
    rw [hstep]

/-- Reading a text succeeds as the reader does from the first token on. -/
lemma run_eq_ok {reader : ReadM α} {text : String} {a : α} :
    (run reader c text).result = .ok a ↔
      ∃ cursor s', Cursor.ofText text = .ok cursor ∧
        reader c (State.ofCursor cursor []) = .ok a s' := by
  unfold run
  cases hcursor : Cursor.ofText text with
  | error error => simp
  | ok cursor =>
    cases hrun : reader c (State.ofCursor cursor []) with
    | ok b s₁ => simp [hrun]
    | error failure s₁ => simp [hrun]

/-! ### Repetitions -/

/-- Items are read one after the other, each from a token that passes the test. -/
inductive ReadsItems (c : Context) (test : Token → Bool) (item : ReadM α) :
    List α → State → State → Prop
  | nil (s : State) : ReadsItems c test item [] s s
  | cons {a : α} {as : List α} {s s₁ s' : State} (htest : test s.cursor.current = true)
      (hitem : item c s = .ok a s₁) (hrest : ReadsItems c test item as s₁ s') :
      ReadsItems c test item (a :: as) s s'

/-- A repetition reads items one after the other.  It ends where the test fails, if it has not used
up its rounds. -/
lemma whileFuel_readsItems {test : Token → Bool} {item : ReadM α} (fuel : Nat) :
    ∀ {as : List α} {s : State}, whileFuel test item fuel c s = .ok as s' →
      ReadsItems c test item as s s' ∧ (as.length < fuel → test s'.cursor.current = false) := by
  induction fuel with
  | zero =>
    intro as s h
    obtain ⟨rfl, rfl⟩ := pure_eq_ok.mp h
    exact ⟨.nil s, fun hfuel => absurd hfuel (Nat.not_lt_zero _)⟩
  | succ fuel ih =>
    intro as s h
    simp only [whileFuel, bind_eq_ok, current_eq_ok] at h
    obtain ⟨t, s₁, ⟨rfl, rfl⟩, h⟩ := h
    split_ifs at h with htest
    · simp only [bind_eq_ok, pure_eq_ok] at h
      obtain ⟨a, s₁, ha, rest, s₂, hrest, rfl, rfl⟩ := h
      obtain ⟨hitems, hstop⟩ := ih hrest
      exact ⟨.cons htest ha hitems, fun hfuel => hstop (Nat.lt_of_succ_lt_succ hfuel)⟩
    · obtain ⟨rfl, rfl⟩ := pure_eq_ok.mp h
      exact ⟨.nil s, fun _ => Bool.eq_false_iff.mpr htest⟩

/-- A repetition whose rounds are counted by the unread tokens reads items one after the other. -/
lemma readWhile_readsItems {test : Token → Bool} {item : ReadM α} {as : List α}
    (h : readWhile test item c s = .ok as s') :
    ReadsItems c test item as s s' ∧
      (as.length ≤ s.cursor.unread → test s'.cursor.current = false) := by
  obtain ⟨n, s₁, hrounds, h⟩ := bind_eq_ok.mp h
  obtain ⟨rfl, rfl⟩ := rounds_eq_ok.mp hrounds
  obtain ⟨hitems, hstop⟩ := whileFuel_readsItems _ h
  exact ⟨hitems, fun hle => hstop (Nat.lt_succ_of_le hle)⟩

end Pddl.Reader

/-! ### Readers that declare -/

namespace Pddl.Assembly

variable {c : Reader.Context} {a a' : Assembly}

/-- A reader that leaves the declarations alone succeeds as it does by itself. -/
lemma ofReader_eq_ok {α : Type} {m : ReadM α} {x : α} :
    ofReader m c a = .ok x a' ↔
      ∃ s', m c a.toState = .ok x s' ∧ a' = { a with toState := s' } := by
  unfold ofReader
  cases m c a.toState with
  | error failure state => simp
  | ok value state =>
    simp only [EStateM.Result.ok.injEq]
    constructor
    · rintro ⟨rfl, rfl⟩
      exact ⟨state, ⟨rfl, rfl⟩, rfl⟩
    · rintro ⟨s', ⟨rfl, rfl⟩, rfl⟩
      exact ⟨rfl, rfl⟩

/-- A check succeeds with its value and changes nothing. -/
lemma check_eq_ok {α : Type} {outcome : Except Defect α} {x : α} :
    check outcome c a = .ok x a' ↔ outcome = .ok x ∧ a = a' := by
  cases outcome with
  | error defect =>
    constructor
    · intro h
      cases h
    · rintro ⟨h, -⟩
      cases h
  | ok value =>
    change (Pure.pure value : AssembleM α) c a = .ok x a' ↔ _
    rw [Reader.pure_eq_ok, Except.ok.injEq]

/-- A predicate whose name is taken is a duplicate and changes nothing; another one is added. -/
lemma declarePredicate_run (token : Token) (params : List TypedName) :
    declarePredicate token params c a =
      match findPredicate? a.declared.predicates token.text with
      | some _ => .error (.invalid (.duplicate .predicate token)) a
      | none => .ok () { a with declared := { a.declared with
          predicates := a.declared.predicates ++ [⟨token.text, params⟩] } } := by
  rw [declarePredicate, Reader.bind_of_ok (rfl : declared? c a = .ok a.declared a)]
  cases findPredicate? a.declared.predicates token.text with
  | some predicate => rfl
  | none => rfl

/-- A predicate is declared exactly if its name is new. -/
lemma declarePredicate_eq_ok {token : Token} {params : List TypedName} :
    declarePredicate token params c a = .ok () a' ↔
      findPredicate? a.declared.predicates token.text = none ∧
        a' = { a with declared := { a.declared with
          predicates := a.declared.predicates ++ [⟨token.text, params⟩] } } := by
  rw [declarePredicate_run]
  cases findPredicate? a.declared.predicates token.text with
  | some predicate => simp
  | none => simp [eq_comm]

/-- A function whose name is taken is a duplicate and changes nothing; another one is added. -/
lemma declareFunction_run (returns : String) (skeleton : Token × List TypedName) :
    declareFunction returns skeleton c a =
      match findFunction? a.declared.functions skeleton.1.text with
      | some _ => .error (.invalid (.duplicate .function skeleton.1)) a
      | none => .ok () { a with declared := { a.declared with
          functions := a.declared.functions ++ [⟨skeleton.1.text, skeleton.2, returns⟩] } } := by
  rw [declareFunction, Reader.bind_of_ok (rfl : declared? c a = .ok a.declared a)]
  cases findFunction? a.declared.functions skeleton.1.text with
  | some function => rfl
  | none => rfl

/-- A function is declared exactly if its name is new. -/
lemma declareFunction_eq_ok {returns : String} {skeleton : Token × List TypedName} :
    declareFunction returns skeleton c a = .ok () a' ↔
      findFunction? a.declared.functions skeleton.1.text = none ∧
        a' = { a with declared := { a.declared with
          functions := a.declared.functions ++ [⟨skeleton.1.text, skeleton.2, returns⟩] } } := by
  rw [declareFunction_run]
  cases findFunction? a.declared.functions skeleton.1.text with
  | some function => simp
  | none => simp [eq_comm]

/-- An action is added if its references are in order. -/
lemma addAction_eq_ok {action : Action} :
    addAction action c a = .ok () a' ↔
      Check.actionReferences a.declared.types a.declared.predicates a.declared.functions action =
          .ok () ∧
        a' = { a with
          declared := { a.declared with actions := a.declared.actions ++ [action] }
          log := a.log ++ [.actionRead action.name] } := by
  simp only [addAction, Reader.bind_eq_ok, check_eq_ok]
  constructor
  · rintro ⟨declared, a₁, hdeclared, u, a₂, ⟨hcheck, rfl⟩, u', a₃, hdeclare, hnote⟩
    cases hdeclared
    cases hdeclare
    cases hnote
    exact ⟨hcheck, rfl⟩
  · rintro ⟨hcheck, rfl⟩
    exact ⟨_, _, rfl, _, _, ⟨hcheck, rfl⟩, _, _, rfl, rfl⟩

/-- A step is taken again and again, each time at a token that passes the test. -/
inductive RepeatsStep (c : Reader.Context) (test : Token → Bool) (step : AssembleM Unit) :
    Assembly → Assembly → Prop
  | stop (a : Assembly) : RepeatsStep c test step a a
  | next {a a₁ a' : Assembly} (htest : test a.cursor.current = true)
      (hstep : step c a = .ok () a₁) (hrest : RepeatsStep c test step a₁ a') :
      RepeatsStep c test step a a'

/-- A repetition takes its step again and again. -/
lemma whileFuel_repeatsStep {test : Token → Bool} {step : AssembleM Unit} (fuel : Nat) :
    ∀ {a : Assembly}, whileFuel test step fuel c a = .ok () a' →
      RepeatsStep c test step a a' := by
  induction fuel with
  | zero =>
    intro a h
    obtain ⟨-, rfl⟩ := Reader.pure_eq_ok.mp h
    exact .stop a
  | succ fuel ih =>
    intro a h
    obtain ⟨token, a₁, hcurrent, h⟩ := Reader.bind_eq_ok.mp h
    cases hcurrent
    split_ifs at h with htest
    · obtain ⟨u, a₁, hone, hrest⟩ := Reader.bind_eq_ok.mp h
      exact .next htest hone (ih hrest)
    · obtain ⟨-, rfl⟩ := Reader.pure_eq_ok.mp h
      exact .stop a

/-- A repetition whose rounds are counted by the unread tokens takes its step again and again. -/
lemma repeatWhile_repeatsStep {test : Token → Bool} {step : AssembleM Unit}
    (h : repeatWhile test step c a = .ok () a') : RepeatsStep c test step a a' := by
  obtain ⟨rounds, a₁, hrounds, h⟩ := Reader.bind_eq_ok.mp h
  cases hrounds
  exact whileFuel_repeatsStep _ h

end Pddl.Assembly

/-! ### Reports on runs -/

namespace Pddl

/-- The report on a run, whose notices `log` finds. -/
def Report.ofOutcome {α σ : Type} (log : σ → List Notice) : EStateM.Result Failure σ α → Report α
  | .ok value state => ⟨.ok value, log state⟩
  | .error failure state => ⟨.error failure, log state⟩

/-- The report on a text that starts with a token is the report on the run of the reader. -/
lemma Reader.run_eq_ofOutcome {α : Type} (reader : ReadM α) (c : Context) {text : String}
    {cursor : Cursor} (h : Cursor.ofText text = .ok cursor) :
    run reader c text = .ofOutcome State.log (reader c (.ofCursor cursor [])) := by
  unfold run
  rw [h]
  dsimp only
  cases reader c (.ofCursor cursor []) with
  | ok value state => rfl
  | error failure state => rfl

/-- The notices left so far. -/
def Assembly.notices (assembly : Assembly) : List Notice :=
  assembly.log

/-- The report on a domain whose text starts with a token is the report on the run of its
reader. -/
lemma Domain.parse_eq_ofOutcome (settings : Settings) (capacity : Nat) {text : String}
    {cursor : Cursor} (h : Cursor.ofText text = .ok cursor) :
    parse settings text capacity = .ofOutcome Assembly.notices
      (Assembly.domain (.document settings true capacity) (Assembly.ofCursor cursor)) := by
  unfold parse
  rw [h]
  dsimp only
  cases Assembly.domain (.document settings true capacity) (Assembly.ofCursor cursor) with
  | ok domain assembly => rfl
  | error failure assembly => rfl

end Pddl
