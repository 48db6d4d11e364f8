import Pddl.Proofs.Composition

/-!
# Where runs end

A run ends in a state whether it returns or fails.  `Leads R` says of a reader that, whatever the
context and the outcome, the state in which it ends is related to the one in which it starts.  If
the relation is reflexive and transitive and holds over each single step, all readers lead along it
(`Steps.compositional`), and so do all readers of domains (`Assembly.leads_compositional`): a
statement about the ends of runs needs a look at the steps only.
-/

namespace Pddl

namespace Reader

section Runs

variable {σ τ α β : Type}

/-- The state in which a run ends. -/
def lastState : EStateM.Result Failure σ α → σ
  | .ok _ state => state
  | .error _ state => state

/-- The outcome of a run with its last state changed. -/
def mapState (change : σ → τ) : EStateM.Result Failure σ α → EStateM.Result Failure τ α
  | .ok value state => .ok value (change state)
  | .error failure state => .error failure (change state)

/-- The last state of a changed outcome is the changed last state. -/
@[simp] lemma lastState_mapState (change : σ → τ) (outcome : EStateM.Result Failure σ α) :
    lastState (mapState change outcome) = change (lastState outcome) := by
  cases outcome with
  | ok value state => rfl
  | error failure state => rfl

/-- Whatever the context and the outcome, the reader ends in a state that is related to the one in
which it starts. -/
def Leads (R : σ → σ → Prop) (m : ReaderT Context (EStateM Failure σ) α) : Prop :=
  ∀ c s, R s (lastState (m c s))

variable {R : σ → σ → Prop} {m : ReaderT Context (EStateM Failure σ) α}
  {f : α → ReaderT Context (EStateM Failure σ) β}

/-- Returning a value. -/
lemma Leads.pure (hrefl : ∀ s, R s s) (a : α) :
    Leads R (Pure.pure a : ReaderT Context (EStateM Failure σ) α) :=
  fun _ s => hrefl s

/-- Failing. -/
lemma Leads.throw (hrefl : ∀ s, R s s) (failure : Failure) :
    Leads R (MonadExcept.throw failure : ReaderT Context (EStateM Failure σ) α) :=
  fun _ s => hrefl s

/-- One reader after another; if the first one fails, it leads to the end by itself. -/
lemma Leads.bind (htrans : ∀ {s s₁ s₂}, R s s₁ → R s₁ s₂ → R s s₂) (hm : Leads R m)
    (hf : ∀ a, Leads R (f a)) : Leads R (m >>= f) := by
  intro c s
  have hfirst := hm c s
  cases hrun : m c s with
  | ok a s₁ =>
    rw [hrun] at hfirst
    rw [bind_of_ok hrun]
    exact htrans hfirst (hf a c s₁)
  | error failure s₁ =>
    rw [hrun] at hfirst
    rw [bind_of_error hrun]
    exact hfirst

end Runs

variable {α : Type} {R : State → State → Prop}

/-- A look at the state. -/
lemma Leads.get {f : State → ReadM α} (hf : ∀ s, Leads R (f s)) : Leads R (get >>= f) :=
  fun c s => hf s c s

/-- A look at the context. -/
lemma Leads.read {f : Context → ReadM α} (hf : ∀ c, Leads R (f c)) : Leads R (read >>= f) :=
  fun c s => hf c c s

/-- A step of the cursor. -/
lemma Leads.onCursor {step : CursorM α}
    (hok : ∀ {s : State} {value cursor}, step s.cursor = .ok value cursor →
      R s { s with cursor := cursor })
    (herror : ∀ {s : State} {error cursor}, step s.cursor = .error error cursor →
      R s { s with cursor := cursor }) : Leads R (onCursor step) := by
  intro c s
  unfold Reader.onCursor
  cases hstep : step s.cursor with
  | ok value cursor => exact hok hstep
  | error error cursor => exact herror hstep

/-- Reading one level deeper is reading from a changed state, with the change undone. -/
lemma nested_eq_mapState (body : ReadM α) (c : Context) (s : State) :
    nested body c s =
      mapState (fun state => { state with depth := state.depth - 1 })
        ((do checkDepth; body) c { s with depth := s.depth + 1 }) := by
  unfold nested
  cases (do checkDepth; body) c { s with depth := s.depth + 1 } with
  | ok value state => rfl
  | error failure state => rfl

/-! ### Relations that steps keep -/

/-- The relation is reflexive and transitive, and holds over each step that changes the state.  A
level that is entered is left, too: the relation may be lost on the way, as long as it holds
then. -/
structure Steps (R : State → State → Prop) : Prop where
  refl : ∀ s, R s s
  trans : ∀ {s s₁ s₂}, R s s₁ → R s₁ s₂ → R s s₂
  peek : Leads R Reader.peek
  advance : Leads R Reader.advance
  note : ∀ s notice, R s { s with log := s.log ++ [notice] }
  declare : ∀ s flags, R s { s with requirements := Text.union s.requirements flags }
  level : ∀ s s', R { s with depth := s.depth + 1 } s' → R s { s' with depth := s'.depth - 1 }

namespace Steps

variable (h : Steps R)

include h

/-- Finding the budget. -/
lemma leads_budget : Leads R budget := by
  intro c s
  rw [budget_eq]
  exact h.refl s

/-- Checking the depth. -/
lemma leads_checkDepth : Leads R checkDepth := by
  refine .read fun c => ?_
  split
  · exact .pure h.refl _
  · refine .get fun s => ?_
    split
    · exact .get fun _ => .throw h.refl _
    · exact .pure h.refl _

/-- Reporting a breach. -/
lemma leads_report (token : Token) (breach : Breach) : Leads R (report token breach) := by
  refine .read fun c => ?_
  split
  · exact .throw h.refl _
  · exact fun _ s => h.note s _

/-- A level that is entered is left, whether its check, its body or nothing fails. -/
lemma leads_nested {body : ReadM α} (hbody : Leads R body) : Leads R (nested body) := by
  intro c s
  have hinside : Leads R (do checkDepth; body) :=
    .bind h.trans h.leads_checkDepth fun _ => hbody
  rw [nested_eq_mapState, lastState_mapState]
  exact h.level s _ (hinside c { s with depth := s.depth + 1 })

/-- All readers lead along a relation that holds over their steps. -/
lemma compositional : Compositional (Leads R) where
  pure := .pure h.refl
  bind := .bind h.trans
  get := fun _ => .get
  read := fun _ _ _ => .read
  rounds := fun _ hloop c s => hloop _ c s
  budget := h.leads_budget
  raise := .throw h.refl
  peek := h.peek
  advance := h.advance
  report := h.leads_report
  note := fun notice _ _ s => h.note s notice
  declare := fun flags _ s => h.declare s flags
  nested := h.leads_nested

end Steps

end Reader

/-! ### Readers of domains -/

namespace Assembly

open Reader (Leads)

/-- A reader that leaves the declarations alone is run on the rest of the state. -/
lemma ofReader_eq_mapState {α : Type} (m : ReadM α) (c : Reader.Context) (a : Assembly) :
    ofReader m c a =
      Reader.mapState (fun state => { a with toState := state }) (m c a.toState) := by
  unfold ofReader
  cases m c a.toState with
  | ok value state => rfl
  | error failure state => rfl

/-- All readers of domains lead along a relation that holds over steps and says nothing of
declarations. -/
lemma leads_compositional {R : Reader.State → Reader.State → Prop} (h : Reader.Steps R) :
    Compositional (Leads R) (Leads fun a a' : Assembly => R a.toState a'.toState) where
  pure := .pure fun a => h.refl a.toState
  bind := .bind fun h₁ h₂ => h.trans h₁ h₂
  throw := fun _ => .throw (fun a => h.refl a.toState) _
  ofReader := by
    intro α m hm c a
    rw [ofReader_eq_mapState, Reader.lastState_mapState]
    exact hm c a.toState
  rounds := fun _ hloop c a => hloop _ c a
  declare := fun _ _ a => h.refl a.toState
  declared? := fun _ a => h.refl a.toState

end Assembly

end Pddl
