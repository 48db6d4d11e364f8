import Pddl.Proofs.Running

/-!
# Invariants of readers

A reader upholds an invariant of its state if it leaves a state with the invariant whenever it
succeeds from one with it; its result then has a property.  The rules follow the ways in which
readers are put together: a sequence may use what its first part upholds, and a repetition upholds
what each round does.
-/

namespace Pddl

namespace Reader

section Runs

variable {σ α β : Type} {c : Context} {I : σ → Prop} {P : α → Prop} {Q : β → Prop}
  {m : ReaderT Context (EStateM Failure σ) α} {f : α → ReaderT Context (EStateM Failure σ) β}

/-- From a state with the invariant the reader leaves one with it, and its result has the
property. -/
def Upholds (c : Context) (I : σ → Prop) (m : ReaderT Context (EStateM Failure σ) α)
    (P : α → Prop) : Prop :=
  ∀ s a s', I s → m c s = .ok a s' → I s' ∧ P a

/-- Returning a value that has the property. -/
lemma Upholds.pure {a : α} (h : P a) :
    Upholds c I (Pure.pure a : ReaderT Context (EStateM Failure σ) α) P := by
  intro s b s' hs hrun
  obtain ⟨rfl, rfl⟩ := pure_eq_ok.mp hrun
  exact ⟨hs, h⟩

/-- One reader after another, which may use what the first one upholds. -/
lemma Upholds.bind (hm : Upholds c I m P) (hf : ∀ a, P a → Upholds c I (f a) Q) :
    Upholds c I (m >>= f) Q := by
  intro s b s' hs h
  obtain ⟨a, s₁, hrun, hrest⟩ := bind_eq_ok.mp h
  obtain ⟨hs₁, hP⟩ := hm s a s₁ hs hrun
  exact hf a hP s₁ b s' hs₁ hrest

/-- Failing. -/
lemma Upholds.throw (failure : Failure) :
    Upholds c I (MonadExcept.throw failure : ReaderT Context (EStateM Failure σ) α) P :=
  fun _ _ _ _ h => absurd h (by simp)

end Runs

variable {c : Context}

/-- Failing at the current token. -/
lemma Upholds.failHere {α : Type} {I : State → Prop} {P : α → Prop} {expected : String}
    {cause : Cause} : Upholds c I (Reader.failHere expected cause : ReadM α) P :=
  fun _ _ _ _ h => absurd h (by simp)

/-- Failing at a token. -/
lemma Upholds.failAt {α : Type} {I : State → Prop} {P : α → Prop} {token : Token}
    {expected : String} {cause : Cause} :
    Upholds c I (Reader.failAt token expected cause : ReadM α) P :=
  fun _ _ _ _ h => absurd h (by simp)

/-- All items of a repetition have the property of each, which is read where the test is passed. -/
lemma Upholds.readWhile_of_test {α : Type} {I : State → Prop} {test : Token → Bool}
    {item : ReadM α} {P : α → Prop}
    (hitem : ∀ s a s', I s → test s.cursor.current = true → item c s = .ok a s' → I s' ∧ P a) :
    Upholds c I (Reader.readWhile test item) fun items => ∀ a ∈ items, P a := by
  intro s items s' hs h
  replace h := (readWhile_readsItems h).1
  induction h with
  | nil s => exact ⟨hs, by simp⟩
  | cons htest ha _ ih =>
    obtain ⟨hs₁, hP⟩ := hitem _ _ _ hs htest ha
    obtain ⟨hs₂, hPs⟩ := ih hs₁
    exact ⟨hs₂, List.forall_mem_cons.mpr ⟨hP, hPs⟩⟩

/-- All items of a repetition have the property of each. -/
lemma Upholds.readWhile {α : Type} {I : State → Prop} {test : Token → Bool} {item : ReadM α}
    {P : α → Prop} (hitem : Upholds c I item P) :
    Upholds c I (Reader.readWhile test item) fun items => ∀ a ∈ items, P a :=
  .readWhile_of_test fun s a s' hs _ h => hitem s a s' hs h

end Reader

namespace Assembly

open Reader (Upholds)

/-- A repetition of a step. -/
lemma upholds_repeatWhile {c : Reader.Context} {I : Assembly → Prop} {test : Token → Bool}
    {step : AssembleM Unit} (hstep : Upholds c I step fun _ => True) :
    Upholds c I (repeatWhile test step) fun _ => True := by
  intro a u a' ha h
  replace h := repeatWhile_repeatsStep h
  induction h with
  | stop a => exact ⟨ha, True.intro⟩
  | next _ hone _ ih => exact ih (hstep _ _ _ ha hone).1

end Assembly

end Pddl
