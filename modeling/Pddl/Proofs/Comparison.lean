import Pddl.Proofs.Progress

/-!
# Comparing two runs of a reader

A reader is run from two states that are alike.  If the first run succeeds, so does the second one,
with the same value, and the states after them are alike again (`Mirrors`).  What it means to be
alike, and up to which states the first run is looked at, differs from one `Comparison` to another;
that runs can be compared one after the other, and that the rounds of a loop may be counted by
different numbers of unread tokens, holds for all of them.
-/

namespace Pddl.Reader

/-- A way of comparing two runs: the contexts in which they are compared, what the first run keeps
of the state it starts from, the states up to which it is looked at, and when a state of the second
run is like one of the first. -/
structure Comparison (σ : Type) where
  cursor : σ → Cursor
  admits : Context → Prop
  keeps : σ → σ → Prop
  within : σ → Prop
  alike : σ → σ → Prop
  keeps_refl : ∀ s, keeps s s
  keeps_trans : ∀ {s s₁ s'}, keeps s s₁ → keeps s₁ s' → keeps s s'

variable {σ α β : Type}

/-- Whenever the reader succeeds, it keeps what is to be kept; and if it is looked at up to its last
state, it succeeds from every state that is like its first one, with the same value and a state that
is like its last one. -/
structure Mirrors (d : Comparison σ) (m : ReaderT Context (EStateM Failure σ) α) : Prop where
  shrinks : Shrinks d.cursor m
  run : ∀ c s a s', d.admits c → (d.cursor s).Valid → m c s = .ok a s' →
    d.keeps s s' ∧ (d.within s' → d.within s ∧
      ∀ t, (d.cursor t).Valid → d.alike s t → ∃ t', m c t = .ok a t' ∧ d.alike s' t')

variable {d : Comparison σ} {m : ReaderT Context (EStateM Failure σ) α}
  {f : α → ReaderT Context (EStateM Failure σ) β}

/-- A reader that goes alike from all states, valid or not. -/
lemma Mirrors.of_run (hshrinks : Shrinks d.cursor m)
    (h : ∀ c s a s', d.admits c → m c s = .ok a s' →
      d.keeps s s' ∧ (d.within s' → d.within s) ∧
        ∀ t, d.alike s t → ∃ t', m c t = .ok a t' ∧ d.alike s' t') : Mirrors d m where
  shrinks := hshrinks
  run := by
    intro c s a s' hc _ hrun
    obtain ⟨hkeeps, hwithin, halike⟩ := h c s a s' hc hrun
    exact ⟨hkeeps, fun hlast => ⟨hwithin hlast, fun t _ => halike t⟩⟩

/-- Returning a value. -/
lemma Mirrors.pure (a : α) :
    Mirrors d (Pure.pure a : ReaderT Context (EStateM Failure σ) α) := by
  refine .of_run (.pure a) fun c s b s' _ h => ?_
  obtain ⟨rfl, rfl⟩ := pure_eq_ok.mp h
  exact ⟨d.keeps_refl s, id, fun t ht => ⟨t, rfl, ht⟩⟩

/-- Failing. -/
lemma Mirrors.throw (failure : Failure) :
    Mirrors d (MonadExcept.throw failure : ReaderT Context (EStateM Failure σ) α) :=
  .of_run (.throw failure) fun _ _ _ _ _ h => absurd h (by simp)

/-- One reader after another. -/
lemma Mirrors.bind (hm : Mirrors d m) (hf : ∀ a, Mirrors d (f a)) : Mirrors d (m >>= f) where
  shrinks := hm.shrinks.bind fun a => (hf a).shrinks
  run := by
    intro c s b s' hc hv h
    obtain ⟨a, s₁, hrun, hrest⟩ := bind_eq_ok.mp h
    obtain ⟨hv₁, -⟩ := hm.shrinks c s a s₁ hv hrun
    obtain ⟨hkeeps, hfirst⟩ := hm.run c s a s₁ hc hv hrun
    obtain ⟨hkeeps₁, hsecond⟩ := (hf a).run c s₁ b s' hc hv₁ hrest
    refine ⟨d.keeps_trans hkeeps hkeeps₁, fun hwithin => ?_⟩
    obtain ⟨hwithin₁, hsecond⟩ := hsecond hwithin
    obtain ⟨hwithin₀, hfirst⟩ := hfirst hwithin₁
    refine ⟨hwithin₀, fun t ht halike => ?_⟩
    obtain ⟨t₁, hrun', halike₁⟩ := hfirst t ht halike
    obtain ⟨ht₁, -⟩ := hm.shrinks c t a t₁ ht hrun'
    obtain ⟨t', hrest', halike'⟩ := hsecond t₁ ht₁ halike₁
    exact ⟨t', (bind_of_ok hrun').trans hrest', halike'⟩

/-- A loop that may take as many rounds as there are unread tokens, and one more. -/
lemma Mirrors.loop {loop : Nat → ReaderT Context (EStateM Failure σ) α}
    (hsufficient : Sufficient d.cursor loop) (hloop : ∀ n, Mirrors d (loop n)) :
    Mirrors d fun c s => loop ((d.cursor s).unread + 1) c s where
  shrinks := fun c s a s' hv h => (hloop _).shrinks c s a s' hv h
  run := by
    intro c s a s' hc hv h
    obtain ⟨hkeeps, hrun⟩ := (hloop _).run c s a s' hc hv h
    refine ⟨hkeeps, fun hwithin => ⟨(hrun hwithin).1, fun t ht halike => ?_⟩⟩
    -- Both runs are given the rounds that are enough for either of them.
    have hrounds (u : σ) (hu : (d.cursor u).Valid) (extra : Nat) :
        loop ((d.cursor u).unread + 1) c u = loop ((d.cursor u).unread + 1 + extra) c u :=
      hsufficient c u _ _ hu (Nat.lt_succ_self _) (Nat.le_add_right _ _)
    have hmore := (hrounds s hv ((d.cursor t).unread)).symm.trans h
    obtain ⟨-, hmore⟩ := (hloop _).run c s a s' hc hv hmore
    obtain ⟨t', hrun', halike'⟩ := (hmore hwithin).2 t ht halike
    refine ⟨t', ?_, halike'⟩
    have henough := hrounds t ht ((d.cursor s).unread)
    rw [henough, ← hrun']
    congr 1
    omega

end Pddl.Reader
