import Pddl.Proofs.Consistency
import Pddl.Proofs.Progress

/-!
# Where calls leave a parser

Whatever the outcome of a call, it puts no tokens back, and it leaves the parser somewhere in its
text, where the next call may start (`Cursor.Remains`).  The one step that needs care is that on an
error of the scan: the current token stays, and only the error is gone.  So the cursor of a parser
is valid after any sequence of calls, and its unread tokens only become fewer
(`isChain_statesAfter`).
-/

namespace Pddl

/-! ### Steps that fail -/

namespace Cursor

variable {cursor after last : Cursor} {token : Token} {error : LexError}

/-- What a run leaves of a cursor: it still stands in its text, with no more unread tokens. -/
structure Remains (cursor after : Cursor) : Prop where
  valid : cursor.Valid → after.Valid
  unread : after.unread ≤ cursor.unread

/-- Nothing changes. -/
lemma Remains.refl (cursor : Cursor) : cursor.Remains cursor :=
  ⟨id, Nat.le_refl _⟩

/-- One run after another. -/
lemma Remains.trans (h : cursor.Remains after) (h' : after.Remains last) : cursor.Remains last :=
  ⟨h'.valid ∘ h.valid, Nat.le_trans h'.unread h.unread⟩

/-- Where no token can be pulled the error of the scan is met, and it is gone then. -/
lemma pull_eq_error (h : pull cursor = .error error after) :
    after = { cursor with failure := none } := by
  unfold pull at h
  split at h
  · cases h
  · cases h
    rfl
  · cases h

/-- Where the error of the scan is met, nothing else changes. -/
lemma remains_forget (cursor : Cursor) : cursor.Remains { cursor with failure := none } where
  valid := fun hv =>
    ⟨hv.isLexeme, hv.rest_kind, fun token hmem hend => ⟨(hv.reserve_end token hmem hend).1, rfl⟩,
      fun hend => ⟨(hv.current_end hend).1, rfl, (hv.current_end hend).2.2⟩⟩
  unread := Nat.le_refl _

/-- Looking ahead. -/
lemma remains_of_peek (h : peek cursor = .ok token after) : cursor.Remains after where
  valid := fun hv => hv.of_peek h
  unread := unread_of_peek h

/-- Looking ahead to where the scan fails. -/
lemma remains_of_peek_eq_error (h : peek cursor = .error error after) : cursor.Remains after := by
  unfold peek at h
  split at h
  · cases h
  · split at h
    · cases h
    · next hpull =>
      cases h
      rw [pull_eq_error hpull]
      exact cursor.remains_forget

/-- Moving on. -/
lemma remains_of_advance (h : advance cursor = .ok token after) : cursor.Remains after where
  valid := fun hv => (hv.advance_eq_ok h).2.1
  unread := unread_of_advance h

/-- Moving on to where the scan fails. -/
lemma remains_of_advance_eq_error (h : advance cursor = .error error after) :
    cursor.Remains after := by
  unfold advance at h
  split at h
  · cases h
  · split_ifs at h
    split at h
    · cases h
    · next hpull =>
      cases h
      rw [pull_eq_error hpull]
      exact cursor.remains_forget

end Cursor

/-! ### Readers -/

namespace Reader

/-- What a reader leaves of the cursor of a state. -/
def State.Remains (s s' : State) : Prop :=
  s.cursor.Remains s'.cursor

/-- No step puts tokens back or leaves its text. -/
lemma steps_remains : Steps State.Remains where
  refl := fun _ => .refl _
  trans := .trans
  peek := .onCursor Cursor.remains_of_peek Cursor.remains_of_peek_eq_error
  advance := .onCursor Cursor.remains_of_advance Cursor.remains_of_advance_eq_error
  note := fun _ _ => .refl _
  declare := fun _ _ => .refl _
  level := fun _ _ h => h

/-- No reader puts tokens back or leaves its text, whatever its outcome. -/
lemma remains_compositional : Compositional (Leads State.Remains) :=
  steps_remains.compositional

end Reader

namespace Assembly

open Reader (Leads)

/-- What a reader of domains leaves of its cursor. -/
def Remains (a a' : Assembly) : Prop :=
  a.cursor.Remains a'.cursor

/-- No reader of domains puts tokens back or leaves its text, whatever its outcome. -/
lemma remains_compositional : Compositional (Leads Reader.State.Remains) (Leads Remains) :=
  leads_compositional Reader.steps_remains

end Assembly

/-! ### Calls -/

namespace Call

variable {parser : Parser}

/-- No call puts tokens back or leaves its text, whatever its outcome. -/
lemma leads_remains (call : Call parser) : Reader.Leads Assembly.Remains call.run :=
  call.run_of_documentary Reader.remains_compositional.toDocumentary
    Assembly.remains_compositional

/-- Before and after the calls of a sequence the cursor stands in its text, and each call leaves no
more unread tokens than the one before. -/
lemma isChain_statesAfter (c : Reader.Context) (calls : List (Call parser)) :
    ∀ a : Assembly, a.cursor.Valid →
      (∀ b ∈ a :: statesAfter c calls a, b.cursor.Valid) ∧
        (a :: statesAfter c calls a).IsChain fun b b' => b'.cursor.unread ≤ b.cursor.unread := by
  induction calls with
  | nil => exact fun a ha => ⟨List.forall_mem_singleton.mpr ha, .singleton a⟩
  | cons call rest ih =>
    intro a ha
    have hcall := call.leads_remains c a
    obtain ⟨hall, hchain⟩ := ih _ (hcall.valid ha)
    exact ⟨List.forall_mem_cons.mpr ⟨ha, hall⟩, .cons_cons hcall.unread hchain⟩

/-- A parser at the start of a text stands in it before and after any calls. -/
lemma valid_statesAfter {text : String} {cursor : Cursor}
    (hcursor : Cursor.ofText text = .ok cursor) (c : Reader.Context) (calls : List (Call parser)) :
    ∀ a ∈ parser.start cursor :: statesAfter c calls (parser.start cursor), a.cursor.Valid := by
  refine (isChain_statesAfter c calls (parser.start cursor) ?_).1
  have hv := (Cursor.of_ofText hcursor).1
  cases parser <;> exact hv

end Call

end Pddl
