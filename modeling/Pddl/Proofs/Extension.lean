import Pddl.Proofs.Comparison

/-!
# Readers do not look behind what they read

When more tokens come behind the last one, a reader that has not met the end of the input does what
it does without them, and leaves them.  So a run can be compared with the run from the extended
state (`extension`), and all readers of documents go alike in both.
-/

namespace Pddl

/-! ### Cursors with more tokens -/

namespace Cursor

/-- The cursor with more tokens behind the last one, and with the input ending at the offset. -/
def extend (cursor : Cursor) (more : List Token) (endOffset : Nat) : Cursor :=
  { cursor with rest := cursor.rest ++ more, endOffset := endOffset }

/-- The cursor has not met the end of the input. -/
structure Open (cursor : Cursor) : Prop where
  current : cursor.current.kind ≠ .endOfInput
  reserve : ∀ token ∈ cursor.reserve, token.kind ≠ .endOfInput

variable {cursor after : Cursor} {token : Token}

/-- Pulling a token that is not the end of the input. -/
lemma pull_extend (h : pull cursor = .ok token after) (htoken : token.kind ≠ .endOfInput)
    (more : List Token) (endOffset : Nat) :
    pull (cursor.extend more endOffset) = .ok token (after.extend more endOffset) := by
  rcases pull_eq_ok.mp h with ⟨hrest, hafter⟩ | ⟨-, -, rfl, -⟩
  · refine pull_eq_ok.mpr (Or.inl ⟨?_, ?_⟩)
    · rw [extend, hrest]
      rfl
    · rw [hafter]
      rfl
  · exact absurd rfl htoken

/-- Looking ahead at a token that is not the end of the input. -/
lemma peek_extend (h : peek cursor = .ok token after) (hopen : after.Open) :
    cursor.Open ∧ ∀ more endOffset,
      peek (cursor.extend more endOffset) = .ok token (after.extend more endOffset) := by
  rcases peek_cases.mp h with ⟨hreserve, rfl⟩ | ⟨hreserve, pulled, hpull, rfl⟩
  · exact ⟨hopen, fun _ _ => peek_cases.mpr (Or.inl ⟨hreserve, rfl⟩)⟩
  · obtain ⟨hcurrent, -, -⟩ := length_of_pull hpull
    refine ⟨⟨hcurrent ▸ hopen.current, by simp [hreserve]⟩, fun more endOffset => ?_⟩
    have hpulled := pull_extend hpull (hopen.reserve token rfl) more endOffset
    exact peek_cases.mpr (Or.inr ⟨hreserve, _, hpulled, rfl⟩)

/-- Moving on to a token that is not the end of the input. -/
lemma advance_extend (hv : cursor.Valid) (h : advance cursor = .ok token after)
    (hopen : after.Open) :
    cursor.Open ∧ ∀ more endOffset,
      advance (cursor.extend more endOffset) = .ok token (after.extend more endOffset) := by
  obtain ⟨rfl, ⟨next, hreserve, rfl⟩ | ⟨hreserve, hend, rfl⟩ |
    ⟨hreserve, hne, next, pulled, hpull, rfl⟩⟩ := advance_cases.mp h
  · refine ⟨⟨fun hend => ?_, fun token htoken => ?_⟩, fun _ _ => ?_⟩
    · exact hopen.current ((hv.current_end hend).2.2 next hreserve)
    · obtain rfl := Option.some.inj (hreserve.symm.trans htoken)
      exact hopen.current
    · exact advance_cases.mpr ⟨rfl, Or.inl ⟨next, hreserve, rfl⟩⟩
  · exact absurd hend hopen.current
  · refine ⟨⟨hne, by simp [hreserve]⟩, fun more endOffset => ?_⟩
    have hpulled := pull_extend hpull hopen.current more endOffset
    exact advance_cases.mpr ⟨rfl, Or.inr (Or.inr ⟨hreserve, hne, next, _, hpulled, rfl⟩)⟩

/-- A cursor that has not met the end of the input is valid with more lexemes behind the last
one. -/
lemma Valid.extend (hv : cursor.Valid) (hopen : cursor.Open) {more : List Token}
    (hmore : ∀ token ∈ more, token.word.IsLexeme) (endOffset : Nat) :
    (cursor.extend more endOffset).Valid where
  isLexeme := by
    intro token htoken
    have hupcoming : (cursor.extend more endOffset).upcoming = cursor.upcoming ++ more :=
      (List.append_assoc _ _ _).symm
    rw [hupcoming, List.mem_append] at htoken
    exact htoken.elim (hv.isLexeme token) (hmore token)
  rest_kind := by
    intro token htoken
    rcases List.mem_append.mp htoken with htoken | htoken
    · exact hv.rest_kind token htoken
    · exact kind_ne_end_of_isLexeme (hmore token htoken)
  reserve_end := fun token htoken hend => absurd hend (hopen.reserve token htoken)
  current_end := fun hend => absurd hend hopen.current

end Cursor

/-- The state with more tokens behind the last one. -/
def Reader.State.extend (state : State) (more : List Token) (endOffset : Nat) : State :=
  { state with cursor := state.cursor.extend more endOffset }

/-- The state of a reader of a domain with more tokens behind the last one. -/
def Assembly.extend (assembly : Assembly) (more : List Token) (endOffset : Nat) : Assembly :=
  { assembly with toState := assembly.toState.extend more endOffset }

/-! ### Readers that do not look behind -/

namespace Reader

/-- Runs that do not meet the end of the input are compared with runs in which more tokens come
behind the last one. -/
def State.extension (more : List Token) (endOffset : Nat) : Comparison State where
  cursor := State.cursor
  admits := fun c => c.capacity ≠ none
  keeps := fun _ _ => True
  within := fun s => s.cursor.Open
  alike := fun s t => t = s.extend more endOffset
  keeps_refl := fun _ => True.intro
  keeps_trans := fun _ _ => True.intro

variable {more : List Token} {endOffset : Nat}

/-- A step of the cursor. -/
lemma follows_extension_onCursor {α : Type} {step : CursorM α}
    (hshrinks : Shrinks State.cursor (onCursor step))
    (hstep : ∀ cursor a after, cursor.Valid → step cursor = .ok a after → after.Open →
      cursor.Open ∧ ∀ more endOffset,
        step (cursor.extend more endOffset) = .ok a (after.extend more endOffset)) :
    Mirrors (State.extension more endOffset) (onCursor step) where
  shrinks := hshrinks
  run := by
    intro c s a s' _ hv h
    obtain ⟨cursor, hrun, rfl⟩ := onCursor_eq_ok.mp h
    refine ⟨True.intro, fun hopen => ?_⟩
    obtain ⟨hopen₀, hrun'⟩ := hstep s.cursor a cursor hv hrun hopen
    refine ⟨hopen₀, ?_⟩
    rintro t - rfl
    exact ⟨_, onCursor_eq_ok.mpr ⟨_, hrun' more endOffset, rfl⟩, rfl⟩

/-- All readers of documents leave alone what comes behind the last token. -/
lemma extends_compositional (more : List Token) (endOffset : Nat) :
    Compositional (Mirrors (State.extension more endOffset)) where
  pure := .pure
  bind := .bind
  get := by
    intro α f hsame hf
    refine ⟨shrinks_compositional.get hsame fun s => (hf s).shrinks, ?_⟩
    intro c s a s' hc hv h
    refine ⟨True.intro, fun hopen => ?_⟩
    obtain ⟨hopen₀, hrun⟩ := ((hf s).run c s a s' hc hv h).2 hopen
    refine ⟨hopen₀, ?_⟩
    rintro t ht rfl
    change ∃ t', f (s.extend more endOffset) c (s.extend more endOffset) = _ ∧ _
    rw [hsame (s.extend more endOffset) s rfl rfl]
    exact hrun _ ht rfl
  read := fun hstrict hlimit hcapacity hf =>
    ⟨shrinks_compositional.read hstrict hlimit hcapacity fun c => (hf c).shrinks,
      fun c s a s' hc hv h => (hf c).run c s a s' hc hv h⟩
  rounds := fun hcounted hloop => .loop hcounted.sufficient hloop
  budget := by
    refine .of_run shrinks_compositional.budget fun c s n s' hcapacity h => ?_
    obtain ⟨capacity, hsome⟩ := Option.ne_none_iff_exists'.mp hcapacity
    have hbudget (t : State) : budget c t = .ok capacity t := by
      rw [budget_eq, hsome, Option.getD_some]
    rw [hbudget] at h
    cases h
    refine ⟨True.intro, id, ?_⟩
    rintro t rfl
    exact ⟨_, hbudget _, rfl⟩
  raise := .throw
  peek := follows_extension_onCursor shrinks_compositional.peek fun _ _ _ _ h hopen =>
    Cursor.peek_extend h hopen
  advance := follows_extension_onCursor shrinks_compositional.advance fun _ _ _ hv h hopen =>
    Cursor.advance_extend hv h hopen
  report := by
    intro token breach
    refine .of_run (shrinks_compositional.report token breach) fun c s u s' _ h => ?_
    obtain ⟨hlenient, rfl⟩ := report_eq_ok.mp h
    refine ⟨True.intro, id, ?_⟩
    rintro t rfl
    exact ⟨_, report_eq_ok.mpr ⟨hlenient, rfl⟩, rfl⟩
  note := by
    intro notice hlevel
    refine .of_run (shrinks_compositional.note notice hlevel) fun c s u s' _ h => ?_
    cases h
    refine ⟨True.intro, id, ?_⟩
    rintro t rfl
    exact ⟨_, rfl, rfl⟩
  declare := by
    intro flags
    refine .of_run (shrinks_compositional.declare flags) fun c s u s' _ h => ?_
    cases h
    refine ⟨True.intro, id, ?_⟩
    rintro t rfl
    exact ⟨_, rfl, rfl⟩
  nested := by
    intro α body hbody
    refine ⟨shrinks_compositional.nested hbody.shrinks, ?_⟩
    intro c s a s' hc hv h
    obtain ⟨hlimit, s₁, hrun, rfl⟩ := nested_eq_ok.mp h
    refine ⟨True.intro, fun hopen => ?_⟩
    obtain ⟨hopen₀, hrun'⟩ := (hbody.run c s.deeper a s₁ hc hv hrun).2 hopen
    refine ⟨hopen₀, ?_⟩
    rintro t ht rfl
    obtain ⟨_, hbody', rfl⟩ := hrun' (s.deeper.extend more endOffset) ht rfl
    exact ⟨_, nested_eq_ok.mpr ⟨hlimit, _, hbody', rfl⟩, rfl⟩

end Reader

namespace Assembly

open Reader (Comparison Mirrors)

/-- Runs of readers of domains that do not meet the end of the input are compared with runs in which
more tokens come behind the last one. -/
def extension (more : List Token) (endOffset : Nat) : Comparison Assembly where
  cursor := standpoint
  admits := fun c => c.capacity ≠ none
  keeps := fun _ _ => True
  within := fun a => a.cursor.Open
  alike := fun a b => b = a.extend more endOffset
  keeps_refl := fun _ => True.intro
  keeps_trans := fun _ _ => True.intro

variable {more : List Token} {endOffset : Nat}

/-- A reader that leaves the declarations alone. -/
lemma extends_ofReader {α : Type} {m : ReadM α}
    (hm : Mirrors (Reader.State.extension more endOffset) m) :
    Mirrors (extension more endOffset) (ofReader m) where
  shrinks := shrinks_ofReader hm.shrinks
  run := by
    intro c a x a' hc hv h
    obtain ⟨s', hrun, rfl⟩ := ofReader_eq_ok.mp h
    refine ⟨True.intro, fun hopen => ?_⟩
    obtain ⟨hopen₀, hrun'⟩ := (hm.run c a.toState x s' hc hv hrun).2 hopen
    refine ⟨hopen₀, ?_⟩
    rintro b hb rfl
    obtain ⟨_, hextended, rfl⟩ := hrun' (a.toState.extend more endOffset) hb rfl
    exact ⟨_, ofReader_eq_ok.mpr ⟨_, hextended, rfl⟩, rfl⟩

/-- All readers of domains leave alone what comes behind the last token. -/
lemma extends_compositional (more : List Token) (endOffset : Nat) :
    Compositional (Mirrors (Reader.State.extension more endOffset))
      (Mirrors (extension more endOffset)) where
  pure := .pure
  bind := .bind
  throw := fun _ => .throw _
  ofReader := extends_ofReader
  rounds := fun hcounted hloop => .loop hcounted.sufficient hloop
  declare := by
    intro change
    refine .of_run (shrinks_compositional.declare change) fun c a u a' _ h => ?_
    cases h
    refine ⟨True.intro, id, ?_⟩
    rintro b rfl
    exact ⟨_, rfl, rfl⟩
  declared? := by
    refine .of_run shrinks_compositional.declared? fun c a x a' _ h => ?_
    cases h
    refine ⟨True.intro, id, ?_⟩
    rintro b rfl
    exact ⟨_, rfl, rfl⟩

end Assembly

end Pddl
