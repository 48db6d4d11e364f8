import Pddl.Proofs.Cursor

/-!
# What readers consume

`Consumes s tokens s'` says that a reader went from `s` to `s'` by consuming exactly `tokens`; the
nesting depth and the declared flags are as before.  Each reader of tokens, of repetitions and of
nested forms has one lemma here that says what it has consumed when it succeeds.  A repetition ends
at a token that fails its test (`readWhile_consumes`), because every round consumes a token and
there are as many rounds as tokens.
-/

namespace Pddl.Reader

/-- From `s` the reader consumed `tokens` and reached `s'`. -/
structure Consumes (s : State) (tokens : List Token) (s' : State) : Prop where
  valid : s'.cursor.Valid
  upcoming : s.cursor.upcoming = tokens ++ s'.cursor.upcoming
  failure : s'.cursor.failure = s.cursor.failure
  depth : s'.depth = s.depth
  requirements : s'.requirements = s.requirements

variable {α : Type} {c : Context} {s s' s'' : State} {ts us : List Token} {t : Token}

/-- A reader that stays where it is consumes nothing. -/
lemma Consumes.refl (hv : s.cursor.Valid) : Consumes s [] s :=
  ⟨hv, rfl, rfl, rfl, rfl⟩

/-- What two readers consume one after the other. -/
lemma Consumes.trans (h : Consumes s ts s') (h' : Consumes s' us s'') :
    Consumes s (ts ++ us) s'' where
  valid := h'.valid
  upcoming := by rw [h.upcoming, h'.upcoming, List.append_assoc]
  failure := h'.failure.trans h.failure
  depth := h'.depth.trans h.depth
  requirements := h'.requirements.trans h.requirements

/-- What a reader of one token and the reader after it consume. -/
lemma Consumes.cons (h : Consumes s [t] s') (h' : Consumes s' us s'') :
    Consumes s (t :: us) s'' :=
  h.trans h'

/-- What two readers consume of which the second consumes one token. -/
lemma Consumes.concat (h : Consumes s ts s') (h' : Consumes s' [t] s'') :
    Consumes s (ts ++ [t]) s'' :=
  h.trans h'

/-- What is consumed is in front of what is left, also word by word. -/
lemma Consumes.words (h : Consumes s ts s') :
    s.cursor.words = ts.map Token.word ++ s'.cursor.words := by
  rw [Cursor.words, h.upcoming, List.map_append]
  rfl

/-- Where nothing is left there is no error of the scan. -/
lemma Consumes.failure_of_words_eq_nil (h : Consumes s ts s') (hnil : s'.cursor.words = []) :
    s.cursor.failure = none := by
  have hatEnd : s'.cursor.current.kind = .endOfInput := by
    by_contra hne
    rw [Cursor.words, Cursor.upcoming_of_ne_end hne] at hnil
    cases hnil
  exact h.failure.symm.trans (h.valid.current_end hatEnd).2.1

/-- Consuming tokens leaves fewer of them. -/
lemma Consumes.unread (h : Consumes s ts s') :
    s.cursor.unread = ts.length + s'.cursor.unread := by
  rw [← Cursor.length_upcoming, ← Cursor.length_upcoming, h.upcoming, List.length_append]

/-! ### Single tokens -/

/-- Consuming a token of the text. -/
lemma advance_consumes (hv : s.cursor.Valid) (h : advance c s = .ok t s')
    (hkind : s.cursor.current.kind ≠ .endOfInput) :
    t = s.cursor.current ∧ Consumes s [t] s' := by
  obtain ⟨cursor, hstep, rfl⟩ := onCursor_eq_ok.mp h
  obtain ⟨rfl, hvalid, hfailure, hupcoming⟩ := hv.advance_eq_ok hstep
  exact ⟨rfl, hvalid, hupcoming hkind, hfailure, rfl, rfl⟩

/-- Looking at the next token changes nothing that can be told later.  What it shows is the second
unread token, unless there is none. -/
lemma peek_consumes (hv : s.cursor.Valid) (h : peek c s = .ok t s')
    (hkind : s.cursor.current.kind ≠ .endOfInput) :
    Consumes s [] s' ∧ s'.cursor.current = s.cursor.current ∧
      (t.kind ≠ .endOfInput → ∃ rest, s.cursor.upcoming = s.cursor.current :: t :: rest) ∧
      (t.kind = .endOfInput → s.cursor.upcoming = [s.cursor.current]) := by
  obtain ⟨cursor, hstep, rfl⟩ := onCursor_eq_ok.mp h
  obtain ⟨hvalid, hcurrent, hupcoming, hfailure, hnext⟩ := hv.peek_eq_ok hkind hstep
  refine ⟨⟨hvalid, hupcoming.symm, hfailure, rfl, rfl⟩, hcurrent, ?_, ?_⟩
  · intro hne
    rcases hnext with ⟨-, hrest⟩ | ⟨hend, -⟩
    · exact hrest
    · exact absurd hend hne
  · intro hend
    rcases hnext with ⟨hne, -⟩ | ⟨-, hone⟩
    · exact absurd hend hne
    · exact hone

/-- A token of an expected kind is moved past if it is the current one. -/
lemma expect_eq_ok {kind : Token.Kind} {expected : String} :
    expect kind expected c s = .ok t s' ↔
      s.cursor.current.kind = kind ∧ advance c s = .ok t s' := by
  rw [expect, bind_of_ok currentKind_run]
  split_ifs with hkind
  · simp [hkind]
  · simp [hkind]

/-- Consuming a token of an expected kind. -/
lemma expect_consumes {kind : Token.Kind} {expected : String} (hv : s.cursor.Valid)
    (h : expect kind expected c s = .ok t s') (hkind : kind ≠ .endOfInput) :
    t = s.cursor.current ∧ t.kind = kind ∧ Consumes s [t] s' := by
  obtain ⟨heq, hadvance⟩ := expect_eq_ok.mp h
  obtain ⟨rfl, hc⟩ := advance_consumes hv hadvance (heq ▸ hkind)
  exact ⟨rfl, heq, hc⟩

/-- Consuming the closing parenthesis of a form. -/
lemma closeForm_consumes {opener : Token} {reason : String} {u : Unit} (hv : s.cursor.Valid)
    (h : closeForm opener reason c s = .ok u s') :
    ∃ t, t.kind = .closeParen ∧ Consumes s [t] s' := by
  simp only [closeForm, bind_eq_ok, currentKind_eq_ok] at h
  obtain ⟨k, s₁, ⟨rfl, rfl⟩, h⟩ := h
  split_ifs at h with heq
  · simp only [bind_eq_ok, pure_eq_ok] at h
    obtain ⟨t, s₂, hadvance, -, rfl⟩ := h
    obtain ⟨rfl, hc⟩ := advance_consumes hv hadvance (by rw [heq]; decide)
    exact ⟨_, heq, hc⟩
  · exact absurd h (by simp)

/-! ### Reports -/

/-- A report succeeds under lenient settings, and leaves a warning. -/
lemma report_eq_ok {breach : Breach} {u : Unit} :
    report t breach c s = .ok u s' ↔
      c.settings.strictRequirements = false ∧
        s' = { s with log := s.log ++ [.warning t.line breach] } := by
  simp only [report, bind_eq_ok, read_eq_ok]
  constructor
  · rintro ⟨d, s₁, ⟨rfl, rfl⟩, h⟩
    split_ifs at h with hstrict
    · exact absurd h (by simp)
    · cases h
      exact ⟨Bool.not_eq_true _ ▸ hstrict, rfl⟩
  · rintro ⟨hlenient, rfl⟩
    exact ⟨c, s, ⟨rfl, rfl⟩, by rw [hlenient]; rfl⟩

/-- A report leaves the cursor, the depth and the flags alone. -/
lemma report_consumes {breach : Breach} {u : Unit} (hv : s.cursor.Valid)
    (h : report t breach c s = .ok u s') : s'.cursor = s.cursor ∧ Consumes s [] s' := by
  obtain ⟨-, rfl⟩ := report_eq_ok.mp h
  exact ⟨rfl, hv, rfl, rfl, rfl, rfl⟩

/-- Asking for a feature leaves the cursor, the depth and the flags alone. -/
lemma require_consumes {feature : Feature} {u : Unit} (hv : s.cursor.Valid)
    (h : require t feature c s = .ok u s') : s'.cursor = s.cursor ∧ Consumes s [] s' := by
  simp only [require, bind_eq_ok, get_eq_ok, read_eq_ok] at h
  obtain ⟨d, s₁, ⟨rfl, rfl⟩, e, s₂, ⟨rfl, rfl⟩, h⟩ := h
  split_ifs at h
  · exact report_consumes hv h
  · obtain ⟨-, rfl⟩ := pure_eq_ok.mp h
    exact ⟨rfl, .refl hv⟩

/-! ### Repetition -/

/-- Items that have parts have together at least as many parts as there are items. -/
lemma length_le_flatMap {β : Type} {spell : α → List β} {as : List α}
    (h : ∀ a ∈ as, spell a ≠ []) : as.length ≤ (as.flatMap spell).length := by
  induction as with
  | nil => exact Nat.le_refl _
  | cons a as ih =>
    have hpos := List.length_pos_iff.mpr (h a List.mem_cons_self)
    have := ih fun b hb => h b (List.mem_cons_of_mem _ hb)
    rw [List.flatMap_cons, List.length_append, List.length_cons]
    omega

/-- Items that are read one after the other have consumed their parts, one after the other. -/
lemma ReadsItems.consumes {test : Token → Bool} {item : ReadM α} {P : α → List Token → Prop}
    (hitem : ∀ s a s', s.cursor.Valid → test s.cursor.current = true → item c s = .ok a s' →
      ∃ ts, Consumes s ts s' ∧ ts ≠ [] ∧ P a ts) {as : List α} (hv : s.cursor.Valid)
    (h : ReadsItems c test item as s s') :
    ∃ parts : List (α × List Token), as = parts.map Prod.fst ∧
      (∀ p ∈ parts, p.2 ≠ [] ∧ P p.1 p.2) ∧ Consumes s (parts.flatMap Prod.snd) s' := by
  induction h with
  | nil s => exact ⟨[], rfl, by simp, .refl hv⟩
  | cons htest ha _ ih =>
    obtain ⟨ts, hc, hne, hP⟩ := hitem _ _ _ hv htest ha
    obtain ⟨parts, rfl, hparts, hc'⟩ := ih hc.valid
    exact ⟨(_, ts) :: parts, rfl, List.forall_mem_cons.mpr ⟨⟨hne, hP⟩, hparts⟩, hc.trans hc'⟩

/-- A repetition of a reader that consumes tokens ends at a token that fails the test; it has
consumed what its rounds have consumed. -/
lemma readWhile_consumes {test : Token → Bool} {item : ReadM α} {P : α → List Token → Prop}
    (hitem : ∀ s a s', s.cursor.Valid → test s.cursor.current = true → item c s = .ok a s' →
      ∃ ts, Consumes s ts s' ∧ ts ≠ [] ∧ P a ts) {as : List α}
    (hv : s.cursor.Valid) (h : readWhile test item c s = .ok as s') :
    ∃ parts : List (α × List Token), as = parts.map Prod.fst ∧ (∀ p ∈ parts, P p.1 p.2) ∧
      Consumes s (parts.flatMap Prod.snd) s' ∧ test s'.cursor.current = false := by
  obtain ⟨hitems, hstop⟩ := readWhile_readsItems h
  obtain ⟨parts, rfl, hparts, hc⟩ := hitems.consumes hitem hv
  refine ⟨parts, rfl, fun p hp => (hparts p hp).2, hc, hstop ?_⟩
  -- Every item has consumed a token, so there are no more items than tokens.
  have hlength := length_le_flatMap fun p hp => (hparts p hp).1
  have hunread := hc.unread
  rw [List.length_map]
  omega

/-- A repetition of a reader that consumes one token and makes a value of it consumes the tokens up
to one that fails the test. -/
lemma readWhile_tokens {test : Token → Bool} {item : ReadM α} {value : Token → α}
    (hitem : ∀ s a s', s.cursor.Valid → test s.cursor.current = true → item c s = .ok a s' →
      a = value s.cursor.current ∧ Consumes s [s.cursor.current] s') {as : List α}
    (hv : s.cursor.Valid) (h : readWhile test item c s = .ok as s') :
    ∃ ts, as = ts.map value ∧ (∀ t ∈ ts, test t = true) ∧ Consumes s ts s' ∧
      test s'.cursor.current = false := by
  have hone : ∀ s a s', s.cursor.Valid → test s.cursor.current = true → item c s = .ok a s' →
      ∃ ts, Consumes s ts s' ∧ ts ≠ [] ∧ ∃ t, ts = [t] ∧ a = value t ∧ test t = true := by
    intro s a s' hv hcurrent h
    obtain ⟨ha, hc⟩ := hitem s a s' hv hcurrent h
    exact ⟨_, hc, by simp, _, rfl, ha, hcurrent⟩
  obtain ⟨parts, rfl, hparts, hc, hstop⟩ := readWhile_consumes hone hv h
  have hmap : parts.map Prod.fst = (parts.flatMap Prod.snd).map value := by
    clear hc hstop h
    induction parts with
    | nil => rfl
    | cons p rest ih =>
      obtain ⟨t, hts, ha, -⟩ := hparts p List.mem_cons_self
      have := ih fun q hq => hparts q (List.mem_cons_of_mem _ hq)
      simp [hts, ha, this]
  refine ⟨parts.flatMap Prod.snd, hmap, ?_, hc, hstop⟩
  intro t ht
  obtain ⟨p, hp, htp⟩ := List.mem_flatMap.mp ht
  obtain ⟨u, hts, -, hu⟩ := hparts p hp
  rw [hts, List.mem_singleton] at htp
  exact htp ▸ hu

/-- Reading texts consumes the tokens that have them, up to one that fails the test. -/
lemma textsWhile_consumes {test : Token → Bool}
    (htest : ∀ t, test t = true → t.kind ≠ .endOfInput) {texts : List String}
    (hv : s.cursor.Valid) (h : textsWhile test c s = .ok texts s') :
    ∃ ts, texts = ts.map Token.text ∧ (∀ t ∈ ts, test t = true) ∧ Consumes s ts s' ∧
      test s'.cursor.current = false := by
  refine readWhile_tokens (fun s a s' hv hcurrent h => ?_) hv h
  simp only [bind_eq_ok, pure_eq_ok] at h
  obtain ⟨t, s₁, h, rfl, rfl⟩ := h
  obtain ⟨rfl, hc⟩ := advance_consumes hv h (htest _ hcurrent)
  exact ⟨rfl, hc⟩

/-! ### Nesting -/

/-- The check of the depth changes nothing and succeeds within the limit. -/
lemma checkDepth_eq_ok {u : Unit} :
    checkDepth c s = .ok u s' ↔
      (∀ limit ∈ c.settings.maxNestingDepth, s.depth ≤ limit) ∧ s = s' := by
  simp only [checkDepth, bind_eq_ok, read_eq_ok]
  cases hlimit : c.settings.maxNestingDepth with
  | none => simp [hlimit]
  | some limit =>
    constructor
    · rintro ⟨d, s₁, ⟨rfl, rfl⟩, h⟩
      simp only [hlimit, bind_eq_ok, get_eq_ok] at h
      obtain ⟨t, s₂, ⟨rfl, rfl⟩, h⟩ := h
      split_ifs at h with hlt
      · exact absurd h (by simp)
      · obtain ⟨-, rfl⟩ := pure_eq_ok.mp h
        refine ⟨?_, rfl⟩
        rintro _ ⟨⟩
        omega
    · rintro ⟨hle, rfl⟩
      refine ⟨c, s, ⟨rfl, rfl⟩, ?_⟩
      have := hle limit rfl
      simp only [hlimit, bind_eq_ok, get_eq_ok]
      exact ⟨s, s, ⟨rfl, rfl⟩, by rw [if_neg (by omega), pure_eq_ok]; exact ⟨rfl, rfl⟩⟩

/-- The state one level deeper. -/
def State.deeper (s : State) : State :=
  { s with depth := s.depth + 1 }

/-- The state one level higher. -/
def State.higher (s : State) : State :=
  { s with depth := s.depth - 1 }

/-- Reading one level deeper succeeds if there is room for the level and the body succeeds on it. -/
lemma nested_eq_ok {body : ReadM α} {a : α} :
    nested body c s = .ok a s' ↔
      (∀ limit ∈ c.settings.maxNestingDepth, s.depth + 1 ≤ limit) ∧
        ∃ s₁, body c s.deeper = .ok a s₁ ∧ s' = s₁.higher := by
  unfold nested
  constructor
  · intro h
    cases hbody : (do checkDepth; body : ReadM α) c { s with depth := s.depth + 1 } with
    | error failure s₁ =>
      simp only [hbody] at h
      cases h
    | ok b s₁ =>
      simp only [hbody, EStateM.Result.ok.injEq] at h
      obtain ⟨rfl, rfl⟩ := h
      simp only [bind_eq_ok, checkDepth_eq_ok] at hbody
      obtain ⟨-, s₂, ⟨hlimit, rfl⟩, hbody⟩ := hbody
      exact ⟨hlimit, s₁, hbody, rfl⟩
  · rintro ⟨hlimit, s₁, hbody, rfl⟩
    have hrun : (do checkDepth; body : ReadM α) c { s with depth := s.depth + 1 } = .ok a s₁ :=
      bind_eq_ok.mpr ⟨(), _, checkDepth_eq_ok.mpr ⟨hlimit, rfl⟩, hbody⟩
    simp only [hrun]
    rfl

/-- What is consumed one level deeper is consumed. -/
lemma Consumes.of_nested (h : Consumes s.deeper ts s') : Consumes s ts s'.higher where
  valid := h.valid
  upcoming := h.upcoming
  failure := h.failure
  depth := by
    have hdepth : s'.depth = s.depth + 1 := h.depth
    simp [State.higher, hdepth]
  requirements := h.requirements

/-- A state one level deeper has the same cursor. -/
lemma State.deeper_valid (hv : s.cursor.Valid) : s.deeper.cursor.Valid := hv

end Pddl.Reader
