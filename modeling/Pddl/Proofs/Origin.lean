import Pddl.Proofs.Consumption
import Pddl.Proofs.Strictness
import Pddl.Proofs.TokenStream

/-!
# Where failures come from

While a text is read, the cursor stands before a final part of its tokens (`StandsBefore`).  A
reader that starts there leaves the cursor before a final part of these tokens, or fails; and if it
fails, the text shows why (`Failure.Arises`): the scan fails, or there is a token that does not fit
or cannot be converted, or the text ends too early.  `TracesFrom` says so of a reader at one place,
and `Traces` of a reader at all places.  Both pass through sequences, so that what is to be shown of
a reader has to be shown of its parts.
-/

namespace Pddl

/-! ### Standing in a text -/

/-- The token is one of a text, or the one that marks its end. -/
def Token.IsKnown (text : String) (token : Token) : Prop :=
  token ∈ (scan text).tokens ∨ token = Token.atEnd text.toList.length

namespace Token.IsKnown

variable {text : String} {token : Token}

/-- A known token that is not the end of the input is one of the text. -/
lemma mem (h : token.IsKnown text) (hkind : token.kind ≠ .endOfInput) :
    token ∈ (scan text).tokens := by
  rcases h with hmem | rfl
  · exact hmem
  · exact absurd rfl hkind

/-- A known token that is spelled with characters is one of the text. -/
lemma mem_of_text (h : token.IsKnown text) (htext : token.text ≠ "") :
    token ∈ (scan text).tokens := by
  rcases h with hmem | rfl
  · exact hmem
  · exact absurd rfl htext

end Token.IsKnown

/-- The token that is shown before the last tokens of a text. -/
def front (text : String) (tokens : List Token) : Token :=
  tokens.headD (Token.atEnd text.toList.length)

namespace Cursor

/-- The tokens before which a cursor stands are those that it has not consumed. -/
lemma Holds.upcoming {cursor : Cursor} {tokens : List Token} (h : cursor.Holds tokens) :
    cursor.upcoming = tokens := by
  have hkind := h.kind_ne
  cases tokens with
  | nil =>
    have hend : cursor.current.kind = .endOfInput := h.atEnd_iff.mpr rfl
    rcases h.ahead with ⟨hreserve, hrest⟩ | ⟨hreserve, hrest⟩
    · simp [Cursor.upcoming, met, hend, hreserve, hrest]
    · simp [Cursor.upcoming, met, hend, hreserve, hrest, Token.atEnd]
  | cons token rest =>
    have hcurrent : cursor.current = token := h.current
    have htoken := hkind token List.mem_cons_self
    rcases h.ahead with ⟨hreserve, hrest⟩ | ⟨hreserve, hrest⟩
    · simp [Cursor.upcoming, met, hcurrent, htoken, hreserve, hrest]
    · cases rest with
      | nil => simp [Cursor.upcoming, met, hcurrent, htoken, hreserve, hrest, Token.atEnd]
      | cons next more =>
        have hnext := hkind next (List.mem_cons_of_mem _ List.mem_cons_self)
        simp [Cursor.upcoming, met, hcurrent, htoken, hreserve, hrest, hnext]

/-- A cursor before lexemes is valid. -/
lemma Holds.valid {cursor : Cursor} {tokens : List Token} (h : cursor.Holds tokens)
    (hlexeme : ∀ token ∈ tokens, token.word.IsLexeme) : cursor.Valid where
  isLexeme := by rwa [h.upcoming]
  rest_kind := by
    intro token hmem
    apply h.kind_ne
    rcases h.ahead with ⟨-, hrest⟩ | ⟨-, hrest⟩
    · rw [hrest] at hmem
      exact List.mem_of_mem_tail hmem
    · rw [hrest] at hmem
      exact List.mem_of_mem_tail (List.mem_of_mem_tail hmem)
  reserve_end := by
    intro token hmem hend
    rcases h.ahead with ⟨hreserve, -⟩ | ⟨hreserve, hrest⟩
    · rw [hreserve] at hmem
      cases hmem
    · have htail : tokens.tail = [] := by
        cases htail : tokens.tail with
        | nil => rfl
        | cons next more =>
          rw [hreserve, htail] at hmem
          cases hmem
          exact absurd hend (h.kind_ne next (List.mem_of_mem_tail (htail ▸ List.mem_cons_self)))
      refine ⟨by rw [hrest, htail]; rfl, ?_⟩
      by_contra hpending
      exact (h.pending hpending).2 (by rw [hreserve]; exact Option.some_ne_none _) htail
  current_end := by
    intro hend
    obtain rfl : tokens = [] := h.atEnd_iff.mp hend
    refine ⟨?_, h.failure_of_nil, ?_⟩
    · rcases h.ahead with ⟨-, hrest⟩ | ⟨-, hrest⟩
      · exact hrest
      · exact hrest
    · intro token hmem
      rcases h.ahead with ⟨hreserve, -⟩ | ⟨hreserve, -⟩
      · rw [hreserve] at hmem
        cases hmem
      · rw [hreserve] at hmem
        cases hmem
        rfl

/-- The cursor stands before the last tokens of a text, and the error that ends the scan of the text
is still to come. -/
structure StandsBefore (text : String) (tokens : List Token) (cursor : Cursor) : Prop where
  suffix : tokens <:+ (scan text).tokens
  holds : cursor.Holds tokens
  failure : cursor.failure = (scan text).failure
  endOffset : cursor.endOffset = text.toList.length

namespace StandsBefore

variable {text : String} {tokens : List Token} {cursor : Cursor}

/-- The cursor of a text stands before all of its tokens. -/
lemma of_ofText (h : ofText text = .ok cursor) : cursor.StandsBefore text (scan text).tokens := by
  obtain ⟨hholds, hfailure, hend⟩ := holds_of_ofText h
  exact ⟨List.suffix_rfl, hholds, hfailure, hend⟩

/-- The current token is the first of those before which the cursor stands. -/
lemma current (h : cursor.StandsBefore text tokens) : cursor.current = front text tokens := by
  rw [h.holds.current, h.endOffset]
  rfl

/-- The first token is one of the text or marks its end. -/
lemma isKnown_front (h : cursor.StandsBefore text tokens) : (front text tokens).IsKnown text := by
  cases tokens with
  | nil => exact Or.inr rfl
  | cons token rest => exact Or.inl (h.suffix.subset List.mem_cons_self)

/-- Before no tokens, the whole text has been scanned without an error. -/
lemma failure_of_nil (h : cursor.StandsBefore text []) : (scan text).failure = none := by
  rw [← h.failure]
  exact h.holds.failure_of_nil

/-- The end of the input is shown only before no tokens. -/
lemma eq_nil (h : cursor.StandsBefore text tokens)
    (hend : (front text tokens).kind = .endOfInput) : tokens = [] := by
  rw [← h.current] at hend
  exact h.holds.atEnd_iff.mp hend

/-- A cursor in a text is valid. -/
lemma valid (h : cursor.StandsBefore text tokens) : cursor.Valid :=
  h.holds.valid fun _ hmem => Scan.isLexeme_of_mem_run (h.suffix.subset hmem)

/-- There are as many unread tokens as the cursor stands before. -/
lemma unread (h : cursor.StandsBefore text tokens) : cursor.unread = tokens.length := by
  rw [← length_upcoming, h.holds.upcoming]

/-- A call on the cursor succeeds as on the list of the tokens, or meets the error of the scan. -/
lemma respond (h : cursor.StandsBefore text tokens) (call : Call) :
    (∃ after, cursor.respond call =
        (.ok (call.shown (Token.atEnd text.toList.length) tokens), after) ∧
      after.StandsBefore text (call.left tokens)) ∨
    ∃ error after, cursor.respond call = (.error error, after) ∧
      (scan text).failure = some error := by
  by_cases hlast : tokens.tail = [] → cursor.failure = none
  · obtain ⟨after, hrespond, hholds, hfailure, hend⟩ := h.holds.respond_ok hlast call
    rw [h.endOffset] at hrespond hend
    have hleft : call.left tokens <:+ tokens := by
      cases call with
      | peek => exact List.suffix_rfl
      | advance => exact List.tail_suffix tokens
    exact Or.inl ⟨after, hrespond, hleft.trans h.suffix, hholds, hfailure.trans h.failure, hend⟩
  · push Not at hlast
    obtain ⟨htail, hfailure⟩ := hlast
    obtain ⟨error, herror⟩ := Option.ne_none_iff_exists'.mp hfailure
    exact Or.inr ⟨error, _, h.holds.respond_error htail herror call, h.failure.symm.trans herror⟩

end StandsBefore

end Cursor

/-! ### Failures that a text accounts for -/

/-- The failures that the tokens of a text account for, and the `other` ones of the checks that a
kind of document adds. -/
inductive Failure.Arises (text : String) (other : Failure → Prop) : Failure → Prop
  | lexical {error : LexError} : (scan text).failure = some error →
      Arises text other (.lexical error)
  | found {token : Token} (expected : String) (cause : Cause) : token ∈ (scan text).tokens →
      Arises text other (.grammar (.atToken token expected cause))
  | ended (expected : String) (cause : Cause) : (scan text).failure = none →
      Arises text other (.grammar ⟨expected, none, text.toList.length, cause⟩)
  | tooLong {token : Token} : token ∈ (scan text).tokens → token.kind = .number →
      Number.ofText? token.text = none → Arises text other .integerTooLong
  | other {failure : Failure} : other failure → Arises text other failure

namespace Reader

/-- A run yields a value and leaves a state that meet `Q`, or fails with a failure that meets
`F`. -/
def Ends {σ α : Type} (F : Failure → Prop) (Q : α → σ → Prop) :
    EStateM.Result Failure σ α → Prop
  | .ok a s => Q a s
  | .error failure _ => F failure

/-- A sequence ends well if its second part does from wherever the first part ends. -/
lemma Ends.bind {σ α β : Type} {F : Failure → Prop} {Q : α → σ → Prop} {R : β → σ → Prop}
    {m : ReaderT Context (EStateM Failure σ) α} {f : α → ReaderT Context (EStateM Failure σ) β}
    {c : Context} {s : σ} (hm : Ends F Q (m c s)) (hf : ∀ a s', Q a s' → Ends F R (f a c s')) :
    Ends F R ((m >>= f) c s) := by
  cases hrun : m c s with
  | ok a s' =>
    rw [hrun] at hm
    rw [bind_of_ok hrun]
    exact hf a s' hm
  | error failure s' =>
    rw [hrun] at hm
    rw [bind_of_error hrun]
    exact hm

/-- What holds after a run, weakened. -/
lemma Ends.mono {σ α : Type} {F : Failure → Prop} {Q R : α → σ → Prop}
    {outcome : EStateM.Result Failure σ α} (h : Ends F Q outcome) (hQ : ∀ a s, Q a s → R a s) :
    Ends F R outcome := by
  cases outcome with
  | ok a s => exact hQ a s h
  | error failure s => exact h

/-- A run whose last state is changed afterwards. -/
lemma Ends.mapState {σ τ α : Type} {F : Failure → Prop} {Q : α → τ → Prop} {change : σ → τ}
    {outcome : EStateM.Result Failure σ α} (h : Ends F (fun a s => Q a (change s)) outcome) :
    Ends F Q (mapState change outcome) := by
  cases outcome with
  | ok a s => exact h
  | error failure s => exact h

variable {text : String} {other : Failure → Prop}

/-- Before the given tokens of a text, the reader fails as the text or an `other` check accounts
for, or yields a value and goes on before some last ones of the tokens, which meet `Q`. -/
def TracesFrom {α : Type} (text : String) (other : Failure → Prop) (tokens : List Token)
    (m : ReadM α) (Q : α → List Token → Prop) : Prop :=
  ∀ c s, s.cursor.StandsBefore text tokens → Ends (Failure.Arises text other)
    (fun a s' => ∃ rest, rest <:+ tokens ∧ s'.cursor.StandsBefore text rest ∧ Q a rest) (m c s)

/-- Anywhere in a text, the reader fails as the text or an `other` check accounts for, or yields a
value that meets `K`. -/
def Traces {α : Type} (text : String) (other : Failure → Prop) (m : ReadM α) (K : α → Prop) :
    Prop :=
  ∀ tokens, TracesFrom text other tokens m fun a _ => K a

section Rules

variable {α β : Type} {tokens : List Token}

/-- Returning a value stays in place. -/
lemma TracesFrom.pure {a : α} {Q : α → List Token → Prop} (h : Q a tokens) :
    TracesFrom text other tokens (pure a) Q :=
  fun _ _ hs => ⟨tokens, List.suffix_rfl, hs, h⟩

/-- Failing with a failure that is accounted for. -/
lemma TracesFrom.throw {failure : Failure} {Q : α → List Token → Prop}
    (h : failure.Arises text other) : TracesFrom text other tokens (throw failure) Q :=
  fun _ _ _ => h

/-- A sequence goes on where its first part stops. -/
lemma TracesFrom.bind {m : ReadM α} {f : α → ReadM β} {Q : α → List Token → Prop}
    {R : β → List Token → Prop} (hm : TracesFrom text other tokens m Q)
    (hf : ∀ a rest, rest <:+ tokens → Q a rest → TracesFrom text other rest (f a) R) :
    TracesFrom text other tokens (m >>= f) R := by
  intro c s hs
  refine (hm c s hs).bind ?_
  rintro a s' ⟨rest, hrest, hs', ha⟩
  refine (hf a rest hrest ha c s' hs').mono ?_
  rintro b s'' ⟨rest', hrest', hs'', hb⟩
  exact ⟨rest', hrest'.trans hrest, hs'', hb⟩

/-- What holds after a reader, weakened. -/
lemma TracesFrom.mono {m : ReadM α} {Q R : α → List Token → Prop}
    (h : TracesFrom text other tokens m Q) (hQ : ∀ a rest, rest <:+ tokens → Q a rest → R a rest) :
    TracesFrom text other tokens m R := by
  intro c s hs
  refine (h c s hs).mono ?_
  rintro a s' ⟨rest, hrest, hs', ha⟩
  exact ⟨rest, hrest, hs', hQ a rest hrest ha⟩

/-- What a reader is known to consume is what it passes on the way. -/
lemma TracesFrom.consuming {m : ReadM α} {Q L : α → List Token → Prop}
    (h : TracesFrom text other tokens m Q)
    (hm : ∀ c s a s', s.cursor.Valid → m c s = .ok a s' → ∃ used, Consumes s used s' ∧ L a used) :
    TracesFrom text other tokens m fun a rest => ∃ used, tokens = used ++ rest ∧ L a used := by
  intro c s hs
  have hends := h c s hs
  cases hrun : m c s with
  | error failure s' =>
    rw [hrun] at hends
    exact hends
  | ok a s' =>
    rw [hrun] at hends
    obtain ⟨rest, hrest, hs', -⟩ := hends
    obtain ⟨used, hc, hused⟩ := hm c s a s' hs.valid hrun
    refine ⟨rest, hrest, hs', used, ?_, hused⟩
    rw [← hs.holds.upcoming, ← hs'.holds.upcoming]
    exact hc.upcoming

/-- Returning a value. -/
lemma Traces.pure {a : α} {K : α → Prop} (h : K a) : Traces text other (pure a) K :=
  fun _ => .pure h

/-- Failing with a failure that is accounted for. -/
lemma Traces.throw {failure : Failure} {K : α → Prop} (h : failure.Arises text other) :
    Traces text other (throw failure) K :=
  fun _ => .throw h

/-- A sequence. -/
lemma Traces.bind {m : ReadM α} {f : α → ReadM β} {J : α → Prop} {K : β → Prop}
    (hm : Traces text other m J) (hf : ∀ a, J a → Traces text other (f a) K) :
    Traces text other (m >>= f) K :=
  fun tokens => (hm tokens).bind fun a rest _ ha => hf a ha rest

/-- What is known of the values, weakened. -/
lemma Traces.mono {m : ReadM α} {J K : α → Prop} (h : Traces text other m J)
    (hK : ∀ a, J a → K a) : Traces text other m K :=
  fun tokens => (h tokens).mono fun a _ _ ha => hK a ha

end Rules

/-! ### Steps -/

section Steps

variable {α : Type} {tokens : List Token}

/-- A step that leaves the cursor alone and does not fail. -/
lemma TracesFrom.of_still {m : ReadM α}
    (h : ∀ c s, ∃ a s', m c s = .ok a s' ∧ s'.cursor = s.cursor) :
    TracesFrom text other tokens m fun _ rest => rest = tokens := by
  intro c s hs
  obtain ⟨a, s', hrun, hcursor⟩ := h c s
  rw [hrun]
  exact ⟨tokens, List.suffix_rfl, hcursor ▸ hs, rfl⟩

/-- Going on after a step that leaves the cursor alone. -/
lemma TracesFrom.bind_still {β : Type} {m : ReadM α} {f : α → ReadM β} {R : β → List Token → Prop}
    (hm : TracesFrom text other tokens m fun _ rest => rest = tokens)
    (hf : ∀ a, TracesFrom text other tokens (f a) R) :
    TracesFrom text other tokens (m >>= f) R := by
  refine hm.bind fun a rest _ hrest => ?_
  rw [hrest]
  exact hf a

/-- Asking for the state. -/
lemma get_tracesFrom : TracesFrom text other tokens (get : ReadM State) fun _ rest =>
    rest = tokens :=
  .of_still fun _ s => ⟨s, s, rfl, rfl⟩

/-- Asking for the context. -/
lemma read_tracesFrom : TracesFrom text other tokens (read : ReadM Context) fun _ rest =>
    rest = tokens :=
  .of_still fun c s => ⟨c, s, rfl, rfl⟩

/-- Leaving a notice. -/
lemma note_tracesFrom (notice : Notice) : TracesFrom text other tokens (note notice) fun _ rest =>
    rest = tokens :=
  .of_still fun _ s => ⟨(), { s with log := s.log ++ [notice] }, rfl, rfl⟩

/-- Declaring flags. -/
lemma declareFlags_tracesFrom (flags : List String) :
    TracesFrom text other tokens (modify fun state =>
      { state with requirements := Text.union state.requirements flags } : ReadM Unit) fun _ rest =>
        rest = tokens :=
  .of_still fun _ s =>
    ⟨(), { s with requirements := Text.union s.requirements flags }, rfl, rfl⟩

/-- Running a step of the cursor. -/
lemma onCursor_tracesFrom (call : Cursor.Call) :
    TracesFrom text other tokens (onCursor call.perform) fun token rest =>
      token = call.shown (Token.atEnd text.toList.length) tokens ∧ rest = call.left tokens := by
  intro c s hs
  have hrespond := hs.respond call
  unfold Cursor.respond at hrespond
  unfold onCursor
  cases hrun : call.perform s.cursor with
  | ok token after =>
    rw [hrun] at hrespond
    rcases hrespond with ⟨after', heq, hafter⟩ | ⟨error, after', heq, -⟩
    · obtain ⟨htoken, rfl⟩ := Prod.mk.inj heq
      have hleft : call.left tokens <:+ tokens := by
        rw [Cursor.left_eq_drop]
        exact List.drop_suffix _ _
      exact ⟨call.left tokens, hleft, hafter, Except.ok.inj htoken, rfl⟩
    · cases heq
  | error error after =>
    rw [hrun] at hrespond
    rcases hrespond with ⟨after', heq, -⟩ | ⟨error', after', heq, hfailure⟩
    · cases heq
    · obtain ⟨herror, -⟩ := Prod.mk.inj heq
      rw [Except.error.inj herror]
      exact .lexical hfailure

/-- Looking at the token after the current one. -/
lemma peek_tracesFrom : TracesFrom text other tokens peek fun _ rest => rest = tokens :=
  (onCursor_tracesFrom .peek).mono fun _ _ _ h => h.2

/-- Looking at the current token. -/
lemma current_tracesFrom : TracesFrom text other tokens current fun token rest =>
    token = front text tokens ∧ token.IsKnown text ∧ rest = tokens := by
  intro c s hs
  rw [current_run, hs.current]
  exact ⟨tokens, List.suffix_rfl, hs, rfl, hs.isKnown_front, rfl⟩

/-- Consuming the current token. -/
lemma advance_tracesFrom : TracesFrom text other tokens advance fun token rest =>
    token = front text tokens ∧ token.IsKnown text ∧ rest = tokens.tail := by
  intro c s hs
  refine (onCursor_tracesFrom .advance c s hs).mono ?_
  rintro token s' ⟨rest, hrest, hs', htoken, hleft⟩
  refine ⟨rest, hrest, hs', htoken, ?_, hleft⟩
  rw [htoken]
  exact hs.isKnown_front

/-- Looking at the current kind. -/
lemma currentKind_tracesFrom : TracesFrom text other tokens currentKind fun kind rest =>
    kind = (front text tokens).kind ∧ rest = tokens :=
  current_tracesFrom.bind fun token rest _ h => .pure ⟨by rw [h.1], h.2.2⟩

/-- Asking for the end of the input. -/
lemma atEnd_tracesFrom : TracesFrom text other tokens atEnd fun ended rest =>
    (ended = true → tokens = []) ∧ rest = tokens := by
  intro c s hs
  refine ⟨tokens, List.suffix_rfl, hs, fun hend => ?_, rfl⟩
  exact hs.holds.atEnd_iff.mp (of_decide_eq_true hend)

/-- Asking for the rounds. -/
lemma rounds_tracesFrom : TracesFrom text other tokens rounds fun n rest =>
    n = tokens.length + 1 ∧ rest = tokens := by
  intro c s hs
  rw [rounds_run, hs.unread]
  exact ⟨tokens, List.suffix_rfl, hs, rfl, rfl⟩

/-- Looking at the current token, anywhere. -/
lemma current_traces : Traces text other current (Token.IsKnown text) :=
  fun _ => current_tracesFrom.mono fun _ _ _ h => h.2.1

/-- Looking at the current kind, anywhere. -/
lemma currentKind_traces : Traces text other currentKind fun _ => True :=
  fun _ => currentKind_tracesFrom.mono fun _ _ _ _ => trivial

/-- Consuming the current token, anywhere. -/
lemma advance_traces : Traces text other advance (Token.IsKnown text) :=
  fun _ => advance_tracesFrom.mono fun _ _ _ h => h.2.1

/-- Asking for the rounds, anywhere. -/
lemma rounds_traces : Traces text other rounds fun _ => True :=
  fun _ => rounds_tracesFrom.mono fun _ _ _ _ => trivial

/-- Failing at the current token: the text has it, or ends before it. -/
lemma failHere_tracesFrom {Q : α → List Token → Prop} (expected : String) (cause : Cause) :
    TracesFrom text other tokens (failHere expected cause) Q := by
  intro c s hs
  change Failure.Arises text other (.grammar (.atCurrent s.cursor.current expected cause))
  rw [hs.current]
  cases tokens with
  | nil =>
    -- The end of the input is shown only where the scan has not failed.
    exact .ended expected cause hs.failure_of_nil
  | cons token rest =>
    have hkind : token.kind ≠ .endOfInput := hs.holds.kind_ne token List.mem_cons_self
    have hfound : SyntaxError.atCurrent token expected cause =
        SyntaxError.atToken token expected cause := by
      simp [SyntaxError.atCurrent, SyntaxError.atToken, hkind]
    change Failure.Arises text other (.grammar (.atCurrent token expected cause))
    rw [hfound]
    exact .found expected cause (hs.suffix.subset List.mem_cons_self)

/-- Failing at the current token, anywhere. -/
lemma failHere_traces {K : α → Prop} (expected : String) (cause : Cause) :
    Traces text other (failHere expected cause) K :=
  fun _ => failHere_tracesFrom expected cause

/-- Failing at a token of the text. -/
lemma failAt_traces {K : α → Prop} {token : Token} (h : token ∈ (scan text).tokens)
    (expected : String) (cause : Cause) : Traces text other (failAt token expected cause) K :=
  .throw (.found expected cause h)

/-- Reporting a breach at a token of the text. -/
lemma report_traces {token : Token} (h : token ∈ (scan text).tokens) (breach : Breach) :
    Traces text other (report token breach) fun _ => True := by
  refine fun tokens => read_tracesFrom.bind_still fun context => ?_
  split
  · exact failAt_traces h _ _ tokens
  · exact (note_tracesFrom _).mono fun _ _ _ _ => trivial

/-- Asking for a feature at a token of the text. -/
lemma require_traces {token : Token} (h : token ∈ (scan text).tokens) (feature : Feature) :
    Traces text other (require token feature) fun _ => True := by
  refine fun tokens => get_tracesFrom.bind_still fun state =>
    read_tracesFrom.bind_still fun context => ?_
  split
  · exact report_traces h _ tokens
  · exact .pure trivial

/-- Asking for arithmetic. -/
lemma arithmeticAllowed_traces : Traces text other arithmeticAllowed fun _ => True :=
  fun _ => get_tracesFrom.bind_still fun _ => read_tracesFrom.bind_still fun _ => .pure trivial

/-- Asking for the budget. -/
lemma budget_traces : Traces text other budget fun _ => True := by
  refine fun tokens => read_tracesFrom.bind_still fun context => ?_
  split
  · exact .pure trivial
  · exact rounds_traces tokens

/-- Checking the depth. -/
lemma checkDepth_tracesFrom :
    TracesFrom text other tokens checkDepth fun _ rest => rest = tokens := by
  refine read_tracesFrom.bind_still fun context => ?_
  split
  · exact .pure rfl
  · refine get_tracesFrom.bind_still fun state => ?_
    split
    · exact failHere_tracesFrom _ _
    · exact .pure rfl

/-- Reading one level deeper. -/
lemma nested_tracesFrom {body : ReadM α} {Q : α → List Token → Prop}
    (h : TracesFrom text other tokens body Q) : TracesFrom text other tokens (nested body) Q := by
  have hbody : TracesFrom text other tokens (do checkDepth; body) Q :=
    checkDepth_tracesFrom.bind_still fun _ => h
  intro c s hs
  rw [nested_eq_mapState]
  exact (hbody c { s with depth := s.depth + 1 } hs).mapState

end Steps

end Reader

end Pddl
