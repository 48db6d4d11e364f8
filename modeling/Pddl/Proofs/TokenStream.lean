import Pddl.Proofs.Cursor

/-!
# The stream of tokens

A cursor pulls its tokens one by one, may hold one of them in reserve, and meets the error that ends
the scan once.  None of this can be told from the results of its calls, whatever their order: they
are the results that the calls have on the plain list of the tokens (`ReadsList`).  If the scan ends
with an error, this is so until a call needs a token behind the last one.  That call fails and moves
nothing, and from there on the cursor reads the rest of the list as if the text ended with it
(`FailsOnce`).
-/

namespace Pddl

namespace Cursor

/-! ### Calls -/

/-- A call on a cursor. -/
inductive Call
  | peek
  | advance
deriving DecidableEq, Repr

/-- The step of the cursor that a call asks for. -/
def Call.perform : Call → CursorM Token
  | .peek => Cursor.peek
  | .advance => Cursor.advance

/-- The result of a call and the cursor that it leaves, also when it fails. -/
def respond (call : Call) (cursor : Cursor) : Except LexError Token × Cursor :=
  match call.perform cursor with
  | .ok token after => (.ok token, after)
  | .error error after => (.error error, after)

/-- The results of calls that are made one after the other.  A call that fails does not stop the
ones after it. -/
def results : List Call → Cursor → List (Except LexError Token)
  | [], _ => []
  | call :: calls, cursor => (cursor.respond call).1 :: results calls (cursor.respond call).2

/-- The cursor after calls. -/
def moved : List Call → Cursor → Cursor
  | [], cursor => cursor
  | call :: calls, cursor => moved calls (cursor.respond call).2

/-! ### Calls on a plain list -/

/-- The token that a call shows of a list that `last` follows for ever: the first one or, for a look
ahead, the second one. -/
def Call.shown (last : Token) (tokens : List Token) : Call → Token
  | .peek => tokens.tail.headD last
  | .advance => tokens.headD last

/-- The tokens that a call leaves. -/
def Call.left (tokens : List Token) : Call → List Token
  | .peek => tokens
  | .advance => tokens.tail

/-- The results of calls on a list of tokens. -/
def plainResults (last : Token) : List Token → List Call → List Token
  | _, [] => []
  | tokens, call :: calls => call.shown last tokens :: plainResults last (call.left tokens) calls

/-- Calls leave the tokens behind those that they consume. -/
lemma left_eq_drop (call : Call) (tokens : List Token) :
    call.left tokens = tokens.drop ([call].count .advance) := by
  cases call with
  | peek => rfl
  | advance => exact (List.drop_one).symm

/-- The results of calls and of others after them. -/
lemma plainResults_append (last : Token) (calls others : List Call) : ∀ tokens,
    plainResults last tokens (calls ++ others) = plainResults last tokens calls ++
      plainResults last (tokens.drop (calls.count .advance)) others := by
  induction calls with
  | nil => exact fun tokens => rfl
  | cons call calls ih =>
    intro tokens
    have hcount : (call :: calls).count .advance =
        [call].count .advance + calls.count .advance := by
      rw [← List.singleton_append, List.count_append]
    rw [List.cons_append, plainResults, ih, left_eq_drop, List.drop_drop, ← hcount, ← left_eq_drop]
    rfl

/-- There is one result for each call. -/
lemma length_plainResults (last : Token) (calls : List Call) : ∀ tokens,
    (plainResults last tokens calls).length = calls.length := by
  induction calls with
  | nil => exact fun _ => rfl
  | cons call calls ih => exact fun tokens => congrArg (· + 1) (ih _)

/-- Calls that only consume yield the tokens in their order and then the last one for ever. -/
lemma plainResults_replicate (last : Token) (n : Nat) : ∀ tokens,
    plainResults last tokens (List.replicate n .advance) =
      (tokens ++ List.replicate n last).take n := by
  induction n with
  | zero => exact fun tokens => by rw [List.take_zero]; rfl
  | succ n ih =>
    intro tokens
    have hfirst : plainResults last tokens (List.replicate (n + 1) .advance) =
        tokens.headD last :: plainResults last tokens.tail (List.replicate n .advance) := rfl
    rw [hfirst, ih]
    cases tokens with
    | nil => rfl
    | cons token rest =>
      have hmore : (rest ++ List.replicate (n + 1) last).take n =
          (rest ++ List.replicate n last).take n := by
        rw [List.replicate_succ', ← List.append_assoc, List.take_append_of_le_length (by simp)]
      rw [List.cons_append, List.take_succ_cons, hmore]
      rfl

/-! ### Cursors over a list -/

/-- The cursor stands before the tokens, the second of which it may hold in reserve.  An error that
is still to come is behind all of them, and no call has needed a token behind the last one. -/
structure Holds (cursor : Cursor) (tokens : List Token) : Prop where
  kind_ne : ∀ token ∈ tokens, token.kind ≠ .endOfInput
  current : cursor.current = tokens.headD (Token.atEnd cursor.endOffset)
  ahead : (cursor.reserve = none ∧ cursor.rest = tokens.tail) ∨
    (cursor.reserve = some (tokens.tail.headD (Token.atEnd cursor.endOffset)) ∧
      cursor.rest = tokens.tail.tail)
  pending : cursor.failure ≠ none → tokens ≠ [] ∧ (cursor.reserve ≠ none → tokens.tail ≠ [])

namespace Holds

variable {cursor : Cursor} {tokens : List Token}

/-- The current token is the end of the input if no tokens are left, and only then. -/
lemma atEnd_iff (h : cursor.Holds tokens) : cursor.current.kind = .endOfInput ↔ tokens = [] := by
  rw [h.current]
  cases tokens with
  | nil => exact ⟨fun _ => rfl, fun _ => rfl⟩
  | cons token rest =>
    constructor
    · exact fun hend => absurd hend (h.kind_ne token List.mem_cons_self)
    · exact fun hnil => absurd hnil (List.cons_ne_nil _ _)

/-- At the end of the input no error is still to come. -/
lemma failure_of_nil (h : cursor.Holds []) : cursor.failure = none := by
  by_contra hpending
  exact (h.pending hpending).1 rfl

/-- Once the error has been met, the same tokens are left. -/
lemma forget (h : cursor.Holds tokens) : Holds { cursor with failure := none } tokens where
  kind_ne := h.kind_ne
  current := h.current
  ahead := h.ahead
  pending := fun hne => absurd rfl hne

/-- A look at a second token that is not in reserve yet. -/
lemma peek_of_reserve_none (h : cursor.Holds tokens)
    (hlast : tokens.tail = [] → cursor.failure = none) (hreserve : cursor.reserve = none)
    (hrest : cursor.rest = tokens.tail) :
    ∃ after, Cursor.peek cursor = .ok (tokens.tail.headD (Token.atEnd cursor.endOffset)) after ∧
      after.Holds tokens ∧ after.failure = cursor.failure ∧
      after.endOffset = cursor.endOffset := by
  cases htail : tokens.tail with
  | nil =>
    have hfailure := hlast htail
    rw [htail] at hrest
    refine ⟨{ cursor with reserve := some (Token.atEnd cursor.endOffset) }, ?_, ?_, rfl, rfl⟩
    · simp [Cursor.peek, pull, hreserve, hrest, hfailure]
    · refine ⟨h.kind_ne, h.current, Or.inr ⟨?_, ?_⟩, fun hne => absurd hfailure hne⟩
      · rw [htail]
        rfl
      · rw [htail]
        exact hrest
  | cons next more =>
    rw [htail] at hrest
    refine ⟨{ cursor with reserve := some next, rest := more }, ?_, ?_, rfl, rfl⟩
    · simp [Cursor.peek, pull, hreserve, hrest]
    · refine ⟨h.kind_ne, h.current, Or.inr ⟨?_, ?_⟩, fun hne => ⟨(h.pending hne).1, fun _ => ?_⟩⟩
      · rw [htail]
        rfl
      · rw [htail]
        rfl
      · rw [htail]
        exact List.cons_ne_nil _ _

/-- Moving on to a second token that is not in reserve. -/
lemma advance_of_reserve_none (h : cursor.Holds tokens)
    (hlast : tokens.tail = [] → cursor.failure = none) (hreserve : cursor.reserve = none)
    (hrest : cursor.rest = tokens.tail) :
    ∃ after, Cursor.advance cursor = .ok (tokens.headD (Token.atEnd cursor.endOffset)) after ∧
      after.Holds tokens.tail ∧ after.failure = cursor.failure ∧
      after.endOffset = cursor.endOffset := by
  rw [← h.current]
  have hkind : ∀ token ∈ tokens.tail, token.kind ≠ .endOfInput :=
    fun token hmem => h.kind_ne token (List.mem_of_mem_tail hmem)
  by_cases hend : cursor.current.kind = .endOfInput
  · -- At the end of the input the cursor stays where it is.
    obtain rfl : tokens = [] := h.atEnd_iff.mp hend
    refine ⟨cursor, ?_, h, rfl, rfl⟩
    simp [Cursor.advance, hreserve, Cursor.atEnd, hend]
  · cases htail : tokens.tail with
    | nil =>
      have hfailure := hlast htail
      rw [htail] at hrest hkind
      refine ⟨{ cursor with current := Token.atEnd cursor.endOffset }, ?_, ?_, rfl, rfl⟩
      · simp [Cursor.advance, pull, hreserve, Cursor.atEnd, hend, hrest, hfailure]
      · exact ⟨hkind, rfl, Or.inl ⟨hreserve, hrest⟩, fun hne => absurd hfailure hne⟩
    | cons next more =>
      rw [htail] at hrest hkind
      refine ⟨{ cursor with current := next, rest := more }, ?_, ?_, rfl, rfl⟩
      · simp [Cursor.advance, pull, hreserve, Cursor.atEnd, hend, hrest]
      · exact ⟨hkind, rfl, Or.inl ⟨hreserve, rfl⟩,
          fun _ => ⟨List.cons_ne_nil _ _, fun hne => absurd hreserve hne⟩⟩

/-- Moving on to the token in reserve. -/
lemma advance_of_reserve (h : cursor.Holds tokens)
    (hreserve : cursor.reserve = some (tokens.tail.headD (Token.atEnd cursor.endOffset)))
    (hrest : cursor.rest = tokens.tail.tail) :
    ∃ after, Cursor.advance cursor = .ok (tokens.headD (Token.atEnd cursor.endOffset)) after ∧
      after.Holds tokens.tail ∧ after.failure = cursor.failure ∧
      after.endOffset = cursor.endOffset := by
  have hkept : cursor.reserve ≠ none := by
    rw [hreserve]
    exact Option.some_ne_none _
  rw [← h.current]
  refine ⟨{ cursor with
    current := tokens.tail.headD (Token.atEnd cursor.endOffset), reserve := none },
    ?_, ?_, rfl, rfl⟩
  · simp [Cursor.advance, hreserve]
  · exact ⟨fun token hmem => h.kind_ne token (List.mem_of_mem_tail hmem), rfl,
      Or.inl ⟨rfl, hrest⟩, fun hne => ⟨(h.pending hne).2 hkept, fun hnone => absurd rfl hnone⟩⟩

/-- A call that needs no token behind the last one has the result that it has on the list, and
leaves a cursor over the tokens that it leaves of the list. -/
lemma respond_ok (h : cursor.Holds tokens) (hlast : tokens.tail = [] → cursor.failure = none)
    (call : Call) :
    ∃ after, cursor.respond call =
        (.ok (call.shown (Token.atEnd cursor.endOffset) tokens), after) ∧
      after.Holds (call.left tokens) ∧ after.failure = cursor.failure ∧
      after.endOffset = cursor.endOffset := by
  cases call with
  | peek =>
    rcases h.ahead with ⟨hreserve, hrest⟩ | ⟨hreserve, -⟩
    · obtain ⟨after, hpeek, hafter⟩ := h.peek_of_reserve_none hlast hreserve hrest
      exact ⟨after, by simp only [respond, Call.perform, hpeek, Call.shown], hafter⟩
    · refine ⟨cursor, ?_, h, rfl, rfl⟩
      simp only [respond, Call.perform, Cursor.peek, hreserve, Call.shown]
  | advance =>
    have hadvance : ∃ after, Cursor.advance cursor =
          .ok (tokens.headD (Token.atEnd cursor.endOffset)) after ∧
        after.Holds tokens.tail ∧ after.failure = cursor.failure ∧
        after.endOffset = cursor.endOffset := by
      rcases h.ahead with ⟨hreserve, hrest⟩ | ⟨hreserve, hrest⟩
      · exact h.advance_of_reserve_none hlast hreserve hrest
      · exact h.advance_of_reserve hreserve hrest
    obtain ⟨after, hrun, hafter⟩ := hadvance
    exact ⟨after, by simp only [respond, Call.perform, hrun, Call.shown], hafter⟩

/-- A call that needs a token behind the last one meets the error and moves nothing. -/
lemma respond_error (h : cursor.Holds tokens) (hlast : tokens.tail = []) {error : LexError}
    (hfailure : cursor.failure = some error) (call : Call) :
    cursor.respond call = (.error error, { cursor with failure := none }) := by
  have hne : cursor.failure ≠ none := by
    rw [hfailure]
    exact Option.some_ne_none _
  obtain ⟨htokens, hkept⟩ := h.pending hne
  have hreserve : cursor.reserve = none := by
    by_contra hreserve
    exact hkept hreserve hlast
  have hrest : cursor.rest = [] := by
    rcases h.ahead with ⟨-, hrest⟩ | ⟨hsome, -⟩
    · rw [hrest, hlast]
    · rw [hreserve] at hsome
      cases hsome
  have hend : cursor.current.kind ≠ .endOfInput := fun hend => htokens (h.atEnd_iff.mp hend)
  cases call with
  | peek => simp [respond, Call.perform, Cursor.peek, pull, hreserve, hrest, hfailure]
  | advance =>
    simp [respond, Call.perform, Cursor.advance, pull, hreserve, hrest, hfailure, Cursor.atEnd,
      hend]

end Holds

/-! ### Runs of calls -/

/-- None of the calls needs a token behind the first `n`.  A call that comes after some advances
needs the token after the current one. -/
def StayWithin (n : Nat) (calls : List Call) : Prop :=
  ∀ before call after, calls = before ++ call :: after → before.count .advance + 2 ≤ n

/-- The first of the calls needs two tokens. -/
lemma StayWithin.two_le {n : Nat} {call : Call} {calls : List Call}
    (h : StayWithin n (call :: calls)) : 2 ≤ n :=
  h [] call calls rfl

/-- The other calls stay within what the first one leaves. -/
lemma StayWithin.tail {n : Nat} {call : Call} {calls : List Call}
    (h : StayWithin n (call :: calls)) : StayWithin (n - [call].count .advance) calls := by
  intro before other after hcalls
  have hneed := h (call :: before) other after (by rw [hcalls]; rfl)
  rw [← List.singleton_append, List.count_append] at hneed
  omega

/-- The results of calls and of others after them. -/
lemma results_append (calls others : List Call) : ∀ cursor : Cursor,
    cursor.results (calls ++ others) =
      cursor.results calls ++ (cursor.moved calls).results others := by
  induction calls with
  | nil => exact fun cursor => rfl
  | cons call calls ih => exact fun cursor => congrArg ((cursor.respond call).1 :: ·) (ih _)

/-- Calls that need no token behind the last one, or are made without an error to come, have the
results that they have on the list, and leave a cursor over what they leave of the list. -/
lemma Holds.run (calls : List Call) : ∀ {cursor : Cursor} {tokens : List Token},
    cursor.Holds tokens → (cursor.failure = none ∨ StayWithin tokens.length calls) →
    cursor.results calls =
        (plainResults (Token.atEnd cursor.endOffset) tokens calls).map .ok ∧
      (cursor.moved calls).Holds (tokens.drop (calls.count .advance)) ∧
      (cursor.moved calls).failure = cursor.failure ∧
      (cursor.moved calls).endOffset = cursor.endOffset := by
  induction calls with
  | nil => exact fun h _ => ⟨rfl, h, rfl, rfl⟩
  | cons call calls ih =>
    intro cursor tokens h hstay
    have hlast : tokens.tail = [] → cursor.failure = none := by
      intro htail
      refine hstay.resolve_right fun hwithin => ?_
      have htwo := hwithin.two_le
      have hlength := congrArg List.length htail
      rw [List.length_tail, List.length_nil] at hlength
      omega
    obtain ⟨after, hrespond, hafter, hfailure, hend⟩ := h.respond_ok hlast call
    rw [left_eq_drop] at hafter
    have hrest : after.failure = none ∨
        StayWithin (tokens.drop ([call].count .advance)).length calls := by
      rw [hfailure, List.length_drop]
      exact hstay.imp id StayWithin.tail
    obtain ⟨hresults, hmoved, hfailure', hend'⟩ := ih hafter hrest
    have hcount : (call :: calls).count .advance =
        [call].count .advance + calls.count .advance := by
      rw [← List.singleton_append, List.count_append]
    refine ⟨?_, ?_, ?_, ?_⟩
    · rw [results, hrespond, hresults, hend, plainResults, left_eq_drop, List.map_cons]
    · rw [moved, hrespond, hcount, ← List.drop_drop]
      exact hmoved
    · rw [moved, hrespond, hfailure', hfailure]
    · rw [moved, hrespond, hend', hend]

/-! ### What can be told from outside -/

/-- Calls on the cursor have the results that they have on a list of tokens that `last` follows for
ever. -/
structure ReadsList (cursor : Cursor) (tokens : List Token) (last : Token) : Prop where
  /-- All calls succeed, with the results on the list. -/
  results_eq : ∀ calls, cursor.results calls = (plainResults last tokens calls).map .ok
  /-- The current token is the first that is not consumed. -/
  current_eq : ∀ calls,
    (cursor.moved calls).current = (tokens.drop (calls.count .advance)).headD last
  /-- Consuming yields each token once, in their order, and then the last one for ever. -/
  advances_eq : ∀ n, cursor.results (List.replicate n .advance) =
    ((tokens ++ List.replicate n last).take n).map .ok
  /-- A look ahead between other calls changes none of their results. -/
  peek_inserted : ∀ calls others,
    (cursor.results (calls ++ .peek :: others)).eraseIdx calls.length =
      cursor.results (calls ++ others)

/-- Without an error to come, a cursor reads the list before which it stands. -/
lemma Holds.readsList {cursor : Cursor} {tokens : List Token} (h : cursor.Holds tokens)
    (hfailure : cursor.failure = none) :
    cursor.ReadsList tokens (Token.atEnd cursor.endOffset) where
  results_eq := fun calls => (h.run calls (Or.inl hfailure)).1
  current_eq := by
    intro calls
    obtain ⟨-, hmoved, -, hend⟩ := h.run calls (Or.inl hfailure)
    rw [hmoved.current, hend]
  advances_eq := by
    intro n
    rw [(h.run _ (Or.inl hfailure)).1, plainResults_replicate]
  peek_inserted := by
    intro calls others
    have hlength := length_plainResults (Token.atEnd cursor.endOffset) calls tokens
    rw [(h.run _ (Or.inl hfailure)).1, (h.run _ (Or.inl hfailure)).1, plainResults_append,
      plainResults_append, List.map_append, List.map_append, List.eraseIdx_append_of_length_le]
    · rw [List.length_map, hlength, Nat.sub_self]
      rfl
    · rw [List.length_map]
      exact Nat.le_of_eq hlength

/-- The cursor reads a list of tokens behind which an error is met once. -/
structure FailsOnce (cursor : Cursor) (tokens : List Token) (last : Token) (error : LexError) :
    Prop where
  /-- Calls that need no token behind the list have the results on the list. -/
  within : ∀ calls, StayWithin tokens.length calls →
    cursor.results calls = (plainResults last tokens calls).map .ok ∧
      (cursor.moved calls).current = (tokens.drop (calls.count .advance)).headD last
  /-- The first call that needs a token behind the list fails and leaves the current token and the
  reserve as they were.  After it, the rest of the list is read as if there were no error. -/
  beyond : ∀ before call, StayWithin tokens.length before →
    tokens.length < before.count .advance + 2 →
    (cursor.moved before).respond call =
        (.error error, { cursor.moved before with failure := none }) ∧
      ReadsList { cursor.moved before with failure := none }
        (tokens.drop (before.count .advance)) last
  /-- So of all calls this one fails and no other. -/
  results_eq : ∀ before call after, StayWithin tokens.length before →
    tokens.length < before.count .advance + 2 →
    cursor.results (before ++ call :: after) =
      (plainResults last tokens before).map .ok ++ .error error ::
        (plainResults last (tokens.drop (before.count .advance)) after).map .ok

/-- With an error to come, a cursor fails once behind the list before which it stands. -/
lemma Holds.failsOnce {cursor : Cursor} {tokens : List Token} (h : cursor.Holds tokens)
    {error : LexError} (hfailure : cursor.failure = some error) :
    cursor.FailsOnce tokens (Token.atEnd cursor.endOffset) error := by
  have hbeyond : ∀ before call, StayWithin tokens.length before →
      tokens.length < before.count .advance + 2 →
      (cursor.moved before).respond call =
          (.error error, { cursor.moved before with failure := none }) ∧
        ReadsList { cursor.moved before with failure := none }
          (tokens.drop (before.count .advance)) (Token.atEnd cursor.endOffset) := by
    intro before call hwithin hbeyond
    obtain ⟨-, hmoved, hpending, hend⟩ := h.run before (Or.inr hwithin)
    have hlast : (tokens.drop (before.count .advance)).tail = [] := by
      apply List.eq_nil_of_length_eq_zero
      rw [List.length_tail, List.length_drop]
      omega
    refine ⟨hmoved.respond_error hlast (hpending.trans hfailure) call, ?_⟩
    have hend' : Token.atEnd cursor.endOffset = Token.atEnd (cursor.moved before).endOffset := by
      rw [hend]
    rw [hend']
    exact hmoved.forget.readsList rfl
  constructor
  · intro calls hwithin
    obtain ⟨hresults, hmoved, -, hend⟩ := h.run calls (Or.inr hwithin)
    refine ⟨hresults, ?_⟩
    rw [hmoved.current, hend]
  · exact hbeyond
  · intro before call after hwithin hover
    obtain ⟨hfails, hreads⟩ := hbeyond before call hwithin hover
    rw [results_append, (h.run before (Or.inr hwithin)).1, results, hfails, hreads.results_eq]

/-! ### Cursors of texts -/

/-- A text has no cursor exactly if its scan fails before the first token. -/
lemma ofText_eq_error {text : String} {error : LexError} :
    ofText text = .error error ↔ (scan text).tokens = [] ∧ (scan text).failure = some error := by
  unfold ofText
  cases htokens : (scan text).tokens with
  | cons token rest => simp [htokens]
  | nil => cases hfailure : (scan text).failure <;> simp [htokens, hfailure]

/-- The cursor of a text stands before its tokens. -/
lemma holds_of_ofText {text : String} {cursor : Cursor} (h : ofText text = .ok cursor) :
    cursor.Holds (scan text).tokens ∧ cursor.failure = (scan text).failure ∧
      cursor.endOffset = text.toList.length := by
  have hkind : ∀ token ∈ (scan text).tokens, token.kind ≠ .endOfInput := fun token hmem =>
    kind_ne_end_of_isLexeme (Scan.isLexeme_of_mem_run hmem)
  unfold ofText at h
  cases htokens : (scan text).tokens with
  | cons token rest =>
    rw [htokens] at hkind
    simp only [htokens, Except.ok.injEq] at h
    subst h
    refine ⟨⟨hkind, rfl, Or.inl ⟨rfl, rfl⟩, fun _ => ⟨List.cons_ne_nil _ _, ?_⟩⟩, rfl, rfl⟩
    exact fun hne => absurd rfl hne
  | nil =>
    cases hfailure : (scan text).failure with
    | some error => simp [htokens, hfailure] at h
    | none =>
      simp only [htokens, hfailure, Except.ok.injEq] at h
      subst h
      exact ⟨⟨by simp, rfl, Or.inl ⟨rfl, rfl⟩, fun hne => absurd rfl hne⟩, rfl, rfl⟩

/-- Making a cursor fails exactly if the scan of the text fails before its first token.  Otherwise
the cursor reads the list of the text's tokens, behind which it meets the error of the scan, if
there is one, exactly once. -/
theorem ofText_reads_tokens (text : String) :
    (∀ error, ofText text = .error error ↔
      (scan text).tokens = [] ∧ (scan text).failure = some error) ∧
    ∀ cursor, ofText text = .ok cursor →
      ((scan text).failure = none →
        cursor.ReadsList (scan text).tokens (Token.atEnd text.toList.length)) ∧
      ∀ error, (scan text).failure = some error →
        cursor.FailsOnce (scan text).tokens (Token.atEnd text.toList.length) error := by
  refine ⟨fun error => ofText_eq_error, fun cursor hcursor => ?_⟩
  obtain ⟨hholds, hfailure, hend⟩ := holds_of_ofText hcursor
  rw [← hfailure, ← hend]
  exact ⟨hholds.readsList, fun error => hholds.failsOnce⟩

/-- The tokens and the error of a text with a character that starts no lexeme. -/
lemma scan_unknown_character : scan "(a %" =
    ⟨[⟨.openParen, "(", 1, 0, 0⟩, ⟨.name, "a", 1, 1, 1⟩], some ⟨'%', ⟨1, 3, 3⟩⟩⟩ := by
  decide +kernel

/-- The second look ahead needs a third token and fails.  A third look shows the end of the input,
and the second token is still there to be consumed. -/
theorem ofText_reads_tokens_unknown_character :
    ∃ cursor, ofText "(a %" = .ok cursor ∧
      cursor.results [.peek, .advance, .peek, .peek, .advance, .advance] =
        [.ok ⟨.name, "a", 1, 1, 1⟩, .ok ⟨.openParen, "(", 1, 0, 0⟩, .error ⟨'%', ⟨1, 3, 3⟩⟩,
          .ok (Token.atEnd 4), .ok ⟨.name, "a", 1, 1, 1⟩, .ok (Token.atEnd 4)] := by
  have hcursor : ofText "(a %" =
      .ok ⟨⟨.openParen, "(", 1, 0, 0⟩, none, [⟨.name, "a", 1, 1, 1⟩],
        some ⟨'%', ⟨1, 3, 3⟩⟩, 4⟩ := by
    unfold ofText
    rw [scan_unknown_character]
    rfl
  have hfails := ((ofText_reads_tokens "(a %").2 _ hcursor).2 ⟨'%', ⟨1, 3, 3⟩⟩
    (by rw [scan_unknown_character])
  rw [scan_unknown_character] at hfails
  have hwithin : StayWithin 2 [.peek, .advance] := by
    intro before call after hcalls
    rcases before with - | ⟨first, - | ⟨second, before⟩⟩
    · decide
    · obtain ⟨rfl, -⟩ := List.cons.inj hcalls
      decide
    · simp at hcalls
  exact ⟨_, hcursor, hfails.results_eq [.peek, .advance] .peek [.peek, .advance, .advance] hwithin
    (by decide)⟩

end Cursor

end Pddl
