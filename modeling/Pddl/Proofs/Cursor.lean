import Pddl.Proofs.Lexeme
import Pddl.Proofs.Running

/-!
# Cursors over texts

A cursor is *valid* if it can stand somewhere in a text: its tokens are lexemes, and nothing comes
after the end of the input.  Cursors of texts are valid, and steps keep them so.  On valid cursors
`upcoming` is a complete account of what can still be read: `advance` removes its first token, and
`peek` shows the second one and changes nothing (`advance_eq_ok`, `peek_eq_ok`).
-/

namespace Pddl

namespace Cursor

/-- The cursor stands somewhere in a text. -/
structure Valid (cursor : Cursor) : Prop where
  /-- Tokens of the text are lexemes. -/
  isLexeme : ∀ token ∈ cursor.upcoming, token.word.IsLexeme
  /-- The tokens to come belong to the text. -/
  rest_kind : ∀ token ∈ cursor.rest, token.kind ≠ .endOfInput
  /-- A reserve at the end of the input has nothing after it. -/
  reserve_end : ∀ token ∈ cursor.reserve, token.kind = .endOfInput →
    cursor.rest = [] ∧ cursor.failure = none
  /-- The end of the input has nothing after it. -/
  current_end : cursor.current.kind = .endOfInput →
    cursor.rest = [] ∧ cursor.failure = none ∧
      ∀ token ∈ cursor.reserve, token.kind = .endOfInput

variable {cursor after : Cursor} {token : Token}

/-- The lexemes that are not consumed yet. -/
def words (cursor : Cursor) : List Word :=
  cursor.upcoming.map Token.word

/-- A lexeme is not the end of the input. -/
lemma kind_ne_end_of_isLexeme {token : Token} (h : token.word.IsLexeme) :
    token.kind ≠ .endOfInput := by
  intro heq
  unfold Word.IsLexeme Token.word at h
  rw [heq] at h
  cases h

/-- Before the end of the input the current token is the first that is not consumed. -/
lemma upcoming_of_ne_end (h : cursor.current.kind ≠ .endOfInput) :
    cursor.upcoming =
      cursor.current :: ((cursor.reserve.toList).filter (·.kind ≠ .endOfInput) ++ cursor.rest) := by
  simp [upcoming, met, h]

/-- At the end of the input nothing is left. -/
lemma Valid.upcoming_of_end (hv : cursor.Valid) (h : cursor.current.kind = .endOfInput) :
    cursor.upcoming = [] := by
  obtain ⟨hrest, -, hreserve⟩ := hv.current_end h
  unfold upcoming met
  rw [hrest, List.append_nil, List.filter_eq_nil_iff]
  intro token hmem
  rcases List.mem_cons.mp hmem with rfl | hmem
  · simp [h]
  · simp [hreserve token (Option.mem_toList.mp hmem)]

/-- The current token of a cursor with unread tokens is the first of them. -/
lemma Valid.current_of_upcoming (hv : cursor.Valid) {rest : List Token}
    (h : cursor.upcoming = token :: rest) : cursor.current = token := by
  by_cases hend : cursor.current.kind = .endOfInput
  · rw [hv.upcoming_of_end hend] at h
    cases h
  · rw [upcoming_of_ne_end hend] at h
    exact (List.cons.inj h).1

/-- Pulling a token gives the first of the tokens to come, or the end of the input. -/
lemma pull_eq_ok : pull cursor = .ok token after ↔
    (cursor.rest = token :: after.rest ∧ after = { cursor with rest := after.rest }) ∨
      (cursor.rest = [] ∧ cursor.failure = none ∧ token = Token.atEnd cursor.endOffset ∧
        after = cursor) := by
  obtain ⟨current, reserve, rest, failure, endOffset⟩ := cursor
  cases rest with
  | cons first rest =>
    simp only [pull, EStateM.Result.ok.injEq, List.cons.injEq]
    constructor
    · rintro ⟨rfl, rfl⟩
      exact Or.inl ⟨⟨rfl, rfl⟩, rfl⟩
    · rintro (⟨⟨rfl, hrest⟩, hafter⟩ | ⟨hnil, -⟩)
      · exact ⟨rfl, by rw [hafter, hrest]⟩
      · cases hnil
  | nil =>
    cases failure with
    | some error =>
      simp [pull]
    | none =>
      simp only [pull, EStateM.Result.ok.injEq, List.nil_eq, reduceCtorEq, false_and, true_and,
        false_or]
      constructor
      · rintro ⟨rfl, rfl⟩
        exact ⟨rfl, rfl⟩
      · rintro ⟨rfl, rfl⟩
        exact ⟨rfl, rfl⟩

/-- Pulling a token does not change the reserve. -/
lemma reserve_of_pull (h : pull cursor = .ok token after) : after.reserve = cursor.reserve := by
  rcases pull_eq_ok.mp h with ⟨-, hafter⟩ | ⟨-, -, -, rfl⟩
  · rw [hafter]
  · rfl

/-- What looking ahead does: it shows the token in reserve, or pulls one and keeps it there. -/
lemma peek_cases : peek cursor = .ok token after ↔
    (cursor.reserve = some token ∧ after = cursor) ∨
      (cursor.reserve = none ∧
        ∃ pulled, pull cursor = .ok token pulled ∧
          after = { pulled with reserve := some token }) := by
  unfold peek
  cases hreserve : cursor.reserve with
  | some next => simp [eq_comm]
  | none =>
    cases hpull : pull cursor with
    | error error pulled => simp
    | ok next pulled =>
      simp only [EStateM.Result.ok.injEq, reduceCtorEq, false_and, false_or, true_and]
      constructor
      · rintro ⟨rfl, rfl⟩
        exact ⟨pulled, ⟨rfl, rfl⟩, rfl⟩
      · rintro ⟨_, ⟨rfl, rfl⟩, rfl⟩
        exact ⟨rfl, rfl⟩

/-- What moving on does: it takes the token in reserve, stays at the end of the input, or pulls a
token. -/
lemma advance_cases : advance cursor = .ok token after ↔
    token = cursor.current ∧
      ((∃ next, cursor.reserve = some next ∧
          after = { cursor with current := next, reserve := none }) ∨
        (cursor.reserve = none ∧ cursor.current.kind = .endOfInput ∧ after = cursor) ∨
        (cursor.reserve = none ∧ cursor.current.kind ≠ .endOfInput ∧
          ∃ next pulled, pull cursor = .ok next pulled ∧
            after = { pulled with current := next })) := by
  unfold advance
  cases hreserve : cursor.reserve with
  | some next => simp [eq_comm]
  | none =>
    by_cases hend : cursor.current.kind = .endOfInput
    · simp [atEnd, hend, eq_comm]
    cases hpull : pull cursor with
    | error error pulled => simp [atEnd, hend]
    | ok next pulled =>
      simp only [atEnd, hend, EStateM.Result.ok.injEq]
      constructor
      · rintro ⟨rfl, rfl⟩
        simp [hend]
      · rintro ⟨rfl, ⟨next, hnone, -⟩ | ⟨-, hfalse, -⟩ | ⟨-, -, _, _, ⟨rfl, rfl⟩, rfl⟩⟩
        · cases hnone
        · cases hfalse
        · simp

/-- A token in reserve is the next one after the current one. -/
lemma upcoming_of_reserve (h : cursor.current.kind ≠ .endOfInput)
    (hreserve : cursor.reserve = some token) :
    cursor.upcoming =
      cursor.current :: upcoming { cursor with current := token, reserve := none } := by
  rw [upcoming_of_ne_end h, hreserve]
  rfl

/-- Moving on with a token in reserve makes that the current one. -/
lemma Valid.of_reserve (hv : cursor.Valid) (hreserve : cursor.reserve = some token) :
    Valid { cursor with current := token, reserve := none } := by
  have hmem : token ∈ cursor.reserve := hreserve
  refine ⟨?_, hv.rest_kind, by simp, ?_⟩
  · intro t ht
    refine hv.isLexeme t ?_
    simp only [upcoming, met, List.mem_append, List.mem_filter, Option.toList_none,
      List.mem_cons, hreserve, Option.toList_some] at ht ⊢
    tauto
  · intro hend
    obtain ⟨hrest, hfailure⟩ := hv.reserve_end token hmem hend
    exact ⟨hrest, hfailure, by simp⟩

/-- Looking at the next token changes neither the current token nor what is unread.  It shows the
second unread token, or the end of the input if there is none. -/
lemma Valid.peek_eq_ok (hv : cursor.Valid) (hkind : cursor.current.kind ≠ .endOfInput)
    (h : peek cursor = .ok token after) :
    after.Valid ∧ after.current = cursor.current ∧ after.upcoming = cursor.upcoming ∧
      after.failure = cursor.failure ∧
      ((token.kind ≠ .endOfInput ∧ ∃ rest, cursor.upcoming = cursor.current :: token :: rest) ∨
        (token.kind = .endOfInput ∧ cursor.upcoming = [cursor.current])) := by
  rcases peek_cases.mp h with ⟨hreserve, rfl⟩ | ⟨hreserve, pulled, hpull, rfl⟩
  · refine ⟨hv, rfl, rfl, rfl, ?_⟩
    rw [upcoming_of_ne_end hkind, hreserve]
    by_cases hend : token.kind = .endOfInput
    · right
      obtain ⟨hrest, -⟩ := hv.reserve_end token hreserve hend
      simp [hend, hrest]
    · left
      simp [hend]
  · rcases pull_eq_ok.mp hpull with ⟨hrest, hpulled⟩ | ⟨hrest, hfailure, rfl, rfl⟩
    · have hnext : token.kind ≠ .endOfInput := hv.rest_kind token (by simp [hrest])
      have hupcoming : cursor.upcoming = cursor.current :: token :: pulled.rest := by
        rw [upcoming_of_ne_end hkind, hreserve, hrest]
        rfl
      rw [hpulled]
      have hsame : Cursor.upcoming ⟨cursor.current, some token, pulled.rest, cursor.failure,
          cursor.endOffset⟩ = cursor.upcoming := by
        rw [hupcoming]
        simp [upcoming, met, hkind, hnext]
      refine ⟨⟨?_, ?_, ?_, fun hend => absurd hend hkind⟩, rfl, hsame, rfl,
        Or.inl ⟨hnext, _, hupcoming⟩⟩
      · rw [hsame]
        exact hv.isLexeme
      · exact fun t ht => hv.rest_kind t (by simp [hrest, ht])
      · rintro t ⟨⟩ hend
        exact absurd hend hnext
    · have hupcoming : pulled.upcoming = [pulled.current] := by
        rw [upcoming_of_ne_end hkind, hreserve, hrest]
        rfl
      have hsame : Cursor.upcoming ⟨pulled.current, some (Token.atEnd pulled.endOffset),
          pulled.rest, pulled.failure, pulled.endOffset⟩ = pulled.upcoming := by
        rw [hupcoming]
        simp [upcoming, met, hkind, hrest, Token.atEnd]
      refine ⟨⟨?_, hv.rest_kind, fun t _ _ => ⟨hrest, hfailure⟩, fun hend => absurd hend hkind⟩,
        rfl, hsame, rfl, Or.inr ⟨rfl, hupcoming⟩⟩
      rw [hsame]
      exact hv.isLexeme

/-- Moving on returns the current token; on a valid cursor it removes that token from the unread
ones and keeps the cursor valid. -/
lemma Valid.advance_eq_ok (hv : cursor.Valid) (h : advance cursor = .ok token after) :
    token = cursor.current ∧ after.Valid ∧ after.failure = cursor.failure ∧
      (token.kind ≠ .endOfInput → cursor.upcoming = token :: after.upcoming) := by
  obtain ⟨rfl, ⟨next, hreserve, rfl⟩ | ⟨-, hend, rfl⟩ | ⟨hreserve, hend, next, pulled, hpull,
    rfl⟩⟩ := advance_cases.mp h
  · exact ⟨rfl, hv.of_reserve hreserve, rfl, fun hkind => upcoming_of_reserve hkind hreserve⟩
  · exact ⟨rfl, hv, rfl, fun hkind => absurd hend hkind⟩
  · -- The token that is pulled may as well be looked at first.
    have hpeek : peek cursor = .ok next { pulled with reserve := some next } :=
      peek_cases.mpr (Or.inr ⟨hreserve, pulled, hpull, rfl⟩)
    obtain ⟨hvalid, hcurrent, hupcoming, hfailure, -⟩ := hv.peek_eq_ok hend hpeek
    have hafter : ({ pulled with current := next } : Cursor) =
        { pulled with current := next, reserve := none } := by
      rw [← hreserve, ← reserve_of_pull hpull]
    rw [hafter]
    refine ⟨rfl, hvalid.of_reserve rfl, hfailure, fun _ => ?_⟩
    rw [← hupcoming, upcoming_of_reserve (hcurrent ▸ hend) rfl, hcurrent]

/-- Moving on succeeds before the end of the input, unless the scan fails right there. -/
lemma Valid.advance_of_upcoming (hv : cursor.Valid) {rest : List Token}
    (h : cursor.upcoming = token :: rest) (hfailure : rest = [] → cursor.failure = none) :
    ∃ after, advance cursor = .ok token after ∧ after.Valid ∧ after.upcoming = rest ∧
      after.failure = cursor.failure := by
  have hcurrent := hv.current_of_upcoming h
  have hkind : token.kind ≠ .endOfInput :=
    kind_ne_end_of_isLexeme (hv.isLexeme token (by simp [h]))
  cases hadvance : advance cursor with
  | ok moved after =>
    obtain ⟨rfl, hafter, hfail, hupcoming⟩ := hv.advance_eq_ok hadvance
    rw [hcurrent] at hupcoming ⊢
    rw [h] at hupcoming
    exact ⟨after, rfl, hafter, ((List.cons.inj (hupcoming hkind)).2).symm, hfail⟩
  | error error failed =>
    unfold advance at hadvance
    rw [← hcurrent] at hkind
    cases hreserve : cursor.reserve with
    | some next => simp [hreserve] at hadvance
    | none =>
      rw [upcoming_of_ne_end hkind, hreserve] at h
      have hrest : cursor.rest = rest := (List.cons.inj h).2
      simp only [hreserve, atEnd, hkind, decide_false, Bool.false_eq_true, if_false] at hadvance
      unfold pull at hadvance
      cases rest with
      | cons next more => simp [hrest] at hadvance
      | nil => simp [hrest, hfailure rfl] at hadvance

/-- Looking at the next token succeeds if there is one. -/
lemma Valid.peek_of_upcoming (hv : cursor.Valid) {first : Token} {rest : List Token}
    (h : cursor.upcoming = first :: token :: rest) :
    ∃ after, peek cursor = .ok token after ∧ after.Valid ∧ after.current = cursor.current ∧
      after.upcoming = cursor.upcoming ∧ after.failure = cursor.failure := by
  have hkind : cursor.current.kind ≠ .endOfInput := by
    rw [hv.current_of_upcoming h]
    exact kind_ne_end_of_isLexeme (hv.isLexeme first (by simp [h]))
  cases hpeek : peek cursor with
  | ok next after =>
    obtain ⟨hafter, hcurrent, hupcoming, hfailure, hnext⟩ := hv.peek_eq_ok hkind hpeek
    rcases hnext with ⟨-, more, hmore⟩ | ⟨-, hone⟩
    · rw [h] at hmore
      simp only [List.cons.injEq] at hmore
      obtain ⟨-, rfl, -⟩ := hmore
      exact ⟨after, rfl, hafter, hcurrent, hupcoming, hfailure⟩
    · rw [h] at hone
      cases hone
  | error error failed =>
    unfold peek at hpeek
    cases hreserve : cursor.reserve with
    | some next => simp [hreserve] at hpeek
    | none =>
      rw [upcoming_of_ne_end hkind, hreserve] at h
      have hrest : cursor.rest = token :: rest := (List.cons.inj h).2
      simp [hreserve, pull, hrest] at hpeek

/-- The cursor of a text stands before all of its tokens. -/
lemma of_ofText {text : String} (h : ofText text = .ok cursor) :
    cursor.Valid ∧ cursor.upcoming = (scan text).tokens ∧
      cursor.failure = (scan text).failure := by
  have hlexeme : ∀ t ∈ (scan text).tokens, t.word.IsLexeme := fun t ht =>
    Scan.isLexeme_of_mem_run ht
  unfold ofText at h
  cases htokens : (scan text).tokens with
  | cons first rest =>
    rw [htokens] at hlexeme
    simp only [htokens, Except.ok.injEq] at h
    subst h
    have hkind : ∀ t ∈ first :: rest, t.kind ≠ .endOfInput := fun t ht =>
      kind_ne_end_of_isLexeme (hlexeme t ht)
    have hfirst := hkind first List.mem_cons_self
    have hupcoming : Cursor.upcoming ⟨first, none, rest, (scan text).failure,
        text.toList.length⟩ = first :: rest := by
      simp [upcoming, met, hfirst]
    refine ⟨⟨?_, fun t ht => hkind t (List.mem_cons_of_mem _ ht), by simp,
      fun hend => absurd hend hfirst⟩, hupcoming, rfl⟩
    rw [hupcoming]
    exact hlexeme
  | nil =>
    cases hfailure : (scan text).failure with
    | some error => simp [htokens, hfailure] at h
    | none =>
      simp only [htokens, hfailure, Except.ok.injEq] at h
      subst h
      refine ⟨⟨?_, by simp, by simp, fun _ => ⟨rfl, rfl, by simp⟩⟩, rfl, rfl⟩
      intro t ht
      simp [upcoming, met, Token.atEnd] at ht

/-- A text with lexemes has a cursor. -/
lemma exists_ofText {text : String} (h : (scan text).words ≠ []) :
    ∃ cursor, ofText text = .ok cursor := by
  unfold ofText
  cases htokens : (scan text).tokens with
  | nil => exact absurd (by simp [Scan.words, htokens]) h
  | cons token rest =>
    simp only [htokens]
    exact ⟨_, rfl⟩

/-- A text without an error has a cursor. -/
lemma exists_ofText_of_failure {text : String} (h : (scan text).failure = none) :
    ∃ cursor, ofText text = .ok cursor := by
  unfold ofText
  cases htokens : (scan text).tokens with
  | nil =>
    simp only [htokens, h]
    exact ⟨_, rfl⟩
  | cons token rest =>
    simp only [htokens]
    exact ⟨_, rfl⟩

/-- Looking past the end of the input keeps a cursor valid. -/
lemma Valid.peek_of_end (hv : cursor.Valid) (hend : cursor.current.kind = .endOfInput)
    (h : peek cursor = .ok token after) : after.Valid := by
  rcases peek_cases.mp h with ⟨-, rfl⟩ | ⟨-, pulled, hpull, rfl⟩
  · exact hv
  obtain ⟨hrest, hfailure, -⟩ := hv.current_end hend
  rcases pull_eq_ok.mp hpull with ⟨hnext, -⟩ | ⟨-, -, rfl, rfl⟩
  · rw [hrest] at hnext
    cases hnext
  · refine ⟨?_, by simp [hrest], fun t _ _ => ⟨hrest, hfailure⟩, fun _ => ⟨hrest, hfailure, ?_⟩⟩
    · intro t ht
      simp [upcoming, met, hend, hrest, Token.atEnd] at ht
    · rintro t ⟨⟩
      rfl

/-- Looking at the next token keeps a cursor valid. -/
lemma Valid.of_peek (hv : cursor.Valid) (h : peek cursor = .ok token after) : after.Valid := by
  by_cases hend : cursor.current.kind = .endOfInput
  · exact hv.peek_of_end hend h
  · exact (hv.peek_eq_ok hend h).1

/-- The cursors that steps lead to from the start of a text. -/
inductive Reached (text : String) : Cursor → Prop
  | start {cursor : Cursor} : ofText text = .ok cursor → Reached text cursor
  | advance {cursor after : Cursor} {token : Token} : Reached text cursor →
      Cursor.advance cursor = .ok token after → Reached text after
  | peek {cursor after : Cursor} {token : Token} : Reached text cursor →
      Cursor.peek cursor = .ok token after → Reached text after

/-- Wherever steps lead in a text, the cursor is valid. -/
lemma Reached.valid {text : String} (h : cursor.Reached text) : cursor.Valid := by
  induction h with
  | start hstart => exact (of_ofText hstart).1
  | advance _ hstep ih => exact (ih.advance_eq_ok hstep).2.1
  | peek _ hstep ih => exact ih.of_peek hstep

end Cursor

end Pddl
