import Pddl.Proofs.DomainTracing
import Pddl.Proofs.Partition
import Pddl.Proofs.PlanTracing

/-!
# Lexical errors are reported

Reading a whole text as a domain, a problem or a plan succeeds only if the whole text can be
scanned, and fails only as the text accounts for (`IsAccountedFor`).  So an error of the scan is
never lost (`parse_reports_lexical`): the reading reports it, or has failed at an earlier place.  No
reading makes up an error of its own.
-/

namespace Pddl

variable {text : String} {α : Type}

/-! ### Outcomes of whole texts -/

/-- The outcome is accounted for by the text: a document needs a text that can be scanned to its
end, and a failure arises from the text or is one of the `other` ones. -/
def IsAccountedFor (text : String) (other : Failure → Prop) : Except Failure α → Prop
  | .ok _ => (scan text).failure = none
  | .error failure => failure.Arises text other

/-- The report on a run that succeeds only at the end of a text without an error. -/
lemma isAccountedFor_ofOutcome {σ : Type} {other : Failure → Prop} {log : σ → List Notice}
    {outcome : EStateM.Result Failure σ α}
    (h : Reader.Ends (Failure.Arises text other) (fun _ _ => (scan text).failure = none) outcome) :
    IsAccountedFor text other (Report.ofOutcome log outcome).result := by
  cases outcome with
  | ok value state => exact h
  | error failure state => exact h

/-- The outcome of a reader that reads to the end of the input. -/
lemma Reader.run_isAccountedFor {other : Failure → Prop} {reader : ReadM α} {context : Context}
    (h : TracesFrom text other (scan text).tokens reader fun _ rest => rest = []) :
    IsAccountedFor text other (run reader context text).result := by
  cases hcursor : Cursor.ofText text with
  | error error =>
    unfold run
    rw [hcursor]
    exact .lexical (Cursor.ofText_eq_error.mp hcursor).2
  | ok cursor =>
    rw [run_eq_ofOutcome reader context hcursor]
    apply isAccountedFor_ofOutcome
    refine (h context (.ofCursor cursor []) (.of_ofText hcursor)).mono ?_
    rintro value state ⟨rest, -, hstands, rfl⟩
    exact hstands.failure_of_nil

/-- The outcome of reading a problem. -/
lemma Problem.parse_isAccountedFor (settings : Settings) (text : String) (capacity : Nat) :
    IsAccountedFor text (fun _ => False) (Problem.parse settings text capacity).result :=
  Reader.run_isAccountedFor Reader.problem_tracesFrom

/-- The outcome of reading a plan. -/
lemma Plan.parse_isAccountedFor (settings : Settings) (text : String) :
    IsAccountedFor text (Plan.Overflows text) (Plan.parse settings text).result :=
  Reader.run_isAccountedFor Reader.plan_tracesFrom

/-- The outcome of reading a domain. -/
lemma Domain.parse_isAccountedFor (settings : Settings) (text : String) (capacity : Nat) :
    IsAccountedFor text (Domain.Finds text) (Domain.parse settings text capacity).result := by
  cases hcursor : Cursor.ofText text with
  | error error =>
    unfold parse
    rw [hcursor]
    exact .lexical (Cursor.ofText_eq_error.mp hcursor).2
  | ok cursor =>
    have hstart : (Assembly.ofCursor cursor).StandsAt text [] (scan text).tokens :=
      ⟨.of_ofText hcursor, List.Sublist.refl _, .empty⟩
    rw [parse_eq_ofOutcome settings capacity hcursor]
    apply isAccountedFor_ofOutcome
    refine (Assembly.domain_tracesFrom (.document settings true capacity) _ hstart).mono ?_
    rintro domain assembly ⟨passed, rest, hstands, rfl⟩
    exact hstands.cursor.failure_of_nil

/-! ### Places before the error of the scan -/

/-- Every token starts before the error that ends the scan. -/
lemma Token.offset_lt_of_failure {token : Token} {error : LexError}
    (htoken : token ∈ (scan text).tokens) (herror : (scan text).failure = some error) :
    token.offset < error.place.offset := by
  have hsplits : Scan.Splits [] text.toList (scan text) := Scan.splits_run rfl
  obtain ⟨head, tail, -, hplace, -, -, -, hends, -⟩ := hsplits.exists_of_failure herror
  have hend := hends token htoken
  have hlength : 0 < token.text.length := by
    rw [Nat.pos_iff_ne_zero, Ne, String.length_eq_zero_iff]
    exact (hsplits.spelled htoken).1
  rw [hplace]
  change token.offset < head.length
  unfold Token.endOffset at hend
  omega

/-- A failure that is not an error of the scan is at a token of the text, or nowhere. -/
def Failure.IsAtTokens (text : String) (failure : Failure) : Prop :=
  (∀ error, failure ≠ .lexical error) ∧
    ∀ offset ∈ failure.location.offset, ∃ token ∈ (scan text).tokens, token.offset = offset

/-- The defects of a domain are at tokens, or nowhere. -/
lemma Domain.Finds.isAtTokens {failure : Failure} (h : Domain.Finds text failure) :
    failure.IsAtTokens text := by
  cases h with
  | @duplicate earlier token kind hsublist =>
    refine ⟨nofun, ?_⟩
    rintro _ ⟨⟩
    exact ⟨token, hsublist.subset (by simp), rfl⟩
  | @unplaced defect hnone =>
    refine ⟨nofun, fun offset hoffset => ?_⟩
    cases defect with
    | duplicate kind token => cases hnone
    | _ => cases hoffset

/-- A time that is out of range has no place. -/
lemma Plan.Overflows.isAtTokens {failure : Failure} (h : Plan.Overflows text failure) :
    failure.IsAtTokens text := by
  cases h with
  | intro =>
    refine ⟨nofun, ?_⟩
    rintro _ ⟨⟩

/-! ### Lexical errors -/

/-- Where the scan of the text fails, there is no document: the failure is the error of the scan, or
another one that is at an earlier place if it has a place.  And the only lexical error that can be
reported is that of the scan. -/
structure ReportsLexical (text : String) (result : Except Failure α) : Prop where
  fails : ∀ error, (scan text).failure = some error → ∃ failure, result = .error failure ∧
    (failure = .lexical error ∨ (∀ other, failure ≠ .lexical other) ∧
      ∀ offset ∈ failure.location.offset, offset < error.place.offset)
  genuine : ∀ error, result = .error (.lexical error) → (scan text).failure = some error

/-- An outcome that the text accounts for reports the errors of its scan. -/
lemma IsAccountedFor.reportsLexical {other : Failure → Prop} {result : Except Failure α}
    (h : IsAccountedFor text other result)
    (hother : ∀ failure, other failure → failure.IsAtTokens text) : ReportsLexical text result where
  fails := by
    intro error herror
    cases result with
    | ok value =>
      -- A document is read to the end of the text, where the scan cannot have failed.
      have hnone : (scan text).failure = none := h
      rw [herror] at hnone
      cases hnone
    | error failure =>
      refine ⟨failure, rfl, ?_⟩
      cases h with
      | lexical hfailure =>
        rw [herror] at hfailure
        cases hfailure
        exact Or.inl rfl
      | found expected cause htoken =>
        refine Or.inr ⟨nofun, ?_⟩
        rintro _ ⟨⟩
        exact Token.offset_lt_of_failure htoken herror
      | ended expected cause hnone =>
        rw [herror] at hnone
        cases hnone
      | tooLong =>
        refine Or.inr ⟨nofun, ?_⟩
        rintro _ ⟨⟩
      | other hfailure =>
        obtain ⟨hlexical, htokens⟩ := hother failure hfailure
        refine Or.inr ⟨hlexical, fun offset hoffset => ?_⟩
        obtain ⟨token, htoken, rfl⟩ := htokens offset hoffset
        exact Token.offset_lt_of_failure htoken herror
  genuine := by
    rintro error rfl
    cases h with
    | lexical hfailure => exact hfailure
    | other hfailure => exact absurd rfl ((hother _ hfailure).1 error)

/-- No reading loses an error of the scan, whatever the settings: it reports the error, or fails at
an earlier place.  And no reading reports another lexical error. -/
theorem parse_reports_lexical (settings : Settings) (text : String) (capacity : Nat) :
    ReportsLexical text (Domain.parse settings text capacity).result ∧
      ReportsLexical text (Problem.parse settings text capacity).result ∧
      ReportsLexical text (Plan.parse settings text).result := by
  refine ⟨?_, ?_, ?_⟩
  · exact (Domain.parse_isAccountedFor settings text capacity).reportsLexical fun _ h =>
      h.isAtTokens
  · exact (Problem.parse_isAccountedFor settings text capacity).reportsLexical fun _ h => h.elim
  · exact (Plan.parse_isAccountedFor settings text).reportsLexical fun _ h => h.isAtTokens

/-- The failure that is reported, if there is one. -/
def Report.failure? (report : Report α) : Option Failure :=
  match report.result with
  | .ok _ => none
  | .error failure => some failure

/-- What follows a problem is scanned to its end, also where it is skipped. -/
example : (Problem.parse .lenient "(define (problem p) (:domain d) (:goal (q))) r\n ?").failure? =
    some (.lexical ⟨'?', ⟨2, 1, 48⟩⟩) := by
  decide +kernel

end Pddl
