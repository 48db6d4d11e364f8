import Pddl.Proofs.Outcomes

/-!
# Failures are located faithfully

Failures are made in many places, some of them from tokens that were passed long before.  Wherever
they come from, their location is a true place in the text (`PointsAt`): that of the token or of the
character that does not fit, or of the name that is declared again.  Only a text that ends too early
has its failure at its end, without a line and a column.
-/

namespace Pddl

variable {text : String} {α : Type}

/-- The word stands in the text at the location: its offset counts the characters before the word,
its line is one more than the number of newlines among them, and its column counts from the last of
these newlines. -/
def Location.PointsAt (text : String) (location : Location) (word : List Char) : Prop :=
  word ≠ [] ∧ ∃ before after, text.toList = before ++ (word ++ after) ∧
    location = .ofPlace (.after before)

/-- The failure says truly where it is. -/
def Failure.IsFaithful (text : String) (failure : Failure) : Prop :=
  match failure with
  | .lexical error => failure.location.PointsAt text [error.char]
  | .grammar error =>
    match error.found with
    | some token =>
      failure.location.PointsAt text token.text.toList ∧ error.offset = token.offset
    | none => failure.location = ⟨some text.length, none, none⟩
  | .invalid (.duplicate _ token) =>
    failure.location.PointsAt text token.text.toList ∧
      ∃ earlier, [earlier, token].Sublist (scan text).tokens ∧ earlier.kind = .name ∧
        token.kind = .name ∧ earlier.key = token.key
  | .invalid _ | .integerTooLong | .timeOutOfRange => True

/-- The location of a token is where its text stands. -/
lemma Location.ofToken_pointsAt {token : Token} (h : token ∈ (scan text).tokens) :
    (Location.ofToken token).PointsAt text token.text.toList := by
  have hsplits : Scan.Splits [] text.toList (scan text) := Scan.splits_run rfl
  obtain ⟨before, after, heq, hplace, hlongest⟩ := hsplits.exists_of_mem h
  refine ⟨hlongest.isLexeme.ne_nil, before, after, heq, ?_⟩
  unfold Location.ofToken Location.ofPlace
  rw [hplace.line, hplace.column, hplace.offset]

/-- The location of the error of the scan is where its character stands. -/
lemma Location.ofPlace_pointsAt {error : LexError} (h : (scan text).failure = some error) :
    (Location.ofPlace error.place).PointsAt text [error.char] := by
  have hsplits : Scan.Splits [] text.toList (scan text) := Scan.splits_run rfl
  obtain ⟨before, after, heq, hplace, -⟩ := hsplits.exists_of_failure h
  exact ⟨List.cons_ne_nil _ _, before, after, heq, by rw [hplace]⟩

/-- The defects of a domain are located faithfully. -/
lemma Domain.Finds.isFaithful {failure : Failure} (h : Domain.Finds text failure) :
    failure.IsFaithful text := by
  cases h with
  | @duplicate earlier token kind hsublist hearlier htoken hkey =>
    refine ⟨Location.ofToken_pointsAt (hsublist.subset (by simp)), ?_⟩
    exact ⟨earlier, hsublist, hearlier, htoken, hkey⟩
  | @unplaced defect hnone =>
    cases defect with
    | duplicate kind token => cases hnone
    | _ => exact trivial

/-- A time that is out of range has no location. -/
lemma Plan.Overflows.isFaithful {failure : Failure} (h : Plan.Overflows text failure) :
    failure.IsFaithful text := by
  cases h with
  | intro => exact trivial

/-- A failure that arises from the text is located faithfully. -/
lemma Failure.Arises.isFaithful {other : Failure → Prop} {failure : Failure}
    (h : failure.Arises text other) (hother : other failure → failure.IsFaithful text) :
    failure.IsFaithful text := by
  cases h with
  | lexical herror => exact Location.ofPlace_pointsAt herror
  | found expected cause htoken => exact ⟨Location.ofToken_pointsAt htoken, rfl⟩
  | ended expected cause _ => rfl
  | tooLong => exact trivial
  | other hfailure => exact hother hfailure

/-- Every failure to read a text, as a domain, a problem or a plan and whatever the settings and the
capacity, is located faithfully. -/
theorem parse_failure_isFaithful (settings : Settings) (text : String) (capacity : Nat)
    (failure : Failure) (h : (Domain.parse settings text capacity).result = .error failure ∨
      (Problem.parse settings text capacity).result = .error failure ∨
      (Plan.parse settings text).result = .error failure) : failure.IsFaithful text := by
  rcases h with h | h | h
  · have hdomain := Domain.parse_isAccountedFor settings text capacity
    rw [h] at hdomain
    exact hdomain.isFaithful Domain.Finds.isFaithful
  · have hproblem := Problem.parse_isAccountedFor settings text capacity
    rw [h] at hproblem
    exact hproblem.isFaithful False.elim
  · have hplan := Plan.parse_isAccountedFor settings text
    rw [h] at hplan
    exact hplan.isFaithful Plan.Overflows.isFaithful

/-- A domain that declares a function again, in a group that ends on the next line. -/
def repeatedFunctionText : String :=
  "(define (domain d)\n (:functions (f) (F)\n - number))"

/-- A problem that ends too early. -/
def unfinishedProblemText : String :=
  "(define (problem p) (:domain d)"

/-- A plan with a variable in its second step. -/
def variableStepText : String :=
  "0: (go a)\n1: (stop ?x)"

/-- A reported failure is the result. -/
lemma Report.result_of_failure? {report : Report α} {failure : Failure}
    (h : report.failure? = some failure) : report.result = .error failure := by
  unfold Report.failure? at h
  cases hresult : report.result with
  | ok _ =>
    rw [hresult] at h
    cases h
  | error _ =>
    rw [hresult] at h
    exact congrArg Except.error (Option.some.inj h)

/-- The repeated name is found on the line before the group ends, the problem fails at its end, and
the plan at the variable. -/
theorem parse_failure_isFaithful_repeated :
    (∃ failure, (Domain.parse .lenient repeatedFunctionText).result = .error failure ∧
      failure.location = ⟨some 37, some 2, some 18⟩ ∧ failure.IsFaithful repeatedFunctionText) ∧
    (∃ failure, (Problem.parse .lenient unfinishedProblemText).result = .error failure ∧
      failure.location = ⟨some 31, none, none⟩ ∧ failure.IsFaithful unfinishedProblemText) ∧
    ∃ failure, (Plan.parse .lenient variableStepText).result = .error failure ∧
      failure.location = ⟨some 19, some 2, some 9⟩ ∧ failure.IsFaithful variableStepText := by
  have hdomain : (Domain.parse .lenient repeatedFunctionText).failure?.map
      Failure.location = some ⟨some 37, some 2, some 18⟩ := by decide +kernel
  have hproblem : (Problem.parse .lenient unfinishedProblemText).failure?.map
      Failure.location = some ⟨some 31, none, none⟩ := by decide +kernel
  have hplan : (Plan.parse .lenient variableStepText).failure?.map
      Failure.location = some ⟨some 19, some 2, some 9⟩ := by decide +kernel
  obtain ⟨failure₁, hfirst, hplace₁⟩ := Option.map_eq_some_iff.mp hdomain
  obtain ⟨failure₂, hsecond, hplace₂⟩ := Option.map_eq_some_iff.mp hproblem
  obtain ⟨failure₃, hthird, hplace₃⟩ := Option.map_eq_some_iff.mp hplan
  have h₁ := Report.result_of_failure? hfirst
  have h₂ := Report.result_of_failure? hsecond
  have h₃ := Report.result_of_failure? hthird
  refine ⟨⟨failure₁, h₁, hplace₁, ?_⟩, ⟨failure₂, h₂, hplace₂, ?_⟩, failure₃, h₃, hplace₃, ?_⟩
  · exact parse_failure_isFaithful .lenient _ _ failure₁ (Or.inl h₁)
  · exact parse_failure_isFaithful .lenient _ _ failure₂ (Or.inr (Or.inl h₂))
  · exact parse_failure_isFaithful .lenient _ Reader.documentCapacity failure₃ (Or.inr (Or.inr h₃))

end Pddl
