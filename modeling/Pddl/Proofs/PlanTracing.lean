import Pddl.Proofs.DoubleRange
import Pddl.Proofs.Soundness
import Pddl.Proofs.Tracing
import Pddl.Reader.Plan

/-!
# The readers of plans trace their failures

A plan is read step by step, and each step slot by slot: a time, an action, a bracket and a
duration.  `Precedes` says which tokens come before a slot, without reference to how they are read.
The readers of plans fail as the text accounts for, and with one failure of their own: where a time
or a duration belongs, the text has an integer that is too large for a finite double (`Overflows`).
-/

namespace Pddl

namespace Plan

/-! ### The slots of a plan -/

/-- The slots of a step: its time, its action, the bracket before its duration and the duration. -/
inductive Slot
  | time
  | action
  | bracket
  | duration

/-- The tokens come before the slot in a list of steps.  A step may lack its time, and its bracket
together with its duration. -/
inductive Precedes : Slot → List Token → Prop
  | start : Precedes .time []
  | timed {before : List Token} {number colon : Token} : Precedes .time before →
      number.kind = .number → colon.kind = .colon → Precedes .action (before ++ [number, colon])
  | untimed {before : List Token} : Precedes .time before → Precedes .action before
  | acted {before args : List Token} {opening name closing : Token} : Precedes .action before →
      opening.kind = .openParen → name.kind = .name → (∀ arg ∈ args, arg.kind = .name) →
      closing.kind = .closeParen →
      Precedes .bracket (before ++ opening :: name :: (args ++ [closing]))
  | opened {before : List Token} {bracket : Token} : Precedes .bracket before →
      bracket.kind = .openBracket → Precedes .duration (before ++ [bracket])
  | lasting {before : List Token} {number closing : Token} : Precedes .duration before →
      number.kind = .number → closing.kind = .closeBracket →
      Precedes .time (before ++ [number, closing])
  | instant {before : List Token} : Precedes .bracket before → Precedes .time before

/-- The last tokens of a text begin at the slot. -/
def BeginsAt (text : String) (slot : Slot) (tokens : List Token) : Prop :=
  ∃ before, (scan text).tokens = before ++ tokens ∧ Precedes slot before

/-- A number for a time or a duration is an integer that no finite double is near to. -/
inductive Overflows (text : String) : Failure → Prop
  | intro {slot : Slot} {token : Token} {rest : List Token} {n : Int} :
      slot = .time ∨ slot = .duration → BeginsAt text slot (token :: rest) →
      token.kind = .number → Number.ofText? token.text = some (.int n) →
      2 ^ 1024 - 2 ^ 970 ≤ n.natAbs → Overflows text .timeOutOfRange

/-- After some tokens, the text goes on at the slot that they lead to. -/
lemma BeginsAt.skip {text : String} {slot slot' : Slot} (used : List Token) {rest : List Token}
    (h : BeginsAt text slot (used ++ rest))
    (hused : ∀ before, Precedes slot before → Precedes slot' (before ++ used)) :
    BeginsAt text slot' rest := by
  obtain ⟨before, hbefore, hslot⟩ := h
  exact ⟨before ++ used, by rw [hbefore, List.append_assoc], hused before hslot⟩

end Plan

/-- Only large integers have no double. -/
lemma Number.exists_of_toFloat?_eq_none {value : Number} (h : value.toFloat? = none) :
    ∃ n, value = .int n ∧ 2 ^ 1024 - 2 ^ 970 ≤ n.natAbs := by
  cases value with
  | real x => cases h
  | int n =>
    refine ⟨n, rfl, (Number.isInf_ofInt_iff n).mp ?_⟩
    by_contra hfinite
    simp [Number.toFloat?, hfinite] at h

namespace Reader

open Plan (BeginsAt Overflows Precedes)

variable {text : String} {tokens : List Token}

/-! ### The parts of a step -/

/-- Reading a number where a time or a duration belongs. -/
lemma time_tracesFrom {slot : Plan.Slot} (hslot : slot = .time ∨ slot = .duration)
    (h : BeginsAt text slot tokens) :
    TracesFrom text (Overflows text) tokens time fun _ rest =>
      ∃ token, token.kind = .number ∧ tokens = token :: rest := by
  refine number_tracesFrom.bind fun value rest _ hvalue => ?_
  obtain ⟨token, hkind, hvalue, rfl⟩ := hvalue
  split
  case h_1 => exact .pure ⟨token, hkind, rfl⟩
  case h_2 hnone =>
    obtain ⟨n, rfl, hlarge⟩ := Number.exists_of_toFloat?_eq_none hnone
    exact .throw (.other (.intro hslot h hkind hvalue hlarge))

/-- Reading the time of a step leads to its action. -/
lemma stepTime?_tracesFrom (h : BeginsAt text .time tokens) :
    TracesFrom text (Overflows text) tokens stepTime? fun _ rest => BeginsAt text .action rest := by
  refine currentKind_tracesFrom.bind fun kind rest _ hkind => ?_
  obtain ⟨-, rfl⟩ := hkind
  split
  case isTrue =>
    refine (time_tracesFrom (.inl rfl) h).bind fun time rest _ htime => ?_
    obtain ⟨number, hnumber, rfl⟩ := htime
    refine (expect_tracesFrom (by decide) _).bind fun colon rest _ hcolon => ?_
    obtain ⟨-, hcolon, rfl⟩ := hcolon
    exact .pure (h.skip [number, colon] fun before hbefore => .timed hbefore hnumber hcolon)
  case isFalse =>
    obtain ⟨before, hbefore, hslot⟩ := h
    exact .pure ⟨before, hbefore, .untimed hslot⟩

/-- What is left of an action after its opening parenthesis: a name, the names of its arguments and
a closing parenthesis. -/
def IsActionTail (tokens : List Token) : Prop :=
  ∃ name args closing, tokens = name :: (args ++ [closing]) ∧ name.kind = .name ∧
    (∀ arg ∈ args, arg.kind = .name) ∧ closing.kind = .closeParen

/-- Reading a ground atom passes the tail of an action. -/
lemma groundAtom_tracesFrom {other : Failure → Prop} :
    TracesFrom text other tokens (atomicFormula true) fun _ rest =>
      ∃ used, tokens = used ++ rest ∧ IsActionTail used := by
  refine (atomicFormula_traces true tokens).consuming fun c s atom s' hv hrun => ?_
  obtain ⟨args, closing, hc, hname, hargs, hclosing, -⟩ := atomicFormula_consumes hv hrun
  refine ⟨_, hc, _, args, closing, rfl, hname, ?_, hclosing⟩
  intro arg harg
  simpa [isArgument] using hargs arg harg

/-- Reading the action of a step leads to its bracket. -/
lemma stepAction_tracesFrom (h : BeginsAt text .action tokens) :
    TracesFrom text (Overflows text) tokens
      (nested do
        let _ ← expect .openParen "'(' opening a plan step"
        atomicFormula true) fun _ rest =>
      BeginsAt text .bracket rest ∧ rest.length < tokens.length := by
  refine nested_tracesFrom ((expect_tracesFrom (by decide) _).bind fun opening rest _ hopen => ?_)
  obtain ⟨-, hopen, rfl⟩ := hopen
  refine groundAtom_tracesFrom.mono fun _ rest' hsuffix hused => ?_
  obtain ⟨used, rfl, name, args, closing, rfl, hname, hargs, hclosing⟩ := hused
  refine ⟨?_, Nat.lt_succ_of_le hsuffix.length_le⟩
  rw [← List.cons_append] at h
  exact h.skip _ fun before hbefore => .acted hbefore hopen hname hargs hclosing

/-- Reading the duration of a step leads to the next step. -/
lemma stepDuration?_tracesFrom (h : BeginsAt text .bracket tokens) :
    TracesFrom text (Overflows text) tokens stepDuration? fun _ rest =>
      BeginsAt text .time rest := by
  refine currentKind_tracesFrom.bind fun kind rest _ hkind => ?_
  obtain ⟨hkind, rfl⟩ := hkind
  split
  case isTrue hopen =>
    refine advance_tracesFrom.bind fun bracket rest' _ hbracket => ?_
    obtain ⟨rfl, -, rfl⟩ := hbracket
    rw [hkind] at hopen
    have hcons : rest = front text rest :: rest.tail :=
      eq_cons_of_front (by rw [hopen]; decide)
    rw [hcons] at h
    have hduration : BeginsAt text .duration rest.tail :=
      h.skip [front text rest] fun before hbefore => .opened hbefore hopen
    refine (time_tracesFrom (.inr rfl) hduration).bind fun time rest _ htime => ?_
    obtain ⟨number, hnumber, htail⟩ := htime
    refine (expect_tracesFrom (by decide) _).bind fun closing rest' _ hclosing => ?_
    obtain ⟨-, hclosing, rfl⟩ := hclosing
    rw [htail] at hduration
    exact .pure (hduration.skip [number, closing] fun before hbefore =>
      .lasting hbefore hnumber hclosing)
  case isFalse =>
    obtain ⟨before, hbefore, hslot⟩ := h
    exact .pure ⟨before, hbefore, .instant hslot⟩

/-! ### Steps and plans -/

/-- Reading a step leads to the next one. -/
lemma planStep_tracesFrom (index : Int) (h : BeginsAt text .time tokens) :
    TracesFrom text (Overflows text) tokens (planStep index) fun _ rest =>
      BeginsAt text .time rest ∧ rest.length < tokens.length := by
  refine (stepTime?_tracesFrom h).bind fun time rest hrest hafter => ?_
  refine (stepAction_tracesFrom hafter).bind fun action rest' _ hafter => ?_
  refine (stepDuration?_tracesFrom hafter.1).bind fun duration rest'' hrest'' hafter' => ?_
  refine .pure ⟨hafter', ?_⟩
  calc rest''.length ≤ rest'.length := hrest''.length_le
    _ < rest.length := hafter.2
    _ ≤ tokens.length := hrest.length_le

/-- Reading steps leads to the end of the input, if there are rounds enough. -/
lemma planSteps_tracesFrom (fuel : Nat) : ∀ (index : Nat) (tokens : List Token),
    tokens.length < fuel → BeginsAt text .time tokens →
    TracesFrom text (Overflows text) tokens (planSteps fuel index) fun _ rest => rest = [] := by
  induction fuel with
  | zero => exact fun _ _ hlength => absurd hlength (Nat.not_lt_zero _)
  | succ fuel ih =>
    intro index tokens hlength h
    refine atEnd_tracesFrom.bind fun ended rest _ hended => ?_
    obtain ⟨hended, rfl⟩ := hended
    split
    case isTrue hend => exact .pure (hended hend)
    case isFalse =>
      -- A step passes its action at least, so fewer tokens are left for fewer rounds.
      refine (planStep_tracesFrom _ h).bind fun step rest' _ hstep => ?_
      refine (ih _ _ (by omega) hstep.1).bind fun others rest'' _ hrest'' => ?_
      exact .pure hrest''

/-- Reading a plan, up to the end of the input. -/
lemma plan_tracesFrom :
    TracesFrom text (Overflows text) (scan text).tokens plan fun _ rest => rest = [] := by
  refine rounds_tracesFrom.bind fun n rest _ h => ?_
  obtain ⟨rfl, rfl⟩ := h
  refine (planSteps_tracesFrom _ 0 _ (Nat.lt_succ_self _) ⟨[], rfl, .start⟩).bind
    fun steps rest _ hrest => ?_
  exact (note_tracesFrom _).bind_still fun _ => .pure hrest

end Reader

end Pddl
