import Pddl.Proofs.Room

/-!
# Parsers come to an end

A call that reads a part of a document reads a token or fails (`Call.lowers_run`), no call puts
tokens back, and each round of a loop reads a token or is the last one (`Loop.progresses`).  So the
unread tokens bound both the rounds of a loop and the expressions that are open at once, and a
parser that may keep open any number of expressions comes to an end on every text: it never stops
for want of rounds or of room (`Parser.progress_and_termination`).
-/

namespace Pddl

namespace Reader

/-! ### Parts of documents -/

/-- Expecting a text. -/
lemma expectText_lowers {kind : Token.Kind} (hkind : kind ≠ .endOfInput) (text expected : String) :
    Lowers State.cursor (expectText kind text expected) := by
  refine .of_passes fun hv h => ?_
  obtain ⟨-, hc⟩ := expectText_consumes hv h hkind
  exact ⟨_, _, hc.passes⟩

/-- A keyword. -/
lemma keyword_lowers (text : String) : Lowers State.cursor (keyword text) := by
  refine .of_passes fun hv h => ?_
  obtain ⟨-, -, hc⟩ := keyword_consumes hv h
  exact ⟨_, _, hc.passes⟩

/-- Closing a form. -/
lemma closeForm_lowers (opener : Token) (reason : String) :
    Lowers State.cursor (closeForm opener reason) := by
  refine .of_passes fun hv h => ?_
  obtain ⟨t, -, hc⟩ := closeForm_consumes hv h
  exact ⟨_, _, hc.passes⟩

/-- A name. -/
lemma name_lowers (expected : String) : Lowers State.cursor (name expected) :=
  (expect_lowers (by decide) _).bind fun _ => .pure _

/-- A number. -/
lemma number_lowers : Lowers State.cursor number := by
  refine .of_passes fun hv h => ?_
  obtain ⟨t, -, -, hc⟩ := number_consumes hv h
  exact ⟨_, _, hc.passes⟩

/-- A type. -/
lemma typeSpec_lowers (allowEither : Bool) : Lowers State.cursor (typeSpec allowEither) := by
  intro c s type s' hv h
  obtain ⟨ts, hc, hspelled⟩ := typeSpec_spelled hv h
  refine Advanced.of_passes hc.passes ?_
  rintro rfl
  cases hspelled

/-- A section of requirements. -/
lemma requirements_lowers : Lowers State.cursor requirements := by
  refine .of_passes fun hv h => ?_
  obtain ⟨flags, closing, hpasses, -⟩ := requirements_passes hv h
  exact ⟨_, _, hpasses⟩

/-- An atom after its opening parenthesis. -/
lemma atomicFormula_lowers (ground : Bool) : Lowers State.cursor (atomicFormula ground) := by
  refine .of_passes fun hv h => ?_
  obtain ⟨args, closing, hc, -⟩ := atomicFormula_consumes hv h
  exact ⟨_, _, hc.passes⟩

/-- A fluent. -/
lemma fluent_lowers : Lowers State.cursor fluent :=
  fun _ _ _ _ hv h => Advanced.of_term (fluent_term hv h)

/-- Expressions with all of the budget. -/
lemma Budgeted.lowers_any {reader : Nat → ReadM Expr} (h : Budgeted reader) :
    Lowers State.cursor (budget >>= reader) :=
  shrinks_compositional.budget.bind_lowers h.lowers

/-- Parameters. -/
lemma parameters_lowers : Lowers State.cursor parameters := by
  have hR := shrinks_compositional
  refine (keyword_lowers _).bind fun _ => hR.bind (hR.expect _ _) fun _ => ?_
  exact hR.bind (hR.typedList _ _) fun _ => hR.bind (hR.expect _ _) fun _ => hR.pure _

/-- An instantaneous action. -/
lemma action_lowers : Lowers State.cursor action := by
  refine .of_passes fun hv h => ?_
  obtain ⟨ts, hc, -⟩ := action_consumes hv h
  exact ⟨_, _, hc.passes⟩

/-- A durative action. -/
lemma durativeAction_lowers : Lowers State.cursor durativeAction := by
  refine .of_passes fun hv h => ?_
  obtain ⟨ts, hc, -⟩ := durativeAction_consumes hv h
  exact ⟨_, _, hc.passes⟩

/-- A metric. -/
lemma metric_lowers : Lowers State.cursor metric := by
  have hR := shrinks_compositional
  refine (expect_lowers (by decide) _).bind fun _ => ?_
  split
  · exact hR.bind hR.anyNumericTerm fun _ => hR.pure _
  · exact hR.failAt _ _ nofun

end Reader

/-- A section from its keyword on. -/
lemma Assembly.anySection_lowers : Reader.Lowers standpoint anySection := by
  intro c a u a' hv h
  obtain ⟨hkeyword, kind, -, hsection⟩ := anySection_eq_ok h
  obtain ⟨tokens, hpasses, -⟩ := sectionOf_reads hv hkeyword hsection
  exact Reader.Advanced.of_passes hpasses (List.cons_ne_nil _ _)

/-! ### Calls -/

/-- Does the call read a part of a document that is not empty? -/
def SharedCall.readsPart : SharedCall → Bool
  | .expect kind _ => kind ≠ .endOfInput
  | .expectText kind _ _ => kind ≠ .endOfInput
  | .keyword _ | .closeForm _ _ | .name _ | .number | .typeSpec _ | .requirements
  | .atomicFormula _ | .parenthesizedAtom _ | .condition _ | .effect _ | .fluent | .numericTerm
  | .durationConstraint => true
  | .nested inner => inner.readsPart
  | .atEnd | .arithmeticAllowed | .peek | .advance | .require _ _ | .endOfDocument
  | .typedList _ _ => false

/-- A call that reads a part reads a token or fails. -/
lemma SharedCall.lowers_run (call : SharedCall) (hpart : call.readsPart = true) :
    Reader.Lowers Reader.State.cursor call.run := by
  have hread {α : Type} {m : ReadM α} (hm : Reader.Lowers Reader.State.cursor m) :
      Reader.Lowers Reader.State.cursor (do let _ ← m : ReadM Unit) :=
    hm.bind fun _ => .pure _
  induction call with
  | expect kind expected => exact hread (Reader.expect_lowers (of_decide_eq_true hpart) _)
  | expectText kind text expected =>
    exact hread (Reader.expectText_lowers (of_decide_eq_true hpart) _ _)
  | keyword text => exact hread (Reader.keyword_lowers _)
  | closeForm opener reason => exact Reader.closeForm_lowers _ _
  | name expected => exact hread (Reader.name_lowers _)
  | number => exact hread Reader.number_lowers
  | typeSpec allowEither => exact hread (Reader.typeSpec_lowers _)
  | requirements => exact hread Reader.requirements_lowers
  | atomicFormula ground => exact hread (Reader.atomicFormula_lowers _)
  | parenthesizedAtom ground =>
    exact hread ((Reader.expect_lowers (by decide) _).bind fun _ =>
      Reader.shrinks_compositional.atomicFormula _)
  | condition temporal => exact hread (Reader.Budgeted.condition temporal).lowers_any
  | effect temporal => exact hread (Reader.Budgeted.effect temporal).lowers_any
  | fluent => exact hread Reader.fluent_lowers
  | numericTerm => exact hread Reader.Budgeted.term.lowers_any
  | durationConstraint => exact hread Reader.Budgeted.duration.lowers_any
  | nested inner ih => exact .nested (ih hpart)
  | _ => cases hpart

namespace Call

variable {parser : Parser}

/-- Does the call read a part of a document that is not empty? -/
def readsPart : Call parser → Bool
  | .shared call => call.readsPart
  | .anySection | .skeleton | .parameters | .action | .durativeAction | .initElement | .metric
  | .planStep _ => true
  | .domain | .functionList | .addAction _ | .problem | .plan => false

/-- A call that reads a part reads a token or fails. -/
lemma lowers_run (call : Call parser) (hpart : call.readsPart = true) :
    Reader.Lowers Assembly.standpoint call.run := by
  have hread {α : Type} {m : ReadM α} (hm : Reader.Lowers Reader.State.cursor m) :
      Reader.Lowers Assembly.standpoint (do let _ ← Assembly.ofReader m : AssembleM Unit) :=
    (Assembly.lowers_ofReader hm).bind fun _ => .pure _
  cases call with
  | shared call => exact Assembly.lowers_ofReader (call.lowers_run hpart)
  | anySection => exact Assembly.anySection_lowers
  | skeleton => exact hread Reader.skeleton_lowers
  | parameters => exact hread Reader.parameters_lowers
  | action => exact hread Reader.action_lowers
  | durativeAction => exact hread Reader.durativeAction_lowers
  | initElement => exact hread Reader.initElement_lowers
  | metric => exact hread Reader.metric_lowers
  | planStep index => exact hread (Reader.planStep_lowers _)
  | _ => cases hpart

/-- What a call does from a state, in a context with any capacity. -/
structure Proceeds (call : Call parser) (c : Reader.Context) (a : Assembly) : Prop where
  /-- Whether it returns or fails, it stays in its text and puts no tokens back. -/
  remains : a.cursor.Remains (Reader.lastState (call.run c a)).cursor
  /-- If it reads a part, it fails or there are fewer unread tokens after it. -/
  lowers : call.readsPart = true → ∀ a', call.run c a = .ok () a' →
    a'.cursor.unread < a.cursor.unread
  /-- Without a capacity it does not fail for want of room. -/
  spared : Reader.Spared (call.run (c.withCapacity none) a)
  /-- With a capacity it does the same, or fails for want of room. -/
  orTooDeep : ∀ capacity, Reader.OrTooDeep (call.run (c.withCapacity capacity) a)
    (call.run (c.withCapacity none) a)

/-- All calls proceed. -/
lemma proceeds (call : Call parser) (c : Reader.Context) {a : Assembly} (hv : a.cursor.Valid) :
    call.Proceeds c a where
  remains := call.leads_remains c a
  lowers := fun hpart a' h => (call.lowers_run hpart c a () a' hv h).2
  spared := call.hasRoom.spared _ a hv fun _ hcapacity => absurd hcapacity (by
    simp [Reader.Context.withCapacity])
  orTooDeep := fun capacity => call.boundless.run c capacity a hv

end Call

/-! ### Loops -/

namespace Reader

/-- The loops of readers, and the tokens at which they may stop. -/
inductive Loop : ∀ {ι α : Type}, (Nat → ι → ReadM α) → (Token → Prop) → Prop
  | items {α : Type} {test : Token → Bool} {item : ReadM α} : Repeated test item →
      Loop (fun n (_ : Unit) => whileFuel test item n) fun token => test token = false
  | typedGroups (kind : Token.Kind) (allowEither : Bool) :
      Loop (fun n (_ : Unit) => Reader.typedGroups kind allowEither n)
        fun token => token.kind = .closeParen ∨ token.kind = .endOfInput
  | skipRest : Loop Reader.skipRest fun token => token.kind = .endOfInput
  | planSteps : Loop Reader.planSteps fun token => token.kind = .endOfInput

/-- Each round of a loop reads a token or is the last one. -/
lemma Loop.progresses {ι α : Type} {loop : Nat → ι → ReadM α} {stops : Token → Prop}
    (h : Loop loop stops) : Progresses State.cursor loop stops := by
  cases h with
  | items hrepeated => exact whileFuel_progresses hrepeated
  | typedGroups kind allowEither => exact typedGroups_progresses kind allowEither
  | skipRest => exact skipRest_progresses
  | planSteps => exact planSteps_progresses

/-- The readers that other readers use for parts of expressions. -/
inductive Portion : ∀ {α : Type}, ReadM α → Prop
  | timeAhead : Portion timeAhead?
  | quantified : Portion quantifiedVariables
  | arithmetic (budget : Nat) : Portion (Reader.arithmetic (numericTerm budget))
  | comparison (budget : Nat) (governed : Bool) :
      Portion (Reader.comparison (numericTerm budget) governed)
  | update (op : UpdateOp) (budget : Nat) : Portion (numericUpdate op (numericTerm budget))
  | timed {reader : Nat → ReadM Expr} (time : TimeSpec) (allowed inEffect : Bool) (budget : Nat) :
      Budgeted reader → Portion (Reader.timed time allowed inEffect (reader budget))
  | expression {reader : Nat → ReadM Expr} (budget : Nat) :
      Budgeted reader → Portion (reader budget)

/-- Readers of parts of expressions put no tokens back, either. -/
lemma Portion.leads_remains {α : Type} {m : ReadM α} (h : Portion m) : Leads State.Remains m := by
  have hR := remains_compositional
  cases h with
  | timeAhead => exact hR.timeAhead?
  | quantified => exact hR.quantifiedVariables
  | arithmetic budget => exact hR.arithmetic (.term budget) (hR.numericTerm budget)
  | comparison budget governed => exact hR.comparison (hR.numericTerm budget) governed
  | update op budget => exact hR.numericUpdate (hR.numericTerm budget) op
  | timed time allowed inEffect budget h => exact hR.timed (hR.withBudget h budget) _ _ _
  | expression budget h => exact hR.withBudget h budget

end Reader

namespace Assembly

/-- The loops of readers of domains, and the tokens at which they may stop. -/
inductive Loop : ∀ {ι : Type}, (Nat → ι → AssembleM Unit) → (Token → Prop) → Prop
  | predicates : Loop
      (fun n (_ : Unit) => whileFuel (Reader.hasKind .openParen) predicate n)
      fun token => Reader.hasKind .openParen token = false
  | sections : Loop
      (fun n (_ : Unit) => whileFuel (Reader.hasKind .openParen) (do
        let _ ← ofReader Reader.openParen
        anySection) n)
      fun token => Reader.hasKind .openParen token = false
  | functionGroups : Loop (fun n (_ : Unit) => Assembly.functionGroups n)
      fun token => token.kind ≠ .openParen ∧ token.kind ≠ .minus

/-- Each round of a loop reads a token or is the last one. -/
lemma Loop.progresses {ι : Type} {loop : Nat → ι → AssembleM Unit} {stops : Token → Prop}
    (h : Loop loop stops) : Reader.Progresses standpoint loop stops := by
  cases h with
  | predicates => exact whileFuel_progresses predicate_lowers
  | sections => exact whileFuel_progresses parenthesizedSection_lowers
  | functionGroups => exact functionGroups_progresses

end Assembly

/-! ### Texts -/

namespace Report

variable {α σ : Type} {log : σ → List Notice}

/-- The report is on a failure for want of room. -/
def IsTooDeep (report : Report α) : Prop :=
  ∃ failure, report.result = .error failure ∧ failure.IsTooDeep

/-- The second report is not on a failure for want of room, and the first one is the same or on such
a failure. -/
structure EndsAs (report wide : Report α) : Prop where
  spared : ¬ wide.IsTooDeep
  same : report = wide ∨ report.IsTooDeep

/-- A run that does not fail for want of room. -/
lemma not_isTooDeep_of_spared {outcome : EStateM.Result Failure σ α} (h : Reader.Spared outcome) :
    ¬ (ofOutcome log outcome).IsTooDeep := by
  rintro ⟨failure, hfailure, hdeep⟩
  cases outcome with
  | ok value s => cases hfailure
  | error other s =>
    cases hfailure
    exact h _ s rfl hdeep

/-- Runs with and without a capacity. -/
lemma EndsAs.of_outcomes {outcome wide : EStateM.Result Failure σ α} (hwide : Reader.Spared wide)
    (h : Reader.OrTooDeep outcome wide) : (ofOutcome log outcome).EndsAs (ofOutcome log wide) where
  spared := not_isTooDeep_of_spared hwide
  same := by
    rcases h with rfl | ⟨failure, s, rfl, hdeep⟩
    · exact Or.inl rfl
    · exact Or.inr ⟨failure, rfl, hdeep⟩

/-- A text that does not start with a token. -/
lemma EndsAs.of_lexical (error : LexError) (notices : List Notice) :
    (⟨.error (.lexical error), notices⟩ : Report α).EndsAs ⟨.error (.lexical error), notices⟩ where
  spared := by
    rintro ⟨failure, hfailure, hdeep⟩
    cases hfailure
    exact hdeep
  same := Or.inl rfl

end Report

/-- Without a capacity there is room for any number of open expressions. -/
lemma Reader.Context.exceeds_unlimited (settings : Settings) (governs : Bool) (n : Nat) :
    (unlimited settings governs).Exceeds n :=
  fun _ hcapacity => by cases hcapacity

/-- With a capacity a reader ends as it does without one. -/
lemma Reader.run_endsAs {α : Type} {reader : ReadM α} (hroom : HasRoom State.cursor
    Context.Exceeds reader) (hboundless : Boundless State.cursor reader) (settings : Settings)
    (governs : Bool) (text : String) (capacity : Nat) :
    (run reader (.document settings governs capacity) text).EndsAs
      (run reader (.unlimited settings governs) text) := by
  cases hcursor : Cursor.ofText text with
  | error error =>
    unfold run
    rw [hcursor]
    exact .of_lexical error []
  | ok cursor =>
    have hv := (Cursor.of_ofText hcursor).1
    rw [run_eq_ofOutcome reader _ hcursor, run_eq_ofOutcome reader _ hcursor]
    exact .of_outcomes
      (hroom.spared _ (.ofCursor cursor []) hv (Context.exceeds_unlimited settings governs _))
      (hboundless.run (.unlimited settings governs) (some capacity) (.ofCursor cursor []) hv)

/-- Reads the domain that a text defines in any context. -/
def Domain.parseIn (c : Reader.Context) (text : String) : Report Domain :=
  match Cursor.ofText text with
  | .error error => ⟨.error (.lexical error), []⟩
  | .ok cursor => .ofOutcome Assembly.notices (Assembly.domain c (.ofCursor cursor))

/-- With a capacity a domain is read as it is without one. -/
lemma Domain.parse_endsAs (settings : Settings) (text : String) (capacity : Nat) :
    (parse settings text capacity).EndsAs (parseIn (.unlimited settings true) text) := by
  cases hcursor : Cursor.ofText text with
  | error error =>
    unfold parse parseIn
    rw [hcursor]
    exact .of_lexical error []
  | ok cursor =>
    have hv := (Cursor.of_ofText hcursor).1
    have hroom := Assembly.Compositional.domain Reader.hasRoom_documentary
      Assembly.hasRoom_compositional
    have hboundless := Assembly.Compositional.domain Reader.boundless_documentary
      Assembly.boundless_compositional
    rw [parse_eq_ofOutcome settings capacity hcursor]
    unfold parseIn
    rw [hcursor]
    exact .of_outcomes
      (hroom.spared _ (.ofCursor cursor) hv (Reader.Context.exceeds_unlimited settings true _))
      (hboundless.run (.unlimited settings true) (some capacity) (.ofCursor cursor) hv)

namespace Parser

open Reader (Budgeted Progresses Sufficient Repeated)

/-- Reading makes progress in every state of a parser, and so it comes to an end, if the parser may
keep open any number of expressions. -/
theorem progress_and_termination :
    -- A parser stands in its text before and after any calls, whether they return or fail.
    (∀ (parser : Parser) (text : String) (cursor : Cursor), Cursor.ofText text = .ok cursor →
      ∀ (c : Reader.Context) (calls : List (Call parser)),
        ∀ a ∈ parser.start cursor :: Call.statesAfter c calls (parser.start cursor),
          a.cursor.Valid) ∧
    -- Calls put no tokens back, those that read a part read a token, and there is always room.
    (∀ (parser : Parser) (call : Call parser) (c : Reader.Context) (a : Assembly),
      a.cursor.Valid → call.Proceeds c a) ∧
    -- The readers of parts of expressions, which are no calls, put no tokens back, either.
    (∀ (α : Type) (m : ReadM α), Reader.Portion m → ∀ (c : Reader.Context) (s : Reader.State),
      s.cursor.Remains (Reader.lastState (m c s)).cursor) ∧
    -- What a loop repeats fails or reads a token.
    (∀ (α : Type) (test : Token → Bool) (item : ReadM α), Repeated test item →
      ∀ (c : Reader.Context) (s s' : Reader.State) (a : α), s.cursor.Valid →
        test s.cursor.current = true → item c s = .ok a s' →
          s'.cursor.unread < s.cursor.unread) ∧
    -- Each round of a loop reads a token or is the last one, so there are always rounds enough.
    (∀ (ι α : Type) (loop : Nat → ι → ReadM α) (stops : Token → Prop), Reader.Loop loop stops →
      Progresses Reader.State.cursor loop stops ∧
        ∀ i, Sufficient Reader.State.cursor fun n => loop n i) ∧
    (∀ (ι : Type) (loop : Nat → ι → AssembleM Unit) (stops : Token → Prop),
      Assembly.Loop loop stops → Progresses Assembly.standpoint loop stops ∧
        ∀ i, Sufficient Assembly.standpoint fun n => loop n i) ∧
    -- The unread tokens bound the expressions that are open at once.
    (∀ reader : Nat → ReadM Expr, Budgeted reader → ∀ (c : Reader.Context) (s : Reader.State),
      s.cursor.Valid → ∀ n > s.cursor.unread, Reader.Spared (reader n c s) ∧
        ∀ n' > s.cursor.unread, reader n' c s = reader n c s) ∧
    -- Every text is read to an end, or to where the capacity is spent.
    ∀ (settings : Settings) (text : String) (capacity : Nat),
      (Domain.parse settings text capacity).EndsAs
        (Domain.parseIn (.unlimited settings true) text) ∧
      (Problem.parse settings text capacity).EndsAs
        (Reader.run Reader.problem (.unlimited settings false) text) ∧
      ¬ (Plan.parse settings text).IsTooDeep := by
  refine ⟨fun parser text cursor hcursor => Call.valid_statesAfter hcursor,
    fun parser call c a hv => call.proceeds c hv, fun α m hportion => hportion.leads_remains,
    fun α test item hrepeated c s s' a hv htest hrun => (hrepeated.advanced hv htest hrun).2,
    fun ι α loop stops hloop => ⟨hloop.progresses, hloop.progresses.sufficient⟩,
    fun ι loop stops hloop => ⟨hloop.progresses, hloop.progresses.sufficient⟩,
    fun reader hreader c s hv n hn => ⟨(hreader.hasRoom n).spared c s hv hn, fun n' hn' =>
      hreader.eq_of_unread_lt hv hn' hn⟩, fun settings text capacity => ?_⟩
  have hR := Reader.hasRoom_documentary
  have hB := Reader.boundless_documentary
  exact ⟨Domain.parse_endsAs settings text capacity,
    Reader.run_endsAs hR.problem hB.problem settings false text capacity,
    (Reader.run_endsAs hR.plan hB.plan settings false text capacity).spared⟩

/-- Operands are read up to the closing parenthesis; where the text ends before it, the reader fails
where it stands, and not for want of room. -/
theorem progress_and_termination_operands :
    (∃ cursor a', Cursor.ofText "(- ?x 2) (p)" = .ok cursor ∧
      (Call.shared .numericTerm : Call .base).run (.unlimited .lenient false) (base.start cursor) =
        .ok () a' ∧
      a'.cursor.unread < (base.start cursor).cursor.unread) ∧
    ∃ cursor failure a', Cursor.ofText "(- ?x 2" = .ok cursor ∧
      (Call.shared .numericTerm : Call .base).run (.unlimited .lenient false) (base.start cursor) =
        .error failure a' ∧
      ¬ failure.IsTooDeep ∧ a'.cursor.Valid ∧
      a'.cursor.unread ≤ (base.start cursor).cursor.unread := by
  obtain ⟨hvalid, hproceeds, -⟩ := progress_and_termination
  have hstart {text : String} {cursor : Cursor} (hcursor : Cursor.ofText text = .ok cursor) :
      (base.start cursor).cursor.Valid :=
    hvalid .base text cursor hcursor (.unlimited .lenient false) [] _ List.mem_cons_self
  constructor
  · have hok : (Reader.run Reader.anyNumericTerm (.unlimited .lenient false)
        "(- ?x 2) (p)").result.isOk = true := by
      decide +kernel
    cases hrun : (Reader.run Reader.anyNumericTerm (.unlimited .lenient false)
        "(- ?x 2) (p)").result with
    | error failure =>
      rw [hrun] at hok
      cases hok
    | ok e =>
      obtain ⟨cursor, s', hcursor, hread⟩ := Reader.run_eq_ok.mp hrun
      have hcall : (Call.shared .numericTerm : Call .base).run (.unlimited .lenient false)
          (base.start cursor) = .ok () { base.start cursor with toState := s' } :=
        Assembly.ofReader_eq_ok.mpr ⟨s', Reader.bind_eq_ok.mpr ⟨e, s', hread, rfl⟩, rfl⟩
      exact ⟨cursor, _, hcursor, hcall,
        (hproceeds _ _ _ _ (hstart hcursor)).lowers rfl _ hcall⟩
  · have hfailure : (scan "(- ?x 2").failure = none := by decide +kernel
    obtain ⟨cursor, hcursor⟩ := Cursor.exists_ofText_of_failure hfailure
    have hproceeds := hproceeds .base (.shared .numericTerm) (.unlimited .lenient false)
      (base.start cursor) (hstart hcursor)
    cases hcall : (Call.shared .numericTerm : Call .base).run (.unlimited .lenient false)
        (base.start cursor) with
    | ok u a' =>
      obtain ⟨s', hshared, -⟩ := Assembly.ofReader_eq_ok.mp hcall
      obtain ⟨e, s₁, hread, -⟩ := Reader.bind_eq_ok.mp hshared
      have hresult := Reader.run_eq_ok.mpr ⟨cursor, s₁, hcursor, hread⟩
      have hnotOk : (Reader.run Reader.anyNumericTerm (.unlimited .lenient false)
          "(- ?x 2").result.isOk = false := by
        decide +kernel
      rw [hresult] at hnotOk
      cases hnotOk
    | error failure a' =>
      have hremains := hproceeds.remains
      rw [hcall] at hremains
      exact ⟨cursor, failure, a', hcursor, hcall, hproceeds.spared failure a' hcall,
        hremains.valid (hstart hcursor), hremains.unread⟩

end Parser

end Pddl
