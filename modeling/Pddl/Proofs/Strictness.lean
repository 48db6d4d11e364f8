import Pddl.Proofs.LastState

/-!
# Strict reading is lenient reading cut at the first warning

Settings decide whether a breach of the requirements is a warning or a failure.  A text is read
twice, under lenient and under strict settings that are otherwise the same.  Both runs agree until
the lenient one leaves its first warning; there the strict one fails, on the line and with the
message of the warning, whatever the lenient run comes to afterwards (`strict_isCutOf_lenient`).
`Follows` relates the outcomes of the two runs.  It is shown for the steps of readers, of which only
reports depend on strictness, and holds of all readers by composition.
-/

namespace Pddl

namespace Reader

section Runs

variable {σ τ α β : Type}

/-! ### Outcomes of two runs -/

/-- None of the notices is a warning. -/
def Quiet (notices : List Notice) : Prop :=
  ∀ notice ∈ notices, notice.level ≠ .warning

/-- No notices are quiet. -/
lemma quiet_nil : Quiet [] :=
  fun _ hmem => absurd hmem List.not_mem_nil

/-- Quiet notices stay quiet when quiet ones follow. -/
lemma Quiet.append {first second : List Notice} (hfirst : Quiet first) (hsecond : Quiet second) :
    Quiet (first ++ second) := by
  intro notice hmem
  rcases List.mem_append.mp hmem with hmem | hmem
  · exact hfirst notice hmem
  · exact hsecond notice hmem

/-- The failure that a breach at a token is under strict settings. -/
def breachFailure (token : Token) (breach : Breach) : Failure :=
  .grammar (.atToken token breach.expected (.breach breach))

/-- The outcomes of a lenient and of a strict run from the state `start`, whose notices `log` finds.
They are the same if the lenient run leaves no warning; otherwise the strict run fails with the
first warning, having left the notices before it. -/
inductive Follows (log : σ → List Notice) (start : σ) :
    EStateM.Result Failure σ α → EStateM.Result Failure σ α → Prop
  | same {outcome : EStateM.Result Failure σ α} (added : List Notice) :
      log (lastState outcome) = log start ++ added → Quiet added → Follows log start outcome outcome
  | cut {outcome : EStateM.Result Failure σ α} (before after : List Notice) {token : Token}
      {breach : Breach} {final : σ} :
      log (lastState outcome) = log start ++ before ++ .warning token.line breach :: after →
      Quiet before → log final = log start ++ before →
      Follows log start outcome (.error (breachFailure token breach) final)

variable {log : σ → List Notice} {start : σ} {lenient strict : EStateM.Result Failure σ α}

/-- A lenient run adds to the notices. -/
lemma Follows.log_lenient (h : Follows log start lenient strict) :
    ∃ added, log (lastState lenient) = log start ++ added := by
  cases h with
  | same added hlog _ => exact ⟨added, hlog⟩
  | cut before after hlog _ _ => exact ⟨_, by rw [hlog, List.append_assoc]⟩

/-- Two runs that leave no notices have the same outcome. -/
lemma Follows.of_log_eq (h : log (lastState lenient) = log start) :
    Follows log start lenient lenient :=
  .same [] (by rw [h, List.append_nil]) quiet_nil

/-- Two runs follow each other if they do after a common beginning without warnings. -/
lemma Follows.after {before : σ} {added : List Notice} (h : Follows log start lenient strict)
    (hlog : log start = log before ++ added) (hquiet : Quiet added) :
    Follows log before lenient strict := by
  cases h with
  | same more hsame hmore =>
    refine .same (added ++ more) ?_ (hquiet.append hmore)
    rw [hsame, hlog, List.append_assoc]
  | cut more after hcut hmore hfinal =>
    refine .cut (added ++ more) after ?_ (hquiet.append hmore) ?_
    · rw [hcut, hlog, List.append_assoc (log before)]
    · rw [hfinal, hlog, List.append_assoc]

/-- A change of the last state that leaves the notices alone does not matter. -/
lemma Follows.map {log' : τ → List Notice} {start' : τ} {change : σ → τ}
    (h : Follows log start lenient strict) (hchange : ∀ state, log' (change state) = log state)
    (hstart : log' start' = log start) :
    Follows log' start' (mapState change lenient) (mapState change strict) := by
  cases h with
  | same added hlog hquiet =>
    refine .same added ?_ hquiet
    rw [lastState_mapState, hchange, hlog, hstart]
  | cut before after hlog hquiet hfinal =>
    refine .cut before after ?_ hquiet ?_
    · rw [lastState_mapState, hchange, hlog, hstart]
    · rw [hchange, hfinal, hstart]

/-! ### Readers that follow -/

/-- In every context and from every state, the strict run of the reader follows the lenient one. -/
def Cuts (log : σ → List Notice) (m : ReaderT Context (EStateM Failure σ) α) : Prop :=
  ∀ (c : Context) (s : σ), Follows log s (m (c.withStrict false) s) (m (c.withStrict true) s)

/-- A reader that does the same under all settings and leaves no notices. -/
lemma Cuts.of_eq {m : ReaderT Context (EStateM Failure σ) α}
    (hsame : ∀ (c : Context) (s : σ), m (c.withStrict true) s = m (c.withStrict false) s)
    (hlog : ∀ c s, log (lastState (m c s)) = log s) : Cuts log m := by
  intro c s
  rw [hsame]
  exact .of_log_eq (hlog _ s)

/-- In a sequence, the strict run follows the lenient one through both parts. -/
lemma Cuts.bind {m : ReaderT Context (EStateM Failure σ) α}
    {f : α → ReaderT Context (EStateM Failure σ) β} (hm : Cuts log m) (hf : ∀ a, Cuts log (f a)) :
    Cuts log (m >>= f) := by
  intro c s
  have hfirst := hm c s
  generalize hstrict : m (c.withStrict true) s = strict at hfirst
  cases hlenient : m (c.withStrict false) s with
  | error failure t =>
    rw [hlenient] at hfirst
    rw [bind_of_error hlenient]
    cases hfirst with
    | same added hlog hquiet =>
      rw [bind_of_error hstrict]
      exact .same added hlog hquiet
    | cut before after hlog hquiet hfinal =>
      rw [bind_of_error hstrict]
      exact .cut before after hlog hquiet hfinal
  | ok a t =>
    rw [hlenient] at hfirst
    rw [bind_of_ok hlenient]
    have hrest := hf a c t
    cases hfirst with
    | same added hlog hquiet =>
      rw [bind_of_ok hstrict]
      exact hrest.after hlog hquiet
    | cut before after hlog hquiet hfinal =>
      -- The lenient run goes on, but the notices before its first warning stay the same.
      obtain ⟨more, hmore⟩ := hrest.log_lenient
      rw [bind_of_error hstrict]
      refine .cut before (after ++ more) ?_ hquiet hfinal
      rw [hmore, show log t = _ from hlog, List.append_assoc, List.cons_append]

/-- A returned value is returned under all settings. -/
lemma Cuts.pure (a : α) : Cuts log (pure a : ReaderT Context (EStateM Failure σ) α) :=
  .of_eq (fun _ _ => rfl) (fun _ _ => rfl)

/-- A failure is raised under all settings. -/
lemma Cuts.throw (failure : Failure) :
    Cuts log (throw failure : ReaderT Context (EStateM Failure σ) α) :=
  .of_eq (fun _ _ => rfl) (fun _ _ => rfl)

end Runs

/-! ### Steps of readers -/

variable {α : Type}

/-- A reader that looks at the state. -/
lemma Cuts.get {f : State → ReadM α} (hf : ∀ s, Cuts State.log (f s)) :
    Cuts State.log (get >>= f) :=
  fun c s => hf s c s

/-- A reader that looks at the context, but not at its strictness. -/
lemma Cuts.read {f : Context → ReadM α} (hsame : ∀ c strict, f (c.withStrict strict) = f c)
    (hf : ∀ c, Cuts State.log (f c)) : Cuts State.log (read >>= f) := by
  intro c s
  change Follows _ _ (f (c.withStrict false) (c.withStrict false) s)
    (f (c.withStrict true) (c.withStrict true) s)
  rw [hsame, hsame]
  exact hf c c s

/-- Steps of the cursor leave no notices. -/
lemma Cuts.onCursor (step : CursorM α) : Cuts State.log (onCursor step) := by
  refine .of_eq (fun _ _ => rfl) fun c s => ?_
  unfold Reader.onCursor
  cases step s.cursor with
  | ok value cursor => rfl
  | error error cursor => rfl

/-- A breach is a warning in the lenient run and the corresponding failure in the strict one. -/
lemma Cuts.report (token : Token) (breach : Breach) : Cuts State.log (report token breach) := by
  intro c s
  have hstrict : Reader.report token breach (c.withStrict true) s =
      .error (breachFailure token breach) s := rfl
  rw [hstrict]
  refine .cut [] [] ?_ quiet_nil (List.append_nil _).symm
  rw [List.append_nil]
  rfl

/-- Other notices are left by both runs. -/
lemma Cuts.note {notice : Notice} (hlevel : notice.level ≠ .warning) :
    Cuts State.log (note notice) := by
  intro c s
  refine .same [notice] rfl ?_
  intro other hmem
  rw [List.mem_singleton.mp hmem]
  exact hlevel

/-- The check of the depth leaves no notices. -/
lemma Cuts.checkDepth : Cuts State.log checkDepth := by
  refine .read (fun _ _ => rfl) fun c => ?_
  split
  · exact .pure _
  · refine .get fun s => ?_
    split
    · exact .bind (.get fun _ => .pure _) fun _ => .throw _
    · exact .pure _

/-- A reader one level deeper. -/
lemma Cuts.nested {body : ReadM α} (hbody : Cuts State.log body) :
    Cuts State.log (nested body) := by
  intro c s
  have hinner := Cuts.bind Cuts.checkDepth (fun _ => hbody) c { s with depth := s.depth + 1 }
  rw [nested_eq_mapState, nested_eq_mapState]
  exact hinner.map (fun _ => rfl) rfl

/-- Being cut at the first warning is a property of all readers. -/
lemma cuts_compositional : Compositional (Cuts State.log) where
  pure := .pure
  bind := .bind
  get := fun _ => .get
  rounds := fun _ hloop c s => hloop _ c s
  budget := by
    refine .read (fun _ _ => rfl) fun c => ?_
    split
    · exact .pure _
    · exact .get fun _ => .pure _
  read := fun hsame _ _ hf => .read hsame hf
  raise := .throw
  peek := .onCursor _
  advance := .onCursor _
  report := .report
  note := fun _ => .note
  declare := fun _ => .of_eq (fun _ _ => rfl) (fun _ _ => rfl)
  nested := .nested

end Reader

/-! ### Readers of domains -/

namespace Assembly

/-- A reader that leaves the declarations alone. -/
lemma cuts_ofReader {α : Type} {m : ReadM α} (hm : Reader.Cuts Reader.State.log m) :
    Reader.Cuts notices (ofReader m) := by
  intro c a
  rw [ofReader_eq_mapState, ofReader_eq_mapState]
  exact (hm c a.toState).map (fun _ => rfl) rfl

/-- Being cut at the first warning is a property of all readers of domains. -/
lemma cuts_compositional :
    Compositional (Reader.Cuts Reader.State.log) (Reader.Cuts notices) where
  pure := .pure
  bind := .bind
  throw := fun _ => .throw _
  ofReader := cuts_ofReader
  rounds := fun _ hloop c a => hloop _ c a
  declare := fun _ => .of_eq (fun _ _ => rfl) (fun _ _ => rfl)
  declared? := .of_eq (fun _ _ => rfl) (fun _ _ => rfl)

end Assembly

/-! ### Reports -/

namespace Report

variable {α σ : Type}

/-- The warnings among the notices, in the order in which they were left. -/
def warnings (report : Report α) : List Notice :=
  report.log.filter fun notice => notice.level = .warning

/-- The strict report is the lenient one cut at its first warning. -/
structure IsCutOf (strict lenient : Report α) : Prop where
  /-- Without warnings the outcome, a document or a failure, is the same. -/
  result_eq : lenient.warnings = [] → strict.result = lenient.result
  /-- The first warning names a line and a breach; the breach is the failure, on that line,
  whatever the lenient outcome is. -/
  fails : ∀ first others, lenient.warnings = first :: others →
    ∃ line breach error, first = .warning line breach ∧
      first.message = s!"Line {line}: " ++ breach.message ∧
      strict.result = .error (.grammar error) ∧
      (Failure.grammar error).message = breach.message ∧
      (Failure.grammar error).location.line = some line
  /-- The notices are those before the first warning. -/
  log_eq : strict.log = lenient.log.takeWhile fun notice => notice.level ≠ .warning

/-- The notices of a report on a run are those of its last state. -/
@[simp] lemma log_ofOutcome (log : σ → List Notice) (outcome : EStateM.Result Failure σ α) :
    (ofOutcome log outcome).log = log (Reader.lastState outcome) := by
  cases outcome with
  | ok value state => rfl
  | error failure state => rfl

/-- Quiet notices hold no warnings. -/
lemma filter_warning_of_quiet {notices : List Notice} (h : Reader.Quiet notices) :
    (notices.filter fun notice => notice.level = .warning) = [] := by
  rw [List.filter_eq_nil_iff]
  intro notice hmem
  simpa using h notice hmem

/-- Quiet notices are taken as a whole, up to a warning that follows. -/
lemma takeWhile_of_quiet {notices : List Notice} (h : Reader.Quiet notices) (rest : List Notice) :
    ((notices ++ rest).takeWhile fun notice => notice.level ≠ .warning) =
      notices ++ rest.takeWhile fun notice => notice.level ≠ .warning := by
  refine List.takeWhile_append_of_pos ?_
  intro notice hmem
  simpa using h notice hmem

/-- A report without warnings is cut nowhere. -/
lemma IsCutOf.refl {report : Report α} (h : Reader.Quiet report.log) : report.IsCutOf report where
  result_eq := fun _ => rfl
  fails := by
    intro first others hwarnings
    rw [warnings, filter_warning_of_quiet h] at hwarnings
    cases hwarnings
  log_eq := by
    have htake := takeWhile_of_quiet h []
    rw [List.append_nil, List.takeWhile_nil, List.append_nil] at htake
    exact htake.symm

/-- A run that follows another from a state without notices has the report of the other, cut at its
first warning. -/
lemma isCutOf_of_follows {log : σ → List Notice} {start : σ}
    {lenient strict : EStateM.Result Failure σ α} (hstart : log start = [])
    (h : Reader.Follows log start lenient strict) :
    (ofOutcome log strict).IsCutOf (ofOutcome log lenient) := by
  cases h with
  | same added hlog hquiet =>
    rw [hstart, List.nil_append] at hlog
    refine .refl ?_
    rw [log_ofOutcome, hlog]
    exact hquiet
  | @cut before after token breach final hlog hquiet hfinal =>
    rw [hstart, List.nil_append] at hlog hfinal
    have hwarnings : (ofOutcome log lenient).warnings = .warning token.line breach ::
        after.filter fun notice => notice.level = .warning := by
      rw [warnings, log_ofOutcome, hlog, List.filter_append, filter_warning_of_quiet hquiet]
      rfl
    refine ⟨?_, ?_, ?_⟩
    · intro hnone
      rw [hwarnings] at hnone
      cases hnone
    · intro first others hfirst
      rw [hwarnings, List.cons.injEq] at hfirst
      obtain ⟨rfl, -⟩ := hfirst
      exact ⟨token.line, breach, _, rfl, rfl, rfl, rfl, rfl⟩
    · change log final = _
      rw [hfinal, log_ofOutcome, hlog, takeWhile_of_quiet hquiet]
      exact (List.append_nil before).symm

end Report

/-! ### Documents -/

/-- The strict report on a domain is the lenient one cut at its first warning. -/
lemma Domain.parse_isCutOf (settings : Settings) (text : String) (capacity : Nat) :
    (parse { settings with strictRequirements := true } text capacity).IsCutOf
      (parse { settings with strictRequirements := false } text capacity) := by
  cases hcursor : Cursor.ofText text with
  | error error =>
    unfold parse
    rw [hcursor]
    exact .refl Reader.quiet_nil
  | ok cursor =>
    rw [parse_eq_ofOutcome _ _ hcursor, parse_eq_ofOutcome _ _ hcursor]
    have hcuts : Reader.Cuts Assembly.notices Assembly.domain :=
      Assembly.Compositional.domain Reader.cuts_compositional.toDocumentary
        Assembly.cuts_compositional
    exact Report.isCutOf_of_follows rfl
      (hcuts (.document settings true capacity) (Assembly.ofCursor cursor))

/-- The strict report on a problem is the lenient one cut at its first warning. -/
lemma Problem.parse_isCutOf (settings : Settings) (text : String) (capacity : Nat) :
    (parse { settings with strictRequirements := true } text capacity).IsCutOf
      (parse { settings with strictRequirements := false } text capacity) := by
  unfold parse
  cases hcursor : Cursor.ofText text with
  | error error =>
    unfold Reader.run
    rw [hcursor]
    exact .refl Reader.quiet_nil
  | ok cursor =>
    rw [Reader.run_eq_ofOutcome _ _ hcursor, Reader.run_eq_ofOutcome _ _ hcursor]
    have hcuts : Reader.Cuts Reader.State.log Reader.problem := Reader.cuts_compositional.problem
    exact Report.isCutOf_of_follows rfl
      (hcuts (.document settings false capacity) (.ofCursor cursor []))

/-- For every text, reading a domain or a problem under strict settings is reading it under lenient
settings, cut at the first warning. -/
theorem Settings.strict_isCutOf_lenient (settings : Settings) (text : String) (capacity : Nat) :
    (Domain.parse { settings with strictRequirements := true } text capacity).IsCutOf
        (Domain.parse { settings with strictRequirements := false } text capacity) ∧
      (Problem.parse { settings with strictRequirements := true } text capacity).IsCutOf
        (Problem.parse { settings with strictRequirements := false } text capacity) :=
  ⟨Domain.parse_isCutOf settings text capacity, Problem.parse_isCutOf settings text capacity⟩

/-- The lenient outcome after a warning does not matter: here it is a failure. -/
example :
    (Domain.parse .lenient "(define (domain d) (:requirements :x)").result.isOk = false ∧
      (Domain.parse .lenient "(define (domain d) (:requirements :x)").warnings =
        [.warning 1 (.unknownFlag ":x")] := by
  decide +kernel

end Pddl
