import Pddl.Proofs.Documents
import Pddl.Proofs.Separation
import Pddl.Reader.Plan

/-!
# Plans are read line by line

A plan is written as lines of a time with a colon, an action between parentheses and a duration
between brackets, where the time and the duration may be missing.  The texts that are read as plans
are exactly those whose tokens are the words of such lines, and `Plan.ofLines?` tells which plan
that is.  Steps whose times are finite are printed as such lines (`PlanStep.spaced_text`), so a plan
that was read can be printed and read again (`Plan.parse_lines`).
-/

namespace Pddl

/-! ### Lines -/

namespace Word

/-- A word that is read as a number. -/
def number (numeral : String) : Word := ⟨.number, numeral⟩

/-- A colon. -/
def colon : Word := ⟨.colon, ":"⟩

/-- An opening bracket. -/
def openBracket : Word := ⟨.openBracket, "["⟩

/-- A closing bracket. -/
def closeBracket : Word := ⟨.closeBracket, "]"⟩

end Word

/-- The double that a numeral spells.  There is none if it is an integer with too many digits or too
large for a finite double. -/
def seconds? (numeral : String) : Option Float :=
  (Number.ofText? numeral).bind Number.toFloat?

/-- A step as it is written, with the numerals of its time and duration. -/
structure StepLine where
  time : Option String
  action : String
  args : List String
  duration : Option String
deriving DecidableEq, Repr

namespace StepLine

/-- The words of a time, if there is one. -/
def timeSpelling : Option String → List Word
  | none => []
  | some numeral => [Word.number numeral, Word.colon]

/-- The words of an action with its arguments. -/
def actionSpelling (line : StepLine) : List Word :=
  Word.group (Word.name line.action :: line.args.map Word.name)

/-- The words of a duration, if there is one. -/
def durationSpelling : Option String → List Word
  | none => []
  | some numeral => [Word.openBracket, Word.number numeral, Word.closeBracket]

/-- The words of a line. -/
def words (line : StepLine) : List Word :=
  timeSpelling line.time ++ (line.actionSpelling ++ durationSpelling line.duration)

/-- The step that a line describes at the given position, which is its time if the line has none. -/
def step? (index : Nat) (line : StepLine) : Option PlanStep := do
  let time ← line.time.mapM seconds?
  let duration ← line.duration.mapM seconds?
  return ⟨time.getD (Float.ofInt index), line.action, line.args, duration⟩

/-- The steps that lines describe, the first of which has the given position. -/
def steps? : Nat → List StepLine → Option (List PlanStep)
  | _, [] => some []
  | index, line :: rest => do
    let step ← line.step? index
    let steps ← steps? (index + 1) rest
    return step :: steps

/-- All numerals of the line spell doubles. -/
def IsConvertible (line : StepLine) : Prop :=
  ∀ numeral ∈ line.time.toList ++ line.duration.toList, (seconds? numeral).isSome = true

variable {line : StepLine} {lines : List StepLine} {step : PlanStep} {steps : List PlanStep}
  {index : Nat}

/-- A numeral that is not missing spells the double that it is converted to. -/
lemma mapM_seconds_some {numeral : String} {value : Option Float} :
    (some numeral).mapM seconds? = some value ↔
      ∃ x, seconds? numeral = some x ∧ some x = value := by
  change (seconds? numeral).map some = some value ↔ _
  rw [Option.map_eq_some_iff]

/-- A line describes a step exactly if its numerals spell the doubles of the step. -/
lemma step?_eq_some : line.step? index = some step ↔
    ∃ time duration, line.time.mapM seconds? = some time ∧
      line.duration.mapM seconds? = some duration ∧
      step = ⟨time.getD (Float.ofInt index), line.action, line.args, duration⟩ := by
  simp only [step?, Option.bind_eq_bind, Option.bind_eq_some_iff, Option.pure_def,
    Option.some.injEq]
  constructor
  · rintro ⟨time, htime, duration, hduration, rfl⟩
    exact ⟨time, duration, htime, hduration, rfl⟩
  · rintro ⟨time, duration, htime, hduration, rfl⟩
    exact ⟨time, htime, duration, hduration, rfl⟩

/-- Lines describe steps exactly if the first line describes the first step and the other lines
describe the other steps. -/
lemma steps?_cons_eq_some : steps? index (line :: lines) = some steps ↔
    ∃ step others, line.step? index = some step ∧ steps? (index + 1) lines = some others ∧
      steps = step :: others := by
  simp only [steps?, Option.bind_eq_bind, Option.bind_eq_some_iff, Option.pure_def,
    Option.some.injEq]
  constructor
  · rintro ⟨step, hstep, others, hothers, rfl⟩
    exact ⟨step, others, hstep, hothers, rfl⟩
  · rintro ⟨step, others, hstep, hothers, rfl⟩
    exact ⟨step, hstep, others, hothers, rfl⟩

/-- A numeral that may be missing spells a double that may be missing. -/
lemma exists_mapM_seconds (numeral : Option String)
    (h : ∀ text ∈ numeral.toList, (seconds? text).isSome = true) :
    ∃ value, numeral.mapM seconds? = some value := by
  cases numeral with
  | none => exact ⟨none, rfl⟩
  | some text =>
    obtain ⟨x, hx⟩ := Option.isSome_iff_exists.mp (h text List.mem_cons_self)
    exact ⟨some x, mapM_seconds_some.mpr ⟨x, hx, rfl⟩⟩

/-- Convertible lines describe steps. -/
lemma exists_steps? (h : ∀ line ∈ lines, line.IsConvertible) :
    ∀ index, ∃ steps, steps? index lines = some steps := by
  induction lines with
  | nil => exact fun _ => ⟨[], rfl⟩
  | cons line rest ih =>
    intro index
    have hline := h line List.mem_cons_self
    obtain ⟨time, htime⟩ := exists_mapM_seconds line.time
      fun text ht => hline text (List.mem_append_left _ ht)
    obtain ⟨duration, hduration⟩ := exists_mapM_seconds line.duration
      fun text ht => hline text (List.mem_append_right _ ht)
    obtain ⟨others, hothers⟩ := ih (fun l hl => h l (List.mem_cons_of_mem _ hl)) (index + 1)
    exact ⟨_, steps?_cons_eq_some.mpr ⟨_, others,
      step?_eq_some.mpr ⟨time, duration, htime, hduration, rfl⟩, hothers, rfl⟩⟩

end StepLine

/-- The plan that lines describe. -/
def Plan.ofLines? (lines : List StepLine) : Option Plan :=
  (StepLine.steps? 0 lines).map Plan.mk

namespace Reader

open StepLine

variable {c : Context} {frame : Frame} {s s' : State} {line : StepLine} {lines : List StepLine}
  {K : List Word → Prop}

/-! ### Lines are read -/

/-- A numeral is read as the double that it spells. -/
lemma time_yields {numeral : String} {x : Float} (h : seconds? numeral = some x) :
    Yields c frame time [Word.number numeral] Anything (fun found => found = x) := by
  obtain ⟨value, hvalue, hx⟩ := Option.bind_eq_some_iff.mp h
  refine Yields.cons (@number_yields c frame (fun _ => numeral) value hvalue) ?_
  rintro _ rfl
  simp only [hx]
  exact pure_yields rfl

/-- The time of a step is read, if it has one. -/
lemma stepTime?_yields {numeral : Option String} {value : Option Float}
    (h : numeral.mapM seconds? = some value) :
    Yields c frame stepTime? (timeSpelling numeral) (Next Word.opening)
      (fun found => found = value) := by
  cases numeral with
  | none =>
    obtain rfl : none = value := Option.some.inj h
    exact currentKind_yields (fun _ hrest => hrest) (pure_yields rfl)
  | some text =>
    obtain ⟨x, hx, rfl⟩ := mapM_seconds_some.mp h
    refine currentKind_yields (w := Word.number text) (fun _ _ => rfl) ?_
    rw [if_pos (show (Word.number text).kind = .number from rfl)]
    refine Yields.cons (time_yields hx) ?_
    rintro _ rfl
    exact Yields.cons (expect_yields rfl) fun _ _ => pure_yields rfl

/-- The duration of a step is read, if it has one and no bracket follows it. -/
lemma stepDuration?_yields {numeral : Option String} {value : Option Float}
    (h : numeral.mapM seconds? = some value) :
    Yields c frame stepDuration? (durationSpelling numeral)
      (fun rest => headKind rest ≠ .openBracket) (fun found => found = value) := by
  cases numeral with
  | none =>
    obtain rfl : none = value := Option.some.inj h
    refine headKind_yields fun rest hrest => ?_
    rw [if_neg (show headKind (durationSpelling none ++ rest) ≠ .openBracket from hrest)]
    exact pure_yields rfl
  | some text =>
    obtain ⟨x, hx, rfl⟩ := mapM_seconds_some.mp h
    refine currentKind_yields (w := Word.openBracket) (fun _ _ => rfl) ?_
    rw [if_pos (show Word.openBracket.kind = .openBracket from rfl)]
    refine Yields.cons advance_yields fun _ _ => ?_
    refine Yields.cons (time_yields hx) ?_
    rintro _ rfl
    exact Yields.cons (expect_yields rfl) fun _ _ => pure_yields rfl

/-- A line is read as the step that it describes. -/
lemma planStep_yields {index : Nat} {step : PlanStep} (h : line.step? index = some step)
    (hlimit : ∀ limit ∈ c.settings.maxNestingDepth, frame.depth + 1 ≤ limit) :
    Yields c frame (planStep index) line.words (fun rest => headKind rest ≠ .openBracket)
      (fun found => found = step) := by
  obtain ⟨time, duration, htime, hduration, rfl⟩ := step?_eq_some.mp h
  refine Yields.bind_of (stepTime?_yields htime) (fun _ _ => rfl) ?_
  rintro _ rfl
  have haction : Yields c frame.deeper (do
      let _ ← expect .openParen "'(' opening a plan step"
      atomicFormula true) line.actionSpelling Anything
      (fun found => found = ⟨line.action, line.args⟩) := by
    refine Yields.cons (expect_yields rfl) fun _ _ => ?_
    exact atomicFormula_yields_spelled ⟨line.action, line.args⟩ Word.name
      (fun _ _ => rfl) fun _ _ => Or.inl rfl
  refine Yields.bind (nested_yields hlimit haction) ?_
  rintro _ rfl
  refine Yields.finish (stepDuration?_yields hduration) ?_
  rintro _ rfl
  exact pure_yields rfl

/-- No line starts with a bracket. -/
lemma headKind_lines (lines : List StepLine) :
    headKind (lines.flatMap StepLine.words) ≠ .openBracket := by
  cases lines with
  | nil => nofun
  | cons line rest =>
    obtain ⟨time, action, args, duration⟩ := line
    cases time <;> nofun

/-- A line has words. -/
lemma exists_words_eq_cons (line : StepLine) :
    ∃ first more, line.words = first :: more ∧ first.kind ≠ .endOfInput := by
  obtain ⟨time, action, args, duration⟩ := line
  cases time with
  | none => exact ⟨_, _, rfl, nofun⟩
  | some numeral => exact ⟨_, _, rfl, nofun⟩

/-- A look whether all input is consumed. -/
lemma atEnd_run : atEnd c s = .ok (decide (s.cursor.current.kind = .endOfInput)) s := rfl

/-- Lines are read up to the end of the input as the steps that they describe. -/
lemma planSteps_yields (hlimit : ∀ limit ∈ c.settings.maxNestingDepth, frame.depth + 1 ≤ limit) :
    ∀ (lines : List StepLine) (fuel index : Nat) (steps : List PlanStep), lines.length < fuel →
      steps? index lines = some steps →
      Yields c frame (planSteps fuel index) (lines.flatMap StepLine.words) (fun rest => rest = [])
        (fun found => found = steps) := by
  intro lines
  induction lines with
  | nil =>
    rintro fuel index steps hfuel h rest s hclean rfl hs
    obtain ⟨fuel, rfl⟩ := Nat.exists_eq_succ_of_ne_zero (Nat.ne_of_gt hfuel)
    obtain rfl : [] = steps := Option.some.inj h
    refine ⟨[], s, ?_, rfl, hs⟩
    rw [planSteps, bind_of_ok atEnd_run, if_pos (decide_eq_true hs.atEnd)]
    rfl
  | cons line lines ih =>
    rintro fuel index _ hfuel h rest s hclean hK hs
    obtain ⟨fuel, rfl⟩ := Nat.exists_eq_succ_of_ne_zero (Nat.ne_of_gt (Nat.zero_lt_of_lt hfuel))
    obtain ⟨step, others, hstep, hothers, rfl⟩ := steps?_cons_eq_some.mp h
    have hsequence : Yields c frame (do
        let step ← planStep index
        let others ← planSteps fuel (index + 1)
        return step :: others) (line.words ++ lines.flatMap StepLine.words) (fun rest => rest = [])
        (fun found => found = step :: others) := by
      refine Yields.bind_of (planStep_yields hstep hlimit) ?_ ?_
      · rintro _ rfl
        rw [List.append_nil]
        exact headKind_lines lines
      · rintro found rfl
        have hrest := ih fuel (index + 1) others (Nat.lt_of_succ_lt_succ hfuel) hothers
        exact Yields.map (found :: ·) hrest
    have hend : s.cursor.current.kind ≠ .endOfInput := by
      obtain ⟨first, more, hwords, hkind⟩ := exists_words_eq_cons line
      rw [hs.currentKind, List.flatMap_cons, hwords]
      exact hkind
    rw [planSteps, bind_of_ok atEnd_run, if_neg (by simpa using hend)]
    exact hsequence rest s hclean hK hs

/-! ### What is read are lines -/

/-- Reading a time consumes a numeral. -/
lemma time_consumes {x : Float} (hv : s.cursor.Valid) (h : time c s = .ok x s') :
    ∃ t numeral, t.word = Word.number numeral ∧ seconds? numeral = some x ∧ Consumes s [t] s' := by
  simp only [time, bind_eq_ok] at h
  obtain ⟨value, s₁, hnumber, h⟩ := h
  obtain ⟨t, hkind, hvalue, hc⟩ := number_consumes hv hnumber
  cases hx : value.toFloat? with
  | none =>
    simp only [hx] at h
    exact absurd h (by simp)
  | some found =>
    simp only [hx, pure_eq_ok] at h
    obtain ⟨rfl, rfl⟩ := h
    refine ⟨t, t.text, ?_, Option.bind_eq_some_iff.mpr ⟨value, hvalue, hx⟩, hc⟩
    rw [Token.word, hkind]
    rfl

/-- Reading the time of a step consumes its words, if it has one. -/
lemma stepTime?_consumes {value : Option Float} (hv : s.cursor.Valid)
    (h : stepTime? c s = .ok value s') :
    ∃ ts numeral, ts.map Token.word = timeSpelling numeral ∧
      numeral.mapM seconds? = some value ∧ Consumes s ts s' := by
  simp only [stepTime?, bind_eq_ok, currentKind_eq_ok] at h
  obtain ⟨_, _, ⟨rfl, rfl⟩, h⟩ := h
  split_ifs at h with hnumber
  · simp only [bind_eq_ok, pure_eq_ok] at h
    obtain ⟨x, s₁, htime, colon, s₂, hcolon, rfl, rfl⟩ := h
    obtain ⟨t, numeral, hword, hx, hc₁⟩ := time_consumes hv htime
    obtain ⟨hcolon, hc₂⟩ := expect_symbol hc₁.valid rfl hcolon
    refine ⟨[t, colon], some numeral, ?_, mapM_seconds_some.mpr ⟨x, hx, rfl⟩, hc₁.cons hc₂⟩
    rw [List.map_cons, List.map_cons, hword, hcolon]
    rfl
  · obtain ⟨rfl, rfl⟩ := pure_eq_ok.mp h
    exact ⟨[], none, rfl, rfl, .refl hv⟩

/-- Reading the duration of a step consumes its words, if it has one. -/
lemma stepDuration?_consumes {value : Option Float} (hv : s.cursor.Valid)
    (h : stepDuration? c s = .ok value s') :
    ∃ ts numeral, ts.map Token.word = durationSpelling numeral ∧
      numeral.mapM seconds? = some value ∧ Consumes s ts s' := by
  simp only [stepDuration?, bind_eq_ok, currentKind_eq_ok] at h
  obtain ⟨_, _, ⟨rfl, rfl⟩, h⟩ := h
  split_ifs at h with hbracket
  · simp only [bind_eq_ok, pure_eq_ok] at h
    obtain ⟨opening, s₁, hopening, x, s₂, htime, closing, s₃, hclosing, rfl, rfl⟩ := h
    obtain ⟨hopening, hc₁⟩ := advance_symbol hv rfl hbracket hopening
    obtain ⟨t, numeral, hword, hx, hc₂⟩ := time_consumes hc₁.valid htime
    obtain ⟨hclosing, hc₃⟩ := expect_symbol hc₂.valid rfl hclosing
    refine ⟨[opening, t, closing], some numeral, ?_, mapM_seconds_some.mpr ⟨x, hx, rfl⟩,
      hc₁.cons (hc₂.cons hc₃)⟩
    rw [List.map_cons, List.map_cons, List.map_cons, hopening, hword, hclosing]
    rfl
  · obtain ⟨rfl, rfl⟩ := pure_eq_ok.mp h
    exact ⟨[], none, rfl, rfl, .refl hv⟩

/-- Reading the action of a step consumes its words. -/
lemma stepAction_consumes {atom : Atom} (hv : s.cursor.Valid)
    (h : nested (do
      let _ ← expect .openParen "'(' opening a plan step"
      atomicFormula true) c s = .ok atom s') :
    ∃ ts, ts.map Token.word = Word.group (Word.name atom.name :: atom.args.map Word.name) ∧
      Consumes s ts s' := by
  obtain ⟨-, s₁, hbody, rfl⟩ := nested_eq_ok.mp h
  simp only [bind_eq_ok] at hbody
  obtain ⟨opening, s₂, hopening, hatom⟩ := hbody
  obtain ⟨hopening, hc₁⟩ := expect_symbol (State.deeper_valid hv) rfl hopening
  obtain ⟨args, closing, hc₂, hname, hargs, hclosing, rfl⟩ :=
    atomicFormula_consumes hc₁.valid hatom
  have hlexeme : closing.word.IsLexeme :=
    hc₁.valid.isLexeme closing (by simp [hc₂.upcoming])
  have hclosing : closing.word = Word.closing := hlexeme.token_eq_symbol hclosing rfl
  have hargs : args.map Token.word = (args.map Token.text).map Word.name :=
    map_word_of_kind fun arg harg => by simpa [isArgument] using hargs arg harg
  refine ⟨opening :: s₂.cursor.current :: (args ++ [closing]), ?_, .of_nested (hc₁.cons hc₂)⟩
  rw [List.map_cons, List.map_cons, List.map_append, List.map_singleton, hopening, hargs, hclosing,
    Token.word, hname]
  rfl

/-- Reading a step consumes the words of a line that describes it. -/
lemma planStep_consumes {index : Nat} {step : PlanStep} (hv : s.cursor.Valid)
    (h : planStep index c s = .ok step s') :
    ∃ ts, ∃ line : StepLine, ts.map Token.word = line.words ∧ line.step? index = some step ∧
      Consumes s ts s' := by
  simp only [planStep, bind_eq_ok, pure_eq_ok] at h
  obtain ⟨time, s₁, htime, action, s₂, haction, duration, s₃, hduration, rfl, rfl⟩ := h
  obtain ⟨ts, start, hts, htime, hc₁⟩ := stepTime?_consumes hv htime
  obtain ⟨us, hus, hc₂⟩ := stepAction_consumes hc₁.valid haction
  obtain ⟨vs, length, hvs, hduration, hc₃⟩ := stepDuration?_consumes hc₂.valid hduration
  refine ⟨ts ++ (us ++ vs), ⟨start, action.name, action.args, length⟩, ?_,
    step?_eq_some.mpr ⟨time, duration, htime, hduration, rfl⟩, hc₁.trans (hc₂.trans hc₃)⟩
  rw [List.map_append, List.map_append, hts, hus, hvs]
  rfl

/-- Reading steps consumes the words of lines that describe them, up to the end of the input. -/
lemma planSteps_consumes : ∀ (fuel index : Nat) (s : State) (steps : List PlanStep) (s' : State),
    s.cursor.Valid → s.cursor.unread < fuel → planSteps fuel index c s = .ok steps s' →
      ∃ ts lines, ts.map Token.word = lines.flatMap StepLine.words ∧
        steps? index lines = some steps ∧ Consumes s ts s' ∧
        s'.cursor.current.kind = .endOfInput := by
  intro fuel
  induction fuel with
  | zero => exact fun _ s _ _ _ hfuel => absurd hfuel (Nat.not_lt_zero _)
  | succ fuel ih =>
    intro index s steps s' hv hfuel h
    rw [planSteps, bind_of_ok atEnd_run] at h
    split_ifs at h with hend
    · obtain ⟨rfl, rfl⟩ := pure_eq_ok.mp h
      exact ⟨[], [], rfl, rfl, .refl hv, of_decide_eq_true hend⟩
    · simp only [bind_eq_ok, pure_eq_ok] at h
      obtain ⟨step, s₁, hstep, others, s₂, hothers, rfl, rfl⟩ := h
      obtain ⟨ts, line, hts, hstep, hc₁⟩ := planStep_consumes hv hstep
      have hne : 0 < ts.length := by
        obtain ⟨first, more, hwords, -⟩ := exists_words_eq_cons line
        have hlength := congrArg List.length (hts.trans hwords)
        rw [List.length_map, List.length_cons] at hlength
        omega
      have hunread := hc₁.unread
      obtain ⟨us, lines, hus, hothers, hc₂, hend'⟩ :=
        ih (index + 1) s₁ others s₂ hc₁.valid (by omega) hothers
      refine ⟨ts ++ us, line :: lines, ?_,
        steps?_cons_eq_some.mpr ⟨step, others, hstep, hothers, rfl⟩, hc₁.trans hc₂, hend'⟩
      rw [List.map_append, hts, hus, List.flatMap_cons]

/-- A plan is read from the words of lines that describe it. -/
lemma plan_yields {found : Plan} (h : Plan.ofLines? lines = some found)
    (hlimit : ∀ limit ∈ c.settings.maxNestingDepth, frame.depth + 1 ≤ limit) :
    Yields c frame plan (lines.flatMap StepLine.words) (fun rest => rest = [])
      (fun read => read = found) := by
  obtain ⟨steps, hsteps, rfl⟩ := Option.map_eq_some_iff.mp h
  intro rest s hclean hK hs
  have hle : lines.length ≤ (lines.flatMap StepLine.words).length := by
    refine length_le_flatMap fun line _ => ?_
    obtain ⟨first, more, hwords, -⟩ := exists_words_eq_cons line
    rw [hwords]
    exact List.cons_ne_nil _ _
  have hlength := hs.length
  rw [List.length_append] at hlength
  have hread : Yields c frame (do
      let steps ← planSteps (s.cursor.unread + 1) 0
      note (.planRead steps.length)
      return ⟨steps⟩ : ReadM Plan) (lines.flatMap StepLine.words) (fun rest => rest = [])
      (fun read => read = ⟨steps⟩) := by
    refine Yields.finish (planSteps_yields hlimit lines _ 0 steps (by omega) hsteps) ?_
    rintro _ rfl
    exact Yields.skip note_yields fun _ _ => pure_yields rfl
  unfold plan
  rw [bind_of_ok rounds_run]
  exact hread rest s hclean hK hs

/-- Reading a plan consumes all words of the text, which are those of lines that describe it. -/
lemma plan_consumes {found : Plan} (hv : s.cursor.Valid) (h : plan c s = .ok found s') :
    s.cursor.failure = none ∧ ∃ lines : List StepLine,
      s.cursor.words = lines.flatMap StepLine.words ∧ Plan.ofLines? lines = some found := by
  simp only [plan, bind_eq_ok, rounds_eq_ok, pure_eq_ok] at h
  obtain ⟨_, _, ⟨rfl, rfl⟩, steps, s₁, hsteps, _, _, -, rfl, -⟩ := h
  obtain ⟨ts, lines, hts, hdescribed, hc, hend⟩ :=
    planSteps_consumes _ 0 s steps s₁ hv (Nat.lt_succ_self _) hsteps
  refine ⟨hc.failure.symm.trans (hc.valid.current_end hend).2.1, lines, ?_, ?_⟩
  · rw [Cursor.words, hc.upcoming, hc.valid.upcoming_of_end hend, List.append_nil, hts]
  · rw [Plan.ofLines?, hdescribed]
    rfl

end Reader

/-! ### Printed times -/

namespace Decimal

/-- The digits of a natural number are decimal digits. -/
lemma isDecimalDigit_of_mem_toDigits {n : Nat} {c : Char} (h : c ∈ Nat.toDigits 10 n) :
    Text.isDecimalDigit c = true := by
  have hdigit := Nat.isDigit_of_mem_toDigits (by decide) (by decide) h
  simp only [Char.isDigit, Bool.and_eq_true, decide_eq_true_eq] at hdigit
  have hbounds : 48 ≤ c.toNat ∧ c.toNat ≤ 57 := hdigit
  have hfirst : Text.digitZero? c = some 0x30 := by
    unfold Text.digitZero? Text.digitZeros
    rw [List.find?_cons_of_pos (by simp; omega)]
  rw [Text.isDecimalDigit, hfirst]
  rfl

/-- A natural number is written with decimal digits. -/
lemma isDigits_toString (n : Nat) : Token.isDigits (toString n).toList = true := by
  have hchars : (toString n).toList = Nat.toDigits 10 n := Nat.toList_repr
  rw [hchars, Token.isDigits, Bool.and_eq_true, List.all_eq_true, Bool.not_eq_true',
    List.isEmpty_eq_false_iff]
  exact ⟨Nat.toDigits_ne_nil, fun c hc => isDecimalDigit_of_mem_toDigits hc⟩

/-- A natural number is still written with decimal digits if it is padded. -/
lemma isDigits_padLeft (width n : Nat) : Token.isDigits (padLeft width n).toList = true := by
  have hdigits := isDigits_toString n
  simp only [Token.isDigits, Bool.and_eq_true, List.all_eq_true, Bool.not_eq_true',
    List.isEmpty_eq_false_iff] at hdigits ⊢
  rw [padLeft, String.toList_append, String.toList_ofList]
  refine ⟨fun hnil => hdigits.1 (List.append_eq_nil_iff.mp hnil).2, fun c hc => ?_⟩
  rcases List.mem_append.mp hc with hzero | hdigit
  · rw [List.eq_of_mem_replicate hzero]
    decide
  · exact hdigits.2 c hdigit

/-- Is the double neither infinite nor undefined? -/
def Double.isFinite : Double → Bool
  | .finite _ _ _ => true
  | _ => false

/-- A finite double is printed with a sign if it is negative, digits, a point and digits. -/
lemma exists_toList_fixed (places : Nat) {x : Float} (h : (Double.ofFloat x).isFinite = true) :
    ∃ negative whole fraction, Token.isDigits whole = true ∧ Token.isDigits fraction = true ∧
      (fixed places x).toList = (signText negative).toList ++ (whole ++ '.' :: fraction) := by
  obtain ⟨negative, scaled, hfixed⟩ :
      ∃ negative scaled, fixed places x = signText negative ++ withPoint places scaled := by
    cases hdouble : Double.ofFloat x with
    | nan | infinite negative =>
      rw [hdouble] at h
      cases h
    | finite negative mantissa exponent => exact ⟨negative, _, by rw [fixed, hdouble]⟩
  refine ⟨negative, (toString (scaled / powTen places)).toList,
    (padLeft places (scaled % powTen places)).toList, isDigits_toString _,
    isDigits_padLeft places _, ?_⟩
  rw [hfixed, withPoint, String.toList_append, String.toList_append, String.toList_append,
    List.append_assoc]
  rfl

end Decimal

/-- A text that starts with digits, with or without a sign, and has a point spells a double. -/
lemma exists_seconds?_of_point {text : String} (h : '.' ∈ text.toList) :
    ∃ x, seconds? text = some x := by
  have hpoint :
      '.' ∈ (if text.toList.head? = some '-' then text.toList.drop 1 else text.toList) := by
    split_ifs with hsign
    · obtain ⟨rest, hrest⟩ := List.head?_eq_some_iff.mp hsign
      rw [hrest] at h ⊢
      simpa using h
    · exact h
  have hfraction : ∃ fraction, (Number.Lexeme.ofText text).fraction = some fraction := by
    simp only [Number.Lexeme.ofText]
    cases hdrop : List.dropWhile (fun c => decide (c ≠ '.'))
        (if text.toList.head? = some '-' then text.toList.drop 1 else text.toList) with
    | nil =>
      have hall := List.dropWhile_eq_nil_iff.mp hdrop '.' hpoint
      simp at hall
    | cons c fraction => exact ⟨fraction, rfl⟩
  obtain ⟨fraction, hfraction⟩ := hfraction
  simp only [seconds?, Number.ofText?, Number.ofLexeme?, hfraction]
  exact ⟨_, rfl⟩

namespace PlanStep

/-- The time is neither infinite nor undefined. -/
def IsFiniteTime (x : Float) : Prop :=
  (Decimal.Double.ofFloat x).isFinite = true

instance (x : Float) : Decidable (IsFiniteTime x) :=
  inferInstanceAs (Decidable (_ = true))

/-- The time of the step and its duration, if it has one, are finite. -/
def IsFinite (step : PlanStep) : Prop :=
  ∀ x ∈ step.time :: step.duration.toList, IsFiniteTime x

instance (step : PlanStep) : Decidable step.IsFinite :=
  inferInstanceAs (Decidable (∀ _ ∈ _, _))

/-- The line that the step is printed as. -/
def line (step : PlanStep) : StepLine :=
  ⟨some (timeText step.time), step.action, step.args, step.duration.map timeText⟩

variable {step : PlanStep} {x : Float}

/-- A finite time is printed with a sign if it is negative, digits, a point and digits. -/
lemma exists_toList_timeText (h : IsFiniteTime x) :
    ∃ negative whole fraction, Token.isDigits whole = true ∧ Token.isDigits fraction = true ∧
      (timeText x).toList = (Decimal.signText negative).toList ++ (whole ++ '.' :: fraction) :=
  Decimal.exists_toList_fixed 3 h

/-- A finite time is printed as a numeral. -/
lemma isLexeme_timeText (h : IsFiniteTime x) : (Word.number (timeText x)).IsLexeme := by
  obtain ⟨negative, whole, fraction, hwhole, hfraction, htext⟩ := exists_toList_timeText h
  have hpoint : Token.isFraction ('.' :: fraction) = true := by simpa [Token.isFraction]
  change Token.IsLexeme .number (timeText x).toList
  rw [htext]
  cases negative with
  | false =>
    change Token.IsLexeme .number (whole ++ '.' :: fraction)
    exact .number hwhole hpoint
  | true =>
    change Token.IsLexeme .number ('-' :: (whole ++ '.' :: fraction))
    exact .negative hwhole hpoint

/-- What a finite time is printed as spells a double. -/
lemma exists_seconds?_timeText (h : IsFiniteTime x) : ∃ y, seconds? (timeText x) = some y := by
  obtain ⟨negative, whole, fraction, -, -, htext⟩ := exists_toList_timeText h
  refine exists_seconds?_of_point ?_
  rw [htext]
  simp

/-- The line of a finite step is convertible. -/
lemma isConvertible_line (h : step.IsFinite) : step.line.IsConvertible := by
  have htime : ∀ x ∈ step.time :: step.duration.toList, (seconds? (timeText x)).isSome = true :=
    fun x hx => Option.isSome_iff_exists.mpr (exists_seconds?_timeText (h x hx))
  intro numeral hnumeral
  rcases List.mem_append.mp hnumeral with hstart | hduration
  · obtain rfl := List.mem_singleton.mp hstart
    exact htime _ List.mem_cons_self
  · have hmap : numeral ∈ (step.duration.map timeText).toList := hduration
    rw [Option.toList_map] at hmap
    obtain ⟨x, hx, rfl⟩ := List.mem_map.mp hmap
    exact htime x (List.mem_cons_of_mem _ hx)

/-- A finite time is printed with a colon behind it as the start of a line. -/
lemma spaced_time (h : IsFiniteTime x) :
    Word.Spaced (timeText x ++ ":").toList (StepLine.timeSpelling (some (timeText x))) := by
  have hcolon : Word.Spaced ":".toList [Word.colon] := .single Word.colon .colon
  have hstops : Token.Stops ":".toList := by
    rintro _ ⟨⟩
    decide
  rw [String.toList_append]
  exact .word (isLexeme_timeText h) (Or.inr hstops) hcolon

/-- A finite duration is printed between brackets as the end of a line. -/
lemma spaced_duration (h : IsFiniteTime x) :
    Word.Spaced ("[" ++ timeText x ++ "]").toList
      (StepLine.durationSpelling (some (timeText x))) := by
  have hopening : Word.openBracket.IsLexeme := .openBracket
  have hclosing : Word.Spaced "]".toList [Word.closeBracket] :=
    .single Word.closeBracket .closeBracket
  have hstops : Token.Stops "]".toList := by
    rintro _ ⟨⟩
    decide
  have hnumeral := Word.Spaced.word (isLexeme_timeText h) (Or.inr hstops) hclosing
  rw [String.toList_append, String.toList_append, List.append_assoc]
  exact .word hopening (Or.inl (Or.inr (Or.inr (Or.inl rfl)))) hnumeral

/-- A finite step is printed as its line, if its names have lexemes. -/
lemma spaced_text (h : step.IsFinite)
    (hnames : ∀ name ∈ step.action :: step.args, (Word.name name).IsLexeme) :
    Word.Spaced step.text.toList step.line.words := by
  have hblank : IsFiller [' '] := .blank (by decide) .nil
  have haction : Word.Spaced ("(" ++ step.actionText ++ ")").toList step.line.actionSpelling := by
    have hgroup := (Word.Spaced.blanks Word.name (fun _ _ => rfl) hnames).group
    rw [String.toList_append, String.toList_append]
    exact hgroup
  have hplain := (spaced_time (h _ List.mem_cons_self)).separated hblank (List.cons_ne_nil _ _)
    haction
  cases hduration : step.duration with
  | none =>
    have htext : step.text.toList = (timeText step.time ++ ":").toList ++
        ([' '] ++ ("(" ++ step.actionText ++ ")").toList) := by
      simp only [text, hduration, String.toList_append, List.append_assoc]
      rfl
    have hwords : step.line.words =
        StepLine.timeSpelling (some (timeText step.time)) ++ step.line.actionSpelling := by
      simp [StepLine.words, line, hduration, StepLine.durationSpelling]
    rw [htext, hwords]
    exact hplain
  | some length =>
    have htext : step.text.toList = (timeText step.time ++ ":").toList ++
        ([' '] ++ ("(" ++ step.actionText ++ ")").toList) ++
        ([' '] ++ ("[" ++ timeText length ++ "]").toList) := by
      simp only [text, hduration, String.toList_append, List.append_assoc]
      rfl
    have hwords : step.line.words =
        StepLine.timeSpelling (some (timeText step.time)) ++ step.line.actionSpelling ++
          StepLine.durationSpelling (some (timeText length)) := by
      simp [StepLine.words, line, hduration]
    have hlength : IsFiniteTime length := h length (by simp [hduration])
    rw [htext, hwords]
    exact hplain.separated hblank (List.cons_ne_nil _ _) (spaced_duration hlength)

/-- What of a step does not depend on the digits of its times: its action with the arguments, and
whether it has a duration. -/
def outline (step : PlanStep) : String × List String × Bool :=
  (step.action, step.args, step.duration.isSome)

/-- The line of a step describes a step with the same outline. -/
lemma outline_of_line {index : Nat} {found : PlanStep} (h : step.line.step? index = some found) :
    found.outline = step.outline := by
  obtain ⟨time, duration, -, hduration, rfl⟩ := StepLine.step?_eq_some.mp h
  have hsome : duration.isSome = step.duration.isSome := by
    have hmapM : (step.duration.map timeText).mapM seconds? = some duration := hduration
    cases hlength : step.duration with
    | none =>
      rw [hlength] at hmapM
      rw [← Option.some.inj hmapM]
    | some length =>
      rw [hlength] at hmapM
      obtain ⟨y, -, rfl⟩ := StepLine.mapM_seconds_some.mp hmapM
      rfl
  simp [outline, line, hsome]

end PlanStep

/-! ### Plans -/

namespace StepLine

/-- The lines of steps describe steps with the same outlines. -/
lemma outlines_of_steps? {steps : List PlanStep} :
    ∀ {index : Nat} {found : List PlanStep}, steps? index (steps.map PlanStep.line) = some found →
      found.map PlanStep.outline = steps.map PlanStep.outline := by
  induction steps with
  | nil =>
    intro index found h
    rw [← Option.some.inj h]
  | cons step rest ih =>
    intro index found h
    obtain ⟨first, others, hfirst, hothers, rfl⟩ := steps?_cons_eq_some.mp h
    rw [List.map_cons, List.map_cons, PlanStep.outline_of_line hfirst, ih hothers]

/-- The steps that lines describe have names from the words of the lines. -/
lemma mem_words_of_steps? {lines : List StepLine} :
    ∀ {index : Nat} {steps : List PlanStep}, steps? index lines = some steps →
      ∀ step ∈ steps, ∀ name ∈ step.action :: step.args,
        Word.name name ∈ lines.flatMap StepLine.words := by
  induction lines with
  | nil =>
    intro index steps h step hstep
    rw [← Option.some.inj h] at hstep
    cases hstep
  | cons line rest ih =>
    intro index steps h step hstep name hname
    obtain ⟨first, others, hfirst, hothers, rfl⟩ := steps?_cons_eq_some.mp h
    rw [List.flatMap_cons]
    rcases List.mem_cons.mp hstep with rfl | hstep
    · obtain ⟨time, duration, -, -, rfl⟩ := step?_eq_some.mp hfirst
      have hmem : Word.name name ∈ Word.name line.action :: line.args.map Word.name := by
        rw [← List.map_cons]
        exact List.mem_map_of_mem hname
      have haction : Word.name name ∈ line.actionSpelling :=
        List.mem_cons_of_mem _ (List.mem_append_left _ hmem)
      exact List.mem_append_left _ (List.mem_append_right _ (List.mem_append_left _ haction))
    · exact List.mem_append_right _ (ih hothers step hstep name hname)

end StepLine

namespace Plan

variable {settings : Settings} {text : String} {plan : Plan} {lines : List StepLine}

/-- A text whose tokens are the words of lines is read as the plan that they describe. -/
lemma parse_eq_ok_of_lines (hlimit : ∀ limit ∈ settings.maxNestingDepth, 0 < limit)
    (hwords : (scan text).words = lines.flatMap StepLine.words)
    (hfailure : (scan text).failure = none) (h : ofLines? lines = some plan) :
    (parse settings text).result = .ok plan := by
  obtain ⟨cursor, hcursor⟩ := Cursor.exists_ofText_of_failure hfailure
  have hs := Reader.stands_of_ofText hcursor hwords hfailure []
  rw [← List.append_nil (lines.flatMap StepLine.words)] at hs
  have hyields : Reader.Yields (.unlimited settings false) ⟨0, [], none⟩ Reader.plan
      (lines.flatMap StepLine.words) (fun rest => rest = []) (fun found => found = plan) :=
    Reader.plan_yields h hlimit
  obtain ⟨_, s', hrun, rfl, -⟩ := hyields [] _ (fun _ => rfl) rfl hs
  exact Reader.run_eq_ok.mpr ⟨cursor, s', hcursor, hrun⟩

/-- A text that is read as a plan has no error, and its tokens are the words of lines that describe
the plan. -/
lemma exists_lines_of_parse (h : (parse settings text).result = .ok plan) :
    (scan text).failure = none ∧
      ∃ lines, (scan text).words = lines.flatMap StepLine.words ∧ ofLines? lines = some plan := by
  obtain ⟨cursor, s', hcursor, hrun⟩ := Reader.run_eq_ok.mp h
  obtain ⟨hvalid, hupcoming, hsame⟩ := Cursor.of_ofText hcursor
  obtain ⟨hfailure, lines, hwords, hplan⟩ := Reader.plan_consumes hvalid hrun
  have hscan : (scan text).words = cursor.words :=
    congrArg (List.map Token.word) hupcoming.symm
  exact ⟨hsame.symm.trans hfailure, lines, hscan.trans hwords, hplan⟩

/-- The lines of a plan that was read and has finite times are the layout of what it is printed
as. -/
lemma spaced_of_parse (h : (parse settings text).result = .ok plan)
    (hfinite : ∀ step ∈ plan.steps, step.IsFinite) :
    Word.Spaced (String.intercalate "\n" (plan.steps.map PlanStep.text)).toList
      ((plan.steps.map PlanStep.line).flatMap StepLine.words) := by
  obtain ⟨-, lines, hwords, hplan⟩ := exists_lines_of_parse h
  obtain ⟨steps, hsteps, rfl⟩ := Option.map_eq_some_iff.mp hplan
  have hnames : ∀ step ∈ steps, ∀ name ∈ step.action :: step.args,
      (Word.name name).IsLexeme := by
    intro step hstep name hname
    have hmem := StepLine.mem_words_of_steps? hsteps step hstep name hname
    rw [← hwords] at hmem
    obtain ⟨token, htoken, hword⟩ := List.mem_map.mp hmem
    rw [← hword]
    exact Scan.isLexeme_of_mem_run htoken
  have hnewline : IsFiller "\n".toList := .blank (by decide) .nil
  rw [List.flatMap_map]
  exact Word.Spaced.intercalate hnewline (by decide) fun step hstep =>
    PlanStep.spaced_text (hfinite step hstep) (hnames step hstep)

/-- The texts that are read as plans are those without an error whose tokens are the words of lines
of a time, an action and a duration, and they are read as the plan that these lines describe.  Lines
whose numerals can be converted describe a plan, and are read with any spacing between their words.
So a plan that was read can be printed, one step a line, and read again if its times are finite,
with the same actions, arguments and presence of durations. -/
theorem parse_lines (settings : Settings) (h : ∀ limit ∈ settings.maxNestingDepth, 0 < limit) :
    (∀ text plan, (parse settings text).result = .ok plan ↔
      (scan text).failure = none ∧ ∃ lines, (scan text).words = lines.flatMap StepLine.words ∧
        ofLines? lines = some plan) ∧
    (∀ lines : List StepLine, (∀ line ∈ lines, line.IsConvertible) →
      ∃ plan, ofLines? lines = some plan ∧ ∀ text : String,
        Word.Spaced text.toList (lines.flatMap StepLine.words) →
        (parse settings text).result = .ok plan) ∧
    ∀ text plan, (parse settings text).result = .ok plan →
      (∀ step ∈ plan.steps, step.IsFinite) → ∃ again,
        (parse settings (String.intercalate "\n" (plan.steps.map PlanStep.text))).result =
          .ok again ∧
        again.steps.map PlanStep.outline = plan.steps.map PlanStep.outline := by
  have hspaced : ∀ lines : List StepLine, (∀ line ∈ lines, line.IsConvertible) →
      ∃ plan, ofLines? lines = some plan ∧ ∀ text : String,
        Word.Spaced text.toList (lines.flatMap StepLine.words) →
        (parse settings text).result = .ok plan := by
    intro lines hlines
    obtain ⟨steps, hsteps⟩ := StepLine.exists_steps? hlines 0
    have hplan : ofLines? lines = some ⟨steps⟩ := Option.map_eq_some_iff.mpr ⟨steps, hsteps, rfl⟩
    refine ⟨⟨steps⟩, hplan, fun text htext => ?_⟩
    obtain ⟨hwords, hfailure⟩ := htext.scan
    exact parse_eq_ok_of_lines h hwords hfailure hplan
  refine ⟨fun text plan => ⟨exists_lines_of_parse, ?_⟩, hspaced, ?_⟩
  · rintro ⟨hfailure, lines, hwords, hplan⟩
    exact parse_eq_ok_of_lines h hwords hfailure hplan
  · intro text plan hparse hfinite
    have hlines : ∀ line ∈ plan.steps.map PlanStep.line, line.IsConvertible := by
      intro line hline
      obtain ⟨step, hstep, rfl⟩ := List.mem_map.mp hline
      exact PlanStep.isConvertible_line (hfinite step hstep)
    obtain ⟨again, hagain, hread⟩ := hspaced _ hlines
    obtain ⟨steps, hsteps, rfl⟩ := Option.map_eq_some_iff.mp hagain
    exact ⟨⟨steps⟩, hread _ (spaced_of_parse hparse hfinite), StepLine.outlines_of_steps? hsteps⟩

/-- Settings without leniency that allow one level of nesting. -/
def flatSettings : Settings := ⟨true, true, some 1⟩

/-- Lines of a plan, the second without a time and a duration. -/
def mixedLines : List StepLine :=
  [⟨some "-0.5", "Move", ["a", "b"], some "2"⟩, ⟨none, "pick", ["a"], none⟩,
    ⟨some "7", "wait", [], none⟩]

/-- A text with these lines, of which two share one line of the text. -/
def mixedText : String :=
  "; plan\n-0.5:(Move a b)[2]( pick a );:\n 7\t: (wait)"

/-- The lines describe a plan, which is read from the text, and again from what it is printed as. -/
theorem parse_lines_mixed :
    (∀ limit ∈ flatSettings.maxNestingDepth, 0 < limit) ∧ ∃ plan again,
      ofLines? mixedLines = some plan ∧ (parse flatSettings mixedText).result = .ok plan ∧
      (parse flatSettings (String.intercalate "\n" (plan.steps.map PlanStep.text))).result =
        .ok again ∧
      again.steps.map PlanStep.outline =
        [("Move", ["a", "b"], true), ("pick", ["a"], false), ("wait", [], false)] := by
  have hlimit : ∀ limit ∈ flatSettings.maxNestingDepth, 0 < limit := by decide
  obtain ⟨hexact, -, hagain⟩ := parse_lines flatSettings hlimit
  have hwords : (scan mixedText).failure = none ∧
      (scan mixedText).words = mixedLines.flatMap StepLine.words := by
    decide +kernel
  have hshape : (ofLines? mixedLines).map (fun plan =>
      (decide (∀ step ∈ plan.steps, step.IsFinite), plan.steps.map PlanStep.outline)) =
      some (true, [("Move", ["a", "b"], true), ("pick", ["a"], false), ("wait", [], false)]) := by
    decide +kernel
  obtain ⟨plan, hplan, hshape⟩ := Option.map_eq_some_iff.mp hshape
  obtain ⟨hfinite, houtlines⟩ := Prod.mk.inj hshape
  have hread := (hexact mixedText plan).mpr ⟨hwords.1, mixedLines, hwords.2, hplan⟩
  obtain ⟨again, hreread, hsame⟩ := hagain mixedText plan hread (of_decide_eq_true hfinite)
  exact ⟨hlimit, plan, again, hplan, hread, hreread, hsame.trans houtlines⟩

end Plan

end Pddl
