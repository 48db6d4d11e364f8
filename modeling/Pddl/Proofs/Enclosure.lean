import Pddl.Proofs.Precedence
import Pddl.Reader.Problem

/-!
# Documents are enclosed

A text that is read as a domain or as a problem starts with a parenthesis, and the reader passes it
up to the parenthesis that closes the first one, before it looks at what follows.  Which token that
is can be told from the tokens alone (`Token.ClosesFirst`), and more tokens at the end do not change
it (`Token.ClosesFirst.eq_of_prefix`).
-/

namespace Pddl

/-! ### The first group -/

/-- The token closes the parenthesis that the tokens start with: in between there are balanced
tokens. -/
def Token.ClosesFirst (closing : Token) (tokens : List Token) : Prop :=
  ∃ opening inner rest, tokens = opening :: (inner ++ closing :: rest) ∧
    opening.kind = .openParen ∧ Balanced inner ∧ closing.kind = .closeParen

/-- The closing parenthesis after a heading and sections closes the first one. -/
lemma Token.closesFirst_of_heading {opening closing : Token} {heading sections after : List Token}
    (hopen : opening.kind = .openParen) (hheading : Balanced heading)
    (hsections : Balanced sections) (hclose : closing.kind = .closeParen) :
    closing.ClosesFirst (opening :: (heading ++ (sections ++ closing :: after))) := by
  rw [← List.append_assoc]
  exact ⟨opening, heading ++ sections, after, rfl, hopen, hheading.append hsections, hclose⟩

/-- The tokens up to the one that closes the first parenthesis are a group, and the first one of the
tokens. -/
lemma Token.ClosesFirst.exists_group {closing : Token} {tokens : List Token}
    (h : closing.ClosesFirst tokens) :
    ∃ before rest, tokens = before ++ closing :: rest ∧ IsGroup (before ++ [closing]) ∧
      groups tokens = (before ++ [closing]) :: groups rest := by
  obtain ⟨opening, inner, rest, rfl, hopen, hinner, hclose⟩ := h
  have hgroup : IsGroup (opening :: inner ++ [closing]) :=
    ⟨opening, inner, closing, rfl, hopen, hclose, hinner⟩
  refine ⟨opening :: inner, rest, rfl, hgroup, ?_⟩
  rw [← groups_cons_group hgroup rest, List.append_assoc]
  rfl

/-- Of tokens that start with others, the first parenthesis is closed by the same token. -/
lemma Token.ClosesFirst.eq_of_prefix {closing closing' : Token} {tokens tokens' : List Token}
    (h : closing.ClosesFirst tokens) (h' : closing'.ClosesFirst tokens')
    (hstarts : tokens <+: tokens') : closing = closing' := by
  obtain ⟨before, rest, htokens, hgroup, -⟩ := h.exists_group
  obtain ⟨before', rest', -, -, hfirst'⟩ := h'.exists_group
  obtain ⟨more, rfl⟩ := hstarts
  have hfirst : groups (tokens ++ more) = (before ++ [closing]) :: groups (rest ++ more) := by
    rw [← groups_cons_group hgroup, htokens]
    simp
  have hsame := (List.cons.inj (hfirst.symm.trans hfirst')).1
  exact (List.append_singleton_inj.mp hsame).2

/-- The problem that sections taken together define, if they name its domain and give it a goal. -/
def ProblemDraft.toProblem? (draft : ProblemDraft) (name : String) : Option Problem := do
  return {
    name := name
    domain := ← draft.domain
    requirements := draft.requirements
    objects := draft.objects
    init := draft.init
    goal := ← draft.goal
    metric := draft.metric }

namespace Reader

variable {c : Context} {s s' : State}

/-! ### Sections of problems -/

/-- A repetition of readers that pass balanced tokens passes balanced tokens. -/
lemma readWhile_passes {α : Type} {test : Token → Bool} {item : ReadM α}
    (hitem : ∀ s a s', s.cursor.Valid → item c s = .ok a s' →
      ∃ ts, s.cursor.Passes ts s'.cursor ∧ Balanced ts)
    {items : List α} (hv : s.cursor.Valid) (h : readWhile test item c s = .ok items s') :
    ∃ ts, s.cursor.Passes ts s'.cursor ∧ Balanced ts := by
  replace h := (readWhile_readsItems h).1
  induction h with
  | nil s => exact ⟨[], ⟨hv, rfl⟩, .nil⟩
  | cons _ ha _ ih =>
    obtain ⟨ts, hpasses, hts⟩ := hitem _ _ _ hv ha
    obtain ⟨us, hpasses', hus⟩ := ih hpasses.valid
    exact ⟨ts ++ us, hpasses.trans hpasses', hts.append hus⟩

/-- A numeric term consumes balanced tokens. -/
lemma anyNumericTerm_consumes {e : Expr} (hv : s.cursor.Valid)
    (h : anyNumericTerm c s = .ok e s') : ∃ ts, Consumes s ts s' ∧ Balanced ts := by
  have hreader : Position.numeric.reader c s = .ok e s' := h
  exact reader_consumes hv hreader

/-- An initial fact is a group. -/
lemma initElement_group : ReadsGroup c initElement fun _ => True := by
  intro s e s' hv h
  obtain ⟨-, s₁, hbody, rfl⟩ := nested_eq_ok.mp h
  simp only [bind_eq_ok, current_eq_ok] at hbody
  obtain ⟨opening, s₂, hopen, t, s₃, ⟨rfl, rfl⟩, hbody⟩ := hbody
  obtain ⟨-, hopenKind, hc⟩ := expect_consumes (State.deeper_valid hv) hopen (by decide)
  refine ⟨trivial, .of_nested (ConsumesTail.group hc hopenKind ?_)⟩
  split_ifs at hbody with hequal hnot
  · simp only [Bool.and_eq_true, decide_eq_true_eq] at hequal
    simp only [bind_eq_ok, pure_eq_ok] at hbody
    obtain ⟨t, s₃, hadvance, target, s₄, htarget, value, s₅, hvalue, u, s₆, hclose, -, rfl⟩ := hbody
    obtain ⟨rfl, hc₁⟩ := advance_consumes hc.valid hadvance (by rw [hequal.1]; decide)
    have hc₂ := fluent_term hc₁.valid htarget
    obtain ⟨ts, hc₃, hts⟩ := anyNumericTerm_consumes hc₂.valid hvalue
    refine .word hc₁ (by rw [hequal.1]; decide) (by rw [hequal.1]; decide) (.term hc₂ ?_)
    exact .prepend hc₃ hts (closeForm_tail hc₃.valid hclose)
  · simp only [Bool.and_eq_true, decide_eq_true_eq] at hnot
    simp only [bind_eq_ok, pure_eq_ok] at hbody
    obtain ⟨t, s₃, hadvance, atom, s₄, hatom, u, s₅, hclose, -, rfl⟩ := hbody
    obtain ⟨rfl, hc₁⟩ := advance_consumes hc.valid hadvance (by rw [hnot.1]; decide)
    have hc₂ := parenthesizedAtom_group hc₁.valid hatom
    refine .word hc₁ (by rw [hnot.1]; decide) (by rw [hnot.1]; decide) (.inner hc₂ ?_)
    exact closeForm_tail hc₂.valid hclose
  · obtain ⟨atom, s₃, hatom, hpure⟩ := bind_eq_ok.mp hbody
    obtain ⟨-, rfl⟩ := pure_eq_ok.mp hpure
    exact atomicFormula_tail hc.valid hatom

/-- A metric consumes balanced tokens. -/
lemma metric_consumes {measure : Metric} (hv : s.cursor.Valid)
    (h : metric c s = .ok measure s') : ∃ ts, Consumes s ts s' ∧ Balanced ts := by
  obtain ⟨t, s₁, hdirection, h⟩ := bind_eq_ok.mp h
  obtain ⟨-, hkind, hc₁⟩ := expect_consumes hv hdirection (by decide)
  cases hfound : Direction.ofText? t.key with
  | none =>
    simp only [hfound] at h
    exact absurd h (by simp)
  | some direction =>
    simp only [hfound, bind_eq_ok, pure_eq_ok] at h
    obtain ⟨e, s₂, he, -, rfl⟩ := h
    obtain ⟨ts, hc₂, hts⟩ := anyNumericTerm_consumes hc₁.valid he
    exact ⟨_, hc₁.cons hc₂, .plain (by simp [hkind]) (by simp [hkind]) hts⟩

/-- The current token and the rest of its group were passed. -/
def PassesGroup (s s' : State) : Prop :=
  ∃ ts, s.cursor.Passes (s.cursor.current :: ts) s'.cursor ∧ IsTail ts

/-- A section that consists of a keyword and balanced tokens. -/
lemma PassesGroup.of_body {α β : Type} {body : ReadM α} {value : α → β} {b : β}
    (hbody : ∀ s a s', s.cursor.Valid → body c s = .ok a s' →
      ∃ ts, Consumes s ts s' ∧ Balanced ts)
    (hv : s.cursor.Valid) (hkeyword : isKeyword s.cursor.current = true)
    (h : (do
      let _ ← advance
      let a ← body
      let _ ← closeParen
      return value a) c s = .ok b s') : PassesGroup s s' := by
  simp only [bind_eq_ok, pure_eq_ok] at h
  obtain ⟨t, s₁, hadvance, a, s₂, ha, closing, s₃, hclose, -, rfl⟩ := h
  obtain ⟨rfl, hc₁⟩ := advance_consumes hv hadvance (kind_of_isKeyword hkeyword).2.2
  obtain ⟨ts, hc₂, hts⟩ := hbody s₁ a s₂ hc₁.valid ha
  obtain ⟨-, hkind, hc₃⟩ := expect_consumes hc₂.valid hclose (by decide)
  exact ⟨_, (hc₁.cons (hc₂.concat hc₃)).passes, ts, closing, rfl, hts, hkind⟩

/-- A section of a problem passes its keyword and the rest of its group. -/
lemma problemSectionOf_passes {kind : ProblemSectionKind} {part : ProblemSection}
    (hv : s.cursor.Valid) (hkeyword : isKeyword s.cursor.current = true)
    (h : problemSectionOf kind c s = .ok part s') : PassesGroup s s' := by
  cases kind with
  | domain =>
    refine .of_body (fun s text s' hv hname => ?_) hv hkeyword h
    obtain ⟨hkind, -, hc⟩ := name_consumes hv hname
    exact ⟨_, hc, .plain (by simp [hkind]) (by simp [hkind]) .nil⟩
  | requirements =>
    obtain ⟨flags, s₁, hflags, hpure⟩ := bind_eq_ok.mp h
    obtain ⟨-, rfl⟩ := pure_eq_ok.mp hpure
    obtain ⟨flags, closing, hpasses, hkeywords, hclose, -⟩ := requirements_passes hv hflags
    exact ⟨_, hpasses, isTail_flags hkeywords hclose⟩
  | objects =>
    exact .of_body (fun _ _ _ hv htyped => typedList_consumes (by decide) hv htyped) hv hkeyword h
  | init =>
    simp only [problemSectionOf, bind_eq_ok, pure_eq_ok] at h
    obtain ⟨t, s₁, hadvance, facts, s₂, hfacts, -, rfl⟩ := h
    obtain ⟨rfl, hc₁⟩ := advance_consumes hv hadvance (kind_of_isKeyword hkeyword).2.2
    obtain ⟨-, inner, closing, hc₂, hinner, hclose⟩ :=
      operands_sound initElement_group hc₁.valid hfacts
    exact ⟨_, (hc₁.cons hc₂).passes, inner, closing, rfl, hinner, hclose⟩
  | goal =>
    refine .of_body (fun s e s' hv hgoal => ?_) hv hkeyword h
    have hreader : (Position.condition false).reader c s = .ok e s' := hgoal
    exact reader_consumes hv hreader
  | metric => exact .of_body (fun _ _ _ hv => metric_consumes hv) hv hkeyword h

/-- A section of a problem passes a group. -/
lemma problemSection_passes {part : ProblemSection} (hv : s.cursor.Valid)
    (h : problemSection c s = .ok part s') :
    ∃ ts, s.cursor.Passes ts s'.cursor ∧ IsGroup ts := by
  simp only [problemSection, bind_eq_ok, current_eq_ok] at h
  obtain ⟨opening, s₁, hopen, t, s₂, ⟨rfl, rfl⟩, h⟩ := h
  obtain ⟨-, hopenKind, hc⟩ := expect_consumes hv hopen (by decide)
  split_ifs at h with hkeyword
  · cases hkind : ProblemSectionKind.ofKey? s₁.cursor.current.key with
    | none =>
      simp only [hkind] at h
      exact absurd h (by simp)
    | some kind =>
      simp only [hkind] at h
      obtain ⟨ts, hpasses, inner, closing, rfl, hinner, hclose⟩ :=
        problemSectionOf_passes hc.valid hkeyword h
      obtain ⟨hne, hne', -⟩ := kind_of_isKeyword hkeyword
      have hgroup : IsGroup (opening :: s₁.cursor.current :: (inner ++ [closing])) :=
        ⟨opening, _ :: inner, closing, rfl, hopenKind, hclose, .plain hne hne' hinner⟩
      exact ⟨_, hc.passes.trans hpasses, hgroup⟩
  · exact absurd h (by simp)

/-! ### Sections taken together -/

/-- Reads the heading and the sections of a problem. -/
def problemSections : ReadM (Option Problem) := do
  let name ← header "problem" "a problem name"
  note (.problemStarted name)
  let sections ← readWhile (hasKind .openParen) problemSection
  return (ProblemDraft.ofSections sections).toProblem? name

/-- Where the sections define a problem, it is returned after the closing parenthesis and what
follows it. -/
lemma problem_run {found : Problem} (h : problemSections c s = .ok (some found) s') :
    problem c s = (do
      let _ ← expect .closeParen "'(' opening a section or ')'"
      endOfDocument
      return found : ReadM Problem) c s' := by
  simp only [problemSections, bind_eq_ok, pure_eq_ok] at h
  obtain ⟨name, s₁, hheader, u, s₂, hnote, sections, s₃, hsections, hfound, rfl⟩ := h
  rw [problem, bind_of_ok hheader, bind_of_ok hnote, bind_of_ok hsections]
  generalize ProblemDraft.ofSections sections = draft at hfound ⊢
  obtain ⟨domain?, requirements, objects, init, goal?, metric⟩ := draft
  cases domain? with
  | none => cases hfound
  | some domain =>
    cases goal? with
    | none => cases hfound
    | some goal =>
      cases hfound
      rfl

/-- A problem that is read is the one that its sections define. -/
lemma exists_problemSections {found : Problem} (h : problem c s = .ok found s') :
    ∃ s₁, problemSections c s = .ok (some found) s₁ := by
  simp only [problem, bind_eq_ok] at h
  obtain ⟨name, s₁, hheader, u, s₂, hnote, sections, s₃, hsections, h⟩ := h
  refine ⟨s₃, ?_⟩
  rw [problemSections, bind_of_ok hheader, bind_of_ok hnote, bind_of_ok hsections]
  generalize ProblemDraft.ofSections sections = draft at h ⊢
  obtain ⟨domain?, requirements, objects, init, goal?, metric⟩ := draft
  cases domain? with
  | none => exact absurd h (by simp)
  | some domain =>
    cases goal? with
    | none => exact absurd h (by simp)
    | some goal =>
      obtain ⟨closing, s₄, -, h⟩ := bind_eq_ok.mp h
      obtain ⟨u, s₅, -, hpure⟩ := bind_eq_ok.mp h
      obtain ⟨rfl, -⟩ := pure_eq_ok.mp hpure
      rfl

/-- The heading and the sections of a problem are passed. -/
lemma problemSections_passes {found : Option Problem} (hv : s.cursor.Valid)
    (h : problemSections c s = .ok found s') :
    ∃ opening heading ts, s.cursor.Passes (opening :: heading ++ ts) s'.cursor ∧
      opening.kind = .openParen ∧ Balanced heading ∧ Balanced ts := by
  simp only [problemSections, bind_eq_ok, pure_eq_ok] at h
  obtain ⟨name, s₁, hheader, u, s₂, hnote, sections, s₃, hsections, -, rfl⟩ := h
  obtain ⟨opening, heading, hopen, hheading, -, hc⟩ := header_consumes hv hheader
  have hcursor : s₂.cursor = s₁.cursor := by
    cases hnote
    rfl
  obtain ⟨ts, hpasses, hts⟩ := readWhile_passes (fun _ _ _ hv hrun => by
    obtain ⟨ts, hpasses, hgroup⟩ := problemSection_passes hv hrun
    exact ⟨ts, hpasses, hgroup.balanced⟩) (hcursor ▸ hc.valid) hsections
  rw [hcursor] at hpasses
  exact ⟨opening, heading, ts, hc.passes.trans hpasses, hopen, hheading, hts⟩

/-- A problem is read from an opening parenthesis through the one that closes it. -/
lemma problem_closesFirst {found : Problem} (hv : s.cursor.Valid)
    (h : problem c s = .ok found s') :
    ∃ closing : Token, closing.ClosesFirst s.cursor.upcoming := by
  obtain ⟨s₁, hsections⟩ := exists_problemSections h
  obtain ⟨opening, heading, ts, hpasses, hopen, hheading, hts⟩ :=
    problemSections_passes hv hsections
  rw [problem_run hsections] at h
  obtain ⟨closing, s₂, hclose, -⟩ := bind_eq_ok.mp h
  obtain ⟨-, hkind, hc⟩ := expect_consumes hpasses.valid hclose (by decide)
  refine ⟨closing, ?_⟩
  rw [hpasses.upcoming, hc.upcoming, List.cons_append, List.cons_append, List.append_assoc]
  exact Token.closesFirst_of_heading hopen hheading hts hkind

end Reader

/-! ### Documents -/

/-- A text that is read as a domain starts with a group. -/
lemma Domain.exists_closesFirst {settings : Settings} {text : String} {capacity : Nat}
    {domain : Domain} (h : (parse settings text capacity).result = .ok domain) :
    ∃ closing : Token, closing.ClosesFirst (scan text).tokens := by
  obtain ⟨cursor, a, hcursor, hrun⟩ := parse_eq_ok.mp h
  obtain ⟨hv, htokens, -⟩ := Cursor.of_ofText hcursor
  obtain ⟨opening, heading, sections, closing, after, declared, hupcoming, hopen, hheading, -,
    hclose, ⟨hsections, -⟩, -⟩ := Assembly.domain_passes hv hrun
  refine ⟨closing, ?_⟩
  rw [← htokens, hupcoming]
  exact Token.closesFirst_of_heading hopen hheading hsections hclose

/-- A text that is read as a problem starts with a group. -/
lemma Problem.exists_closesFirst {settings : Settings} {text : String} {capacity : Nat}
    {problem : Problem} (h : (parse settings text capacity).result = .ok problem) :
    ∃ closing : Token, closing.ClosesFirst (scan text).tokens := by
  obtain ⟨cursor, s, hcursor, hrun⟩ := Reader.run_eq_ok.mp h
  obtain ⟨hv, htokens, -⟩ := Cursor.of_ofText hcursor
  rw [← htokens]
  exact Reader.problem_closesFirst (s := .ofCursor cursor []) hv hrun

end Pddl
