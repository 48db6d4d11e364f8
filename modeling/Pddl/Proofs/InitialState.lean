import Pddl.Proofs.Closedness
import Pddl.Proofs.ProblemRoundTrip
import Pddl.Proofs.Scoping

/-!
# Initial states

The facts of an initial state are ground atoms, negations of them, and values of fluents.  The
atoms of the first two kinds are read as ground ones, so that no variable gets through; the fluents
of the third kind are read like those of actions, and their values are any numeric terms.  Every
fact of a problem that is read is therefore either ground or assigns something to a fluent
(`parse_init_ground_or_assigns`), and variables do occur in the second case
(`exists_variable_in_init`).
-/

namespace Pddl

/-! ### Ground facts -/

namespace Expr

/-- A ground fact: a ground atom, a negated ground atom, or a number as the value of a ground
fluent. -/
inductive IsGroundFact : Expr → Prop
  | atom {atom : Atom} : atom.isGround = true → IsGroundFact (.atom atom)
  | not {atom : Atom} : atom.isGround = true → IsGroundFact (.not (.atom atom))
  | value {fluent : Atom} {number : Number} : fluent.isGround = true →
      IsGroundFact (.compare .eq (.atom fluent) (.number number))

/-- A ground atom has no variables. -/
lemma not_hasVariable_of_isGround {atom : Atom} (hground : atom.isGround = true) {usage : Usage}
    {var : String} {bound : List TypedName} : ¬ (Expr.atom atom).HasVariable usage var bound := by
  intro h
  cases h with
  | argument hmem hvar =>
    have hany : atom.args.any isVariable = true := List.any_eq_true.mpr ⟨var, hmem, hvar⟩
    rw [Atom.isGround, hany] at hground
    cases hground
  | inside hpart _ => cases hpart

/-- A ground fact has no variables. -/
lemma IsGroundFact.not_hasVariable {fact : Expr} (hfact : fact.IsGroundFact) {usage : Usage}
    {var : String} {bound : List TypedName} : ¬ fact.HasVariable usage var bound := by
  intro h
  cases hfact with
  | atom hground => exact not_hasVariable_of_isGround hground h
  | not hground =>
    cases h with
    | inside hpart hinner =>
      rw [List.mem_singleton.mp hpart] at hinner
      exact not_hasVariable_of_isGround hground hinner
  | value hground =>
    cases h with
    | inside hpart hinner =>
      simp only [children, List.mem_cons, List.not_mem_nil, or_false] at hpart
      rcases hpart with rfl | rfl
      · exact not_hasVariable_of_isGround hground hinner
      · cases hinner with
        | inside hnone _ => cases hnone

end Expr

/-! ### Readers of facts -/

namespace Reader

variable {c : Context} {s s' : State} {t : Token}

/-- The token of a name is no variable. -/
lemma isVariable_eq_false_of_isLexeme (h : t.word.IsLexeme) (hkind : t.kind = .name) :
    isVariable t.text = false := by
  unfold Word.IsLexeme Token.word at h
  rw [hkind] at h
  generalize hchars : t.text.toList = chars at h
  cases h with
  | name hname =>
    cases chars with
    | nil => cases hname
    | cons first rest =>
      simp only [Token.isNameText, Bool.and_eq_true] at hname
      have hfirst : first ≠ '?' := by
        rintro rfl
        exact absurd hname.1 (by decide)
      simp [isVariable, hchars, hfirst]

/-- An atom that is read as a ground one is ground. -/
lemma isGround_of_atomicFormula {atom : Atom} (hv : s.cursor.Valid)
    (h : atomicFormula true c s = .ok atom s') : atom.isGround = true := by
  obtain ⟨args, closing, hc, -, hargs, -, rfl⟩ := atomicFormula_consumes hv h
  have hnone : (args.map Token.text).any isVariable = false := by
    rw [List.any_map, List.any_eq_false]
    intro arg harg
    have hlexeme : arg.word.IsLexeme := hv.isLexeme arg (by simp [hc.upcoming, harg])
    have hkind : arg.kind = .name := by simpa [isArgument] using hargs arg harg
    simp [isVariable_eq_false_of_isLexeme hlexeme hkind]
  rw [Atom.isGround, hnone]
  rfl

/-- What is read as a numeric term is one. -/
lemma anyNumericTerm_ensures : Ensures anyNumericTerm Expr.IsNumeric := by
  intro c s e s' hv h
  obtain ⟨n, hn⟩ : ∃ n, Position.readWithin n .numeric c s = .ok e s' := reader_eq_ok h
  obtain ⟨hclass, ts, hc, -⟩ := readWithin_sound .numeric n hv hn
  exact ⟨hc.valid, hclass⟩

/-- What is read one level deeper has the property that it has there. -/
lemma Ensures.nested {α : Type} {body : ReadM α} {P : α → Prop} (h : Ensures body P) :
    Ensures (Reader.nested body) P := by
  intro c s a s' hv hrun
  obtain ⟨-, s₁, hbody, rfl⟩ := nested_eq_ok.mp hrun
  exact h c s.deeper a s₁ (State.deeper_valid hv) hbody

/-- An element of an initial state is a fact.  What is not the value of a fluent is read as a ground
atom, and negations have been told apart before. -/
lemma initElement_ensures : Ensures initElement Expr.IsFact := by
  have hR := keepsValid_compositional
  have hground : Ensures (atomicFormula true) (fun atom => atom.isGround = true) :=
    fun c s a s' hv h => ⟨hR.atomicFormula true c s a s' hv h, isGround_of_atomicFormula hv h⟩
  refine .nested (.bind (hR.expect _ _).ensures fun _ _ => ?_)
  intro c s fact s' hv h
  obtain ⟨token, s₁, hcurrent, h⟩ := bind_eq_ok.mp h
  obtain ⟨rfl, hs⟩ := current_eq_ok.mp hcurrent
  subst hs
  split_ifs at h with heq hnot
  · refine Ensures.bind hR.advance.ensures (fun _ _ => ?_) c s fact s' hv h
    refine .bind hR.fluent.ensures fun _ _ => .bind anyNumericTerm_ensures fun _ hvalue => ?_
    exact .bind (hR.closeForm _ _).ensures fun _ _ => .pure (.value hvalue)
  · refine Ensures.bind hR.advance.ensures (fun _ _ => ?_) c s fact s' hv h
    refine .bind (.nested (.bind (hR.expect _ _).ensures fun _ _ => hground)) fun _ hatom => ?_
    exact .bind (hR.closeForm _ _).ensures fun _ _ => .pure (.not hatom)
  · -- The name of the atom is the token that was just found to be no `not`.
    obtain ⟨atom, s₂, hatom, hfact⟩ := bind_eq_ok.mp h
    obtain ⟨rfl, rfl⟩ := pure_eq_ok.mp hfact
    obtain ⟨hv', hisGround⟩ := hground c s atom s₂ hv hatom
    obtain ⟨args, closing, -, hname, -, -, rfl⟩ := atomicFormula_consumes hv hatom
    refine ⟨hv', .atom hisGround fun hkey => hnot ?_⟩
    simp [hname, Token.key, hkey]

/-- The initial facts of a section are facts; only one kind of section has any. -/
lemma problemSectionOf_ensures (kind : ProblemSectionKind) :
    Ensures (problemSectionOf kind) (fun part => ∀ fact ∈ part.facts, fact.IsFact) := by
  have hR := keepsValid_compositional
  cases kind with
  | domain =>
    refine .bind hR.advance.ensures fun _ _ => .bind (hR.name _).ensures fun _ _ => ?_
    exact .bind (hR.expect _ _).ensures fun _ _ => .pure nofun
  | requirements => exact .bind hR.requirements.ensures fun _ _ => .pure nofun
  | objects =>
    refine .bind hR.advance.ensures fun _ _ => .bind (hR.typedList _ _).ensures fun _ _ => ?_
    exact .bind (hR.expect _ _).ensures fun _ _ => .pure nofun
  | init =>
    refine .bind hR.advance.ensures fun _ _ => ?_
    refine .bind (.bind (.readWhile initElement_ensures) fun facts hfacts => ?_)
      fun facts hfacts => .pure hfacts
    exact .bind (hR.expect _ _).ensures fun _ _ => .pure hfacts
  | goal =>
    refine .bind hR.advance.ensures fun _ _ => .bind (hR.anyCondition _).ensures fun _ _ => ?_
    exact .bind (hR.expect _ _).ensures fun _ _ => .pure nofun
  | metric =>
    refine .bind hR.advance.ensures fun _ _ => .bind hR.metric.ensures fun _ _ => ?_
    exact .bind (hR.expect _ _).ensures fun _ _ => .pure nofun

/-- The initial facts of any section are facts. -/
lemma problemSection_ensures :
    Ensures problemSection (fun part => ∀ fact ∈ part.facts, fact.IsFact) := by
  have hR := keepsValid_compositional
  refine .bind (hR.expect _ _).ensures fun _ _ => .bind hR.current.ensures fun token _ => ?_
  split_ifs
  · cases ProblemSectionKind.ofKey? token.key with
    | none => exact .failHere
    | some kind => exact problemSectionOf_ensures kind
  · exact .failHere

/-- The initial facts of a problem are facts. -/
lemma problem_ensures : Ensures problem (fun problem => ∀ fact ∈ problem.init, fact.IsFact) := by
  have hR := keepsValid_compositional
  refine .bind (hR.header _ _).ensures fun _ _ => ?_
  refine .bind (hR.note _ (by simp [Notice.level])).ensures fun _ _ => ?_
  refine .bind (.readWhile problemSection_ensures) fun sections hsections => ?_
  have hinit : (ProblemDraft.ofSections sections).init = sections.flatMap ProblemSection.facts := by
    rw [ProblemDraft.ofSections, ProblemDraft.foldl_add]
    rfl
  dsimp only
  split
  · exact .failHere
  · exact .failHere
  · refine .bind (hR.expect _ _).ensures fun _ _ => .bind hR.endOfDocument.ensures fun _ _ => ?_
    refine .pure fun fact hfact => ?_
    rw [hinit] at hfact
    obtain ⟨part, hpart, hmem⟩ := List.mem_flatMap.mp hfact
    exact hsections part hpart fact hmem

end Reader

namespace Problem

/-- The initial facts of a problem that is read are facts. -/
lemma isFact_of_mem_init {settings : Settings} {text : String} {capacity : Nat} {problem : Problem}
    (h : (parse settings text capacity).result = .ok problem) {fact : Expr}
    (hfact : fact ∈ problem.init) : fact.IsFact := by
  obtain ⟨cursor, s', hcursor, hrun⟩ := Reader.run_eq_ok.mp h
  exact (Reader.problem_ensures _ _ _ _ (Cursor.of_ofText hcursor).1 hrun).2 fact hfact

/-- Every fact of the initial state of a problem that is read is ground, unless it assigns a value
to a fluent and either the fluent has variables or the value is not a number. -/
theorem parse_init_ground_or_assigns (settings : Settings) (text : String) (capacity : Nat)
    (problem : Problem) (h : (parse settings text capacity).result = .ok problem) :
    ∀ fact ∈ problem.init,
      (fact.IsGroundFact ∧ ∀ usage var bound, ¬ fact.HasVariable usage var bound) ∨
        ∃ fluent value, fact = .compare .eq (.atom fluent) value ∧ value.IsNumeric ∧
          ¬ (fluent.isGround = true ∧ ∃ number, value = .number number) := by
  intro fact hfact
  by_cases hground : fact.IsGroundFact
  · exact Or.inl ⟨hground, fun _ _ _ => hground.not_hasVariable⟩
  · cases isFact_of_mem_init h hfact with
    | atom hatom => exact absurd (.atom hatom) hground
    | not hatom => exact absurd (.not hatom) hground
    | @value fluent value hnumeric =>
      refine Or.inr ⟨fluent, value, rfl, hnumeric, ?_⟩
      rintro ⟨hfluent, number, rfl⟩
      exact hground (.value hfluent)

/-- A problem whose initial state has a fact of each kind, and a value with variables. -/
def mixedInitText : String :=
  "(define (problem q) (:domain d) (:init (on a b) (not (on b a)) (= (level a) 2)) " ++
    "(:goal (and)) (:init (= (level ?x) ?y)))"

/-- The problem is read, and each of its four facts is ground or assigns a value. -/
theorem parse_init_ground_or_assigns_mixed :
    ∃ problem, (parse .lenient mixedInitText).result = .ok problem ∧ problem.init.length = 4 ∧
      ∀ fact ∈ problem.init,
        (fact.IsGroundFact ∧ ∀ usage var bound, ¬ fact.HasVariable usage var bound) ∨
          ∃ fluent value, fact = .compare .eq (.atom fluent) value ∧ value.IsNumeric ∧
            ¬ (fluent.isGround = true ∧ ∃ number, value = .number number) := by
  have hread : (parse .lenient mixedInitText).result.toOption.map (fun problem =>
      problem.init.length) = some 4 := by
    decide +kernel
  obtain ⟨problem, hproblem, hlength⟩ := Option.map_eq_some_iff.mp hread
  have hproblem := Check.toOption_eq_some.mp hproblem
  exact ⟨problem, hproblem, hlength, parse_init_ground_or_assigns _ _ _ _ hproblem⟩

/-- A problem whose only fact gives a variable as the value of a fluent of a variable. -/
def variableInitText : String :=
  "(define (problem q) (:domain d) (:init (= (f ?x) ?y)) (:goal (and)))"

/-- A problem can be read although a fact of its initial state is not ground: one variable is an
argument of its fluent, and another one is its value. -/
theorem exists_variable_in_init :
    ∃ problem, (parse .lenient variableInitText).result = .ok problem ∧
      ∃ fact ∈ problem.init, ¬ fact.IsGroundFact ∧ fact.HasVariable .argument "?x" [] ∧
        fact.HasVariable .term "?y" [] := by
  have hread : (parse .lenient variableInitText).result.toOption.map (fun problem =>
      problem.init.map fun fact =>
        fact.children.map fun part => (part.references false, part.termName?)) =
      some [[([(⟨"f", ["?x"]⟩, false)], none), ([], some "?y")]] := by
    decide +kernel
  obtain ⟨problem, hproblem, hshape⟩ := Option.map_eq_some_iff.mp hread
  have hproblem := Check.toOption_eq_some.mp hproblem
  obtain ⟨fact, hinit, hparts⟩ := List.map_eq_singleton_iff.mp hshape
  have hfact : fact ∈ problem.init := by
    rw [hinit]
    exact List.mem_cons_self
  refine ⟨problem, hproblem, fact, hfact, ?_⟩
  cases isFact_of_mem_init hproblem hfact with
  | atom _ _ => cases hparts
  | not _ => cases hparts
  | @value fluent value _ =>
    obtain ⟨hfluent, hvalue⟩ := List.cons.inj hparts
    cases hfluent
    have hname : value.termName? = some "?y" := congrArg Prod.snd (List.cons.inj hvalue).1
    have hterm : Expr.term "?y" ∈ [value] :=
      Expr.term_mem_of_termName? (List.mem_singleton.mpr hname.symm)
    rw [← List.mem_singleton.mp hterm]
    have hx : (Expr.compare .eq (.atom ⟨"f", ["?x"]⟩) (.term "?y")).HasVariable .argument "?x" [] :=
      .inside List.mem_cons_self (.argument List.mem_cons_self (by decide))
    refine ⟨fun hground => hground.not_hasVariable hx, hx, ?_⟩
    exact .inside (List.mem_cons_of_mem _ List.mem_cons_self) (.term (by decide))

end Problem

end Pddl
