import Pddl.Proofs.DomainRoundTrip
import Pddl.Proofs.InitialState
import Pddl.Proofs.Permission

/-!
# Reserved words as predicate names

Conditions and effects are told apart by the word after their parenthesis, and a word that announces
something never names a predicate there.  The atom that a `not` of an effect denies, and the atoms
of an initial state, are read without a look at their name.  So wherever a predicate is named by a
reserved word, it is one of these (`predicates_isPlain_unless_unread`), and each reserved word does
get there (`exists_reserved_predicate`).
-/

namespace Pddl

namespace Expr

/-! ### Atoms in predicate position -/

/-- The atom that an expression of the given role denies by itself: the operand of a `not` that
stands as an effect. -/
def denied? : Role → Expr → Option Atom
  | .effect, .not (.atom operand) => some operand
  | _, _ => none

/-- The atom stands in predicate position in an expression of the given role, that is, under no
comparison, arithmetic or update.  The flag tells whether it is what an effect denies. -/
inductive HasPredicate (atom : Atom) : Bool → Role → Expr → Prop
  | self {role : Role} : HasPredicate atom false role (.atom atom)
  | denied {role : Role} {e : Expr} : e.denied? role = some atom →
      HasPredicate atom true role e
  | inside {denied : Bool} {role inner : Role} {e part : Expr} : e.makesNumeric = false →
      e.denied? role = none → (inner, part) ∈ e.parts role →
      HasPredicate atom denied inner part → HasPredicate atom denied role e

/-- An atom in predicate position is the expression or in predicate position in a direct part. -/
lemma hasAtom_false_iff {e : Expr} {atom : Atom} :
    e.HasAtom atom false ↔
      e = .atom atom ∨
        e.makesNumeric = false ∧ ∃ part ∈ e.children, part.HasAtom atom false := by
  constructor
  · suffices hsplit : ∀ numeric, e.HasAtom atom numeric → numeric = false →
        e = .atom atom ∨
          e.makesNumeric = false ∧ ∃ part ∈ e.children, part.HasAtom atom false from
      fun h => hsplit false h rfl
    intro numeric h hnumeric
    cases h with
    | self atom => exact Or.inl rfl
    | @inside _ part _ inner hpart h =>
      obtain ⟨hmakes, rfl⟩ := Bool.or_eq_false_iff.mp hnumeric
      exact Or.inr ⟨hmakes, part, hpart, h⟩
  · rintro (rfl | ⟨hmakes, part, hpart, h⟩)
    · exact .self atom
    · have := HasAtom.inside hpart h
      rwa [hmakes] at this

/-- What an effect denies is the operand of its `not`. -/
lemma denied?_eq_some {role : Role} {e : Expr} {atom : Atom}
    (h : e.denied? role = some atom) : role = .effect ∧ e = .not (.atom atom) := by
  unfold denied? at h
  split at h
  · cases h
    exact ⟨rfl, rfl⟩
  · cases h

/-- The direct parts are the same for every role. -/
lemma exists_mem_parts {role : Role} {e part : Expr} :
    (∃ inner, (inner, part) ∈ e.parts role) ↔ part ∈ e.children := by
  cases e <;> simp [parts, children, exists_or]

/-- Predicate positions, denied or not, are what is under no comparison, arithmetic or update. -/
lemma exists_hasPredicate_iff {role : Role} {e : Expr} {atom : Atom} :
    (∃ denied, e.HasPredicate atom denied role) ↔ e.HasAtom atom false := by
  constructor
  · rintro ⟨denied, h⟩
    induction h with
    | self => exact .self atom
    | denied hdenied =>
      obtain ⟨-, rfl⟩ := denied?_eq_some hdenied
      exact hasAtom_false_iff.mpr (Or.inr ⟨rfl, _, List.mem_cons_self, .self atom⟩)
    | inside hmakes hnone hpart h ih =>
      exact hasAtom_false_iff.mpr (Or.inr ⟨hmakes, _, exists_mem_parts.mp ⟨_, hpart⟩, ih⟩)
  · intro h
    induction e using induction_children generalizing role with
    | h e ih =>
      rcases hasAtom_false_iff.mp h with rfl | ⟨hmakes, part, hpart, hatom⟩
      · exact ⟨false, .self⟩
      · cases hdenied : e.denied? role with
        | none =>
          obtain ⟨inner, hinner⟩ := exists_mem_parts.mpr hpart
          obtain ⟨denied, hpredicate⟩ := ih part hpart hatom
          exact ⟨denied, .inside hmakes hdenied hinner hpredicate⟩
        | some operand =>
          -- The only atom of a denial is the one that it denies.
          obtain ⟨-, rfl⟩ := denied?_eq_some hdenied
          rw [children, List.mem_singleton] at hpart
          subst hpart
          cases hatom with
          | self => exact ⟨true, .denied hdenied⟩
          | inside hnone => cases hnone

/-! ### Conditions and effects -/

/-- Every atom of a condition that stands in predicate position is plain. -/
lemma IsCondition.isPlain {temporal : Bool} {e : Expr} {atom : Atom} (h : e.IsCondition temporal)
    (hatom : e.HasAtom atom false) : atom.IsPlain := by
  induction h with
  | atom hplain =>
    rcases hasAtom_false_iff.mp hatom with heq | ⟨-, part, hpart, -⟩
    · cases heq
      exact hplain
    · cases hpart
  | and hall ih | or hall ih =>
    obtain heq | ⟨-, part, hpart, hinner⟩ := hasAtom_false_iff.mp hatom
    · cases heq
    · exact ih part hpart hinner
  | not h ih | quantified quantifier vars h ih | timed time h ih =>
    obtain heq | ⟨-, part, hpart, hinner⟩ := hasAtom_false_iff.mp hatom
    · cases heq
    · cases List.mem_singleton.mp hpart
      exact ih hinner
  | compare op hleft hright =>
    obtain heq | ⟨hmakes, -⟩ := hasAtom_false_iff.mp hatom
    · cases heq
    · cases hmakes

/-- Every atom of an effect that stands in predicate position and is not what an effect denies is
plain. -/
lemma IsEffect.isPlain {temporal : Bool} {e : Expr} {atom : Atom} (h : e.IsEffect temporal)
    (hatom : e.HasPredicate atom false .effect) : atom.IsPlain := by
  induction h with
  | atom hplain =>
    cases hatom with
    | self => exact hplain
    | inside _ _ hpart _ => cases hpart
  | and hall ih =>
    cases hatom with
    | inside _ _ hpart hinner =>
      obtain ⟨part, hmem, heq⟩ := List.mem_map.mp hpart
      cases heq
      exact ih _ hmem hinner
  | not denied =>
    cases hatom with
    | inside _ hnone _ _ => cases hnone
  | forAll vars h ih | timed htime h ih =>
    cases hatom with
    | inside _ _ hpart hinner =>
      cases List.mem_singleton.mp hpart
      exact ih hinner
  | when hcondition h ih =>
    cases hatom with
    | inside _ _ hpart hinner =>
      simp only [parts, List.mem_cons, Prod.mk.injEq, List.not_mem_nil, or_false] at hpart
      rcases hpart with ⟨rfl, rfl⟩ | ⟨rfl, rfl⟩
      · exact hcondition.isPlain (exists_hasPredicate_iff.mp ⟨_, hinner⟩)
      · exact ih hinner
  | update op fluent hvalue =>
    cases hatom with
    | inside hmakes _ _ _ => cases hmakes

/-- An atom of a fact in predicate position is the fact itself, not named `not`, or what the fact
denies. -/
lemma IsFact.eq_of_hasAtom {fact : Expr} {atom : Atom} (h : fact.IsFact)
    (hatom : fact.HasAtom atom false) :
    (fact = .atom atom ∧ fold atom.name ≠ "not") ∨ fact = .not (.atom atom) := by
  cases h with
  | atom hground hname =>
    rcases hasAtom_false_iff.mp hatom with heq | ⟨-, part, hpart, -⟩
    · cases heq
      exact Or.inl ⟨rfl, hname⟩
    · cases hpart
  | not hground =>
    obtain heq | ⟨-, part, hpart, hinner⟩ := hasAtom_false_iff.mp hatom
    · cases heq
    · cases List.mem_singleton.mp hpart
      obtain heq | ⟨-, part, hnone, -⟩ := hasAtom_false_iff.mp hinner
      · cases heq
        exact Or.inr rfl
      · cases hnone
  | value hvalue =>
    obtain heq | ⟨hmakes, -⟩ := hasAtom_false_iff.mp hatom
    · cases heq
    · cases hmakes

end Expr

/-- Whether an atom is plain can be computed. -/
instance Atom.decidableIsPlain (atom : Atom) : Decidable atom.IsPlain :=
  decidable_of_iff (fold atom.name ∉ reservedWords ∧
      ∀ arg ∈ atom.args.head?, (fold atom.name, fold arg) ∉ timeWords)
    ⟨fun h => ⟨h.1, h.2⟩, fun h => ⟨h.name, h.start⟩⟩

/-! ### What is read -/

namespace Reader

/-- Anywhere in any text, in any context: no atom that stands in predicate position in a condition
is named by a reserved word or spells a time, and none in an effect either, unless a `not` of the
effect denies it.  In the initial state of a problem such an atom is a fact by itself, whose name is
not `not`, or what a fact denies. -/
theorem predicates_isPlain_unless_unread (settings : Settings) (text : String) (capacity : Nat) :
    (∀ (c : Context) (s s' : State) (temporal : Bool) (e : Expr),
      s.cursor.Reached text →
        (anyCondition temporal c s = .ok e s' →
          ∀ atom, e.HasAtom atom false → atom.IsPlain) ∧
        (anyEffect temporal c s = .ok e s' →
          ∀ atom, e.HasPredicate atom false .effect → atom.IsPlain)) ∧
    ∀ problem : Problem,
      (Problem.parse settings text capacity).result = .ok problem →
        ∀ fact ∈ problem.init, ∀ atom, fact.HasAtom atom false →
          (fact = .atom atom ∧ fold atom.name ≠ "not") ∨ fact = .not (.atom atom) := by
  constructor
  · intro c s s' temporal e hs
    refine ⟨fun h atom hatom => ?_, fun h atom hatom => ?_⟩
    · have hread : (Position.condition temporal).reader c s = .ok e s' := h
      obtain ⟨n, hn⟩ := reader_eq_ok hread
      exact Expr.IsCondition.isPlain (readWithin_sound _ n hs.valid hn).1 hatom
    · have hread : (Position.effect temporal).reader c s = .ok e s' := h
      obtain ⟨n, hn⟩ := reader_eq_ok hread
      exact Expr.IsEffect.isPlain (readWithin_sound _ n hs.valid hn).1 hatom
  · intro problem h fact hfact atom hatom
    exact (Problem.isFact_of_mem_init h hfact).eq_of_hasAtom hatom

/-- What is computed from the outcome of a whole text comes from a run that starts at its first
token. -/
lemma exists_read_of_run {α β : Type} {reader : ReadM α} {c : Context} {text : String} {f : α → β}
    {value : β} (h : (run reader c text).result.toOption.map f = some value) :
    ∃ s s' a, s.cursor.Reached text ∧ reader c s = .ok a s' ∧ f a = value := by
  obtain ⟨a, ha, hvalue⟩ := Option.map_eq_some_iff.mp h
  obtain ⟨cursor, s', hcursor, hrun⟩ := run_eq_ok.mp (Check.toOption_eq_some.mp ha)
  exact ⟨_, s', a, .start hcursor, hrun, hvalue⟩

/-- A condition, an effect with a denied reserved word, and a problem: in each of them the atoms in
predicate position are as the theorem says. -/
theorem predicates_isPlain_unless_unread_examples :
    (∃ s s' e, s.cursor.Reached "(at start (not (p ?x)))" ∧
      anyCondition true (.unlimited .lenient true) s = .ok e s' ∧ e.children.length = 1 ∧
      ∀ atom, e.HasAtom atom false → atom.IsPlain) ∧
    (∃ s s' e, s.cursor.Reached "(and (q ?x) (not (and ?x)))" ∧
      anyEffect false (.unlimited .lenient true) s = .ok e s' ∧ e.children.length = 2 ∧
      ∀ atom, e.HasPredicate atom false .effect → atom.IsPlain) ∧
    ∃ problem, (Problem.parse .lenient
        "(define (problem q) (:domain d) (:init (or a) (not (not b))) (:goal (p)))").result =
          .ok problem ∧ problem.init.length = 2 ∧
      ∀ fact ∈ problem.init, ∀ atom, fact.HasAtom atom false →
        (fact = .atom atom ∧ fold atom.name ≠ "not") ∨ fact = .not (.atom atom) := by
  refine ⟨?_, ?_, ?_⟩
  · have hrun : (run (anyCondition true) (.unlimited .lenient true)
        "(at start (not (p ?x)))").result.toOption.map (fun e => e.children.length) = some 1 := by
      decide +kernel
    obtain ⟨s, s', e, hs, hread, hlength⟩ := exists_read_of_run hrun
    have hplain := ((predicates_isPlain_unless_unread .lenient _
      Reader.documentCapacity).1 _ s s' true e hs).1 hread
    exact ⟨s, s', e, hs, hread, hlength, hplain⟩
  · have hrun : (run (anyEffect false) (.unlimited .lenient true)
        "(and (q ?x) (not (and ?x)))").result.toOption.map (fun e => e.children.length) =
          some 2 := by
      decide +kernel
    obtain ⟨s, s', e, hs, hread, hlength⟩ := exists_read_of_run hrun
    have hplain := ((predicates_isPlain_unless_unread .lenient _
      Reader.documentCapacity).1 _ s s' false e hs).2 hread
    exact ⟨s, s', e, hs, hread, hlength, hplain⟩
  · have hread : (Problem.parse .lenient
        "(define (problem q) (:domain d) (:init (or a) (not (not b))) (:goal (p)))"
          ).result.toOption.map (fun problem => problem.init.length) = some 2 := by
      decide +kernel
    obtain ⟨problem, hproblem, hlength⟩ := Option.map_eq_some_iff.mp hread
    have hproblem := Check.toOption_eq_some.mp hproblem
    exact ⟨problem, hproblem, hlength,
      (predicates_isPlain_unless_unread .lenient _ Reader.documentCapacity).2 problem hproblem⟩

/-- An atom for every word that announces something, and for every time. -/
def reservedAtoms : List Atom :=
  reservedWords.map (fun word => ⟨word, ["x"]⟩) ++ timeWords.map fun words => ⟨words.1, [words.2]⟩

/-- The words of an atom between parentheses. -/
def formulaText (atom : Atom) : String :=
  "(" ++ atom.name ++ atom.args.foldr (fun arg rest => " " ++ arg ++ rest) ")"

/-- An effect that denies an atom. -/
def denialText (atom : Atom) : String :=
  "(not " ++ formulaText atom ++ ")"

/-- A problem whose initial facts are named by a reserved word and by a time. -/
def reservedInitText : String :=
  "(define (problem q) (:domain d) (:init (and x) (at start)) (:goal (p)))"

/-- Every reserved word and every time gets into predicate position of an effect that denies it, and
a reserved word and a time are read as initial facts. -/
theorem exists_reserved_predicate :
    (∀ atom ∈ reservedAtoms, ¬ atom.IsPlain ∧
      ∃ s s' e, s.cursor.Reached (denialText atom) ∧
        anyEffect false (.unlimited .lenient true) s = .ok e s' ∧ e.HasAtom atom false) ∧
    ∃ problem, (Problem.parse .lenient reservedInitText).result = .ok problem ∧
      ∀ atom ∈ ([⟨"and", ["x"]⟩, ⟨"at", ["start"]⟩] : List Atom), ¬ atom.IsPlain ∧
        ∃ fact ∈ problem.init, fact.HasAtom atom false := by
  have hoccurs : ∀ {atom : Atom} {e : Expr}, e.references false = [(atom, false)] →
      e.HasAtom atom false := by
    intro atom e h
    have hmem : (atom, false) ∈ e.references false := by
      rw [h]
      exact List.mem_cons_self
    obtain ⟨numeric, hnumeric, hatom⟩ := e.hasAtom_of_mem_references hmem
    rw [Bool.false_or] at hnumeric
    exact hnumeric ▸ hatom
  constructor
  · intro atom hatom
    have hreserved : ∀ atom ∈ reservedAtoms, ¬ atom.IsPlain := by decide +kernel
    have hdenials : ∀ atom ∈ reservedAtoms,
        (run (anyEffect false) (.unlimited .lenient true) (denialText atom)).result.toOption.map
          (fun e => e.references false) = some [(atom, false)] := by
      decide +kernel
    obtain ⟨s, s', e, hs, hread, hreferences⟩ := exists_read_of_run (hdenials atom hatom)
    exact ⟨hreserved atom hatom, s, s', e, hs, hread, hoccurs hreferences⟩
  · have hread : (Problem.parse .lenient reservedInitText).result.toOption.map (fun problem =>
        problem.init.map fun fact => fact.references false) =
          some [[(⟨"and", ["x"]⟩, false)], [(⟨"at", ["start"]⟩, false)]] := by
      decide +kernel
    obtain ⟨problem, hproblem, hinit⟩ := Option.map_eq_some_iff.mp hread
    refine ⟨problem, Check.toOption_eq_some.mp hproblem, fun atom hatom => ⟨?_, ?_⟩⟩
    · revert atom
      decide
    · have hlisted : [(atom, false)] ∈ problem.init.map fun fact => fact.references false := by
        rw [hinit]
        exact List.mem_map_of_mem (f := fun atom => [(atom, false)]) hatom
      obtain ⟨fact, hfact, hreferences⟩ := List.mem_map.mp hlisted
      exact ⟨fact, hfact, hoccurs hreferences⟩

end Reader

end Pddl
