import Pddl.Proofs.ArityMatch
import Pddl.Proofs.Conformance

/-!
# Problems that agree with their domain

A problem passes the check against a domain that was read exactly if it agrees with the domain: it
is made for it, its objects have declared types, and its atoms name functions in numeric positions
and predicates elsewhere, with the right number of arguments, all of them known
(`Problem.Conforms`).  If it does not pass, the defect that is reported is one that the problem has
(`Problem.Breaks`).
-/

namespace Pddl

/-- The atom is the total time, which needs no declaration in a numeric position. -/
def Atom.IsTotalTime (atom : Atom) (numeric : Bool) : Prop :=
  numeric = true ∧ fold atom.name = "total-time"

instance (atom : Atom) (numeric : Bool) : Decidable (atom.IsTotalTime numeric) :=
  inferInstanceAs (Decidable (_ ∧ _))

/-- What an atom in such a position names. -/
def SymbolKind.ofPosition (numeric : Bool) : SymbolKind :=
  if numeric then .function else .predicate

namespace Problem

variable {problem : Problem} {domain : Domain}

/-- The atom has as many arguments as what it names in the domain has parameters, and the arguments
that are no variables are known. -/
structure Allows (problem : Problem) (domain : Domain) (atom : Atom) (numeric : Bool) : Prop where
  arity : atom.args.length ∈ domain.arities numeric atom.name
  known : ∀ arg ∈ atom.args, isVariable arg = false → problem.KnowsObject domain arg

/-- The problem is made for the domain and uses what is declared in it. -/
structure Conforms (problem : Problem) (domain : Domain) : Prop where
  name : fold problem.domain = fold domain.name
  types : ∀ object ∈ problem.objects, object.IsKnown domain.types
  atoms : ∀ atom numeric, problem.HasAtom atom numeric →
    atom.IsTotalTime numeric ∨ problem.Allows domain atom numeric

/-- The atom occurs in the part of the problem at that place. -/
def HasAtomAt (problem : Problem) (site : Site) (atom : Atom) (numeric : Bool) : Prop :=
  ∃ outer part, (site, outer, part) ∈ Check.problemParts problem ∧
    ∃ inner, numeric = (outer || inner) ∧ part.HasAtom atom inner

/-- The problem has the defect: it is made for another domain, an object has an unknown type, or an
atom has no declaration, a wrong number of arguments or an unknown argument. -/
inductive Breaks (problem : Problem) (domain : Domain) : Defect → Prop
  | name : fold problem.domain ≠ fold domain.name →
      Breaks problem domain (.wrongDomain problem.name problem.domain domain.name)
  | type {object : TypedName} {type : String} : object ∈ problem.objects →
      type ∈ object.type.options → ¬ domain.types.Knows type →
      Breaks problem domain (.undeclaredType type object.name (.problem problem.name))
  | symbol {site : Site} {atom : Atom} {numeric : Bool} : problem.HasAtomAt site atom numeric →
      ¬ atom.IsTotalTime numeric → domain.arities numeric atom.name = [] →
      Breaks problem domain (.undeclaredSymbol (.ofPosition numeric) atom.name site)
  | arity {site : Site} {atom : Atom} {numeric : Bool} {count : Nat} :
      problem.HasAtomAt site atom numeric → ¬ atom.IsTotalTime numeric →
      domain.arities numeric atom.name = [count] → atom.args.length ≠ count →
      Breaks problem domain (.wrongArity (.ofPosition numeric) atom count site)
  | object {site : Site} {atom : Atom} {numeric : Bool} {arg : String} :
      problem.HasAtomAt site atom numeric → ¬ atom.IsTotalTime numeric → arg ∈ atom.args →
      isVariable arg = false → ¬ problem.KnowsObject domain arg →
      Breaks problem domain (.unknownObject arg site)

/-- An atom occurs at a place exactly if it is listed there. -/
lemma hasAtomAt_iff {site : Site} {atom : Atom} {numeric : Bool} :
    problem.HasAtomAt site atom numeric ↔
      ∃ part ∈ Check.problemParts problem, part.1 = site ∧
        (atom, numeric) ∈ part.2.2.references part.2.1 := by
  constructor
  · rintro ⟨outer, part, hpart, inner, rfl, hatom⟩
    exact ⟨_, hpart, rfl, hatom.mem_references outer⟩
  · rintro ⟨⟨_, outer, part⟩, hpart, rfl, hreference⟩
    obtain ⟨inner, hnumeric, hatom⟩ := part.hasAtom_of_mem_references hreference
    exact ⟨outer, part, hpart, inner, hnumeric, hatom⟩

/-- An atom occurs in a problem exactly if it occurs at some place of it. -/
lemma hasAtom_iff {atom : Atom} {numeric : Bool} :
    problem.HasAtom atom numeric ↔ ∃ site, problem.HasAtomAt site atom numeric := by
  constructor
  · intro h
    obtain ⟨part, hpart, hreference⟩ := h.mem_references
    exact ⟨part.1, hasAtomAt_iff.mpr ⟨part, hpart, rfl, hreference⟩⟩
  · rintro ⟨site, outer, part, hpart, inner, rfl, hatom⟩
    rcases List.mem_append.mp hpart with hinit | hrest
    · obtain ⟨fact, hfact, heq⟩ := List.mem_map.mp hinit
      cases heq
      exact .init hfact hatom
    · rcases List.mem_cons.mp hrest with hgoal | hmetric
      · cases hgoal
        exact .goal hatom
      · obtain ⟨metric, hsome, heq⟩ := List.mem_map.mp hmetric
        cases heq
        exact .metric (Option.mem_toList.mp hsome) hatom

end Problem

/-! ### The check -/

namespace Check

variable {domain : Domain} {problem : Problem}

/-- If a sequence of two checks fails, one of them does. -/
lemma bind_eq_error {α β : Type} {x : Except Defect α} {f : α → Except Defect β} {defect : Defect}
    (h : (x >>= f) = .error defect) :
    x = .error defect ∨ ∃ a, x = .ok a ∧ f a = .error defect := by
  cases x with
  | error e =>
    cases h
    exact Or.inl rfl
  | ok a => exact Or.inr ⟨a, rfl, h⟩

/-- If a list of checks fails, one of them does. -/
lemma exists_of_each_eq_error {α : Type} {check : α → Except Defect Unit} {xs : List α}
    {defect : Defect} (h : each check xs = .error defect) : ∃ x ∈ xs, check x = .error defect := by
  induction xs with
  | nil => cases h
  | cons x rest ih =>
    rcases bind_eq_error h with hx | ⟨_, -, hrest⟩
    · exact ⟨x, List.mem_cons_self, hx⟩
    · obtain ⟨y, hy, herror⟩ := ih hrest
      exact ⟨y, List.mem_cons_of_mem _ hy, herror⟩

/-- An atom of a problem is compared with the only declaration that its name has in its position, if
it is not the total time. -/
lemma problemReference_eq (h : domain.NamesOnce) (objects : List String) (site : Site) (atom : Atom)
    (numeric : Bool) :
    problemReference domain objects site (atom, numeric) =
      if atom.IsTotalTime numeric then .ok ()
      else match domain.arities numeric atom.name with
        | [] => .error (.undeclaredSymbol (.ofPosition numeric) atom.name site)
        | count :: _ =>
          arity (.ofPosition numeric) count site atom >>= fun _ =>
            knownObjects objects site atom := by
  cases numeric with
  | false =>
    rw [if_neg (by simp [Atom.IsTotalTime]), h.arities_false]
    cases hfind : findPredicate? domain.predicates atom.name with
    | none => simp [problemReference, hfind, SymbolKind.ofPosition]
    | some predicate => simp [problemReference, hfind, SymbolKind.ofPosition]
  | true =>
    by_cases htotal : fold atom.name = "total-time"
    · rw [if_pos ⟨rfl, htotal⟩]
      simp [problemReference, builtinFluents, htotal]
    · rw [if_neg (fun htime => htotal htime.2), h.arities_true]
      cases hfind : findFunction? domain.functions atom.name with
      | none => simp [problemReference, builtinFluents, htotal, hfind, SymbolKind.ofPosition]
      | some function =>
        simp [problemReference, builtinFluents, htotal, hfind, SymbolKind.ofPosition]

/-- An atom passes exactly if it is the total time or allowed. -/
lemma problemReference_eq_ok (h : domain.NamesOnce) {site : Site} {atom : Atom} {numeric : Bool} :
    problemReference domain (objectKeys domain problem) site (atom, numeric) = .ok () ↔
      atom.IsTotalTime numeric ∨ problem.Allows domain atom numeric := by
  have hknown : knownObjects (objectKeys domain problem) site atom = .ok () ↔
      ∀ arg ∈ atom.args, isVariable arg = false → problem.KnowsObject domain arg := by
    rw [knownObjects_eq_ok]
    exact forall₃_congr fun arg _ _ => Problem.mem_objectKeys
  rw [problemReference_eq h]
  split_ifs with htotal
  · simp [htotal]
  · rcases h.arities_cases numeric atom.name with hnone | ⟨count, hone⟩
    · rw [hnone]
      constructor
      · intro hpasses
        cases hpasses
      · rintro (htime | hallowed)
        · exact absurd htime htotal
        · exact absurd hallowed.arity (by rw [hnone]; exact List.not_mem_nil)
    · rw [hone]
      constructor
      · intro hpasses
        obtain ⟨_, harity, hobjects⟩ := bind_eq_ok.mp hpasses
        refine Or.inr ⟨?_, hknown.mp hobjects⟩
        rw [hone]
        exact List.mem_singleton.mpr (arity_eq_ok.mp harity)
      · rintro (htime | hallowed)
        · exact absurd htime htotal
        · have harity := hallowed.arity
          rw [hone, List.mem_singleton] at harity
          exact bind_eq_ok.mpr ⟨(), arity_eq_ok.mpr harity, hknown.mpr hallowed.known⟩

/-- If an atom does not pass, the problem has the defect that is reported. -/
lemma breaks_of_problemReference (h : domain.NamesOnce) {site : Site} {atom : Atom} {numeric : Bool}
    {defect : Defect} (hat : problem.HasAtomAt site atom numeric)
    (herror : problemReference domain (objectKeys domain problem) site (atom, numeric) =
      .error defect) : problem.Breaks domain defect := by
  rw [problemReference_eq h] at herror
  split_ifs at herror with htotal
  rcases h.arities_cases numeric atom.name with hnone | ⟨count, hone⟩
  · rw [hnone] at herror
    cases herror
    exact .symbol hat htotal hnone
  · rw [hone] at herror
    rcases bind_eq_error herror with harity | ⟨_, -, hobjects⟩
    · unfold arity at harity
      split_ifs at harity with hcount
      cases harity
      exact .arity hat htotal hone hcount
    · obtain ⟨arg, harg, hunknown⟩ := exists_of_each_eq_error hobjects
      split_ifs at hunknown with hpasses
      cases hunknown
      simp only [Bool.or_eq_true, List.contains_iff_mem, not_or, Bool.not_eq_true] at hpasses
      exact .object hat htotal harg hpasses.1 fun hknown =>
        hpasses.2 (Problem.mem_objectKeys.mpr hknown)

/-- If the types of the objects do not pass, the problem has the defect that is reported. -/
lemma breaks_of_declaredTypes (hcontains : ∀ type, domain.types.Knows type →
      domain.types.contains type = true) {defect : Defect}
    (herror : declaredTypes domain.types (.problem problem.name) problem.objects = .error defect) :
    problem.Breaks domain defect := by
  obtain ⟨object, hobject, herror⟩ := exists_of_each_eq_error herror
  obtain ⟨type, htype, herror⟩ := exists_of_each_eq_error herror
  split_ifs at herror with hfound
  cases herror
  exact .type hobject htype fun hknows => hfound (hcontains type hknows)

/-- A problem that does not pass has the defect that is reported. -/
lemma breaks_of_problemAgainst (h : domain.NamesOnce) (hcontains : ∀ type, domain.types.Knows type →
      domain.types.contains type = true) {defect : Defect}
    (herror : problemAgainst domain problem = .error defect) : problem.Breaks domain defect := by
  rw [problemAgainst_eq] at herror
  split_ifs at herror with hname
  · rcases bind_eq_error herror with htypes | ⟨_, -, hparts⟩
    · exact breaks_of_declaredTypes hcontains htypes
    · obtain ⟨part, hpart, herror⟩ := exists_of_each_eq_error hparts
      obtain ⟨⟨atom, numeric⟩, hreference, herror⟩ := exists_of_each_eq_error herror
      exact breaks_of_problemReference h
        (Problem.hasAtomAt_iff.mpr ⟨part, hpart, rfl, hreference⟩) herror
  · cases herror
    exact .name hname

/-- A problem passes exactly if it agrees with the domain. -/
lemma problemAgainst_eq_ok_of_namesOnce (h : domain.NamesOnce)
    (hcontains : ∀ type, domain.types.contains type = true ↔ domain.types.Knows type) :
    problemAgainst domain problem = .ok () ↔ problem.Conforms domain := by
  rw [problemAgainst_eq_ok]
  constructor
  · rintro ⟨hname, htypes, hparts⟩
    refine ⟨hname, fun object hobject type htype =>
      (hcontains type).mp (htypes object hobject type htype), fun atom numeric hatom => ?_⟩
    obtain ⟨part, hpart, hreference⟩ := hatom.mem_references
    exact (problemReference_eq_ok h).mp (hparts part hpart (atom, numeric) hreference)
  · intro hconforms
    refine ⟨hconforms.name, fun object hobject type htype =>
      (hcontains type).mpr (hconforms.types object hobject type htype), ?_⟩
    rintro part hpart ⟨atom, numeric⟩ hreference
    have hatom : problem.HasAtom atom numeric :=
      Problem.hasAtom_iff.mpr ⟨part.1, Problem.hasAtomAt_iff.mpr ⟨part, hpart, rfl, hreference⟩⟩
    exact (problemReference_eq_ok h).mpr (hconforms.atoms atom numeric hatom)

end Check

namespace Problem

/-- The check of a problem against a domain that was read is exact.  It passes if and only if the
problem is made for the domain, its objects have declared types, and each atom of its initial state,
goal and metric, at any depth, is the total time in a numeric position or names a function in a
numeric position or a predicate elsewhere, with as many parameters as it has arguments and no
unknown object among them.  Otherwise it reports a defect, and the problem has this defect. -/
theorem problemAgainst_eq_ok_iff_conforms (settings : Settings) (text : String) (capacity : Nat)
    (domain : Domain) (h : (Domain.parse settings text capacity).result = .ok domain)
    (problem : Problem) :
    (Check.problemAgainst domain problem = .ok () ↔ problem.Conforms domain) ∧
    (¬ problem.Conforms domain → ∃ defect,
      Check.problemAgainst domain problem = .error defect ∧ problem.Breaks domain defect) := by
  obtain ⟨cursor, a', hcursor, hrun⟩ := Domain.parse_eq_ok.mp h
  have honce : domain.NamesOnce := (Domain.closed_of_run hcursor hrun).namesOnce
  obtain ⟨declarations, hdeclarations⟩ := Domain.exists_declarations_of_parse h
  have htypes := (TypeHierarchy.ofDeclarationsValid_eq_ok hdeclarations).1
  have hcontains : ∀ type, domain.types.contains type = true ↔ domain.types.Knows type :=
    fun type => ⟨Domain.knows_of_contains h, TypeHierarchy.contains_of_knows htypes⟩
  have hexact : Check.problemAgainst domain problem = .ok () ↔ problem.Conforms domain :=
    Check.problemAgainst_eq_ok_of_namesOnce honce hcontains
  refine ⟨hexact, fun hbroken => ?_⟩
  cases hresult : Check.problemAgainst domain problem with
  | ok _ => exact absurd (hexact.mp hresult) hbroken
  | error defect =>
    exact ⟨defect, rfl,
      Check.breaks_of_problemAgainst honce (fun type => (hcontains type).mpr) hresult⟩

/-- A domain with a function and a predicate of the same name. -/
def freightText : String :=
  "(define (domain freight) (:types crate) (:constants Dock) " ++
    "(:predicates (on ?x ?y)) (:functions (on ?x)))"

/-- A problem of that domain that uses both, the total time and a constant. -/
def freightProblemText : String :=
  "(define (problem stack) (:domain Freight) (:objects box - crate) " ++
    "(:init (ON box dock) (= (on BOX) 3)) (:goal (forall (?x) (not (on ?x box)))) " ++
    "(:metric minimize (+ (Total-Time) (on dock))))"

/-- Both can be read, and the problem passes, so it agrees with the domain. -/
theorem problemAgainst_eq_ok_iff_conforms_freight :
    ∃ domain problem, (Domain.parse .lenient freightText).result = .ok domain ∧
      (parse .lenient freightProblemText).result = .ok problem ∧
      Check.problemAgainst domain problem = .ok () ∧ problem.Conforms domain := by
  have hread : (Domain.parse .lenient freightText).result.toOption.bind (fun domain =>
      (parse .lenient freightProblemText).result.toOption.map fun problem =>
        (Check.problemAgainst domain problem).toOption) = some (some ()) := by
    decide +kernel
  obtain ⟨domain, hdomain, hproblem⟩ := Option.bind_eq_some_iff.mp hread
  obtain ⟨problem, hproblem, hpasses⟩ := Option.map_eq_some_iff.mp hproblem
  have hdomain := Check.toOption_eq_some.mp hdomain
  have hpasses := Check.toOption_eq_some.mp hpasses
  exact ⟨domain, problem, hdomain, Check.toOption_eq_some.mp hproblem, hpasses,
    (problemAgainst_eq_ok_iff_conforms .lenient freightText _ domain hdomain problem).1.mp hpasses⟩

end Problem

end Pddl
