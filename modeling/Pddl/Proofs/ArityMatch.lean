import Pddl.Proofs.DomainRoundTrip
import Pddl.Proofs.Scoping

/-!
# The check of arities is exact

In a domain that was read, a name has one declaration in each position in which an action uses it:
a function in a numeric position, a predicate elsewhere.  So the check of arities always finds a
declaration to compare with, and it passes exactly the domains in which all atoms have as many
arguments as their declarations have parameters and all variables among the arguments are bound
(`domainArities_eq_ok_iff`).
-/

namespace Pddl

/-! ### Variables that are listed -/

namespace Expr

/-- A variable that is listed is an argument of the expression itself or listed for one of its
direct parts, with the binders of the expression in scope. -/
lemma mem_uses {e : Expr} {scope : List String} {use : String × List String}
    (h : use ∈ e.uses scope) :
    (∃ atom, e = .atom atom ∧ use ∈ usesOfAtom scope atom) ∨
      ∃ child ∈ e.children,
        use ∈ child.uses (scope ++ e.binders.map fun binder => fold binder.name) := by
  cases e with
  | atom formula => exact Or.inl ⟨formula, rfl, h⟩
  | term name | number value => cases h
  | quantified quantifier vars operand => exact Or.inr ⟨operand, List.mem_cons_self, h⟩
  | not operand | timed time operand =>
    refine Or.inr ⟨operand, List.mem_cons_self, ?_⟩
    simp only [binders, List.map_nil, List.append_nil]
    exact h
  | and operands | or operands | arith op operands =>
    obtain ⟨child, hchild, huse⟩ := mem_usesAll.mp h
    refine Or.inr ⟨child, hchild, ?_⟩
    simpa only [binders, List.map_nil, List.append_nil] using huse
  | compare op left right | when left right | update op fluent value =>
    simp only [binders, List.map_nil, List.append_nil]
    rcases List.mem_append.mp h with h | h
    · exact Or.inr ⟨_, List.mem_cons_self, h⟩
    · exact Or.inr ⟨_, List.mem_cons_of_mem _ List.mem_cons_self, h⟩

/-- The variables that are listed are arguments somewhere in the expression, with the binders above
them in scope. -/
lemma exists_hasVariable_of_mem_uses (e : Expr) :
    ∀ {scope : List String} {use : String × List String}, use ∈ e.uses scope →
      ∃ var bound, e.HasVariable .argument var bound ∧
        use = (fold var, scope ++ bound.map fun binder => fold binder.name) := by
  induction e using induction_children with
  | h e ih =>
    intro scope use h
    rcases mem_uses h with ⟨atom, rfl, huse⟩ | ⟨child, hchild, huse⟩
    · obtain ⟨var, hvar, rfl⟩ := List.mem_map.mp huse
      obtain ⟨harg, hvariable⟩ := List.mem_filter.mp hvar
      refine ⟨var, [], .argument harg hvariable, ?_⟩
      rw [List.map_nil, List.append_nil]
    · obtain ⟨var, bound, hinner, rfl⟩ := ih child hchild huse
      refine ⟨var, e.binders ++ bound, .inside hchild hinner, ?_⟩
      rw [List.map_append, List.append_assoc]

end Expr

/-! ### Declarations of a name -/

/-- If keys are different, the entries with a key are the one that is found for it. -/
lemma filter_eq_toList_find? {α : Type} {key : α → String} {entries : List α}
    (h : (entries.map key).Nodup) (name : String) :
    entries.filter (fun entry => key entry = name) =
      (entries.find? fun entry => key entry = name).toList := by
  induction entries with
  | nil => rfl
  | cons entry rest ih =>
    rw [List.map_cons, List.nodup_cons] at h
    by_cases hkey : key entry = name
    · have hothers : rest.filter (fun other => key other = name) = [] := by
        rw [List.filter_eq_nil_iff]
        intro other hother hname
        have hsame : key other = key entry := (of_decide_eq_true hname).trans hkey.symm
        exact h.1 (hsame ▸ List.mem_map_of_mem hother)
      rw [List.filter_cons_of_pos (by simpa using hkey),
        List.find?_cons_of_pos (by simpa using hkey), hothers]
      rfl
    · rw [List.filter_cons_of_neg (by simpa using hkey),
        List.find?_cons_of_neg (by simpa using hkey), ih h.2]

namespace Domain

variable {domain : Domain}

/-- The numbers of parameters of all that a name can mean in a numeric position, the functions of
that name, or in another position, the predicates of that name. -/
def arities (domain : Domain) (numeric : Bool) (name : String) : List Nat :=
  if numeric then
    (domain.functions.filter fun function => fold function.name = fold name).map
      fun function => function.params.length
  else
    (domain.predicates.filter fun predicate => fold predicate.name = fold name).map
      fun predicate => predicate.params.length

/-- Predicates have different names, and functions have different names. -/
structure NamesOnce (domain : Domain) : Prop where
  predicates : (domain.predicates.map fun predicate => fold predicate.name).Nodup
  functions : (domain.functions.map fun function => fold function.name).Nodup

/-- A closed domain declares its names once. -/
lemma Closed.namesOnce (h : domain.Closed) : domain.NamesOnce :=
  ⟨h.predicates_nodup, h.functions_nodup⟩

/-- The reader of domains makes closed domains only. -/
lemma closed_of_run {c : Reader.Context} {text : String} {cursor : Cursor} {a' : Assembly}
    (hcursor : Cursor.ofText text = .ok cursor)
    (hrun : Assembly.domain c (Assembly.ofCursor cursor) = .ok domain a') : domain.Closed := by
  have hvalid : (Assembly.ofCursor cursor).cursor.Valid := (Cursor.of_ofText hcursor).1
  exact (Assembly.domain_ensures _ _ _ _ hvalid Declarations.empty_sound hrun).2.2

/-- In a numeric position a name means the function that is found for it. -/
lemma NamesOnce.arities_true (h : domain.NamesOnce) (name : String) :
    domain.arities true name =
      ((findFunction? domain.functions name).map
        fun function => function.params.length).toList := by
  have hfound := filter_eq_toList_find? h.functions (fold name)
  rw [arities, if_pos rfl, hfound, findFunction?, Option.toList_map]

/-- In another position a name means the predicate that is found for it. -/
lemma NamesOnce.arities_false (h : domain.NamesOnce) (name : String) :
    domain.arities false name =
      ((findPredicate? domain.predicates name).map
        fun predicate => predicate.params.length).toList := by
  have hfound := filter_eq_toList_find? h.predicates (fold name)
  rw [arities, if_neg (by decide), hfound, findPredicate?, Option.toList_map]

/-- In each position a name means nothing or one thing. -/
lemma NamesOnce.arities_cases (h : domain.NamesOnce) (numeric : Bool) (name : String) :
    domain.arities numeric name = [] ∨ ∃ count, domain.arities numeric name = [count] := by
  cases numeric with
  | false =>
    rw [h.arities_false]
    cases findPredicate? domain.predicates name with
    | none => exact Or.inl rfl
    | some predicate => exact Or.inr ⟨_, rfl⟩
  | true =>
    rw [h.arities_true]
    cases findFunction? domain.functions name with
    | none => exact Or.inl rfl
    | some function => exact Or.inr ⟨_, rfl⟩

/-- A declared name has one arity. -/
lemma NamesOnce.exists_arity (h : domain.NamesOnce) {atom : Atom} {numeric : Bool}
    (hdeclared : Check.IsDeclared domain.predicates domain.functions atom numeric) :
    ∃ arity, domain.arities numeric atom.name = [arity] := by
  unfold Check.IsDeclared at hdeclared
  cases numeric with
  | true =>
    rw [if_pos rfl] at hdeclared
    obtain ⟨function, hfunction, hname⟩ := hdeclared
    cases hfind : findFunction? domain.functions atom.name with
    | none => exact absurd (by simpa using hname) (List.find?_eq_none.mp hfind function hfunction)
    | some found => exact ⟨found.params.length, by rw [h.arities_true, hfind]; rfl⟩
  | false =>
    rw [if_neg (by decide)] at hdeclared
    obtain ⟨predicate, hpredicate, hname⟩ := hdeclared
    cases hfind : findPredicate? domain.predicates atom.name with
    | none => exact absurd (by simpa using hname) (List.find?_eq_none.mp hfind predicate hpredicate)
    | some found => exact ⟨found.params.length, by rw [h.arities_false, hfind]; rfl⟩

end Domain

/-! ### The check -/

namespace Check

variable {domain : Domain}

/-- An atom passes the check of its arity if it has that many arguments. -/
lemma arity_eq_ok {kind : SymbolKind} {count : Nat} {site : Site} {atom : Atom} :
    arity kind count site atom = .ok () ↔ atom.args.length = count := by
  unfold arity
  split_ifs with hcount
  · simp [hcount]
  · simp [hcount]

/-- An atom passes exactly if it has as many arguments as each declaration of its name has
parameters. -/
lemma referenceArity_eq_ok (h : domain.NamesOnce) {site : Site} {atom : Atom} {numeric : Bool} :
    referenceArity domain site (atom, numeric) = .ok () ↔
      ∀ arity ∈ domain.arities numeric atom.name, atom.args.length = arity := by
  cases numeric with
  | true =>
    rw [h.arities_true]
    cases hfind : findFunction? domain.functions atom.name with
    | none => simp [referenceArity, hfind]
    | some function => simp [referenceArity, hfind, arity_eq_ok]
  | false =>
    rw [h.arities_false]
    cases hfind : findPredicate? domain.predicates atom.name with
    | none => simp [referenceArity, hfind]
    | some predicate => simp [referenceArity, hfind, arity_eq_ok]

/-- A variable passes exactly if it is in scope. -/
lemma boundVariable_eq_ok {site : Site} {use : String × List String} :
    boundVariable site use = .ok () ↔ use.1 ∈ use.2 := by
  unfold boundVariable
  split_ifs with hbound
  · simp [hbound]
  · simp [hbound]

/-- The variables of an expression pass exactly if all variables among its arguments are bound. -/
lemma boundVariables_eq_ok {site : Site} {action : Action} {body : Expr} :
    each (boundVariable site) (body.uses (actionScope action)) = .ok () ↔
      ∀ var bound, body.HasVariable .argument var bound → action.Binds bound var := by
  rw [each_eq_ok]
  constructor
  · intro h var bound hvar
    have huse := boundVariable_eq_ok.mp (h _ (hvar.mem_uses rfl (actionScope action)))
    exact Action.mem_scope_iff_binds.mp huse
  · intro h use huse
    obtain ⟨var, bound, hvar, rfl⟩ := body.exists_hasVariable_of_mem_uses huse
    exact boundVariable_eq_ok.mpr (Action.mem_scope_iff_binds.mpr (h var bound hvar))

/-- The atoms of an expression pass exactly if they have as many arguments as the declarations of
their names have parameters. -/
lemma referenceArities_eq_ok (h : domain.NamesOnce) {site : Site} {body : Expr} :
    each (referenceArity domain site) (body.references false) = .ok () ↔
      ∀ atom numeric, body.HasAtom atom numeric →
        ∀ arity ∈ domain.arities numeric atom.name, atom.args.length = arity := by
  rw [each_eq_ok]
  constructor
  · intro hall atom numeric hatom
    have hreference := hatom.mem_references false
    rw [Bool.false_or] at hreference
    exact (referenceArity_eq_ok h).mp (hall _ hreference)
  · rintro hall ⟨atom, numeric⟩ hreference
    obtain ⟨inner, hnumeric, hatom⟩ := body.hasAtom_of_mem_references hreference
    rw [Bool.false_or] at hnumeric
    rw [← hnumeric] at hatom
    exact (referenceArity_eq_ok h).mpr (hall atom numeric hatom)

/-- A domain passes exactly if the atoms and the variables of all its actions do. -/
lemma domainArities_eq_ok (h : domain.NamesOnce) :
    domainArities domain = .ok () ↔ ∀ action ∈ domain.actions, ∀ body ∈ action.bodies,
      (∀ atom numeric, body.HasAtom atom numeric →
        ∀ arity ∈ domain.arities numeric atom.name, atom.args.length = arity) ∧
      ∀ var bound, body.HasVariable .argument var bound → action.Binds bound var := by
  unfold domainArities
  rw [each_eq_ok]
  refine forall₂_congr fun action _ => ?_
  unfold actionArities
  rw [each_eq_ok]
  refine forall₂_congr fun body _ => ?_
  rw [bind_eq_ok, ← referenceArities_eq_ok h, ← boundVariables_eq_ok]
  constructor
  · rintro ⟨_, hreferences, hvariables⟩
    exact ⟨hreferences, hvariables⟩
  · rintro ⟨hreferences, hvariables⟩
    exact ⟨(), hreferences, hvariables⟩

end Check

namespace Domain

/-- In a domain that was read, every atom of an action has exactly one declaration, at any depth: a
function if it stands under a comparison, arithmetic or an update, and a predicate if not.  The
domain passes the check of arities exactly if each atom has as many arguments as that declaration
has parameters, and each variable among the arguments is a parameter, a quantified variable around
it or the duration of a durative action. -/
theorem domainArities_eq_ok_iff (settings : Settings) (text : String) (capacity : Nat)
    (domain : Domain) (h : (parse settings text capacity).result = .ok domain) :
    (∀ action ∈ domain.actions, ∀ body ∈ action.bodies, ∀ atom numeric,
      body.HasAtom atom numeric → ∃ arity, domain.arities numeric atom.name = [arity]) ∧
    (Check.domainArities domain = .ok () ↔
      ∀ action ∈ domain.actions, ∀ body ∈ action.bodies,
        (∀ atom numeric, body.HasAtom atom numeric →
          domain.arities numeric atom.name = [atom.args.length]) ∧
        ∀ var bound, body.HasVariable .argument var bound → action.Binds bound var) := by
  obtain ⟨cursor, a', hcursor, hrun⟩ := parse_eq_ok.mp h
  have hclosed : domain.Closed := closed_of_run hcursor hrun
  have honce : domain.NamesOnce := hclosed.namesOnce
  have hdeclared : ∀ action ∈ domain.actions, ∀ body ∈ action.bodies, ∀ atom numeric,
      body.HasAtom atom numeric → ∃ arity, domain.arities numeric atom.name = [arity] :=
    fun action haction body hbody atom numeric hatom =>
      honce.exists_arity (hclosed.atoms_declared action haction body hbody atom numeric hatom)
  refine ⟨hdeclared, (Check.domainArities_eq_ok honce).trans ?_⟩
  refine forall₂_congr fun action haction => forall₂_congr fun body hbody => and_congr_left' ?_
  refine forall₃_congr fun atom numeric hatom => ?_
  obtain ⟨arity, harity⟩ := hdeclared action haction body hbody atom numeric hatom
  simp [harity, eq_comm]

/-- A domain in which one name is a function of one parameter and a predicate of two, and an action
uses both in other letters, below a quantifier and in its duration. -/
def overloadedText : String :=
  "(define (domain d) (:predicates (on ?a ?b)) (:functions (on ?a) (cost)) " ++
    "(:durative-action move :parameters (?x) :duration (= ?duration (ON ?x)) " ++
    ":condition (at start (forall (?y) (On ?X ?y))) :effect (at end (increase (cost) (on ?x)))))"

/-- The domain can be read and passes, so each atom has the arity of its own declaration. -/
theorem domainArities_eq_ok_iff_overloaded :
    ∃ domain, (parse .lenient overloadedText).result = .ok domain ∧ domain.actions.length = 1 ∧
      domain.arities true "ON" = [1] ∧ domain.arities false "ON" = [2] ∧
      Check.domainArities domain = .ok () ∧
      ∀ action ∈ domain.actions, ∀ body ∈ action.bodies, ∀ atom numeric,
        body.HasAtom atom numeric → domain.arities numeric atom.name = [atom.args.length] := by
  have hread : (parse .lenient overloadedText).result.toOption.map (fun domain =>
      (domain.actions.length, domain.arities true "ON", domain.arities false "ON",
        (Check.domainArities domain).toOption)) = some (1, [1], [2], some ()) := by
    decide +kernel
  obtain ⟨domain, hdomain, hshape⟩ := Option.map_eq_some_iff.mp hread
  obtain ⟨hone, hshape⟩ := Prod.mk.inj hshape
  obtain ⟨hfunction, hshape⟩ := Prod.mk.inj hshape
  obtain ⟨hpredicate, hpasses⟩ := Prod.mk.inj hshape
  have hparse := Check.toOption_eq_some.mp hdomain
  have hpasses := Check.toOption_eq_some.mp hpasses
  have hexact := (domainArities_eq_ok_iff .lenient overloadedText _ domain hparse).2.mp hpasses
  exact ⟨domain, hparse, hone, hfunction, hpredicate, hpasses, fun action haction body hbody =>
    (hexact action haction body hbody).1⟩

end Domain

end Pddl
