import Pddl.Text.Fold

/-!
# Requirement flags

A domain declares the language features it uses by flags such as `:typing`.  Some flags stand for
several others; `expand` computes everything that a list of flags declares.
-/

namespace Pddl.Requirement

/-- The recognised flags, each with what it permits. -/
def known : List (String × String) :=
  [(":strips", "Basic STRIPS-style adds and deletes"),
   (":typing", "Allow type names in declarations of variables"),
   (":disjunctive-preconditions", "Allow `or` in goal descriptions"),
   (":equality", "Support `=` as built-in predicate"),
   (":existential-preconditions", "Allow `exists` in goal descriptions"),
   (":universal-preconditions", "Allow `forall` in goal descriptions"),
   (":quantified-preconditions", "Allow existential and universal preconditions"),
   (":conditional-effects", "Allow `when` in action effects"),
   (":action-expansions", "Allow actions to have :expansions"),
   (":foreach-expansions", "Allow actions expansions to use `foreach`"),
   (":dag-expansions", "Allow labeled subactions"),
   (":domain-axioms", "Allow domains to have :axioms"),
   (":subgoals-through-axioms", "Given axioms p => q and goal q, generate subgoal p"),
   (":safety-constraints", "Allow :safety conditions for a domain"),
   (":expression-evaluation", "Support `eval` predicate in axioms"),
   (":fluents", "Support numeric and object fluents"),
   (":open-world", "Don't make the closed-world assumption for all predicates"),
   (":true-negation", "Don't handle `not` using negation as failure"),
   (":adl", "Support :strips + :typing + :disjunctive-preconditions + :equality + " ++
     ":quantified-preconditions + :conditional-effects"),
   (":ucpop", "Support :adl + :domain-axioms + :safety-constraints"),
   (":numeric-fluents", "Allow numeric functions, comparisons, and updates"),
   (":durative-actions", "Allow durative actions with temporally qualified conditions"),
   (":durative-inequalities", "Allow inequalities in duration constraints"),
   (":continuous-effects", "Allow effects that change fluents continuously over time"),
   (":negative-preconditions", "Allow `not` in goal descriptions"),
   (":derived-predicates", "Allow predicates defined by :derived rules"),
   (":timed-initial-literals", "Allow literals to become true at given times"),
   (":preferences", "Allow soft goals and preconditions"),
   (":constraints", "Allow state-trajectory constraints"),
   (":action-costs", "Allow the `total-cost` fluent in metrics"),
   (":goal-utilities", "Allow utilities to be attached to goals"),
   (":time", "Allow processes and events over continuous time")]

/-- What a flag permits, for a flag written exactly as it is listed. -/
def about? (flag : String) : Option String :=
  known.lookup flag

/-- Is the flag recognised, in any case? -/
def isKnown (flag : String) : Bool :=
  (about? (fold flag)).isSome

/-- The flags whose whole grammar is read. -/
def supported : List String :=
  [":strips", ":typing", ":durative-actions", ":numeric-fluents"]

/-- The compound flags, each with the flags it stands for. -/
def compounds : List (String × List String) :=
  [(":adl",
     [":strips", ":typing", ":disjunctive-preconditions", ":equality", ":quantified-preconditions",
      ":existential-preconditions", ":universal-preconditions", ":conditional-effects"]),
   (":quantified-preconditions", [":existential-preconditions", ":universal-preconditions"]),
   (":fluents", [":numeric-fluents"]),
   (":ucpop", [":adl", ":domain-axioms", ":safety-constraints"]),
   (":timed-initial-literals", [":durative-actions"]),
   (":durative-inequalities", [":durative-actions"]),
   (":continuous-effects", [":durative-actions", ":numeric-fluents"])]

/-- The flags that a flag implies directly; none for a flag that stands for itself only. -/
def implied (flag : String) : List String :=
  (compounds.lookup flag).getD []

/-! ### Expansion -/

/-- How many implied flags the compounds of a table that are not `opened` can still bring in. -/
def pendingIn (opened : List String) : List (String × List String) → Nat
  | [] => 0
  | (key, flags) :: rest => (if key ∈ opened then 0 else flags.length) + pendingIn opened rest

/-- Opening one more flag leaves no more implied flags to bring in. -/
theorem pendingIn_append_le (opened : List String) (flag : String)
    (table : List (String × List String)) :
    pendingIn (opened ++ [flag]) table ≤ pendingIn opened table := by
  induction table with
  | nil => exact Nat.le_refl 0
  | cons entry rest ih =>
    by_cases h : entry.1 ∈ opened <;> by_cases h' : entry.1 = flag <;>
      simp [pendingIn, h, h'] <;> omega

/-- Opening a flag accounts for all the flags that it implies. -/
theorem length_lookup_add_pendingIn_le (opened : List String) (flag : String)
    (fresh : flag ∉ opened) (table : List (String × List String)) :
    ((table.lookup flag).getD []).length + pendingIn (opened ++ [flag]) table ≤
      pendingIn opened table := by
  induction table with
  | nil => exact Nat.le_refl 0
  | cons entry rest ih =>
    obtain ⟨key, flags⟩ := entry
    have le := pendingIn_append_le opened flag rest
    by_cases same : flag = key
    · subst same
      simp [pendingIn, fresh]
      omega
    · have ne : (flag == key) = false := by simp [same]
      have ne' : ¬ key = flag := fun h => same h.symm
      simp only [pendingIn, List.lookup_cons, ne, List.mem_append, List.mem_singleton, ne',
        or_false]
      omega

/-- Opens the flags of `frontier` one after the other, each once, adding the flags they imply to
the frontier; `opened` are the flags opened so far. -/
def expandFrom (opened : List String) : List String → List String
  | [] => opened
  | flag :: frontier =>
    if flag ∈ opened then
      expandFrom opened frontier
    else
      expandFrom (opened ++ [flag]) (implied flag ++ frontier)
termination_by frontier => frontier.length + pendingIn opened compounds
decreasing_by
  · simp
  · rename_i fresh
    have := length_lookup_add_pendingIn_le opened flag fresh compounds
    simp only [implied, List.length_append, List.length_cons]
    omega

/-- The folded flags together with every flag that they imply, each listed once. -/
def expand (flags : List String) : List String :=
  expandFrom [] (flags.map fold)

end Pddl.Requirement
