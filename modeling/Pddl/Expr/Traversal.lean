import Pddl.Expr

/-!
# Traversals of expressions

`walk` lists an expression and all of its parts; `references` lists the atoms with the kind of
position in which each stands; `uses` lists the variables of atoms with the variables in scope.
-/

namespace Pddl.Expr

/-! ### Size -/

mutual

/-- The number of nodes of an expression, the atom under a numeric update included. -/
def size : Expr → Nat
  | .atom _ | .term _ | .number _ => 1
  | .not operand | .timed _ operand | .quantified _ _ operand => operand.size + 1
  | .and operands | .or operands | .arith _ operands => sizeAll operands + 1
  | .compare _ left right => left.size + right.size + 1
  | .update _ _ value => value.size + 2
  | .when condition effect => condition.size + effect.size + 1

/-- The number of nodes of several expressions. -/
def sizeAll : List Expr → Nat
  | [] => 0
  | e :: es => e.size + sizeAll es

end

theorem sizeAll_append (xs ys : List Expr) : sizeAll (xs ++ ys) = sizeAll xs + sizeAll ys := by
  induction xs with
  | nil => simp [sizeAll]
  | cons x xs ih => simp [sizeAll, ih, Nat.add_assoc]

/-- An expression has one node more than its direct parts together. -/
theorem sizeAll_children (e : Expr) : sizeAll e.children + 1 = e.size := by
  cases e with
  | update op fluent value =>
    rw [size, children, sizeAll, sizeAll, sizeAll, size]
    omega
  | _ => simp [children, size, sizeAll]

/-! ### All parts -/

/-- The expressions that wait in a list and all of their parts: the first one waiting is listed,
and its direct parts wait in front of the others. -/
def walkFrom : List Expr → List Expr
  | [] => []
  | e :: waiting => e :: walkFrom (e.children ++ waiting)
termination_by waiting => sizeAll waiting
decreasing_by
  have := sizeAll_children e
  simp only [sizeAll_append, sizeAll]
  omega

/-- An expression followed by all of its parts, each before its own parts and from left to
right. -/
def walk (e : Expr) : List Expr :=
  walkFrom [e]

/-! ### Atoms and variables -/

mutual

/-- The atoms of an expression from left to right, each with whether it stands in a numeric
position and so names a function.  Comparisons, arithmetic and updates make their parts numeric;
`numeric` says whether the expression itself stands in such a position. -/
def references (numeric : Bool) : Expr → List (Atom × Bool)
  | .atom a => [(a, numeric)]
  | .term _ | .number _ => []
  | .not operand | .timed _ operand | .quantified _ _ operand => references numeric operand
  | .and operands | .or operands => referencesAll numeric operands
  | .compare _ left right => references true left ++ references true right
  | .arith _ operands => referencesAll true operands
  | .update _ fluent value => (fluent, true) :: references true value
  | .when condition effect => references numeric condition ++ references numeric effect

/-- The atoms of several expressions, one expression after the other. -/
def referencesAll (numeric : Bool) : List Expr → List (Atom × Bool)
  | [] => []
  | e :: es => references numeric e ++ referencesAll numeric es

end

/-- The folded variables among the arguments of an atom, each with the scope around it. -/
def usesOfAtom (scope : List String) (atom : Atom) : List (String × List String) :=
  (atom.args.filter isVariable).map fun var => (fold var, scope)

mutual

/-- The folded variables in the atoms of an expression, each with the variables in scope: those
given and those of the quantifiers around it. -/
def uses (scope : List String) : Expr → List (String × List String)
  | .atom a => usesOfAtom scope a
  | .term _ | .number _ => []
  | .not operand | .timed _ operand => uses scope operand
  | .quantified _ vars operand => uses (scope ++ vars.map fun var => fold var.name) operand
  | .and operands | .or operands | .arith _ operands => usesAll scope operands
  | .compare _ left right => uses scope left ++ uses scope right
  | .update _ fluent value => usesOfAtom scope fluent ++ uses scope value
  | .when condition effect => uses scope condition ++ uses scope effect

/-- The variables of several expressions, one expression after the other. -/
def usesAll (scope : List String) : List Expr → List (String × List String)
  | [] => []
  | e :: es => uses scope e ++ usesAll scope es

end

end Pddl.Expr
