import Pddl.Number
import Pddl.TypedName

/-!
# Expressions

Conditions, effects, numeric terms and duration constraints are trees of one type.
-/

namespace Pddl

/-- When a part of a durative action holds. -/
inductive TimeSpec
  | atStart
  | atEnd
  | overAll
deriving DecidableEq, Repr

namespace TimeSpec

/-- The two words of a time specifier. -/
def words : TimeSpec → String × String
  | .atStart => ("at", "start")
  | .atEnd => ("at", "end")
  | .overAll => ("over", "all")

/-- The time specifier of two folded words. -/
def ofWords? : String → String → Option TimeSpec
  | "at", "start" => some .atStart
  | "at", "end" => some .atEnd
  | "over", "all" => some .overAll
  | _, _ => none

/-- The time specifier as it is written. -/
def text (time : TimeSpec) : String :=
  time.words.1 ++ " " ++ time.words.2

end TimeSpec

/-- Comparisons of two numeric terms. -/
inductive CompareOp
  | eq
  | lt
  | le
  | gt
  | ge
deriving DecidableEq, Repr

namespace CompareOp

/-- The operator as it is written. -/
def text : CompareOp → String
  | .eq => "="
  | .lt => "<"
  | .le => "<="
  | .gt => ">"
  | .ge => ">="

/-- The comparison that a text spells. -/
def ofText? : String → Option CompareOp
  | "=" => some .eq
  | "<" => some .lt
  | "<=" => some .le
  | ">" => some .gt
  | ">=" => some .ge
  | _ => none

end CompareOp

/-- Arithmetic on numeric terms. -/
inductive ArithOp
  | add
  | sub
  | mul
  | div
deriving DecidableEq, Repr

namespace ArithOp

/-- The operator as it is written. -/
def text : ArithOp → String
  | .add => "+"
  | .sub => "-"
  | .mul => "*"
  | .div => "/"

/-- The arithmetic operator that a text spells. -/
def ofText? : String → Option ArithOp
  | "+" => some .add
  | "-" => some .sub
  | "*" => some .mul
  | "/" => some .div
  | _ => none

/-- May the operator have `n` operands?  A single operand of `-` is negated. -/
def accepts : ArithOp → Nat → Bool
  | .sub, n => n = 1 || n = 2
  | .div, n => n = 2
  | _, n => 2 ≤ n

/-- The operand counts of the operator in words. -/
def arityText : ArithOp → String
  | .sub => "one or two arguments"
  | .div => "exactly two arguments"
  | _ => "at least two arguments"

end ArithOp

/-- Effects on the value of a fluent. -/
inductive UpdateOp
  | assign
  | increase
  | decrease
  | scaleUp
  | scaleDown
deriving DecidableEq, Repr

namespace UpdateOp

/-- The operator as it is written. -/
def text : UpdateOp → String
  | .assign => "assign"
  | .increase => "increase"
  | .decrease => "decrease"
  | .scaleUp => "scale-up"
  | .scaleDown => "scale-down"

/-- The update operator that a folded word spells. -/
def ofText? : String → Option UpdateOp
  | "assign" => some .assign
  | "increase" => some .increase
  | "decrease" => some .decrease
  | "scale-up" => some .scaleUp
  | "scale-down" => some .scaleDown
  | _ => none

end UpdateOp

/-- The two quantifiers. -/
inductive Quantifier
  | universal
  | existential
deriving DecidableEq, Repr

/-- The quantifier as it is written. -/
def Quantifier.text : Quantifier → String
  | .universal => "forall"
  | .existential => "exists"

/-- The quantifier that a folded word spells. -/
def Quantifier.ofText? : String → Option Quantifier
  | "forall" => some .universal
  | "exists" => some .existential
  | _ => none

/-- The name of a predicate or fluent applied to variables and objects. -/
structure Atom where
  name : String
  args : List String
deriving DecidableEq, Repr

namespace Atom

/-- The atom in messages and listings. -/
def text (atom : Atom) : String :=
  atom.name ++ "(" ++ String.intercalate ", " atom.args ++ ")"

/-- Is no argument a variable? -/
def isGround (atom : Atom) : Bool :=
  !atom.args.any isVariable

end Atom

/-- An expression. -/
inductive Expr
  | atom (atom : Atom)
  | term (name : String)
  | number (value : Number)
  | not (operand : Expr)
  | and (operands : List Expr)
  | or (operands : List Expr)
  | timed (time : TimeSpec) (operand : Expr)
  | compare (op : CompareOp) (left right : Expr)
  | arith (op : ArithOp) (operands : List Expr)
  | update (op : UpdateOp) (fluent : Atom) (value : Expr)
  | quantified (quantifier : Quantifier) (vars : List TypedName) (operand : Expr)
  | when (condition effect : Expr)

namespace Expr

/-- The empty conjunction: always true, or without any effect. -/
def trivial : Expr := .and []

/-- Is the expression a variable or an object name? -/
def isTerm : Expr → Bool
  | .term _ => true
  | _ => false

/-- The direct parts of an expression, in the order in which they are written. -/
def children : Expr → List Expr
  | .atom _ | .term _ | .number _ => []
  | .not operand | .timed _ operand | .quantified _ _ operand => [operand]
  | .and operands | .or operands | .arith _ operands => operands
  | .compare _ left right => [left, right]
  | .update _ fluent value => [.atom fluent, value]
  | .when condition effect => [condition, effect]

end Expr

end Pddl
