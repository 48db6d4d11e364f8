import Mathlib.Data.List.Basic
import Pddl.Expr.Traversal
import Pddl.Reader.Expr

/-!
# The grammar of expressions

Expressions are trees of one type, but each place of a document takes only some of them.  This file
defines the four classes `IsNumeric`, `IsCondition`, `IsEffect` and `IsDuration` by the forms that
may stand there, without reference to how they are read, and derives what can occur at any depth of
an expression of each class.
-/

namespace Pddl

/-- The words that cannot name the predicate of an atom, folded. -/
def reservedWords : List String :=
  ["and", "or", "not", "forall", "exists", "when", "assign", "increase", "decrease", "scale-up",
    "scale-down"]

/-- The pairs of words that announce a time, folded. -/
def timeWords : List (String × String) :=
  [("at", "start"), ("at", "end"), ("over", "all")]

/-- The atom can stand where a formula is read: its name is no reserved word, and its name and
first argument together announce no time. -/
structure Atom.IsPlain (atom : Atom) : Prop where
  name : fold atom.name ∉ reservedWords
  start : ∀ arg ∈ atom.args.head?, (fold atom.name, fold arg) ∉ timeWords

/-- The operand counts of arithmetic: a single operand of `-` is negated, a quotient has two, and
sums and products have two or more. -/
def ArithOp.HasArity : ArithOp → Nat → Prop
  | .sub, n => n = 1 ∨ n = 2
  | .div, n => n = 2
  | .add, n => 2 ≤ n
  | .mul, n => 2 ≤ n

/-- The readers accept the operand counts of arithmetic. -/
lemma ArithOp.accepts_iff {op : ArithOp} {n : Nat} : op.accepts n = true ↔ op.HasArity n := by
  cases op <;> simp [accepts, HasArity]

namespace Expr

/-! ### The four classes -/

/-- The numeric terms. -/
inductive IsNumeric : Expr → Prop
  | number (value : Number) : IsNumeric (.number value)
  | term (name : String) : IsNumeric (.term name)
  | atom (atom : Atom) : IsNumeric (.atom atom)
  | arith {op : ArithOp} {operands : List Expr} : op.HasArity operands.length →
      (∀ e ∈ operands, IsNumeric e) → IsNumeric (.arith op operands)

/-- The conditions; only where `temporal` holds can they be timed, and no timed condition is inside
another one. -/
inductive IsCondition : Bool → Expr → Prop
  | atom {temporal : Bool} {atom : Atom} : atom.IsPlain → IsCondition temporal (.atom atom)
  | and {temporal : Bool} {operands : List Expr} : (∀ e ∈ operands, IsCondition temporal e) →
      IsCondition temporal (.and operands)
  | or {temporal : Bool} {operands : List Expr} : (∀ e ∈ operands, IsCondition temporal e) →
      IsCondition temporal (.or operands)
  | not {temporal : Bool} {operand : Expr} : IsCondition temporal operand →
      IsCondition temporal (.not operand)
  | quantified {temporal : Bool} (quantifier : Quantifier) (vars : List TypedName)
      {operand : Expr} : IsCondition temporal operand →
      IsCondition temporal (.quantified quantifier vars operand)
  | compare {temporal : Bool} (op : CompareOp) {left right : Expr} : left.IsNumeric →
      right.IsNumeric → IsCondition temporal (.compare op left right)
  | timed (time : TimeSpec) {operand : Expr} : IsCondition false operand →
      IsCondition true (.timed time operand)

/-- The effects; only where `temporal` holds can they be timed, and never by `over all`. -/
inductive IsEffect : Bool → Expr → Prop
  | atom {temporal : Bool} {atom : Atom} : atom.IsPlain → IsEffect temporal (.atom atom)
  | and {temporal : Bool} {operands : List Expr} : (∀ e ∈ operands, IsEffect temporal e) →
      IsEffect temporal (.and operands)
  | not {temporal : Bool} (atom : Atom) : IsEffect temporal (.not (.atom atom))
  | forAll {temporal : Bool} (vars : List TypedName) {operand : Expr} :
      IsEffect temporal operand → IsEffect temporal (.quantified .universal vars operand)
  | when {temporal : Bool} {condition effect : Expr} : condition.IsCondition temporal →
      IsEffect temporal effect → IsEffect temporal (.when condition effect)
  | update {temporal : Bool} (op : UpdateOp) (fluent : Atom) {value : Expr} : value.IsNumeric →
      IsEffect temporal (.update op fluent value)
  | timed {time : TimeSpec} {operand : Expr} : time ≠ .overAll → IsEffect false operand →
      IsEffect true (.timed time operand)

/-- The constraints on durations. -/
inductive IsDuration : Expr → Prop
  | and {operands : List Expr} : (∀ e ∈ operands, IsDuration e) → IsDuration (.and operands)
  | compare (op : CompareOp) {left right : Expr} : left.IsNumeric → right.IsNumeric →
      IsDuration (.compare op left right)
  | timed {time : TimeSpec} {operand : Expr} : time ≠ .overAll → IsDuration operand →
      IsDuration (.timed time operand)

/-- The empty conjunction is a condition. -/
lemma isCondition_trivial (temporal : Bool) : trivial.IsCondition temporal :=
  .and fun _ h => absurd h List.not_mem_nil

/-- The empty conjunction is an effect. -/
lemma isEffect_trivial (temporal : Bool) : trivial.IsEffect temporal :=
  .and fun _ h => absurd h List.not_mem_nil

/-- The empty conjunction is a duration constraint. -/
lemma isDuration_trivial : trivial.IsDuration :=
  .and fun _ h => absurd h List.not_mem_nil

/-! ### Parts -/

/-- The parts of waiting expressions are those of each of them in turn. -/
lemma walkFrom_append (xs ys : List Expr) : walkFrom (xs ++ ys) = walkFrom xs ++ walkFrom ys := by
  fun_induction walkFrom xs with
  | case1 => simp
  | case2 e waiting ih =>
    rw [List.cons_append, walkFrom, ← List.append_assoc, ih, List.cons_append]

/-- The parts of waiting expressions, one expression after the other. -/
lemma walkFrom_eq_flatMap (xs : List Expr) : walkFrom xs = xs.flatMap walk := by
  induction xs with
  | nil => rw [walkFrom, List.flatMap_nil]
  | cons e rest ih =>
    rw [← List.singleton_append, walkFrom_append, ih]
    rfl

/-- The parts of an expression are itself and the parts of its direct parts. -/
lemma walk_eq (e : Expr) : e.walk = e :: e.children.flatMap walk := by
  rw [walk, walkFrom, List.append_nil, walkFrom_eq_flatMap]

/-- A part of an expression is the expression or a part of one of its direct parts. -/
lemma mem_walk {e part : Expr} :
    part ∈ e.walk ↔ part = e ∨ ∃ child ∈ e.children, part ∈ child.walk := by
  rw [walk_eq, List.mem_cons, List.mem_flatMap]

/-- An expression is a part of itself. -/
lemma self_mem_walk (e : Expr) : e ∈ e.walk :=
  mem_walk.mpr (Or.inl rfl)

/-- The parts of a direct part are parts. -/
lemma mem_walk_of_child {e child part : Expr} (hchild : child ∈ e.children)
    (h : part ∈ child.walk) : part ∈ e.walk :=
  mem_walk.mpr (Or.inr ⟨child, hchild, h⟩)

/-- Direct parts are smaller than the whole. -/
lemma size_lt_of_child {e child : Expr} (h : child ∈ e.children) : child.size < e.size := by
  have hle : ∀ xs : List Expr, child ∈ xs → child.size ≤ sizeAll xs := by
    intro xs hmem
    induction xs with
    | nil => cases hmem
    | cons x rest ih =>
      rw [sizeAll]
      rcases List.mem_cons.mp hmem with rfl | hmem
      · omega
      · have := ih hmem
        omega
  have hsize := sizeAll_children e
  have := hle e.children h
  omega

/-- What passes from expressions to their direct parts passes to all of their parts. -/
lemma of_mem_walk {P : Expr → Prop} (hchild : ∀ e, P e → ∀ child ∈ e.children, P child)
    {e part : Expr} (h : P e) (hpart : part ∈ e.walk) : P part := by
  rcases mem_walk.mp hpart with rfl | ⟨child, hmem, hpart⟩
  · exact h
  · exact of_mem_walk hchild (hchild e h child hmem) hpart
termination_by e.size
decreasing_by exact size_lt_of_child hmem

/-! ### What occurs in each class -/

/-- Is the expression timed? -/
def IsTimed : Expr → Prop
  | .timed _ _ => True
  | _ => False

/-- Can the expression only be part of an effect: is it a conditional effect or an update? -/
def IsEffectOnly : Expr → Prop
  | .when _ _ => True
  | .update _ _ _ => True
  | _ => False

/-- The direct parts of a numeric term are numeric terms. -/
lemma IsNumeric.child {e child : Expr} (h : e.IsNumeric) (hchild : child ∈ e.children) :
    child.IsNumeric := by
  cases h with
  | number value | term name | atom atom => cases hchild
  | arith hop hall => exact hall child hchild

/-- A numeric term is neither timed nor part of effects only. -/
lemma IsNumeric.not_special {e : Expr} (h : e.IsNumeric) : ¬ e.IsTimed ∧ ¬ e.IsEffectOnly := by
  cases h <;> exact ⟨fun h => h, fun h => h⟩

/-- A condition that is nowhere timed is a condition wherever conditions may be timed. -/
lemma IsCondition.of_untimed {e : Expr} (h : e.IsCondition false) (temporal : Bool) :
    e.IsCondition temporal := by
  generalize huntimed : false = untimed at h
  induction h with
  | atom hplain => exact .atom hplain
  | and hall ih => exact .and fun e he => ih e he huntimed
  | or hall ih => exact .or fun e he => ih e he huntimed
  | not h ih => exact .not (ih huntimed)
  | quantified quantifier vars h ih => exact .quantified quantifier vars (ih huntimed)
  | compare op hleft hright => exact .compare op hleft hright
  | timed time h ih => cases huntimed

/-- The direct parts of a condition are conditions or numeric terms. -/
lemma IsCondition.child {temporal : Bool} {e child : Expr} (h : e.IsCondition temporal)
    (hchild : child ∈ e.children) : child.IsCondition temporal ∨ child.IsNumeric := by
  cases h with
  | atom hplain => cases hchild
  | and hall | or hall => exact Or.inl (hall child hchild)
  | not h | quantified quantifier vars h =>
    cases List.mem_singleton.mp hchild
    exact Or.inl h
  | timed time h =>
    cases List.mem_singleton.mp hchild
    exact Or.inl (h.of_untimed true)
  | compare op hleft hright =>
    simp only [children, List.mem_cons, List.not_mem_nil, or_false] at hchild
    rcases hchild with rfl | rfl
    · exact Or.inr hleft
    · exact Or.inr hright

/-- The parts of a condition are conditions or numeric terms. -/
lemma IsCondition.of_mem_walk {temporal : Bool} {e part : Expr} (h : e.IsCondition temporal)
    (hpart : part ∈ e.walk) : part.IsCondition temporal ∨ part.IsNumeric := by
  refine Expr.of_mem_walk (P := fun e => e.IsCondition temporal ∨ e.IsNumeric) ?_ (Or.inl h) hpart
  rintro e (h | h) child hchild
  · exact h.child hchild
  · exact Or.inr (h.child hchild)

/-- No conditional effect and no update is part of a condition. -/
lemma IsCondition.not_isEffectOnly {temporal : Bool} {e part : Expr} (h : e.IsCondition temporal)
    (hpart : part ∈ e.walk) : ¬ part.IsEffectOnly := by
  rcases h.of_mem_walk hpart with h | h
  · cases h <;> exact fun h => h
  · exact h.not_special.2

/-- No part of an untimed condition is timed. -/
lemma IsCondition.not_isTimed {e part : Expr} (h : e.IsCondition false) (hpart : part ∈ e.walk) :
    ¬ part.IsTimed := by
  rcases h.of_mem_walk hpart with h | h
  · cases h <;> exact fun h => h
  · exact h.not_special.1

/-- An effect that is nowhere timed is an effect wherever effects may be timed. -/
lemma IsEffect.of_untimed {e : Expr} (h : e.IsEffect false) (temporal : Bool) :
    e.IsEffect temporal := by
  generalize huntimed : false = untimed at h
  induction h with
  | atom hplain => exact .atom hplain
  | and hall ih => exact .and fun e he => ih e he huntimed
  | not atom => exact .not atom
  | forAll vars h ih => exact .forAll vars (ih huntimed)
  | when hcondition h ih =>
    subst huntimed
    exact .when (hcondition.of_untimed temporal) (ih rfl)
  | update op fluent hvalue => exact .update op fluent hvalue
  | timed htime h ih => cases huntimed

/-- The direct parts of an effect are effects, conditions or numeric terms. -/
lemma IsEffect.child {temporal : Bool} {e child : Expr} (h : e.IsEffect temporal)
    (hchild : child ∈ e.children) :
    child.IsEffect temporal ∨ child.IsCondition temporal ∨ child.IsNumeric := by
  cases h with
  | atom hplain => cases hchild
  | and hall => exact Or.inl (hall child hchild)
  | not atom =>
    cases List.mem_singleton.mp hchild
    exact Or.inr (Or.inr (.atom atom))
  | forAll vars h =>
    cases List.mem_singleton.mp hchild
    exact Or.inl h
  | when hcondition h =>
    simp only [children, List.mem_cons, List.not_mem_nil, or_false] at hchild
    rcases hchild with rfl | rfl
    · exact Or.inr (Or.inl hcondition)
    · exact Or.inl h
  | update op fluent hvalue =>
    simp only [children, List.mem_cons, List.not_mem_nil, or_false] at hchild
    rcases hchild with rfl | rfl
    · exact Or.inr (Or.inr (.atom fluent))
    · exact Or.inr (Or.inr hvalue)
  | timed htime h =>
    cases List.mem_singleton.mp hchild
    exact Or.inl (h.of_untimed true)

/-- No part of an untimed effect is timed. -/
lemma IsEffect.not_isTimed {e part : Expr} (h : e.IsEffect false) (hpart : part ∈ e.walk) :
    ¬ part.IsTimed := by
  have hclass : part.IsEffect false ∨ part.IsCondition false ∨ part.IsNumeric := by
    refine Expr.of_mem_walk
      (P := fun e => e.IsEffect false ∨ e.IsCondition false ∨ e.IsNumeric) ?_ (Or.inl h) hpart
    rintro e (h | h | h) child hchild
    · exact h.child hchild
    · exact Or.inr (h.child hchild)
    · exact Or.inr (Or.inr (h.child hchild))
  rcases hclass with h | h | h
  · cases h <;> exact fun h => h
  · exact h.not_isTimed (self_mem_walk part)
  · exact h.not_special.1

end Expr

/-! ### Positions -/

/-- The places of a document where an expression is read. -/
inductive Position
  | numeric
  | condition (temporal : Bool)
  | effect (temporal : Bool)
  | duration
deriving DecidableEq, Repr

namespace Position

/-- The expressions that may stand in a place. -/
def Admits : Position → Expr → Prop
  | .numeric, e => e.IsNumeric
  | .condition temporal, e => e.IsCondition temporal
  | .effect temporal, e => e.IsEffect temporal
  | .duration, e => e.IsDuration

/-- The reader of the expressions of a place, within a budget of open expressions. -/
def readWithin (budget : Nat) : Position → ReadM Expr
  | .numeric => Reader.numericTerm budget
  | .condition temporal => Reader.condition budget temporal
  | .effect temporal => Reader.effect budget temporal
  | .duration => Reader.durationConstraint budget

/-- The reader of the expressions of a place. -/
def reader : Position → ReadM Expr
  | .numeric => Reader.anyNumericTerm
  | .condition temporal => Reader.anyCondition temporal
  | .effect temporal => Reader.anyEffect temporal
  | .duration => Reader.anyDurationConstraint

/-- Expressions are read with all of the budget. -/
lemma reader_eq (position : Position) :
    position.reader = (do position.readWithin (← Reader.budget)) := by
  cases position <;> rfl

end Position

end Pddl
