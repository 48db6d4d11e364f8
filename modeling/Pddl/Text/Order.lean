/-!
# Sets of texts

A set of texts is a list without repetitions; it is shown in the order of code points.
-/

namespace Pddl.Text

/-- The texts in the order of their code points. -/
def sorted (texts : List String) : List String :=
  texts.mergeSort fun a b => decide (a ≤ b)

/-- Adds a text at the end, unless it is there already. -/
def insertNew (set : List String) (text : String) : List String :=
  if text ∈ set then set else set ++ [text]

/-- Adds several texts, one after the other. -/
def union (set texts : List String) : List String :=
  texts.foldl insertNew set

@[simp] theorem mem_insertNew {set : List String} {text x : String} :
    x ∈ insertNew set text ↔ x ∈ set ∨ x = text := by
  unfold insertNew
  split <;> simp_all

@[simp] theorem mem_union {set texts : List String} {x : String} :
    x ∈ union set texts ↔ x ∈ set ∨ x ∈ texts := by
  unfold union
  induction texts generalizing set with
  | nil => simp
  | cons text rest ih => simp [ih, or_assoc]

end Pddl.Text
