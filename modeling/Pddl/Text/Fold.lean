/-!
# Case folding

The names, keywords and flags of a text are compared without regard to case.  The scan makes them of
ASCII characters only (`Token.lower_text_eq_key`), so folding touches the letters `A` to `Z` and
leaves every other character alone.  Names that do not come from a text may have other letters; what
is done with such names takes the way to fold them as a parameter (`Folding`).
-/

namespace Pddl

/-- The text with its ASCII capitals made small.  Two names are the same name when their folds
are equal. -/
def fold (s : String) : String :=
  String.ofList (s.toList.map Char.toLower)

@[simp] theorem toList_fold (s : String) : (fold s).toList = s.toList.map Char.toLower := by
  simp [fold]

end Pddl
