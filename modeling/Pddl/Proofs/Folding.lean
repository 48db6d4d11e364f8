import Mathlib.Data.List.Basic
import Pddl.Requirement
import Pddl.Text.DecimalDigit

/-!
# Folding

Folding changes the twenty-six capitals and nothing else.  What is the same for a capital and its
small letter is the same for every character and its fold (`Text.apply_toLower`), so that facts
about folded texts come down to a look at the capitals.
-/

namespace Pddl

/-! ### Characters -/

namespace Text

/-- The letters that folding changes. -/
def capitals : List Char :=
  "ABCDEFGHIJKLMNOPQRSTUVWXYZ".toList

/-- Folding leaves every other character alone. -/
lemma toLower_eq_or_mem_capitals (c : Char) : c.toLower = c ∨ c ∈ capitals := by
  by_cases h : c.val ≥ 'A'.val ∧ c.val ≤ 'Z'.val
  · have hall : ∀ n : Fin 91, 65 ≤ n.val → Char.ofNat n.val ∈ capitals := by decide +kernel
    have hc := hall ⟨c.toNat, Nat.lt_succ_of_le h.2⟩ h.1
    rw [Char.ofNat_toNat] at hc
    exact Or.inr hc
  · refine Or.inl ?_
    unfold Char.toLower
    exact dif_neg h

/-- What capitals have in common with their small letters does not change by folding. -/
lemma apply_toLower {α : Type} {f : Char → α}
    (h : (capitals.map fun c => f c.toLower) = capitals.map f) (c : Char) :
    f c.toLower = f c := by
  rcases toLower_eq_or_mem_capitals c with hc | hc
  · rw [hc]
  · exact List.map_inj_left.mp h c hc

/-- Folding makes no letter out of another character, nor the other way round. -/
lemma isAlpha_toLower (c : Char) : c.toLower.isAlpha = c.isAlpha :=
  apply_toLower (by decide +kernel) c

/-- Folding leaves digits alone. -/
lemma isDecimalDigit_toLower (c : Char) : isDecimalDigit c.toLower = isDecimalDigit c :=
  apply_toLower (by decide +kernel) c

/-- A character that is no letter is left alone. -/
lemma toLower_of_not_isAlpha {c : Char} (h : c.isAlpha = false) : c.toLower = c := by
  have hcapitals : capitals.all Char.isAlpha = true := by decide +kernel
  refine (toLower_eq_or_mem_capitals c).resolve_right fun hc => ?_
  rw [List.all_eq_true.mp hcapitals c hc] at h
  cases h

/-- Letters become no other character. -/
lemma toLower_eq_iff {c d : Char} (hd : d.isAlpha = false) : c.toLower = d ↔ c = d := by
  constructor
  · rintro rfl
    rw [isAlpha_toLower] at hd
    exact (toLower_of_not_isAlpha hd).symm
  · rintro rfl
    exact toLower_of_not_isAlpha hd

/-- A character other than a letter starts a folded text where it starts the text. -/
lemma head?_toLower_eq_some_iff (chars : List Char) (d : Char) (hd : d.isAlpha = false) :
    (chars.map Char.toLower).head? = some d ↔ chars.head? = some d := by
  cases chars with
  | nil => rfl
  | cons c rest =>
    rw [List.map_cons, List.head?_cons, List.head?_cons, Option.some_inj, Option.some_inj]
    exact toLower_eq_iff hd

end Text

/-! ### Texts -/

/-- Folding twice is folding once. -/
@[simp] lemma fold_fold (text : String) : fold (fold text) = fold text := by
  have htwice : Char.toLower ∘ Char.toLower = Char.toLower :=
    funext (Text.apply_toLower (by decide +kernel))
  rw [fold, toList_fold, List.map_map, htwice]
  rfl

/-- A flag is known in any case. -/
lemma Requirement.isKnown_fold (flag : String) : isKnown (fold flag) = isKnown flag := by
  rw [isKnown, fold_fold, isKnown]

/-- Folding goes through concatenation. -/
@[simp] lemma fold_append (text more : String) : fold (text ++ more) = fold text ++ fold more := by
  simp [fold]

/-- Folding goes through joining. -/
lemma fold_intercalate (separator : String) (texts : List String) :
    fold (String.intercalate separator texts) =
      String.intercalate (fold separator) (texts.map fold) := by
  induction texts with
  | nil => rfl
  | cons text rest ih =>
    cases rest with
    | nil => simp
    | cons next rest =>
      rw [List.map_cons, List.map_cons, String.intercalate_cons_cons,
        String.intercalate_cons_cons, fold_append, fold_append, ih, List.map_cons]

/-- A text that folds to one without letters is that text. -/
lemma fold_eq_iff {text plain : String} (h : plain.toList.any Char.isAlpha = false) :
    fold text = plain ↔ text = plain := by
  have hmap : ∀ chars : List Char, chars.any Char.isAlpha = false →
      chars.map Char.toLower = chars := by
    intro chars hchars
    rw [List.any_eq_false] at hchars
    refine (List.map_congr_left fun c hc => ?_).trans (List.map_id _)
    exact Text.toLower_of_not_isAlpha (Bool.eq_false_iff.mpr (hchars c hc))
  constructor
  · rintro rfl
    have hletters : text.toList.any Char.isAlpha = false := by
      rw [← h, toList_fold, List.any_map]
      exact congrArg text.toList.any (funext fun c => (Text.isAlpha_toLower c).symm)
    rw [fold, hmap _ hletters, String.ofList_toList]
  · rintro rfl
    rw [fold, hmap _ h, String.ofList_toList]

end Pddl
