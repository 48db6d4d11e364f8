import Mathlib.Data.List.Nodup
import Mathlib.Logic.Relation
import Mathlib.Tactic.Tauto
import Pddl.Requirement

/-!
# Expanded flags

Flags are opened one after the other, and those that an opened flag implies are to be opened next.
This ends in whatever order it is done, and always with the same flags, which are the least ones
that have the first flags and with each flag the ones that it implies (`OpenRound.isExpansion`,
`IsExpansion.perm`).  So the expansion of a list of flags has the folded flags and what its flags
imply (`fold_mem_expand`, `implied_subset_expand`), every such list has all of the expansion
(`expand_subset`), and what more flags expand to has what fewer flags expand to (`expand_mono`).
-/

namespace Pddl.Requirement

/-! ### Rounds -/

/-- A round of opening flags, on the flags opened and those of the frontier: it takes any flag of
the frontier, and opens it unless it is opened already. -/
inductive OpenRound : List String × List String → List String × List String → Prop
  | again {opened frontier rest : List String} {flag : String} :
      frontier.Perm (flag :: rest) → flag ∈ opened → OpenRound (opened, frontier) (opened, rest)
  | fresh {opened frontier rest next : List String} {flag : String} :
      frontier.Perm (flag :: rest) → flag ∉ opened → next.Perm (implied flag ++ rest) →
      OpenRound (opened, frontier) (opened ++ [flag], next)

/-- How many rounds may follow. -/
def roundsLeft (s : List String × List String) : Nat :=
  s.2.length + pendingIn s.1 compounds

variable {s s' : List String × List String} {start opened flags flags' closed : List String}

/-- Each round leaves fewer rounds. -/
lemma OpenRound.roundsLeft_lt (h : OpenRound s s') : roundsLeft s' < roundsLeft s := by
  cases h with
  | again hperm hmem =>
    have hlength := hperm.length_eq
    rw [List.length_cons] at hlength
    simp only [roundsLeft]
    omega
  | @fresh opened frontier rest next flag hperm hfresh hnext =>
    have hlength := hperm.length_eq
    have hnextLength := hnext.length_eq
    have hpending := length_lookup_add_pendingIn_le opened flag hfresh compounds
    rw [List.length_cons] at hlength
    rw [List.length_append, implied] at hnextLength
    simp only [roundsLeft]
    omega

/-- Opening flags ends in any order. -/
lemma OpenRound.wellFounded : WellFounded fun s' s => OpenRound s s' :=
  Subrelation.wf (fun h => h.roundsLeft_lt) (measure roundsLeft).wf

/-- There is another round for as long as there are flags in the frontier. -/
lemma OpenRound.exists_iff : (∃ s', OpenRound s s') ↔ s.2 ≠ [] := by
  constructor
  · rintro ⟨s', h⟩ hnil
    cases h with
    | again hperm _ | fresh hperm _ _ =>
      obtain rfl : _ = [] := hnil
      exact List.cons_ne_nil _ _ (List.nil_perm.mp hperm)
  · intro h
    obtain ⟨opened, frontier⟩ := s
    obtain ⟨flag, rest, rfl⟩ := List.exists_cons_of_ne_nil h
    by_cases hmem : flag ∈ opened
    · exact ⟨_, .again (.refl _) hmem⟩
    · exact ⟨_, .fresh (.refl _) hmem (.refl _)⟩

/-- Expansion is one of the runs. -/
lemma OpenRound.expandFrom_run (opened frontier : List String) :
    Relation.ReflTransGen OpenRound (opened, frontier) (expandFrom opened frontier, []) := by
  fun_induction expandFrom opened frontier with
  | case1 opened => exact .refl
  | case2 opened flag frontier hmem ih => exact .head (.again (.refl _) hmem) ih
  | case3 opened flag frontier hfresh ih => exact .head (.fresh (.refl _) hfresh (.refl _)) ih

/-- The least list, without repetitions, that has the first flags and with each flag the ones that
it implies. -/
structure IsExpansion (start expanded : List String) : Prop where
  nodup : expanded.Nodup
  first : start ⊆ expanded
  implied : ∀ flag ∈ expanded, implied flag ⊆ expanded
  least : ∀ closed : List String, (∀ flag ∈ closed, Requirement.implied flag ⊆ closed) →
    start ⊆ closed → expanded ⊆ closed

/-- What holds throughout a run: no flag is opened twice, the first flags and what the opened ones
imply are opened or in the frontier, and nothing else is that is not needed in the end. -/
structure Opens (start : List String) (s : List String × List String) : Prop where
  nodup : s.1.Nodup
  first : start ⊆ s.1 ++ s.2
  implied : ∀ flag ∈ s.1, implied flag ⊆ s.1 ++ s.2
  least : ∀ closed : List String, (∀ flag ∈ closed, Requirement.implied flag ⊆ closed) →
    start ⊆ closed → s.1 ++ s.2 ⊆ closed

/-- At first nothing is opened. -/
lemma opens_first (start : List String) : Opens start ([], start) where
  nodup := List.nodup_nil
  first := List.Subset.refl _
  implied := fun _ h => absurd h List.not_mem_nil
  least := fun _ _ h => h

/-- A round keeps what holds throughout a run. -/
lemma Opens.round (h : Opens start s) (hround : OpenRound s s') : Opens start s' := by
  cases hround with
  | @again opened frontier rest flag hperm hopened =>
    -- The flag that leaves the frontier is among the opened ones.
    have hmem (other : String) : other ∈ opened ++ rest ↔ other ∈ opened ++ frontier := by
      simp only [List.mem_append, hperm.mem_iff, List.mem_cons]
      constructor
      · exact Or.imp_right Or.inr
      · rintro (hother | rfl | hother)
        · exact Or.inl hother
        · exact Or.inl hopened
        · exact Or.inr hother
    exact
      { nodup := h.nodup
        first := fun other hother => (hmem other).mpr (h.first hother)
        implied := fun other hother more hmore => (hmem more).mpr (h.implied other hother hmore)
        least := fun closed hclosed hstart other hother =>
          h.least closed hclosed hstart ((hmem other).mp hother) }
  | @fresh opened frontier rest next flag hperm hfresh hnext =>
    have hmem (other : String) : other ∈ (opened ++ [flag]) ++ next ↔
        other ∈ opened ++ frontier ∨ other ∈ Requirement.implied flag := by
      simp only [List.mem_append, hperm.mem_iff, hnext.mem_iff, List.mem_cons, List.not_mem_nil,
        or_false]
      tauto
    have hflag : flag ∈ opened ++ frontier :=
      List.mem_append_right _ (hperm.mem_iff.mpr List.mem_cons_self)
    refine
      { nodup := List.concat_eq_append ▸ h.nodup.concat hfresh
        first := fun other hother => (hmem other).mpr (Or.inl (h.first hother))
        implied := fun other hother more hmore => (hmem more).mpr ?_
        least := fun closed hclosed hstart other hother => ?_ }
    · rcases List.mem_append.mp hother with hother | hother
      · exact Or.inl (h.implied other hother hmore)
      · exact Or.inr (List.mem_singleton.mp hother ▸ hmore)
    · have hbefore := h.least closed hclosed hstart
      rcases (hmem other).mp hother with hother | hother
      · exact hbefore hother
      · exact hclosed flag (hbefore hflag) hother

/-- All rounds of a run keep what holds throughout it. -/
lemma Opens.run (h : Opens start s) (hrun : Relation.ReflTransGen OpenRound s s') :
    Opens start s' := by
  induction hrun with
  | refl => exact h
  | tail _ hround ih => exact ih.round hround

/-- A run that is over has opened the expansion. -/
lemma OpenRound.isExpansion (h : Relation.ReflTransGen OpenRound ([], start) (opened, [])) :
    IsExpansion start opened := by
  obtain ⟨hnodup, hfirst, himplied, hleast⟩ := (opens_first start).run h
  simp only [List.append_nil] at hfirst himplied hleast
  exact ⟨hnodup, hfirst, himplied, hleast⟩

/-- The expansion is unique but for the order. -/
lemma IsExpansion.perm (h : IsExpansion start opened) (h' : IsExpansion start flags) :
    opened.Perm flags :=
  (List.perm_ext_iff_of_nodup h.nodup h'.nodup).mpr fun _ =>
    ⟨fun hmem => h.least flags h'.implied h'.first hmem,
      fun hmem => h'.least opened h.implied h.first hmem⟩

/-! ### Expansion -/

/-- The expansion is one of the folded flags. -/
lemma isExpansion_expand (flags : List String) : IsExpansion (flags.map fold) (expand flags) :=
  OpenRound.isExpansion (OpenRound.expandFrom_run _ _)

/-- The expansion has each flag, folded. -/
lemma fold_mem_expand {flag : String} (h : flag ∈ flags) : fold flag ∈ expand flags :=
  (isExpansion_expand flags).first (List.mem_map_of_mem h)

/-- The expansion has what its flags imply. -/
lemma implied_subset_expand {flag : String} (h : flag ∈ expand flags) :
    implied flag ⊆ expand flags :=
  (isExpansion_expand flags).implied flag h

/-- The expansion has nothing that a list with the same flags and all that they imply has not. -/
lemma expand_subset (hclosed : ∀ flag ∈ closed, implied flag ⊆ closed)
    (hflags : ∀ flag ∈ flags, fold flag ∈ closed) : expand flags ⊆ closed :=
  (isExpansion_expand flags).least closed hclosed (List.forall_mem_map.mpr hflags)

/-- More flags expand to more flags. -/
lemma expand_mono (h : flags ⊆ flags') : expand flags ⊆ expand flags' :=
  expand_subset (fun _ => implied_subset_expand) fun _ hflag => fold_mem_expand (h hflag)

/-- What is expanded from flags of two lists is expanded from one of them. -/
lemma expand_subset_append (h : flags ⊆ opened ++ closed) :
    expand flags ⊆ expand opened ++ expand closed := by
  refine expand_subset (fun flag hflag => ?_) fun flag hflag => ?_
  · rcases List.mem_append.mp hflag with hflag | hflag
    · exact List.Subset.trans (implied_subset_expand hflag) (List.subset_append_left _ _)
    · exact List.Subset.trans (implied_subset_expand hflag) (List.subset_append_right _ _)
  · exact List.mem_append.mpr ((List.mem_append.mp (h hflag)).imp fold_mem_expand fold_mem_expand)

end Pddl.Requirement
