import Mathlib.Data.List.Chain
import Pddl.Proofs.TypeDeclarations

/-!
# The way up from a type

The supertypes of a type are found by asking for its parent, then for the parent's parent, and so on
up to the root.  `Climbs` is this way, without a bound on its length.  In a tree every way up is
over: it does not meet a type twice, is no longer than there are types (`IsTree.exists_ancestry`),
and passes exactly the types that are reached by parent steps (`Climbs.mem_iff`).  The way goes
through spellings, which lead back to the keys that the parents are kept by.
-/

namespace Pddl.TypeHierarchy

open Relation
open Folding (lower)

variable {types : TypeHierarchy} {type key parent other : String} {chain : List String}

/-! ### Parent steps -/

/-- A type has one parent. -/
lemma HasParent.unique (h : types.HasParent key parent) (h' : types.HasParent key other) :
    parent = other :=
  Option.some.inj (h.symm.trans h')

/-- Parents occur in a hierarchy. -/
lemma HasParent.mentions (h : types.HasParent key parent) : Mentions types.parents parent :=
  Or.inr ⟨_, Table.mem_of_lookup h, Or.inr rfl⟩

/-- What is above a known type is the root or declared. -/
lemma IsTree.mem_of_transGen (h : types.IsTree) (habove : TransGen types.HasParent key other) :
    other ∈ rootType :: types.parents.keys := by
  obtain ⟨last, -, hlast⟩ := TransGen.tail'_iff.mp habove
  rcases h.parent_known _ (Table.mem_of_lookup hlast) with hroot | hdeclared
  · exact List.mem_cons.mpr (Or.inl hroot)
  · exact List.mem_cons_of_mem _ (Table.lookup_isSome.mp hdeclared)

variable [Folding]

/-- The spelling of a parent is one of its key. -/
lemma IsSpelled.lower_parent (h : types.IsSpelled) (hparent : types.HasParent key parent) :
    lower (types.spelling parent) = parent :=
  h.lower_spelling parent hparent.mentions

/-- The root has no parent. -/
lemma IsSpelled.not_hasParent_root (h : types.IsSpelled) : ¬ types.HasParent rootType parent :=
  fun hparent => h.root (Table.lookup_isSome.mp (Option.isSome_of_eq_some hparent))

/-- A way that leads to the root does not lead back to its start. -/
lemma IsSpelled.not_transGen_of_reflTransGen (h : types.IsSpelled)
    (hroot : ReflTransGen types.HasParent key rootType) :
    ¬ TransGen types.HasParent key key := by
  induction hroot using ReflTransGen.head_induction_on with
  | refl =>
    intro hcycle
    obtain ⟨parent, hparent, -⟩ := TransGen.head'_iff.mp hcycle
    exact h.not_hasParent_root hparent
  | head hstep _ ih =>
    -- The first step of the cycle is the one to the root, so that the cycle goes through its end.
    intro hcycle
    obtain ⟨parent, hparent, hback⟩ := TransGen.head'_iff.mp hcycle
    rw [hparent.unique hstep] at hback
    exact ih (TransGen.tail' hback hstep)

/-- Nothing in a tree is above itself. -/
lemma IsTree.acyclic (h : types.IsTree) (hspelled : types.IsSpelled) (key : String) :
    ¬ TransGen types.HasParent key key := by
  intro hcycle
  obtain ⟨parent, hparent, -⟩ := TransGen.head'_iff.mp hcycle
  exact hspelled.not_transGen_of_reflTransGen
    (h.leads_to_root key (Option.isSome_of_eq_some hparent)) hcycle

/-- Known types lead to the root. -/
lemma IsTree.reaches_root (h : types.IsTree) (hknown : types.Knows type) :
    ReflTransGen types.HasParent (lower type) rootType := by
  rcases hknown with hroot | hdeclared
  · rw [hroot]
  · exact h.leads_to_root _ hdeclared

/-! ### Asking for parents -/

/-- The root is the type that has no parent. -/
lemma parentOf_eq_none_iff : types.parentOf type = .ok none ↔ lower type = rootType := by
  unfold parentOf
  split_ifs with hroot
  · simp [hroot]
  · cases types.parents.lookup (lower type) <;> simp [hroot]

/-- The parent of any other type is spelled. -/
lemma IsSpelled.parentOf_eq_some_iff (h : types.IsSpelled) :
    types.parentOf type = .ok (some parent) ↔
      ∃ found, types.HasParent (lower type) found ∧ parent = types.spelling found := by
  unfold parentOf
  split_ifs with hroot
  · rw [hroot]
    simp [h.not_hasParent_root]
  · unfold HasParent
    cases types.parents.lookup (lower type) <;> simp [eq_comm]

/-- Asking for the parent of a type yields its parent, up to spelling. -/
lemma IsSpelled.hasParent_iff_parentOf (h : types.IsSpelled) :
    types.HasParent (lower type) key ↔
      ∃ found, types.parentOf type = .ok (some found) ∧ lower found = key := by
  constructor
  · intro hparent
    exact ⟨_, h.parentOf_eq_some_iff.mpr ⟨key, hparent, rfl⟩, h.lower_parent hparent⟩
  · rintro ⟨found, hfound, rfl⟩
    obtain ⟨found', hparent, rfl⟩ := h.parentOf_eq_some_iff.mp hfound
    rwa [h.lower_parent hparent]

/-! ### The way up -/

/-- Going up from the type leads past the types of the chain and ends behind the last one, which has
no parent. -/
inductive Climbs (types : TypeHierarchy) : String → List String → Prop
  | top {type : String} : types.parentOf type = .ok none → Climbs types type []
  | up {type parent : String} {chain : List String} : types.parentOf type = .ok (some parent) →
      Climbs types parent chain → Climbs types type (parent :: chain)

namespace Climbs

/-- The supertypes are those on the way up, if it may be as long as it is. -/
lemma ancestorsFuel_eq (h : types.Climbs type chain) : ∀ {fuel : Nat}, chain.length ≤ fuel →
    types.ancestorsFuel fuel type = .ok chain := by
  induction h with
  | top hnone =>
    rintro (_ | fuel) -
    · rfl
    · rw [ancestorsFuel, hnone]
      rfl
  | @up type parent chain hparent _ ih =>
    rintro (_ | fuel) hlength
    · exact absurd hlength (Nat.not_succ_le_zero _)
    · rw [ancestorsFuel, hparent]
      change (types.ancestorsFuel fuel parent >>= fun rest => pure (parent :: rest)) = _
      rw [ih (Nat.le_of_succ_le_succ hlength)]
      rfl

/-- Each type on the way is the parent of the one before. -/
lemma isChain (hspelled : types.IsSpelled) (h : types.Climbs type chain) :
    (lower type :: chain.map lower).IsChain types.HasParent := by
  induction h with
  | top hnone => exact List.isChain_singleton _
  | up hparent _ ih =>
    exact List.isChain_cons_cons.mpr ⟨hspelled.hasParent_iff_parentOf.mpr ⟨_, hparent, rfl⟩, ih⟩

/-- What the way leads past is what parent steps lead to. -/
lemma mem_iff (hspelled : types.IsSpelled) (h : types.Climbs type chain) :
    key ∈ chain.map lower ↔ TransGen types.HasParent (lower type) key := by
  induction h with
  | top hnone =>
    rw [parentOf_eq_none_iff.mp hnone]
    refine ⟨nofun, fun habove => ?_⟩
    obtain ⟨parent, hparent, -⟩ := TransGen.head'_iff.mp habove
    exact absurd hparent hspelled.not_hasParent_root
  | @up type parent chain hparent _ ih =>
    have hstep : types.HasParent (lower type) (lower parent) :=
      hspelled.hasParent_iff_parentOf.mpr ⟨_, hparent, rfl⟩
    rw [List.map_cons, List.mem_cons, ih]
    constructor
    · rintro (rfl | habove)
      · exact .single hstep
      · exact .head hstep habove
    · intro habove
      obtain ⟨first, hfirst, hrest⟩ := TransGen.head'_iff.mp habove
      rw [hfirst.unique hstep] at hrest
      exact reflTransGen_iff_eq_or_transGen.mp hrest

/-- The way ends at the root, unless it starts there. -/
lemma getLast?_eq (hspelled : types.IsSpelled) (h : types.Climbs type chain)
    (htype : lower type ≠ rootType) : chain.getLast? = some rootType := by
  induction h with
  | top hnone => exact absurd (parentOf_eq_none_iff.mp hnone) htype
  | @up type parent chain hparent hrest ih =>
    cases hrest with
    | top hnone =>
      obtain ⟨found, hfound, rfl⟩ := hspelled.parentOf_eq_some_iff.mp hparent
      have hroot := parentOf_eq_none_iff.mp hnone
      rw [hspelled.lower_parent hfound] at hroot
      rw [hroot, hspelled.spelling_root]
      rfl
    | up hparent' hrest' =>
      rw [List.getLast?_cons_cons]
      refine ih fun hroot => ?_
      rw [parentOf_eq_none_iff.mpr hroot] at hparent'
      cases hparent'

/-- In a tree, no type is met twice. -/
lemma nodup (hspelled : types.IsSpelled) (htree : types.IsTree) (h : types.Climbs type chain) :
    (lower type :: chain.map lower).Nodup := by
  induction h with
  | top hnone => exact List.pairwise_singleton _ _
  | @up type parent chain hparent hrest ih =>
    refine List.nodup_cons.mpr ⟨fun hmem => ?_, ih⟩
    have hway : types.Climbs type (parent :: chain) := .up hparent hrest
    exact htree.acyclic hspelled _ ((hway.mem_iff hspelled).mp hmem)

end Climbs

/-- From every type that leads to the root there is a way up. -/
lemma IsSpelled.exists_climbs (h : types.IsSpelled)
    (hroot : ReflTransGen types.HasParent key rootType) :
    ∀ type, lower type = key → ∃ chain, types.Climbs type chain := by
  induction hroot using ReflTransGen.head_induction_on with
  | refl => exact fun type htype => ⟨[], .top (parentOf_eq_none_iff.mpr htype)⟩
  | head hstep _ ih =>
    rintro type rfl
    obtain ⟨found, hfound, hkey⟩ := h.hasParent_iff_parentOf.mp hstep
    obtain ⟨chain, hchain⟩ := ih found hkey
    exact ⟨found :: chain, .up hfound hchain⟩

/-- The supertypes of a type are the types of the chain: the way up is over behind them, meets the
type itself and each of them once, ends at the root unless it starts there, and is no longer than
there are declared types. -/
structure IsAncestry (types : TypeHierarchy) (type : String) (chain : List String) : Prop where
  climbs : types.Climbs type chain
  result : types.ancestors type = .ok chain
  last : lower type ≠ rootType → chain.getLast? = some rootType
  nodup : (lower type :: chain.map lower).Nodup
  length_le : chain.length ≤ types.size

/-- Every known type of a tree has its supertypes. -/
lemma IsTree.exists_ancestry (htree : types.IsTree) (hspelled : types.IsSpelled)
    (hknown : types.Knows type) : ∃ chain, types.IsAncestry type chain := by
  obtain ⟨chain, hchain⟩ := hspelled.exists_climbs (htree.reaches_root hknown) type rfl
  have hnodup := hchain.nodup hspelled htree
  have hlength : chain.length ≤ types.size := by
    have hsubset : lower type :: chain.map lower ⊆ rootType :: types.parents.keys := by
      refine List.cons_subset.mpr ⟨?_, fun key hkey => ?_⟩
      · exact List.mem_cons.mpr (hknown.imp id Table.lookup_isSome.mp)
      · exact htree.mem_of_transGen ((hchain.mem_iff hspelled).mp hkey)
    have hle := hnodup.length_le_of_subset hsubset
    simpa [Table.keys, size] using hle
  exact ⟨chain, hchain, hchain.ancestorsFuel_eq (hlength.trans (Nat.le_succ _)),
    hchain.getLast?_eq hspelled, hnodup, hlength⟩

end Pddl.TypeHierarchy
