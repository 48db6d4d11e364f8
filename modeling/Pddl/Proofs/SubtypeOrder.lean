import Pddl.Proofs.ForestDeclarations

/-!
# Subtypes are ordered by the parents

In a valid hierarchy a type is a subtype of another one exactly if parent steps lead from the one to
the other (`IsAncestry.isSubtype_eq_true_iff`).  The order laws come from there: parent steps are
deterministic, they never lead back, and all of them lead to the root.  The two directions in which
a hierarchy is asked, from a type to its parent and from a type to its children, agree
(`IsSpelled.exists_mem_childrenOf_iff`).
-/

namespace Pddl.TypeHierarchy

open Relation
open Folding (lower)

section

variable [Folding] {types : TypeHierarchy} {type other parent key : String} {chain : List String}

/-! ### Children -/

/-- The children of a type are the spellings of the types that have it as their parent. -/
lemma mem_childrenOf {found : String} : found ∈ types.childrenOf parent ↔
    ∃ entry ∈ types.parents, entry.2 = lower parent ∧ types.spelling entry.1 = found := by
  unfold childrenOf Text.sorted
  simp only [List.mem_mergeSort, Text.mem_union, List.not_mem_nil, false_or, List.mem_map,
    List.mem_filter, decide_eq_true_eq, and_assoc]

/-- Up to spelling, the children of a type are the types whose parent it is. -/
lemma IsSpelled.exists_mem_childrenOf_iff (h : types.IsSpelled) :
    (∃ found ∈ types.childrenOf parent, lower found = key) ↔
      types.HasParent key (lower parent) := by
  constructor
  · rintro ⟨found, hfound, rfl⟩
    obtain ⟨⟨child, above⟩, hentry, rfl, rfl⟩ := mem_childrenOf.mp hfound
    have hchild : lower (types.spelling child) = child :=
      h.lower_spelling child (Or.inr ⟨_, hentry, Or.inl rfl⟩)
    rw [hchild]
    exact Table.lookup_of_mem h.nodup hentry
  · intro hparent
    have hentry := Table.mem_of_lookup hparent
    exact ⟨types.spelling key, mem_childrenOf.mpr ⟨_, hentry, rfl, rfl⟩,
      h.lower_spelling key (Or.inr ⟨_, hentry, Or.inl rfl⟩)⟩

/-! ### Subtypes -/

/-- Whether a type is a subtype of another one is found among its supertypes. -/
lemma IsAncestry.isSubtype_eq (h : types.IsAncestry type chain) : types.isSubtype type other =
    .ok (decide (lower type = lower other) || (chain.map lower).contains (lower other)) := by
  unfold isSubtype
  split_ifs with heq
  · rw [decide_eq_true heq, Bool.true_or]
  · rw [h.result, decide_eq_false heq, Bool.false_or]
    rfl

/-- A type is a subtype of those that parent steps lead to. -/
lemma IsAncestry.isSubtype_eq_true_iff (h : types.IsAncestry type chain)
    (hspelled : types.IsSpelled) : types.isSubtype type other = .ok true ↔
      ReflTransGen types.HasParent (lower type) (lower other) := by
  rw [h.isSubtype_eq, reflTransGen_iff_eq_or_transGen, ← h.climbs.mem_iff hspelled,
    Except.ok.injEq, Bool.or_eq_true, decide_eq_true_eq, List.contains_iff_mem]
  exact or_congr_left eq_comm

/-- The supertypes of a type are known. -/
lemma IsTree.knows_of_transGen (h : types.IsTree)
    (habove : TransGen types.HasParent key (lower other)) : types.Knows other :=
  (List.mem_cons.mp (h.mem_of_transGen habove)).imp id Table.lookup_isSome.mpr

/-- Being a subtype is the order that the parents generate, and all that a hierarchy is asked for
agrees with it: whether a known type is a subtype of another one, its supertypes, its parent and its
children. -/
structure IsSubtypeOrder (types : TypeHierarchy) : Prop where
  answered : ∀ type other, types.Knows type → ∃ answer, types.isSubtype type other = .ok answer
  generated : ∀ type other, types.Knows type → (types.isSubtype type other = .ok true ↔
    ReflTransGen types.HasParent (lower type) (lower other))
  refl : ∀ type, types.Knows type → types.isSubtype type type = .ok true
  trans : ∀ type other top, types.Knows type → types.Knows other →
    types.isSubtype type other = .ok true → types.isSubtype other top = .ok true →
      types.isSubtype type top = .ok true
  antisymm : ∀ type other, types.Knows type → types.Knows other →
    types.isSubtype type other = .ok true → types.isSubtype other type = .ok true →
      lower type = lower other
  greatest : ∀ type, types.Knows type → types.isSubtype type rootType = .ok true
  comparable : ∀ type one other, types.Knows type → types.Knows one → types.Knows other →
    types.isSubtype type one = .ok true → types.isSubtype type other = .ok true →
      types.isSubtype one other = .ok true ∨ types.isSubtype other one = .ok true
  supertypes : ∀ type, types.Knows type → ∃ chain, types.ancestors type = .ok chain ∧
    (lower type :: chain.map lower).IsChain types.HasParent ∧ (chain.map lower).Nodup ∧
    (∀ above ∈ chain, types.Knows above) ∧
    ∀ other, lower other ∈ chain.map lower ↔
      types.isSubtype type other = .ok true ∧ lower other ≠ lower type
  parent : ∀ type key, types.HasParent (lower type) key ↔
    ∃ found, types.parentOf type = .ok (some found) ∧ lower found = key
  children : ∀ child parent, (∃ found ∈ types.childrenOf parent, lower found = lower child) ↔
    ∃ found, types.parentOf child = .ok (some found) ∧ lower found = lower parent

/-- A known type of a tree is a subtype of those that parent steps lead to. -/
lemma IsTree.isSubtype_eq_true_iff (h : types.IsTree) (hspelled : types.IsSpelled)
    (hknown : types.Knows type) : types.isSubtype type other = .ok true ↔
      ReflTransGen types.HasParent (lower type) (lower other) := by
  obtain ⟨chain, hchain⟩ := h.exists_ancestry hspelled hknown
  exact hchain.isSubtype_eq_true_iff hspelled

/-- The subtypes of a tree are ordered by its parents. -/
lemma IsTree.isSubtypeOrder (htree : types.IsTree) (hspelled : types.IsSpelled) :
    types.IsSubtypeOrder where
  answered := by
    intro type other hknown
    obtain ⟨chain, hchain⟩ := htree.exists_ancestry hspelled hknown
    exact ⟨_, hchain.isSubtype_eq⟩
  generated := fun _ _ => htree.isSubtype_eq_true_iff hspelled
  refl := fun _ hknown => (htree.isSubtype_eq_true_iff hspelled hknown).mpr .refl
  trans := by
    intro type other top hknown hknown' hbelow habove
    rw [htree.isSubtype_eq_true_iff hspelled hknown] at hbelow ⊢
    rw [htree.isSubtype_eq_true_iff hspelled hknown'] at habove
    exact hbelow.trans habove
  antisymm := by
    intro type other hknown hknown' hbelow habove
    rw [htree.isSubtype_eq_true_iff hspelled hknown] at hbelow
    rw [htree.isSubtype_eq_true_iff hspelled hknown'] at habove
    -- Parent steps there and back would be a cycle.
    rcases reflTransGen_iff_eq_or_transGen.mp hbelow with heq | hthere
    · exact heq.symm
    · exact absurd (hthere.trans_left habove) (htree.acyclic hspelled _)
  greatest := by
    intro type hknown
    rw [htree.isSubtype_eq_true_iff hspelled hknown, Folding.lower_root]
    exact htree.reaches_root hknown
  comparable := by
    intro type one other hknown hone hother hbelow hbelow'
    rw [htree.isSubtype_eq_true_iff hspelled hknown] at hbelow hbelow'
    rw [htree.isSubtype_eq_true_iff hspelled hone, htree.isSubtype_eq_true_iff hspelled hother]
    have hunique : Relator.RightUnique types.HasParent := fun _ _ _ => HasParent.unique
    exact ReflTransGen.total_of_right_unique hunique hbelow hbelow'
  supertypes := by
    intro type hknown
    obtain ⟨chain, hchain⟩ := htree.exists_ancestry hspelled hknown
    obtain ⟨hself, hnodup⟩ := List.nodup_cons.mp hchain.nodup
    refine ⟨chain, hchain.result, hchain.climbs.isChain hspelled, hnodup, ?_, ?_⟩
    · intro above habove
      have hmem : lower above ∈ chain.map lower := List.mem_map_of_mem habove
      exact htree.knows_of_transGen ((hchain.climbs.mem_iff hspelled).mp hmem)
    · intro other
      rw [hchain.isSubtype_eq_true_iff hspelled, reflTransGen_iff_eq_or_transGen,
        ← hchain.climbs.mem_iff hspelled]
      constructor
      · exact fun hmem => ⟨Or.inr hmem, fun heq => hself (heq ▸ hmem)⟩
      · rintro ⟨heq | hmem, hne⟩
        · exact absurd heq hne
        · exact hmem
  parent := fun _ _ => hspelled.hasParent_iff_parentOf
  children := by
    intro child parent
    rw [hspelled.exists_mem_childrenOf_iff, hspelled.hasParent_iff_parentOf]

end

/-- In a valid hierarchy of declarations, however their names are folded, being a subtype is the
order that the parents generate. -/
theorem isSubtypeOrder_of_ofDeclarationsValid [Folding] {declarations : List TypedName}
    {types : TypeHierarchy} (h : ofDeclarationsValid declarations = .ok types) :
    types.IsSubtypeOrder := by
  obtain ⟨htypes, htree⟩ := ofDeclarationsValid_eq_ok h
  exact htree.isSubtypeOrder (isSpelled_of_ofDeclarations htypes)

/-- A type that is first put below the root and then below another type is a subtype of it, in
letters of ASCII and in others. -/
theorem isSubtypeOrder_of_ofDeclarationsValid_refined :
    (∃ types : TypeHierarchy,
      ofDeclarationsValid [⟨"Truck", .named "object"⟩, ⟨"truck", .named "VEHICLE"⟩,
        .untyped "Vehicle"] = .ok types ∧ types.IsSubtypeOrder ∧
        types.isSubtype "TRUCK" "vehicle" = .ok true ∧
        types.isSubtype "vehicle" "truck" = .ok false) ∧
      letI := accented
      ∃ types : TypeHierarchy,
        ofDeclarationsValid [⟨"voiture", .named "véhicule"⟩, .untyped "Véhicule"] = .ok types ∧
          types.IsSubtypeOrder ∧ types.isSubtype "voiture" "VÉHICULE" = .ok true := by
  have htypes : ofDeclarationsValid [⟨"Truck", .named "object"⟩, ⟨"truck", .named "VEHICLE"⟩,
      .untyped "Vehicle"] = .ok (ofTables [("truck", "vehicle"), ("vehicle", "object")]
        [("truck", "Truck"), ("vehicle", "VEHICLE")]) := by
    decide
  have htypes' : @ofDeclarationsValid accented
      [⟨"voiture", .named "véhicule"⟩, .untyped "Véhicule"] =
        .ok (ofTables [("voiture", "véhicule"), ("véhicule", "object")] []) := by
    decide
  refine ⟨⟨_, htypes, isSubtypeOrder_of_ofDeclarationsValid htypes, by decide, by decide⟩, ?_⟩
  exact ⟨_, htypes', @isSubtypeOrder_of_ofDeclarationsValid accented _ _ htypes', by decide⟩

end Pddl.TypeHierarchy
