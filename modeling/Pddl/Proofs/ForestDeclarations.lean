import Pddl.Proofs.Ancestry
import Pddl.Proofs.Lookups

/-!
# Valid hierarchies are those of forests

Declarations of types make up a valid hierarchy exactly if they are a forest below the root
(`ofDeclarationsValid_isForest`): no two of them contradict each other, every parent is the root or
declared, and no type is below itself.  All that is asked for is said about the declarations, not
about the table of parents that they leave, in which some have taken the place of others.
-/

namespace Pddl.TypeHierarchy

open Relation
open Folding (lower)

section

variable [Folding]

/-- One of the declarations puts the type below a parent other than the root. -/
def Places (declarations : List TypedName) (key parent : String) : Prop :=
  Gives declarations key parent ∧ parent ≠ rootType

/-- The declarations are compatible, every parent other than the root is declared, and following
such parents leads from no type back to it. -/
structure IsForest (declarations : List TypedName) : Prop extends AreCompatible declarations where
  parent_declared : ∀ key parent, Places declarations key parent → Declares declarations parent
  acyclic : ∀ key, ¬ TransGen (Places declarations) key key

variable {declarations : List TypedName} {types : TypeHierarchy} {key parent other : String}

/-! ### Parents that are given -/

/-- A parent other than the root that is given is the one in the hierarchy. -/
lemma Places.hasParent (h : Places declarations key parent)
    (htypes : ofDeclarations declarations = .ok types) : types.HasParent key parent := by
  obtain ⟨hgives, hparent⟩ := h
  have hcompatible := exists_ofDeclarations_iff.mp ⟨types, htypes⟩
  have hkey : key ≠ rootType := by
    rintro rfl
    exact hparent (hcompatible.root parent hgives)
  exact (hasParent_iff htypes).mpr
    ⟨hkey, hgives.declares, fun _ => hgives, fun hroot => absurd hroot hparent⟩

/-- A parent other than the root in the hierarchy is given. -/
lemma HasParent.places (h : types.HasParent key parent)
    (htypes : ofDeclarations declarations = .ok types) (hparent : parent ≠ rootType) :
    Places declarations key parent :=
  ⟨((hasParent_iff htypes).mp h).given hparent, hparent⟩

/-- Every parent other than the root is known exactly if it is declared. -/
lemma knowsParents_iff (htypes : ofDeclarations declarations = .ok types) :
    types.KnowsParents ↔
      ∀ key parent, Places declarations key parent → Declares declarations parent := by
  constructor
  · intro hknows key parent hplaces
    have hmem := Table.mem_of_lookup (hplaces.hasParent htypes)
    rcases hknows _ hmem with hroot | hkey
    · exact absurd hroot hplaces.2
    · exact ((lookup_isSome_iff htypes).mp (Table.lookup_isSome.mpr hkey)).2
  · rintro hdeclared ⟨key, parent⟩ hmem
    by_cases hroot : parent = rootType
    · exact Or.inl hroot
    · have hparent : types.HasParent key parent :=
        Table.lookup_of_mem (isSpelled_of_ofDeclarations htypes).nodup hmem
      have hplaces := hparent.places htypes hroot
      exact Or.inr (Table.lookup_isSome.mp
        ((lookup_isSome_iff htypes).mpr ⟨hroot, hdeclared key parent hplaces⟩))

/-- Parent steps to a type with a parent are steps to parents that are given. -/
lemma transGen_places (htypes : ofDeclarations declarations = .ok types)
    (habove : TransGen types.HasParent key parent) :
    ∀ {next}, types.HasParent parent next → TransGen (Places declarations) key parent := by
  have hspelled := isSpelled_of_ofDeclarations htypes
  have hne : ∀ {type next}, types.HasParent type next → type ≠ rootType := by
    rintro type next hnext rfl
    exact hspelled.not_hasParent_root hnext
  induction habove with
  | single hstep =>
    intro next hnext
    exact .single (hstep.places htypes (hne hnext))
  | tail _ hstep ih =>
    intro next hnext
    exact (ih hstep).tail (hstep.places htypes (hne hnext))

/-- A type is above itself exactly if following the parents that are given leads back to it. -/
lemma transGen_hasParent_self_iff (htypes : ofDeclarations declarations = .ok types) :
    TransGen types.HasParent key key ↔ TransGen (Places declarations) key key := by
  constructor
  · intro hcycle
    obtain ⟨next, hnext, -⟩ := TransGen.head'_iff.mp hcycle
    exact transGen_places htypes hcycle hnext
  · have hsteps : Places declarations ≤ types.HasParent :=
      fun _ _ hplaces => hplaces.hasParent htypes
    exact TransGen.mono hsteps key key

end

/-! ### What the checks accept -/

section

variable {types : TypeHierarchy}

/-- If every parent is known, there is no orphan. -/
lemma KnowsParents.orphan?_eq_none (h : types.KnowsParents) : types.orphan? = none := by
  refine List.find?_eq_none.mpr fun entry hentry => ?_
  rcases h entry hentry with hroot | hkey
  · simp [hroot]
  · have hsome := Table.lookup_isSome.mpr hkey
    simp [Option.isNone_iff_eq_none, Option.isSome_iff_ne_none.mp hsome]

/-- The search for a cycle finds nothing else, if all types of the chain lead to the current one. -/
lemma exists_transGen_of_cycleFrom : ∀ (fuel : Nat) {chain found : List String} {current : String},
    (∀ key ∈ chain, ReflTransGen types.HasParent key current) →
      types.cycleFrom fuel chain current = some found →
        ∃ key, TransGen types.HasParent key key := by
  intro fuel
  induction fuel with
  | zero =>
    intro chain found current _ hfound
    cases hfound
  | succ fuel ih =>
    intro chain found current hchain hfound
    unfold cycleFrom at hfound
    split_ifs at hfound with hroot
    cases hlookup : types.parents.lookup current with
    | none =>
      simp only [hlookup] at hfound
      cases hfound
    | some parent =>
      simp only [hlookup] at hfound
      have hstep : types.HasParent current parent := hlookup
      split_ifs at hfound with hmem
      · exact ⟨parent, TransGen.tail' (hchain parent hmem) hstep⟩
      · refine ih (fun key hkey => ?_) hfound
        rcases List.mem_append.mp hkey with hkey | hkey
        · exact (hchain key hkey).tail hstep
        · rw [List.mem_singleton.mp hkey]

/-- If no type is above itself, no cycle is found. -/
lemma cycle?_eq_none (h : ∀ key, ¬ TransGen types.HasParent key key) : types.cycle? = none := by
  refine List.findSome?_eq_none_iff.mpr fun entry _ => ?_
  cases hfound : types.cycleFrom (types.parents.length + 1) [entry.1] entry.1 with
  | none => rfl
  | some chain =>
    have hstart : ∀ key ∈ [entry.1], ReflTransGen types.HasParent key entry.1 := by
      intro key hkey
      rw [List.mem_singleton.mp hkey]
    obtain ⟨key, hcycle⟩ := exists_transGen_of_cycleFrom _ hstart hfound
    exact absurd hcycle (h key)

/-- Every hierarchy that is made of tables spells what occurs in it. -/
lemma spellsAll_ofTables (parents spellings : Table String) :
    (ofTables parents spellings).SpellsAll :=
  fun _ hkey => ⟨_, lookup_spellings_ofTables hkey⟩

end

section

variable [Folding] {declarations : List TypedName} {types : TypeHierarchy}

/-- The checks accept the hierarchies that know every parent and have no cycle. -/
lemma IsSpelled.validate_eq_ok_iff (h : types.IsSpelled) : types.validate = .ok () ↔
    types.KnowsParents ∧ ∀ key, ¬ TransGen types.HasParent key key := by
  constructor
  · intro hvalid
    have htree := isTree_of_validate hvalid
    exact ⟨fun entry hentry => (htree.parent_known entry hentry).imp id Table.lookup_isSome.mp,
      htree.acyclic h⟩
  · rintro ⟨hparents, hacyclic⟩
    unfold validate
    rw [hparents.orphan?_eq_none, cycle?_eq_none hacyclic]

/-- Declarations make up a valid hierarchy exactly if they are a forest. -/
lemma exists_ofDeclarationsValid_iff :
    (∃ types, ofDeclarationsValid declarations = .ok types) ↔ IsForest declarations := by
  have hvalid : ∀ types, ofDeclarations declarations = .ok types →
      (types.validate = .ok () ↔
        (∀ key parent, Places declarations key parent → Declares declarations parent) ∧
          ∀ key, ¬ TransGen (Places declarations) key key) := by
    intro types htypes
    rw [(isSpelled_of_ofDeclarations htypes).validate_eq_ok_iff, knowsParents_iff htypes]
    simp only [transGen_hasParent_self_iff htypes]
  constructor
  · rintro ⟨types, h⟩
    obtain ⟨found, htypes, hrest⟩ := Check.bind_eq_ok.mp h
    obtain ⟨_, hvalidate, -⟩ := Check.bind_eq_ok.mp hrest
    obtain ⟨hdeclared, hacyclic⟩ := (hvalid found htypes).mp hvalidate
    exact ⟨exists_ofDeclarations_iff.mp ⟨found, htypes⟩, hdeclared, hacyclic⟩
  · intro h
    obtain ⟨types, htypes⟩ := exists_ofDeclarations_iff.mpr h.toAreCompatible
    have hvalidate := (hvalid types htypes).mpr ⟨h.parent_declared, h.acyclic⟩
    exact ⟨types, Check.bind_eq_ok.mpr
      ⟨types, htypes, Check.bind_eq_ok.mpr ⟨(), hvalidate, rfl⟩⟩⟩

end

/-- However names are folded, declarations make up a valid hierarchy exactly if they are a forest,
and have a defect otherwise: no look-up fails and no walk goes on for ever.  The same holds for the
checks of any parents whatever.  In a valid hierarchy, the supertypes of every declared type are
found: they end at the root, are different from the type and from each other, and no more than there
are types. -/
theorem ofDeclarationsValid_isForest [Folding] (declarations : List TypedName) :
    ((∃ types, ofDeclarationsValid declarations = .ok types) ↔ IsForest declarations) ∧
      ofDeclarationsValidChecked declarations =
        (ofDeclarationsValid declarations).mapError .defect ∧
      (∀ parents spellings, (ofTables parents spellings).validateChecked =
        (ofTables parents spellings).validate.mapError .defect) ∧
      ∀ types, ofDeclarationsValid declarations = .ok types →
        ∀ type, lower type ≠ rootType → Declares declarations (lower type) →
          ∃ chain, types.IsAncestry type chain := by
  refine ⟨exists_ofDeclarationsValid_iff, ofDeclarationsValidChecked_eq declarations, ?_, ?_⟩
  · exact fun parents spellings => (spellsAll_ofTables parents spellings).validateChecked_eq
  · intro types h type hroot hdeclares
    obtain ⟨htypes, htree⟩ := ofDeclarationsValid_eq_ok h
    have hknown : types.Knows type := Or.inr ((lookup_isSome_iff htypes).mpr ⟨hroot, hdeclares⟩)
    exact htree.exists_ancestry (isSpelled_of_ofDeclarations htypes) hknown

/-- A folding of names that are not ASCII: the letter É is made small as well. -/
@[reducible] def accented : Folding where
  lower name := String.ofList (name.toList.map fun c => if c = 'É' then 'é' else c.toLower)
  lower_root := by decide

/-- A type that is put below the root, then below another type, which is declared last; a cycle that
is entered from outside; and a type with two parents, which is written in capitals and in small
letters. -/
theorem ofDeclarationsValid_isForest_refined :
    (IsForest [⟨"Truck", .named "object"⟩, ⟨"truck", .named "VEHICLE"⟩, .untyped "Vehicle"] ∧
      ∃ (types : TypeHierarchy) (chain : List String),
        types.IsAncestry "TRUCK" chain ∧ chain = ["VEHICLE", "object"]) ∧
      ¬ IsForest [⟨"a", .named "b"⟩, ⟨"b", .named "c"⟩, ⟨"c", .named "B"⟩] ∧
      ¬ @IsForest accented [⟨"É", .named "a"⟩, ⟨"é", .named "b"⟩, .untyped "a", .untyped "b"] := by
  refine ⟨⟨(ofDeclarationsValid_isForest _).1.mp ⟨_, rfl⟩, ?_⟩, fun h => ?_, fun h => ?_⟩
  · obtain ⟨-, -, -, hancestry⟩ := ofDeclarationsValid_isForest
      [⟨"Truck", .named "object"⟩, ⟨"truck", .named "VEHICLE"⟩, .untyped "Vehicle"]
    obtain ⟨chain, hchain⟩ := hancestry _ rfl "TRUCK" (by decide)
      ⟨⟨"Truck", .named "object"⟩, List.mem_cons_self, by decide⟩
    exact ⟨_, chain, hchain, (Except.ok.inj hchain.result).symm⟩
  · obtain ⟨types, htypes⟩ := (ofDeclarationsValid_isForest _).1.mpr h
    cases htypes
  · obtain ⟨types, htypes⟩ := (@ofDeclarationsValid_isForest accented _).1.mpr h
    cases htypes

end Pddl.TypeHierarchy
