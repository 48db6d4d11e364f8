import Mathlib.Data.List.Nodup
import Pddl.Proofs.ForestDeclarations
import Pddl.Proofs.SubtypeOrder

/-!
# The order of declarations does not matter

Declarations of types may be put into another order, made again, or made again without a parent:
what they say is the same (`Restates.sayAlike`), and so they make up hierarchies with the same
parents, or none (`ofDeclarationsIf_restates`).  Hierarchies with the same parents answer all
questions alike, up to the case of the names (`IsSpelled.answersAlike`).  They are the same if the
declarations write no name in two ways.
-/

namespace Pddl

namespace Table

variable {α : Type} {table other : Table α}

/-- A list of entries with different keys is a table. -/
lemma ofList_of_nodup {entries : List (String × α)} (h : (entries.map Prod.fst).Nodup) :
    ofList entries = entries := by
  induction entries using List.reverseRecOn with
  | nil => rfl
  | append_singleton entries last ih =>
    rw [List.map_append, List.map_singleton, List.nodup_append] at h
    obtain ⟨hentries, -, hnew⟩ := h
    have hlast : last.1 ∉ keys entries := fun hmem =>
      hnew last.1 hmem last.1 (List.mem_singleton_self _) rfl
    rw [ofList_concat, ih hentries, put_of_notMem hlast]

/-- Tables of different keys in which the same is looked up have the same entries. -/
lemma perm_of_lookup_eq (h : table.keys.Nodup) (h' : other.keys.Nodup)
    (hlookup : ∀ key, table.lookup key = other.lookup key) : table.Perm other := by
  refine (List.perm_ext_iff_of_nodup (List.Nodup.of_map _ h) (List.Nodup.of_map _ h')).mpr ?_
  rintro ⟨key, value⟩
  constructor
  · intro hmem
    exact mem_of_lookup ((hlookup key).symm.trans (lookup_of_mem h hmem))
  · intro hmem
    exact mem_of_lookup ((hlookup key).trans (lookup_of_mem h' hmem))

end Table

namespace TypeHierarchy

open Folding (lower)

/-- Parents that are looked up alike mention the same. -/
lemma mentions_congr {types others : TypeHierarchy} (h : types.parents.Perm others.parents)
    {key : String} : Mentions types.parents key ↔ Mentions others.parents key :=
  or_congr_right (exists_congr fun _ => and_congr_left' h.mem_iff)

section

variable [Folding]

/-! ### Declarations that say the same -/

/-- The declarations of one list are those of the other, up to their order, repetitions, and
repetitions without a parent. -/
inductive Restates : List TypedName → List TypedName → Prop
  | perm {declarations others : List TypedName} : declarations.Perm others →
      Restates declarations others
  | repeated {before after : List TypedName} {declaration : TypedName} :
      declaration ∈ before ++ after → Restates (before ++ after) (before ++ declaration :: after)
  | untyped {before after : List TypedName} {name parent : String} :
      Declares (before ++ after) (lower name) → lower parent = rootType →
        Restates (before ++ after) (before ++ ⟨name, .named parent⟩ :: after)
  | symm {declarations others : List TypedName} : Restates declarations others →
      Restates others declarations
  | trans {declarations others more : List TypedName} : Restates declarations others →
      Restates others more → Restates declarations more

/-- The declarations of two lists have one parent each, or not, declare the same types, and give
them the same parents, but for the root. -/
structure SayAlike (declarations others : List TypedName) : Prop where
  named : (∀ declaration ∈ declarations, ∃ parent, declaration.type = .named parent) ↔
    ∀ declaration ∈ others, ∃ parent, declaration.type = .named parent
  declares : ∀ key, Declares declarations key ↔ Declares others key
  places : ∀ key parent, Places declarations key parent ↔ Places others key parent

namespace SayAlike

variable {declarations others more : List TypedName} {key parent : String}

/-- Lists of the same declarations say the same. -/
lemma of_mem_iff (h : ∀ declaration, declaration ∈ declarations ↔ declaration ∈ others) :
    SayAlike declarations others where
  named := forall_congr' fun _ => imp_congr_left (h _)
  declares := fun _ => exists_congr fun _ => and_congr_left' (h _)
  places := fun _ _ => and_congr_left' (exists_congr fun _ => and_congr_left' (h _))

/-- Saying the same goes both ways. -/
lemma symm (h : SayAlike declarations others) : SayAlike others declarations where
  named := h.named.symm
  declares := fun key => (h.declares key).symm
  places := fun key parent => (h.places key parent).symm

/-- Saying the same is transitive. -/
lemma trans (h : SayAlike declarations others) (h' : SayAlike others more) :
    SayAlike declarations more where
  named := h.named.trans h'.named
  declares := fun key => (h.declares key).trans (h'.declares key)
  places := fun key parent => (h.places key parent).trans (h'.places key parent)

/-- A declared type that is declared without a parent is no news. -/
lemma concat_untyped {name : String} (hdeclared : Declares declarations (lower name))
    (hroot : lower parent = rootType) :
    SayAlike declarations (declarations ++ [⟨name, .named parent⟩]) where
  named := by
    simp only [List.mem_append, List.mem_singleton, or_imp, forall_and]
    refine (and_iff_left ?_).symm
    rintro declaration rfl
    exact ⟨parent, rfl⟩
  declares := by
    intro key
    rw [declares_concat]
    refine ⟨Or.inl, ?_⟩
    rintro (h | rfl)
    · exact h
    · exact hdeclared
  places := by
    intro key other
    unfold Places
    rw [gives_concat]
    refine and_congr_left fun hne => ⟨Or.inl, ?_⟩
    rintro (h | ⟨-, rfl⟩)
    · exact h
    · exact absurd hroot hne

/-- Declarations that say the same are compatible alike. -/
lemma areCompatible (h : SayAlike declarations others) (hcompatible : AreCompatible declarations) :
    AreCompatible others where
  named := h.named.mp hcompatible.named
  root := by
    intro parent hgives
    by_contra hne
    have hplaces := (h.places rootType parent).mpr ⟨hgives, hne⟩
    exact hne (hcompatible.root parent hplaces.1)
  unique := by
    intro key parent other hparent hother hne hne'
    exact hcompatible.unique key parent other ((h.places key parent).mpr ⟨hparent, hne⟩).1
      ((h.places key other).mpr ⟨hother, hne'⟩).1 hne hne'

/-- Declarations that say the same are forests alike. -/
lemma isForest (h : SayAlike declarations others) (hforest : IsForest declarations) :
    IsForest others where
  toAreCompatible := h.areCompatible hforest.toAreCompatible
  parent_declared := by
    intro key parent hplaces
    exact (h.declares parent).mp
      (hforest.parent_declared key parent ((h.places key parent).mpr hplaces))
  acyclic := by
    have heq : Places declarations = Places others := by
      funext key parent
      exact propext (h.places key parent)
    rw [← heq]
    exact hforest.acyclic

/-- Declarations that say the same settle the same parents. -/
lemma settles_iff (h : SayAlike declarations others) :
    Settles declarations key parent ↔ Settles others key parent := by
  have hgives : ∀ other, other ≠ rootType →
      (Gives declarations key other ↔ Gives others key other) := by
    intro other hne
    have hplaces := h.places key other
    rwa [Places, Places, and_iff_left hne, and_iff_left hne] at hplaces
  constructor
  · exact fun hsettles => hsettles.congr (h.declares key) hgives
  · exact fun hsettles =>
      hsettles.congr (h.declares key).symm fun other hne => (hgives other hne).symm

end SayAlike

/-- Declarations in another order, made again or made again without a parent say the same. -/
lemma Restates.sayAlike {declarations others : List TypedName}
    (h : Restates declarations others) : SayAlike declarations others := by
  induction h with
  | perm hperm => exact .of_mem_iff fun _ => hperm.mem_iff
  | repeated hmem =>
    refine .of_mem_iff fun declaration => ?_
    rw [List.perm_middle.mem_iff, List.mem_cons]
    refine ⟨Or.inr, ?_⟩
    rintro (rfl | h)
    · exact hmem
    · exact h
  | @untyped before after name parent hdeclared hroot =>
    -- The order does not matter, so that the declaration might as well be the last one.
    have hperm : ((before ++ after) ++ [TypedName.mk name (.named parent)]).Perm
        (before ++ TypedName.mk name (.named parent) :: after) :=
      (List.perm_append_singleton _ _).trans List.perm_middle.symm
    exact (SayAlike.concat_untyped hdeclared hroot).trans (.of_mem_iff fun _ => hperm.mem_iff)
  | symm _ ih => exact ih.symm
  | trans _ _ ih ih' => exact ih.trans ih'

/-! ### Hierarchies that answer alike -/

/-- An answer about types up to the case of the names in it. -/
def foldAnswer {α β : Type} (foldNames : α → β) (answer : Except UnknownType α) :
    Except String β :=
  (answer.map foldNames).mapError fun error => lower error.type

/-- Two hierarchies have the same parents, and give the same answers up to the case of names. -/
structure AnswersAlike (types others : TypeHierarchy) : Prop where
  parents : ∀ key, types.parents.lookup key = others.parents.lookup key
  size : types.size = others.size
  contains : ∀ type, types.contains type = others.contains type
  parentOf : ∀ type, foldAnswer (Option.map lower) (types.parentOf type) =
    foldAnswer (Option.map lower) (others.parentOf type)
  childrenOf : ∀ type key, (∃ found ∈ types.childrenOf type, lower found = key) ↔
    ∃ found ∈ others.childrenOf type, lower found = key
  ancestors : ∀ type, foldAnswer (List.map lower) (types.ancestors type) =
    foldAnswer (List.map lower) (others.ancestors type)
  isSubtype : ∀ type other, foldAnswer id (types.isSubtype type other) =
    foldAnswer id (others.isSubtype type other)

section

variable {types others : TypeHierarchy} {type other : String}

/-- The parent of a type, up to case, is the one in the table. -/
lemma IsSpelled.foldAnswer_parentOf (h : types.IsSpelled) :
    foldAnswer (Option.map lower) (types.parentOf type) =
      if lower type = rootType then .ok none
      else match types.parents.lookup (lower type) with
        | some parent => .ok (some parent)
        | none => .error (lower type) := by
  unfold TypeHierarchy.parentOf
  split_ifs with hroot
  · rfl
  · cases hlookup : types.parents.lookup (lower type) with
    | none => rfl
    | some parent =>
      change Except.ok (some (lower (types.spelling parent))) = _
      rw [h.lower_parent hlookup]

/-- The supertypes of types with the same key are the same up to case. -/
lemma IsSpelled.foldAnswer_ancestorsFuel (h : types.IsSpelled) (h' : others.IsSpelled)
    (hlookup : ∀ key, types.parents.lookup key = others.parents.lookup key) :
    ∀ (fuel : Nat) {type other : String}, lower type = lower other →
      foldAnswer (List.map lower) (types.ancestorsFuel fuel type) =
        foldAnswer (List.map lower) (others.ancestorsFuel fuel other) := by
  intro fuel
  induction fuel with
  | zero => exact fun _ => rfl
  | succ fuel ih =>
    intro type other heq
    unfold ancestorsFuel TypeHierarchy.parentOf
    rw [← heq, ← hlookup]
    split_ifs with hroot
    · rfl
    · cases hparent : types.parents.lookup (lower type) with
      | none =>
        change Except.error (lower type) = Except.error (lower other)
        rw [heq]
      | some parent =>
        have hkey : lower (types.spelling parent) = parent := h.lower_parent hparent
        have hkey' : lower (others.spelling parent) = parent :=
          h'.lower_parent ((hlookup _).symm.trans hparent)
        have hrest := ih (hkey.trans hkey'.symm)
        -- Both walks go on from spellings of the same parent.
        have hcons : ∀ (hierarchy : TypeHierarchy) (spelling : String),
            foldAnswer (List.map lower)
                (hierarchy.ancestorsFuel fuel spelling >>= fun rest => pure (spelling :: rest)) =
              (foldAnswer (List.map lower) (hierarchy.ancestorsFuel fuel spelling)).map
                (lower spelling :: ·) := by
          intro hierarchy spelling
          cases hierarchy.ancestorsFuel fuel spelling <;> rfl
        refine (hcons types _).trans (Eq.trans ?_ (hcons others _).symm)
        rw [hrest, hkey, hkey']

/-- Whether a type is a subtype depends on its supertypes up to case. -/
lemma foldAnswer_isSubtype : foldAnswer id (types.isSubtype type other) =
    if lower type = lower other then .ok true
    else (foldAnswer (List.map lower) (types.ancestors type)).map (·.contains (lower other)) := by
  unfold TypeHierarchy.isSubtype
  split_ifs
  · rfl
  · cases types.ancestors type <;> rfl

/-- Hierarchies of declarations with the same parents answer alike. -/
lemma IsSpelled.answersAlike {declarations more : List TypedName} (h : types.IsSpelled)
    (h' : others.IsSpelled) (htypes : ofDeclarations declarations = .ok types)
    (hothers : ofDeclarations more = .ok others)
    (hlookup : ∀ key, types.parents.lookup key = others.parents.lookup key) :
    types.AnswersAlike others := by
  have hperm := Table.perm_of_lookup_eq h.nodup h'.nodup hlookup
  have hancestors : ∀ type, foldAnswer (List.map lower) (types.ancestors type) =
      foldAnswer (List.map lower) (others.ancestors type) := by
    intro type
    unfold TypeHierarchy.ancestors TypeHierarchy.size
    rw [hperm.length_eq]
    exact h.foldAnswer_ancestorsFuel h' hlookup _ rfl
  refine ⟨hlookup, hperm.length_eq, ?_, ?_, ?_, hancestors, ?_⟩
  · intro type
    rw [Bool.eq_iff_iff, contains_ofDeclarations htypes, contains_ofDeclarations hothers]
    exact mentions_congr hperm
  · intro type
    rw [h.foldAnswer_parentOf, h'.foldAnswer_parentOf, hlookup]
  · intro type key
    rw [h.exists_mem_childrenOf_iff, h'.exists_mem_childrenOf_iff, HasParent, HasParent, hlookup]
  · intro type other
    rw [foldAnswer_isSubtype, foldAnswer_isSubtype, hancestors]

end

/-! ### Names that are written in one way -/

/-- The names of types that are written in declarations. -/
def written (declarations : List TypedName) : List String :=
  declarations.flatMap fun declaration => declaration.name :: declaration.type.options

/-- No name but that of the root is written in two ways. -/
def WritesOneWay (declarations : List TypedName) : Prop :=
  ∀ name ∈ written declarations, ∀ other ∈ written declarations,
    lower name = lower other → lower name ≠ rootType → name = other

/-- The names of declarations can be compared one by one. -/
instance (declarations : List TypedName) : Decidable (WritesOneWay declarations) :=
  inferInstanceAs (Decidable (∀ name ∈ written declarations, ∀ other ∈ written declarations,
    lower name = lower other → lower name ≠ rootType → name = other))

/-- All spellings of a draft are among the names, or that of the root. -/
def Draft.SpelledAmong (draft : Draft) (names : List String) : Prop :=
  ∀ key spelling, draft.spellings.lookup key = some spelling →
    spelling = rootType ∨ spelling ∈ names

section

variable {types others : TypeHierarchy} {names : List String} {draft after : Draft}

/-- A spelling among the names may be added. -/
lemma Draft.SpelledAmong.respell (h : draft.SpelledAmong names) {type : String}
    (htype : type ∈ names) : Draft.SpelledAmong
      { draft with spellings := draft.spellings.putNew (lower type) type } names := by
  intro key spelling hlookup
  rw [Table.lookup_putNew] at hlookup
  split_ifs at hlookup with heq
  · cases hexisting : draft.spellings.lookup (lower type) with
    | none =>
      rw [hexisting] at hlookup
      exact Or.inr (Option.some.inj hlookup ▸ htype)
    | some existing =>
      rw [hexisting] at hlookup
      exact h (lower type) spelling (hexisting.trans hlookup)
  · exact h key spelling hlookup

/-- Declaring a type spells it and its parent as they are written. -/
lemma Draft.SpelledAmong.declare (h : draft.SpelledAmong names) {type parent : String}
    (htype : type ∈ names) (hparent : parent ∈ names)
    (hdeclare : draft.declare type parent = .ok after) : after.SpelledAmong names := by
  rcases Draft.declare_eq_ok hdeclare with rfl | ⟨-, rfl | rfl⟩
  · exact h
  · exact h.respell htype
  · exact (h.respell htype).respell hparent

/-- Declarations spell types as they are written. -/
lemma Draft.spelledAmong_written {declarations : List TypedName}
    (hrun : declarations.foldlM Draft.add Draft.start = .ok draft) :
    draft.SpelledAmong (written declarations) := by
  refine foldlM_induction (P := fun declared draft => draft.SpelledAmong (written declared))
    (fun {declared draft next type parent} h hdeclare => ?_) [] ?_ hrun
  · have hwritten : written (declared ++ [⟨type, .named parent⟩]) =
        written declared ++ [type, parent] := List.flatMap_append
    rw [hwritten]
    refine SpelledAmong.declare (fun key spelling hlookup => ?_) ?_ ?_ hdeclare
    · exact (h key spelling hlookup).imp_right (List.mem_append_left _)
    · exact List.mem_append_right _ (by simp)
    · exact List.mem_append_right _ (by simp)
  · intro key spelling hlookup
    exact Or.inl (Prod.mk.inj (List.mem_singleton.mp (Table.mem_of_lookup hlookup))).2

/-- A hierarchy of declarations spells what occurs in it, other than the root, as it is written. -/
lemma spelling_mem_written {declarations : List TypedName}
    (h : ofDeclarations declarations = .ok types) {key : String}
    (hkey : Mentions types.parents key) (hroot : key ≠ rootType) :
    types.spelling key ∈ written declarations := by
  obtain ⟨draft, hdraft, htypes⟩ := Check.bind_eq_ok.mp h
  cases htypes
  have hspelled := Draft.start_wellSpelled.foldlM hdraft
  have hkey : Mentions draft.parents key := hkey
  obtain ⟨spelling, hlookup⟩ := hspelled.spelled key hkey
  rw [spelling_ofTables hkey hlookup]
  refine (Draft.spelledAmong_written hdraft key spelling hlookup).resolve_left ?_
  rintro rfl
  exact hroot ((hspelled.lower_eq key rootType hlookup).symm.trans Folding.lower_root)

/-- Different types are spelled differently. -/
lemma IsSpelled.nodup_spelling (h : types.IsSpelled) :
    (types.parents.map fun entry => types.spelling entry.1).Nodup := by
  have hinj : ∀ key ∈ types.parents.keys, ∀ other ∈ types.parents.keys,
      types.spelling key = types.spelling other → key = other := by
    intro key hkey other hother heq
    obtain ⟨entry, hentry, rfl⟩ := List.mem_map.mp hkey
    obtain ⟨entry', hentry', rfl⟩ := List.mem_map.mp hother
    rw [← h.lower_spelling entry.1 (Or.inr ⟨entry, hentry, Or.inl rfl⟩), heq,
      h.lower_spelling entry'.1 (Or.inr ⟨entry', hentry', Or.inl rfl⟩)]
  have hnodup := h.nodup.map_on hinj
  rwa [Table.keys, List.map_map] at hnodup

/-- The pairs of a hierarchy are its parents as they are spelled. -/
lemma IsSpelled.pairs_eq (h : types.IsSpelled) : types.pairs =
    types.parents.map fun entry => (types.spelling entry.1, types.spelling entry.2) := by
  refine Table.ofList_of_nodup ?_
  rw [List.map_map]
  exact h.nodup_spelling

/-- Hierarchies with the same parents in the same spellings are the same. -/
lemma IsSpelled.same_eq_true (h : types.IsSpelled) (h' : others.IsSpelled)
    (hlookup : ∀ key, types.parents.lookup key = others.parents.lookup key)
    (hspelling : ∀ key, Mentions types.parents key → types.spelling key = others.spelling key) :
    types.same others = true := by
  have hperm := Table.perm_of_lookup_eq h.nodup h'.nodup hlookup
  have hpairs : types.pairs =
      types.parents.map fun entry => (others.spelling entry.1, others.spelling entry.2) := by
    rw [h.pairs_eq]
    refine List.map_congr_left fun entry hentry => ?_
    rw [hspelling entry.1 (Or.inr ⟨entry, hentry, Or.inl rfl⟩),
      hspelling entry.2 (Or.inr ⟨entry, hentry, Or.inr rfl⟩)]
  have hsame : types.pairs.Perm others.pairs := by
    rw [hpairs, h'.pairs_eq]
    exact hperm.map _
  have hnodup : others.pairs.keys.Nodup := by
    rw [h'.pairs_eq, Table.keys, List.map_map]
    exact h'.nodup_spelling
  unfold same
  rw [Bool.and_eq_true, decide_eq_true_eq, List.all_eq_true]
  refine ⟨hsame.length_eq, ?_⟩
  rintro ⟨key, value⟩ hentry
  exact decide_eq_true (Table.lookup_of_mem hnodup (hsame.subset hentry))

end

/-! ### Hierarchies of declarations that say the same -/

/-- The hierarchy of a list of declarations, which must be valid if that is asked for. -/
def ofDeclarationsIf (validate : Bool) (declarations : List TypedName) :
    Except Defect TypeHierarchy :=
  if validate then ofDeclarationsValid declarations else ofDeclarations declarations

section

variable {declarations others : List TypedName} {types found : TypeHierarchy} {validate : Bool}

/-- A hierarchy that may have to be valid is that of its declarations. -/
lemma ofDeclarations_of_ofDeclarationsIf (h : ofDeclarationsIf validate declarations = .ok types) :
    ofDeclarations declarations = .ok types := by
  unfold ofDeclarationsIf at h
  split_ifs at h
  · exact (ofDeclarationsValid_eq_ok h).1
  · exact h

/-- Declarations that say the same as those of a hierarchy make up one. -/
lemma SayAlike.exists_ofDeclarationsIf (h : SayAlike declarations others)
    (htypes : ∃ types, ofDeclarationsIf validate declarations = .ok types) :
    ∃ types, ofDeclarationsIf validate others = .ok types := by
  unfold ofDeclarationsIf at htypes ⊢
  split_ifs at htypes ⊢
  · exact exists_ofDeclarationsValid_iff.mpr
      (h.isForest (exists_ofDeclarationsValid_iff.mp htypes))
  · exact exists_ofDeclarations_iff.mpr (h.areCompatible (exists_ofDeclarations_iff.mp htypes))

/-- Hierarchies of declarations that say the same have the same parents. -/
lemma SayAlike.lookup_eq (h : SayAlike declarations others)
    (htypes : ofDeclarations declarations = .ok types) (hfound : ofDeclarations others = .ok found)
    (key : String) : types.parents.lookup key = found.parents.lookup key := by
  refine Option.ext fun parent => ?_
  have hleft : types.HasParent key parent ↔ Settles declarations key parent :=
    hasParent_iff htypes
  have hright : found.HasParent key parent ↔ Settles others key parent := hasParent_iff hfound
  exact hleft.trans (h.settles_iff.trans hright.symm)

/-- If the declarations write every name in one way, both hierarchies spell their types alike. -/
lemma spelling_eq_of_writesOneWay (htypes : ofDeclarations declarations = .ok types)
    (hfound : ofDeclarations others = .ok found)
    (hperm : types.parents.Perm found.parents)
    (hwritten : WritesOneWay (declarations ++ others)) {key : String}
    (hkey : Mentions types.parents key) : types.spelling key = found.spelling key := by
  have hspelled := isSpelled_of_ofDeclarations htypes
  have hspelled' := isSpelled_of_ofDeclarations hfound
  have hkey' := (mentions_congr hperm).mp hkey
  by_cases hroot : key = rootType
  · rw [hroot, hspelled.spelling_root, hspelled'.spelling_root]
  · have hfold := hspelled.lower_spelling key hkey
    have hfold' := hspelled'.lower_spelling key hkey'
    have hmem := spelling_mem_written htypes hkey hroot
    have hmem' := spelling_mem_written hfound hkey' hroot
    refine hwritten _ ?_ _ ?_ (hfold.trans hfold'.symm) (hfold.symm ▸ hroot)
    · unfold written at hmem ⊢
      rw [List.flatMap_append]
      exact List.mem_append_left _ hmem
    · unfold written at hmem' ⊢
      rw [List.flatMap_append]
      exact List.mem_append_right _ hmem'

end

end

/-- Declarations in another order, made again, or made again without a parent, make up a hierarchy
if and only if the others do, however names are folded.  The hierarchies answer alike, and are the
same if no name is written in two ways. -/
theorem ofDeclarationsIf_restates [Folding] {declarations others : List TypedName}
    (h : Restates declarations others) (validate : Bool) :
    ((∃ types, ofDeclarationsIf validate declarations = .ok types) ↔
        ∃ types, ofDeclarationsIf validate others = .ok types) ∧
      ∀ types found, ofDeclarationsIf validate declarations = .ok types →
        ofDeclarationsIf validate others = .ok found →
          types.AnswersAlike found ∧
            (WritesOneWay (declarations ++ others) → types.same found = true) := by
  have halike := h.sayAlike
  refine ⟨⟨halike.exists_ofDeclarationsIf, halike.symm.exists_ofDeclarationsIf⟩, ?_⟩
  intro types found htypes hfound
  have htypes := ofDeclarations_of_ofDeclarationsIf htypes
  have hfound := ofDeclarations_of_ofDeclarationsIf hfound
  have hspelled := isSpelled_of_ofDeclarations htypes
  have hspelled' := isSpelled_of_ofDeclarations hfound
  have hlookup := halike.lookup_eq htypes hfound
  refine ⟨hspelled.answersAlike hspelled' htypes hfound hlookup, fun hwritten => ?_⟩
  have hperm := Table.perm_of_lookup_eq hspelled.nodup hspelled'.nodup hlookup
  exact hspelled.same_eq_true hspelled' hlookup fun key hkey =>
    spelling_eq_of_writesOneWay htypes hfound hperm hwritten hkey

/-- A type and its parent are declared in either order, and the type once more without a parent
before them all. -/
theorem ofDeclarationsIf_restates_untyped : ∃ types found : TypeHierarchy,
    ofDeclarationsIf true [⟨"truck", .named "vehicle"⟩, .untyped "vehicle"] = .ok types ∧
      ofDeclarationsIf true [.untyped "truck", .untyped "vehicle", ⟨"truck", .named "vehicle"⟩] =
        .ok found ∧
      types.AnswersAlike found ∧ types.same found = true := by
  have hswap : Restates [⟨"truck", .named "vehicle"⟩, .untyped "vehicle"]
      [.untyped "vehicle", ⟨"truck", .named "vehicle"⟩] :=
    .perm (.swap _ _ _)
  have hinsert : Restates ([] ++ [.untyped "vehicle", ⟨"truck", .named "vehicle"⟩])
      ([] ++ .untyped "truck" :: [.untyped "vehicle", ⟨"truck", .named "vehicle"⟩]) :=
    .untyped ⟨_, List.mem_cons_of_mem _ List.mem_cons_self, rfl⟩ rfl
  obtain ⟨hiff, hsame⟩ := ofDeclarationsIf_restates (hswap.trans hinsert) true
  obtain ⟨found, hfound⟩ := hiff.mp ⟨_, rfl⟩
  obtain ⟨halike, hwritten⟩ := hsame _ found rfl hfound
  exact ⟨_, found, rfl, hfound, halike, hwritten (by decide)⟩

end TypeHierarchy

end Pddl
