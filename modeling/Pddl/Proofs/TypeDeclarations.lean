import Pddl.Proofs.TypeListing

/-!
# What declarations of types settle

The declarations of a type may put it below a parent several times, and below the root in between.
Which parent the type gets does not depend on their order: it is the one other than the root if one
of them gives such a parent, and the root otherwise (`Settles`).  Declarations make up a hierarchy
exactly if no type is given two parents other than the root, the root is given none, and no parent
is an alternative of several (`exists_ofDeclarations_iff`); the hierarchy then has the parents that
they settle (`hasParent_iff`).
-/

namespace Pddl

namespace Table

variable {α : Type} {key : String} {value : α} {table : Table α}

/-- What is in a table of different keys is looked up. -/
lemma lookup_of_mem (h : table.keys.Nodup) (hmem : (key, value) ∈ table) :
    table.lookup key = some value := by
  induction table with
  | nil => cases hmem
  | cons entry rest ih =>
    obtain ⟨hnew, hrest⟩ := List.nodup_cons.mp h
    rw [lookup_cons]
    rcases List.mem_cons.mp hmem with rfl | hmem
    · rw [if_pos rfl]
    · have hne : key ≠ entry.1 := fun heq => hnew (heq ▸ List.mem_map_of_mem hmem)
      rw [if_neg hne]
      exact ih hrest hmem

end Table

namespace TypeHierarchy

open Folding (lower)

variable [Folding]

/-! ### Declarations -/

/-- A type with the key is declared. -/
def Declares (declarations : List TypedName) (key : String) : Prop :=
  ∃ declaration ∈ declarations, lower declaration.name = key

/-- One of the declarations puts the type below the parent, both given by their keys. -/
def Gives (declarations : List TypedName) (key parent : String) : Prop :=
  ∃ declaration ∈ declarations, lower declaration.name = key ∧
    ∃ name, declaration.type = .named name ∧ lower name = parent

/-- Every declaration has one parent, that of the root is the root, and all that put a type below
parents other than the root agree on the parent. -/
structure AreCompatible (declarations : List TypedName) : Prop where
  named : ∀ declaration ∈ declarations, ∃ parent, declaration.type = .named parent
  root : ∀ parent, Gives declarations rootType parent → parent = rootType
  unique : ∀ key parent other, Gives declarations key parent → Gives declarations key other →
    parent ≠ rootType → other ≠ rootType → parent = other

/-- The declarations settle the parent of a type: it is given by one of them, or it is the root and
none of them gives another parent. -/
structure Settles (declarations : List TypedName) (key parent : String) : Prop where
  key_ne : key ≠ rootType
  declared : Declares declarations key
  given : parent ≠ rootType → Gives declarations key parent
  otherwise : parent = rootType → ∀ other, Gives declarations key other → other = rootType

section

variable {declarations more : List TypedName} {name type key parent other : String}

/-- A type that is given a parent is declared. -/
lemma Gives.declares (h : Gives declarations key parent) : Declares declarations key := by
  obtain ⟨declaration, hmem, hkey, -⟩ := h
  exact ⟨declaration, hmem, hkey⟩

/-- What is given is given by more declarations. -/
lemma Gives.mono (h : Gives declarations key parent) (hmore : declarations ⊆ more) :
    Gives more key parent := by
  obtain ⟨declaration, hmem, hgives⟩ := h
  exact ⟨declaration, hmore hmem, hgives⟩

/-- One more declaration declares its type. -/
lemma declares_concat : Declares (declarations ++ [⟨name, .named type⟩]) key ↔
    Declares declarations key ∨ key = lower name := by
  simp only [Declares, List.mem_append, List.mem_singleton, or_and_right, exists_or]
  refine or_congr_right ⟨?_, ?_⟩
  · rintro ⟨declaration, rfl, rfl⟩
    rfl
  · rintro rfl
    exact ⟨_, rfl, rfl⟩

/-- One more declaration gives its type its parent. -/
lemma gives_concat : Gives (declarations ++ [⟨name, .named type⟩]) key parent ↔
    Gives declarations key parent ∨ key = lower name ∧ parent = lower type := by
  simp only [Gives, List.mem_append, List.mem_singleton, or_and_right, exists_or]
  refine or_congr_right ⟨?_, ?_⟩
  · rintro ⟨declaration, rfl, rfl, other, hother, rfl⟩
    cases hother
    exact ⟨rfl, rfl⟩
  · rintro ⟨rfl, rfl⟩
    exact ⟨_, rfl, rfl, _, rfl, rfl⟩

/-- The parent of a type is settled alike by declarations that say the same about it, but for the
root as its parent. -/
lemma Settles.congr (h : Settles declarations key parent)
    (hdeclares : Declares declarations key ↔ Declares more key)
    (hgives : ∀ other, other ≠ rootType →
      (Gives declarations key other ↔ Gives more key other)) : Settles more key parent where
  key_ne := h.key_ne
  declared := hdeclares.mp h.declared
  given := fun hparent => (hgives parent hparent).mp (h.given hparent)
  otherwise := by
    intro hparent other hother
    by_contra hne
    exact hne (h.otherwise hparent other ((hgives other hne).mpr hother))

/-- One more declaration leaves the parents of other types as they are. -/
lemma settles_concat_of_ne (hne : key ≠ lower name) :
    Settles (declarations ++ [⟨name, .named type⟩]) key parent ↔
      Settles declarations key parent := by
  have hdeclares : Declares (declarations ++ [⟨name, .named type⟩]) key ↔
      Declares declarations key := by
    rw [declares_concat, or_iff_left hne]
  have hgives : ∀ other, Gives (declarations ++ [⟨name, .named type⟩]) key other ↔
      Gives declarations key other := by
    intro other
    rw [gives_concat, or_iff_left fun hand => hne hand.1]
  exact ⟨fun h => h.congr hdeclares fun other _ => hgives other,
    fun h => h.congr hdeclares.symm fun other _ => (hgives other).symm⟩

/-- Some of compatible declarations are compatible. -/
lemma AreCompatible.mono (h : AreCompatible more) (hmore : declarations ⊆ more) :
    AreCompatible declarations where
  named := fun declaration hmem => h.named declaration (hmore hmem)
  root := fun parent hgives => h.root parent (hgives.mono hmore)
  unique := fun key parent other hparent hother =>
    h.unique key parent other (hparent.mono hmore) (hother.mono hmore)

/-- Compatible declarations settle no more than one parent. -/
lemma Settles.unique (hcompatible : AreCompatible declarations)
    (h : Settles declarations key parent) (h' : Settles declarations key other) :
    parent = other := by
  by_cases hparent : parent = rootType <;> by_cases hother : other = rootType
  · rw [hparent, hother]
  · exact absurd (h.otherwise hparent other (h'.given hother)) hother
  · exact absurd (h'.otherwise hother parent (h.given hparent)) hparent
  · exact hcompatible.unique key parent other (h.given hparent) (h'.given hother) hparent hother

/-- Declarations settle a parent of each type that they declare. -/
lemma Declares.exists_settles (h : Declares declarations key) (hkey : key ≠ rootType) :
    ∃ parent, Settles declarations key parent := by
  by_cases hgiven : ∃ parent, parent ≠ rootType ∧ Gives declarations key parent
  · obtain ⟨parent, hparent, hgives⟩ := hgiven
    exact ⟨parent, hkey, h, fun _ => hgives, fun hroot => absurd hroot hparent⟩
  · refine ⟨rootType, hkey, h, fun hne => absurd rfl hne, fun _ other hother => ?_⟩
    by_contra hne
    exact hgiven ⟨other, hne, hother⟩

end

/-! ### Drafts of declarations -/

/-- The draft can take one more declaration of a type below a parent, both given by their keys. -/
def Draft.Accepts (draft : Draft) (key parent : String) : Prop :=
  if key = rootType then parent = rootType
  else ∀ existing, draft.parents.lookup key = some existing →
    existing = rootType ∨ parent = rootType ∨ existing = parent

/-- The parents of a draft after a declaration that it took: a type that is new gets its parent, and
a type that is not gets it unless it is the root. -/
def Draft.parentAfter (draft : Draft) (key parent : String) : Option String :=
  if parent = rootType then some ((draft.parents.lookup key).getD rootType) else some parent

section

variable {draft after : Draft} {declarations rest : List TypedName} {type parent key : String}

/-- A declaration succeeds exactly if the draft accepts it, and changes the parent of its type
only. -/
lemma Draft.declare_eq_ok_iff : (∃ after, draft.declare type parent = .ok after) ↔
    draft.Accepts (lower type) (lower parent) := by
  unfold declare Accepts
  by_cases hroot : lower type = rootType
  · simp only [if_pos hroot]
    split_ifs with hparent <;> simp [hparent]
  simp only [if_neg hroot]
  cases hlookup : draft.parents.lookup (lower type) with
  | none => simp
  | some existing =>
    by_cases hparent : lower parent = rootType
    · simp [hparent]
    · by_cases hsame : existing = lower parent ∨ existing = rootType
      · simp [hparent, hsame, hsame.symm]
      · simp [hparent, not_or.mp hsame]

/-- The parents after a declaration that succeeds. -/
lemma Draft.lookup_declare (h : draft.declare type parent = .ok after) :
    after.parents.lookup key =
      if key = lower type ∧ key ≠ rootType then draft.parentAfter key (lower parent)
      else draft.parents.lookup key := by
  unfold declare at h
  unfold parentAfter
  by_cases hroot : lower type = rootType
  · simp only [if_pos hroot] at h
    split_ifs at h
    cases h
    rw [if_neg]
    rintro ⟨rfl, hne⟩
    exact hne hroot
  simp only [if_neg hroot] at h
  by_cases hkey : key = lower type
  swap
  · rw [if_neg fun hand => hkey hand.1]
    cases hlookup : draft.parents.lookup (lower type) with
    | none =>
      simp only [hlookup, Except.ok.injEq] at h
      rw [← h]
      simp only [Table.lookup_put, if_neg hkey]
    | some existing =>
      simp only [hlookup] at h
      split_ifs at h <;> cases h
      · rfl
      · simp only [Table.lookup_put, if_neg hkey]
  subst hkey
  rw [if_pos ⟨rfl, hroot⟩]
  cases hlookup : draft.parents.lookup (lower type) with
  | none =>
    simp only [hlookup, Except.ok.injEq] at h
    rw [← h]
    simp only [Table.lookup_put, if_pos]
    split_ifs with hparent <;> simp [hparent]
  | some existing =>
    simp only [hlookup] at h
    split_ifs at h with hparent <;> cases h
    · rw [if_pos hparent]
      exact hlookup
    · rw [if_neg hparent]
      simp only [Table.lookup_put, if_pos]

/-- The declarations so far are compatible, and the draft has the parents that they settle. -/
structure Draft.Records (draft : Draft) (declarations : List TypedName) : Prop where
  compatible : AreCompatible declarations
  lookup : ∀ key parent, draft.parents.lookup key = some parent ↔ Settles declarations key parent

namespace Draft.Records

/-- Nothing is declared at the start. -/
lemma start : Draft.start.Records [] where
  compatible := ⟨nofun, nofun, nofun⟩
  lookup := by
    intro key parent
    constructor
    · intro h
      cases h
    · rintro ⟨-, ⟨declaration, hmem, -⟩, -⟩
      cases hmem

/-- A parent other than the root that is given is the one that the draft has. -/
lemma lookup_of_gives (h : draft.Records declarations) (hgives : Gives declarations key parent)
    (hparent : parent ≠ rootType) : draft.parents.lookup key = some parent := by
  refine (h.lookup key parent).mpr ⟨?_, hgives.declares, fun _ => hgives,
    fun hroot => absurd hroot hparent⟩
  rintro rfl
  exact hparent (h.compatible.root parent hgives)

/-- A draft accepts the declarations that are compatible with those before. -/
lemma accepts_iff (h : draft.Records declarations) :
    draft.Accepts (lower type) (lower parent) ↔
      AreCompatible (declarations ++ [⟨type, .named parent⟩]) := by
  unfold Draft.Accepts
  constructor
  · intro haccepts
    have hroot : ∀ given, Gives (declarations ++ [⟨type, .named parent⟩]) rootType given →
        given = rootType := by
      intro given hgiven
      rcases gives_concat.mp hgiven with hgiven | ⟨htype, rfl⟩
      · exact h.compatible.root given hgiven
      · rwa [if_pos htype.symm] at haccepts
    -- A parent that was given before is the one that the draft has.
    have hnew : ∀ given, Gives declarations (lower type) given → given ≠ rootType →
        lower parent ≠ rootType → given = lower parent := by
      intro given hgiven hne hparent
      have htype : lower type ≠ rootType := fun htype =>
        hne (h.compatible.root given (htype ▸ hgiven))
      rw [if_neg htype] at haccepts
      rcases haccepts given (h.lookup_of_gives hgiven hne) with heq | heq | heq
      · exact absurd heq hne
      · exact absurd heq hparent
      · exact heq
    refine ⟨?_, hroot, ?_⟩
    · intro declaration hmem
      rcases List.mem_append.mp hmem with hmem | hmem
      · exact h.compatible.named declaration hmem
      · rw [List.mem_singleton.mp hmem]
        exact ⟨parent, rfl⟩
    · intro key first second hfirst hsecond hne hne'
      rcases gives_concat.mp hfirst with hfirst | ⟨rfl, rfl⟩
      · rcases gives_concat.mp hsecond with hsecond | ⟨rfl, rfl⟩
        · exact h.compatible.unique key first second hfirst hsecond hne hne'
        · exact hnew first hfirst hne hne'
      · rcases gives_concat.mp hsecond with hsecond | ⟨-, rfl⟩
        · exact (hnew second hsecond hne' hne).symm
        · rfl
  · intro hcompatible
    have hlast : Gives (declarations ++ [⟨type, .named parent⟩]) (lower type) (lower parent) :=
      gives_concat.mpr (Or.inr ⟨rfl, rfl⟩)
    split_ifs with htype
    · exact hcompatible.root _ (htype ▸ hlast)
    · intro existing hexisting
      by_cases hroot : existing = rootType
      · exact Or.inl hroot
      by_cases hparent : lower parent = rootType
      · exact Or.inr (Or.inl hparent)
      have hgiven := ((h.lookup _ existing).mp hexisting).given hroot
      exact Or.inr (Or.inr (hcompatible.unique _ existing _ (gives_concat.mpr (Or.inl hgiven)) hlast
        hroot hparent))

/-- What a draft has after a declaration is settled by this one and those before. -/
lemma settles_parentAfter (h : draft.Records declarations) {found : String}
    (hroot : lower type ≠ rootType)
    (hfound : draft.parentAfter (lower type) (lower parent) = some found) :
    Settles (declarations ++ [⟨type, .named parent⟩]) (lower type) found := by
  have hdeclares : Declares (declarations ++ [⟨type, .named parent⟩]) (lower type) :=
    declares_concat.mpr (Or.inr rfl)
  unfold Draft.parentAfter at hfound
  split_ifs at hfound with hparent
  · cases hlookup : draft.parents.lookup (lower type) with
    | none =>
      rw [hlookup] at hfound
      cases hfound
      refine ⟨hroot, hdeclares, fun hne => absurd rfl hne, fun _ other hother => ?_⟩
      by_contra hne
      rcases gives_concat.mp hother with hother | ⟨-, rfl⟩
      · rw [h.lookup_of_gives hother hne] at hlookup
        cases hlookup
      · exact hne hparent
    | some existing =>
      rw [hlookup] at hfound
      cases hfound
      have hbefore := (h.lookup _ _).mp hlookup
      refine ⟨hroot, hdeclares, fun hne => gives_concat.mpr (Or.inl (hbefore.given hne)), ?_⟩
      intro hexisting other hother
      rcases gives_concat.mp hother with hother | ⟨-, rfl⟩
      · exact hbefore.otherwise hexisting other hother
      · exact hparent
  · cases hfound
    exact ⟨hroot, hdeclares, fun _ => gives_concat.mpr (Or.inr ⟨rfl, rfl⟩),
      fun heq => absurd heq hparent⟩

/-- A draft records one more declaration that it takes. -/
lemma declare (h : draft.Records declarations) (hdeclare : draft.declare type parent = .ok after) :
    after.Records (declarations ++ [⟨type, .named parent⟩]) := by
  have hcompatible := h.accepts_iff.mp (Draft.declare_eq_ok_iff.mp ⟨after, hdeclare⟩)
  refine ⟨hcompatible, fun key found => ?_⟩
  rw [Draft.lookup_declare hdeclare]
  split_ifs with hkey
  · obtain ⟨rfl, hroot⟩ := hkey
    refine ⟨h.settles_parentAfter hroot, fun hfound => ?_⟩
    -- The draft has some parent now, which is settled, and only one is.
    obtain ⟨other, hother⟩ :
        ∃ other, draft.parentAfter (lower type) (lower parent) = some other := by
      unfold Draft.parentAfter
      split_ifs <;> exact ⟨_, rfl⟩
    rw [hother, (h.settles_parentAfter hroot hother).unique hcompatible hfound]
  · rw [h.lookup]
    by_cases hroot : key = rootType
    · exact ⟨fun hfound => absurd hroot hfound.key_ne, fun hfound => absurd hroot hfound.key_ne⟩
    · exact (settles_concat_of_ne fun heq => hkey ⟨heq, hroot⟩).symm

/-- Declarations that a draft takes one after the other are recorded. -/
lemma foldlM {rest declarations : List TypedName} {draft after : Draft}
    (h : draft.Records declarations) (hrun : rest.foldlM Draft.add draft = .ok after) :
    after.Records (declarations ++ rest) :=
  Draft.foldlM_induction (P := fun declared draft => draft.Records declared)
    (fun h hdeclare => h.declare hdeclare) declarations h hrun

/-- Compatible declarations are all taken. -/
lemma exists_foldlM : ∀ {rest declarations : List TypedName} {draft : Draft},
    draft.Records declarations → AreCompatible (declarations ++ rest) →
      ∃ after, rest.foldlM Draft.add draft = .ok after := by
  intro rest
  induction rest with
  | nil => exact fun _ _ => ⟨_, rfl⟩
  | cons declaration rest ih =>
    intro declarations draft h hcompatible
    rw [List.append_cons] at hcompatible
    have hfirst := hcompatible.mono (List.subset_append_left _ rest)
    obtain ⟨name, type⟩ := declaration
    obtain ⟨parent, rfl⟩ := hfirst.named ⟨name, type⟩ (by simp)
    obtain ⟨next, hnext⟩ := Draft.declare_eq_ok_iff.mpr (h.accepts_iff.mpr hfirst)
    obtain ⟨after, hafter⟩ := ih (h.declare hnext) hcompatible
    refine ⟨after, ?_⟩
    rw [List.foldlM_cons]
    exact Check.bind_eq_ok.mpr ⟨next, hnext, hafter⟩

end Draft.Records

end

/-! ### Hierarchies of declarations -/

section

variable {declarations : List TypedName} {types : TypeHierarchy} {key parent : String}

/-- Declarations make up a hierarchy exactly if they are compatible. -/
lemma exists_ofDeclarations_iff :
    (∃ types, ofDeclarations declarations = .ok types) ↔ AreCompatible declarations := by
  constructor
  · rintro ⟨types, h⟩
    obtain ⟨draft, hdraft, -⟩ := Check.bind_eq_ok.mp h
    exact (Draft.Records.start.foldlM hdraft).compatible
  · intro h
    obtain ⟨draft, hdraft⟩ := Draft.Records.start.exists_foldlM h
    exact ⟨_, Check.bind_eq_ok.mpr ⟨draft, hdraft, rfl⟩⟩

/-- What a hierarchy of declarations is like: its types are different and not the root, and what
occurs in it is spelled by one of its spellings. -/
structure IsSpelled (types : TypeHierarchy) : Prop where
  nodup : types.parents.keys.Nodup
  root : rootType ∉ types.parents.keys
  lower_spelling : ∀ key, Mentions types.parents key → lower (types.spelling key) = key
  spelling_root : types.spelling rootType = rootType

/-- Hierarchies of declarations are spelled. -/
lemma isSpelled_of_ofDeclarations (h : ofDeclarations declarations = .ok types) :
    types.IsSpelled := by
  obtain ⟨draft, hdraft, htypes⟩ := Check.bind_eq_ok.mp h
  cases htypes
  have hspelled := Draft.start_wellSpelled.foldlM hdraft
  refine ⟨hspelled.nodup, hspelled.root, fun key hkey => ?_,
    spelling_ofTables (Or.inl rfl) hspelled.spells_root⟩
  have hkey : Mentions draft.parents key := hkey
  obtain ⟨spelling, hlookup⟩ := hspelled.spelled key hkey
  rw [spelling_ofTables hkey hlookup]
  exact hspelled.lower_eq key spelling hlookup

/-- The parents in a hierarchy are those that its declarations settle. -/
lemma hasParent_iff (h : ofDeclarations declarations = .ok types) :
    types.HasParent key parent ↔ Settles declarations key parent := by
  obtain ⟨draft, hdraft, htypes⟩ := Check.bind_eq_ok.mp h
  cases htypes
  exact (Draft.Records.start.foldlM hdraft).lookup key parent

/-- The types of a hierarchy are those that are declared, apart from the root. -/
lemma lookup_isSome_iff (h : ofDeclarations declarations = .ok types) :
    (types.parents.lookup key).isSome = true ↔ key ≠ rootType ∧ Declares declarations key := by
  rw [Option.isSome_iff_exists]
  constructor
  · rintro ⟨parent, hparent⟩
    have hsettles := (hasParent_iff h).mp hparent
    exact ⟨hsettles.key_ne, hsettles.declared⟩
  · rintro ⟨hroot, hdeclares⟩
    obtain ⟨parent, hsettles⟩ := hdeclares.exists_settles hroot
    exact ⟨parent, (hasParent_iff h).mpr hsettles⟩

end

end TypeHierarchy

end Pddl
