import Mathlib.Logic.Relation
import Mathlib.Data.List.Basic
import Mathlib.Data.List.Induction
import Pddl.Check.References

/-!
# Types form a tree

A hierarchy that passes `validate` is a tree below the root: every parent is the root or declared
(`parent_known`), and following parents leads from every declared type to the root
(`leads_to_root`).  Declarations only add to a hierarchy: a type that it contains is contained in
every hierarchy of more declarations (`contains_of_append`), although a later declaration may give a
type another parent than the root.
-/

namespace Pddl

/-- A sequence of checks succeeds exactly when its parts do. -/
lemma Check.bind_eq_ok {ε α β : Type} {x : Except ε α} {f : α → Except ε β} {b : β} :
    (x >>= f) = .ok b ↔ ∃ a, x = .ok a ∧ f a = .ok b := by
  cases x with
  | error e =>
    constructor
    · intro h
      cases h
    · rintro ⟨a, h, -⟩
      cases h
  | ok a =>
    constructor
    · exact fun h => ⟨a, rfl, h⟩
    · rintro ⟨a', h, hf⟩
      cases h
      exact hf

/-- A check has a value exactly when it succeeds with it. -/
lemma Check.toOption_eq_some {ε α : Type} {x : Except ε α} {a : α} :
    x.toOption = some a ↔ x = .ok a := by
  cases x <;> simp [Except.toOption]

namespace Table

variable {α : Type} {key other : String} {value : α} {table : Table α}

/-- A key has a value exactly if it is among the keys. -/
lemma lookup_isSome : (table.lookup key).isSome = true ↔ key ∈ table.keys := by
  rw [List.lookup_isSome_iff, keys, List.mem_map]
  constructor
  · rintro ⟨entry, hentry, heq⟩
    exact ⟨entry, hentry, (beq_iff_eq.mp heq).symm⟩
  · rintro ⟨entry, hentry, rfl⟩
    exact ⟨entry, hentry, beq_self_eq_true _⟩

/-- A value that is looked up is in the table. -/
lemma mem_of_lookup (h : table.lookup key = some value) : (key, value) ∈ table := by
  obtain ⟨before, after, rfl, -⟩ := List.lookup_eq_some_iff.mp h
  exact List.mem_append_right _ List.mem_cons_self

/-- Putting in a key adds it to the keys. -/
lemma mem_keys_put : other ∈ (put key value table).keys ↔ other = key ∨ other ∈ table.keys := by
  induction table with
  | nil => simp [put, keys]
  | cons entry rest ih =>
    unfold keys at ih ⊢
    unfold put
    split_ifs with heq
    · rw [List.map_cons, List.map_cons, List.mem_cons, List.mem_cons, heq]
      tauto
    · rw [List.map_cons, List.map_cons, List.mem_cons, List.mem_cons, ih]
      tauto

/-- What is put in is in the table. -/
lemma mem_put : (key, value) ∈ put key value table := by
  induction table with
  | nil => exact List.mem_cons_self
  | cons entry rest ih =>
    unfold put
    split_ifs
    · exact List.mem_cons_self
    · exact List.mem_cons_of_mem _ ih

/-- Putting in a key loses no entry but the one that the key had. -/
lemma mem_put_of_mem (key : String) (value : α) {entry : String × α} (h : entry ∈ table) :
    entry ∈ put key value table ∨ (entry.1 = key ∧ table.lookup key = some entry.2) := by
  induction table with
  | nil => cases h
  | cons first rest ih =>
    unfold put
    by_cases heq : first.1 = key
    · rw [if_pos heq]
      rcases List.mem_cons.mp h with rfl | h
      · right
        refine ⟨heq, ?_⟩
        rw [List.lookup_cons, heq, beq_self_eq_true]
      · exact Or.inl (List.mem_cons_of_mem _ h)
    · rw [if_neg heq]
      rcases List.mem_cons.mp h with rfl | h
      · exact Or.inl List.mem_cons_self
      · rcases ih h with h | ⟨hkey, hlookup⟩
        · exact Or.inl (List.mem_cons_of_mem _ h)
        · right
          have hne : (key == first.1) = false := beq_eq_false_iff_ne.mpr (Ne.symm heq)
          refine ⟨hkey, ?_⟩
          rw [List.lookup_cons, hne]
          exact hlookup

/-- The last entry of a list is put in last. -/
lemma ofList_concat (entries : List (String × α)) (entry : String × α) :
    ofList (entries ++ [entry]) = put entry.1 entry.2 (ofList entries) := by
  unfold ofList
  rw [List.foldl_append, List.foldl_cons, List.foldl_nil]

/-- The keys of a list of entries are those of its table. -/
lemma mem_keys_ofList {entries : List (String × α)} :
    key ∈ (ofList entries).keys ↔ key ∈ entries.map Prod.fst := by
  induction entries using List.reverseRecOn with
  | nil => rfl
  | append_singleton entries entry ih =>
    rw [ofList_concat, mem_keys_put, ih, List.map_append, List.mem_append, List.map_singleton,
      List.mem_singleton, or_comm]

end Table

namespace TypeHierarchy

/-! ### What a hierarchy contains -/

/-- The key is the root, a declared type or the parent of one. -/
def Mentions (parents : Table String) (key : String) : Prop :=
  key = rootType ∨ ∃ entry ∈ parents, key = entry.1 ∨ key = entry.2

/-- What parents mention is the root and all that stands in their table. -/
lemma mentions_iff_mem {parents : Table String} {key : String} : Mentions parents key ↔
    key ∈ rootType :: (parents.map Prod.fst ++ parents.map Prod.snd) := by
  simp only [List.mem_cons, List.mem_append, List.mem_map, Mentions]
  constructor
  · rintro (h | ⟨entry, hentry, h | h⟩)
    · exact Or.inl h
    · exact Or.inr (Or.inl ⟨entry, hentry, h.symm⟩)
    · exact Or.inr (Or.inr ⟨entry, hentry, h.symm⟩)
  · rintro (h | ⟨entry, hentry, h⟩ | ⟨entry, hentry, h⟩)
    · exact Or.inl h
    · exact Or.inr ⟨entry, hentry, Or.inl h.symm⟩
    · exact Or.inr ⟨entry, hentry, Or.inr h.symm⟩

open Folding (lower)

section

variable [Folding]

/-- A hierarchy of given parents contains what they mention. -/
lemma contains_ofTables {parents spellings : Table String} {type : String} :
    (ofTables parents spellings).contains type = true ↔ Mentions parents (lower type) := by
  have hkeys : ∀ (plain : Table String) (respell : String × String → String),
      Table.keys (plain.map fun entry => (entry.1, respell entry)) = plain.keys := by
    intro plain respell
    simp [Table.keys, Function.comp_def]
  rw [contains, ofTables, Table.lookup_isSome, hkeys, Table.mem_keys_ofList, mentions_iff_mem,
    List.map_map, Function.comp_def, List.map_id']

/-- A hierarchy of declarations contains what its parents mention. -/
lemma contains_ofDeclarations {declarations : List TypedName} {types : TypeHierarchy}
    (h : ofDeclarations declarations = .ok types) {type : String} :
    types.contains type = true ↔ Mentions types.parents (lower type) := by
  obtain ⟨draft, -, hdraft⟩ := Check.bind_eq_ok.mp h
  cases hdraft
  exact contains_ofTables

/-! ### Declarations only add -/

/-- Declaring a type forgets nothing that is mentioned: it replaces no parent but the root. -/
lemma Draft.mentions_declare {draft after : Draft} {type parent key : String}
    (h : draft.declare type parent = .ok after) (hkey : Mentions draft.parents key) :
    Mentions after.parents key := by
  have hput : ∀ value, (∀ existing, draft.parents.lookup (lower type) = some existing →
      existing = value ∨ existing = rootType) →
      Mentions (draft.parents.put (lower type) value) key := by
    intro value hexisting
    rcases hkey with hroot | ⟨entry, hentry, hkey⟩
    · exact Or.inl hroot
    · rcases Table.mem_put_of_mem (lower type) value hentry with hentry | ⟨htype, hlookup⟩
      · exact Or.inr ⟨entry, hentry, hkey⟩
      · rcases hkey with hkey | hkey
        · exact Or.inr ⟨_, Table.mem_put, Or.inl (hkey.trans htype)⟩
        · rcases hexisting entry.2 hlookup with hsame | hroot
          · exact Or.inr ⟨_, Table.mem_put, Or.inr (hkey.trans hsame)⟩
          · exact Or.inl (hkey.trans hroot)
  unfold declare at h
  by_cases hroot : lower type = rootType
  · simp only [if_pos hroot] at h
    split_ifs at h with hparent
    cases h
    exact hkey
  · simp only [if_neg hroot] at h
    cases hlookup : draft.parents.lookup (lower type) with
    | none =>
      simp only [hlookup, Except.ok.injEq] at h
      subst h
      exact hput _ fun existing h => by rw [hlookup] at h; cases h
    | some existing =>
      simp only [hlookup] at h
      split_ifs at h with hparent hsame
      · cases h
        exact hkey
      · cases h
        refine hput _ fun other hother => ?_
        rw [hlookup] at hother
        cases hother
        simpa using hsame

/-- What is true of a draft and what has been declared so far, and stays true whenever a type is
declared with a parent, is true after any declarations. -/
lemma Draft.foldlM_induction {P : List TypedName → Draft → Prop}
    (hdeclare : ∀ {declared : List TypedName} {draft next : Draft} {type parent : String},
      P declared draft → draft.declare type parent = .ok next →
        P (declared ++ [⟨type, .named parent⟩]) next)
    {declarations : List TypedName} : ∀ (declared : List TypedName) {draft after : Draft},
      P declared draft → declarations.foldlM Draft.add draft = .ok after →
        P (declared ++ declarations) after := by
  induction declarations with
  | nil =>
    intro declared draft after h hrun
    cases hrun
    rwa [List.append_nil]
  | cons declaration rest ih =>
    intro declared draft after h hrun
    rw [List.foldlM_cons] at hrun
    obtain ⟨next, hadd, hrest⟩ := Check.bind_eq_ok.mp hrun
    obtain ⟨type, parent⟩ := declaration
    rw [List.append_cons]
    cases parent with
    | named parent => exact ih _ (hdeclare h hadd) hrest
    | either options => cases hadd

/-- Adding declarations forgets nothing that is mentioned. -/
lemma Draft.mentions_foldlM {declarations : List TypedName} {draft after : Draft} {key : String}
    (h : declarations.foldlM Draft.add draft = .ok after) (hkey : Mentions draft.parents key) :
    Mentions after.parents key :=
  foldlM_induction (P := fun _ draft => Mentions draft.parents key)
    (fun hkey hdeclare => mentions_declare hdeclare hkey) [] hkey h

/-- A type that is contained stays contained as more types are declared. -/
lemma contains_of_append {declarations more : List TypedName} {types after : TypeHierarchy}
    (h : ofDeclarations declarations = .ok types)
    (hafter : ofDeclarations (declarations ++ more) = .ok after) {type : String}
    (htype : types.contains type = true) : after.contains type = true := by
  rw [contains_ofDeclarations h] at htype
  rw [contains_ofDeclarations hafter]
  obtain ⟨draft, hdraft, htypes⟩ := Check.bind_eq_ok.mp h
  cases htypes
  obtain ⟨draft', hdraft', htypes'⟩ := Check.bind_eq_ok.mp hafter
  cases htypes'
  rw [List.foldlM_append] at hdraft'
  obtain ⟨between, hbetween, hmore⟩ := Check.bind_eq_ok.mp hdraft'
  rw [hdraft] at hbetween
  cases hbetween
  exact Draft.mentions_foldlM hmore htype

end

/-! ### Valid hierarchies -/

/-- The key of the parent of a declared type, given by its key. -/
def HasParent (types : TypeHierarchy) (key parent : String) : Prop :=
  types.parents.lookup key = some parent

/-- Every parent is the root or declared, and following parents leads from every declared type to
the root. -/
structure IsTree (types : TypeHierarchy) : Prop where
  parent_known : ∀ entry ∈ types.parents,
    entry.2 = rootType ∨ (types.parents.lookup entry.2).isSome = true
  leads_to_root : ∀ key, (types.parents.lookup key).isSome = true →
    Relation.ReflTransGen types.HasParent key rootType

/-- Every parent is the root or declared. -/
def KnowsParents (types : TypeHierarchy) : Prop :=
  ∀ entry ∈ types.parents, entry.2 = rootType ∨ entry.2 ∈ types.parents.keys

/-- If there is no orphan, every parent is known. -/
lemma knowsParents_of_orphan? {types : TypeHierarchy} (h : types.orphan? = none) :
    types.KnowsParents := by
  intro entry hentry
  have hnot := List.find?_eq_none.mp h entry hentry
  by_cases hroot : entry.2 = rootType
  · exact Or.inl hroot
  · right
    rw [← Table.lookup_isSome]
    simpa [hroot, Option.isSome_iff_ne_none] using hnot

/-- A chain of different types, each of them the root or declared, one of which is current. -/
structure IsWalk (types : TypeHierarchy) (chain : List String) (current : String) : Prop where
  nodup : chain.Nodup
  known : ∀ key ∈ chain, key ∈ rootType :: types.parents.keys
  mem : current ∈ chain

namespace IsWalk

variable {types : TypeHierarchy} {chain : List String} {current parent : String}

/-- A walk starts at a declared type. -/
lemma start {entry : String × String} (h : entry ∈ types.parents) :
    types.IsWalk [entry.1] entry.1 where
  nodup := by simp
  known := by
    intro key hkey
    rw [List.mem_singleton.mp hkey]
    exact List.mem_cons_of_mem _ (List.mem_map_of_mem h)
  mem := List.mem_singleton_self _

/-- A walk meets no more than all types. -/
lemma length_le (h : types.IsWalk chain current) : chain.length ≤ types.parents.length + 1 := by
  have hle := h.nodup.length_le_of_subset h.known
  rwa [List.length_cons, Table.keys, List.length_map] at hle

/-- A walk that is not at the root can go on. -/
lemma exists_parent (h : types.IsWalk chain current) (hroot : current ≠ rootType) :
    ∃ parent, types.parents.lookup current = some parent := by
  rcases List.mem_cons.mp (h.known current h.mem) with heq | hkey
  · exact absurd heq hroot
  · exact Option.isSome_iff_exists.mp (Table.lookup_isSome.mpr hkey)

/-- A walk goes on to a parent that it has not met. -/
lemma step (h : types.IsWalk chain current) (hparents : types.KnowsParents)
    (hlookup : types.parents.lookup current = some parent) (hnew : parent ∉ chain) :
    types.IsWalk (chain ++ [parent]) parent where
  nodup := by
    rw [List.nodup_append]
    refine ⟨h.nodup, by simp, ?_⟩
    intro key hmem other hother heq
    rw [List.mem_singleton.mp hother] at heq
    exact hnew (heq ▸ hmem)
  known := by
    intro key hmem
    rcases List.mem_append.mp hmem with hmem | hmem
    · exact h.known key hmem
    · rw [List.mem_singleton.mp hmem]
      exact List.mem_cons.mpr (hparents _ (Table.mem_of_lookup hlookup))
  mem := List.mem_append_right _ List.mem_cons_self

end IsWalk

/-- A walk that meets no cycle leads to the root, if it may meet all types. -/
lemma leads_to_root_of_cycleFrom {types : TypeHierarchy} (hparents : types.KnowsParents) :
    ∀ (fuel : Nat) (chain : List String) (current : String), types.IsWalk chain current →
      types.parents.length + 1 < chain.length + fuel →
      types.cycleFrom fuel chain current = none →
      Relation.ReflTransGen types.HasParent current rootType := by
  intro fuel
  induction fuel with
  | zero =>
    intro chain current hwalk hlength _
    have hle := hwalk.length_le
    omega
  | succ fuel ih =>
    intro chain current hwalk hlength hnone
    unfold cycleFrom at hnone
    by_cases hroot : current = rootType
    · rw [hroot]
    rw [if_neg hroot] at hnone
    obtain ⟨parent, hlookup⟩ := hwalk.exists_parent hroot
    simp only [hlookup] at hnone
    split_ifs at hnone with hcycle
    have hlength' : types.parents.length + 1 < (chain ++ [parent]).length + fuel := by
      rw [List.length_append, List.length_singleton]
      omega
    have hrest := ih (chain ++ [parent]) parent (hwalk.step hparents hlookup hcycle) hlength' hnone
    exact hrest.head hlookup

/-- A hierarchy that passes the checks is a tree. -/
lemma isTree_of_validate {types : TypeHierarchy} (h : types.validate = .ok ()) : types.IsTree := by
  unfold validate at h
  cases horphan : types.orphan? with
  | some entry =>
    simp only [horphan] at h
    cases h
  | none =>
    cases hcycle : types.cycle? with
    | some chain =>
      simp only [horphan, hcycle] at h
      cases h
    | none =>
      have hparents := knowsParents_of_orphan? horphan
      refine ⟨fun entry hentry => (hparents entry hentry).imp id Table.lookup_isSome.mpr, ?_⟩
      intro key hkey
      obtain ⟨entry, hentry, rfl⟩ := List.mem_map.mp (Table.lookup_isSome.mp hkey)
      have hnone := List.findSome?_eq_none_iff.mp hcycle entry hentry
      refine leads_to_root_of_cycleFrom hparents _ [entry.1] entry.1 (.start hentry) ?_ hnone
      rw [List.length_singleton]
      omega

/-! ### Types that are known -/

section

variable [Folding]

/-- The type is the root or declared. -/
def Knows (types : TypeHierarchy) (type : String) : Prop :=
  lower type = rootType ∨ (types.parents.lookup (lower type)).isSome = true

/-- What a tree of declared types contains is the root or declared. -/
lemma knows_of_contains {declarations : List TypedName} {types : TypeHierarchy}
    (h : ofDeclarations declarations = .ok types) (htree : types.IsTree) {type : String}
    (htype : types.contains type = true) : types.Knows type := by
  rcases (contains_ofDeclarations h).mp htype with hroot | ⟨entry, hentry, hkey | hparent⟩
  · exact Or.inl hroot
  · exact Or.inr (Table.lookup_isSome.mpr (List.mem_map.mpr ⟨entry, hentry, hkey.symm⟩))
  · unfold Knows
    rw [hparent]
    exact htree.parent_known entry hentry

/-- The hierarchy of declarations that passes the checks is the hierarchy of the declarations, and a
tree. -/
lemma ofDeclarationsValid_eq_ok {declarations : List TypedName} {types : TypeHierarchy}
    (h : ofDeclarationsValid declarations = .ok types) :
    ofDeclarations declarations = .ok types ∧ types.IsTree := by
  obtain ⟨found, hfound, hrest⟩ := Check.bind_eq_ok.mp h
  obtain ⟨_, hvalid, hpure⟩ := Check.bind_eq_ok.mp hrest
  cases hpure
  exact ⟨hfound, isTree_of_validate hvalid⟩

end

end TypeHierarchy

end Pddl
