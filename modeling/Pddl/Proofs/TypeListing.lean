import Pddl.Proofs.TypeForest
import Pddl.Proofs.Writing

/-!
# Hierarchies are rebuilt from their listings

A hierarchy that declarations make up is listed as its types with their parents, each spelled as it
was first.  Declaring the listing makes up the same hierarchy again (`ofDeclarations_listing`),
although the declarations may have mentioned types in another order, several times, or as parents
first: in the listing every mention of a type has the one spelling that counts.
-/

namespace Pddl

namespace Table

variable {α : Type} {key other : String} {value : α} {table : Table α}

/-- The first entry of a table has its key's value. -/
lemma lookup_cons {entry : String × α} : List.lookup other (entry :: table) =
    if other = entry.1 then some entry.2 else table.lookup other := by
  rw [List.lookup_cons]
  by_cases h : other = entry.1
  · rw [if_pos h, beq_iff_eq.mpr h]
  · rw [if_neg h, beq_eq_false_iff_ne.mpr h]

/-- A key that is put in has the value. -/
lemma lookup_put : (put key value table).lookup other =
    if other = key then some value else table.lookup other := by
  induction table with
  | nil => exact lookup_cons
  | cons entry rest ih =>
    unfold put
    by_cases hentry : entry.1 = key
    · rw [if_pos hentry, lookup_cons, lookup_cons, hentry]
      split_ifs <;> rfl
    · rw [if_neg hentry, lookup_cons, lookup_cons, ih]
      by_cases h : other = entry.1
      · have hne : ¬ other = key := fun heq => hentry (h ▸ heq)
        rw [if_pos h, if_pos h, if_neg hne]
      · rw [if_neg h, if_neg h]

/-- What is in a table after a key is put in was put in or there before. -/
lemma mem_of_mem_put {entry : String × α} (h : entry ∈ put key value table) :
    entry = (key, value) ∨ entry ∈ table := by
  induction table with
  | nil => exact Or.inl (List.mem_singleton.mp h)
  | cons first rest ih =>
    unfold put at h
    split_ifs at h with hfirst
    · exact (List.mem_cons.mp h).imp id (List.mem_cons_of_mem _)
    · rcases List.mem_cons.mp h with rfl | h
      · exact Or.inr List.mem_cons_self
      · exact (ih h).imp id (List.mem_cons_of_mem _)

/-- A key that has no value yet gets the value. -/
lemma lookup_putNew : (putNew key value table).lookup other =
    if other = key then some ((table.lookup key).getD value) else table.lookup other := by
  unfold putNew
  cases hlookup : table.lookup key with
  | none => exact lookup_put
  | some existing =>
    by_cases h : other = key
    · rw [if_pos h, h, hlookup]
      rfl
    · rw [if_neg h]

/-- A new key is put in at the end. -/
lemma put_of_notMem (h : key ∉ table.keys) : put key value table = table ++ [(key, value)] := by
  induction table with
  | nil => rfl
  | cons entry rest ih =>
    unfold keys at h ih
    rw [List.map_cons, List.mem_cons, not_or] at h
    unfold put
    rw [if_neg (Ne.symm h.1), ih h.2]
    rfl

/-- A key that is not new keeps its place. -/
lemma keys_put_of_mem (h : key ∈ table.keys) : (put key value table).keys = table.keys := by
  induction table with
  | nil => cases h
  | cons entry rest ih =>
    unfold keys at h ih ⊢
    unfold put
    by_cases hentry : entry.1 = key
    · rw [if_pos hentry, List.map_cons, List.map_cons, hentry]
    · have hrest : key ∈ rest.map Prod.fst :=
        (List.mem_cons.mp h).resolve_left (Ne.symm hentry)
      rw [if_neg hentry, List.map_cons, List.map_cons, ih hrest]

/-- Keys stay different when one is put in. -/
lemma nodup_keys_put (h : table.keys.Nodup) : (put key value table).keys.Nodup := by
  by_cases hmem : key ∈ table.keys
  · rwa [keys_put_of_mem hmem]
  · rw [put_of_notMem hmem, keys, List.map_append, List.nodup_append]
    refine ⟨h, by simp, ?_⟩
    intro first hfirst second hsecond heq
    have hkey : second = key := by simpa using hsecond
    exact hmem (hkey ▸ heq ▸ hfirst)

/-- What is in the table of a list of entries is in the list. -/
lemma mem_of_mem_ofList {entries : List (String × α)} {entry : String × α}
    (h : entry ∈ ofList entries) : entry ∈ entries := by
  induction entries using List.reverseRecOn with
  | nil => cases h
  | append_singleton entries last ih =>
    rw [ofList_concat] at h
    rcases mem_of_mem_put h with rfl | h
    · exact List.mem_append_right _ List.mem_cons_self
    · exact List.mem_append_left _ (ih h)

/-- A table whose values are replaced has the new ones. -/
lemma lookup_map (replace : String × α → α) :
    (table.map fun entry => (entry.1, replace entry)).lookup key =
      (table.lookup key).map fun value => replace (key, value) := by
  induction table with
  | nil => rfl
  | cons entry rest ih =>
    rw [List.map_cons, lookup_cons, lookup_cons, ih]
    split_ifs with h
    · rw [h]
      rfl
    · rfl

end Table

namespace TypeHierarchy

open Folding (lower)

/-! ### What a draft is like -/

section

variable [Folding]

/-- The ways in which a declaration can succeed: the root below the root changes nothing, a declared
type below the root gives no more than a spelling, and otherwise the type is put below its parent,
in place of none or of the root. -/
lemma Draft.declare_eq_ok {draft after : Draft} {type parent : String}
    (h : draft.declare type parent = .ok after) :
    after = draft ∨ lower type ≠ rootType ∧
      (after = { draft with spellings := draft.spellings.putNew (lower type) type } ∨
        after = ⟨draft.parents.put (lower type) (lower parent),
          (draft.spellings.putNew (lower type) type).putNew (lower parent) parent⟩) := by
  unfold declare at h
  by_cases hroot : lower type = rootType
  · simp only [if_pos hroot] at h
    split_ifs at h with hparent
    exact Or.inl (Except.ok.inj h).symm
  · simp only [if_neg hroot] at h
    refine Or.inr ⟨hroot, ?_⟩
    cases hlookup : draft.parents.lookup (lower type) with
    | none =>
      simp only [hlookup, Except.ok.injEq] at h
      exact Or.inr h.symm
    | some existing =>
      simp only [hlookup] at h
      split_ifs at h with hparent hsame
      · exact Or.inl (Except.ok.inj h).symm
      · exact Or.inr (Except.ok.inj h).symm

/-- The types of a draft are different and not the root, every key that occurs has a spelling, and a
spelling is one of its key. -/
structure Draft.WellSpelled (draft : Draft) : Prop where
  nodup : draft.parents.keys.Nodup
  root : rootType ∉ draft.parents.keys
  spelled : ∀ key, Mentions draft.parents key → ∃ spelling,
    draft.spellings.lookup key = some spelling
  lower_eq : ∀ key spelling, draft.spellings.lookup key = some spelling → lower spelling = key
  spells_root : draft.spellings.lookup rootType = some rootType

/-- A new spelling of a key is one of the key. -/
lemma Draft.WellSpelled.respell {draft : Draft} (h : draft.WellSpelled) (type : String) :
    Draft.WellSpelled { draft with spellings := draft.spellings.putNew (lower type) type } where
  nodup := h.nodup
  root := h.root
  spelled := by
    intro key hkey
    obtain ⟨spelling, hspelling⟩ := h.spelled key hkey
    refine ⟨spelling, ?_⟩
    simp only [Table.lookup_putNew]
    split_ifs with heq
    · rw [← heq, hspelling]
      rfl
    · exact hspelling
  lower_eq := by
    intro key spelling hlookup
    simp only [Table.lookup_putNew] at hlookup
    split_ifs at hlookup with heq
    · cases hexisting : draft.spellings.lookup (lower type) with
      | none =>
        rw [hexisting] at hlookup
        rw [heq, ← Option.some.inj hlookup]
        rfl
      | some existing =>
        rw [hexisting] at hlookup
        rw [heq, ← Option.some.inj hlookup]
        exact h.lower_eq _ _ hexisting
    · exact h.lower_eq key spelling hlookup
  spells_root := by
    simp only [Table.lookup_putNew]
    split_ifs with heq
    · rw [← heq, h.spells_root]
      rfl
    · exact h.spells_root

/-- Declaring a type keeps a draft well spelled. -/
lemma Draft.WellSpelled.declare {draft after : Draft} (h : draft.WellSpelled)
    {type parent : String} (hdeclare : draft.declare type parent = .ok after) :
    after.WellSpelled := by
  rcases Draft.declare_eq_ok hdeclare with rfl | ⟨hroot, rfl | rfl⟩
  · exact h
  · exact h.respell type
  · have hrespelled := (h.respell type).respell parent
    refine ⟨Table.nodup_keys_put h.nodup, ?_, ?_, hrespelled.lower_eq, hrespelled.spells_root⟩
    · rw [Table.mem_keys_put, not_or]
      exact ⟨Ne.symm hroot, h.root⟩
    · intro key hkey
      -- What is put in is spelled now, and what was there before was spelled before.
      by_cases hparent : key = lower parent
      · exact ⟨_, by rw [Table.lookup_putNew, if_pos hparent]⟩
      by_cases htype : key = lower type
      · exact ⟨_, by rw [Table.lookup_putNew, if_neg hparent, Table.lookup_putNew, if_pos htype]⟩
      refine hrespelled.spelled key ?_
      rcases hkey with hkey | ⟨entry, hentry, hkey⟩
      · exact Or.inl hkey
      · rcases Table.mem_of_mem_put hentry with rfl | hentry
        · exact absurd hkey (not_or.mpr ⟨htype, hparent⟩)
        · exact Or.inr ⟨entry, hentry, hkey⟩

/-- The first draft is well spelled. -/
lemma Draft.start_wellSpelled : Draft.start.WellSpelled where
  nodup := List.nodup_nil
  root := List.not_mem_nil
  spelled := by
    rintro key (rfl | ⟨entry, hentry, -⟩)
    · exact ⟨rootType, rfl⟩
    · cases hentry
  lower_eq := by
    intro key spelling hlookup
    obtain ⟨rfl, rfl⟩ := Prod.mk.inj (List.mem_singleton.mp (Table.mem_of_lookup hlookup))
    exact Folding.lower_root
  spells_root := rfl

/-- A declaration keeps a draft well spelled. -/
lemma Draft.WellSpelled.add {draft after : Draft} (h : draft.WellSpelled) {declaration : TypedName}
    (hadd : draft.add declaration = .ok after) : after.WellSpelled := by
  obtain ⟨type, parent⟩ := declaration
  cases parent with
  | named parent => exact h.declare hadd
  | either options => cases hadd

/-- The entries of a draft come from the declarations that were added to it. -/
lemma Draft.mem_parents_of_foldlM {declarations : List TypedName} {draft : Draft}
    (hrun : declarations.foldlM Draft.add Draft.start = .ok draft) :
    ∀ entry ∈ draft.parents, ∃ declaration ∈ declarations, lower declaration.name = entry.1 ∧
      ∃ parent ∈ declaration.type.options, lower parent = entry.2 := by
  refine foldlM_induction (P := fun declared draft => ∀ entry ∈ draft.parents,
    ∃ declaration ∈ declared, lower declaration.name = entry.1 ∧
      ∃ parent ∈ declaration.type.options, lower parent = entry.2)
    (fun {declared draft next type parent} h hdeclare entry hentry => ?_) []
    (fun _ hnone => absurd hnone List.not_mem_nil) hrun
  have horigin : entry = (lower type, lower parent) ∨ entry ∈ draft.parents := by
    rcases Draft.declare_eq_ok hdeclare with rfl | ⟨-, rfl | rfl⟩
    · exact Or.inr hentry
    · exact Or.inr hentry
    · exact Table.mem_of_mem_put hentry
  rcases horigin with rfl | hbefore
  · exact ⟨_, List.mem_append_right _ List.mem_cons_self, rfl, parent, List.mem_cons_self, rfl⟩
  · obtain ⟨declaration, hdeclaration, hnames⟩ := h entry hbefore
    exact ⟨declaration, List.mem_append_left _ hdeclaration, hnames⟩

/-- The entries of a hierarchy come from its declarations. -/
lemma mem_parents_of_ofDeclarations {declarations : List TypedName} {types : TypeHierarchy}
    (h : ofDeclarations declarations = .ok types) {entry : String × String}
    (hentry : entry ∈ types.parents) :
    ∃ declaration ∈ declarations, lower declaration.name = entry.1 ∧
      ∃ parent ∈ declaration.type.options, lower parent = entry.2 := by
  obtain ⟨draft, hdraft, htypes⟩ := Check.bind_eq_ok.mp h
  cases htypes
  exact Draft.mem_parents_of_foldlM hdraft entry hentry

/-- Declarations keep a draft well spelled. -/
lemma Draft.WellSpelled.foldlM {declarations : List TypedName} {draft after : Draft}
    (h : draft.WellSpelled) (hrun : declarations.foldlM Draft.add draft = .ok after) :
    after.WellSpelled :=
  foldlM_induction (P := fun _ draft => draft.WellSpelled)
    (fun h hdeclare => h.declare hdeclare) [] h hrun

end

/-! ### Spellings of a hierarchy -/

/-- Keys that spell themselves. -/
lemma mem_plain {keys : List String} {entry : String × String}
    (h : entry ∈ Table.ofList (keys.map fun key => (key, key))) :
    entry.1 ∈ keys ∧ entry.2 = entry.1 := by
  obtain ⟨key, hkey, rfl⟩ := List.mem_map.mp (Table.mem_of_mem_ofList h)
  exact ⟨hkey, rfl⟩

/-- A key that occurs is spelled as the tables spell it. -/
lemma lookup_spellings_ofTables {parents spellings : Table String} {key : String}
    (h : Mentions parents key) :
    (ofTables parents spellings).spellings.lookup key =
      some ((spellings.lookup key).getD key) := by
  unfold ofTables
  simp only [Table.lookup_map]
  have hmem := mentions_iff_mem.mp h
  obtain ⟨value, hvalue⟩ : ∃ value, List.lookup key (Table.ofList
      ((rootType :: (parents.map Prod.fst ++ parents.map Prod.snd)).map fun key => (key, key))) =
        some value := by
    rw [← Option.isSome_iff_exists, Table.lookup_isSome, Table.mem_keys_ofList, List.map_map,
      Function.comp_def, List.map_id']
    exact hmem
  have hplain : value = key := (mem_plain (Table.mem_of_lookup hvalue)).2
  rw [hvalue, hplain]
  rfl

/-- A key that occurs has the spelling that the tables have. -/
lemma spelling_ofTables {parents spellings : Table String} {key spelling : String}
    (h : Mentions parents key) (hspelling : spellings.lookup key = some spelling) :
    (ofTables parents spellings).spelling key = spelling := by
  unfold TypeHierarchy.spelling
  rw [lookup_spellings_ofTables h, hspelling]
  rfl

/-- Hierarchies with the same parents are the same if they spell what occurs alike. -/
lemma ofTables_congr {parents spellings spellings' : Table String}
    (h : ∀ key, Mentions parents key → spellings.lookup key = spellings'.lookup key) :
    ofTables parents spellings = ofTables parents spellings' := by
  unfold ofTables
  simp only [TypeHierarchy.mk.injEq, true_and]
  refine List.map_congr_left fun entry hentry => ?_
  rw [h entry.1 (mentions_iff_mem.mpr (mem_plain hentry).1)]

/-! ### Declaring a listing -/

/-- All spellings of the draft are the given ones, and every key that occurs is spelled. -/
structure Draft.SpelledBy (spell : String → String) (draft : Draft) : Prop where
  agree : ∀ key spelling, draft.spellings.lookup key = some spelling → spelling = spell key
  spelled : ∀ key, Mentions draft.parents key → (draft.spellings.lookup key).isSome = true

/-- A given spelling agrees with the given ones. -/
lemma agree_putNew {spell : String → String} {spellings : Table String}
    (h : ∀ key spelling, spellings.lookup key = some spelling → spelling = spell key)
    (type : String) : ∀ key spelling,
      (spellings.putNew type (spell type)).lookup key = some spelling → spelling = spell key := by
  intro key spelling hlookup
  rw [Table.lookup_putNew] at hlookup
  split_ifs at hlookup with heq
  · cases hexisting : spellings.lookup type with
    | none =>
      rw [hexisting] at hlookup
      rw [heq]
      exact (Option.some.inj hlookup).symm
    | some existing =>
      rw [hexisting] at hlookup
      rw [heq, ← h type existing hexisting]
      exact (Option.some.inj hlookup).symm
  · exact h key spelling hlookup

section

variable [Folding]

/-- A new type in its given spelling is put below its parent, at the end. -/
lemma Draft.SpelledBy.declare {spell : String → String} {draft : Draft} (h : draft.SpelledBy spell)
    {key parent : String} (hkey : lower (spell key) = key) (hparent : lower (spell parent) = parent)
    (hroot : key ≠ rootType) (hnew : key ∉ draft.parents.keys) :
    ∃ after, draft.declare (spell key) (spell parent) = .ok after ∧
      after.parents = draft.parents ++ [(key, parent)] ∧ after.SpelledBy spell := by
  have hnone : draft.parents.lookup key = none := by
    rw [← Option.not_isSome_iff_eq_none, Table.lookup_isSome]
    exact hnew
  refine ⟨⟨draft.parents ++ [(key, parent)],
    (draft.spellings.putNew key (spell key)).putNew parent (spell parent)⟩, ?_, rfl, ?_, ?_⟩
  · unfold Draft.declare
    simp only [hkey, hparent, if_neg hroot, hnone, Table.put_of_notMem hnew]
  · exact agree_putNew (agree_putNew h.agree key) parent
  · intro other hother
    simp only [Table.lookup_putNew]
    split_ifs with heq hself heq'
    · rfl
    · rfl
    · rfl
    · refine h.spelled other ?_
      rcases hother with hother | ⟨entry, hentry, hother⟩
      · exact Or.inl hother
      · rcases List.mem_append.mp hentry with hentry | hentry
        · exact Or.inr ⟨entry, hentry, hother⟩
        · rw [List.mem_singleton.mp hentry] at hother
          exact absurd hother (not_or.mpr ⟨heq', heq⟩)

/-- Declaring entries in their given spelling puts them in one after the other. -/
lemma Draft.SpelledBy.foldlM {spell : String → String} :
    ∀ (entries : Table String) {draft : Draft}, draft.SpelledBy spell →
      (∀ entry ∈ entries, lower (spell entry.1) = entry.1 ∧ lower (spell entry.2) = entry.2) →
      rootType ∉ entries.keys → (Table.keys (draft.parents ++ entries)).Nodup →
      ∃ after,
        (entries.map fun entry => TypedName.mk (spell entry.1) (.named (spell entry.2))).foldlM
          Draft.add draft = .ok after ∧
        after.parents = draft.parents ++ entries ∧ after.SpelledBy spell := by
  intro entries
  induction entries with
  | nil =>
    intro draft h _ _ _
    exact ⟨draft, rfl, (List.append_nil _).symm, h⟩
  | cons entry rest ih =>
    intro draft h hfold hroot hnodup
    have hentry := hfold entry List.mem_cons_self
    unfold Table.keys at hroot hnodup ih
    rw [List.map_cons, List.mem_cons, not_or] at hroot
    rw [List.map_append, List.map_cons] at hnodup
    have hnew : entry.1 ∉ draft.parents.keys := fun hmem =>
      (List.nodup_append.mp hnodup).2.2 entry.1 hmem entry.1 List.mem_cons_self rfl
    obtain ⟨next, hdeclare, hparents, hnext⟩ :=
      h.declare hentry.1 hentry.2 (Ne.symm hroot.1) hnew
    have hnodup' : ((next.parents ++ rest).map Prod.fst).Nodup := by
      rw [hparents]
      simpa using hnodup
    obtain ⟨after, hrest, hafter, hspelled⟩ :=
      ih hnext (fun e he => hfold e (List.mem_cons_of_mem _ he)) hroot.2 hnodup'
    refine ⟨after, ?_, ?_, hspelled⟩
    · rw [List.map_cons, List.foldlM_cons]
      exact Check.bind_eq_ok.mpr ⟨next, hdeclare, hrest⟩
    · rw [hafter, hparents, List.append_assoc]
      rfl

/-- A hierarchy that declarations make up is made up by its listing, too. -/
lemma ofDeclarations_listing {declarations : List TypedName} {types : TypeHierarchy}
    (h : ofDeclarations declarations = .ok types) : ofDeclarations types.listing = .ok types := by
  obtain ⟨draft, hdraft, htypes⟩ := Check.bind_eq_ok.mp h
  cases htypes
  have hspelled := Draft.start_wellSpelled.foldlM hdraft
  -- Keys that occur keep the spelling that the draft gives them.
  have hspelling : ∀ key, Mentions draft.parents key →
      draft.spellings.lookup key =
        some ((ofTables draft.parents draft.spellings).spelling key) := by
    intro key hkey
    obtain ⟨spelling, hlookup⟩ := hspelled.spelled key hkey
    rw [spelling_ofTables hkey hlookup, hlookup]
  have hfold : ∀ key, Mentions draft.parents key →
      lower ((ofTables draft.parents draft.spellings).spelling key) = key :=
    fun key hkey => hspelled.lower_eq key _ (hspelling key hkey)
  have hstart : Draft.start.SpelledBy (ofTables draft.parents draft.spellings).spelling := by
    refine ⟨?_, ?_⟩
    · intro key spelling hlookup
      obtain ⟨rfl, rfl⟩ := Prod.mk.inj (List.mem_singleton.mp (Table.mem_of_lookup hlookup))
      exact (spelling_ofTables (Or.inl rfl) hspelled.spells_root).symm
    · rintro key (rfl | ⟨entry, hentry, -⟩)
      · rfl
      · cases hentry
  obtain ⟨after, hrun, hparents, hafter⟩ := hstart.foldlM draft.parents
    (fun entry hentry => ⟨hfold _ (Or.inr ⟨entry, hentry, Or.inl rfl⟩),
      hfold _ (Or.inr ⟨entry, hentry, Or.inr rfl⟩)⟩) hspelled.root hspelled.nodup
  have hparents : after.parents = draft.parents := hparents
  have hsame : ofTables draft.parents after.spellings = ofTables draft.parents draft.spellings := by
    refine ofTables_congr fun key hkey => ?_
    obtain ⟨spelling, hlookup⟩ :=
      Option.isSome_iff_exists.mp (hafter.spelled key (hparents ▸ hkey))
    rw [hlookup, hafter.agree key spelling hlookup, hspelling key hkey]
  refine Check.bind_eq_ok.mpr ⟨after, hrun, ?_⟩
  rw [hparents, hsame]
  rfl

/-- A valid hierarchy that declarations make up is made up by its listing, too. -/
lemma ofDeclarationsValid_listing {declarations : List TypedName} {types : TypeHierarchy}
    (h : ofDeclarationsValid declarations = .ok types) :
    ofDeclarationsValid types.listing = .ok types := by
  obtain ⟨found, hfound, hrest⟩ := Check.bind_eq_ok.mp h
  obtain ⟨_, hvalid, hpure⟩ := Check.bind_eq_ok.mp hrest
  cases hpure
  unfold ofDeclarationsValid
  rw [ofDeclarations_listing hfound]
  exact hrest

end

end TypeHierarchy

end Pddl
