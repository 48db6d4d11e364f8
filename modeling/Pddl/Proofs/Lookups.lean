import Pddl.Proofs.Disguise
import Pddl.Proofs.Soundness
import Pddl.Proofs.TypeListing

/-!
# Look-ups find what they look for

A hierarchy of types is built with look-ups in tables: for the spelling of a type in a message, and
for the parent of a type on the way to the root.  Here is the same construction with look-ups that
fail with a `Fault` of their own if the key is missing, and with a walk to the root that fails if it
is not over in time.  Neither happens for any declarations: the checked construction yields the same
hierarchy, or the same defect (`ofDeclarationsChecked_eq`, `ofDeclarationsValidChecked_eq`).

Likewise, a word on which a form is read always spells the member of the enumeration that the form
is built with (`wordsSpellMembers`).
-/

namespace Pddl

/-- Why a checked construction stops: a key is missing in a table, a walk is not over in time, or
the declarations have a defect. -/
inductive Fault
  | missing (key : String)
  | unfinished
  | defect (defect : Defect)

/-- The value of a key that must be in the table. -/
def Table.find {α : Type} (table : Table α) (key : String) : Except Fault α :=
  match table.lookup key with
  | some value => .ok value
  | none => .error (.missing key)

/-- A key that is in the table is found. -/
lemma Table.find_eq {α : Type} {table : Table α} {key : String} {value : α}
    (h : table.lookup key = some value) : table.find key = .ok value := by
  unfold Table.find
  rw [h]

/-- The defect of a sequence is the defect of one of its parts. -/
lemma Fault.mapError_bind {α β : Type} (outcome : Except Defect α) (f : α → Except Defect β) :
    (outcome >>= f).mapError Fault.defect =
      outcome.mapError Fault.defect >>= fun a => (f a).mapError Fault.defect := by
  cases outcome with
  | ok a => rfl
  | error defect => rfl

namespace TypeHierarchy

open Folding (lower)

/-! ### Declarations -/

section

variable [Folding]

/-- Declares a type with a parent, and looks up the spelling of another parent that it has. -/
def Draft.declareChecked (draft : Draft) (type parent : String) : Except Fault Draft :=
  let typeKey := lower type
  let parentKey := lower parent
  if typeKey = rootType then
    if parentKey = rootType then .ok draft else .error (.defect .rootWithParent)
  else
    let spellings := draft.spellings.putNew typeKey type
    let declared : Draft :=
      ⟨draft.parents.put typeKey parentKey, spellings.putNew parentKey parent⟩
    match draft.parents.lookup typeKey with
    | none => .ok declared
    | some existing =>
      if parentKey = rootType then
        .ok { draft with spellings := spellings }
      else if existing = parentKey || existing = rootType then
        .ok declared
      else do
        let spelling ← Table.find spellings existing
        .error (.defect (.conflictingParents type spelling parent))

/-- Declares a typed name, whose type is its parent. -/
def Draft.addChecked (draft : Draft) (declaration : TypedName) : Except Fault Draft :=
  match declaration.type with
  | .named parent => draft.declareChecked declaration.name parent
  | .either _ => .error (.defect (.eitherParent declaration.name declaration.type))

/-- The hierarchy of a list of declarations, with checked look-ups. -/
def ofDeclarationsChecked (declarations : List TypedName) : Except Fault TypeHierarchy := do
  let draft ← declarations.foldlM Draft.addChecked Draft.start
  return ofTables draft.parents draft.spellings

/-- The parent that a type has already is spelled. -/
lemma Draft.WellSpelled.declareChecked_eq {draft : Draft} (h : draft.WellSpelled)
    (type parent : String) :
    draft.declareChecked type parent = (draft.declare type parent).mapError .defect := by
  unfold Draft.declareChecked Draft.declare
  dsimp only
  by_cases hroot : lower type = rootType
  · rw [if_pos hroot, if_pos hroot]
    split
    · rfl
    · rfl
  · rw [if_neg hroot, if_neg hroot]
    cases hlookup : draft.parents.lookup (lower type) with
    | none => rfl
    | some existing =>
      dsimp only
      split
      · rfl
      split
      · rfl
      · -- The other parent was spelled when it was declared, and spellings are kept.
        have hmentions : Mentions draft.parents existing :=
          Or.inr ⟨_, Table.mem_of_lookup hlookup, Or.inr rfl⟩
        obtain ⟨spelling, hspelling⟩ := (h.respell type).spelled existing hmentions
        dsimp only at hspelling
        rw [Table.find_eq hspelling, hspelling]
        rfl

/-- The look-ups of a declaration succeed. -/
lemma Draft.WellSpelled.addChecked_eq {draft : Draft} (h : draft.WellSpelled)
    (declaration : TypedName) :
    draft.addChecked declaration = (draft.add declaration).mapError .defect := by
  obtain ⟨name, type⟩ := declaration
  cases type with
  | named parent => exact h.declareChecked_eq name parent
  | either options => rfl

/-- The look-ups of declarations succeed. -/
lemma Draft.WellSpelled.foldlM_checked_eq (declarations : List TypedName) :
    ∀ {draft : Draft}, draft.WellSpelled → declarations.foldlM Draft.addChecked draft =
      (declarations.foldlM Draft.add draft).mapError .defect := by
  induction declarations with
  | nil => exact fun _ => rfl
  | cons declaration rest ih =>
    intro draft h
    rw [List.foldlM_cons, List.foldlM_cons, Fault.mapError_bind, h.addChecked_eq]
    cases hadd : draft.add declaration with
    | error defect => rfl
    | ok next => exact ih (h.add hadd)

/-- The look-ups of every list of declarations succeed. -/
lemma ofDeclarationsChecked_eq (declarations : List TypedName) :
    ofDeclarationsChecked declarations = (ofDeclarations declarations).mapError .defect := by
  unfold ofDeclarationsChecked ofDeclarations
  rw [Fault.mapError_bind, Draft.start_wellSpelled.foldlM_checked_eq]
  rfl

end

/-! ### Validity -/

/-- Follows the parents of the last type of a chain up to the root, and looks up each parent.  A
chain that meets one of its own types again is spelled. -/
def followChecked (types : TypeHierarchy) : Nat → List String → String → Except Fault Unit
  | 0, _, _ => .error .unfinished
  | fuel + 1, chain, current =>
    if current = rootType then .ok ()
    else do
      let parent ← Table.find types.parents current
      if parent ∈ chain then
        let spellings ← (chain ++ [parent]).mapM (Table.find types.spellings)
        .error (.defect (.cycle spellings))
      else
        followChecked types fuel (chain ++ [parent]) parent

/-- Checks the parents one after the other, with checked look-ups. -/
def validateChecked (types : TypeHierarchy) : Except Fault Unit :=
  match types.orphan? with
  | some (type, parent) => do
    let typeSpelling ← Table.find types.spellings type
    let parentSpelling ← Table.find types.spellings parent
    .error (.defect (.undeclaredParent typeSpelling parentSpelling))
  | none =>
    forM types.parents fun entry =>
      types.followChecked (types.parents.length + 1) [entry.1] entry.1

/-- The valid hierarchy of a list of declarations, with checked look-ups. -/
def ofDeclarationsValidChecked [Folding] (declarations : List TypedName) :
    Except Fault TypeHierarchy := do
  let types ← ofDeclarationsChecked declarations
  types.validateChecked
  return types

/-- Every type that occurs is spelled. -/
def SpellsAll (types : TypeHierarchy) : Prop :=
  ∀ key, Mentions types.parents key → ∃ spelling, types.spellings.lookup key = some spelling

/-- A hierarchy of declarations spells every type that occurs. -/
lemma spellsAll_of_ofDeclarations [Folding] {declarations : List TypedName} {types : TypeHierarchy}
    (h : ofDeclarations declarations = .ok types) : types.SpellsAll := by
  obtain ⟨draft, -, hdraft⟩ := Check.bind_eq_ok.mp h
  cases hdraft
  exact fun key hkey => ⟨_, lookup_spellings_ofTables hkey⟩

section Validity

variable {types : TypeHierarchy}

/-- The look-up of the spelling of a type that occurs. -/
lemma SpellsAll.find_eq (h : types.SpellsAll) {key : String} (hkey : Mentions types.parents key) :
    Table.find types.spellings key = .ok (types.spelling key) := by
  obtain ⟨spelling, hspelling⟩ := h key hkey
  unfold TypeHierarchy.spelling
  rw [Table.find_eq hspelling, hspelling]
  rfl

/-- The look-ups of the spellings of types that occur. -/
lemma SpellsAll.mapM_find_eq (h : types.SpellsAll) {keys : List String}
    (hkeys : ∀ key ∈ keys, Mentions types.parents key) :
    keys.mapM (Table.find types.spellings) = .ok (keys.map types.spelling) := by
  induction keys with
  | nil => rfl
  | cons key rest ih =>
    rw [List.mapM_cons, h.find_eq (hkeys key List.mem_cons_self),
      ih fun other hother => hkeys other (List.mem_cons_of_mem _ hother)]
    rfl

/-- The defect of a cycle, if there is one. -/
def cycleDefect (types : TypeHierarchy) : Option (List String) → Except Fault Unit
  | some chain => .error (.defect (.cycle (chain.map types.spelling)))
  | none => .ok ()

/-- What a walk meets is mentioned. -/
lemma IsWalk.mentions {chain : List String} {current : String} (h : types.IsWalk chain current) :
    ∀ key ∈ chain, Mentions types.parents key := by
  intro key hkey
  rcases List.mem_cons.mp (h.known key hkey) with hroot | hmem
  · exact Or.inl hroot
  · obtain ⟨entry, hentry, rfl⟩ := List.mem_map.mp hmem
    exact Or.inr ⟨entry, hentry, Or.inl rfl⟩

/-- A walk is over in time, and finds every parent and every spelling on its way. -/
lemma followChecked_eq (hparents : types.KnowsParents) (hspells : types.SpellsAll) :
    ∀ (fuel : Nat) (chain : List String) (current : String), types.IsWalk chain current →
      types.parents.length + 1 < chain.length + fuel →
      types.followChecked fuel chain current =
        types.cycleDefect (types.cycleFrom fuel chain current) := by
  intro fuel
  induction fuel with
  | zero =>
    -- A chain that is as long as there are types, and meets none of them twice, is at its end.
    intro chain current hwalk hlength
    have hle := hwalk.length_le
    omega
  | succ fuel ih =>
    intro chain current hwalk hlength
    unfold followChecked cycleFrom
    by_cases hroot : current = rootType
    · rw [if_pos hroot, if_pos hroot]
      rfl
    rw [if_neg hroot, if_neg hroot]
    obtain ⟨parent, hlookup⟩ := hwalk.exists_parent hroot
    rw [Table.find_eq hlookup, hlookup]
    change (if parent ∈ chain then _ else _) = cycleDefect types (if parent ∈ chain then _ else _)
    by_cases hcycle : parent ∈ chain
    · rw [if_pos hcycle, if_pos hcycle, hspells.mapM_find_eq]
      · rfl
      · intro key hkey
        rcases List.mem_append.mp hkey with hkey | hkey
        · exact hwalk.mentions key hkey
        · rw [List.mem_singleton.mp hkey]
          exact Or.inr ⟨_, Table.mem_of_lookup hlookup, Or.inr rfl⟩
    · rw [if_neg hcycle, if_neg hcycle]
      apply ih _ _ (hwalk.step hparents hlookup hcycle)
      rw [List.length_append, List.length_singleton]
      omega

/-- The walks from types, one after the other, find the first cycle. -/
lemma forM_followChecked_eq (hparents : types.KnowsParents) (hspells : types.SpellsAll)
    {entries : Table String} (hentries : ∀ entry ∈ entries, entry ∈ types.parents) :
    (forM entries fun entry => types.followChecked (types.parents.length + 1) [entry.1] entry.1) =
      types.cycleDefect (entries.findSome? fun entry =>
        types.cycleFrom (types.parents.length + 1) [entry.1] entry.1) := by
  induction entries with
  | nil => rfl
  | cons entry rest ih =>
    have hwalk := IsWalk.start (hentries entry List.mem_cons_self)
    have hfirst := followChecked_eq hparents hspells (types.parents.length + 1) _ _ hwalk
      (by rw [List.length_singleton]; omega)
    have hrest := ih fun other hother => hentries other (List.mem_cons_of_mem _ hother)
    rw [List.forM_cons, hfirst, hrest, List.findSome?_cons]
    cases types.cycleFrom (types.parents.length + 1) [entry.1] entry.1 with
    | none => rfl
    | some chain => rfl

/-- The look-ups of the checks succeed. -/
lemma SpellsAll.validateChecked_eq (h : types.SpellsAll) :
    types.validateChecked = types.validate.mapError .defect := by
  unfold validateChecked validate
  cases horphan : types.orphan? with
  | some entry =>
    have hmem := List.mem_of_find?_eq_some horphan
    dsimp only
    rw [h.find_eq (Or.inr ⟨entry, hmem, Or.inl rfl⟩), h.find_eq (Or.inr ⟨entry, hmem, Or.inr rfl⟩)]
    rfl
  | none =>
    dsimp only
    rw [forM_followChecked_eq (knowsParents_of_orphan? horphan) h fun _ hentry => hentry]
    unfold cycle?
    cases types.parents.findSome? _ with
    | none => rfl
    | some chain => rfl

end Validity

/-- The look-ups of every list of declarations and of its checks succeed. -/
lemma ofDeclarationsValidChecked_eq [Folding] (declarations : List TypedName) :
    ofDeclarationsValidChecked declarations =
      (ofDeclarationsValid declarations).mapError .defect := by
  unfold ofDeclarationsValidChecked ofDeclarationsValid
  rw [Fault.mapError_bind, ofDeclarationsChecked_eq]
  cases htypes : ofDeclarations declarations with
  | error defect => rfl
  | ok types =>
    change (types.validateChecked >>= fun _ => pure types) =
      (types.validate >>= fun _ => pure types).mapError .defect
    rw [Fault.mapError_bind, (spellsAll_of_ofDeclarations htypes).validateChecked_eq]
    rfl

end TypeHierarchy

/-! ### Words and enumerations -/

/-- The words on which forms are read spell the members of the enumerations that the forms are built
with.  A time is found by a look ahead, and spelled by the two words that are consumed after it. -/
structure WordsSpellMembers : Prop where
  quantifier : ∀ key quantifier, Head.ofKey key = .quantifier quantifier →
    Quantifier.ofText? key = some quantifier
  update : ∀ key op, Head.ofKey key = .update op → UpdateOp.ofText? key = some op
  compare : ∀ word op, CompareOp.ofText? word = some op → op.text = word
  arith : ∀ word op, ArithOp.ofText? word = some op → op.text = word
  direction : ∀ key direction, Direction.ofText? key = some direction → direction.text = key
  time : ∀ (c : Reader.Context) (s s₁ s₂ s₃ : Reader.State) (time : TimeSpec)
    (first second : Token), s.cursor.Valid → s.cursor.current.kind = .name →
    Reader.timeAhead? c s = .ok (some time) s₁ → Reader.advance c s₁ = .ok first s₂ →
    Reader.advance c s₂ = .ok second s₃ → time.text = first.key ++ " " ++ second.key

/-- The words of a time are the words that it is found by. -/
lemma TimeSpec.text_of_ofWords? {first second : String} {time : TimeSpec}
    (h : ofWords? first second = some time) : time.text = first ++ " " ++ second := by
  unfold ofWords? at h
  split at h <;> cases h <;> rfl

/-- The two words that are consumed after a look ahead are those that it has seen. -/
lemma Reader.text_of_timeAhead? {c : Context} {s s₁ s₂ s₃ : State} {time : TimeSpec}
    {first second : Token} (hv : s.cursor.Valid) (hkind : s.cursor.current.kind = .name)
    (hahead : timeAhead? c s = .ok (some time) s₁) (hfirst : advance c s₁ = .ok first s₂)
    (hsecond : advance c s₂ = .ok second s₃) : time.text = first.key ++ " " ++ second.key := by
  obtain ⟨hc, hcurrent, hfound, -⟩ := timeAhead?_sound hv hkind hahead
  obtain ⟨next, rest, hupcoming, hnext, hwords⟩ := hfound time rfl
  have hne : s₁.cursor.current.kind ≠ .endOfInput := by
    rw [hcurrent, hkind]
    decide
  obtain ⟨hfirst, hc₁⟩ := advance_consumes hc.valid hfirst hne
  have hrest : s₂.cursor.upcoming = next :: rest := by
    have hpassed : s.cursor.upcoming = first :: s₂.cursor.upcoming :=
      hc.upcoming.trans hc₁.upcoming
    rw [hupcoming] at hpassed
    exact (List.cons.inj hpassed).2.symm
  have hnow := hc₁.valid.current_of_upcoming hrest
  obtain ⟨hsecond, -⟩ := advance_consumes hc₁.valid hsecond (by rw [hnow, hnext]; decide)
  rw [hfirst, hsecond, hcurrent, hnow]
  exact TimeSpec.text_of_ofWords? hwords

/-- The words of all forms spell members of their enumerations. -/
lemma wordsSpellMembers : WordsSpellMembers where
  quantifier := by
    intro key quantifier h
    unfold Head.ofKey at h
    split at h <;> cases h <;> rfl
  update := by
    intro key op h
    unfold Head.ofKey at h
    split at h <;> cases h <;> rfl
  compare := fun _ _ h => (CompareOp.ofText?_eq_some_iff.mp h).symm
  arith := fun _ _ h => (ArithOp.ofText?_eq_some_iff.mp h).symm
  direction := by
    intro key direction h
    unfold Direction.ofText? at h
    split at h <;> cases h <;> rfl
  time := fun _ _ _ _ _ _ _ _ hv hkind hahead hfirst hsecond =>
    Reader.text_of_timeAhead? hv hkind hahead hfirst hsecond

end Pddl
