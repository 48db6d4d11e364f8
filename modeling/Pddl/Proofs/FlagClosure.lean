import Mathlib.Data.Finset.Filter
import Mathlib.Data.Finset.Lattice.Lemmas
import Pddl.Proofs.DeclaredFeatures

/-!
# Expansion is a closure

Opening flags ends with the least set that has the flags and all that they imply, so expansion is a
closure operator (`IsClosureOperator`), for any way of making flags small.  It takes unions to
unions, which is why the sections of a domain may be read one at a time: between any two of them the
flags that hold are `:strips` and what all flags listed so far expand to
(`expansion_closes_sections`).
-/

namespace Pddl

namespace Requirement

/-! ### The closure -/

/-- What flags expand to if `lower` makes them small. -/
def expandUnder (lower : String → String) (flags : List String) : List String :=
  expandFrom [] (flags.map lower)

/-- The set of what flags expand to. -/
def closure (lower : String → String) (flags : List String) : Finset String :=
  (expandUnder lower flags).toFinset

/-- A way of making flags small: it does nothing to what is small, as implied flags are. -/
structure MakesSmall (lower : String → String) : Prop where
  twice : ∀ text, lower (lower text) = lower text
  implied : ∀ entry ∈ compounds, ∀ flag ∈ entry.2, lower flag = flag

/-- Folding makes flags small. -/
lemma fold_makesSmall : MakesSmall fold where
  twice := fold_fold
  implied := by decide +kernel

variable {lower : String → String} {flag : String} {flags flags' : List String}
  {closed : Finset String}

/-- Expanded flags are an expansion of the small ones. -/
lemma isExpansion_expandUnder (lower : String → String) (flags : List String) :
    IsExpansion (flags.map lower) (expandUnder lower flags) :=
  OpenRound.isExpansion (OpenRound.expandFrom_run _ _)

/-- Flags are in their closure when they are made small. -/
lemma subset_closure : (flags.map lower).toFinset ⊆ closure lower flags :=
  fun _ hflag => List.mem_toFinset.mpr
    ((isExpansion_expandUnder lower flags).first (List.mem_toFinset.mp hflag))

/-- The closure has what its flags imply. -/
lemma implied_subset_closure (h : flag ∈ closure lower flags) :
    (implied flag).toFinset ⊆ closure lower flags :=
  fun _ hother => List.mem_toFinset.mpr
    ((isExpansion_expandUnder lower flags).implied flag (List.mem_toFinset.mp h)
      (List.mem_toFinset.mp hother))

/-- The closure is in every set that has the small flags and what its flags imply. -/
lemma closure_subset (hclosed : ∀ flag ∈ closed, (implied flag).toFinset ⊆ closed)
    (hflags : (flags.map lower).toFinset ⊆ closed) : closure lower flags ⊆ closed := by
  have hleast := (isExpansion_expandUnder lower flags).least closed.toList ?_ ?_
  · exact fun flag hflag => Finset.mem_toList.mp (hleast (List.mem_toFinset.mp hflag))
  · intro flag hflag other hother
    exact Finset.mem_toList.mpr
      (hclosed flag (Finset.mem_toList.mp hflag) (List.mem_toFinset.mpr hother))
  · exact fun flag hflag => Finset.mem_toList.mpr (hflags (List.mem_toFinset.mpr hflag))

/-- More flags have a larger closure. -/
lemma closure_mono (h : (flags.map lower).toFinset ⊆ (flags'.map lower).toFinset) :
    closure lower flags ⊆ closure lower flags' :=
  closure_subset (fun _ => implied_subset_closure) (h.trans subset_closure)

/-- The closure of flags of two lists is the union of both closures. -/
lemma closure_append (flags flags' : List String) :
    closure lower (flags ++ flags') = closure lower flags ∪ closure lower flags' := by
  have happend : ((flags ++ flags').map lower).toFinset =
      (flags.map lower).toFinset ∪ (flags'.map lower).toFinset := by
    rw [List.map_append, List.toFinset_append]
  refine Finset.Subset.antisymm (closure_subset (fun flag hflag => ?_) ?_)
    (Finset.union_subset ?_ ?_)
  · rcases Finset.mem_union.mp hflag with hflag | hflag
    · exact (implied_subset_closure hflag).trans Finset.subset_union_left
    · exact (implied_subset_closure hflag).trans Finset.subset_union_right
  · rw [happend]
    exact Finset.union_subset_union subset_closure subset_closure
  · exact closure_mono (happend ▸ Finset.subset_union_left)
  · exact closure_mono (happend ▸ Finset.subset_union_right)

/-- The flags of a closure are small. -/
lemma MakesSmall.of_mem_closure (h : MakesSmall lower) (hflag : flag ∈ closure lower flags) :
    lower flag = flag := by
  have himplied {compound other : String} (hother : other ∈ Requirement.implied compound) :
      lower other = other := by
    rw [Requirement.implied] at hother
    cases hlookup : compounds.lookup compound with
    | none => simp [hlookup] at hother
    | some flags =>
      rw [hlookup, Option.getD_some] at hother
      exact h.implied (compound, flags) (Table.mem_of_lookup hlookup) other hother
  -- The small flags of the closure have what they imply, so they are all of it.
  have hsmall :
      closure lower flags ⊆ (closure lower flags).filter fun flag => lower flag = flag := by
    refine closure_subset (fun compound hcompound other hother => ?_) fun other hother => ?_
    · have hmem := implied_subset_closure (Finset.mem_filter.mp hcompound).1 hother
      exact Finset.mem_filter.mpr ⟨hmem, himplied (List.mem_toFinset.mp hother)⟩
    · obtain ⟨text, -, rfl⟩ := List.mem_map.mp (List.mem_toFinset.mp hother)
      exact Finset.mem_filter.mpr ⟨subset_closure hother, h.twice text⟩
  exact (Finset.mem_filter.mp (hsmall hflag)).2

/-- The closure of expanded flags is that of the flags. -/
lemma MakesSmall.closure_expandUnder (h : MakesSmall lower) (flags : List String) :
    closure lower (expandUnder lower flags) = closure lower flags := by
  have hsmall : (expandUnder lower flags).map lower = expandUnder lower flags :=
    (List.map_congr_left fun _ hflag => h.of_mem_closure (List.mem_toFinset.mpr hflag)).trans
      (List.map_id _)
  refine Finset.Subset.antisymm (closure_subset (fun _ => implied_subset_closure) ?_) ?_
  · rw [hsmall, closure]
  · have hself : ((expandUnder lower flags).map lower).toFinset ⊆
        closure lower (expandUnder lower flags) := subset_closure
    rwa [hsmall] at hself

/-- What is said of expansion as an operator on sets of flags: opening flags ends in any order, and
always with the same flags, which are the least ones closed under implication; they depend on the
set of small flags only; and the operator is extensive, monotone and idempotent, and takes unions to
unions. -/
structure IsClosureOperator (lower : String → String) : Prop where
  ends : WellFounded fun s' s => OpenRound s s'
  runs : ∀ flags,
    Relation.ReflTransGen OpenRound ([], flags.map lower) (expandUnder lower flags, [])
  result : ∀ flags s, Relation.ReflTransGen OpenRound ([], flags.map lower) s →
    (¬ ∃ s', OpenRound s s') → s.1.Perm (expandUnder lower flags)
  least : ∀ flags, IsExpansion (flags.map lower) (expandUnder lower flags)
  depends : ∀ flags flags', (flags.map lower).toFinset = (flags'.map lower).toFinset →
    closure lower flags = closure lower flags'
  extensive : ∀ flags, (flags.map lower).toFinset ⊆ closure lower flags
  monotone : ∀ flags flags', (flags.map lower).toFinset ⊆ (flags'.map lower).toFinset →
    closure lower flags ⊆ closure lower flags'
  idempotent : ∀ flags, closure lower (expandUnder lower flags) = closure lower flags
  union : ∀ flags flags',
    closure lower (flags ++ flags') = closure lower flags ∪ closure lower flags'

/-- Expansion is a closure operator. -/
lemma MakesSmall.isClosureOperator (h : MakesSmall lower) : IsClosureOperator lower where
  ends := OpenRound.wellFounded
  runs := fun _ => OpenRound.expandFrom_run _ _
  result := by
    rintro flags ⟨opened, frontier⟩ hrun hover
    rw [OpenRound.exists_iff, ne_eq, not_not] at hover
    obtain rfl : frontier = [] := hover
    exact (OpenRound.isExpansion hrun).perm (isExpansion_expandUnder lower flags)
  least := isExpansion_expandUnder lower
  depends := fun _ _ hsame =>
    Finset.Subset.antisymm (closure_mono hsame.subset) (closure_mono hsame.superset)
  extensive := fun _ => subset_closure
  monotone := fun _ _ => closure_mono
  idempotent := h.closure_expandUnder
  union := closure_append

end Requirement

namespace Assembly

open Reader (Upholds HasFlags)
open Requirement (closure expandUnder)

variable {c : Reader.Context} {a a' : Assembly} {flags listed : List String}

/-! ### Sections without flags -/

/-- The flags that hold and those that are listed. -/
def HoldsFlags (flags listed : List String) (a : Assembly) : Prop :=
  a.requirements = flags ∧ a.declared.requirements = listed

/-- A reader that leaves the declarations alone. -/
lemma holdsFlags_ofReader {α : Type} {m : ReadM α}
    (hm : Upholds c (HasFlags flags) m fun _ => True) :
    Upholds c (HoldsFlags flags listed) (ofReader m) fun _ => True := by
  intro a x a' ha h
  obtain ⟨s', hrun, rfl⟩ := ofReader_eq_ok.mp h
  exact ⟨⟨(hm a.toState x s' ha.1 hrun).1, ha.2⟩, True.intro⟩

/-- A change of other declarations. -/
lemma holdsFlags_declare {change : Declarations → Declarations}
    (h : ∀ declared : Declarations, (change declared).requirements = declared.requirements) :
    Upholds c (HoldsFlags flags listed) (declare change) fun _ => True := by
  intro a u a' ha hrun
  cases hrun
  exact ⟨⟨ha.1, (h a.declared).trans ha.2⟩, True.intro⟩

/-- A look at the declarations. -/
lemma holdsFlags_declared? : Upholds c (HoldsFlags flags listed) declared? fun _ => True := by
  intro a declared a' ha hrun
  cases hrun
  exact ⟨ha, True.intro⟩

/-- A check. -/
lemma holdsFlags_check {α : Type} (outcome : Except Defect α) :
    Upholds c (HoldsFlags flags listed) (check outcome) fun _ => True := by
  intro a x a' ha hrun
  obtain ⟨-, rfl⟩ := check_eq_ok.mp hrun
  exact ⟨ha, True.intro⟩

/-- Declaring functions. -/
lemma holdsFlags_declareFunctions (returns : String) (skeletons : List (Token × List TypedName)) :
    Upholds c (HoldsFlags flags listed) (declareFunctions returns skeletons) fun _ => True := by
  induction skeletons with
  | nil => exact .pure True.intro
  | cons skeleton rest ih =>
    have hfirst : Upholds c (HoldsFlags flags listed) (declareFunction returns skeleton)
        fun _ => True := by
      refine .bind holdsFlags_declared? fun _ _ => ?_
      split
      · exact .throw _
      · exact holdsFlags_declare fun _ => rfl
    exact .bind hfirst fun _ _ => ih

/-- Adding an action. -/
lemma holdsFlags_addAction (action : Action) :
    Upholds c (HoldsFlags flags listed) (addAction action) fun _ => True := by
  refine .bind holdsFlags_declared? fun _ _ => .bind (holdsFlags_check _) fun _ _ => ?_
  refine .bind (holdsFlags_declare fun _ => rfl) fun _ _ => ?_
  exact holdsFlags_ofReader ((Reader.upholds_stepwise c flags).note _ (by simp [Notice.level]))

/-- Reading predicates. -/
lemma holdsFlags_predicate : Upholds c (HoldsFlags flags listed) predicate fun _ => True := by
  refine .bind (holdsFlags_ofReader (Reader.upholds_stepwise c flags).skeleton) fun _ _ => ?_
  refine .bind holdsFlags_declared? fun _ _ => ?_
  split
  · exact .throw _
  · exact holdsFlags_declare fun _ => rfl

/-- Reading functions. -/
lemma holdsFlags_functionList : Upholds c (HoldsFlags flags listed) functionList fun _ => True := by
  have hS := Reader.upholds_stepwise c flags
  have hfuel (fuel : Nat) :
      Upholds c (HoldsFlags flags listed) (functionGroups fuel) fun _ => True := by
    induction fuel with
    | zero => exact .pure True.intro
    | succ fuel ih =>
      refine .bind (holdsFlags_ofReader (hS.readWhile .skeleton hS.skeleton)) fun _ _ => ?_
      refine .bind (holdsFlags_ofReader hS.currentKind) fun _ _ => ?_
      split
      · split
        · exact holdsFlags_ofReader .failHere
        · refine .bind (holdsFlags_ofReader hS.advance) fun _ _ => ?_
          refine .bind (holdsFlags_ofReader (hS.name _)) fun _ _ => ?_
          exact .bind (holdsFlags_declareFunctions _ _) fun _ _ => ih
      · exact holdsFlags_declareFunctions _ _
  exact fun a u a' ha h => hfuel _ a u a' ha h

/-- Readers of expressions and actions declare no flags either. -/
lemma upholds_expressive (c : Reader.Context) (flags : List String) :
    Reader.Expressive fun m => Upholds c (HasFlags flags) m fun _ => True :=
  Reader.Descending.expressive
    { Reader.upholds_stepwise c flags with
      nested := .nested
      raise := .throw }
    Reader.upholds_budget

/-- All sections but those of requirements leave the flags alone. -/
lemma holdsFlags_sectionOf {kind : SectionKind} (hkind : kind ≠ .requirements) :
    Upholds c (HoldsFlags flags listed) (sectionOf kind) fun _ => True := by
  have hL := upholds_expressive c flags
  have hclose (expected : String) : Upholds c (HoldsFlags flags listed)
      (do let _ ← ofReader (Reader.expect .closeParen expected)) fun _ => True :=
    .bind (holdsFlags_ofReader (hL.expect _ _)) fun _ _ => .pure True.intro
  cases kind with
  | requirements => exact absurd rfl hkind
  | types =>
    refine .bind (holdsFlags_ofReader hL.advance) fun _ _ => ?_
    refine .bind (holdsFlags_ofReader (hL.typedList _ _)) fun _ _ => ?_
    refine .bind (holdsFlags_declare fun _ => rfl) fun _ _ => ?_
    refine .bind holdsFlags_declared? fun _ _ => .bind (holdsFlags_check _) fun _ _ => ?_
    exact .bind (holdsFlags_declare fun _ => rfl) fun _ _ => hclose _
  | constants =>
    refine .bind (holdsFlags_ofReader hL.advance) fun _ _ => ?_
    refine .bind (holdsFlags_ofReader (hL.typedList _ _)) fun _ _ => ?_
    exact .bind (holdsFlags_declare fun _ => rfl) fun _ _ => hclose _
  | predicates =>
    refine .bind (holdsFlags_ofReader hL.advance) fun _ _ => ?_
    exact .bind (upholds_repeatWhile holdsFlags_predicate) fun _ _ => hclose _
  | functions =>
    refine .bind (holdsFlags_ofReader hL.advance) fun _ _ => ?_
    refine .bind (holdsFlags_ofReader (hL.require _ _)) fun _ _ => ?_
    exact .bind holdsFlags_functionList fun _ _ => hclose _
  | action => exact .bind (holdsFlags_ofReader hL.action) fun _ _ => holdsFlags_addAction _
  | durativeAction =>
    exact .bind (holdsFlags_ofReader hL.durativeAction) fun _ _ => holdsFlags_addAction _

/-! ### Flags between sections -/

/-- The flags that hold are `:strips` and what the listed flags expand to. -/
def IsClosed (a : Assembly) : Prop :=
  a.requirements.toFinset = insert ":strips" (Requirement.expand a.declared.requirements).toFinset

/-- A section that is read keeps flags closed. -/
lemma IsClosed.sectionOf {kind : SectionKind} (h : a.IsClosed)
    (hrun : Assembly.sectionOf kind c a = .ok () a') : a'.IsClosed := by
  by_cases hkind : kind = .requirements
  · subst hkind
    obtain ⟨listed, a₁, hlift, hdeclare⟩ := Reader.bind_eq_ok.mp hrun
    obtain ⟨s', hread, rfl⟩ := lift_eq_ok.mp hlift
    cases hdeclare
    have hunion (old new : List String) : (Text.union old new).toFinset = (old ++ new).toFinset :=
      Finset.ext fun flag => by
        rw [List.mem_toFinset, List.mem_toFinset, Text.mem_union, List.mem_append]
    -- Expansion takes the union of what is listed to the union of what it expands to.
    have hexpand : (Requirement.expand (Text.union a.declared.requirements listed)).toFinset =
        (Requirement.expand a.declared.requirements).toFinset ∪
          (Requirement.expand listed).toFinset := by
      refine Eq.trans ?_ (@Requirement.closure_append fold _ _)
      refine Requirement.fold_makesSmall.isClosureOperator.depends _ _ ?_
      ext flag
      simp only [List.mem_toFinset, List.mem_map, Text.mem_union, List.mem_append]
    change s'.requirements.toFinset = insert ":strips"
      (Requirement.expand (Text.union a.declared.requirements listed)).toFinset
    rw [Reader.requirements_unions hread, hunion, List.toFinset_append, hexpand,
      ← Finset.insert_union]
    exact congrArg (· ∪ (Requirement.expand listed).toFinset) h
  · obtain ⟨⟨hflags, hlisted⟩, -⟩ := holdsFlags_sectionOf hkind a () a' ⟨rfl, rfl⟩ hrun
    rw [IsClosed, hflags, hlisted]
    exact h

/-- The states of the reader of a domain after its heading and so many sections. -/
inductive SectionsRead (settings : Settings) (text : String) (capacity : Nat) :
    Nat → Assembly → Prop
  | heading {cursor : Cursor} {name : String} {a a' : Assembly} :
      Cursor.ofText text = .ok cursor →
      ofReader (Reader.header "domain" "a domain name") (.document settings true capacity)
        (ofCursor cursor) = .ok name a →
      ofReader (Reader.note (.domainStarted name)) (.document settings true capacity) a =
        .ok () a' →
      SectionsRead settings text capacity 0 a'
  | another {n : Nat} {a a' : Assembly} : SectionsRead settings text capacity n a →
      Reader.hasKind .openParen a.cursor.current = true →
      (do
        let _ ← liftM Reader.openParen
        anySection : AssembleM Unit) (.document settings true capacity) a = .ok () a' →
      SectionsRead settings text capacity (n + 1) a'

variable {settings : Settings} {text : String} {capacity n : Nat}

/-- The sections that are read are the first groups after the heading, and what is declared is
written in them. -/
lemma SectionsRead.passes (h : SectionsRead settings text capacity n a) :
    ∃ ts, (scan text).tokens.drop 6 = ts ++ a.cursor.upcoming ∧ a.cursor.Valid ∧
      (groups ts).length = n ∧ WrittenGroups ts a.declared := by
  induction h with
  | @heading cursor name a a' hcursor hheader hnote =>
    obtain ⟨hv, hupcoming, -⟩ := Cursor.of_ofText hcursor
    obtain ⟨s, hrun, rfl⟩ := ofReader_eq_ok.mp hheader
    obtain ⟨opening, heading, -, -, hlength, hconsumes⟩ := Reader.header_consumes hv hrun
    cases hnote
    refine ⟨[], ?_, hconsumes.valid, rfl, .nil, Declarations.empty_sound,
      Declarations.empty_writtenIn⟩
    have hdrop : 6 = (opening :: heading).length := by rw [List.length_cons, hlength]
    rw [← hupcoming, hdrop]
    exact (congrArg _ hconsumes.upcoming).trans List.drop_left
  | @another n a a' _ _ hrun ih =>
    obtain ⟨ts, htokens, hv, hlength, hwritten⟩ := ih
    obtain ⟨us, hpasses, hgroup, hwritten'⟩ := section_passes hv hwritten hrun
    refine ⟨ts ++ us, ?_, hpasses.valid, ?_, hwritten'⟩
    · rw [htokens, hpasses.upcoming, List.append_assoc]
    · rw [groups_append hwritten.1, groups_group hgroup, List.length_append, hlength]
      rfl

/-- Between sections flags are closed. -/
lemma SectionsRead.isClosed (h : SectionsRead settings text capacity n a) : a.IsClosed := by
  induction h with
  | @heading cursor name a a' hcursor hheader hnote =>
    have hS := Reader.upholds_stepwise (.document settings true capacity) initialRequirements
    obtain ⟨ha, -⟩ :=
      holdsFlags_ofReader (hS.header _ _) (ofCursor cursor) name a ⟨rfl, rfl⟩ hheader
    obtain ⟨⟨hflags, hlisted⟩, -⟩ :=
      holdsFlags_ofReader (hS.note _ (by simp [Notice.level])) a () a' ha hnote
    have hempty : Requirement.expand [] = [] := by decide +kernel
    rw [IsClosed, hflags, hlisted, show (ofCursor cursor).declared.requirements = [] from rfl,
      hempty]
    rfl
  | @another n a a' hread _ hrun ih =>
    obtain ⟨-, -, hv, -⟩ := hread.passes
    obtain ⟨opening, s₁, kind, -, hconsumes, -, -, hsection⟩ := section_eq_ok hv hrun
    have hopened : IsClosed { a with toState := s₁ } := by
      rw [IsClosed, hconsumes.requirements]
      exact ih
    exact hopened.sectionOf hsection

/-- The flags that are listed are those of the sections that are read. -/
lemma SectionsRead.mem_requirements (h : SectionsRead settings text capacity n a) (flag : String) :
    flag ∈ a.declared.requirements ↔
      flag ∈ declaredIn .requirements flagKeys ((Domain.parts text).take n) := by
  obtain ⟨ts, htokens, -, hlength, hbalanced, -, hwritten⟩ := h.passes
  rw [Domain.parts, htokens, groups_append hbalanced, ← hlength, List.take_left]
  exact hwritten.requirements flag

/-- The loop over the sections of a domain goes through these states, to the last section. -/
lemma SectionsRead.repeatWhile (h : SectionsRead settings text capacity n a)
    (hrun : Assembly.repeatWhile (Reader.hasKind .openParen) (do
      let _ ← liftM Reader.openParen
      anySection) (.document settings true capacity) a = .ok () a') :
    ∃ n', SectionsRead settings text capacity n' a' := by
  replace hrun := repeatWhile_repeatsStep hrun
  induction hrun generalizing n with
  | stop a => exact ⟨n, h⟩
  | next htest hone _ ih => exact ih (h.another htest hone)

/-- A domain that is read has the flags that are listed when all of its sections are read. -/
lemma exists_sectionsRead {domain : Domain}
    (h : (Domain.parse settings text capacity).result = .ok domain) :
    ∃ a, SectionsRead settings text capacity (Domain.parts text).length a ∧
      a.declared.requirements = domain.requirements := by
  obtain ⟨cursor, a', hcursor, hrun⟩ := Domain.parse_eq_ok.mp h
  simp only [domain_eq, sections, Reader.bind_eq_ok, Reader.pure_eq_ok] at hrun
  obtain ⟨_, _, ⟨_, a₁, hheader, _, a₂, hnote, _, a₃, hsections, rfl, rfl⟩, closing, a₄, hclose,
    _, a₅, hend, hconclude⟩ := hrun
  obtain ⟨n, hread⟩ := SectionsRead.repeatWhile (.heading hcursor hheader hnote) hsections
  obtain ⟨ts, htokens, hv, hlength, hwritten⟩ := hread.passes
  obtain ⟨hkind, hsame, hpasses⟩ := expect_close hv hclose
  obtain ⟨s₂, -, rfl⟩ := lift_eq_ok.mp hend
  obtain ⟨types, -, rfl, -⟩ := conclude_eq_ok.mp hconclude
  have hparts : Domain.parts text = groups ts := by
    rw [Domain.parts, htokens, hpasses.upcoming, List.singleton_append, groups_append hwritten.1,
      groups_cons_close hkind, List.append_nil]
  refine ⟨a₃, ?_, (congrArg Declarations.requirements hsame).symm⟩
  rwa [hparts, hlength]

/-- Expansion is a closure operator, for every way of making flags small, of which folding is one.
The sections of a domain may therefore declare their flags one at a time: after any number of
sections, the flags that hold are `:strips` and what the flags of all of these sections expand to,
and a domain that is read has gone through these states to its last section. -/
theorem expansion_closes_sections {lower : String → String} (h : Requirement.MakesSmall lower) :
    Requirement.IsClosureOperator lower ∧ Requirement.expand = expandUnder fold ∧
      (∀ settings text capacity n a, SectionsRead settings text capacity n a →
        a.IsClosed ∧
        (∀ flag, flag ∈ a.declared.requirements ↔
          flag ∈ declaredIn .requirements flagKeys ((Domain.parts text).take n)) ∧
        a.requirements.toFinset = insert ":strips" (Requirement.expand
          (declaredIn .requirements flagKeys ((Domain.parts text).take n))).toFinset) ∧
      ∀ settings text capacity domain, (Domain.parse settings text capacity).result = .ok domain →
        ∃ a, SectionsRead settings text capacity (Domain.parts text).length a ∧
          a.declared.requirements = domain.requirements := by
  refine ⟨h.isClosureOperator, rfl, fun settings text capacity n a hread => ?_,
    fun _ _ _ _ => exists_sectionsRead⟩
  refine ⟨hread.isClosed, hread.mem_requirements, hread.isClosed.trans (congrArg _ ?_)⟩
  refine Requirement.fold_makesSmall.isClosureOperator.depends _ _ ?_
  ext flag
  simp only [List.mem_toFinset, List.mem_map, hread.mem_requirements]

/-- A domain that declares its flags in two sections, with a section between them. -/
def splitFlagsText : String :=
  "(define (domain d) (:requirements :UCPOP) (:predicates (p)) (:requirements :fluents :typing))"

/-- After three sections the flags that hold are those of both of its sections of requirements, with
what they imply over several steps. -/
theorem expansion_closes_sections_split :
    Requirement.MakesSmall fold ∧
      ∃ a, SectionsRead .lenient splitFlagsText Reader.documentCapacity 3 a ∧
      a.requirements.toFinset =
        insert ":strips" (Requirement.expand [":ucpop", ":fluents", ":typing"]).toFinset ∧
      ":existential-preconditions" ∈ a.requirements ∧ ":numeric-fluents" ∈ a.requirements := by
  obtain ⟨-, -, hflags, hdomains⟩ := expansion_closes_sections Requirement.fold_makesSmall
  have hparse : (Domain.parse .lenient splitFlagsText).result.toOption.isSome = true := by
    decide +kernel
  obtain ⟨domain, hdomain⟩ := Option.isSome_iff_exists.mp hparse
  obtain ⟨a, hread, -⟩ := hdomains _ _ _ domain (Check.toOption_eq_some.mp hdomain)
  have hlength : (Domain.parts splitFlagsText).length = 3 := by decide +kernel
  rw [hlength] at hread
  obtain ⟨-, -, hset⟩ := hflags _ _ _ _ a hread
  have hlisted : declaredIn .requirements flagKeys ((Domain.parts splitFlagsText).take 3) =
      [":ucpop", ":fluents", ":typing"] := by
    decide +kernel
  rw [hlisted] at hset
  refine ⟨Requirement.fold_makesSmall, a, hread, hset, ?_, ?_⟩
  · rw [← List.mem_toFinset, hset]
    decide +kernel
  · rw [← List.mem_toFinset, hset]
    decide +kernel

end Assembly

end Pddl
