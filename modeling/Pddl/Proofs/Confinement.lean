import Pddl.Proofs.Comparison

/-!
# What readers depend on

A reader depends on the tokens that it reads and on the flags that are declared.  It depends neither
on the tokens behind those it reads nor on the notices left before.  With lenient settings the flags
matter only to expressions: for the readers of flat parts a flag that is not declared means a notice
and no more.  Of the declarations of a domain, the readers of predicates and of functions depend on
and change only the part that they add to.  `confinement` compares runs that differ in what does not
matter to readers, the deep ones of expressions or the others.
-/

namespace Pddl

/-! ### Cursors before the same tokens -/

namespace Cursor

/-- The cursor after some steps: the tokens still to come are the last ones of those before. -/
structure Leaves (cursor after : Cursor) : Prop where
  rest : after.rest <:+ cursor.rest
  failure : after.failure = cursor.failure
  endOffset : after.endOffset = cursor.endOffset

/-- Both cursors stand before the same tokens, except that the last ones to come are `behind` for
the one and `behind'` for the other. -/
structure Alike (behind behind' : List Token) (cursor other : Cursor) : Prop where
  current : other.current = cursor.current
  reserve : other.reserve = cursor.reserve
  rest : ∃ ts, cursor.rest = ts ++ behind ∧ other.rest = ts ++ behind'
  failure : other.failure = cursor.failure
  endOffset : other.endOffset = cursor.endOffset

variable {cursor after other : Cursor} {token : Token} {behind behind' : List Token}

/-- No step leaves the cursor before its tokens. -/
lemma Leaves.refl (cursor : Cursor) : cursor.Leaves cursor :=
  ⟨List.suffix_rfl, rfl, rfl⟩

/-- One step after another. -/
lemma Leaves.trans {between : Cursor} (h : cursor.Leaves between) (h' : between.Leaves after) :
    cursor.Leaves after :=
  ⟨h'.rest.trans h.rest, h'.failure.trans h.failure, h'.endOffset.trans h.endOffset⟩

/-- Pulling a token takes it from the tokens to come. -/
lemma leaves_of_pull (h : pull cursor = .ok token after) : cursor.Leaves after := by
  rcases pull_eq_ok.mp h with ⟨hrest, hafter⟩ | ⟨-, -, -, rfl⟩
  · refine ⟨?_, by rw [hafter], by rw [hafter]⟩
    rw [hrest]
    exact List.suffix_cons _ _
  · exact .refl _

/-- Looking ahead takes at most a token from the tokens to come. -/
lemma leaves_of_peek (h : peek cursor = .ok token after) : cursor.Leaves after := by
  rcases peek_cases.mp h with ⟨-, rfl⟩ | ⟨-, pulled, hpull, rfl⟩
  · exact .refl _
  · obtain ⟨hrest, hfailure, hend⟩ := leaves_of_pull hpull
    exact ⟨hrest, hfailure, hend⟩

/-- Moving on takes at most a token from the tokens to come. -/
lemma leaves_of_advance (h : advance cursor = .ok token after) : cursor.Leaves after := by
  obtain ⟨-, ⟨next, -, rfl⟩ | ⟨-, -, rfl⟩ | ⟨-, -, next, pulled, hpull, rfl⟩⟩ := advance_cases.mp h
  · exact ⟨List.suffix_rfl, rfl, rfl⟩
  · exact .refl _
  · obtain ⟨hrest, hfailure, hend⟩ := leaves_of_pull hpull
    exact ⟨hrest, hfailure, hend⟩

/-- Where the same tokens come, the same one is pulled; so is the end of the input. -/
lemma Alike.pull (halike : cursor.Alike behind behind' other)
    (hbehind : behind = [] → behind' = []) (h : pull cursor = .ok token after)
    (hlast : behind <:+ after.rest) :
    ∃ other', Cursor.pull other = .ok token other' ∧ after.Alike behind behind' other' := by
  obtain ⟨ts, hrest, hother⟩ := halike.rest
  rcases pull_eq_ok.mp h with ⟨hcons, hafter⟩ | ⟨hnil, hfailure, rfl, rfl⟩
  · obtain ⟨us, hus⟩ := hlast
    have hts : ts = token :: us := by
      rw [hrest, ← hus, ← List.cons_append] at hcons
      exact List.append_cancel_right hcons
    refine ⟨{ other with rest := us ++ behind' }, pull_eq_ok.mpr (Or.inl ⟨?_, rfl⟩), ?_⟩
    · rw [hother, hts]
      rfl
    · rw [hafter]
      exact { halike with rest := ⟨us, hus.symm, rfl⟩ }
  · rw [hnil] at hrest
    obtain ⟨rfl, rfl⟩ := List.append_eq_nil_iff.mp hrest.symm
    rw [hbehind rfl] at hother
    refine ⟨other, pull_eq_ok.mpr (Or.inr ⟨hother, ?_, ?_, rfl⟩), halike⟩
    · rw [halike.failure, hfailure]
    · rw [halike.endOffset]

/-- Where the same tokens come, a look ahead meets the same one. -/
lemma Alike.peek (halike : cursor.Alike behind behind' other)
    (hbehind : behind = [] → behind' = []) (h : peek cursor = .ok token after)
    (hlast : behind <:+ after.rest) :
    ∃ other', Cursor.peek other = .ok token other' ∧ after.Alike behind behind' other' := by
  rcases peek_cases.mp h with ⟨hreserve, rfl⟩ | ⟨hreserve, pulled, hpull, rfl⟩
  · exact ⟨other, peek_cases.mpr (Or.inl ⟨halike.reserve.trans hreserve, rfl⟩), halike⟩
  · obtain ⟨pulled', hpull', halike'⟩ := halike.pull hbehind hpull hlast
    exact ⟨_, peek_cases.mpr (Or.inr ⟨halike.reserve.trans hreserve, _, hpull', rfl⟩),
      { halike' with reserve := rfl }⟩

/-- Where the same tokens come, the same one is moved on to. -/
lemma Alike.advance (halike : cursor.Alike behind behind' other)
    (hbehind : behind = [] → behind' = []) (h : advance cursor = .ok token after)
    (hlast : behind <:+ after.rest) :
    ∃ other', Cursor.advance other = .ok token other' ∧ after.Alike behind behind' other' := by
  obtain ⟨rfl, ⟨next, hreserve, rfl⟩ | ⟨hreserve, hend, rfl⟩ |
    ⟨hreserve, hne, next, pulled, hpull, rfl⟩⟩ := advance_cases.mp h
  · refine ⟨_, advance_cases.mpr ⟨halike.current.symm, Or.inl ⟨next, ?_, rfl⟩⟩, ?_⟩
    · rw [halike.reserve, hreserve]
    · exact { halike with current := rfl, reserve := rfl }
  · refine ⟨other, advance_cases.mpr ⟨halike.current.symm, Or.inr (Or.inl ⟨?_, ?_, rfl⟩)⟩, halike⟩
    · rw [halike.reserve, hreserve]
    · rw [halike.current, hend]
  · obtain ⟨pulled', hpull', halike'⟩ := halike.pull hbehind hpull hlast
    refine ⟨_, advance_cases.mpr ⟨halike.current.symm,
      Or.inr (Or.inr ⟨?_, ?_, next, _, hpull', rfl⟩)⟩, { halike' with current := rfl }⟩
    · rw [halike.reserve, hreserve]
    · rwa [halike.current]

end Cursor

/-! ### Readers -/

namespace Reader

/-- The reader has kept the depth and, unless it is a deep one, the flags and an empty reserve. -/
structure State.Keeps (deep : Prop) (s s' : State) : Prop
    extends s.cursor.Leaves s'.cursor where
  depth : s'.depth = s.depth
  requirements : ¬ deep → s'.requirements = s.requirements
  reserve : ¬ deep → s.cursor.reserve = none → s'.cursor.reserve = none

/-- The states differ at most in the tokens behind and in the notices left, and in the flags unless
these are compared for a deep reader. -/
structure State.Alike (deep : Prop) (behind behind' : List Token) (s t : State) : Prop
    extends s.cursor.Alike behind behind' t.cursor where
  depth : t.depth = s.depth
  requirements : deep → t.requirements = s.requirements

/-- Nothing done, nothing lost. -/
lemma State.Keeps.refl {deep : Prop} (s : State) : s.Keeps deep s :=
  ⟨.refl _, rfl, fun _ => rfl, fun _ => id⟩

/-- The reader is to read a document with lenient settings. -/
structure Context.Lenient (c : Context) : Prop where
  capacity : c.capacity ≠ none
  settings : c.settings.strictRequirements = false

/-- Runs with lenient settings that do not get to the tokens behind are compared with runs that
differ in what does not matter to them. -/
def State.confinement (deep : Prop) (behind behind' : List Token) : Comparison State where
  cursor := State.cursor
  admits := Context.Lenient
  keeps := State.Keeps deep
  within := fun s => behind <:+ s.cursor.rest
  alike := State.Alike deep behind behind'
  keeps_refl := .refl
  keeps_trans := fun h h' => ⟨h.toLeaves.trans h'.toLeaves, h'.depth.trans h.depth,
    fun hdeep => (h'.requirements hdeep).trans (h.requirements hdeep),
    fun hdeep hnone => h'.reserve hdeep (h.reserve hdeep hnone)⟩

variable {deep : Prop} {behind behind' : List Token}

/-- A step of the cursor. -/
lemma confined_onCursor {α : Type} {step : CursorM α}
    (hshrinks : Shrinks State.cursor (onCursor step))
    (hleaves : ∀ {cursor a after}, step cursor = .ok a after → cursor.Leaves after)
    (hreserve : ¬ deep → ∀ {cursor a after}, step cursor = .ok a after → after.reserve = none)
    (hstep : ∀ {cursor other a after}, cursor.Alike behind behind' other →
      step cursor = .ok a after → behind <:+ after.rest →
        ∃ other', step other = .ok a other' ∧ after.Alike behind behind' other') :
    Mirrors (State.confinement deep behind behind') (onCursor step) where
  shrinks := hshrinks
  run := by
    intro c s a s' _ _ h
    obtain ⟨after, hrun, rfl⟩ := onCursor_eq_ok.mp h
    have hkeeps := hleaves hrun
    refine ⟨⟨hkeeps, rfl, fun _ => rfl, fun hdeep _ => hreserve hdeep hrun⟩,
      fun hlast => ⟨hlast.trans hkeeps.rest, fun t _ ht => ?_⟩⟩
    obtain ⟨other, hrun', halike⟩ := hstep ht.toAlike hrun hlast
    exact ⟨_, onCursor_eq_ok.mpr ⟨other, hrun', rfl⟩, halike, ht.depth, ht.requirements⟩

/-- A reader that at most leaves notices. -/
lemma confined_of_log {m : ReadM Unit} (hshrinks : Shrinks State.cursor m)
    (h : ∀ c s, c.settings.strictRequirements = false →
      ∃ log, m c s = .ok () { s with log := log }) :
    Mirrors (State.confinement deep behind behind') m := by
  refine .of_run hshrinks fun c s u s' hc hrun => ?_
  obtain ⟨log, hlog⟩ := h c s hc.settings
  rw [hlog] at hrun
  cases hrun
  refine ⟨⟨.refl _, rfl, fun _ => rfl, fun _ => id⟩, id, fun t ht => ?_⟩
  obtain ⟨log', hlog'⟩ := h c t hc.settings
  exact ⟨_, hlog', ht.toAlike, ht.depth, ht.requirements⟩

/-- With lenient settings, a breach is noted. -/
lemma report_of_lenient {c : Context} (hc : c.settings.strictRequirements = false) (s : State)
    (token : Token) (breach : Breach) :
    ∃ log, report token breach c s = .ok () { s with log := log } :=
  ⟨_, report_eq_ok.mpr ⟨hc, rfl⟩⟩

/-- With lenient settings, asking for a feature leaves a notice at most. -/
lemma require_of_lenient {c : Context} (hc : c.settings.strictRequirements = false) (s : State)
    (token : Token) (feature : Feature) :
    ∃ log, require token feature c s = .ok () { s with log := log } := by
  rw [require, bind_of_ok (get_eq_ok.mpr ⟨rfl, rfl⟩), bind_of_ok (read_eq_ok.mpr ⟨rfl, rfl⟩)]
  split
  · exact report_of_lenient hc s _ _
  · exact ⟨s.log, rfl⟩

/-- Readers of flat parts depend on the tokens that they read only. -/
lemma confined_flat (hbehind : behind = [] → behind' = []) (deep : Prop) :
    Flat (Mirrors (State.confinement deep behind behind')) where
  pure := .pure
  bind := .bind
  look := by
    intro α f hsame hf
    refine ⟨shrinks_compositional.look hsame fun s => (hf s).shrinks, ?_⟩
    intro c s a s' hc hv h
    obtain ⟨hkeeps, hrun⟩ := (hf s).run c s a s' hc hv h
    refine ⟨hkeeps, fun hlast => ⟨(hrun hlast).1, fun t ht halike => ?_⟩⟩
    change ∃ t', f t c t = _ ∧ _
    rw [hsame t s halike.current]
    exact (hrun hlast).2 t ht halike
  read := fun hstrict hlimit hcapacity hf =>
    ⟨shrinks_compositional.read hstrict hlimit hcapacity fun c => (hf c).shrinks,
      fun c s a s' hc hv h => (hf c).run c s a s' hc hv h⟩
  rounds := fun hcounted hloop => .loop hcounted.sufficient hloop
  throw := fun _ => .throw _
  advance := confined_onCursor shrinks_compositional.advance Cursor.leaves_of_advance
    (fun _ => Cursor.reserve_of_advance) fun halike h hlast => halike.advance hbehind h hlast
  require := fun token feature => confined_of_log (shrinks_compositional.require token feature)
    fun _ s hc => require_of_lenient hc s token feature
  report := fun token breach => confined_of_log (shrinks_compositional.report token breach)
    fun _ s hc => report_of_lenient hc s token breach
  note := fun notice hlevel => confined_of_log (shrinks_compositional.note notice hlevel)
    fun _ _ _ => ⟨_, rfl⟩

/-- All readers of documents depend on the tokens that they read and on the flags only. -/
lemma confined_compositional (hbehind : behind = [] → behind' = []) :
    Compositional (Mirrors (State.confinement True behind behind')) where
  toFlat := confined_flat hbehind True
  raise := .throw
  get := by
    intro α f hsame hf
    refine ⟨shrinks_compositional.get hsame fun s => (hf s).shrinks, ?_⟩
    intro c s a s' hc hv h
    obtain ⟨hkeeps, hrun⟩ := (hf s).run c s a s' hc hv h
    refine ⟨hkeeps, fun hlast => ⟨(hrun hlast).1, fun t ht halike => ?_⟩⟩
    change ∃ t', f t c t = _ ∧ _
    rw [hsame t s halike.current (halike.requirements True.intro)]
    exact (hrun hlast).2 t ht halike
  budget := by
    refine .of_run shrinks_compositional.budget fun c s n s' hc h => ?_
    obtain ⟨capacity, hsome⟩ := Option.ne_none_iff_exists'.mp hc.capacity
    have hbudget (t : State) : budget c t = .ok capacity t := by
      rw [budget_eq, hsome, Option.getD_some]
    rw [hbudget] at h
    cases h
    exact ⟨.refl _, id, fun t ht => ⟨t, hbudget t, ht⟩⟩
  peek := confined_onCursor shrinks_compositional.peek Cursor.leaves_of_peek
    (fun hdeep => absurd True.intro hdeep) fun halike h hlast => halike.peek hbehind h hlast
  nested := by
    intro α body hbody
    refine ⟨shrinks_compositional.nested hbody.shrinks, ?_⟩
    intro c s a s' hc hv h
    obtain ⟨hlimit, s₁, hrun, rfl⟩ := nested_eq_ok.mp h
    obtain ⟨hkeeps, hrun'⟩ := hbody.run c s.deeper a s₁ hc hv hrun
    have hdepth : s₁.higher.depth = s.depth := by
      rw [State.higher, hkeeps.depth]
      rfl
    refine ⟨⟨hkeeps.toLeaves, hdepth, fun hdeep => absurd True.intro hdeep,
      fun hdeep => absurd True.intro hdeep⟩, fun hlast => ?_⟩
    obtain ⟨hlast₀, hrun'⟩ := hrun' hlast
    refine ⟨hlast₀, fun t ht halike => ?_⟩
    have hdeeper : State.Alike True behind behind' s.deeper t.deeper :=
      ⟨halike.toAlike, by rw [State.deeper, State.deeper, halike.depth], halike.requirements⟩
    obtain ⟨t₁, hbody', halike₁⟩ := hrun' t.deeper ht hdeeper
    refine ⟨t₁.higher, nested_eq_ok.mpr ⟨?_, t₁, hbody', rfl⟩, halike₁.toAlike, ?_,
      halike₁.requirements⟩
    · rwa [halike.depth]
    · rw [State.higher, State.higher, halike₁.depth]
  declare := by
    intro flags
    refine .of_run (shrinks_compositional.declare flags) fun c s u s' _ h => ?_
    cases h
    refine ⟨⟨.refl _, rfl, fun hdeep => absurd True.intro hdeep, fun _ => id⟩, id, fun t ht => ?_⟩
    exact ⟨_, rfl, ht.toAlike, ht.depth,
      fun hdeep => congrArg (Text.union · flags) (ht.requirements hdeep)⟩

end Reader

/-! ### Parts of the declarations -/

namespace Declarations

open Assembly (SectionKind)

/-- What the sections of a kind declare, and nothing else. -/
def only (declared : Declarations) : SectionKind → Declarations
  | .requirements => { empty with requirements := declared.requirements }
  | .types =>
    { empty with typeDeclarations := declared.typeDeclarations, types := declared.types }
  | .constants => { empty with constants := declared.constants }
  | .predicates => { empty with predicates := declared.predicates }
  | .functions => { empty with functions := declared.functions }
  | .action | .durativeAction => { empty with actions := declared.actions }

/-- The declarations are the same in all parts for which `parts` holds. -/
def Agree (parts : SectionKind → Prop) (declared other : Declarations) : Prop :=
  ∀ kind, parts kind → other.only kind = declared.only kind

/-- Declarations that are the same in all parts are the same. -/
lemma eq_of_only {declared other : Declarations}
    (h : ∀ kind, other.only kind = declared.only kind) : other = declared := by
  obtain ⟨requirements, typeDeclarations, types, constants, predicates, functions, actions⟩ :=
    declared
  have hrequirements := congrArg Declarations.requirements (h .requirements)
  have htypeDeclarations := congrArg Declarations.typeDeclarations (h .types)
  have htypes := congrArg Declarations.types (h .types)
  have hconstants := congrArg Declarations.constants (h .constants)
  have hpredicates := congrArg Declarations.predicates (h .predicates)
  have hfunctions := congrArg Declarations.functions (h .functions)
  have hactions := congrArg Declarations.actions (h .action)
  cases hrequirements
  cases htypeDeclarations
  cases htypes
  cases hconstants
  cases hpredicates
  cases hfunctions
  cases hactions
  rfl

/-- The change is one of the parts for which `parts` holds, and depends on these only. -/
structure Touches (parts : SectionKind → Prop) (change : Declarations → Declarations) : Prop where
  own : ∀ {declared other}, Agree parts declared other →
    Agree parts (change declared) (change other)
  others : ∀ declared kind, ¬ parts kind → (change declared).only kind = declared.only kind

section

variable {parts : SectionKind → Prop}

/-- A change of one part, which the part alone determines. -/
lemma Touches.of_part {change : Declarations → Declarations} {kind : SectionKind}
    (hparts : parts kind)
    (hown : ∀ declared, (change declared).only kind = (change (declared.only kind)).only kind)
    (hothers : ∀ declared other, other ≠ kind →
      (change declared).only other = declared.only other) : Touches parts change where
  own := by
    intro declared other h part hpart
    by_cases hpart' : part = kind
    · subst hpart'
      rw [hown other, hown declared, h part hpart]
    · rw [hothers _ _ hpart', hothers _ _ hpart']
      exact h part hpart
  others := by
    intro declared part hpart
    refine hothers declared part ?_
    rintro rfl
    exact hpart hparts

/-- A change of the types. -/
lemma touches_types (hparts : parts .types) (listed : List TypedName → List TypedName)
    (types : TypeHierarchy → TypeHierarchy) :
    Touches parts fun declared =>
      { declared with
        typeDeclarations := listed declared.typeDeclarations
        types := types declared.types } := by
  refine .of_part hparts (fun _ => rfl) fun declared kind hkind => ?_
  cases kind with
  | types => exact absurd rfl hkind
  | _ => rfl

/-- A change of the constants. -/
lemma touches_constants (hparts : parts .constants) (change : List TypedName → List TypedName) :
    Touches parts fun declared => { declared with constants := change declared.constants } := by
  refine .of_part hparts (fun _ => rfl) fun declared kind hkind => ?_
  cases kind with
  | constants => exact absurd rfl hkind
  | _ => rfl

/-- A change of the predicates. -/
lemma touches_predicates (hparts : parts .predicates) (change : List Predicate → List Predicate) :
    Touches parts fun declared => { declared with predicates := change declared.predicates } := by
  refine .of_part hparts (fun _ => rfl) fun declared kind hkind => ?_
  cases kind with
  | predicates => exact absurd rfl hkind
  | _ => rfl

/-- A change of the functions. -/
lemma touches_functions (hparts : parts .functions) (change : List Function → List Function) :
    Touches parts fun declared => { declared with functions := change declared.functions } := by
  refine .of_part hparts (fun _ => rfl) fun declared kind hkind => ?_
  cases kind with
  | functions => exact absurd rfl hkind
  | _ => rfl

end

end Declarations

/-! ### Readers of domains -/

namespace Assembly

open Declarations (Agree Touches)
open Reader (Comparison Mirrors)

/-- The reader has kept all parts of the declarations but those for which `parts` holds. -/
structure Keeps (deep : Prop) (parts : SectionKind → Prop) (a a' : Assembly) : Prop
    extends Reader.State.Keeps deep a.toState a'.toState where
  declared : ∀ kind, ¬ parts kind → a'.declared.only kind = a.declared.only kind

/-- The states of readers of domains are alike as far as tokens go, and in the parts of the
declarations for which `parts` holds. -/
structure Alike (deep : Prop) (parts : SectionKind → Prop) (behind behind' : List Token)
    (a b : Assembly) : Prop
    extends toStateAlike : Reader.State.Alike deep behind behind' a.toState b.toState where
  declared : Agree parts a.declared b.declared

/-- Runs with lenient settings that do not get to the tokens behind are compared with runs that
differ in what does not matter to them, among it the other parts of the declarations. -/
def confinement (deep : Prop) (parts : SectionKind → Prop) (behind behind' : List Token) :
    Comparison Assembly where
  cursor := standpoint
  admits := Reader.Context.Lenient
  keeps := Keeps deep parts
  within := fun a => behind <:+ a.cursor.rest
  alike := Alike deep parts behind behind'
  keeps_refl := fun a => ⟨.refl a.toState, fun _ _ => rfl⟩
  keeps_trans := fun h h' =>
    ⟨(Reader.State.confinement deep behind behind').keeps_trans h.toKeeps h'.toKeeps,
      fun kind hkind => (h'.declared kind hkind).trans (h.declared kind hkind)⟩

variable {deep : Prop} {parts : SectionKind → Prop} {behind behind' : List Token} {α : Type}

/-- A reader that leaves the declarations alone. -/
lemma confined_ofReader {m : ReadM α}
    (hm : Mirrors (Reader.State.confinement deep behind behind') m) :
    Mirrors (confinement deep parts behind behind') (ofReader m) where
  shrinks := shrinks_ofReader hm.shrinks
  run := by
    intro c a x a' hc hv h
    obtain ⟨s', hrun, rfl⟩ := ofReader_eq_ok.mp h
    obtain ⟨hkeeps, hrun'⟩ := hm.run c a.toState x s' hc hv hrun
    refine ⟨⟨hkeeps, fun _ _ => rfl⟩, fun hlast => ⟨(hrun' hlast).1, fun b hb halike => ?_⟩⟩
    obtain ⟨t', hrun₁, halike₁⟩ := (hrun' hlast).2 b.toState hb halike.toStateAlike
    exact ⟨_, ofReader_eq_ok.mpr ⟨t', hrun₁, rfl⟩, halike₁, halike.declared⟩

/-- Changing the declarations. -/
lemma confined_declare {change : Declarations → Declarations} (hchange : Touches parts change) :
    Mirrors (confinement deep parts behind behind') (declare change) := by
  refine .of_run (shrinks_compositional.declare change) fun c a u a' _ h => ?_
  cases h
  refine ⟨⟨.refl _, hchange.others a.declared⟩, id, fun b hb => ?_⟩
  exact ⟨_, rfl, hb.toStateAlike, hchange.own hb.declared⟩

/-- What is done after a look at the declarations. -/
lemma confined_declared? {f : Declarations → AssembleM α}
    (hsame : ∀ {declared other}, Agree parts declared other → f other = f declared)
    (hf : ∀ declared, Mirrors (confinement deep parts behind behind') (f declared)) :
    Mirrors (confinement deep parts behind behind') (declared? >>= f) where
  shrinks := shrinks_compositional.bind shrinks_compositional.declared? fun d => (hf d).shrinks
  run := by
    intro c a x a' hc hv h
    obtain ⟨hkeeps, hrun⟩ := (hf a.declared).run c a x a' hc hv h
    refine ⟨hkeeps, fun hlast => ⟨(hrun hlast).1, fun b hb halike => ?_⟩⟩
    change ∃ b', f b.declared c b = _ ∧ _
    rw [hsame halike.declared]
    exact (hrun hlast).2 b hb halike

/-- Making a check. -/
lemma confined_check (outcome : Except Defect α) :
    Mirrors (confinement deep parts behind behind') (check outcome) := by
  cases outcome with
  | ok value => exact .pure value
  | error defect => exact .throw _

/-- All readers of domains depend on the tokens that they read, on the flags and on the declarations
only. -/
lemma confined_compositional :
    Compositional (Mirrors (Reader.State.confinement True behind behind'))
      (Mirrors (confinement True (fun _ => True) behind behind')) where
  pure := .pure
  bind := .bind
  throw := fun _ => .throw _
  ofReader := fun hm => confined_ofReader hm
  rounds := fun hcounted hloop => .loop hcounted.sufficient hloop
  declare := by
    intro change
    refine confined_declare ⟨fun {declared other} h => ?_, fun _ _ hkind => absurd True.intro hkind⟩
    rw [Declarations.eq_of_only fun kind => h kind True.intro]
    exact fun _ _ => rfl
  declared? := by
    refine .of_run shrinks_compositional.declared? fun c a x a' _ h => ?_
    cases h
    refine ⟨(confinement True _ behind behind').keeps_refl a, id, fun b hb => ⟨b, ?_, hb⟩⟩
    rw [← Declarations.eq_of_only fun kind => hb.declared kind True.intro]
    rfl

/-! ### Readers of predicates and functions -/

/-- Repeating a step. -/
lemma confined_whileFuel (hbehind : behind = [] → behind' = []) {test : Token → Bool}
    {step : AssembleM Unit} (hstep : Mirrors (confinement deep parts behind behind') step)
    (fuel : Nat) :
    Mirrors (confinement deep parts behind behind') (whileFuel test step fuel) := by
  have hR := Reader.confined_flat hbehind deep
  induction fuel with
  | zero => exact .pure _
  | succ fuel ih =>
    refine .bind (confined_ofReader hR.current) fun _ => ?_
    split
    · exact .bind hstep fun _ => ih
    · exact .pure _

/-- Declaring a predicate. -/
lemma confined_declarePredicate (hparts : parts .predicates) (token : Token)
    (params : List TypedName) :
    Mirrors (confinement deep parts behind behind') (declarePredicate token params) := by
  refine confined_declared? (fun {declared other} h => ?_) fun declared => ?_
  · have hsame : other.predicates = declared.predicates := by
      simpa [Declarations.only] using h .predicates hparts
    rw [hsame]
  · split
    · exact .throw _
    · exact confined_declare (Declarations.touches_predicates hparts (· ++ _))

/-- Reading and declaring a predicate. -/
lemma confined_predicate (hbehind : behind = [] → behind' = []) (hparts : parts .predicates) :
    Mirrors (confinement deep parts behind behind') predicate := by
  have hR := Reader.confined_flat hbehind deep
  exact .bind (confined_ofReader hR.skeleton) fun _ => confined_declarePredicate hparts _ _

/-- Declaring a function. -/
lemma confined_declareFunction (hparts : parts .functions) (returns : String)
    (skeleton : Token × List TypedName) :
    Mirrors (confinement deep parts behind behind') (declareFunction returns skeleton) := by
  refine confined_declared? (fun {declared other} h => ?_) fun declared => ?_
  · have hsame : other.functions = declared.functions := by
      simpa [Declarations.only] using h .functions hparts
    rw [hsame]
  · split
    · exact .throw _
    · exact confined_declare (Declarations.touches_functions hparts (· ++ _))

/-- Declaring functions. -/
lemma confined_declareFunctions (hparts : parts .functions) (returns : String)
    (skeletons : List (Token × List TypedName)) :
    Mirrors (confinement deep parts behind behind') (declareFunctions returns skeletons) := by
  induction skeletons with
  | nil => exact .pure _
  | cons skeleton rest ih => exact .bind (confined_declareFunction hparts _ _) fun _ => ih

/-- Reading and declaring groups of functions. -/
lemma confined_functionGroups (hbehind : behind = [] → behind' = []) (hparts : parts .functions)
    (fuel : Nat) : Mirrors (confinement deep parts behind behind') (functionGroups fuel) := by
  have hR := Reader.confined_flat hbehind deep
  induction fuel with
  | zero => exact .pure _
  | succ fuel ih =>
    refine .bind (confined_ofReader (hR.readWhile .skeleton hR.skeleton)) fun _ => ?_
    refine .bind (confined_ofReader hR.currentKind) fun _ => ?_
    split
    · split
      · exact confined_ofReader (hR.failHere _ nofun)
      · refine .bind (confined_ofReader hR.advance) fun _ => ?_
        refine .bind (confined_ofReader (hR.name _)) fun _ => ?_
        exact .bind (confined_declareFunctions hparts _ _) fun _ => ih
    · exact confined_declareFunctions hparts _ _

end Assembly

end Pddl
