import Pddl.Proofs.Tracing
import Pddl.Proofs.TypeForest

/-!
# Readers of domains trace their failures

Besides the failures of its parts, the reader of a domain meets the defects that its checks find.
Only the repetition of a symbol has a place, and that is the place of a name that has been passed
before: every declared predicate and function is named by a token that has been passed (`NamedIn`),
so the repeated name is the second of two tokens of the text with the same key.
-/

namespace Pddl

/-! ### Defects without a place -/

/-- The token at which a defect is found, if it is found at one. -/
def Defect.token? : Defect → Option Token
  | .duplicate _ token => some token
  | _ => none

/-- A check finds no defect that has a place. -/
def Check.FindsNoToken {α : Type} (outcome : Except Defect α) : Prop :=
  ∀ defect, outcome = .error defect → defect.token? = none

namespace Check.FindsNoToken

variable {α β : Type}

/-- A check that succeeds. -/
lemma ok (a : α) : FindsNoToken (.ok a) := by
  rintro defect ⟨⟩

/-- A check that fails without a place. -/
lemma error {defect : Defect} (h : defect.token? = none) :
    FindsNoToken (.error defect : Except Defect α) := by
  rintro _ ⟨⟩
  exact h

/-- One check after another. -/
lemma bind {outcome : Except Defect α} {f : α → Except Defect β} (h : FindsNoToken outcome)
    (hf : ∀ a, FindsNoToken (f a)) : FindsNoToken (outcome >>= f) := by
  cases outcome with
  | ok a => exact hf a
  | error defect => exact fun _ heq => h _ (by cases heq; rfl)

/-- A list of checks. -/
lemma each {check : α → Except Defect Unit} (h : ∀ a, FindsNoToken (check a)) (xs : List α) :
    FindsNoToken (each check xs) := by
  induction xs with
  | nil => exact ok ()
  | cons x rest ih => exact (h x).bind fun _ => ih

/-- The check of types. -/
lemma declaredTypes (types : TypeHierarchy) (site : Site) (entities : List TypedName) :
    FindsNoToken (declaredTypes types site entities) := by
  refine each (fun entity => each (fun type => ?_) _) _
  split
  · exact ok ()
  · exact error rfl

/-- The check of a reference. -/
lemma reference (predicates : List Predicate) (functions : List Function) (site : Site)
    (found : Atom × Bool) : FindsNoToken (reference predicates functions site found) := by
  unfold Check.reference
  dsimp only
  split
  · split
    · exact ok ()
    · exact error rfl
  · split
    · exact ok ()
    · exact error rfl

/-- The check of an action. -/
lemma actionReferences (types : TypeHierarchy) (predicates : List Predicate)
    (functions : List Function) (action : Action) :
    FindsNoToken (actionReferences types predicates functions action) := by
  refine (declaredTypes _ _ _).bind fun _ => each (fun body => bind (each (fun e => ?_) _) ?_) _
  · unfold quantifierTypes
    split
    · exact declaredTypes _ _ _
    · exact ok ()
  · exact fun _ => each (reference _ _ _) _

/-- The check of the types of a domain. -/
lemma domainTypes (domain : Domain) : FindsNoToken (domainTypes domain) := by
  refine (declaredTypes _ _ _).bind fun _ =>
    (each (fun _ => declaredTypes _ _ _) _).bind fun _ => ?_
  refine each (fun function => (declaredTypes _ _ _).bind fun _ => ?_) _
  unfold returnType
  split
  · exact ok ()
  · exact error rfl

/-- A declaration of a type. -/
lemma add (draft : TypeHierarchy.Draft) (declaration : TypedName) :
    FindsNoToken (draft.add declaration) := by
  unfold TypeHierarchy.Draft.add
  split
  · unfold TypeHierarchy.Draft.declare
    dsimp only
    split
    · split
      · exact ok _
      · exact error rfl
    · split
      · exact ok _
      · split
        · exact ok _
        · split
          · exact ok _
          · exact error rfl
  · exact error rfl

/-- The hierarchy of declarations. -/
lemma ofDeclarations (declarations : List TypedName) :
    FindsNoToken (TypeHierarchy.ofDeclarations declarations) := by
  have hfold : ∀ draft : TypeHierarchy.Draft,
      FindsNoToken (declarations.foldlM TypeHierarchy.Draft.add draft) := by
    induction declarations with
    | nil => exact fun draft => ok draft
    | cons declaration rest ih => exact fun draft => (add draft declaration).bind fun _ => ih _
  exact (hfold _).bind fun _ => ok _

/-- The valid hierarchy of declarations. -/
lemma ofDeclarationsValid (declarations : List TypedName) :
    FindsNoToken (TypeHierarchy.ofDeclarationsValid declarations) := by
  refine (ofDeclarations declarations).bind fun hierarchy => bind ?_ fun _ => ok _
  unfold TypeHierarchy.validate
  split
  · exact error rfl
  · split
    · exact error rfl
    · exact ok ()

end Check.FindsNoToken

/-! ### Names that have been passed -/

/-- Every declared predicate and function is named by one of the tokens. -/
structure Declarations.NamedIn (declared : Declarations) (passed : List Token) : Prop where
  predicates : ∀ predicate ∈ declared.predicates,
    ∃ token ∈ passed, token.kind = .name ∧ token.text = predicate.name
  functions : ∀ function ∈ declared.functions,
    ∃ token ∈ passed, token.kind = .name ∧ token.text = function.name

namespace Declarations.NamedIn

variable {declared : Declarations} {passed : List Token} {token : Token}

/-- Nothing is declared. -/
lemma empty : Declarations.empty.NamedIn [] where
  predicates := by simp [Declarations.empty]
  functions := by simp [Declarations.empty]

/-- A predicate that the next token names is added. -/
lemma addPredicate (h : declared.NamedIn passed) (hkind : token.kind = .name)
    (params : List TypedName) :
    NamedIn { declared with predicates := declared.predicates ++ [⟨token.text, params⟩] }
      (passed ++ [token]) where
  predicates := by
    intro predicate hmem
    rcases List.mem_append.mp hmem with hmem | hmem
    · obtain ⟨earlier, hearlier, hname⟩ := h.predicates predicate hmem
      exact ⟨earlier, List.mem_append_left _ hearlier, hname⟩
    · obtain rfl := List.mem_singleton.mp hmem
      exact ⟨token, List.mem_append_right _ (List.mem_singleton_self _), hkind, rfl⟩
  functions := by
    intro function hmem
    obtain ⟨earlier, hearlier, hname⟩ := h.functions function hmem
    exact ⟨earlier, List.mem_append_left _ hearlier, hname⟩

/-- A function that the next token names is added. -/
lemma addFunction (h : declared.NamedIn passed) (hkind : token.kind = .name)
    (params : List TypedName) (returns : String) :
    NamedIn { declared with functions := declared.functions ++ [⟨token.text, params, returns⟩] }
      (passed ++ [token]) where
  predicates := by
    intro predicate hmem
    obtain ⟨earlier, hearlier, hname⟩ := h.predicates predicate hmem
    exact ⟨earlier, List.mem_append_left _ hearlier, hname⟩
  functions := by
    intro function hmem
    rcases List.mem_append.mp hmem with hmem | hmem
    · obtain ⟨earlier, hearlier, hname⟩ := h.functions function hmem
      exact ⟨earlier, List.mem_append_left _ hearlier, hname⟩
    · obtain rfl := List.mem_singleton.mp hmem
      exact ⟨token, List.mem_append_right _ (List.mem_singleton_self _), hkind, rfl⟩

end Declarations.NamedIn

/-- The defects that reading a domain can find.  One that has a place is the repetition of a name:
an earlier token has the same key. -/
inductive Domain.Finds (text : String) : Failure → Prop
  | duplicate {earlier token : Token} (kind : SymbolKind) :
      [earlier, token].Sublist (scan text).tokens → earlier.kind = .name → token.kind = .name →
      earlier.key = token.key → Finds text (.invalid (.duplicate kind token))
  | unplaced {defect : Defect} : defect.token? = none → Finds text (.invalid defect)

namespace Assembly

open Reader (Ends)

variable {text : String} {passed tokens : List Token} {α β : Type}

/-- The cursor stands before the last tokens of a text, the passed tokens come before them, and
these name what is declared. -/
structure StandsAt (text : String) (passed tokens : List Token) (a : Assembly) : Prop where
  cursor : a.cursor.StandsBefore text tokens
  sublist : (passed ++ tokens).Sublist (scan text).tokens
  named : a.declared.NamedIn passed

/-- Behind the passed tokens and before the other ones, the reader fails as the text or a defect of
the domain accounts for, or yields a value and goes on behind and before tokens that meet `Q`. -/
def TracesFrom (text : String) (passed tokens : List Token) (m : AssembleM α)
    (Q : α → List Token → List Token → Prop) : Prop :=
  ∀ c a, a.StandsAt text passed tokens → Ends (Failure.Arises text (Domain.Finds text))
    (fun x a' => ∃ passed' rest, a'.StandsAt text passed' rest ∧ Q x passed' rest) (m c a)

/-- Anywhere in a text, the reader fails as the text or a defect of the domain accounts for, or goes
on. -/
def Traces (text : String) (m : AssembleM α) : Prop :=
  ∀ passed tokens, TracesFrom text passed tokens m fun _ _ _ => True

/-! ### Steps -/

/-- Returning a value. -/
lemma TracesFrom.pure {x : α} {Q : α → List Token → List Token → Prop} (h : Q x passed tokens) :
    TracesFrom text passed tokens (pure x) Q :=
  fun _ _ ha => ⟨passed, tokens, ha, h⟩

/-- A sequence goes on where its first part stops. -/
lemma TracesFrom.bind {m : AssembleM α} {f : α → AssembleM β}
    {Q : α → List Token → List Token → Prop} {R : β → List Token → List Token → Prop}
    (hm : TracesFrom text passed tokens m Q)
    (hf : ∀ x passed' rest, Q x passed' rest → TracesFrom text passed' rest (f x) R) :
    TracesFrom text passed tokens (m >>= f) R := by
  intro c a ha
  refine (hm c a ha).bind ?_
  rintro x a' ⟨passed', rest, ha', hx⟩
  exact hf x passed' rest hx c a' ha'

/-- What holds after a reader, weakened. -/
lemma TracesFrom.mono {m : AssembleM α} {Q R : α → List Token → List Token → Prop}
    (h : TracesFrom text passed tokens m Q)
    (hQ : ∀ x passed' rest, Q x passed' rest → R x passed' rest) :
    TracesFrom text passed tokens m R := by
  intro c a ha
  refine (h c a ha).mono ?_
  rintro x a' ⟨passed', rest, ha', hx⟩
  exact ⟨passed', rest, ha', hQ x passed' rest hx⟩

/-- A sequence, anywhere. -/
lemma Traces.bind {m : AssembleM α} {f : α → AssembleM β} (hm : Traces text m)
    (hf : ∀ x, Traces text (f x)) : Traces text (m >>= f) :=
  fun passed tokens => (hm passed tokens).bind fun x passed' rest _ => hf x passed' rest

/-- A reader that leaves the declarations alone. -/
lemma TracesFrom.ofReader {m : ReadM α} {Q : α → List Token → Prop}
    (hm : Reader.TracesFrom text (Domain.Finds text) tokens m Q) :
    TracesFrom text passed tokens (Assembly.ofReader m) fun x passed' rest =>
      passed' = passed ∧ rest <:+ tokens ∧ Q x rest := by
  intro c a ha
  rw [ofReader_eq_mapState]
  refine Ends.mapState ((hm c a.toState ha.cursor).mono ?_)
  rintro x s ⟨rest, hrest, hs, hx⟩
  have hsublist : (passed ++ rest).Sublist (passed ++ tokens) := hrest.sublist.append_left passed
  exact ⟨passed, rest, ⟨hs, hsublist.trans ha.sublist, ha.named⟩, rfl, hrest, hx⟩

/-- A reader that leaves the declarations alone, anywhere. -/
lemma Traces.ofReader {m : ReadM α} {K : α → Prop}
    (hm : Reader.Traces text (Domain.Finds text) m K) : Traces text (Assembly.ofReader m) :=
  fun _ tokens => (TracesFrom.ofReader (hm tokens)).mono fun _ _ _ _ => trivial

/-- A step that keeps its place and the names. -/
lemma TracesFrom.of_still {m : AssembleM α}
    (h : ∀ c a, ∃ x a', m c a = .ok x a' ∧ a'.cursor = a.cursor ∧
      (a.declared.NamedIn passed → a'.declared.NamedIn passed)) :
    TracesFrom text passed tokens m fun _ passed' rest => passed' = passed ∧ rest = tokens := by
  intro c a ha
  obtain ⟨x, a', hrun, hcursor, hnamed⟩ := h c a
  rw [hrun]
  exact ⟨passed, tokens, ⟨hcursor ▸ ha.cursor, ha.sublist, hnamed ha.named⟩, rfl, rfl⟩

/-- Going on after a step that keeps its place. -/
lemma TracesFrom.bind_still {m : AssembleM α} {f : α → AssembleM β}
    {R : β → List Token → List Token → Prop}
    (hm : TracesFrom text passed tokens m fun _ passed' rest => passed' = passed ∧ rest = tokens)
    (hf : ∀ x, TracesFrom text passed tokens (f x) R) :
    TracesFrom text passed tokens (m >>= f) R := by
  refine hm.bind fun x passed' rest h => ?_
  obtain ⟨rfl, rfl⟩ := h
  exact hf x

/-- A step of a reader that keeps its place. -/
lemma TracesFrom.still_ofReader {m : ReadM α}
    (hm : Reader.TracesFrom text (Domain.Finds text) tokens m fun _ rest => rest = tokens) :
    TracesFrom text passed tokens (Assembly.ofReader m) fun _ passed' rest =>
      passed' = passed ∧ rest = tokens :=
  (ofReader hm).mono fun _ _ _ h => ⟨h.1, h.2.2⟩

/-- Asking for the declarations. -/
lemma declared?_tracesFrom : TracesFrom text passed tokens declared? fun _ passed' rest =>
    passed' = passed ∧ rest = tokens :=
  .of_still fun _ a => ⟨a.declared, a, rfl, rfl, id⟩

/-- Changing the declarations without changing the symbols. -/
lemma declare_tracesFrom {change : Declarations → Declarations}
    (hpredicates : ∀ declared, (change declared).predicates = declared.predicates)
    (hfunctions : ∀ declared, (change declared).functions = declared.functions) :
    TracesFrom text passed tokens (declare change) fun _ passed' rest =>
      passed' = passed ∧ rest = tokens := by
  refine .of_still fun _ a => ⟨(), { a with declared := change a.declared }, rfl, rfl, fun h => ?_⟩
  constructor
  · rw [hpredicates]
    exact h.predicates
  · rw [hfunctions]
    exact h.functions

/-- Going on after a change of the declarations that keeps the symbols. -/
lemma TracesFrom.declare_bind {change : Declarations → Declarations} {f : Unit → AssembleM β}
    {R : β → List Token → List Token → Prop}
    (hpredicates : ∀ declared, (change declared).predicates = declared.predicates)
    (hfunctions : ∀ declared, (change declared).functions = declared.functions)
    (hf : TracesFrom text passed tokens (f ()) R) :
    TracesFrom text passed tokens (declare change >>= f) R :=
  (declare_tracesFrom hpredicates hfunctions).bind_still fun _ => hf

/-- Failing at the current token. -/
lemma failHere_traces (expected : String) (cause : Cause) :
    Traces text (Assembly.ofReader (Reader.failHere expected cause : ReadM α)) :=
  fun _ _ => (TracesFrom.ofReader (Reader.failHere_tracesFrom expected cause)).mono
    fun _ _ _ h => h.2.2

/-- Making a check. -/
lemma check_tracesFrom {outcome : Except Defect α} (h : Check.FindsNoToken outcome) :
    TracesFrom text passed tokens (check outcome) fun _ passed' rest =>
      passed' = passed ∧ rest = tokens := by
  cases outcome with
  | ok x => exact .pure ⟨rfl, rfl⟩
  | error defect => exact fun _ _ _ => .other (.unplaced (h defect rfl))

/-! ### Predicates and functions -/

/-- Reading a declaration passes its name. -/
lemma skeleton_tracesFrom {other : Failure → Prop} :
    Reader.TracesFrom text other tokens skeleton fun found rest =>
      found.1.kind = .name ∧ (found.1 :: rest).Sublist tokens := by
  refine (Reader.expect_tracesFrom (by decide) _).bind fun opening rest₁ _ h => ?_
  obtain ⟨-, -, rfl⟩ := h
  refine (Reader.expect_tracesFrom (by decide) _).bind fun name rest₂ _ h => ?_
  obtain ⟨-, hname, rfl⟩ := h
  refine (Reader.typedList_traces _ _ rest₂).bind fun params rest₃ h₃ _ => ?_
  refine (Reader.closeParen_traces rest₃).bind fun closing rest₄ h₄ _ => .pure ⟨hname, ?_⟩
  exact ((h₄.trans h₃).sublist.cons_cons name).cons opening

/-- Reading declarations passes their names. -/
lemma skeletons_tracesFrom {other : Failure → Prop} {test : Token → Bool} (fuel : Nat) :
    ∀ tokens, Reader.TracesFrom text other tokens (Reader.whileFuel test skeleton fuel)
      fun found rest => (∀ name ∈ found.map Prod.fst, name.kind = .name) ∧
        (found.map Prod.fst ++ rest).Sublist tokens := by
  induction fuel with
  | zero => exact fun tokens => .pure ⟨by simp, List.Sublist.refl _⟩
  | succ fuel ih =>
    intro tokens
    refine Reader.current_tracesFrom.bind fun token rest _ h => ?_
    obtain ⟨-, -, rfl⟩ := h
    split
    · refine skeleton_tracesFrom.bind fun first rest₁ _ h => ?_
      obtain ⟨hkind, hfirst⟩ := h
      refine (ih rest₁).bind fun others rest₂ _ h => .pure ⟨?_, ?_⟩
      · rw [List.map_cons, List.forall_mem_cons]
        exact ⟨hkind, h.1⟩
      · rw [List.map_cons, List.cons_append]
        exact (h.2.cons_cons _).trans hfirst
    · exact .pure ⟨by simp, List.Sublist.refl _⟩

/-- A name that has been declared is the repetition of one that has been passed. -/
lemma finds_duplicate {token : Token} {rest : List Token} {name : String} (kind : SymbolKind)
    (hnamed : ∃ earlier ∈ passed, earlier.kind = .name ∧ earlier.text = name)
    (hname : fold name = fold token.text) (hkind : token.kind = .name)
    (hsublist : (passed ++ token :: rest).Sublist (scan text).tokens) :
    Domain.Finds text (.invalid (.duplicate kind token)) := by
  obtain ⟨earlier, hmem, hearlier, rfl⟩ := hnamed
  have hpair : [earlier, token].Sublist (passed ++ token :: rest) :=
    (List.singleton_sublist.mpr hmem).append (List.singleton_sublist.mpr List.mem_cons_self)
  exact .duplicate kind (hpair.trans hsublist) hearlier hkind hname

/-- Declaring a predicate under a name that has just been passed. -/
lemma declarePredicate_tracesFrom {token : Token} (hkind : token.kind = .name)
    (hsublist : (passed ++ token :: tokens).Sublist (scan text).tokens)
    (params : List TypedName) :
    TracesFrom text passed tokens (declarePredicate token params) fun _ _ _ => True := by
  intro c a ha
  rw [declarePredicate_run]
  cases hfind : findPredicate? a.declared.predicates token.text with
  | some predicate =>
    have hname := List.find?_some hfind
    exact .other (finds_duplicate _ (ha.named.predicates _ (List.mem_of_find?_eq_some hfind))
      (by simpa using hname) hkind hsublist)
  | none =>
    refine ⟨passed ++ [token], tokens, ⟨ha.cursor, ?_, ha.named.addPredicate hkind params⟩, trivial⟩
    simpa using hsublist

/-- Declaring a function under a name that has been passed. -/
lemma declareFunction_tracesFrom {skeleton : Token × List TypedName} {rest : List Token}
    (hkind : skeleton.1.kind = .name)
    (hsublist : (passed ++ skeleton.1 :: rest).Sublist (scan text).tokens)
    (htokens : tokens.Sublist rest) (returns : String) :
    TracesFrom text passed tokens (declareFunction returns skeleton) fun _ passed' rest' =>
      passed' = passed ++ [skeleton.1] ∧ rest' = tokens := by
  intro c a ha
  rw [declareFunction_run]
  cases hfind : findFunction? a.declared.functions skeleton.1.text with
  | some function =>
    have hname := List.find?_some hfind
    exact .other (finds_duplicate _ (ha.named.functions _ (List.mem_of_find?_eq_some hfind))
      (by simpa using hname) hkind hsublist)
  | none =>
    refine ⟨passed ++ [skeleton.1], tokens,
      ⟨ha.cursor, ?_, ha.named.addFunction hkind skeleton.2 returns⟩, rfl, rfl⟩
    rw [List.append_assoc]
    exact ((htokens.cons_cons skeleton.1).append_left passed).trans hsublist

/-- Declaring functions under names that have been passed. -/
lemma declareFunctions_tracesFrom (returns : String) (skeletons : List (Token × List TypedName)) :
    ∀ passed : List Token, (∀ name ∈ skeletons.map Prod.fst, name.kind = .name) →
      (passed ++ (skeletons.map Prod.fst ++ tokens)).Sublist (scan text).tokens →
      TracesFrom text passed tokens (declareFunctions returns skeletons) fun _ _ _ => True := by
  induction skeletons with
  | nil => exact fun _ _ _ => .pure trivial
  | cons skeleton others ih =>
    intro passed hkinds hsublist
    rw [List.map_cons, List.forall_mem_cons] at hkinds
    rw [List.map_cons, List.cons_append] at hsublist
    refine (declareFunction_tracesFrom hkinds.1 hsublist
      (List.sublist_append_right _ _) returns).bind fun _ passed' rest h => ?_
    rw [h.1, h.2]
    apply ih _ hkinds.2
    simpa using hsublist

/-- Reading and declaring a predicate. -/
lemma predicate_traces : Traces text predicate := by
  intro passed tokens c a ha
  refine ((TracesFrom.ofReader skeleton_tracesFrom).bind fun found passed' rest h => ?_) c a ha
  obtain ⟨rfl, -, hkind, hfound⟩ := h
  exact declarePredicate_tracesFrom hkind ((hfound.append_left passed').trans ha.sublist) _

/-- Reading and declaring groups of functions. -/
lemma functionGroups_traces (fuel : Nat) : Traces text (functionGroups fuel) := by
  induction fuel with
  | zero => exact fun _ _ => .pure trivial
  | succ fuel ih =>
    intro passed tokens c a ha
    have hskeletons : Reader.TracesFrom text (Domain.Finds text) tokens
        (Reader.readWhile (Reader.hasKind .openParen) skeleton) fun found rest =>
          (∀ name ∈ found.map Prod.fst, name.kind = .name) ∧
            (found.map Prod.fst ++ rest).Sublist tokens := by
      refine Reader.rounds_tracesFrom.bind fun n rest _ h => ?_
      obtain ⟨-, rfl⟩ := h
      exact skeletons_tracesFrom n rest
    refine ((TracesFrom.ofReader hskeletons).bind fun skeletons passed₁ rest₁ h => ?_) c a ha
    obtain ⟨rfl, -, hkinds, hfound⟩ := h
    refine (TracesFrom.ofReader Reader.currentKind_tracesFrom).bind fun kind passed₂ rest₂ h => ?_
    obtain ⟨rfl, -, -, rfl⟩ := h
    -- The names of the group are declared only now, but the tokens behind them may be passed: a
    -- sublist of the text keeps them before what is left.
    have hsublist := (hfound.append_left passed₂).trans ha.sublist
    split
    · split
      · exact failHere_traces _ _ passed₂ rest₂
      · refine (TracesFrom.ofReader Reader.advance_tracesFrom).bind fun _ passed₃ rest₃ h => ?_
        obtain ⟨rfl, hrest₃, -⟩ := h
        refine (TracesFrom.ofReader (Reader.name_traces _ _)).bind fun returns passed₄ rest₄ h => ?_
        obtain ⟨rfl, hrest₄, -⟩ := h
        have hless := ((hrest₄.trans hrest₃).sublist.append_left (skeletons.map Prod.fst))
        refine (declareFunctions_tracesFrom returns skeletons passed₄ hkinds
          ((hless.append_left passed₄).trans hsublist)).bind fun _ passed₅ rest₅ _ => ?_
        exact ih passed₅ rest₅
    · exact declareFunctions_tracesFrom _ skeletons passed₂ hkinds hsublist

/-! ### Sections -/

/-- Repeating a step. -/
lemma whileFuel_traces {test : Token → Bool} {step : AssembleM Unit} (hstep : Traces text step)
    (fuel : Nat) : Traces text (whileFuel test step fuel) := by
  induction fuel with
  | zero => exact fun _ _ => .pure trivial
  | succ fuel ih =>
    refine (Traces.ofReader Reader.current_traces).bind fun token => ?_
    split
    · exact hstep.bind fun _ => ih
    · exact fun _ _ => .pure trivial

/-- Repeating a step as often as there are tokens. -/
lemma repeatWhile_traces {test : Token → Bool} {step : AssembleM Unit} (hstep : Traces text step) :
    Traces text (repeatWhile test step) :=
  (Traces.ofReader Reader.rounds_traces).bind fun _ => whileFuel_traces hstep _

/-- Consuming the closing parenthesis of a section. -/
lemma expectClose_traces (expected : String) :
    Traces text (do let _ ← Assembly.ofReader (Reader.expect .closeParen expected)) :=
  (Traces.ofReader (Reader.expect_traces (by decide) _)).bind fun _ _ _ => .pure trivial

/-- Adding an action. -/
lemma addAction_traces (action : Action) : Traces text (addAction action) := by
  intro passed tokens
  refine declared?_tracesFrom.bind_still fun declared => ?_
  refine (check_tracesFrom (.actionReferences _ _ _ _)).bind_still fun _ => ?_
  refine .declare_bind (fun _ => rfl) (fun _ => rfl) ?_
  exact (TracesFrom.still_ofReader (Reader.note_tracesFrom _)).mono fun _ _ _ _ => trivial

/-- Reading types. -/
lemma typesBody_traces : Traces text typesBody := by
  refine (Traces.ofReader (Reader.typedList_traces _ _)).bind fun listed passed tokens => ?_
  refine .declare_bind (fun _ => rfl) (fun _ => rfl) ?_
  refine declared?_tracesFrom.bind_still fun declared => ?_
  refine (check_tracesFrom (.ofDeclarations _)).bind_still fun types => ?_
  refine .declare_bind (fun _ => rfl) (fun _ => rfl) ?_
  exact expectClose_traces _ passed tokens

/-- Reading constants. -/
lemma constantsBody_traces : Traces text constantsBody := by
  refine (Traces.ofReader (Reader.typedList_traces _ _)).bind fun listed passed tokens => ?_
  refine .declare_bind (fun _ => rfl) (fun _ => rfl) ?_
  exact expectClose_traces _ passed tokens

/-- Reading a section before a keyword, which is what a section of functions reports. -/
lemma sectionOf_tracesFrom (kind : SectionKind) (hne : (front text tokens).kind ≠ .endOfInput) :
    TracesFrom text passed tokens (sectionOf kind) fun _ _ _ => True := by
  have hadvance : Traces text (Assembly.ofReader Reader.advance) :=
    .ofReader Reader.advance_traces
  cases kind with
  | requirements =>
    refine (Traces.ofReader Reader.requirements_traces passed tokens).bind fun _ _ _ _ => ?_
    refine (declare_tracesFrom ?_ ?_).mono fun _ _ _ _ => trivial
    · exact fun _ => rfl
    · exact fun _ => rfl
  | types => exact hadvance.bind (fun _ => typesBody_traces) passed tokens
  | constants => exact hadvance.bind (fun _ => constantsBody_traces) passed tokens
  | predicates =>
    refine hadvance.bind (fun _ => ?_) passed tokens
    exact (repeatWhile_traces predicate_traces).bind fun _ => expectClose_traces _
  | functions =>
    refine (TracesFrom.ofReader Reader.advance_tracesFrom).bind fun token passed' rest h => ?_
    obtain ⟨-, -, rfl, hknown, -⟩ := h
    have hrequire := Traces.ofReader (Reader.require_traces (hknown.mem hne) Feature.functions)
    refine hrequire.bind (fun _ => ?_) passed' rest
    have hfunctions : Traces text functionList :=
      (Traces.ofReader Reader.rounds_traces).bind fun _ => functionGroups_traces _
    exact hfunctions.bind fun _ => expectClose_traces _
  | action =>
    exact (Traces.ofReader Reader.action_traces).bind (fun _ => addAction_traces _) passed tokens
  | durativeAction =>
    exact (Traces.ofReader Reader.durativeAction_traces).bind (fun _ => addAction_traces _)
      passed tokens

/-- Reading a section. -/
lemma anySection_traces : Traces text anySection := by
  intro passed tokens
  refine (TracesFrom.ofReader Reader.current_tracesFrom).bind fun token passed' rest h => ?_
  obtain ⟨rfl, -, rfl, -, rfl⟩ := h
  split
  case isTrue hkeyword =>
    split
    · apply sectionOf_tracesFrom
      intro hend
      simp [Reader.isKeyword, hend] at hkeyword
    · exact failHere_traces _ _ passed' rest
  case isFalse => exact failHere_traces _ _ passed' rest

/-- Reading a domain, up to the end of the input. -/
lemma domain_tracesFrom : TracesFrom text passed tokens domain fun _ _ rest => rest = [] := by
  refine (Traces.ofReader (Reader.header_traces _ _) passed tokens).bind fun name p₁ r₁ _ => ?_
  refine (TracesFrom.still_ofReader (Reader.note_tracesFrom _)).bind_still fun _ => ?_
  have hsection : Traces text (do let _ ← Assembly.ofReader Reader.openParen; anySection) :=
    (Traces.ofReader Reader.openParen_traces).bind fun _ => anySection_traces
  refine (repeatWhile_traces hsection p₁ r₁).bind fun _ p₂ r₂ _ => ?_
  refine (Traces.ofReader (Reader.expect_traces (by decide) _) p₂ r₂).bind fun _ p₃ r₃ _ => ?_
  refine (TracesFrom.ofReader Reader.endOfDocument_tracesFrom).bind fun _ p₄ r₄ h => ?_
  obtain ⟨-, -, rfl⟩ := h
  refine declared?_tracesFrom.bind_still fun declared => ?_
  refine (check_tracesFrom (.ofDeclarationsValid _)).bind_still fun types => ?_
  refine .declare_bind (fun _ => rfl) (fun _ => rfl) ?_
  refine declared?_tracesFrom.bind_still fun declared => ?_
  refine (check_tracesFrom (.domainTypes _)).bind_still fun _ => ?_
  exact (TracesFrom.still_ofReader (Reader.note_tracesFrom _)).bind_still fun _ => .pure rfl

end Assembly

end Pddl
