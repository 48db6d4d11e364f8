import Pddl.Proofs.Closedness
import Pddl.Proofs.Documents

/-!
# Sections of domains are read from their words

What one section declares is said by `Declarations.Adds`.  A section that adds to the declarations
is read from its words (`section_takes`), and so is a domain from the words of sections one after
the other (`domain_takes`).
-/

namespace Pddl

/-! ### Bodies and fields of actions -/

/-- The expression has no arithmetic unless the flag for it is among the given ones. -/
def Expr.ArithmeticNeeds (flags : List String) (e : Expr) : Prop :=
  (∃ part ∈ e.walk, part.IsArithmetic) → ":numeric-fluents" ∈ flags

namespace Reader

variable {capacity : Nat} {frame : Frame} {numeral : Number → String} {K : List Word → Prop}

/-- An expression that can be written is read back in its place in a domain. -/
lemma domainBody_yields (hroom : writtenNesting < capacity) (position : Position) {e : Expr}
    (hclass : position.Admits e) (h : e.IsWritable numeral)
    (harith : e.ArithmeticNeeds frame.declared) :
    Yields (.document .lenient true capacity) frame position.reader (e.words numeral) Anything
      (fun found => found = e) :=
  reader_yields hclass h.spelled (lenient_permits h.nesting hroom fun _ => harith)

end Reader

/-- What it takes for a field of an action to be read back where the given flags are declared. -/
def ActionField.Readable (numeral : Number → String) (flags : List String) (durative : Bool) :
    ActionField → Prop
  | .params listed => ∀ param ∈ listed, param.WellSpelledAs .var
  | .duration body =>
    durative = true ∧ body.IsDuration ∧ body.IsWritable numeral ∧ body.ArithmeticNeeds flags
  | .condition body =>
    body.IsCondition durative ∧ body.IsWritable numeral ∧ body.ArithmeticNeeds flags
  | .effect body =>
    body.IsEffect durative ∧ body.IsWritable numeral ∧ body.ArithmeticNeeds flags

namespace Reader

variable {capacity : Nat} {frame : Frame} {numeral : Number → String} {K : List Word → Prop}

/-- Under the lenient settings variables with their types are read from their words. -/
lemma params_yields {params : List TypedName} (h : ∀ param ∈ params, param.WellSpelledAs .var) :
    Yields (.document .lenient true capacity) frame (typedList .var true)
      (params.flatMap (TypedName.spellingAs .var)) (Next Word.closing)
      (fun found => found = params) :=
  typedList_yields (Or.inr rfl) (fun param hparam => ⟨(h param hparam).type, nofun⟩)
    (fun _ _ hstrict => by cases hstrict)

/-- The parameters of an action are read from their keyword on. -/
lemma parameters_yields {params : List TypedName} (h : ∀ param ∈ params, param.WellSpelledAs .var) :
    Yields (.document .lenient true capacity) frame parameters
      (Word.keyword ":parameters" :: Word.group (params.flatMap (TypedName.spellingAs .var)))
      Anything (fun found => found = params) := by
  refine Yields.cons keyword_yields fun _ _ => ?_
  refine Yields.cons (expect_yields rfl) fun _ _ => ?_
  refine Yields.bind_next (params_yields h) (fun _ _ => rfl) ?_
  rintro _ rfl
  exact Yields.cons (expect_yields rfl) fun _ _ => pure_yields rfl

/-- A field of an instantaneous action is read from its words. -/
lemma actionField_yields (hroom : writtenNesting < capacity) {field : ActionField}
    (h : field.Readable numeral frame.declared false) :
    Yields (.document .lenient true capacity) frame actionField (field.words numeral false)
      Anything (fun found => found = field) := by
  cases field with
  | params listed =>
    refine current_yields (w := Word.keyword ":parameters") (fun _ _ => rfl) fun t ht => ?_
    rw [show t.key = ":parameters" from (keyword_of_word ht).2]
    exact Yields.map ActionField.params (parameters_yields h)
  | duration body => cases h.1
  | condition body =>
    refine current_yields (w := Word.keyword ":precondition") (fun _ _ => rfl) fun t ht => ?_
    rw [show t.key = ":precondition" from (keyword_of_word ht).2]
    exact Yields.cons advance_yields fun _ _ => Yields.map ActionField.condition
      (domainBody_yields hroom (.condition false) h.1 h.2.1 h.2.2)
  | effect body =>
    refine current_yields (w := Word.keyword ":effect") (fun _ _ => rfl) fun t ht => ?_
    rw [show t.key = ":effect" from (keyword_of_word ht).2]
    exact Yields.cons advance_yields fun _ _ => Yields.map ActionField.effect
      (domainBody_yields hroom (.effect false) h.1 h.2.1 h.2.2)

/-- A field of a durative action is read from its words. -/
lemma durativeActionField_yields (hroom : writtenNesting < capacity) {field : ActionField}
    (h : field.Readable numeral frame.declared true) :
    Yields (.document .lenient true capacity) frame durativeActionField (field.words numeral true)
      Anything (fun found => found = field) := by
  cases field with
  | params listed =>
    refine current_yields (w := Word.keyword ":parameters") (fun _ _ => rfl) fun t ht => ?_
    rw [show t.key = ":parameters" from (keyword_of_word ht).2]
    exact Yields.map ActionField.params (parameters_yields h)
  | duration body =>
    refine current_yields (w := Word.keyword ":duration") (fun _ _ => rfl) fun t ht => ?_
    rw [show t.key = ":duration" from (keyword_of_word ht).2]
    exact Yields.cons advance_yields fun _ _ => Yields.map ActionField.duration
      (domainBody_yields hroom .duration h.2.1 h.2.2.1 h.2.2.2)
  | condition body =>
    refine current_yields (w := Word.keyword ":condition") (fun _ _ => rfl) fun t ht => ?_
    rw [show t.key = ":condition" from (keyword_of_word ht).2]
    exact Yields.cons advance_yields fun _ _ => Yields.map ActionField.condition
      (domainBody_yields hroom (.condition true) h.1 h.2.1 h.2.2)
  | effect body =>
    refine current_yields (w := Word.keyword ":effect") (fun _ _ => rfl) fun t ht => ?_
    rw [show t.key = ":effect" from (keyword_of_word ht).2]
    exact Yields.cons advance_yields fun _ _ => Yields.map ActionField.effect
      (domainBody_yields hroom (.effect true) h.1 h.2.1 h.2.2)

end Reader

/-! ### Actions -/

/-- The action can be written where the given flags are declared: it has lexemes only, and its
condition, effect and duration belong where they stand. -/
structure Action.IsWritable (numeral : Number → String) (flags : List String) (action : Action) :
    Prop where
  name : (Word.name action.name).IsLexeme
  params : ∀ param ∈ action.params, param.WellSpelledAs .var
  condition : action.condition.IsCondition action.isDurative
  effect : action.effect.IsEffect action.isDurative
  duration : ∀ constraint ∈ action.duration, constraint.IsDuration
  bodies : ∀ body ∈ action.bodies, body.IsWritable numeral ∧ body.ArithmeticNeeds flags

namespace Action

variable {numeral : Number → String} {flags : List String} {action : Action}

/-- An action that can be written has lexemes only. -/
lemma IsWritable.wellSpelled (h : action.IsWritable numeral flags) : action.WellSpelled numeral :=
  ⟨h.name, h.params, fun body hbody => (h.bodies body hbody).1.spelled⟩

/-- The fields of an action that can be written can be read back. -/
lemma IsWritable.readable (h : action.IsWritable numeral flags) {field : ActionField}
    (hfield : field ∈ action.fields) : field.Readable numeral flags action.isDurative := by
  simp only [fields, List.mem_cons, List.mem_append, List.mem_map, List.not_mem_nil,
    or_false] at hfield
  rcases hfield with rfl | ⟨constraint, hmem, rfl⟩ | rfl | rfl
  · exact h.params
  · have hduration : action.duration = some constraint := Option.mem_toList.mp hmem
    have hbody := h.bodies constraint (List.mem_cons_of_mem _ (List.mem_cons_of_mem _ hmem))
    refine ⟨?_, h.duration constraint hduration, hbody⟩
    rw [isDurative, hduration]
    rfl
  · exact ⟨h.condition, h.bodies _ List.mem_cons_self⟩
  · exact ⟨h.effect, h.bodies _ (List.mem_cons_of_mem _ List.mem_cons_self)⟩

end Action

namespace Reader

variable {capacity : Nat} {frame : Frame} {numeral : Number → String} {K : List Word → Prop}
  {added : Action}

/-- The words of a field start with a keyword. -/
lemma starts_actionField (durative : Bool) (field : ActionField) :
    Starts isKeyword (field.words numeral durative) := by
  have hkeyword : ∀ text words, Starts isKeyword (Word.keyword text :: words) :=
    fun text words => ⟨Word.keyword text, words, rfl, fun t ht => (keyword_of_word ht).1⟩
  cases field <;> exact hkeyword _ _

/-- A closing parenthesis ends the fields of an action. -/
lemma isKeyword_of_closing {t : Token} (h : t.word = Word.closing) : isKeyword t = false := by
  have hkind : t.kind = .closeParen := congrArg Word.kind h
  simp [isKeyword, hkind]

/-- An instantaneous action is read from its words. -/
lemma action_yields (hroom : writtenNesting < capacity)
    (h : added.IsWritable numeral frame.declared) (hinstant : added.isDurative = false) :
    Yields (.document .lenient true capacity) frame action (added.words numeral ++ [Word.closing])
      Anything (fun found => found = added) := by
  have hfields : Yields (.document .lenient true capacity) frame (readWhile isKeyword actionField)
      (added.fields.flatMap (ActionField.words numeral false)) (Next Word.closing)
      (fun found => found = added.fields) := by
    refine readWhile_yields (fun t ht => isKeyword_of_closing ht)
      (fun field _ => starts_actionField false field) fun field hfield =>
        actionField_yields hroom ?_
    exact hinstant ▸ h.readable hfield
  unfold Action.words
  rw [hinstant]
  refine Yields.cons keyword_yields fun _ _ => Yields.cons name_yields ?_
  rintro _ rfl
  refine Yields.bind_next hfields (fun _ _ => rfl) ?_
  rintro _ rfl
  exact Yields.cons (expect_yields rfl) fun _ _ => pure_yields added.ofFields_fields

/-- A durative action is read from its words. -/
lemma durativeAction_yields (hroom : writtenNesting < capacity)
    (h : added.IsWritable numeral frame.declared) (hdurative : added.isDurative = true) :
    Yields (.document .lenient true capacity) frame durativeAction
      (added.words numeral ++ [Word.closing]) Anything (fun found => found = added) := by
  have hfields : Yields (.document .lenient true capacity) frame
      (readWhile isKeyword durativeActionField)
      (added.fields.flatMap (ActionField.words numeral true)) (Next Word.closing)
      (fun found => found = added.fields) := by
    refine readWhile_yields (fun t ht => isKeyword_of_closing ht)
      (fun field _ => starts_actionField true field) fun field hfield =>
        durativeActionField_yields hroom ?_
    exact hdurative ▸ h.readable hfield
  unfold Action.words
  rw [hdurative]
  refine Yields.cons keyword_yields fun _ _ => ?_
  refine Yields.skip (require_yields fun _ hstrict => by cases hstrict) fun _ _ => ?_
  refine Yields.cons name_yields ?_
  rintro _ rfl
  refine Yields.bind_next hfields (fun _ _ => rfl) ?_
  rintro _ rfl
  simp only [added.ofFields_fields]
  rw [if_pos hdurative]
  exact Yields.cons (expect_yields rfl) fun _ _ => pure_yields rfl

/-! ### Skeletons -/

/-- A predicate or function is read from its words, but for the place of its name. -/
lemma skeleton_yields {name : String} {params : List TypedName}
    (h : ∀ param ∈ params, param.WellSpelledAs .var) :
    Yields (.document .lenient true capacity) frame Assembly.skeleton (skeletonWords name params)
      Anything (fun found => found.1.text = name ∧ found.2 = params) := by
  refine Yields.cons (expect_yields rfl) fun _ _ => ?_
  refine Yields.cons (expect_yields rfl) fun t ht => ?_
  refine Yields.bind_next (params_yields h) (fun _ _ => rfl) ?_
  rintro _ rfl
  exact Yields.cons (expect_yields rfl) fun _ _ => pure_yields ⟨congrArg Word.text ht, rfl⟩

/-- Functions are read from their words up to a word that opens no other one. -/
lemma skeletons_yields (functions : List Function) {w : Word} (hw : w.kind ≠ .openParen)
    (h : ∀ function ∈ functions, function.WellSpelled) :
    Yields (.document .lenient true capacity) frame
      (readWhile (hasKind .openParen) Assembly.skeleton)
      (functions.flatMap fun function => skeletonWords function.name function.params) (Next w)
      (List.Forall₂ (fun function found => found.1.text = function.name ∧
        found.2 = function.params) functions) := by
  refine readWhile_yields_forall₂ (fun t ht => ?_) (fun _ _ => starts_group _)
    fun function hfunction => skeleton_yields (h function hfunction).params
  have hkind : t.kind = w.kind := congrArg Word.kind ht
  simp [hasKind, hkind, hw]

end Reader

/-! ### Declarations one after the other -/

namespace Assembly

open Reader (Takes Anything Next Starts Yields)

variable {α : Type} {c : Reader.Context} {capacity : Nat} {declared : Declarations}
  {ws : List Word} {w : Word} {K : List Word → Prop} {numeral : Number → String}

/-- The reader of a domain stands before the given words, which are all that is left, with the given
declarations; what their requirements imply is declared, too. -/
def At (declared : Declarations) (words : List Word) (a : Assembly) : Prop :=
  ∃ flags, Reader.Stands ⟨0, flags, none⟩ words a.toState ∧ a.declared = declared ∧
    Requirement.expand declared.requirements ⊆ flags

/-- A reader that only consumes words, whatever else is declared, leaves the declarations alone. -/
lemma ofReader_takes {reader : ReadM α} {Q : α → Prop}
    (h : ∀ flags, Requirement.expand declared.requirements ⊆ flags →
      Yields c ⟨0, flags, none⟩ reader ws K Q) :
    Takes c (At declared) (At declared) (ofReader reader) ws K Q := by
  rintro rest a hK ⟨flags, hs, hdeclared, hflags⟩
  obtain ⟨x, s', hrun, hQ, hs'⟩ := h flags hflags rest a.toState (fun _ => rfl) hK hs
  refine ⟨x, { a with toState := s' }, ?_, hQ, flags, hs', hdeclared, hflags⟩
  unfold ofReader
  rw [hrun]

/-- What is declared so far can be asked for. -/
lemma declared?_takes :
    Takes c (At declared) (At declared) declared? [] K (fun d => d = declared) :=
  fun _ a _ hs => ⟨a.declared, a, rfl, hs.choose_spec.2.1, hs⟩

/-- The declarations can be changed. -/
lemma declare_takes (change : Declarations → Declarations)
    (h : (change declared).requirements = declared.requirements) :
    Takes c (At declared) (At (change declared)) (declare change) [] K (fun _ => True) := by
  rintro rest a _ ⟨flags, hs, hdeclared, hflags⟩
  refine ⟨(), _, rfl, True.intro, flags, hs, congrArg change hdeclared, ?_⟩
  rw [h]
  exact hflags

/-- A check that succeeds needs no words. -/
lemma check_takes {outcome : Except Defect α} {x : α} (h : outcome = .ok x) :
    Takes c (At declared) (At declared) (check outcome) [] K (fun found => found = x) :=
  fun _ a _ hs => ⟨x, a, check_eq_ok.mpr ⟨h, rfl⟩, rfl, hs⟩

/-- The kind of the next word can be looked at. -/
lemma currentKind_takes : Takes c (At declared) (At declared)
    (Reader.currentKind : AssembleM Token.Kind) [] (Next w) (fun kind => kind = w.kind) := by
  refine ofReader_takes fun flags _ rest s _ hrest hs => ?_
  obtain ⟨more, rfl⟩ := List.head?_eq_some_iff.mp hrest
  exact ⟨_, s, rfl, congrArg Word.kind hs.current, hs⟩

/-- Declarations that change step by step, each by one of the items. -/
inductive Steps {X : Type} (R : Declarations → X → Declarations → Prop) :
    Declarations → List X → Declarations → Prop
  | nil {declared : Declarations} : Steps R declared [] declared
  | cons {before between after : Declarations} {x : X} {xs : List X} : R before x between →
      Steps R between xs after → Steps R before (x :: xs) after

/-- A repetition of a step that takes the words of one item takes those of all items. -/
lemma repeatWhile_takes {X : Type} {R : Declarations → X → Declarations → Prop}
    {test : Token → Bool} {step : AssembleM Unit} {spell : X → List Word}
    (hstop : ∀ t : Token, t.word = w → test t = false) (hstarts : ∀ x, Starts test (spell x))
    (hstep : ∀ before x after, R before x after →
      Takes c (At before) (At after) step (spell x) Anything (fun _ => True))
    {before after : Declarations} {xs : List X} (h : Steps R before xs after) :
    Takes c (At before) (At after) (repeatWhile test step) (xs.flatMap spell) (Next w)
      (fun _ => True) := by
  have hfuel : ∀ fuel, xs.length < fuel →
      Takes c (At before) (At after) (whileFuel test step fuel) (xs.flatMap spell) (Next w)
        (fun _ => True) := by
    induction h with
    | @nil declared =>
      rintro fuel hfuel rest a hrest hs
      obtain ⟨fuel, rfl⟩ := Nat.exists_eq_succ_of_ne_zero (Nat.ne_of_gt hfuel)
      obtain ⟨more, rfl⟩ := List.head?_eq_some_iff.mp hrest
      obtain ⟨flags, hstands, -⟩ := id hs
      refine ⟨(), a, ?_, True.intro, hs⟩
      unfold whileFuel
      rw [Reader.bind_of_ok (m := (Reader.current : AssembleM Token)) rfl,
        if_neg (by simp [hstop _ hstands.current])]
      rfl
    | @cons before between after x xs hx hxs ih =>
      rintro fuel hfuel rest a hrest hs
      obtain ⟨fuel, rfl⟩ := Nat.exists_eq_succ_of_ne_zero (Nat.ne_of_gt (Nat.zero_lt_of_lt hfuel))
      obtain ⟨first, more, hwords, htest⟩ := hstarts x
      obtain ⟨flags, hstands, -⟩ := id hs
      have hcurrent : a.cursor.current.word = first := by
        rw [List.flatMap_cons, hwords] at hstands
        exact hstands.current
      unfold whileFuel
      rw [Reader.bind_of_ok (m := (Reader.current : AssembleM Token)) rfl,
        if_pos (htest _ hcurrent)]
      exact Takes.bind (hstep before x between hx) (fun _ _ => True.intro)
        (fun _ _ => ih fuel (Nat.lt_of_succ_lt_succ hfuel)) rest a hrest hs
  intro rest a hrest hs
  obtain ⟨flags, hstands, -⟩ := id hs
  have hle : xs.length ≤ (xs.flatMap spell).length :=
    Reader.length_le_flatMap fun x _ => (hstarts x).ne_nil
  have hlength := hstands.length
  rw [List.length_append] at hlength
  unfold repeatWhile
  rw [Reader.bind_of_ok (m := (Reader.rounds : AssembleM Nat)) rfl]
  exact hfuel _ (by omega) rest a hrest hs

/-! ### Predicates and functions -/

/-- The predicate has a new name and is added. -/
def AddsPredicate (before : Declarations) (predicate : Predicate) (after : Declarations) : Prop :=
  predicate.WellSpelled ∧ findPredicate? before.predicates predicate.name = none ∧
    after = { before with predicates := before.predicates ++ [predicate] }

/-- The function has a new name and is added. -/
def AddsFunction (before : Declarations) (function : Function) (after : Declarations) : Prop :=
  function.WellSpelled ∧ findFunction? before.functions function.name = none ∧
    after = { before with functions := before.functions ++ [function] }

/-- A new predicate is read from its words. -/
lemma predicate_takes {before after : Declarations} {added : Predicate}
    (h : AddsPredicate before added after) :
    Takes (.document .lenient true capacity) (At before) (At after) predicate added.words Anything
      (fun _ => True) := by
  obtain ⟨hspelled, hnew, rfl⟩ := h
  refine Takes.finish (ofReader_takes fun _ _ => Reader.skeleton_yields hspelled.params) ?_
  rintro ⟨token, params⟩ ⟨htext, rfl⟩
  refine Takes.finish declared?_takes ?_
  rintro _ rfl
  simp only [show token.text = added.name from htext, hnew]
  exact declare_takes (fun declared =>
    { declared with predicates := declared.predicates ++ [added] }) rfl

/-- A new function is declared. -/
lemma declareFunction_takes {before after : Declarations} {added : Function}
    (h : AddsFunction before added after) {found : Token × List TypedName}
    (htext : found.1.text = added.name) (hparams : found.2 = added.params) :
    Takes (.document .lenient true capacity) (At before) (At after)
      (declareFunction added.returns found) [] K (fun _ => True) := by
  obtain ⟨-, hnew, rfl⟩ := h
  refine Takes.finish declared?_takes ?_
  rintro _ rfl
  simp only [htext, hparams, hnew]
  exact declare_takes (fun declared =>
    { declared with functions := declared.functions ++ [added] }) rfl

/-- New functions, each with its return type, are read from their words. -/
lemma functionGroups_takes {before after : Declarations} {functions : List Function}
    (h : Steps AddsFunction before functions after) : ∀ fuel, functions.length < fuel →
      Takes (.document .lenient true capacity) (At before) (At after) (functionGroups fuel)
        (functions.flatMap Function.words) (Next Word.closing) (fun _ => True) := by
  induction h with
  | @nil declared =>
    intro fuel hfuel
    obtain ⟨fuel, rfl⟩ := Nat.exists_eq_succ_of_ne_zero (Nat.ne_of_gt hfuel)
    refine Takes.finish (ofReader_takes fun _ _ =>
      Reader.skeletons_yields [] (by decide) (List.forall_mem_nil _)) ?_
    rintro _ ⟨⟩
    refine Takes.finish currentKind_takes ?_
    rintro _ rfl
    exact Takes.pure True.intro
  | @cons before between after function functions hadds hrest ih =>
    intro fuel hfuel
    obtain ⟨fuel, rfl⟩ := Nat.exists_eq_succ_of_ne_zero (Nat.ne_of_gt (Nat.zero_lt_of_lt hfuel))
    have hone : ∀ flags, Yields (.document .lenient true capacity) ⟨0, flags, none⟩
        (Reader.readWhile (Reader.hasKind .openParen) skeleton)
        (skeletonWords function.name function.params) (Next Word.minus)
        (List.Forall₂ (fun function found => found.1.text = function.name ∧
          found.2 = function.params) [function]) := by
      intro flags
      rw [← List.append_nil (skeletonWords function.name function.params)]
      exact Reader.skeletons_yields [function] (by decide) (List.forall_mem_singleton.mpr hadds.1)
    rw [List.flatMap_cons, Function.words, List.append_assoc]
    refine Takes.bind (ofReader_takes fun flags _ => hone flags) (fun _ _ => rfl) ?_
    intro skeletons hskeletons
    obtain ⟨found, hfound, rfl⟩ : ∃ found : Token × List TypedName,
        (found.1.text = function.name ∧ found.2 = function.params) ∧ skeletons = [found] := by
      cases hskeletons with
      | cons hfound hnil =>
        cases hnil
        exact ⟨_, hfound, rfl⟩
    have hdeclare : Takes (.document .lenient true capacity) (At before) (At between)
        (declareFunctions function.returns [found]) [] Anything (fun _ => True) :=
      Takes.finish (declareFunction_takes hadds hfound.1 hfound.2) fun _ _ => Takes.pure True.intro
    change Takes _ _ _ _ ([] ++ _) _ _
    refine Takes.bind currentKind_takes (fun _ _ => rfl) ?_
    rintro _ rfl
    refine Takes.cons (ofReader_takes fun _ _ => Reader.advance_yields) fun _ _ => ?_
    refine Takes.cons (ofReader_takes fun _ _ => Reader.name_yields) ?_
    rintro _ rfl
    exact Takes.bind hdeclare (fun _ _ => True.intro)
      fun _ _ => ih fuel (Nat.lt_of_succ_lt_succ hfuel)

/-- New functions are read up to a closing parenthesis. -/
lemma functionList_takes {before after : Declarations} {functions : List Function}
    (h : Steps AddsFunction before functions after) :
    Takes (.document .lenient true capacity) (At before) (At after) functionList
      (functions.flatMap Function.words) (Next Word.closing) (fun _ => True) := by
  intro rest a hrest hs
  obtain ⟨flags, hstands, -⟩ := id hs
  have hle : functions.length ≤ (functions.flatMap Function.words).length :=
    Reader.length_le_flatMap fun _ _ => List.cons_ne_nil _ _
  have hlength := hstands.length
  rw [List.length_append] at hlength
  unfold functionList
  rw [Reader.bind_of_ok (m := (Reader.rounds : AssembleM Nat)) rfl]
  exact functionGroups_takes h _ (by omega) rest a hrest hs

end Assembly

/-! ### Sections -/

/-- What a section adds to the declarations.  Requirements come first, names are new, and types and
actions pass the checks that are made when they are read. -/
inductive Declarations.Adds (numeral : Number → String) :
    Declarations → DomainSection → Declarations → Prop
  | requirements {before : Declarations} {flags : List String} : before.requirements = [] →
      (∀ flag ∈ flags, IsFoldedFlag flag) → flags.Nodup →
      Adds numeral before (.requirements flags) { before with requirements := flags }
  | types {before : Declarations} {listed : List TypedName} {types : TypeHierarchy} :
      (∀ typed ∈ listed, typed.WellSpelledAs .name ∧ ∃ parent, typed.type = .named parent) →
      TypeHierarchy.ofDeclarations (before.typeDeclarations ++ listed) = .ok types →
      Adds numeral before (.types listed)
        { before with typeDeclarations := before.typeDeclarations ++ listed, types := types }
  | constants {before : Declarations} {listed : List TypedName} :
      (∀ typed ∈ listed, typed.WellSpelledAs .name) →
      Adds numeral before (.constants listed)
        { before with constants := before.constants ++ listed }
  | predicates {before after : Declarations} {listed : List Predicate} :
      Assembly.Steps Assembly.AddsPredicate before listed after →
      Adds numeral before (.predicates listed) after
  | functions {before after : Declarations} {listed : List Function} :
      Assembly.Steps Assembly.AddsFunction before listed after →
      Adds numeral before (.functions listed) after
  | action {before : Declarations} {added : Action} :
      added.IsWritable numeral (Requirement.expand before.requirements) →
      Check.actionReferences before.types before.predicates before.functions added = .ok () →
      Adds numeral before (.action added) { before with actions := before.actions ++ [added] }

/-- An action that can be written stays so when more flags are declared. -/
lemma Action.IsWritable.mono {numeral : Number → String} {flags more : List String}
    {action : Action} (h : action.IsWritable numeral flags) (hmore : flags ⊆ more) :
    action.IsWritable numeral more where
  name := h.name
  params := h.params
  condition := h.condition
  effect := h.effect
  duration := h.duration
  bodies := fun body hbody => ⟨(h.bodies body hbody).1,
    fun harith => hmore ((h.bodies body hbody).2 harith)⟩

namespace Assembly

open Reader (Takes Anything Next Starts Yields)

variable {capacity : Nat} {numeral : Number → String} {before after : Declarations}

/-- Requirements that come first are declared with all that they imply. -/
lemma requirements_takes {flags : List String} (hfirst : before.requirements = [])
    (hflags : ∀ flag ∈ flags, IsFoldedFlag flag) (hnodup : flags.Nodup) :
    Takes (.document .lenient true capacity) (At before) (At { before with requirements := flags })
      (sectionOf .requirements)
      (Word.keyword ":requirements" :: (flags.map Word.keyword ++ [Word.closing])) Anything
      (fun _ => True) := by
  rintro rest a hK ⟨declared, hs, hbefore, -⟩
  obtain ⟨_, s', hrun, rfl, hs'⟩ :=
    Reader.requirements_takes (c := .document .lenient true capacity) rfl
      (fun flag hflag => (hflags flag hflag).folded) hnodup rest a.toState hK hs
  rename_i flags
  have hlift : ofReader Reader.requirements (.document .lenient true capacity) a =
      .ok flags { a with toState := s' } := by
    unfold ofReader
    rw [hrun]
  have hunion : Text.union before.requirements flags = flags := by
    rw [hfirst]
    exact Reader.union_of_nodup flags [] hnodup
  refine ⟨(), _, Reader.bind_eq_ok.mpr ⟨flags, _, hlift, rfl⟩, True.intro, _, hs', ?_, ?_⟩
  · change { a.declared with requirements := Text.union a.declared.requirements flags } = _
    rw [hbefore, hunion]
  · exact fun flag hflag => Text.mem_union.mpr (Or.inr hflag)

/-- Types are read if they make up a hierarchy together with those before them. -/
lemma typesBody_takes {listed : List TypedName} {types : TypeHierarchy}
    (hlisted : ∀ typed ∈ listed,
      typed.WellSpelledAs .name ∧ ∃ parent, typed.type = .named parent)
    (htypes : TypeHierarchy.ofDeclarations (before.typeDeclarations ++ listed) = .ok types) :
    Takes (.document .lenient true capacity) (At before)
      (At { before with typeDeclarations := before.typeDeclarations ++ listed, types := types })
      typesBody (listed.flatMap (TypedName.spellingAs .name) ++ [Word.closing]) Anything
      (fun _ => True) := by
  have hread : ∀ flags, Yields (.document .lenient true capacity) ⟨0, flags, none⟩
      (Reader.typedList .name false) (listed.flatMap (TypedName.spellingAs .name))
      (Next Word.closing) (fun found => found = listed) := by
    intro flags
    exact Reader.typedList_yields (Or.inl rfl)
      (fun typed htyped => ⟨(hlisted typed htyped).1.type, fun _ => (hlisted typed htyped).2⟩)
      (fun _ _ hstrict => by cases hstrict)
  refine Takes.bind (ofReader_takes fun flags _ => hread flags) (fun _ _ => rfl) ?_
  rintro listed rfl
  refine Takes.skip (declare_takes (fun declared =>
    { declared with typeDeclarations := declared.typeDeclarations ++ listed }) rfl) fun _ _ => ?_
  refine Takes.skip declared?_takes ?_
  rintro _ rfl
  refine Takes.skip (check_takes htypes) ?_
  rintro types rfl
  refine Takes.skip (declare_takes (fun declared => { declared with types := types }) rfl)
    fun _ _ => ?_
  exact Takes.cons (ofReader_takes fun _ _ => Reader.expect_yields rfl) fun _ _ =>
    Takes.pure True.intro

/-- Constants are read. -/
lemma constantsBody_takes {listed : List TypedName}
    (hlisted : ∀ typed ∈ listed, typed.WellSpelledAs .name) :
    Takes (.document .lenient true capacity) (At before)
      (At { before with constants := before.constants ++ listed })
      constantsBody (listed.flatMap (TypedName.spellingAs .name) ++ [Word.closing]) Anything
      (fun _ => True) := by
  have hread : ∀ flags, Yields (.document .lenient true capacity) ⟨0, flags, none⟩
      (Reader.typedList .name true) (listed.flatMap (TypedName.spellingAs .name))
      (Next Word.closing) (fun found => found = listed) := by
    intro flags
    exact Reader.typedList_yields (Or.inl rfl)
      (fun typed htyped => ⟨(hlisted typed htyped).type, nofun⟩)
      (fun _ _ hstrict => by cases hstrict)
  refine Takes.bind (ofReader_takes fun flags _ => hread flags) (fun _ _ => rfl) ?_
  rintro listed rfl
  refine Takes.skip (declare_takes (fun declared =>
    { declared with constants := declared.constants ++ listed }) rfl) fun _ _ => ?_
  exact Takes.cons (ofReader_takes fun _ _ => Reader.expect_yields rfl) fun _ _ =>
    Takes.pure True.intro

/-- An action that passes its check is added. -/
lemma addAction_takes {added : Action}
    (hcheck : Check.actionReferences before.types before.predicates before.functions added =
      .ok ()) :
    Takes (.document .lenient true capacity) (At before)
      (At { before with actions := before.actions ++ [added] }) (addAction added) [] Anything
      (fun _ => True) := by
  refine Takes.skip declared?_takes ?_
  rintro _ rfl
  refine Takes.skip (check_takes hcheck) fun _ _ => ?_
  refine Takes.skip (declare_takes (fun declared =>
    { declared with actions := declared.actions ++ [added] }) rfl) fun _ _ => ?_
  exact ofReader_takes fun _ _ => Reader.note_yields

/-- After its keyword, a section is read as what it is. -/
lemma section_of_keyword (kind : SectionKind) {text : String} {ws inner : List Word}
    (hwords : ws = Word.keyword text :: inner)
    (hkind : SectionKind.ofKey? (fold text) = some kind)
    (h : Takes (.document .lenient true capacity) (At before) (At after) (sectionOf kind)
      (ws ++ [Word.closing]) Anything (fun _ => True)) :
    Takes (.document .lenient true capacity) (At before) (At after)
      (do let _ ← Reader.openParen; anySection : AssembleM Unit) (Word.group ws) Anything
      (fun _ => True) := by
  subst hwords
  refine Takes.cons (ofReader_takes fun _ _ => Reader.expect_yields rfl) fun _ _ => ?_
  intro rest a hK hs
  obtain ⟨flags, hstands, -⟩ := id hs
  obtain ⟨hkeyword, hkey⟩ := Reader.keyword_of_word hstands.current
  unfold anySection
  rw [Reader.bind_of_ok (m := (Reader.current : AssembleM Token)) rfl, if_pos hkeyword]
  simp only [hkey, hkind]
  exact h rest a hK hs

/-- A section that adds to the declarations is read from its words. -/
lemma section_takes (hroom : writtenNesting < capacity) {part : DomainSection}
    (h : before.Adds numeral part after) :
    Takes (.document .lenient true capacity) (At before) (At after)
      (do let _ ← Reader.openParen; anySection : AssembleM Unit) (part.words numeral) Anything
      (fun _ => True) := by
  have hadvance : ∀ {declared : Declarations} {w : Word}, Takes (.document .lenient true capacity)
      (At declared) (At declared) (Reader.advance : AssembleM Token) [w] Anything
      (fun t => t.word = w) :=
    ofReader_takes fun _ _ => Reader.advance_yields
  have hopening : ∀ t : Token, t.word = Word.closing → Reader.hasKind .openParen t = false := by
    intro t ht
    simp [Reader.hasKind, show t.kind = .closeParen from congrArg Word.kind ht]
  cases h with
  | requirements hfirst hflags hnodup =>
    exact section_of_keyword .requirements rfl (by decide)
      (requirements_takes hfirst hflags hnodup)
  | types hlisted htypes =>
    refine section_of_keyword .types rfl (by decide) ?_
    exact Takes.cons hadvance fun _ _ => typesBody_takes hlisted htypes
  | constants hlisted =>
    refine section_of_keyword .constants rfl (by decide) ?_
    exact Takes.cons hadvance fun _ _ => constantsBody_takes hlisted
  | predicates hsteps =>
    refine section_of_keyword .predicates rfl (by decide) ?_
    refine Takes.cons hadvance fun _ _ => ?_
    refine Takes.bind (repeatWhile_takes hopening (fun _ => Reader.starts_group _)
      (fun _ _ _ hadds => predicate_takes hadds) hsteps) (fun _ _ => rfl) fun _ _ => ?_
    exact Takes.cons (ofReader_takes fun _ _ => Reader.expect_yields rfl) fun _ _ =>
      Takes.pure True.intro
  | functions hsteps =>
    refine section_of_keyword .functions rfl (by decide) ?_
    refine Takes.cons hadvance fun _ _ => ?_
    refine Takes.skip (ofReader_takes fun _ _ =>
      Reader.require_yields fun _ hstrict => by cases hstrict) fun _ _ => ?_
    refine Takes.bind (functionList_takes hsteps) (fun _ _ => rfl) fun _ _ => ?_
    exact Takes.cons (ofReader_takes fun _ _ => Reader.expect_yields rfl) fun _ _ =>
      Takes.pure True.intro
  | @action added hwritable hcheck =>
    cases hdurative : added.isDurative with
    | false =>
      have hread : Takes (.document .lenient true capacity) (At before) (At before)
          (ofReader Reader.action) (added.words numeral ++ [Word.closing]) Anything
          (fun found => found = added) :=
        ofReader_takes fun _ hflags =>
          Reader.action_yields hroom (hwritable.mono hflags) hdurative
      refine section_of_keyword .action (by rw [Action.words, hdurative])
        (by decide) (Takes.finish hread ?_)
      rintro _ rfl
      exact addAction_takes hcheck
    | true =>
      have hread : Takes (.document .lenient true capacity) (At before) (At before)
          (ofReader Reader.durativeAction) (added.words numeral ++ [Word.closing]) Anything
          (fun found => found = added) :=
        ofReader_takes fun _ hflags =>
          Reader.durativeAction_yields hroom (hwritable.mono hflags) hdurative
      refine section_of_keyword .durativeAction (by rw [Action.words, hdurative])
        (by decide) (Takes.finish hread ?_)
      rintro _ rfl
      exact addAction_takes hcheck

/-- The words of a section start with an opening parenthesis. -/
lemma starts_section (part : DomainSection) :
    Starts (Reader.hasKind .openParen) (part.words numeral) := by
  cases part <;> exact Reader.starts_group _

/-- A domain is read from the words of sections that add up to it, if its types and entities pass
the last checks and nothing follows. -/
lemma domain_takes (hroom : writtenNesting < capacity) (name : String)
    {sections : List DomainSection}
    (h : Steps (Declarations.Adds numeral) Declarations.empty sections after)
    (htypes : TypeHierarchy.ofDeclarationsValid after.typeDeclarations = .ok after.types)
    (hcheck : Check.domainTypes (after.toDomain name) = .ok ()) :
    Takes (.document .lenient true capacity) (At Declarations.empty) (At after) domain
      (documentWords "domain" name (sections.flatMap (DomainSection.words numeral)))
      (fun rest => rest = []) (fun found => found = after.toDomain name) := by
  have hopening : ∀ t : Token, t.word = Word.closing → Reader.hasKind .openParen t = false := by
    intro t ht
    simp [Reader.hasKind, show t.kind = .closeParen from congrArg Word.kind ht]
  change Takes _ _ _ _ (([Word.opening, Word.name "define"] ++
    Word.group [Word.name "domain", Word.name name]) ++
      (sections.flatMap (DomainSection.words numeral) ++ [Word.closing])) _ _
  refine Takes.bind (M := Anything) (ofReader_takes fun _ _ => Reader.header_yields)
    (fun _ _ => True.intro) ?_
  rintro _ rfl
  refine Takes.skip (ofReader_takes fun _ _ => Reader.note_yields) fun _ _ => ?_
  refine Takes.bind (repeatWhile_takes hopening starts_section
    (fun _ _ _ hadds => section_takes hroom hadds) h) (fun _ _ => rfl) fun _ _ => ?_
  refine Takes.cons (ofReader_takes fun _ _ => Reader.expect_yields rfl) fun _ _ => ?_
  refine Takes.finish (ofReader_takes fun _ _ => Reader.endOfDocument_yields) fun _ _ => ?_
  refine Takes.finish declared?_takes ?_
  rintro after rfl
  refine Takes.finish (check_takes htypes) ?_
  rintro _ rfl
  refine Takes.finish (declare_takes (fun declared =>
    { declared with types := after.types }) rfl) fun _ _ => ?_
  refine Takes.finish declared?_takes ?_
  rintro _ rfl
  refine Takes.finish (check_takes hcheck) fun _ _ => ?_
  exact Takes.finish (ofReader_takes fun _ _ => Reader.note_yields) fun _ _ => Takes.pure rfl

end Assembly

end Pddl
