import Mathlib.Data.List.Nodup
import Pddl.Proofs.Standpoints
import Pddl.Proofs.TypedLists

/-!
# Functions are declared group by group

The functions of a section go up to the first word outside of parentheses that is neither an opening
parenthesis nor a minus sign with a name (`Word.functionPart`).  They are read exactly if these
words are groups of functions with a type behind each of them and functions without a type after the
last group (`IsFunctionList`), and if their names are new (`FreshNames`).  A group is declared when
its type has been read; so where a name repeats, the functions before it are declared already, and
nothing else has changed (`Registers`).
-/

namespace Pddl

/-! ### The words of a list -/

/-- Where a list of functions has got to: between its functions, after a minus sign, or inside of
parentheses, so many of them inside of the outermost. -/
inductive ListLevel
  | list
  | type
  | inside (depth : Nat)

/-- Where a list of functions gets to by closing parentheses, so many inside of the outermost. -/
def ListLevel.outside : Nat → ListLevel
  | 0 => .list
  | depth + 1 => .inside depth

/-- Where a list of functions gets to by a word of a kind, or `none` if it ends before the word. -/
def ListLevel.after : ListLevel → Token.Kind → Option ListLevel
  | .inside depth, .openParen => some (.inside (depth + 1))
  | .inside depth, .closeParen => some (.outside depth)
  | .inside depth, _ => some (.inside depth)
  | .list, .openParen | .type, .openParen => some (.inside 0)
  | .list, .minus | .type, .minus => some .type
  | .type, .name => some .list
  | _, _ => none

namespace Word

/-- The words of a list of functions, from where it has got to. -/
def functionPart : ListLevel → List Word → List Word
  | _, [] => []
  | level, word :: rest =>
    match level.after word.kind with
    | some next => word :: functionPart next rest
    | none => []

/-- The words belong to a list that is at the first level before them, and lead to the second. -/
def Continues (level : ListLevel) (words : List Word) (next : ListLevel) : Prop :=
  ∀ us, functionPart level (words ++ us) = words ++ functionPart next us

variable {ws us : List Word} {word : Word} {level middle next : ListLevel} {depth : Nat}

/-- No words. -/
lemma Continues.nil (level : ListLevel) : Continues level [] level :=
  fun _ => rfl

/-- A word and others. -/
lemma Continues.cons (hword : level.after word.kind = some middle) (h : Continues middle ws next) :
    Continues level (word :: ws) next := by
  intro us
  rw [List.cons_append, functionPart, hword]
  exact congrArg (word :: ·) (h us)

/-- Words and others. -/
lemma Continues.append (h : Continues level ws middle) (h' : Continues middle us next) :
    Continues level (ws ++ us) next := by
  intro rest
  rw [List.append_assoc, h, h', List.append_assoc]

/-- Words without parentheses stay inside of parentheses. -/
lemma continues_plain (h : ∀ word ∈ ws, word.kind ≠ .openParen ∧ word.kind ≠ .closeParen) :
    Continues (.inside depth) ws (.inside depth) := by
  induction ws with
  | nil => exact .nil _
  | cons word rest ih =>
    obtain ⟨⟨hopen, hclose⟩, hrest⟩ := List.forall_mem_cons.mp h
    refine .cons ?_ (ih hrest)
    cases hkind : word.kind <;> first | exact absurd hkind hopen | exact absurd hkind hclose | rfl

/-- A list ends with the last word or before one that neither opens a function nor announces a
type. -/
lemma exists_append_functionPart (level : ListLevel) (words : List Word) :
    ∃ rest, words = functionPart level words ++ rest ∧
      (rest = [] ∨
        Reader.headKind rest ≠ .openParen ∧ Reader.headKind rest ≠ .minus) := by
  induction words generalizing level with
  | nil => exact ⟨[], rfl, Or.inl rfl⟩
  | cons word words ih =>
    rw [functionPart]
    cases hafter : level.after word.kind with
    | some next =>
      obtain ⟨rest, hrest, hend⟩ := ih next
      exact ⟨rest, congrArg (word :: ·) hrest, hend⟩
    | none =>
      refine ⟨word :: words, rfl, Or.inr ⟨fun hopen => ?_, fun hminus => ?_⟩⟩
      · rw [show word.kind = .openParen from hopen] at hafter
        cases level <;> cases hafter
      · rw [show word.kind = .minus from hminus] at hafter
        cases level <;> cases hafter

/-- Before other words between functions a list ends. -/
lemma functionPart_of_ends (hopen : Reader.headKind ws ≠ .openParen)
    (hminus : Reader.headKind ws ≠ .minus) : functionPart .list ws = [] := by
  cases ws with
  | nil => rfl
  | cons word rest =>
    have hafter : ListLevel.after .list word.kind = none := by
      cases hkind : word.kind <;>
        first | exact absurd hkind hopen | exact absurd hkind hminus | rfl
    rw [functionPart, hafter]

end Word

/-! ### Lists of functions -/

/-- A function as it is written between parentheses: its name and words that list its
parameters. -/
structure Skeleton where
  name : String
  params : List TypedName
  listing : List Word
  lists : IsTypedList .var true params listing

namespace Skeleton

/-- The words of a function. -/
def words (skeleton : Skeleton) : List Word :=
  Word.group (Word.name skeleton.name :: skeleton.listing)

/-- The function that is declared if its type is the given one. -/
def toFunction (returns : String) (skeleton : Skeleton) : Function :=
  ⟨skeleton.name, skeleton.params, returns⟩

end Skeleton

/-- The words list the functions: groups of one or more with a type behind them, and numeric ones
without a type after the last group. -/
inductive IsFunctionList : List Function → List Word → Prop
  | untyped (skeletons : List Skeleton) :
      IsFunctionList (skeletons.map (Skeleton.toFunction numberType))
        (skeletons.flatMap Skeleton.words)
  | group {skeletons : List Skeleton} {functions : List Function} {words : List Word}
      (returns : String) : skeletons ≠ [] → IsFunctionList functions words →
      IsFunctionList (skeletons.map (Skeleton.toFunction returns) ++ functions)
        (skeletons.flatMap Skeleton.words ++ Word.minus :: Word.name returns :: words)

namespace Word

/-- The words of a type stay inside of parentheses. -/
lemma continues_type {allowEither : Bool} {type : TypeSpec} {ws : List Word} {depth : Nat}
    (h : type.IsSpelledBy allowEither ws) : Continues (.inside depth) ws (.inside depth) := by
  cases h with
  | named name => exact .cons rfl (.nil _)
  | @either head first others =>
    have hnames : Continues (.inside (depth + 1)) ((head :: first :: others).map Word.name)
        (.inside (depth + 1)) := by
      refine continues_plain fun word hword => ?_
      obtain ⟨name, -, rfl⟩ := List.mem_map.mp hword
      simp [Word.name]
    exact .cons rfl (hnames.append (.cons rfl (.nil _)))

/-- The words of a typed list stay inside of parentheses. -/
lemma continues_typedList {allowEither : Bool} {listed : List TypedName} {ws : List Word}
    {depth : Nat} (h : IsTypedList .var allowEither listed ws) :
    Continues (.inside depth) ws (.inside depth) := by
  have hnames (names : List String) :
      Continues (.inside depth) (names.map (⟨.var, ·⟩)) (.inside depth) := by
    refine continues_plain fun word hword => ?_
    obtain ⟨name, -, rfl⟩ := List.mem_map.mp hword
    simp
  induction h with
  | untyped names => exact hnames names
  | group _ htype _ ih =>
    exact (hnames _).append (.cons rfl ((continues_type htype).append ih))

/-- Functions are parts of a list. -/
lemma continues_skeletons (skeletons : List Skeleton) :
    Continues .list (skeletons.flatMap Skeleton.words) .list := by
  induction skeletons with
  | nil => exact .nil _
  | cons skeleton rest ih =>
    refine Continues.append (.cons rfl (.cons rfl ?_)) ih
    exact (continues_typedList skeleton.lists).append (.cons rfl (.nil _))

/-- The words of a list of functions stand before whatever ends it. -/
lemma continues_functionList {functions : List Function} {ws : List Word}
    (h : IsFunctionList functions ws) : Continues .list ws .list := by
  induction h with
  | untyped skeletons => exact continues_skeletons skeletons
  | group returns _ _ ih => exact (continues_skeletons _).append (.cons rfl (.cons rfl ih))

end Word

/-! ### New names -/

/-- The names of functions are different from each other and from those of known ones, up to
case. -/
structure FreshNames (known functions : List Function) : Prop where
  nodup : (functions.map fun function => fold function.name).Nodup
  new : ∀ function ∈ functions, ∀ other ∈ known, fold other.name ≠ fold function.name

variable {known functions more : List Function} {function : Function}

/-- No names are new. -/
lemma freshNames_nil (known : List Function) : FreshNames known [] :=
  ⟨List.nodup_nil, fun _ h => absurd h List.not_mem_nil⟩

/-- Names are new after others if all of them are. -/
lemma freshNames_append : FreshNames known (functions ++ more) ↔
    FreshNames known functions ∧ FreshNames (known ++ functions) more := by
  have hdisjoint : (functions.map fun function => fold function.name).Disjoint
      (more.map fun function => fold function.name) ↔
        ∀ function ∈ more, ∀ other ∈ functions, fold other.name ≠ fold function.name := by
    simp only [List.disjoint_left, List.mem_map, not_exists, not_and]
    constructor
    · intro h function hfunction other hother hsame
      exact h ⟨other, hother, rfl⟩ function hfunction hsame.symm
    · rintro h _ ⟨other, hother, rfl⟩ function hfunction hsame
      exact h function hfunction other hother hsame.symm
  constructor
  · rintro ⟨hnodup, hnew⟩
    rw [List.map_append, List.nodup_append'] at hnodup
    obtain ⟨hfirst, hmore, hboth⟩ := hnodup
    refine ⟨⟨hfirst, fun f hf => hnew f (List.mem_append_left _ hf)⟩, hmore,
      fun f hf other hother => ?_⟩
    rcases List.mem_append.mp hother with hother | hother
    · exact hnew f (List.mem_append_right _ hf) other hother
    · exact hdisjoint.mp hboth f hf other hother
  · rintro ⟨⟨hfirst, hnew⟩, hmore, hnew'⟩
    refine ⟨?_, fun f hf other hother => ?_⟩
    · rw [List.map_append, List.nodup_append']
      exact ⟨hfirst, hmore,
        hdisjoint.mpr fun f hf other hother => hnew' f hf other (List.mem_append_right _ hother)⟩
    · rcases List.mem_append.mp hf with hf | hf
      · exact hnew f hf other hother
      · exact hnew' f hf other (List.mem_append_left _ hother)

/-- A name is new if no known function has it. -/
lemma freshNames_singleton : FreshNames known [function] ↔
    findFunction? known function.name = none := by
  simp only [findFunction?, List.find?_eq_none, decide_eq_true_eq]
  constructor
  · exact fun h => h.new function List.mem_cons_self
  · exact fun h => ⟨List.nodup_singleton _, List.forall_mem_singleton.mpr h⟩

/-- The declarations with more functions. -/
def Declarations.addFunctions (declared : Declarations) (functions : List Function) :
    Declarations :=
  { declared with functions := declared.functions ++ functions }

/-- Functions are added in groups as they are added at once. -/
lemma Declarations.addFunctions_append (declared : Declarations)
    (functions more : List Function) :
    declared.addFunctions (functions ++ more) =
      (declared.addFunctions functions).addFunctions more := by
  simp [addFunctions]

/-! ### Reading functions -/

namespace Reader

variable {c : Context} {s s' : State} {frame : Frame}

/-- A function that is read is written between parentheses. -/
lemma skeleton_spelled {found : Token × List TypedName} (hv : s.cursor.Valid)
    (h : Assembly.skeleton c s = .ok found s') :
    ∃ ts, ∃ skeleton : Skeleton, Consumes s ts s' ∧ ts.map Token.word = skeleton.words ∧
      found.1.text = skeleton.name ∧ found.2 = skeleton.params := by
  simp only [Assembly.skeleton, bind_eq_ok, pure_eq_ok] at h
  obtain ⟨opening, s₁, hopen, name, s₂, hname, params, s₃, hparams, closing, s₄, hclose, rfl,
    rfl⟩ := h
  obtain ⟨hopening, hc₁⟩ := expect_symbol hv rfl hopen
  obtain ⟨-, hkind, hc₂⟩ := expect_consumes hc₁.valid hname (by decide)
  obtain ⟨ts, hc₃, hlists, -⟩ := typedList_spelled hc₂.valid hparams
  obtain ⟨hclosing, hc₄⟩ := expect_symbol hc₃.valid rfl hclose
  refine ⟨_, ⟨name.text, params, ts.map Token.word, hlists⟩,
    hc₁.cons (hc₂.cons (hc₃.concat hc₄)), ?_, rfl, rfl⟩
  have hword : name.word = Word.name name.text := by rw [Token.word, hkind, Word.name]
  simp [Skeleton.words, Word.group, Word.opening, Word.closing, hopening, hclosing, hword]

/-- A function is read from its words under lenient settings, but for the place of its name. -/
lemma skeleton_yields_words (hlenient : c.settings.strictRequirements = false)
    (skeleton : Skeleton) :
    Yields c frame Assembly.skeleton skeleton.words Anything
      (fun found => found.1.text = skeleton.name ∧ found.2 = skeleton.params) := by
  have hparams : Yields c frame (typedList .var true) skeleton.listing EndsList
      (fun found => found = skeleton.params) :=
    typedList_yields_spelled (Or.inr rfl) skeleton.lists fun _ _ hstrict => by
      simp [hlenient] at hstrict
  refine Yields.cons (expect_yields rfl) fun _ _ => ?_
  refine Yields.cons (expect_yields rfl) fun name hname => ?_
  refine Yields.bind_of hparams (fun _ _ => Or.inl rfl) ?_
  rintro _ rfl
  exact Yields.cons (expect_yields rfl) fun _ _ => pure_yields ⟨congrArg Word.text hname, rfl⟩

/-- What is found is the functions, but for their types and the places of their names. -/
def Finds (skeletons : List Skeleton) (found : List (Token × List TypedName)) : Prop :=
  List.Forall₂ (fun skeleton found =>
    found.1.text = skeleton.name ∧ found.2 = skeleton.params) skeletons found

/-- Functions are read from their words under lenient settings, up to where no other one is
opened. -/
lemma skeletons_yields_words (hlenient : c.settings.strictRequirements = false)
    (skeletons : List Skeleton) :
    Yields c frame (readWhile (hasKind .openParen) Assembly.skeleton)
      (skeletons.flatMap Skeleton.words) (fun rest => headKind rest ≠ .openParen)
      (Finds skeletons) := by
  refine readWhile_forall₂_of_halts (fun frame rest s hrest hs => ?_) (fun _ _ => starts_group _)
    fun skeleton _ => skeleton_yields_words hlenient skeleton
  rw [← Bool.not_eq_true, hasKind_eq_true, hs.currentKind]
  exact hrest

/-- Functions that are read one after the other are written so, up to where no other one is
opened. -/
lemma skeletons_spelled {found : List (Token × List TypedName)} (hv : s.cursor.Valid)
    (h : readWhile (hasKind .openParen) Assembly.skeleton c s = .ok found s') :
    ∃ ts skeletons, Consumes s ts s' ∧ ts.map Token.word = skeletons.flatMap Skeleton.words ∧
      Finds skeletons found ∧ s'.cursor.current.kind ≠ .openParen := by
  have hitem : ∀ s found s', s.cursor.Valid → hasKind .openParen s.cursor.current = true →
      Assembly.skeleton c s = .ok found s' → ∃ ts, Consumes s ts s' ∧ ts ≠ [] ∧
        ∃ skeleton : Skeleton, ts.map Token.word = skeleton.words ∧
          found.1.text = skeleton.name ∧ found.2 = skeleton.params := by
    intro s found s' hv _ hone
    obtain ⟨ts, skeleton, hc, hwords, hfound⟩ := skeleton_spelled hv hone
    refine ⟨ts, hc, fun hnil => ?_, skeleton, hwords, hfound⟩
    rw [hnil] at hwords
    cases hwords
  obtain ⟨parts, rfl, hparts, hc, hstop⟩ := readWhile_consumes hitem hv h
  have hall : ∃ skeletons : List Skeleton,
      (parts.flatMap Prod.snd).map Token.word = skeletons.flatMap Skeleton.words ∧
        Finds skeletons (parts.map Prod.fst) := by
    clear hc h
    induction parts with
    | nil => exact ⟨[], rfl, .nil⟩
    | cons part rest ih =>
      obtain ⟨⟨skeleton, hwords, hfound⟩, hrest⟩ := List.forall_mem_cons.mp hparts
      obtain ⟨skeletons, hwords', hfound'⟩ := ih hrest
      refine ⟨skeleton :: skeletons, ?_, .cons hfound hfound'⟩
      rw [List.flatMap_cons, List.map_append, hwords, hwords', List.flatMap_cons]
  obtain ⟨skeletons, hwords, hfound⟩ := hall
  refine ⟨_, skeletons, hc, hwords, hfound, fun hopen => ?_⟩
  rw [hasKind_eq_true.mpr hopen] at hstop
  cases hstop

end Reader

/-- What is declared of the functions that are found, once their type is known. -/
lemma Reader.Finds.map_eq {skeletons : List Skeleton} {found : List (Token × List TypedName)}
    (h : Reader.Finds skeletons found) (returns : String) :
    found.map (fun found => (⟨found.1.text, found.2, returns⟩ : Function)) =
      skeletons.map (Skeleton.toFunction returns) := by
  induction h with
  | nil => rfl
  | cons hfound _ ih => rw [List.map_cons, List.map_cons, ih, hfound.1, hfound.2]; rfl

/-! ### Declaring functions -/

namespace Assembly

open Reader (Stands headKind)

variable {c : Reader.Context} {a a' : Assembly} {before : Declarations}
  {functions more : List Function} {P Q : Reader.State → Prop}

/-- The outcome of declaring functions: all of them are added to the declarations before, or the
name of one of them repeats, and only those in front of it are added. -/
inductive Registers (before : Declarations) (functions : List Function)
    (Q : Reader.State → Prop) : EStateM.Result Failure Assembly Unit → Prop
  | all {s : Reader.State} : FreshNames before.functions functions → Q s →
      Registers before functions Q (.ok () ⟨s, before.addFunctions functions⟩)
  | repeated {first rest : List Function} {function : Function} {token : Token}
      {s : Reader.State} : functions = first ++ function :: rest →
      FreshNames before.functions first → ¬ FreshNames before.functions (first ++ [function]) →
      token.text = function.name → Registers before functions Q
        (.error (.invalid (.duplicate .function token)) ⟨s, before.addFunctions first⟩)

/-- What holds of the state after all functions are added may be less. -/
lemma Registers.mono {outcome : EStateM.Result Failure Assembly Unit}
    (h : Registers before functions P outcome) (hPQ : ∀ s, P s → Q s) :
    Registers before functions Q outcome := by
  cases h with
  | all hfresh hP => exact .all hfresh (hPQ _ hP)
  | repeated hfunctions hfirst hrepeats htext => exact .repeated hfunctions hfirst hrepeats htext

/-- Functions are added after others. -/
lemma Registers.after {outcome : EStateM.Result Failure Assembly Unit}
    (hfresh : FreshNames before.functions functions)
    (h : Registers (before.addFunctions functions) more Q outcome) :
    Registers before (functions ++ more) Q outcome := by
  cases h with
  | all hmore hQ =>
    rw [← Declarations.addFunctions_append]
    exact .all (freshNames_append.mpr ⟨hfresh, hmore⟩) hQ
  | @repeated first rest function token s hmore hfirst hrepeats htext =>
    rw [← Declarations.addFunctions_append]
    refine .repeated (by rw [hmore, List.append_assoc])
      (freshNames_append.mpr ⟨hfresh, hfirst⟩) (fun hall => hrepeats ?_) htext
    rw [List.append_assoc] at hall
    exact (freshNames_append.mp hall).2

/-- Functions are added before others, which are not reached if a name repeats. -/
lemma Registers.bind {step next : AssembleM Unit} (h : Registers before functions P (step c a))
    (hnext : ∀ s, P s → Registers (before.addFunctions functions) more Q
      (next c ⟨s, before.addFunctions functions⟩)) :
    Registers before (functions ++ more) Q ((step >>= fun _ => next) c a) := by
  generalize hrun : step c a = outcome at h
  cases h with
  | all hfresh hP =>
    rw [Reader.bind_of_ok hrun]
    exact .after hfresh (hnext _ hP)
  | repeated hfunctions hfirst hrepeats htext =>
    rw [Reader.bind_of_error hrun]
    exact .repeated (by rw [hfunctions, List.append_assoc, List.cons_append]) hfirst hrepeats htext

/-- Declaring a function. -/
lemma declareFunction_registers (returns : String) (found : Token × List TypedName)
    (a : Assembly) :
    Registers a.declared [⟨found.1.text, found.2, returns⟩] (· = a.toState)
      (declareFunction returns found c a) := by
  have hnil : a = ⟨a.toState, a.declared.addFunctions []⟩ := by simp [Declarations.addFunctions]
  rw [declareFunction_run]
  cases hfind : findFunction? a.declared.functions found.1.text with
  | some function =>
    have hrun : (.error (.invalid (.duplicate .function found.1)) a :
        EStateM.Result Failure Assembly Unit) = .error _ ⟨a.toState, a.declared.addFunctions []⟩ :=
      congrArg (EStateM.Result.error _) hnil
    dsimp only
    rw [hrun]
    refine .repeated (List.nil_append _).symm (freshNames_nil _) (fun hfresh => ?_) rfl
    rw [List.nil_append, freshNames_singleton, hfind] at hfresh
    cases hfresh
  | none => exact .all (freshNames_singleton.mpr hfind) rfl

/-- Declaring functions. -/
lemma declareFunctions_registers (returns : String) (found : List (Token × List TypedName))
    (a : Assembly) :
    Registers a.declared (found.map fun found => ⟨found.1.text, found.2, returns⟩)
      (· = a.toState) (declareFunctions returns found c a) := by
  induction found generalizing a with
  | nil =>
    have hnil : a = ⟨a.toState, a.declared.addFunctions []⟩ := by simp [Declarations.addFunctions]
    rw [show declareFunctions returns [] c a = .ok () a from rfl]
    nth_rewrite 3 [hnil]
    exact .all (freshNames_nil _) rfl
  | cons first rest ih =>
    change Registers _ ([_] ++ _) _ _
    refine (declareFunction_registers returns first a).bind ?_
    rintro s rfl
    exact ih ⟨a.toState, a.declared.addFunctions [_]⟩

/-- Groups of functions are declared if their words are followed by others and there are rounds
enough. -/
lemma functionGroups_registers {frame : Reader.Frame} {words : List Word}
    (hlenient : c.settings.strictRequirements = false) (h : IsFunctionList functions words) :
    ∀ (fuel : Nat) (rest : List Word) (a : Assembly), words.length < fuel →
      (rest = [] → frame.failure = none) → headKind rest ≠ .openParen → headKind rest ≠ .minus →
      Stands frame (words ++ rest) a.toState →
      Registers a.declared functions (Stands frame rest) (functionGroups fuel c a) := by
  induction h with
  | untyped skeletons =>
    intro fuel rest a hfuel hclean hopen hminus hs
    obtain ⟨fuel, rfl⟩ := Nat.exists_eq_succ_of_ne_zero (Nat.ne_of_gt (Nat.zero_lt_of_lt hfuel))
    obtain ⟨found, s₁, hread, hfound, hs₁⟩ :=
      Reader.skeletons_yields_words hlenient skeletons rest a.toState hclean hopen hs
    have hrun : functionGroups (fuel + 1) c a =
        declareFunctions numberType found c { a with toState := s₁ } := by
      rw [functionGroups, Reader.bind_of_ok (lift_eq_ok.mpr ⟨s₁, hread, rfl⟩),
        Reader.bind_of_ok (lift_eq_ok.mpr ⟨s₁, Reader.currentKind_run, rfl⟩),
        if_neg (hs₁.currentKind ▸ hminus)]
    have hdeclares : Registers a.declared _ (· = s₁) _ :=
      declareFunctions_registers (c := c) numberType found { a with toState := s₁ }
    rw [hfound.map_eq] at hdeclares
    rw [hrun]
    exact hdeclares.mono fun _ hs => hs ▸ hs₁
  | @group skeletons functions words returns hne _ ih =>
    intro fuel rest a hfuel hclean hopen hminus hs
    obtain ⟨fuel, rfl⟩ := Nat.exists_eq_succ_of_ne_zero (Nat.ne_of_gt (Nat.zero_lt_of_lt hfuel))
    rw [List.append_assoc] at hs
    have hnext : headKind (Word.minus :: Word.name returns :: words ++ rest) ≠ .openParen := by
      simp [headKind, Word.minus]
    obtain ⟨found, s₁, hread, hfound, hs₁⟩ := Reader.skeletons_yields_words hlenient skeletons _
      a.toState (fun hnil => by cases hnil) hnext hs
    have hkind : s₁.cursor.current.kind = .minus := hs₁.currentKind
    obtain ⟨minus, s₂, hadvance, -, hs₂⟩ := Reader.advance_yields (c := c) (K := Reader.Anything)
      _ s₁ (fun hnil => by cases hnil) True.intro hs₁
    obtain ⟨type, s₃, hname, htype, hs₃⟩ :=
      (Reader.name_yields : Reader.Yields c _ (Reader.name "a function type") _ Reader.Anything _) _
        s₂ (fun hnil => hclean (List.append_eq_nil_iff.mp hnil).2) True.intro hs₂
    obtain rfl : returns = type := htype.symm
    have hsome : found.isEmpty = false := by
      cases hfound with
      | nil => exact absurd rfl hne
      | cons _ _ => rfl
    have hrun : functionGroups (fuel + 1) c a =
        (declareFunctions returns found >>= fun _ => functionGroups fuel) c
          { a with toState := s₃ } := by
      rw [functionGroups, Reader.bind_of_ok (lift_eq_ok.mpr ⟨s₁, hread, rfl⟩),
        Reader.bind_of_ok (lift_eq_ok.mpr ⟨s₁, Reader.currentKind_run, rfl⟩),
        if_pos hkind, hsome, if_neg Bool.false_ne_true,
        Reader.bind_of_ok (lift_eq_ok.mpr ⟨s₂, hadvance, rfl⟩),
        Reader.bind_of_ok (lift_eq_ok.mpr ⟨s₃, hname, rfl⟩)]
    have hdeclares : Registers a.declared _ (· = s₃) _ :=
      declareFunctions_registers (c := c) returns found { a with toState := s₃ }
    rw [hfound.map_eq] at hdeclares
    rw [hrun]
    refine hdeclares.bind ?_
    rintro s rfl
    have hlength : words.length < fuel := by
      rw [List.length_append, List.length_cons, List.length_cons] at hfuel
      omega
    exact ih fuel rest ⟨s, a.declared.addFunctions _⟩ hlength hclean hopen hminus hs₃

/-- A list of functions that is declared has the words up to where it ends. -/
lemma functionGroups_spelled : ∀ (fuel : Nat) (a a' : Assembly), a.cursor.Valid →
    a.cursor.unread < fuel → functionGroups fuel c a = .ok () a' →
    ∃ ts functions, Reader.Consumes a.toState ts a'.toState ∧
      IsFunctionList functions (ts.map Token.word) ∧
      FreshNames a.declared.functions functions ∧
      a'.cursor.current.kind ≠ .openParen ∧ a'.cursor.current.kind ≠ .minus := by
  intro fuel
  induction fuel with
  | zero => exact fun _ _ _ hfuel => absurd hfuel (Nat.not_lt_zero _)
  | succ fuel ih =>
    intro a a' hv hfuel h
    obtain ⟨found, s₁, hread, hround⟩ := functionGroups_succ_eq_ok h
    obtain ⟨ts, skeletons, hc, hwords, hfound, hopen⟩ := Reader.skeletons_spelled hv hread
    obtain ⟨hminus, hempty, minus, s₃, returns, s₄, a₅, hadvance, hname, hdeclare, h⟩ |
      ⟨hminus, h⟩ := hround
    · obtain ⟨hword, hc₁⟩ := Reader.advance_symbol hc.valid rfl hminus hadvance
      obtain ⟨htype, rfl, hc₂⟩ := Reader.name_consumes hc₁.valid hname
      have hdeclares := declareFunctions_registers (c := c) s₃.cursor.current.text found
        { a with toState := s₄ }
      rw [hdeclare, hfound.map_eq] at hdeclares
      cases hdeclares with
      | @all s₅ hfresh hs₅ =>
        subst hs₅
        have hread := hc.trans (hc₁.cons hc₂)
        have hunread := hread.unread
        rw [List.length_append, List.length_cons] at hunread
        have hless : s₅.cursor.unread < fuel := by omega
        obtain ⟨us, functions, hc₃, hlist, hfresh', hend⟩ := ih _ a' hc₂.valid hless h
        refine ⟨_, _, hread.trans hc₃, ?_, freshNames_append.mpr ⟨hfresh, hfresh'⟩, hend⟩
        have hne : skeletons ≠ [] := by
          rintro rfl
          cases hfound
          cases hempty
        have htypeWord : s₃.cursor.current.word = Word.name s₃.cursor.current.text := by
          rw [Token.word, htype, Word.name]
        rw [List.map_append, List.map_append, hwords, List.map_cons, List.map_singleton, hword,
          htypeWord, List.append_assoc]
        exact .group _ hne hlist
    · have hdeclares :=
        declareFunctions_registers (c := c) numberType found { a with toState := s₁ }
      rw [h, hfound.map_eq] at hdeclares
      cases hdeclares with
      | all hfresh hs₂ =>
        subst hs₂
        exact ⟨ts, _, hc, hwords ▸ .untyped skeletons, hfresh, hopen, hminus⟩

/-- Functions are added behind the declarations, and nothing else changes in them. -/
def GainsFunctions (a a' : Assembly) : Prop :=
  ∃ added, a'.declared = a.declared.addFunctions added

/-- No functions are added where the declarations stay. -/
lemma GainsFunctions.of_declared_eq (h : a'.declared = a.declared) : a.GainsFunctions a' :=
  ⟨[], by simp [h, Declarations.addFunctions]⟩

/-- Functions are added after others. -/
lemma GainsFunctions.trans {a'' : Assembly} (h : a.GainsFunctions a')
    (h' : a'.GainsFunctions a'') : a.GainsFunctions a'' := by
  obtain ⟨added, hadded⟩ := h
  obtain ⟨more, hmore⟩ := h'
  exact ⟨added ++ more, by rw [hmore, hadded, Declarations.addFunctions_append]⟩

/-- Whatever its outcome, a list of functions only adds some. -/
lemma leads_gainsFunctions_functionList : Reader.Leads GainsFunctions functionList := by
  refine leads_functionList_of (fun _ => .of_declared_eq rfl) .trans (fun {_ m} _ c a => ?_)
    fun returns found c a => ?_
  · rw [ofReader_eq_mapState, Reader.lastState_mapState]
    exact .of_declared_eq rfl
  · have h := declareFunction_registers (c := c) returns found a
    generalize declareFunction returns found c a = outcome at h
    cases h with
    | all _ _ => exact ⟨_, rfl⟩
    | repeated _ _ _ _ => exact ⟨_, rfl⟩

/-- Functions are declared if their words are those up to the end of the list. -/
lemma functionList_registers (hlenient : c.settings.strictRequirements = false)
    (hv : a.cursor.Valid)
    (h : IsFunctionList functions (Word.functionPart .list a.cursor.words))
    (hclean : Word.functionPart .list a.cursor.words = a.cursor.words → a.cursor.failure = none) :
    Registers a.declared functions
      (fun s => a.cursor.words = Word.functionPart .list a.cursor.words ++ s.cursor.words)
      (functionList c a) := by
  obtain ⟨rest, hrest, hend⟩ := Word.exists_append_functionPart .list a.cursor.words
  have hs : Stands ⟨a.depth, a.requirements, a.cursor.failure⟩
      (Word.functionPart .list a.cursor.words ++ rest) a.toState := ⟨hv, hrest, rfl, rfl, rfl⟩
  have hstop : rest = [] → a.cursor.failure = none := by
    rintro rfl
    rw [List.append_nil] at hrest
    exact hclean hrest.symm
  have hends : headKind rest ≠ .openParen ∧ headKind rest ≠ .minus := by
    rcases hend with rfl | hends
    · exact ⟨nofun, nofun⟩
    · exact hends
  have hlength : (Word.functionPart .list a.cursor.words).length < a.cursor.unread + 1 := by
    have hall := hs.length
    rw [List.length_append] at hall
    omega
  exact (functionGroups_registers hlenient h _ rest a hlength hstop hends.1 hends.2 hs).mono
    fun s hs => by rw [hs.words]; exact hrest

/-- A list of functions that is declared has the words up to its end. -/
lemma isFunctionList_of_ok (hv : a.cursor.Valid) (h : functionList c a = .ok () a') :
    ∃ functions, IsFunctionList functions (Word.functionPart .list a.cursor.words) ∧
      FreshNames a.declared.functions functions ∧
      (Word.functionPart .list a.cursor.words = a.cursor.words → a.cursor.failure = none) := by
  obtain ⟨ts, functions, hc, hlist, hfresh, hopen, hminus⟩ :=
    functionGroups_spelled _ a a' hv (Nat.lt_succ_self _) h
  have hstands : Stands ⟨a'.depth, a'.requirements, a'.cursor.failure⟩ a'.cursor.words
      a'.toState := ⟨hc.valid, rfl, rfl, rfl, rfl⟩
  have hnext : a'.cursor.current.kind = headKind a'.cursor.words :=
    hstands.currentKind
  have hpart : Word.functionPart .list a.cursor.words = ts.map Token.word := by
    rw [hc.words, Word.continues_functionList hlist,
      Word.functionPart_of_ends (hnext ▸ hopen) (hnext ▸ hminus), List.append_nil]
  refine ⟨functions, hpart.symm ▸ hlist, hfresh, fun hall => hc.failure_of_words_eq_nil ?_⟩
  exact List.self_eq_append_right.mp (hpart.symm.trans (hall.trans hc.words))

/-- Under lenient settings and wherever a call may start, a list of functions is read exactly if the
words up to its end are groups of functions with a type behind each of them and functions without a
type, if their names are different from each other and from those of the functions before, up to
case, and if the list does not end with an error of the scan.  Then these functions are declared
behind the others in the order of the text, with the type of their group or `number`, and the reader
stops right after the words.  If a name repeats, it is reported as a duplicate when all functions in
front of it are declared.  Whatever the outcome, nothing but functions behind the others is
declared. -/
theorem functionList_ok_iff_grouped (c : Reader.Context)
    (hlenient : c.settings.strictRequirements = false) :
    (∀ (text : String) (cursor : Cursor), Cursor.ofText text = .ok cursor →
      ∀ calls : List (Call .domain), ∀ a ∈ Parser.domain.start cursor ::
        Call.statesAfter c calls (Parser.domain.start cursor), a.cursor.Valid) ∧
    (∀ a : Assembly, a.cursor.Valid →
      ((∃ a', functionList c a = .ok () a') ↔
        ∃ functions, IsFunctionList functions (Word.functionPart .list a.cursor.words) ∧
          FreshNames a.declared.functions functions ∧
          (Word.functionPart .list a.cursor.words = a.cursor.words → a.cursor.failure = none)) ∧
      ∀ functions, IsFunctionList functions (Word.functionPart .list a.cursor.words) →
        (∀ a', functionList c a = .ok () a' →
          a'.declared = a.declared.addFunctions functions ∧
            a.cursor.words = Word.functionPart .list a.cursor.words ++ a'.cursor.words) ∧
        ((Word.functionPart .list a.cursor.words = a.cursor.words → a.cursor.failure = none) →
          ¬ FreshNames a.declared.functions functions →
            ∃ first function rest token a', functions = first ++ function :: rest ∧
              FreshNames a.declared.functions first ∧ token.text = function.name ∧
              functionList c a = .error (.invalid (.duplicate .function token)) a' ∧
              a'.declared = a.declared.addFunctions first)) ∧
    ∀ a : Assembly, ∃ added,
      (Reader.lastState (functionList c a)).declared = a.declared.addFunctions added := by
  refine ⟨fun text cursor hcursor calls => Call.valid_statesAfter hcursor c calls,
    fun a hv => ⟨⟨?_, ?_⟩, fun functions hlist => ⟨?_, ?_⟩⟩,
    fun a => leads_gainsFunctions_functionList c a⟩
  · rintro ⟨a', h⟩
    exact isFunctionList_of_ok hv h
  · rintro ⟨functions, hlist, hfresh, hclean⟩
    have hregisters := functionList_registers hlenient hv hlist hclean
    generalize functionList c a = outcome at hregisters
    cases hregisters with
    | all _ _ => exact ⟨_, rfl⟩
    | repeated hfunctions _ hrepeats _ =>
      rw [hfunctions, List.append_cons, freshNames_append] at hfresh
      exact absurd hfresh.1 hrepeats
  · intro a' h
    obtain ⟨-, -, -, hclean⟩ := isFunctionList_of_ok hv h
    have hregisters := functionList_registers hlenient hv hlist hclean
    rw [h] at hregisters
    cases hregisters with
    | all _ hwords => exact ⟨rfl, hwords⟩
  · intro hclean hrepeats
    have hregisters := functionList_registers hlenient hv hlist hclean
    generalize functionList c a = outcome at hregisters
    cases hregisters with
    | all hfresh _ => exact absurd hfresh hrepeats
    | repeated hfunctions hfirst _ htext =>
      exact ⟨_, _, _, _, _, hfunctions, hfirst, htext, rfl, rfl⟩

/-- A function without parameters. -/
def plainSkeleton (name : String) : Skeleton :=
  ⟨name, [], [], .untyped []⟩

/-- A function of two parameters with alternative types. -/
def fuelSkeleton : Skeleton where
  name := "fuel"
  params := ["?x", "?y"].map fun name => ⟨name, .either ["car", "Truck"]⟩
  listing := ["?x", "?y"].map (⟨.var, ·⟩) ++ Word.minus ::
    (Word.group (Word.name "EITHER" :: ["car", "Truck"].map Word.name) ++ [])
  lists :=
    have heither : (TypeSpec.either ["car", "Truck"]).IsSpelledBy true
        (Word.group (Word.name "EITHER" :: ["car", "Truck"].map Word.name)) :=
      .either rfl (by decide)
    have hpair : ["?x", "?y"] ≠ [] := List.cons_ne_nil _ _
    .group hpair heither (.untyped [])

/-- A text that lists functions of a type and a numeric one, up to its last closing parenthesis but
one. -/
def groupedFunctions : String :=
  "(fuel ?x ?y - (EITHER car Truck)) (load) - amount\n(cost)) - (fuel)"

/-- The words of the text up to there list the functions. -/
lemma isFunctionList_groupedFunctions :
    IsFunctionList
      ([fuelSkeleton, plainSkeleton "load"].map (Skeleton.toFunction "amount") ++
        [plainSkeleton "cost"].map (Skeleton.toFunction numberType))
      (Word.functionPart .list (scan groupedFunctions).words) := by
  have hwords : Word.functionPart .list (scan groupedFunctions).words =
      [fuelSkeleton, plainSkeleton "load"].flatMap Skeleton.words ++ Word.minus ::
        Word.name "amount" :: [plainSkeleton "cost"].flatMap Skeleton.words := by
    decide +kernel
  rw [hwords]
  exact .group "amount" (List.cons_ne_nil _ _) (.untyped _)

/-- A text in which the name of a function repeats in another case behind a group of functions. -/
def repeatedFunction : String :=
  "(load) - amount (cost) (LOAD)) (fuel)"

/-- The words of the text up to its end list the functions. -/
lemma isFunctionList_repeatedFunction :
    IsFunctionList
      ([plainSkeleton "load"].map (Skeleton.toFunction "amount") ++
        [plainSkeleton "cost", plainSkeleton "LOAD"].map (Skeleton.toFunction numberType))
      (Word.functionPart .list (scan repeatedFunction).words) := by
  have hwords : Word.functionPart .list (scan repeatedFunction).words =
      [plainSkeleton "load"].flatMap Skeleton.words ++ Word.minus :: Word.name "amount" ::
        [plainSkeleton "cost", plainSkeleton "LOAD"].flatMap Skeleton.words := by
    decide +kernel
  rw [hwords]
  exact .group "amount" (List.cons_ne_nil _ _) (.untyped _)

/-- At the start of the first text the functions are declared, and at the start of the second one
those in front of the repeated name. -/
theorem functionList_ok_iff_grouped_repeated :
    (Reader.Context.unlimited .lenient true).settings.strictRequirements = false ∧
    (∃ cursor a', Cursor.ofText groupedFunctions = .ok cursor ∧
      functionList (.unlimited .lenient true) (Parser.domain.start cursor) = .ok () a' ∧
      a'.declared.functions =
        [fuelSkeleton.toFunction "amount", (plainSkeleton "load").toFunction "amount",
          (plainSkeleton "cost").toFunction numberType] ∧
      (scan groupedFunctions).words =
        Word.functionPart .list (scan groupedFunctions).words ++ a'.cursor.words) ∧
    ∃ cursor first function rest token a', Cursor.ofText repeatedFunction = .ok cursor ∧
      [(plainSkeleton "load").toFunction "amount", (plainSkeleton "cost").toFunction numberType,
        (plainSkeleton "LOAD").toFunction numberType] = first ++ function :: rest ∧
      token.text = function.name ∧
      functionList (.unlimited .lenient true) (Parser.domain.start cursor) =
        .error (.invalid (.duplicate .function token)) a' ∧
      a'.declared.functions = first := by
  obtain ⟨hvalid, hexact, -⟩ := functionList_ok_iff_grouped (.unlimited .lenient true) rfl
  refine ⟨rfl, ?_, ?_⟩
  · have hfailure : (scan groupedFunctions).failure = none := by decide +kernel
    obtain ⟨cursor, hcursor⟩ := Cursor.exists_ofText_of_failure hfailure
    obtain ⟨-, hupcoming, hsame⟩ := Cursor.of_ofText hcursor
    have hwords : (Parser.domain.start cursor).cursor.words = (scan groupedFunctions).words :=
      congrArg (List.map Token.word) hupcoming
    obtain ⟨hiff, hlists⟩ := hexact (Parser.domain.start cursor)
      (hvalid _ cursor hcursor [] _ List.mem_cons_self)
    rw [hwords] at hiff hlists
    obtain ⟨a', hrun⟩ := hiff.mpr ⟨_, isFunctionList_groupedFunctions,
      ⟨by decide +kernel, fun _ _ _ h => absurd h List.not_mem_nil⟩, fun _ => hsame.trans hfailure⟩
    obtain ⟨hdeclared, hsplit⟩ := (hlists _ isFunctionList_groupedFunctions).1 a' hrun
    exact ⟨cursor, a', hcursor, hrun, congrArg Declarations.functions hdeclared, hsplit⟩
  · have hfailure : (scan repeatedFunction).failure = none := by decide +kernel
    obtain ⟨cursor, hcursor⟩ := Cursor.exists_ofText_of_failure hfailure
    obtain ⟨-, hupcoming, hsame⟩ := Cursor.of_ofText hcursor
    have hwords : (Parser.domain.start cursor).cursor.words = (scan repeatedFunction).words :=
      congrArg (List.map Token.word) hupcoming
    obtain ⟨-, hlists⟩ := hexact (Parser.domain.start cursor)
      (hvalid _ cursor hcursor [] _ List.mem_cons_self)
    rw [hwords] at hlists
    have hrepeats : ¬ FreshNames (Parser.domain.start cursor).declared.functions
        ([plainSkeleton "load"].map (Skeleton.toFunction "amount") ++
          [plainSkeleton "cost", plainSkeleton "LOAD"].map (Skeleton.toFunction numberType)) :=
      fun hfresh => absurd hfresh.nodup (by decide +kernel)
    obtain ⟨first, function, rest, token, a', hsplit, -, htext, hrun, hdeclared⟩ :=
      (hlists _ isFunctionList_repeatedFunction).2 (fun _ => hsame.trans hfailure) hrepeats
    exact ⟨cursor, first, function, rest, token, a', hcursor, hsplit, htext, hrun,
      congrArg Declarations.functions hdeclared⟩

end Assembly

end Pddl
