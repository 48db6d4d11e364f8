import Pddl.Proofs.DomainLockstep
import Pddl.Proofs.LetterCase

/-!
# Letter case in domains

Domains are read without regard to the case of letters, but for one comparison: the return type of
a function counts as numeric only if it is written `number` in small letters.  So two texts that
differ in the case of letters only are read alike unless one of them is refused for such a return
type (`parse_sameUpToCase_or_refusesNumber`), and this does happen (`exists_fold_eq_parse_ne`).
-/

namespace Pddl

/-! ### The one comparison of letters -/

namespace Disguise

variable {d : Disguise} {α β γ δ : Type}

/-- The defect of a return type that is `number` only in disguise. -/
def RefusesNumber (d : Disguise) : Defect → Prop
  | .undeclaredReturnType type _ => d.spell type = numberType ∧ type ≠ numberType
  | _ => False

/-- The second check says in disguise what the first one says, unless that refuses a number. -/
def Agrees (d : Disguise) (value : α → β) (x : Except Defect α) (x' : Except Defect β) : Prop :=
  x' = d.verdict value x ∨ ∃ defect, x = .error defect ∧ d.RefusesNumber defect

/-- One check after the other. -/
lemma Agrees.bind {value : α → β} {other : γ → δ} {x : Except Defect α} {x' : Except Defect β}
    {f : α → Except Defect γ} {f' : β → Except Defect δ} (hx : d.Agrees value x x')
    (hf : ∀ a, d.Agrees other (f a) (f' (value a))) :
    d.Agrees other (x >>= f) (x' >>= f') := by
  rcases hx with rfl | ⟨defect, rfl, hdefect⟩
  · cases x with
    | ok a => exact hf a
    | error defect => exact Or.inl rfl
  · exact Or.inr ⟨defect, rfl, hdefect⟩

/-- Checks of a list. -/
lemma Agrees.each {value : α → β} {check : α → Except Defect Unit}
    {check' : β → Except Defect Unit} {xs : List α}
    (h : ∀ x ∈ xs, d.Agrees id (check x) (check' (value x))) :
    d.Agrees id (Check.each check xs) (Check.each check' (xs.map value)) := by
  induction xs with
  | nil => exact Or.inl rfl
  | cons x rest ih =>
    rw [List.forall_mem_cons] at h
    rw [List.map_cons, Check.each, Check.each]
    exact h.1.bind fun _ => ih h.2

variable (d)

/-- A return type in disguise is declared if the return type is, unless it is a number in disguise
only. -/
lemma returnType {types : TypeHierarchy} (hroot : types.contains rootType = true)
    (function : Function) :
    d.Agrees id (Check.returnType types function)
      (Check.returnType (types.rename d.spell) (function.rename d.spell)) := by
  have hreturns : (function.rename d.spell).returns = d.spell function.returns := rfl
  have hspell : ∀ {type}, fold type = type → function.returns = type →
      d.spell function.returns = type := by
    intro type htype heq
    rw [heq, d.spell_of_folded type htype]
  unfold Check.returnType
  simp only [hreturns, TypeHierarchy.contains_rename, Bool.or_eq_true, decide_eq_true_eq]
  by_cases haccepted : (function.returns = numberType ∨ function.returns = rootType) ∨
      types.contains function.returns = true
  · have haccepted' : (d.spell function.returns = numberType ∨
        d.spell function.returns = rootType) ∨ types.contains function.returns = true :=
      haccepted.imp (Or.imp (hspell (by decide)) (hspell (by decide))) id
    rw [if_pos haccepted, if_pos haccepted']
    exact Or.inl rfl
  rw [if_neg haccepted]
  rw [not_or, not_or] at haccepted
  obtain ⟨⟨hnumber, -⟩, hundeclared⟩ := haccepted
  split_ifs with haccepted'
  · -- Only a number can have become acceptable, since the root is so in all letters.
    refine Or.inr ⟨_, rfl, ?_, hnumber⟩
    rcases haccepted' with (hnumber' | hroot') | hdeclared
    · exact hnumber'
    · have hfolded : fold function.returns = rootType := by
        rw [← d.fold_spell, hroot']
        rfl
      have hsame : types.contains function.returns = types.contains rootType := by
        unfold TypeHierarchy.contains
        rw [Folding.ascii_lower, hfolded, Folding.lower_root]
      exact absurd (hsame.trans hroot) hundeclared
    · exact absurd hdeclared hundeclared
  · exact Or.inl rfl

/-- The types of a domain in disguise are declared if those of the domain are, unless a function is
a number in disguise only. -/
lemma domainTypes {domain : Domain} (hroot : domain.types.contains rootType = true) :
    d.Agrees id (Check.domainTypes domain) (Check.domainTypes (domain.rename d.spell)) := by
  unfold Check.domainTypes
  refine Agrees.bind (Or.inl (Check.declaredTypes_rename d domain.types (.constants domain.name)
    domain.constants)) fun _ => ?_
  refine Agrees.bind (Or.inl (Check.each_map d fun predicate _ => ?_)) fun _ => ?_
  · exact Check.declaredTypes_rename d domain.types (.predicate predicate.name) predicate.params
  refine Agrees.each fun function _ => ?_
  refine Agrees.bind (Or.inl (Check.declaredTypes_rename d domain.types (.function function.name)
    function.params)) fun _ => ?_
  exact d.returnType hroot function

/-- The second reader of domains does on disguised tokens and declarations what the first one does,
unless that refuses a number. -/
def AssemblesUnlessNumber (value : α → β) (m : AssembleM α) (m' : AssembleM β) : Prop :=
  ∀ c a, m' c (d.assembly a) = mapResult d.failure d.assembly value (m c a) ∨
    ∃ defect a', m c a = .error (.invalid defect) a' ∧ d.RefusesNumber defect

variable {d}

/-- A reader after one that commutes with disguises. -/
lemma Assembles.unlessNumber {value : α → β} {other : γ → δ} {m : AssembleM α} {m' : AssembleM β}
    {f : α → AssembleM γ} {f' : β → AssembleM δ} (hm : d.Assembles value m m')
    (hf : ∀ a, d.AssemblesUnlessNumber other (f a) (f' (value a))) :
    d.AssemblesUnlessNumber other (m >>= f) (m' >>= f') := by
  intro c a
  have hfirst := hm c a
  cases hrun : m c a with
  | ok x a₁ =>
    rw [hrun] at hfirst
    rw [Reader.bind_of_ok hrun, Reader.bind_of_ok hfirst]
    exact hf x c a₁
  | error e a₁ =>
    rw [hrun] at hfirst
    rw [Reader.bind_of_error hrun, Reader.bind_of_error hfirst]
    exact Or.inl rfl

/-- A reader after a check. -/
lemma check_unlessNumber {value : α → β} {other : γ → δ} {outcome : Except Defect α}
    {outcome' : Except Defect β} {f : α → AssembleM γ} {f' : β → AssembleM δ}
    (h : d.Agrees value outcome outcome')
    (hf : ∀ a, outcome = .ok a → d.AssemblesUnlessNumber other (f a) (f' (value a))) :
    d.AssemblesUnlessNumber other (Assembly.check outcome >>= f)
      (Assembly.check outcome' >>= f') := by
  rcases h with rfl | ⟨defect, rfl, hdefect⟩
  · cases outcome with
    | ok a => exact hf a rfl
    | error defect => exact fun _ _ => Or.inl rfl
  · exact fun _ a => Or.inr ⟨defect, a, rfl, hdefect⟩

/-- The declarations are looked at after the types are set. -/
lemma setTypes_unlessNumber {other : γ → δ} {types : TypeHierarchy}
    {f : Declarations → AssembleM γ} {f' : Declarations → AssembleM δ}
    (hf : ∀ declared, declared.types = types →
      d.AssemblesUnlessNumber other (f declared) (f' (declared.rename d.spell))) :
    d.AssemblesUnlessNumber other
      (do Assembly.declare fun declared => { declared with types := types }
          f (← Assembly.declared?))
      (do Assembly.declare fun declared => { declared with types := types.rename d.spell }
          f' (← Assembly.declared?)) := by
  intro c a
  exact hf { a.declared with types := types } rfl c
    { a with declared := { a.declared with types := types } }

variable (d)

/-- Reading a domain. -/
lemma domain :
    d.AssemblesUnlessNumber (Domain.rename d.spell) Assembly.domain Assembly.domain := by
  refine Assembles.unlessNumber (d.ofReader (d.header _ _)) fun name => ?_
  refine Assembles.unlessNumber (d.ofReader (d.note (.domainStarted name))) fun _ => ?_
  have hsection : d.Assembles id
      (do let _ ← Reader.openParen; Assembly.anySection)
      (do let _ ← Reader.openParen; Assembly.anySection) :=
    (d.ofReader (d.expect _ _)).bind fun _ => d.anySection
  refine Assembles.unlessNumber (d.repeatWhile (fun _ => rfl) hsection) fun _ => ?_
  refine Assembles.unlessNumber (d.ofReader (d.expect _ _)) fun _ => ?_
  refine Assembles.unlessNumber (d.ofReader d.endOfDocument) fun _ => ?_
  refine d.declared?.unlessNumber fun declared => ?_
  refine check_unlessNumber
    (Or.inl (TypeHierarchy.ofDeclarationsValid_rename d declared.typeDeclarations))
    fun types htypes => ?_
  have hroot : types.contains rootType = true :=
    (TypeHierarchy.contains_ofDeclarations
      (TypeHierarchy.ofDeclarationsValid_eq_ok htypes).1).mpr (Or.inl (by decide))
  refine setTypes_unlessNumber fun declared hdeclared => ?_
  have hdomain : (declared.rename d.spell).toDomain (d.spell name) =
      (declared.toDomain name).rename d.spell := rfl
  simp only [hdomain]
  have htypes' : (declared.toDomain name).types = types := hdeclared
  refine check_unlessNumber (d.domainTypes (htypes'.symm ▸ hroot)) fun _ _ => ?_
  have hactions : ((declared.toDomain name).rename d.spell).actions.length =
      (declared.toDomain name).actions.length := List.length_map _
  rw [hactions]
  have hnote := d.note (.domainRead name (declared.toDomain name).actions.length)
  exact Assembles.unlessNumber (d.ofReader hnote) fun _ _ _ => Or.inl rfl

end Disguise

/-! ### Domains up to case -/

namespace Domain

/-- The text is rejected because the return type of a function is `number` in other letters. -/
def RefusesNumber (result : Except Failure Domain) : Prop :=
  ∃ type function, result = .error (.invalid (.undeclaredReturnType type function)) ∧
    fold type = numberType ∧ type ≠ numberType

/-- A domain is read from the first cursor of its text. -/
lemma result_parse {settings : Settings} {text : String} {capacity : Nat} {cursor : Cursor}
    (h : Cursor.ofText text = .ok cursor) :
    (parse settings text capacity).result =
      outcome (Assembly.domain (.document settings true capacity) (.ofCursor cursor)) := by
  unfold parse
  rw [h]
  cases hrun : Assembly.domain (.document settings true capacity) (.ofCursor cursor) <;>
    simp only [hrun] <;> rfl

/-- Reading a text is reading its tokens in disguise, unless a return type is refused that is a
number in disguise. -/
lemma parse_disguised_or_refused (d : Disguise) (settings : Settings) (capacity : Nat)
    {text : String} {cursor : Cursor} (h : Cursor.ofText text = .ok cursor) :
    outcome (Assembly.domain (.document settings true capacity) (.ofCursor (d.cursor cursor))) =
        d.result (rename d.spell) (parse settings text capacity).result ∨
      ∃ type function, (parse settings text capacity).result =
          .error (.invalid (.undeclaredReturnType type function)) ∧
        d.spell type = numberType ∧ type ≠ numberType := by
  rw [result_parse h, ← d.assembly_ofCursor]
  rcases d.domain (.document settings true capacity) (.ofCursor cursor) with
    hrun | ⟨defect, a, hrun, hdefect⟩
  · rw [hrun, outcome_mapResult]
    exact Or.inl rfl
  · rw [hrun]
    cases defect with
    | undeclaredReturnType type function => exact Or.inr ⟨type, function, rfl, hdefect⟩
    | _ => cases hdefect

/-- Two texts that differ in the case of letters only are read as domains with results that are the
same up to case, unless one of them is rejected because the return type of a function is `number` in
other letters. -/
theorem parse_sameUpToCase_or_refusesNumber (settings : Settings) (capacity : Nat)
    {text text' : String} (h : fold text = fold text') :
    SameUpToCase rename (parse settings text capacity).result
        (parse settings text' capacity).result ∨
      RefusesNumber (parse settings text capacity).result ∨
      RefusesNumber (parse settings text' capacity).result := by
  rcases (alike_of_fold_eq h).ofText with ⟨error, error', hfirst, hsecond, herror⟩ |
    ⟨cursor, cursor', hfirst, hsecond, hcursor⟩
  · refine Or.inl (sameUpToCase_of_folding_eq ?_)
    unfold parse
    rw [hfirst, hsecond]
    exact congrArg (fun e => Except.error (Failure.lexical e)) herror
  · rcases parse_disguised_or_refused Disguise.folding settings capacity hfirst with
      hread | hrefused
    · rcases parse_disguised_or_refused Disguise.folding settings capacity hsecond with
        hread' | hrefused'
      · refine Or.inl (sameUpToCase_of_folding_eq ?_)
        exact hread.symm.trans ((congrArg (fun cursor => outcome (Assembly.domain
          (.document settings true capacity) (.ofCursor cursor))) hcursor).trans hread')
      · exact Or.inr (Or.inr hrefused')
    · exact Or.inr (Or.inl hrefused)

/-- A domain with a numeric function, in small letters. -/
def smallNumberText : String := "(define (domain d) (:functions (f) - number))"

/-- The same domain with a capital. -/
def capitalNumberText : String := "(define (domain d) (:functions (f) - Number))"

/-- The two texts are the same up to case. -/
lemma fold_smallNumberText : fold smallNumberText = fold capitalNumberText := by
  decide +kernel

/-- The first text is accepted. -/
lemma isSome_parse_smallNumberText :
    (parse .lenient smallNumberText).result.toOption.isSome = true := by
  decide +kernel

/-- The second text is rejected. -/
lemma isSome_parse_capitalNumberText :
    (parse .lenient capitalNumberText).result.toOption.isSome = false := by
  decide +kernel

/-- The two texts are the same up to case, and the second one is rejected for its return type. -/
theorem parse_capitalNumberText :
    fold smallNumberText = fold capitalNumberText ∧
      RefusesNumber (parse .lenient capitalNumberText).result := by
  have hsmall := isSome_parse_smallNumberText
  have hcapital := isSome_parse_capitalNumberText
  have hread :=
    parse_sameUpToCase_or_refusesNumber .lenient Reader.documentCapacity fold_smallNumberText
  generalize (parse .lenient smallNumberText).result = result at hsmall hread
  generalize (parse .lenient capitalNumberText).result = result' at hcapital hread ⊢
  refine ⟨fold_smallNumberText, ?_⟩
  rcases hread with hsame | ⟨type, function, rfl, -⟩ | hrefused
  · cases hsame with
    | documents _ => cases hcapital
    | failures _ => cases hsmall
  · cases hsmall
  · exact hrefused

/-- Letter case matters to whether a domain is accepted. -/
theorem exists_fold_eq_parse_ne :
    fold smallNumberText = fold capitalNumberText ∧
      (∃ domain, (parse .lenient smallNumberText).result = .ok domain) ∧
      ∀ domain, (parse .lenient capitalNumberText).result ≠ .ok domain := by
  refine ⟨fold_smallNumberText, ?_, ?_⟩
  · obtain ⟨domain, hdomain⟩ := Option.isSome_iff_exists.mp isSome_parse_smallNumberText
    exact ⟨domain, Check.toOption_eq_some.mp hdomain⟩
  · intro domain hdomain
    have hcapital := isSome_parse_capitalNumberText
    rw [hdomain] at hcapital
    cases hcapital

end Domain

end Pddl
