import Pddl.Proofs.Acceptance
import Pddl.Proofs.Soundness

/-!
# Completeness of the readers of expressions

Every expression that belongs in a place and can be spelled is read back from its words there,
whatever follows them: no form is taken for another one.  The main statement is `read_render`.
-/

namespace Pddl

namespace Word

/-- A term has its own text. -/
@[simp] lemma text_term (text : String) : (term text).text = text := by
  unfold term
  split <;> rfl

/-- A term is a variable or a name. -/
lemma kind_term (text : String) : (term text).kind = .var ∨ (term text).kind = .name := by
  unfold term
  split
  · exact Or.inl rfl
  · exact Or.inr rfl

end Word

/-- A word that is not reserved announces a time or nothing. -/
lemma Head.of_not_reserved {key : String} (h : key ∉ reservedWords) :
    Head.ofKey key = .time ∨ Head.ofKey key = .symbol := by
  unfold Head.ofKey
  split
  all_goals first
    | exact absurd (by decide) h
    | exact Or.inl rfl
    | exact Or.inr rfl

/-- Two words that announce no time spell no time specifier. -/
lemma TimeSpec.ofWords?_eq_none {first second : String} (h : (first, second) ∉ timeWords) :
    ofWords? first second = none := by
  unfold ofWords?
  split
  · exact absurd (by decide) h
  · exact absurd (by decide) h
  · exact absurd (by decide) h
  · rfl

/-- The two words of a time specifier announce it. -/
lemma TimeSpec.ofWords?_words (time : TimeSpec) :
    ofWords? (fold time.words.1) (fold time.words.2) = some time := by
  cases time <;> decide

/-- The first word of a time specifier may announce a time. -/
lemma TimeSpec.head_words (time : TimeSpec) : Head.ofKey (fold time.words.1) = .time := by
  cases time <;> decide

/-- A quantifier announces itself. -/
lemma Quantifier.head_text (quantifier : Quantifier) :
    Head.ofKey (fold quantifier.text) = .quantifier quantifier := by
  cases quantifier <;> decide

/-- An update operator announces itself. -/
lemma UpdateOp.head_text (op : UpdateOp) : Head.ofKey (fold op.text) = .update op := by
  cases op <;> decide

namespace Reader

variable {c : Context} {frame : Frame} {t : Token} {K : List Word → Prop}
  {numeral : Number → String} {budget : Nat}

/-! ### Types and variables -/

/-- A type is read from words that spell it. -/
lemma typeSpec_yields {type : TypeSpec} {allowEither : Bool} {words : List Word}
    (h : type.IsSpelledBy allowEither words) :
    Yields c frame (typeSpec allowEither) words Anything (fun found => found = type) := by
  cases h with
  | named name =>
    refine currentKind_yields (fun _ _ => rfl) ?_
    rw [if_pos (show (Word.name name).kind = .name from rfl)]
    refine Yields.cons advance_yields fun t ht => pure_yields ?_
    rw [show t.text = name from congrArg Word.text ht]
  | either hallowed hhead =>
    subst hallowed
    refine currentKind_yields (fun _ _ => rfl) ?_
    rw [if_neg (show ¬ Word.opening.kind = .name by decide),
      if_pos (show (true && decide (Word.opening.kind = .openParen)) = true by decide)]
    refine Yields.cons (expect_yields rfl) fun _ _ => ?_
    refine Yields.cons (expectText_yields rfl hhead) fun _ _ => ?_
    refine Yields.cons name_yields ?_
    rintro _ rfl
    refine Yields.bind_next (textsWhile_yields (w := Word.closing) ?_ (fun _ _ => rfl) ?_)
      (fun _ _ => rfl) ?_
    · intro t ht
      simp [hasKind, show t.kind = .closeParen from congrArg Word.kind ht]
    · intro text _ t ht
      exact hasKind_eq_true.mpr (congrArg Word.kind ht)
    · rintro _ rfl
      exact Yields.cons (expect_yields rfl) fun _ _ => pure_yields rfl

/-- The input ends or a closing parenthesis follows, so a typed list ends. -/
def EndsList : List Word → Prop :=
  fun rest => headKind rest = .closeParen ∨ headKind rest = .endOfInput

/-- A typed list ends at a closing parenthesis. -/
lemma endsList_of_next {rest : List Word} (h : Next Word.closing rest) : EndsList rest := by
  obtain ⟨more, rfl⟩ := List.head?_eq_some_iff.mp h
  exact Or.inl rfl

/-- The names of a group end where a typed list does. -/
lemma halts_isListed {kind : Token.Kind} : Halts (isListed kind) EndsList := by
  intro frame rest s hends hs
  rw [← Bool.not_eq_true, isListed_eq_true, hs.currentKind]
  rintro ⟨-, hclose, hend⟩
  exact hends.elim hclose hend

/-- Names or variables, in groups with a type or without one, are read from words that list them. -/
lemma typedGroups_yields {kind : Token.Kind} {allowEither : Bool}
    (hkind : kind = .name ∨ kind = .var) {listed : List TypedName} {words : List Word}
    (h : IsTypedList kind allowEither listed words) :
    ∀ fuel : Nat, words.length < fuel →
      (Word.minus ∈ words → c.Lets frame.declared Feature.typedLists) →
      Yields c frame (typedGroups kind allowEither fuel) words EndsList
        (fun found => found = listed) := by
  have hne : kind ≠ .closeParen ∧ kind ≠ .minus ∧ kind ≠ .endOfInput := by
    rcases hkind with rfl | rfl <;> decide
  have htest : ∀ names : List String, ∀ text ∈ names, ∀ t : Token, t.word = ⟨kind, text⟩ →
      isListed kind t = true := by
    intro _ _ _ t ht
    have hsame : t.kind = kind := congrArg Word.kind ht
    rw [isListed_eq_true, hsame]
    exact ⟨rfl, hne.1, hne.2.2⟩
  induction h with
  | untyped names =>
    intro fuel hfuel _
    obtain ⟨fuel, rfl⟩ := Nat.exists_eq_succ_of_ne_zero (Nat.ne_of_gt (Nat.zero_lt_of_lt hfuel))
    refine Yields.finish
      (textsWhile_yields_of_halts halts_isListed (fun _ _ => rfl) (htest names)) ?_
    rintro _ rfl
    refine headKind_yields fun rest hends => ?_
    rw [List.nil_append]
    rcases hends with hend | hend <;> rw [hend] <;> exact pure_yields rfl
  | @group names type spelling listed words hnames htype _ ih =>
    intro fuel hfuel hlets
    obtain ⟨fuel, rfl⟩ := Nat.exists_eq_succ_of_ne_zero (Nat.ne_of_gt (Nat.zero_lt_of_lt hfuel))
    have hrest : Yields c frame (typedGroups kind allowEither fuel) words EndsList
        (fun found => found = listed) := by
      refine ih fuel ?_ fun hmem => hlets (by simp [hmem])
      rw [List.length_append, List.length_cons, List.length_append] at hfuel
      omega
    have hstop : ∀ t : Token, t.word = Word.minus → isListed kind t = false := by
      intro t ht
      have hminus : t.kind = .minus := congrArg Word.kind ht
      rw [← Bool.not_eq_true, isListed_eq_true, hminus]
      exact fun hlisted => hne.2.1 hlisted.1.symm
    refine Yields.bind_next (textsWhile_yields hstop (fun _ _ => rfl) (htest names))
      (fun _ _ => rfl) ?_
    rintro names rfl
    refine currentKind_yields (w := Word.minus) (fun _ _ => rfl) ?_
    simp only [Word.minus, List.isEmpty_eq_false_iff.mpr hnames]
    refine Yields.cons advance_yields fun minus _ => ?_
    refine Yields.skip (require_yields (hlets (by simp [Word.minus]))) fun _ _ => ?_
    refine Yields.bind (typeSpec_yields htype) ?_
    rintro type rfl
    exact Yields.map (names.map (⟨·, type⟩) ++ ·) hrest

/-- A typed list is read from words that list it. -/
lemma typedList_yields_spelled {kind : Token.Kind} {allowEither : Bool} {listed : List TypedName}
    {words : List Word} (hkind : kind = .name ∨ kind = .var)
    (h : IsTypedList kind allowEither listed words)
    (hlets : Word.minus ∈ words → c.Lets frame.declared Feature.typedLists) :
    Yields c frame (typedList kind allowEither) words EndsList (fun found => found = listed) := by
  intro rest s hclean hK hs
  have hlength := hs.length
  rw [List.length_append] at hlength
  unfold typedList
  rw [bind_of_ok rounds_run]
  exact typedGroups_yields hkind h _ (by omega) hlets rest s hclean hK hs

/-- The type of a typed name can be written in a typed list, where alternatives may be forbidden. -/
structure Listable (allowEither : Bool) (typed : TypedName) : Prop where
  spelled : typed.type.WellSpelled
  named : allowEither = false → ∃ name, typed.type = .named name

/-- The words of a type that can be written in a typed list spell it. -/
lemma Listable.isSpelledBy {allowEither : Bool} {typed : TypedName}
    (h : Listable allowEither typed) :
    typed.type.IsSpelledBy allowEither typed.type.spelling := by
  obtain ⟨name, type⟩ := typed
  cases type with
  | named name => exact .named name
  | either options =>
    have hallowed : allowEither = true := by
      by_contra hforbidden
      obtain ⟨name, hname⟩ := h.named (Bool.eq_false_iff.mpr hforbidden)
      cases hname
    obtain ⟨first, others, rfl⟩ := List.exists_cons_of_ne_nil h.spelled.ne_nil
    exact .either hallowed rfl

/-- The words of typed names, one after the other, list them. -/
lemma isTypedList_spellingAs {kind : Token.Kind} {allowEither : Bool} {listed : List TypedName}
    (h : ∀ typed ∈ listed, Listable allowEither typed) :
    IsTypedList kind allowEither listed (listed.flatMap (TypedName.spellingAs kind)) := by
  induction listed with
  | nil => exact .untyped []
  | cons typed rest ih =>
    have hrest := ih fun other hother => h other (List.mem_cons_of_mem _ hother)
    have htype := (h typed List.mem_cons_self).isSpelledBy
    have hname : [typed.name] ≠ [] := List.cons_ne_nil _ _
    exact .group hname htype hrest

/-- A typed list is read from its words. -/
lemma typedList_yields {kind : Token.Kind} {allowEither : Bool} {listed : List TypedName}
    (hkind : kind = .name ∨ kind = .var) (h : ∀ typed ∈ listed, Listable allowEither typed)
    (hlets : listed ≠ [] → c.Lets frame.declared Feature.typedLists) :
    Yields c frame (typedList kind allowEither) (listed.flatMap (TypedName.spellingAs kind))
      (Next Word.closing) (fun found => found = listed) := by
  refine (typedList_yields_spelled hkind (isTypedList_spellingAs h) fun hmem => hlets ?_).mono
    fun _ => endsList_of_next
  rintro rfl
  cases hmem

/-- Well-spelled variables can be listed with alternative types. -/
lemma listable_of_wellSpelled {typed : TypedName} (h : typed.WellSpelled) : Listable true typed :=
  ⟨h.type, nofun⟩

/-- The variables of a quantifier are read from their words. -/
lemma quantifiedVariables_yields {vars : List TypedName} (h : ∀ typed ∈ vars, typed.WellSpelled)
    (hlets : vars ≠ [] → c.Lets frame.declared Feature.typedLists) :
    Yields c frame quantifiedVariables (Word.group (vars.flatMap TypedName.spelling)) Anything
      (fun found => found = vars) := by
  refine Yields.cons (expect_yields rfl) fun _ _ => ?_
  have htyped : Yields c frame (typedList .var true) (vars.flatMap TypedName.spelling)
      (Next Word.closing) (fun found => found = vars) :=
    typedList_yields (Or.inr rfl) (fun typed hmem => listable_of_wellSpelled (h typed hmem)) hlets
  refine Yields.bind_next htyped (fun _ _ => rfl) ?_
  rintro _ rfl
  exact Yields.cons (expect_yields rfl) fun _ _ => pure_yields rfl

/-! ### Atoms -/

/-- An atom is read from the words after its opening parenthesis, whose arguments are written as
names or, unless a ground atom is asked for, as variables. -/
lemma atomicFormula_yields_spelled (atom : Atom) (spell : String → Word) {ground : Bool}
    (htext : ∀ arg ∈ atom.args, (spell arg).text = arg)
    (hkind : ∀ arg ∈ atom.args,
      (spell arg).kind = .name ∨ ground = false ∧ (spell arg).kind = .var) :
    Yields c frame (atomicFormula ground)
      (Word.name atom.name :: (atom.args.map spell ++ [Word.closing])) Anything
      (fun found => found = atom) := by
  refine Yields.cons name_yields ?_
  rintro _ rfl
  refine Yields.bind_next (textsWhile_yields (w := Word.closing) ?_ htext ?_) (fun _ _ => rfl) ?_
  · intro t ht
    simp [isArgument, show t.kind = .closeParen from congrArg Word.kind ht]
  · intro arg harg t ht
    have hsame : t.kind = (spell arg).kind := congrArg Word.kind ht
    rcases hkind arg harg with h | ⟨rfl, h⟩ <;> simp [isArgument, hsame, h]
  · rintro _ rfl
    refine currentKind_yields (w := Word.closing) (fun _ _ => rfl) ?_
    rw [if_neg (by simp [Word.closing])]
    exact Yields.cons (expect_yields rfl) fun _ _ => pure_yields rfl

/-- An atom is read from the words after its opening parenthesis; where a ground atom is asked for,
it has to be one. -/
lemma atomicFormula_yields_of {atom : Atom} {ground : Bool}
    (hground : ground = true → atom.isGround = true) :
    Yields c frame (atomicFormula ground)
      (Word.name atom.name :: (atom.args.map Word.term ++ [Word.closing])) Anything
      (fun found => found = atom) := by
  refine atomicFormula_yields_spelled atom Word.term (fun arg _ => Word.text_term arg)
    fun arg harg => ?_
  cases ground with
  | false => exact (Word.kind_term arg).symm.imp_right fun h => ⟨rfl, h⟩
  | true =>
    have hname : isVariable arg = false := by
      have hall : (!atom.args.any isVariable) = true := hground rfl
      rw [Bool.not_eq_true', List.any_eq_false] at hall
      exact Bool.eq_false_iff.mpr (hall arg harg)
    exact Or.inl (by simp [Word.term, hname, Word.name])

/-- An atom is read from the words after its opening parenthesis. -/
lemma atomicFormula_yields {atom : Atom} :
    Yields c frame (atomicFormula false)
      (Word.name atom.name :: (atom.args.map Word.term ++ [Word.closing])) Anything
      (fun found => found = atom) :=
  atomicFormula_yields_of nofun

/-- An atom is read from its words. -/
lemma parenthesizedAtom_yields {atom : Atom} {ground : Bool}
    (hground : ground = true → atom.isGround = true) :
    Yields c frame (parenthesizedAtom ground) atom.spelling Anything
      (fun found => found = atom) :=
  Yields.cons (expect_yields rfl) fun _ _ => atomicFormula_yields_of hground

/-- A fluent is read from its words. -/
lemma fluent_yields {atom : Atom}
    (hlimit : ∀ limit ∈ c.settings.maxNestingDepth, frame.depth + 1 ≤ limit) :
    Yields c frame fluent atom.spelling Anything (fun found => found = atom) := by
  refine currentKind_yields (fun _ _ => rfl) ?_
  rw [if_neg (by decide)]
  refine nested_yields hlimit ?_
  exact Yields.cons (expect_yields rfl) fun _ _ => atomicFormula_yields

/-! ### What it takes to be read -/

/-- The expression can be read back where it stands: it is well spelled, the features it uses are
let pass, and there is room for it below the nesting limit and within the budget. -/
structure Fits (c : Context) (numeral : Number → String) (frame : Frame) (budget : Nat)
    (position : Position) (e : Expr) : Prop where
  spelled : e.WellSpelled numeral
  features : ∀ feature, position.Uses e feature → c.Lets frame.declared feature
  arithmetic : c.governs = true → (∃ part ∈ e.walk, part.IsArithmetic) →
    ":numeric-fluents" ∈ frame.declared
  depth : ∀ limit ∈ c.settings.maxNestingDepth, frame.depth + e.nesting ≤ limit
  budget : e.height ≤ budget

variable {position inner : Position} {e part : Expr}

/-- The parts of an expression that can be read can be read one level deeper. -/
lemma Fits.inside (h : Fits c numeral frame (budget + 1) position e)
    (hpart : (inner, part) ∈ position.parts e) : Fits c numeral frame.deeper budget inner part := by
  have hchild := Position.mem_children_of_mem_parts hpart
  refine ⟨h.spelled.child hchild, fun feature huses => h.features feature (.inside hpart huses),
    ?_, ?_, ?_⟩
  · rintro hgoverns ⟨deep, hdeep, harith⟩
    exact h.arithmetic hgoverns ⟨deep, Expr.mem_walk_of_child hchild hdeep, harith⟩
  · intro limit hlimit
    have hnesting : part.nesting + 1 ≤ e.nesting := Expr.levels_child hchild
    have hdepth := h.depth limit hlimit
    change frame.depth + 1 + part.nesting ≤ limit
    omega
  · have hheight : part.height + 1 ≤ e.height := Expr.levels_child hchild
    have hbudget := h.budget
    omega

/-- There is room for the level of an expression in parentheses. -/
lemma Fits.level (h : Fits c numeral frame budget position e) (hnesting : 1 ≤ e.nesting) :
    ∀ limit ∈ c.settings.maxNestingDepth, frame.depth + 1 ≤ limit := by
  intro limit hlimit
  have hdepth := h.depth limit hlimit
  omega

/-- An expression that can be read has some budget. -/
lemma Fits.budget_pos (h : Fits c numeral frame budget position e) : ∃ n, budget = n + 1 := by
  have hpos : 1 ≤ e.height := by
    cases e <;> simp [Expr.height, Expr.levels]
  exact ⟨budget - 1, by have := h.budget; omega⟩

/-! ### Numeric terms -/

/-- Arithmetic that is let pass is allowed. -/
lemma arithmeticAllowed_yields
    (h : c.governs = true → ":numeric-fluents" ∈ frame.declared) :
    Yields c frame arithmeticAllowed [] K (fun allowed => allowed = true) := by
  intro rest s _ _ hs
  refine ⟨_, s, rfl, ?_, hs⟩
  rw [hs.declared]
  cases hgoverns : c.governs with
  | false => rfl
  | true => simpa using h hgoverns

/-- The words of an expression start with none that ends a form. -/
lemma starts_words (e : Expr) :
    Starts (fun t => decide (t.kind ≠ .closeParen)) (e.words numeral) := by
  have hgroup : ∀ words, Starts (fun t => decide (t.kind ≠ .closeParen)) (Word.group words) :=
    fun words => ⟨Word.opening, _, rfl, fun t ht => by
      simp [show t.kind = .openParen from congrArg Word.kind ht]⟩
  cases e with
  | term name =>
    refine ⟨Word.term name, [], rfl, fun t ht => ?_⟩
    have hkind : t.kind = (Word.term name).kind := congrArg Word.kind ht
    rcases Word.kind_term name with h | h <;> simp [hkind, h]
  | number value =>
    exact ⟨_, [], rfl, fun t ht => by simp [show t.kind = .number from congrArg Word.kind ht]⟩
  | _ => exact hgroup _

/-- Arithmetic is read from its operator on. -/
lemma arithmetic_yields {term : ReadM Expr} {op : ArithOp} {operands : List Expr}
    (harity : op.HasArity operands.length)
    (hallowed : c.governs = true → ":numeric-fluents" ∈ frame.declared)
    (hterm : ∀ e ∈ operands, Yields c frame term (e.words numeral) Anything (fun f => f = e)) :
    Yields c frame (arithmetic term)
      (op.word :: (Expr.wordsAll numeral operands ++ [Word.closing])) Anything
      (fun e => e = .arith op operands) := by
  refine current_yields (fun _ _ => rfl) fun t ht => ?_
  have hop : ArithOp.ofText? t.text = some op := by
    rw [show t.text = op.text from congrArg Word.text ht]
    cases op <;> rfl
  simp only [hop]
  refine Yields.skip (arithmeticAllowed_yields hallowed) ?_
  rintro _ rfl
  rw [if_pos rfl]
  refine Yields.cons advance_yields fun _ _ => ?_
  rw [Expr.wordsAll_eq_flatMap]
  refine Yields.bind_next
    (readWhile_yields (w := Word.closing) ?_ (fun e _ => starts_words e) hterm)
    (fun _ _ => rfl) ?_
  · intro t ht
    simp [show t.kind = .closeParen from congrArg Word.kind ht]
  · rintro _ rfl
    rw [if_pos (ArithOp.accepts_iff.mpr harity)]
    exact Yields.cons advance_yields fun _ _ => pure_yields rfl

/-- A number is read from its numeral. -/
lemma number_yields {value : Number} (h : Number.ofText? (numeral value) = some value) :
    Yields c frame number [⟨.number, numeral value⟩] Anything (fun found => found = value) := by
  refine Yields.cons (expect_yields rfl) fun t ht => ?_
  have hvalue : Number.ofText? t.text = some value := by
    rw [show t.text = numeral value from congrArg Word.text ht, h]
  simp only [hvalue]
  exact pure_yields rfl

/-- A numeric term is read from its words. -/
lemma numericTerm_yields (h : e.IsNumeric) :
    ∀ (frame : Frame) (budget : Nat), Fits c numeral frame budget .numeric e →
      Yields c frame (numericTerm budget) (e.words numeral) Anything (fun found => found = e) := by
  induction h with
  | number value =>
    intro frame budget hfits
    obtain ⟨n, rfl⟩ := hfits.budget_pos
    refine currentKind_yields (fun _ _ => rfl) ?_
    exact Yields.map Expr.number (number_yields hfits.spelled.own.2)
  | term name =>
    intro frame budget hfits
    obtain ⟨n, rfl⟩ := hfits.budget_pos
    refine currentKind_yields (w := Word.term name) (fun _ _ => rfl) ?_
    have hread : Yields c frame (do return .term (← advance).text : ReadM Expr) [Word.term name]
        Anything (fun found => found = .term name) := by
      refine Yields.cons advance_yields fun t ht => pure_yields ?_
      rw [show t.text = name from (congrArg Word.text ht).trans (Word.text_term name)]
    rcases Word.kind_term name with hkind | hkind
    · rw [hkind]
      exact hread
    · rw [hkind]
      exact hread
  | atom atom =>
    intro frame budget hfits
    obtain ⟨n, rfl⟩ := hfits.budget_pos
    refine currentKind_yields (fun _ _ => rfl) (nested_yields (hfits.level (Nat.le_refl _)) ?_)
    refine Yields.cons advance_yields fun _ _ => ?_
    refine currentKind_yields (w := Word.name atom.name) (fun _ _ => rfl) ?_
    exact Yields.map Expr.atom atomicFormula_yields
  | @arith op operands harity hall ih =>
    intro frame budget hfits
    obtain ⟨n, rfl⟩ := hfits.budget_pos
    refine currentKind_yields (fun _ _ => rfl)
      (nested_yields (hfits.level (Nat.le_add_left 1 _)) ?_)
    refine Yields.cons advance_yields fun _ _ => ?_
    refine currentKind_yields (w := op.word) (fun _ _ => rfl) ?_
    have hread : Yields c frame.deeper (arithmetic (numericTerm n))
        (op.word :: (Expr.wordsAll numeral operands ++ [Word.closing])) Anything
        (fun found => found = .arith op operands) := by
      refine arithmetic_yields harity ?_ ?_
      · exact fun hgoverns => hfits.arithmetic hgoverns ⟨_, Expr.self_mem_walk _, True.intro⟩
      · exact fun e he => ih e he frame.deeper n (hfits.inside (List.mem_map_of_mem he))
    cases op <;> exact hread

/-! ### Shared forms -/

/-- A comparison is read from its operator on. -/
lemma comparison_yields {term : ReadM Expr} {governed : Bool} {op : CompareOp} {left right : Expr}
    (hlets : governed = true → c.Lets frame.declared
      (if left.isTerm && right.isTerm then Feature.termEquality else Feature.numericComparisons))
    (hleft : Yields c frame term (left.words numeral) Anything (fun e => e = left))
    (hright : Yields c frame term (right.words numeral) Anything (fun e => e = right)) :
    Yields c frame (comparison term governed)
      (op.word :: (left.words numeral ++ right.words numeral ++ [Word.closing])) Anything
      (fun e => e = .compare op left right) := by
  refine current_yields (fun _ _ => rfl) fun t ht => ?_
  have hop : CompareOp.ofText? t.text = some op := by
    rw [show t.text = op.text from congrArg Word.text ht]
    cases op <;> rfl
  simp only [hop]
  refine Yields.cons advance_yields fun _ _ => ?_
  rw [List.append_assoc]
  refine Yields.bind hleft ?_
  rintro first rfl
  refine Yields.bind hright ?_
  rintro second rfl
  have hclose : Yields c frame (do
      closeForm t "comparisons take exactly two arguments"
      return .compare op first second : ReadM Expr) [Word.closing] Anything
      (fun e => e = .compare op first second) :=
    Yields.cons closeForm_yields fun _ _ => pure_yields rfl
  by_cases hgoverned : governed = true
  · rw [if_pos hgoverned]
    exact Yields.skip (require_yields (hlets hgoverned)) fun _ _ => hclose
  · rw [if_neg hgoverned]
    exact hclose

/-- A look at the two words of a time specifier finds it. -/
lemma timeAhead?_found {time : TimeSpec} {f : Option TimeSpec → ReadM Expr} {us : List Word}
    {Q : Expr → Prop}
    (hf : Yields c frame (f (some time))
      (Word.name time.words.1 :: Word.name time.words.2 :: us) K Q) :
    Yields c frame (timeAhead? >>= f)
      (Word.name time.words.1 :: Word.name time.words.2 :: us) K Q :=
  timeAhead?_yields time.ofWords?_words hf

/-- A timed expression that is allowed is read from its time specifier on. -/
lemma timed_yields {time : TimeSpec} {inEffect : Bool} {operand : ReadM Expr} {inner : Expr}
    (htime : inEffect = true → time ≠ .overAll)
    (hlets : c.Lets frame.declared Feature.timeSpecifiers)
    (hinner : Yields c frame operand (inner.words numeral) Anything (fun e => e = inner)) :
    Yields c frame (timed time true inEffect operand)
      (Word.name time.words.1 :: Word.name time.words.2 ::
        (inner.words numeral ++ [Word.closing])) Anything
      (fun e => e = .timed time inner) := by
  unfold timed
  rw [if_pos rfl]
  refine Yields.cons advance_yields fun _ _ => Yields.cons advance_yields fun _ _ => ?_
  have hover : ¬ (inEffect && decide (time = .overAll)) = true := by
    rw [Bool.and_eq_true, decide_eq_true_eq]
    exact fun h => htime h.1 h.2
  rw [if_neg hover]
  exact Yields.skip (require_yields hlets) fun _ _ => Yields.closed (Expr.timed time) hinner

/-- Operands are read up to and with the closing parenthesis around them. -/
lemma operands_yields {operand : ReadM Expr} {es : List Expr}
    (hstarts : ∀ e ∈ es, Starts (hasKind .openParen) (e.words numeral))
    (hoperand : ∀ e ∈ es, Yields c frame operand (e.words numeral) Anything (fun f => f = e)) :
    Yields c frame (operands operand) (Expr.wordsAll numeral es ++ [Word.closing]) Anything
      (fun found => found = es) := by
  rw [Expr.wordsAll_eq_flatMap]
  refine Yields.bind_next (readWhile_yields (w := Word.closing) ?_ hstarts hoperand)
    (fun _ _ => rfl) ?_
  · intro t ht
    simp [hasKind, show t.kind = .closeParen from congrArg Word.kind ht]
  · rintro _ rfl
    exact Yields.cons (expect_yields rfl) fun _ _ => pure_yields rfl

/-- A quantified expression is read from its variables on. -/
lemma quantified_yields {quantifier : Quantifier} {vars : List TypedName} {operand : ReadM Expr}
    {inner : Expr} {opener : Token} {reason : String}
    (hspelled : ∀ typed ∈ vars, typed.WellSpelled)
    (hlets : vars ≠ [] → c.Lets frame.declared Feature.typedLists)
    (hinner : Yields c frame operand (inner.words numeral) Anything (fun e => e = inner)) :
    Yields c frame (do
        let vars ← quantifiedVariables
        let operand ← operand
        closeForm opener reason
        return Expr.quantified quantifier vars operand)
      (Word.group (vars.flatMap TypedName.spelling) ++ inner.words numeral ++ [Word.closing])
      Anything (fun e => e = Expr.quantified quantifier vars inner) := by
  rw [List.append_assoc]
  refine Yields.bind (quantifiedVariables_yields hspelled hlets) ?_
  rintro found rfl
  exact Yields.closed (Expr.quantified quantifier found) hinner

/-- Words in parentheses start with an opening one. -/
lemma starts_group (words : List Word) : Starts (hasKind .openParen) (Word.group words) :=
  ⟨Word.opening, _, rfl, fun _ ht => hasKind_eq_true.mpr (congrArg Word.kind ht)⟩

/-- Two words that start an atom announce no time if the atom is plain. -/
lemma atom_announces_no_time {atom : Atom} (hplain : atom.IsPlain) {second : Word}
    {more : List Word} (hwords : atom.args.map Word.term ++ [Word.closing] = second :: more) :
    (if second.kind = .name then TimeSpec.ofWords? (fold atom.name) (fold second.text) else none) =
      none := by
  by_cases hname : second.kind = .name
  · rw [if_pos hname]
    cases hargs : atom.args with
    | nil =>
      rw [hargs] at hwords
      cases hwords
      cases hname
    | cons arg args =>
      rw [hargs] at hwords
      obtain ⟨rfl, -⟩ := List.cons.inj hwords
      rw [Word.text_term]
      exact TimeSpec.ofWords?_eq_none (hplain.start arg (by rw [hargs]; rfl))
  · rw [if_neg hname]

/-- A plain atom is read also where a look ahead seeks a time. -/
lemma untimed_yields {atom : Atom} (hplain : atom.IsPlain) {f : Option TimeSpec → ReadM Expr}
    (hf : f none = do return .atom (← atomicFormula false)) :
    Yields c frame (timeAhead? >>= f)
      (Word.name atom.name :: (atom.args.map Word.term ++ [Word.closing])) Anything
      (fun e => e = .atom atom) := by
  obtain ⟨second, more, hwords⟩ : ∃ second more,
      atom.args.map Word.term ++ [Word.closing] = second :: more :=
    List.exists_cons_of_ne_nil (by simp)
  have hnone := atom_announces_no_time hplain hwords
  have hread : Yields c frame (f none) (Word.name atom.name :: second :: more) Anything
      (fun e => e = .atom atom) := by
    rw [hf, ← hwords]
    exact Yields.map Expr.atom atomicFormula_yields
  rw [hwords]
  exact timeAhead?_yields hnone hread

/-- The token of a name has its kind and its folded text. -/
lemma name_of_word {text : String} (h : t.word = Word.name text) :
    t.kind = .name ∧ t.key = fold text := by
  refine ⟨congrArg Word.kind h, ?_⟩
  rw [Token.key, show t.text = text from congrArg Word.text h]

/-- A form in parentheses is read one level deeper, by what its first word announces. -/
lemma form_yields {expected : String} {body : Token → ReadM Expr} {Q : Expr → Prop} {first : Word}
    {inner : List Word} (hlimit : ∀ limit ∈ c.settings.maxNestingDepth, frame.depth + 1 ≤ limit)
    (hbody : ∀ t : Token, t.word = first →
      Yields c frame.deeper (body t) (first :: (inner ++ [Word.closing])) K Q) :
    Yields c frame (nested do
        let _ ← expect .openParen expected
        let token ← current
        body token) (Word.group (first :: inner)) K Q :=
  nested_yields hlimit (Yields.cons (expect_yields rfl) fun _ _ =>
    current_yields (fun _ _ => rfl) hbody)

/-- A form that starts with a name is read by what that name announces in any letter case. -/
lemma namedForm_yields {expected text : String} {body : Token → ReadM Expr} {Q : Expr → Prop}
    {inner : List Word} (hlimit : ∀ limit ∈ c.settings.maxNestingDepth, frame.depth + 1 ≤ limit)
    (hbody : ∀ t : Token, t.kind = .name → t.key = fold text →
      Yields c frame.deeper (body t) (Word.name text :: (inner ++ [Word.closing])) K Q) :
    Yields c frame (nested do
        let _ ← expect .openParen expected
        let token ← current
        body token) (Word.group (Word.name text :: inner)) K Q :=
  form_yields hlimit fun t ht => hbody t (name_of_word ht).1 (name_of_word ht).2

/-! ### Conditions -/

/-- The words of a condition start with an opening parenthesis. -/
lemma starts_condition {temporal : Bool} (h : e.IsCondition temporal) :
    Starts (hasKind .openParen) (e.words numeral) := by
  cases h <;> exact starts_group _

/-- A condition is read from its words. -/
lemma condition_yields {temporal : Bool} (h : e.IsCondition temporal) :
    ∀ (frame : Frame) (budget : Nat), Fits c numeral frame budget (.condition temporal) e →
      Yields c frame (condition budget temporal) (e.words numeral) Anything
        (fun found => found = e) := by
  induction h with
  | @atom temporal atom hplain =>
    intro frame budget hfits
    obtain ⟨n, rfl⟩ := hfits.budget_pos
    refine namedForm_yields (hfits.level (Nat.le_refl _)) fun t hkind hkey => ?_
    rcases Head.of_not_reserved hplain.name with hhead | hhead
    · simp only [hkind, hkey, hhead]
      exact untimed_yields hplain rfl
    · simp only [hkind, hkey, hhead]
      exact Yields.map Expr.atom atomicFormula_yields
  | @and temporal operands hall ih =>
    intro frame budget hfits
    obtain ⟨n, rfl⟩ := hfits.budget_pos
    refine namedForm_yields (hfits.level (Nat.le_add_left 1 _)) fun t hkind hkey => ?_
    have hhead : Head.ofKey (fold "and") = .conjunction := by decide
    simp only [hkind, hkey, hhead]
    have hoperands := operands_yields (fun e he => starts_condition (hall e he)) fun e he =>
      ih e he frame.deeper n (hfits.inside (List.mem_map_of_mem he))
    exact Yields.cons advance_yields fun _ _ => Yields.map Expr.and hoperands
  | @or temporal operands hall ih =>
    intro frame budget hfits
    obtain ⟨n, rfl⟩ := hfits.budget_pos
    refine namedForm_yields (hfits.level (Nat.le_add_left 1 _)) fun t hkind hkey => ?_
    have hhead : Head.ofKey (fold "or") = .disjunction := by decide
    simp only [hkind, hkey, hhead]
    have hlets := hfits.features Feature.disjunctions (.here List.mem_cons_self)
    have hoperands := operands_yields (fun e he => starts_condition (hall e he)) fun e he =>
      ih e he frame.deeper n (hfits.inside (List.mem_map_of_mem he))
    refine Yields.cons advance_yields fun _ _ => ?_
    exact Yields.skip (require_yields hlets) fun _ _ => Yields.map Expr.or hoperands
  | @not temporal operand h ih =>
    intro frame budget hfits
    obtain ⟨n, rfl⟩ := hfits.budget_pos
    refine namedForm_yields (hfits.level (Nat.le_add_left 1 _)) fun t hkind hkey => ?_
    have hhead : Head.ofKey (fold "not") = .negation := by decide
    simp only [hkind, hkey, hhead]
    have hoperand := ih frame.deeper n (hfits.inside List.mem_cons_self)
    exact Yields.cons advance_yields fun _ _ => Yields.closed Expr.not hoperand
  | @quantified temporal quantifier vars operand h ih =>
    intro frame budget hfits
    obtain ⟨n, rfl⟩ := hfits.budget_pos
    refine namedForm_yields (hfits.level (Nat.le_add_left 1 _)) fun t hkind hkey => ?_
    simp only [hkind, hkey, quantifier.head_text]
    refine Yields.cons advance_yields fun _ _ => ?_
    have hlets := hfits.features (quantifierFeature quantifier) (.here List.mem_cons_self)
    refine Yields.skip (require_yields hlets) fun _ _ => ?_
    refine quantified_yields hfits.spelled.own ?_
      (ih frame.deeper n (hfits.inside List.mem_cons_self))
    intro hvars
    obtain ⟨typed, rest, rfl⟩ := List.exists_cons_of_ne_nil hvars
    exact hfits.features Feature.typedLists (.here (List.mem_cons_of_mem _ List.mem_cons_self))
  | @compare temporal op left right hleft hright =>
    intro frame budget hfits
    obtain ⟨n, rfl⟩ := hfits.budget_pos
    refine form_yields (hfits.level (Nat.le_add_left 1 _)) fun t ht => ?_
    simp only [show t.kind = .operator from congrArg Word.kind ht]
    refine comparison_yields (fun _ => hfits.features _ (.here List.mem_cons_self)) ?_ ?_
    · exact numericTerm_yields hleft frame.deeper n (hfits.inside List.mem_cons_self)
    · exact numericTerm_yields hright frame.deeper n
        (hfits.inside (List.mem_cons_of_mem _ List.mem_cons_self))
  | @timed time operand h ih =>
    intro frame budget hfits
    obtain ⟨n, rfl⟩ := hfits.budget_pos
    refine namedForm_yields (hfits.level (Nat.le_add_left 1 _)) fun t hkind hkey => ?_
    simp only [hkind, hkey, time.head_words]
    refine timeAhead?_found ?_
    refine timed_yields (by simp) (hfits.features _ (.here List.mem_cons_self)) ?_
    exact ih frame.deeper n (hfits.inside List.mem_cons_self)

/-! ### Effects -/

/-- The words of an effect start with an opening parenthesis. -/
lemma starts_effect {temporal : Bool} (h : e.IsEffect temporal) :
    Starts (hasKind .openParen) (e.words numeral) := by
  cases h <;> exact starts_group _

/-- An update is read from its operator on. -/
lemma numericUpdate_yields {term : ReadM Expr} {op : UpdateOp} {fluent : Atom} {value : Expr}
    (hlimit : ∀ limit ∈ c.settings.maxNestingDepth, frame.depth + 1 ≤ limit)
    (hlets : c.Lets frame.declared Feature.numericEffects)
    (hvalue : Yields c frame term (value.words numeral) Anything (fun e => e = value)) :
    Yields c frame (numericUpdate op term)
      (Word.name op.text :: (fluent.spelling ++ value.words numeral ++ [Word.closing])) Anything
      (fun e => e = .update op fluent value) := by
  refine Yields.cons advance_yields fun _ _ => ?_
  refine Yields.skip (require_yields hlets) fun _ _ => ?_
  rw [List.append_assoc]
  refine Yields.bind (fluent_yields hlimit) ?_
  rintro target rfl
  exact Yields.closed (Expr.update op target) hvalue

/-- An effect is read from its words. -/
lemma effect_yields {temporal : Bool} (h : e.IsEffect temporal) :
    ∀ (frame : Frame) (budget : Nat), Fits c numeral frame budget (.effect temporal) e →
      Yields c frame (effect budget temporal) (e.words numeral) Anything
        (fun found => found = e) := by
  induction h with
  | @atom temporal atom hplain =>
    intro frame budget hfits
    obtain ⟨n, rfl⟩ := hfits.budget_pos
    refine namedForm_yields (hfits.level (Nat.le_refl _)) fun t hkind hkey => ?_
    rcases Head.of_not_reserved hplain.name with hhead | hhead
    · simp only [hkind, hkey, hhead]
      exact untimed_yields hplain rfl
    · simp only [hkind, hkey, hhead]
      exact Yields.map Expr.atom atomicFormula_yields
  | @and temporal operands hall ih =>
    intro frame budget hfits
    obtain ⟨n, rfl⟩ := hfits.budget_pos
    refine namedForm_yields (hfits.level (Nat.le_add_left 1 _)) fun t hkind hkey => ?_
    have hhead : Head.ofKey (fold "and") = .conjunction := by decide
    simp only [hkind, hkey, hhead]
    have hoperands := operands_yields (fun e he => starts_effect (hall e he)) fun e he =>
      ih e he frame.deeper n (hfits.inside (List.mem_map_of_mem he))
    exact Yields.cons advance_yields fun _ _ => Yields.map Expr.and hoperands
  | @not temporal atom =>
    intro frame budget hfits
    obtain ⟨n, rfl⟩ := hfits.budget_pos
    refine namedForm_yields (hfits.level (Nat.le_add_left 1 _)) fun t hkind hkey => ?_
    have hhead : Head.ofKey (fold "not") = .negation := by decide
    simp only [hkind, hkey, hhead]
    have hatom : Fits c numeral frame.deeper n .numeric (.atom atom) :=
      hfits.inside List.mem_cons_self
    refine Yields.cons advance_yields fun _ _ => ?_
    exact Yields.closed (fun deleted => Expr.not (.atom deleted))
      (nested_yields (hatom.level (Nat.le_refl _)) (parenthesizedAtom_yields nofun))
  | @forAll temporal vars operand h ih =>
    intro frame budget hfits
    obtain ⟨n, rfl⟩ := hfits.budget_pos
    refine namedForm_yields (hfits.level (Nat.le_add_left 1 _)) fun t hkind hkey => ?_
    simp only [hkind, hkey, Quantifier.head_text]
    refine Yields.cons advance_yields fun _ _ => ?_
    have hlets := hfits.features Feature.universalEffects (.here List.mem_cons_self)
    refine Yields.skip (require_yields hlets) fun _ _ => ?_
    refine quantified_yields hfits.spelled.own ?_
      (ih frame.deeper n (hfits.inside List.mem_cons_self))
    intro hvars
    obtain ⟨typed, rest, rfl⟩ := List.exists_cons_of_ne_nil hvars
    exact hfits.features Feature.typedLists (.here (List.mem_cons_of_mem _ List.mem_cons_self))
  | @when temporal premise outcome hpremise houtcome ih =>
    intro frame budget hfits
    obtain ⟨n, rfl⟩ := hfits.budget_pos
    refine namedForm_yields (hfits.level (Nat.le_add_left 1 _)) fun t hkind hkey => ?_
    have hhead : Head.ofKey (fold "when") = .conditional := by decide
    simp only [hkind, hkey, hhead]
    refine Yields.cons advance_yields fun _ _ => ?_
    have hlets := hfits.features Feature.conditionalEffects (.here List.mem_cons_self)
    refine Yields.skip (require_yields hlets) fun _ _ => ?_
    rw [List.append_assoc]
    refine Yields.bind (condition_yields hpremise frame.deeper n
      (hfits.inside List.mem_cons_self)) ?_
    rintro found rfl
    exact Yields.closed (Expr.when found) (ih frame.deeper n
      (hfits.inside (List.mem_cons_of_mem _ List.mem_cons_self)))
  | @update temporal op fluent value hvalue =>
    intro frame budget hfits
    obtain ⟨n, rfl⟩ := hfits.budget_pos
    refine namedForm_yields (hfits.level (Nat.le_add_left 1 _)) fun t hkind hkey => ?_
    simp only [hkind, hkey, op.head_text]
    have hfluent : Fits c numeral frame.deeper n .numeric (.atom fluent) :=
      hfits.inside List.mem_cons_self
    refine numericUpdate_yields (hfluent.level (Nat.le_refl _))
      (hfits.features _ (.here List.mem_cons_self)) ?_
    exact numericTerm_yields hvalue frame.deeper n
      (hfits.inside (List.mem_cons_of_mem _ List.mem_cons_self))
  | @timed time operand htime h ih =>
    intro frame budget hfits
    obtain ⟨n, rfl⟩ := hfits.budget_pos
    refine namedForm_yields (hfits.level (Nat.le_add_left 1 _)) fun t hkind hkey => ?_
    simp only [hkind, hkey, time.head_words]
    refine timeAhead?_found ?_
    refine timed_yields (fun _ => htime) (hfits.features _ (.here List.mem_cons_self)) ?_
    exact ih frame.deeper n (hfits.inside List.mem_cons_self)

/-! ### Duration constraints -/

/-- The words of a duration constraint start with an opening parenthesis. -/
lemma starts_duration (h : e.IsDuration) : Starts (hasKind .openParen) (e.words numeral) := by
  cases h <;> exact starts_group _

/-- A duration constraint is read from its words. -/
lemma durationConstraint_yields (h : e.IsDuration) :
    ∀ (frame : Frame) (budget : Nat), Fits c numeral frame budget .duration e →
      Yields c frame (durationConstraint budget) (e.words numeral) Anything
        (fun found => found = e) := by
  induction h with
  | @and operands hall ih =>
    intro frame budget hfits
    obtain ⟨n, rfl⟩ := hfits.budget_pos
    refine namedForm_yields (hfits.level (Nat.le_add_left 1 _)) fun t hkind hkey => ?_
    simp only [hkind, hkey]
    rw [if_pos (by decide)]
    have hlets := hfits.features Feature.durationConjunctions (.here List.mem_cons_self)
    have hoperands := operands_yields (fun e he => starts_duration (hall e he)) fun e he =>
      ih e he frame.deeper n (hfits.inside (List.mem_map_of_mem he))
    refine Yields.cons advance_yields fun _ _ => ?_
    exact Yields.skip (require_yields hlets) fun _ _ => Yields.map Expr.and hoperands
  | @compare op left right hleft hright =>
    intro frame budget hfits
    obtain ⟨n, rfl⟩ := hfits.budget_pos
    refine form_yields (hfits.level (Nat.le_add_left 1 _)) fun t ht => ?_
    simp only [show t.kind = .operator from congrArg Word.kind ht]
    refine comparison_yields (by simp) ?_ ?_
    · exact numericTerm_yields hleft frame.deeper n (hfits.inside List.mem_cons_self)
    · exact numericTerm_yields hright frame.deeper n
        (hfits.inside (List.mem_cons_of_mem _ List.mem_cons_self))
  | @timed time operand htime h ih =>
    intro frame budget hfits
    obtain ⟨n, rfl⟩ := hfits.budget_pos
    refine namedForm_yields (hfits.level (Nat.le_add_left 1 _)) fun t hkind hkey => ?_
    have hand : fold time.words.1 ≠ "and" := by cases time <;> decide
    simp only [hkind, hkey]
    rw [if_neg hand]
    refine timeAhead?_found ?_
    refine timed_yields (fun _ => htime) (hfits.features _ (.here List.mem_cons_self)) ?_
    exact ih frame.deeper n (hfits.inside List.mem_cons_self)

/-! ### All places -/

/-- In the context, with the given flags declared and so many levels open, nothing stands against
the expression: the features it uses are let pass, arithmetic has its flag, and there is room. -/
structure Context.Permits (c : Context) (declared : List String) (depth : Nat)
    (position : Position) (e : Expr) : Prop where
  features : ∀ feature, position.Uses e feature → c.Lets declared feature
  arithmetic : c.governs = true → (∃ part ∈ e.walk, part.IsArithmetic) →
    ":numeric-fluents" ∈ declared
  depth : ∀ limit ∈ c.settings.maxNestingDepth, depth + e.nesting ≤ limit
  capacity : ∀ capacity ∈ c.capacity, e.height ≤ capacity

/-- An expression that belongs in a place is read from its words there, within a budget. -/
lemma readWithin_yields (hclass : position.Admits e)
    (hfits : Fits c numeral frame budget position e) :
    Yields c frame (position.readWithin budget) (e.words numeral) Anything
      (fun found => found = e) := by
  cases position with
  | numeric => exact numericTerm_yields hclass frame budget hfits
  | condition temporal => exact condition_yields hclass frame budget hfits
  | effect temporal => exact effect_yields hclass frame budget hfits
  | duration => exact durationConstraint_yields hclass frame budget hfits

/-- The words of an expression leave budget enough for it if the capacity of the context does. -/
lemma budget_eq_ok {s : State} {rest : List Word}
    (hcapacity : ∀ capacity ∈ c.capacity, e.height ≤ capacity)
    (hs : Stands frame (e.words numeral ++ rest) s) :
    ∃ n, Reader.budget c s = .ok n s ∧ e.height ≤ n := by
  obtain ⟨settings, governs, capacity⟩ := c
  cases capacity with
  | some capacity => exact ⟨capacity, rfl, hcapacity capacity rfl⟩
  | none =>
    refine ⟨s.cursor.unread + 1, rfl, ?_⟩
    have hheight : e.height ≤ (e.words numeral).length := Expr.levels_le_length numeral e
    have hlength := hs.length
    rw [List.length_append] at hlength
    omega

/-- An expression that belongs in a place is read from its words there. -/
lemma reader_yields (hclass : position.Admits e) (hspelled : e.WellSpelled numeral)
    (hpermits : c.Permits frame.declared frame.depth position e) :
    Yields c frame position.reader (e.words numeral) Anything (fun found => found = e) := by
  intro rest s hclean hK hs
  obtain ⟨n, hbudget, hheight⟩ := budget_eq_ok hpermits.capacity hs
  rw [Position.reader_eq, bind_of_ok hbudget]
  exact readWithin_yields hclass ⟨hspelled, hpermits.features, hpermits.arithmetic, hpermits.depth,
    hheight⟩ rest s hclean hK hs

/-- The text of an expression is scanned into its words, followed by those of the text after it. -/
lemma words_scan_render (hspelled : e.WellSpelled numeral) (next : String) :
    (scan (e.render numeral ++ next)).words = e.words numeral ++ (scan next).words ∧
      ((scan (e.render numeral ++ next)).failure = none ↔ (scan next).failure = none) := by
  unfold scan
  rw [String.toList_append, Expr.render, String.toList_ofList]
  exact Scan.words_run_layout (Expr.isLexeme_of_mem_words e hspelled) _ _ _

/-- An expression that belongs in a place and can be spelled is read back there: in a state that
stands before its words, wherever in a text that is, and from the start of its own text, whatever
follows. -/
theorem read_render (position : Position) (c : Context) (numeral : Number → String) (e : Expr)
    (declared : List String) (depth : Nat) (hclass : position.Admits e)
    (hspelled : e.WellSpelled numeral) (hpermits : c.Permits declared depth position e) :
    (∀ (text : String) (s : State) (rest : List Word), s.cursor.Reached text → s.depth = depth →
      s.requirements = declared → s.cursor.words = e.words numeral ++ rest →
      (rest = [] → s.cursor.failure = none) →
      ∃ s', position.reader c s = .ok e s' ∧ s'.cursor.words = rest) ∧
    ∀ (next : String) (log : List Notice),
      ((scan next).words = [] → (scan next).failure = none) →
      ∃ cursor s', Cursor.ofText (e.render numeral ++ next) = .ok cursor ∧
        position.reader c ⟨cursor, depth, declared, log⟩ = .ok e s' ∧
        s'.cursor.words = (scan next).words := by
  have hread : ∀ (s : State) (rest : List Word), s.cursor.Valid → s.depth = depth →
      s.requirements = declared → s.cursor.words = e.words numeral ++ rest →
      (rest = [] → s.cursor.failure = none) →
      ∃ s', position.reader c s = .ok e s' ∧ s'.cursor.words = rest := by
    intro s rest hv hdepth hdeclared hwords hclean
    have hyields : Yields c ⟨depth, declared, s.cursor.failure⟩ position.reader (e.words numeral)
        Anything (fun found => found = e) := reader_yields hclass hspelled hpermits
    obtain ⟨_, s', hrun, rfl, hs'⟩ := hyields rest s hclean True.intro
      ⟨hv, hwords, hdepth, hdeclared, rfl⟩
    exact ⟨s', hrun, hs'.words⟩
  refine ⟨fun text s rest hs => hread s rest hs.valid, ?_⟩
  intro next log hnext
  obtain ⟨hwords, hfailure⟩ := words_scan_render hspelled next
  have hne : (scan (e.render numeral ++ next)).words ≠ [] := by
    have hstarts : Starts _ (e.words numeral) := starts_words e
    obtain ⟨first, more, hfirst, -⟩ := hstarts
    rw [hwords, hfirst]
    exact List.cons_ne_nil _ _
  obtain ⟨cursor, hcursor⟩ := Cursor.exists_ofText hne
  obtain ⟨hvalid, hupcoming, hsame⟩ := Cursor.of_ofText hcursor
  obtain ⟨s', hrun, hs'⟩ := hread ⟨cursor, depth, declared, log⟩ (scan next).words hvalid rfl rfl
    (by rw [← hwords]; exact congrArg (List.map Token.word) hupcoming)
    (fun hnil => by rw [hsame]; exact hfailure.mpr (hnext hnil))
  exact ⟨cursor, s', hcursor, hrun, hs'⟩

/-- The conditional effect of a durative action, with arithmetic in its condition, is read back from
its text, and the text after it is left. -/
theorem read_render_conditional :
    ∃ cursor s', Cursor.ofText ((Expr.timed .atEnd (.when
        (.compare .lt (.atom ⟨"f", ["?x"]⟩) (.arith .sub [.number (.int 3)]))
        (.not (.atom ⟨"at", ["start"]⟩)))).render Number.text ++ ") ...") = .ok cursor ∧
      (Position.effect true).reader (.document ⟨false, true, some 5⟩ true documentCapacity)
        ⟨cursor, 1, [":numeric-fluents"], []⟩ = .ok (.timed .atEnd (.when
          (.compare .lt (.atom ⟨"f", ["?x"]⟩) (.arith .sub [.number (.int 3)]))
          (.not (.atom ⟨"at", ["start"]⟩)))) s' ∧
      s'.cursor.words = (scan ") ...").words := by
  have hclass : (Position.effect true).Admits (.timed .atEnd (.when
      (.compare .lt (.atom ⟨"f", ["?x"]⟩) (.arith .sub [.number (.int 3)]))
      (.not (.atom ⟨"at", ["start"]⟩)))) := by
    refine .timed (by decide) (.when (.compare .lt (.atom _) (.arith (Or.inl rfl) ?_)) (.not _))
    intro e he
    rw [List.mem_singleton.mp he]
    exact .number _
  have hspelled : (Expr.timed .atEnd (.when
      (.compare .lt (.atom ⟨"f", ["?x"]⟩) (.arith .sub [.number (.int 3)]))
      (.not (.atom ⟨"at", ["start"]⟩)))).WellSpelled Number.text := by
    intro part hpart
    simp only [Expr.walk_eq, Expr.children, List.flatMap_cons, List.flatMap_nil, List.append_nil,
      List.mem_cons, List.mem_append, List.not_mem_nil, or_false] at hpart
    rcases hpart with rfl | rfl | (rfl | rfl | rfl | rfl) | rfl | rfl
    · exact True.intro
    · exact True.intro
    · exact True.intro
    · refine ⟨.name (by decide), fun arg harg => ?_⟩
      rw [List.mem_singleton.mp harg]
      have hvar : Token.IsLexeme .var ['?', 'x'] := .var (by decide)
      exact hvar
    · exact True.intro
    · have hnumeral : Token.IsLexeme .number (['3'] ++ []) := .number (by decide) (by decide)
      exact ⟨hnumeral, rfl⟩
    · exact True.intro
    · refine ⟨.name (by decide), fun arg harg => ?_⟩
      rw [List.mem_singleton.mp harg]
      exact .name (by decide)
  refine (read_render (.effect true) (.document ⟨false, true, some 5⟩ true documentCapacity)
    Number.text _ [":numeric-fluents"] 1 hclass hspelled ⟨?_, ?_, ?_, ?_⟩).2 ") ..." [] ?_
  · intro feature _ _ hstrict
    cases hstrict
  · exact fun _ _ => List.mem_cons_self
  · rintro limit ⟨⟩
    decide
  · rintro capacity ⟨⟩
    decide
  · decide +kernel

end Reader

end Pddl
