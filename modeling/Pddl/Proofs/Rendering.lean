import Pddl.Proofs.Grammar
import Pddl.Proofs.Lexeme

/-!
# Rendering expressions

`Expr.words` writes an expression as a list of words, and `Expr.render` as a text.  Numbers are
written by a parameter `numeral`, since a number may have several numerals or none.  An expression
is `WellSpelled` if all its names, variables and numbers have lexemes; then all of its words are
lexemes.  Besides, this file measures how deep an expression is nested (`levels`) and says which
features it uses where (`Position.Uses`).
-/

namespace Pddl

namespace Word

/-- An opening parenthesis. -/
def opening : Word := ⟨.openParen, "("⟩

/-- A closing parenthesis. -/
def closing : Word := ⟨.closeParen, ")"⟩

/-- A minus sign. -/
def minus : Word := ⟨.minus, "-"⟩

/-- A word that is read as a name. -/
def name (text : String) : Word := ⟨.name, text⟩

/-- A word that is read as a variable. -/
def var (text : String) : Word := ⟨.var, text⟩

/-- A variable if it is written like one, a name otherwise. -/
def term (text : String) : Word := if isVariable text then var text else name text

/-- The words between parentheses. -/
def group (inner : List Word) : List Word :=
  opening :: (inner ++ [closing])

end Word

/-! ### Words -/

/-- The words of a type. -/
def TypeSpec.spelling : TypeSpec → List Word
  | .named name => [Word.name name]
  | .either options => Word.group (Word.name "either" :: options.map Word.name)

/-- The words of a variable with its type. -/
def TypedName.spelling (typed : TypedName) : List Word :=
  Word.var typed.name :: Word.minus :: typed.type.spelling

/-- The words of a name of the given kind with its type. -/
def TypedName.spellingAs (kind : Token.Kind) (typed : TypedName) : List Word :=
  ⟨kind, typed.name⟩ :: Word.minus :: typed.type.spelling

/-- The words spell the type: a name or, where alternatives are allowed, `either` and one or more
names between parentheses. -/
inductive TypeSpec.IsSpelledBy (allowEither : Bool) : TypeSpec → List Word → Prop
  | named (name : String) : IsSpelledBy allowEither (.named name) [Word.name name]
  | either {head first : String} {others : List String} : allowEither = true →
      fold head = "either" → IsSpelledBy allowEither (.either (first :: others))
        (Word.group (Word.name head :: (first :: others).map Word.name))

/-- The words list the typed names: groups of names of the given kind with a type behind them, and
after the last group names without a type, which have the root type. -/
inductive IsTypedList (kind : Token.Kind) (allowEither : Bool) :
    List TypedName → List Word → Prop
  | untyped (names : List String) :
      IsTypedList kind allowEither (names.map TypedName.untyped) (names.map (⟨kind, ·⟩))
  | group {names : List String} {type : TypeSpec} {spelling : List Word}
      {listed : List TypedName} {words : List Word} : names ≠ [] →
      type.IsSpelledBy allowEither spelling → IsTypedList kind allowEither listed words →
      IsTypedList kind allowEither (names.map (⟨·, type⟩) ++ listed)
        (names.map (⟨kind, ·⟩) ++ Word.minus :: (spelling ++ words))

/-- The words of an atom. -/
def Atom.spelling (atom : Atom) : List Word :=
  Word.group (Word.name atom.name :: atom.args.map Word.term)

/-- The word of an arithmetic operator. -/
def ArithOp.word (op : ArithOp) : Word :=
  ⟨if op = .sub then .minus else .operator, op.text⟩

/-- The word of a comparison. -/
def CompareOp.word (op : CompareOp) : Word :=
  ⟨.operator, op.text⟩

/-- The words of a time specifier. -/
def TimeSpec.spelling (time : TimeSpec) : List Word :=
  [Word.name time.words.1, Word.name time.words.2]

namespace Expr

mutual

/-- The words of an expression. -/
def words (numeral : Number → String) : Expr → List Word
  | .atom formula => formula.spelling
  | .term name => [Word.term name]
  | .number value => [⟨.number, numeral value⟩]
  | .not operand => Word.group (Word.name "not" :: words numeral operand)
  | .and operands => Word.group (Word.name "and" :: wordsAll numeral operands)
  | .or operands => Word.group (Word.name "or" :: wordsAll numeral operands)
  | .timed time operand => Word.group (time.spelling ++ words numeral operand)
  | .compare op left right =>
    Word.group (op.word :: (words numeral left ++ words numeral right))
  | .arith op operands => Word.group (op.word :: wordsAll numeral operands)
  | .update op fluent value =>
    Word.group (Word.name op.text :: (fluent.spelling ++ words numeral value))
  | .quantified quantifier vars operand =>
    Word.group (Word.name quantifier.text ::
      (Word.group (vars.flatMap TypedName.spelling) ++ words numeral operand))
  | .when condition effect =>
    Word.group (Word.name "when" :: (words numeral condition ++ words numeral effect))

/-- The words of several expressions, one after the other. -/
def wordsAll (numeral : Number → String) : List Expr → List Word
  | [] => []
  | e :: es => words numeral e ++ wordsAll numeral es

end

/-- The words of several expressions are those of each of them in turn. -/
lemma wordsAll_eq_flatMap (numeral : Number → String) (es : List Expr) :
    wordsAll numeral es = es.flatMap (words numeral) := by
  induction es with
  | nil => rfl
  | cons e rest ih => rw [wordsAll, ih, List.flatMap_cons]

/-- The text of an expression: its words, each followed by a blank. -/
def render (numeral : Number → String) (e : Expr) : String :=
  String.ofList (Word.layout (e.words numeral))

/-! ### Spelling -/

end Expr

/-- All names of the type have lexemes, and an `either` type has alternatives. -/
structure TypeSpec.WellSpelled (type : TypeSpec) : Prop where
  names : ∀ name ∈ type.options, (Word.name name).IsLexeme
  ne_nil : type.options ≠ []

/-- The variable and the names of its type have lexemes. -/
structure TypedName.WellSpelled (typed : TypedName) : Prop where
  name : (Word.var typed.name).IsLexeme
  type : typed.type.WellSpelled

/-- The name and the arguments of the atom have lexemes. -/
structure Atom.WellSpelled (atom : Atom) : Prop where
  name : (Word.name atom.name).IsLexeme
  args : ∀ arg ∈ atom.args, (Word.term arg).IsLexeme

namespace Expr

/-- What an expression itself spells out, its direct parts apart, has lexemes; a number has a
numeral that reads back as the number. -/
def OwnWellSpelled (numeral : Number → String) : Expr → Prop
  | .atom formula => formula.WellSpelled
  | .term name => (Word.term name).IsLexeme
  | .number value =>
    Word.IsLexeme ⟨.number, numeral value⟩ ∧ Number.ofText? (numeral value) = some value
  | .quantified _ vars _ => ∀ typed ∈ vars, typed.WellSpelled
  | _ => True

/-- All names, variables, types and numbers in the expression have lexemes. -/
def WellSpelled (numeral : Number → String) (e : Expr) : Prop :=
  ∀ part ∈ e.walk, part.OwnWellSpelled numeral

variable {numeral : Number → String} {e part : Expr}

/-- A well-spelled expression spells out lexemes itself. -/
lemma WellSpelled.own (h : e.WellSpelled numeral) : e.OwnWellSpelled numeral :=
  h e (self_mem_walk e)

/-- The direct parts of a well-spelled expression are well spelled. -/
lemma WellSpelled.child (h : e.WellSpelled numeral) (hpart : part ∈ e.children) :
    part.WellSpelled numeral :=
  fun inner hinner => h inner (mem_walk_of_child hpart hinner)

/-- An expression is well spelled if it spells out lexemes itself and its direct parts are well
spelled. -/
lemma WellSpelled.of_children (hown : e.OwnWellSpelled numeral)
    (hchildren : ∀ child ∈ e.children, child.WellSpelled numeral) : e.WellSpelled numeral := by
  intro part hpart
  rcases mem_walk.mp hpart with rfl | ⟨child, hchild, hpart⟩
  · exact hown
  · exact hchildren child hchild part hpart

/-- What holds of an expression whenever it holds of its direct parts holds of all expressions. -/
lemma induction_children {P : Expr → Prop} (h : ∀ e, (∀ child ∈ e.children, P child) → P e)
    (e : Expr) : P e :=
  h e fun child _ => induction_children h child
termination_by e.size
decreasing_by exact size_lt_of_child ‹_›

/-! ### The words are lexemes -/

end Expr

namespace Word

/-- The words between parentheses are lexemes if those inside are. -/
lemma isLexeme_of_mem_group {inner : List Word} (hinner : ∀ word ∈ inner, word.IsLexeme) :
    ∀ word ∈ group inner, word.IsLexeme := by
  intro word hword
  simp only [group, List.mem_cons, List.mem_append, List.not_mem_nil, or_false] at hword
  rcases hword with rfl | hword | rfl
  · exact .openParen
  · exact hinner word hword
  · exact .closeParen

/-- A lexeme before other lexemes. -/
lemma isLexeme_of_mem_cons {first : Word} {rest : List Word} (hfirst : first.IsLexeme)
    (hrest : ∀ word ∈ rest, word.IsLexeme) : ∀ word ∈ first :: rest, word.IsLexeme := by
  intro word hword
  rcases List.mem_cons.mp hword with rfl | hword
  · exact hfirst
  · exact hrest word hword

/-- Lexemes after other lexemes. -/
lemma isLexeme_of_mem_append {ws us : List Word} (hws : ∀ word ∈ ws, word.IsLexeme)
    (hus : ∀ word ∈ us, word.IsLexeme) : ∀ word ∈ ws ++ us, word.IsLexeme := by
  intro word hword
  rcases List.mem_append.mp hword with hword | hword
  · exact hws word hword
  · exact hus word hword

end Word

/-- The words of a well-spelled type are lexemes. -/
lemma TypeSpec.isLexeme_of_mem_spelling {type : TypeSpec} (h : type.WellSpelled) :
    ∀ word ∈ type.spelling, word.IsLexeme := by
  cases type with
  | named name =>
    intro word hword
    rw [List.mem_singleton.mp hword]
    exact h.names name List.mem_cons_self
  | either options =>
    refine Word.isLexeme_of_mem_group (Word.isLexeme_of_mem_cons (.name (by decide)) ?_)
    intro word hword
    obtain ⟨name, hname, rfl⟩ := List.mem_map.mp hword
    exact h.names name hname

/-- The words of well-spelled variables are lexemes. -/
lemma TypedName.isLexeme_of_mem_spelling {vars : List TypedName}
    (h : ∀ typed ∈ vars, typed.WellSpelled) :
    ∀ word ∈ vars.flatMap TypedName.spelling, word.IsLexeme := by
  intro word hword
  obtain ⟨typed, htyped, hword⟩ := List.mem_flatMap.mp hword
  have hspelled := h typed htyped
  have hminus : Word.minus.IsLexeme := .minus
  refine Word.isLexeme_of_mem_cons hspelled.name (Word.isLexeme_of_mem_cons hminus ?_) word hword
  exact TypeSpec.isLexeme_of_mem_spelling hspelled.type

/-- The words of a well-spelled atom are lexemes. -/
lemma Atom.isLexeme_of_mem_spelling {atom : Atom} (h : atom.WellSpelled) :
    ∀ word ∈ atom.spelling, word.IsLexeme := by
  refine Word.isLexeme_of_mem_group (Word.isLexeme_of_mem_cons h.name ?_)
  intro word hword
  obtain ⟨arg, harg, rfl⟩ := List.mem_map.mp hword
  exact h.args arg harg

/-- Operators are lexemes. -/
lemma ArithOp.isLexeme_word (op : ArithOp) : op.word.IsLexeme := by
  cases op with
  | add | mul | div => exact .operator (by decide)
  | sub => exact .minus

/-- Comparisons are lexemes. -/
lemma CompareOp.isLexeme_word (op : CompareOp) : op.word.IsLexeme := by
  cases op <;> exact .operator (by decide)

/-- Update operators are lexemes. -/
lemma UpdateOp.isLexeme_text (op : UpdateOp) : (Word.name op.text).IsLexeme := by
  cases op <;> exact .name (by decide)

/-- Quantifiers are lexemes. -/
lemma Quantifier.isLexeme_text (quantifier : Quantifier) :
    (Word.name quantifier.text).IsLexeme := by
  cases quantifier <;> exact .name (by decide)

/-- The two words of a time specifier are lexemes. -/
lemma TimeSpec.isLexeme_of_mem_spelling (time : TimeSpec) :
    ∀ word ∈ time.spelling, word.IsLexeme := by
  refine Word.isLexeme_of_mem_cons ?_ (Word.isLexeme_of_mem_cons ?_ (by simp))
  · cases time <;> exact .name (by decide)
  · cases time <;> exact .name (by decide)

namespace Expr

/-- The words of a well-spelled expression are lexemes. -/
lemma isLexeme_of_mem_words {numeral : Number → String} (e : Expr) (h : e.WellSpelled numeral) :
    ∀ word ∈ e.words numeral, word.IsLexeme := by
  induction e using induction_children with
  | h e ih =>
    have hparts : ∀ part ∈ e.children, ∀ word ∈ part.words numeral, word.IsLexeme :=
      fun part hpart => ih part hpart (h.child hpart)
    have hall : ∀ word ∈ wordsAll numeral e.children, word.IsLexeme := by
      intro word hword
      rw [wordsAll_eq_flatMap] at hword
      obtain ⟨part, hpart, hword⟩ := List.mem_flatMap.mp hword
      exact hparts part hpart word hword
    have hown := h.own
    cases e with
    | atom formula => exact Atom.isLexeme_of_mem_spelling hown
    | term name =>
      intro word hword
      rw [List.mem_singleton.mp hword]
      exact hown
    | number value =>
      intro word hword
      rw [List.mem_singleton.mp hword]
      exact hown.1
    | not operand =>
      refine Word.isLexeme_of_mem_group (Word.isLexeme_of_mem_cons (.name (by decide)) ?_)
      exact hparts operand (by simp [children])
    | and operands | or operands =>
      exact Word.isLexeme_of_mem_group (Word.isLexeme_of_mem_cons (.name (by decide)) hall)
    | timed time operand =>
      refine Word.isLexeme_of_mem_group
        (Word.isLexeme_of_mem_append time.isLexeme_of_mem_spelling ?_)
      exact hparts operand (by simp [children])
    | compare op left right =>
      refine Word.isLexeme_of_mem_group (Word.isLexeme_of_mem_cons op.isLexeme_word ?_)
      exact Word.isLexeme_of_mem_append (hparts left (by simp [children]))
        (hparts right (by simp [children]))
    | arith op operands =>
      exact Word.isLexeme_of_mem_group (Word.isLexeme_of_mem_cons op.isLexeme_word hall)
    | update op fluent value =>
      refine Word.isLexeme_of_mem_group (Word.isLexeme_of_mem_cons op.isLexeme_text ?_)
      exact Word.isLexeme_of_mem_append (hparts (.atom fluent) (by simp [children]))
        (hparts value (by simp [children]))
    | quantified quantifier vars operand =>
      refine Word.isLexeme_of_mem_group (Word.isLexeme_of_mem_cons quantifier.isLexeme_text ?_)
      refine Word.isLexeme_of_mem_append ?_ (hparts operand (by simp [children]))
      exact Word.isLexeme_of_mem_group (TypedName.isLexeme_of_mem_spelling hown)
    | when condition effect =>
      refine Word.isLexeme_of_mem_group (Word.isLexeme_of_mem_cons (.name (by decide)) ?_)
      exact Word.isLexeme_of_mem_append (hparts condition (by simp [children]))
        (hparts effect (by simp [children]))

/-! ### Nesting -/

mutual

/-- How many levels an expression has if a variable, a name or a number counts as `leaf` of
them. -/
def levels (leaf : Nat) : Expr → Nat
  | .atom _ => 1
  | .term _ | .number _ => leaf
  | .not operand | .timed _ operand | .quantified _ _ operand => levels leaf operand + 1
  | .and operands | .or operands | .arith _ operands => levelsAll leaf operands + 1
  | .compare _ left right => max (levels leaf left) (levels leaf right) + 1
  | .update _ _ value => max 1 (levels leaf value) + 1
  | .when condition effect => max (levels leaf condition) (levels leaf effect) + 1

/-- The most levels of several expressions. -/
def levelsAll (leaf : Nat) : List Expr → Nat
  | [] => 0
  | e :: es => max (levels leaf e) (levelsAll leaf es)

end

/-- How many parenthesized expressions of an expression are inside each other. -/
def nesting (e : Expr) : Nat :=
  e.levels 0

/-- How many expressions are open at once while an expression is read. -/
def height (e : Expr) : Nat :=
  e.levels 1

/-- One of several expressions has no more levels than all of them. -/
lemma levels_le_levelsAll {leaf : Nat} {part : Expr} {es : List Expr} (h : part ∈ es) :
    part.levels leaf ≤ levelsAll leaf es := by
  induction es with
  | nil => cases h
  | cons e rest ih =>
    rw [levelsAll]
    rcases List.mem_cons.mp h with rfl | h
    · omega
    · have := ih h
      omega

/-- An expression has a level more than each of its direct parts. -/
lemma levels_child {leaf : Nat} {e part : Expr} (h : part ∈ e.children) :
    part.levels leaf + 1 ≤ e.levels leaf := by
  cases e with
  | atom formula | term name | number value => cases h
  | not operand | timed time operand | quantified quantifier vars operand =>
    obtain rfl := List.mem_singleton.mp h
    exact Nat.le_refl _
  | and operands | or operands | arith op operands =>
    rw [levels]
    exact Nat.succ_le_succ (levels_le_levelsAll h)
  | compare op left right | when left right =>
    simp only [children, List.mem_cons, List.not_mem_nil, or_false] at h
    rw [levels]
    rcases h with rfl | rfl <;> omega
  | update op fluent value =>
    simp only [children, List.mem_cons, List.not_mem_nil, or_false] at h
    rw [levels]
    rcases h with rfl | rfl
    · rw [levels]
      omega
    · omega

mutual

/-- An expression has at least as many words as levels. -/
lemma levels_le_length (numeral : Number → String) :
    ∀ e : Expr, e.levels 1 ≤ (e.words numeral).length
  | .atom formula => by simp [levels, words, Atom.spelling, Word.group]
  | .term name => by simp [levels, words]
  | .number value => by simp [levels, words]
  | .not operand | .timed _ operand | .quantified _ _ operand => by
    have := levels_le_length numeral operand
    simp only [levels, words, Word.group, List.length_cons, List.length_append]
    omega
  | .and operands | .or operands | .arith _ operands => by
    have := levelsAll_le_length numeral operands
    simp only [levels, words, Word.group, List.length_cons, List.length_append]
    omega
  | .compare _ left right => by
    have := levels_le_length numeral left
    have := levels_le_length numeral right
    simp only [levels, words, Word.group, List.length_cons, List.length_append]
    omega
  | .update _ fluent value => by
    have := levels_le_length numeral value
    simp only [levels, words, Word.group, List.length_cons, List.length_append]
    omega
  | .when condition effect => by
    have := levels_le_length numeral condition
    have := levels_le_length numeral effect
    simp only [levels, words, Word.group, List.length_cons, List.length_append]
    omega

/-- Several expressions have at least as many words as levels. -/
lemma levelsAll_le_length (numeral : Number → String) :
    ∀ es : List Expr, levelsAll 1 es ≤ (wordsAll numeral es).length
  | [] => by simp [levelsAll]
  | e :: es => by
    have := levels_le_length numeral e
    have := levelsAll_le_length numeral es
    simp only [levelsAll, wordsAll, List.length_append]
    omega

end

mutual

/-- Counting leaves adds at most one level. -/
lemma levels_le_succ : ∀ e : Expr, e.levels 1 ≤ e.levels 0 + 1
  | .atom _ => by simp [levels]
  | .term _ | .number _ => by simp [levels]
  | .not operand | .timed _ operand | .quantified _ _ operand => by
    have := levels_le_succ operand
    simp only [levels]
    omega
  | .and operands | .or operands | .arith _ operands => by
    have := levelsAll_le_succ operands
    simp only [levels]
    omega
  | .compare _ left right => by
    have := levels_le_succ left
    have := levels_le_succ right
    simp only [levels]
    omega
  | .update _ _ value => by
    have := levels_le_succ value
    simp only [levels]
    omega
  | .when condition effect => by
    have := levels_le_succ condition
    have := levels_le_succ effect
    simp only [levels]
    omega

/-- Counting leaves of several expressions adds at most one level. -/
lemma levelsAll_le_succ : ∀ es : List Expr, levelsAll 1 es ≤ levelsAll 0 es + 1
  | [] => by simp [levelsAll]
  | e :: es => by
    have := levels_le_succ e
    have := levelsAll_le_succ es
    simp only [levelsAll]
    omega

end

/-! ### Features -/

/-- Is the expression arithmetic? -/
def IsArithmetic : Expr → Prop
  | .arith _ _ => True
  | _ => False

end Expr

namespace Position

/-- The direct parts of an expression with the places in which they stand. -/
def parts : Position → Expr → List (Position × Expr)
  | .condition _, .compare _ left right => [(.numeric, left), (.numeric, right)]
  | .duration, .compare _ left right => [(.numeric, left), (.numeric, right)]
  | .condition _, .timed _ operand => [(.condition false, operand)]
  | .effect _, .timed _ operand => [(.effect false, operand)]
  | .effect temporal, .when premise outcome =>
    [(.condition temporal, premise), (.effect temporal, outcome)]
  | .effect _, .not operand => [(.numeric, operand)]
  | .effect _, .update _ fluent value => [(.numeric, .atom fluent), (.numeric, value)]
  | position, e => e.children.map fun part => (position, part)

/-- The features that an expression itself uses in a place, its direct parts apart. -/
def ownFeatures : Position → Expr → List Feature
  | .condition _, .or _ => [Feature.disjunctions]
  | .condition _, .quantified quantifier vars _ =>
    Reader.quantifierFeature quantifier :: vars.map fun _ => Feature.typedLists
  | .condition _, .compare _ left right =>
    [if left.isTerm && right.isTerm then Feature.termEquality else Feature.numericComparisons]
  | .condition _, .timed _ _ => [Feature.timeSpecifiers]
  | .effect _, .quantified _ vars _ =>
    Feature.universalEffects :: vars.map fun _ => Feature.typedLists
  | .effect _, .when _ _ => [Feature.conditionalEffects]
  | .effect _, .update _ _ _ => [Feature.numericEffects]
  | .effect _, .timed _ _ => [Feature.timeSpecifiers]
  | .duration, .and _ => [Feature.durationConjunctions]
  | .duration, .timed _ _ => [Feature.timeSpecifiers]
  | _, _ => []

/-- An expression in a place uses a feature, itself or in one of its parts. -/
inductive Uses : Position → Expr → Feature → Prop
  | here {position : Position} {e : Expr} {feature : Feature} :
      feature ∈ position.ownFeatures e → Uses position e feature
  | inside {position inner : Position} {e part : Expr} {feature : Feature} :
      (inner, part) ∈ position.parts e → Uses inner part feature → Uses position e feature

/-- Without their places the parts are the direct parts. -/
lemma parts_map_snd (position : Position) (e : Expr) :
    (position.parts e).map Prod.snd = e.children := by
  unfold parts
  split
  all_goals simp [Expr.children, Function.comp_def]

/-- A part with its place is a direct part. -/
lemma mem_children_of_mem_parts {position inner : Position} {e part : Expr}
    (h : (inner, part) ∈ position.parts e) : part ∈ e.children := by
  rw [← parts_map_snd position e]
  exact List.mem_map_of_mem h

end Position

end Pddl
