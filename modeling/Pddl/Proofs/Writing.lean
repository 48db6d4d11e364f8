import Pddl.Proofs.Rendering
import Pddl.Proofs.Separation
import Pddl.Reader.Domain
import Pddl.Reader.Problem

/-!
# Writing documents

Domains and problems are written as sections between a header and a closing parenthesis.
`DomainSection.words` and `ProblemSection.words` write one section, every name with its own type and
every function with its own return type; `Domain.words` puts the sections of a domain into their
usual order.  A section is `WellSpelled` if its names, types, flags and numbers have lexemes, and
then all of its words are lexemes.
-/

namespace Pddl

namespace Word

/-- A word that is read as a keyword, or as a flag if it is a recognised one. -/
def keyword (text : String) : Word :=
  ⟨if Requirement.isKnown text then .flag else .keyword, text⟩

/-- Is the text a colon followed by a name? -/
def isKeywordText (text : String) : Bool :=
  match text.toList with
  | ':' :: chars => Token.isNameText chars
  | _ => false

/-- A colon followed by a name is a keyword or a flag. -/
lemma isLexeme_keyword {text : String} (h : isKeywordText text = true) :
    (keyword text).IsLexeme := by
  unfold isKeywordText at h
  split at h
  · rename_i chars htext
    have hofList : text = String.ofList (':' :: chars) := by rw [← htext, String.ofList_toList]
    unfold IsLexeme keyword
    rw [htext]
    cases hknown : Requirement.isKnown text with
    | true => exact .flag h (hofList ▸ hknown)
    | false => exact .keyword h (hofList ▸ hknown)
  · cases h

/-- The words of several things are lexemes if those of each of them are. -/
lemma isLexeme_of_mem_flatMap {α : Type} {spell : α → List Word} {as : List α}
    (h : ∀ a ∈ as, ∀ word ∈ spell a, word.IsLexeme) : ∀ word ∈ as.flatMap spell, word.IsLexeme := by
  intro word hword
  obtain ⟨a, ha, hword⟩ := List.mem_flatMap.mp hword
  exact h a ha word hword

/-- The words of a list of texts are lexemes if each of them is. -/
lemma isLexeme_of_mem_map {spell : String → Word} {texts : List String}
    (h : ∀ text ∈ texts, (spell text).IsLexeme) : ∀ word ∈ texts.map spell, word.IsLexeme := by
  intro word hword
  obtain ⟨text, htext, rfl⟩ := List.mem_map.mp hword
  exact h text htext

/-- Spaced words between parentheses. -/
lemma Spaced.group {chars : List Char} {words : List Word} (h : Spaced chars words) :
    Spaced ('(' :: (chars ++ [')'])) (Word.group words) := by
  have hopening : opening.IsLexeme := .openParen
  have hclosing : Spaced [')'] [closing] := .single closing .closeParen
  have hstops : Token.Stops [')'] := by
    rintro _ ⟨⟩
    decide
  exact .word hopening (Or.inl (Or.inl rfl)) (h.append hstops hclosing)

/-- Texts of lexemes with single blanks between them. -/
lemma Spaced.blanks (spell : String → Word) {texts : List String}
    (htext : ∀ text ∈ texts, (spell text).text = text)
    (h : ∀ text ∈ texts, (spell text).IsLexeme) :
    Spaced (String.intercalate " " texts).toList (texts.map spell) := by
  have hblank : IsFiller " ".toList := .blank (by decide) .nil
  have hwords : ∀ text ∈ texts, Spaced (id text).toList [spell text] := by
    intro text hmem
    have hword := Spaced.single (spell text) (h text hmem)
    rwa [htext text hmem] at hword
  have hspaced := Spaced.intercalate hblank (by decide) hwords
  rw [List.map_id] at hspaced
  rw [List.map_eq_flatMap]
  exact hspaced

/-- The text of a list of words: each of them followed by a blank. -/
def written (words : List Word) : String :=
  String.ofList (layout words)

/-- The text of lexemes is scanned into them. -/
lemma words_scan_written {words : List Word} (h : ∀ word ∈ words, word.IsLexeme) :
    (scan (written words)).words = words ∧ (scan (written words)).failure = none := by
  have hrun := Scan.words_run_layout h [] Place.start Place.start
  have hnil : Scan.run Place.start [] = ⟨[], none⟩ := by rw [Scan.run]
  rw [List.append_nil, hnil] at hrun
  unfold scan written
  rw [String.toList_ofList]
  exact ⟨hrun.1.trans (List.append_nil _), hrun.2.mpr rfl⟩

end Word

/-! ### Declarations -/

/-- The name and the names of its type have lexemes, the name one of the given kind. -/
structure TypedName.WellSpelledAs (kind : Token.Kind) (typed : TypedName) : Prop where
  name : Word.IsLexeme ⟨kind, typed.name⟩
  type : typed.type.WellSpelled

/-- The words of well-spelled typed names are lexemes. -/
lemma TypedName.isLexeme_of_mem_spellingAs {kind : Token.Kind} {listed : List TypedName}
    (h : ∀ typed ∈ listed, typed.WellSpelledAs kind) :
    ∀ word ∈ listed.flatMap (TypedName.spellingAs kind), word.IsLexeme := by
  refine Word.isLexeme_of_mem_flatMap fun typed htyped => ?_
  have hspelled := h typed htyped
  have hminus : Word.minus.IsLexeme := .minus
  refine Word.isLexeme_of_mem_cons hspelled.name (Word.isLexeme_of_mem_cons hminus ?_)
  exact TypeSpec.isLexeme_of_mem_spelling hspelled.type

/-- The words of a predicate or function without its return type. -/
def skeletonWords (name : String) (params : List TypedName) : List Word :=
  Word.group (Word.name name :: params.flatMap (TypedName.spellingAs .var))

/-- The words of a well-spelled skeleton are lexemes. -/
lemma isLexeme_of_mem_skeletonWords {name : String} {params : List TypedName}
    (hname : (Word.name name).IsLexeme) (hparams : ∀ param ∈ params, param.WellSpelledAs .var) :
    ∀ word ∈ skeletonWords name params, word.IsLexeme :=
  Word.isLexeme_of_mem_group
    (Word.isLexeme_of_mem_cons hname (TypedName.isLexeme_of_mem_spellingAs hparams))

/-- The words of a declared predicate. -/
def Predicate.words (predicate : Predicate) : List Word :=
  skeletonWords predicate.name predicate.params

/-- The words of a declared function. -/
def Function.words (function : Function) : List Word :=
  skeletonWords function.name function.params ++ [Word.minus, Word.name function.returns]

/-- The name and the parameters of the predicate have lexemes. -/
structure Predicate.WellSpelled (predicate : Predicate) : Prop where
  name : (Word.name predicate.name).IsLexeme
  params : ∀ param ∈ predicate.params, param.WellSpelledAs .var

/-- The name, the parameters and the return type of the function have lexemes. -/
structure Function.WellSpelled (function : Function) : Prop where
  name : (Word.name function.name).IsLexeme
  params : ∀ param ∈ function.params, param.WellSpelledAs .var
  returns : (Word.name function.returns).IsLexeme

/-- The types of a hierarchy with their parents, in the order of declaration. -/
def TypeHierarchy.listing (types : TypeHierarchy) : List TypedName :=
  types.parents.map fun entry => ⟨types.spelling entry.1, .named (types.spelling entry.2)⟩

/-! ### Actions -/

/-- The words of a field of an action, which may be durative. -/
def ActionField.words (numeral : Number → String) (durative : Bool) : ActionField → List Word
  | .params listed =>
    Word.keyword ":parameters" :: Word.group (listed.flatMap (TypedName.spellingAs .var))
  | .duration body => Word.keyword ":duration" :: body.words numeral
  | .condition body =>
    Word.keyword (if durative then ":condition" else ":precondition") :: body.words numeral
  | .effect body => Word.keyword ":effect" :: body.words numeral

namespace Action

/-- The fields of an action: parameters, duration if it has one, condition and effect. -/
def fields (action : Action) : List ActionField :=
  .params action.params ::
    (action.duration.toList.map ActionField.duration ++
      [.condition action.condition, .effect action.effect])

/-- An action is made up of its fields. -/
lemma ofFields_fields (action : Action) : ofFields action.name action.fields = action := by
  obtain ⟨name, params, duration, condition, effect⟩ := action
  cases duration <;> rfl

/-- The words of an action between the parentheses around it. -/
def words (numeral : Number → String) (action : Action) : List Word :=
  Word.keyword (if action.isDurative then ":durative-action" else ":action") ::
    Word.name action.name :: action.fields.flatMap (ActionField.words numeral action.isDurative)

/-- The name, the parameters and the expressions of the action have lexemes. -/
structure WellSpelled (numeral : Number → String) (action : Action) : Prop where
  name : (Word.name action.name).IsLexeme
  params : ∀ param ∈ action.params, param.WellSpelledAs .var
  bodies : ∀ body ∈ action.bodies, body.WellSpelled numeral

/-- The fields of a well-spelled action have lexemes only. -/
lemma WellSpelled.isLexeme_of_mem_field {numeral : Number → String} {action : Action}
    (h : action.WellSpelled numeral) {field : ActionField} (hfield : field ∈ action.fields) :
    ∀ word ∈ field.words numeral action.isDurative, word.IsLexeme := by
  have hbody : ∀ body ∈ action.bodies, ∀ word ∈ body.words numeral, word.IsLexeme :=
    fun body hbody => Expr.isLexeme_of_mem_words body (h.bodies body hbody)
  simp only [fields, List.mem_cons, List.mem_append, List.mem_map, List.not_mem_nil,
    or_false] at hfield
  rcases hfield with rfl | ⟨constraint, hmem, rfl⟩ | rfl | rfl
  · refine Word.isLexeme_of_mem_cons (Word.isLexeme_keyword (by decide)) ?_
    exact Word.isLexeme_of_mem_group (TypedName.isLexeme_of_mem_spellingAs h.params)
  · refine Word.isLexeme_of_mem_cons (Word.isLexeme_keyword (by decide)) ?_
    exact hbody constraint (List.mem_cons_of_mem _ (List.mem_cons_of_mem _ hmem))
  · refine Word.isLexeme_of_mem_cons ?_ (hbody _ List.mem_cons_self)
    cases action.isDurative <;> exact Word.isLexeme_keyword (by decide)
  · refine Word.isLexeme_of_mem_cons (Word.isLexeme_keyword (by decide)) ?_
    exact hbody _ (List.mem_cons_of_mem _ List.mem_cons_self)

/-- The words of a well-spelled action are lexemes. -/
lemma isLexeme_of_mem_words {numeral : Number → String} {action : Action}
    (h : action.WellSpelled numeral) : ∀ word ∈ action.words numeral, word.IsLexeme := by
  refine Word.isLexeme_of_mem_cons ?_ (Word.isLexeme_of_mem_cons h.name ?_)
  · cases action.isDurative <;> exact Word.isLexeme_keyword (by decide)
  · exact Word.isLexeme_of_mem_flatMap fun field hfield => h.isLexeme_of_mem_field hfield

end Action

/-! ### Documents -/

/-- The words of a document: its header, its sections and the parenthesis that closes it. -/
def documentWords (kind name : String) (sections : List Word) : List Word :=
  Word.group (Word.name "define" :: (Word.group [Word.name kind, Word.name name] ++ sections))

/-- The words of a document are lexemes if its names and sections are. -/
lemma isLexeme_of_mem_documentWords {kind name : String} {sections : List Word}
    (hkind : (Word.name kind).IsLexeme) (hname : (Word.name name).IsLexeme)
    (hsections : ∀ word ∈ sections, word.IsLexeme) :
    ∀ word ∈ documentWords kind name sections, word.IsLexeme := by
  refine Word.isLexeme_of_mem_group (Word.isLexeme_of_mem_cons (.name (by decide)) ?_)
  refine Word.isLexeme_of_mem_append (Word.isLexeme_of_mem_group ?_) hsections
  exact Word.isLexeme_of_mem_cons hkind (Word.isLexeme_of_mem_cons hname (by simp))

/-! ### Domains -/

/-- A section of a domain. -/
inductive DomainSection
  | requirements (flags : List String)
  | types (listed : List TypedName)
  | constants (listed : List TypedName)
  | predicates (predicates : List Predicate)
  | functions (functions : List Function)
  | action (action : Action)

namespace DomainSection

/-- The words of a section, with the parentheses around it. -/
def words (numeral : Number → String) : DomainSection → List Word
  | .requirements flags => Word.group (Word.keyword ":requirements" :: flags.map Word.keyword)
  | .types listed =>
    Word.group (Word.keyword ":types" :: listed.flatMap (TypedName.spellingAs .name))
  | .constants listed =>
    Word.group (Word.keyword ":constants" :: listed.flatMap (TypedName.spellingAs .name))
  | .predicates listed =>
    Word.group (Word.keyword ":predicates" :: listed.flatMap Predicate.words)
  | .functions listed => Word.group (Word.keyword ":functions" :: listed.flatMap Function.words)
  | .action added => Word.group (added.words numeral)

/-- All that the section spells out has lexemes. -/
def WellSpelled (numeral : Number → String) : DomainSection → Prop
  | .requirements flags => ∀ flag ∈ flags, (Word.keyword flag).IsLexeme
  | .types listed | .constants listed => ∀ typed ∈ listed, typed.WellSpelledAs .name
  | .predicates listed => ∀ predicate ∈ listed, predicate.WellSpelled
  | .functions listed => ∀ function ∈ listed, function.WellSpelled
  | .action added => added.WellSpelled numeral

/-- The words of a well-spelled section are lexemes. -/
lemma isLexeme_of_mem_words {numeral : Number → String} {part : DomainSection}
    (h : part.WellSpelled numeral) : ∀ word ∈ part.words numeral, word.IsLexeme := by
  cases part with
  | requirements flags =>
    refine Word.isLexeme_of_mem_group (Word.isLexeme_of_mem_cons ?_ (Word.isLexeme_of_mem_map h))
    exact Word.isLexeme_keyword (by decide)
  | types listed | constants listed =>
    refine Word.isLexeme_of_mem_group (Word.isLexeme_of_mem_cons ?_
      (TypedName.isLexeme_of_mem_spellingAs h))
    exact Word.isLexeme_keyword (by decide)
  | predicates predicates =>
    refine Word.isLexeme_of_mem_group (Word.isLexeme_of_mem_cons
      (Word.isLexeme_keyword (by decide)) (Word.isLexeme_of_mem_flatMap ?_))
    intro predicate hmem
    exact isLexeme_of_mem_skeletonWords (h predicate hmem).name (h predicate hmem).params
  | functions functions =>
    refine Word.isLexeme_of_mem_group (Word.isLexeme_of_mem_cons
      (Word.isLexeme_keyword (by decide)) (Word.isLexeme_of_mem_flatMap ?_))
    intro function hmem
    have hspelled := h function hmem
    have hminus : Word.minus.IsLexeme := .minus
    refine Word.isLexeme_of_mem_append
      (isLexeme_of_mem_skeletonWords hspelled.name hspelled.params) ?_
    exact Word.isLexeme_of_mem_cons hminus (Word.isLexeme_of_mem_cons hspelled.returns (by simp))
  | action action => exact Word.isLexeme_of_mem_group (Action.isLexeme_of_mem_words h)

end DomainSection

namespace Domain

/-- The sections of a domain in their usual order: requirements, types, constants, predicates,
functions, and each action in turn. -/
def sections (domain : Domain) : List DomainSection :=
  .requirements domain.requirements :: .types domain.types.listing ::
    .constants domain.constants :: .predicates domain.predicates ::
    .functions domain.functions :: domain.actions.map DomainSection.action

/-- The words of a domain. -/
def words (numeral : Number → String) (domain : Domain) : List Word :=
  documentWords "domain" domain.name (domain.sections.flatMap (DomainSection.words numeral))

/-- The text of a domain: its words, each followed by a blank. -/
def render (numeral : Number → String) (domain : Domain) : String :=
  Word.written (domain.words numeral)

end Domain

/-! ### Problems -/

namespace ProblemSection

/-- The words of a section, with the parentheses around it. -/
def words (numeral : Number → String) : ProblemSection → List Word
  | .domain name => Word.group [Word.keyword ":domain", Word.name name]
  | .requirements flags => Word.group (Word.keyword ":requirements" :: flags.map Word.keyword)
  | .objects listed =>
    Word.group (Word.keyword ":objects" :: listed.flatMap (TypedName.spellingAs .name))
  | .init facts => Word.group (Word.keyword ":init" :: Expr.wordsAll numeral facts)
  | .goal body => Word.group (Word.keyword ":goal" :: body.words numeral)
  | .metric measure =>
    Word.group (Word.keyword ":metric" :: Word.name measure.direction.text ::
      measure.expression.words numeral)

/-- All that the section spells out has lexemes. -/
def WellSpelled (numeral : Number → String) : ProblemSection → Prop
  | .domain name => (Word.name name).IsLexeme
  | .requirements flags => ∀ flag ∈ flags, (Word.keyword flag).IsLexeme
  | .objects listed => ∀ object ∈ listed, object.WellSpelledAs .name
  | .init facts => ∀ fact ∈ facts, fact.WellSpelled numeral
  | .goal body => body.WellSpelled numeral
  | .metric measure => measure.expression.WellSpelled numeral

/-- The words of a well-spelled section are lexemes. -/
lemma isLexeme_of_mem_words {numeral : Number → String} {part : ProblemSection}
    (h : part.WellSpelled numeral) : ∀ word ∈ part.words numeral, word.IsLexeme := by
  cases part with
  | domain name =>
    refine Word.isLexeme_of_mem_group (Word.isLexeme_of_mem_cons
      (Word.isLexeme_keyword (by decide)) (Word.isLexeme_of_mem_cons h (by simp)))
  | requirements flags =>
    refine Word.isLexeme_of_mem_group (Word.isLexeme_of_mem_cons ?_ (Word.isLexeme_of_mem_map h))
    exact Word.isLexeme_keyword (by decide)
  | objects objects =>
    refine Word.isLexeme_of_mem_group (Word.isLexeme_of_mem_cons ?_
      (TypedName.isLexeme_of_mem_spellingAs h))
    exact Word.isLexeme_keyword (by decide)
  | init facts =>
    refine Word.isLexeme_of_mem_group (Word.isLexeme_of_mem_cons
      (Word.isLexeme_keyword (by decide)) ?_)
    rw [Expr.wordsAll_eq_flatMap]
    exact Word.isLexeme_of_mem_flatMap fun fact hfact =>
      Expr.isLexeme_of_mem_words fact (h fact hfact)
  | goal goal =>
    exact Word.isLexeme_of_mem_group (Word.isLexeme_of_mem_cons
      (Word.isLexeme_keyword (by decide)) (Expr.isLexeme_of_mem_words goal h))
  | metric metric =>
    refine Word.isLexeme_of_mem_group (Word.isLexeme_of_mem_cons
      (Word.isLexeme_keyword (by decide)) (Word.isLexeme_of_mem_cons ?_
        (Expr.isLexeme_of_mem_words _ h)))
    cases metric.direction <;> exact .name (by decide)

end ProblemSection

/-- The text of a problem of the given name that is written in the given sections. -/
def Problem.render (numeral : Number → String) (name : String) (sections : List ProblemSection) :
    String :=
  Word.written (documentWords "problem" name (sections.flatMap (ProblemSection.words numeral)))

end Pddl
