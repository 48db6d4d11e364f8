import Pddl.Proofs.DomainLetterCase
import Pddl.Proofs.LongestLexeme

/-!
# Places do not matter

Where a token stands is kept for failures and notices only.  To forget all places is a disguise that
leaves every word as it is, so two texts with the same words are read in lockstep: into the same
document, or with failures and notices that are the same but for the places they mention
(`parse_sameUpToPlace`).
-/

namespace Pddl

/-! ### Forgetting places -/

/-- All places are forgotten and all words are spelled as they are. -/
def Disguise.unplaced : Disguise where
  spell := id
  line := fun _ => -1
  column := fun _ => -1
  offset := fun _ => 0
  lexical := id
  fold_spell := fun _ => rfl
  spell_of_folded := fun _ _ => rfl
  arithOp := fun _ => rfl
  compareOp := fun _ => rfl
  number := fun _ => rfl
  line_none := rfl
  column_none := rfl

/-- Lexemes with the same texts are the same words. -/
lemma Token.map_word_eq {tokens tokens' : List Token}
    (hlexemes : ∀ token ∈ tokens, IsLexeme token.kind token.text.toList)
    (hlexemes' : ∀ token ∈ tokens', IsLexeme token.kind token.text.toList)
    (htexts : tokens.map text = tokens'.map text) : tokens.map word = tokens'.map word := by
  induction tokens generalizing tokens' with
  | nil =>
    rw [List.map_nil, eq_comm, List.map_eq_nil_iff] at htexts
    rw [htexts]
  | cons token rest ih =>
    rw [List.map_cons, eq_comm, List.map_eq_cons_iff] at htexts
    obtain ⟨token', rest', rfl, htext, hrest⟩ := htexts
    rw [List.forall_mem_cons] at hlexemes hlexemes'
    have hkind : token.kind = token'.kind := hlexemes.1.kind_unique (htext ▸ hlexemes'.1)
    rw [List.map_cons, List.map_cons, ih hlexemes.2 hlexemes'.2 hrest.symm, word, word, hkind,
      htext]

/-- Without places, a token is its word. -/
lemma Disguise.map_unplaced_token {tokens tokens' : List Token}
    (h : tokens.map Token.word = tokens'.map Token.word) :
    tokens.map unplaced.token = tokens'.map unplaced.token := by
  have htoken : unplaced.token =
      (fun word : Word => ⟨word.kind, word.text, -1, -1, 0⟩) ∘ Token.word := rfl
  rw [htoken, ← List.map_map, h, List.map_map]

/-- Texts with the same words, in which every character is scanned, differ in places only. -/
lemma alike_of_texts_eq {text text' : String} (h : (scan text).failure = none)
    (h' : (scan text').failure = none)
    (htexts : (scan text).tokens.map Token.text = (scan text').tokens.map Token.text) :
    Disguise.unplaced.Alike text text' where
  tokens := Disguise.map_unplaced_token (Token.map_word_eq
    (fun _ hmem => Scan.isLexeme_of_mem_run hmem) (fun _ hmem => Scan.isLexeme_of_mem_run hmem)
    htexts)
  failure := by rw [h, h']
  endOffset := rfl

/-! ### Failures and notices -/

/-- What does not fit the grammar, if that is the failure. -/
def Failure.syntaxError? : Failure → Option SyntaxError
  | .grammar error => some error
  | _ => none

/-- Two failures are of one kind and the same in words and, at a token that does not fit the
grammar, expect the same and have found the same text. -/
structure Failure.SameUpToPlace (failure failure' : Failure) : Prop where
  kind : failure.kind = failure'.kind
  message : failure.message = failure'.message
  expected : failure.syntaxError?.map SyntaxError.expected =
    failure'.syntaxError?.map SyntaxError.expected
  found : (failure.syntaxError?.map fun error => error.found.map Token.text) =
    failure'.syntaxError?.map fun error => error.found.map Token.text

/-- A syntax error without places is the same in words. -/
lemma SyntaxError.message_unplaced (error : SyntaxError) :
    (Disguise.unplaced.syntaxError error).message = error.message := by
  have hcause : (Disguise.unplaced.syntaxError error).cause = error.cause :=
    error.cause.rename_id
  have hexpected : (Disguise.unplaced.syntaxError error).expected = error.expected := rfl
  have hfound : (Disguise.unplaced.syntaxError error).foundText = error.foundText := by
    obtain ⟨expected, found, offset, cause⟩ := error
    cases found <;> rfl
  unfold message
  rw [hcause, hexpected, hfound]

/-- A defect without places is the same in words. -/
lemma Defect.message_unplaced (defect : Defect) :
    (Disguise.unplaced.defect defect).message = defect.message := by
  have hspell : Disguise.unplaced.spell = id := rfl
  cases defect with
  | duplicate kind token => rfl
  | _ =>
    refine congrArg message ?_
    simp only [Disguise.defect, hspell, id_eq, List.map_id, TypeSpec.rename_id, Atom.rename_id,
      Site.rename_id]

/-- A failure without places is the failure up to its place. -/
lemma Failure.unplaced_sameUpToPlace (failure : Failure) :
    (Disguise.unplaced.failure failure).SameUpToPlace failure := by
  cases failure with
  | grammar error =>
    refine ⟨rfl, error.message_unplaced, rfl, ?_⟩
    obtain ⟨expected, found, offset, cause⟩ := error
    cases found <;> rfl
  | invalid defect => exact ⟨rfl, defect.message_unplaced, rfl, rfl⟩
  | lexical _ | integerTooLong | timeOutOfRange => exact ⟨rfl, rfl, rfl, rfl⟩

/-- Failures that are the same without places are the same up to their places. -/
lemma Failure.sameUpToPlace_of_unplaced_eq {failure failure' : Failure}
    (h : Disguise.unplaced.failure failure = Disguise.unplaced.failure failure') :
    failure.SameUpToPlace failure' := by
  have hfirst := failure.unplaced_sameUpToPlace
  have hsecond := failure'.unplaced_sameUpToPlace
  rw [h] at hfirst
  exact ⟨hfirst.kind.symm.trans hsecond.kind, hfirst.message.symm.trans hsecond.message,
    hfirst.expected.symm.trans hsecond.expected, hfirst.found.symm.trans hsecond.found⟩

/-- The notice, moved to a line if it mentions one. -/
def Notice.atLine (line : Int) : Notice → Notice
  | .warning _ breach => .warning line breach
  | .trailingInput _ => .trailingInput line
  | notice => notice

/-- A notice without its place can be moved as the notice can. -/
lemma Notice.atLine_unplaced (line : Int) (notice : Notice) :
    (Disguise.unplaced.notice notice).atLine line = notice.atLine line := by
  cases notice with
  | warning _ breach => exact congrArg (Notice.warning line) breach.rename_id
  | _ => rfl

/-! ### Reports -/

/-- Both results are the same document, or both are failures that are the same up to their
places. -/
inductive SameUpToPlace {α : Type} : Except Failure α → Except Failure α → Prop
  | documents (document : α) : SameUpToPlace (.ok document) (.ok document)
  | failures {failure failure' : Failure} : failure.SameUpToPlace failure' →
      SameUpToPlace (.error failure) (.error failure')

/-- The reports come to the same up to places, and have the same notices up to the lines that these
mention. -/
structure Report.SameUpToPlace {α : Type} (report report' : Report α) : Prop where
  result : Pddl.SameUpToPlace report.result report'.result
  log : ∀ line, report.log.map (Notice.atLine line) = report'.log.map (Notice.atLine line)

/-- Reports that are the same without places are the same up to places. -/
lemma Report.sameUpToPlace_of_unplaced_eq {α : Type} {value : α → α} {report report' : Report α}
    (hvalue : ∀ document, value document = document)
    (h : Disguise.unplaced.reported value report = Disguise.unplaced.reported value report') :
    report.SameUpToPlace report' := by
  obtain ⟨result, log⟩ := report
  obtain ⟨result', log'⟩ := report'
  obtain ⟨hresult, hlog⟩ := Report.mk.inj h
  constructor
  · cases result with
    | ok document =>
      cases result' with
      | ok document' =>
        have hdocument := Except.ok.inj hresult
        rw [hvalue, hvalue] at hdocument
        rw [hdocument]
        exact .documents document'
      | error failure' => cases hresult
    | error failure =>
      cases result' with
      | ok document' => cases hresult
      | error failure' =>
        exact .failures (Failure.sameUpToPlace_of_unplaced_eq (Except.error.inj hresult))
  · intro line
    have hmoved : ∀ notices : List Notice, notices.map (Notice.atLine line) =
        (notices.map Disguise.unplaced.notice).map (Notice.atLine line) := by
      intro notices
      rw [List.map_map]
      exact List.map_congr_left fun notice _ => (notice.atLine_unplaced line).symm
    rw [hmoved log, hmoved log', hlog]

/-- Reading a domain is reading its tokens in disguise, if no other word is `number` in disguise. -/
lemma Domain.parse_disguised {d : Disguise}
    (hnumber : ∀ type, d.spell type = numberType → type = numberType) (settings : Settings)
    (capacity : Nat) {text : String} {cursor : Cursor} (h : Cursor.ofText text = .ok cursor) :
    d.reported (rename d.spell) (parse settings text capacity) =
      .ofOutcome Assembly.notices
        (Assembly.domain (.document settings true capacity) (.ofCursor (d.cursor cursor))) := by
  have hlog : ∀ run : EStateM.Result Failure Assembly Domain,
      Report.ofOutcome Assembly.notices (mapResult d.failure d.assembly (rename d.spell) run) =
        d.reported (rename d.spell) (Report.ofOutcome Assembly.notices run) :=
    d.ofOutcome_mapResult fun _ => rfl
  rw [← d.assembly_ofCursor, parse_eq_ofOutcome settings capacity h, ← hlog]
  rcases d.domain (.document settings true capacity) (.ofCursor cursor) with
    hrun | ⟨defect, a, -, hdefect⟩
  · rw [hrun]
  · cases defect with
    | undeclaredReturnType type function => exact absurd (hnumber type hdefect.1) hdefect.2
    | _ => cases hdefect

/-- Domains of alike texts are reported alike, if no other word is `number` in disguise. -/
lemma Disguise.Alike.report_domain {d : Disguise} {text text' : String} (h : d.Alike text text')
    (hnumber : ∀ type, d.spell type = numberType → type = numberType) (settings : Settings)
    (capacity : Nat) :
    d.reported (Domain.rename d.spell) (Domain.parse settings text capacity) =
      d.reported (Domain.rename d.spell) (Domain.parse settings text' capacity) := by
  rcases h.ofText with ⟨error, error', hfirst, hsecond, herror⟩ |
    ⟨cursor, cursor', hfirst, hsecond, hcursor⟩
  · unfold Domain.parse
    rw [hfirst, hsecond]
    exact congrArg (fun e => Report.mk (Except.error (Failure.lexical e)) []) herror
  · rw [Domain.parse_disguised hnumber settings capacity hfirst,
      Domain.parse_disguised hnumber settings capacity hsecond, hcursor]

/-- Two texts whose characters are all scanned, into tokens of the same texts in the same order, are
read alike as domains, as problems and as plans: into the same document, or with failures that are
the same up to their places; and with the same notices up to their lines. -/
theorem parse_sameUpToPlace (settings : Settings) (capacity : Nat) {text text' : String}
    (h : (scan text).failure = none) (h' : (scan text').failure = none)
    (htexts : (scan text).tokens.map Token.text = (scan text').tokens.map Token.text) :
    (Domain.parse settings text capacity).SameUpToPlace
        (Domain.parse settings text' capacity) ∧
      (Problem.parse settings text capacity).SameUpToPlace
        (Problem.parse settings text' capacity) ∧
      (Plan.parse settings text).SameUpToPlace (Plan.parse settings text') := by
  have halike := alike_of_texts_eq h h' htexts
  refine ⟨?_, ?_, ?_⟩
  · exact Report.sameUpToPlace_of_unplaced_eq Domain.rename_id
      (halike.report_domain (fun _ htype => htype) settings capacity)
  · exact Report.sameUpToPlace_of_unplaced_eq Problem.rename_id
      (halike.report_run Disguise.unplaced.problem _)
  · exact Report.sameUpToPlace_of_unplaced_eq Plan.rename_id
      (halike.report_run Disguise.unplaced.plan _)

/-- A domain with an undeclared feature and something behind it, on one line. -/
def denseText : String := "(define (domain d) (:functions (f))) x"

/-- The same domain over several lines, with a comment. -/
def looseText : String := "(define\n(domain d); one function\n(:functions(f))\n)x"

/-- Both texts are read into the same domain, with notices that differ in their lines. -/
theorem parse_sameUpToPlace_functions :
    ((scan denseText).failure = none ∧ (scan looseText).failure = none ∧
      (scan denseText).tokens.map Token.text = (scan looseText).tokens.map Token.text) ∧
    (∃ domain, (Domain.parse .lenient denseText).result = .ok domain ∧
      (Domain.parse .lenient looseText).result = .ok domain) ∧
    (Domain.parse .lenient denseText).log ≠ (Domain.parse .lenient looseText).log ∧
    (Domain.parse .lenient denseText).log.map (Notice.atLine 1) =
      (Domain.parse .lenient looseText).log.map (Notice.atLine 1) := by
  have hdense : (scan denseText).failure = none := by decide +kernel
  have hloose : (scan looseText).failure = none := by decide +kernel
  have htexts : (scan denseText).tokens.map Token.text =
      (scan looseText).tokens.map Token.text := by
    decide +kernel
  have haccepted : (Domain.parse .lenient denseText).result.toOption.isSome = true := by
    decide +kernel
  have hlogs : (Domain.parse .lenient denseText).log ≠ (Domain.parse .lenient looseText).log := by
    decide +kernel
  obtain ⟨hresult, hlog⟩ :=
    (parse_sameUpToPlace .lenient Reader.documentCapacity hdense hloose htexts).1
  refine ⟨⟨hdense, hloose, htexts⟩, ?_, hlogs, hlog 1⟩
  generalize (Domain.parse .lenient denseText).result = result at haccepted hresult ⊢
  generalize (Domain.parse .lenient looseText).result = result' at hresult ⊢
  cases hresult with
  | documents domain => exact ⟨domain, rfl, rfl⟩
  | failures _ => cases haccepted

end Pddl
