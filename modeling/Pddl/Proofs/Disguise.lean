import Pddl.Proofs.Renaming
import Pddl.Proofs.Running

/-!
# Disguises

A disguise changes how a text is presented: the letters of its words, and the lines, columns and
offsets at which they stand.  It keeps the folded texts and what operators and numbers mean.  A
reader works on disguised tokens as it does on the tokens themselves: it `Commutes` with the
disguise, so that the value, the failure and the notices of its run are the disguised ones.  Here
this is shown of the steps of which readers are composed.
-/

namespace Pddl

/-! ### Runs that commute with a change -/

section Commutes

variable {ρ ε σ α β γ δ : Type}

/-- The result of a run with its value, its failure and its state changed. -/
def mapResult (failure : ε → ε) (state : σ → σ) (value : α → β) :
    EStateM.Result ε σ α → EStateM.Result ε σ β
  | .ok a s => .ok (value a) (state s)
  | .error e s => .error (failure e) (state s)

/-- What comes of a run: its value or its failure. -/
def outcome : EStateM.Result ε σ α → Except ε α
  | .ok a _ => .ok a
  | .error e _ => .error e

/-- A changed run comes to the changed value or failure. -/
lemma outcome_mapResult (failure : ε → ε) (state : σ → σ) (value : α → β)
    (run : EStateM.Result ε σ α) :
    outcome (mapResult failure state value run) =
      ((outcome run).map value).mapError failure := by
  cases run <;> rfl

/-- From a changed state, the second program has the changed result of the first one. -/
def Commutes (failure : ε → ε) (state : σ → σ) (value : α → β) (m : ReaderT ρ (EStateM ε σ) α)
    (m' : ReaderT ρ (EStateM ε σ) β) : Prop :=
  ∀ c s, m' c (state s) = mapResult failure state value (m c s)

namespace Commutes

variable {failure : ε → ε} {state : σ → σ} {value : α → β} {other : γ → δ}

/-- Returning a changed value. -/
lemma pure {a : α} {b : β} (h : b = value a) :
    Commutes (ρ := ρ) failure state value (Pure.pure a) (Pure.pure b) := by
  intro c s
  rw [h]
  rfl

/-- Raising a changed failure. -/
lemma throw {e e' : ε} (h : e' = failure e) :
    Commutes (ρ := ρ) failure state value (MonadExcept.throw e) (MonadExcept.throw e') := by
  intro c s
  rw [h]
  rfl

/-- One program after the other. -/
lemma bind {m : ReaderT ρ (EStateM ε σ) α} {m' : ReaderT ρ (EStateM ε σ) β}
    {f : α → ReaderT ρ (EStateM ε σ) γ} {f' : β → ReaderT ρ (EStateM ε σ) δ}
    (hm : Commutes failure state value m m')
    (hf : ∀ a, Commutes failure state other (f a) (f' (value a))) :
    Commutes failure state other (m >>= f) (m' >>= f') := by
  intro c s
  have hfirst := hm c s
  cases hrun : m c s with
  | ok a t =>
    rw [hrun] at hfirst
    rw [Reader.bind_of_ok hrun, Reader.bind_of_ok hfirst]
    exact hf a c t
  | error e t =>
    rw [hrun] at hfirst
    rw [Reader.bind_of_error hrun, Reader.bind_of_error hfirst]
    rfl

/-- One program after another one whose value does not change. -/
lemma andThen {m m' : ReaderT ρ (EStateM ε σ) α} {f : α → ReaderT ρ (EStateM ε σ) γ}
    {f' : α → ReaderT ρ (EStateM ε σ) δ} (hm : Commutes failure state id m m')
    (hf : ∀ a, Commutes failure state other (f a) (f' a)) :
    Commutes failure state other (m >>= f) (m' >>= f') :=
  hm.bind hf

end Commutes

end Commutes

/-! ### Disguises -/

/-- An arithmetic operator has one spelling. -/
lemma ArithOp.ofText?_eq_some_iff {text : String} {op : ArithOp} :
    ofText? text = some op ↔ text = op.text := by
  constructor
  · intro h
    unfold ofText? at h
    split at h <;> cases h <;> rfl
  · rintro rfl
    cases op <;> rfl

/-- A comparison has one spelling. -/
lemma CompareOp.ofText?_eq_some_iff {text : String} {op : CompareOp} :
    ofText? text = some op ↔ text = op.text := by
  constructor
  · intro h
    unfold ofText? at h
    split at h <;> cases h <;> rfl
  · rintro rfl
    cases op <;> rfl

/-- A change of spelling and of places that keeps folded texts, and what operators and numbers
mean.  A text that is folded is spelled as it is, and the end of the input has no line and no
column to be changed. -/
structure Disguise where
  spell : String → String
  line : Int → Int
  column : Int → Int
  offset : Nat → Nat
  lexical : LexError → LexError
  fold_spell : ∀ text, fold (spell text) = fold text
  spell_of_folded : ∀ text, fold text = text → spell text = text
  arithOp : ∀ text, ArithOp.ofText? (spell text) = ArithOp.ofText? text
  compareOp : ∀ text, CompareOp.ofText? (spell text) = CompareOp.ofText? text
  number : ∀ text, Number.ofText? (spell text) = Number.ofText? text
  line_none : line (-1) = -1
  column_none : column (-1) = -1

namespace Disguise

variable (d : Disguise)

/-! ### Tokens and cursors -/

/-- The token in disguise. -/
def token (token : Token) : Token where
  kind := token.kind
  text := d.spell token.text
  line := d.line token.line
  column := d.column token.column
  offset := d.offset token.offset

/-- A token keeps its kind. -/
@[simp] lemma kind_token (token : Token) : (d.token token).kind = token.kind := rfl

/-- A token keeps its key. -/
@[simp] lemma key_token (token : Token) : (d.token token).key = token.key :=
  d.fold_spell token.text

/-- The end of the input is in disguise only where it stands. -/
lemma token_atEnd (offset : Nat) :
    d.token (Token.atEnd offset) = Token.atEnd (d.offset offset) := by
  unfold token Token.atEnd
  rw [d.spell_of_folded "" rfl, d.line_none, d.column_none]

/-- The cursor over tokens in disguise. -/
def cursor (cursor : Cursor) : Cursor where
  current := d.token cursor.current
  reserve := cursor.reserve.map d.token
  rest := cursor.rest.map d.token
  failure := cursor.failure.map d.lexical
  endOffset := d.offset cursor.endOffset

/-- The tokens that a cursor has met are in disguise. -/
lemma met_cursor (cursor : Cursor) : (d.cursor cursor).met = cursor.met.map d.token := by
  have hmet : (d.cursor cursor).current :: (d.cursor cursor).reserve.toList =
      (cursor.current :: cursor.reserve.toList).map d.token := by
    unfold Disguise.cursor
    cases cursor.reserve <;> rfl
  unfold Cursor.met
  rw [hmet, List.filter_map]
  rfl

/-- A disguise leaves as many tokens to be read. -/
@[simp] lemma unread_cursor (cursor : Cursor) : (d.cursor cursor).unread = cursor.unread := by
  unfold Cursor.unread
  rw [met_cursor, List.length_map]
  exact congrArg _ (List.length_map _)

/-- The next token is in disguise. -/
lemma pull_cursor (cursor : Cursor) :
    Cursor.pull (d.cursor cursor) = mapResult d.lexical d.cursor d.token (Cursor.pull cursor) := by
  obtain ⟨current, reserve, rest, failure, endOffset⟩ := cursor
  cases rest with
  | cons token rest => rfl
  | nil =>
    cases failure with
    | some error => rfl
    | none =>
      unfold Cursor.pull mapResult
      simp only [Disguise.cursor, List.map_nil, Option.map_none, token_atEnd]

/-- A look ahead meets the token in disguise. -/
lemma peek_cursor (cursor : Cursor) :
    Cursor.peek (d.cursor cursor) = mapResult d.lexical d.cursor d.token (Cursor.peek cursor) := by
  unfold Cursor.peek
  cases hreserve : cursor.reserve with
  | some token =>
    have hreserve' : (d.cursor cursor).reserve = some (d.token token) := by
      simp [Disguise.cursor, hreserve]
    simp only [hreserve']
    rfl
  | none =>
    have hreserve' : (d.cursor cursor).reserve = none := by
      simp [Disguise.cursor, hreserve]
    simp only [hreserve', pull_cursor]
    cases Cursor.pull cursor <;> rfl

/-- A step consumes the token in disguise. -/
lemma advance_cursor (cursor : Cursor) :
    Cursor.advance (d.cursor cursor) =
      mapResult d.lexical d.cursor d.token (Cursor.advance cursor) := by
  have hatEnd : (d.cursor cursor).atEnd = cursor.atEnd := rfl
  unfold Cursor.advance
  cases hreserve : cursor.reserve with
  | some token =>
    have hreserve' : (d.cursor cursor).reserve = some (d.token token) := by
      simp [Disguise.cursor, hreserve]
    simp only [hreserve']
    rfl
  | none =>
    have hreserve' : (d.cursor cursor).reserve = none := by
      simp [Disguise.cursor, hreserve]
    simp only [hreserve', pull_cursor, hatEnd]
    split
    · rfl
    · cases Cursor.pull cursor <;> rfl

/-! ### Failures and notices -/

/-- The syntax error in disguise. -/
def syntaxError (error : SyntaxError) : SyntaxError where
  expected := error.expected
  found := error.found.map d.token
  offset := d.offset error.offset
  cause := error.cause.rename d.spell

/-- The defect in disguise. -/
def defect : Defect → Defect
  | .duplicate kind token => .duplicate kind (d.token token)
  | .rootWithParent => .rootWithParent
  | .eitherParent type parent => .eitherParent (d.spell type) (parent.rename d.spell)
  | .conflictingParents type existing given =>
    .conflictingParents (d.spell type) (d.spell existing) (d.spell given)
  | .undeclaredParent type parent => .undeclaredParent (d.spell type) (d.spell parent)
  | .cycle types => .cycle (types.map d.spell)
  | .undeclaredType type entity site =>
    .undeclaredType (d.spell type) (d.spell entity) (site.rename d.spell)
  | .undeclaredReturnType type function =>
    .undeclaredReturnType (d.spell type) (d.spell function)
  | .undeclaredSymbol kind name site =>
    .undeclaredSymbol kind (d.spell name) (site.rename d.spell)
  | .wrongArity kind atom arity site =>
    .wrongArity kind (atom.rename d.spell) arity (site.rename d.spell)
  | .unboundVariable name site => .unboundVariable (d.spell name) (site.rename d.spell)
  | .unknownObject name site => .unknownObject (d.spell name) (site.rename d.spell)
  | .wrongDomain problem expected given =>
    .wrongDomain (d.spell problem) (d.spell expected) (d.spell given)

/-- The failure in disguise. -/
def failure : Failure → Failure
  | .lexical error => .lexical (d.lexical error)
  | .grammar error => .grammar (d.syntaxError error)
  | .invalid defect => .invalid (d.defect defect)
  | .integerTooLong => .integerTooLong
  | .timeOutOfRange => .timeOutOfRange

/-- The notice in disguise. -/
def notice : Notice → Notice
  | .warning line breach => .warning (d.line line) (breach.rename d.spell)
  | .requirementsRead flags => .requirementsRead flags
  | .trailingInput line => .trailingInput (d.line line)
  | .domainStarted name => .domainStarted (d.spell name)
  | .actionRead name => .actionRead (d.spell name)
  | .domainRead name actions => .domainRead (d.spell name) actions
  | .problemStarted name => .problemStarted (d.spell name)
  | .planRead steps => .planRead steps

/-- The state of a reader over tokens in disguise. -/
def state (state : Reader.State) : Reader.State where
  cursor := d.cursor state.cursor
  depth := state.depth
  requirements := state.requirements
  log := state.log.map d.notice

/-- The depth is not in disguise. -/
@[simp] lemma depth_state (s : Reader.State) : (d.state s).depth = s.depth := rfl

/-- The declared flags are not in disguise. -/
@[simp] lemma requirements_state (s : Reader.State) :
    (d.state s).requirements = s.requirements := rfl

/-! ### The steps of readers -/

/-- The second reader does on disguised tokens what the first one does on the tokens. -/
abbrev Tracks {α β : Type} (value : α → β) (m : ReadM α) (m' : ReadM β) : Prop :=
  Commutes d.failure d.state value m m'

variable {α β : Type}

/-- A step of the cursor. -/
lemma onCursor {value : α → β} {step : CursorM α} {step' : CursorM β}
    (h : ∀ cursor, step' (d.cursor cursor) = mapResult d.lexical d.cursor value (step cursor)) :
    d.Tracks value (Reader.onCursor step) (Reader.onCursor step') := by
  intro c s
  unfold Reader.onCursor
  have hstep : step' (d.state s).cursor = mapResult d.lexical d.cursor value (step s.cursor) :=
    h s.cursor
  rw [hstep]
  cases step s.cursor <;> rfl

/-- Consuming a token. -/
lemma advance : d.Tracks d.token Reader.advance Reader.advance :=
  d.onCursor d.advance_cursor

/-- Looking ahead. -/
lemma peek : d.Tracks d.token Reader.peek Reader.peek :=
  d.onCursor d.peek_cursor

/-- Looking at the current token. -/
lemma current : d.Tracks d.token Reader.current Reader.current :=
  fun _ _ => rfl

/-- Looking at the current kind. -/
lemma currentKind : d.Tracks id Reader.currentKind Reader.currentKind :=
  fun _ _ => rfl

/-- Looking for the end of the input. -/
lemma atEnd : d.Tracks id Reader.atEnd Reader.atEnd :=
  fun _ _ => rfl

/-- Counting the unread tokens. -/
lemma rounds : d.Tracks id Reader.rounds Reader.rounds := by
  intro c s
  rw [Reader.rounds_run, Reader.rounds_run]
  exact congrArg (fun n => EStateM.Result.ok (n + 1) (d.state s)) (d.unread_cursor s.cursor)

/-- Looking at the state. -/
lemma get : d.Tracks d.state (MonadStateOf.get : ReadM Reader.State) MonadStateOf.get :=
  fun _ _ => rfl

/-- Looking at the context. -/
lemma read : d.Tracks id (MonadReaderOf.read : ReadM Reader.Context) MonadReaderOf.read :=
  fun _ _ => rfl

/-- Failing at a token. -/
lemma failAt {value : α → β} (token : Token) (expected : String) (cause : Cause) :
    d.Tracks value (Reader.failAt token expected cause)
      (Reader.failAt (d.token token) expected (cause.rename d.spell)) :=
  fun _ _ => rfl

/-- Failing at the current token. -/
lemma failHere {value : α → β} (expected : String) (cause : Cause) :
    d.Tracks value (Reader.failHere expected cause)
      (Reader.failHere expected (cause.rename d.spell)) := by
  refine d.current.bind fun token => Commutes.throw (congrArg Failure.grammar ?_)
  unfold SyntaxError.atCurrent syntaxError
  rw [kind_token, apply_ite (Option.map d.token)]
  rfl

/-- Failing for want of room. -/
lemma failTooDeep {value : α → β} : d.Tracks value Reader.failTooDeep Reader.failTooDeep :=
  d.failHere _ _

/-- Leaving a notice. -/
lemma note (notice : Notice) :
    d.Tracks id (Reader.note notice) (Reader.note (d.notice notice)) := by
  intro c s
  have hlog : (s.log ++ [notice]).map d.notice = s.log.map d.notice ++ [d.notice notice] :=
    List.map_append
  exact congrArg (fun log => EStateM.Result.ok () { d.state s with log := log }) hlog.symm

/-- Declaring flags. -/
lemma declareFlags (flags : List String) :
    d.Tracks id
      (modify fun state => { state with requirements := Text.union state.requirements flags })
      (modify fun state => { state with requirements := Text.union state.requirements flags }) :=
  fun _ _ => rfl

/-- Reporting a breach. -/
lemma report (token : Token) (breach : Breach) :
    d.Tracks id (Reader.report token breach)
      (Reader.report (d.token token) (breach.rename d.spell)) := by
  refine d.read.andThen fun c => ?_
  split
  · rw [Breach.expected_rename]
    exact d.failAt token _ (.breach breach)
  · exact d.note (.warning token.line breach)

/-- Asking for a feature. -/
lemma require (token : Token) (feature : Feature) :
    d.Tracks id (Reader.require token feature) (Reader.require (d.token token) feature) := by
  refine d.get.bind fun s => d.read.andThen fun c => ?_
  rw [requirements_state]
  split
  · exact d.report token (.undeclaredFeature feature)
  · exact Commutes.pure rfl

/-- Asking for arithmetic. -/
lemma arithmeticAllowed : d.Tracks id Reader.arithmeticAllowed Reader.arithmeticAllowed :=
  fun _ _ => rfl

/-- Reading one level deeper. -/
lemma nested {value : α → β} {body : ReadM α} {body' : ReadM β}
    (hbody : d.Tracks value body body') :
    d.Tracks value (Reader.nested body) (Reader.nested body') := by
  have hcheck : d.Tracks id Reader.checkDepth Reader.checkDepth := by
    refine d.read.andThen fun c => ?_
    split
    · exact Commutes.pure rfl
    · refine d.get.bind fun s => ?_
      rw [depth_state]
      split
      · exact d.failHere _ _
      · exact Commutes.pure rfl
  intro c s
  have hinner := (hcheck.andThen fun _ => hbody) c { s with depth := s.depth + 1 }
  have hdeeper : { d.state s with depth := (d.state s).depth + 1 } =
      d.state { s with depth := s.depth + 1 } := rfl
  unfold Reader.nested
  simp only [hdeeper, hinner]
  cases (do Reader.checkDepth; body) c { s with depth := s.depth + 1 } <;> rfl

end Disguise

end Pddl
