import Pddl.Proofs.Continuation
import Pddl.Proofs.Extension
import Pddl.Proofs.Invariants

/-!
# Input behind a document

What follows the last parenthesis of a document is skipped, as long as it closes no more
parentheses than it opens (`NeverOverclosed`), or it is refused altogether if the end of the input
is required.  Nothing of it changes the document (`parse_append`): the text goes on behind a
parenthesis, so that its scan just gets longer, and the readers of sections do not look behind what
they read.  Only the readers of expressions look one token ahead; that they are through with it at
the end of a section (`Seals`) is why the first token of the trailing input is not met too early.
-/

namespace Pddl

/-! ### Parentheses that are closed too often -/

/-- How many parentheses the tokens open. -/
def openings (tokens : List Token) : Nat :=
  tokens.countP (Reader.hasKind .openParen)

/-- How many parentheses the tokens close. -/
def closings (tokens : List Token) : Nat :=
  tokens.countP (Reader.hasKind .closeParen)

/-- In no first part of the tokens are more parentheses closed than opened. -/
def NeverOverclosed (tokens : List Token) : Prop :=
  ∀ first, first <+: tokens → closings first ≤ openings first

/-- The token is the first one of the tokens that closes a parenthesis while none is open. -/
structure Token.Overcloses (token : Token) (tokens : List Token) : Prop where
  kind : token.kind = .closeParen
  first : ∃ before after, tokens = before ++ token :: after ∧ NeverOverclosed before ∧
    openings before < closings (before ++ [token])

section Counting

variable {tokens before : List Token} {token : Token}

/-- One token more, and perhaps one opening parenthesis. -/
lemma openings_concat :
    openings (tokens ++ [token]) =
      openings tokens + if token.kind = .openParen then 1 else 0 := by
  simp [openings, List.countP_append, Reader.hasKind]

/-- One token more, and perhaps one closing parenthesis. -/
lemma closings_concat :
    closings (tokens ++ [token]) =
      closings tokens + if token.kind = .closeParen then 1 else 0 := by
  simp [closings, List.countP_append, Reader.hasKind]

/-- Without tokens nothing is closed. -/
lemma neverOverclosed_nil : NeverOverclosed [] := by
  intro first hfirst
  rw [List.prefix_nil.mp hfirst]
  exact Nat.le_refl _

/-- One token more can close only what is open. -/
lemma neverOverclosed_concat :
    NeverOverclosed (tokens ++ [token]) ↔
      NeverOverclosed tokens ∧ closings (tokens ++ [token]) ≤ openings (tokens ++ [token]) := by
  constructor
  · intro h
    exact ⟨fun first hfirst => h first (hfirst.trans (List.prefix_append _ _)),
      h _ (List.prefix_refl _)⟩
  · rintro ⟨h, hlast⟩ first hfirst
    rcases List.prefix_concat_iff.mp hfirst with rfl | hfirst
    · exact hlast
    · exact h first hfirst

/-- Where something is closed that is not open, too much is closed. -/
lemma Token.Overcloses.not_neverOverclosed (h : token.Overcloses tokens) :
    ¬ NeverOverclosed tokens := by
  obtain ⟨before, after, rfl, -, hlt⟩ := h.first
  intro hnever
  have hle := hnever (before ++ [token]) ⟨after, by simp⟩
  rw [openings_concat, if_neg (by rw [h.kind]; decide)] at hle
  omega

/-- Opening parentheses can be counted behind another text. -/
lemma openings_behind (text : List Char) (tokens : List Token) :
    openings (tokens.map (Token.behind text)) = openings tokens := by
  rw [openings, List.countP_map]
  rfl

/-- Closing parentheses can be counted behind another text. -/
lemma closings_behind (text : List Char) (tokens : List Token) :
    closings (tokens.map (Token.behind text)) = closings tokens := by
  rw [closings, List.countP_map]
  rfl

/-- What is closed too much is closed too much behind another text. -/
lemma neverOverclosed_behind (text : List Char) :
    NeverOverclosed (tokens.map (Token.behind text)) ↔ NeverOverclosed tokens := by
  constructor
  · intro h first hfirst
    have hle := h _ (hfirst.map _)
    rwa [openings_behind, closings_behind] at hle
  · intro h first hfirst
    obtain ⟨own, hown, rfl⟩ := List.prefix_map_iff.mp hfirst
    rw [openings_behind, closings_behind]
    exact h own hown

end Counting

/-- The settings allow the tokens behind a document: none, if the end of the input is required
there, and otherwise all that close no parenthesis of the document. -/
def Settings.AllowsBehind (settings : Settings) (tokens : List Token) : Prop :=
  if settings.requireEndOfInput then tokens = [] else NeverOverclosed tokens

/-- The token is the one at which the settings refuse the tokens behind a document. -/
def Settings.RefusesAt (settings : Settings) (token : Token) (tokens : List Token) : Prop :=
  if settings.requireEndOfInput then tokens.head? = some token else token.Overcloses tokens

/-! ### What comes after the last section -/

namespace Cursor

/-- The cursor at the first of the tokens, which are the last ones of a text. -/
def ofTokens (tokens : List Token) (endOffset : Nat) : Cursor :=
  match tokens with
  | [] => ⟨Token.atEnd endOffset, none, [], none, endOffset⟩
  | token :: rest => ⟨token, none, rest, none, endOffset⟩

/-- No token is in reserve. -/
@[simp] lemma reserve_ofTokens (tokens : List Token) (endOffset : Nat) :
    (ofTokens tokens endOffset).reserve = none := by
  cases tokens <;> rfl

/-- No error comes after the tokens. -/
@[simp] lemma failure_ofTokens (tokens : List Token) (endOffset : Nat) :
    (ofTokens tokens endOffset).failure = none := by
  cases tokens <;> rfl

/-- The text ends where it is said to end. -/
@[simp] lemma endOffset_ofTokens (tokens : List Token) (endOffset : Nat) :
    (ofTokens tokens endOffset).endOffset = endOffset := by
  cases tokens <;> rfl

/-- The tokens still to be read are the given ones. -/
lemma upcoming_ofTokens {tokens : List Token} (h : ∀ token ∈ tokens, token.word.IsLexeme)
    (endOffset : Nat) : (ofTokens tokens endOffset).upcoming = tokens := by
  cases tokens with
  | nil => rfl
  | cons token rest => exact upcoming_of_ne_end (kind_ne_end_of_isLexeme (h token (by simp)))

/-- A cursor at the first of some lexemes stands in a text. -/
lemma valid_ofTokens {tokens : List Token} (h : ∀ token ∈ tokens, token.word.IsLexeme)
    (endOffset : Nat) : (ofTokens tokens endOffset).Valid := by
  have hlexemes : ∀ token ∈ (ofTokens tokens endOffset).upcoming, token.word.IsLexeme := by
    rwa [upcoming_ofTokens h]
  cases tokens with
  | nil => exact ⟨hlexemes, nofun, nofun, fun _ => ⟨rfl, rfl, nofun⟩⟩
  | cons token rest =>
    obtain ⟨hfirst, hrest⟩ := List.forall_mem_cons.mp h
    exact ⟨hlexemes, fun t ht => kind_ne_end_of_isLexeme (hrest t ht), nofun,
      fun hend => absurd hend (kind_ne_end_of_isLexeme hfirst)⟩

/-- Moving past the first of the tokens. -/
lemma advance_ofTokens {token : Token} {rest : List Token} {endOffset : Nat}
    (h : token.kind ≠ .endOfInput) :
    advance (ofTokens (token :: rest) endOffset) = .ok token (ofTokens rest endOffset) := by
  refine advance_cases.mpr ⟨rfl, Or.inr (Or.inr ⟨rfl, h, ?_⟩)⟩
  cases rest with
  | nil => exact ⟨_, _, rfl, rfl⟩
  | cons next rest => exact ⟨_, _, rfl, rfl⟩

end Cursor

/-- The failure at a token behind the document. -/
def trailingFailure (token : Token) : Failure :=
  .grammar (.atToken token "end of input"
    (if token.kind = .closeParen then .unmatchedClose else .mismatch))

namespace Reader

variable {c : Context} {s : State} {token : Token} {tokens rest : List Token} {endOffset : Nat}

/-- Moving on from the first of the last tokens. -/
lemma advance_run (h : s.cursor = .ofTokens (token :: rest) endOffset)
    (hkind : token.kind ≠ .endOfInput) :
    advance c s = .ok token { s with cursor := .ofTokens rest endOffset } :=
  onCursor_eq_ok.mpr ⟨_, h ▸ Cursor.advance_ofTokens hkind, rfl⟩

/-- Failing at a token of the text. -/
lemma failHere_run {α : Type} {expected : String} {cause : Cause}
    (hkind : s.cursor.current.kind ≠ .endOfInput) :
    (failHere expected cause : ReadM α) c s =
      .error (.grammar (.atToken s.cursor.current expected cause)) s := by
  rw [failHere, bind_of_ok current_run, SyntaxError.atCurrent, if_neg hkind]
  rfl

/-- A parenthesis that is closed while none is open. -/
lemma skipRest_close {fuel : Nat} (hkind : s.cursor.current.kind = .closeParen) :
    skipRest (fuel + 1) 0 c s = .error (trailingFailure s.cursor.current) s := by
  rw [skipRest, bind_of_ok currentKind_run, hkind]
  dsimp only
  rw [failHere_run (by rw [hkind]; decide), trailingFailure, if_pos hkind]

/-- Behind tokens that close nothing too much, the rest is skipped up to the first one that does. -/
lemma skipRest_run (fuel : Nat) : ∀ (s : State) (before rest : List Token) (opened : Nat),
    s.cursor = .ofTokens rest endOffset → rest.length < fuel →
    (∀ token ∈ rest, token.kind ≠ .endOfInput) → NeverOverclosed before →
    openings before = closings before + opened →
    (NeverOverclosed (before ++ rest) ∧ ∃ s', skipRest fuel opened c s = .ok () s') ∨
      ∃ token s', token.Overcloses (before ++ rest) ∧
        skipRest fuel opened c s = .error (trailingFailure token) s' := by
  induction fuel with
  | zero => exact fun _ _ _ _ _ hlt => absurd hlt (Nat.not_lt_zero _)
  | succ fuel ih =>
    intro s before rest opened hcursor hlt hkinds hbefore hopened
    cases rest with
    | nil =>
      refine Or.inl ⟨by rwa [List.append_nil], s, ?_⟩
      have hend : s.cursor.current.kind = .endOfInput := by rw [hcursor]; rfl
      rw [skipRest, bind_of_ok currentKind_run, hend]
      rfl
    | cons token rest =>
      have hcurrent : s.cursor.current = token := by rw [hcursor]; rfl
      have hkind : token.kind ≠ .endOfInput := hkinds token List.mem_cons_self
      have hnext (opened : Nat) (hopened : openings (before ++ [token]) =
          closings (before ++ [token]) + opened) :
          (NeverOverclosed (before ++ token :: rest) ∧
            ∃ s', (do let _ ← advance; skipRest fuel opened) c s = .ok () s') ∨
          ∃ token' s', token'.Overcloses (before ++ token :: rest) ∧
            (do let _ ← advance; skipRest fuel opened) c s =
              .error (trailingFailure token') s' := by
        have hrest := ih { s with cursor := .ofTokens rest endOffset } (before ++ [token]) rest
          opened rfl (by rw [List.length_cons] at hlt; omega)
          (fun other hother => hkinds other (List.mem_cons_of_mem _ hother))
          (neverOverclosed_concat.mpr ⟨hbefore, by omega⟩) hopened
        rw [bind_of_ok (advance_run hcursor hkind), List.append_cons]
        exact hrest
      rw [openings_concat, closings_concat] at hnext
      rw [skipRest, bind_of_ok currentKind_run, hcurrent]
      cases hfound : token.kind with
      | endOfInput => exact absurd hfound hkind
      | openParen => exact hnext (opened + 1) (by simp [hfound]; omega)
      | closeParen =>
        cases opened with
        | zero =>
          refine Or.inr ⟨token, s, ⟨hfound, before, rest, rfl, hbefore, ?_⟩, ?_⟩
          · rw [closings_concat, hfound]
            simp [hopened]
          · have hclose : skipRest (fuel + 1) 0 c s = _ := skipRest_close (hcurrent ▸ hfound)
            rw [skipRest, bind_of_ok currentKind_run, hcurrent, hfound] at hclose
            exact hclose
        | succ opened => exact hnext opened (by simp [hfound]; omega)
      | _ => exact hnext opened (by simp [hfound]; omega)

/-- What follows a document is read to its end, or up to the token at which the settings refuse
it. -/
lemma endOfDocument_run (hcursor : s.cursor = .ofTokens tokens endOffset)
    (hkinds : ∀ token ∈ tokens, token.kind ≠ .endOfInput) :
    (c.settings.AllowsBehind tokens ∧ ∃ s', endOfDocument c s = .ok () s') ∨
      ∃ token s', c.settings.RefusesAt token tokens ∧
        endOfDocument c s = .error (trailingFailure token) s' := by
  cases tokens with
  | nil =>
    have hend : s.cursor.current.kind = .endOfInput := by rw [hcursor]; rfl
    refine Or.inl ⟨?_, s, ?_⟩
    · unfold Settings.AllowsBehind
      split_ifs
      · rfl
      · exact neverOverclosed_nil
    · rw [endOfDocument, bind_of_ok current_run, if_pos hend]
      rfl
  | cons token rest =>
    have hcurrent : s.cursor.current = token := by rw [hcursor]; rfl
    have hkind : token.kind ≠ .endOfInput := hkinds token List.mem_cons_self
    have hunread : s.cursor.unread = (token :: rest).length := by
      rw [hcursor, Cursor.unread_eq, List.length_cons, Nat.add_comm]
      exact congrArg _ (if_neg hkind)
    have hskip := skipRest_run (c := c) (s.cursor.unread + 1)
      { s with log := s.log ++ [.trailingInput token.line] } [] (token :: rest) 0 hcursor
      (by omega) hkinds neverOverclosed_nil rfl
    rw [endOfDocument, bind_of_ok current_run, hcurrent, if_neg hkind,
      bind_of_ok (read_eq_ok.mpr ⟨rfl, rfl⟩)]
    by_cases hrequired : c.settings.requireEndOfInput = true
    · have hrefuses : c.settings.RefusesAt token (token :: rest) := by
        unfold Settings.RefusesAt
        rw [if_pos hrequired]
        rfl
      by_cases hclose : token.kind = .closeParen
      · have hfail : skipRest (s.cursor.unread + 1) 0 c
            { s with log := s.log ++ [.trailingInput token.line] } =
            .error (trailingFailure s.cursor.current) _ := skipRest_close (hcurrent ▸ hclose)
        rw [if_neg (by simp [hclose])]
        exact Or.inr ⟨token, _, hrefuses, hcurrent ▸ hfail⟩
      · rw [if_pos (by simp [hrequired, hclose]), failHere_run (hcurrent ▸ hkind), hcurrent]
        refine Or.inr ⟨token, s, hrefuses, ?_⟩
        rw [trailingFailure, if_neg hclose]
    · have hallows : c.settings.AllowsBehind (token :: rest) = NeverOverclosed (token :: rest) :=
        if_neg hrequired
      have hrefuses (other : Token) : c.settings.RefusesAt other (token :: rest) =
          other.Overcloses (token :: rest) := if_neg hrequired
      rw [if_neg (by simp [hrequired])]
      simp only [hallows, hrefuses]
      exact hskip

end Reader

/-! ### Sections end with a parenthesis -/

namespace Reader

section Runs

variable {σ α β : Type}

/-- Whenever the reader succeeds, no token is in reserve after it. -/
def Seals (cursor : σ → Cursor) (m : ReaderT Context (EStateM Failure σ) α) : Prop :=
  ∀ c s a s', m c s = .ok a s' → (cursor s').reserve = none

/-- Whenever the reader succeeds, the cursor is where it was. -/
def Stays (cursor : σ → Cursor) (m : ReaderT Context (EStateM Failure σ) α) : Prop :=
  ∀ c s a s', m c s = .ok a s' → cursor s' = cursor s

variable {cursor : σ → Cursor} {m : ReaderT Context (EStateM Failure σ) α}
  {f : α → ReaderT Context (EStateM Failure σ) β}

/-- Returning a value. -/
lemma Stays.pure (a : α) : Stays cursor (Pure.pure a : ReaderT Context (EStateM Failure σ) α) := by
  intro c s b s' h
  rw [(pure_eq_ok.mp h).2]

/-- One reader after another. -/
lemma Stays.bind (hm : Stays cursor m) (hf : ∀ a, Stays cursor (f a)) :
    Stays cursor (m >>= f) := by
  intro c s b s' h
  obtain ⟨a, s₁, hrun, hrest⟩ := bind_eq_ok.mp h
  rw [hf a c s₁ b s' hrest, hm c s a s₁ hrun]

/-- Failing. -/
lemma Seals.throw (failure : Failure) :
    Seals cursor (MonadExcept.throw failure : ReaderT Context (EStateM Failure σ) α) :=
  fun _ _ _ _ h => absurd h (by simp)

/-- The last reader of several. -/
lemma Seals.last (hf : ∀ a, Seals cursor (f a)) : Seals cursor (m >>= f) := by
  intro c s b s' h
  obtain ⟨a, s₁, -, hrest⟩ := bind_eq_ok.mp h
  exact hf a c s₁ b s' hrest

/-- The last reader that moves the cursor. -/
lemma Seals.stay (hm : Seals cursor m) (hf : ∀ a, Stays cursor (f a)) :
    Seals cursor (m >>= f) := by
  intro c s b s' h
  obtain ⟨a, s₁, hrun, hrest⟩ := bind_eq_ok.mp h
  rw [hf a c s₁ b s' hrest]
  exact hm c s a s₁ hrun

/-- No token gets into the reserve. -/
lemma Seals.upholds (hm : Seals cursor m) {c : Context} :
    Upholds c (fun s => (cursor s).reserve = none) m fun _ => True :=
  fun s a s' _ h => ⟨hm c s a s' h, True.intro⟩

end Runs

/-- Moving on. -/
lemma Seals.advance : Seals State.cursor advance := by
  intro c s t s' h
  obtain ⟨cursor, hstep, rfl⟩ := onCursor_eq_ok.mp h
  exact Cursor.reserve_of_advance hstep

/-- Expecting a token. -/
lemma Seals.expect (kind : Token.Kind) (expected : String) :
    Seals State.cursor (expect kind expected) := by
  refine .last fun found => ?_
  split
  · exact .advance
  · exact .last fun _ => .throw _

/-- Failing at the current token. -/
lemma Seals.failHere {α : Type} {expected : String} {cause : Cause} :
    Seals State.cursor (Reader.failHere expected cause : ReadM α) :=
  .last fun _ => .throw _

/-- Leaving a notice. -/
lemma Stays.note (notice : Notice) : Stays State.cursor (note notice) := by
  intro c s u s' h
  cases h
  rfl

/-- Reading the start of a document. -/
lemma Seals.header (kind expected : String) : Seals State.cursor (header kind expected) := by
  refine .last fun _ => .last fun _ => .last fun _ => .last fun _ => .last fun _ => ?_
  exact .stay (.expect _ _) fun _ => .pure _

/-- Reading a section of requirements. -/
lemma Seals.requirements : Seals State.cursor requirements := by
  refine .last fun _ => .last fun _ => .stay (.expect _ _) fun _ => ?_
  refine .bind (fun c s u s' h => ?_) fun _ => .bind (.note _) fun _ => .pure _
  cases h
  rfl

/-- Reading an instantaneous action. -/
lemma Seals.action : Seals State.cursor action :=
  .last fun _ => .last fun _ => .last fun _ => .stay (.expect _ _) fun _ => .pure _

/-- Reading a durative action. -/
lemma Seals.durativeAction : Seals State.cursor durativeAction := by
  refine .last fun _ => .last fun _ => .last fun _ => .last fun _ => ?_
  dsimp only
  split
  · exact .stay (.expect _ _) fun _ => .pure _
  · exact .failHere

/-- Reading a section of a problem. -/
lemma Seals.problemSection : Seals State.cursor problemSection := by
  refine .last fun _ => .last fun _ => ?_
  split
  · split
    · rename_i kind _
      cases kind with
      | requirements => exact .stay .requirements fun _ => .pure _
      | init =>
        refine .last fun _ => .stay (.last fun _ => ?_) fun _ => .pure _
        exact .stay (.expect _ _) fun _ => .pure _
      | _ => exact .last fun _ => .last fun _ => .stay (.expect _ _) fun _ => .pure _
    · exact .failHere
  · exact .failHere

end Reader

namespace Assembly

open Reader (Seals Stays)

/-- A reader that leaves the declarations alone. -/
lemma seals_ofReader {α : Type} {m : ReadM α} (hm : Seals Reader.State.cursor m) :
    Seals standpoint (ofReader m) := by
  intro c a x a' h
  obtain ⟨s', hrun, rfl⟩ := ofReader_eq_ok.mp h
  exact hm c a.toState x s' hrun

/-- Adding an action. -/
lemma stays_addAction (action : Action) : Stays standpoint (addAction action) := by
  intro c a u a' h
  obtain ⟨-, rfl⟩ := addAction_eq_ok.mp h
  rfl

/-- Reading a section of a domain. -/
lemma seals_anySection : Seals standpoint anySection := by
  have hclose (expected : String) :
      Seals standpoint (do let _ ← ofReader (Reader.expect .closeParen expected)) :=
    .stay (seals_ofReader (.expect _ _)) fun _ => .pure _
  have hfail {expected : String} {cause : Cause} :
      Seals standpoint (ofReader (Reader.failHere expected cause : ReadM Unit)) :=
    seals_ofReader .failHere
  refine .last fun _ => ?_
  split
  · split
    · rename_i kind _
      cases kind with
      | requirements =>
        refine .stay (seals_ofReader .requirements) fun _ c a u a' h => ?_
        cases h
        rfl
      | types =>
        refine .last fun _ => .last fun _ => .last fun _ => .last fun _ => ?_
        exact .last fun _ => .last fun _ => hclose _
      | constants => exact .last fun _ => .last fun _ => .last fun _ => hclose _
      | predicates => exact .last fun _ => .last fun _ => hclose _
      | functions => exact .last fun _ => .last fun _ => .last fun _ => hclose _
      | action => exact .stay (seals_ofReader .action) stays_addAction
      | durativeAction => exact .stay (seals_ofReader .durativeAction) stays_addAction
    · exact hfail
  · exact hfail

end Assembly

/-! ### The last parenthesis of a document -/

/-- If a group starts with a heading and sections that are followed by a closing parenthesis, it
ends with this parenthesis. -/
lemma IsGroup.eq_nil_of_heading {opening closing : Token} {heading sections after : List Token}
    (h : IsGroup (opening :: heading ++ sections ++ closing :: after))
    (hopen : opening.kind = .openParen) (hheading : Balanced heading)
    (hsections : Balanced sections) (hclose : closing.kind = .closeParen) : after = [] := by
  have hfirst : IsGroup (opening :: (heading ++ sections ++ [closing])) :=
    ⟨opening, heading ++ sections, closing, rfl, hopen, hclose, hheading.append hsections⟩
  have hsplit : opening :: heading ++ sections ++ closing :: after =
      opening :: (heading ++ sections ++ [closing]) ++ after := by simp
  have hwhole := groups_group h
  rw [hsplit, groups_cons_group hfirst] at hwhole
  exact List.self_eq_append_right.mp (List.cons.inj hwhole).1

namespace Cursor

/-- Where the text goes on, a cursor at the last token of the text is one at the first of the last
tokens. -/
lemma extend_of_last {cursor after : Cursor} {token last : Token} (hv : cursor.Valid)
    (hreserve : cursor.reserve = none) (hlast : cursor.upcoming = [last])
    (hkind : last.kind ≠ .endOfInput) (h : advance cursor = .ok token after)
    (more : List Token) (endOffset : Nat) :
    cursor.extend more endOffset = ofTokens (last :: more) endOffset := by
  have hcurrent : cursor.current = last := hv.current_of_upcoming hlast
  have hne : cursor.current.kind ≠ .endOfInput := hcurrent ▸ hkind
  rw [upcoming_of_ne_end hne, hreserve] at hlast
  have hrest : cursor.rest = [] := by simpa using (List.cons.inj hlast).2
  have hfailure : cursor.failure = none := by
    obtain ⟨-, ⟨next, hsome, -⟩ | ⟨-, hend, -⟩ | ⟨-, -, next, pulled, hpull, -⟩⟩ :=
      advance_cases.mp h
    · rw [hreserve] at hsome
      cases hsome
    · exact absurd hend hne
    · rcases pull_eq_ok.mp hpull with ⟨hcons, -⟩ | ⟨-, hfailure, -, -⟩
      · rw [hrest] at hcons
        cases hcons
      · exact hfailure
  rw [extend, hcurrent, hreserve, hrest, hfailure]
  rfl

end Cursor

namespace Reader

variable {c : Context} {s s' : State}

/-- Where the text goes on, the last parenthesis is followed by what comes behind the text. -/
lemma expect_extend {token last : Token} {expected : String} (hv : s.cursor.Valid)
    (hreserve : s.cursor.reserve = none) (hlast : s.cursor.upcoming = [last])
    (h : expect .closeParen expected c s = .ok token s') (more : List Token) (endOffset : Nat) :
    expect .closeParen expected c (s.extend more endOffset) =
      .ok last { s' with cursor := .ofTokens more endOffset } := by
  have hcurrent : s.cursor.current = last := hv.current_of_upcoming hlast
  simp only [expect, bind_eq_ok, currentKind_eq_ok] at h
  obtain ⟨_, _, ⟨rfl, rfl⟩, h⟩ := h
  split_ifs at h with hkind
  · obtain ⟨after, hstep, rfl⟩ := onCursor_eq_ok.mp h
    have hne : last.kind ≠ .endOfInput := by rw [← hcurrent, hkind]; decide
    have hcursor : (s.extend more endOffset).cursor = .ofTokens (last :: more) endOffset :=
      Cursor.extend_of_last hv hreserve hlast hne hstep more endOffset
    have hfound : (s.extend more endOffset).cursor.current.kind = .closeParen := hkind
    rw [expect, bind_of_ok currentKind_run, if_pos hfound]
    exact advance_run hcursor hne
  · exact absurd h (by simp)

/-- A parenthesis behind the heading and the sections of a group is the last one of the group, so
that it is followed by what comes behind the text where the text goes on. -/
lemma lastParen_extend {s₁ s₂ : State} {opening closing : Token} {heading ts : List Token}
    {expected : String} (hgroup : IsGroup s.cursor.upcoming)
    (hpasses : s.cursor.Passes (opening :: heading ++ ts) s₁.cursor)
    (hopen : opening.kind = .openParen) (hheading : Balanced heading) (hts : Balanced ts)
    (hreserve : s₁.cursor.reserve = none)
    (hclose : expect .closeParen expected c s₁ = .ok closing s₂) :
    s₁.cursor.Open ∧ ∀ more endOffset,
      expect .closeParen expected c (s₁.extend more endOffset) =
        .ok closing { s₂ with cursor := .ofTokens more endOffset } := by
  obtain ⟨hcurrent, hkind, hc⟩ := expect_consumes hpasses.valid hclose (by decide)
  have hafter : s₂.cursor.upcoming = [] := by
    rw [hpasses.upcoming, hc.upcoming] at hgroup
    exact hgroup.eq_nil_of_heading hopen hheading hts hkind
  have hlast : s₁.cursor.upcoming = [closing] := by rw [hc.upcoming, hafter, List.append_nil]
  refine ⟨⟨by rw [← hcurrent, hkind]; decide, by simp [hreserve]⟩, fun more endOffset => ?_⟩
  exact expect_extend hpasses.valid hreserve hlast hclose more endOffset

/-- After the heading and the sections of a problem, no token is in reserve. -/
lemma reserve_of_problemSections {found : Option Problem}
    (h : problemSections c s = .ok found s') : s'.cursor.reserve = none := by
  simp only [problemSections, bind_eq_ok, pure_eq_ok] at h
  obtain ⟨name, s₁, hheader, u, s₂, hnote, sections, s₃, hsections, -, rfl⟩ := h
  have hreserve : s₂.cursor.reserve = none := by
    rw [Stays.note _ c s₁ u s₂ hnote]
    exact Seals.header _ _ c s name s₁ hheader
  exact (Upholds.readWhile Seals.problemSection.upholds s₂ sections s₃ hreserve hsections).1

/-- The heading and the sections of a problem are read without a look behind them. -/
lemma problemSections_extends {more : List Token} {endOffset : Nat} :
    Mirrors (State.extension more endOffset) problemSections := by
  have hR := extends_compositional more endOffset
  refine hR.bind (hR.header _ _) fun _ => hR.bind (hR.note _ (by simp [Notice.level])) fun _ => ?_
  exact hR.bind (hR.readWhile .part hR.problemSection) fun _ => hR.pure _

/-- A problem whose group is all of the tokens is read again if more tokens come behind them that
are allowed there; otherwise reading fails at the token at which they are refused. -/
lemma problem_extend {found : Problem} (hcapacity : c.capacity ≠ none) (hv : s.cursor.Valid)
    (hgroup : IsGroup s.cursor.upcoming) (h : problem c s = .ok found s') {more : List Token}
    (hlexemes : ∀ token ∈ more, token.word.IsLexeme) (endOffset : Nat) :
    (c.settings.AllowsBehind more ∧
      ∃ s'', problem c (s.extend more endOffset) = .ok found s'') ∨
    ∃ token s'', c.settings.RefusesAt token more ∧
      problem c (s.extend more endOffset) = .error (trailingFailure token) s'' := by
  obtain ⟨s₁, hsections⟩ := exists_problemSections h
  rw [problem_run hsections] at h
  obtain ⟨closing, s₂, hclose, -⟩ := bind_eq_ok.mp h
  obtain ⟨opening, heading, ts, hpasses, hopen, hheading, hts⟩ :=
    problemSections_passes hv hsections
  obtain ⟨hopen₁, hclose'⟩ := lastParen_extend hgroup hpasses hopen hheading hts
    (reserve_of_problemSections hsections) hclose
  obtain ⟨hopen₀, hsections'⟩ :=
    (problemSections_extends.run c s _ s₁ hcapacity hv hsections).2 hopen₁
  obtain ⟨_, hbegin, rfl⟩ := hsections' (s.extend more endOffset) (hv.extend hopen₀ hlexemes _) rfl
  rw [problem_run hbegin, bind_of_ok (hclose' more endOffset)]
  rcases endOfDocument_run (c := c) (s := { s₂ with cursor := .ofTokens more endOffset }) rfl
    (fun token htoken => Cursor.kind_ne_end_of_isLexeme (hlexemes token htoken)) with
    ⟨hallows, s₃, hend⟩ | ⟨token, s₃, hrefuses, hend⟩
  · exact Or.inl ⟨hallows, s₃, bind_of_ok hend⟩
  · exact Or.inr ⟨token, s₃, hrefuses, bind_of_error hend⟩

end Reader

namespace Assembly

variable {c : Reader.Context} {a a' : Assembly}

/-- After the heading and the sections of a domain, no token is in reserve. -/
lemma reserve_of_sections {name : String} (h : sections c a = .ok name a') :
    a'.cursor.reserve = none := by
  simp only [sections, Reader.bind_eq_ok, Reader.pure_eq_ok] at h
  obtain ⟨_, a₁, hheader, u, a₂, hnote, u', a₃, hsections, -, rfl⟩ := h
  have hreserve : a₂.cursor.reserve = none := by
    obtain ⟨s₂, hrun, rfl⟩ := ofReader_eq_ok.mp hnote
    rw [Reader.Stays.note _ c _ u s₂ hrun]
    exact seals_ofReader (.header _ _) c a _ a₁ hheader
  have hstep : Reader.Seals standpoint
      (do let _ ← ofReader (Reader.expect .openParen "'('"); anySection) :=
    .last fun _ => seals_anySection
  exact (upholds_repeatWhile hstep.upholds a₂ u' a₃ hreserve hsections).1

/-- The heading and the sections of a domain are read without a look behind them. -/
lemma sections_extends {more : List Token} {endOffset : Nat} :
    Reader.Mirrors (extension more endOffset) sections := by
  have hR := Reader.extends_compositional more endOffset
  have hA := extends_compositional more endOffset
  refine hA.bind (hA.ofReader (hR.header _ _)) fun _ => ?_
  refine hA.bind (hA.ofReader (hR.note _ (by simp [Notice.level]))) fun _ => ?_
  exact hA.bind (Compositional.repeatWhile hR.toDocumentary hA .sections
    (hA.bind (hA.ofReader (hR.expect _ _)) fun _ =>
      Compositional.anySection hR.toDocumentary hA)) fun _ => hA.pure _

/-- Which domain is made depends on the declarations only. -/
lemma exists_conclude {name : String} {domain : Domain} {b : Assembly}
    (h : conclude name c a = .ok domain a') (hdeclared : b.declared = a.declared) :
    ∃ b', conclude name c b = .ok domain b' := by
  obtain ⟨types, htypes, hdomain, hcheck, -⟩ := conclude_eq_ok.mp h
  rw [← hdeclared] at htypes hdomain
  exact ⟨_, conclude_eq_ok.mpr ⟨types, htypes, hdomain, hcheck, rfl⟩⟩

/-- A reader that leaves the declarations alone fails as it does by itself. -/
lemma lift_of_error {α : Type} {m : ReadM α} {s' : Reader.State} {failure : Failure}
    (h : m c a.toState = .error failure s') :
    (liftM m : AssembleM α) c a = .error failure { a with toState := s' } := by
  change ofReader m c a = _
  unfold ofReader
  rw [h]

/-- A domain whose group is all of the tokens is read again if more tokens come behind them that
are allowed there; otherwise reading fails at the token at which they are refused. -/
lemma domain_extend {cursor : Cursor} {domain : Domain} (hcapacity : c.capacity ≠ none)
    (hv : cursor.Valid) (hgroup : IsGroup cursor.upcoming)
    (h : Assembly.domain c (ofCursor cursor) = .ok domain a') {more : List Token}
    (hlexemes : ∀ token ∈ more, token.word.IsLexeme) (endOffset : Nat) :
    (c.settings.AllowsBehind more ∧
      ∃ a'', Assembly.domain c (ofCursor (cursor.extend more endOffset)) = .ok domain a'') ∨
    ∃ token a'', c.settings.RefusesAt token more ∧
      Assembly.domain c (ofCursor (cursor.extend more endOffset)) =
        .error (trailingFailure token) a'' := by
  rw [domain_eq] at h ⊢
  obtain ⟨name, a₁, hsections, h⟩ := Reader.bind_eq_ok.mp h
  obtain ⟨closing, a₂, hclose, h⟩ := Reader.bind_eq_ok.mp h
  obtain ⟨u, a₃, hend, hconclude⟩ := Reader.bind_eq_ok.mp h
  obtain ⟨s₂, hexpect, rfl⟩ := lift_eq_ok.mp hclose
  obtain ⟨s₃, -, rfl⟩ := lift_eq_ok.mp hend
  obtain ⟨opening, heading, ts, hpasses, hopen, hheading, -, hts, -⟩ :=
    sections_passes hv hsections
  obtain ⟨hopen₁, hclose'⟩ := Reader.lastParen_extend (s := (ofCursor cursor).toState) hgroup
    hpasses hopen hheading hts (reserve_of_sections hsections) hexpect
  obtain ⟨hopen₀, hsections'⟩ :=
    (sections_extends.run c (ofCursor cursor) name a₁ hcapacity hv hsections).2 hopen₁
  obtain ⟨_, hbegin, rfl⟩ := hsections' (ofCursor (cursor.extend more endOffset))
    (hv.extend hopen₀ hlexemes _) rfl
  rw [Reader.bind_of_ok hbegin, Reader.bind_of_ok (lift_eq_ok.mpr ⟨_, hclose' more endOffset, rfl⟩)]
  rcases Reader.endOfDocument_run (c := c) (s := { s₂ with cursor := .ofTokens more endOffset }) rfl
    (fun token htoken => Cursor.kind_ne_end_of_isLexeme (hlexemes token htoken)) with
    ⟨hallows, s₄, hend⟩ | ⟨token, s₄, hrefuses, hend⟩
  · obtain ⟨a₄, hdomain⟩ := exists_conclude (b := { a₁ with toState := s₄ }) hconclude rfl
    refine Or.inl ⟨hallows, a₄, ?_⟩
    rw [Reader.bind_of_ok (lift_eq_ok.mpr ⟨_, hend, rfl⟩)]
    exact hdomain
  · exact Or.inr ⟨token, _, hrefuses, Reader.bind_of_error (lift_of_error hend)⟩

end Assembly

/-! ### Texts -/

namespace Settings

variable {settings : Settings} {tokens : List Token} {token : Token}

/-- If the settings refuse a token, they do not allow the tokens. -/
lemma RefusesAt.not_allowsBehind (h : settings.RefusesAt token tokens) :
    ¬ settings.AllowsBehind tokens := by
  unfold RefusesAt at h
  unfold AllowsBehind
  split_ifs at h ⊢ with hrequired
  · rintro rfl
    cases h
  · exact h.not_neverOverclosed

/-- Tokens are allowed wherever they stand. -/
lemma allowsBehind_behind (text : List Char) :
    settings.AllowsBehind (tokens.map (Token.behind text)) ↔ settings.AllowsBehind tokens := by
  unfold AllowsBehind
  split_ifs with hrequired
  · exact List.map_eq_nil_iff
  · exact neverOverclosed_behind text

/-- A token is refused wherever it stands. -/
lemma RefusesAt.of_behind {text : List Char}
    (h : settings.RefusesAt token (tokens.map (Token.behind text))) :
    ∃ first : Token, token = first.behind text ∧ settings.RefusesAt first tokens := by
  unfold RefusesAt at h ⊢
  split_ifs at h ⊢ with hrequired
  · rw [List.head?_map, Option.map_eq_some_iff] at h
    obtain ⟨first, hfirst, rfl⟩ := h
    exact ⟨first, rfl, hfirst⟩
  · obtain ⟨hkind, before, after, hsplit, hnever, hlt⟩ := h
    obtain ⟨before, rest, rfl, rfl, hrest⟩ := List.map_eq_append_iff.mp hsplit
    obtain ⟨first, after, rfl, rfl, rfl⟩ := List.map_eq_cons_iff.mp hrest
    rw [neverOverclosed_behind] at hnever
    rw [← List.map_singleton, ← List.map_append, openings_behind, closings_behind] at hlt
    exact ⟨first, rfl, hkind, before, after, rfl, hnever, hlt⟩

end Settings

/-- The text ends with the parenthesis that closes its first one. -/
def EndsEnclosed (text : String) : Prop :=
  ∃ closing : Token, closing.ClosesFirst (scan text).tokens ∧
    closing.offset + 1 = text.toList.length

/-- A text ends with the parenthesis that closes its first one if its first group does. -/
lemma EndsEnclosed.of_groups {text : String}
    (hfirst : ∃ closing : Token, closing.ClosesFirst (scan text).tokens)
    (hlast : ∀ group ∈ (groups (scan text).tokens).head?,
      group.getLast?.map (·.offset + 1) = some text.toList.length) : EndsEnclosed text := by
  obtain ⟨closing, hclosing⟩ := hfirst
  obtain ⟨before, rest, -, -, hgroups⟩ := hclosing.exists_group
  refine ⟨closing, hclosing, ?_⟩
  have hoffset := hlast (before ++ [closing]) (by rw [hgroups]; rfl)
  simpa using hoffset

/-- A text that ends with the parenthesis that closes its first one is a group, and its cursor goes
on to the tokens of what comes behind it. -/
lemma Cursor.ofText_append {text trailing : String} {cursor : Cursor} (hend : EndsEnclosed text)
    (hscan : (scan trailing).failure = none) (h : ofText text = .ok cursor) :
    IsGroup cursor.upcoming ∧
      ofText (text ++ trailing) =
        .ok (cursor.extend ((scan trailing).tokens.map (Token.behind text.toList))
          (text ++ trailing).toList.length) := by
  obtain ⟨closing, hfirst, hoffset⟩ := hend
  obtain ⟨before, rest, htokens, hgroup, -⟩ := hfirst.exists_group
  obtain ⟨opening, inner, after, -, -, -, hkind⟩ := hfirst
  obtain ⟨rfl, hfailure, happend⟩ := scan_append htokens hkind hoffset hscan
  obtain ⟨-, hupcoming, hnone⟩ := of_ofText h
  refine ⟨by rwa [hupcoming, htokens], ?_⟩
  unfold ofText at h ⊢
  rw [happend]
  dsimp only at h ⊢
  cases hstart : (scan text).tokens with
  | nil => simp [htokens] at hstart
  | cons first others =>
    rw [hstart] at h
    cases h
    rw [hfailure]
    rfl

/-- With the trailing text behind it, the text is read as the same document if the settings allow
the trailing tokens; otherwise reading fails at the one at which they refuse them. -/
def ReadsBehind {α : Type} (settings : Settings) (text trailing : String) (document : α)
    (outcome : Except Failure α) : Prop :=
  (settings.AllowsBehind (scan trailing).tokens → outcome = .ok document) ∧
    (¬ settings.AllowsBehind (scan trailing).tokens →
      ∃ token, settings.RefusesAt token (scan trailing).tokens ∧
        outcome = .error (trailingFailure (token.behind text.toList)))

/-- What follows from a run on the tokens behind the text. -/
lemma ReadsBehind.of_run {α σ : Type} {settings : Settings} {text trailing : String} {document : α}
    {log : σ → List Notice} {outcome : EStateM.Result Failure σ α}
    (h : (settings.AllowsBehind ((scan trailing).tokens.map (Token.behind text.toList)) ∧
        ∃ s, outcome = .ok document s) ∨
      ∃ token s, settings.RefusesAt token
        ((scan trailing).tokens.map (Token.behind text.toList)) ∧
        outcome = .error (trailingFailure token) s) :
    ReadsBehind settings text trailing document (Report.ofOutcome log outcome).result := by
  rcases h with ⟨hallows, s, rfl⟩ | ⟨token, s, hrefuses, rfl⟩
  · rw [Settings.allowsBehind_behind] at hallows
    exact ⟨fun _ => rfl, fun hnot => absurd hallows hnot⟩
  · obtain ⟨first, rfl, hfirst⟩ := hrefuses.of_behind
    exact ⟨fun hallows => absurd hallows hfirst.not_allowsBehind, fun _ => ⟨first, hfirst, rfl⟩⟩

/-- Tokens of a text are lexemes, wherever they stand. -/
lemma isLexeme_of_mem_behind {text : List Char} {trailing : String} :
    ∀ token ∈ (scan trailing).tokens.map (Token.behind text), token.word.IsLexeme := by
  intro token htoken
  obtain ⟨own, hown, rfl⟩ := List.mem_map.mp htoken
  have hword : (own.behind text).word = own.word := rfl
  rw [hword]
  exact Scan.isLexeme_of_mem_run hown

/-- A text that ends with the parenthesis of its domain, or of its problem, is read as the same
document with anything behind it that can be scanned, provided the settings allow its tokens;
otherwise reading fails at the first token that they refuse there. -/
theorem parse_append (settings : Settings) (text trailing : String) (capacity : Nat)
    (hend : EndsEnclosed text) (hscan : (scan trailing).failure = none) :
    (∀ domain, (Domain.parse settings text capacity).result = .ok domain →
      ReadsBehind settings text trailing domain
        (Domain.parse settings (text ++ trailing) capacity).result) ∧
    ∀ problem, (Problem.parse settings text capacity).result = .ok problem →
      ReadsBehind settings text trailing problem
        (Problem.parse settings (text ++ trailing) capacity).result := by
  constructor
  · intro domain h
    obtain ⟨cursor, a, hcursor, hrun⟩ := Domain.parse_eq_ok.mp h
    obtain ⟨hv, -, -⟩ := Cursor.of_ofText hcursor
    obtain ⟨hgroup, happend⟩ := Cursor.ofText_append hend hscan hcursor
    rw [Domain.parse_eq_ofOutcome settings capacity happend]
    exact .of_run (Assembly.domain_extend (by simp [Reader.Context.document]) hv hgroup hrun
      isLexeme_of_mem_behind _)
  · intro problem h
    obtain ⟨cursor, s, hcursor, hrun⟩ := Reader.run_eq_ok.mp h
    obtain ⟨hv, -, -⟩ := Cursor.of_ofText hcursor
    obtain ⟨hgroup, happend⟩ := Cursor.ofText_append hend hscan hcursor
    rw [Problem.parse, Reader.run_eq_ofOutcome _ _ happend]
    exact .of_run (Reader.problem_extend (s := .ofCursor cursor [])
      (by simp [Reader.Context.document]) hv hgroup hrun isLexeme_of_mem_behind _)

/-- A domain that ends with its last parenthesis. -/
def bareDomainText : String :=
  "(define (domain d))"

/-- A problem that ends with its last parenthesis. -/
def bareProblemText : String :=
  "(define (problem p) (:domain d) (:goal (q)))"

/-- A group, and on the next line a parenthesis that closes nothing. -/
def overclosingText : String :=
  " (r)\n)"

/-- Both documents are read, and fail at the last parenthesis of what comes behind them. -/
theorem parse_append_overclosing :
    (∃ domain, (Domain.parse .lenient bareDomainText).result = .ok domain ∧
      ReadsBehind .lenient bareDomainText overclosingText domain
        (Domain.parse .lenient (bareDomainText ++ overclosingText)).result) ∧
    ∃ problem, (Problem.parse .lenient bareProblemText).result = .ok problem ∧
      ReadsBehind .lenient bareProblemText overclosingText problem
        (Problem.parse .lenient (bareProblemText ++ overclosingText)).result := by
  have hdomain : (Domain.parse .lenient bareDomainText).result.toOption.isSome = true := by
    decide +kernel
  have hproblem : (Problem.parse .lenient bareProblemText).result.toOption.isSome = true := by
    decide +kernel
  obtain ⟨domain, hdomain⟩ := Option.isSome_iff_exists.mp hdomain
  obtain ⟨problem, hproblem⟩ := Option.isSome_iff_exists.mp hproblem
  have hread := Check.toOption_eq_some.mp hdomain
  have hread' := Check.toOption_eq_some.mp hproblem
  have hend : EndsEnclosed bareDomainText :=
    .of_groups (Domain.exists_closesFirst hread) (by decide +kernel)
  have hend' : EndsEnclosed bareProblemText :=
    .of_groups (Problem.exists_closesFirst hread') (by decide +kernel)
  have hscan : (scan overclosingText).failure = none := by decide +kernel
  exact ⟨⟨domain, hread, (parse_append .lenient _ _ _ hend hscan).1 domain hread⟩,
    problem, hread', (parse_append .lenient _ _ _ hend' hscan).2 problem hread'⟩

end Pddl
