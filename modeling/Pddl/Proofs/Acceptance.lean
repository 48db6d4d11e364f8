import Mathlib.Data.List.Forall2
import Pddl.Proofs.Consumption
import Pddl.Proofs.Rendering

/-!
# What readers accept

`Takes c I J reader words K Q` says that the reader, run from a state with the property `I` before
`words` that are followed by words with the property `K`, succeeds with a result that has the
property `Q`, in a state with the property `J` right after `words`.  It is the converse of
`Consumes`: that says what a success has consumed, this says that there is a success.  Sequences are
put together by `Takes.bind`, repetitions by `readWhile_takes`.

`Yields c frame reader words K Q` is the case in which only the words change (`yields_iff_takes`),
and its rules follow from those of `Takes`.  Each small reader has one lemma here.
-/

namespace Pddl.Reader

/-- What stays the same while an expression is read: the nesting depth around it, the declared
flags, and the error after the last token of the text. -/
structure Frame where
  depth : Nat
  declared : List String
  failure : Option LexError

/-- The frame one level deeper. -/
def Frame.deeper (frame : Frame) : Frame :=
  { frame with depth := frame.depth + 1 }

/-- In a frame, the reader stands before the given words, which are all that is left. -/
structure Stands (frame : Frame) (words : List Word) (s : State) : Prop where
  valid : s.cursor.Valid
  words : s.cursor.words = words
  depth : s.depth = frame.depth
  declared : s.requirements = frame.declared
  failure : s.cursor.failure = frame.failure

/-- No property: anything may follow. -/
def Anything : List Word → Prop := fun _ => True

/-- The given word follows. -/
def Next (word : Word) : List Word → Prop := fun rest => rest.head? = some word

/-! ### Readers that change more than the words -/

section Sequencing

variable {ρ ε σ α β : Type} {c : ρ} {I J L : List Word → σ → Prop} {ws us : List Word}
  {K : List Word → Prop}

/-- From a state with the property `I` before `words` and a rest with the property `K`, the reader
succeeds with the property `Q`, in a state with the property `J` before the rest. -/
def Takes (c : ρ) (I J : List Word → σ → Prop) (reader : ReaderT ρ (EStateM ε σ) α)
    (words : List Word) (K : List Word → Prop) (Q : α → Prop) : Prop :=
  ∀ rest s, K rest → I (words ++ rest) s → ∃ a s', reader c s = .ok a s' ∧ Q a ∧ J rest s'

/-- Returning a value needs no words. -/
lemma Takes.pure {a : α} {Q : α → Prop} (h : Q a) :
    Takes c I I (pure a : ReaderT ρ (EStateM ε σ) α) [] K Q :=
  fun _ s _ hs => ⟨a, s, rfl, h, hs⟩

/-- A sequence needs the words of its parts one after the other, and the second part what the first
one needs to follow. -/
lemma Takes.bind {reader : ReaderT ρ (EStateM ε σ) α} {f : α → ReaderT ρ (EStateM ε σ) β}
    {M : List Word → Prop} {P : α → Prop} {Q : β → Prop} (h : Takes c I J reader ws M P)
    (hnext : ∀ rest, K rest → M (us ++ rest)) (hf : ∀ a, P a → Takes c J L (f a) us K Q) :
    Takes c I L (reader >>= f) (ws ++ us) K Q := by
  intro rest s hK hs
  rw [List.append_assoc] at hs
  obtain ⟨a, s₁, hrun, hP, hs₁⟩ := h (us ++ rest) s (hnext rest hK) hs
  obtain ⟨b, s₂, hrun', hQ, hs₂⟩ := hf a hP rest s₁ hK hs₁
  exact ⟨b, s₂, bind_eq_ok.mpr ⟨a, s₁, hrun, hrun'⟩, hQ, hs₂⟩

/-- A sequence that starts with one word. -/
lemma Takes.cons {reader : ReaderT ρ (EStateM ε σ) α} {f : α → ReaderT ρ (EStateM ε σ) β}
    {w : Word} {P : α → Prop} {Q : β → Prop} (h : Takes c I J reader [w] Anything P)
    (hf : ∀ a, P a → Takes c J L (f a) us K Q) : Takes c I L (reader >>= f) (w :: us) K Q :=
  h.bind (fun _ _ => True.intro) hf

/-- A sequence whose first part needs no words. -/
lemma Takes.skip {reader : ReaderT ρ (EStateM ε σ) α} {f : α → ReaderT ρ (EStateM ε σ) β}
    {P : α → Prop} {Q : β → Prop} (h : Takes c I J reader [] Anything P)
    (hf : ∀ a, P a → Takes c J L (f a) us K Q) : Takes c I L (reader >>= f) us K Q :=
  h.bind (fun _ _ => True.intro) hf

/-- A sequence whose second part needs no words. -/
lemma Takes.finish {reader : ReaderT ρ (EStateM ε σ) α} {f : α → ReaderT ρ (EStateM ε σ) β}
    {P : α → Prop} {Q : β → Prop} (h : Takes c I J reader ws K P)
    (hf : ∀ a, P a → Takes c J L (f a) [] K Q) : Takes c I L (reader >>= f) ws K Q := by
  intro rest s hK hs
  obtain ⟨a, s₁, hrun, hP, hs₁⟩ := h rest s hK hs
  obtain ⟨b, s₂, hrun', hQ, hs₂⟩ := hf a hP rest s₁ hK hs₁
  exact ⟨b, s₂, bind_eq_ok.mpr ⟨a, s₁, hrun, hrun'⟩, hQ, hs₂⟩

end Sequencing

/-! ### Readers that only consume words -/

/-- Before `words` and a rest with the property `K`, the reader succeeds with the property `Q` and
stops before the rest. -/
def Yields {α : Type} (c : Context) (frame : Frame) (reader : ReadM α) (words : List Word)
    (K : List Word → Prop) (Q : α → Prop) : Prop :=
  ∀ rest s, (rest = [] → frame.failure = none) → K rest → Stands frame (words ++ rest) s →
    ∃ a s', reader c s = .ok a s' ∧ Q a ∧ Stands frame rest s'

variable {α β : Type} {c : Context} {frame : Frame} {s s' : State} {t : Token} {w : Word}
  {ws us : List Word} {K : List Word → Prop}

/-- The rest has the property, and no error comes after it if it is empty. -/
def Frame.Clean (frame : Frame) (K : List Word → Prop) (rest : List Word) : Prop :=
  (rest = [] → frame.failure = none) ∧ K rest

/-- A reader that only consumes words takes them and stays in its frame. -/
lemma yields_iff_takes {reader : ReadM α} {Q : α → Prop} :
    Yields c frame reader ws K Q ↔
      Takes c (Stands frame) (Stands frame) reader ws (frame.Clean K) Q :=
  ⟨fun h rest s hclean hs => h rest s hclean.1 hclean.2 hs,
    fun h rest s hclean hK hs => h rest s ⟨hclean, hK⟩ hs⟩

/-- More words in front do not bring the end of the input closer. -/
lemma Frame.Clean.append {M : List Word → Prop} {rest : List Word} (h : frame.Clean K rest)
    (hM : M (us ++ rest)) : frame.Clean M (us ++ rest) :=
  ⟨fun hnil => h.1 (List.append_eq_nil_iff.mp hnil).2, hM⟩

/-! ### Sequences -/

/-- The current token is the first of the words that are left. -/
lemma Stands.current (h : Stands frame (w :: ws) s) : s.cursor.current.word = w := by
  have hwords := h.words
  unfold Cursor.words at hwords
  obtain ⟨t, ts, hupcoming, hword, -⟩ := List.map_eq_cons_iff.mp hwords
  rw [h.valid.current_of_upcoming hupcoming, hword]

/-- Where no words are left the input has ended. -/
lemma Stands.atEnd (h : Stands frame [] s) : s.cursor.current.kind = .endOfInput := by
  by_contra hne
  have hwords := h.words
  unfold Cursor.words at hwords
  rw [Cursor.upcoming_of_ne_end hne] at hwords
  cases hwords

/-- The kind of the first word that is left, or that of the end of the input. -/
def headKind : List Word → Token.Kind
  | [] => .endOfInput
  | word :: _ => word.kind

/-- The current token has the kind of the first word that is left. -/
lemma Stands.currentKind (h : Stands frame ws s) : s.cursor.current.kind = headKind ws := by
  cases ws with
  | nil => exact h.atEnd
  | cons w ws => exact congrArg Word.kind h.current

/-- A reader that succeeds before what has the property succeeds before less. -/
lemma Yields.mono {reader : ReadM α} {M : List Word → Prop} {Q : α → Prop}
    (h : Yields c frame reader ws M Q) (hK : ∀ rest, K rest → M rest) :
    Yields c frame reader ws K Q :=
  fun rest s hclean hrest hs => h rest s hclean (hK rest hrest) hs

/-- Returning a value needs no words. -/
lemma pure_yields {a : α} {Q : α → Prop} (h : Q a) :
    Yields c frame (pure a : ReadM α) [] K Q :=
  yields_iff_takes.mpr (.pure h)

/-- A sequence needs the words of its parts one after the other, and the second part what the first
one needs to follow. -/
lemma Yields.bind_of {reader : ReadM α} {f : α → ReadM β} {M : List Word → Prop} {P : α → Prop}
    {Q : β → Prop} (h : Yields c frame reader ws M P) (hnext : ∀ rest, K rest → M (us ++ rest))
    (hf : ∀ a, P a → Yields c frame (f a) us K Q) :
    Yields c frame (reader >>= f) (ws ++ us) K Q :=
  yields_iff_takes.mpr <| .bind (yields_iff_takes.mp h)
    (fun rest hclean => hclean.append (hnext rest hclean.2)) fun a ha =>
      yields_iff_takes.mp (hf a ha)

/-- A sequence whose first part needs nothing to follow. -/
lemma Yields.bind {reader : ReadM α} {f : α → ReadM β} {P : α → Prop} {Q : β → Prop}
    (h : Yields c frame reader ws Anything P) (hf : ∀ a, P a → Yields c frame (f a) us K Q) :
    Yields c frame (reader >>= f) (ws ++ us) K Q :=
  h.bind_of (fun _ _ => True.intro) hf

/-- A sequence that starts with one word. -/
lemma Yields.cons {reader : ReadM α} {f : α → ReadM β} {P : α → Prop} {Q : β → Prop}
    (h : Yields c frame reader [w] Anything P) (hf : ∀ a, P a → Yields c frame (f a) us K Q) :
    Yields c frame (reader >>= f) (w :: us) K Q :=
  h.bind hf

/-- A sequence whose first part needs no words. -/
lemma Yields.skip {reader : ReadM α} {f : α → ReadM β} {P : α → Prop} {Q : β → Prop}
    (h : Yields c frame reader [] Anything P) (hf : ∀ a, P a → Yields c frame (f a) us K Q) :
    Yields c frame (reader >>= f) us K Q :=
  h.bind hf

/-- A sequence whose first part needs a look at the word after it. -/
lemma Yields.bind_next {reader : ReadM α} {f : α → ReadM β} {P : α → Prop} {Q : β → Prop}
    (h : Yields c frame reader ws (Next w) P)
    (hnext : ∀ rest, K rest → (us ++ rest).head? = some w)
    (hf : ∀ a, P a → Yields c frame (f a) us K Q) :
    Yields c frame (reader >>= f) (ws ++ us) K Q :=
  h.bind_of hnext hf

/-- A sequence whose second part needs no words. -/
lemma Yields.finish {reader : ReadM α} {f : α → ReadM β} {P : α → Prop} {Q : β → Prop}
    (h : Yields c frame reader ws K P) (hf : ∀ a, P a → Yields c frame (f a) [] K Q) :
    Yields c frame (reader >>= f) ws K Q :=
  yields_iff_takes.mpr (.finish (yields_iff_takes.mp h) fun a ha => yields_iff_takes.mp (hf a ha))

/-- A value is made from what is read. -/
lemma Yields.map {reader : ReadM α} {a : α} (make : α → β)
    (h : Yields c frame reader ws K (fun found => found = a)) :
    Yields c frame (do return make (← reader)) ws K (fun found => found = make a) := by
  refine h.finish ?_
  rintro _ rfl
  exact pure_yields rfl

/-- A look at the current token shows the next word. -/
lemma current_yields {f : Token → ReadM β} {Q : β → Prop}
    (hnext : ∀ rest, K rest → (us ++ rest).head? = some w)
    (hf : ∀ t, t.word = w → Yields c frame (f t) us K Q) :
    Yields c frame (current >>= f) us K Q := by
  intro rest s hclean hK hs
  obtain ⟨more, hmore⟩ := List.head?_eq_some_iff.mp (hnext rest hK)
  have hcurrent : s.cursor.current.word = w := Stands.current (hmore ▸ hs)
  rw [bind_of_ok current_run]
  exact hf s.cursor.current hcurrent rest s hclean hK hs

/-- A look at the current kind shows that of the first word that is left. -/
lemma headKind_yields {f : Token.Kind → ReadM β} {Q : β → Prop}
    (hf : ∀ rest, K rest → Yields c frame (f (headKind (us ++ rest))) us K Q) :
    Yields c frame (currentKind >>= f) us K Q := by
  intro rest s hclean hK hs
  rw [bind_of_ok currentKind_run, hs.currentKind]
  exact hf rest hK rest s hclean hK hs

/-- A look at the current kind shows that of the next word. -/
lemma currentKind_yields {f : Token.Kind → ReadM β} {Q : β → Prop}
    (hnext : ∀ rest, K rest → (us ++ rest).head? = some w)
    (hf : Yields c frame (f w.kind) us K Q) : Yields c frame (currentKind >>= f) us K Q := by
  refine headKind_yields fun rest hK => ?_
  obtain ⟨more, hmore⟩ := List.head?_eq_some_iff.mp (hnext rest hK)
  rw [hmore]
  exact hf

/-! ### Single tokens -/

/-- Any word can be consumed. -/
lemma advance_yields : Yields c frame advance [w] K (fun t => t.word = w) := by
  intro rest s hclean _ hs
  have hwords := hs.words
  unfold Cursor.words at hwords
  obtain ⟨t, ts, hupcoming, hword, hts⟩ := List.map_eq_cons_iff.mp hwords
  have hfailure : ts = [] → s.cursor.failure = none := by
    rintro rfl
    rw [hs.failure]
    exact hclean hts.symm
  obtain ⟨after, hadvance, hvalid, hafter, hsame⟩ :=
    hs.valid.advance_of_upcoming hupcoming hfailure
  refine ⟨t, { s with cursor := after }, onCursor_eq_ok.mpr ⟨after, hadvance, rfl⟩, hword, ?_⟩
  refine ⟨hvalid, ?_, hs.depth, hs.declared, hsame.trans hs.failure⟩
  unfold Cursor.words
  rw [hafter, hts]
  rfl

/-- A word of the expected kind is consumed. -/
lemma expect_yields {kind : Token.Kind} {expected : String} (hkind : w.kind = kind) :
    Yields c frame (expect kind expected) [w] K (fun t => t.word = w) := by
  refine currentKind_yields (fun _ _ => rfl) ?_
  rw [if_pos hkind]
  exact advance_yields

/-- A word of the expected kind and text is consumed. -/
lemma expectText_yields {kind : Token.Kind} {text expected : String} (hkind : w.kind = kind)
    (htext : fold w.text = fold text) :
    Yields c frame (expectText kind text expected) [w] K (fun t => t.word = w) := by
  refine current_yields (fun _ _ => rfl) fun t ht => ?_
  subst ht
  have htest : (decide (t.kind = kind) && decide (t.key = fold text)) = true := by
    rw [Bool.and_eq_true, decide_eq_true_eq, decide_eq_true_eq]
    exact ⟨hkind, htext⟩
  rw [if_pos htest]
  exact advance_yields

/-- The closing parenthesis of a form is consumed. -/
lemma closeForm_yields {opener : Token} {reason : String} :
    Yields c frame (closeForm opener reason) [Word.closing] K (fun _ => True) := by
  refine currentKind_yields (fun _ _ => rfl) ?_
  rw [if_pos (show Word.closing.kind = .closeParen from rfl)]
  exact Yields.cons advance_yields fun _ _ => pure_yields True.intro

/-- A value is made from what is read up to the closing parenthesis of a form. -/
lemma Yields.closed {reader : ReadM α} {a : α} {opener : Token} {reason : String} (make : α → β)
    (h : Yields c frame reader ws Anything (fun found => found = a)) :
    Yields c frame (do
        let found ← reader
        closeForm opener reason
        return make found) (ws ++ [Word.closing]) K (fun found => found = make a) := by
  refine h.bind ?_
  rintro _ rfl
  exact Yields.cons closeForm_yields fun _ _ => pure_yields rfl

/-- A name is read. -/
lemma name_yields {expected text : String} :
    Yields c frame (name expected) [Word.name text] K (fun found => found = text) := by
  refine Yields.cons (expect_yields rfl) fun t ht => pure_yields ?_
  exact congrArg Word.text ht

/-! ### Reports -/

/-- A feature is let pass if features are not governed, if breaches are only noted, or if one of
its flags is declared. -/
def Context.Lets (c : Context) (declared : List String) (feature : Feature) : Prop :=
  c.governs = true → c.settings.strictRequirements = true →
    feature.flags.any (declared.contains ·) = true

/-- Asking for a feature that is let pass needs no words. -/
lemma require_yields {feature : Feature} (h : c.Lets frame.declared feature) :
    Yields c frame (require t feature) [] K (fun _ => True) := by
  intro rest s _ _ hs
  simp only [require, bind_eq_ok, get_eq_ok, read_eq_ok]
  by_cases hbreach : (c.governs && !feature.flags.any (s.requirements.contains ·)) = true
  · have hlenient : c.settings.strictRequirements = false := by
      rw [Bool.and_eq_true, hs.declared] at hbreach
      cases hstrict : c.settings.strictRequirements with
      | false => rfl
      | true =>
        rw [h hbreach.1 hstrict] at hbreach
        exact absurd hbreach.2 (by decide)
    refine ⟨(), { s with log := s.log ++ [.warning t.line (.undeclaredFeature feature)] },
      ⟨s, s, ⟨rfl, rfl⟩, c, s, ⟨rfl, rfl⟩, ?_⟩, True.intro, ?_⟩
    · rw [if_pos hbreach]
      simp only [report, bind_eq_ok, read_eq_ok]
      refine ⟨c, s, ⟨rfl, rfl⟩, ?_⟩
      rw [if_neg (by simp [hlenient])]
      rfl
    · exact ⟨hs.valid, hs.words, hs.depth, hs.declared, hs.failure⟩
  · refine ⟨(), s, ⟨s, s, ⟨rfl, rfl⟩, c, s, ⟨rfl, rfl⟩, ?_⟩, True.intro, hs⟩
    rw [if_neg hbreach]
    rfl

/-! ### Nesting -/

/-- What is read one level deeper is read if there is room for the level. -/
lemma nested_yields {body : ReadM α} {Q : α → Prop}
    (hlimit : ∀ limit ∈ c.settings.maxNestingDepth, frame.depth + 1 ≤ limit)
    (h : Yields c frame.deeper body ws K Q) : Yields c frame (nested body) ws K Q := by
  intro rest s hclean hK hs
  have hdeeper : Stands frame.deeper (ws ++ rest) s.deeper :=
    ⟨hs.valid, hs.words, congrArg (· + 1) hs.depth, hs.declared, hs.failure⟩
  obtain ⟨a, s₁, hrun, hQ, hs₁⟩ := h rest s.deeper hclean hK hdeeper
  refine ⟨a, s₁.higher, nested_eq_ok.mpr ⟨?_, s₁, hrun, rfl⟩, hQ, ?_⟩
  · rw [hs.depth]
    exact hlimit
  · have hdepth : s₁.depth = frame.depth + 1 := hs₁.depth
    exact ⟨hs₁.valid, hs₁.words, by simp [State.higher, hdepth], hs₁.declared, hs₁.failure⟩

/-! ### Repetition -/

/-- The number of words left is the number of unread tokens. -/
lemma Stands.length (h : Stands frame ws s) : ws.length = s.cursor.unread := by
  rw [← h.words, ← Cursor.length_upcoming]
  exact List.length_map _

/-- The word `first` starts the words, and tokens that have it pass the test. -/
def Starts (test : Token → Bool) (words : List Word) : Prop :=
  ∃ first more, words = first :: more ∧ ∀ t : Token, t.word = first → test t = true

/-- Words that start with a given one are not empty. -/
lemma Starts.ne_nil {test : Token → Bool} (h : Starts test ws) : ws ≠ [] := by
  obtain ⟨first, more, hwords, -⟩ := h
  rw [hwords]
  exact List.cons_ne_nil _ _

/-- Where what is left has the property, the test fails. -/
def Halts (test : Token → Bool) (K : List Word → Prop) : Prop :=
  ∀ frame rest s, K rest → Stands frame rest s → test s.cursor.current = false

/-- A test fails before a word that fails it. -/
lemma halts_next {test : Token → Bool} (h : ∀ t : Token, t.word = w → test t = false) :
    Halts test (Next w) := by
  intro frame rest s hrest hs
  obtain ⟨more, rfl⟩ := List.head?_eq_some_iff.mp hrest
  exact h _ hs.current

/-- Where the words that are left have the property, the first one is that of the current token, and
all of them are unread. -/
structure Faces (I : List Word → State → Prop) : Prop where
  current : ∀ {w ws s}, I (w :: ws) s → s.cursor.current.word = w
  length : ∀ {ws s}, I ws s → ws.length = s.cursor.unread

/-- What stands in a frame faces the words that are left. -/
lemma faces_stands : Faces (Stands frame) :=
  ⟨Stands.current, Stands.length⟩

section Loops

variable {I : List Word → State → Prop} {M : List Word → Prop} {test : Token → Bool}
  {item : ReadM β} {spell : α → List Word} {Q : α → β → Prop}

/-- A repetition that has rounds enough takes its items up to where the test fails. -/
lemma whileFuel_takes (hI : Faces I)
    (hstop : ∀ rest s, K rest → I rest s → test s.cursor.current = false)
    (hnext : ∀ us rest, K rest → M (us ++ rest)) :
    ∀ (as : List α) (fuel : Nat), as.length < fuel → (∀ a ∈ as, Starts test (spell a)) →
      (∀ a ∈ as, Takes c I I item (spell a) M (Q a)) →
      Takes c I I (whileFuel test item fuel) (as.flatMap spell) K
        (fun bs => List.Forall₂ Q as bs) := by
  intro as
  induction as with
  | nil =>
    intro fuel hfuel _ _ rest s hK hs
    obtain ⟨fuel, rfl⟩ := Nat.exists_eq_succ_of_ne_zero (Nat.ne_of_gt hfuel)
    refine ⟨[], s, ?_, .nil, hs⟩
    rw [whileFuel, bind_of_ok current_run, if_neg (by simp [hstop rest s hK hs])]
    rfl
  | cons a as ih =>
    intro fuel hfuel hstarts hitem rest s hK hs
    obtain ⟨fuel, rfl⟩ := Nat.exists_eq_succ_of_ne_zero (Nat.ne_of_gt (Nat.zero_lt_of_lt hfuel))
    obtain ⟨first, more, hwords, htest⟩ := hstarts a List.mem_cons_self
    have hothers := ih fuel (Nat.lt_of_succ_lt_succ hfuel)
      (fun b hb => hstarts b (List.mem_cons_of_mem _ hb))
      (fun b hb => hitem b (List.mem_cons_of_mem _ hb))
    have hcurrent : s.cursor.current.word = first := by
      rw [List.flatMap_cons, hwords] at hs
      exact hI.current hs
    have hsequence : Takes c I I
        (do let first ← item; let others ← whileFuel test item fuel; return first :: others)
        (spell a ++ as.flatMap spell) K (fun bs => List.Forall₂ Q (a :: as) bs) := by
      refine Takes.bind (hitem a List.mem_cons_self) (fun _ => hnext _ _) fun b hb => ?_
      exact Takes.finish hothers fun bs hbs => Takes.pure (.cons hb hbs)
    rw [whileFuel, bind_of_ok current_run, if_pos (htest _ hcurrent)]
    exact hsequence rest s hK hs

/-- A repetition takes items that relate to what is written, up to where the test fails. -/
lemma readWhile_takes {as : List α} (hI : Faces I)
    (hstop : ∀ rest s, K rest → I rest s → test s.cursor.current = false)
    (hnext : ∀ us rest, K rest → M (us ++ rest)) (hstarts : ∀ a ∈ as, Starts test (spell a))
    (hitem : ∀ a ∈ as, Takes c I I item (spell a) M (Q a)) :
    Takes c I I (readWhile test item) (as.flatMap spell) K (fun bs => List.Forall₂ Q as bs) := by
  intro rest s hK hs
  have hle : as.length ≤ (as.flatMap spell).length :=
    length_le_flatMap fun a ha => (hstarts a ha).ne_nil
  have hlength := hI.length hs
  rw [List.length_append] at hlength
  unfold readWhile
  rw [bind_of_ok rounds_run]
  exact whileFuel_takes hI hstop hnext as _ (by omega) hstarts hitem rest s hK hs

end Loops

/-- A repetition reads items that relate to what is written, up to where the test fails. -/
lemma readWhile_forall₂_of_halts {test : Token → Bool} {item : ReadM β} {spell : α → List Word}
    {as : List α} {Q : α → β → Prop} (hstop : Halts test K)
    (hstarts : ∀ a ∈ as, Starts test (spell a))
    (hitem : ∀ a ∈ as, Yields c frame item (spell a) Anything (Q a)) :
    Yields c frame (readWhile test item) (as.flatMap spell) K
      (fun bs => List.Forall₂ Q as bs) :=
  yields_iff_takes.mpr <| readWhile_takes faces_stands
    (fun rest s hclean hs => hstop frame rest s hclean.2 hs)
    (fun _ _ hclean => hclean.append True.intro) hstarts fun a ha =>
      yields_iff_takes.mp (hitem a ha)

/-- A repetition reads items that relate to what is written, up to a word that fails the test. -/
lemma readWhile_yields_forall₂ {test : Token → Bool} {item : ReadM β} {spell : α → List Word}
    {as : List α} {Q : α → β → Prop} (hstop : ∀ t : Token, t.word = w → test t = false)
    (hstarts : ∀ a ∈ as, Starts test (spell a))
    (hitem : ∀ a ∈ as, Yields c frame item (spell a) Anything (Q a)) :
    Yields c frame (readWhile test item) (as.flatMap spell) (Next w)
      (fun bs => List.Forall₂ Q as bs) :=
  readWhile_forall₂_of_halts (halts_next hstop) hstarts hitem

/-- Items that are equal to what is written are what is written. -/
lemma forall₂_eq_right {as bs : List α} : List.Forall₂ (fun a b => b = a) as bs ↔ bs = as := by
  constructor
  · intro h
    have heq : List.Forall₂ (· = ·) bs as := List.Forall₂.flip h
    rwa [List.forall₂_eq_eq_eq] at heq
  · rintro rfl
    exact List.forall₂_same.mpr fun _ _ => rfl

/-- A repetition reads its items up to where the test fails. -/
lemma readWhile_yields_of_halts {test : Token → Bool} {item : ReadM α} {spell : α → List Word}
    {as : List α} (hstop : Halts test K) (hstarts : ∀ a ∈ as, Starts test (spell a))
    (hitem : ∀ a ∈ as, Yields c frame item (spell a) Anything (fun b => b = a)) :
    Yields c frame (readWhile test item) (as.flatMap spell) K (fun bs => bs = as) := by
  simp only [← forall₂_eq_right]
  exact readWhile_forall₂_of_halts hstop hstarts hitem

/-- A repetition reads its items up to a word that fails the test. -/
lemma readWhile_yields {test : Token → Bool} {item : ReadM α} {spell : α → List Word}
    {as : List α} (hstop : ∀ t : Token, t.word = w → test t = false)
    (hstarts : ∀ a ∈ as, Starts test (spell a))
    (hitem : ∀ a ∈ as, Yields c frame item (spell a) Anything (fun b => b = a)) :
    Yields c frame (readWhile test item) (as.flatMap spell) (Next w) (fun bs => bs = as) :=
  readWhile_yields_of_halts (halts_next hstop) hstarts hitem

/-- Texts are read up to where the test fails. -/
lemma textsWhile_yields_of_halts {test : Token → Bool} {spell : String → Word}
    {texts : List String} (hstop : Halts test K)
    (htext : ∀ text ∈ texts, (spell text).text = text)
    (htest : ∀ text ∈ texts, ∀ t : Token, t.word = spell text → test t = true) :
    Yields c frame (textsWhile test) (texts.map spell) K (fun found => found = texts) := by
  rw [List.map_eq_flatMap]
  refine readWhile_yields_of_halts hstop (fun text hmem => ⟨_, _, rfl, htest text hmem⟩) ?_
  intro text hmem
  refine Yields.cons advance_yields fun t ht => pure_yields ?_
  rw [← htext text hmem, ← ht]
  rfl

/-- Texts are read up to a word that fails the test. -/
lemma textsWhile_yields {test : Token → Bool} {spell : String → Word} {texts : List String}
    (hstop : ∀ t : Token, t.word = w → test t = false)
    (htext : ∀ text ∈ texts, (spell text).text = text)
    (htest : ∀ text ∈ texts, ∀ t : Token, t.word = spell text → test t = true) :
    Yields c frame (textsWhile test) (texts.map spell) (Next w) (fun found => found = texts) :=
  textsWhile_yields_of_halts (halts_next hstop) htext htest

/-! ### Looking ahead -/

/-- A look at the next two words finds the time specifier that they spell. -/
lemma timeAhead?_yields {first second : Word} {found : Option TimeSpec}
    {f : Option TimeSpec → ReadM β} {Q : β → Prop}
    (hfound : (if second.kind = .name then TimeSpec.ofWords? (fold first.text) (fold second.text)
      else none) = found)
    (hf : Yields c frame (f found) (first :: second :: us) K Q) :
    Yields c frame (timeAhead? >>= f) (first :: second :: us) K Q := by
  intro rest s hclean hK hs
  have hwords := hs.words
  unfold Cursor.words at hwords
  obtain ⟨t₁, ts, hupcoming, hfirst, hts⟩ := List.map_eq_cons_iff.mp hwords
  obtain ⟨t₂, more, rfl, hsecond, -⟩ := List.map_eq_cons_iff.mp hts
  obtain ⟨after, hpeek, hvalid, hcurrent, hsame, hfailure⟩ := hs.valid.peek_of_upcoming hupcoming
  have hs₁ : Stands frame (first :: second :: us ++ rest) { s with cursor := after } := by
    refine ⟨hvalid, ?_, hs.depth, hs.declared, hfailure.trans hs.failure⟩
    rw [← hs.words]
    exact congrArg (List.map Token.word) hsame
  have hstep : peek c s = .ok t₂ { s with cursor := after } :=
    onCursor_eq_ok.mpr ⟨after, hpeek, rfl⟩
  have hrun : timeAhead? c s = .ok found { s with cursor := after } := by
    unfold timeAhead?
    rw [bind_of_ok hstep]
    have hcurrent₁ : after.current.word = first := hs₁.current
    subst hfirst hsecond
    rw [← hfound]
    by_cases hname : t₂.kind = .name
    · rw [if_pos hname, if_pos (show t₂.word.kind = .name from hname), bind_of_ok current_run]
      have htext : after.current.text = t₁.text := congrArg Word.text hcurrent₁
      change EStateM.Result.ok (TimeSpec.ofWords? (fold after.current.text) _) _ = _
      rw [htext]
      rfl
    · rw [if_neg hname, if_neg (show ¬ t₂.word.kind = .name from hname)]
      rfl
  rw [bind_of_ok hrun]
  exact hf rest _ hclean hK hs₁

end Pddl.Reader
