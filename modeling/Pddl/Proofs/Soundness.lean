import Pddl.Proofs.Consumption
import Pddl.Proofs.Rendering
import Pddl.Proofs.Separation

/-!
# Soundness of the readers of expressions

Whenever a reader of expressions succeeds, it has consumed exactly one balanced group of tokens,
from an opening parenthesis through the closing one that matches it, and the expression it returns
belongs to the class of its place.  The main statement is `read_sound`.
-/

namespace Pddl

/-! ### Tokens of one kind -/

/-- The words of tokens of one kind are their texts with that kind. -/
lemma map_word_of_kind {kind : Token.Kind} {ts : List Token} (h : ∀ t ∈ ts, t.kind = kind) :
    ts.map Token.word = (ts.map Token.text).map (⟨kind, ·⟩) := by
  rw [List.map_map]
  refine List.map_congr_left fun t ht => ?_
  rw [Token.word, h t ht]
  rfl

/-- Tokens whose words are texts of one kind have that kind and those texts. -/
lemma of_map_word {kind : Token.Kind} {ts : List Token} {names : List String}
    (h : ts.map Token.word = names.map (⟨kind, ·⟩)) :
    (∀ t ∈ ts, t.kind = kind) ∧ ts.map Token.text = names := by
  constructor
  · intro t ht
    have hword : t.word ∈ names.map (⟨kind, ·⟩ : String → Word) := h ▸ List.mem_map_of_mem ht
    obtain ⟨name, -, hname⟩ := List.mem_map.mp hword
    exact (congrArg Word.kind hname).symm
  · have htexts := congrArg (List.map Word.text) h
    rw [List.map_map, List.map_map] at htexts
    exact htexts.trans (List.map_id names)

/-- Tokens with the words of a group in a typed list are names of one kind, a minus sign and the
tokens of the type and of what follows. -/
lemma exists_of_map_group {kind : Token.Kind} {ts : List Token} {names : List String}
    {spelling words : List Word}
    (h : ts.map Token.word = names.map (⟨kind, ·⟩) ++ Word.minus :: (spelling ++ words)) :
    ∃ us minus vs ws, ts = us ++ minus :: (vs ++ ws) ∧ us.map Token.word = names.map (⟨kind, ·⟩) ∧
      minus.kind = .minus ∧ vs.map Token.word = spelling ∧ ws.map Token.word = words := by
  obtain ⟨us, rest, rfl, hnames, hrest⟩ := List.map_eq_append_iff.mp h
  obtain ⟨minus, rest, rfl, hminus, hrest⟩ := List.map_eq_cons_iff.mp hrest
  obtain ⟨vs, ws, rfl, hspelling, hwords⟩ := List.map_eq_append_iff.mp hrest
  exact ⟨us, minus, vs, ws, rfl, hnames, congrArg Word.kind hminus, hspelling, hwords⟩

/-! ### Balanced tokens -/

/-- The parentheses of a list of tokens match each other. -/
inductive Balanced : List Token → Prop
  | nil : Balanced []
  | plain {token : Token} {rest : List Token} : token.kind ≠ .openParen →
      token.kind ≠ .closeParen → Balanced rest → Balanced (token :: rest)
  | group {opening closing : Token} {inner rest : List Token} : opening.kind = .openParen →
      Balanced inner → closing.kind = .closeParen → Balanced rest →
      Balanced (opening :: (inner ++ closing :: rest))

/-- The tokens are an opening parenthesis, the closing one that matches it, and what is between
them. -/
def IsGroup (tokens : List Token) : Prop :=
  ∃ opening inner closing, tokens = opening :: (inner ++ [closing]) ∧
    opening.kind = .openParen ∧ closing.kind = .closeParen ∧ Balanced inner

/-- Balanced tokens followed by balanced tokens are balanced. -/
lemma Balanced.append {ts us : List Token} (h : Balanced ts) (hus : Balanced us) :
    Balanced (ts ++ us) := by
  induction h with
  | nil => exact hus
  | plain hopen hclose h ih => exact .plain hopen hclose ih
  | group hopen hinner hclose hrest ihinner ihrest =>
    rw [List.cons_append, List.append_assoc, List.cons_append]
    exact .group hopen hinner hclose ihrest

/-- Tokens without parentheses are balanced. -/
lemma Balanced.of_plain {ts : List Token}
    (h : ∀ t ∈ ts, t.kind ≠ .openParen ∧ t.kind ≠ .closeParen) : Balanced ts := by
  induction ts with
  | nil => exact .nil
  | cons t rest ih =>
    obtain ⟨hopen, hclose⟩ := h t List.mem_cons_self
    exact .plain hopen hclose (ih fun u hu => h u (List.mem_cons_of_mem _ hu))

/-- A group is balanced. -/
lemma IsGroup.balanced {ts : List Token} (h : IsGroup ts) : Balanced ts := by
  obtain ⟨opening, inner, closing, rfl, hopen, hclose, hinner⟩ := h
  exact .group hopen hinner hclose .nil

/-- A group has tokens. -/
lemma IsGroup.ne_nil {ts : List Token} (h : IsGroup ts) : ts ≠ [] := by
  obtain ⟨opening, inner, closing, rfl, -⟩ := h
  exact List.cons_ne_nil _ _

/-- Groups one after the other are balanced. -/
lemma Balanced.flatMap {α : Type} {parts : List (α × List Token)}
    (h : ∀ p ∈ parts, Balanced p.2) : Balanced (parts.flatMap Prod.snd) := by
  induction parts with
  | nil => exact .nil
  | cons p rest ih =>
    rw [List.flatMap_cons]
    exact (h p List.mem_cons_self).append (ih fun q hq => h q (List.mem_cons_of_mem _ hq))

/-- The words of a type are balanced. -/
lemma TypeSpec.IsSpelledBy.balanced {allowEither : Bool} {type : TypeSpec} {ts : List Token}
    (h : type.IsSpelledBy allowEither (ts.map Token.word)) : Balanced ts := by
  generalize hwords : ts.map Token.word = words at h
  cases h with
  | named name =>
    obtain ⟨t, rfl, hword⟩ := List.map_eq_singleton_iff.mp hwords
    have hkind : t.kind = .name := congrArg Word.kind hword
    exact .plain (by simp [hkind]) (by simp [hkind]) .nil
  | @either head first others =>
    obtain ⟨opening, rest, rfl, hopening, hrest⟩ := List.map_eq_cons_iff.mp hwords
    obtain ⟨inner, last, rfl, hinner, hlast⟩ := List.map_eq_append_iff.mp hrest
    obtain ⟨closing, rfl, hclosing⟩ := List.map_eq_singleton_iff.mp hlast
    have hnames : inner.map Token.word = (head :: first :: others).map (⟨.name, ·⟩) := hinner
    have hkind := (of_map_word hnames).1
    have hplain : Balanced inner := .of_plain fun t ht => by simp [hkind t ht]
    exact .group (congrArg Word.kind hopening) hplain (congrArg Word.kind hclosing) .nil

/-- The words of a typed list are balanced, if the names are no parentheses. -/
lemma IsTypedList.balanced {kind : Token.Kind} {allowEither : Bool} {listed : List TypedName}
    {words : List Word} (h : IsTypedList kind allowEither listed words)
    (hkind : kind ≠ .openParen ∧ kind ≠ .closeParen) :
    ∀ {ts : List Token}, ts.map Token.word = words → Balanced ts := by
  have hplain : ∀ {names : List String} {ts : List Token},
      ts.map Token.word = names.map (⟨kind, ·⟩) → Balanced ts := by
    intro names ts hwords
    exact .of_plain fun t ht => (of_map_word hwords).1 t ht ▸ hkind
  induction h with
  | untyped names => exact hplain
  | group _ htype _ ih =>
    intro ts hwords
    obtain ⟨us, minus, vs, ws, rfl, hnames, hminus, rfl, hothers⟩ := exists_of_map_group hwords
    exact (hplain hnames).append
      (.plain (by simp [hminus]) (by simp [hminus]) (htype.balanced.append (ih hothers)))

/-! ### Reserved words -/

/-- A word that announces nothing is not reserved, and no time starts with it. -/
lemma Head.of_symbol {key : String} (h : Head.ofKey key = .symbol) :
    key ∉ reservedWords ∧ ∀ word, (key, word) ∉ timeWords := by
  constructor
  · intro hmem
    simp only [reservedWords, List.mem_cons, List.not_mem_nil, or_false] at hmem
    rcases hmem with rfl | rfl | rfl | rfl | rfl | rfl | rfl | rfl | rfl | rfl | rfl <;> cases h
  · intro word hmem
    simp only [timeWords, List.mem_cons, List.not_mem_nil, or_false, Prod.mk.injEq] at hmem
    rcases hmem with ⟨rfl, -⟩ | ⟨rfl, -⟩ | ⟨rfl, -⟩ <;> cases h

/-- A word that may announce a time is not reserved. -/
lemma Head.of_time {key : String} (h : Head.ofKey key = .time) : key ∉ reservedWords := by
  intro hmem
  simp only [reservedWords, List.mem_cons, List.not_mem_nil, or_false] at hmem
  rcases hmem with rfl | rfl | rfl | rfl | rfl | rfl | rfl | rfl | rfl | rfl | rfl <;> cases h

/-- Two words that spell no time specifier announce no time. -/
lemma TimeSpec.not_mem_timeWords {first second : String} (h : ofWords? first second = none) :
    (first, second) ∉ timeWords := by
  intro hmem
  simp only [timeWords, List.mem_cons, List.not_mem_nil, or_false, Prod.mk.injEq] at hmem
  rcases hmem with ⟨rfl, rfl⟩ | ⟨rfl, rfl⟩ | ⟨rfl, rfl⟩ <;> cases h

/-- The first character of a variable is a question mark, that of no time word is. -/
lemma not_mem_timeWords_of_isVariable {first second : String} (h : isVariable second = true) :
    (first, fold second) ∉ timeWords := by
  intro hmem
  simp only [isVariable, decide_eq_true_eq] at h
  obtain ⟨rest, hrest⟩ := List.head?_eq_some_iff.mp h
  have hfold : (fold second).toList = '?' :: rest.map Char.toLower := by
    rw [toList_fold, hrest]
    rfl
  simp only [timeWords, List.mem_cons, List.not_mem_nil, or_false, Prod.mk.injEq] at hmem
  rcases hmem with ⟨-, hword⟩ | ⟨-, hword⟩ | ⟨-, hword⟩ <;> rw [hword] at hfold <;>
    exact absurd (List.cons.inj hfold).1 (by decide)

namespace Reader

variable {c : Context} {s s' : State} {t : Token}

/-! ### Names, types and variables -/

/-- A token has the kind that the test asks for. -/
lemma hasKind_eq_true {kind : Token.Kind} : hasKind kind t = true ↔ t.kind = kind := by
  simp [hasKind]

/-- A token other than the listed ones fails the test of a typed list. -/
lemma isListed_eq_true {kind : Token.Kind} :
    isListed kind t = true ↔ t.kind = kind ∧ t.kind ≠ .closeParen ∧ t.kind ≠ .endOfInput := by
  simp [isListed, and_assoc]

/-- Reading a name consumes it. -/
lemma name_consumes {expected text : String} (hv : s.cursor.Valid)
    (h : name expected c s = .ok text s') :
    s.cursor.current.kind = .name ∧ text = s.cursor.current.text ∧
      Consumes s [s.cursor.current] s' := by
  simp only [name, bind_eq_ok, pure_eq_ok] at h
  obtain ⟨t, s₁, h, rfl, rfl⟩ := h
  obtain ⟨rfl, hkind, hc⟩ := expect_consumes hv h (by decide)
  exact ⟨hkind, rfl, hc⟩

/-- A current token of a kind of which there is one text is consumed. -/
lemma advance_symbol {kind : Token.Kind} {text : String} (hv : s.cursor.Valid)
    (hsymbol : kind.symbol? = some text) (hkind : s.cursor.current.kind = kind)
    (h : advance c s = .ok t s') : t.word = ⟨kind, text⟩ ∧ Consumes s [t] s' := by
  have hne : s.cursor.current.kind ≠ .endOfInput := by
    rintro hend
    rw [← hkind, hend] at hsymbol
    cases hsymbol
  obtain ⟨rfl, hc⟩ := advance_consumes hv h hne
  have hlexeme : s.cursor.current.word.IsLexeme := hv.isLexeme _ (by simp [hc.upcoming])
  exact ⟨hlexeme.token_eq_symbol hkind hsymbol, hc⟩

/-- A token of an expected kind of which there is one text is consumed. -/
lemma expect_symbol {kind : Token.Kind} {expected text : String} (hv : s.cursor.Valid)
    (hsymbol : kind.symbol? = some text) (h : expect kind expected c s = .ok t s') :
    t.word = ⟨kind, text⟩ ∧ Consumes s [t] s' := by
  obtain ⟨hkind, hadvance⟩ := expect_eq_ok.mp h
  exact advance_symbol hv hsymbol hkind hadvance

/-- Reading a type consumes words that spell it. -/
lemma typeSpec_spelled {allowEither : Bool} {type : TypeSpec} (hv : s.cursor.Valid)
    (h : typeSpec allowEither c s = .ok type s') :
    ∃ ts, Consumes s ts s' ∧ type.IsSpelledBy allowEither (ts.map Token.word) := by
  simp only [typeSpec, bind_eq_ok, currentKind_eq_ok] at h
  obtain ⟨k, s₁, ⟨rfl, rfl⟩, h⟩ := h
  split_ifs at h with hname heither
  · simp only [bind_eq_ok, pure_eq_ok] at h
    obtain ⟨t, s₁, h, rfl, rfl⟩ := h
    obtain ⟨rfl, hc⟩ := advance_consumes hv h (by rw [hname]; decide)
    refine ⟨_, hc, ?_⟩
    rw [List.map_singleton, Token.word, hname]
    exact .named _
  · simp only [bind_eq_ok, pure_eq_ok] at h
    obtain ⟨o, s₁, hopen, e, s₂, hword, first, s₃, hfirst, others, s₄, hothers, cl, s₅, hclose,
      rfl, rfl⟩ := h
    obtain ⟨hopen, hc₁⟩ := expect_symbol hv rfl hopen
    simp only [expectText, bind_eq_ok, current_eq_ok] at hword
    obtain ⟨_, _, ⟨rfl, rfl⟩, hword⟩ := hword
    split_ifs at hword with hcond
    · simp only [Bool.and_eq_true, decide_eq_true_eq] at hcond
      obtain ⟨rfl, hc₂⟩ := advance_consumes hc₁.valid hword (by rw [hcond.1]; decide)
      obtain ⟨hfirstKind, rfl, hc₃⟩ := name_consumes hc₂.valid hfirst
      obtain ⟨ts, rfl, htest, hc₄, -⟩ := textsWhile_consumes
        (fun u hu => by rw [hasKind_eq_true.mp hu]; decide) hc₃.valid hothers
      obtain ⟨hclose, hc₅⟩ := expect_symbol hc₄.valid rfl hclose
      refine ⟨_, hc₁.cons (hc₂.cons (hc₃.cons (hc₄.concat hc₅))), ?_⟩
      have hkind : ∀ u ∈ s₁.cursor.current :: s₂.cursor.current :: ts, u.kind = .name := by
        intro u hu
        simp only [List.mem_cons] at hu
        rcases hu with rfl | rfl | hu
        · exact hcond.1
        · exact hfirstKind
        · exact hasKind_eq_true.mp (htest u hu)
      rw [List.map_cons, ← List.cons_append, ← List.cons_append, List.map_append,
        map_word_of_kind hkind, hopen, List.map_singleton, hclose]
      exact .either (Bool.and_eq_true _ _ ▸ heither).1 hcond.2
    · exact absurd hword (by simp)
  · exact absurd h (by simp)

/-- Reading groups of typed names with rounds enough consumes words that list them, up to a closing
parenthesis or the end of the input. -/
lemma typedGroups_spelled {kind : Token.Kind} {allowEither : Bool} :
    ∀ (fuel : Nat) (s : State) (listed : List TypedName) (s' : State), s.cursor.Valid →
      s.cursor.unread < fuel → typedGroups kind allowEither fuel c s = .ok listed s' →
      ∃ ts, Consumes s ts s' ∧ IsTypedList kind allowEither listed (ts.map Token.word) ∧
        (s'.cursor.current.kind = .closeParen ∨ s'.cursor.current.kind = .endOfInput) := by
  intro fuel
  induction fuel with
  | zero => exact fun s _ _ _ hfuel => absurd hfuel (Nat.not_lt_zero _)
  | succ fuel ih =>
    intro s listed s' hv hfuel h
    simp only [typedGroups, bind_eq_ok, currentKind_eq_ok] at h
    obtain ⟨names, s₁, hnames, k, s₂, ⟨rfl, rfl⟩, h⟩ := h
    obtain ⟨ts, rfl, htest, hc, -⟩ := textsWhile_consumes
      (fun u hu => (isListed_eq_true.mp hu).2.2) hv hnames
    have hwords := map_word_of_kind fun t ht => (isListed_eq_true.mp (htest t ht)).1
    cases hend : s₁.cursor.current.kind with
    | closeParen | endOfInput =>
      rw [hend] at h
      obtain ⟨rfl, rfl⟩ := pure_eq_ok.mp h
      refine ⟨ts, hc, ?_, by simp [hend]⟩
      rw [hwords]
      exact .untyped _
    | minus =>
      simp only [hend] at h
      split_ifs at h with hempty
      · exact absurd h (by simp)
      · simp only [bind_eq_ok, pure_eq_ok] at h
        obtain ⟨minus, s₂, hadvance, u, s₃, hrequire, type, s₄, htype, others, s₅, hothers, rfl,
          rfl⟩ := h
        obtain ⟨hminus, hc₁⟩ := advance_symbol hc.valid rfl hend hadvance
        obtain ⟨-, hc₂⟩ := require_consumes hc₁.valid hrequire
        obtain ⟨us, hc₃, hus⟩ := typeSpec_spelled hc₂.valid htype
        have hread := hc.trans (hc₁.cons (hc₂.trans hc₃))
        have hunread := hread.unread
        rw [List.length_append, List.length_cons] at hunread
        obtain ⟨vs, hc₄, hvs, hstop⟩ := ih s₄ others s₅ hread.valid (by omega) hothers
        refine ⟨_, hc.trans (hc₁.cons (hc₂.trans (hc₃.trans hc₄))), ?_, hstop⟩
        rw [List.map_append, hwords, List.map_cons, hminus, List.nil_append, List.map_append]
        exact .group (by simpa using hempty) hus hvs
    | _ =>
      simp only [hend] at h
      exact absurd h (by simp)

/-- Reading a typed list consumes words that list it, up to a closing parenthesis or the end of the
input. -/
lemma typedList_spelled {kind : Token.Kind} {allowEither : Bool} {listed : List TypedName}
    (hv : s.cursor.Valid) (h : typedList kind allowEither c s = .ok listed s') :
    ∃ ts, Consumes s ts s' ∧ IsTypedList kind allowEither listed (ts.map Token.word) ∧
      (s'.cursor.current.kind = .closeParen ∨ s'.cursor.current.kind = .endOfInput) := by
  simp only [typedList, bind_eq_ok, rounds_eq_ok] at h
  obtain ⟨n, s₁, ⟨rfl, rfl⟩, h⟩ := h
  exact typedGroups_spelled _ s listed s' hv (Nat.lt_succ_self _) h

/-- Reading a typed list consumes balanced tokens, if the names are no parentheses. -/
lemma typedList_consumes {kind : Token.Kind} {allowEither : Bool}
    (hkind : kind ≠ .openParen ∧ kind ≠ .closeParen) {typed : List TypedName}
    (hv : s.cursor.Valid) (h : typedList kind allowEither c s = .ok typed s') :
    ∃ ts, Consumes s ts s' ∧ Balanced ts := by
  obtain ⟨ts, hc, hlist, -⟩ := typedList_spelled hv h
  exact ⟨ts, hc, hlist.balanced hkind rfl⟩

/-- Reading the variables of a quantifier consumes a group. -/
lemma quantifiedVariables_consumes {vars : List TypedName} (hv : s.cursor.Valid)
    (h : quantifiedVariables c s = .ok vars s') : ∃ ts, Consumes s ts s' ∧ IsGroup ts := by
  simp only [quantifiedVariables, bind_eq_ok, pure_eq_ok] at h
  obtain ⟨o, s₁, hopen, typed, s₂, htyped, cl, s₃, hclose, -, rfl⟩ := h
  obtain ⟨-, hopenKind, hc₁⟩ := expect_consumes hv hopen (by decide)
  obtain ⟨ts, hc₂, hts⟩ := typedList_consumes (by decide) hc₁.valid htyped
  obtain ⟨-, hcloseKind, hc₃⟩ := expect_consumes hc₂.valid hclose (by decide)
  exact ⟨_, hc₁.cons (hc₂.concat hc₃), _, _, _, rfl, hopenKind, hcloseKind, hts⟩

/-! ### Atoms -/

/-- An argument is a name or a variable. -/
lemma kind_of_isArgument {ground : Bool} (h : isArgument ground t = true) :
    t.kind = .name ∨ t.kind = .var := by
  simp only [isArgument, Bool.or_eq_true, Bool.and_eq_true, decide_eq_true_eq] at h
  rcases h with h | ⟨-, h⟩
  · exact Or.inl h
  · exact Or.inr h

/-- Reading an atom consumes its name, its arguments and the closing parenthesis after them. -/
lemma atomicFormula_consumes {ground : Bool} {atom : Atom} (hv : s.cursor.Valid)
    (h : atomicFormula ground c s = .ok atom s') :
    ∃ args closing, Consumes s (s.cursor.current :: (args ++ [closing])) s' ∧
      s.cursor.current.kind = .name ∧ (∀ arg ∈ args, isArgument ground arg = true) ∧
      closing.kind = .closeParen ∧ atom = ⟨s.cursor.current.text, args.map Token.text⟩ := by
  simp only [atomicFormula, bind_eq_ok, currentKind_eq_ok] at h
  obtain ⟨text, s₁, hname, texts, s₂, htexts, h⟩ := h
  obtain ⟨hkind, rfl, hc₁⟩ := name_consumes hv hname
  obtain ⟨args, rfl, hargs, hc₂, -⟩ := textsWhile_consumes
    (fun u hu => by rcases kind_of_isArgument hu with h | h <;> rw [h] <;> decide) hc₁.valid htexts
  obtain ⟨-, s₃, ⟨rfl, rfl⟩, h⟩ := h
  by_cases hground : (ground && decide (s₂.cursor.current.kind = .var)) = true
  · rw [if_pos hground] at h
    exact absurd h (by simp)
  · rw [if_neg hground] at h
    simp only [bind_eq_ok, pure_eq_ok] at h
    obtain ⟨closing, s₃, hclose, rfl, rfl⟩ := h
    obtain ⟨-, hcloseKind, hc₃⟩ := expect_consumes hc₂.valid hclose (by decide)
    exact ⟨args, closing, hc₁.cons (hc₂.concat hc₃), hkind, hargs, hcloseKind, rfl⟩

/-! ### Groups and what is left of them -/

variable {s₁ : State} {ts : List Token}

/-- The reader consumed a group. -/
def ConsumesGroup (s s' : State) : Prop :=
  ∃ ts, Consumes s ts s' ∧ IsGroup ts

/-- The reader consumed the rest of a group that was opened before. -/
def ConsumesTail (s s' : State) : Prop :=
  ∃ inner closing, Consumes s (inner ++ [closing]) s' ∧ Balanced inner ∧ closing.kind = .closeParen

/-- The reader consumed a group, or a number, a name or a variable. -/
def ConsumesTerm (s s' : State) : Prop :=
  ConsumesGroup s s' ∨
    ∃ t, Consumes s [t] s' ∧ (t.kind = .number ∨ t.kind = .name ∨ t.kind = .var)

/-- A group ends where the rest of it does. -/
lemma ConsumesTail.group (h : Consumes s [t] s₁) (hopen : t.kind = .openParen)
    (htail : ConsumesTail s₁ s') : ConsumesGroup s s' := by
  obtain ⟨inner, closing, hc, hinner, hclose⟩ := htail
  exact ⟨_, h.cons hc, t, inner, closing, rfl, hopen, hclose, hinner⟩

/-- Balanced tokens belong to the rest of the group that they stand in. -/
lemma ConsumesTail.prepend (h : Consumes s ts s₁) (hts : Balanced ts)
    (htail : ConsumesTail s₁ s') : ConsumesTail s s' := by
  obtain ⟨inner, closing, hc, hinner, hclose⟩ := htail
  refine ⟨ts ++ inner, closing, ?_, hts.append hinner, hclose⟩
  rw [List.append_assoc]
  exact h.trans hc

/-- A word belongs to the rest of the group that it stands in. -/
lemma ConsumesTail.word (h : Consumes s [t] s₁) (hopen : t.kind ≠ .openParen)
    (hclose : t.kind ≠ .closeParen) (htail : ConsumesTail s₁ s') : ConsumesTail s s' :=
  htail.prepend h (.plain hopen hclose .nil)

/-- A group belongs to the rest of the group that it stands in. -/
lemma ConsumesTail.inner (h : ConsumesGroup s s₁) (htail : ConsumesTail s₁ s') :
    ConsumesTail s s' := by
  obtain ⟨ts, hc, hts⟩ := h
  exact htail.prepend hc hts.balanced

/-- A term belongs to the rest of the group that it stands in. -/
lemma ConsumesTail.term (h : ConsumesTerm s s₁) (htail : ConsumesTail s₁ s') :
    ConsumesTail s s' := by
  rcases h with h | ⟨t, hc, hkind⟩
  · exact htail.inner h
  · refine htail.word hc ?_ ?_ <;> rcases hkind with h | h | h <;> rw [h] <;> decide

/-- The closing parenthesis is the rest of a group. -/
lemma ConsumesTail.close (h : Consumes s [t] s') (hclose : t.kind = .closeParen) :
    ConsumesTail s s' :=
  ⟨[], t, h, .nil, hclose⟩

/-- The valid states that a reader of groups reaches. -/
lemma ConsumesGroup.valid (h : ConsumesGroup s s') : s'.cursor.Valid := by
  obtain ⟨ts, hc, -⟩ := h
  exact hc.valid

/-- The valid states that a reader of terms reaches. -/
lemma ConsumesTerm.valid (h : ConsumesTerm s s') : s'.cursor.Valid := by
  rcases h with h | ⟨t, hc, -⟩
  · exact h.valid
  · exact hc.valid

/-- A group that is consumed one level deeper is consumed. -/
lemma ConsumesGroup.of_nested (h : ConsumesGroup s.deeper s') : ConsumesGroup s s'.higher := by
  obtain ⟨ts, hc, hts⟩ := h
  exact ⟨ts, hc.of_nested, hts⟩

/-- Closing a form ends a group. -/
lemma closeForm_tail {opener : Token} {reason : String} {u : Unit} (hv : s.cursor.Valid)
    (h : closeForm opener reason c s = .ok u s') : ConsumesTail s s' := by
  obtain ⟨t, hkind, hc⟩ := closeForm_consumes hv h
  exact .close hc hkind

/-- The name that a form starts with is consumed, and the rest of the form ends a group. -/
lemma name_tail {token : Token} (hv : s.cursor.Valid) (hkind : s.cursor.current.kind = .name)
    (h : advance c s = .ok token s₁) :
    s₁.cursor.Valid ∧ ∀ {s'}, ConsumesTail s₁ s' → ConsumesTail s s' := by
  obtain ⟨rfl, hc⟩ := advance_consumes hv h (by rw [hkind]; decide)
  exact ⟨hc.valid, .word hc (by rw [hkind]; decide) (by rw [hkind]; decide)⟩

/-- The name of a form that needs a feature is consumed, and the rest of the form ends a group. -/
lemma required_tail {token opener : Token} {feature : Feature} {u : Unit} (hv : s.cursor.Valid)
    (hkind : s.cursor.current.kind = .name) (h : advance c s = .ok token s₁)
    (hrequire : require opener feature c s₁ = .ok u s₂) :
    s₂.cursor.Valid ∧ ∀ {s'}, ConsumesTail s₂ s' → ConsumesTail s s' := by
  obtain ⟨hv₁, hname⟩ := name_tail hv hkind h
  obtain ⟨-, hc⟩ := require_consumes hv₁ hrequire
  exact ⟨hc.valid, fun htail => hname (.prepend hc .nil htail)⟩

/-- Reading an atom from its name on ends a group. -/
lemma atomicFormula_tail {ground : Bool} {atom : Atom} (hv : s.cursor.Valid)
    (h : atomicFormula ground c s = .ok atom s') : ConsumesTail s s' := by
  obtain ⟨args, closing, hc, hname, hargs, hclose, -⟩ := atomicFormula_consumes hv h
  refine ⟨s.cursor.current :: args, closing, hc, .of_plain fun u hu => ?_, hclose⟩
  rcases List.mem_cons.mp hu with rfl | hu
  · simp [hname]
  · rcases kind_of_isArgument (hargs u hu) with h | h <;> simp [h]

/-- Reading an atom with its parentheses consumes a group. -/
lemma parenthesizedAtom_group {ground : Bool} {atom : Atom} (hv : s.cursor.Valid)
    (h : nested (parenthesizedAtom ground) c s = .ok atom s') : ConsumesGroup s s' := by
  obtain ⟨-, s₁, hbody, rfl⟩ := nested_eq_ok.mp h
  simp only [parenthesizedAtom, bind_eq_ok] at hbody
  obtain ⟨o, s₂, hopen, hatom⟩ := hbody
  obtain ⟨-, hkind, hc⟩ := expect_consumes (State.deeper_valid hv) hopen (by decide)
  exact .of_nested (ConsumesTail.group hc hkind (atomicFormula_tail hc.valid hatom))

/-- Reading a fluent consumes a name or a group. -/
lemma fluent_term {atom : Atom} (hv : s.cursor.Valid) (h : fluent c s = .ok atom s') :
    ConsumesTerm s s' := by
  simp only [fluent, bind_eq_ok, currentKind_eq_ok] at h
  obtain ⟨k, s₁, ⟨rfl, rfl⟩, h⟩ := h
  split_ifs at h with hname
  · simp only [bind_eq_ok, pure_eq_ok] at h
    obtain ⟨t, s₁, h, -, rfl⟩ := h
    obtain ⟨rfl, hc⟩ := advance_consumes hv h (by rw [hname]; decide)
    exact Or.inr ⟨_, hc, Or.inr (Or.inl hname)⟩
  · obtain ⟨-, s₁, hbody, rfl⟩ := nested_eq_ok.mp h
    simp only [bind_eq_ok] at hbody
    obtain ⟨o, s₂, hopen, hatom⟩ := hbody
    obtain ⟨-, hkind, hc⟩ := expect_consumes (State.deeper_valid hv) hopen (by decide)
    exact Or.inl (.of_nested (ConsumesTail.group hc hkind (atomicFormula_tail hc.valid hatom)))

/-! ### Numeric terms -/

/-- Each success of a reader returns an expression of the class and consumes a term. -/
def ReadsTerm (c : Context) (reader : ReadM Expr) (P : Expr → Prop) : Prop :=
  ∀ s e s', s.cursor.Valid → reader c s = .ok e s' → P e ∧ ConsumesTerm s s'

/-- Each success of a reader returns an expression of the class and consumes a group. -/
def ReadsGroup (c : Context) (reader : ReadM Expr) (P : Expr → Prop) : Prop :=
  ∀ s e s', s.cursor.Valid → reader c s = .ok e s' → P e ∧ ConsumesGroup s s'

/-- Terms have tokens. -/
lemma ConsumesTerm.exists_tokens (h : ConsumesTerm s s') :
    ∃ ts, Consumes s ts s' ∧ ts ≠ [] ∧ Balanced ts := by
  rcases h with ⟨ts, hc, hts⟩ | ⟨t, hc, hkind⟩
  · exact ⟨ts, hc, hts.ne_nil, hts.balanced⟩
  · refine ⟨[t], hc, List.cons_ne_nil _ _, .plain ?_ ?_ .nil⟩ <;>
      rcases hkind with h | h | h <;> rw [h] <;> decide

/-- Arithmetic from its operator on ends a group and has numeric terms as operands. -/
lemma arithmetic_sound {term : ReadM Expr} (hterm : ReadsTerm c term Expr.IsNumeric) {e : Expr}
    (hv : s.cursor.Valid)
    (hkind : s.cursor.current.kind = .minus ∨ s.cursor.current.kind = .operator)
    (h : arithmetic term c s = .ok e s') : e.IsNumeric ∧ ConsumesTail s s' := by
  simp only [arithmetic, bind_eq_ok, current_eq_ok] at h
  obtain ⟨t, s₁, ⟨rfl, rfl⟩, h⟩ := h
  cases hop : ArithOp.ofText? s.cursor.current.text with
  | none =>
    simp only [hop] at h
    exact absurd h (by simp)
  | some op =>
    simp only [hop, bind_eq_ok, arithmeticAllowed, get_eq_ok, read_eq_ok, pure_eq_ok] at h
    obtain ⟨allowed, s₁, ⟨d, s₂, ⟨rfl, rfl⟩, d', s₃, ⟨rfl, rfl⟩, rfl, rfl⟩, h⟩ := h
    split_ifs at h with hallowed
    · simp only [bind_eq_ok] at h
      obtain ⟨t, s₁, hadvance, operands, s₂, hoperands, h⟩ := h
      have hne : s.cursor.current.kind ≠ .endOfInput := by
        rcases hkind with h | h <;> rw [h] <;> decide
      obtain ⟨rfl, hc₁⟩ := advance_consumes hv hadvance hne
      have hitem : ∀ s e s', s.cursor.Valid → decide (s.cursor.current.kind ≠ .closeParen) = true →
          term c s = .ok e s' → ∃ ts, Consumes s ts s' ∧ ts ≠ [] ∧ e.IsNumeric ∧ Balanced ts := by
        intro s e s' hv _ h
        obtain ⟨hnumeric, hc⟩ := hterm s e s' hv h
        obtain ⟨ts, hc, hne, hts⟩ := hc.exists_tokens
        exact ⟨ts, hc, hne, hnumeric, hts⟩
      obtain ⟨parts, rfl, hparts, hc₂, hstop⟩ := readWhile_consumes hitem hc₁.valid hoperands
      have hclose : s₂.cursor.current.kind = .closeParen := by simpa using hstop
      split_ifs at h with haccepts
      · simp only [bind_eq_ok, pure_eq_ok] at h
        obtain ⟨closing, s₃, hadvance, rfl, rfl⟩ := h
        obtain ⟨rfl, hc₃⟩ := advance_consumes hc₂.valid hadvance (by rw [hclose]; decide)
        refine ⟨.arith (ArithOp.accepts_iff.mp haccepts) ?_, ?_⟩
        · intro e he
          obtain ⟨p, hp, rfl⟩ := List.mem_map.mp he
          exact (hparts p hp).1
        · refine .word hc₁ ?_ ?_ (.prepend hc₂ (.flatMap fun p hp => (hparts p hp).2)
            (.close hc₃ hclose))
          · rcases hkind with h | h <;> rw [h] <;> decide
          · rcases hkind with h | h <;> rw [h] <;> decide
      · exact absurd h (by simp)
    · exact absurd h (by simp)

/-- Reading a number consumes it. -/
lemma number_consumes {value : Number} (hv : s.cursor.Valid) (h : number c s = .ok value s') :
    ∃ t, t.kind = .number ∧ Number.ofText? t.text = some value ∧ Consumes s [t] s' := by
  simp only [number, bind_eq_ok] at h
  obtain ⟨t, s₁, hexpect, h⟩ := h
  obtain ⟨-, hkind, hc⟩ := expect_consumes hv hexpect (by decide)
  cases hvalue : Number.ofText? t.text with
  | none =>
    simp only [hvalue] at h
    exact absurd h (by simp)
  | some found =>
    simp only [hvalue, pure_eq_ok] at h
    obtain ⟨rfl, rfl⟩ := h
    exact ⟨t, hkind, hvalue, hc⟩

/-- The reader of numeric terms returns numeric terms. -/
lemma numericTerm_sound (budget : Nat) : ReadsTerm c (numericTerm budget) Expr.IsNumeric := by
  induction budget with
  | zero =>
    intro s e s' hv h
    exact absurd h (by simp [numericTerm])
  | succ budget ih =>
    intro s e s' hv h
    simp only [numericTerm, bind_eq_ok, currentKind_eq_ok] at h
    obtain ⟨k, s₁, ⟨rfl, rfl⟩, h⟩ := h
    cases hkind : s.cursor.current.kind with
    | number =>
      simp only [hkind, bind_eq_ok, pure_eq_ok] at h
      obtain ⟨value, s₁, h, rfl, rfl⟩ := h
      obtain ⟨t, htkind, -, hc⟩ := number_consumes hv h
      exact ⟨.number value, Or.inr ⟨t, hc, Or.inl htkind⟩⟩
    | var | name =>
      simp only [hkind, bind_eq_ok, pure_eq_ok] at h
      obtain ⟨t, s₁, h, rfl, rfl⟩ := h
      obtain ⟨rfl, hc⟩ := advance_consumes hv h (by rw [hkind]; decide)
      exact ⟨.term _, Or.inr ⟨_, hc, by simp [hkind]⟩⟩
    | openParen =>
      simp only [hkind] at h
      obtain ⟨-, s₁, hbody, rfl⟩ := nested_eq_ok.mp h
      simp only [bind_eq_ok, currentKind_eq_ok] at hbody
      obtain ⟨t, s₂, hadvance, k, s₃, ⟨rfl, rfl⟩, hform⟩ := hbody
      obtain ⟨rfl, hc⟩ := advance_consumes (State.deeper_valid hv) hadvance
        (by change s.cursor.current.kind ≠ _; rw [hkind]; decide)
      cases hinner : s₂.cursor.current.kind with
      | minus | operator =>
        simp only [hinner] at hform
        obtain ⟨hnumeric, htail⟩ := arithmetic_sound ih hc.valid (by simp [hinner]) hform
        exact ⟨hnumeric, Or.inl (.of_nested (ConsumesTail.group hc hkind htail))⟩
      | name =>
        simp only [hinner, bind_eq_ok, pure_eq_ok] at hform
        obtain ⟨atom, s₃, hatom, rfl, rfl⟩ := hform
        exact ⟨.atom atom,
          Or.inl (.of_nested (ConsumesTail.group hc hkind (atomicFormula_tail hc.valid hatom)))⟩
      | _ =>
        simp only [hinner] at hform
        exact absurd hform (by simp)
    | _ =>
      simp only [hkind] at h
      exact absurd h (by simp)

/-- Comparisons from their operator on end a group and have numeric terms as sides. -/
lemma comparison_sound {term : ReadM Expr} (hterm : ReadsTerm c term Expr.IsNumeric)
    {governed : Bool} {e : Expr} (hv : s.cursor.Valid)
    (hkind : s.cursor.current.kind = .operator) (h : comparison term governed c s = .ok e s') :
    (∃ op left right, e = .compare op left right ∧ left.IsNumeric ∧ right.IsNumeric) ∧
      ConsumesTail s s' := by
  simp only [comparison, bind_eq_ok, current_eq_ok] at h
  obtain ⟨t, s₁, ⟨rfl, rfl⟩, h⟩ := h
  cases hop : CompareOp.ofText? s.cursor.current.text with
  | none =>
    simp only [hop] at h
    exact absurd h (by simp)
  | some op =>
    simp only [hop, bind_eq_ok] at h
    obtain ⟨t, s₁, hadvance, left, s₂, hleft, right, s₃, hright, h⟩ := h
    obtain ⟨rfl, hc₁⟩ := advance_consumes hv hadvance (by rw [hkind]; decide)
    obtain ⟨hl, hc₂⟩ := hterm s₁ left s₂ hc₁.valid hleft
    obtain ⟨hr, hc₃⟩ := hterm s₂ right s₃ hc₂.valid hright
    have hrest : ∃ s₄ u, Consumes s₃ [] s₄ ∧
        closeForm s.cursor.current "comparisons take exactly two arguments" c s₄ = .ok u s' ∧
        e = .compare op left right := by
      by_cases hgoverned : governed = true
      · rw [if_pos hgoverned] at h
        simp only [bind_eq_ok, pure_eq_ok] at h
        obtain ⟨u, s₄, hrequire, u', s₅, hclose, rfl, rfl⟩ := h
        exact ⟨s₄, u', (require_consumes hc₃.valid hrequire).2, hclose, rfl⟩
      · rw [if_neg hgoverned] at h
        simp only [bind_eq_ok, pure_eq_ok] at h
        obtain ⟨u', s₅, hclose, rfl, rfl⟩ := h
        exact ⟨s₃, u', .refl hc₃.valid, hclose, rfl⟩
    obtain ⟨s₄, u, hc₄, hclose, rfl⟩ := hrest
    refine ⟨⟨op, left, right, rfl, hl, hr⟩, ?_⟩
    have htail : ConsumesTail s₃ s' := .prepend hc₄ .nil (closeForm_tail hc₄.valid hclose)
    exact .word hc₁ (by rw [hkind]; decide) (by rw [hkind]; decide) (.term hc₂ (.term hc₃ htail))

/-! ### Shared forms -/

/-- The token of a variable starts with a question mark. -/
lemma isVariable_of_isLexeme (h : t.word.IsLexeme) (hkind : t.kind = .var) :
    isVariable t.text = true := by
  unfold Word.IsLexeme Token.word at h
  rw [hkind] at h
  generalize hchars : t.text.toList = chars at h
  cases h
  simp [isVariable, hchars]

/-- Looking for a time specifier consumes nothing.  It finds one that the current token and the
name after it spell; if it finds none, no name after the current token would make one. -/
lemma timeAhead?_sound {found : Option TimeSpec} (hv : s.cursor.Valid)
    (hkind : s.cursor.current.kind = .name) (h : timeAhead? c s = .ok found s') :
    Consumes s [] s' ∧ s'.cursor.current = s.cursor.current ∧
      (∀ time ∈ found, ∃ t rest, s.cursor.upcoming = s.cursor.current :: t :: rest ∧
        t.kind = .name ∧ TimeSpec.ofWords? s.cursor.current.key t.key = some time) ∧
      (found = none → ∀ t rest, s.cursor.upcoming = s.cursor.current :: t :: rest →
        t.kind = .name → TimeSpec.ofWords? s.cursor.current.key t.key = none) := by
  simp only [timeAhead?, bind_eq_ok] at h
  obtain ⟨next, s₁, hpeek, h⟩ := h
  have hne : s.cursor.current.kind ≠ .endOfInput := by rw [hkind]; decide
  obtain ⟨hc, hcurrent, hnext, hend⟩ := peek_consumes hv hpeek hne
  split_ifs at h with hname
  · simp only [bind_eq_ok, current_eq_ok, pure_eq_ok] at h
    obtain ⟨t, s₂, ⟨rfl, rfl⟩, rfl, rfl⟩ := h
    obtain ⟨rest, hrest⟩ := hnext (by rw [hname]; decide)
    rw [hcurrent]
    refine ⟨hc, rfl, fun time htime => ⟨next, rest, hrest, hname, htime⟩, ?_⟩
    intro hnone t rest' hrest' _
    rw [hrest] at hrest'
    simp only [List.cons.injEq, true_and] at hrest'
    rw [← hrest'.1]
    exact hnone
  · obtain ⟨rfl, rfl⟩ := pure_eq_ok.mp h
    refine ⟨hc, hcurrent, fun time htime => absurd htime (by simp), ?_⟩
    intro _ t rest' hrest' htkind
    by_cases hnextKind : next.kind = .endOfInput
    · rw [hend hnextKind] at hrest'
      cases hrest'
    · obtain ⟨rest, hrest⟩ := hnext hnextKind
      rw [hrest] at hrest'
      simp only [List.cons.injEq, true_and] at hrest'
      rw [← hrest'.1] at htkind
      exact absurd htkind hname

/-- An atom that is read where no time is announced is plain. -/
lemma atomicFormula_isPlain {atom : Atom} (hv : s.cursor.Valid)
    (hreserved : s.cursor.current.key ∉ reservedWords)
    (htime : ∀ t rest, s.cursor.upcoming = s.cursor.current :: t :: rest → t.kind = .name →
      (s.cursor.current.key, t.key) ∉ timeWords)
    (h : atomicFormula false c s = .ok atom s') : atom.IsPlain := by
  obtain ⟨args, closing, hc, -, hargs, -, rfl⟩ := atomicFormula_consumes hv h
  refine ⟨hreserved, ?_⟩
  intro arg harg
  cases args with
  | nil => cases harg
  | cons first others =>
    cases harg
    have hupcoming := hc.upcoming
    rcases kind_of_isArgument (hargs first List.mem_cons_self) with hname | hvar
    · exact htime first _ hupcoming hname
    · have hlexeme : first.word.IsLexeme := hv.isLexeme first (by simp [hupcoming])
      exact not_mem_timeWords_of_isVariable (isVariable_of_isLexeme hlexeme hvar)

/-- A timed expression is allowed where it stands; from its time specifier on it ends a group. -/
lemma timed_sound {time : TimeSpec} {allowed inEffect : Bool} {operand : ReadM Expr}
    {P : Expr → Prop} (hoperand : ReadsGroup c operand P) {e : Expr} (hv : s.cursor.Valid)
    (hkind : s.cursor.current.kind = .name)
    (hnext : ∃ t rest, s.cursor.upcoming = s.cursor.current :: t :: rest ∧ t.kind = .name)
    (h : timed time allowed inEffect operand c s = .ok e s') :
    allowed = true ∧ (inEffect = true → time ≠ .overAll) ∧
      (∃ inner, e = .timed time inner ∧ P inner) ∧ ConsumesTail s s' := by
  unfold timed at h
  by_cases hallowed : allowed = true
  · rw [if_pos hallowed] at h
    simp only [bind_eq_ok] at h
    obtain ⟨t₁, s₁, hfirst, t₂, s₂, hsecond, h⟩ := h
    obtain ⟨rfl, hc₁⟩ := advance_consumes hv hfirst (by rw [hkind]; decide)
    obtain ⟨t, rest, hrest, htkind⟩ := hnext
    have hupcoming : s₁.cursor.upcoming = t :: rest := by
      have := hc₁.upcoming
      rw [hrest] at this
      exact ((List.cons.inj this).2).symm
    have hcurrent := hc₁.valid.current_of_upcoming hupcoming
    obtain ⟨rfl, hc₂⟩ := advance_consumes hc₁.valid hsecond (by rw [hcurrent, htkind]; decide)
    by_cases hover : (inEffect && decide (time = .overAll)) = true
    · rw [if_pos hover] at h
      exact absurd h (by simp)
    · rw [if_neg hover] at h
      simp only [bind_eq_ok, pure_eq_ok] at h
      obtain ⟨u, s₃, hrequire, inner, s₄, hinner, u', s₅, hclose, rfl, rfl⟩ := h
      obtain ⟨-, hc₃⟩ := require_consumes hc₂.valid hrequire
      obtain ⟨hP, hc₄⟩ := hoperand s₃ inner s₄ hc₃.valid hinner
      refine ⟨hallowed, ?_, ⟨inner, rfl, hP⟩, ?_⟩
      · rintro rfl rfl
        exact hover rfl
      · refine .word hc₁ (by rw [hkind]; decide) (by rw [hkind]; decide) ?_
        refine .word hc₂ (by rw [hcurrent, htkind]; decide) (by rw [hcurrent, htkind]; decide) ?_
        exact .prepend hc₃ .nil (.inner hc₄ (closeForm_tail hc₄.valid hclose))
  · rw [if_neg hallowed] at h
    exact absurd h (by simp)

/-- Operands are read one after the other up to the end of their group. -/
lemma operands_sound {operand : ReadM Expr} {P : Expr → Prop} (hoperand : ReadsGroup c operand P)
    {es : List Expr} (hv : s.cursor.Valid) (h : operands operand c s = .ok es s') :
    (∀ e ∈ es, P e) ∧ ConsumesTail s s' := by
  simp only [operands, bind_eq_ok, pure_eq_ok] at h
  obtain ⟨es', s₁, hes, closing, s₂, hclose, rfl, rfl⟩ := h
  have hitem : ∀ s e s', s.cursor.Valid → hasKind .openParen s.cursor.current = true →
      operand c s = .ok e s' → ∃ ts, Consumes s ts s' ∧ ts ≠ [] ∧ P e ∧ Balanced ts := by
    intro s e s' hv _ h
    obtain ⟨hP, ts, hc, hts⟩ := hoperand s e s' hv h
    exact ⟨ts, hc, hts.ne_nil, hP, hts.balanced⟩
  obtain ⟨parts, rfl, hparts, hc₁, -⟩ := readWhile_consumes hitem hv hes
  obtain ⟨-, hkind, hc₂⟩ := expect_consumes hc₁.valid hclose (by decide)
  refine ⟨?_, .prepend hc₁ (.flatMap fun p hp => (hparts p hp).2) (.close hc₂ hkind)⟩
  intro e he
  obtain ⟨p, hp, rfl⟩ := List.mem_map.mp he
  exact (hparts p hp).1

/-- A quantified expression from its variables on ends a group. -/
lemma quantified_sound {quantifier : Quantifier} {operand : ReadM Expr} {P : Expr → Prop}
    (hoperand : ReadsGroup c operand P) {opener : Token} {reason : String} {e : Expr}
    (hv : s.cursor.Valid)
    (h : (do
      let vars ← quantifiedVariables
      let operand ← operand
      closeForm opener reason
      return Expr.quantified quantifier vars operand : ReadM Expr) c s = .ok e s') :
    (∃ vars inner, e = .quantified quantifier vars inner ∧ P inner) ∧ ConsumesTail s s' := by
  simp only [bind_eq_ok, pure_eq_ok] at h
  obtain ⟨vars, s₁, hvars, inner, s₂, hinner, u, s₃, hclose, rfl, rfl⟩ := h
  have hc₁ : ConsumesGroup s s₁ := quantifiedVariables_consumes hv hvars
  obtain ⟨hP, hc₂⟩ := hoperand s₁ inner s₂ hc₁.valid hinner
  refine ⟨⟨vars, inner, rfl, hP⟩, ?_⟩
  exact .inner hc₁ (.inner hc₂ (closeForm_tail hc₂.valid hclose))

/-- An atom whose name announces nothing is plain and ends a group. -/
lemma symbol_sound {atom : Atom} (hv : s.cursor.Valid)
    (hhead : Head.ofKey s.cursor.current.key = .symbol)
    (h : atomicFormula false c s = .ok atom s') : atom.IsPlain ∧ ConsumesTail s s' := by
  obtain ⟨hreserved, htime⟩ := Head.of_symbol hhead
  exact ⟨atomicFormula_isPlain hv hreserved (fun t _ _ _ => htime t.key) h, atomicFormula_tail hv h⟩

/-- An atom whose name could announce a time, but does not, is plain and ends a group. -/
lemma untimed_sound {atom : Atom} (hv : s.cursor.Valid) (hkind : s.cursor.current.kind = .name)
    (hhead : Head.ofKey s.cursor.current.key = .time) (hahead : timeAhead? c s = .ok none s₁)
    (h : atomicFormula false c s₁ = .ok atom s') : atom.IsPlain ∧ ConsumesTail s s' := by
  obtain ⟨hc, hcurrent, -, hnone⟩ := timeAhead?_sound hv hkind hahead
  have hupcoming : s₁.cursor.upcoming = s.cursor.upcoming := hc.upcoming.symm
  refine ⟨atomicFormula_isPlain hc.valid ?_ ?_ h, .prepend hc .nil (atomicFormula_tail hc.valid h)⟩
  · rw [hcurrent]
    exact Head.of_time hhead
  · rw [hcurrent, hupcoming]
    exact fun t rest hrest htkind =>
      TimeSpec.not_mem_timeWords (hnone rfl t rest hrest htkind)

/-- A timed expression after the look at its second word is allowed and ends a group. -/
lemma timedAhead_sound {time : TimeSpec} {allowed inEffect : Bool} {operand : ReadM Expr}
    {P : Expr → Prop} (hoperand : ReadsGroup c operand P) {e : Expr} (hv : s.cursor.Valid)
    (hkind : s.cursor.current.kind = .name) (hahead : timeAhead? c s = .ok (some time) s₁)
    (h : timed time allowed inEffect operand c s₁ = .ok e s') :
    allowed = true ∧ (inEffect = true → time ≠ .overAll) ∧
      (∃ inner, e = .timed time inner ∧ P inner) ∧ ConsumesTail s s' := by
  obtain ⟨hc, hcurrent, hsome, -⟩ := timeAhead?_sound hv hkind hahead
  obtain ⟨t, rest, hrest, htkind, -⟩ := hsome time rfl
  have hnext : ∃ t rest, s₁.cursor.upcoming = s₁.cursor.current :: t :: rest ∧ t.kind = .name := by
    refine ⟨t, rest, ?_, htkind⟩
    rw [hcurrent, ← hrest]
    exact hc.upcoming.symm
  obtain ⟨hallowed, hover, hinner, htail⟩ :=
    timed_sound hoperand hc.valid (by rw [hcurrent, hkind]) hnext h
  exact ⟨hallowed, hover, hinner, .prepend hc .nil htail⟩

/-- A group whose body looks at its first token is read one level deeper. -/
lemma readsGroup_of_head {body : Token → ReadM Expr} {expected : String} {P : Expr → Prop}
    (hbody : ∀ s e s', s.cursor.Valid → body s.cursor.current c s = .ok e s' →
      P e ∧ ConsumesTail s s') :
    ReadsGroup c (nested do
      let _ ← expect .openParen expected
      let token ← current
      body token) P := by
  intro s e s' hv h
  obtain ⟨-, s₁, hrun, rfl⟩ := nested_eq_ok.mp h
  simp only [bind_eq_ok, current_eq_ok] at hrun
  obtain ⟨o, s₂, hopen, head, s₃, ⟨rfl, rfl⟩, hrun⟩ := hrun
  obtain ⟨-, hkind, hc⟩ := expect_consumes (State.deeper_valid hv) hopen (by decide)
  obtain ⟨hP, htail⟩ := hbody s₂ e s₁ hc.valid hrun
  exact ⟨hP, .of_nested (htail.group hc hkind)⟩

/-- An empty group is trivial. -/
lemma trivial_sound {e : Expr} (hv : s.cursor.Valid) (hkind : s.cursor.current.kind = .closeParen)
    (h : (do
      let _ ← advance
      return Expr.trivial : ReadM Expr) c s = .ok e s') : e = .trivial ∧ ConsumesTail s s' := by
  simp only [bind_eq_ok, pure_eq_ok] at h
  obtain ⟨token, s₁, hadvance, rfl, rfl⟩ := h
  obtain ⟨rfl, hc⟩ := advance_consumes hv hadvance (by rw [hkind]; decide)
  exact ⟨rfl, .close hc hkind⟩

/-! ### Conditions, effects and duration constraints -/

/-- The reader of conditions returns conditions. -/
lemma condition_sound (budget : Nat) :
    ∀ temporal, ReadsGroup c (condition budget temporal) (Expr.IsCondition temporal) := by
  induction budget with
  | zero =>
    intro temporal s e s' hv h
    exact absurd h (by simp [condition])
  | succ budget ih =>
    intro temporal
    refine readsGroup_of_head fun s e s' hv h => ?_
    cases hkind : s.cursor.current.kind with
    | closeParen =>
      simp only [hkind] at h
      obtain ⟨rfl, htail⟩ := trivial_sound hv hkind h
      exact ⟨Expr.isCondition_trivial temporal, htail⟩
    | operator =>
      simp only [hkind] at h
      obtain ⟨⟨op, left, right, rfl, hleft, hright⟩, htail⟩ :=
        comparison_sound (numericTerm_sound budget) hv hkind h
      exact ⟨.compare op hleft hright, htail⟩
    | name =>
      cases hhead : Head.ofKey s.cursor.current.key with
      | conjunction =>
        simp only [hkind, hhead, bind_eq_ok, pure_eq_ok] at h
        obtain ⟨t, s₁, hadvance, es, s₂, hes, rfl, rfl⟩ := h
        obtain ⟨hv₁, hname⟩ := name_tail hv hkind hadvance
        obtain ⟨hall, htail⟩ := operands_sound (ih temporal) hv₁ hes
        exact ⟨.and hall, hname htail⟩
      | disjunction =>
        simp only [hkind, hhead, bind_eq_ok, pure_eq_ok] at h
        obtain ⟨t, s₁, hadvance, u, s₂, hrequire, es, s₃, hes, rfl, rfl⟩ := h
        obtain ⟨hv₂, hname⟩ := required_tail hv hkind hadvance hrequire
        obtain ⟨hall, htail⟩ := operands_sound (ih temporal) hv₂ hes
        exact ⟨.or hall, hname htail⟩
      | negation =>
        simp only [hkind, hhead, bind_eq_ok, pure_eq_ok] at h
        obtain ⟨t, s₁, hadvance, e, s₂, hoperand, u, s₃, hend, rfl, rfl⟩ := h
        obtain ⟨hv₁, hname⟩ := name_tail hv hkind hadvance
        obtain ⟨hcondition, hc₂⟩ := ih temporal s₁ e s₂ hv₁ hoperand
        exact ⟨.not hcondition, hname (.inner hc₂ (closeForm_tail hc₂.valid hend))⟩
      | quantifier quantifier =>
        simp only [hkind, hhead] at h
        obtain ⟨t, s₁, hadvance, h⟩ := bind_eq_ok.mp h
        obtain ⟨u, s₂, hrequire, h⟩ := bind_eq_ok.mp h
        obtain ⟨hv₂, hname⟩ := required_tail hv hkind hadvance hrequire
        obtain ⟨⟨vars, inner, rfl, hinner⟩, htail⟩ := quantified_sound (ih temporal) hv₂ h
        exact ⟨.quantified quantifier vars hinner, hname htail⟩
      | time =>
        simp only [hkind, hhead, bind_eq_ok] at h
        obtain ⟨found, s₁, hahead, h⟩ := h
        cases found with
        | some time =>
          obtain ⟨rfl, -, ⟨inner, rfl, hinner⟩, htail⟩ :=
            timedAhead_sound (ih false) hv hkind hahead h
          exact ⟨.timed time hinner, htail⟩
        | none =>
          simp only [bind_eq_ok, pure_eq_ok] at h
          obtain ⟨atom, s₂, hatom, rfl, rfl⟩ := h
          obtain ⟨hplain, htail⟩ := untimed_sound hv hkind hhead hahead hatom
          exact ⟨.atom hplain, htail⟩
      | conditional | update op =>
        simp only [hkind, hhead] at h
        exact absurd h (by simp)
      | symbol =>
        simp only [hkind, hhead, bind_eq_ok, pure_eq_ok] at h
        obtain ⟨atom, s₁, hatom, rfl, rfl⟩ := h
        obtain ⟨hplain, htail⟩ := symbol_sound hv hhead hatom
        exact ⟨.atom hplain, htail⟩
    | _ =>
      simp only [hkind] at h
      exact absurd h (by simp)

/-- An update from its operator on ends a group and has a numeric term as value. -/
lemma numericUpdate_sound {op : UpdateOp} {term : ReadM Expr}
    (hterm : ReadsTerm c term Expr.IsNumeric) {e : Expr} (hv : s.cursor.Valid)
    (hkind : s.cursor.current.kind = .name) (h : numericUpdate op term c s = .ok e s') :
    (∃ target value, e = .update op target value ∧ value.IsNumeric) ∧ ConsumesTail s s' := by
  simp only [numericUpdate, bind_eq_ok, pure_eq_ok] at h
  obtain ⟨t, s₁, hadvance, u, s₂, hrequire, target, s₃, htarget, value, s₄, hvalue, u', s₅, hclose,
    rfl, rfl⟩ := h
  obtain ⟨hv₂, hname⟩ := required_tail hv hkind hadvance hrequire
  have hc₃ := fluent_term hv₂ htarget
  obtain ⟨hnumeric, hc₄⟩ := hterm s₃ value s₄ hc₃.valid hvalue
  exact ⟨⟨target, value, rfl, hnumeric⟩,
    hname (.term hc₃ (.term hc₄ (closeForm_tail hc₄.valid hclose)))⟩

/-- The reader of effects returns effects. -/
lemma effect_sound (budget : Nat) :
    ∀ temporal, ReadsGroup c (effect budget temporal) (Expr.IsEffect temporal) := by
  induction budget with
  | zero =>
    intro temporal s e s' hv h
    exact absurd h (by simp [effect])
  | succ budget ih =>
    intro temporal
    refine readsGroup_of_head fun s e s' hv h => ?_
    cases hkind : s.cursor.current.kind with
    | closeParen =>
      simp only [hkind] at h
      obtain ⟨rfl, htail⟩ := trivial_sound hv hkind h
      exact ⟨Expr.isEffect_trivial temporal, htail⟩
    | name =>
      cases hhead : Head.ofKey s.cursor.current.key with
      | conjunction =>
        simp only [hkind, hhead, bind_eq_ok, pure_eq_ok] at h
        obtain ⟨t, s₁, hadvance, es, s₂, hes, rfl, rfl⟩ := h
        obtain ⟨hv₁, hname⟩ := name_tail hv hkind hadvance
        obtain ⟨hall, htail⟩ := operands_sound (ih temporal) hv₁ hes
        exact ⟨.and hall, hname htail⟩
      | negation =>
        simp only [hkind, hhead, bind_eq_ok, pure_eq_ok] at h
        obtain ⟨t, s₁, hadvance, deleted, s₂, hdeleted, u, s₃, hend, rfl, rfl⟩ := h
        obtain ⟨hv₁, hname⟩ := name_tail hv hkind hadvance
        have hc₂ := parenthesizedAtom_group hv₁ hdeleted
        exact ⟨.not deleted, hname (.inner hc₂ (closeForm_tail hc₂.valid hend))⟩
      | quantifier quantifier =>
        cases quantifier with
        | universal =>
          simp only [hkind, hhead] at h
          obtain ⟨t, s₁, hadvance, h⟩ := bind_eq_ok.mp h
          obtain ⟨u, s₂, hrequire, h⟩ := bind_eq_ok.mp h
          obtain ⟨hv₂, hname⟩ := required_tail hv hkind hadvance hrequire
          obtain ⟨⟨vars, inner, rfl, hinner⟩, htail⟩ := quantified_sound (ih temporal) hv₂ h
          exact ⟨.forAll vars hinner, hname htail⟩
        | existential =>
          simp only [hkind, hhead] at h
          exact absurd h (by simp)
      | conditional =>
        simp only [hkind, hhead, bind_eq_ok, pure_eq_ok] at h
        obtain ⟨t, s₁, hadvance, u, s₂, hrequire, premise, s₃, hpremise, outcome, s₄, houtcome, u',
          s₅, hend, rfl, rfl⟩ := h
        obtain ⟨hv₂, hname⟩ := required_tail hv hkind hadvance hrequire
        obtain ⟨hcondition, hc₃⟩ := condition_sound budget temporal s₂ premise s₃ hv₂ hpremise
        obtain ⟨heffect, hc₄⟩ := ih temporal s₃ outcome s₄ hc₃.valid houtcome
        exact ⟨.when hcondition heffect,
          hname (.inner hc₃ (.inner hc₄ (closeForm_tail hc₄.valid hend)))⟩
      | time =>
        simp only [hkind, hhead, bind_eq_ok] at h
        obtain ⟨found, s₁, hahead, h⟩ := h
        cases found with
        | some time =>
          obtain ⟨rfl, hover, ⟨inner, rfl, hinner⟩, htail⟩ :=
            timedAhead_sound (ih false) hv hkind hahead h
          exact ⟨.timed (hover rfl) hinner, htail⟩
        | none =>
          simp only [bind_eq_ok, pure_eq_ok] at h
          obtain ⟨atom, s₂, hatom, rfl, rfl⟩ := h
          obtain ⟨hplain, htail⟩ := untimed_sound hv hkind hhead hahead hatom
          exact ⟨.atom hplain, htail⟩
      | update op =>
        simp only [hkind, hhead] at h
        obtain ⟨⟨target, value, rfl, hvalue⟩, htail⟩ :=
          numericUpdate_sound (numericTerm_sound budget) hv hkind h
        exact ⟨.update op target hvalue, htail⟩
      | disjunction =>
        simp only [hkind, hhead] at h
        exact absurd h (by simp)
      | symbol =>
        simp only [hkind, hhead, bind_eq_ok, pure_eq_ok] at h
        obtain ⟨atom, s₁, hatom, rfl, rfl⟩ := h
        obtain ⟨hplain, htail⟩ := symbol_sound hv hhead hatom
        exact ⟨.atom hplain, htail⟩
    | _ =>
      simp only [hkind] at h
      exact absurd h (by simp)

/-- The reader of duration constraints returns duration constraints. -/
lemma durationConstraint_sound (budget : Nat) :
    ReadsGroup c (durationConstraint budget) Expr.IsDuration := by
  induction budget with
  | zero =>
    intro s e s' hv h
    exact absurd h (by simp [durationConstraint])
  | succ budget ih =>
    refine readsGroup_of_head fun s e s' hv h => ?_
    cases hkind : s.cursor.current.kind with
    | closeParen =>
      simp only [hkind] at h
      obtain ⟨rfl, htail⟩ := trivial_sound hv hkind h
      exact ⟨Expr.isDuration_trivial, htail⟩
    | operator =>
      simp only [hkind] at h
      obtain ⟨⟨op, left, right, rfl, hleft, hright⟩, htail⟩ :=
        comparison_sound (numericTerm_sound budget) hv hkind h
      exact ⟨.compare op hleft hright, htail⟩
    | name =>
      simp only [hkind] at h
      by_cases hand : s.cursor.current.key = "and"
      · rw [if_pos hand] at h
        simp only [bind_eq_ok, pure_eq_ok] at h
        obtain ⟨t, s₁, hadvance, u, s₂, hrequire, es, s₃, hes, rfl, rfl⟩ := h
        obtain ⟨hv₂, hname⟩ := required_tail hv hkind hadvance hrequire
        obtain ⟨hall, htail⟩ := operands_sound ih hv₂ hes
        exact ⟨.and hall, hname htail⟩
      · rw [if_neg hand] at h
        simp only [bind_eq_ok] at h
        obtain ⟨found, s₁, hahead, h⟩ := h
        cases found with
        | some time =>
          obtain ⟨-, hover, ⟨inner, rfl, hinner⟩, htail⟩ := timedAhead_sound ih hv hkind hahead h
          exact ⟨.timed (hover rfl) hinner, htail⟩
        | none => exact absurd h (by simp)
    | _ =>
      simp only [hkind] at h
      exact absurd h (by simp)

/-! ### All places -/

/-- The tokens of an expression: a group or, for a numeric term, also a single token. -/
def IsSpan (position : Position) (tokens : List Token) : Prop :=
  IsGroup tokens ∨ (position = .numeric ∧
    ∃ t, tokens = [t] ∧ (t.kind = .number ∨ t.kind = .name ∨ t.kind = .var))

/-- What the reader of a place consumes and returns, whatever its budget. -/
lemma readWithin_sound (position : Position) (budget : Nat) {e : Expr} (hv : s.cursor.Valid)
    (h : position.readWithin budget c s = .ok e s') :
    position.Admits e ∧ ∃ ts, Consumes s ts s' ∧ IsSpan position ts := by
  have hgroup : ConsumesGroup s s' → ∃ ts, Consumes s ts s' ∧ IsSpan position ts :=
    fun ⟨ts, hc, hts⟩ => ⟨ts, hc, Or.inl hts⟩
  cases position with
  | numeric =>
    obtain ⟨hclass, hgroup' | ⟨t, hc, hkind⟩⟩ := numericTerm_sound budget s e s' hv h
    · exact ⟨hclass, hgroup hgroup'⟩
    · exact ⟨hclass, [t], hc, Or.inr ⟨rfl, t, rfl, hkind⟩⟩
  | condition temporal =>
    obtain ⟨hclass, hc⟩ := condition_sound budget temporal s e s' hv h
    exact ⟨hclass, hgroup hc⟩
  | effect temporal =>
    obtain ⟨hclass, hc⟩ := effect_sound budget temporal s e s' hv h
    exact ⟨hclass, hgroup hc⟩
  | duration =>
    obtain ⟨hclass, hc⟩ := durationConstraint_sound budget s e s' hv h
    exact ⟨hclass, hgroup hc⟩

/-- Reading an expression is reading it within some budget. -/
lemma reader_eq_ok {position : Position} {e : Expr} (h : position.reader c s = .ok e s') :
    ∃ n, position.readWithin n c s = .ok e s' := by
  rw [Position.reader_eq] at h
  obtain ⟨n, hn⟩ := budget_run (c := c) (s := s)
  rw [bind_of_ok hn] at h
  exact ⟨n, h⟩

/-- Anywhere in any text, in any context: what is read in a place belongs there, and exactly the
tokens of one expression are consumed. -/
theorem read_sound (position : Position) (c : Context) (text : String) (s s' : State) (e : Expr)
    (hs : s.cursor.Reached text) (h : position.reader c s = .ok e s') :
    position.Admits e ∧
      ∃ tokens, s.cursor.upcoming = tokens ++ s'.cursor.upcoming ∧ IsSpan position tokens := by
  obtain ⟨n, hn⟩ := reader_eq_ok h
  obtain ⟨hclass, ts, hc, hspan⟩ := readWithin_sound position n hs.valid hn
  exact ⟨hclass, ts, hc.upcoming, hspan⟩

/-- A conditional effect at the end of an action, before a parenthesis that is not part of it. -/
theorem read_sound_conditional :
    ∃ s s' e, s.cursor.Reached "(at end (when (< (f ?x) 3) (not (p ?x)))) )" ∧
      (Position.effect true).reader (.unlimited .lenient true) s = .ok e s' ∧
      (Position.effect true).Admits e ∧
      ∃ tokens, s.cursor.upcoming = tokens ++ s'.cursor.upcoming ∧
        IsSpan (.effect true) tokens := by
  have hok : (run (Position.effect true).reader (.unlimited .lenient true)
      "(at end (when (< (f ?x) 3) (not (p ?x)))) )").result.isOk = true := by
    decide +kernel
  cases hrun : (run (Position.effect true).reader (.unlimited .lenient true)
      "(at end (when (< (f ?x) 3) (not (p ?x)))) )").result with
  | error failure =>
    rw [hrun] at hok
    cases hok
  | ok e =>
    obtain ⟨cursor, s', hcursor, hread⟩ := run_eq_ok.mp hrun
    have hreached : (State.ofCursor cursor []).cursor.Reached
        "(at end (when (< (f ?x) 3) (not (p ?x)))) )" := .start hcursor
    exact ⟨_, s', e, hreached, hread, read_sound _ _ _ _ s' e hreached hread⟩

end Reader

end Pddl
