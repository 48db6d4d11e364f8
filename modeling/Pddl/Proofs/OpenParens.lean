import Pddl.Proofs.Soundness

/-!
# Parentheses of expressions that are open at once

Passing over the tokens of an expression, one can count the parentheses that are open.  Those of
the variables after a quantifier are no expressions, nor are those of `either` inside of them, so
the count skips the list after the word of a quantifier.  `mostOpen` is the greatest count; for a
whole expression it does not depend on what stands around it (`Raises`).
-/

namespace Pddl

/-- Is the token a name that announces a quantifier? -/
def Token.isQuantifier (token : Token) : Bool :=
  token.kind = .name && (token.key = "forall" || token.key = "exists")

/-- The head of a form is a quantifier if its name announces one. -/
lemma Token.isQuantifier_iff {token : Token} (hkind : token.kind = .name) :
    token.isQuantifier = true ↔ ∃ quantifier, Head.ofKey token.key = .quantifier quantifier := by
  simp only [Token.isQuantifier, hkind, decide_true, Bool.true_and, Bool.or_eq_true,
    decide_eq_true_eq]
  constructor
  · rintro (h | h)
    · exact ⟨.universal, by rw [h]; rfl⟩
    · exact ⟨.existential, by rw [h]; rfl⟩
  · rintro ⟨quantifier, h⟩
    unfold Head.ofKey at h
    split at h <;> simp_all

/-- The first word of a time specifier announces no quantifier. -/
lemma Token.isQuantifier_of_ofWords? {token : Token} {second : String} {time : TimeSpec}
    (h : TimeSpec.ofWords? token.key second = some time) : token.isQuantifier = false := by
  have hkey : token.key = "at" ∨ token.key = "over" := by
    unfold TimeSpec.ofWords? at h
    split at h <;> simp_all
  rcases hkey with hkey | hkey <;> simp [Token.isQuantifier, hkey]

/-- Only names announce quantifiers. -/
lemma Token.isQuantifier_of_kind_ne {token : Token} (h : token.kind ≠ .name) :
    token.isQuantifier = false := by
  simp [Token.isQuantifier, h]

/-- Where a token of an expression stands: after the opening parenthesis of an expression, after the
word of a quantifier, in the variables of a quantifier with further parentheses open in them, or
elsewhere. -/
inductive Stretch
  | elsewhere
  | opened
  | quantifier
  | listed (inner : Nat)
deriving DecidableEq, Repr

namespace Stretch

/-- Where the token after the given one stands. -/
def next : Stretch → Token → Stretch
  | .elsewhere, token => if token.kind = .openParen then .opened else .elsewhere
  | .opened, token =>
    if token.kind = .openParen then .opened
    else if token.isQuantifier then .quantifier
    else .elsewhere
  | .quantifier, token => if token.kind = .openParen then .listed 0 else .elsewhere
  | .listed inner, token =>
    match token.kind, inner with
    | .openParen, inner => .listed (inner + 1)
    | .closeParen, 0 => .elsewhere
    | .closeParen, inner + 1 => .listed inner
    | _, inner => .listed inner

/-- How many parentheses of expressions are open after a token, if `count` are open before it. -/
def countAfter (stretch : Stretch) (count : Nat) (token : Token) : Nat :=
  match stretch, token.kind with
  | .listed _, _ => count
  | .quantifier, .openParen => count
  | _, .openParen => count + 1
  | _, .closeParen => count - 1
  | _, _ => count

end Stretch

/-- The greatest number of parentheses of expressions that are open at once while tokens are passed,
with `count` of them open before. -/
def mostOpen : Stretch → Nat → List Token → Nat
  | _, count, [] => count
  | stretch, count, token :: rest =>
    max count (mostOpen (stretch.next token) (stretch.countAfter count token) rest)

variable {ts us vars : List Token} {token opening closing : Token} {n p q : Nat}

/-! ### One token -/

/-- The count before the first token is one of the counts. -/
lemma le_mostOpen (stretch : Stretch) (n : Nat) (ts : List Token) : n ≤ mostOpen stretch n ts := by
  cases ts with
  | nil => exact Nat.le_refl _
  | cons token rest => exact Nat.le_max_left _ _

/-- An opening parenthesis opens an expression. -/
lemma mostOpen_open (h : opening.kind = .openParen) :
    mostOpen .elsewhere n (opening :: us) = mostOpen .opened (n + 1) us := by
  have hle := le_mostOpen .opened (n + 1) us
  simp only [mostOpen, Stretch.next, Stretch.countAfter, h, if_true]
  omega

/-- A closing parenthesis outside of variables closes an expression. -/
lemma mostOpen_close {stretch : Stretch} (h : closing.kind = .closeParen)
    (hstretch : ∀ inner, stretch ≠ .listed inner) :
    mostOpen stretch (n + 1) (closing :: us) = max (n + 1) (mostOpen .elsewhere n us) := by
  have hname : closing.isQuantifier = false := by simp [Token.isQuantifier, h]
  cases stretch with
  | listed inner => exact absurd rfl (hstretch inner)
  | elsewhere | opened | quantifier =>
    simp [mostOpen, Stretch.next, Stretch.countAfter, h, hname]

/-- Another token outside of variables changes no count. -/
lemma mostOpen_plain {stretch : Stretch} (hopen : token.kind ≠ .openParen)
    (hclose : token.kind ≠ .closeParen) (hstretch : ∀ inner, stretch ≠ .listed inner)
    (hname : stretch = .opened → token.isQuantifier = false) :
    mostOpen stretch n (token :: us) = mostOpen .elsewhere n us := by
  have hle := le_mostOpen .elsewhere n us
  have hcount : stretch.countAfter n token = n := by
    unfold Stretch.countAfter
    split
    · rfl
    · rfl
    · exact absurd ‹_› hopen
    · exact absurd ‹_› hclose
    · rfl
  have hnext : stretch.next token = .elsewhere := by
    cases stretch with
    | listed inner => exact absurd rfl (hstretch inner)
    | elsewhere | quantifier => simp [Stretch.next, hopen]
    | opened => simp [Stretch.next, hopen, hname rfl]
  rw [mostOpen, hcount, hnext]
  omega

/-- The word of a quantifier changes no count. -/
lemma mostOpen_quantifier (h : token.isQuantifier = true) :
    mostOpen .opened n (token :: us) = mostOpen .quantifier n us := by
  have hle := le_mostOpen .quantifier n us
  have hkind : token.kind = .name := by
    simp only [Token.isQuantifier, Bool.and_eq_true, decide_eq_true_eq] at h
    exact h.1
  simp only [mostOpen, Stretch.next, Stretch.countAfter, hkind, h, reduceCtorEq, if_false, if_true]
  omega

/-! ### Variables of quantifiers -/

/-- Balanced tokens inside of variables change no count. -/
lemma mostOpen_listed (h : Balanced ts) : ∀ (inner : Nat) (us : List Token),
    mostOpen (.listed inner) n (ts ++ us) = mostOpen (.listed inner) n us := by
  induction h with
  | nil => exact fun _ _ => rfl
  | @plain token rest hopen hclose _ ih =>
    intro inner us
    have hnext : (Stretch.listed inner).next token = .listed inner := by
      dsimp only [Stretch.next]
      split
      · exact absurd ‹_› hopen
      · exact absurd ‹_› hclose
      · exact absurd ‹_› hclose
      · rfl
    rw [List.cons_append, mostOpen, hnext]
    change max n (mostOpen _ n (rest ++ us)) = _
    rw [ih, Nat.max_eq_right (le_mostOpen _ _ _)]
  | @group opening closing ts rest hopen _ hclose _ ihInner ihRest =>
    intro inner us
    have hfirst : (Stretch.listed inner).next opening = .listed (inner + 1) := by
      simp [Stretch.next, hopen]
    have hlast : (Stretch.listed (inner + 1)).next closing = .listed inner := by
      simp [Stretch.next, hclose]
    rw [List.cons_append, List.append_assoc, List.cons_append, mostOpen, hfirst]
    change max n (mostOpen _ n (ts ++ closing :: (rest ++ us))) = _
    rw [ihInner, mostOpen, hlast]
    change max n (max n (mostOpen _ n (rest ++ us))) = _
    rw [ihRest, Nat.max_eq_right (le_mostOpen _ _ _), Nat.max_eq_right (le_mostOpen _ _ _)]

/-- The variables of a quantifier change no count. -/
lemma mostOpen_quantified (hname : token.isQuantifier = true) (hopen : opening.kind = .openParen)
    (hvars : Balanced vars) (hclose : closing.kind = .closeParen) :
    mostOpen .opened n (token :: opening :: (vars ++ closing :: us)) =
      mostOpen .elsewhere n us := by
  have hfirst : Stretch.quantifier.next opening = .listed 0 := by simp [Stretch.next, hopen]
  have hcount : Stretch.quantifier.countAfter n opening = n := by
    simp [Stretch.countAfter, hopen]
  have hlast : (Stretch.listed 0).next closing = .elsewhere := by simp [Stretch.next, hclose]
  rw [mostOpen_quantifier hname, mostOpen, hfirst, hcount, mostOpen_listed hvars, mostOpen, hlast]
  change max n (max n (mostOpen _ n us)) = _
  rw [Nat.max_eq_right (le_mostOpen _ _ _), Nat.max_eq_right (le_mostOpen _ _ _)]

/-! ### Parts of expressions -/

/-- Wherever the tokens stand, at most `p` parentheses of theirs are open at once, and none after
them. -/
def Raises (ts : List Token) (p : Nat) : Prop :=
  ∀ n us, mostOpen .elsewhere n (ts ++ us) = max (n + p) (mostOpen .elsewhere n us)

/-- The tokens end an expression that stands open before them, and at most `p` parentheses of theirs
are open at once within it. -/
def Closes (stretch : Stretch) (ts : List Token) (p : Nat) : Prop :=
  ∀ n us, mostOpen stretch (n + 1) (ts ++ us) = max (n + 1 + p) (mostOpen .elsewhere n us)

/-- No tokens open nothing. -/
lemma Raises.nil : Raises [] 0 :=
  fun n us => (Nat.max_eq_right (le_mostOpen _ n us)).symm

/-- Tokens after tokens. -/
lemma Raises.append (h : Raises ts p) (hus : Raises us q) : Raises (ts ++ us) (max p q) := by
  intro n vs
  rw [List.append_assoc, h, hus, ← Nat.max_assoc, Nat.add_max_add_left]

/-- Tokens that are no parentheses open nothing. -/
lemma Raises.of_plain (h : ∀ t ∈ ts, t.kind ≠ .openParen ∧ t.kind ≠ .closeParen) :
    Raises ts 0 := by
  induction ts with
  | nil => exact .nil
  | cons t rest ih =>
    intro n us
    obtain ⟨hopen, hclose⟩ := h t List.mem_cons_self
    rw [List.cons_append, mostOpen_plain hopen hclose (by simp) (by simp)]
    exact ih (fun u hu => h u (List.mem_cons_of_mem t hu)) n us

/-- A group opens one parenthesis more than what is inside. -/
lemma Raises.group (hopen : opening.kind = .openParen) (h : Closes .opened ts p) :
    Raises (opening :: ts) (p + 1) := by
  intro n us
  rw [List.cons_append, mostOpen_open hopen, h]
  omega

/-- The closing parenthesis. -/
lemma Closes.close {stretch : Stretch} (h : closing.kind = .closeParen)
    (hstretch : ∀ inner, stretch ≠ .listed inner) : Closes stretch [closing] 0 :=
  fun _ _ => mostOpen_close h hstretch

/-- Whole parts before the end of an expression. -/
lemma Closes.prepend (h : Raises ts p) (hus : Closes .elsewhere us q) :
    Closes .elsewhere (ts ++ us) (max p q) := by
  intro n vs
  rw [List.append_assoc, h, hus, ← Nat.max_assoc, Nat.add_max_add_left]

/-- The word that an expression starts with. -/
lemma Closes.word (hopen : token.kind ≠ .openParen) (hclose : token.kind ≠ .closeParen)
    (hname : token.isQuantifier = false) (h : Closes .elsewhere ts p) :
    Closes .opened (token :: ts) p := by
  intro n us
  rw [List.cons_append, mostOpen_plain hopen hclose (by simp) fun _ => hname]
  exact h n us

/-- A quantifier with its variables. -/
lemma Closes.quantified (hname : token.isQuantifier = true) (hopen : opening.kind = .openParen)
    (hvars : Balanced vars) (hclose : closing.kind = .closeParen) (h : Closes .elsewhere ts p) :
    Closes .opened (token :: opening :: (vars ++ closing :: ts)) p := by
  intro n us
  have hmost : mostOpen .opened (n + 1) (token :: opening :: (vars ++ closing :: (ts ++ us))) = _ :=
    mostOpen_quantified hname hopen hvars hclose
  simpa [h n us] using hmost

/-- An atom, whose name may be the word of a quantifier: then no parenthesis follows it. -/
lemma Closes.atom {args : List Token} (hname : token.kind = .name)
    (hargs : ∀ t ∈ args, t.kind ≠ .openParen ∧ t.kind ≠ .closeParen)
    (hclose : closing.kind = .closeParen) : Closes .opened (token :: (args ++ [closing])) 0 := by
  have hrest : Closes .elsewhere (args ++ [closing]) 0 :=
    .prepend (.of_plain hargs) (.close hclose (by simp))
  cases hquantifier : token.isQuantifier with
  | false => exact hrest.word (by simp [hname]) (by simp [hname]) hquantifier
  | true =>
    intro n us
    rw [List.cons_append, mostOpen_quantifier hquantifier]
    cases args with
    | nil => exact mostOpen_close hclose (by simp)
    | cons first others =>
      obtain ⟨hopen, hnotClose⟩ := hargs first List.mem_cons_self
      have hmost := hrest n us
      rw [List.cons_append, List.cons_append,
        mostOpen_plain hopen hnotClose (by simp) (by simp)] at hmost ⊢
      exact hmost

/-- The count of a whole part on its own. -/
lemma Raises.mostOpen_eq (h : Raises ts p) : mostOpen .elsewhere 0 ts = p := by
  have hmost := h 0 []
  simpa [mostOpen] using hmost

end Pddl
