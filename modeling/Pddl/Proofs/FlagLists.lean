import Pddl.Proofs.SectionOrder

/-!
# Texts without their flags

The flags of a domain are listed in its sections of requirements.  To compare texts up to what they
list there, their tokens are followed through the zones of a domain (`Zone.next`), and keywords are
left out where flags are listed (`withoutFlags`).  Texts differ in flags only if the same is left
(`Domain.DifferInFlags`).  Then they have the same sections one after the other
(`SameUpToFlags.sameSection`), except that those of requirements may list different flags
(`SameUpToFlags.requirementsSection`).
-/

namespace Pddl

open Assembly (SectionKind)

/-! ### Zones of a domain -/

/-- Where a token stands, after the heading of a domain: between the sections, at the start of one,
further inside one, or behind the last parenthesis of the domain.  Inside it is known whether the
section lists flags, and how many parentheses are open besides its own. -/
inductive Zone
  | between
  | start
  | inside (lists : Bool) (opened : Nat)
  | behind
deriving DecidableEq

namespace Zone

/-- Does the token start a section of requirements? -/
def startsFlags (token : Token) : Bool :=
  Reader.isKeyword token && SectionKind.ofKey? token.key = some .requirements

/-- The zone of what comes after a token inside a section. -/
def nextInside (lists : Bool) (opened : Nat) (token : Token) : Zone :=
  match token.kind, opened with
  | .openParen, _ => inside lists (opened + 1)
  | .closeParen, 0 => between
  | .closeParen, opened + 1 => inside lists opened
  | _, _ => inside lists opened

/-- The zone of what comes after a token. -/
def next (token : Token) : Zone → Zone
  | between =>
    match token.kind with
    | .openParen => start
    | .closeParen => behind
    | _ => between
  | start => nextInside (startsFlags token) 0 token
  | inside lists opened => nextInside lists opened token
  | behind => behind

/-- Are flags listed in the zone? -/
def listsFlags : Zone → Bool
  | inside lists _ => lists
  | _ => false

variable {token : Token} {lists : Bool} {opened : Nat}

/-- An opening parenthesis starts a section. -/
lemma next_between_open (h : token.kind = .openParen) : between.next token = start := by
  simp [next, h]

/-- The parenthesis that closes the domain. -/
lemma next_between_close (h : token.kind = .closeParen) : between.next token = behind := by
  simp [next, h]

/-- No flags are listed right after a token between sections. -/
lemma listsFlags_next_between : (between.next token).listsFlags = false := by
  rw [next]
  split <;> rfl

/-- A keyword at the start of a section tells whether flags are listed. -/
lemma next_start_keyword (h : Reader.isKeyword token = true) :
    start.next token = inside (startsFlags token) 0 := by
  obtain ⟨hopen, hclose, -⟩ := Reader.kind_of_isKeyword h
  unfold next nextInside
  split <;> simp_all

/-- A parenthesis opens a group inside the section. -/
lemma next_inside_open (h : token.kind = .openParen) :
    (inside lists opened).next token = inside lists (opened + 1) := by
  simp [next, nextInside, h]

/-- A parenthesis closes a group inside the section. -/
lemma next_inside_close (h : token.kind = .closeParen) :
    (inside lists (opened + 1)).next token = inside lists opened := by
  simp [next, nextInside, h]

/-- A parenthesis closes the section. -/
lemma next_inside_last (h : token.kind = .closeParen) :
    (inside lists 0).next token = between := by
  simp [next, nextInside, h]

/-- Other tokens stay inside. -/
lemma next_inside_plain (hopen : token.kind ≠ .openParen) (hclose : token.kind ≠ .closeParen) :
    (inside lists opened).next token = inside lists opened := by
  unfold next nextInside
  split <;> simp_all

end Zone

/-! ### Tokens without flags -/

/-- The tokens from a zone on, without the flags that are listed. -/
def withoutFlags : Zone → List Token → List Token
  | _, [] => []
  | zone, token :: rest =>
    if zone.listsFlags && Reader.isKeyword token then withoutFlags (zone.next token) rest
    else token :: withoutFlags (zone.next token) rest

/-- From the zone on, the tokens are the same up to flags. -/
def SameUpToFlags (zone : Zone) (tokens tokens' : List Token) : Prop :=
  withoutFlags zone tokens = withoutFlags zone tokens'

instance (zone : Zone) (tokens tokens' : List Token) :
    Decidable (SameUpToFlags zone tokens tokens') :=
  inferInstanceAs (Decidable (withoutFlags zone tokens = withoutFlags zone tokens'))

section

variable {zone : Zone} {token closing : Token} {tokens tokens' flags rest rest' : List Token}

/-- Where no flags are listed, a token is kept. -/
lemma withoutFlags_cons (hzone : zone.listsFlags = false) :
    withoutFlags zone (token :: rest) = token :: withoutFlags (zone.next token) rest := by
  rw [withoutFlags, hzone]
  rfl

/-- Behind the domain nothing is left out. -/
lemma withoutFlags_behind : withoutFlags .behind tokens = tokens := by
  induction tokens with
  | nil => rfl
  | cons token rest ih => rw [withoutFlags_cons rfl, Zone.next, ih]

/-- Flags before the closing parenthesis of their section are left out. -/
lemma withoutFlags_flags (hflags : ∀ flag ∈ flags, Reader.isKeyword flag = true)
    (hclose : closing.kind = .closeParen) :
    withoutFlags (.inside true 0) (flags ++ closing :: rest) =
      closing :: withoutFlags .between rest := by
  induction flags with
  | nil =>
    have hkeyword : Reader.isKeyword closing = false := by simp [Reader.isKeyword, hclose]
    rw [List.nil_append, withoutFlags, hkeyword, Zone.next_inside_last hclose]
    rfl
  | cons flag flags ih =>
    obtain ⟨hflag, hflags⟩ := List.forall_mem_cons.mp hflags
    obtain ⟨hopen, hclose, -⟩ := Reader.kind_of_isKeyword hflag
    rw [List.cons_append, withoutFlags, hflag, Zone.next_inside_plain hopen hclose, ← ih hflags]
    rfl

/-- What is left of tokens in a list of flags starts with a parenthesis only if flags come before
it. -/
lemma flags_of_withoutFlags (hclose : closing.kind = .closeParen) :
    withoutFlags (.inside true 0) tokens = closing :: rest →
      ∃ flags rest', tokens = flags ++ closing :: rest' ∧
        (∀ flag ∈ flags, Reader.isKeyword flag = true) ∧ withoutFlags .between rest' = rest := by
  intro h
  induction tokens with
  | nil => cases h
  | cons token tokens ih =>
    rw [withoutFlags] at h
    split_ifs at h with hkeyword
    · obtain ⟨hopen, hclose, -⟩ := Reader.kind_of_isKeyword hkeyword
      rw [Zone.next_inside_plain hopen hclose] at h
      obtain ⟨flags, rest', rfl, hflags, hrest⟩ := ih h
      exact ⟨token :: flags, rest', rfl, List.forall_mem_cons.mpr ⟨hkeyword, hflags⟩, hrest⟩
    · obtain ⟨rfl, hrest⟩ := List.cons.inj h
      rw [Zone.next_inside_last hclose] at hrest
      exact ⟨[], tokens, rfl, nofun, hrest⟩

namespace SameUpToFlags

/-- Where no flags are listed, both continue with the same token. -/
lemma cons (hzone : zone.listsFlags = false) (h : SameUpToFlags zone (token :: rest) tokens') :
    ∃ rest', tokens' = token :: rest' ∧ SameUpToFlags (zone.next token) rest rest' := by
  unfold SameUpToFlags at h
  rw [withoutFlags_cons hzone] at h
  cases tokens' with
  | nil => cases h
  | cons token' rest' =>
    rw [withoutFlags_cons hzone] at h
    obtain ⟨rfl, hrest⟩ := List.cons.inj h
    exact ⟨rest', rfl, hrest⟩

/-- Where no flags are listed, both end together. -/
lemma nil (hzone : zone.listsFlags = false) (h : SameUpToFlags zone [] tokens') : tokens' = [] := by
  cases tokens' with
  | nil => rfl
  | cons token' rest' =>
    unfold SameUpToFlags at h
    rw [withoutFlags_cons hzone] at h
    cases h

/-- Inside a section without flags, both have the same balanced tokens. -/
lemma balanced {inner : List Token} (hinner : Balanced inner) :
    ∀ {opened : Nat} {rest tokens' : List Token},
      SameUpToFlags (.inside false opened) (inner ++ rest) tokens' →
      ∃ rest', tokens' = inner ++ rest' ∧ SameUpToFlags (.inside false opened) rest rest' := by
  induction hinner with
  | nil => exact fun h => ⟨_, rfl, h⟩
  | plain hopen hclose _ ih =>
    intro opened rest tokens' h
    obtain ⟨tokens₁, rfl, h₁⟩ := h.cons rfl
    rw [Zone.next_inside_plain hopen hclose] at h₁
    obtain ⟨rest', rfl, hrest⟩ := ih h₁
    exact ⟨rest', rfl, hrest⟩
  | group hopen _ hclose _ ihinner ihrest =>
    -- The parentheses of the group are one level deeper, so the level varies in the induction.
    intro opened rest tokens' h
    rw [List.cons_append, List.append_assoc, List.cons_append] at h
    obtain ⟨tokens₁, rfl, h₁⟩ := h.cons rfl
    rw [Zone.next_inside_open hopen] at h₁
    obtain ⟨tokens₂, rfl, h₂⟩ := ihinner h₁
    obtain ⟨tokens₃, rfl, h₃⟩ := h₂.cons rfl
    rw [Zone.next_inside_close hclose] at h₃
    obtain ⟨rest', rfl, hrest⟩ := ihrest h₃
    exact ⟨rest', by simp, hrest⟩

variable {opening keyword : Token} {inner : List Token}

/-- Both have the same parenthesis and keyword of a section. -/
lemma exists_keyword (hopen : opening.kind = .openParen)
    (hkeyword : Reader.isKeyword keyword = true)
    (h : SameUpToFlags .between (opening :: keyword :: tokens) tokens') :
    ∃ rest', tokens' = opening :: keyword :: rest' ∧
      SameUpToFlags (.inside (Zone.startsFlags keyword) 0) tokens rest' := by
  obtain ⟨tokens₁, rfl, h₁⟩ := h.cons rfl
  rw [Zone.next_between_open hopen] at h₁
  obtain ⟨rest', rfl, hrest⟩ := h₁.cons rfl
  rw [Zone.next_start_keyword hkeyword] at hrest
  exact ⟨rest', rfl, hrest⟩

/-- Both have the same section, unless it is one of requirements. -/
lemma sameSection (hopen : opening.kind = .openParen) (hkeyword : Reader.isKeyword keyword = true)
    (hkind : SectionKind.ofKey? keyword.key ≠ some .requirements) (hinner : Balanced inner)
    (hclose : closing.kind = .closeParen)
    (h : SameUpToFlags .between (opening :: keyword :: (inner ++ closing :: rest)) tokens') :
    ∃ rest', tokens' = opening :: keyword :: (inner ++ closing :: rest') ∧
      SameUpToFlags .between rest rest' := by
  have hstarts : Zone.startsFlags keyword = false := by simp [Zone.startsFlags, hkind]
  obtain ⟨tokens₁, rfl, h₁⟩ := h.exists_keyword hopen hkeyword
  rw [hstarts] at h₁
  obtain ⟨tokens₂, rfl, h₂⟩ := balanced hinner h₁
  obtain ⟨rest', rfl, hrest⟩ := h₂.cons rfl
  rw [Zone.next_inside_last hclose] at hrest
  exact ⟨rest', rfl, hrest⟩

/-- A section of requirements is one in both, but the flags may be different. -/
lemma requirementsSection (hopen : opening.kind = .openParen)
    (hkeyword : Reader.isKeyword keyword = true)
    (hkind : SectionKind.ofKey? keyword.key = some .requirements)
    (hflags : ∀ flag ∈ flags, Reader.isKeyword flag = true) (hclose : closing.kind = .closeParen)
    (h : SameUpToFlags .between (opening :: keyword :: (flags ++ closing :: rest)) tokens') :
    ∃ flags' rest', tokens' = opening :: keyword :: (flags' ++ closing :: rest') ∧
      (∀ flag ∈ flags', Reader.isKeyword flag = true) ∧ SameUpToFlags .between rest rest' := by
  have hstarts : Zone.startsFlags keyword = true := by simp [Zone.startsFlags, hkind, hkeyword]
  obtain ⟨tokens₁, rfl, h₁⟩ := h.exists_keyword hopen hkeyword
  rw [hstarts, SameUpToFlags, withoutFlags_flags hflags hclose] at h₁
  obtain ⟨flags', rest', rfl, hflags', hrest⟩ := flags_of_withoutFlags hclose h₁.symm
  exact ⟨flags', rest', rfl, hflags', hrest.symm⟩

/-- Both end the same way behind the parenthesis that closes the domain. -/
lemma close (hclose : closing.kind = .closeParen)
    (h : SameUpToFlags .between (closing :: rest) tokens') : tokens' = closing :: rest := by
  obtain ⟨rest', rfl, hrest⟩ := h.cons rfl
  rw [Zone.next_between_close hclose, SameUpToFlags, withoutFlags_behind,
    withoutFlags_behind] at hrest
  rw [hrest]

end SameUpToFlags

end

/-! ### Texts -/

/-- The texts differ at most in the flags that the sections of requirements of their domains list,
and in blanks and comments. -/
structure Domain.DifferInFlags (text text' : String) : Prop where
  failure : (scan text).failure = none ↔ (scan text').failure = none
  heading : (bareTokens text).take 6 = (bareTokens text').take 6
  sections : SameUpToFlags .between ((bareTokens text).drop 6) ((bareTokens text').drop 6)

instance (text text' : String) : Decidable (Domain.DifferInFlags text text') :=
  decidable_of_iff (((scan text).failure = none ↔ (scan text').failure = none) ∧
      (bareTokens text).take 6 = (bareTokens text').take 6 ∧
      SameUpToFlags .between ((bareTokens text).drop 6) ((bareTokens text').drop 6))
    ⟨fun h => ⟨h.1, h.2.1, h.2.2⟩, fun h => ⟨h.failure, h.heading, h.sections⟩⟩

/-- It does not matter which of the texts is the first. -/
lemma Domain.DifferInFlags.symm {text text' : String} (h : DifferInFlags text text') :
    DifferInFlags text' text :=
  ⟨h.failure.symm, h.heading.symm, Eq.symm h.sections⟩

end Pddl
