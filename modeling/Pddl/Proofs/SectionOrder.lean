import Pddl.Proofs.Crossing
import Pddl.Proofs.Outcomes
import Pddl.Proofs.Placement
import Pddl.Proofs.Separation
import Pddl.Proofs.TrailingInput

/-!
# The order of sections

Sections of a domain that declare flags, types, constants, predicates or functions can be exchanged
where they are next to each other and of different kinds: with lenient settings the same domain is
read, or none either way (`Domain.parse_swap`).  Each of the two changes a part of its own, whatever
the other one has declared, so that behind both the declarations are the same
(`exchange_sections`).  What comes before them is read alike in both texts, as it does not depend on
what comes behind it (`skip_heading`, `skip_sections`), and so is what comes after them, as it
depends on the flags and declarations only.  Places differ between the texts, but do not matter.
-/

namespace Pddl

namespace Cursor

variable {cursor other : Cursor} {opening : Token} {tokens behind behind' : List Token}
  {endOffset : Nat}

/-- Some steps after the first of the last tokens, a cursor without a reserve stands at the first of
those that are left. -/
lemma Leaves.eq_ofTokens (h : (ofTokens tokens endOffset).Leaves cursor) (hv : cursor.Valid)
    (hreserve : cursor.reserve = none) (hne : cursor.upcoming ≠ []) :
    cursor = ofTokens cursor.upcoming endOffset := by
  obtain ⟨-, hfailure, hend⟩ := h
  rw [failure_ofTokens] at hfailure
  rw [endOffset_ofTokens] at hend
  have hkind : cursor.current.kind ≠ .endOfInput := fun hend => hne (hv.upcoming_of_end hend)
  rw [upcoming_of_ne_end hkind, hreserve]
  obtain ⟨current, reserve, rest, failure, endOffset⟩ := cursor
  cases hreserve
  cases hfailure
  cases hend
  rfl

/-- Cursors at the first of the same tokens, behind one of which other tokens come. -/
lemma alike_ofTokens (before : List Token) (opening : Token) (behind behind' : List Token)
    (endOffset : Nat) :
    (ofTokens (before ++ opening :: behind) endOffset).Alike behind behind'
      (ofTokens (before ++ opening :: behind') endOffset) := by
  cases before with
  | nil => exact ⟨rfl, rfl, ⟨[], rfl, rfl⟩, rfl, rfl⟩
  | cons first before =>
    have hrest (behind : List Token) :
        (ofTokens (first :: before ++ opening :: behind) endOffset).rest =
          before ++ [opening] ++ behind := by
      simp [ofTokens]
    exact ⟨rfl, rfl, ⟨before ++ [opening], hrest behind, hrest behind'⟩, rfl, rfl⟩

/-- What comes behind one of the tokens is still to come at the first one. -/
lemma suffix_rest_ofTokens (before : List Token) (opening : Token) (behind : List Token)
    (endOffset : Nat) : behind <:+ (ofTokens (before ++ opening :: behind) endOffset).rest := by
  obtain ⟨ts, hts, -⟩ := (alike_ofTokens before opening behind behind endOffset).rest
  exact ⟨ts, hts.symm⟩

/-- The token at which a cursor stands right before other tokens than another one. -/
lemma Alike.eq_ofTokens (h : cursor.Alike behind behind' other)
    (hcursor : cursor = ofTokens (opening :: behind) endOffset) :
    other = ofTokens (opening :: behind') endOffset := by
  obtain ⟨hcurrent, hreserve, ⟨ts, hrest, hother⟩, hfailure, hend⟩ := h
  rw [hcursor] at hcurrent hreserve hrest hfailure hend
  obtain rfl : ts = [] := List.self_eq_append_left.mp hrest
  obtain ⟨current, reserve, rest, failure, endOffset⟩ := other
  cases hcurrent
  cases hreserve
  cases hother
  cases hfailure
  cases hend
  rfl

end Cursor

namespace Assembly

open Reader (Mirrors)

variable {c : Reader.Context} {a a₁ a' b : Assembly} {name : String} {domain : Domain}

/-! ### One section after the other -/

/-- Reads a section with its parentheses. -/
def wholeSection : AssembleM Unit := do
  let _ ← ofReader Reader.openParen
  anySection

/-- Reads the sections that are left and the end of the document, and makes a domain of the given
name. -/
def remainder (name : String) : AssembleM Domain := do
  repeatWhile (Reader.hasKind .openParen) wholeSection
  let _ ← ofReader (Reader.expect .closeParen "'(' opening a section or ')'")
  ofReader Reader.endOfDocument
  conclude name

/-- Reads the heading of a domain, and returns its name. -/
def beginning : AssembleM String := do
  let name ← ofReader (Reader.header "domain" "a domain name")
  ofReader (Reader.note (.domainStarted name))
  return name

/-- A domain is its heading and the remainder. -/
lemma domain_eq_remainder : Assembly.domain = beginning >>= remainder := by
  rw [domain_eq, sections, beginning]
  simp only [bind_assoc, pure_bind]
  rfl

/-- The heading of a domain consists of six tokens, and no token is in reserve behind it. -/
lemma beginning_passes (hv : a.cursor.Valid) (h : beginning c a = .ok name a') :
    a'.cursor.reserve = none ∧
      ∃ heading, heading.length = 6 ∧ a.cursor.Passes heading a'.cursor := by
  obtain ⟨_, a₁, hheader, h⟩ := Reader.bind_eq_ok.mp h
  obtain ⟨u, a₂, hnote, hpure⟩ := Reader.bind_eq_ok.mp h
  obtain ⟨rfl, rfl⟩ := Reader.pure_eq_ok.mp hpure
  obtain ⟨s₁, hrun, rfl⟩ := ofReader_eq_ok.mp hheader
  cases hnote
  obtain ⟨opening, ts, -, -, hlength, hc⟩ := Reader.header_consumes hv hrun
  exact ⟨Reader.Seals.header _ _ c _ _ s₁ hrun, opening :: ts, by rw [List.length_cons, hlength],
    hc.passes⟩

/-- A section with its parentheses is a group, and no token is in reserve behind it. -/
lemma wholeSection_passes (hv : a.cursor.Valid) (h : wholeSection c a = .ok () a') :
    a'.cursor.reserve = none ∧ ∃ part, IsGroup part ∧ a.cursor.Passes part a'.cursor := by
  refine ⟨?_, ?_⟩
  · have hseals : Reader.Seals standpoint wholeSection := .last fun _ => seals_anySection
    exact hseals c a () a' h
  · obtain ⟨opening, s₁, kind, hopen, hc, hkeyword, -, h⟩ := section_eq_ok hv h
    obtain ⟨tokens, hpasses, ⟨inner, closing, rfl, hinner, hclose⟩, -⟩ :=
      sectionOf_reads hc.valid hkeyword h
    obtain ⟨hne, hne', -⟩ := Reader.kind_of_isKeyword hkeyword
    exact ⟨_, ⟨opening, _ :: inner, closing, rfl, hopen, hclose, .plain hne hne' hinner⟩,
      hc.passes.trans hpasses⟩

/-- The first round of a repetition. -/
lemma repeatWhile_run (test : Token → Bool) (step : AssembleM Unit) (c : Reader.Context)
    (a : Assembly) :
    repeatWhile test step c a =
      (if test a.cursor.current then (do step; whileFuel test step a.cursor.unread)
        else pure () : AssembleM Unit) c a :=
  rfl

/-- A section starts with a parenthesis. -/
lemma kind_of_section (h : wholeSection c a = .ok () a') : a.cursor.current.kind = .openParen := by
  obtain ⟨opening, a₁, hopen, -⟩ := Reader.bind_eq_ok.mp h
  obtain ⟨s₁, hexpect, rfl⟩ := ofReader_eq_ok.mp hopen
  exact (Reader.expect_eq_ok.mp hexpect).1

/-- What comes after a section that can be read is read as if the section had been read before. -/
lemma remainder_of_section (hv : a.cursor.Valid) (h : wholeSection c a = .ok () a₁) :
    remainder name c a = remainder name c a₁ := by
  have hcurrent : Reader.hasKind .openParen a.cursor.current = true := by
    simp [Reader.hasKind, kind_of_section h]
  obtain ⟨-, part, hgroup, hpasses⟩ := wholeSection_passes hv h
  obtain ⟨hv₁, hlt⟩ :=
    Reader.Advanced.of_passes (s := a.toState) hpasses hgroup.ne_nil
  have hloop : repeatWhile (Reader.hasKind .openParen) wholeSection c a =
      repeatWhile (Reader.hasKind .openParen) wholeSection c a₁ := by
    rw [repeatWhile_run, if_pos hcurrent, Reader.bind_of_ok h]
    exact (Counted.sections.sufficient c a₁ _ _ hv₁ (Nat.lt_succ_self _) hlt).symm
  unfold remainder
  cases hrun : repeatWhile (Reader.hasKind .openParen) wholeSection c a₁ with
  | ok u a₂ => rw [Reader.bind_of_ok hrun, Reader.bind_of_ok (hloop.trans hrun)]
  | error e a₂ => rw [Reader.bind_of_error hrun, Reader.bind_of_error (hloop.trans hrun)]

/-- The remainder starts with the last parenthesis of the document, or with a section. -/
lemma remainder_cases (h : remainder name c a = .ok domain a') :
    a.cursor.current.kind = .closeParen ∨ ∃ a₁, wholeSection c a = .ok () a₁ := by
  obtain ⟨u, a₁, hloop, h⟩ := Reader.bind_eq_ok.mp h
  rw [repeatWhile_run] at hloop
  split_ifs at hloop
  · obtain ⟨u', a₂, hsection, -⟩ := Reader.bind_eq_ok.mp hloop
    exact Or.inr ⟨a₂, hsection⟩
  · obtain ⟨-, rfl⟩ := Reader.pure_eq_ok.mp hloop
    obtain ⟨closing, a₂, hclose, -⟩ := Reader.bind_eq_ok.mp h
    obtain ⟨s₂, hexpect, -⟩ := ofReader_eq_ok.mp hclose
    exact Or.inl (Reader.expect_eq_ok.mp hexpect).1

/-- Reading sections depends on the tokens that are read, on the flags and on the declarations
only. -/
lemma confined_wholeSection {behind behind' : List Token} (hbehind : behind = [] → behind' = []) :
    Mirrors (confinement True (fun _ => True) behind behind') wholeSection := by
  have hR := Reader.confined_compositional hbehind
  exact .bind (confined_ofReader (hR.expect _ _)) fun _ =>
    Compositional.anySection hR.toDocumentary confined_compositional

/-- So does reading the heading of a domain. -/
lemma confined_beginning {behind behind' : List Token} (hbehind : behind = [] → behind' = []) :
    Mirrors (confinement True (fun _ => True) behind behind') beginning := by
  have hR := Reader.confined_compositional hbehind
  refine .bind (confined_ofReader (hR.header _ _)) fun _ => ?_
  exact .bind (confined_ofReader (hR.note _ (by simp [Notice.level]))) fun _ => .pure _

/-- Making a domain of what is left depends on the tokens, the flags and the declarations only. -/
lemma confined_remainder (name : String) :
    Mirrors (confinement True (fun _ => True) [] []) (remainder name) := by
  have hR := Reader.confined_compositional (id : ([] : List Token) = [] → _)
  have hA : Compositional _ (Mirrors (confinement True (fun _ => True) [] [])) :=
    confined_compositional
  refine hA.bind (Compositional.repeatWhile hR.toDocumentary hA .sections
    (confined_wholeSection id)) fun _ => ?_
  refine hA.bind (hA.ofReader (hR.expect _ _)) fun _ => ?_
  refine hA.bind (hA.ofReader hR.endOfDocument) fun _ => ?_
  refine hA.bind hA.declared? fun _ => hA.bind (hA.check _) fun _ => ?_
  refine hA.bind (hA.declare _) fun _ => hA.bind hA.declared? fun _ => ?_
  refine hA.bind (hA.check _) fun _ => ?_
  exact hA.bind (hA.ofReader (hR.note _ (by simp [Notice.level]))) fun _ => hA.pure _

/-- Some token is left at the start of the remainder. -/
lemma upcoming_ne_nil_of_remainder (hv : a.cursor.Valid) (h : remainder name c a = .ok domain a') :
    a.cursor.upcoming ≠ [] := by
  rcases remainder_cases h with hclose | ⟨a₁, hsection⟩
  · have hkind : a.cursor.current.kind ≠ .endOfInput := by rw [hclose]; decide
    rw [Cursor.upcoming_of_ne_end hkind]
    exact List.cons_ne_nil _ _
  · obtain ⟨-, part, hpart, hpasses⟩ := wholeSection_passes hv hsection
    rw [hpasses.upcoming]
    exact List.append_ne_nil_of_left_ne_nil hpart.ne_nil _

variable {endOffset : Nat} {part rest : List Token} {next : Token}

/-- The section is read before a token of the text. -/
structure ReadsPart (c : Reader.Context) (part : List Token) (next : Token) (rest : List Token)
    (endOffset : Nat) (a a' : Assembly) : Prop where
  before : a.cursor = .ofTokens (part ++ next :: rest) endOffset
  valid : a.cursor.Valid
  run : wholeSection c a = .ok () a'
  behind : a'.cursor = .ofTokens (next :: rest) endOffset
  valid_behind : a'.cursor.Valid

/-- If the remainder starts with a group, this is a section, and tokens come behind it. -/
lemma section_of_remainder (hc : c.Lenient)
    (hlexemes : ∀ token ∈ part ++ rest, token.word.IsLexeme) (hpart : IsGroup part)
    (hcursor : a.cursor = .ofTokens (part ++ rest) endOffset)
    (h : remainder name c a = .ok domain a') :
    ∃ next rest' a₁, rest = next :: rest' ∧ ReadsPart c part next rest' endOffset a a₁ ∧
      remainder name c a₁ = .ok domain a' := by
  have hv : a.cursor.Valid := hcursor ▸ Cursor.valid_ofTokens hlexemes endOffset
  have hupcoming : a.cursor.upcoming = part ++ rest := by
    rw [hcursor, Cursor.upcoming_ofTokens hlexemes]
  obtain ⟨a₁, hsection⟩ : ∃ a₁, wholeSection c a = .ok () a₁ := by
    refine (remainder_cases h).resolve_left fun hclose => ?_
    obtain ⟨opening, inner, closing, rfl, hopen, -⟩ := hpart
    rw [hv.current_of_upcoming hupcoming, hopen] at hclose
    cases hclose
  rw [remainder_of_section hv hsection] at h
  obtain ⟨hreserve, group, hgroup, hpasses⟩ := wholeSection_passes hv hsection
  have hv₁ : a₁.cursor.Valid := hpasses.valid
  -- The group that is passed is the one that the tokens start with, as this is unique.
  obtain rfl : group = part := by
    have hgroups := congrArg groups (hpasses.upcoming.symm.trans hupcoming)
    rw [groups_cons_group hgroup, groups_cons_group hpart] at hgroups
    exact (List.cons.inj hgroups).1
  obtain rfl : a₁.cursor.upcoming = rest :=
    List.append_cancel_left (hpasses.upcoming.symm.trans hupcoming)
  have hconfined : Mirrors (confinement True (fun _ => True) [] []) wholeSection :=
    confined_wholeSection id
  obtain ⟨hkeeps, -⟩ := hconfined.run c a () a₁ hc hv hsection
  have hne := upcoming_ne_nil_of_remainder hv₁ h
  have hbehind := (hcursor ▸ hkeeps.toLeaves).eq_ofTokens hv₁ hreserve hne
  obtain ⟨next, rest', hrest⟩ := List.exists_cons_of_ne_nil hne
  rw [hrest] at hcursor hbehind
  exact ⟨next, rest', a₁, hrest, ⟨hcursor, hv, hsection, hbehind, hv₁⟩, h⟩

/-! ### Two sections -/

/-- The tokens are a section of the kind: a group that starts with its keyword. -/
structure SectionKind.IsSection (kind : SectionKind) (part : List Token) : Prop where
  group : IsGroup part
  keyword : ∀ token ∈ part[1]?, Reader.isKeyword token = true
  kind : sectionKind? part = some kind

variable {kind : SectionKind}

/-- A section has its keyword after its opening parenthesis. -/
lemma SectionKind.IsSection.exists_keyword (h : kind.IsSection part) :
    ∃ opening keyword inner, part = opening :: keyword :: inner ∧
      Reader.isKeyword keyword = true ∧ ofKey? keyword.key = some kind := by
  obtain ⟨⟨opening, inner, closing, rfl, -⟩, hkeyword, hkind⟩ := h
  cases inner with
  | nil => exact ⟨opening, closing, [], rfl, hkeyword closing rfl, hkind⟩
  | cons keyword inner =>
    exact ⟨opening, keyword, inner ++ [closing], rfl, hkeyword keyword rfl, hkind⟩

/-- A section is read as what its keyword says. -/
lemma anySection_run (hkeyword : Reader.isKeyword a.cursor.current = true)
    (hkind : SectionKind.ofKey? a.cursor.current.key = some kind) :
    anySection c a = sectionOf kind c a := by
  have hcurrent : (Reader.current : AssembleM Token) c a = .ok a.cursor.current a := rfl
  rw [anySection, Reader.bind_of_ok hcurrent, if_pos hkeyword, hkind]

/-- A section with its parentheses is read as what its keyword says. -/
lemma wholeSection_run (hpart : kind.IsSection part)
    (hcursor : a.cursor = .ofTokens (part ++ rest) endOffset) :
    wholeSection c a = (ofReader Reader.openParen >>= fun _ => sectionOf kind) c a := by
  obtain ⟨opening, keyword, inner, rfl, hkeyword, hkey⟩ := hpart.exists_keyword
  refine Reader.bind_congr_run rfl fun token a₁ hopen => ?_
  obtain ⟨s₁, hexpect, rfl⟩ := ofReader_eq_ok.mp hopen
  obtain ⟨hkind, hadvance⟩ := Reader.expect_eq_ok.mp hexpect
  rw [hcursor] at hkind
  have hne : opening.kind ≠ .endOfInput := by rw [show opening.kind = _ from hkind]; decide
  rw [Reader.advance_run (s := a.toState) hcursor hne] at hadvance
  cases hadvance
  exact anySection_run hkeyword hkey

/-- A section with its parentheses, as long as its keyword is known. -/
lemma openSection_crosses (hkind : kind.Declares) :
    Crosses (· = kind) (ofReader Reader.openParen >>= fun _ => sectionOf kind) :=
  .read (fun hR => hR.expect _ _) fun _ => sectionOf_crosses hkind

section

variable (hc : c.Lenient)
  (hdeclares : kind.Declares) (hpart : kind.IsSection part) (hnext : next.kind ≠ .endOfInput)
  (h : ReadsPart c part next rest endOffset a a')

include hc hdeclares hpart hnext h

/-- A section changes its part only. -/
lemma ReadsPart.changes : Changes (· = kind) a a' := by
  have hrun := (wholeSection_run hpart h.before).symm.trans h.run
  refine (openSection_crosses hdeclares c a a' hc h.valid ?_ hrun ?_).1
  · rw [h.before, Cursor.reserve_ofTokens]
  · rwa [h.behind]

/-- A section can be moved to where the same has been declared for its part, with the same
change. -/
lemma ReadsPart.move {next' : Token} {rest' : List Token} (hv : b.cursor.Valid)
    (hcursor : b.cursor = .ofTokens (part ++ next' :: rest') endOffset) (hdepth : b.depth = a.depth)
    (hshares : Shares (· = kind) a b) :
    ∃ b', ReadsPart c part next' rest' endOffset b b' ∧ b'.depth = a'.depth ∧
      Shares (· = kind) a' b' := by
  have hrun := (wholeSection_run hpart h.before).symm.trans h.run
  obtain ⟨-, -, hcross⟩ := openSection_crosses hdeclares c a a' hc h.valid
    (by rw [h.before, Cursor.reserve_ofTokens]) hrun (by rwa [h.behind])
  have halike : a.cursor.Alike (a'.cursor.current :: a'.cursor.rest) (next' :: rest') b.cursor := by
    obtain ⟨opening, keyword, inner, rfl, -⟩ := hpart.exists_keyword
    rw [h.before, h.behind, hcursor]
    exact ⟨rfl, rfl, ⟨keyword :: inner, rfl, rfl⟩, rfl, rfl⟩
  obtain ⟨b', hrun', hdepth', hshares', hbehind⟩ :=
    hcross next' rest' b hv hdepth hshares halike
  rw [← wholeSection_run hpart hcursor] at hrun'
  obtain ⟨-, group, -, hpasses⟩ := wholeSection_passes hv hrun'
  rw [h.behind] at hbehind
  exact ⟨b', ⟨hcursor, hv, hrun', hbehind, hpasses.valid⟩, hdepth', hshares'⟩

end

/-- Two sections of different kinds can be read in the other order, and what is declared behind both
is the same. -/
lemma exchange_sections {x x₁ x₂ y : Assembly} {kind₁ kind₂ : SectionKind} {opening : Token}
    {ts₁ ts₂ : List Token} (hc : c.Lenient)
    (hdeclares₁ : kind₁.Declares) (hdeclares₂ : kind₂.Declares) (hne : kind₁ ≠ kind₂)
    (hpart₁ : kind₁.IsSection (opening :: ts₁)) (hpart₂ : kind₂.IsSection (opening :: ts₂))
    (hopening : opening.kind ≠ .endOfInput) (hnext : next.kind ≠ .endOfInput)
    (hfirst : ReadsPart c (opening :: ts₁) opening (ts₂ ++ next :: rest) endOffset x x₁)
    (hsecond : ReadsPart c (opening :: ts₂) next rest endOffset x₁ x₂) (hv : y.cursor.Valid)
    (hcursor : y.cursor = .ofTokens (opening :: ts₂ ++ opening :: (ts₁ ++ next :: rest)) endOffset)
    (hdepth : y.depth = x.depth) (hshares : Shares (fun _ => True) x y) :
    ∃ y₁ y₂, ReadsPart c (opening :: ts₂) opening (ts₁ ++ next :: rest) endOffset y y₁ ∧
      ReadsPart c (opening :: ts₁) next rest endOffset y₁ y₂ ∧ y₂.depth = x₂.depth ∧
      Shares (fun _ => True) x₂ y₂ := by
  have hx₁ := hfirst.changes hc hdeclares₁ hpart₁ hopening
  have hx₂ := hsecond.changes hc hdeclares₂ hpart₂ hnext
  -- The second section finds its part as the first one would have left it.
  have hshares₁ : Shares (· = kind₂) x₁ y := by
    rintro kind rfl
    rw [hshares kind True.intro, hx₁.others kind hne.symm]
  obtain ⟨y₁, hfirst', hdepth₁, hsecondPart⟩ := hsecond.move hc hdeclares₂ hpart₂ hnext hv hcursor
    (hdepth.trans hx₁.depth.symm) hshares₁
  have hy₁ := hfirst'.changes hc hdeclares₂ hpart₂ hopening
  -- And the first one finds its part as it was before the second one.
  have hshares₂ : Shares (· = kind₁) x y₁ := by
    rintro kind rfl
    rw [hy₁.others kind hne, hshares kind True.intro]
  obtain ⟨y₂, hsecond', hdepth₂, hfirstPart⟩ := hfirst.move hc hdeclares₁ hpart₁ hopening
    hfirst'.valid_behind hfirst'.behind (hy₁.depth.trans hdepth) hshares₂
  have hy₂ := hsecond'.changes hc hdeclares₁ hpart₁ hnext
  refine ⟨y₁, y₂, hfirst', hsecond', hdepth₂.trans hx₂.depth.symm, fun kind _ => ?_⟩
  by_cases hkind₁ : kind = kind₁
  · subst hkind₁
    rw [hfirstPart kind rfl, hx₂.others kind hne]
  · rw [hy₂.others kind hkind₁]
    by_cases hkind₂ : kind = kind₂
    · exact hsecondPart kind hkind₂
    · rw [hy₁.others kind hkind₂, hshares kind True.intro, hx₂.others kind hkind₂,
        hx₁.others kind hkind₁]

/-- States that share everything are alike if their cursors are. -/
lemma Alike.of_shares {behind behind' : List Token}
    (hcursor : a.cursor.Alike behind behind' b.cursor) (hdepth : b.depth = a.depth)
    (hshares : Shares (fun _ => True) a b) :
    Alike True (fun _ => True) behind behind' a b :=
  ⟨⟨hcursor, hdepth, fun _ => hshares.flags True.intro⟩, hshares.declared⟩

/-- States that are alike share everything. -/
lemma Alike.shares {behind behind' : List Token}
    (h : Alike True (fun _ => True) behind behind' a b) : Shares (fun _ => True) a b :=
  fun kind _ => part_eq (fun _ => h.requirements True.intro) (h.declared kind True.intro)

/-- The tokens are two sections of different kinds, neither of which is an action. -/
def Exchangeable (first second : List Token) : Prop :=
  ∃ kind kind' : SectionKind, kind ≠ kind' ∧ (kind.Declares ∧ kind.IsSection first) ∧
    kind'.Declares ∧ kind'.IsSection second

/-- Sections can be exchanged either way. -/
lemma Exchangeable.symm {first second : List Token} (h : Exchangeable first second) :
    Exchangeable second first := by
  obtain ⟨kind, kind', hne, hfirst, hsecond⟩ := h
  exact ⟨kind', kind, hne.symm, hsecond, hfirst⟩

/-- What is read from two sections and the rest is also read from the other order. -/
lemma exchange_remainder {x x' y : Assembly} {opening : Token} {ts₁ ts₂ : List Token}
    (hc : c.Lenient)
    (hparts : Exchangeable (opening :: ts₁) (opening :: ts₂))
    (hlexemes : ∀ token ∈ opening :: (ts₁ ++ opening :: (ts₂ ++ rest)), token.word.IsLexeme)
    (hx : x.cursor = .ofTokens (opening :: (ts₁ ++ opening :: (ts₂ ++ rest))) endOffset)
    (hv : y.cursor.Valid)
    (hy : y.cursor = .ofTokens (opening :: (ts₂ ++ opening :: (ts₁ ++ rest))) endOffset)
    (hdepth : y.depth = x.depth) (hshares : Shares (fun _ => True) x y)
    (h : remainder name c x = .ok domain x') : ∃ y', remainder name c y = .ok domain y' := by
  obtain ⟨kind₁, kind₂, hne, ⟨hdeclares₁, hpart₁⟩, hdeclares₂, hpart₂⟩ := hparts
  obtain ⟨_, _, x₁, hcons, hfirst, h⟩ := section_of_remainder hc hlexemes hpart₁.group hx h
  cases hcons
  obtain ⟨next, rest, x₂, rfl, hsecond, h⟩ := section_of_remainder hc
    (fun token htoken => hlexemes token (List.mem_cons_of_mem _ (List.mem_append_right _ htoken)))
    hpart₂.group hfirst.behind h
  have hopening : opening.kind ≠ .endOfInput :=
    Cursor.kind_ne_end_of_isLexeme (hlexemes opening (by simp))
  have hnext : next.kind ≠ .endOfInput :=
    Cursor.kind_ne_end_of_isLexeme (hlexemes next (by simp))
  obtain ⟨y₁, y₂, hfirst', hsecond', hdepth₂, hshares₂⟩ := exchange_sections hc hdeclares₁
    hdeclares₂ hne hpart₁ hpart₂ hopening hnext hfirst hsecond hv hy hdepth hshares
  rw [remainder_of_section hfirst'.valid hfirst'.run,
    remainder_of_section hsecond'.valid hsecond'.run]
  have halike : Alike True (fun _ => True) [] [] x₂ y₂ := by
    refine .of_shares ?_ hdepth₂ hshares₂
    rw [hsecond.behind, hsecond'.behind]
    exact ⟨rfl, rfl, ⟨rest, by simp [Cursor.ofTokens], by simp [Cursor.ofTokens]⟩, rfl, rfl⟩
  obtain ⟨-, hrun⟩ := (confined_remainder name).run c x₂ domain x' hc hsecond.valid_behind h
  obtain ⟨y', hy', -⟩ := (hrun (List.nil_suffix)).2 y₂ hsecond'.valid_behind halike
  exact ⟨y', hy'⟩

/-! ### What comes before the sections -/

/-- Sections before a parenthesis are read whatever comes behind it. -/
lemma skip_sections {opening : Token} {behind behind' before : List Token} {x x' y : Assembly}
    (hc : c.Lenient)
    (hbehind : behind = [] → behind' = []) (hbefore : Balanced before)
    (hlexemes : ∀ token ∈ before ++ opening :: behind, token.word.IsLexeme)
    (hcursor : x.cursor = .ofTokens (before ++ opening :: behind) endOffset)
    (hv : y.cursor.Valid) (halike : Alike True (fun _ => True) behind behind' x y)
    (h : remainder name c x = .ok domain x') :
    ∃ x₁ y₁, x₁.cursor = .ofTokens (opening :: behind) endOffset ∧ y₁.cursor.Valid ∧
      Alike True (fun _ => True) behind behind' x₁ y₁ ∧ remainder name c x₁ = .ok domain x' ∧
      remainder name c y = remainder name c y₁ := by
  induction hbefore generalizing x y with
  | nil => exact ⟨x, y, hcursor, hv, halike, h, rfl⟩
  | @plain token rest hopen hclose _ _ =>
    -- A token that is not a parenthesis would be refused.
    have hcurrent : x.cursor.current = token := by
      rw [hcursor]
      rfl
    rcases remainder_cases h with hkind | ⟨x₁, hsection⟩
    · exact absurd (hcurrent ▸ hkind) hclose
    · exact absurd (hcurrent ▸ kind_of_section hsection) hopen
  | @group first last inner rest hopen hinner hclose _ _ ih =>
    have hgroup : IsGroup (first :: (inner ++ [last])) :=
      ⟨first, inner, last, rfl, hopen, hclose, hinner⟩
    have hsplit : first :: (inner ++ last :: rest) ++ opening :: behind =
        first :: (inner ++ [last]) ++ (rest ++ opening :: behind) := by simp
    rw [hsplit] at hcursor hlexemes
    obtain ⟨next, others, x₁, hrest, hreads, h⟩ := section_of_remainder hc hlexemes hgroup hcursor h
    have hbehind₁ := hreads.behind
    rw [← hrest] at hbehind₁
    have hwithin : behind <:+ x₁.cursor.rest := hbehind₁ ▸ Cursor.suffix_rest_ofTokens _ _ _ _
    obtain ⟨-, hrun⟩ := (confined_wholeSection hbehind).run c x () x₁ hc hreads.valid hreads.run
    obtain ⟨-, hrun⟩ := hrun hwithin
    obtain ⟨y₁, hsection, halike₁⟩ := hrun y hv halike
    obtain ⟨-, group, -, hpasses⟩ := wholeSection_passes hv hsection
    rw [remainder_of_section hv hsection]
    exact ih (fun token htoken => hlexemes token (List.mem_append_right _ htoken))
      hbehind₁ hpasses.valid halike₁ h

/-- The heading of a domain is read whatever comes behind some later token. -/
lemma skip_beginning {opening : Token} {heading before behind behind' : List Token}
    {x x₁ y : Assembly} (hc : c.Lenient)
    (hbehind : behind = [] → behind' = []) (hheading : heading.length = 6)
    (hlexemes : ∀ token ∈ heading ++ (before ++ opening :: behind), token.word.IsLexeme)
    (hcursor : x.cursor = .ofTokens (heading ++ (before ++ opening :: behind)) endOffset)
    (hv : y.cursor.Valid) (halike : Alike True (fun _ => True) behind behind' x y)
    (h : beginning c x = .ok name x₁) :
    x₁.cursor = .ofTokens (before ++ opening :: behind) endOffset ∧
      ∃ y₁, beginning c y = .ok name y₁ ∧ y₁.cursor.Valid ∧
        Alike True (fun _ => True) behind behind' x₁ y₁ := by
  have hx : x.cursor.Valid := hcursor ▸ Cursor.valid_ofTokens hlexemes endOffset
  obtain ⟨hreserve, front, hlength, hpasses⟩ := beginning_passes hx h
  have hupcoming : x₁.cursor.upcoming = before ++ opening :: behind := by
    have hall : x.cursor.upcoming = heading ++ (before ++ opening :: behind) := by
      rw [hcursor, Cursor.upcoming_ofTokens hlexemes]
    exact List.append_inj_right (hpasses.upcoming.symm.trans hall) (hlength.trans hheading.symm)
  obtain ⟨hkeeps, hrun⟩ := (confined_beginning hbehind).run c x name x₁ hc hx h
  have hcursor₁ : x₁.cursor = .ofTokens (before ++ opening :: behind) endOffset := by
    rw [← hupcoming]
    exact (hcursor ▸ hkeeps.toLeaves).eq_ofTokens hpasses.valid hreserve (by simp [hupcoming])
  have hwithin : behind <:+ x₁.cursor.rest := hcursor₁ ▸ Cursor.suffix_rest_ofTokens _ _ _ _
  obtain ⟨y₁, hbegin', halike₁⟩ := (hrun hwithin).2 y hv halike
  obtain ⟨-, front', -, hpasses'⟩ := beginning_passes hv hbegin'
  exact ⟨hcursor₁, y₁, hbegin', hpasses'.valid, halike₁⟩

/-- What is read from a domain is what is read behind its heading. -/
lemma skip_heading {opening : Token} {heading before behind behind' : List Token}
    {x x' y : Assembly} (hc : c.Lenient)
    (hbehind : behind = [] → behind' = []) (hheading : heading.length = 6)
    (hlexemes : ∀ token ∈ heading ++ (before ++ opening :: behind), token.word.IsLexeme)
    (hcursor : x.cursor = .ofTokens (heading ++ (before ++ opening :: behind)) endOffset)
    (hv : y.cursor.Valid) (halike : Alike True (fun _ => True) behind behind' x y)
    (h : Assembly.domain c x = .ok domain x') :
    ∃ name x₁ y₁, x₁.cursor = .ofTokens (before ++ opening :: behind) endOffset ∧
      y₁.cursor.Valid ∧ Alike True (fun _ => True) behind behind' x₁ y₁ ∧
      remainder name c x₁ = .ok domain x' ∧ Assembly.domain c y = remainder name c y₁ := by
  rw [domain_eq_remainder] at h ⊢
  obtain ⟨name, x₁, hbegin, h⟩ := Reader.bind_eq_ok.mp h
  obtain ⟨hcursor₁, y₁, hbegin', hv₁, halike₁⟩ :=
    skip_beginning hc hbehind hheading hlexemes hcursor hv halike hbegin
  exact ⟨name, x₁, y₁, hcursor₁, hv₁, halike₁, h, Reader.bind_of_ok hbegin'⟩

/-- What is read from a domain with two sections is also read if these come in the other order. -/
lemma exchange_domain {opening : Token} {heading before ts₁ ts₂ : List Token}
    (hc : c.Lenient)
    (hparts : Exchangeable (opening :: ts₁) (opening :: ts₂)) (hheading : heading.length = 6)
    (hbefore : Balanced before)
    (hlexemes : ∀ token ∈ heading ++ (before ++ opening :: (ts₁ ++ opening :: (ts₂ ++ rest))),
      token.word.IsLexeme)
    (h : Assembly.domain c (ofCursor (.ofTokens
      (heading ++ (before ++ opening :: (ts₁ ++ opening :: (ts₂ ++ rest)))) endOffset)) =
        .ok domain a') :
    ∃ b', Assembly.domain c (ofCursor (.ofTokens
      (heading ++ (before ++ opening :: (ts₂ ++ opening :: (ts₁ ++ rest)))) endOffset)) =
        .ok domain b' := by
  set behind := ts₁ ++ opening :: (ts₂ ++ rest) with hfirst
  set behind' := ts₂ ++ opening :: (ts₁ ++ rest) with hsecond
  have hbehind : behind = [] → behind' = [] := by simp [hfirst]
  have hv : (Cursor.ofTokens (heading ++ (before ++ opening :: behind')) endOffset).Valid := by
    refine Cursor.valid_ofTokens (fun token htoken => hlexemes token ?_) endOffset
    simp only [hfirst, hsecond, List.mem_append, List.mem_cons] at htoken ⊢
    tauto
  have halike : Alike True (fun _ => True) behind behind'
      (ofCursor (.ofTokens (heading ++ (before ++ opening :: behind)) endOffset))
      (ofCursor (.ofTokens (heading ++ (before ++ opening :: behind')) endOffset)) := by
    refine .of_shares ?_ rfl fun _ _ => rfl
    rw [← List.append_assoc, ← List.append_assoc]
    exact Cursor.alike_ofTokens (heading ++ before) opening behind behind' endOffset
  obtain ⟨name, x₁, y₁, hx₁, hy₁, halike₁, h, hdomain⟩ :=
    skip_heading hc hbehind hheading hlexemes rfl hv halike h
  obtain ⟨x₂, y₂, hx₂, hy₂, halike₂, h, hremainder⟩ := skip_sections hc hbehind hbefore
    (fun token htoken => hlexemes token (List.mem_append_right _ htoken)) hx₁ hy₁ halike₁ h
  rw [hdomain, hremainder]
  exact exchange_remainder hc hparts (fun token htoken => hlexemes token
    (List.mem_append_right _ (List.mem_append_right _ htoken))) hx₂ hy₂
    (halike₂.toAlike.eq_ofTokens hx₂) halike₂.depth halike₂.shares h

end Assembly

/-! ### Texts -/

open Assembly (Exchangeable SectionKind)

/-- The text ends with a closing parenthesis, which is its last token. -/
def EndsClosed (text : String) : Prop :=
  ∃ front closing, (scan text).tokens = front ++ [closing] ∧ closing.kind = .closeParen ∧
    closing.offset + 1 = text.toList.length

/-- Whether a text ends closed can be seen from its last token. -/
lemma EndsClosed.of_getLast? {text : String}
    (h : (scan text).tokens.getLast?.map (fun token => (token.kind, token.offset + 1)) =
      some (.closeParen, text.toList.length)) : EndsClosed text := by
  obtain ⟨closing, hlast, hclosing⟩ := Option.map_eq_some_iff.mp h
  obtain ⟨hkind, hoffset⟩ := Prod.mk.inj hclosing
  obtain ⟨front, htokens⟩ := List.getLast?_eq_some_iff.mp hlast
  exact ⟨front, closing, htokens, hkind, hoffset⟩

/-- The tokens of a text without their places. -/
def bareTokens (text : String) : List Token :=
  (scan text).tokens.map Disguise.unplaced.token

section

variable {text : String}

/-- A text that goes on behind its last parenthesis and blanks is scanned in two pieces. -/
lemma bareTokens_append {filler : String} (hend : EndsClosed text)
    (hfiller : IsFiller filler.toList) (more : String) :
    bareTokens (text ++ (filler ++ more)) = bareTokens text ++ bareTokens more ∧
      ((scan (text ++ (filler ++ more))).failure = none ↔ (scan more).failure = none) := by
  obtain ⟨front, closing, htokens, hkind, hoffset⟩ := hend
  have hstart : Place.start = Place.after [] := rfl
  obtain ⟨-, hpieces⟩ := Scan.run_append hstart htokens hkind
    (by rw [hoffset]; exact (Nat.zero_add _).symm) (filler.toList ++ more.toList)
  obtain ⟨place, hskip⟩ := Scan.exists_run_filler hfiller more.toList (Place.after text.toList)
  obtain ⟨hwords, hfailure⟩ := Scan.words_run_place place .start more.toList
  rw [List.nil_append, hskip] at hpieces
  have hscan : scan (text ++ (filler ++ more)) =
      ⟨(scan text).tokens ++ (Scan.run place more.toList).tokens,
        (Scan.run place more.toList).failure⟩ := by
    rw [scan, String.toList_append, String.toList_append, hpieces]
    rfl
  rw [hscan]
  refine ⟨?_, hfailure⟩
  rw [bareTokens, hscan, List.map_append]
  exact congrArg _ (Disguise.map_unplaced_token hwords)

/-- Tokens without places are lexemes. -/
lemma isLexeme_of_mem_bareTokens : ∀ token ∈ bareTokens text, token.word.IsLexeme := by
  intro token htoken
  obtain ⟨own, hown, rfl⟩ := List.mem_map.mp htoken
  have hword : (Disguise.unplaced.token own).word = own.word := rfl
  rw [hword]
  exact Scan.isLexeme_of_mem_run hown

/-- A text that can be scanned has a cursor at the first of its tokens. -/
lemma Cursor.exists_ofText_bare (hfailure : (scan text).failure = none) :
    ∃ cursor, ofText text = .ok cursor ∧
      Disguise.unplaced.cursor cursor = .ofTokens (bareTokens text) 0 := by
  unfold ofText bareTokens
  dsimp only
  rw [hfailure]
  cases (scan text).tokens with
  | nil => exact ⟨_, rfl, rfl⟩
  | cons token rest => exact ⟨_, rfl, rfl⟩

/-- Which domain is read does not depend on the places of the tokens. -/
lemma Domain.parse_eq_ok_bare {settings : Settings} {capacity : Nat} {domain : Domain}
    (hfailure : (scan text).failure = none) :
    (parse settings text capacity).result = .ok domain ↔
      ∃ a', Assembly.domain (.document settings true capacity)
        (.ofCursor (.ofTokens (bareTokens text) 0)) = .ok domain a' := by
  obtain ⟨cursor, hcursor, hbare⟩ := Cursor.exists_ofText_bare hfailure
  have hreport :=
    parse_disguised (d := Disguise.unplaced) (fun _ htype => htype) settings capacity hcursor
  rw [hbare] at hreport
  have hresult : (Disguise.unplaced.reported (rename id) (parse settings text capacity)).result =
      .ok domain ↔ (parse settings text capacity).result = .ok domain := by
    unfold Disguise.reported Disguise.result
    cases (parse settings text capacity).result with
    | ok found => simp [Except.map, Except.mapError, rename_id]
    | error failure => simp [Except.map, Except.mapError]
  rw [← hresult, show rename id = rename Disguise.unplaced.spell from rfl, hreport]
  cases Assembly.domain (.document settings true capacity)
    (.ofCursor (.ofTokens (bareTokens text) 0)) with
  | ok found a' => simp [Report.ofOutcome]
  | error failure a' => simp [Report.ofOutcome]

/-- Without places, all groups start with the same parenthesis. -/
lemma exists_bareTokens_eq (h : IsGroup (bareTokens text)) :
    ∃ ts, bareTokens text = ⟨.openParen, "(", -1, -1, 0⟩ :: ts := by
  obtain ⟨opening, inner, closing, htokens, hopen, -⟩ := h
  have hmem : opening ∈ bareTokens text := by simp [htokens]
  have hlexeme : Token.IsLexeme opening.kind opening.text.toList :=
    isLexeme_of_mem_bareTokens opening hmem
  rw [hopen] at hlexeme
  have htext : opening.text = "(" := String.toList_inj.mp hlexeme.eq_open
  obtain ⟨own, -, rfl⟩ := List.mem_map.mp hmem
  refine ⟨inner ++ [closing], htokens.trans (congrArg (· :: _) ?_)⟩
  change (⟨own.kind, own.text, -1, -1, 0⟩ : Token) = _
  rw [show own.kind = _ from hopen, show own.text = _ from htext]

end

/-- Balanced tokens are balanced in disguise. -/
lemma Balanced.map_token {ts : List Token} (d : Disguise) (h : Balanced ts) :
    Balanced (ts.map d.token) := by
  induction h with
  | nil => exact .nil
  | plain hopen hclose _ ih => exact .plain hopen hclose ih
  | group hopen _ hclose _ ihinner ihrest =>
    rw [List.map_cons, List.map_append, List.map_cons]
    exact .group hopen ihinner hclose ihrest

/-- A section is one of the same kind in disguise. -/
lemma Assembly.SectionKind.IsSection.map_token {kind : SectionKind} {part : List Token}
    (d : Disguise) (h : kind.IsSection part) : kind.IsSection (part.map d.token) := by
  obtain ⟨⟨opening, inner, closing, rfl, hopen, hclose, hinner⟩, hkeyword, hkind⟩ := h
  refine ⟨⟨d.token opening, inner.map d.token, d.token closing, by simp, hopen, hclose,
    hinner.map_token d⟩, ?_, ?_⟩
  · rw [List.getElem?_map]
    rintro _ htoken
    obtain ⟨token, hmem, rfl⟩ := Option.map_eq_some_iff.mp htoken
    exact hkeyword token hmem
  · unfold sectionKind? at hkind ⊢
    rw [List.getElem?_map, Option.bind_map, ← hkind]
    refine congrArg _ (funext fun token => ?_)
    exact congrArg SectionKind.ofKey? (d.key_token token)

/-- Two sections of a domain next to each other, in a text that is cut into pieces: the heading and
the sections before them, blanks and comments, the first section, blanks and comments again, the
second section, and whatever comes after it. -/
structure Domain.Neighbours where
  before : String
  lead : String
  first : String
  between : String
  second : String
  after : String
  heading_before : 6 ≤ (scan before).tokens.length
  sections_before : Balanced ((scan before).tokens.drop 6)
  ends_before : EndsClosed before
  filler_lead : IsFiller lead.toList
  ends_first : EndsClosed first
  filler_between : IsFiller between.toList
  ends_second : EndsClosed second
  exchangeable : Exchangeable (scan first).tokens (scan second).tokens

namespace Domain.Neighbours

/-- The text with the pieces in their order. -/
def text (n : Neighbours) : String :=
  n.before ++ (n.lead ++ (n.first ++ (n.between ++ (n.second ++ n.after))))

/-- The same pieces with the sections exchanged. -/
def swap (n : Neighbours) : Neighbours :=
  { n with
    first := n.second
    second := n.first
    ends_first := n.ends_second
    ends_second := n.ends_first
    exchangeable := n.exchangeable.symm }

/-- The tokens of the text, and whether it can be scanned. -/
lemma bareTokens_text (n : Neighbours) :
    bareTokens n.text = bareTokens n.before ++
        (bareTokens n.first ++ (bareTokens n.second ++ bareTokens n.after)) ∧
      ((scan n.text).failure = none ↔ (scan n.after).failure = none) := by
  obtain ⟨hbefore, hfailure⟩ := bareTokens_append n.ends_before n.filler_lead
    (n.first ++ (n.between ++ (n.second ++ n.after)))
  obtain ⟨hfirst, hfailure₁⟩ := bareTokens_append n.ends_first n.filler_between
    (n.second ++ n.after)
  have hempty : IsFiller "".toList := .nil
  obtain ⟨hsecond, hfailure₂⟩ := bareTokens_append n.ends_second hempty n.after
  rw [String.empty_append] at hsecond hfailure₂
  rw [text, hbefore, hfirst, hsecond, hfailure, hfailure₁, hfailure₂]
  exact ⟨rfl, Iff.rfl⟩

/-- Without places, both sections start with the same parenthesis and can be exchanged. -/
lemma exists_opening (n : Neighbours) :
    ∃ opening ts₁ ts₂, bareTokens n.first = opening :: ts₁ ∧ bareTokens n.second = opening :: ts₂ ∧
      Exchangeable (opening :: ts₁) (opening :: ts₂) := by
  obtain ⟨kind, kind', hne, ⟨hdeclares, hfirst⟩, hdeclares', hsecond⟩ := n.exchangeable
  have hpart : kind.IsSection (bareTokens n.first) := hfirst.map_token _
  have hpart' : kind'.IsSection (bareTokens n.second) := hsecond.map_token _
  obtain ⟨ts₁, hts₁⟩ := exists_bareTokens_eq hpart.group
  obtain ⟨ts₂, hts₂⟩ := exists_bareTokens_eq hpart'.group
  refine ⟨_, ts₁, ts₂, hts₁, hts₂, kind, kind', hne, ⟨hdeclares, ?_⟩, hdeclares', ?_⟩
  · rwa [← hts₁]
  · rwa [← hts₂]

/-- What is read from the text is also read with the sections exchanged. -/
lemma parse_swap_of_parse {settings : Settings} {capacity : Nat} {domain : Domain}
    (hlenient : settings.strictRequirements = false) (n : Neighbours)
    (h : (parse settings n.text capacity).result = .ok domain) :
    (parse settings n.swap.text capacity).result = .ok domain := by
  have hfailure : (scan n.text).failure = none := by
    have haccounted := parse_isAccountedFor settings n.text capacity
    rw [h] at haccounted
    exact haccounted
  obtain ⟨htokens, hscan⟩ := n.bareTokens_text
  obtain ⟨htokens', hscan'⟩ := n.swap.bareTokens_text
  have hfailure' : (scan n.swap.text).failure = none := hscan'.mpr (hscan.mp hfailure)
  have hlexemes : ∀ token ∈ bareTokens n.text, token.word.IsLexeme := isLexeme_of_mem_bareTokens
  obtain ⟨opening, ts₁, ts₂, hfirst, hsecond, hparts⟩ := n.exists_opening
  have hbefore : bareTokens n.before =
      ((scan n.before).tokens.take 6).map Disguise.unplaced.token ++
        ((scan n.before).tokens.drop 6).map Disguise.unplaced.token := by
    rw [← List.map_append, List.take_append_drop]
    rfl
  rw [parse_eq_ok_bare hfailure] at h
  rw [parse_eq_ok_bare hfailure', htokens']
  change ∃ a', Assembly.domain _ (.ofCursor (.ofTokens (bareTokens n.before ++
    (bareTokens n.second ++ (bareTokens n.first ++ bareTokens n.after))) 0)) = _
  rw [htokens, hbefore, hfirst, hsecond, List.append_assoc] at h hlexemes
  rw [hbefore, hfirst, hsecond, List.append_assoc]
  obtain ⟨a', h⟩ := h
  refine Assembly.exchange_domain ⟨by simp [Reader.Context.document], hlenient⟩ hparts ?_
    (n.sections_before.map_token _) hlexemes h
  rw [List.length_map, List.length_take, Nat.min_eq_left n.heading_before]

end Domain.Neighbours

/-- With lenient settings, two sections of different kinds that are next to each other and declare
something other than actions can be exchanged: the domain that is read, if one is, is the same
before and after. -/
theorem Domain.parse_swap (settings : Settings) (capacity : Nat)
    (hlenient : settings.strictRequirements = false) (n : Neighbours) (domain : Domain) :
    (parse settings n.text capacity).result = .ok domain ↔
      (parse settings n.swap.text capacity).result = .ok domain :=
  ⟨n.parse_swap_of_parse hlenient, n.swap.parse_swap_of_parse hlenient⟩

/-- Functions before the flag that allows them, with a comment between the sections and an action
behind them. -/
def lateFlag : Domain.Neighbours where
  before := "(define (domain d) (:predicates (p))"
  lead := "\n"
  first := "(:functions (f))"
  between := " ; allowed by\n"
  second := "(:requirements :fluents)"
  after := " (:action a :effect (increase (f) 1)))"
  heading_before := by decide +kernel
  sections_before := by
    have hgroup : IsGroup ((scan "(define (domain d) (:predicates (p))").tokens.drop 6) := by
      decide +kernel
    exact hgroup.balanced
  ends_before := .of_getLast? (by decide +kernel)
  filler_lead := .blank (by decide) .nil
  ends_first := .of_getLast? (by decide +kernel)
  filler_between := by
    have hcomment : IsFiller (';' :: (" allowed by".toList ++ ['\n'])) :=
      .comment (by decide) (.blank (by decide) .nil)
    exact .blank (by decide) hcomment
  ends_second := .of_getLast? (by decide +kernel)
  exchangeable := ⟨.functions, .requirements, by decide,
    ⟨⟨nofun, nofun⟩, by decide +kernel, by decide +kernel, by decide +kernel⟩,
    ⟨nofun, nofun⟩, by decide +kernel, by decide +kernel, by decide +kernel⟩

/-- The domain is the same with the flag before the functions. -/
theorem Domain.parse_swap_lateFlag :
    ∃ domain, (parse .lenient lateFlag.text).result = .ok domain ∧
      (parse .lenient lateFlag.swap.text).result = .ok domain := by
  have haccepted : (parse .lenient lateFlag.text).result.toOption.isSome = true := by
    decide +kernel
  obtain ⟨domain, hdomain⟩ := Option.isSome_iff_exists.mp haccepted
  have hread := Check.toOption_eq_some.mp hdomain
  exact ⟨domain, hread, (parse_swap .lenient _ rfl lateFlag domain).mp hread⟩

end Pddl
