import Pddl.Proofs.ArithmeticGate
import Pddl.Proofs.FlagLists

/-!
# Independence of flags

With lenient settings, texts that differ in the flags they list define the same domain but for these
flags, or neither defines one (`Domain.parse_flags`).  This is shown section by section
(`ReadsPart.follow`): a section of requirements is read with any flags, a section of other
declarations does not look at them, and an action looks at no more than whether arithmetic is
allowed.  There the texts may part: so where both come to arithmetic, both are to have the flag for
it or neither (`Domain.AgreeOnArithmetic`).
-/

namespace Pddl

namespace Reader

variable {c : Context} {s : State} {endOffset : Nat}

/-! ### Reading flags -/

/-- With lenient settings, a flag is read whether it is known or not. -/
lemma requirementFlag_run (hc : c.settings.strictRequirements = false) {flag : Token}
    {rest : List Token} (hcursor : s.cursor = .ofTokens (flag :: rest) endOffset)
    (hflag : isKeyword flag = true) :
    ∃ log, requirementFlag c s =
      .ok flag.key { s with cursor := .ofTokens rest endOffset, log := log } := by
  have hadvance := advance_run (c := c) hcursor (kind_of_isKeyword hflag).2.2
  rw [requirementFlag, bind_of_ok hadvance]
  split_ifs
  · obtain ⟨log, hlog⟩ := report_of_lenient hc { s with cursor := .ofTokens rest endOffset } flag
      (.unknownFlag flag.text)
    exact ⟨log, by rw [bind_of_ok hlog]; rfl⟩
  · exact ⟨s.log, rfl⟩

/-- Flags are read up to the parenthesis behind them. -/
lemma flags_run (hc : c.settings.strictRequirements = false) {flags rest : List Token}
    {closing : Token} (hflags : ∀ flag ∈ flags, isKeyword flag = true)
    (hclose : closing.kind = .closeParen) :
    ∀ (fuel : Nat) (s : State), flags.length < fuel →
      s.cursor = .ofTokens (flags ++ closing :: rest) endOffset →
      ∃ log, whileFuel isKeyword requirementFlag fuel c s = .ok (flags.map Token.key)
        { s with cursor := .ofTokens (closing :: rest) endOffset, log := log } := by
  induction flags with
  | nil =>
    intro fuel s hfuel hcursor
    obtain ⟨fuel, rfl⟩ := Nat.exists_eq_succ_of_ne_zero (Nat.ne_of_gt hfuel)
    have hkeyword : isKeyword s.cursor.current = false := by
      rw [hcursor]
      simp [isKeyword, Cursor.ofTokens, hclose]
    refine ⟨s.log, ?_⟩
    rw [whileFuel, bind_of_ok current_run, hkeyword, ← List.nil_append (closing :: rest), ← hcursor]
    rfl
  | cons flag flags ih =>
    intro fuel s hfuel hcursor
    obtain ⟨fuel, rfl⟩ := Nat.exists_eq_succ_of_ne_zero (Nat.ne_of_gt (Nat.zero_lt_of_lt hfuel))
    obtain ⟨hflag, hflags⟩ := List.forall_mem_cons.mp hflags
    rw [List.cons_append] at hcursor
    have hkeyword : isKeyword s.cursor.current = true := by
      rw [hcursor]
      exact hflag
    obtain ⟨log, hfirst⟩ := requirementFlag_run hc hcursor hflag
    obtain ⟨log', hrest⟩ := ih hflags fuel
      { s with cursor := .ofTokens (flags ++ closing :: rest) endOffset, log := log }
      (Nat.lt_of_succ_lt_succ hfuel) rfl
    refine ⟨log', ?_⟩
    rw [whileFuel, bind_of_ok current_run, if_pos hkeyword, bind_of_ok hfirst, bind_of_ok hrest]
    rfl

/-- With lenient settings, requirements are read with any flags, which they declare. -/
lemma requirements_run (hc : c.settings.strictRequirements = false) {keyword closing : Token}
    {flags rest : List Token} (hkeyword : isKeywordText ":requirements" keyword = true)
    (hflags : ∀ flag ∈ flags, isKeyword flag = true) (hclose : closing.kind = .closeParen)
    (hlexemes : ∀ token ∈ flags ++ closing :: rest, token.word.IsLexeme)
    (hcursor : s.cursor = .ofTokens (keyword :: (flags ++ closing :: rest)) endOffset) :
    ∃ log, requirements c s = .ok (Text.union [] (flags.map Token.key)) { s with
      cursor := .ofTokens rest endOffset
      requirements := Text.union s.requirements
        (Requirement.expand (Text.union [] (flags.map Token.key)))
      log := log ++ [.requirementsRead (Text.union [] (flags.map Token.key))] } := by
  let started : State := { s with cursor := .ofTokens (flags ++ closing :: rest) endOffset }
  have hstart : Reader.keyword ":requirements" c s = .ok keyword started := by
    have hcurrent : s.cursor.current = keyword := by
      rw [hcursor]
      rfl
    have hkind := (kind_of_isKeyword (Bool.and_eq_true _ _ ▸ hkeyword).1).2.2
    rw [Reader.keyword, bind_of_ok current_run, hcurrent, if_pos hkeyword]
    exact advance_run hcursor hkind
  have hunread : flags.length < started.cursor.unread + 1 := by
    rw [← Cursor.length_upcoming, Cursor.upcoming_ofTokens hlexemes, List.length_append]
    omega
  obtain ⟨log, hread⟩ := flags_run hc hflags hclose _ started hunread rfl
  have hlast : expect .closeParen "a requirement flag or ')'" c
      { started with cursor := .ofTokens (closing :: rest) endOffset, log := log } =
      .ok closing { started with cursor := .ofTokens rest endOffset, log := log } :=
    expect_eq_ok.mpr ⟨hclose, advance_run rfl (by rw [hclose]; decide)⟩
  refine ⟨log, ?_⟩
  rw [requirements, bind_of_ok hstart, readWhile, bind_assoc, bind_of_ok rounds_run,
    bind_of_ok hread, bind_of_ok hlast]
  rfl

end Reader

namespace Assembly

open Reader (Mirrors IgnoresFlags RefusesArithmetic arithmeticFlag)

variable {c : Reader.Context} {a a' b : Assembly} {kind : SectionKind} {name : String}
  {domain : Domain} {part rest tokens : List Token} {next : Token} {endOffset : Nat}

/-! ### Sections with other flags -/

/-- The states are at the same depth, and what is declared differs in the listed flags only. -/
structure Reflags (a b : Assembly) : Prop where
  depth : b.depth = a.depth
  declared : b.declared = { a.declared with requirements := b.declared.requirements }

/-- The next section comes to arithmetic in a numeric term.  With lenient settings this is the only
place where a flag that is missing stops a reader, so it is found by reading the section with no
flag in force: it is refused there. -/
def ReachesArithmetic (c : Reader.Context) (a : Assembly) : Prop :=
  RefusesArithmetic (wholeSection c { a with requirements := [] })

/-- If the next sections of both come to arithmetic, the flag for it is in force in both or in
neither. -/
def AgreeAtArithmetic (c : Reader.Context) (a b : Assembly) : Prop :=
  ReachesArithmetic c a → ReachesArithmetic c b →
    (arithmeticFlag ∈ a.requirements ↔ arithmeticFlag ∈ b.requirements)

/-- All parts but the requirements are the same. -/
lemma Reflags.shares (h : a.Reflags b) : Shares (· ≠ .requirements) a b := by
  refine fun kind hkind => part_eq (fun heq => absurd heq hkind) ?_
  rw [h.declared]
  cases kind with
  | requirements => exact absurd rfl hkind
  | _ => rfl

/-- States with the same parts differ in flags only. -/
lemma Reflags.of_shares (hdepth : b.depth = a.depth) (hshares : Shares (· ≠ .requirements) a b) :
    a.Reflags b := by
  refine ⟨hdepth, Declarations.eq_of_only fun kind => ?_⟩
  by_cases hkind : kind = .requirements
  · subst hkind
    rfl
  · have hsame := hshares.declared kind hkind
    cases kind with
    | requirements => exact absurd rfl hkind
    | _ => exact hsame

/-- A section that is read consists of its keyword and balanced tokens in parentheses, and has the
effect that these tell. -/
lemma ReadsPart.exists_effect (hlexemes : ∀ token ∈ part ++ next :: rest, token.word.IsLexeme)
    (h : ReadsPart c part next rest endOffset a a') :
    ∃ kind opening keyword inner closing, part = opening :: keyword :: (inner ++ [closing]) ∧
      opening.kind = .openParen ∧ Reader.isKeyword keyword = true ∧
      SectionKind.ofKey? keyword.key = some kind ∧ Balanced inner ∧ closing.kind = .closeParen ∧
      SectionEffect (inner ++ [closing]) a.declared kind a'.declared := by
  obtain ⟨opening, s₁, kind, hopen, hconsumes, hkeyword, hkind, hrun⟩ := section_eq_ok h.valid h.run
  obtain ⟨tokens, hpasses, ⟨inner, closing, rfl, hinner, hclose⟩, heffect⟩ :=
    sectionOf_reads hconsumes.valid hkeyword hrun
  have hpassed := (hconsumes.passes.trans hpasses).upcoming
  rw [h.before, h.behind, Cursor.upcoming_ofTokens hlexemes,
    Cursor.upcoming_ofTokens fun token htoken => hlexemes token (List.mem_append_right _ htoken)]
    at hpassed
  exact ⟨kind, opening, _, inner, closing, List.append_cancel_right hpassed, hopen, hkeyword, hkind,
    hinner, hclose, heffect⟩

/-- The tokens of a section and those behind it. -/
lemma section_append {opening keyword closing : Token} (inner behind : List Token) :
    opening :: keyword :: (inner ++ [closing]) ++ behind =
      opening :: keyword :: (inner ++ closing :: behind) := by
  simp

/-- A keyword and balanced tokens in parentheses are a section. -/
lemma SectionKind.IsSection.of_keyword {opening keyword closing : Token} {inner : List Token}
    (hopen : opening.kind = .openParen) (hkeyword : Reader.isKeyword keyword = true)
    (hkind : ofKey? keyword.key = some kind) (hinner : Balanced inner)
    (hclose : closing.kind = .closeParen) :
    kind.IsSection (opening :: keyword :: (inner ++ [closing])) := by
  obtain ⟨hne, hne', -⟩ := Reader.kind_of_isKeyword hkeyword
  refine ⟨⟨opening, keyword :: inner, closing, rfl, hopen, hclose, .plain hne hne' hinner⟩, ?_,
    hkind⟩
  rintro token ⟨⟩
  exact hkeyword

/-- One keyword starts the sections of requirements. -/
lemma SectionKind.key_of_requirements {key : String} (h : ofKey? key = some requirements) :
    key = ":requirements" := by
  unfold ofKey? at h
  split at h <;> cases h
  rfl

/-- With lenient settings, a section of requirements is read with any flags, which it lists. -/
lemma requirementsSection_run (hc : c.settings.strictRequirements = false)
    {opening keyword closing : Token} {flags : List Token} (hopen : opening.kind = .openParen)
    (hkeyword : Reader.isKeyword keyword = true)
    (hkind : SectionKind.ofKey? keyword.key = some .requirements)
    (hflags : ∀ flag ∈ flags, Reader.isKeyword flag = true) (hclose : closing.kind = .closeParen)
    (hlexemes : ∀ token ∈ flags ++ closing :: rest, token.word.IsLexeme)
    (hcursor : a.cursor = .ofTokens (opening :: keyword :: (flags ++ closing :: rest)) endOffset) :
    ∃ log, wholeSection c a = .ok () (listFlags (Text.union [] (flags.map Token.key))
      { a with cursor := .ofTokens rest endOffset, log := log }) := by
  have hpart : SectionKind.requirements.IsSection (opening :: keyword :: (flags ++ [closing])) :=
    .of_keyword hopen hkeyword hkind (Reader.balanced_flags hflags) hclose
  let behind := keyword :: (flags ++ closing :: rest)
  have hopened : ofReader Reader.openParen c a =
      .ok opening { a with cursor := .ofTokens behind endOffset } := by
    have hkind : a.cursor.current.kind = .openParen := by
      rw [hcursor]
      exact hopen
    exact ofReader_eq_ok.mpr ⟨_, Reader.expect_eq_ok.mpr
      ⟨hkind, Reader.advance_run hcursor (by rw [hopen]; decide)⟩, rfl⟩
  have hstarts : Reader.isKeywordText ":requirements" keyword = true := by
    rw [Reader.isKeywordText, hkeyword, SectionKind.key_of_requirements hkind]
    decide
  obtain ⟨log, hread⟩ := Reader.requirements_run
    (s := { a.toState with cursor := .ofTokens behind endOffset }) hc hstarts hflags hclose
    hlexemes rfl
  refine ⟨log, ?_⟩
  rw [wholeSection_run hpart (hcursor.trans (by rw [section_append])), Reader.bind_of_ok hopened]
  change (ofReader Reader.requirements >>= fun listed => declare fun declared =>
    { declared with requirements := Text.union declared.requirements listed }) c _ = _
  rw [Reader.bind_of_ok (ofReader_eq_ok.mpr ⟨_, hread, rfl⟩)]
  rfl

/-- A section of requirements can list other flags. -/
lemma ReadsPart.list {opening keyword closing : Token} {flags flags' rest' : List Token}
    (hc : c.Lenient) (hopen : opening.kind = .openParen)
    (hkeyword : Reader.isKeyword keyword = true)
    (hkind : SectionKind.ofKey? keyword.key = some .requirements)
    (hflags : ∀ flag ∈ flags, Reader.isKeyword flag = true)
    (hflags' : ∀ flag ∈ flags', Reader.isKeyword flag = true) (hclose : closing.kind = .closeParen)
    (hlexemes : ∀ token ∈ flags ++ closing :: next :: rest, token.word.IsLexeme)
    (hlexemes' : ∀ token ∈ flags' ++ closing :: next :: rest', token.word.IsLexeme)
    (h : ReadsPart c (opening :: keyword :: (flags ++ [closing])) next rest endOffset a a')
    (hcursor : b.cursor = .ofTokens (opening :: keyword :: (flags' ++ closing :: next :: rest'))
      endOffset) (hv : b.cursor.Valid) (hreflags : a.Reflags b) :
    ∃ b', ReadsPart c (opening :: keyword :: (flags' ++ [closing])) next rest' endOffset b b' ∧
      a'.Reflags b' := by
  obtain ⟨log, hrun⟩ := requirementsSection_run hc.settings hopen hkeyword hkind hflags hclose
    hlexemes (h.before.trans (by rw [section_append]))
  obtain ⟨log', hrun'⟩ := requirementsSection_run hc.settings hopen hkeyword hkind hflags' hclose
    hlexemes' hcursor
  have hbehind : (Cursor.ofTokens (next :: rest') endOffset).Valid :=
    Cursor.valid_ofTokens (fun token htoken => hlexemes' token
      (List.mem_append_right _ (List.mem_cons_of_mem _ htoken))) endOffset
  refine ⟨_, ⟨hcursor.trans (by rw [section_append]), hv, hrun', rfl, hbehind⟩, ?_⟩
  rw [h.run] at hrun
  cases hrun
  refine ⟨hreflags.depth, ?_⟩
  dsimp only [listFlags]
  rw [hreflags.declared]

/-- A section of other declarations does not look at the flags. -/
lemma ReadsPart.ignore {rest' : List Token} (hc : c.Lenient) (hdeclares : kind.Declares)
    (hne : kind ≠ .requirements) (hpart : kind.IsSection part) (hnext : next.kind ≠ .endOfInput)
    (h : ReadsPart c part next rest endOffset a a')
    (hcursor : b.cursor = .ofTokens (part ++ next :: rest') endOffset) (hv : b.cursor.Valid)
    (hreflags : a.Reflags b) :
    ∃ b', ReadsPart c part next rest' endOffset b b' ∧ a'.Reflags b' := by
  have hshares : Shares (· = kind) a b := by
    rintro kind rfl
    exact hreflags.shares kind hne
  obtain ⟨b', h', hdepth, hshares'⟩ :=
    h.move hc hdeclares hpart hnext hv hcursor hreflags.depth hshares
  have hchanges := h.changes hc hdeclares hpart hnext
  have hchanges' := h'.changes hc hdeclares hpart hnext
  refine ⟨b', h', .of_shares hdepth fun other hother => ?_⟩
  by_cases hkind : other = kind
  · exact hshares' other hkind
  · rw [hchanges'.others other hkind, hreflags.shares other hother, hchanges.others other hkind]

/-- A section of actions is the reader of an action, which is then added. -/
lemma actionSection_run {reader : ReadM Action}
    (hreader : sectionOf kind = ofReader reader >>= addAction) (hpart : kind.IsSection part)
    (hcursor : a.cursor = .ofTokens (part ++ rest) endOffset) :
    wholeSection c a =
      (ofReader (Reader.openParen >>= fun _ => reader) >>= addAction) c a := by
  rw [wholeSection_run hpart hcursor, hreader, ofReader_bind, bind_assoc]

/-- Where the reader of an action is refused for want of any flag, its section comes to
arithmetic. -/
lemma reachesArithmetic_of_refuses {reader : ReadM Action}
    (hreader : sectionOf kind = ofReader reader >>= addAction) (hpart : kind.IsSection part)
    (hcursor : a.cursor = .ofTokens (part ++ rest) endOffset)
    (h : RefusesArithmetic
      ((Reader.openParen >>= fun _ => reader) c { a.toState with requirements := [] })) :
    ReachesArithmetic c a := by
  obtain ⟨error, s', hrun, hcause⟩ := h
  have hlift : ofReader (Reader.openParen >>= fun _ => reader) c { a with requirements := [] } =
      .error (.grammar error) { a with toState := s' } := lift_of_error hrun
  refine ⟨error, { a with toState := s' }, ?_, hcause⟩
  rw [actionSection_run (a := { a with requirements := [] }) hreader hpart hcursor,
    Reader.bind_of_error hlift]

/-- An action looks at the flags where it comes to arithmetic only. -/
lemma ReadsPart.act {rest' : List Token} {reader : ReadM Action} (hc : c.Lenient)
    (hreader : sectionOf kind = ofReader reader >>= addAction)
    (hpasses : ∀ {R : ∀ {α : Type}, ReadM α → Prop}, Reader.Expressive R → R reader)
    (hpart : kind.IsSection part) (hbehind : rest = [] → rest' = [])
    (h : ReadsPart c part next rest endOffset a a')
    (hcursor : b.cursor = .ofTokens (part ++ next :: rest') endOffset) (hv : b.cursor.Valid)
    (hreflags : a.Reflags b) (hagree : AgreeAtArithmetic c a b) :
    ∃ b', ReadsPart c part next rest' endOffset b b' ∧ a'.Reflags b' := by
  have hR := Reader.confined_compositional hbehind
  have hI := Reader.ignoresFlags_descending.expressive Reader.ignoresFlags_budget
  set m := Reader.openParen >>= fun _ => reader with hm
  have hignores : IgnoresFlags m := hI.bind (hI.expect _ _) fun _ => hpasses hI
  have hmirrors : Mirrors (Reader.State.confinement True rest rest') m :=
    hR.bind (hR.expect _ _) fun _ => hpasses hR.toExpressive
  have hrun := (actionSection_run hreader hpart h.before).symm.trans h.run
  obtain ⟨action, a₁, haction, hadd⟩ := Reader.bind_eq_ok.mp hrun
  obtain ⟨s₁, hread, rfl⟩ := ofReader_eq_ok.mp haction
  obtain ⟨hcheck, rfl⟩ := addAction_eq_ok.mp hadd
  have halike : a.cursor.Alike rest rest' b.cursor := by
    rw [h.before, hcursor]
    exact Cursor.alike_ofTokens part next rest rest' endOffset
  have hlast : rest <:+ s₁.cursor.rest := by
    have hcursor₁ : s₁.cursor = .ofTokens (next :: rest) endOffset := h.behind
    exact hcursor₁ ▸ Cursor.suffix_rest_ofTokens [] next rest endOffset
  rcases hignores.reads_or_refuses hmirrors hc h.valid hread hlast (t := b.toState) hv halike
    hreflags.depth with ⟨t₁, hread', halike₁, hdepth₁⟩ | ⟨hin, hout, hrefused, hrefused'⟩
  · have hcheck' : Check.actionReferences b.declared.types b.declared.predicates
        b.declared.functions action = .ok () := by
      rw [hreflags.declared]
      exact hcheck
    have hrun' : wholeSection c b = .ok () _ :=
      (actionSection_run hreader hpart hcursor).trans (Reader.bind_eq_ok.mpr
        ⟨action, { b with toState := t₁ }, ofReader_eq_ok.mpr ⟨t₁, hread', rfl⟩,
          addAction_eq_ok.mpr ⟨hcheck', rfl⟩⟩)
    obtain ⟨-, group, -, hpassed⟩ := wholeSection_passes hv hrun'
    refine ⟨_, ⟨hcursor, hv, hrun', halike₁.eq_ofTokens h.behind, hpassed.valid⟩, hdepth₁, ?_⟩
    dsimp only
    rw [hreflags.declared]
  · -- Both come to arithmetic, so the flag is in force in both.
    have hreaches := reachesArithmetic_of_refuses hreader hpart h.before hrefused
    have hreaches' := reachesArithmetic_of_refuses hreader hpart hcursor hrefused'
    exact absurd ((hagree hreaches hreaches').mp hin) hout

/-! ### Sections one after the other -/

/-- A section of one text has a section of the other text beside it, with at most other flags. -/
lemma ReadsPart.follow (hc : c.Lenient)
    (hlexemes : ∀ token ∈ part ++ next :: rest, token.word.IsLexeme)
    (hlexemes' : ∀ token ∈ tokens, token.word.IsLexeme)
    (h : ReadsPart c part next rest endOffset a a')
    (hcursor : b.cursor = .ofTokens tokens endOffset)
    (hsame : SameUpToFlags .between (part ++ next :: rest) tokens) (hreflags : a.Reflags b)
    (hagree : AgreeAtArithmetic c a b) :
    ∃ part' rest' b', tokens = part' ++ next :: rest' ∧
      SameUpToFlags .between (next :: rest) (next :: rest') ∧
      ReadsPart c part' next rest' endOffset b b' ∧ a'.Reflags b' := by
  have hv : b.cursor.Valid := hcursor ▸ Cursor.valid_ofTokens hlexemes' endOffset
  have hnext : next.kind ≠ .endOfInput := Cursor.kind_ne_end_of_isLexeme (hlexemes next (by simp))
  obtain ⟨kind, opening, keyword, inner, closing, rfl, hopen, hkeyword, hkind, hinner, hclose,
    heffect⟩ := h.exists_effect hlexemes
  have hpart : kind.IsSection (opening :: keyword :: (inner ++ [closing])) :=
    .of_keyword hopen hkeyword hkind hinner hclose
  rw [section_append] at hsame
  by_cases hrequirements : kind = .requirements
  · subst hrequirements
    obtain ⟨flags, last, htokens, hflags⟩ := heffect.exists_flags
    obtain ⟨rfl, -⟩ := List.append_inj' htokens rfl
    obtain ⟨flags', tokens', rfl, hflags', hrest⟩ :=
      hsame.requirementsSection hopen hkeyword hkind hflags hclose
    obtain ⟨rest', rfl, -⟩ := hrest.cons rfl
    obtain ⟨b', h', hreflags'⟩ := h.list hc hopen hkeyword hkind hflags hflags' hclose
      (fun token htoken => hlexemes token (by rw [section_append]; simp_all))
      (fun token htoken => hlexemes' token (by simp_all)) hcursor hv hreflags
    exact ⟨_, rest', b', (section_append _ _).symm, hrest, h', hreflags'⟩
  · have hother : SectionKind.ofKey? keyword.key ≠ some .requirements := by
      rw [hkind]
      simpa using hrequirements
    obtain ⟨tokens', rfl, hrest⟩ := hsame.sameSection hopen hkeyword hother hinner hclose
    obtain ⟨rest', rfl, hbehind⟩ := hrest.cons rfl
    have hnil : rest = [] → rest' = [] := by
      rintro rfl
      exact hbehind.nil Zone.listsFlags_next_between
    rw [← section_append] at hcursor
    obtain ⟨b', h', hreflags'⟩ : ∃ b', ReadsPart c (opening :: keyword :: (inner ++ [closing])) next
        rest' endOffset b b' ∧ a'.Reflags b' := by
      cases kind with
      | requirements => exact absurd rfl hrequirements
      | action =>
        exact h.act hc rfl (fun hR => hR.action) hpart hnil hcursor hv hreflags hagree
      | durativeAction =>
        exact h.act hc rfl (fun hR => hR.durativeAction) hpart hnil hcursor hv hreflags hagree
      | _ => exact h.ignore hc ⟨by decide, by decide⟩ (by decide) hpart hnext hcursor hv hreflags
    exact ⟨_, rest', b', (section_append _ _).symm, hrest, h', hreflags'⟩

/-- A domain that ends here ends in the other text as well, with at most other flags. -/
lemma remainder_close {closing : Token} (hc : c.Lenient) (hclose : closing.kind = .closeParen)
    (hv : a.cursor.Valid) (hcursor : a.cursor = .ofTokens (closing :: rest) endOffset)
    (hcursor' : b.cursor = .ofTokens (closing :: rest) endOffset) (hreflags : a.Reflags b)
    (h : remainder name c a = .ok domain a') :
    ∃ domain' b', remainder name c b = .ok domain' b' ∧
      domain' = { domain with requirements := domain'.requirements } := by
  have hR := Reader.confined_flat (id : ([] : List Token) = [] → _) False
  have hdone (a : Assembly) (ha : a.cursor = .ofTokens (closing :: rest) endOffset) :
      repeatWhile (Reader.hasKind .openParen) wholeSection c a = .ok () a := by
    have htest : ¬ Reader.hasKind .openParen a.cursor.current = true := by
      rw [ha]
      simp [Reader.hasKind, Cursor.ofTokens, hclose]
    rw [repeatWhile_run, if_neg htest]
    rfl
  obtain ⟨u, a₁, hloop, h⟩ := Reader.bind_eq_ok.mp h
  rw [hdone a hcursor] at hloop
  cases hloop
  obtain ⟨last, a₂, hlast, h⟩ := Reader.bind_eq_ok.mp h
  obtain ⟨u', a₃, hend, hconclude⟩ := Reader.bind_eq_ok.mp h
  obtain ⟨s₂, hexpect, rfl⟩ := ofReader_eq_ok.mp hlast
  obtain ⟨s₃, hrest, rfl⟩ := ofReader_eq_ok.mp hend
  have halike : Reader.State.Alike False [] [] a.toState b.toState := by
    refine ⟨?_, hreflags.depth, False.elim⟩
    rw [hcursor, hcursor']
    exact ⟨rfl, rfl, ⟨rest, by simp [Cursor.ofTokens], by simp [Cursor.ofTokens]⟩, rfl, rfl⟩
  have hmirrors := hR.bind (hR.expect .closeParen "'(' opening a section or ')'") fun _ =>
    hR.endOfDocument
  have hvb : b.cursor.Valid := hcursor' ▸ hcursor ▸ hv
  obtain ⟨-, hrun⟩ := hmirrors.run c a.toState () s₃ hc hv
    (Reader.bind_eq_ok.mpr ⟨last, s₂, hexpect, hrest⟩)
  obtain ⟨t₃, hrun₃, -⟩ := (hrun (List.nil_suffix)).2 b.toState hvb halike
  obtain ⟨last', t₂, hexpect', hrest'⟩ := Reader.bind_eq_ok.mp hrun₃
  obtain ⟨types, htypes, rfl, hcheck, -⟩ := conclude_eq_ok.mp hconclude
  have htypes' : TypeHierarchy.ofDeclarationsValid b.declared.typeDeclarations = .ok types := by
    rw [hreflags.declared]
    exact htypes
  have hdomain : ({ b.declared with types := types } : Declarations).toDomain name =
      { ({ a.declared with types := types } : Declarations).toDomain name with
        requirements := b.declared.requirements } := by
    rw [hreflags.declared]
    rfl
  refine ⟨_, _, Reader.bind_eq_ok.mpr ⟨(), b, hdone b hcursor', Reader.bind_eq_ok.mpr
    ⟨last', _, ofReader_eq_ok.mpr ⟨t₂, hexpect', rfl⟩, Reader.bind_eq_ok.mpr
      ⟨(), _, ofReader_eq_ok.mpr ⟨t₃, hrest', rfl⟩, conclude_eq_ok.mpr
        ⟨types, htypes', rfl, ?_, rfl⟩⟩⟩⟩, hdomain⟩
  rw [hdomain]
  exact hcheck

/-- Reads so many sections. -/
def wholeSections : Nat → AssembleM Unit
  | 0 => return ()
  | n + 1 => do
    wholeSection
    wholeSections n

/-- Some sections and then some more. -/
lemma wholeSections_add (m n : Nat) :
    wholeSections (m + n) = wholeSections m >>= fun _ => wholeSections n := by
  induction m with
  | zero => rw [Nat.zero_add, wholeSections, pure_bind]
  | succ m ih => rw [Nat.succ_add, wholeSections, wholeSections, ih, bind_assoc]

/-- Wherever both runs have read equally many sections, they agree at arithmetic. -/
def AgreeFrom (c : Reader.Context) (a b : Assembly) : Prop :=
  ∀ n a₁ b₁, wholeSections n c a = .ok () a₁ → wholeSections n c b = .ok () b₁ →
    AgreeAtArithmetic c a₁ b₁

/-- Runs that agree from some states on agree at these. -/
lemma AgreeFrom.now (h : AgreeFrom c a b) : AgreeAtArithmetic c a b :=
  h 0 a b rfl rfl

/-- Runs that agree from some states on agree after one more section of each. -/
lemma AgreeFrom.later {b' : Assembly} (h : AgreeFrom c a b) (ha : wholeSection c a = .ok () a')
    (hb : wholeSection c b = .ok () b') : AgreeFrom c a' b' :=
  fun n a₁ b₁ ha₁ hb₁ =>
    h (n + 1) a₁ b₁ ((Reader.bind_of_ok ha).trans ha₁) ((Reader.bind_of_ok hb).trans hb₁)

/-- What is read from sections is read from the same sections with other flags, but for these
flags. -/
lemma remainder_follow {tokens' : List Token} (hc : c.Lenient)
    (hlexemes : ∀ token ∈ tokens, token.word.IsLexeme)
    (hlexemes' : ∀ token ∈ tokens', token.word.IsLexeme)
    (ha : a.cursor = .ofTokens tokens endOffset) (hb : b.cursor = .ofTokens tokens' endOffset)
    (hsame : SameUpToFlags .between tokens tokens') (hreflags : a.Reflags b)
    (hagree : AgreeFrom c a b) (h : remainder name c a = .ok domain a') :
    ∃ domain' b', remainder name c b = .ok domain' b' ∧
      domain' = { domain with requirements := domain'.requirements } := by
  -- Each section is at least one token, so the induction is on the number of tokens.
  induction hlength : tokens.length using Nat.strong_induction_on
    generalizing tokens tokens' a b with
  | _ length ih =>
  have hv : a.cursor.Valid := ha ▸ Cursor.valid_ofTokens hlexemes endOffset
  rcases remainder_cases h with hclose | ⟨a₁, hsection⟩
  · cases tokens with
    | nil =>
      rw [ha] at hclose
      cases hclose
    | cons closing rest =>
      rw [ha] at hclose
      exact remainder_close hc hclose hv ha (hsame.close hclose ▸ hb) hreflags h
  · obtain ⟨-, part, hpart, hpasses⟩ := wholeSection_passes hv hsection
    have hupcoming := hpasses.upcoming
    rw [ha, Cursor.upcoming_ofTokens hlexemes] at hupcoming
    rw [hupcoming] at ha hlexemes hsame
    obtain ⟨next, rest, a₂, hrest, hreads, h⟩ := section_of_remainder hc hlexemes hpart ha h
    rw [hrest] at hupcoming hlexemes hsame
    obtain ⟨part', rest', b₂, rfl, hsame', hreads', hreflags'⟩ :=
      hreads.follow hc hlexemes hlexemes' hb hsame hreflags hagree.now
    have hshorter : (next :: rest).length < length := by
      rw [← hlength, hupcoming, List.length_append]
      have := List.length_pos_iff.mpr hpart.ne_nil
      omega
    rw [remainder_of_section hreads'.valid hreads'.run]
    exact ih _ hshorter (fun token htoken => hlexemes token (List.mem_append_right _ htoken))
      (fun token htoken => hlexemes' token (List.mem_append_right _ htoken)) hreads.behind
      hreads'.behind hsame' hreflags' (hagree.later hreads.run hreads'.run) h rfl

/-! ### Documents -/

/-- Reads the heading of a domain and so many of its sections. -/
def firstSections (n : Nat) : AssembleM Unit := do
  let _ ← beginning
  wholeSections n

/-- What is read from the tokens of a domain is read from the same tokens with other flags, but for
these flags. -/
lemma domain_follow {tokens' : List Token} (hc : c.Lenient)
    (hlexemes : ∀ token ∈ tokens, token.word.IsLexeme)
    (hlexemes' : ∀ token ∈ tokens', token.word.IsLexeme)
    (hheading : tokens.take 6 = tokens'.take 6)
    (hsame : SameUpToFlags .between (tokens.drop 6) (tokens'.drop 6))
    (hagree : ∀ n a₁ b₁, firstSections n c (ofCursor (.ofTokens tokens endOffset)) = .ok () a₁ →
      firstSections n c (ofCursor (.ofTokens tokens' endOffset)) = .ok () b₁ →
      AgreeAtArithmetic c a₁ b₁)
    (h : Assembly.domain c (ofCursor (.ofTokens tokens endOffset)) = .ok domain a') :
    ∃ domain' b', Assembly.domain c (ofCursor (.ofTokens tokens' endOffset)) = .ok domain' b' ∧
      domain' = { domain with requirements := domain'.requirements } := by
  rw [domain_eq_remainder] at h ⊢
  obtain ⟨name, a₁, hbegin, hremainder⟩ := Reader.bind_eq_ok.mp h
  have hv : (Cursor.ofTokens tokens endOffset).Valid := Cursor.valid_ofTokens hlexemes endOffset
  have hv' : (Cursor.ofTokens tokens' endOffset).Valid := Cursor.valid_ofTokens hlexemes' endOffset
  obtain ⟨-, heading, hlength, hpasses⟩ :=
    beginning_passes (a := ofCursor (.ofTokens tokens endOffset)) hv hbegin
  obtain ⟨next, rest, hrest⟩ :=
    List.exists_cons_of_ne_nil (upcoming_ne_nil_of_remainder hpasses.valid hremainder)
  obtain rfl : tokens = heading ++ next :: rest := by
    rw [← hrest, ← hpasses.upcoming]
    exact (Cursor.upcoming_ofTokens hlexemes endOffset).symm
  rw [List.take_left' hlength] at hheading
  rw [List.drop_left' hlength] at hsame
  obtain ⟨rest', hdrop, hbehind⟩ := hsame.cons rfl
  obtain rfl : tokens' = heading ++ next :: rest' := by
    rw [hheading, ← hdrop, List.take_append_drop]
  rw [hdrop] at hsame
  have hnil : rest = [] → rest' = [] := by
    rintro rfl
    exact hbehind.nil Zone.listsFlags_next_between
  have halike : Alike True (fun _ => True) rest rest'
      (ofCursor (.ofTokens (heading ++ next :: rest) endOffset))
      (ofCursor (.ofTokens (heading ++ next :: rest') endOffset)) :=
    .of_shares (Cursor.alike_ofTokens heading next rest rest' endOffset) rfl fun _ _ => rfl
  have hstart : (ofCursor (.ofTokens (heading ++ next :: rest) endOffset)).cursor =
      .ofTokens (heading ++ ([] ++ next :: rest)) endOffset := rfl
  obtain ⟨hcursor₁, b₁, hbegin', -, halike₁⟩ :=
    skip_beginning hc hnil hlength hlexemes hstart hv' halike hbegin
  rw [List.nil_append] at hcursor₁
  have hreflags : a₁.Reflags b₁ :=
    .of_shares halike₁.depth fun kind _ => halike₁.shares kind True.intro
  have hfrom : AgreeFrom c a₁ b₁ := fun n a₂ b₂ ha₂ hb₂ =>
    hagree n a₂ b₂ ((Reader.bind_of_ok hbegin).trans ha₂) ((Reader.bind_of_ok hbegin').trans hb₂)
  rw [Reader.bind_of_ok hbegin']
  exact remainder_follow hc (fun token htoken => hlexemes token (List.mem_append_right _ htoken))
    (fun token htoken => hlexemes' token (List.mem_append_right _ htoken)) hcursor₁
    (halike₁.toAlike.eq_ofTokens hcursor₁) hsame hreflags hfrom hremainder

end Assembly

/-! ### Places -/

namespace Disguise

variable (d : Disguise)

/-- Reading a section with its parentheses. -/
lemma wholeSection : d.Assembles id Assembly.wholeSection Assembly.wholeSection :=
  (d.ofReader (d.expect _ _)).bind fun _ => d.anySection

/-- Reading the heading of a domain and so many sections. -/
lemma firstSections (n : Nat) :
    d.Assembles id (Assembly.firstSections n) (Assembly.firstSections n) := by
  have hsections (n : Nat) :
      d.Assembles id (Assembly.wholeSections n) (Assembly.wholeSections n) := by
    induction n with
    | zero => exact Commutes.pure rfl
    | succ n ih => exact d.wholeSection.andThen fun _ => ih
  have hbeginning : d.Assembles d.spell Assembly.beginning Assembly.beginning := by
    refine (d.ofReader (d.header _ _)).bind fun name => ?_
    exact (d.ofReader (d.note (.domainStarted name))).andThen fun _ => Commutes.pure rfl
  exact hbeginning.bind fun _ => hsections n

/-- Tokens in disguise come to arithmetic only where the tokens themselves do. -/
lemma reachesArithmetic_of_assembly {c : Reader.Context} {a : Assembly}
    (h : Assembly.ReachesArithmetic c (d.assembly a)) : Assembly.ReachesArithmetic c a := by
  obtain ⟨error, a', hrun, hcause⟩ := h
  have hsame := d.wholeSection c { a with requirements := [] }
  change Assembly.wholeSection c { d.assembly a with requirements := [] } = _ at hsame
  rw [hrun] at hsame
  cases hplain : Assembly.wholeSection c { a with requirements := [] } with
  | ok u a₁ =>
    rw [hplain] at hsame
    cases hsame
  | error failure a₁ =>
    rw [hplain] at hsame
    cases failure with
    | grammar plain =>
      cases hsame
      refine ⟨plain, a₁, hplain, ?_⟩
      have hrenamed : plain.cause.rename d.spell = .arithmeticUndeclared := hcause
      cases hfound : plain.cause <;> rw [hfound] at hrenamed <;> cases hrenamed
    | _ => cases hsame

end Disguise

/-! ### Texts -/

namespace Domain

/-- Wherever the readers of both texts have read the heading and equally many sections and come to
arithmetic in the next one, the flag for it is in force in both or in neither. -/
def AgreeOnArithmetic (settings : Settings) (text text' : String) (capacity : Nat) : Prop :=
  ∀ cursor cursor', Cursor.ofText text = .ok cursor → Cursor.ofText text' = .ok cursor' →
    ∀ n a b,
      Assembly.firstSections n (.document settings true capacity) (.ofCursor cursor) = .ok () a →
      Assembly.firstSections n (.document settings true capacity) (.ofCursor cursor') = .ok () b →
      Assembly.AgreeAtArithmetic (.document settings true capacity) a b

variable {settings : Settings} {text text' : String} {capacity : Nat}

/-- It does not matter which of the texts is the first. -/
lemma AgreeOnArithmetic.symm (h : AgreeOnArithmetic settings text text' capacity) :
    AgreeOnArithmetic settings text' text capacity :=
  fun cursor cursor' hcursor hcursor' n a b ha hb hreaches hreaches' =>
    (h cursor' cursor hcursor' hcursor n b a hb ha hreaches' hreaches).symm

/-- Is arithmetic allowed after the heading and so many sections, if these can be read? -/
def allowsArithmetic? (settings : Settings) (text : String) (capacity n : Nat) : Option Bool :=
  match Cursor.ofText text with
  | .error _ => none
  | .ok cursor =>
    match Assembly.firstSections n (.document settings true capacity) (.ofCursor cursor) with
    | .error _ _ => none
    | .ok _ a => some (a.requirements.contains Reader.arithmeticFlag)

/-- The readers agree if arithmetic is allowed in both texts or in neither after each of their
sections. -/
lemma AgreeOnArithmetic.of_allows (limit : Nat)
    (hend : allowsArithmetic? settings text capacity limit = none)
    (h : ∀ n < limit, allowsArithmetic? settings text capacity n =
      allowsArithmetic? settings text' capacity n) :
    AgreeOnArithmetic settings text text' capacity := by
  intro cursor cursor' hcursor hcursor' n a b ha hb _ _
  by_cases hn : n < limit
  · have hsame := h n hn
    simp only [allowsArithmetic?, hcursor, hcursor', ha, hb, Option.some.injEq] at hsame
    rw [← List.contains_iff_mem, ← List.contains_iff_mem, hsame]
  · -- No more sections can be read than there are.
    obtain ⟨more, rfl⟩ := Nat.exists_eq_add_of_le (Nat.not_lt.mp hn)
    rw [Assembly.firstSections, Assembly.wholeSections_add, ← bind_assoc] at ha
    obtain ⟨u, a₁, hfirst, -⟩ := Reader.bind_eq_ok.mp ha
    have hread : Assembly.firstSections limit (.document settings true capacity)
        (.ofCursor cursor) = .ok u a₁ := hfirst
    simp [allowsArithmetic?, hcursor, hread] at hend

/-- The readers also agree if they know nothing of places. -/
lemma AgreeOnArithmetic.bare (h : AgreeOnArithmetic settings text text' capacity)
    (hscan : (scan text).failure = none) (hscan' : (scan text').failure = none) (n : Nat)
    {a b : Assembly}
    (ha : Assembly.firstSections n (.document settings true capacity)
      (.ofCursor (.ofTokens (bareTokens text) 0)) = .ok () a)
    (hb : Assembly.firstSections n (.document settings true capacity)
      (.ofCursor (.ofTokens (bareTokens text') 0)) = .ok () b) :
    Assembly.AgreeAtArithmetic (.document settings true capacity) a b := by
  -- Each run without places is the run on the text in a disguise that hides the places.
  have hplaced {text : String} {a : Assembly} (hscan : (scan text).failure = none)
      (ha : Assembly.firstSections n (.document settings true capacity)
        (.ofCursor (.ofTokens (bareTokens text) 0)) = .ok () a) :
      ∃ cursor a₁, Cursor.ofText text = .ok cursor ∧
        Assembly.firstSections n (.document settings true capacity) (.ofCursor cursor) = .ok () a₁ ∧
        a = Disguise.unplaced.assembly a₁ := by
    obtain ⟨cursor, hcursor, hbare⟩ := Cursor.exists_ofText_bare hscan
    have hrun := Disguise.unplaced.firstSections n (.document settings true capacity)
      (.ofCursor cursor)
    rw [Disguise.assembly_ofCursor, hbare, ha] at hrun
    cases hplain : Assembly.firstSections n (.document settings true capacity)
      (.ofCursor cursor) with
    | ok u a₁ =>
      rw [hplain] at hrun
      cases hrun
      exact ⟨cursor, a₁, hcursor, hplain, rfl⟩
    | error failure a₁ =>
      rw [hplain] at hrun
      cases hrun
  obtain ⟨cursor, a₁, hcursor, ha₁, rfl⟩ := hplaced hscan ha
  obtain ⟨cursor', b₁, hcursor', hb₁, rfl⟩ := hplaced hscan' hb
  intro hreaches hreaches'
  exact h cursor cursor' hcursor hcursor' n a₁ b₁ ha₁ hb₁
    (Disguise.unplaced.reachesArithmetic_of_assembly hreaches)
    (Disguise.unplaced.reachesArithmetic_of_assembly hreaches')

/-- What is read from a text is read with other flags, but for these flags. -/
lemma DifferInFlags.exists_parse (h : DifferInFlags text text')
    (hlenient : settings.strictRequirements = false)
    (hagree : AgreeOnArithmetic settings text text' capacity) {domain : Domain}
    (hparse : (parse settings text capacity).result = .ok domain) :
    ∃ domain', (parse settings text' capacity).result = .ok domain' ∧
      domain' = { domain with requirements := domain'.requirements } := by
  have hscan : (scan text).failure = none := by
    have haccounted := parse_isAccountedFor settings text capacity
    rw [hparse] at haccounted
    exact haccounted
  have hscan' : (scan text').failure = none := h.failure.mp hscan
  obtain ⟨a', hrun⟩ := (parse_eq_ok_bare hscan).mp hparse
  have hc : (Reader.Context.document settings true capacity).Lenient :=
    ⟨by simp [Reader.Context.document], hlenient⟩
  obtain ⟨domain', b', hrun', hdomain⟩ := Assembly.domain_follow hc isLexeme_of_mem_bareTokens
    isLexeme_of_mem_bareTokens h.heading h.sections
    (fun n _ _ ha hb => hagree.bare hscan hscan' n ha hb) hrun
  exact ⟨domain', (parse_eq_ok_bare hscan').mpr ⟨b', hrun'⟩, hdomain⟩

/-- The flags of a domain that is read are those listed in the text. -/
lemma mem_requirements_of_parse {domain : Domain}
    (h : (parse settings text capacity).result = .ok domain) (flag : String) :
    flag ∈ domain.requirements ↔ flag ∈ declaredIn .requirements flagKeys (parts text) := by
  obtain ⟨cursor, a', hcursor, hrun⟩ := parse_eq_ok.mp h
  exact Assembly.mem_requirements_domain hcursor hrun flag

/-- With lenient settings, two texts that differ in listed flags only, and that agree where they
come to arithmetic, both define a domain or neither does.  The domains are the same but for their
flags, and the flags of each are those that its text lists, with their letters folded, known or
not. -/
theorem parse_flags (settings : Settings) (hlenient : settings.strictRequirements = false)
    (text text' : String) (capacity : Nat) (hdiffer : DifferInFlags text text')
    (hagree : AgreeOnArithmetic settings text text' capacity) :
    ((∃ domain, (parse settings text capacity).result = .ok domain) ↔
        ∃ domain, (parse settings text' capacity).result = .ok domain) ∧
      ∀ domain domain', (parse settings text capacity).result = .ok domain →
        (parse settings text' capacity).result = .ok domain' →
        domain' = { domain with requirements := domain'.requirements } ∧
          (∀ flag, flag ∈ domain.requirements ↔
            flag ∈ declaredIn .requirements flagKeys (parts text)) ∧
          ∀ flag, flag ∈ domain'.requirements ↔
            flag ∈ declaredIn .requirements flagKeys (parts text') := by
  refine ⟨⟨?_, ?_⟩, ?_⟩
  · rintro ⟨domain, h⟩
    obtain ⟨domain', h', -⟩ := hdiffer.exists_parse hlenient hagree h
    exact ⟨domain', h'⟩
  · rintro ⟨domain', h'⟩
    obtain ⟨domain, h, -⟩ := hdiffer.symm.exists_parse hlenient hagree.symm h'
    exact ⟨domain, h⟩
  · intro domain domain' h h'
    refine ⟨?_, mem_requirements_of_parse h, mem_requirements_of_parse h'⟩
    obtain ⟨found, hfound, hdomain⟩ := hdiffer.exists_parse hlenient hagree h
    rw [h'] at hfound
    cases hfound
    exact hdomain

/-- A domain with arithmetic and a flag for it. -/
def fluentsText : String :=
  "(define (domain d) (:requirements :fluents) (:action a :precondition (> (+ 1 2) 3)))"

/-- The domain with another flag for arithmetic, in capital letters, and one that is not known. -/
def strangeText : String :=
  "(define (domain d) (:requirements :NUMERIC-fluents :strange) " ++
    "(:action a :precondition (> (+ 1 2) 3)))"

/-- Both texts define the domain, each with its flags. -/
theorem parse_flags_strange :
    ∃ domain domain', (parse .lenient fluentsText).result = .ok domain ∧
      (parse .lenient strangeText).result = .ok domain' ∧
      domain' = { domain with requirements := domain'.requirements } ∧
      ":strange" ∈ domain'.requirements ∧ ":strange" ∉ domain.requirements := by
  -- One evaluation of the texts gives all that is needed of them.
  obtain ⟨hread, hdiffer, hends, hallows, hlisted, hnot⟩ :
      (parse .lenient fluentsText).result.toOption.isSome = true ∧
        DifferInFlags fluentsText strangeText ∧
        allowsArithmetic? .lenient fluentsText Reader.documentCapacity 3 = none ∧
        (∀ n < 3, allowsArithmetic? .lenient fluentsText Reader.documentCapacity n =
          allowsArithmetic? .lenient strangeText Reader.documentCapacity n) ∧
        ":strange" ∈ declaredIn .requirements flagKeys (parts strangeText) ∧
        ":strange" ∉ declaredIn .requirements flagKeys (parts fluentsText) := by
    decide +kernel
  obtain ⟨domain, hdomain⟩ := Option.isSome_iff_exists.mp hread
  have hparse := Check.toOption_eq_some.mp hdomain
  have hagree := AgreeOnArithmetic.of_allows 3 hends hallows
  obtain ⟨haccepts, hsame⟩ := parse_flags .lenient rfl _ _ _ hdiffer hagree
  obtain ⟨domain', hparse'⟩ := haccepts.mp ⟨domain, hparse⟩
  obtain ⟨hfields, hflags, hflags'⟩ := hsame domain domain' hparse hparse'
  exact ⟨domain, domain', hparse, hparse', hfields, (hflags' _).mpr hlisted,
    fun hstrange => hnot ((hflags _).mp hstrange)⟩

/-- With no flag for arithmetic the domain is refused. -/
example : (parse .lenient ("(define (domain d) (:requirements :strange) " ++
    "(:action a :precondition (> (+ 1 2) 3)))")).result.toOption.isNone = true := by
  decide +kernel

end Domain

end Pddl
