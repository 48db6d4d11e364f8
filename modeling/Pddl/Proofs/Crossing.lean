import Pddl.Proofs.Confinement

/-!
# Sections by themselves

A section that declares something other than an action reads its tokens and adds to its own part of
what has been declared.  It depends on nothing else: neither on the other parts, nor on the notices
left before, nor on what comes behind its last parenthesis (`sectionOf_crosses`).  The flags in
force count as the part of the requirements; with lenient settings no other section depends on them.
-/

namespace Pddl

/-- The cursor at another token, before other tokens. -/
def Cursor.shift (cursor : Cursor) (next : Token) (rest : List Token) : Cursor :=
  { cursor with current := next, rest := rest }

/-- Moving on from a cursor without a reserve to a token of the text. -/
lemma Cursor.advance_eq_shift {cursor after : Cursor} {token : Token}
    (hreserve : cursor.reserve = none) (hkind : after.current.kind ≠ .endOfInput)
    (h : advance cursor = .ok token after) :
    cursor.rest = after.current :: after.rest ∧ after = cursor.shift after.current after.rest := by
  obtain ⟨-, ⟨next, hsome, -⟩ | ⟨-, hend, rfl⟩ | ⟨-, -, next, pulled, hpull, rfl⟩⟩ :=
    advance_cases.mp h
  · rw [hreserve] at hsome
    cases hsome
  · exact absurd hend hkind
  · rcases pull_eq_ok.mp hpull with ⟨hrest, hpulled⟩ | ⟨-, -, rfl, -⟩
    · refine ⟨hrest, ?_⟩
      rw [hpulled]
      rfl
    · exact absurd rfl hkind

/-- Moving on to the first of the tokens to come. -/
lemma Cursor.advance_of_rest {cursor : Cursor} {next : Token} {rest : List Token}
    (hreserve : cursor.reserve = none) (hkind : cursor.current.kind ≠ .endOfInput)
    (hrest : cursor.rest = next :: rest) :
    advance cursor = .ok cursor.current (cursor.shift next rest) := by
  have hpull : pull cursor = .ok next { cursor with rest := rest } :=
    pull_eq_ok.mpr (Or.inl ⟨hrest, rfl⟩)
  exact advance_cases.mpr ⟨rfl, Or.inr (Or.inr ⟨hreserve, hkind, next, _, hpull, rfl⟩)⟩

namespace Assembly

open Declarations (Agree touches_types touches_constants)
open Reader (Mirrors)

/-! ### The end of a section -/

/-- What sections of the kind have declared, and the flags in force if they declare flags. -/
def part (a : Assembly) (kind : SectionKind) : List String × Declarations :=
  (if kind = .requirements then a.requirements else [], a.declared.only kind)

/-- A part is the same if what sections of its kind have declared is, and the flags are. -/
lemma part_eq {a b : Assembly} {kind : SectionKind}
    (hflags : kind = .requirements → b.requirements = a.requirements)
    (hdeclared : b.declared.only kind = a.declared.only kind) : b.part kind = a.part kind := by
  unfold part
  rw [hdeclared]
  split_ifs with hkind
  · rw [hflags hkind]
  · rfl

/-- At most the parts for which `parts` holds have changed, besides tokens and notices. -/
structure Changes (parts : SectionKind → Prop) (a a' : Assembly) : Prop where
  depth : a'.depth = a.depth
  others : ∀ kind, ¬ parts kind → a'.part kind = a.part kind

/-- The states are the same in the parts for which `parts` holds. -/
def Shares (parts : SectionKind → Prop) (a b : Assembly) : Prop :=
  ∀ kind, parts kind → b.part kind = a.part kind

/-- Changes after changes. -/
lemma Changes.trans {a a₁ a' : Assembly} {parts : SectionKind → Prop} (h : Changes parts a a₁)
    (h' : Changes parts a₁ a') : Changes parts a a' where
  depth := h'.depth.trans h.depth
  others := fun kind hkind => (h'.others kind hkind).trans (h.others kind hkind)

/-- A reader that is not deep keeps the flags. -/
lemma Keeps.changes {a a' : Assembly} {parts : SectionKind → Prop} (h : Keeps False parts a a') :
    Changes parts a a' :=
  ⟨h.depth, fun kind hkind =>
    part_eq (fun _ => h.requirements not_false) (h.declared kind hkind)⟩

/-- What has been declared in shared parts is the same. -/
lemma Shares.declared {a b : Assembly} {parts : SectionKind → Prop} (h : Shares parts a b) :
    Agree parts a.declared b.declared :=
  fun kind hkind => congrArg Prod.snd (h kind hkind)

/-- The flags in force are the same if the requirements are shared. -/
lemma Shares.flags {a b : Assembly} {parts : SectionKind → Prop} (h : Shares parts a b)
    (hparts : parts .requirements) : b.requirements = a.requirements :=
  congrArg Prod.fst (h .requirements hparts)

/-- Whenever the reader succeeds and does not meet the end of the input, it changes the parts only,
and it does so whatever the other parts are and whatever comes behind, which it moves on to. -/
def Crosses (parts : SectionKind → Prop) (m : AssembleM Unit) : Prop :=
  ∀ c a a', c.Lenient → a.cursor.Valid → a.cursor.reserve = none → m c a = .ok () a' →
    a'.cursor.current.kind ≠ .endOfInput →
    Changes parts a a' ∧ (a'.cursor.current :: a'.cursor.rest) <:+ a.cursor.rest ∧
      ∀ next rest b, b.cursor.Valid → b.depth = a.depth → Shares parts a b →
        a.cursor.Alike (a'.cursor.current :: a'.cursor.rest) (next :: rest) b.cursor →
        ∃ b', m c b = .ok () b' ∧ b'.depth = a'.depth ∧ Shares parts a' b' ∧
          b'.cursor = a'.cursor.shift next rest

variable {parts : SectionKind → Prop} {α : Type}

/-- What does not get to the tokens behind, and then the end of a section. -/
lemma Crosses.bind {m : AssembleM α} {f : α → AssembleM Unit}
    (hm : ∀ {behind behind'}, (behind = [] → behind' = []) →
      Mirrors (confinement False parts behind behind') m)
    (hf : ∀ x, Crosses parts (f x)) : Crosses parts (m >>= f) := by
  intro c a a' hc hv hreserve h hkind
  obtain ⟨x, a₁, hrun, hrest⟩ := Reader.bind_eq_ok.mp h
  have hplain : Mirrors (confinement False parts [] []) m := hm id
  obtain ⟨hv₁, -⟩ := hplain.shrinks c a x a₁ hv hrun
  obtain ⟨hkeeps, -⟩ := hplain.run c a x a₁ hc hv hrun
  obtain ⟨hchanges, hlast, hcross⟩ :=
    hf x c a₁ a' hc hv₁ (hkeeps.reserve not_false hreserve) hrest hkind
  refine ⟨hkeeps.changes.trans hchanges, hlast.trans hkeeps.rest, ?_⟩
  intro next rest b hb hdepth hshares halike
  have hmirrors :
      Mirrors (confinement False parts (a'.cursor.current :: a'.cursor.rest) (next :: rest)) m :=
    hm nofun
  obtain ⟨-, hrun'⟩ := (hmirrors.run c a x a₁ hc hv hrun).2 hlast
  obtain ⟨b₁, hrun₁, halike₁⟩ := hrun' b hb ⟨⟨halike, hdepth, nofun⟩, hshares.declared⟩
  obtain ⟨hb₁, -⟩ := hplain.shrinks c b x b₁ hb hrun₁
  obtain ⟨hkeeps₁, -⟩ := hplain.run c b x b₁ hc hb hrun₁
  have hshares₁ : Shares parts a₁ b₁ := by
    refine fun kind hkind => part_eq (fun hrequirements => ?_) (halike₁.declared kind hkind)
    calc b₁.requirements = b.requirements := hkeeps₁.requirements not_false
      _ = a.requirements := hshares.flags (hrequirements ▸ hkind)
      _ = a₁.requirements := (hkeeps.requirements not_false).symm
  obtain ⟨b', hrest', hb'⟩ := hcross next rest b₁ hb₁ halike₁.depth hshares₁ halike₁.toAlike
  exact ⟨b', (Reader.bind_of_ok hrun₁).trans hrest', hb'⟩

/-- A reader of a flat part, and then the end of a section. -/
lemma Crosses.read {m : ReadM α} {f : α → AssembleM Unit}
    (hm : ∀ {R : ∀ {α : Type}, ReadM α → Prop}, Reader.Flat R → R m)
    (hf : ∀ x, Crosses parts (f x)) : Crosses parts (ofReader m >>= f) :=
  .bind (fun hbehind => confined_ofReader (hm (Reader.confined_flat hbehind False))) hf

/-- A look at the declarations, and then the end of a section. -/
lemma Crosses.declared? {f : Declarations → AssembleM Unit}
    (hsame : ∀ {declared other}, Agree parts declared other → f other = f declared)
    (hf : ∀ declared, Crosses parts (f declared)) :
    Crosses parts (Assembly.declared? >>= f) := by
  intro c a a' hc hv hreserve h hkind
  obtain ⟨hchanges, hlast, hcross⟩ := hf a.declared c a a' hc hv hreserve h hkind
  refine ⟨hchanges, hlast, fun next rest b hb hdepth hshares halike => ?_⟩
  change ∃ b', f b.declared c b = _ ∧ _
  rw [hsame hshares.declared]
  exact hcross next rest b hb hdepth hshares halike

/-- The change of a state after the last parenthesis of a section: one of the parts only, which
depends on these only. -/
structure Settles (parts : SectionKind → Prop) (change : Assembly → Assembly) : Prop where
  cursor : ∀ a, (change a).cursor = a.cursor
  changes : ∀ a, Changes parts a (change a)
  shares : ∀ {a b}, Shares parts a b → Shares parts (change a) (change b)

/-- The last parenthesis of a section. -/
lemma Crosses.close {expected : String} {last : AssembleM Unit} {change : Assembly → Assembly}
    (hlast : ∀ c a, last c a = .ok () (change a)) (hchange : Settles parts change) :
    Crosses parts (ofReader (Reader.expect .closeParen expected) >>= fun _ => last) := by
  intro c a a' hc hv hreserve h hkind
  obtain ⟨closing, a₁, hclose, hrest⟩ := Reader.bind_eq_ok.mp h
  obtain ⟨s₁, hexpect, rfl⟩ := ofReader_eq_ok.mp hclose
  rw [hlast] at hrest
  cases hrest
  obtain ⟨hclosing, hadvance⟩ := Reader.expect_eq_ok.mp hexpect
  obtain ⟨after, hstep, rfl⟩ := Reader.onCursor_eq_ok.mp hadvance
  rw [hchange.cursor] at hkind ⊢
  dsimp only at hkind ⊢
  obtain ⟨hrest, hafter⟩ := Cursor.advance_eq_shift hreserve hkind hstep
  have hmoved : Changes parts a { a with cursor := after } :=
    ⟨rfl, fun _ _ => rfl⟩
  refine ⟨hmoved.trans (hchange.changes _), hrest ▸ List.suffix_rfl, ?_⟩
  intro next rest b hb hdepth hshares halike
  obtain ⟨ts, hts, hbrest⟩ := halike.rest
  obtain rfl : ts = [] := List.self_eq_append_left.mp (hrest.symm.trans hts)
  have hbclosing : b.cursor.current.kind = .closeParen := by rw [halike.current, hclosing]
  have hbstep := Cursor.advance_of_rest (halike.reserve.trans hreserve)
    (by rw [hbclosing]; decide) hbrest
  have hbexpect : Reader.expect .closeParen expected c b.toState =
      .ok b.cursor.current { b.toState with cursor := b.cursor.shift next rest } :=
    Reader.expect_eq_ok.mpr ⟨hbclosing, Reader.onCursor_eq_ok.mpr ⟨_, hbstep, rfl⟩⟩
  let moved : Assembly := { b with cursor := b.cursor.shift next rest }
  refine ⟨change moved, ?_, ?_, ?_, ?_⟩
  · rw [Reader.bind_of_ok (ofReader_eq_ok.mpr ⟨_, hbexpect, rfl⟩)]
    exact hlast c moved
  · rw [(hchange.changes moved).depth, (hchange.changes _).depth]
    exact hdepth
  · exact hchange.shares hshares
  · rw [hchange.cursor, hafter]
    simp only [moved, Cursor.shift, halike.reserve, halike.failure, halike.endOffset]

/-- Nothing more is done. -/
lemma settles_id : Settles parts id :=
  ⟨fun _ => rfl, fun _ => ⟨rfl, fun _ _ => rfl⟩, id⟩

/-- The last parenthesis of a section, after which nothing more is done. -/
lemma Crosses.last (expected : String) :
    Crosses parts (do let _ ← ofReader (Reader.expect .closeParen expected)) :=
  .close (fun _ _ => rfl) settles_id

/-! ### Sections of declarations -/

/-- The section declares something other than an action. -/
def SectionKind.Declares (kind : SectionKind) : Prop :=
  kind ≠ .action ∧ kind ≠ .durativeAction

/-- Flags are put into force and listed. -/
def listFlags (listed : List String) (a : Assembly) : Assembly :=
  { a with
    requirements := Text.union a.requirements (Requirement.expand listed)
    log := a.log ++ [.requirementsRead listed]
    declared := { a.declared with requirements := Text.union a.declared.requirements listed } }

/-- One reader after another, and then declarations. -/
lemma ofReader_bind {β : Type} (m : ReadM α) (f : α → ReadM β) :
    ofReader (m >>= f) = ofReader m >>= fun x => ofReader (f x) := by
  funext c a
  cases hrun : m c a.toState with
  | ok x s =>
    have hfirst : ofReader m c a = .ok x { a with toState := s } :=
      ofReader_eq_ok.mpr ⟨s, hrun, rfl⟩
    rw [Reader.bind_of_ok hfirst]
    unfold ofReader
    rw [Reader.bind_of_ok hrun]
  | error e s =>
    have hfirst : ofReader m c a = .error e { a with toState := s } := by
      unfold ofReader
      rw [hrun]
    rw [Reader.bind_of_error hfirst]
    unfold ofReader
    rw [Reader.bind_of_error hrun]

/-- A section of requirements lists its flags after its last parenthesis. -/
lemma sectionOf_requirements :
    sectionOf .requirements = (do
      let _ ← ofReader (Reader.keyword ":requirements")
      let flags ← ofReader (Reader.readWhile Reader.isKeyword Reader.requirementFlag)
      let _ ← ofReader (Reader.expect .closeParen "a requirement flag or ')'")
      (fun _ a => .ok () (listFlags (Text.union [] flags) a) : AssembleM Unit)) := by
  change (ofReader Reader.requirements >>= fun flags => declare fun declared =>
    { declared with requirements := Text.union declared.requirements flags }) = _
  unfold Reader.requirements
  simp only [ofReader_bind, bind_assoc]
  rfl

/-- Listing flags is a change of the requirements. -/
lemma settles_listFlags (hparts : parts .requirements) (listed : List String) :
    Settles parts (listFlags listed) where
  cursor := fun _ => rfl
  changes := fun a => ⟨rfl, by
    intro kind hkind
    cases kind with
    | requirements => exact absurd hparts hkind
    | _ => rfl⟩
  shares := by
    intro a b h kind hkind
    have hsame := h kind hkind
    cases kind with
    | requirements =>
      have hlisted : b.declared.requirements = a.declared.requirements := by
        simpa [Declarations.only] using h.declared .requirements hkind
      simp only [part, listFlags, Declarations.only, h.flags hkind, hlisted]
    | _ => exact hsame

/-- A section of types. -/
lemma typesBody_crosses (hparts : parts .types) : Crosses parts typesBody := by
  refine .read (fun hR => hR.typedList _ _) fun listed => ?_
  refine .bind (fun _ => confined_declare (touches_types hparts (· ++ listed) id)) fun _ => ?_
  refine .declared? (fun {declared other} h => ?_) fun declared => ?_
  · have hsame := h .types hparts
    simp only [Declarations.only, Declarations.mk.injEq, and_true, true_and] at hsame
    rw [hsame.1]
  · refine .bind (fun _ => confined_check _) fun types => ?_
    refine .bind (fun _ => confined_declare (touches_types hparts id fun _ => types)) fun _ => ?_
    exact .last _

/-- A section that declares something other than actions depends on and changes its own part
only, and does not depend on what comes behind it. -/
lemma sectionOf_crosses {kind : SectionKind} (hkind : kind.Declares) :
    Crosses (· = kind) (sectionOf kind) := by
  cases kind with
  | requirements =>
    rw [sectionOf_requirements]
    refine .read (fun hR => hR.keyword _) fun _ => ?_
    refine .read (fun hR => hR.readWhile .flag hR.requirementFlag) fun flags => ?_
    refine .close (fun _ _ => rfl) (settles_listFlags ?_ (Text.union [] flags))
    rfl
  | types =>
    refine .read (fun hR => hR.advance) fun _ => typesBody_crosses ?_
    rfl
  | constants =>
    refine .read (fun hR => hR.advance) fun _ => .read (fun hR => hR.typedList _ _) fun listed => ?_
    refine .bind (fun _ => confined_declare (touches_constants ?_ (· ++ listed))) fun _ => .last _
    rfl
  | predicates =>
    refine .read (fun hR => hR.advance) fun _ => .bind (fun hbehind => ?_) fun _ => .last _
    refine .loop Counted.predicates.sufficient fun fuel =>
      confined_whileFuel hbehind (confined_predicate hbehind ?_) fuel
    rfl
  | functions =>
    refine .read (fun hR => hR.advance) fun _ => .read (fun hR => hR.require _ _) fun _ => ?_
    refine .bind (fun hbehind => ?_) fun _ => .last _
    refine .loop Counted.functionGroups.sufficient fun fuel =>
      confined_functionGroups hbehind ?_ fuel
    rfl
  | action => exact absurd rfl hkind.1
  | durativeAction => exact absurd rfl hkind.2

end Assembly

end Pddl
