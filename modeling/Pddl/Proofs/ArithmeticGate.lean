import Pddl.Proofs.Confinement
import Pddl.Proofs.Strictness

/-!
# Where flags matter to lenient readers

With lenient settings a flag that is missing means a notice and no more, wherever a feature asks for
it.  Only arithmetic in numeric terms is refused without its flag.  So a reader of expressions or
actions that succeeds with some flags also succeeds with any others, with the same value, or it is
refused because it comes to arithmetic and the flag for it was among the first ones only
(`ignoresFlags_descending`).  This also holds of runs on tokens that end differently
(`IgnoresFlags.reads_or_refuses`).
-/

namespace Pddl.Reader

/-- The flag without which arithmetic is refused. -/
def arithmeticFlag : String := ":numeric-fluents"

/-- The run is refused because it comes to arithmetic that is not allowed. -/
def RefusesArithmetic {σ α : Type} (run : EStateM.Result Failure σ α) : Prop :=
  ∃ error s, run = .error (.grammar error) s ∧ error.cause = .arithmeticUndeclared

/-- The states differ at most in the flags that are declared and in the notices left. -/
structure State.Reflags (s t : State) : Prop where
  cursor : t.cursor = s.cursor
  depth : t.depth = s.depth

/-- Whenever the reader succeeds with lenient settings, it keeps the flags.  With other flags it
succeeds with the same value, unless it is refused for want of the flag that allows arithmetic. -/
def IgnoresFlags {α : Type} (m : ReadM α) : Prop :=
  ∀ c s a s', c.settings.strictRequirements = false → m c s = .ok a s' →
    s'.requirements = s.requirements ∧ ∀ t, s.Reflags t →
      (∃ t', m c t = .ok a t' ∧ s'.Reflags t' ∧ t'.requirements = t.requirements) ∨
        arithmeticFlag ∈ s.requirements ∧ arithmeticFlag ∉ t.requirements ∧
          RefusesArithmetic (m c t)

namespace IgnoresFlags

variable {α β : Type} {m : ReadM α} {f : α → ReadM β}

/-- A reader that succeeds with any flags if it does with some. -/
lemma of_run (h : ∀ c s a s', c.settings.strictRequirements = false → m c s = .ok a s' →
    s'.requirements = s.requirements ∧ ∀ t, s.Reflags t →
      ∃ t', m c t = .ok a t' ∧ s'.Reflags t' ∧ t'.requirements = t.requirements) :
    IgnoresFlags m := by
  intro c s a s' hc hrun
  obtain ⟨hflags, hall⟩ := h c s a s' hc hrun
  exact ⟨hflags, fun t ht => Or.inl (hall t ht)⟩

/-- A step that looks at nothing but the cursor. -/
lemma onCursor (step : CursorM α) : IgnoresFlags (onCursor step) := by
  refine .of_run fun c s a s' _ hrun => ?_
  obtain ⟨after, hstep, rfl⟩ := onCursor_eq_ok.mp hrun
  refine ⟨rfl, fun t ht => ⟨{ t with cursor := after }, ?_, ⟨rfl, ht.depth⟩, rfl⟩⟩
  rw [← ht.cursor] at hstep
  exact onCursor_eq_ok.mpr ⟨after, hstep, rfl⟩

/-- A reader that at most leaves notices. -/
lemma of_log {m : ReadM Unit} (h : ∀ c s, c.settings.strictRequirements = false →
    ∃ log, m c s = .ok () { s with log := log }) : IgnoresFlags m := by
  refine .of_run fun c s u s' hc hrun => ?_
  obtain ⟨log, hlog⟩ := h c s hc
  rw [hlog] at hrun
  cases hrun
  refine ⟨rfl, fun t ht => ?_⟩
  obtain ⟨log', hlog'⟩ := h c t hc
  exact ⟨_, hlog', ⟨ht.cursor, ht.depth⟩, rfl⟩

/-- One reader after another. -/
lemma bind (hm : IgnoresFlags m) (hf : ∀ a, IgnoresFlags (f a)) : IgnoresFlags (m >>= f) := by
  intro c s b s' hc hrun
  obtain ⟨a, s₁, hfirst, hrest⟩ := bind_eq_ok.mp hrun
  obtain ⟨hflags, hfirst'⟩ := hm c s a s₁ hc hfirst
  obtain ⟨hflags₁, hrest'⟩ := hf a c s₁ b s' hc hrest
  refine ⟨hflags₁.trans hflags, fun t ht => ?_⟩
  rcases hfirst' t ht with ⟨t₁, ht₁, hreflags, hkept⟩ | ⟨hin, hout, error, t', herror, hcause⟩
  · rw [bind_of_ok ht₁, ← hflags, ← hkept]
    rcases hrest' t₁ hreflags with ⟨t', ht', hreflags', hkept'⟩ | hrefused
    · exact Or.inl ⟨t', ht', hreflags', hkept'⟩
    · exact Or.inr hrefused
  · exact Or.inr ⟨hin, hout, error, t', bind_of_error herror, hcause⟩

/-- Arithmetic, which is read only if that is allowed. -/
lemma gate {body : ReadM Expr} (hbody : IgnoresFlags body) : IgnoresFlags (do
    if ← arithmeticAllowed then body
    else failHere "a fluent or a number" .arithmeticUndeclared) := by
  intro c s a s' hc hrun
  have hasked (u : State) : arithmeticAllowed c u =
      .ok (!c.governs || u.requirements.contains arithmeticFlag) u := rfl
  rw [bind_of_ok (hasked s)] at hrun
  split_ifs at hrun with hallowed
  · obtain ⟨hflags, hall⟩ := hbody c s a s' hc hrun
    refine ⟨hflags, fun t ht => ?_⟩
    rw [bind_of_ok (hasked t)]
    split_ifs with hallowed'
    · exact hall t ht
    · rw [Bool.or_eq_true, List.contains_iff_mem] at hallowed hallowed'
      obtain ⟨hgoverns, hout⟩ := not_or.mp hallowed'
      exact Or.inr ⟨hallowed.resolve_left hgoverns, hout, _, t, rfl, rfl⟩
  · exact absurd hrun (by simp)

/-- Reading one level deeper. -/
lemma nested (hm : IgnoresFlags m) : IgnoresFlags (nested m) := by
  intro c s a s' hc hrun
  obtain ⟨hlimit, s₁, hbody, rfl⟩ := nested_eq_ok.mp hrun
  obtain ⟨hflags, hall⟩ := hm c s.deeper a s₁ hc hbody
  refine ⟨hflags, fun t ht => ?_⟩
  have hdeeper : s.deeper.Reflags t.deeper :=
    ⟨ht.cursor, congrArg (· + 1) ht.depth⟩
  have hlimit' : ∀ limit ∈ c.settings.maxNestingDepth, t.depth + 1 ≤ limit := by
    rwa [ht.depth]
  rcases hall t.deeper hdeeper with ⟨t₁, ht₁, hreflags, hkept⟩ | ⟨hin, hout, error, t₁, ht₁, hcause⟩
  · exact Or.inl ⟨t₁.higher, nested_eq_ok.mpr ⟨hlimit', t₁, ht₁, rfl⟩,
      ⟨hreflags.cursor, congrArg (· - 1) hreflags.depth⟩, hkept⟩
  · refine Or.inr ⟨hin, hout, error, t₁.higher, ?_, hcause⟩
    have hcheck : checkDepth c t.deeper = .ok () t.deeper := checkDepth_eq_ok.mpr ⟨hlimit', rfl⟩
    rw [nested_eq_mapState]
    change mapState _ ((checkDepth >>= fun _ => m) c t.deeper) = _
    rw [bind_of_ok hcheck, ht₁]
    rfl

end IgnoresFlags

/-- The budget does not depend on the flags. -/
lemma ignoresFlags_budget : IgnoresFlags budget := by
  refine .of_run fun c s n s' _ hrun => ?_
  rw [budget_eq] at hrun
  cases hrun
  refine ⟨rfl, fun t ht => ⟨t, ?_, ht, rfl⟩⟩
  rw [budget_eq, ht.cursor]

/-- The readers of expressions and actions look at the flags for no more than whether arithmetic is
allowed. -/
lemma ignoresFlags_descending : Descending IgnoresFlags where
  pure := by
    intro α a
    refine .of_run fun c s b s' _ hrun => ?_
    obtain ⟨rfl, rfl⟩ := pure_eq_ok.mp hrun
    exact ⟨rfl, fun t ht => ⟨t, rfl, ht, rfl⟩⟩
  bind := .bind
  look := by
    intro α f hsame hf c s a s' hc hrun
    obtain ⟨hflags, hall⟩ := hf s c s a s' hc hrun
    refine ⟨hflags, fun t ht => ?_⟩
    have hnext : (get >>= f) c t = f s c t :=
      congrFun (congrFun (hsame t s (by rw [ht.cursor])) c) t
    rw [hnext]
    exact hall t ht
  read := fun _ _ _ hf c s a s' hc hrun => hf c c s a s' hc hrun
  rounds := by
    intro α loop _ hloop c s a s' hc hrun
    obtain ⟨hflags, hall⟩ := hloop _ c s a s' hc hrun
    refine ⟨hflags, fun t ht => ?_⟩
    have hrounds : (rounds >>= loop) c t = loop (s.cursor.unread + 1) c t := by
      rw [bind_of_ok rounds_run, ht.cursor]
    rw [hrounds]
    exact hall t ht
  raise := fun _ _ _ _ _ _ hrun => absurd hrun (by simp)
  advance := .onCursor _
  peek := .onCursor _
  require := fun token feature => .of_log fun _ s hc => require_of_lenient hc s token feature
  report := fun token breach => .of_log fun _ s hc => report_of_lenient hc s token breach
  note := fun _ _ => .of_log fun _ _ _ => ⟨_, rfl⟩
  gate := .gate
  nested := .nested

variable {c : Context} {s : State}

/-! ### Runs with other flags -/

/-- A run is not refused for want of a flag. -/
lemma RefusesArithmetic.ne_ok {σ α : Type} {run : EStateM.Result Failure σ α}
    (h : RefusesArithmetic run) {x : α} {s' : σ} : run ≠ .ok x s' := by
  obtain ⟨error, t, rfl, -⟩ := h
  nofun

/-- What is refused for want of a flag is refused with any flags among which it is not. -/
lemma IgnoresFlags.refuses {α : Type} {m : ReadM α} {x : α} {s' t u : State} (hm : IgnoresFlags m)
    (hc : c.settings.strictRequirements = false) (hrun : m c s = .ok x s') (ht : s.Reflags t)
    (hrefused : RefusesArithmetic (m c t)) (hu : s.Reflags u)
    (hout : arithmeticFlag ∉ u.requirements) : RefusesArithmetic (m c u) := by
  rcases (hm c s x s' hc hrun).2 u hu with ⟨u', hrun', -⟩ | ⟨-, -, hrefused'⟩
  · have hut : u.Reflags t := ⟨ht.cursor.trans hu.cursor.symm, ht.depth.trans hu.depth.symm⟩
    rcases (hm c u x u' hc hrun').2 t hut with ⟨t', ht', -⟩ | ⟨hin, -⟩
    · exact absurd ht' hrefused.ne_ok
    · exact absurd hin hout
  · exact hrefused'

/-- What is read with some flags is read with others before the same tokens, or arithmetic is
reached and the flag for it is in force in the first case only. -/
lemma IgnoresFlags.reads_or_refuses {α : Type} {m : ReadM α} {behind behind' : List Token} {x : α}
    {s' t : State} (hm : IgnoresFlags m)
    (hmirrors : Mirrors (State.confinement True behind behind') m) (hc : c.Lenient)
    (hv : s.cursor.Valid) (hrun : m c s = .ok x s') (hlast : behind <:+ s'.cursor.rest)
    (ht : t.cursor.Valid) (halike : s.cursor.Alike behind behind' t.cursor)
    (hdepth : t.depth = s.depth) :
    (∃ t', m c t = .ok x t' ∧ s'.cursor.Alike behind behind' t'.cursor ∧ t'.depth = s'.depth) ∨
      arithmeticFlag ∈ s.requirements ∧ arithmeticFlag ∉ t.requirements ∧
        RefusesArithmetic (m c { s with requirements := [] }) ∧
        RefusesArithmetic (m c { t with requirements := [] }) := by
  -- With the same flags, the second run is as the first one.
  have hsame (u u' : State) (hu : s.Reflags u) (hrun : m c u = .ok x u')
      (hlast : behind <:+ u'.cursor.rest) :
      ∃ t', m c { t with requirements := u.requirements } = .ok x t' ∧
        State.Alike True behind behind' u' t' := by
    have hvalid : u.cursor.Valid := hu.cursor ▸ hv
    refine ((hmirrors.run c u x u' hc hvalid hrun).2 hlast).2 _ ht ⟨?_, ?_, fun _ => rfl⟩
    · rwa [hu.cursor]
    · exact hdepth.trans hu.depth.symm
  obtain ⟨t₀, ht₀, halike₀⟩ := hsame s s' ⟨rfl, rfl⟩ hrun hlast
  rcases (hm c _ x t₀ hc.settings ht₀).2 t ⟨rfl, rfl⟩ with
    ⟨t', ht', hreflags, -⟩ | ⟨hin, hout, hrefused⟩
  · exact Or.inl ⟨t', ht', hreflags.cursor ▸ halike₀.toAlike, hreflags.depth.trans halike₀.depth⟩
  · have hbehind : RefusesArithmetic (m c { t with requirements := [] }) :=
      hm.refuses (t := t) hc.settings ht₀ ⟨rfl, rfl⟩ hrefused ⟨rfl, rfl⟩ List.not_mem_nil
    refine Or.inr ⟨hin, hout, ?_, hbehind⟩
    rcases (hm c s x s' hc.settings hrun).2 { s with requirements := [] } ⟨rfl, rfl⟩ with
      ⟨s₁, hs₁, hreflags, -⟩ | ⟨-, -, hrefused'⟩
    · obtain ⟨t₁, ht₁, -⟩ :=
        hsame { s with requirements := [] } s₁ ⟨rfl, rfl⟩ hs₁ (hreflags.cursor ▸ hlast)
      exact absurd ht₁ hbehind.ne_ok
    · exact hrefused'

end Pddl.Reader
