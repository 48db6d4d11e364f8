import Pddl.Proofs.Soundness
import Pddl.Reader.Domain

/-!
# The layout of a text

What a section declares can be told from its tokens alone.  `groups` cuts a list of tokens into its
outermost groups, which gives the sections of a document and the declarations of a section; `heads`
are the names that the groups start with, and `listed` the names of a typed list.  The readers of
declarations return just these names (`skeleton_consumes`, `typedList_listed`), and each reader of a
section consumes its group (`action_consumes`, `durativeAction_consumes`).
-/

namespace Pddl

/-! ### Groups -/

/-- The outermost groups of a list of tokens that stands inside of `depth` open parentheses, the
first of which has the tokens `group` so far.  Tokens outside of groups are skipped, and a closing
parenthesis without an opening one ends the list. -/
def groupsFrom : Nat → List Token → List Token → List (List Token)
  | _, _, [] => []
  | depth, group, token :: rest =>
    if token.kind = .openParen then groupsFrom (depth + 1) (group ++ [token]) rest
    else if depth = 0 then if token.kind = .closeParen then [] else groupsFrom 0 [] rest
    else if token.kind ≠ .closeParen then groupsFrom depth (group ++ [token]) rest
    else if depth = 1 then (group ++ [token]) :: groupsFrom 0 [] rest
    else groupsFrom (depth - 1) (group ++ [token]) rest

/-- The outermost groups of a list of tokens, up to a closing parenthesis without an opening one. -/
def groups (tokens : List Token) : List (List Token) :=
  groupsFrom 0 [] tokens

variable {ts us : List Token} {t : Token}

/-- An open group takes in the balanced tokens that follow. -/
lemma groupsFrom_balanced (h : Balanced ts) : ∀ (depth : Nat) (group us : List Token),
    groupsFrom (depth + 1) group (ts ++ us) = groupsFrom (depth + 1) (group ++ ts) us := by
  induction h with
  | nil => simp
  | plain hopen hclose _ ih =>
    intro depth group us
    rw [List.cons_append, groupsFrom, if_neg hopen, if_neg (Nat.succ_ne_zero _), if_pos hclose, ih,
      List.append_assoc]
    rfl
  | @group opening closing inner rest hopen _ hclose _ ihinner ihrest =>
    -- The inner group is taken in one level deeper, so the depth is not fixed in the induction.
    intro depth group us
    have hne : closing.kind ≠ .openParen := by rw [hclose]; decide
    rw [List.cons_append, List.append_assoc, groupsFrom, if_pos hopen, ihinner, List.cons_append,
      groupsFrom, if_neg hne, if_neg (Nat.succ_ne_zero _), if_neg (not_not.mpr hclose),
      if_neg (by omega), Nat.add_sub_cancel, ihrest]
    simp

/-- A group is the first one of the tokens that it starts. -/
lemma groups_cons_group (h : IsGroup ts) (us : List Token) :
    groups (ts ++ us) = ts :: groups us := by
  obtain ⟨opening, inner, closing, rfl, hopen, hclose, hinner⟩ := h
  have hne : closing.kind ≠ .openParen := by rw [hclose]; decide
  rw [groups, List.cons_append, List.append_assoc, groupsFrom, if_pos hopen,
    groupsFrom_balanced hinner, List.singleton_append, groupsFrom, if_neg hne,
    if_neg (Nat.succ_ne_zero _), if_neg (not_not.mpr hclose), if_pos rfl]
  simp [groups]

/-- A group has no other outermost groups than itself. -/
lemma groups_group (h : IsGroup ts) : groups ts = [ts] := by
  have hone := groups_cons_group h []
  rwa [List.append_nil] at hone

/-- Tokens outside of groups are skipped. -/
lemma groups_cons_plain (hopen : t.kind ≠ .openParen) (hclose : t.kind ≠ .closeParen) :
    groups (t :: us) = groups us := by
  rw [groups, groupsFrom, if_neg hopen, if_pos rfl, if_neg hclose]
  rfl

/-- The groups end with a closing parenthesis. -/
lemma groups_cons_close (hclose : t.kind = .closeParen) : groups (t :: us) = [] := by
  have hne : t.kind ≠ .openParen := by rw [hclose]; decide
  rw [groups, groupsFrom, if_neg hne, if_pos rfl, if_pos hclose]

/-- Balanced tokens and what follows them are grouped one after the other. -/
lemma groups_append (h : Balanced ts) : groups (ts ++ us) = groups ts ++ groups us := by
  induction h with
  | nil => rfl
  | plain hopen hclose _ ih =>
    rw [List.cons_append, groups_cons_plain hopen hclose, groups_cons_plain hopen hclose, ih]
  | @group opening closing inner rest hopen hinner hclose _ _ ih =>
    have hgroup : IsGroup (opening :: (inner ++ [closing])) :=
      ⟨opening, inner, closing, rfl, hopen, hclose, hinner⟩
    have hsplit : opening :: (inner ++ closing :: rest) =
        (opening :: (inner ++ [closing])) ++ rest := by simp
    rw [hsplit, List.append_assoc, groups_cons_group hgroup, groups_cons_group hgroup, ih]
    rfl

/-- The tokens open `depth` parentheses that they do not close: each of them is followed by balanced
tokens before the next one. -/
inductive Nested : Nat → List Token → Prop
  | nil : Nested 0 []
  | opened {depth : Nat} {opening : Token} {front inner : List Token} : Nested depth front →
      opening.kind = .openParen → Balanced inner → Nested (depth + 1) (front ++ opening :: inner)

/-- More balanced tokens follow the last open parenthesis. -/
lemma Nested.append {depth : Nat} {group ts : List Token} (h : Nested (depth + 1) group)
    (hts : Balanced ts) : Nested (depth + 1) (group ++ ts) := by
  cases h with
  | opened hfront hopen hinner =>
    rw [List.append_assoc, List.cons_append]
    exact .opened hfront hopen (hinner.append hts)

/-- Outermost groups are groups. -/
lemma isGroup_of_mem_groupsFrom {depth : Nat} {group ts part : List Token}
    (hgroup : Nested depth group) (h : part ∈ groupsFrom depth group ts) : IsGroup part := by
  induction ts generalizing depth group with
  | nil => cases h
  | cons token rest ih =>
    rw [groupsFrom] at h
    split_ifs at h with hopen hzero hclose hplain hone
    · exact ih (.opened hgroup hopen .nil) h
    · cases h
    · exact ih .nil h
    · obtain ⟨depth, rfl⟩ := Nat.exists_eq_succ_of_ne_zero hzero
      exact ih (hgroup.append (.plain hopen hplain .nil)) h
    · subst hone
      obtain _ | @⟨_, opening, front, inner, hfront, hopening, hinner⟩ := hgroup
      cases hfront
      rcases List.mem_cons.mp h with rfl | h
      · exact ⟨opening, inner, token, rfl, hopening, not_not.mp hplain, hinner⟩
      · exact ih .nil h
    · obtain ⟨depth, rfl⟩ : ∃ d, depth = d + 2 := ⟨depth - 2, by omega⟩
      obtain _ | @⟨_, opening, front, inner, hfront, hopening, hinner⟩ := hgroup
      have hclosed : IsGroup (opening :: (inner ++ [token])) :=
        ⟨opening, inner, token, rfl, hopening, not_not.mp hplain, hinner⟩
      refine ih ?_ h
      rw [List.append_assoc]
      exact hfront.append hclosed.balanced

/-- Tokens are a group if they are the only outermost one of themselves. -/
lemma isGroup_iff {ts : List Token} : IsGroup ts ↔ groups ts = [ts] :=
  ⟨groups_group, fun h => isGroup_of_mem_groupsFrom .nil (h ▸ List.mem_singleton_self ts)⟩

instance (ts : List Token) : Decidable (IsGroup ts) :=
  decidable_of_iff _ isGroup_iff.symm

/-- The tokens are the rest of a group that was opened before: balanced ones and a closing
parenthesis. -/
def IsTail (tokens : List Token) : Prop :=
  ∃ inner closing, tokens = inner ++ [closing] ∧ Balanced inner ∧ closing.kind = .closeParen

/-! ### Names -/

/-- The folded names that the outermost groups start with. -/
def heads (tokens : List Token) : List String :=
  (groups tokens).filterMap fun group => group[1]?.map Token.key

/-- The folded names of a typed list, but not those of its types, which follow a `-`; `typed` says
whether a `-` stands before the tokens. -/
def listedFrom : Bool → List Token → List String
  | _, [] => []
  | typed, token :: rest =>
    if token.kind = .name ∧ typed = false then
      token.key :: listedFrom false rest
    else
      listedFrom (token.kind = .minus) rest

/-- The folded names of a typed list, but not those of its types. -/
def listed (tokens : List Token) : List String :=
  listedFrom false tokens

/-- All folded names among the tokens. -/
def mentioned (tokens : List Token) : List String :=
  (tokens.filter fun token => token.kind = .name).map Token.key

/-- No tokens have no heads. -/
@[simp] lemma heads_nil : heads [] = [] :=
  rfl

/-- The heads of balanced tokens and of what follows them. -/
lemma heads_append (h : Balanced ts) : heads (ts ++ us) = heads ts ++ heads us := by
  rw [heads, groups_append h, List.filterMap_append]
  rfl

/-- The head of a group is its second token. -/
lemma heads_group (h : IsGroup ts) (ht : ts[1]? = some t) : heads ts = [t.key] := by
  rw [heads, groups_group h, List.filterMap_cons, ht]
  rfl

/-- Tokens outside of groups are no heads. -/
lemma heads_cons_plain (hopen : t.kind ≠ .openParen) (hclose : t.kind ≠ .closeParen) :
    heads (t :: us) = heads us := by
  rw [heads, groups_cons_plain hopen hclose]
  rfl

/-- The closing parenthesis after balanced tokens adds no head. -/
lemma heads_concat_close (h : Balanced ts) (hclose : t.kind = .closeParen) :
    heads (ts ++ [t]) = heads ts := by
  have hnone : heads [t] = [] := by
    rw [heads, groups_cons_close hclose]
    rfl
  rw [heads_append h, hnone, List.append_nil]

/-- The heads of groups one after the other. -/
lemma heads_flatMap {α : Type} (key : α → String) {items : List (α × List Token)}
    (h : ∀ item ∈ items, IsGroup item.2 ∧ heads item.2 = [key item.1]) :
    heads (items.flatMap Prod.snd) = items.map fun item => key item.1 := by
  induction items with
  | nil => rfl
  | cons item rest ih =>
    obtain ⟨⟨hgroup, hhead⟩, hrest⟩ := List.forall_mem_cons.mp h
    rw [List.flatMap_cons, heads_append hgroup.balanced, hhead, ih hrest]
    rfl

/-- Names are listed before what follows them. -/
lemma listed_names_append (h : ∀ t ∈ ts, t.kind = .name) :
    listed (ts ++ us) = ts.map Token.key ++ listed us := by
  induction ts with
  | nil => rfl
  | cons t rest ih =>
    obtain ⟨ht, hrest⟩ := List.forall_mem_cons.mp h
    rw [List.cons_append, listed, listedFrom, if_pos ⟨ht, rfl⟩, List.map_cons, List.cons_append,
      ← ih hrest]
    rfl

/-- A type is not listed. -/
lemma listed_cons_typed {type : Token} (ht : t.kind = .minus) (htype : type.kind = .name) :
    listed (t :: type :: us) = listed us := by
  rw [listed, listedFrom, if_neg (by simp [ht]), listedFrom, if_neg (by simp [ht])]
  simp [htype, listed]

/-- A last token that is no name is not listed. -/
lemma listedFrom_concat (ht : t.kind ≠ .name) :
    ∀ typed, listedFrom typed (ts ++ [t]) = listedFrom typed ts := by
  induction ts with
  | nil => simp [listedFrom, ht]
  | cons u rest ih =>
    intro typed
    rw [List.cons_append, listedFrom, listedFrom, ih, ih]

/-- Every name among the tokens is mentioned. -/
lemma mem_mentioned (h : t ∈ ts) (hkind : t.kind = .name) : t.key ∈ mentioned ts :=
  List.mem_map_of_mem (List.mem_filter.mpr ⟨h, decide_eq_true hkind⟩)

/-- What some tokens mention is mentioned by all tokens that include them. -/
lemma mentioned_subset (h : ts ⊆ us) : mentioned ts ⊆ mentioned us := by
  intro key hkey
  obtain ⟨t, ht, rfl⟩ := List.mem_map.mp hkey
  obtain ⟨hmem, hkind⟩ := List.mem_filter.mp ht
  exact mem_mentioned (h hmem) (of_decide_eq_true hkind)

/-- What is listed is mentioned. -/
lemma listedFrom_subset_mentioned : ∀ typed, listedFrom typed ts ⊆ mentioned ts := by
  induction ts with
  | nil => exact fun _ => List.nil_subset _
  | cons t rest ih =>
    intro typed
    rw [listedFrom]
    have hrest : mentioned rest ⊆ mentioned (t :: rest) :=
      mentioned_subset (List.subset_cons_self t rest)
    split_ifs with hname
    · exact List.cons_subset.mpr
        ⟨mem_mentioned List.mem_cons_self hname.1, List.Subset.trans (ih _) hrest⟩
    · exact List.Subset.trans (ih _) hrest

/-! ### Typed lists -/

/-- The typed names are those that the tokens list, and their types are the root or mentioned among
the tokens. -/
structure IsListing (tokens : List Token) (typed : List TypedName) : Prop where
  names : typed.map (fun entity => fold entity.name) = listed tokens
  types : ∀ entity ∈ typed, ∀ type ∈ entity.type.options,
    fold type = rootType ∨ fold type ∈ mentioned tokens

/-- Names that are read from tokens have their keys, whatever their types are. -/
lemma keys_of_texts {typed : String → TypedName} (h : ∀ text, (typed text).name = text) :
    ((ts.map Token.text).map typed).map (fun entity => fold entity.name) = ts.map Token.key := by
  simp [Token.key, h]

/-- Names without a type. -/
lemma IsListing.of_untyped (h : ∀ t ∈ ts, t.kind = .name) :
    IsListing ts ((ts.map Token.text).map TypedName.untyped) where
  names := by
    rw [keys_of_texts fun _ => rfl, ← List.append_nil ts, listed_names_append h, List.append_nil]
    exact (List.append_nil _).symm
  types := by
    intro entity hentity type htype
    obtain ⟨text, -, rfl⟩ := List.mem_map.mp hentity
    left
    rw [List.mem_singleton.mp htype]
    decide

/-- Names with the type after them, before another listing. -/
lemma IsListing.typed {minus type : Token} {others : List TypedName}
    (h : ∀ t ∈ ts, t.kind = .name) (hminus : minus.kind = .minus) (htype : type.kind = .name)
    (hothers : IsListing us others) :
    IsListing (ts ++ minus :: type :: us)
      ((ts.map Token.text).map (fun text => ⟨text, .named type.text⟩) ++ others) where
  names := by
    rw [List.map_append, keys_of_texts fun _ => rfl, hothers.names, listed_names_append h,
      listed_cons_typed hminus htype]
  types := by
    intro entity hentity name hname
    rcases List.mem_append.mp hentity with hentity | hentity
    · obtain ⟨text, -, rfl⟩ := List.mem_map.mp hentity
      rw [List.mem_singleton.mp hname]
      exact Or.inr (mem_mentioned (by simp) htype)
    · exact (hothers.types entity hentity name hname).imp_right
        fun hkey => mentioned_subset (fun t ht => by simp [ht]) hkey

/-- Words that list typed names without alternative types are a listing of them. -/
lemma IsTypedList.isListing {typed : List TypedName} {words : List Word}
    (h : IsTypedList .name false typed words) :
    ∀ {ts : List Token}, ts.map Token.word = words → IsListing ts typed := by
  induction h with
  | untyped names =>
    intro ts hwords
    obtain ⟨hkind, rfl⟩ := of_map_word hwords
    exact .of_untyped hkind
  | group _ htype _ ih =>
    intro ts hwords
    obtain ⟨us, minus, vs, ws, rfl, hnames, hminus, hspelling, hothers⟩ :=
      exists_of_map_group hwords
    obtain ⟨hkind, rfl⟩ := of_map_word hnames
    cases htype with
    | named name =>
      obtain ⟨type, rfl, htype⟩ := List.map_eq_singleton_iff.mp hspelling
      obtain rfl : type.text = name := congrArg Word.text htype
      exact .typed hkind hminus (congrArg Word.kind htype) (ih hothers)
    | either hallowed => cases hallowed

/-- A last token that is no name changes no listing. -/
lemma IsListing.concat {typed : List TypedName} (h : IsListing ts typed) (ht : t.kind ≠ .name) :
    IsListing (ts ++ [t]) typed where
  names := by rw [h.names, listed, listed, listedFrom_concat ht]
  types := fun entity hentity type htype => (h.types entity hentity type htype).imp_right
    fun hkey => mentioned_subset (List.subset_append_left _ _) hkey

namespace Reader

variable {c : Context} {s s' : State}

/-! ### Declarations -/

/-- A typed list of names without alternative types is what its tokens list. -/
lemma typedList_listed {typed : List TypedName} (hv : s.cursor.Valid)
    (h : typedList .name false c s = .ok typed s') :
    ∃ ts, Consumes s ts s' ∧ Balanced ts ∧ IsListing ts typed := by
  obtain ⟨ts, hc, hlist, -⟩ := typedList_spelled hv h
  exact ⟨ts, hc, hlist.balanced (by decide) rfl, hlist.isListing rfl⟩

/-- The declaration of a predicate or function consumes a group that its name is the head of. -/
lemma skeleton_consumes {token : Token} {params : List TypedName} (hv : s.cursor.Valid)
    (h : Assembly.skeleton c s = .ok (token, params) s') :
    ∃ ts, Consumes s ts s' ∧ IsGroup ts ∧ heads ts = [token.key] := by
  simp only [Assembly.skeleton, bind_eq_ok, pure_eq_ok, Prod.mk.injEq] at h
  obtain ⟨o, s₁, hopen, t, s₂, hname, typed, s₃, htyped, cl, s₄, hclose, ⟨rfl, -⟩, rfl⟩ := h
  obtain ⟨-, hopenKind, hc₁⟩ := expect_consumes hv hopen (by decide)
  obtain ⟨-, hnameKind, hc₂⟩ := expect_consumes hc₁.valid hname (by decide)
  obtain ⟨ts, hc₃, hts⟩ := typedList_consumes (by decide) hc₂.valid htyped
  obtain ⟨-, hcloseKind, hc₄⟩ := expect_consumes hc₃.valid hclose (by decide)
  have hgroup : IsGroup (o :: t :: (ts ++ [cl])) := by
    refine ⟨o, t :: ts, cl, rfl, hopenKind, hcloseKind, ?_⟩
    exact .plain (by simp [hnameKind]) (by simp [hnameKind]) hts
  exact ⟨_, hc₁.cons (hc₂.cons (hc₃.concat hc₄)), hgroup, heads_group hgroup rfl⟩

/-! ### Sections -/

/-- Consuming a token of an expected kind and text. -/
lemma expectText_consumes {kind : Token.Kind} {text expected : String} (hv : s.cursor.Valid)
    (h : expectText kind text expected c s = .ok t s') (hkind : kind ≠ .endOfInput) :
    t.kind = kind ∧ Consumes s [t] s' := by
  simp only [expectText, bind_eq_ok, current_eq_ok] at h
  obtain ⟨u, s₁, ⟨rfl, rfl⟩, h⟩ := h
  split_ifs at h with hcond
  · simp only [Bool.and_eq_true, decide_eq_true_eq] at hcond
    obtain ⟨rfl, hc⟩ := advance_consumes hv h (by rw [hcond.1]; exact hkind)
    exact ⟨hcond.1, hc⟩
  · exact absurd h (by simp)

/-- The heading of a document opens a group and has five more tokens, which are balanced. -/
lemma header_consumes {kind expected name : String} (hv : s.cursor.Valid)
    (h : header kind expected c s = .ok name s') :
    ∃ opening ts, opening.kind = .openParen ∧ Balanced ts ∧ ts.length = 5 ∧
      Consumes s (opening :: ts) s' := by
  simp only [header, bind_eq_ok, pure_eq_ok] at h
  obtain ⟨o, s₁, h₁, t₁, s₂, h₂, o', s₃, h₃, t₂, s₄, h₄, text, s₅, h₅, cl, s₆, h₆, -, rfl⟩ := h
  obtain ⟨-, hopen, hc₁⟩ := expect_consumes hv h₁ (by decide)
  obtain ⟨hdefine, hc₂⟩ := expectText_consumes hc₁.valid h₂ (by decide)
  obtain ⟨-, hopen', hc₃⟩ := expect_consumes hc₂.valid h₃ (by decide)
  obtain ⟨hkind, hc₄⟩ := expectText_consumes hc₃.valid h₄ (by decide)
  obtain ⟨hname, -, hc₅⟩ := name_consumes hc₄.valid h₅
  obtain ⟨-, hclose, hc₆⟩ := expect_consumes hc₅.valid h₆ (by decide)
  refine ⟨o, _, hopen, ?_, rfl, hc₁.cons (hc₂.cons (hc₃.cons (hc₄.cons (hc₅.cons hc₆))))⟩
  have hinner : Balanced [t₂, s₄.cursor.current] :=
    .plain (by simp [hkind]) (by simp [hkind]) (.plain (by simp [hname]) (by simp [hname]) .nil)
  exact .plain (by simp [hdefine]) (by simp [hdefine]) (.group hopen' hinner hclose .nil)

/-- A keyword is neither a parenthesis nor the end of the input. -/
lemma kind_of_isKeyword (h : isKeyword t = true) :
    t.kind ≠ .openParen ∧ t.kind ≠ .closeParen ∧ t.kind ≠ .endOfInput := by
  simp only [isKeyword, Bool.or_eq_true, decide_eq_true_eq] at h
  rcases h with h | h <;> rw [h] <;> decide

/-- Consuming a keyword. -/
lemma keyword_consumes {text : String} (hv : s.cursor.Valid)
    (h : keyword text c s = .ok t s') :
    t = s.cursor.current ∧ isKeyword t = true ∧ Consumes s [t] s' := by
  simp only [keyword, bind_eq_ok, current_eq_ok] at h
  obtain ⟨u, s₁, ⟨rfl, rfl⟩, h⟩ := h
  split_ifs at h with hcond
  · have hkeyword : isKeyword s.cursor.current = true := (Bool.and_eq_true _ _ ▸ hcond).1
    obtain ⟨rfl, hc⟩ := advance_consumes hv h (kind_of_isKeyword hkeyword).2.2
    exact ⟨rfl, hkeyword, hc⟩
  · exact absurd h (by simp)

/-- An expression consumes balanced tokens. -/
lemma reader_consumes {position : Position} {e : Expr} (hv : s.cursor.Valid)
    (h : position.reader c s = .ok e s') : ∃ ts, Consumes s ts s' ∧ Balanced ts := by
  obtain ⟨n, hn⟩ := reader_eq_ok h
  obtain ⟨-, ts, hc, hspan⟩ := readWithin_sound position n hv hn
  refine ⟨ts, hc, ?_⟩
  rcases hspan with hgroup | ⟨-, t, rfl, hkind⟩
  · exact hgroup.balanced
  · refine .plain ?_ ?_ .nil <;> rcases hkind with h | h | h <;> rw [h] <;> decide

/-- Whenever the reader succeeds from the state, it consumes balanced tokens, and not none. -/
def Spends {α : Type} (c : Context) (s : State) (reader : ReadM α) : Prop :=
  ∀ a s', reader c s = .ok a s' → ∃ ts, Consumes s ts s' ∧ ts ≠ [] ∧ Balanced ts

/-- What depends on the current token is decided by it. -/
lemma Spends.of_current {α : Type} {reader : Token → ReadM α}
    (h : Spends c s (reader s.cursor.current)) : Spends c s (current >>= reader) := by
  intro a s' hrun
  obtain ⟨t, s₁, hcurrent, hrest⟩ := bind_eq_ok.mp hrun
  obtain ⟨rfl, hs⟩ := current_eq_ok.mp hcurrent
  subst hs
  exact h a s' hrest

/-- A failure consumes nothing, but it is no success either. -/
lemma Spends.failHere {α : Type} {expected : String} {cause : Cause} :
    Spends c s (Reader.failHere expected cause : ReadM α) :=
  fun _ _ h => absurd h (by simp)

/-- Reading the parameters of an action. -/
lemma Spends.parameters {α : Type} {field : List TypedName → α} (hv : s.cursor.Valid) :
    Spends c s (do return field (← Reader.parameters)) := by
  intro a s' h
  simp only [Reader.parameters, bind_eq_ok, pure_eq_ok] at h
  obtain ⟨params, s₄, ⟨kw, s₁, hkw, o, s₂, hopen, typed, s₃, htyped, cl, s₅, hclose, -, rfl⟩, -,
    rfl⟩ := h
  obtain ⟨-, hkeyword, hc₁⟩ := keyword_consumes hv hkw
  obtain ⟨-, hopenKind, hc₂⟩ := expect_consumes hc₁.valid hopen (by decide)
  obtain ⟨ts, hc₃, hts⟩ := typedList_consumes (by decide) hc₂.valid htyped
  obtain ⟨-, hcloseKind, hc₄⟩ := expect_consumes hc₃.valid hclose (by decide)
  obtain ⟨hne, hne', -⟩ := kind_of_isKeyword hkeyword
  refine ⟨_, hc₁.cons (hc₂.cons (hc₃.concat hc₄)), List.cons_ne_nil _ _, .plain hne hne' ?_⟩
  exact .group hopenKind hts hcloseKind .nil

/-- Reading a keyword and an expression after it. -/
lemma Spends.expression {α : Type} (position : Position) {field : Expr → α} (hv : s.cursor.Valid)
    (hkeyword : isKeyword s.cursor.current = true) :
    Spends c s (do
      let _ ← advance
      return field (← position.reader)) := by
  intro a s' h
  simp only [bind_eq_ok, pure_eq_ok] at h
  obtain ⟨t, s₁, hadvance, e, s₂, he, -, rfl⟩ := h
  obtain ⟨hopen, hclose, hend⟩ := kind_of_isKeyword hkeyword
  obtain ⟨rfl, hc₁⟩ := advance_consumes hv hadvance hend
  obtain ⟨ts, hc₂, hts⟩ := reader_consumes hc₁.valid he
  exact ⟨_, hc₁.cons hc₂, List.cons_ne_nil _ _, .plain hopen hclose hts⟩

/-- Reading a field of an instantaneous action. -/
lemma Spends.actionField (hv : s.cursor.Valid) (hkeyword : isKeyword s.cursor.current = true) :
    Spends c s Reader.actionField := by
  refine .of_current ?_
  split
  · exact .parameters hv
  · exact .expression (.condition false) hv hkeyword
  · exact .expression (.effect false) hv hkeyword
  · exact .failHere

/-- Reading a field of a durative action. -/
lemma Spends.durativeActionField (hv : s.cursor.Valid)
    (hkeyword : isKeyword s.cursor.current = true) : Spends c s Reader.durativeActionField := by
  refine .of_current ?_
  split
  · exact .parameters hv
  · exact .expression .duration hv hkeyword
  · exact .expression (.condition true) hv hkeyword
  · exact .expression (.effect true) hv hkeyword
  · exact .failHere

/-- A repetition of items that start with keywords consumes balanced tokens. -/
lemma readWhile_balanced {α : Type} {item : ReadM α}
    (hitem : ∀ s : State, s.cursor.Valid → isKeyword s.cursor.current = true → Spends c s item)
    {items : List α} (hv : s.cursor.Valid) (h : readWhile isKeyword item c s = .ok items s') :
    ∃ ts, Consumes s ts s' ∧ Balanced ts := by
  obtain ⟨parts, -, hparts, hc, -⟩ := readWhile_consumes
    (fun s a s' hv hkeyword hrun => hitem s hv hkeyword a s' hrun) hv h
  exact ⟨_, hc, .flatMap hparts⟩

/-- The fields of an action do not change its name. -/
lemma name_ofFields (name : String) (fields : List ActionField) :
    (Action.ofFields name fields).name = name := by
  have hfold : ∀ (fields : List ActionField) (action : Action),
      (fields.foldl Action.withField action).name = action.name := by
    intro fields
    induction fields with
    | nil => exact fun _ => rfl
    | cons field rest ih =>
      intro action
      rw [List.foldl_cons, ih]
      cases field <;> rfl
  exact hfold fields (Action.bare name)

/-- The name of an action, its fields and the closing parenthesis are the rest of its group. -/
lemma isTail_action {name closing : Token} (hname : name.kind = .name) (hts : Balanced ts)
    (hclose : closing.kind = .closeParen) : IsTail (name :: (ts ++ [closing])) :=
  ⟨name :: ts, closing, rfl, .plain (by simp [hname]) (by simp [hname]) hts, hclose⟩

/-- The keyword of an action and its name are consumed, and its fields and a closing parenthesis are
read after them. -/
def ReadsAction (c : Context) (field : ReadM ActionField) (action : Action) (s s' : State) : Prop :=
  ∃ name fields closing expected s₁ s₂,
    Consumes s [s.cursor.current, name] s₁ ∧ name.kind = .name ∧
      readWhile isKeyword field c s₁ = .ok fields s₂ ∧
      expect .closeParen expected c s₂ = .ok closing s' ∧
      action = Action.ofFields name.text fields

/-- An instantaneous action is read from its keyword on. -/
lemma action_reads {action : Action} (hv : s.cursor.Valid)
    (h : Reader.action c s = .ok action s') : ReadsAction c actionField action s s' := by
  simp only [Reader.action, bind_eq_ok, pure_eq_ok] at h
  obtain ⟨kw, s₁, hkw, text, s₂, hname, fields, s₃, hfields, cl, s₄, hclose, rfl, rfl⟩ := h
  obtain ⟨rfl, -, hc₁⟩ := keyword_consumes hv hkw
  obtain ⟨hkind, rfl, hc₂⟩ := name_consumes hc₁.valid hname
  exact ⟨_, fields, cl, _, s₂, s₃, hc₁.cons hc₂, hkind, hfields, hclose, rfl⟩

/-- A durative action is read from its keyword on. -/
lemma durativeAction_reads {action : Action} (hv : s.cursor.Valid)
    (h : Reader.durativeAction c s = .ok action s') :
    ReadsAction c durativeActionField action s s' := by
  simp only [Reader.durativeAction, bind_eq_ok] at h
  obtain ⟨kw, s₁, hkw, u, s₂, hrequire, text, s₃, hname, fields, s₄, hfields, h⟩ := h
  split_ifs at h
  · simp only [bind_eq_ok, pure_eq_ok] at h
    obtain ⟨cl, s₅, hclose, rfl, rfl⟩ := h
    obtain ⟨rfl, -, hc₁⟩ := keyword_consumes hv hkw
    obtain ⟨-, hc₂⟩ := require_consumes hc₁.valid hrequire
    obtain ⟨hkind, rfl, hc₃⟩ := name_consumes hc₂.valid hname
    exact ⟨_, fields, cl, _, s₃, s₄, hc₁.cons (hc₂.trans hc₃), hkind, hfields, hclose, rfl⟩
  · exact absurd h (by simp)

/-- An action that is read consumes its keyword and the rest of its group, from its name on. -/
lemma ReadsAction.consumes {field : ReadM ActionField} {action : Action}
    (hfield : ∀ s : State, s.cursor.Valid → isKeyword s.cursor.current = true → Spends c s field)
    (h : ReadsAction c field action s s') :
    ∃ ts, Consumes s (s.cursor.current :: ts) s' ∧ IsTail ts ∧
      ts.head?.map Token.text = some action.name := by
  obtain ⟨name, fields, closing, expected, s₁, s₂, hc, hkind, hfields, hclose, rfl⟩ := h
  obtain ⟨ts, hc₁, hts⟩ := readWhile_balanced hfield hc.valid hfields
  obtain ⟨-, hcloseKind, hc₂⟩ := expect_consumes hc₁.valid hclose (by decide)
  refine ⟨name :: (ts ++ [closing]), hc.trans (hc₁.concat hc₂),
    isTail_action hkind hts hcloseKind, ?_⟩
  rw [name_ofFields]
  rfl

/-- An instantaneous action consumes its keyword and the rest of its group, from its name on. -/
lemma action_consumes {action : Action} (hv : s.cursor.Valid)
    (h : Reader.action c s = .ok action s') :
    ∃ ts, Consumes s (s.cursor.current :: ts) s' ∧ IsTail ts ∧
      ts.head?.map Token.text = some action.name :=
  (action_reads hv h).consumes fun _ => Spends.actionField

/-- A durative action consumes its keyword and the rest of its group, from its name on. -/
lemma durativeAction_consumes {action : Action} (hv : s.cursor.Valid)
    (h : Reader.durativeAction c s = .ok action s') :
    ∃ ts, Consumes s (s.cursor.current :: ts) s' ∧ IsTail ts ∧
      ts.head?.map Token.text = some action.name :=
  (durativeAction_reads hv h).consumes fun _ => Spends.durativeActionField

/-- A flag is the key of a keyword, which is consumed. -/
lemma requirementFlag_consumes {flag : String} (hv : s.cursor.Valid)
    (hkeyword : isKeyword s.cursor.current = true) (h : requirementFlag c s = .ok flag s') :
    flag = s.cursor.current.key ∧ Consumes s [s.cursor.current] s' := by
  simp only [requirementFlag, bind_eq_ok] at h
  obtain ⟨t, s₁, hadvance, h⟩ := h
  obtain ⟨rfl, hc⟩ := advance_consumes hv hadvance (kind_of_isKeyword hkeyword).2.2
  split_ifs at h
  · obtain ⟨u, s₂, hreport, hpure⟩ := bind_eq_ok.mp h
    obtain ⟨rfl, rfl⟩ := pure_eq_ok.mp hpure
    exact ⟨rfl, hc.trans (report_consumes hc.valid hreport).2⟩
  · obtain ⟨rfl, rfl⟩ := pure_eq_ok.mp h
    exact ⟨rfl, hc⟩

/-- Reading a flag. -/
lemma Spends.requirementFlag (hv : s.cursor.Valid) (hkeyword : isKeyword s.cursor.current = true) :
    Spends c s Reader.requirementFlag := by
  intro flag s' h
  obtain ⟨hopen, hclose, -⟩ := kind_of_isKeyword hkeyword
  exact ⟨_, (requirementFlag_consumes hv hkeyword h).2, List.cons_ne_nil _ _,
    .plain hopen hclose .nil⟩

end Reader

/-! ### Cursors -/

/-- From one cursor to the other, the tokens were consumed. -/
structure Cursor.Passes (cursor : Cursor) (tokens : List Token) (after : Cursor) : Prop where
  valid : after.Valid
  upcoming : cursor.upcoming = tokens ++ after.upcoming

/-- What a reader consumes is passed by its cursor. -/
lemma Reader.Consumes.passes {s s' : State} (h : Consumes s ts s') :
    s.cursor.Passes ts s'.cursor :=
  ⟨h.valid, h.upcoming⟩

/-- Tokens that are passed one after the other. -/
lemma Cursor.Passes.trans {cursor between after : Cursor} (h : cursor.Passes ts between)
    (h' : between.Passes us after) : cursor.Passes (ts ++ us) after :=
  ⟨h'.valid, by rw [h.upcoming, h'.upcoming, List.append_assoc]⟩

namespace Reader

variable {c : Context} {s s' : State}

/-- A section of requirements passes its keyword, its flags and a closing parenthesis; it does more
than consume them, as the flags hold from then on.  It lists the keys of the flags. -/
lemma requirements_passes {listed : List String} (hv : s.cursor.Valid)
    (h : requirements c s = .ok listed s') :
    ∃ flags closing, s.cursor.Passes (s.cursor.current :: (flags ++ [closing])) s'.cursor ∧
      (∀ flag ∈ flags, isKeyword flag = true) ∧ closing.kind = .closeParen ∧
      listed = Text.union [] (flags.map Token.key) := by
  simp only [requirements, bind_eq_ok, pure_eq_ok] at h
  obtain ⟨kw, s₁, hkw, keys, s₂, hkeys, cl, s₃, hclose, u, s₄, hmodify, u', s₅, hnote, rfl,
    rfl⟩ := h
  cases hmodify
  cases hnote
  obtain ⟨rfl, -, hc₁⟩ := keyword_consumes hv hkw
  obtain ⟨flags, rfl, hflags, hc₂, -⟩ := readWhile_tokens
    (fun s flag s' hv hkeyword hflag => requirementFlag_consumes hv hkeyword hflag) hc₁.valid hkeys
  obtain ⟨-, hcloseKind, hc₃⟩ := expect_consumes hc₂.valid hclose (by decide)
  exact ⟨flags, cl, (hc₁.cons (hc₂.concat hc₃)).passes, hflags, hcloseKind, rfl⟩

/-- Flags are balanced. -/
lemma balanced_flags {flags : List Token} (hflags : ∀ flag ∈ flags, isKeyword flag = true) :
    Balanced flags := by
  refine .of_plain fun flag hflag => ?_
  obtain ⟨hopen, hclose, -⟩ := kind_of_isKeyword (hflags flag hflag)
  exact ⟨hopen, hclose⟩

/-- Flags before a closing parenthesis are the rest of a group. -/
lemma isTail_flags {flags : List Token} {closing : Token}
    (hflags : ∀ flag ∈ flags, isKeyword flag = true) (hclose : closing.kind = .closeParen) :
    IsTail (flags ++ [closing]) :=
  ⟨flags, closing, rfl, balanced_flags hflags, hclose⟩

end Reader

end Pddl
