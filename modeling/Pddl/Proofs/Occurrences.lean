import Pddl.Proofs.Closedness

/-!
# Occurrences in expressions

A part of an expression may occur in it several times, so an occurrence is told by its place: the
positions at which to descend, from the expression down.  `places` are the places of an expression
in pre-order.  `walk` lists the parts at the places, `references` the atoms at the places with what
stands around them (`walk_eq_parts_and_references_eq_atoms`).
-/

namespace Pddl.Expr

/-! ### Places -/

/-- The part of an expression at a place. -/
def partAt? (e : Expr) : List Nat → Option Expr
  | [] => some e
  | i :: place => e.children[i]?.bind fun child => partAt? child place

/-- The expressions around a place, from the whole expression inwards, without the part at the
place itself. -/
def around (e : Expr) : List Nat → List Expr
  | [] => []
  | i :: place =>
    match e.children[i]? with
    | some child => e :: around child place
    | none => []

mutual

/-- The places of an expression: its own one, followed by those in its direct parts. -/
def places (e : Expr) : List (List Nat) :=
  [] :: placesFrom 0 e.children
termination_by (e.size, 0)
decreasing_by
  have := sizeAll_children e
  exact Prod.Lex.left _ _ (by omega)

/-- The places in neighbouring direct parts, the first of which has position `n`. -/
def placesFrom (n : Nat) : List Expr → List (List Nat)
  | [] => []
  | e :: es => e.places.map (n :: ·) ++ placesFrom (n + 1) es
termination_by es => (sizeAll es, es.length + 1)
decreasing_by
  · rw [sizeAll, Prod.lex_def]
    simp only [List.length_cons]
    omega
  · rw [sizeAll, Prod.lex_def]
    simp only [List.length_cons]
    omega

end

/-- The atom that the expression is. -/
def atom? : Expr → Option Atom
  | .atom a => some a
  | _ => none

/-- The atom at a place, with whether it stands in a numeric position: the whole expression does,
or an expression around the place makes its parts numeric. -/
def referenceAt? (numeric : Bool) (e : Expr) (place : List Nat) : Option (Atom × Bool) :=
  ((e.partAt? place).bind atom?).map fun a => (a, numeric || (e.around place).any makesNumeric)

variable {e child : Expr} {es : List Expr} {place : List Nat} {numeric : Bool} {n : Nat}

/-- The places of direct parts are those of each of them below its position. -/
lemma mem_placesFrom : place ∈ placesFrom n es ↔
    ∃ i child rest, es[i]? = some child ∧ rest ∈ child.places ∧ place = (n + i) :: rest := by
  induction es generalizing n with
  | nil => simp [placesFrom]
  | cons e es ih =>
    rw [placesFrom, List.mem_append, List.mem_map, ih]
    constructor
    · rintro (⟨rest, hrest, rfl⟩ | ⟨i, child, rest, hi, hrest, rfl⟩)
      · exact ⟨0, e, rest, rfl, hrest, rfl⟩
      · exact ⟨i + 1, child, rest, hi, hrest, by rw [Nat.add_right_comm, Nat.add_assoc]⟩
    · rintro ⟨i, child, rest, hi, hrest, rfl⟩
      cases i with
      | zero =>
        obtain rfl : e = child := Option.some.inj hi
        exact Or.inl ⟨rest, hrest, rfl⟩
      | succ i =>
        exact Or.inr ⟨i, child, rest, hi, hrest, by rw [Nat.add_right_comm, Nat.add_assoc]⟩

/-- An expression has a part at its places and nowhere else. -/
lemma mem_places (e : Expr) : place ∈ e.places ↔ (e.partAt? place).isSome := by
  induction place generalizing e with
  | nil => simp [places, partAt?]
  | cons i rest ih =>
    rw [places, List.mem_cons, mem_placesFrom, partAt?, Option.isSome_bind]
    simp only [reduceCtorEq, Nat.zero_add, List.cons.injEq, false_or]
    constructor
    · rintro ⟨i, child, rest, hi, hrest, rfl, rfl⟩
      simpa [hi] using (ih child).mp hrest
    · intro h
      cases hi : e.children[i]? with
      | none => simp [hi] at h
      | some child =>
        exact ⟨i, child, rest, hi, (ih child).mpr (by simpa [hi] using h), rfl, rfl⟩

/-- The places of direct parts are in order if those of each of them are. -/
lemma pairwise_placesFrom (h : ∀ e ∈ es, e.places.Pairwise (· < ·)) :
    (placesFrom n es).Pairwise (· < ·) := by
  induction es generalizing n with
  | nil => simp [placesFrom]
  | cons e es ih =>
    obtain ⟨he, hes⟩ := List.forall_mem_cons.mp h
    rw [placesFrom, List.pairwise_append]
    refine ⟨List.pairwise_map.mpr (he.imp fun hlt => List.Lex.cons hlt), ih hes, ?_⟩
    intro first hfirst later hlater
    obtain ⟨rest, -, rfl⟩ := List.mem_map.mp hfirst
    obtain ⟨i, child, rest', -, -, rfl⟩ := mem_placesFrom.mp hlater
    exact List.Lex.rel (by omega)

/-- The places are in pre-order: a part comes before the parts inside it, and these come from left
to right. -/
lemma pairwise_places (e : Expr) : e.places.Pairwise (· < ·) := by
  induction e using induction_children with
  | h e ih =>
    rw [places, List.pairwise_cons]
    refine ⟨fun place hplace => ?_, pairwise_placesFrom ih⟩
    obtain ⟨i, child, rest, -, -, rfl⟩ := mem_placesFrom.mp hplace
    exact List.Lex.nil

/-- What is found at the places of direct parts is what is found in each of them. -/
lemma filterMap_placesFrom {α : Type} {f : List Nat → Option α} {g : Expr → List α}
    (h : ∀ i child, es[i]? = some child →
      child.places.filterMap (fun rest => f ((n + i) :: rest)) = g child) :
    (placesFrom n es).filterMap f = es.flatMap g := by
  induction es generalizing n with
  | nil => simp [placesFrom]
  | cons e es ih =>
    have hfirst : (e.places.map (n :: ·)).filterMap f = g e := by
      rw [List.filterMap_map]
      exact h 0 e rfl
    have hlater : (placesFrom (n + 1) es).filterMap f = es.flatMap g :=
      ih fun i child hi => by
        rw [Nat.add_right_comm, Nat.add_assoc]
        exact h (i + 1) child hi
    rw [placesFrom, List.filterMap_append, hfirst, hlater, List.flatMap_cons]

/-! ### What stands at the places -/

/-- The walk lists the part at each place. -/
lemma filterMap_partAt? (e : Expr) : e.places.filterMap e.partAt? = e.walk := by
  induction e using induction_children with
  | h e ih =>
    have hinner : (placesFrom 0 e.children).filterMap e.partAt? = e.children.flatMap walk := by
      refine filterMap_placesFrom fun i child hi => ?_
      simpa only [Nat.zero_add, partAt?, hi, Option.bind_some] using
        ih child (List.mem_of_getElem? hi)
    rw [places, walk_eq, ← hinner]
    rfl

/-- The atoms of an expression are the expression itself and the atoms of its direct parts. -/
lemma references_eq (e : Expr) : e.references numeric =
    (e.atom?.map (·, numeric)).toList ++
      e.children.flatMap (references (e.makesNumeric || numeric)) := by
  have hall (es : List Expr) (numeric : Bool) :
      referencesAll numeric es = es.flatMap (references numeric) := by
    induction es with
    | nil => rfl
    | cons e es ih => rw [referencesAll, ih, List.flatMap_cons]
  cases e <;> simp [references, hall, atom?, children, makesNumeric]

/-- What the atom at a place inside a direct part refers to, seen from the whole expression. -/
lemma referenceAt?_cons {i : Nat} (hi : e.children[i]? = some child) :
    referenceAt? numeric e (i :: place) =
      referenceAt? (e.makesNumeric || numeric) child place := by
  simp only [referenceAt?, partAt?, around, hi, Option.bind_some, List.any_cons]
  rw [Bool.or_left_comm, Bool.or_assoc]

/-- The atoms are listed place by place. -/
lemma filterMap_referenceAt? (e : Expr) (numeric : Bool) :
    e.places.filterMap (referenceAt? numeric e) = e.references numeric := by
  induction e using induction_children generalizing numeric with
  | h e ih =>
    have hinner : (placesFrom 0 e.children).filterMap (referenceAt? numeric e) =
        e.children.flatMap (references (e.makesNumeric || numeric)) := by
      refine filterMap_placesFrom fun i child hi => ?_
      simp only [Nat.zero_add, referenceAt?_cons hi]
      exact ih child (List.mem_of_getElem? hi) _
    have hself : referenceAt? numeric e [] = e.atom?.map (·, numeric) := by
      simp [referenceAt?, partAt?, around]
    rw [places, references_eq, ← hinner, List.filterMap_cons, hself]
    cases e.atom? <;> rfl

/-- Without their positions, the atoms are those among the parts. -/
lemma map_fst_references (e : Expr) (numeric : Bool) :
    (e.references numeric).map Prod.fst = e.walk.filterMap atom? := by
  rw [← filterMap_referenceAt?, ← filterMap_partAt?, List.map_filterMap, List.filterMap_filterMap]
  congr 1
  funext place
  rw [referenceAt?, Option.map_map]
  exact Option.map_id'

/-! ### The loop -/

/-- A round of the loop that walks through expressions, on what is listed and what waits: the
first expression that waits is listed, and its direct parts wait in its stead. -/
def walkRound : List Expr × List Expr → List Expr × List Expr
  | (listed, []) => (listed, [])
  | (listed, e :: waiting) => (listed ++ [e], e.children ++ waiting)

/-- A round keeps what is listed in the end. -/
lemma walkRound_keeps (s : List Expr × List Expr) :
    (walkRound s).1 ++ walkFrom (walkRound s).2 = s.1 ++ walkFrom s.2 := by
  rcases s with ⟨listed, _ | ⟨e, waiting⟩⟩
  · rfl
  · rw [walkRound, List.append_assoc, walkFrom, List.singleton_append]

/-- A round takes one node from what waits. -/
lemma walkRound_spends (s : List Expr × List Expr) :
    sizeAll (walkRound s).2 = sizeAll s.2 - 1 := by
  rcases s with ⟨listed, _ | ⟨e, waiting⟩⟩
  · rfl
  · have := sizeAll_children e
    simp only [walkRound, sizeAll_append, sizeAll]
    omega

/-- The rounds keep what is listed in the end, and each takes one node from what waits. -/
lemma walkRound_iterate (n : Nat) (s : List Expr × List Expr) :
    (walkRound^[n] s).1 ++ walkFrom (walkRound^[n] s).2 = s.1 ++ walkFrom s.2 ∧
      sizeAll (walkRound^[n] s).2 = sizeAll s.2 - n := by
  induction n with
  | zero => exact ⟨rfl, rfl⟩
  | succ n ih =>
    rw [Function.iterate_succ_apply', walkRound_keeps, walkRound_spends, ih.2]
    exact ⟨ih.1, by omega⟩

/-- Only no expressions have no nodes. -/
lemma sizeAll_eq_zero : sizeAll es = 0 ↔ es = [] := by
  cases es with
  | nil => simp [sizeAll]
  | cons e es =>
    have := sizeAll_children e
    simp only [sizeAll, reduceCtorEq, iff_false]
    omega

/-- The loop ends after as many rounds as the expression has nodes, and the walk is listed then. -/
lemma walkRound_iterate_eq (e : Expr) :
    (∀ n, (walkRound^[n] ([], [e])).2 = [] ↔ e.size ≤ n) ∧
      walkRound^[e.size] ([], [e]) = (e.walk, []) := by
  have hspends (n : Nat) : sizeAll (walkRound^[n] ([], [e])).2 = e.size - n :=
    (walkRound_iterate n ([], [e])).2
  have hends (n : Nat) : (walkRound^[n] ([], [e])).2 = [] ↔ e.size ≤ n := by
    rw [← sizeAll_eq_zero, hspends, Nat.sub_eq_zero_iff_le]
  refine ⟨hends, ?_⟩
  have hend := (hends e.size).mpr le_rfl
  have hlisted := (walkRound_iterate e.size ([], [e])).1
  rw [hend, walkFrom, List.append_nil, List.nil_append] at hlisted
  exact Prod.ext hlisted hend

/-- Both traversals agree with the tree.  The loop of `walk` ends, and lists an expression before
the parts of its direct parts: at each place of the expression, in pre-order, the part there.  At
the places of atoms `references` lists the atoms, as often and in the order in which the walk has
them, as numeric if the whole expression or one around the place asks for numbers. -/
theorem walk_eq_parts_and_references_eq_atoms (e : Expr) :
    ((∀ n, (walkRound^[n] ([], [e])).2 = [] ↔ e.size ≤ n) ∧
        walkRound^[e.size] ([], [e]) = (e.walk, [])) ∧
      e.walk = e :: e.children.flatMap walk ∧
      (e.places.Pairwise (· < ·) ∧ ∀ place, place ∈ e.places ↔ (e.partAt? place).isSome) ∧
      e.walk = e.places.filterMap e.partAt? ∧
      ∀ numeric, e.references numeric = e.places.filterMap (referenceAt? numeric e) ∧
        (e.references numeric).map Prod.fst = e.walk.filterMap atom? :=
  ⟨walkRound_iterate_eq e, walk_eq e, ⟨pairwise_places e, fun _ => mem_places e⟩,
    (filterMap_partAt? e).symm,
    fun numeric => ⟨(filterMap_referenceAt? e numeric).symm, map_fst_references e numeric⟩⟩

end Pddl.Expr
