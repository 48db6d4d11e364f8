import Pddl.Proofs.Truncation

/-!
# Texts that go on behind a parenthesis

The last lexeme of a text can become longer when the text goes on, and a comment can go on too; a
closing parenthesis cannot.  So a text that goes on behind one is scanned in two pieces
(`scan_append`): into the tokens up to the parenthesis, and into those of the other piece, which are
the same as when it is scanned by itself, moved to where it stands (`Scan.run_behind`).
-/

namespace Pddl

/-! ### Moved places and tokens -/

/-- Where a place of a text is when the text comes behind another one. -/
def Place.behind (before : List Char) (place : Place) : Place where
  line := place.line + before.count '\n'
  column := if place.line = 1 then place.column + (after before).column else place.column
  offset := place.offset + before.length

/-- A token of a text that comes behind another one. -/
def Token.behind (before : List Char) (token : Token) : Token where
  kind := token.kind
  text := token.text
  line := token.line + before.count '\n'
  column := if token.line = 1 then token.column + (Place.after before).column else token.column
  offset := token.offset + before.length

namespace Place

variable {before : List Char} {place : Place}

/-- A text starts where the one before it ends. -/
lemma start_behind : start.behind before = after before := by
  simp [behind, start, after]

/-- Moving to the right behind a text. -/
lemma behind_right (n : Nat) : (place.right n).behind before = (place.behind before).right n := by
  unfold behind right
  dsimp only
  split_ifs <;> simp [Nat.add_right_comm]

/-- Moving to the next line behind a text. -/
lemma behind_nextLine (h : 1 ≤ place.line) :
    place.nextLine.behind before = (place.behind before).nextLine := by
  have hline : place.line ≠ 0 := Nat.one_le_iff_ne_zero.mp h
  simp [behind, nextLine, hline, Nat.add_right_comm]

/-- A lexeme at a moved place is a moved token. -/
lemma ofLexeme_behind (kind : Token.Kind) (chars : List Char) :
    Token.ofLexeme kind chars (place.behind before) =
      (Token.ofLexeme kind chars place).behind before := by
  have hline : ((place.line : Int) = 1) ↔ place.line = 1 := by omega
  simp only [Token.ofLexeme, Token.behind, behind, hline, Int.natCast_add, Token.mk.injEq,
    true_and, and_true]
  split_ifs <;> simp

end Place

namespace Scan

/-- The tokens of a text that comes behind another one are its own tokens, moved. -/
lemma run_behind (before : List Char) {place : Place} (h : 1 ≤ place.line) (chars : List Char) :
    (run (place.behind before) chars).tokens =
      (run place chars).tokens.map (Token.behind before) := by
  fun_induction run place chars with
  | case1 => rw [run, List.map_nil]
  | case2 place rest ih =>
    rw [run_newline, ← Place.behind_nextLine h]
    exact ih (Nat.le_add_left 1 _)
  | case3 place c rest hnewline hblank ih =>
    rw [run_blank hblank, ← Place.behind_right]
    exact ih h
  | case4 place rest hnewline hblank ih =>
    rw [run_comment, ← Place.behind_right]
    exact ih h
  | case5 place c rest hnewline hblank hcomment hnone =>
    rw [run_of_lexeme?_eq_none hnewline hblank hcomment hnone]
    rfl
  | case6 place c rest hnewline hblank hcomment kind n hfound ih =>
    rw [run_of_lexeme?_eq_some hfound, cons, cons, List.map_cons, ← Place.ofLexeme_behind,
      ← Place.behind_right]
    exact congrArg _ (ih h)

end Scan

/-! ### Texts that go on -/

/-- A lexeme before a closing parenthesis is found, too, if the text goes on. -/
lemma Token.lexeme?_append_of_close {c : Char} {rest : List Char} {kind : Kind} {m : Nat}
    (place : Place) (h : lexeme? c rest = some (kind, m)) (hclose : ')' ∈ rest)
    (more : List Char) :
    ∃ found, lexeme? c (rest ++ more) = some (found, m) ∧
      ofLexeme found (c :: rest.take m) place = ofLexeme kind (c :: rest.take m) place := by
  have htake : (rest ++ more).take rest.length = rest := List.take_left
  cases hfound : lexeme? c (rest ++ more) with
  | none =>
    have hnone := lexeme?_take_eq_none hfound rest.length
    rw [htake, h] at hnone
    cases hnone
  | some found =>
    obtain ⟨found, k⟩ := found
    -- A lexeme that goes on behind the text would have the parenthesis in it.
    have hk : k ≤ rest.length := by
      by_contra hlt
      have hnot := close_notMem_take hfound (Nat.lt_of_not_le hlt)
      rw [htake] at hnot
      exact hnot (List.mem_cons_of_mem _ hclose)
    obtain ⟨found', hfound', htoken⟩ := exists_lexeme?_take place hfound hk
    rw [htake, h] at hfound'
    cases hfound'
    rw [List.take_append_of_le_length hk] at htoken
    exact ⟨found, rfl, htoken.symm⟩

/-- A closing parenthesis starts with its character. -/
lemma Token.eq_close_of_lexeme? {c : Char} {rest : List Char} {kind : Kind} {m : Nat}
    {place : Place} (h : lexeme? c rest = some (kind, m))
    (hkind : (ofLexeme kind (c :: rest.take m) place).kind = .closeParen) : c = ')' := by
  have hlexeme := (isLongest_ofLexeme h place).isLexeme
  rw [hkind] at hlexeme
  exact (List.cons.inj hlexeme.eq_close).1

namespace Scan

/-- A text has a closing parenthesis if one of its tokens is one. -/
lemma close_mem_of_mem_run {place : Place} {chars : List Char} {token : Token}
    (h : token ∈ (run place chars).tokens) (hkind : token.kind = .closeParen) : ')' ∈ chars := by
  by_contra hnone
  exact kind_ne_close_of_mem_run hnone token h hkind

/-- A comment before a closing parenthesis on another line ends with its line, too, if the text
goes on. -/
lemma run_comment_append {rest : List Char} (h : ')' ∈ rest.dropWhile (· ≠ '\n'))
    (place : Place) (more : List Char) :
    run place (';' :: (rest ++ more)) =
      run (place.right (1 + (rest.takeWhile (· ≠ '\n')).length))
        (rest.dropWhile (· ≠ '\n') ++ more) := by
  have hsplit : rest.takeWhile (· ≠ '\n') ++ rest.dropWhile (· ≠ '\n') = rest :=
    List.takeWhile_append_dropWhile
  have hlength := congrArg List.length hsplit
  rw [List.length_append] at hlength
  have hne : (rest.takeWhile (· ≠ '\n')).length ≠ rest.length := by
    have hpos := List.length_pos_of_mem h
    omega
  have hdrop : (rest ++ more).dropWhile (· ≠ '\n') = rest.dropWhile (· ≠ '\n') ++ more := by
    rw [List.dropWhile_append, if_neg]
    simpa using List.ne_nil_of_mem h
  rw [run_comment, List.takeWhile_append, if_neg hne, hdrop]

/-- A text that ends with a closing parenthesis is scanned up to its end, and if it goes on, the
scan goes on from there. -/
lemma run_append {place : Place} {head chars : List Char} {front back : List Token}
    {closing : Token} (hplace : place = Place.after head)
    (htokens : (run place chars).tokens = front ++ closing :: back)
    (hkind : closing.kind = .closeParen)
    (hend : closing.offset + 1 = place.offset + chars.length) (more : List Char) :
    back = [] ∧
      run place (chars ++ more) =
        ⟨(run place chars).tokens ++ (run (Place.after (head ++ chars)) more).tokens,
          (run (Place.after (head ++ chars)) more).failure⟩ := by
  fun_induction run place chars generalizing head front with
  | case1 => exact absurd htokens (by simp)
  | case2 place rest ih =>
    rw [List.length_cons] at hend
    have hnext : place.nextLine = Place.after (head ++ ['\n']) := by
      rw [hplace, Place.after_newline]
    have hrest := ih hnext htokens (by dsimp only [Place.nextLine]; omega)
    rw [List.append_assoc, List.singleton_append] at hrest
    rwa [List.cons_append, run_newline]
  | case3 place c rest hnewline hblank ih =>
    rw [List.length_cons] at hend
    have hnext : place.right 1 = Place.after (head ++ [c]) := by
      rw [hplace, Place.after_concat hnewline]
    have hrest := ih hnext htokens (by dsimp only [Place.right]; omega)
    rw [List.append_assoc, List.singleton_append] at hrest
    rwa [List.cons_append, run_blank hblank]
  | case4 place rest hnewline hblank ih =>
    have hsplit : rest.takeWhile (· ≠ '\n') ++ rest.dropWhile (· ≠ '\n') = rest :=
      List.takeWhile_append_dropWhile
    have hlength := congrArg List.length hsplit
    rw [List.length_append] at hlength
    rw [List.length_cons] at hend
    have hrest := ih (by rw [hplace, Place.after_comment]) htokens
      (by dsimp only [Place.right]; omega)
    rw [List.append_assoc, List.cons_append, hsplit] at hrest
    have hclose : ')' ∈ rest.dropWhile (· ≠ '\n') :=
      close_mem_of_mem_run (by rw [htokens]; simp) hkind
    rwa [List.cons_append, run_comment_append hclose]
  | case5 => exact absurd htokens (by simp)
  | case6 place c rest hnewline hblank hcomment kind m hfound ih =>
    rw [List.length_cons] at hend
    cases front with
    | nil =>
      obtain ⟨rfl, hback⟩ := List.cons.inj htokens
      have hoffset : place.offset + 1 = place.offset + (rest.length + 1) := hend
      obtain rfl : rest = [] := List.length_eq_zero_iff.mp (by omega)
      obtain rfl : c = ')' := Token.eq_close_of_lexeme? hfound hkind
      cases hfound
      rw [List.drop_nil, run] at hback
      have hat : Place.after (head ++ [')']) = place.right 1 := by
        rw [hplace, Place.after_concat (by decide)]
      rw [hat, List.singleton_append, run_of_lexeme?_eq_some rfl, List.drop_nil, run]
      exact ⟨hback.symm, rfl⟩
    | cons first front =>
      obtain ⟨-, hrest⟩ := List.cons.inj htokens
      have hclose : ')' ∈ rest.drop m := close_mem_of_mem_run (by rw [hrest]; simp) hkind
      obtain ⟨found, hfound', htoken⟩ :=
        Token.lexeme?_append_of_close place hfound (List.mem_of_mem_drop hclose) more
      have hm := Token.lexeme?_le hfound
      have hnext := ih (by rw [hplace, Place.after_lexeme hfound]) hrest
        (by rw [List.length_drop]; dsimp only [Place.right]; omega)
      rw [List.append_assoc, List.cons_append, List.take_append_drop] at hnext
      refine ⟨hnext.1, ?_⟩
      rw [List.cons_append, run_of_lexeme?_eq_some hfound', List.take_append_of_le_length hm,
        List.drop_append_of_le_length hm, htoken, hnext.2]
      rfl

end Scan

/-- A text that ends with a closing parenthesis is scanned without an error, and what comes behind
it is scanned as if it stood by itself. -/
lemma scan_append {text more : String} {front back : List Token} {closing : Token}
    (htokens : (scan text).tokens = front ++ closing :: back)
    (hkind : closing.kind = .closeParen) (hend : closing.offset + 1 = text.toList.length)
    (hmore : (scan more).failure = none) :
    back = [] ∧ (scan text).failure = none ∧
      scan (text ++ more) =
        ⟨(scan text).tokens ++ (scan more).tokens.map (Token.behind text.toList), none⟩ := by
  have hstart : Place.start = Place.after [] := rfl
  have hpieces (chars : List Char) := Scan.run_append hstart htokens hkind
    (by rw [hend]; exact (Nat.zero_add _).symm) chars
  refine ⟨(hpieces []).1, ?_, ?_⟩
  · have hwhole := (hpieces []).2
    rw [List.append_nil] at hwhole
    rw [scan, hwhole, Scan.run]
  · have hfailure := (Scan.words_run_place (Place.after text.toList) .start more.toList).2.mpr hmore
    have hline : 1 ≤ Place.start.line := Nat.le_refl 1
    have hbehind := Scan.run_behind text.toList hline more.toList
    rw [Place.start_behind] at hbehind
    rw [scan, String.toList_append, (hpieces more.toList).2, List.nil_append, hbehind, hfailure]
    rfl

end Pddl
