import Ruse.Core.FindMatch
import Ruse.Core.LineSpans

/-!
# The `%` search ends

A search stands on a line of the text and not past its end (`Scan.On`). Each step
moves its offset in the text in one direction, over a line end too (`Mode.move_spec`),
and looking at a character moves it no way back (`Mode.look_spec`), so the loop ends
within as many steps as the text has bytes (`Mode.run_ends`). Each step opens one bracket at
most, so in a text of fewer than 2³¹ bytes no count passes `i32Max` (`percent_terminates`).
-/

namespace Ruse.Core.FindMatch

variable {line : Bytes} {c col : Nat}

/-! ## The lines of a text -/

/-- The lines of `%` are the rows of the text. -/
theorem Lines.new_starts (b : Bytes) :
    (Lines.new b).starts = (List.range (rows b).length).map (startAt (rows b)) := by
  have h := rows_spec b
  have hstarts := h.lineStartsOf
  have hlen := h.length
  unfold Lines.new
  cases hnl : endsNl b with
  | true =>
    rw [hnl, if_pos rfl] at hstarts hlen
    have hne : b ≠ [] := by
      rintro rfl
      cases hnl
    have hpos := List.length_pos_iff.mpr (h.ne_nil hne)
    have hlast : (lineStartsOf b).getLast? = some b.length := by
      rw [hstarts, List.range_succ, List.map_append, List.map_singleton, List.getLast?_concat, ← hlen]
      rfl
    rw [if_pos ⟨by rw [hstarts, List.length_map, List.length_range]; omega, hlast⟩, hstarts,
      List.range_succ, List.map_append, List.map_singleton, List.dropLast_concat]
  | false =>
    rw [hnl] at hstarts h hlen
    simp only [Bool.false_eq_true, if_false, Nat.add_zero] at hstarts hlen
    rw [if_neg, hstarts]
    rintro ⟨hmany, hlast⟩
    obtain ⟨front, l, hrows, hb⟩ := h.unterminated
    have hsize : (rows b).length = front.length + 1 := by rw [hrows, List.length_append]; rfl
    rw [hstarts, hsize, List.range_succ, List.map_append, List.map_singleton,
      List.getLast?_concat, Option.some.injEq] at hlast
    rw [hstarts, List.length_map, List.length_range, hsize] at hmany
    have hfront : startAt (rows b) front.length = (terminated front).length := by
      rw [startAt, hrows, List.take_left]
    have hlen' : b.length = (terminated front).length + l.length := by
      have := congrArg List.length hb
      rwa [List.length_append] at this
    -- an empty last line after another one would be after a final newline
    have hl : l = [] := List.eq_nil_of_length_eq_zero (by omega)
    have hne : b ≠ [] := by
      rw [hb, hl, List.append_nil]
      intro hnil
      rw [terminated_eq_nil.mp hnil] at hmany
      exact absurd hmany (by decide)
    exact h.last rfl hne (by rw [hrows, hl]; simp)

theorem Lines.new_count (b : Bytes) : (Lines.new b).count = (rows b).length := by
  rw [Lines.count, Lines.new_starts, List.length_map, List.length_range]

theorem Lines.new_start {b : Bytes} {l : Nat} (h : l < (rows b).length) :
    (Lines.new b).start l = startAt (rows b) l := by
  rw [Lines.start, Lines.new_starts, List.getD_eq_getElem?_getD, List.getElem?_map,
    List.getElem?_range h, Option.map_some, Option.getD_some]

theorem Lines.new_line {b : Bytes} {l : Nat} (h : (rows b)[l]? = some line) :
    (Lines.new b).line l = line := by
  have hlt := (List.getElem?_eq_some_iff.mp h).1
  rw [Lines.line, Lines.new_start hlt, show (Lines.new b).b = b from rfl, (rows_spec b).lineEnd h,
    (rows_spec b).slice_line h]

/-- Every line but the last has its newline. -/
theorem rows_length_le (b : Bytes) : (rows b).length ≤ b.length + 1 := by
  have hstart (i : Nat) (hi : i ≤ (rows b).length) : i ≤ startAt (rows b) i := by
    induction i with
    | zero => exact Nat.zero_le _
    | succ i ih => exact Nat.lt_of_le_of_lt (ih (by omega)) (startAt_lt _ (Nat.lt_succ_self i) hi)
  have hlen := (rows_spec b).length
  have := hstart _ (Nat.le_refl _)
  split at hlen <;> omega

/-! ## A line's comment starts in it -/

theorem cLineComment_lt {s : Bytes} {p : Nat} (h : cLineComment s p = some c) : c < s.length := by
  induction hleft : s.length - p using Nat.strongRecOn generalizing p with
  | ind n ih =>
    rw [cLineComment] at h
    split at h
    · cases h
    · rename_i off hoff
      have hlt := (List.findIdx?_eq_some_iff_getElem.mp hoff).1
      rw [slice, List.length_take, List.length_drop] at hlt
      dsimp only at h
      split at h
      · cases h
        omega
      · exact ih _ (by omega) h rfl

/-- A Lisp comment begins on the line. -/
theorem lispLineComment_lt {s : Bytes} {inStr : Bool} {p : Nat}
    (h : lispLineComment s inStr p = some c) : c < s.length := by
  induction hleft : s.length - p using Nat.strongRecOn generalizing p inStr with
  | ind n ih =>
    rw [lispLineComment] at h
    split at h
    · cases h
    · rename_i off hoff
      have hlt := (List.findIdx?_eq_some_iff_getElem.mp hoff).1
      rw [List.length_drop] at hlt
      dsimp only at h
      split at h
      · split at h
        · exact ih _ (by omega) h rfl
        · exact ih _ (by omega) h rfl
      split at h
      · cases h
        omega
      · exact ih _ (by omega) h rfl

theorem checkLinecomment_lt {lisp : Bool} (h : checkLinecomment line lisp = some c) :
    c < line.length := by
  unfold checkLinecomment at h
  split at h
  · exact lispLineComment_lt h
  · exact cLineComment_lt h

/-! ## A step stays in the text and moves on -/

/-- The search stands on a line, and not past its end. -/
def Scan.On (ls : List Bytes) (s : Scan) : Prop := ∃ line, ls[s.line]? = some line ∧ s.col ≤ line.length

/-- Where the search stands in the text. -/
def Scan.offset (ls : List Bytes) (s : Scan) : Nat := startAt ls s.line + s.col

theorem Scan.On.offset_le {b : Bytes} {s : Scan} (h : s.On (rows b)) :
    s.offset (rows b) ≤ b.length := by
  obtain ⟨line, hline, hcol⟩ := h
  have := ((rows_spec b).line_le hline).1
  unfold Scan.offset
  omega

theorem charLen_le {i : Nat} (h : i < line.length) :
    0 < charLen line i ∧ i + charLen line i ≤ line.length := by
  unfold charLen
  cases hw : charLenAt line i with
  | none =>
    rw [Option.getD_none, Nat.max_self]
    omega
  | some w =>
    have := charLenAt_le hw
    rw [Option.getD_some]
    omega

namespace Mode

variable {b : Bytes} {m : Mode} {s s' : Scan}

/-- A move goes to another place of the text, all of it on one side. -/
theorem move_spec (hm : m.lines = Lines.new b) (hs : s.On (rows b)) (h : m.move s = some s') :
    s'.On (rows b) ∧ (m.backwards = true → s'.offset (rows b) < s.offset (rows b)) ∧
      (m.backwards = false → s.offset (rows b) < s'.offset (rows b)) := by
  obtain ⟨line, hline, hcol⟩ := hs
  have hlt := (List.getElem?_eq_some_iff.mp hline).1
  have hthis : m.lines.line s.line = line := by rw [hm, Lines.new_line hline]
  unfold move at h
  rw [hthis] at h
  cases hback : m.backwards with
  | true =>
    rw [hback, if_pos rfl] at h
    split at h
    · cases h
    split at h
    · rename_i hzero
      split at h
      · cases h
      · rename_i hfirst
        -- up to the line above: its newline lies in between
        obtain ⟨above, habove⟩ : ∃ above, (rows b)[s.line - 1]? = some above :=
          ⟨_, List.getElem?_eq_getElem (by omega)⟩
        have hprev : m.lines.line (s.line - 1) = above := by rw [hm, Lines.new_line habove]
        have hsucc := startAt_succ habove
        rw [show s.line - 1 + 1 = s.line by omega] at hsucc
        rw [hprev] at h
        cases h
        have hle : (if m.lisp = true then
            (if m.comment ≠ 0 ∨ m.lisp = true then checkLinecomment above m.lisp
              else s.commentCol).getD above.length else above.length) ≤ above.length := by
          split
          · rename_i hlisp
            rw [if_pos (.inr hlisp)]
            cases hc : checkLinecomment above m.lisp with
            | none => exact Nat.le_refl _
            | some c => exact Nat.le_of_lt (checkLinecomment_lt hc)
          · exact Nat.le_refl _
        refine ⟨⟨above, habove, hle⟩, fun _ => ?_, fun h => by cases h⟩
        unfold Scan.offset
        dsimp only
        omega
    · cases h
      have := backOver_le line (s.col - 1)
      refine ⟨⟨line, hline, by dsimp only; omega⟩, fun _ => ?_, fun h => by cases h⟩
      unfold Scan.offset
      dsimp only
      omega
  | false =>
    rw [hback, if_neg (by simp)] at h
    split at h
    · split at h
      · cases h
      · rename_i hmore
        rw [not_or, hm, Lines.new_count] at hmore
        cases h
        obtain ⟨below, hbelow⟩ : ∃ below, (rows b)[s.line + 1]? = some below :=
          ⟨_, List.getElem?_eq_getElem (by omega)⟩
        have hsucc := startAt_succ hline
        refine ⟨⟨below, hbelow, Nat.zero_le _⟩, fun h => (by cases h), fun _ => ?_⟩
        unfold Scan.offset
        dsimp only
        omega
    · rename_i hnot
      cases h
      have hin : s.col < line.length := lt_of_byteAt fun h => hnot (.inl h)
      have := charLen_le hin
      refine ⟨⟨line, hline, by dsimp only; omega⟩, fun h => (by cases h), fun _ => ?_⟩
      unfold Scan.offset
      dsimp only
      omega

theorem move_count (h : m.move s = some s') : s'.count = s.count := by
  unfold move at h
  dsimp only at h
  repeat' split at h
  all_goals first
    | (cases h; rfl)
    | cases h

/-- The state after looking at a character is on the same line, no column back, and counts
one more at most. -/
structure Keeps (m : Mode) (s s' : Scan) : Prop where
  count : s'.count ≤ s.count + 1
  line : s'.line = s.line
  back : m.backwards = true → s'.col ≤ s.col
  forth : m.backwards = false →
    s.col ≤ s'.col ∧ (s'.col = s.col ∨ s'.col < (m.lines.line s.line).length)

theorem Keeps.same (hline : s'.line = s.line) (hcol : s'.col = s.col)
    (hcount : s'.count ≤ s.count + 1) : Keeps m s s' :=
  ⟨hcount, hline, fun _ => Nat.le_of_eq hcol, fun _ => ⟨Nat.le_of_eq hcol.symm, .inl hcol⟩⟩

theorem opened_go (h : s.opened = .go s') : s' = { s with count := s.count + 1 } := by
  unfold Scan.opened at h
  split at h
  · cases h
    rfl
  · cases h

theorem opened_fault (h : s.opened = .fault) : i32Max ≤ s.count := by
  unfold Scan.opened at h
  split at h
  · cases h
  · rename_i hmax
    omega

theorem lookComment_keeps (h : m.lookComment s = .go s') : Keeps m s s' := by
  unfold lookComment at h
  dsimp only at h
  repeat' split at h
  all_goals first
    | (cases h; exact .same rfl rfl (Nat.le_succ _))
    | (obtain rfl := opened_go h; exact .same rfl rfl (Nat.le_refl _))
    | cases h

theorem quotes_line (m : Mode) (s : Scan) : (m.quotes s).line = s.line := by
  unfold quotes
  dsimp only
  repeat' split
  all_goals rfl

theorem quotes_col (m : Mode) (s : Scan) : (m.quotes s).col = s.col := by
  unfold quotes
  dsimp only
  repeat' split
  all_goals rfl

theorem quotes_count (m : Mode) (s : Scan) : (m.quotes s).count = s.count := by
  unfold quotes
  dsimp only
  repeat' split
  all_goals rfl

/-- A literal skipped leads on in the direction of the search, on its line. -/
theorem skipLiteral_spec (h : m.skipLiteral s = some col) :
    (m.backwards = true → col ≤ s.col) ∧
      (m.backwards = false → s.col ≤ col ∧ col < (m.lines.line s.line).length) := by
  unfold skipLiteral at h
  dsimp only at h
  have hin : ∀ i, byteAt (m.lines.line s.line) i = ch '\'' → i < (m.lines.line s.line).length :=
    fun i hi => lt_of_byteAt (by rw [hi]; decide)
  split at h
  · cases h
  cases hback : m.backwards with
  | true =>
    rw [hback, if_pos rfl] at h
    refine ⟨fun _ => ?_, fun h => by cases h⟩
    split at h
    · split at h
      · cases h
        omega
      · split at h
        · cases h
          omega
        · cases h
    · cases h
  | false =>
    rw [hback, if_neg (by simp)] at h
    refine ⟨fun h => (by cases h), fun _ => ?_⟩
    split at h
    · split at h
      · rename_i hquote
        cases h
        exact ⟨by omega, hin _ hquote.2.2⟩
      · split at h
        · rename_i hquote
          cases h
          exact ⟨by omega, hin _ hquote⟩
        · cases h
    · cases h

/-- A look at a byte keeps what the search has counted within its bounds. -/
theorem look_keeps (h : m.look s = .go s') : Keeps m s s' := by
  unfold look at h
  split at h
  · exact lookComment_keeps h
  split at h
  · cases h
  dsimp only at h
  have hline := quotes_line m s
  have hcol := quotes_col m s
  have hcount : (m.quotes s).count ≤ s.count + 1 := by
    rw [quotes_count]
    exact Nat.le_succ _
  split at h
  · split at h <;> cases h <;> exact .same hline hcol hcount
  split at h
  · split at h <;> cases h <;> exact .same hline hcol hcount
  split at h
  · rename_i col hskip
    cases h
    obtain ⟨hback, hforth⟩ := skipLiteral_spec hskip
    rw [hline, hcol] at hforth
    rw [hcol] at hback
    exact ⟨hcount, hline, hback, fun hm => ⟨(hforth hm).1, .inr (hforth hm).2⟩⟩
  split at h
  · cases h
    exact .same hline hcol hcount
  split at h
  · split at h
    · obtain rfl := opened_go h
      exact .same hline hcol (Nat.add_le_add_right (Nat.le_of_eq (quotes_count m s)) 1)
    · split at h
      · cases h
      · cases h
        exact .same hline hcol (Nat.le_trans (Nat.sub_le _ _) hcount)
  · cases h
    exact .same hline hcol hcount

/-- A line has fewer quotes than bytes, and the count starts below none. -/
theorem countQuotes_le (line : Bytes) (mark i : Nat) (q atStart : Int) :
    (countQuotes line mark i q atStart).1 ≤ q + (line.length - i : Nat) := by
  induction hleft : line.length - i using Nat.strongRecOn generalizing i q atStart with
  | ind n ih =>
    rw [countQuotes]
    split
    · dsimp only
      refine Int.le_trans (ih _ ?_ _ _ _ rfl) ?_
      · split <;> omega
      · split <;> split <;> omega
    · dsimp only
      omega

/-- In a short text no count passes `i32Max` before there have been as many steps. -/
theorem look_no_fault (hm : m.lines = Lines.new b) (hs : s.On (rows b)) (hcount : s.count < i32Max)
    (hlen : b.length ≤ i32Max) : m.look s ≠ .fault := by
  intro h
  unfold look at h
  split at h
  · unfold lookComment at h
    dsimp only at h
    repeat' split at h
    all_goals first
      | cases h
      | exact absurd (opened_fault h) (Nat.not_le_of_lt hcount)
  split at h
  · rename_i hquotes
    obtain ⟨line, hline, -⟩ := hs
    have hle := countQuotes_le line (s.col + if m.backwards then 1 else 0) 0 (-1) (-1)
    have hline' := ((rows_spec b).line_le hline).1
    have hmany := hquotes.2
    rw [lineQuotes, hm, Lines.new_line hline] at hmany
    omega
  dsimp only at h
  repeat' split at h
  all_goals first
    | cases h
    | (have hmax := opened_fault h
       dsimp only at hmax
       rw [quotes_count] at hmax
       omega)

/-- Looking at a character keeps the search in the text, where it is or farther on. -/
theorem look_spec (hm : m.lines = Lines.new b) (hs : s.On (rows b)) (h : m.look s = .go s') :
    s'.On (rows b) ∧ (m.backwards = true → s'.offset (rows b) ≤ s.offset (rows b)) ∧
      (m.backwards = false → s.offset (rows b) ≤ s'.offset (rows b)) := by
  obtain ⟨line, hline, hcol⟩ := hs
  obtain ⟨-, hsame, hback, hforth⟩ := look_keeps h
  rw [hm, Lines.new_line hline] at hforth
  unfold Scan.offset
  rw [hsame]
  refine ⟨⟨line, by rw [hsame, hline], ?_⟩, fun hm => Nat.add_le_add_left (hback hm) _,
    fun hm => Nat.add_le_add_left (hforth hm).1 _⟩
  cases hdir : m.backwards with
  | true => exact Nat.le_trans (hback hdir) hcol
  | false =>
    rcases (hforth hdir).2 with heq | hlt
    · rw [heq]
      exact hcol
    · exact Nat.le_of_lt hlt

/-- How many steps the search can still take. -/
def left (m : Mode) (b : Bytes) (s : Scan) : Nat :=
  if m.backwards then s.offset (rows b) else b.length - s.offset (rows b)

theorem left_le (hs : s.On (rows b)) : m.left b s ≤ b.length := by
  have := hs.offset_le
  unfold left
  split <;> omega

/-- The search ends, in as many steps as there are bytes on its way, and counts no farther. -/
theorem run_ends (hm : m.lines = Lines.new b) {fuel : Nat} (hs : s.On (rows b))
    (hfuel : m.left b s < fuel) (hlen : b.length ≤ i32Max)
    (hcount : s.count + m.left b s ≤ b.length) : ∃ r, m.run fuel s = some r := by
  induction fuel generalizing s with
  | zero => omega
  | succ fuel ih =>
    unfold run
    cases hmove : m.move s with
    | none => exact ⟨_, rfl⟩
    | some s₁ =>
      obtain ⟨hon, hback, hforth⟩ := move_spec hm hs hmove
      have hmoved := move_count hmove
      have hless : m.left b s₁ < m.left b s := by
        have hle := hon.offset_le
        unfold left
        cases hdir : m.backwards with
        | true => exact hback hdir
        | false =>
          have := hforth hdir
          simp only [Bool.false_eq_true, if_false]
          omega
      dsimp only
      cases hlook : m.look s₁ with
      | done r => exact ⟨r, rfl⟩
      | fault => exact absurd hlook (look_no_fault hm hon (by omega) hlen)
      | go s₂ =>
        obtain ⟨hon', hback', hforth'⟩ := look_spec hm hon hlook
        have hone := (look_keeps hlook).count
        have hkept : m.left b s₂ ≤ m.left b s₁ := by
          have hle := hon'.offset_le
          unfold left
          cases hdir : m.backwards with
          | true => exact hback' hdir
          | false =>
            have := hforth' hdir
            simp only [Bool.false_eq_true, if_false]
            omega
        exact ih hon' (by omega) (by omega)

end Mode

/-! ## The command -/

theorem search_ends {b : Bytes} {lnum : Nat} (hline : (rows b)[lnum]? = some line)
    (hcol : col ≤ line.length) (hlen : b.length ≤ i32Max) (lisp backwards : Bool) (comment : Int)
    (initc findc : UInt8) (escaped : Nat) :
    ∃ r, search (Lines.new b) lisp lnum col backwards comment initc findc escaped = some r := by
  have hon : ∀ q st inq cnt mp cc, Scan.On (rows b) ⟨lnum, col, q, st, inq, cnt, mp, cc⟩ :=
    fun _ _ _ _ _ _ => ⟨line, hline, hcol⟩
  have hleft := fun m => Mode.left_le (m := m) (hon (-1) none false 0 (0, 0)
    (if backwards = true ∧ comment ≠ 0 ∨ lisp = true then
      checkLinecomment ((Lines.new b).line lnum) lisp else none))
  exact Mode.run_ends rfl (hon _ _ _ _ _ _) (Nat.lt_succ_of_le (hleft _)) hlen
    (by rw [Nat.zero_add]; exact hleft _)

/-- The search for a directive ends, and counts no farther than the lines it looks at. -/
theorem directiveDown_ends (below : List (Nat × Bytes)) {count : Nat}
    (h : count + below.length ≤ i32Max) : ∃ r, directiveDown below count = some r := by
  induction below generalizing count with
  | nil => exact ⟨none, rfl⟩
  | cons line below ih =>
    rw [List.length_cons] at h
    rw [directiveDown]
    split
    · exact ih (by omega)
    split
    · rw [if_pos (by omega)]
      exact ih (by omega)
    split
    · split
      · exact ⟨_, rfl⟩
      · exact ih (by omega)
    split
    · split
      · exact ⟨_, rfl⟩
      · exact ih (by omega)
    · exact ih (by omega)

theorem directiveUp_ends (above : List (Nat × Bytes)) {count : Nat}
    (h : count + above.length ≤ i32Max) : ∃ r, directiveUp above count = some r := by
  induction above generalizing count with
  | nil => exact ⟨none, rfl⟩
  | cons line above ih =>
    rw [List.length_cons] at h
    rw [directiveUp]
    split
    · exact ih (by omega)
    split
    · split
      · exact ⟨_, rfl⟩
      · exact ih (by omega)
    split
    · rw [if_pos (by omega)]
      exact ih (by omega)
    · exact ih (by omega)

theorem directive_ends {b : Bytes} {l : Nat} (hl : l < (rows b).length) (hlen : b.length ≤ i32Max) :
    ∃ r, directive (Lines.new b) l = some r := by
  have hrows := rows_length_le b
  unfold directive
  dsimp only
  split
  · refine directiveDown_ends _ ?_
    rw [List.length_map, List.length_drop, List.length_range, Lines.new_count]
    omega
  split
  · refine directiveUp_ends _ ?_
    rw [List.length_map, List.length_reverse, List.length_range]
    omega
  · exact ⟨none, rfl⟩

theorem bracketFrom_lt {pair : UInt8 × UInt8} (h : bracketFrom line col = some (c, pair)) :
    c < line.length := by
  induction hleft : line.length - col using Nat.strongRecOn generalizing col with
  | ind n ih =>
    rw [bracketFrom] at h
    split at h
    · cases h
    · rename_i hne
      have hlt := lt_of_byteAt hne
      split at h
      · cases h
        exact hlt
      · have := charLen_le hlt
        exact ih _ (by omega) h rfl

/-- A comment sign found lies on the line. -/
theorem lookAt_comment (h : (lookAt line col).comment ≠ 0) :
    (lookAt line col).col ≤ line.length := by
  have hin : ∀ i c, c ≠ 0 → byteAt line i = c → i < line.length :=
    fun i c hc hi => lt_of_byteAt (by rw [hi]; exact hc)
  unfold lookAt at h ⊢
  dsimp only at h ⊢
  split at h
  · exact absurd rfl h
  rename_i hhash
  rw [if_neg hhash]
  split at h
  · rename_i hslash
    have := hin _ _ (by decide) hslash
    rw [if_pos hslash]
    split
    · dsimp only
      omega
    · split <;> dsimp only <;> omega
  rename_i hslash
  rw [if_neg hslash]
  split at h
  · rename_i hstar
    have := hin _ _ (by decide) hstar
    rw [if_pos hstar]
    split
    · dsimp only
      omega
    · split <;> dsimp only <;> omega
  · exact absurd rfl h

/-- The search for a match returns on any text of less than 2 GiB. -/
theorem find_ends {b : Bytes} {lnum : Nat} (hlnum : lnum < (rows b).length)
    (hlen : b.length ≤ i32Max) (col : Nat) (lisp : Bool) :
    ∃ r, find (Lines.new b) lnum col lisp = some r := by
  have hline : (rows b)[lnum]? = some (rows b)[lnum] := List.getElem?_eq_getElem hlnum
  unfold find
  rw [Lines.new_line hline]
  dsimp only
  split
  · exact directive_ends hlnum hlen
  split
  · rename_i hcomment
    exact search_ends hline (lookAt_comment hcomment) hlen _ _ _ _ _ _
  split
  · split
    · exact directive_ends hlnum hlen
    · exact ⟨_, rfl⟩
  · rename_i c opening closing hbracket
    have := bracketFrom_lt hbracket
    split <;> exact search_ends hline (by omega) hlen _ _ _ _ _ _

/-- `%` ends on every text of fewer than 2³¹ bytes. -/
theorem percent_terminates (lisp : Bool) {b : Bytes} (hlen : b.length < 2 ^ 31) (cursor : Nat) :
    ∃ r, percent lisp b cursor = some r := by
  have hpos : 0 < (rows b).length := by
    by_cases hb : b = []
    · subst hb
      decide
    · exact List.length_pos_iff.mpr ((rows_spec b).ne_nil hb)
  have hlnum : ((Lines.new b).starts.takeWhile fun s => s ≤ min cursor b.length).length - 1 <
      (rows b).length := by
    have := (List.takeWhile_sublist (fun s => decide (s ≤ min cursor b.length))
      (l := (Lines.new b).starts)).length_le
    rw [← Lines.new_count, Lines.count] at hpos ⊢
    omega
  obtain ⟨r, hr⟩ := find_ends hlnum (show b.length ≤ 2 ^ 31 - 1 by omega)
    (min cursor b.length - (Lines.new b).start
      (((Lines.new b).starts.takeWhile fun s => s ≤ min cursor b.length).length - 1)) lisp
  unfold percent
  dsimp only
  rw [hr]
  exact ⟨_, rfl⟩

end Ruse.Core.FindMatch
