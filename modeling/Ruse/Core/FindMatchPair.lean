import Ruse.Core.FindMatchEnds
import Ruse.Lib.Brackets

/-!
# `%` finds the nesting partner

In a text without quotes, backslashes, comments and directives (`Plain`) the search
looks at nothing but the brackets of its pair: a move passes over no bracket
(`Mode.move_plain`), and a character only changes the count (`Mode.look_plain`). The
loop is then the count of brackets over the text ahead (`Mode.run_closing`), which is
the text read backwards when the search goes back.

Forwards it finds the closing bracket at the end of a balanced word; backwards it reads
the same word with the brackets exchanged, and comes back to where it began.
-/

namespace Ruse.Core.FindMatch

open Ruse.Lib (Balanced closing tally closing_tally closing_skip closing_eq_some)

variable {i : Nat} {x : UInt8}

/-- The bytes that `%` gives a meaning besides the brackets. -/
def special : Bytes := [ch '"', ch '\'', ch '\\', ch '/', ch '*', ch '#', 0]

/-- Nothing in the text but the brackets matters to `%`: under `'lisp'` a semicolon
starts a comment. -/
def Plain (lisp : Bool) (b : Bytes) : Prop := (∀ x ∈ b, x ∉ special) ∧ (lisp = true → ch ';' ∉ b)

/-- The bracket `o` at `i` and the bracket `c` at `j` are partners under nesting. -/
def Partner (b : Bytes) (o c : UInt8) (i j : Nat) : Prop :=
  i < j ∧ b[i]? = some o ∧ b[j]? = some c ∧ Balanced o c (slice b (i + 1) j)

/-! ## Bytes of a line -/

theorem byteAt_eq_zero {s : Bytes} (h : s.length ≤ i) : byteAt s i = 0 := by
  rw [byteAt, List.getD_eq_getElem?_getD, List.getElem?_eq_none h, Option.getD_none]

theorem byteAt_eq {s : Bytes} (h : s[i]? = some x) : byteAt s i = x := by
  rw [byteAt, List.getD_eq_getElem?_getD, h, Option.getD_some]

theorem mem_of_line {b : Bytes} {l : Nat} {line : Bytes} (hline : (rows b)[l]? = some line)
    (hi : i < line.length) : byteAt line i ∈ b := by
  have hget := List.getElem?_eq_getElem hi
  have := (rows_spec b).line_getElem? hline hi
  rw [byteAt_eq hget]
  exact List.mem_of_getElem? (this.trans hget)

/-- A byte other than NUL and the newline is on the line where it is in the text. -/
theorem byteAt_iff {b : Bytes} {l : Nat} {line : Bytes} (hline : (rows b)[l]? = some line)
    (hi : i ≤ line.length) (hx : x ≠ 0) (hnl : x ≠ newline) :
    byteAt line i = x ↔ b[startAt (rows b) l + i]? = some x := by
  rcases Nat.lt_or_ge i line.length with hlt | hge
  · rw [(rows_spec b).line_getElem? hline hlt, List.getElem?_eq_getElem hlt, Option.some.injEq,
      byteAt_eq (List.getElem?_eq_getElem hlt)]
  · -- at the end of the line there is its newline, or nothing
    obtain ⟨hle, hend⟩ := (rows_spec b).line_le hline
    obtain rfl : i = line.length := by omega
    rw [byteAt_eq_zero hge]
    refine ⟨fun h => absurd h (Ne.symm hx), fun h => ?_⟩
    have := hend (List.getElem?_eq_some_iff.mp h).1
    rw [h, Option.some.injEq] at this
    exact absurd this hnl

section Plain

variable {lisp : Bool} {b : Bytes} {l : Nat} {line : Bytes}

theorem Plain.byteAt_ne (hb : Plain lisp b) (hline : (rows b)[l]? = some line) (i : Nat)
    (hx : x ∈ special) (hne : x ≠ 0) : byteAt line i ≠ x := by
  rcases Nat.lt_or_ge i line.length with hlt | hge
  · exact fun h => hb.1 _ (mem_of_line hline hlt) (h ▸ hx)
  · rw [byteAt_eq_zero hge]
    exact Ne.symm hne

theorem Plain.byteAt_eq_zero_iff (hb : Plain lisp b) (hline : (rows b)[l]? = some line) (i : Nat) :
    byteAt line i = 0 ↔ line.length ≤ i := by
  refine ⟨fun h => Nat.le_of_not_lt fun hlt => ?_, byteAt_eq_zero⟩
  exact hb.1 _ (mem_of_line hline hlt) (h ▸ by decide)

theorem Plain.backslashes (hb : Plain lisp b) (hline : (rows b)[l]? = some line) (i : Nat) :
    backslashes line i = 0 := by
  rw [FindMatch.backslashes, dif_neg]
  exact fun h => hb.byteAt_ne hline _ (by decide) (by decide) h.2

theorem Plain.checkLinecomment (hb : Plain true b) (hline : (rows b)[l]? = some line) :
    checkLinecomment line true = none := by
  have hnone : (line.drop 0).findIdx? (fun c => c == ch '"' || c == ch ';') = none := by
    rw [List.drop_zero, List.findIdx?_eq_none_iff]
    intro x hx
    obtain ⟨i, hget⟩ := List.mem_iff_getElem?.mp hx
    have hmem := mem_of_line hline (List.getElem?_eq_some_iff.mp hget).1
    rw [byteAt_eq hget] at hmem
    have hquote : x ≠ ch '"' := fun h => hb.1 _ hmem (by rw [h]; decide)
    have hsemi : x ≠ ch ';' := fun h => hb.2 rfl (h ▸ hmem)
    simp [hquote, hsemi]
  rw [FindMatch.checkLinecomment, if_pos rfl, lispLineComment]
  split
  · rfl
  · rename_i off hoff
    rw [hnone] at hoff
    cases hoff

theorem Plain.countQuotes (hb : Plain lisp b) (hline : (rows b)[l]? = some line) (mark i : Nat)
    (q atStart : Int) : (countQuotes line mark i q atStart).1 = q := by
  induction hleft : line.length - i using Nat.strongRecOn generalizing i atStart with
  | ind n ih =>
    rw [FindMatch.countQuotes]
    split
    · have hquote := hb.byteAt_ne hline i (x := ch '"') (by decide) (by decide)
      have hescape := hb.byteAt_ne hline i (x := ch '\\') (by decide) (by decide)
      simp only [hquote, hescape, false_and, decide_false, Bool.false_eq_true, if_false, Int.add_zero]
      exact ih (line.length - (i + 1)) (by omega) (i + 1) _ rfl
    · rfl

end Plain

/-! ## The text ahead -/

/-- What the search still has to read from `off` on, in its direction. -/
def ahead (back : Bool) (b : Bytes) (off : Nat) : Bytes :=
  if back then (b.take off).reverse else b.drop (off + 1)

/-- Where the byte `k` of it is in the text. -/
def place (back : Bool) (off k : Nat) : Nat := if back then off - 1 - k else off + 1 + k

/-- From one place to another: what lies between, the byte there, and what is then ahead. -/
theorem ahead_split (back : Bool) {b : Bytes} {off off' : Nat} {P : UInt8 → Prop}
    (hback : back = true → off' < off ∧ off ≤ b.length)
    (hforth : back = false → off < off' ∧ off' ≤ b.length)
    (hskip : ∀ k x, min off off' < k → k < max off off' → b[k]? = some x → P x) :
    ∃ skipped, ahead back b off = skipped ++ (b[off']?.toList ++ ahead back b off') ∧
      (∀ x ∈ skipped, P x) ∧ place back off skipped.length = off' := by
  cases back with
  | true =>
    obtain ⟨hlt, hle⟩ := hback rfl
    refine ⟨(slice b (off' + 1) off).reverse, ?_, fun x hx => ?_, ?_⟩
    · have hsplit : b.take off = b.take off' ++ (b[off']?.toList ++ slice b (off' + 1) off) := by
        have htake := slice_append_slice (b := b) (i := 0) (Nat.zero_le (off' + 1)) hlt
        have hhead : ∀ n, slice b 0 n = b.take n := fun n => by rw [slice, List.drop_zero, Nat.sub_zero]
        rw [hhead, hhead, List.take_add_one, List.append_assoc] at htake
        exact htake.symm
      have hone : b[off']?.toList.reverse = b[off']?.toList := by cases b[off']? <;> rfl
      rw [ahead, if_pos rfl, hsplit, List.reverse_append, List.reverse_append, hone, List.append_assoc]
      rfl
    · obtain ⟨i, hi⟩ := List.mem_iff_getElem?.mp (List.mem_reverse.mp hx)
      have hlen := (List.getElem?_eq_some_iff.mp hi).1
      rw [slice_length (by omega) hle] at hlen
      rw [slice, List.getElem?_take_of_lt hlen, List.getElem?_drop] at hi
      exact hskip (off' + 1 + i) x (by omega) (by omega) hi
    · rw [place, if_pos rfl, List.length_reverse, slice_length (by omega) hle]
      omega
  | false =>
    obtain ⟨hlt, hle⟩ := hforth rfl
    refine ⟨slice b (off + 1) off', ?_, fun x hx => ?_, ?_⟩
    · have hrest : b.drop off' = b[off']?.toList ++ b.drop (off' + 1) := by
        rcases Nat.lt_or_ge off' b.length with hin | hout
        · rw [List.drop_eq_getElem_cons hin, List.getElem?_eq_getElem hin]
          rfl
        · rw [List.getElem?_eq_none hout, List.drop_eq_nil_of_le hout, List.drop_eq_nil_of_le (by omega)]
          rfl
      rw [ahead, if_neg (by simp), ← slice_append_drop hlt, hrest]
      rfl
    · obtain ⟨i, hi⟩ := List.mem_iff_getElem?.mp hx
      have hlen := (List.getElem?_eq_some_iff.mp hi).1
      rw [slice_length hlt hle] at hlen
      rw [slice, List.getElem?_take_of_lt hlen, List.getElem?_drop] at hi
      exact hskip (off + 1 + i) x (by omega) (by omega) hi
    · rw [place, if_neg (by simp), slice_length hlt hle]
      omega

/-! ## A step of the search -/

theorem backOver_skips (line : Bytes) (c : Nat) {k : Nat} (hk : backOver line c < k) (hkc : k ≤ c) :
    isContinuation (byteAt line k) = true := by
  induction c with
  | zero => rw [backOver] at hk; omega
  | succ c ih =>
    rw [backOver] at hk
    split at hk
    · rename_i hcont
      rcases Nat.eq_or_lt_of_le hkc with rfl | hlt
      · exact hcont
      · exact ih hk (by omega)
    · omega

theorem charLen_skips {line : Bytes} {k : Nat} (hk : i < k) (hki : k < i + charLen line i) :
    isContinuation (byteAt line k) = true := by
  unfold charLen at hki
  cases hw : charLenAt line i with
  | none =>
    rw [hw, Option.getD_none, Nat.max_self] at hki
    omega
  | some w =>
    obtain ⟨hpos, -, -, -, hcont⟩ := charLenAt_spec hw
    rw [hw, Option.getD_some] at hki
    exact hcont k hk (by omega)

/-- The search for a bracket of a plain text. -/
structure Mode.Plain (m : Mode) (b : Bytes) : Prop where
  lines : m.lines = Lines.new b
  text : FindMatch.Plain m.lisp b
  comment : m.comment = 0
  pair : (m.initc, m.findc) ∈ pairs ∨ (m.findc, m.initc) ∈ pairs
  escaped : m.escaped = 0
  lispcomm : m.lispcomm = false

/-- The search is in no string and no comment. -/
structure Scan.Clean (s : Scan) : Prop where
  inquote : s.inquote = false
  commentCol : s.commentCol = none

theorem forall_mem_pairs {P : UInt8 × UInt8 → Prop} (hround : P (ch '(', ch ')'))
    (hcurly : P (ch '{', ch '}')) (hsquare : P (ch '[', ch ']')) : ∀ p ∈ pairs, P p := by
  intro p hp
  simp only [pairs, List.mem_cons, List.not_mem_nil, or_false] at hp
  rcases hp with rfl | rfl | rfl
  · exact hround
  · exact hcurly
  · exact hsquare

theorem pairs_ascii {o c : UInt8} (h : (o, c) ∈ pairs) :
    (o ≠ 0 ∧ o ≠ newline ∧ isContinuation o = false) ∧
      (c ≠ 0 ∧ c ≠ newline ∧ isContinuation c = false) ∧ c ≠ o := by
  have hall : ∀ p ∈ pairs, (p.1 ≠ 0 ∧ p.1 ≠ newline ∧ isContinuation p.1 = false) ∧
      (p.2 ≠ 0 ∧ p.2 ≠ newline ∧ isContinuation p.2 = false) ∧ p.2 ≠ p.1 :=
    forall_mem_pairs (by decide) (by decide) (by decide)
  exact hall (o, c) h

namespace Mode

variable {b : Bytes} {m : Mode} {s s' : Scan}

theorem Plain.bracket (hm : m.Plain b) :
    (m.initc ≠ 0 ∧ m.initc ≠ newline ∧ isContinuation m.initc = false) ∧
      (m.findc ≠ 0 ∧ m.findc ≠ newline ∧ isContinuation m.findc = false) ∧ m.findc ≠ m.initc := by
  rcases hm.pair with h | h
  · exact pairs_ascii h
  · obtain ⟨hf, hi, hne⟩ := pairs_ascii h
    exact ⟨hi, hf, Ne.symm hne⟩

theorem Plain.no_comment (hm : m.Plain b) {l : Nat} {line : Bytes}
    (hline : (rows b)[l]? = some line) {cc : Option Nat} (hcc : cc = none) :
    (if m.comment ≠ 0 ∨ m.lisp = true then checkLinecomment line m.lisp else cc) = none := by
  split
  · rename_i h
    have hlisp : m.lisp = true := h.resolve_left fun hne => hne hm.comment
    have htext := hm.text
    rw [hlisp] at htext ⊢
    exact htext.checkLinecomment hline
  · exact hcc

/-- A move passes over no bracket; the search gives up where nothing is ahead. -/
theorem move_plain (hm : m.Plain b) (hs : s.On (rows b)) (hc : s.Clean) :
    match m.move s with
    | none => ahead m.backwards b (s.offset (rows b)) = []
    | some s' => s'.Clean ∧ s'.count = s.count ∧
        ∀ k x, min (s.offset (rows b)) (s'.offset (rows b)) < k →
          k < max (s.offset (rows b)) (s'.offset (rows b)) → b[k]? = some x →
            x ≠ m.initc ∧ x ≠ m.findc := by
  obtain ⟨line, hline, hcol⟩ := hs
  have hlt := (List.getElem?_eq_some_iff.mp hline).1
  have hthis : m.lines.line s.line = line := by rw [hm.lines, Lines.new_line hline]
  have hcont : ∀ j x, j < line.length → isContinuation (byteAt line j) = true →
      b[startAt (rows b) s.line + j]? = some x → x ≠ m.initc ∧ x ≠ m.findc := by
    intro j x hj hcj hx
    rw [(rows_spec b).line_getElem? hline hj] at hx
    rw [byteAt_eq hx] at hcj
    obtain ⟨⟨-, -, hi⟩, ⟨-, -, hf⟩, -⟩ := hm.bracket
    constructor
    · rintro rfl
      exact absurd (hi.symm.trans hcj) (by decide)
    · rintro rfl
      exact absurd (hf.symm.trans hcj) (by decide)
  unfold move
  rw [hthis]
  cases hback : m.backwards with
  | true =>
    rw [if_pos rfl, if_neg (by simp [hm.lispcomm])]
    by_cases hzero : s.col = 0
    · rw [if_pos hzero]
      by_cases hfirst : s.line = 0
      · rw [if_pos hfirst]
        rw [ahead, if_pos rfl, Scan.offset, hfirst, hzero]
        rfl
      · rw [if_neg hfirst]
        -- up to the line above: its newline is the next byte
        have habove := List.getElem?_eq_getElem (show s.line - 1 < (rows b).length by omega)
        have hsucc := startAt_succ habove
        rw [show s.line - 1 + 1 = s.line by omega] at hsucc
        have hnone := hm.no_comment habove hc.commentCol
        dsimp only
        rw [hm.lines, Lines.new_line habove, hnone, Option.getD_none, ite_self]
        refine ⟨⟨hc.inquote, rfl⟩, rfl, fun k x hk hkx => ?_⟩
        unfold Scan.offset at hk hkx
        dsimp only at hk hkx
        omega
    · rw [if_neg hzero]
      refine ⟨⟨hc.inquote, hc.commentCol⟩, rfl, fun k x hk hkx hx => ?_⟩
      have hle := backOver_le line (s.col - 1)
      unfold Scan.offset at hk hkx
      dsimp only at hk hkx
      obtain ⟨j, rfl⟩ := Nat.exists_eq_add_of_le (show startAt (rows b) s.line ≤ k by omega)
      exact hcont j x (by omega) (backOver_skips line (s.col - 1) (by omega) (by omega)) hx
  | false =>
    rw [if_neg (by simp)]
    by_cases hend : byteAt line s.col = 0
    · have hcol' := (hm.text.byteAt_eq_zero_iff hline s.col).mp hend
      have hsucc := startAt_succ hline
      rw [if_pos (.inl hend)]
      by_cases hlast : m.lines.count ≤ s.line + 1
      · rw [if_pos (.inl hlast)]
        rw [hm.lines, Lines.new_count] at hlast
        have hlen := (rows_spec b).length
        rw [show (rows b).length = s.line + 1 by omega, hsucc] at hlen
        rw [ahead, if_neg (by simp), Scan.offset, List.drop_eq_nil_of_le (by omega)]
      · rw [if_neg (by simp [hlast, hm.lispcomm])]
        rw [hm.lines, Lines.new_count] at hlast
        have hbelow := List.getElem?_eq_getElem (show s.line + 1 < (rows b).length by omega)
        have hnone : (if m.lisp = true then checkLinecomment ((Lines.new b).line (s.line + 1)) true
            else s.commentCol) = none := by
          have h := hm.no_comment hbelow hc.commentCol
          rw [Lines.new_line hbelow]
          cases hlisp : m.lisp with
          | true =>
            rw [hlisp, if_pos (.inr rfl)] at h
            rw [if_pos rfl, h]
          | false => rw [if_neg (by simp), hc.commentCol]
        dsimp only
        rw [hm.lines, hnone]
        refine ⟨⟨hc.inquote, rfl⟩, rfl, fun k x hk hkx => ?_⟩
        unfold Scan.offset at hk hkx
        dsimp only at hk hkx
        omega
    · rw [if_neg (by simp [hend, hc.commentCol])]
      have hlen : s.col < line.length := lt_of_byteAt hend
      have hle := charLen_le hlen
      refine ⟨⟨hc.inquote, hc.commentCol⟩, rfl, fun k x hk hkx hx => ?_⟩
      unfold Scan.offset at hk hkx
      dsimp only at hk hkx
      obtain ⟨j, rfl⟩ := Nat.exists_eq_add_of_le (show startAt (rows b) s.line ≤ k by omega)
      exact hcont j x (by omega) (charLen_skips (i := s.col) (by omega) (by omega)) hx

theorem lineQuotes_plain (hm : m.Plain b) {line : Bytes} (hline : (rows b)[s.line]? = some line) :
    (m.lineQuotes s).1 = -1 := by
  rw [lineQuotes, hm.lines, Lines.new_line hline]
  exact hm.text.countQuotes hline _ _ _ _

theorem quotes_plain (hm : m.Plain b) {line : Bytes} (hline : (rows b)[s.line]? = some line) :
    ∃ q, m.quotes s = { s with doQuotes := q } := by
  unfold quotes
  rw [hm.lines, Lines.new_line hline]
  dsimp only
  split
  · exact ⟨s.doQuotes, rfl⟩
  · rw [lineQuotes_plain hm hline, if_pos (by decide)]
    exact ⟨_, rfl⟩

/-- A character only changes the count of open brackets, unless there are too many. -/
theorem look_plain (hm : m.Plain b) (hs : s.On (rows b)) (hc : s.Clean) :
    match tally m.initc m.findc s.count b[s.offset (rows b)]? with
    | none => m.look s = .done (some (s.line, s.col))
    | some n => m.look s = .fault ∨ ∃ s', m.look s = .go s' ∧ s'.line = s.line ∧
        s'.col = s.col ∧ s'.Clean ∧ s'.count = n := by
  obtain ⟨line, hline, hcol⟩ := hs
  have hthis : m.lines.line s.line = line := by rw [hm.lines, Lines.new_line hline]
  obtain ⟨⟨hi0, hinl, -⟩, ⟨hf0, hfnl, -⟩, hne⟩ := hm.bracket
  have hinit := byteAt_iff hline hcol hi0 hinl
  have hfind := byteAt_iff hline hcol hf0 hfnl
  have hquote := hm.text.byteAt_ne hline s.col (x := ch '"') (by decide) (by decide)
  have hprev : ∀ i, checkPrevcol line i (ch '\\') = false := fun i => by
    have := hm.text.byteAt_ne hline (backOver line (i - 1)) (x := ch '\\') (by decide) (by decide)
    simp [checkPrevcol, this]
  have hliteral : ∀ q, m.skipLiteral
      { s with doQuotes := q, startInQuotes := some (s.startInQuotes.getD false) } = none := fun q => by
    have := hm.text.byteAt_ne hline s.col (x := ch '\'') (by decide) (by decide)
    unfold skipLiteral
    rw [hthis, if_pos this]
  obtain ⟨q, hq⟩ := quotes_plain hm hline
  generalize htally : tally m.initc m.findc s.count b[s.offset (rows b)]? = t
  unfold tally Scan.offset at htally
  unfold look
  rw [if_neg (by simp [hm.comment]), lineQuotes_plain hm hline, if_neg (by omega), hq, hthis]
  dsimp only
  rw [hliteral, if_neg hquote, hprev, hm.text.backslashes hline, hm.escaped]
  by_cases hzero : byteAt line s.col = 0
  · -- the end of the line
    rw [if_neg fun h => hi0 ((hinit.mpr h).symm.trans hzero),
      if_neg fun h => hf0 ((hfind.mpr h).symm.trans hzero)] at htally
    rw [if_pos hzero, ← htally]
    dsimp only
    split
    · exact .inr ⟨_, rfl, rfl, rfl, ⟨rfl, hc.commentCol⟩, rfl⟩
    · exact .inr ⟨_, rfl, rfl, rfl, ⟨hc.inquote, hc.commentCol⟩, rfl⟩
  rw [if_neg hzero, if_neg (by simp)]
  by_cases hi : byteAt line s.col = m.initc
  · rw [if_pos (hinit.mp hi)] at htally
    rw [if_pos ⟨.inl hc.inquote, .inl hi, rfl⟩, if_pos hi, ← htally]
    dsimp only
    unfold Scan.opened
    split
    · exact .inr ⟨_, rfl, rfl, rfl, ⟨hc.inquote, hc.commentCol⟩, rfl⟩
    · exact .inl rfl
  by_cases hf : byteAt line s.col = m.findc
  · rw [if_neg (hi ∘ hinit.mpr), if_pos (hfind.mp hf)] at htally
    rw [if_pos ⟨.inl hc.inquote, .inr hf, rfl⟩, if_neg hi, ← htally]
    by_cases hcount : s.count = 0
    · rw [if_pos hcount, if_pos hcount]
    · rw [if_neg hcount, if_neg hcount]
      exact .inr ⟨_, rfl, rfl, rfl, ⟨hc.inquote, hc.commentCol⟩, rfl⟩
  · rw [if_neg (hi ∘ hinit.mpr), if_neg (hf ∘ hfind.mpr)] at htally
    rw [if_neg (by simp [hi, hf]), ← htally]
    exact .inr ⟨_, rfl, rfl, rfl, ⟨hc.inquote, hc.commentCol⟩, rfl⟩

/-- The loop is the count of brackets over the text ahead. -/
theorem run_closing (hm : m.Plain b) {fuel : Nat} {r : Option (Nat × Nat)} (hs : s.On (rows b))
    (hc : s.Clean) (h : m.run fuel s = some r) :
    r.map (fun p => m.lines.start p.1 + p.2) =
      (closing m.initc m.findc s.count (ahead m.backwards b (s.offset (rows b)))).map
        (place m.backwards (s.offset (rows b))) := by
  induction fuel generalizing s with
  | zero => cases h
  | succ fuel ih =>
    have hplain := move_plain hm hs hc
    unfold run at h
    cases hmove : m.move s with
    | none =>
      rw [hmove] at hplain h
      rw [if_neg (by simp [hm.comment]), Option.some.injEq] at h
      rw [hplain, ← h]
      rfl
    | some s₁ =>
      obtain ⟨hon, hbackwards, hforwards⟩ := move_spec hm.lines hs hmove
      rw [hmove] at hplain h
      dsimp only at hplain h
      obtain ⟨hc₁, hcount, hskip⟩ := hplain
      obtain ⟨skipped, hahead, hclear, hplace⟩ := ahead_split m.backwards
        (fun hb => ⟨hbackwards hb, hs.offset_le⟩) (fun hb => ⟨hforwards hb, hon.offset_le⟩) hskip
      rw [hahead, closing_skip hm.bracket.2.2 hclear, closing_tally, ← hcount]
      have hlook := look_plain hm hon hc₁
      cases htally : tally m.initc m.findc s₁.count b[s₁.offset (rows b)]? with
      | none =>
        rw [htally] at hlook
        rw [hlook] at h
        cases h
        obtain ⟨line, hline, -⟩ := hon
        have hstart := Lines.new_start (List.getElem?_eq_some_iff.mp hline).1
        rw [← hm.lines] at hstart
        simp only [Option.map_some, Nat.zero_add, hplace, hstart]
        rfl
      | some n =>
        rw [htally] at hlook
        obtain hfault | ⟨s₂, hgo, hline₂, hcol₂, hc₂, hn⟩ := hlook
        · rw [hfault] at h
          cases h
        rw [hgo] at h
        have hoff : s₂.offset (rows b) = s₁.offset (rows b) := by rw [Scan.offset, Scan.offset, hline₂, hcol₂]
        have hon₂ : s₂.On (rows b) := by
          obtain ⟨line, hline, hcol⟩ := hon
          exact ⟨line, by rw [hline₂, hline], by rw [hcol₂]; exact hcol⟩
        have hrest := ih hon₂ hc₂ h
        rw [hn, hoff] at hrest
        rw [hrest]
        dsimp only
        cases hclosing : closing m.initc m.findc n (ahead m.backwards b (s₁.offset (rows b))) with
        | none => rfl
        | some k =>
          -- something is ahead, so the search is not at the end of the text
          have hin : s₁.offset (rows b) < b.length := by
            by_contra hge
            cases hdir : m.backwards with
            | true =>
              have := hbackwards hdir
              have := hs.offset_le
              omega
            | false =>
              rw [hdir, ahead, if_neg (by simp), List.drop_eq_nil_of_le (by omega)] at hclosing
              cases hclosing
          rw [List.getElem?_eq_getElem hin, Option.toList_some, List.length_singleton]
          simp only [Option.map_some, Option.some.injEq]
          rw [← hplace]
          unfold place
          split <;> omega

end Mode

/-! ## The command on a bracket -/

section Percent

variable {lisp : Bool} {b : Bytes} {o c : UInt8}

/-- The search over the lines finds what closes the nesting in the flat text. -/
theorem search_closing (hb : Plain lisp b) (hpair : (o, c) ∈ pairs ∨ (c, o) ∈ pairs) {l col : Nat}
    {line : Bytes} (hline : (rows b)[l]? = some line) (hcol : col ≤ line.length)
    (hlen : b.length < 2 ^ 31) (back : Bool) :
    (search (Lines.new b) lisp l col back 0 o c 0).map
        (fun r => r.map fun p => (Lines.new b).start p.1 + p.2) =
      some ((closing o c 0 (ahead back b (startAt (rows b) l + col))).map
        (place back (startAt (rows b) l + col))) := by
  obtain ⟨r, hr⟩ := search_ends hline hcol (show b.length ≤ 2 ^ 31 - 1 by omega) lisp back 0 o c 0
  rw [hr, Option.map_some]
  unfold search at hr
  dsimp only at hr
  have hnone : (if (back = true ∧ (0 : Int) ≠ 0) ∨ lisp = true then
      checkLinecomment ((Lines.new b).line l) lisp else none) = none := by
    split
    · rename_i h
      obtain rfl : lisp = true := h.resolve_left fun h => h.2 rfl
      rw [Lines.new_line hline]
      exact hb.checkLinecomment hline
    · rfl
  rw [hnone] at hr
  exact congrArg some (Mode.run_closing ⟨rfl, hb, rfl, hpair, rfl, by simp⟩ ⟨line, hline, hcol⟩
    ⟨rfl, rfl⟩ hr)

theorem exists_bracket_line (hi : i < b.length) (hnl : b[i]? ≠ some newline) :
    ∃ l line col, (rows b)[l]? = some line ∧ col < line.length ∧ i = startAt (rows b) l + col := by
  have hlen := (rows_spec b).length
  obtain ⟨l, line, -, hline, hstart, hend⟩ :=
    exists_line (Nat.le_refl (rows b).length) (show i < startAt (rows b) (rows b).length by omega)
  refine ⟨l, line, i - startAt (rows b) l, hline, ?_, by omega⟩
  rcases Nat.lt_or_ge (i - startAt (rows b) l) line.length with hlt | hge
  · exact hlt
  · have heq : startAt (rows b) l + line.length = i := by omega
    exact absurd (heq ▸ ((rows_spec b).line_le hline).2 (by omega)) hnl

/-- `%` on a bracket is the count of brackets over the text ahead of it. -/
theorem percent_closing (hb : Plain lisp b) (hlen : b.length < 2 ^ 31) (hpair : (o, c) ∈ pairs) (i : Nat) :
    (b[i]? = some o → percent lisp b i =
      some ((closing o c 0 (ahead false b i)).map (place false i))) ∧
    (b[i]? = some c → percent lisp b i =
      some ((closing c o 0 (ahead true b i)).map (place true i))) := by
  have hfind : ∀ p ∈ pairs,
      (pairs.find? fun pair => p.1 == pair.1 || p.1 == pair.2) = some p ∧
      (pairs.find? fun pair => p.2 == pair.1 || p.2 == pair.2) = some p :=
    forall_mem_pairs (by decide) (by decide) (by decide)
  obtain ⟨⟨ho0, honl, -⟩, ⟨hc0, hcnl, -⟩, hne⟩ := pairs_ascii hpair
  have key : ∀ x, b[i]? = some x → x ≠ 0 → x ≠ newline →
      (pairs.find? fun pair => x == pair.1 || x == pair.2) = some (o, c) →
      percent lisp b i = if x = o then some ((closing o c 0 (ahead false b i)).map (place false i))
        else some ((closing c o 0 (ahead true b i)).map (place true i)) := by
    intro x hx hx0 hxnl hxpair
    have hi := (List.getElem?_eq_some_iff.mp hx).1
    obtain ⟨l, line, col, hline, hcol, rfl⟩ := exists_bracket_line hi
      (by rw [hx]; exact fun h => hxnl (Option.some.inj h))
    have hl := (List.getElem?_eq_some_iff.mp hline).1
    have hbyte : byteAt line col = x := (byteAt_iff hline (Nat.le_of_lt hcol) hx0 hxnl).mpr hx
    have hlook : lookAt line col = ⟨col, false, false, 0⟩ := by
      unfold lookAt
      rw [if_neg fun h => hb.byteAt_ne hline _ (by decide) (by decide) h.1,
        if_neg (hb.byteAt_ne hline _ (by decide) (by decide)),
        if_neg (hb.byteAt_ne hline _ (by decide) (by decide))]
    have hfrom : bracketFrom line col = some (col, o, c) := by
      rw [bracketFrom, dif_neg (by rw [hbyte]; exact hx0), hbyte, hxpair]
    have hlnum : ((Lines.new b).starts.takeWhile fun s => s ≤ startAt (rows b) l + col).length - 1 =
        l := by
      rw [Lines.new_starts, takeWhile_startAt hline (Nat.le_refl _) hl (by omega) (by omega),
        Nat.add_sub_cancel]
    unfold percent
    dsimp only
    rw [Nat.min_eq_left (Nat.le_of_lt hi), hlnum, Lines.new_start hl, Nat.add_sub_cancel_left]
    unfold find
    dsimp only
    rw [Lines.new_line hline, hlook]
    rw [if_neg (by simp), if_neg (by simp), hbyte, if_neg (by simp [hx0]), hfrom]
    dsimp only
    rw [hbyte, hb.backslashes hline]
    split
    · exact search_closing hb (.inl hpair) hline (Nat.le_of_lt hcol) hlen false
    · exact search_closing hb (.inr hpair) hline (Nat.le_of_lt hcol) hlen true
  constructor
  · intro h
    rw [key o h ho0 honl (hfind _ hpair).1, if_pos rfl]
  · intro h
    rw [key c h hc0 hcnl (hfind _ hpair).2, if_neg hne]

theorem closing_forwards (hne : c ≠ o) {j : Nat} (hi : b[i]? = some o) :
    (closing o c 0 (ahead false b i)).map (place false i) = some j ↔ Partner b o c i j := by
  have hword : ∀ k, (b.drop (i + 1)).take k = slice b (i + 1) (i + 1 + k) := fun k => by
    rw [slice, Nat.add_sub_cancel_left]
  simp only [ahead, place, Bool.false_eq_true, if_false, Option.map_eq_some_iff, closing_eq_some hne,
    List.getElem?_drop, hword]
  constructor
  · rintro ⟨k, ⟨hk, hbal⟩, rfl⟩
    exact ⟨by omega, hi, hk, hbal⟩
  · rintro ⟨hlt, -, hj, hbal⟩
    obtain ⟨k, rfl⟩ := Nat.exists_eq_add_of_le (show i + 1 ≤ j from hlt)
    exact ⟨k, ⟨hj, hbal⟩, rfl⟩

/-- The search back from a closer finds its partner. -/
theorem closing_backwards (hne : c ≠ o) {j : Nat} (hj : b[j]? = some c) :
    (closing c o 0 (ahead true b j)).map (place true j) = some i ↔ Partner b o c i j := by
  have hjb := (List.getElem?_eq_some_iff.mp hj).1
  have hlen : (b.take j).length = j := by
    rw [List.length_take]
    omega
  have hword : ∀ k, k < j → (b.take j).reverse.take k = (slice b (j - k) j).reverse := fun k hk => by
    rw [List.take_reverse, hlen, List.drop_take, slice]
  have hget : ∀ k, k < j → (b.take j).reverse[k]? = b[j - 1 - k]? := fun k hk => by
    rw [List.getElem?_reverse (by omega), hlen, List.getElem?_take_of_lt (by omega)]
  simp only [ahead, place, if_true, Option.map_eq_some_iff, closing_eq_some (Ne.symm hne)]
  constructor
  · rintro ⟨k, ⟨hk, hbal⟩, rfl⟩
    have hkj := (List.getElem?_eq_some_iff.mp hk).1
    rw [List.length_reverse, hlen] at hkj
    rw [hget k hkj] at hk
    rw [hword k hkj] at hbal
    have hback := hbal.reverse
    rw [List.reverse_reverse] at hback
    refine ⟨by omega, hk, hj, ?_⟩
    rwa [show j - 1 - k + 1 = j - k by omega]
  · rintro ⟨hlt, hi, -, hbal⟩
    refine ⟨j - 1 - i, ⟨?_, ?_⟩, by omega⟩
    · rw [hget _ (by omega), show j - 1 - (j - 1 - i) = i by omega, hi]
    · rw [hword _ (by omega), show j - (j - 1 - i) = i + 1 by omega]
      exact hbal.reverse

end Percent

/-- `%` ends on every text of fewer than 2³¹ bytes, whose brackets an `i32` counts, and in a
plain one goes from a bracket to its nesting partner, if it has one, and back. -/
theorem percent_partner (lisp : Bool) {b : Bytes} (hlen : b.length < 2 ^ 31) :
    (∀ cursor, ∃ r, percent lisp b cursor = some r) ∧
    (Plain lisp b → ∀ o c, (o, c) ∈ pairs →
      (∀ i, b[i]? = some o →
        (∀ j, percent lisp b i = some (some j) ↔ Partner b o c i j) ∧
        (percent lisp b i = some none ↔ ∀ j, ¬ Partner b o c i j)) ∧
      (∀ j, b[j]? = some c →
        (∀ i, percent lisp b j = some (some i) ↔ Partner b o c i j) ∧
        (percent lisp b j = some none ↔ ∀ i, ¬ Partner b o c i j)) ∧
      ∀ i j, b[i]? = some o ∨ b[i]? = some c → percent lisp b i = some (some j) →
        percent lisp b j = some (some i)) := by
  refine ⟨percent_terminates lisp hlen, fun hb o c hpair => ?_⟩
  have hne := (pairs_ascii hpair).2.2
  have hopen : ∀ i, b[i]? = some o → ∀ j, percent lisp b i = some (some j) ↔ Partner b o c i j := by
    intro i hi j
    rw [(percent_closing hb hlen hpair i).1 hi, Option.some.injEq]
    exact closing_forwards hne hi
  have hclose : ∀ j, b[j]? = some c → ∀ i, percent lisp b j = some (some i) ↔ Partner b o c i j := by
    intro j hj i
    rw [(percent_closing hb hlen hpair j).2 hj, Option.some.injEq]
    exact closing_backwards hne hj
  -- what does not end at a partner ends at nothing
  have hnone : ∀ k (P : Nat → Prop), (∀ n, percent lisp b k = some (some n) ↔ P n) →
      (percent lisp b k = some none ↔ ∀ n, ¬ P n) := by
    intro k P hP
    obtain ⟨r, hr⟩ := percent_terminates lisp hlen k
    constructor
    · intro h n hn
      rw [(hP n).mpr hn] at h
      cases h
    · intro h
      cases r with
      | none => exact hr
      | some n => exact absurd ((hP n).mp hr) (h n)
  refine ⟨fun i hi => ⟨hopen i hi, hnone i _ (hopen i hi)⟩,
    fun j hj => ⟨hclose j hj, hnone j _ (hclose j hj)⟩, fun i j hi h => ?_⟩
  rcases hi with hi | hi
  · have hp := (hopen i hi j).mp h
    exact (hclose j hp.2.2.1 i).mpr hp
  · have hp := (hclose i hi j).mp h
    exact (hopen j hp.2.1 i).mpr hp

/-- The text `(()⏎)`. -/
theorem percent_partner_nested : percent false [0x28, 0x28, 0x29, 0x0A, 0x29] 0 = some (some 4) ∧
    percent false [0x28, 0x28, 0x29, 0x0A, 0x29] 4 = some (some 0) := by
  obtain ⟨hopen, -, hback⟩ := (percent_partner false (b := [0x28, 0x28, 0x29, 0x0A, 0x29])
    (by decide)).2 ⟨by decide +kernel, by decide⟩ 0x28 0x29 (by decide)
  have hword : Balanced (0x28 : UInt8) 0x29 [0x28, 0x29, 0x0A] :=
    .pair .nil (.other (by decide) (by decide) .nil)
  have hgo := ((hopen 0 rfl).1 4).mpr ⟨by decide, rfl, rfl, hword⟩
  exact ⟨hgo, hback 0 4 (.inl rfl) hgo⟩

/-- Under `'lisp'` a semicolon hides the rest of its line: `(;)⏎)`. -/
theorem percent_lisp_comment : (∀ x ∈ ([0x28, 0x3B, 0x29, 0x0A, 0x29] : Bytes), x ∉ special) ∧
    Partner [0x28, 0x3B, 0x29, 0x0A, 0x29] (ch '(') (ch ')') 0 2 ∧
    percent true [0x28, 0x3B, 0x29, 0x0A, 0x29] 0 = some (some 4) := by
  refine ⟨by decide +kernel, ⟨by decide, rfl, rfl, ?_⟩, by decide +kernel⟩
  exact .other (by decide) (by decide) .nil

end Ruse.Core.FindMatch
