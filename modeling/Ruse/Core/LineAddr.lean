import Ruse.Core.Commit
import Ruse.Core.LineSpans
import Ruse.Core.LinesChanged

/-!
# Line ranges and destinations

What the Ex line commands make of the lines they are given: the range and the
destination of `editor/substitute.rs`, and where a line starts by the line index of the
document (`line_count`, `line_span`).

A text cut at the start of a line is cut between two lines (`Rows.take`, `Rows.drop`,
`Rows.slice`): what the commands slice out of the text is the text of whole lines.
-/

namespace Ruse.Core

variable {i : Nat}

/-! ## Addresses -/

/-- A line range; `lines` is 1-based and inclusive. -/
inductive SubRange where
  | currentLine
  | wholeFile
  | lines (a b : Nat)
deriving DecidableEq, Repr

/-- `resolve_lines`: the first and the last line of a range, from 0. -/
def SubRange.resolve (range : SubRange) (nlines cursorLine : Nat) : Nat × Nat :=
  let last := nlines - 1
  match range with
  | .currentLine => (min cursorLine last, min cursorLine last)
  | .wholeFile => (0, last)
  | .lines a b => (min (min a b - 1) last, min (max a b - 1) last)

/-- A destination: the line after which the text goes. -/
inductive LineAddr where
  | line (n : Nat)
  | last
  | current
  | currentOffset (d : Int)
  | lastOffset (d : Int)
deriving DecidableEq, Repr

/-- The index of the line before which the text goes, up to `nlines`; a relative
destination off the buffer is none. -/
def LineAddr.insertIndex (dest : LineAddr) (cursorLine nlines : Nat) : Option Nat :=
  let offset := fun (base : Nat) (d : Int) =>
    if 0 ≤ base + d ∧ base + d ≤ nlines then some (base + d).toNat else none
  match dest with
  | .line n => some (min n nlines)
  | .last => some nlines
  | .current => some (min (cursorLine + 1) nlines)
  | .currentOffset d => offset (cursorLine + 1) d
  | .lastOffset d => offset nlines d

theorem SubRange.resolve_spec (range : SubRange) {nlines : Nat} (h : 0 < nlines) (cursorLine : Nat) :
    (range.resolve nlines cursorLine).1 ≤ (range.resolve nlines cursorLine).2 ∧
      (range.resolve nlines cursorLine).2 < nlines := by
  unfold resolve
  cases range <;> dsimp only <;> omega

/-- A destination is one of the lines, or past the last. -/
theorem LineAddr.insertIndex_le {dest : LineAddr} {cursorLine nlines ins : Nat}
    (h : dest.insertIndex cursorLine nlines = some ins) : ins ≤ nlines := by
  unfold insertIndex at h
  cases dest with
  | line n =>
    cases h
    exact Nat.min_le_right _ _
  | last =>
    cases h
    exact Nat.le_refl _
  | current =>
    cases h
    exact Nat.min_le_right _ _
  | currentOffset d =>
    dsimp only at h
    split at h <;> cases h
    omega
  | lastOffset d =>
    dsimp only at h
    split at h <;> cases h
    omega

/-! ## The lines of a document -/

/-- `line_count`: the empty slot after a final newline is no line. -/
def lineCount (b : Bytes) : Nat := (lineStartsOf b).length - if endsNl b then 1 else 0

/-- `line_span`: where line `i` starts, and where it ends before its newline. -/
def lineSpan (b : Bytes) (i : Nat) : Nat × Nat :=
  (nthLineStart b i,
    match (lineStartsOf b)[i + 1]? with
    | some next => next - 1
    | none => b.length)

/-- The text of a list of lines, with a final newline when `nl` says so. -/
def linesText (nl : Bool) (ls : List Bytes) : Bytes := if nl then terminated ls else joinLines ls

/-- What such a text lacks of its terminated lines. -/
def lastBreak (nl : Bool) : Bytes := if nl then [] else [newline]

theorem eq_linesText {nl : Bool} {b : Bytes} {ls : List Bytes} (hne : ls ≠ [])
    (h : b ++ lastBreak nl = terminated ls) : b = linesText nl ls := by
  cases nl with
  | true => rwa [lastBreak, if_pos rfl, List.append_nil] at h
  | false =>
    rw [lastBreak, if_neg (by simp), ← joinLines_append hne] at h
    exact List.append_cancel_right h

namespace Rows

variable {b : Bytes} {ls : List Bytes} {nl : Bool}

theorem lineCount (h : Rows b ls nl) (hnl : endsNl b = nl) : lineCount b = ls.length := by
  rw [Core.lineCount, hnl, h.lineStartsOf, List.length_map, List.length_range, Nat.add_sub_cancel]

theorem startAt_le (h : Rows b ls nl) (hi : i < ls.length) : startAt ls i ≤ b.length := by
  have hlen := h.length
  have hlt := startAt_lt ls hi (Nat.le_refl _)
  cases nl
  · rw [if_neg (by simp)] at hlen
    omega
  · rw [if_pos rfl] at hlen
    omega

/-- The line starts by the index; past the last line it is the end of the text. -/
theorem nthLineStart (h : Rows b ls nl) (hi : i < ls.length) :
    nthLineStart b i = startAt ls i := by
  rw [Core.nthLineStart, h.lineStartsOf, List.getD_eq_getElem?_getD, List.getElem?_map,
    List.getElem?_range (by omega), Option.map_some, Option.getD_some]

theorem nthLineStart_length (h : Rows b ls nl) : Core.nthLineStart b ls.length = b.length := by
  have hlen := h.length
  rw [Core.nthLineStart, h.lineStartsOf, List.getD_eq_getElem?_getD, List.getElem?_map]
  cases nl with
  | true =>
    rw [if_pos rfl] at hlen
    rw [if_pos rfl, List.getElem?_range (by omega), Option.map_some, Option.getD_some, ← hlen,
      Nat.add_zero]
  | false =>
    rw [if_neg (by simp), List.getElem?_eq_none (by simp), Option.map_none, Option.getD_none]

theorem nthLineStart_of (h : Rows b ls nl) (hi : i ≤ ls.length) (hin : nl = true ∨ i < ls.length) :
    Core.nthLineStart b i = startAt ls i ∧ startAt ls i ≤ b.length := by
  rcases Nat.eq_or_lt_of_le hi with rfl | hlt
  · obtain rfl : nl = true := hin.resolve_right (Nat.lt_irrefl _)
    have hlen := h.length
    rw [if_pos rfl, Nat.add_zero] at hlen
    rw [h.nthLineStart_length, hlen]
    exact ⟨rfl, Nat.le_refl _⟩
  · exact ⟨h.nthLineStart hlt, h.startAt_le hlt⟩

theorem startAt_lt_length (h : Rows b ls false) (hb : b ≠ []) (hi : i < ls.length) :
    startAt ls i < b.length := by
  obtain ⟨front, l, rfl, rfl⟩ := h.unterminated
  have hl : l ≠ [] := by
    rintro rfl
    exact h.last rfl hb (by simp)
  have hpos := List.length_pos_iff.mpr hl
  rw [List.length_append] at hi
  have hmono := startAt_mono (front ++ [l]) (show i ≤ front.length from Nat.le_of_lt_succ hi)
  have hfront : startAt (front ++ [l]) front.length = (terminated front).length := by
    rw [startAt, List.take_left]
  rw [List.length_append]
  omega

/-- The span of a line is where the lines before it end, and its length. -/
theorem lineSpan (h : Rows b ls nl) {l : Bytes} (hi : ls[i]? = some l) :
    lineSpan b i = (startAt ls i, startAt ls i + l.length) := by
  have hlt := (List.getElem?_eq_some_iff.mp hi).1
  have hsucc := startAt_succ hi
  have hle := (h.line_le hi).1
  rw [Core.lineSpan, h.nthLineStart hlt, h.lineStartsOf, List.getElem?_map]
  congr 1
  by_cases hin : i + 1 < ls.length + if nl = true then 1 else 0
  · rw [List.getElem?_range hin, Option.map_some]
    dsimp only
    omega
  · rw [List.getElem?_eq_none (by rw [List.length_range]; omega), Option.map_none]
    dsimp only
    have hlast : i + 1 = ls.length := by omega
    have hnl : nl = false := by
      cases nl with
      | false => rfl
      | true =>
        rw [if_pos rfl] at hin
        omega
    have hlen := h.length
    rw [hnl, if_neg (by simp), ← hlast] at hlen
    omega

/-! ## Cuts between lines -/

theorem text' (h : Rows b ls nl) : b ++ lastBreak nl = terminated ls := h.text

theorem eq_linesText (h : Rows b ls nl) (hb : b ≠ []) : b = linesText nl ls :=
  Core.eq_linesText (h.ne_nil hb) h.text

theorem take (h : Rows b ls nl) (hi : startAt ls i ≤ b.length) :
    b.take (startAt ls i) = terminated (ls.take i) := by
  have htext := h.text'
  rw [← List.take_append_drop i ls, terminated_append] at htext
  have htake := congrArg (List.take (startAt ls i)) htext
  rwa [List.take_append_of_le_length hi, startAt, List.take_left] at htake

theorem drop (h : Rows b ls nl) (hi : startAt ls i ≤ b.length) :
    b.drop (startAt ls i) ++ lastBreak nl = terminated (ls.drop i) := by
  have htext := h.text'
  rw [← List.take_append_drop i ls, terminated_append] at htext
  have hdrop := congrArg (List.drop (startAt ls i)) htext
  rwa [List.drop_append_of_le_length hi, startAt, List.drop_left] at hdrop

theorem slice (h : Rows b ls nl) {j : Nat} (hij : i ≤ j) (hj : startAt ls j ≤ b.length) :
    slice b (startAt ls i) (startAt ls j) = terminated ((ls.take j).drop i) := by
  have htake := h.take hj
  have hpre : startAt ls i = (terminated ((ls.take j).take i)).length := by
    rw [List.take_take, Nat.min_eq_left hij, startAt]
  rw [Core.slice, ← List.drop_take, htake, ← List.take_append_drop i (ls.take j), terminated_append,
    hpre, List.take_append_drop, List.drop_left]

end Rows

theorem terminated_dropLast {ls : List Bytes} (h : ls ≠ []) :
    (terminated ls).dropLast ++ [newline] = terminated ls := by
  rw [← joinLines_append h, List.dropLast_concat]

theorem slice_dropLast {b : Bytes} {j : Nat} (hij : i < j) (hj : j ≤ b.length) :
    slice b i (j - 1) = (slice b i j).dropLast := by
  rw [List.dropLast_eq_take, slice_length (Nat.le_of_lt hij) hj, slice, slice, List.take_take]
  congr 1
  omega

/-- Lines written out are read back as the same rows. -/
theorem rows_linesText {nl : Bool} {ls : List Bytes} (hclean : ∀ l ∈ ls, newline ∉ l) (hne : ls ≠ [])
    (hlast : nl = false → ls.getLast? ≠ some []) :
    Rows (linesText nl ls) ls nl ∧ endsNl (linesText nl ls) = nl ∧ linesText nl ls ≠ [] := by
  have hjoin := joinLines_append hne
  cases nl with
  | true =>
    have htext : linesText true ls = joinLines ls ++ [newline] := hjoin.symm
    rw [htext]
    exact ⟨⟨by rw [if_pos rfl, List.append_nil, hjoin], hclean, fun h => by cases h⟩, endsNl_append _,
      by simp⟩
  | false =>
    have htext : linesText false ls = joinLines ls := rfl
    rw [htext]
    refine ⟨⟨hjoin, hclean, fun h _ => hlast h⟩, ?_, fun hnil => ?_⟩
    · -- the last byte is one of the last line
      obtain ⟨front, l, rfl⟩ : ∃ front l, ls = front ++ [l] := by
        rcases List.eq_nil_or_concat ls with rfl | ⟨front, l, hls⟩
        · exact absurd rfl hne
        · exact ⟨front, l, by rw [hls, List.concat_eq_append]⟩
      have hl : l ≠ [] := by
        rintro rfl
        exact hlast rfl (by simp)
      rw [terminated_append, terminated_cons, terminated_nil, ← List.append_assoc] at hjoin
      rw [List.append_cancel_right hjoin, endsNl, List.getLast?_append_of_ne_nil _ hl,
        List.getLast?_eq_some_getLast hl]
      refine beq_eq_false_iff_ne.mpr fun h => ?_
      exact hclean l (by simp) (Option.some.inj h ▸ List.getLast_mem hl)
    · rw [joinLines_eq_nil hne hnil] at hlast
      exact hlast rfl rfl

theorem EditList.new_pair {e e' : Edit} {buf : Bytes} (hbefore : e.Before e') (he : e.Changes)
    (he' : e'.Changes) (hin : e'.endPos ≤ buf.length) :
    ∃ l, EditList.new [e, e'] = .ok l ∧ l.InBounds buf.length ∧
      l.applyTo buf =
        buf.take e.pos ++ e.ins ++ slice buf e.endPos e'.pos ++ e'.ins ++ buf.drop e'.endPos := by
  let l : EditList := ⟨[e, e'], by simpa using hbefore, by simp [he, he']⟩
  refine ⟨l, EditList.new_edits l, ?_, ?_⟩
  · intro x hx
    rcases List.mem_pair.mp hx with rfl | rfl
    · have := x.pos_le_endPos
      have := e'.pos_le_endPos
      have := hbefore.2
      omega
    · exact hin
  · show EditList.applyFrom buf 0 [e, e'] = _
    simp only [EditList.applyFrom, slice, List.drop_zero, Nat.sub_zero, List.append_assoc]

end Ruse.Core
