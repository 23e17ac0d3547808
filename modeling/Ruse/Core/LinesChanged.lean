import Ruse.Core.LineText
import Ruse.Lib.SharedHead

/-!
# Whole lines as one edit

`Edit.linesChanged` replaces whole lines: what it gives takes the old text to the
new one (`linesChanged_applyTo`), between two line boundaries.
`Edit.linesChangedByInsert` (`Edit::lines_changed_by_insert`) is the same edit for
a new text that is the old one with a text put in, found without building the new
text. Both look for the longest run of bytes two texts share from an end, and that
run is determined by where it stops (`SharedHead.unique`).
-/

namespace Ruse.Core

open Ruse.Lib (SharedHead sharedHead drop_eq_of_reverse)

/-! ## The edit between two texts -/

/-- A line boundary: where a line starts, or the end of the text. -/
def LineBoundary (b : Bytes) (i : Nat) : Prop := StartsLine b i ∨ i = b.length

namespace Edit

/-- The shared tail stops within what is shared, and where both texts are at the
head or after a newline. -/
theorem lineTail_spec (old new : Bytes) (head tail : Nat) :
    lineTail old new head tail ≤ tail ∧
      (lineTail old new head tail = 0 ∨
        old.length - lineTail old new head tail = head ∨
          old[old.length - lineTail old new head tail - 1]? = some newline) := by
  induction tail with
  | zero => exact ⟨Nat.le_refl 0, .inl rfl⟩
  | succ tail ih =>
    unfold lineTail
    dsimp only
    split
    · rename_i hstop
      exact ⟨Nat.le_refl _, .inr hstop.1⟩
    · exact ⟨Nat.le_succ_of_le ih.1, ih.2⟩

/-- The three parts of a lines change: what is shared before and after, and what
lies between. -/
structure Splits (old new : Bytes) (head tail : Nat) : Prop where
  old_le : head + tail ≤ old.length
  new_le : head + tail ≤ new.length
  before : old.take head = new.take head
  after : old.drop (old.length - tail) = new.drop (new.length - tail)

theorem Splits.replaced {old new : Bytes} {head tail : Nat} (h : Splits old new head tail) :
    old.take head ++ slice new head (new.length - tail) ++ old.drop (old.length - tail) = new := by
  rw [h.before, h.after, List.append_assoc, slice_append_drop (by have := h.new_le; omega),
    List.take_append_drop]

/-- The head of a lines change: the shared bytes, back to the start of a line. -/
def lineHead (old new : Bytes) : Nat :=
  lineStart old ((old.zip new).takeWhile fun p => p.1 == p.2).length

/-- The tail of a lines change: the shared bytes after the head, from the start of
a line. -/
def lineTailAfter (old new : Bytes) (head : Nat) : Nat :=
  lineTail old new head
    (((old.drop head).reverse.zip (new.drop head).reverse).takeWhile fun p => p.1 == p.2).length

theorem cut_eq_lineHead (old new : Bytes) :
    ((old.zip new).takeWhile fun p => p.1 == p.2).length -
        tailLength (old.take ((old.zip new).takeWhile fun p => p.1 == p.2).length) =
      lineHead old new := by
  show _ = (old.take _).length - _
  rw [List.length_take, Nat.min_eq_left (sharedHead old new).left]

theorem linesChanged_eq (old new : Bytes) :
    linesChanged old new = replace (lineHead old new)
      (old.length - lineTailAfter old new (lineHead old new) - lineHead old new)
      (slice new (lineHead old new)
        (new.length - lineTailAfter old new (lineHead old new))) := by
  unfold linesChanged
  dsimp only
  rw [cut_eq_lineHead]
  have htake : ((old.drop (lineHead old new)).reverse.zip (new.drop (lineHead old new)).reverse).take
      (min (old.length - lineHead old new) (new.length - lineHead old new)) =
        (old.drop (lineHead old new)).reverse.zip (new.drop (lineHead old new)).reverse :=
    List.take_of_length_le (by simp)
  rw [htake]
  rfl

theorem lineHead_le (old new : Bytes) :
    lineHead old new ≤ old.length ∧ lineHead old new ≤ new.length := by
  have hcommon := sharedHead old new
  have hle := lineStart_le old ((old.zip new).takeWhile fun p => p.1 == p.2).length
  exact ⟨Nat.le_trans hle hcommon.left, Nat.le_trans hle hcommon.right⟩

theorem lines_split (old new : Bytes) :
    Splits old new (lineHead old new) (lineTailAfter old new (lineHead old new)) := by
  have hcommon := sharedHead old new
  have hhead := lineStart_le old ((old.zip new).takeWhile fun p => p.1 == p.2).length
  have hle := lineHead_le old new
  have htail := sharedHead (old.drop (lineHead old new)).reverse (new.drop (lineHead old new)).reverse
  have hcut := (lineTail_spec old new (lineHead old new)
    (((old.drop (lineHead old new)).reverse.zip (new.drop (lineHead old new)).reverse).takeWhile
      fun p => p.1 == p.2).length).1
  have hleft := htail.left
  have hright := htail.right
  rw [List.length_reverse, List.length_drop] at hleft hright
  have ho : lineTailAfter old new (lineHead old new) ≤ old.length - lineHead old new :=
    Nat.le_trans hcut hleft
  have hn : lineTailAfter old new (lineHead old new) ≤ new.length - lineHead old new :=
    Nat.le_trans hcut hright
  exact ⟨by omega, by omega, hcommon.take_eq hhead, drop_eq_of_reverse (htail.take_eq hcut) ho hn⟩

theorem linesChanged_endPos (old new : Bytes) : (linesChanged old new).endPos =
    old.length - lineTailAfter old new (lineHead old new) := by
  have hsplit := (lines_split old new).old_le
  rw [linesChanged_eq]
  simp only [replace, endPos]
  omega

theorem linesChanged_boundary (old new : Bytes) :
    LineBoundary old (linesChanged old new).pos ∧
      LineBoundary old (linesChanged old new).endPos := by
  rw [linesChanged_endPos, linesChanged_eq]
  have hstart : StartsLine old (lineHead old new) := (lineStart_spec old _).1
  refine ⟨.inl hstart, ?_⟩
  rcases (lineTail_spec old new (lineHead old new) _).2 with hzero | hhead | hnl
  · exact .inr (by unfold lineTailAfter; rw [hzero]; rfl)
  · exact .inl (by unfold lineTailAfter; rwa [hhead])
  · exact .inl (.inr hnl)

theorem linesChanged_endPos_le (old new : Bytes) : (linesChanged old new).endPos ≤ old.length := by
  rcases (linesChanged_boundary old new).2 with (hzero | hnl) | hlen
  · omega
  · obtain ⟨hlt, -⟩ := List.getElem?_eq_some_iff.mp hnl
    omega
  · omega

end Edit

/-- The list of one edit, applied: what is before the edit, what it puts in, and
what is after it. -/
theorem EditList.new_single_applyTo {e : Edit} {l : EditList} (buf : Bytes)
    (h : EditList.new [e] = .ok l) :
    l.applyTo buf = buf.take e.pos ++ e.ins ++ buf.drop e.endPos := by
  have hedits : l.edits = EditList.kept [e] := by
    unfold EditList.new at h
    split at h <;> cases h
    rfl
  rw [EditList.applyTo, hedits, EditList.kept]
  by_cases hc : e.Changes
  · rw [List.filter_cons_of_pos (by simpa using hc), List.filter_nil]
    simp [EditList.applyFrom, slice]
  · rw [List.filter_cons_of_neg (by simpa using hc), List.filter_nil, List.insertionSort_nil]
    simp only [Edit.Changes, not_or, not_not] at hc
    simp [EditList.applyFrom, Edit.endPos, hc.1, hc.2]

/-- As a list of edits, a lines change is in the old text and gives the new one. -/
theorem linesChanged_applyTo {old new : Bytes} {l : EditList}
    (hl : EditList.new [Edit.linesChanged old new] = .ok l) :
    l.InBounds old.length ∧ l.applyTo old = new := by
  refine ⟨EditList.new_single_inBounds hl (Edit.linesChanged_endPos_le old new), ?_⟩
  rw [EditList.new_single_applyTo old hl, Edit.linesChanged_endPos, Edit.linesChanged_eq]
  exact (Edit.lines_split old new).replaced

/-! ## An insertion as a lines change -/

namespace Edit

/-- The text `old` with `text` inserted at `at'`. -/
def inserted (old : Bytes) (at' : Nat) (text : Bytes) : Bytes := old.take at' ++ text ++ old.drop at'

/-- The lookup of byte `i` of the new text, which is not built. -/
def newAt (old : Bytes) (at' : Nat) (text : Bytes) (i : Nat) : UInt8 :=
  if i < at' then old.getD i 0
  else if i < at' + text.length then text.getD (i - at') 0
  else old.getD (i - text.length) 0

/-- A loop that counts `k` up while `same k`, `room` times at most. -/
def runOn (same : Nat → Bool) : Nat → Nat → Nat
  | 0, k => k
  | room + 1, k => if same k then runOn same room (k + 1) else k

/-- The loop that cuts the shared tail, with the new text's bytes looked up. -/
def trimTail (old : Bytes) (nlen : Nat) (new : Nat → UInt8) (head : Nat) : Nat → Nat
  | 0 => 0
  | tail + 1 =>
    let o := old.length - (tail + 1)
    let n := nlen - (tail + 1)
    if (o = head ∨ old[o - 1]? = some newline) ∧ (n = head ∨ new (n - 1) = newline) then tail + 1
    else trimTail old nlen new head tail

/-- `linesChanged` for the new text that is `old` with `text` inserted at `at'`, found
without building it: only the bytes around the insertion are compared. -/
def linesChangedByInsert (old : Bytes) (at' : Nat) (text : Bytes) : Edit :=
  let olen := old.length
  let nlen := olen + text.length
  let new := newAt old at' text
  -- everything before the insertion is shared, and the shared head may run on into it
  let common := runOn (fun i => old.getD i 0 == new i) (olen - at') at'
  let head := common - tailLength (old.take common)
  let room := olen - head
  -- everything after it is shared, and the shared tail may run on back before it
  let after := min (olen - at') room
  let sameTail :=
    runOn (fun k => old.getD (olen - k - 1) 0 == new (nlen - k - 1)) (room - after) after
  let tail := trimTail old nlen new head sameTail
  replace head (olen - tail - head) ((List.range' head (nlen - tail - head)).map new)

/-- The run ends at the first place that differs, or has no room left. -/
theorem runOn_spec (same : Nat → Bool) (room k : Nat) :
    k ≤ runOn same room k ∧ runOn same room k ≤ k + room ∧
      (∀ i, k ≤ i → i < runOn same room k → same i = true) ∧
        (runOn same room k < k + room → same (runOn same room k) = false) := by
  induction room generalizing k with
  | zero =>
    refine ⟨Nat.le_refl k, Nat.le_refl k, fun i hi hlt => ?_, fun h => absurd h (Nat.lt_irrefl k)⟩
    exact absurd hlt (Nat.not_lt.mpr hi)
  | succ room ih =>
    unfold runOn
    split
    · rename_i hk
      obtain ⟨hle, hroom, hall, hstop⟩ := ih (k + 1)
      refine ⟨by omega, by omega, fun i hi hlt => ?_, fun h => hstop (by omega)⟩
      by_cases hik : i = k
      · rwa [hik]
      · exact hall i (by omega) hlt
    · rename_i hk
      refine ⟨Nat.le_refl k, by omega, fun i hi hlt => ?_, fun _ => by simpa using hk⟩
      exact absurd hlt (Nat.not_lt.mpr hi)

section Insertion

variable {old : Bytes} {at' : Nat} (text : Bytes) (hat : at' ≤ old.length)

theorem inserted_length : (inserted old at' text).length = old.length + text.length := by
  simp only [inserted, List.length_append, List.length_take, List.length_drop]
  omega

include hat in
/-- `newAt` looks the new text's bytes up. -/
theorem newAt_spec {i : Nat} (hi : i < old.length + text.length) :
    (inserted old at' text)[i]? = some (newAt old at' text i) := by
  have htake : (old.take at').length = at' := by
    rw [List.length_take]
    omega
  have hget {b : Bytes} {j : Nat} (hj : j < b.length) : b[j]? = some (b.getD j 0) := by
    simp [hj]
  unfold newAt inserted
  split
  · rename_i hlt
    rw [List.append_assoc, List.getElem?_append_left (by omega), List.getElem?_take_of_lt hlt]
    exact hget (by omega)
  · rename_i hge
    split
    · rename_i hlt
      rw [List.append_assoc, List.getElem?_append_right (by omega),
        List.getElem?_append_left (by omega), htake]
      exact hget (by omega)
    · rename_i hge'
      have hlen : (old.take at' ++ text).length = at' + text.length := by
        rw [List.length_append, htake]
      rw [List.getElem?_append_right (by omega), hlen, List.getElem?_drop,
        show at' + (i - (at' + text.length)) = i - text.length by omega]
      exact hget (by omega)

include hat in
theorem runOn_sharedHead :
    SharedHead old (inserted old at' text)
      (runOn (fun i => old.getD i 0 == newAt old at' text i) (old.length - at') at') := by
  obtain ⟨hle, hroom, hall, hstop⟩ :=
    runOn_spec (fun i => old.getD i 0 == newAt old at' text i) (old.length - at') at'
  have hget {i : Nat} (hi : i < old.length) : old[i]? = some (old.getD i 0) := by simp [hi]
  have hlen := @inserted_length old at' text
  refine ⟨by omega, by omega, fun i hi => ?_, fun hlt _ => ?_⟩
  · rw [newAt_spec text hat (by omega), hget (by omega), Option.some_inj]
    by_cases hia : i < at'
    · rw [newAt, if_pos hia]
    · exact eq_of_beq (hall i (by omega) hi)
  · rw [newAt_spec text hat (by omega), hget hlt, Ne, Option.some_inj]
    exact ne_of_beq_false (hstop (by omega))

include hat in
/-- The tail's loop finds all that the two texts share at the end, after `head`. -/
theorem runOn_sharedTail {head : Nat} (hhead : head ≤ old.length) :
    SharedHead (old.drop head).reverse ((inserted old at' text).drop head).reverse
      (runOn (fun k => old.getD (old.length - k - 1) 0 ==
          newAt old at' text (old.length + text.length - k - 1))
        (old.length - head - min (old.length - at') (old.length - head))
        (min (old.length - at') (old.length - head))) := by
  generalize hafter : min (old.length - at') (old.length - head) = after
  obtain ⟨hle, hroom, hall, hstop⟩ := runOn_spec (fun k => old.getD (old.length - k - 1) 0 ==
    newAt old at' text (old.length + text.length - k - 1)) (old.length - head - after) after
  generalize hn : runOn _ _ _ = n at hle hroom hall hstop
  have hlen := @inserted_length old at' text
  have hold {i : Nat} (hi : i < old.length - head) :
      (old.drop head).reverse[i]? = some (old.getD (old.length - i - 1) 0) := by
    rw [List.getElem?_reverse (by rwa [List.length_drop]), List.length_drop, List.getElem?_drop,
      show head + (old.length - head - 1 - i) = old.length - i - 1 by omega]
    simp [show old.length - i - 1 < old.length by omega]
  have hnew {i : Nat} (hi : i < old.length - head) :
      ((inserted old at' text).drop head).reverse[i]? =
        some (newAt old at' text (old.length + text.length - i - 1)) := by
    rw [List.getElem?_reverse (by rw [List.length_drop]; omega), List.length_drop,
      List.getElem?_drop, hlen,
      show head + (old.length + text.length - head - 1 - i) =
        old.length + text.length - i - 1 by omega]
    exact newAt_spec text hat (by omega)
  refine ⟨?_, ?_, fun i hi => ?_, fun hlt _ => ?_⟩
  · rw [List.length_reverse, List.length_drop]
    omega
  · rw [List.length_reverse, List.length_drop]
    omega
  · rw [hold (by omega), hnew (by omega), Option.some_inj]
    by_cases hia : i < after
    · -- after the insertion the new text is the old one, further on
      rw [newAt, if_neg (by omega), if_neg (by omega)]
      congr 1
      omega
    · exact eq_of_beq (hall i (by omega) hi)
  · rw [List.length_reverse, List.length_drop] at hlt
    rw [hold hlt, hnew hlt, Ne, Option.some_inj]
    exact ne_of_beq_false (hstop (by omega))

include hat in
theorem trimTail_eq {head tail : Nat} (htail : head + tail ≤ old.length) :
    trimTail old (old.length + text.length) (newAt old at' text) head tail =
      lineTail old (inserted old at' text) head tail := by
  have hlen := @inserted_length old at' text
  induction tail with
  | zero => rfl
  | succ tail ih =>
    unfold trimTail lineTail
    dsimp only
    rw [hlen, ih (by omega)]
    refine if_congr (and_congr_right fun _ => or_congr_right' fun hn => ?_) rfl rfl
    rw [newAt_spec text hat (by omega), Option.some_inj]

include hat in
theorem map_newAt {i j : Nat} (hj : j ≤ old.length + text.length) :
    (List.range' i (j - i)).map (newAt old at' text) = slice (inserted old at' text) i j := by
  refine List.ext_getElem? fun k => ?_
  rw [List.getElem?_map, slice]
  by_cases hk : k < j - i
  · rw [List.getElem?_take_of_lt hk, List.getElem?_drop, newAt_spec text hat (by omega),
      List.getElem?_range' hk]
    simp
  · rw [List.getElem?_take_eq_none (by omega), List.getElem?_eq_none (by simp; omega)]
    rfl

end Insertion

/-- An insertion's lines change is the lines change to the text with the insertion. -/
theorem linesChangedByInsert_eq {old : Bytes} {at' : Nat} (text : Bytes) (hat : at' ≤ old.length) :
    linesChangedByInsert old at' text =
      linesChanged old (inserted old at' text) := by
  have hcommon := (runOn_sharedHead text hat).unique (sharedHead old _)
  have hle := (lineHead_le old (inserted old at' text)).1
  have htail := (runOn_sharedTail text hat hle).unique (sharedHead _ _)
  have hroom := (sharedHead (old.drop (lineHead old (inserted old at' text))).reverse
    ((inserted old at' text).drop (lineHead old (inserted old at' text))).reverse).left
  have hlen := @inserted_length old at' text
  rw [List.length_reverse, List.length_drop] at hroom
  rw [linesChanged_eq]
  unfold linesChangedByInsert lineTailAfter
  dsimp only
  rw [hcommon, cut_eq_lineHead, htail, trimTail_eq text hat (by omega), hlen,
    map_newAt text hat (Nat.sub_le _ _)]

end Edit

/-- A lines change, as a list of edits, is inside the old text, applied to it gives the
new one, and replaces a span between two line boundaries; and the insertion's shortcut
is the lines change to the text with the insertion. -/
theorem lines_changed_by_lines (old new : Bytes) :
    (∃ l, EditList.new [Edit.linesChanged old new] = .ok l ∧ l.InBounds old.length ∧
      l.applyTo old = new) ∧
    LineBoundary old (Edit.linesChanged old new).pos ∧
    LineBoundary old (Edit.linesChanged old new).endPos ∧
    ∀ (at' : Nat) (text : Bytes), at' ≤ old.length →
      Edit.linesChangedByInsert old at' text =
        Edit.linesChanged old (Edit.inserted old at' text) := by
  obtain ⟨l, hl⟩ := EditList.new_single (Edit.linesChanged old new)
  obtain ⟨hin, happ⟩ := linesChanged_applyTo hl
  obtain ⟨hpos, hend⟩ := Edit.linesChanged_boundary old new
  exact ⟨⟨l, hl, hin, happ⟩, hpos, hend,
    fun _ text hat => Edit.linesChangedByInsert_eq text hat⟩

/-- The insertion of a line that repeats its neighbours: the edit puts it in after
them. -/
example : Edit.linesChangedByInsert [97, 10, 97, 10, 98] 2 [97, 10] = ⟨4, 0, [97, 10]⟩ := by
  decide

end Ruse.Core
