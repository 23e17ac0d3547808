import Ruse.Core.LineAddr

/-!
# `:g/pat/d` and `:d`

The models of `delete_lines_into` and of the delete branch of `global_run` in
`editor/mod.rs`, on the text and the registers. `:g/pat/d` cuts all marked lines in one
edit list, adjacent lines in one range (`mergeRange`), and passes each line through the
registers; `deleteEach` runs `:d` on one marked line after the other.

Both walk the marks in order. After each mark the lines passed are the ones kept before
it (`passMark`): the ranges cut what lies between them (`Batch`), and the text of the
single deletes is what they leave (`deleteEach_eq`).
-/

namespace Ruse.Core

variable {s : List Bytes × Nat} {li : Nat} {marks : List Nat} {rs : List (Nat × Nat)}

/-! ## The commands -/

/-- What a delete does: its edits, the registers after it, and the lines it reports. -/
structure Deleted where
  edits : List Edit
  registers : RegisterStore
  count : Nat

/-- The text and the registers after a delete; `none` is its failed `expect`. -/
def Deleted.commit (d : Deleted) (b : Bytes) : Option (Bytes × RegisterStore) :=
  match EditList.new d.edits with
  | .ok l => if l.InBounds b.length then some (l.applyTo b, d.registers) else none
  | .error _ => none

/-- `:[range]d {x}`; `none` deletes nothing. -/
def deleteLinesInto (registers : RegisterStore) (b : Bytes) (cursorLine : Nat) (range : SubRange)
    (reg : Option Char) : Option Deleted :=
  let (first, last) := range.resolve (lineCount b) cursorLine
  let fs := (lineSpan b first).1
  let le := (lineSpan b last).2
  -- a last line without its newline takes the one before it
  let (start, stop) := if le < b.length then (fs, le + 1) else if 0 < fs then (fs - 1, le) else (0, le)
  if stop = start then none
  else
    some ⟨[Edit.delete start (stop - start)], registers.delete reg (.linewise (slice b fs le)),
      last - first + 1⟩

/-- `:d` on one marked line after the other, `k` lines having been deleted before. -/
def deleteEach (cursorLine : Nat) : List Nat → Nat → Bytes × RegisterStore →
    Option (Bytes × RegisterStore)
  | [], _, st => some st
  | li :: rest, k, (b, registers) =>
    match deleteLinesInto registers b cursorLine (.lines (li - k + 1) (li - k + 1)) none with
    | none => deleteEach cursorLine rest k (b, registers)
    | some d => (d.commit b).bind fun st => deleteEach cursorLine rest (k + d.count) st

/-- The range of a marked line, added to the ranges before it. -/
def mergeRange (b : Bytes) (lines : List (Nat × Nat)) (ranges : List (Nat × Nat)) (li : Nat) :
    List (Nat × Nat) :=
  let (ls, le) := lines.getD li (0, 0)
  let stop := if le < b.length then le + 1 else le
  match ranges.getLast? with
  | some r => if r.2 = ls then ranges.dropLast ++ [(r.1, stop)] else ranges ++ [(ls, stop)]
  | none => [(ls, stop)]

/-- The last range takes the newline before it when it runs to the end of a text without
a final newline. -/
def trimLast (b : Bytes) (ranges : List (Nat × Nat)) : List (Nat × Nat) :=
  match ranges.getLast? with
  | some r =>
    if r.2 = b.length ∧ 0 < r.1 ∧ endsNl b = false then ranges.dropLast ++ [(r.1 - 1, r.2)] else ranges
  | none => ranges

/-- The delete branch of `global_run`. -/
def globalDelete (registers : RegisterStore) (b : Bytes) (marked : List Nat) : Option Deleted :=
  if marked = [] then none
  else
    let lines := lineSpans b
    let ranges := trimLast b (marked.foldl (mergeRange b lines) [])
    some
      { edits := ranges.map fun r => Edit.delete r.1 (r.2 - r.1)
        registers := marked.foldl (fun registers li =>
          let (ls, le) := lines.getD li (0, 0)
          registers.delete none (.linewise (slice b ls le))) registers
        count := marked.length }

/-- The text and the registers after `:g/pat/d`. -/
def globalDeleteRun (registers : RegisterStore) (b : Bytes) (marked : List Nat) :
    Option (Bytes × RegisterStore) :=
  match globalDelete registers b marked with
  | none => some (b, registers)
  | some d => d.commit b

/-! ## The lines kept -/

/-- The lines kept before a mark, and the first line not passed: the next mark is passed
with the lines before it. -/
def passMark (ls : List Bytes) (s : List Bytes × Nat) (li : Nat) : List Bytes × Nat :=
  (s.1 ++ (ls.take li).drop s.2, li + 1)

/-- The lines without the marked ones. -/
def unmarked (ls : List Bytes) (s : List Bytes × Nat) : List Bytes := s.1 ++ ls.drop s.2

/-! ## One line -/

theorem Deleted.commit_single {b : Bytes} {s n : Nat} (registers : RegisterStore) (count : Nat)
    (h : s + n ≤ b.length) : (⟨[Edit.delete s n], registers, count⟩ : Deleted).commit b =
      some (b.take s ++ b.drop (s + n), registers) := by
  obtain ⟨l, hl⟩ := EditList.new_single (Edit.delete s n)
  unfold Deleted.commit
  rw [hl]
  dsimp only
  rw [if_pos (EditList.new_single_inBounds hl h), EditList.new_single_applyTo b hl]
  simp only [Edit.delete, Edit.endPos, List.append_nil]

section Line

variable {b : Bytes} {ls : List Bytes} {nl : Bool}

/-- `:d` of a line: the lines without it, and the line in the registers. -/
theorem deleteLine_commit (h : Rows b ls nl) (hnl : endsNl b = nl) (hb : b ≠ []) {i : Nat} {l : Bytes}
    (hi : ls[i]? = some l) (registers : RegisterStore) (cursorLine : Nat) (reg : Option Char) :
    ∃ d, deleteLinesInto registers b cursorLine (.lines (i + 1) (i + 1)) reg = some d ∧
      d.count = 1 ∧ d.commit b =
        some (linesText nl (ls.take i ++ ls.drop (i + 1)), registers.delete reg (.linewise l)) := by
  have hlt := (List.getElem?_eq_some_iff.mp hi).1
  have hresolve : (SubRange.lines (i + 1) (i + 1)).resolve (lineCount b) cursorLine = (i, i) := by
    rw [h.lineCount hnl, SubRange.resolve]
    simp only [Nat.min_self, Nat.max_self, Nat.add_sub_cancel]
    rw [Nat.min_eq_left (by omega)]
  have hspan := h.lineSpan hi
  have hsucc := startAt_succ hi
  obtain ⟨hle, -⟩ := h.line_le hi
  have htake := h.take (h.startAt_le hlt)
  unfold deleteLinesInto
  rw [hresolve]
  dsimp only
  rw [hspan]
  rw [h.slice_line hi, Nat.sub_self]
  by_cases hin : startAt ls i + l.length < b.length
  · rw [if_pos hin]
    rw [if_neg (by omega)]
    refine ⟨_, rfl, rfl, ?_⟩
    have hstop : startAt ls i + (startAt ls i + l.length + 1 - startAt ls i) = startAt ls (i + 1) := by
      omega
    rw [Deleted.commit_single _ _ (by omega), hstop, htake]
    refine congrArg some (Prod.ext ?_ rfl)
    have htext : terminated (ls.take i) ++ b.drop (startAt ls (i + 1)) ++ lastBreak nl =
        terminated (ls.take i ++ ls.drop (i + 1)) := by
      rw [List.append_assoc, h.drop (by omega), terminated_append]
    cases hnl' : nl with
    | true =>
      rw [hnl', lastBreak, if_pos rfl, List.append_nil] at htext
      exact htext
    | false =>
      rw [hnl'] at h htext
      have hlast : i + 1 < ls.length := by
        by_contra hge
        have hlen := h.length
        rw [if_neg (by simp), show ls.length = i + 1 by omega] at hlen
        omega
      refine eq_linesText (fun hnil => ?_) htext
      have := (List.append_eq_nil_iff.mp hnil).2
      rw [List.drop_eq_nil_iff] at this
      omega
  · -- the last line, without its newline
    obtain ⟨rfl, hlast⟩ := h.last_line hi (by omega)
    have hrest : ls.drop (i + 1) = [] := List.drop_eq_nil_of_le (by omega)
    rw [if_neg hin, hrest, List.append_nil]
    by_cases hfirst : 0 < startAt ls i
    · rw [if_pos hfirst]
      rw [if_neg (by omega)]
      refine ⟨_, rfl, rfl, ?_⟩
      rw [Deleted.commit_single _ _ (by omega), List.drop_eq_nil_of_le (by omega), List.append_nil]
      refine congrArg some (Prod.ext ?_ rfl)
      have hsome : ls.take i ≠ [] := by
        intro hnil
        rw [startAt, hnil] at hfirst
        exact absurd hfirst (by decide)
      have hcut : b.take (startAt ls i - 1) = (b.take (startAt ls i)).dropLast := by
        rw [List.dropLast_eq_take, List.length_take, List.take_take, Nat.min_eq_left (by omega : startAt ls i ≤ b.length)]
        congr 1
        omega
      dsimp only
      rw [hcut, htake]
      refine eq_linesText hsome ?_
      exact terminated_dropLast hsome
    · rw [if_neg hfirst]
      have hpos := List.length_pos_iff.mpr hb
      rw [if_neg (by omega)]
      refine ⟨_, rfl, rfl, ?_⟩
      rw [Deleted.commit_single _ _ (by omega), List.drop_eq_nil_of_le (by omega), List.append_nil,
        List.take_zero]
      have hnone : ls.take i = [] := by
        rw [← terminated_eq_nil, ← htake, show startAt ls i = 0 by omega, List.take_zero]
      rw [hnone]
      rfl

theorem unmarked_passMark (hs : s.2 ≤ li) :
    (unmarked ls s).take (s.1.length + (li - s.2)) ++ (unmarked ls s).drop (s.1.length + (li - s.2) + 1) =
      unmarked ls (passMark ls s li) := by
  unfold unmarked passMark
  rw [List.take_length_add_append, Nat.add_assoc, List.drop_length_add_append, List.drop_drop,
    ← List.drop_take, show s.2 + (li - s.2 + 1) = li + 1 by omega]

/-- The marks still to pass: ascending, and on lines of the text. -/
structure Ahead (ls : List Bytes) (s : List Bytes × Nat) (marks : List Nat) : Prop where
  ascending : marks.Pairwise (· < ·)
  inside : ∀ li ∈ marks, s.2 ≤ li ∧ li < ls.length

theorem Ahead.tail {rest : List Nat} (h : Ahead ls s (li :: rest)) :
    Ahead ls (passMark ls s li) rest := by
  obtain ⟨hlt, hrest⟩ := List.pairwise_cons.mp h.ascending
  exact ⟨hrest, fun x hx => ⟨hlt x hx, (h.inside x (List.mem_cons_of_mem li hx)).2⟩⟩

/-- `:d` line by line leaves the unmarked lines, and each marked one has gone through the
registers. -/
theorem deleteEach_eq (h : Rows b ls nl) (hb : b ≠ []) (cursorLine : Nat)
    (registers : RegisterStore) (hsize : s.1.length ≤ s.2) (hkept : ∀ l ∈ s.1, l ∈ ls)
    (hmarks : Ahead ls s marks) :
    deleteEach cursorLine marks (s.2 - s.1.length) (linesText nl (unmarked ls s), registers) =
      some (linesText nl (unmarked ls (marks.foldl (passMark ls) s)),
        marks.foldl (fun registers li => registers.delete none (.linewise (ls.getD li []))) registers) := by
  induction marks generalizing s registers with
  | nil => rfl
  | cons li rest ih =>
    obtain ⟨hs, hli⟩ := hmarks.inside li List.mem_cons_self
    have hget : (unmarked ls s)[s.1.length + (li - s.2)]? = some ls[li] := by
      rw [unmarked, List.getElem?_append_right (by omega), List.getElem?_drop,
        show s.2 + (s.1.length + (li - s.2) - s.1.length) = li by omega, List.getElem?_eq_getElem hli]
    have hclean : ∀ l ∈ unmarked ls s, newline ∉ l := by
      intro l hl
      rcases List.mem_append.mp hl with hl | hl
      · exact h.clean l (hkept l hl)
      · exact h.clean l (List.mem_of_mem_drop hl)
    -- the last line is still there
    have hlast : nl = false → (unmarked ls s).getLast? ≠ some [] := by
      intro hnl
      have hdrop : ls.drop s.2 ≠ [] := by
        rw [Ne, List.drop_eq_nil_iff]
        omega
      rw [unmarked, List.getLast?_append_of_ne_nil _ hdrop, List.getLast?_drop, if_neg (by omega)]
      exact h.last hnl hb
    have hne : unmarked ls s ≠ [] := by
      intro hnil
      rw [hnil] at hget
      cases hget
    obtain ⟨hrows, hnl, htext⟩ := rows_linesText hclean hne hlast
    obtain ⟨d, hd, hcount, hcommit⟩ := deleteLine_commit hrows hnl htext hget registers cursorLine none
    have hsize' : (passMark ls s li).1.length = s.1.length + (li - s.2) := by
      simp only [passMark, List.length_append, List.length_drop, List.length_take]
      omega
    have hk : li - (s.2 - s.1.length) = s.1.length + (li - s.2) := by omega
    have hk' : s.2 - s.1.length + 1 = (passMark ls s li).2 - (passMark ls s li).1.length := by
      rw [hsize']
      show _ = li + 1 - _
      omega
    have hkept' : ∀ l ∈ (passMark ls s li).1, l ∈ ls := by
      intro l hl
      rcases List.mem_append.mp hl with hl | hl
      · exact hkept l hl
      · exact List.mem_of_mem_take (List.mem_of_mem_drop hl)
    rw [deleteEach, hk, hd]
    dsimp only
    rw [hcommit, Option.bind_some, hcount, hk', unmarked_passMark hs,
      ih _ (by rw [hsize']; show _ ≤ li + 1; omega) hkept' hmarks.tail, List.foldl_cons, List.foldl_cons,
      List.getD_eq_getElem?_getD, List.getElem?_eq_getElem hli, Option.getD_some]

end Line

/-! ## The ranges -/

/-- The text between the ranges, from `cur` to the last of them. -/
def gaps (b : Bytes) : Nat → List (Nat × Nat) → Bytes
  | _, [] => []
  | cur, r :: rs => slice b cur r.1 ++ gaps b r.2 rs

def reached (cur : Nat) (rs : List (Nat × Nat)) : Nat := (rs.getLast?.map Prod.snd).getD cur

theorem reached_cons (cur : Nat) (r : Nat × Nat) (rs : List (Nat × Nat)) :
    reached cur (r :: rs) = reached r.2 rs := by
  unfold reached
  rw [List.getLast?_cons]
  cases rs.getLast? <;> rfl

theorem reached_concat (cur : Nat) (rs : List (Nat × Nat)) (r : Nat × Nat) :
    reached cur (rs ++ [r]) = r.2 := by
  rw [reached, List.getLast?_concat]
  rfl

theorem gaps_concat (b : Bytes) (cur : Nat) (rs : List (Nat × Nat)) (r : Nat × Nat) :
    gaps b cur (rs ++ [r]) = gaps b cur rs ++ slice b (reached cur rs) r.1 := by
  induction rs generalizing cur with
  | nil => simp [gaps, reached]
  | cons r' rs ih => rw [List.cons_append, gaps, ih, gaps, reached_cons, List.append_assoc]

theorem applyFrom_ranges (b : Bytes) (cur : Nat) (h : ∀ r ∈ rs, r.1 ≤ r.2) :
    EditList.applyFrom b cur (rs.map fun r => Edit.delete r.1 (r.2 - r.1)) =
      gaps b cur rs ++ b.drop (reached cur rs) := by
  induction rs generalizing cur with
  | nil => rfl
  | cons r rs ih =>
    have hr := h r List.mem_cons_self
    have hend : (Edit.delete r.1 (r.2 - r.1)).endPos = r.2 := by
      show r.1 + (r.2 - r.1) = r.2
      omega
    rw [List.map_cons, EditList.applyFrom, hend, ih _ fun x hx => h x (List.mem_cons_of_mem r hx), gaps,
      reached_cons]
    simp [Edit.delete]

/-- Ranges that can be cut in one list. -/
structure Apart (b : Bytes) (rs : List (Nat × Nat)) : Prop where
  order : rs.Pairwise fun r r' => r.2 ≤ r'.1
  proper : ∀ r ∈ rs, r.1 < r.2 ∧ r.2 ≤ b.length

/-- Ranges that lie apart, deleted in one list, leave the gaps between them. -/
theorem Apart.commit {b : Bytes} (h : Apart b rs) (registers : RegisterStore) (count : Nat) :
    (⟨rs.map fun r => Edit.delete r.1 (r.2 - r.1), registers, count⟩ : Deleted).commit b =
      some (gaps b 0 rs ++ b.drop (reached 0 rs), registers) := by
  have hsorted : (rs.map fun r => Edit.delete r.1 (r.2 - r.1)).Pairwise Edit.Before := by
    rw [List.pairwise_map]
    refine h.order.imp_of_mem fun {r r'} hr _ hle => ?_
    have := (h.proper r hr).1
    exact ⟨show r.1 < r'.1 by omega, show r.1 + (r.2 - r.1) ≤ r'.1 by omega⟩
  have hchanges : ∀ e ∈ rs.map fun r => Edit.delete r.1 (r.2 - r.1), e.Changes := by
    intro e he
    obtain ⟨r, hr, rfl⟩ := List.mem_map.mp he
    have := (h.proper r hr).1
    exact .inl (show r.2 - r.1 ≠ 0 by omega)
  let l : EditList := ⟨_, hsorted, hchanges⟩
  have hin : l.InBounds b.length := by
    intro e he
    obtain ⟨r, hr, rfl⟩ := List.mem_map.mp he
    have := h.proper r hr
    show r.1 + (r.2 - r.1) ≤ b.length
    omega
  unfold Deleted.commit
  rw [show EditList.new (rs.map fun r => Edit.delete r.1 (r.2 - r.1)) = .ok l from EditList.new_edits l]
  dsimp only
  rw [if_pos hin]
  exact congrArg some (Prod.ext (applyFrom_ranges b 0 fun r hr => Nat.le_of_lt (h.proper r hr).1) rfl)

/-- The ranges after the marks passed: no two touch, they cut the marked lines, and what is
between them are the lines kept. -/
structure Batch (b : Bytes) (ls : List Bytes) (rs : List (Nat × Nat)) (s : List Bytes × Nat) :
    Prop where
  spread : rs.Pairwise fun r r' => r.2 < r'.1
  proper : ∀ r ∈ rs, r.1 < r.2 ∧ r.2 ≤ b.length
  stop : reached 0 rs = nthLineStart b s.2
  gaps : gaps b 0 rs = terminated s.1
  first : rs = [] → s.2 = 0

section Batch

variable {b : Bytes} {ls : List Bytes} {nl : Bool}

/-- A line and its break end where the next one starts. -/
theorem lineStop (h : Rows b ls nl) {i : Nat} {l : Bytes} (hi : ls[i]? = some l) :
    (if startAt ls i + l.length < b.length then startAt ls i + l.length + 1
      else startAt ls i + l.length) = nthLineStart b (i + 1) := by
  have hlt := (List.getElem?_eq_some_iff.mp hi).1
  have hsucc := startAt_succ hi
  obtain ⟨hle, -⟩ := h.line_le hi
  split
  · rename_i hin
    have hnl : nl = true ∨ i + 1 < ls.length := by
      by_contra hno
      rw [not_or] at hno
      have hlen := h.length
      rw [if_neg hno.1, show ls.length = i + 1 by omega] at hlen
      omega
    rw [(h.nthLineStart_of hlt hnl).1, hsucc]
  · obtain ⟨-, hend⟩ := h.last_line hi (by omega)
    rw [hend, h.nthLineStart_length]
    omega

/-- Each marked line deletes its range from the text the earlier ones left. -/
theorem Batch.step (h : Rows b ls nl) (hb : b ≠ []) (hbatch : Batch b ls rs s) (hs : s.2 ≤ li)
    (hli : li < ls.length) :
    Batch b ls (mergeRange b (lineSpans b) rs li) (passMark ls s li) := by
  obtain ⟨l, hl⟩ : ∃ l, ls[li]? = some l := ⟨_, List.getElem?_eq_getElem hli⟩
  have hspan : (lineSpans b).getD li (0, 0) = (startAt ls li, startAt ls li + l.length) := by
    rw [h.lineSpans hb, List.getD_eq_getElem?_getD, spansAt_getElem? 0 hl, Option.getD_some, Nat.zero_add]
  have hstop := lineStop h hl
  have hpos : startAt ls li < nthLineStart b (li + 1) ∧ nthLineStart b (li + 1) ≤ b.length := by
    obtain ⟨hle, -⟩ := h.line_le hl
    rw [← hstop]
    split
    · omega
    · obtain ⟨rfl, -⟩ := h.last_line hl (by omega)
      have := h.startAt_lt_length hb hli
      omega
  have hfrom := h.nthLineStart (show s.2 < ls.length by omega)
  have hslice : ∀ i, i ≤ li →
      slice b (startAt ls i) (startAt ls li) = terminated ((ls.take li).drop i) := fun i hi =>
    h.slice hi (h.startAt_le hli)
  unfold mergeRange
  rw [hspan]
  dsimp only
  rw [hstop]
  cases hlast : rs.getLast? with
  | none =>
    obtain rfl := List.getLast?_eq_none_iff.mp hlast
    have hzero := hbatch.first rfl
    have hnil : s.1 = [] := terminated_eq_nil.mp hbatch.gaps.symm
    refine ⟨List.pairwise_singleton _ _, by simpa using hpos, reached_concat 0 [] _, ?_, by simp⟩
    show Core.gaps b 0 [(startAt ls li, nthLineStart b (li + 1))] = terminated (s.1 ++ (ls.take li).drop s.2)
    rw [hnil, hzero, List.nil_append, ← hslice 0 (Nat.zero_le _), startAt_zero]
    exact List.append_nil _
  | some r =>
    obtain ⟨front, rfl⟩ := List.getLast?_eq_some_iff.mp hlast
    have hreached := hbatch.stop
    rw [reached_concat, hfrom] at hreached
    obtain ⟨hfront, -, hbefore⟩ := List.pairwise_append.mp hbatch.spread
    have hr := hbatch.proper r (by simp)
    have hproper : ∀ x ∈ front, x.1 < x.2 ∧ x.2 ≤ b.length := fun x hx =>
      hbatch.proper x (List.mem_append_left _ hx)
    dsimp only
    by_cases htouch : r.2 = startAt ls li
    · -- the line just after the range: it grows
      have hsame : s.2 = li := by
        by_contra hne
        have := startAt_lt ls (show s.2 < li by omega) (Nat.le_of_lt hli)
        omega
      rw [if_pos htouch, List.dropLast_concat]
      refine ⟨List.pairwise_append.mpr ⟨hfront, List.pairwise_singleton _ _, fun x hx y hy => ?_⟩,
        fun x hx => ?_, reached_concat _ _ _, ?_, by simp⟩
      · rw [List.mem_singleton.mp hy]
        exact hbefore x hx r (List.mem_singleton_self r)
      · rcases List.mem_append.mp hx with hx | hx
        · exact hproper x hx
        · rw [List.mem_singleton.mp hx]
          exact ⟨show r.1 < nthLineStart b (li + 1) by omega, hpos.2⟩
      · have hgaps := hbatch.gaps
        rw [gaps_concat] at hgaps ⊢
        rw [passMark, hsame, List.drop_eq_nil_of_le (by rw [List.length_take]; omega), List.append_nil]
        exact hgaps
    · have hlt : s.2 < li := by
        rcases Nat.eq_or_lt_of_le hs with heq | hlt
        · exact absurd (heq ▸ hreached) htouch
        · exact hlt
      have hstart := startAt_lt ls hlt (Nat.le_of_lt hli)
      rw [if_neg htouch]
      refine ⟨List.pairwise_append.mpr ⟨hbatch.spread, List.pairwise_singleton _ _, fun x hx y hy => ?_⟩,
        fun x hx => ?_, reached_concat _ _ _, ?_, by simp⟩
      · rw [List.mem_singleton.mp hy]
        rcases List.mem_append.mp hx with hx | hx
        · have := hbefore x hx r (List.mem_singleton_self r)
          omega
        · rw [List.mem_singleton.mp hx]
          omega
      · rcases List.mem_append.mp hx with hx | hx
        · exact hbatch.proper x hx
        · rw [List.mem_singleton.mp hx]
          exact hpos
      · rw [gaps_concat, hbatch.gaps, reached_concat, hreached, hslice s.2 hs, passMark, terminated_append]

theorem Batch.run (h : Rows b ls nl) (hb : b ≠ []) (hbatch : Batch b ls rs s)
    (hmarks : Ahead ls s marks) :
    Batch b ls (marks.foldl (mergeRange b (lineSpans b)) rs) (marks.foldl (passMark ls) s) := by
  induction marks generalizing rs s with
  | nil => exact hbatch
  | cons li rest ih =>
    obtain ⟨hs, hli⟩ := hmarks.inside li List.mem_cons_self
    exact ih (hbatch.step h hb hs hli) hmarks.tail

/-- What the ranges leave when the last one has taken the newline it needs. -/
theorem Batch.commit (h : Rows b ls nl) (hnl : endsNl b = nl) (hb : b ≠ [])
    (hbatch : Batch b ls rs s) (hs : s.2 ≤ ls.length) (registers : RegisterStore) (count : Nat) :
    (⟨(trimLast b rs).map fun r => Edit.delete r.1 (r.2 - r.1), registers, count⟩ : Deleted).commit b =
      some (linesText nl (unmarked ls s), registers) := by
  have hunmarked : nl = true ∨ s.2 < ls.length →
      terminated s.1 ++ b.drop (nthLineStart b s.2) = linesText nl (unmarked ls s) := by
    intro hin
    obtain ⟨hstart, hle⟩ := h.nthLineStart_of hs hin
    have htext : terminated s.1 ++ b.drop (nthLineStart b s.2) ++ lastBreak nl =
        terminated (unmarked ls s) := by
      rw [hstart, List.append_assoc, h.drop hle, unmarked, terminated_append]
    cases hnl' : nl with
    | true =>
      rw [hnl', lastBreak, if_pos rfl, List.append_nil] at htext
      exact htext
    | false =>
      rw [hnl'] at htext
      refine eq_linesText (fun hnil => ?_) htext
      have := List.drop_eq_nil_iff.mp (List.append_eq_nil_iff.mp hnil).2
      rw [hnl'] at hin
      have := hin.resolve_left (by simp)
      omega
  have hwhole : Apart b rs := ⟨hbatch.spread.imp Nat.le_of_lt, hbatch.proper⟩
  unfold trimLast
  rw [hnl]
  cases hlast : rs.getLast? with
  | none =>
    have hzero := hbatch.first (List.getLast?_eq_none_iff.mp hlast)
    have hpos := List.length_pos_iff.mpr (h.ne_nil hb)
    rw [hwhole.commit, hbatch.gaps, hbatch.stop, hunmarked (.inr (by omega))]
  | some r =>
    obtain ⟨front, rfl⟩ := List.getLast?_eq_some_iff.mp hlast
    obtain ⟨hfront, -, hbefore⟩ := List.pairwise_append.mp hbatch.spread
    have hr := hbatch.proper r (by simp)
    have hstop := hbatch.stop
    rw [reached_concat] at hstop
    have hgaps := hbatch.gaps
    rw [gaps_concat] at hgaps
    dsimp only
    by_cases htrim : r.2 = b.length ∧ 0 < r.1 ∧ nl = false
    · rw [if_pos htrim, List.dropLast_concat]
      obtain ⟨hend, hpos, rfl⟩ := htrim
      have hreached : reached 0 front < r.1 := by
        unfold reached
        cases hf : front.getLast? with
        | none => exact hpos
        | some x => exact hbefore x (List.mem_of_getLast? hf) r (List.mem_singleton_self r)
      have hapart : Apart b (front ++ [(r.1 - 1, r.2)]) := by
        refine ⟨List.pairwise_append.mpr ⟨hfront.imp Nat.le_of_lt, List.pairwise_singleton _ _,
          fun x hx y hy => ?_⟩, fun x hx => ?_⟩
        · rw [List.mem_singleton.mp hy]
          have := hbefore x hx r (List.mem_singleton_self r)
          omega
        · rcases List.mem_append.mp hx with hx | hx
          · exact hbatch.proper x (List.mem_append_left _ hx)
          · rw [List.mem_singleton.mp hx]
            exact ⟨show r.1 - 1 < r.2 by omega, hr.2⟩
      -- the last line is cut, with the newline before it
      have hall : s.2 = ls.length := by
        by_contra hne
        have hlt : s.2 < ls.length := by omega
        have := h.startAt_lt_length hb hlt
        rw [h.nthLineStart hlt] at hstop
        omega
      have hslice : slice b (reached 0 front) r.1 ≠ [] := by
        rw [← List.length_pos_iff, slice_length (Nat.le_of_lt hreached) (by omega)]
        omega
      have hkept : s.1 ≠ [] := by
        rintro hnil
        rw [hnil] at hgaps
        exact hslice (List.append_eq_nil_iff.mp hgaps).2
      rw [hapart.commit, reached_concat, hend, List.drop_length, List.append_nil, gaps_concat,
        slice_dropLast hreached (by omega), ← List.dropLast_append_of_ne_nil hslice, hgaps, unmarked, hall,
        List.drop_length, List.append_nil]
      refine congrArg some (Prod.ext ?_ rfl)
      show (terminated s.1).dropLast = linesText false s.1
      exact eq_linesText hkept (terminated_dropLast hkept)
    · rw [if_neg htrim, hwhole.commit, hbatch.gaps, hbatch.stop]
      by_cases hin : nl = true ∨ s.2 < ls.length
      · rw [hunmarked hin]
      · -- every line is cut
        rw [not_or] at hin
        obtain rfl : nl = false := by simpa using hin.1
        have hall : s.2 = ls.length := by omega
        rw [hall, h.nthLineStart_length] at hstop
        have hzero : r.1 = 0 := by
          by_contra hne
          exact htrim ⟨hstop, Nat.pos_of_ne_zero hne, rfl⟩
        have hfirst : front = [] := by
          rw [List.eq_nil_iff_forall_not_mem]
          intro x hx
          have := hbefore x hx r (List.mem_singleton_self r)
          omega
        rw [hfirst, hzero] at hgaps
        have hnone : s.1 = [] := terminated_eq_nil.mp hgaps.symm
        rw [unmarked, hnone, hall, h.nthLineStart_length, List.drop_length, List.drop_length]
        rfl

end Batch

theorem foldl_passMark_le {ls : List Bytes} (hs : s.2 ≤ ls.length)
    (hmarks : ∀ li ∈ marks, li < ls.length) :
    (marks.foldl (passMark ls) s).2 ≤ ls.length := by
  induction marks generalizing s with
  | nil => exact hs
  | cons li rest ih =>
    exact ih (hmarks li List.mem_cons_self) fun x hx => hmarks x (List.mem_cons_of_mem li hx)

/-- `:g/pat/d` is `:d` on each marked line in turn: the same text and the same registers. -/
theorem globalDelete_eq_deleteEach {b : Bytes} (hb : b ≠ []) {marked : List Nat}
    (hascending : marked.Pairwise (· < ·)) (hlines : ∀ li ∈ marked, li < (rows b).length)
    (registers : RegisterStore) (cursorLine : Nat) :
    ∃ out, globalDeleteRun registers b marked = some out ∧
      deleteEach cursorLine marked 0 (b, registers) = some out := by
  have h := rows_spec b
  have hmarks : Ahead (rows b) ([], 0) marked := ⟨hascending, fun li hli => ⟨Nat.zero_le li, hlines li hli⟩⟩
  have heach := deleteEach_eq (s := ([], 0)) h hb cursorLine registers (Nat.le_refl 0) (by simp) hmarks
  rw [show unmarked (rows b) ([], 0) = rows b from rfl, ← h.eq_linesText hb] at heach
  refine ⟨_, ?_, heach⟩
  -- a line goes through the registers as it stands in the text
  have hregisters : marked.foldl (fun registers li =>
      registers.delete none (.linewise (slice b ((lineSpans b).getD li (0, 0)).1
        ((lineSpans b).getD li (0, 0)).2))) registers =
      marked.foldl (fun registers li => registers.delete none (.linewise ((rows b).getD li [])))
        registers := by
    refine List.foldl_ext _ _ _ fun registers li hli => ?_
    have hl := List.getElem?_eq_getElem (hlines li hli)
    rw [h.lineSpans hb, List.getD_eq_getElem?_getD, spansAt_getElem? 0 hl, Option.getD_some, Nat.zero_add,
      h.slice_line hl, List.getD_eq_getElem?_getD, hl, Option.getD_some]
  unfold globalDeleteRun globalDelete
  by_cases hnone : marked = []
  · subst hnone
    rw [if_pos rfl]
    exact congrArg some (Prod.ext (h.eq_linesText hb) rfl)
  · rw [if_neg hnone]
    have hstart : Batch b (rows b) [] ([], 0) := by
      have hzero : nthLineStart b 0 = 0 := by
        rw [h.nthLineStart (List.length_pos_iff.mpr (h.ne_nil hb)), startAt_zero]
      exact ⟨.nil, by simp, hzero.symm, rfl, fun _ => rfl⟩
    dsimp only
    rw [(hstart.run h hb hmarks).commit h rfl hb (foldl_passMark_le (Nat.zero_le _) hlines), hregisters]

/-- The last two lines of `a⏎⏎b`. -/
theorem globalDelete_eq_deleteEach_tail :
    ∃ out, globalDeleteRun RegisterStore.new [0x61, 0x0A, 0x0A, 0x62] [1, 2] = some out ∧
      deleteEach 0 [1, 2] 0 ([0x61, 0x0A, 0x0A, 0x62], RegisterStore.new) = some out :=
  globalDelete_eq_deleteEach (by decide) (by decide) (by decide) RegisterStore.new 0

end Ruse.Core
