import Ruse.Core.LineAddr

/-!
# Moving and copying lines

The model of `relocate_lines` of `editor/mod.rs`, the engine of `:m` and `:t`, and of
`relocated_by_lines`, the same by the line model.

* `relocateEdits` — the edits: the block deleted at its place and inserted at the
  destination. Where the last line has no newline the block takes one from a neighbour;
* `relocateLines` — the command, and the line it leaves the cursor on;
* `copied`, `moved` — what it is for: the lines with the block copied or moved.

The text the edits make is the text of these lines (`relocateEdits_applyTo`).
-/

namespace Ruse.Core

/-! ## The commands -/

/-- `relocated_by_lines`: the lines `first..=last` moved or copied to before line `ins`. -/
def relocatedByLines (old : Bytes) (first last ins : Nat) (copy : Bool) : Bytes :=
  let lines := rows old
  let block := (lines.take (last + 1)).drop first
  let lines := if copy then lines else lines.take first ++ lines.drop (last + 1)
  let adj := min (if copy ∨ ins ≤ first then ins else ins - block.length) lines.length
  let new := joinLines (lines.take adj ++ block ++ lines.drop adj)
  if endsNl old ∧ new ≠ [] then new ++ [newline] else new

/-- The edits that move or copy the lines `first..=last` to before line `ins`. -/
def relocateEdits (old : Bytes) (first last ins : Nat) (copy : Bool) : List Edit :=
  let s := (lineSpan old first).1
  let e := nthLineStart old (last + 1)
  let p := nthLineStart old ins
  let block := slice old s e
  if copy then
    let block :=
      if endsNl old then block
      else if p = old.length then newline :: if e < old.length then block.dropLast else block
      else if e = old.length then block ++ [newline]
      else block
    [Edit.linesChangedByInsert old p block]
  else if endsNl old ∨ (e < old.length ∧ p < old.length) then
    if p < s then [Edit.insert p block, Edit.delete s (e - s)]
    else [Edit.delete s (e - s), Edit.insert p block]
  -- after the last line, which has no newline
  else if e < old.length then [Edit.delete s (e - s), Edit.insert p (newline :: block.dropLast)]
  -- the last line itself moves up: it is cut with the newline before it
  else if p + 1 < s then [Edit.insert p (block ++ [newline]), Edit.delete (s - 1) (e - s + 1)]
  else [Edit.linesChanged old (relocatedByLines old first last ins copy)]

/-- What `:m` or `:t` comes to. -/
inductive Relocation where
  | declined
  /-- No edit; the line the cursor goes to. -/
  | stays (line : Option Nat)
  /-- The edits, the line the cursor goes to, and how many lines were taken. -/
  | edits (edits : List Edit) (line count : Nat)

/-- `relocate_lines`. -/
def relocateLines (old : Bytes) (cursorLine : Nat) (range : SubRange) (dest : LineAddr)
    (copy : Bool) : Relocation :=
  if old = [] then .stays none
  else
    let nlines := lineCount old
    let (first, last) := range.resolve nlines cursorLine
    match dest.insertIndex cursorLine nlines with
    | none => .declined
    | some ins =>
      if copy = false ∧ first < ins ∧ ins ≤ last then .declined
      else if copy = false ∧ (ins = first ∨ ins = last + 1) then .stays (some last)
      else
        let count := last - first + 1
        let adj := if copy ∨ ins ≤ first then ins else ins - count
        .edits (relocateEdits old first last ins copy) (adj + count - 1) count

/-! ## What they are for -/

/-- The lines with the block `first..=last` copied to before line `ins`. -/
def copied (ls : List Bytes) (first last ins : Nat) : List Bytes :=
  ls.take ins ++ (ls.take (last + 1)).drop first ++ ls.drop ins

/-- The lines with the block `first..=last` moved to before line `ins`: the lines between
trade places with it. -/
def moved (ls : List Bytes) (first last ins : Nat) : List Bytes :=
  if ins ≤ first then
    ls.take ins ++ (ls.take (last + 1)).drop first ++ (ls.take first).drop ins ++ ls.drop (last + 1)
  else
    ls.take first ++ (ls.take ins).drop (last + 1) ++ (ls.take (last + 1)).drop first ++ ls.drop ins

/-- The lines after `:t` or `:m`. -/
def relocated (ls : List Bytes) (first last ins : Nat) (copy : Bool) : List Bytes :=
  if copy then copied ls first last ins else moved ls first last ins

/-! ## The text the edits make -/

section Edits

variable {b : Bytes} {ls : List Bytes} {nl : Bool} {first last ins : Nat}

/-- The block is the text of its lines, without the last newline when that is missing. -/
theorem Rows.block (h : Rows b ls nl) (hfl : first ≤ last) (hl : last < ls.length) :
    Core.slice b (startAt ls first) (Core.nthLineStart b (last + 1)) ++
        (if last + 1 = ls.length then lastBreak nl else []) =
      terminated ((ls.take (last + 1)).drop first) := by
  split
  · rename_i hend
    have hdrop := h.drop (h.startAt_le (show first < ls.length by omega))
    have hwhole : Core.slice b (startAt ls first) b.length = b.drop (startAt ls first) := by
      rw [Core.slice, List.take_of_length_le (by rw [List.length_drop])]
    rw [hend, h.nthLineStart_length, hwhole, hdrop, List.take_length]
  · obtain ⟨heq, hle⟩ := h.nthLineStart_of (show last + 1 ≤ ls.length from hl) (.inr (by omega))
    rw [heq, h.slice (by omega) hle, List.append_nil]

theorem block_ne_nil (hfl : first ≤ last) (hl : last < ls.length) :
    (ls.take (last + 1)).drop first ≠ [] := by
  rw [← List.length_pos_iff, List.length_drop, List.length_take]
  omega

/-- A copy puts the lines once more before the destination. -/
theorem relocateEdits_copy (h : Rows b ls nl) (hnl : endsNl b = nl) (hb : b ≠ []) (hfl : first ≤ last)
    (hl : last < ls.length) (hins : ins ≤ ls.length) :
    ∃ l, EditList.new (relocateEdits b first last ins true) = .ok l ∧ l.InBounds b.length ∧
      l.applyTo b ++ lastBreak nl = terminated (copied ls first last ins) := by
  have hs : (Core.lineSpan b first).1 = startAt ls first := h.nthLineStart (by omega)
  have hblock := h.block hfl hl
  have hne := block_ne_nil hfl hl
  -- the block as it is inserted makes the text of the lines
  have key : ∀ {at' : Nat} {text : Bytes}, at' ≤ b.length →
      Edit.inserted b at' text ++ lastBreak nl = terminated (copied ls first last ins) →
      ∃ l, EditList.new [Edit.linesChangedByInsert b at' text] = .ok l ∧ l.InBounds b.length ∧
        l.applyTo b ++ lastBreak nl = terminated (copied ls first last ins) := by
    intro at' text hat htext
    obtain ⟨l, hl⟩ := EditList.new_single (Edit.linesChangedByInsert b at' text)
    have hchanged := hl
    rw [Edit.linesChangedByInsert_eq text hat] at hchanged
    obtain ⟨hin, happly⟩ := linesChanged_applyTo hchanged
    exact ⟨l, hl, hin, by rw [happly, htext]⟩
  unfold relocateEdits
  rw [hs, if_pos rfl, hnl]
  by_cases hin : nl = true ∨ ins < ls.length
  · obtain ⟨hp, hple⟩ := h.nthLineStart_of hins hin
    rw [hp]
    refine key hple ?_
    have hsplit : ∀ text, text = terminated ((ls.take (last + 1)).drop first) →
        Edit.inserted b (startAt ls ins) text ++ lastBreak nl = terminated (copied ls first last ins) := by
      rintro text rfl
      rw [Edit.inserted, h.take hple, List.append_assoc, h.drop hple, copied, terminated_append,
        terminated_append]
    apply hsplit
    cases nl with
    | true =>
      rw [lastBreak, if_pos rfl, ite_self, List.append_nil] at hblock
      rw [if_pos rfl, hblock]
    | false =>
      have hlt := h.startAt_lt_length hb (hin.resolve_left (by simp))
      rw [if_neg (by simp), if_neg (by omega)]
      by_cases hend : last + 1 = ls.length
      · rw [if_pos hend] at hblock
        rw [if_pos (by rw [hend, h.nthLineStart_length])]
        exact hblock
      · obtain ⟨he, -⟩ := h.nthLineStart_of (show last + 1 ≤ ls.length from hl) (.inr (by omega))
        have helt := h.startAt_lt_length hb (show last + 1 < ls.length by omega)
        rw [if_neg hend, List.append_nil] at hblock
        rw [if_neg (by omega), hblock]
  · -- after the last line, which has no newline
    rw [not_or] at hin
    obtain rfl : ins = ls.length := by omega
    obtain rfl : nl = false := by simpa using hin.1
    rw [h.nthLineStart_length, if_neg (by simp), if_pos rfl]
    refine key (Nat.le_refl _) ?_
    have hbody : (if Core.nthLineStart b (last + 1) < b.length then
        (Core.slice b (startAt ls first) (Core.nthLineStart b (last + 1))).dropLast
        else Core.slice b (startAt ls first) (Core.nthLineStart b (last + 1))) ++ [newline] =
        terminated ((ls.take (last + 1)).drop first) := by
      by_cases hend : last + 1 = ls.length
      · rw [if_pos hend] at hblock
        rw [if_neg (by rw [hend, h.nthLineStart_length]; omega)]
        exact hblock
      · obtain ⟨he, -⟩ := h.nthLineStart_of (show last + 1 ≤ ls.length from hl) (.inr (by omega))
        have helt := h.startAt_lt_length hb (show last + 1 < ls.length by omega)
        rw [if_neg hend, List.append_nil] at hblock
        rw [if_pos (by omega), hblock, terminated_dropLast hne]
    have htext : b ++ [newline] = terminated ls := h.text
    rw [Edit.inserted, List.take_length, List.drop_length, List.append_nil, copied, List.take_length,
      List.drop_length, List.append_nil, terminated_append, ← hbody, ← htext]
    simp only [lastBreak, Bool.false_eq_true, if_false, List.append_assoc, List.cons_append,
      List.nil_append]

theorem new_insert_delete {p s e : Nat} (hps : p < s) (hse : s < e) (he : e ≤ b.length) (text : Bytes)
    (htext : text ≠ []) :
    ∃ l, EditList.new [Edit.insert p text, Edit.delete s (e - s)] = .ok l ∧ l.InBounds b.length ∧
      l.applyTo b = b.take p ++ text ++ Core.slice b p s ++ b.drop e := by
  have hend : s + (e - s) = e := by omega
  obtain ⟨l, hl, hin, happly⟩ := EditList.new_pair
    (show (Edit.insert p text).Before (Edit.delete s (e - s)) from ⟨hps, by
      show p + 0 ≤ s
      omega⟩) (.inr htext) (.inl (by show e - s ≠ 0; omega))
    (show (Edit.delete s (e - s)).endPos ≤ b.length by show s + (e - s) ≤ b.length; omega)
  refine ⟨l, hl, hin, ?_⟩
  simp only [happly, Edit.endPos, Edit.insert, Edit.delete, hend, Nat.add_zero, List.append_nil]

theorem new_delete_insert {s e p : Nat} (hse : s < e) (hep : e ≤ p) (hp : p ≤ b.length) (text : Bytes)
    (htext : text ≠ []) :
    ∃ l, EditList.new [Edit.delete s (e - s), Edit.insert p text] = .ok l ∧ l.InBounds b.length ∧
      l.applyTo b = b.take s ++ Core.slice b e p ++ text ++ b.drop p := by
  have hend : s + (e - s) = e := by omega
  obtain ⟨l, hl, hin, happly⟩ := EditList.new_pair
    (show (Edit.delete s (e - s)).Before (Edit.insert p text) from ⟨by
      show s < p
      omega, by
      show s + (e - s) ≤ p
      omega⟩) (.inl (by show e - s ≠ 0; omega)) (.inr htext)
    (show (Edit.insert p text).endPos ≤ b.length from hp)
  refine ⟨l, hl, hin, ?_⟩
  simp only [happly, Edit.endPos, Edit.insert, Edit.delete, hend, Nat.add_zero, List.append_nil]

/-- A move down takes the lines out and puts them before the destination. -/
theorem relocateEdits_down (h : Rows b ls nl) (hnl : endsNl b = nl) (hb : b ≠ []) (hfl : first ≤ last)
    (hdown : last + 1 < ins) (hins : ins ≤ ls.length) :
    ∃ l, EditList.new (relocateEdits b first last ins false) = .ok l ∧ l.InBounds b.length ∧
      l.applyTo b ++ lastBreak nl = terminated (moved ls first last ins) := by
  have hl : last + 1 < ls.length := by omega
  have hs : (Core.lineSpan b first).1 = startAt ls first := h.nthLineStart (by omega)
  obtain ⟨he, hele⟩ := h.nthLineStart_of (Nat.le_of_lt hl) (.inr hl)
  have hse := startAt_lt ls (show first < last + 1 by omega) (Nat.le_of_lt hl)
  have hblock := h.block hfl (by omega)
  rw [if_neg (by omega), List.append_nil, he] at hblock
  have hne := block_ne_nil hfl (show last < ls.length by omega)
  have htake := h.take (h.startAt_le (show first < ls.length by omega))
  have hmoved : moved ls first last ins = ls.take first ++ (ls.take ins).drop (last + 1) ++
      (ls.take (last + 1)).drop first ++ ls.drop ins := if_neg (by omega)
  unfold relocateEdits
  rw [hs, he, hnl, if_neg (by simp), hblock, hmoved]
  by_cases hin : nl = true ∨ ins < ls.length
  · obtain ⟨hp, hple⟩ := h.nthLineStart_of hins hin
    have hep := startAt_lt ls hdown hins
    have hcond : nl = true ∨ startAt ls (last + 1) < b.length ∧ startAt ls ins < b.length := by
      cases nl with
      | true => exact .inl rfl
      | false =>
        have := h.startAt_lt_length hb (hin.resolve_left (by simp))
        exact .inr ⟨by omega, this⟩
    rw [hp, if_pos hcond, if_neg (by omega)]
    obtain ⟨l, hl, hbounds, happly⟩ := new_delete_insert hse (Nat.le_of_lt hep) hple
      (terminated ((ls.take (last + 1)).drop first)) (mt terminated_eq_nil.mp hne)
    refine ⟨l, hl, hbounds, ?_⟩
    rw [happly, htake, h.slice (Nat.le_of_lt hdown) hple, List.append_assoc, h.drop hple]
    simp only [terminated_append]
  · -- after the last line, which has no newline
    rw [not_or] at hin
    obtain rfl : ins = ls.length := by omega
    obtain rfl : nl = false := by simpa using hin.1
    have helt := h.startAt_lt_length hb hl
    rw [h.nthLineStart_length, if_neg (by simp), if_pos helt]
    obtain ⟨l, hl, hbounds, happly⟩ := new_delete_insert hse (Nat.le_of_lt helt) (Nat.le_refl _)
      (newline :: (terminated ((ls.take (last + 1)).drop first)).dropLast) (List.cons_ne_nil _ _)
    refine ⟨l, hl, hbounds, ?_⟩
    have hwhole : Core.slice b (startAt ls (last + 1)) b.length = b.drop (startAt ls (last + 1)) := by
      rw [Core.slice, List.take_of_length_le (by rw [List.length_drop])]
    have hrest : b.drop (startAt ls (last + 1)) ++ [newline] = terminated (ls.drop (last + 1)) :=
      h.drop hele
    rw [happly, htake, hwhole, List.drop_length, List.append_nil, List.take_length, List.drop_length,
      List.append_nil, terminated_append, terminated_append, ← hrest, ← terminated_dropLast hne]
    simp only [lastBreak, Bool.false_eq_true, if_false, List.append_assoc, List.cons_append,
      List.nil_append, terminated_dropLast hne]

/-- A copy adds its lines, a move none. -/
theorem relocated_length (hfl : first ≤ last) (hl : last < ls.length) (hins : ins ≤ ls.length)
    (copy : Bool) (hout : copy = true ∨ ins ≤ first ∨ last < ins) :
    (relocated ls first last ins copy).length =
      ls.length + if copy then last - first + 1 else 0 := by
  unfold relocated
  split
  · unfold copied
    simp only [List.length_append, List.length_take, List.length_drop]
    omega
  · rename_i hcopy
    unfold moved
    split
    · simp only [List.length_append, List.length_take, List.length_drop]
      omega
    · simp only [List.length_append, List.length_take, List.length_drop]
      rcases hout with hcopy' | hle | hlt
      · exact absurd hcopy' hcopy
      · omega
      · omega

/-- The lines spliced in where the block goes, with the block gone from its place. -/
theorem splice_eq_relocated (hfl : first ≤ last) (hl : last < ls.length) (hins : ins ≤ ls.length)
    {copy : Bool} (hout : copy = true ∨ ins ≤ first ∨ last < ins) :
    (if copy then ls else ls.take first ++ ls.drop (last + 1)).take
        (min (if copy ∨ ins ≤ first then ins else ins - ((ls.take (last + 1)).drop first).length)
          (if copy then ls else ls.take first ++ ls.drop (last + 1)).length) ++
      (ls.take (last + 1)).drop first ++
      (if copy then ls else ls.take first ++ ls.drop (last + 1)).drop
        (min (if copy ∨ ins ≤ first then ins else ins - ((ls.take (last + 1)).drop first).length)
          (if copy then ls else ls.take first ++ ls.drop (last + 1)).length) =
      relocated ls first last ins copy := by
  have hblock : ((ls.take (last + 1)).drop first).length = last + 1 - first := by
    rw [List.length_drop, List.length_take]
    omega
  have hfirst : (ls.take first).length = first := List.length_take_of_le (by omega)
  rw [hblock]
  cases copy with
  | true =>
    simp only [if_true, true_or, Nat.min_eq_left hins]
    rfl
  | false =>
    simp only [Bool.false_eq_true, if_false, false_or, relocated, moved] at hout ⊢
    by_cases hup : ins ≤ first
    · rw [if_pos hup, if_pos hup, Nat.min_eq_left (by rw [List.length_append]; omega),
        List.take_append_of_le_length (by omega), List.drop_append_of_le_length (by omega),
        List.take_take, Nat.min_eq_left hup]
      simp only [List.append_assoc]
    · have hdown := hout.resolve_left hup
      rw [if_neg hup, if_neg hup, Nat.min_eq_left (by rw [List.length_append, List.length_drop]; omega),
        show ins - (last + 1 - first) = (ls.take first).length + (ins - (last + 1)) by omega,
        List.take_length_add_append, List.drop_length_add_append, List.drop_drop, ← List.drop_take,
        show last + 1 + (ins - (last + 1)) = ins by omega]

/-- `relocated_by_lines` makes the lines `relocated`; a buffer that is one empty line it
would leave without a newline. -/
theorem relocatedByLines_eq (hrows : rows b = ls) (hnl : endsNl b = nl) (hfl : first ≤ last)
    (hl : last < ls.length) (hins : ins ≤ ls.length) (copy : Bool)
    (hout : copy = true ∨ ins ≤ first ∨ last < ins) (hne : relocated ls first last ins copy ≠ [[]]) :
    relocatedByLines b first last ins copy = linesText nl (relocated ls first last ins copy) := by
  have hlen := relocated_length hfl hl hins copy hout
  have hsome : relocated ls first last ins copy ≠ [] := by
    rw [← List.length_pos_iff, hlen]
    omega
  have hjoin : joinLines (relocated ls first last ins copy) ≠ [] := mt (joinLines_eq_nil hsome) hne
  unfold relocatedByLines
  rw [hrows, hnl]
  dsimp only
  rw [splice_eq_relocated hfl hl hins hout, linesText]
  cases nl with
  | true => rw [if_pos ⟨rfl, hjoin⟩, if_pos rfl, joinLines_append hsome]
  | false => rw [if_neg (by simp), if_neg (by simp)]

/-- A move up takes the lines out and puts them before the destination. -/
theorem relocateEdits_up (h : Rows b ls nl) (hrows : rows b = ls) (hnl : endsNl b = nl) (hb : b ≠ [])
    (hfl : first ≤ last) (hl : last < ls.length) (hup : ins < first) :
    ∃ l, EditList.new (relocateEdits b first last ins false) = .ok l ∧ l.InBounds b.length ∧
      l.applyTo b ++ lastBreak nl = terminated (moved ls first last ins) := by
  have hs : (Core.lineSpan b first).1 = startAt ls first := h.nthLineStart (by omega)
  have hp := h.nthLineStart (show ins < ls.length by omega)
  have hps := startAt_lt ls hup (by omega)
  have hsle := h.startAt_le (show first < ls.length by omega)
  have hblock := h.block hfl hl
  have hne := block_ne_nil hfl hl
  have htake := h.take (Nat.le_trans (Nat.le_of_lt hps) hsle)
  have hbetween := h.slice (Nat.le_of_lt hup) hsle
  have hmoved : moved ls first last ins = ls.take ins ++ (ls.take (last + 1)).drop first ++
      (ls.take first).drop ins ++ ls.drop (last + 1) := if_pos (Nat.le_of_lt hup)
  unfold relocateEdits
  rw [hs, hp, hnl, if_neg (by simp)]
  by_cases hin : nl = true ∨ last + 1 < ls.length
  · obtain ⟨he, hele⟩ := h.nthLineStart_of (show last + 1 ≤ ls.length from hl) hin
    have hse := startAt_lt ls (show first < last + 1 by omega) hl
    have hwhole : Core.slice b (startAt ls first) (startAt ls (last + 1)) =
        terminated ((ls.take (last + 1)).drop first) := h.slice (by omega) hele
    have hcond : nl = true ∨ startAt ls (last + 1) < b.length ∧ startAt ls ins < b.length := by
      cases nl with
      | true => exact .inl rfl
      | false =>
        have := h.startAt_lt_length hb (hin.resolve_left (by simp))
        exact .inr ⟨this, by omega⟩
    rw [he, if_pos hcond, if_pos hps, hwhole, hmoved]
    obtain ⟨l, hl, hbounds, happly⟩ := new_insert_delete hps hse hele
      (terminated ((ls.take (last + 1)).drop first)) (mt terminated_eq_nil.mp hne)
    refine ⟨l, hl, hbounds, ?_⟩
    rw [happly, htake, hbetween, List.append_assoc, h.drop hele]
    simp only [terminated_append]
  · -- the last line, which has no newline
    rw [not_or] at hin
    have hend : last + 1 = ls.length := by omega
    obtain rfl : nl = false := by simpa using hin.1
    rw [if_pos hend, hend, h.nthLineStart_length] at hblock
    rw [hend, h.nthLineStart_length, if_neg (by simp), if_neg (Nat.lt_irrefl _)]
    by_cases hroom : startAt ls ins + 1 < startAt ls first
    · rw [if_pos hroom, show b.length - startAt ls first + 1 = b.length - (startAt ls first - 1) by omega]
      obtain ⟨l, hl, hbounds, happly⟩ := new_insert_delete
        (show startAt ls ins < startAt ls first - 1 by omega)
        (show startAt ls first - 1 < b.length by omega) (Nat.le_refl _)
        (Core.slice b (startAt ls first) b.length ++ [newline]) (by simp)
      refine ⟨l, hl, hbounds, ?_⟩
      have hpre : (ls.take first).drop ins ≠ [] := by
        rw [← List.length_pos_iff, List.length_drop, List.length_take]
        omega
      have hcut : Core.slice b (startAt ls ins) (startAt ls first - 1) ++ [newline] =
          terminated ((ls.take first).drop ins) := by
        rw [slice_dropLast hps hsle, hbetween, terminated_dropLast hpre]
      have htext : Core.slice b (startAt ls first) b.length ++ [newline] =
          terminated ((ls.take (last + 1)).drop first) := by
        rw [hend]
        exact hblock
      rw [happly, htake, htext, List.drop_length, List.append_nil, hmoved, hend, List.drop_length,
        List.append_nil, terminated_append, terminated_append, ← hcut, ← hend]
      simp only [lastBreak, Bool.false_eq_true, if_false, List.append_assoc]
    · rw [if_neg hroom]
      obtain ⟨l, hl'⟩ := EditList.new_single
        (Edit.linesChanged b (relocatedByLines b first last ins false))
      obtain ⟨hbounds, happly⟩ := linesChanged_applyTo hl'
      have hlen : (moved ls first last ins).length = ls.length :=
        relocated_length hfl hl (by omega) false (.inr (.inl (Nat.le_of_lt hup)))
      have hmany : moved ls first last ins ≠ [[]] := by
        intro h
        rw [h, List.length_singleton] at hlen
        omega
      refine ⟨l, hl', hbounds, ?_⟩
      rw [happly, relocatedByLines_eq hrows hnl hfl hl (by omega) false
        (.inr (.inl (Nat.le_of_lt hup))) hmany]
      exact joinLines_append (by rw [← List.length_pos_iff]; exact Nat.lt_of_lt_of_eq (by omega) hlen.symm)

/-- A move to just before or just after the block leaves the lines as they are. -/
theorem moved_self (hfl : first ≤ last) (hins : ins = first ∨ ins = last + 1) :
    moved ls first last ins = ls := by
  have hblock : ls.take first ++ (ls.take (last + 1)).drop first = ls.take (last + 1) := by
    have := List.take_append_drop first (ls.take (last + 1))
    rwa [List.take_take, Nat.min_eq_left (by omega)] at this
  unfold moved
  rcases hins with rfl | rfl
  · have hnone : (ls.take ins).drop ins = [] :=
      List.drop_eq_nil_of_le (by rw [List.length_take]; omega)
    rw [if_pos (Nat.le_refl _), hnone, List.append_nil, hblock, List.take_append_drop]
  · have hnone : (ls.take (last + 1)).drop (last + 1) = [] :=
      List.drop_eq_nil_of_le (by rw [List.length_take]; omega)
    rw [if_neg (by omega), hnone, List.append_nil, hblock, List.take_append_drop]

end Edits

/-- `:m` and `:t` by the line model: at every destination that is not inside a block to
move, the edits make the text of the lines with the block moved or copied. -/
theorem relocateLines_lines {old : Bytes} (hne : old ≠ []) {range : SubRange} {dest : LineAddr}
    {copy : Bool} {cursorLine first last ins : Nat}
    (hrange : range.resolve (lineCount old) cursorLine = (first, last))
    (hdest : dest.insertIndex cursorLine (lineCount old) = some ins)
    (hout : copy = true ∨ ins ≤ first ∨ last < ins) :
    (match relocateLines old cursorLine range dest copy with
      | .declined => False
      | .stays _ => linesText (endsNl old) (relocated (rows old) first last ins copy) = old
      | .edits es _ _ => ∃ l, EditList.new es = .ok l ∧ l.InBounds old.length ∧
          l.applyTo old = linesText (endsNl old) (relocated (rows old) first last ins copy)) ∧
    (copy = true ∨ old ≠ [newline] → relocatedByLines old first last ins copy =
      linesText (endsNl old) (relocated (rows old) first last ins copy)) := by
  have h := rows_spec old
  have hcount := h.lineCount rfl
  have hpos := List.length_pos_iff.mpr (h.ne_nil hne)
  have hresolve := range.resolve_spec (show 0 < lineCount old by omega) cursorLine
  rw [hrange, hcount] at hresolve
  obtain ⟨hfl, hl⟩ := hresolve
  have hins := LineAddr.insertIndex_le hdest
  rw [hcount] at hins
  have hlen := relocated_length hfl hl hins copy hout
  have hsome : relocated (rows old) first last ins copy ≠ [] := by
    rw [← List.length_pos_iff, hlen]
    omega
  have hstay : copy = false ∧ (ins = first ∨ ins = last + 1) →
      relocated (rows old) first last ins copy = rows old := by
    rintro ⟨rfl, hins⟩
    exact moved_self hfl hins
  constructor
  · unfold relocateLines
    rw [if_neg hne]
    dsimp only
    rw [hrange]
    rw [hdest]
    dsimp only
    rw [if_neg (by rintro ⟨rfl, hlt, hle⟩; simp at hout; omega)]
    by_cases hs : copy = false ∧ (ins = first ∨ ins = last + 1)
    · rw [if_pos hs]
      rw [hstay hs, ← h.eq_linesText hne]
    · rw [if_neg hs]
      have hedits : ∃ l, EditList.new (relocateEdits old first last ins copy) = .ok l ∧
          l.InBounds old.length ∧
          l.applyTo old ++ lastBreak (endsNl old) = terminated (relocated (rows old) first last ins copy) := by
        cases copy with
        | true => exact relocateEdits_copy h rfl hne hfl hl hins
        | false =>
          simp only [true_and, not_or, Bool.false_eq_true, false_or] at hs hout
          rcases hout with hup | hdown
          · exact relocateEdits_up h rfl rfl hne hfl hl (by omega)
          · exact relocateEdits_down h rfl hne hfl (by omega) hins
      obtain ⟨l, hnew, hin, htext⟩ := hedits
      exact ⟨l, hnew, hin, eq_linesText hsome htext⟩
  · intro hmany
    refine relocatedByLines_eq rfl rfl hfl hl hins copy hout fun hone => ?_
    rw [hone, List.length_singleton] at hlen
    -- one line: a move of it to where it is
    obtain rfl : copy = false := by
      cases copy with
      | false => rfl
      | true =>
        rw [if_pos rfl] at hlen
        omega
    rw [if_neg (by simp)] at hlen
    rw [hstay ⟨rfl, by omega⟩] at hone
    have htext := h.text'
    rw [hone] at htext
    cases hnl : endsNl old with
    | true =>
      rw [hnl, lastBreak, if_pos rfl, List.append_nil] at htext
      exact (hmany.resolve_left (by simp)) htext
    | false =>
      rw [hnl] at htext
      exact hne (List.append_cancel_right htext)

/-- The line `b` of `a⏎b` goes to the top. -/
theorem relocateLines_lines_last : ∃ l,
    EditList.new (relocateEdits [0x61, 0x0A, 0x62] 1 1 0 false) = .ok l ∧ l.InBounds 3 ∧
      l.applyTo [0x61, 0x0A, 0x62] = [0x62, 0x0A, 0x61] :=
  (@relocateLines_lines [0x61, 0x0A, 0x62] (by decide) (.lines 2 2) (.line 0) false 0 1 1 0 (by decide)
    (by decide) (.inr (.inl (by decide)))).1

/-- The line `a` of `⏎a` goes to the top: the last line is now empty, and the text ends
with the newline before it. -/
theorem relocateLines_empty_last :
    relocateLines [0x0A, 0x61] 1 (.lines 2 2) (.line 0) false =
      .edits (relocateEdits [0x0A, 0x61] 1 1 0 false) 0 1 ∧
    endsNl [0x0A, 0x61] = false ∧
    ∃ l, EditList.new (relocateEdits [0x0A, 0x61] 1 1 0 false) = .ok l ∧
      endsNl (l.applyTo [0x0A, 0x61]) = true := by
  obtain ⟨l, hl, -, htext⟩ := relocateEdits_up (rows_spec [0x0A, 0x61]) rfl rfl (by decide)
    (Nat.le_refl 1) (by decide) Nat.zero_lt_one
  have hjoin : l.applyTo [0x0A, 0x61] ++ [newline] = [0x61, 0x0A] ++ [newline] := htext
  have happly := List.append_cancel_right hjoin
  exact ⟨rfl, by decide, l, hl, by rw [happly]; decide⟩

end Ruse.Core
