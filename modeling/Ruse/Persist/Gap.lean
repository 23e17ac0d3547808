import Ruse.Persist.Word

/-!
# The replay's gap buffer

The model of `Gap` in `apps/tui/src/persist/rj01.rs`, with every subtraction and
every range the source slices as a check that can end in a `Fault`. A sum of two
lengths of memory stays a plain sum: where it bounds a range, the range is
checked.

* `Gap.text` — the text a gap buffer holds;
* `Gap.WF` — the gap lies inside the buffer;
* `Gap.apply_ok` — an edit list that fits the text is applied without a fault, and
  the text becomes what `EditList.applyTo` makes of it.
-/

namespace Ruse.Persist

open Ruse.Core

/-! ## Slices of memory -/

/-- `buf.copy_within(i..j, dest)`. -/
def copyWithin (buf : Bytes) (i j dest : Nat) : Except Fault Bytes :=
  if i ≤ j ∧ j ≤ buf.length ∧ dest ≤ buf.length - (j - i) then
    .ok (buf.take dest ++ slice buf i j ++ buf.drop (dest + (j - i)))
  else .error .range

/-- `buf[at..at + src.len()].copy_from_slice(src)`. -/
def copyInto (buf : Bytes) (pos : Nat) (src : Bytes) : Except Fault Bytes :=
  if pos + src.length ≤ buf.length then
    .ok (buf.take pos ++ src ++ buf.drop (pos + src.length))
  else .error .range

theorem copyWithin_ok {buf : Bytes} {i j dest : Nat} (hij : i ≤ j) (hj : j ≤ buf.length)
    (hdest : dest + (j - i) ≤ buf.length) :
    copyWithin buf i j dest =
      .ok (buf.take dest ++ slice buf i j ++ buf.drop (dest + (j - i))) :=
  if_pos ⟨hij, hj, by omega⟩

theorem take_append_slice {b : Bytes} {i j : Nat} (hij : i ≤ j) :
    b.take i ++ slice b i j = b.take j := by
  have hj : j = i + (j - i) := by omega
  rw [slice, hj, List.take_add, ← hj]

/-! ## The buffer -/

/-- A text with a gap `buf[start..stop]` in it. -/
structure Gap where
  buf : Bytes
  start : Nat
  stop : Nat
deriving DecidableEq

namespace Gap

/-- `Gap::new`: the gap is empty and lies at the end. -/
def new (text : Bytes) : Gap := ⟨text, text.length, text.length⟩

/-- `Gap::len`. -/
def len (g : Gap) : Except Fault Nat := do
  let gap ← subWord g.stop g.start
  subWord g.buf.length gap

/-- `Gap::move_to`: put the gap at a text offset. -/
def moveTo (g : Gap) (pos : Nat) : Except Fault Gap :=
  if pos < g.start then do
    let stop ← subWord g.stop (g.start - pos)
    let buf ← copyWithin g.buf pos g.start stop
    return ⟨buf, pos, stop⟩
  else if pos > g.start then do
    let buf ← copyWithin g.buf g.stop (g.stop + (pos - g.start)) g.start
    return ⟨buf, g.start + (pos - g.start), g.stop + (pos - g.start)⟩
  else return g

/-- `Gap::reserve`: make the gap at least `n` bytes wide. -/
def reserve (g : Gap) (n : Nat) : Except Fault Gap := do
  let gap ← subWord g.stop g.start
  if gap ≥ n then return g
  else
    let grow := max (max (n - gap) g.buf.length) 64
    let tail ← subWord g.buf.length g.stop
    let buf := g.buf ++ List.replicate grow 0
    let buf ← copyWithin buf g.stop (g.stop + tail) (buf.length - tail)
    return ⟨buf, g.start, g.stop + grow⟩

/-- The body of the loop of `Gap::apply`. -/
def applyOne (g : Gap) (e : Edit) : Except Fault Gap := do
  let stop ← addWord e.pos e.del
  let g ← g.moveTo stop
  let start ← subWord g.start e.del
  let g ← reserve { g with start := start } e.ins.length
  let buf ← copyInto g.buf g.start e.ins
  return ⟨buf, g.start + e.ins.length, g.stop⟩

/-- `Gap::apply`: the last edit first, so the earlier positions stay valid. -/
def apply (g : Gap) (l : EditList) : Except Fault Gap := l.edits.reverse.foldlM applyOne g

/-- `Gap::into_vec`. -/
def intoVec (g : Gap) : Except Fault Bytes :=
  if g.start ≤ g.stop ∧ g.stop ≤ g.buf.length then .ok (g.buf.take g.start ++ g.buf.drop g.stop)
  else .error .range

/-! ## What the operations do to the text -/

def text (g : Gap) : Bytes := g.buf.take g.start ++ g.buf.drop g.stop

structure WF (g : Gap) : Prop where
  start_le : g.start ≤ g.stop
  stop_le : g.stop ≤ g.buf.length

variable {g : Gap}

theorem length_text (h : g.WF) : g.text.length = g.buf.length - (g.stop - g.start) := by
  have h1 := h.start_le
  have h2 := h.stop_le
  simp only [text, List.length_append, List.length_take, List.length_drop]
  omega

theorem wf_new (t : Bytes) : (new t).WF := ⟨Nat.le_refl _, Nat.le_refl _⟩

@[simp] theorem text_new (t : Bytes) : (new t).text = t := by
  simp [text, new]

theorem len_eq (h : g.WF) : g.len = .ok g.text.length := by
  have h1 := h.start_le
  have h2 := h.stop_le
  rw [length_text h, len, subWord_ok h1]
  show subWord g.buf.length (g.stop - g.start) = _
  rw [subWord_ok (by omega)]

theorem intoVec_eq (h : g.WF) : g.intoVec = .ok g.text := if_pos ⟨h.start_le, h.stop_le⟩

theorem take_start (h : g.WF) : g.text.take g.start = g.buf.take g.start := by
  have h1 := h.start_le
  have h2 := h.stop_le
  exact List.take_left' (by rw [List.length_take]; omega)

theorem drop_start (h : g.WF) : g.text.drop g.start = g.buf.drop g.stop := by
  have h1 := h.start_le
  have h2 := h.stop_le
  exact List.drop_left' (by rw [List.length_take]; omega)

/-- The gap is moved anywhere in the text, which stays. -/
theorem moveTo_ok (h : g.WF) {pos : Nat} (hpos : pos ≤ g.text.length) :
    ∃ g', g.moveTo pos = .ok g' ∧ g'.WF ∧ g'.text = g.text ∧ g'.start = pos := by
  have h1 := h.start_le
  have h2 := h.stop_le
  rw [length_text h] at hpos
  unfold moveTo
  by_cases hlt : pos < g.start
  · rw [if_pos hlt, subWord_ok (by omega)]
    show ∃ g', (copyWithin g.buf pos g.start (g.stop - (g.start - pos)) >>= fun buf =>
      Except.ok (Gap.mk buf pos _)) = _ ∧ _
    rw [copyWithin_ok (by omega) (by omega) (by omega)]
    refine ⟨_, rfl, ⟨by simp only; omega, ?_⟩, ?_, rfl⟩
    · simp only [List.length_append, List.length_take, List.length_drop,
        slice_length (Nat.le_of_lt hlt) (Nat.le_trans h1 h2)]
      omega
    · -- the bytes between the new and the old start now follow the gap
      have hend : g.stop - (g.start - pos) + (g.start - pos) = g.stop := by omega
      simp only [text, hend]
      rw [List.append_assoc, List.take_append_of_le_length
        (by rw [List.length_take]; omega), List.take_take, Nat.min_eq_left (by omega),
        List.drop_left' (by rw [List.length_take]; omega), ← List.append_assoc,
        take_append_slice (Nat.le_of_lt hlt)]
  · rw [if_neg hlt]
    by_cases hgt : pos > g.start
    · rw [if_pos hgt, copyWithin_ok (by omega) (by omega) (by omega)]
      have hn : g.start + (pos - g.start) = pos := by omega
      have hlen : (g.buf.take g.start ++ slice g.buf g.stop (g.stop + (pos - g.start))).length =
          pos := by
        rw [List.length_append, List.length_take, slice_length (by omega) (by omega)]
        omega
      refine ⟨_, rfl, ⟨by simp only; omega, ?_⟩, ?_, hn⟩
      · dsimp only
        rw [List.length_append, hlen, List.length_drop]
        omega
      · -- the bytes up to the new start now come before the gap
        simp only [text, hn, Nat.add_sub_cancel_left]
        rw [List.take_left' hlen, List.drop_append, hlen, List.drop_of_length_le (by omega),
          List.nil_append, List.drop_drop, List.append_assoc]
        have hdrop : pos + (g.stop + (pos - g.start) - pos) = g.stop + (pos - g.start) := by omega
        rw [hdrop, slice_append_drop (by omega)]
    · rw [if_neg hgt]
      exact ⟨g, rfl, h, rfl, by omega⟩

/-- Room is made in the gap, and the text stays. -/
theorem reserve_ok (h : g.WF) (n : Nat) :
    ∃ g', g.reserve n = .ok g' ∧ g'.WF ∧ g'.text = g.text ∧ g'.start = g.start ∧
      g.start + n ≤ g'.stop := by
  have h1 := h.start_le
  have h2 := h.stop_le
  unfold reserve
  rw [subWord_ok h1]
  show ∃ g', (if g.stop - g.start ≥ n then _ else _) = _ ∧ _
  by_cases hwide : g.stop - g.start ≥ n
  · rw [if_pos hwide]
    exact ⟨g, rfl, h, rfl, rfl, by omega⟩
  · rw [if_neg hwide, subWord_ok h2]
    generalize hgrow : max (max (n - (g.stop - g.start)) g.buf.length) 64 = grow
    have hlen : (g.buf ++ List.replicate grow 0).length = g.buf.length + grow := by
      rw [List.length_append, List.length_replicate]
    have htail : g.stop + (g.buf.length - g.stop) = g.buf.length := by omega
    show ∃ g', (copyWithin (g.buf ++ List.replicate grow 0) g.stop
      (g.stop + (g.buf.length - g.stop)) _ >>= fun buf =>
        Except.ok (Gap.mk buf g.start (g.stop + grow))) = _ ∧ _
    rw [htail, hlen, copyWithin_ok h2 (by omega) (by omega)]
    have hdest : g.buf.length + grow - (g.buf.length - g.stop) = g.stop + grow := by omega
    have hall : g.stop + grow + (g.buf.length - g.stop) = g.buf.length + grow := by omega
    have hmoved : slice (g.buf ++ List.replicate grow 0) g.stop g.buf.length =
        g.buf.drop g.stop := by
      rw [slice_append_left (Nat.le_refl _), slice, List.take_of_length_le (by simp)]
    have hfront : ((g.buf ++ List.replicate grow 0).take (g.stop + grow)).length =
        g.stop + grow := by
      rw [List.length_take, hlen]
      omega
    rw [hdest, hall, hmoved, ← hlen, List.drop_length, List.append_nil]
    refine ⟨_, rfl, ⟨by simp only; omega, ?_⟩, ?_, rfl, by simp only; omega⟩
    · dsimp only
      rw [List.length_append, hfront, List.length_drop]
      omega
    · simp only [text]
      rw [List.drop_left' hfront, List.take_append_of_le_length (by omega), List.take_take,
        Nat.min_eq_left (by omega), List.take_append_of_le_length (by omega)]

/-! ## Applying an edit list -/

def splice (e : Edit) (b : Bytes) : Bytes := b.take e.pos ++ e.ins ++ b.drop e.endPos

/-- An edit whose end is a word and lies in the text is applied without a fault. -/
theorem applyOne_ok (h : g.WF) {e : Edit} (hin : e.endPos ≤ g.text.length)
    (hword : e.endPos < wordLimit) :
    ∃ g', g.applyOne e = .ok g' ∧ g'.WF ∧ g'.text = splice e g.text := by
  obtain ⟨g₁, hmove, hwf₁, htext₁, hstart₁⟩ := moveTo_ok h hin
  have hle := e.pos_le_endPos
  have hdel : e.endPos - e.del = e.pos := by simp [Edit.endPos]
  have hnarrow : Gap.WF { g₁ with start := e.pos } :=
    ⟨by have := hwf₁.start_le; simp only; omega, hwf₁.stop_le⟩
  obtain ⟨g₂, hreserve, hwf₂, htext₂, hstart₂, hwide⟩ := reserve_ok hnarrow e.ins.length
  have hstop₂ := hwf₂.stop_le
  simp only at hstart₂ hwide
  have hins : (g₂.buf.take e.pos ++ e.ins).length = e.pos + e.ins.length := by
    rw [List.length_append, List.length_take]
    omega
  unfold applyOne
  rw [addWord_ok hword]
  show ∃ g', (g.moveTo e.endPos >>= _) = _ ∧ _
  rw [hmove]
  show ∃ g', (subWord g₁.start e.del >>= _) = _ ∧ _
  rw [hstart₁, subWord_ok (by rw [Edit.endPos]; omega), hdel]
  show ∃ g', (reserve { g₁ with start := e.pos } e.ins.length >>= _) = _ ∧ _
  rw [hreserve]
  show ∃ g', (copyInto g₂.buf g₂.start e.ins >>= _) = _ ∧ _
  rw [copyInto, hstart₂, if_pos (by omega)]
  refine ⟨_, rfl, ⟨hwide, ?_⟩, ?_⟩
  · dsimp only
    rw [List.length_append, hins, List.length_drop]
    omega
  · -- the text around the gap is the old text around the deleted bytes
    have hfront : g₂.buf.take e.pos = g.text.take e.pos := by
      have ht := take_start hwf₂
      rw [htext₂, hstart₂] at ht
      have h₁ : (Gap.text { g₁ with start := e.pos }).take e.pos = g₁.buf.take e.pos :=
        take_start hnarrow
      have h₂ := take_start hwf₁
      rw [hstart₁, htext₁] at h₂
      rw [← ht, h₁, ← Nat.min_eq_left hle, ← List.take_take, ← List.take_take, h₂]
    have hback : g₂.buf.drop g₂.stop = g.text.drop e.endPos := by
      have ht := drop_start hwf₂
      rw [htext₂, hstart₂] at ht
      have h₁ : (Gap.text { g₁ with start := e.pos }).drop e.pos = g₁.buf.drop g₁.stop :=
        drop_start hnarrow
      have h₂ := drop_start hwf₁
      rw [hstart₁, htext₁] at h₂
      rw [← ht, h₁, h₂]
    have hskip : g₂.stop - (e.pos + e.ins.length) + (e.pos + e.ins.length) = g₂.stop := by omega
    show List.take (e.pos + e.ins.length) _ ++ List.drop g₂.stop _ = splice e g.text
    rw [splice, List.take_left' hins, List.drop_append, hins, List.drop_of_length_le (by omega),
      List.nil_append, List.drop_drop, Nat.add_comm (e.pos + e.ins.length), hskip, hfront, hback]

/-- Splicing the edits in from the last is walking over them from the first. -/
theorem foldr_splice (b : Bytes) {es : List Edit} (hs : es.Pairwise Edit.Before)
    (hin : ∀ e ∈ es, e.endPos ≤ b.length) {cur : Nat} (hcur : ∀ e ∈ es, cur ≤ e.pos) :
    es.foldr splice b = b.take cur ++ EditList.applyFrom b cur es := by
  induction es generalizing cur with
  | nil => simp [EditList.applyFrom]
  | cons e es ih =>
    have hbefore := (List.pairwise_cons.mp hs).1
    have hend := hin e List.mem_cons_self
    have hle := e.pos_le_endPos
    have hfront : (b.take e.endPos).length = e.endPos := by
      rw [List.length_take]
      omega
    rw [List.foldr_cons, ih (List.pairwise_cons.mp hs).2
      (fun e' he' => hin e' (List.mem_cons_of_mem _ he')) (fun e' he' => (hbefore e' he').2)]
    rw [splice, List.drop_left' hfront, List.take_append_of_le_length (by omega), List.take_take,
      Nat.min_eq_left hle, EditList.applyFrom, List.append_assoc, ← List.append_assoc (b.take cur),
      ← List.append_assoc (b.take cur), take_append_slice (hcur e List.mem_cons_self),
      List.append_assoc]

/-- A list that fits the text is applied without a fault, from the last edit on. -/
theorem foldrM_ok (h : g.WF) {es : List Edit} (hs : es.Pairwise Edit.Before)
    (hin : ∀ e ∈ es, e.endPos ≤ g.text.length ∧ e.endPos < wordLimit) :
    ∃ g', es.foldrM (fun e g => applyOne g e) g = .ok g' ∧ g'.WF ∧
      g'.text = es.foldr splice g.text := by
  induction es with
  | nil => exact ⟨g, rfl, h, rfl⟩
  | cons e es ih =>
    have hrest := fun e' he' => hin e' (List.mem_cons_of_mem _ he')
    obtain ⟨g₁, hrun, hwf₁, htext₁⟩ := ih (List.pairwise_cons.mp hs).2 hrest
    have hfold := foldr_splice g.text (List.pairwise_cons.mp hs).2
      (fun e' he' => (hrest e' he').1)
      (fun e' he' => ((List.pairwise_cons.mp hs).1 e' he').2)
    have hend := (hin e List.mem_cons_self).1
    -- what the later edits leave in place still holds the whole of `e`
    have hroom : e.endPos ≤ g₁.text.length := by
      rw [htext₁, hfold, List.length_append, List.length_take]
      omega
    obtain ⟨g₂, hone, hwf₂, htext₂⟩ := applyOne_ok hwf₁ hroom (hin e List.mem_cons_self).2
    refine ⟨g₂, ?_, hwf₂, by rw [htext₂, htext₁, List.foldr_cons]⟩
    rw [List.foldrM_cons, hrun]
    exact hone

/-- A list in bounds whose ends are words is applied without a fault, and makes of
the text what `EditList.applyTo` makes of it. -/
theorem apply_ok (h : g.WF) {l : EditList} (hin : l.InBounds g.text.length)
    (hword : ∀ e ∈ l.edits, e.endPos < wordLimit) :
    ∃ g', g.apply l = .ok g' ∧ g'.WF ∧ g'.text = l.applyTo g.text := by
  obtain ⟨g', hrun, hwf, htext⟩ := foldrM_ok h l.sorted (fun e he => ⟨hin e he, hword e he⟩)
  refine ⟨g', ?_, hwf, ?_⟩
  · rw [apply, List.foldlM_reverse]
    exact hrun
  · rw [htext, foldr_splice g.text l.sorted hin (fun _ _ => Nat.zero_le _)]
    rfl

/-! ## Applying one list after the other -/

/-- Each list is in bounds of the text the lists before it leave, whose length is a
word. -/
def Fits : List EditList → Bytes → Prop
  | [], _ => True
  | l :: ls, b => (l.InBounds b.length ∧ b.length < wordLimit) ∧ Fits ls (l.applyTo b)

theorem replay_ok {ls : List EditList} (h : g.WF) (hfit : Fits ls g.text) :
    ∃ g', ls.foldlM apply g = .ok g' ∧ g'.WF ∧
      g'.text = ls.foldl (fun b l => l.applyTo b) g.text := by
  induction ls generalizing g with
  | nil => exact ⟨g, rfl, h, rfl⟩
  | cons l ls ih =>
    obtain ⟨⟨hin, hword⟩, hrest⟩ := hfit
    obtain ⟨g₁, happly, hwf, htext⟩ :=
      apply_ok h hin (fun e he => Nat.lt_of_le_of_lt (hin e he) hword)
    rw [← htext] at hrest
    obtain ⟨g₂, hrun, hwf₂, htext₂⟩ := ih hwf hrest
    refine ⟨g₂, ?_, hwf₂, by rw [htext₂, htext, List.foldl_cons]⟩
    rw [List.foldlM_cons, happly]
    exact hrun

/-- From any place and size of the gap, lists that fit in turn are applied without a
fault, and the text read out is the one `EditList.applyTo` makes of each in turn. -/
theorem gap_replay (h : g.WF) {ls : List EditList} (hfit : Fits ls g.text) :
    ∃ g', ls.foldlM apply g = .ok g' ∧
      g'.intoVec = .ok (ls.foldl (fun b l => l.applyTo b) g.text) := by
  obtain ⟨g', hrun, hwf, htext⟩ := replay_ok h hfit
  exact ⟨g', hrun, by rw [intoVec_eq hwf, htext]⟩

/-- A deletion at the front, and then an insertion at the end. -/
theorem gap_replay_two :
    let ls : List EditList :=
      [⟨[⟨0, 1, []⟩], by decide, by decide⟩, ⟨[⟨2, 0, [120]⟩], by decide, by decide⟩]
    ∃ g', ls.foldlM apply (new [97, 98, 99]) = .ok g' ∧
      g'.intoVec = .ok (ls.foldl (fun b l => l.applyTo b) (new [97, 98, 99]).text) := by
  intro ls
  refine gap_replay (wf_new _) ?_
  rw [text_new]
  refine ⟨⟨by decide, by decide⟩, ⟨by decide, by decide⟩, trivial⟩

end Gap

end Ruse.Persist
