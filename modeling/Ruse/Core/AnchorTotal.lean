import Ruse.Core.Passes
import Ruse.Core.Utf8

/-!
# The line rule never fails

`LineMap.mapOffset` computes on natural numbers and slices that are cut short. Here the
same functions check what the source's arithmetic and indexing need (`Checked`): a
subtraction of offsets must not go below zero, an offset moved by a length change must
not either, and a slice or an index must lie in its text. A check that fails is `none`.
On edits that fit the old text none fails, and the answer is the one of `mapOffset`
(`mapOffset_checked`).
-/

namespace Ruse.Core

/-! ## Checked steps -/

/-- `a - b` on offsets. -/
def sub? (a b : Nat) : Option Nat := if b ≤ a then some (a - b) else none

def offset? (i : Int) : Option Nat := if 0 ≤ i then some i.toNat else none

/-- `&b[i..j]`. -/
def slice? (b : Bytes) (i j : Nat) : Option Bytes :=
  if i ≤ j ∧ j ≤ b.length then some (slice b i j) else none

theorem sub?_eq {a b : Nat} (h : b ≤ a) : sub? a b = some (a - b) := if_pos h

theorem offset?_eq {i : Int} (h : 0 ≤ i) : offset? i = some i.toNat := if_pos h

theorem slice?_eq {b : Bytes} {i j : Nat} (hij : i ≤ j) (hj : j ≤ b.length) :
    slice? b i j = some (slice b i j) := if_pos ⟨hij, hj⟩

namespace LineMap

namespace Checked

variable (m : LineMap)

/-- `prefix[i]`: there is one more entry than there are edits. -/
def prefixDelta (i : Nat) : Option Int :=
  if i ≤ m.edits.length then some (m.prefixDelta i) else none

def atCol (ls col : Nat) : Option Nat := do
  let ls := min ls m.new.length
  let width ← sub? (lineEnd m.new ls) ls
  return ls + min col width

def newLineStart (p : Nat) : Option Nat := do
  let p := min p m.new.length
  if p = m.new.length ∧ p > 0 then
    let last ← m.new[p - 1]?
    return lineStart m.new (if last = newline then p - 1 else p)
  else return lineStart m.new p

/-- The slice is looked at only after a newline at the edit's start. -/
def isJoin (e : Edit) : Option Bool :=
  let blank : UInt8 → Bool := fun c => c == 32 || c == 9
  if m.old[e.pos]? = some newline then do
    let removed ← slice? m.old (e.pos + 1) e.endPos
    return removed.all blank && e.ins.all blank
  else some false

def insertedBody (f : Edit) : Option (Option (Bytes × Nat)) :=
  if m.lineStartAt f.pos ∧ f.ins.getLast? = some newline then do
    let body ← slice? f.ins 0 (← sub? f.ins.length 1)
    return some (body, 0)
  else if f.ins.head? = some newline then do
    let atEnd ← if f.pos = m.old.length then some true
      else m.old[f.pos]?.map fun b => b == newline
    if atEnd then
      let body ← slice? f.ins 1 f.ins.length
      return some (body, 1)
    else return none
  else return none

def carrier (e : Edit) (gone : Bytes) (j col : Nat) : Nat → List Edit → Option (Option Nat)
  | _, [] => some none
  | k, f :: fs =>
    if f.del ≠ 0 ∨ f.pos = e.pos then carrier e gone j col (k + 1) fs
    else do
      match ← insertedBody m f with
      | none => carrier e gone j col (k + 1) fs
      | some (body, first) =>
        if body ≠ gone then carrier e gone j col (k + 1) fs
        else
          let at' ← offset? ((f.pos : Int) + (← prefixDelta m k))
          let start := (((splitLines body).take j).map fun l => l.length + 1).sum
          return some (← atCol m (at' + first + start) col)

def moved (e : Edit) (j col : Nat) (lead : Bool) : Option (Option Nat) :=
  if ¬ e.ins.isEmpty then some none
  else do
    let gone ← slice? m.old (e.pos + lead.toNat) e.endPos
    if lead then carrier m e gone j col 0 m.edits
    else if gone.getLast? = some newline then carrier m e gone.dropLast j col 0 m.edits
    else return none

def replaced (e : Edit) (base j col : Nat) (gravity : LineGravity) (lead : Bool) :
    Option (Option Nat) :=
  let starts := insertedStarts e.ins lead
  match starts[j]? with
  | some s => (atCol m (base + s) col).map some
  | none =>
    match gravity with
    | .drop => some none
    | .keep => do
      let after := base + e.ins.length + (lead && e.endPos < m.old.length).toNat
      return some (← atCol m (← newLineStart m after) col)
    | .cursor =>
      match starts.getLast? with
      | some s => some (some (base + s))
      | none =>
        if lead then some (some (lineStart m.new base))
        else if base = 0 then some (some 0)
        else (sub? base 1).map fun p => some (lineStart m.new p)

/-- The answer of `moved`, and of `replaced` where it has none. -/
def movedOrReplaced (e : Edit) (base j col : Nat) (gravity : LineGravity) (lead : Bool) :
    Option (Option Nat) := do
  match ← moved m e j col lead with
  | some dest => return some dest
  | none => replaced m e base j col gravity lead

/-- `e.ins.is_empty() && !self.is_join(e)`: whether it is a join is only asked of a pure
delete. -/
def isCut (e : Edit) : Option Bool :=
  if e.ins.isEmpty then (isJoin m e).map Bool.not else some false

/-- A charwise edit that runs into the line from above. -/
def charwise (e : Edit) (base : Nat) (delta : Int) (gravity : LineGravity) (o ls le : Nat) :
    Option (Option Nat) :=
  if e.endPos > le then
    match gravity with
    | .drop => some none
    | .keep => some (some (base + e.ins.length))
    | .cursor => some (some (lineStart m.new base))
  else do
    if ← isCut m e then
      let start := lineStart m.new base
      return some (← atCol m start ((← sub? base start) + (← sub? o ls)))
    else if o ≥ e.endPos then return some (← offset? ((o : Int) + delta + e.delta))
    else return some (base + e.ins.length)

/-- The loop of `map_offset`. -/
def reach (gravity : LineGravity) (o ls le : Nat) : List Edit → Int → Option Reach
  | [], delta => some (.shifted delta)
  | e :: es, delta =>
    if e.pos > ls then some (.shifted delta)
    else do
      let col ← sub? o ls
      let base ← offset? ((e.pos : Int) + delta)
      if e.endPos = ls ∧ e.pos < ls ∧ (m.startAligned e ∨ ¬ m.endAligned e) then
        reach gravity o ls le es (delta + e.delta)
      else if e.del = 0 ∧ e.pos = ls ∧ e.ins.getLast? = some newline then
        reach gravity o ls le es (delta + e.delta)
      else if m.startAligned e ∧ ls < e.endPos then
        let above ← slice? m.old e.pos ls
        return .reached (← movedOrReplaced m e base (countNewlines above) col gravity false)
      else if e.pos < ls ∧ m.endAligned e then
        let above ← slice? m.old (e.pos + 1) ls
        return .reached (← movedOrReplaced m e base (countNewlines above) col gravity true)
      else if e.pos < ls then return .reached (← charwise m e base delta gravity o ls le)
      else return .shifted delta

/-- `LineMap::map` with its arithmetic, indices and slices checked. -/
def mapOffset (o : Nat) (gravity : LineGravity) : Option (Option Nat) := do
  let o := min o m.old.length
  let ls := lineStart m.old o
  let le := lineEnd m.old o
  let col ← sub? o ls
  let skipped := (m.edits.takeWhile fun e => e.endPos < ls).length
  match ← reach m gravity o ls le (m.edits.drop skipped) (← prefixDelta m skipped) with
  | .reached dest => return dest.map (snap m.new)
  | .shifted delta =>
    let ls ← offset? ((ls : Int) + delta)
    return some (snap m.new (← atCol m ls col))

end Checked

/-! ## No check fails -/

section Total

variable {m : LineMap}

theorem atCol_checked (ls col : Nat) : Checked.atCol m ls col = some (m.atCol ls col) := by
  unfold Checked.atCol
  dsimp only
  rw [sub?_eq (le_lineEnd m.new (Nat.min_le_right _ _))]
  rfl

/-- `new_line_start` reads no byte past the text. -/
theorem newLineStart_checked (p : Nat) :
    Checked.newLineStart m p = some (m.newLineStart p) := by
  unfold Checked.newLineStart newLineStart
  dsimp only
  split
  · rename_i hend
    have hlt : min p m.new.length - 1 < m.new.length := by omega
    have hget := List.getElem?_eq_getElem hlt
    rw [hget]
    by_cases hnl : m.new[min p m.new.length - 1] = newline
    · rw [if_pos ⟨hend.1, hend.2, congrArg some hnl⟩]
      simp only [Option.bind_eq_bind, Option.bind_some, hnl, if_true]
      rfl
    · rw [if_neg fun h => hnl (Option.some.inj h.2.2)]
      simp only [Option.bind_eq_bind, Option.bind_some, hnl, if_false]
      rfl
  · rename_i hend
    rw [if_neg fun h => hend ⟨h.1, h.2.1⟩]
    rfl

theorem isJoin_checked {e : Edit} (hlt : e.pos < e.endPos) (hin : e.endPos ≤ m.old.length) :
    Checked.isJoin m e = some (m.isJoin e) := by
  unfold Checked.isJoin isJoin
  split
  · rename_i hnl
    rw [slice?_eq hlt hin, hnl]
    rfl
  · rename_i hnl
    rw [beq_false_of_ne hnl]
    rfl

/-- No slice or subtraction of `inserted_body` fails. -/
theorem insertedBody_checked {f : Edit} (hf : f.pos ≤ m.old.length) :
    Checked.insertedBody m f = some (m.insertedBody f) := by
  unfold Checked.insertedBody insertedBody
  split
  · rename_i hlast
    have hpos : 1 ≤ f.ins.length := by
      have := List.length_pos_of_mem (List.mem_of_getLast? hlast.2)
      omega
    rw [sub?_eq hpos]
    dsimp only [Option.bind_eq_bind, Option.bind_some]
    rw [slice?_eq (Nat.zero_le _) (Nat.sub_le _ _)]
    simp [slice, List.dropLast_eq_take]
  · split
    · rename_i hhead
      have hpos : 1 ≤ f.ins.length := by
        have := List.length_pos_of_mem (List.mem_of_mem_head? hhead)
        omega
      have hbody : slice f.ins 1 f.ins.length = f.ins.tail := by
        simp [slice, List.take_of_length_le]
      by_cases hend : f.pos = m.old.length
      · rw [if_pos hend, if_pos ⟨hhead, .inl hend⟩, slice?_eq hpos (Nat.le_refl _), hbody]
        rfl
      · have hget := List.getElem?_eq_getElem (show f.pos < m.old.length by omega)
        rw [if_neg hend, hget, slice?_eq hpos (Nat.le_refl _), hbody]
        by_cases hnl : m.old[f.pos] = newline
        · rw [if_pos ⟨hhead, .inr (congrArg some hnl)⟩]
          simp [hnl]
        · rw [if_neg fun h => h.2.elim hend fun h => hnl (Option.some.inj h)]
          simp [hnl]
    · rename_i hhead
      rw [if_neg fun h => hhead h.1]
      rfl

theorem prefixDelta_checked {i : Nat} (hi : i ≤ m.edits.length) :
    Checked.prefixDelta m i = some (m.prefixDelta i) := if_pos hi

theorem shifted_nonneg {A es : List Edit} (hs : (A ++ es).Pairwise Edit.Before) {p : Nat}
    (hp : ∀ a ∈ A, a.endPos ≤ p) : 0 ≤ (p : Int) + sumDelta A := by
  have h := le_sumDelta (List.pairwise_append.mp hs).1 (fun e _ => Nat.zero_le e.pos) hp
    (Nat.zero_le p)
  omega

/-- None of `carrier` fails, wherever the walk over the edits is. -/
theorem carrier_checked {A fs : List Edit} {e : Edit} {gone : Bytes} {j col : Nat}
    (hsplit : m.edits = A ++ fs) (hs : m.edits.Pairwise Edit.Before)
    (hin : ∀ f ∈ m.edits, f.endPos ≤ m.old.length) :
    Checked.carrier m e gone j col A.length fs = some (m.carrier e gone j col A.length fs) := by
  induction fs generalizing A with
  | nil => rfl
  | cons f fs ih =>
    have hnext : m.edits = (A ++ [f]) ++ fs := by rw [hsplit, List.append_assoc]; rfl
    have hrest := ih hnext
    rw [List.length_append, List.length_singleton] at hrest
    have hmem : f ∈ m.edits := by
      rw [hsplit]
      exact List.mem_append_right _ List.mem_cons_self
    have hpos := f.pos_le_endPos
    have hbody := @insertedBody_checked m f (Nat.le_trans hpos (hin f hmem))
    unfold Checked.carrier carrier
    split
    · exact hrest
    · rw [hbody]
      dsimp only [Option.bind_eq_bind, Option.bind_some]
      cases m.insertedBody f with
      | none => exact hrest
      | some p =>
        dsimp only
        split
        · exact hrest
        · rw [hsplit] at hs
          have hA : ∀ a ∈ A, a.endPos ≤ f.pos := fun a ha =>
            ((List.pairwise_append.mp hs).2.2 a ha f List.mem_cons_self).2
          have hsum : m.prefixDelta A.length = sumDelta A := by
            rw [LineMap.prefixDelta, hsplit, List.take_left]
          have hlen : A.length ≤ m.edits.length := by
            rw [hsplit, List.length_append]
            exact Nat.le_add_right _ _
          have hoff := shifted_nonneg hs hA
          rw [← hsum] at hoff
          rw [prefixDelta_checked hlen]
          dsimp only [Option.bind_some]
          rw [offset?_eq hoff]
          dsimp only [Option.bind_some]
          rw [atCol_checked]
          rfl

/-- What the map's own edits keep: sorted, and inside the old text. -/
structure Fits (m : LineMap) : Prop where
  sorted : m.edits.Pairwise Edit.Before
  inBounds : ∀ f ∈ m.edits, f.endPos ≤ m.old.length

theorem moved_checked (h : m.Fits) {e : Edit} {lead : Bool} (j col : Nat)
    (hle : e.pos + lead.toNat ≤ e.endPos) (hin : e.endPos ≤ m.old.length) :
    Checked.moved m e j col lead = some (m.moved e j col lead) := by
  have hcarrier (gone : Bytes) := @carrier_checked m [] m.edits e gone j col rfl h.sorted h.inBounds
  unfold Checked.moved moved
  split
  · rfl
  · rw [slice?_eq hle hin]
    dsimp only [Option.bind_eq_bind, Option.bind_some]
    split
    · exact hcarrier _
    · split
      · exact hcarrier _
      · rfl

/-- None of `replaced` fails. -/
theorem replaced_checked (e : Edit) (base j col : Nat) (gravity : LineGravity) (lead : Bool) :
    Checked.replaced m e base j col gravity lead = some (m.replaced e base j col gravity lead) := by
  unfold Checked.replaced replaced
  dsimp only
  cases (insertedStarts e.ins lead)[j]? with
  | some s =>
    dsimp only
    rw [atCol_checked]
    rfl
  | none =>
    cases gravity with
    | drop => rfl
    | keep =>
      rw [newLineStart_checked]
      dsimp only [Option.bind_eq_bind, Option.bind_some]
      rw [atCol_checked]
      rfl
    | cursor =>
      cases (insertedStarts e.ins lead).getLast? with
      | some s => rfl
      | none =>
        by_cases hlead : lead = true
        · rw [if_pos hlead, if_pos hlead]
        · by_cases hbase : base = 0
          · rw [if_neg hlead, if_neg hlead, if_pos hbase, if_pos hbase]
          · rw [if_neg hlead, if_neg hlead, if_neg hbase, if_neg hbase,
              sub?_eq (Nat.one_le_iff_ne_zero.mpr hbase)]
            rfl

theorem movedOrReplaced_checked (h : m.Fits) {e : Edit} {lead : Bool} (base j col : Nat)
    (gravity : LineGravity) (hle : e.pos + lead.toNat ≤ e.endPos)
    (hin : e.endPos ≤ m.old.length) :
    Checked.movedOrReplaced m e base j col gravity lead =
      some ((m.moved e j col lead).or (m.replaced e base j col gravity lead)) := by
  unfold Checked.movedOrReplaced
  rw [moved_checked h j col hle hin, replaced_checked]
  cases m.moved e j col lead <;> rfl

/-- Where the charwise branch of `reach` sends the position. -/
def charwise (m : LineMap) (e : Edit) (base : Nat) (delta : Int) (gravity : LineGravity)
    (o ls le : Nat) : Option Nat :=
  if e.endPos > le then
    match gravity with
    | .drop => none
    | .keep => some (base + e.ins.length)
    | .cursor => some (lineStart m.new base)
  else if e.ins.isEmpty ∧ ¬ m.isJoin e then
    some (m.atCol (lineStart m.new base) (base - lineStart m.new base + (o - ls)))
  else if o ≥ e.endPos then some ((o : Int) + delta + e.delta).toNat
  else some (base + e.ins.length)

/-- None of `charwise` fails at an edit of the line. -/
theorem charwise_checked {e : Edit} {base : Nat} {delta : Int} (gravity : LineGravity)
    {o ls : Nat} (le : Nat) (hbase : (base : Int) = e.pos + delta) (hlt : e.pos < e.endPos)
    (hin : e.endPos ≤ m.old.length) (hls : ls ≤ o) :
    Checked.charwise m e base delta gravity o ls le =
      some (m.charwise e base delta gravity o ls le) := by
  have hcut : Checked.isCut m e = some (decide (e.ins.isEmpty ∧ ¬ m.isJoin e)) := by
    unfold Checked.isCut
    by_cases hins : e.ins.isEmpty = true
    · rw [if_pos hins, isJoin_checked hlt hin]
      simp [hins]
    · rw [if_neg hins]
      simp [hins]
  unfold Checked.charwise charwise
  by_cases hover : e.endPos > le
  · rw [if_pos hover, if_pos hover]
    cases gravity <;> rfl
  · rw [if_neg hover, if_neg hover, hcut]
    dsimp only [Option.bind_eq_bind, Option.bind_some]
    by_cases hjoin : e.ins.isEmpty ∧ ¬ m.isJoin e
    · rw [if_pos hjoin, if_pos (decide_eq_true hjoin), sub?_eq (lineStart_le m.new base),
        sub?_eq hls]
      dsimp only [Option.bind_some]
      rw [atCol_checked]
      rfl
    · rw [if_neg hjoin, if_neg (by simpa using hjoin)]
      by_cases hafter : o ≥ e.endPos
      · have hoff : 0 ≤ (o : Int) + delta + e.delta := by
          simp only [Edit.delta, Edit.endPos] at hafter ⊢
          omega
        rw [if_pos hafter, if_pos hafter, offset?_eq hoff]
        rfl
      · rw [if_neg hafter, if_neg hafter]
        rfl

/-- The loop of `map_offset` never fails, and shifts a line start to a place at or past 0. -/
theorem reach_checked (h : m.Fits) {A es : List Edit} (hsplit : m.edits = A ++ es)
    {gravity : LineGravity} {o ls le : Nat} (hA : ∀ a ∈ A, a.endPos ≤ ls)
    (hnear : ∀ e ∈ es, ls ≤ e.endPos) (hls : ls ≤ o) (ho : o ≤ m.old.length) :
    Checked.reach m gravity o ls le es (sumDelta A) =
        some (m.reach gravity o ls le es (sumDelta A)) ∧
      ∀ delta, m.reach gravity o ls le es (sumDelta A) = .shifted delta →
        0 ≤ (ls : Int) + delta := by
  induction es generalizing A with
  | nil =>
    have hshift := shifted_nonneg (hsplit ▸ h.sorted) hA
    exact ⟨rfl, fun delta hd => by cases hd; exact hshift⟩
  | cons e es ih =>
    have hsorted := h.sorted
    rw [hsplit] at hsorted
    have hshift := shifted_nonneg hsorted hA
    have hnext : m.edits = (A ++ [e]) ++ es := by rw [hsplit, List.append_assoc]; rfl
    have hend := hnear e List.mem_cons_self
    have hsum : sumDelta (A ++ [e]) = sumDelta A + e.delta := by
      rw [sumDelta_append, sumDelta_cons, sumDelta_nil, Int.add_zero]
    have hmem : e ∈ m.edits := by
      rw [hsplit]
      exact List.mem_append_right _ List.mem_cons_self
    have hin := h.inBounds e hmem
    have hbefore : ∀ a ∈ A, a.endPos ≤ e.pos := fun a ha =>
      ((List.pairwise_append.mp hsorted).2.2 a ha e List.mem_cons_self).2
    have hbase := shifted_nonneg hsorted hbefore
    -- an edit that only shifts the line ends at its start
    have hrest (hle : e.endPos ≤ ls) := ih hnext
      (fun a ha => (List.mem_append.mp ha).elim (hA a) fun h => by
        rw [List.mem_singleton.mp h]
        exact hle)
      (fun e' he' => hnear e' (List.mem_cons_of_mem _ he'))
    unfold Checked.reach reach
    by_cases hpos : e.pos > ls
    · rw [if_pos hpos, if_pos hpos]
      exact ⟨rfl, fun delta hd => by cases hd; exact hshift⟩
    rw [if_neg hpos, if_neg hpos, sub?_eq hls]
    dsimp only [Option.bind_eq_bind, Option.bind_some]
    rw [offset?_eq hbase]
    dsimp only [Option.bind_some]
    by_cases hjoin : e.endPos = ls ∧ e.pos < ls ∧ (m.startAligned e ∨ ¬ m.endAligned e)
    · rw [if_pos hjoin, if_pos hjoin, ← hsum]
      exact hrest (Nat.le_of_eq hjoin.1)
    rw [if_neg hjoin, if_neg hjoin]
    by_cases hwhole : e.del = 0 ∧ e.pos = ls ∧ e.ins.getLast? = some newline
    · rw [if_pos hwhole, if_pos hwhole, ← hsum]
      exact hrest (by simp only [Edit.endPos]; omega)
    rw [if_neg hwhole, if_neg hwhole]
    by_cases hblock : m.startAligned e ∧ ls < e.endPos
    · rw [if_pos hblock, if_pos hblock, slice?_eq (Nat.le_of_not_lt hpos) (by omega)]
      dsimp only [Option.bind_some]
      rw [@movedOrReplaced_checked m h e false _ _ _ _ e.pos_le_endPos hin]
      exact ⟨rfl, fun _ hd => by cases hd⟩
    rw [if_neg hblock, if_neg hblock]
    by_cases hlead : e.pos < ls ∧ m.endAligned e
    · rw [if_pos hlead, if_pos hlead, slice?_eq hlead.1 (by omega)]
      dsimp only [Option.bind_some]
      rw [@movedOrReplaced_checked m h e true _ _ _ _ (Nat.le_trans hlead.1 hend) hin]
      exact ⟨rfl, fun _ hd => by cases hd⟩
    rw [if_neg hlead, if_neg hlead]
    by_cases hcut : e.pos < ls
    · rw [if_pos hcut, if_pos hcut, charwise_checked gravity le
        (by rw [Int.toNat_of_nonneg hbase]) (by omega) hin hls]
      exact ⟨rfl, fun _ hd => by cases hd⟩
    · rw [if_neg hcut, if_neg hcut]
      exact ⟨rfl, fun delta hd => by cases hd; exact hshift⟩

/-- `map_offset` never fails for edits that fit the text. -/
theorem mapOffset_checked (h : m.Fits) (o : Nat) (gravity : LineGravity) :
    Checked.mapOffset m o gravity = some (m.mapOffset o gravity) := by
  unfold Checked.mapOffset mapOffset
  dsimp only
  generalize ho : min o m.old.length = o'
  have hlen : o' ≤ m.old.length := ho ▸ Nat.min_le_right _ _
  have hls := lineStart_le m.old o'
  generalize lineStart m.old o' = ls at hls
  generalize lineEnd m.old o' = le
  generalize hskip : (m.edits.takeWhile fun e => e.endPos < ls).length = skipped
  have hbefore : editsBefore m.edits ls = m.edits.take skipped := by
    rw [← hskip]
    exact List.prefix_iff_eq_take.mp (List.takeWhile_prefix _)
  have hle : skipped ≤ m.edits.length := hskip ▸ (List.takeWhile_sublist _).length_le
  have hA : ∀ a ∈ m.edits.take skipped, a.endPos ≤ ls := fun a ha =>
    Nat.le_of_lt (endPos_of_editsBefore (hbefore ▸ ha))
  have hnear : ∀ e ∈ m.edits.drop skipped, ls ≤ e.endPos := fun e he =>
    le_endPos_of_drop h.sorted (by rw [editsBefore, hskip]; exact he)
  obtain ⟨hreach, hshifted⟩ := @reach_checked m h (m.edits.take skipped) (m.edits.drop skipped)
    (List.take_append_drop skipped m.edits).symm gravity o' ls le hA hnear hls hlen
  rw [sub?_eq hls, prefixDelta_checked hle]
  dsimp only [Option.bind_eq_bind, Option.bind_some]
  unfold prefixDelta
  rw [hreach]
  dsimp only [Option.bind_some]
  cases hr : m.reach gravity o' ls le (m.edits.drop skipped) (sumDelta (m.edits.take skipped)) with
  | reached dest => rfl
  | shifted delta =>
    dsimp only
    rw [offset?_eq (hshifted delta hr)]
    dsimp only [Option.bind_some]
    rw [atCol_checked]
    rfl

end Total

end LineMap

/-- On edits that fit the old text, the line rule computes without a subtraction below
zero and without an index or a slice out of its text; where it sends a position is in
the new text and on a character boundary of it; and a kept position is never lost. -/
theorem line_map_total {old : Bytes} {edits : EditList} (hin : edits.InBounds old.length)
    (o : Nat) (gravity : LineGravity) :
    ∃ r, LineMap.Checked.mapOffset ⟨old, edits.applyTo old, edits.edits⟩ o gravity = some r ∧
      (∀ p, r = some p → p ≤ (edits.applyTo old).length ∧
        isBoundary (edits.applyTo old) p = true ∧
        (ValidUtf8 (edits.applyTo old) → IsCharBoundary (edits.applyTo old) p)) ∧
      (gravity = .keep → r ≠ none) := by
  have hfits : LineMap.Fits ⟨old, edits.applyTo old, edits.edits⟩ := ⟨edits.sorted, hin⟩
  refine ⟨_, LineMap.mapOffset_checked hfits o gravity, fun p hp => ?_, ?_⟩
  · obtain ⟨q, rfl⟩ := LineMap.mapOffset_snapped hp
    obtain ⟨hle, hchar⟩ := inText_snap (edits.applyTo old) q
    exact ⟨hle, isBoundary_snap _ q, hchar⟩
  · rintro rfl hnone
    obtain ⟨p, hp⟩ := LineMap.mapOffset_keep ⟨old, edits.applyTo old, edits.edits⟩ o
    rw [hp] at hnone
    cases hnone

/-- A line moved up past the one above it, its newline the last byte of the text. -/
theorem line_map_total_moved :
    ∃ r, LineMap.Checked.mapOffset ⟨[97, 10, 98, 10], [98, 10, 97, 10],
        [⟨0, 0, [98, 10]⟩, ⟨2, 2, []⟩]⟩ 3 .keep = some r ∧
      (∀ p, r = some p → p ≤ 4 ∧ isBoundary [98, 10, 97, 10] p = true ∧
        (ValidUtf8 [98, 10, 97, 10] → IsCharBoundary [98, 10, 97, 10] p)) ∧
      (LineGravity.keep = .keep → r ≠ none) :=
  @line_map_total [97, 10, 98, 10] ⟨[⟨0, 0, [98, 10]⟩, ⟨2, 2, []⟩], by decide, by decide⟩
    (by decide) 3 .keep

end Ruse.Core
