import Mathlib.Order.Bounds.Basic
import Mathlib.Logic.Function.Iterate
import Ruse.Core.Commit
import Ruse.Core.Replacement

/-!
# The character steppers

`next_boundary`, `prev_boundary`, `is_boundary`, `snap`, `col_of` and `at_col` of
`crates/core/src/motion.rs` over any bytes: each decides on its own how bytes that are no
text split into characters, and all of them split alike (`steppers_agree`).

The forward and the backward step are the least boundary after a place and the greatest
before it, so they undo each other. The columns count units (`Ruse.Core.Hay`): a
character, or one byte that belongs to none, and a unit is what the forward step crosses
(`nextBoundary_unit`).
-/

namespace Ruse.Core

variable {i p pos start : Nat}

/-- `col_of`: the characters of the chunks of `b[start..pos]`, an invalid byte counting as
one. -/
def colOfChunks (b : Bytes) (start pos : Nat) : Nat :=
  ((utf8Chunks (slice b start pos) 0).map fun c => (charsFrom c.1 0).length + c.2.length).sum

/-! ## Steps as bounds -/

section
variable {b : Bytes}

/-- The loop of `next_boundary` stops at the first boundary from `i` on. -/
theorem boundaryFrom_least (left : Nat) (h : i + left = b.length) :
    IsLeast {p | i ≤ p ∧ isBoundary b p = true} (boundaryFrom b left i) := by
  induction left generalizing i with
  | zero =>
    have hi : i = b.length := by omega
    rw [boundaryFrom]
    refine ⟨⟨Nat.le_refl i, ?_⟩, fun p hp => hp.1⟩
    simp [isBoundary, hi]
  | succ left ih =>
    unfold boundaryFrom
    split
    · rename_i hi
      exact ⟨⟨Nat.le_refl i, hi⟩, fun p hp => hp.1⟩
    · rename_i hi
      obtain ⟨hmem, hleast⟩ := ih (i := i + 1) (by omega)
      refine ⟨⟨by have := hmem.1; omega, hmem.2⟩, fun p hp => hleast ⟨?_, hp.2⟩⟩
      have hne : p ≠ i := by
        intro heq
        exact hi (heq ▸ hp.2)
      have := hp.1
      omega

/-- `next_boundary` finds the least boundary after a place before the end. -/
theorem nextBoundary_least (hp : p < b.length) :
    IsLeast {q | p < q ∧ isBoundary b q = true} (nextBoundary b p) := by
  have hmin : min (p + 1) b.length = p + 1 := by omega
  unfold nextBoundary
  rw [hmin]
  exact boundaryFrom_least _ (by omega)

theorem nextBoundary_length (hp : b.length ≤ p) : nextBoundary b p = b.length := by
  have hmin : min (p + 1) b.length = b.length := by omega
  unfold nextBoundary
  simp only [hmin, Nat.sub_self, boundaryFrom]

theorem nextBoundary_le (b : Bytes) (p : Nat) : nextBoundary b p ≤ b.length :=
  (nextBoundary_inText b p).1

theorem isBoundary_length (b : Bytes) : isBoundary b b.length = true := by
  simp [isBoundary]

theorem isBoundary_nextBoundary (b : Bytes) (p : Nat) : isBoundary b (nextBoundary b p) = true := by
  rcases Nat.lt_or_ge p b.length with hp | hp
  · exact (nextBoundary_least hp).1.2
  · rw [nextBoundary_length hp]
    exact isBoundary_length b

/-- `prev_boundary` finds the greatest boundary before a place after the start. -/
theorem prevBoundary_greatest (hpos : 0 < p) (hp : p ≤ b.length) :
    IsGreatest {q | q < p ∧ isBoundary b q = true} (prevBoundary b p) := by
  unfold prevBoundary
  rw [Nat.min_eq_left hp]
  exact ⟨⟨boundaryBelow_lt b hpos, isBoundary_boundaryBelow b p⟩, fun q hq =>
    le_boundaryBelow hq.2 hq.1⟩

theorem prevBoundary_nextBoundary (hp : p < b.length) (hb : isBoundary b p = true) :
    prevBoundary b (nextBoundary b p) = p := by
  obtain ⟨hnext, hleast⟩ := nextBoundary_least hp
  obtain ⟨hprev, hgreatest⟩ := prevBoundary_greatest (b := b) (p := nextBoundary b p)
    (by have := hnext.1; omega) (nextBoundary_le b p)
  refine Nat.le_antisymm ?_ (hgreatest ⟨hnext.1, hb⟩)
  by_contra hlt
  have hle := hleast (a := prevBoundary b (nextBoundary b p)) ⟨by omega, hprev.2⟩
  have := hprev.1
  omega

theorem nextBoundary_prevBoundary (hpos : 0 < p) (hp : p ≤ b.length) (hb : isBoundary b p = true) :
    nextBoundary b (prevBoundary b p) = p := by
  obtain ⟨hprev, hgreatest⟩ := prevBoundary_greatest hpos hp
  obtain ⟨hnext, hleast⟩ := nextBoundary_least (b := b) (p := prevBoundary b p)
    (by have := hprev.1; omega)
  refine Nat.le_antisymm (hleast ⟨hprev.1, hb⟩) ?_
  by_contra hlt
  have hle := hgreatest (a := nextBoundary b (prevBoundary b p)) ⟨by omega, hnext.2⟩
  have := hnext.1
  omega

/-- Stepping on from the start visits exactly the boundaries. -/
theorem nextBoundary_visits (p : Nat) :
    (∃ n, (nextBoundary b)^[n] 0 = p) ↔ p ≤ b.length ∧ isBoundary b p = true := by
  constructor
  · rintro ⟨n, rfl⟩
    cases n with
    | zero => exact ⟨Nat.zero_le _, rfl⟩
    | succ n =>
      rw [Function.iterate_succ_apply']
      exact ⟨nextBoundary_le b _, isBoundary_nextBoundary b _⟩
  · rintro ⟨hle, hb⟩
    induction p using Nat.strong_induction_on with
    | _ p ih =>
      rcases Nat.eq_zero_or_pos p with hzero | hpos
      · exact ⟨0, hzero.symm⟩
      · obtain ⟨hprev, -⟩ := prevBoundary_greatest hpos hle
        obtain ⟨n, hn⟩ := ih _ hprev.1 (by have := hprev.1; omega) hprev.2
        refine ⟨n + 1, ?_⟩
        rw [Function.iterate_succ_apply', hn]
        exact nextBoundary_prevBoundary hpos hle hb

/-- Stepping back from the end visits exactly the boundaries. -/
theorem prevBoundary_visits (p : Nat) :
    (∃ n, (prevBoundary b)^[n] b.length = p) ↔ p ≤ b.length ∧ isBoundary b p = true := by
  constructor
  · rintro ⟨n, rfl⟩
    cases n with
    | zero => exact ⟨Nat.le_refl _, isBoundary_length b⟩
    | succ n =>
      rw [Function.iterate_succ_apply']
      refine ⟨Nat.le_trans (boundaryBelow_le b _) (Nat.min_le_right _ _), ?_⟩
      exact isBoundary_boundaryBelow b _
  · rintro ⟨hle, hb⟩
    -- the distance to the end, one step of which a forward step takes away
    induction hd : b.length - p using Nat.strong_induction_on generalizing p with
    | _ d ih =>
      rcases Nat.lt_or_ge p b.length with hlt | hge
      · obtain ⟨hnext, -⟩ := nextBoundary_least hlt
        have hnle := nextBoundary_le b p
        obtain ⟨n, hn⟩ := ih _ (by have := hnext.1; omega) (nextBoundary b p) hnle hnext.2 rfl
        refine ⟨n + 1, ?_⟩
        rw [Function.iterate_succ_apply', hn]
        exact prevBoundary_nextBoundary hlt hb
      · exact ⟨0, by simp only [Function.iterate_zero, id]; omega⟩

/-- `snap` finds the greatest boundary not after a place. -/
theorem snap_greatest (pos : Nat) :
    IsGreatest {p | p ≤ b.length ∧ p ≤ pos ∧ isBoundary b p = true} (snap b pos) := by
  have hle := snap_le b pos
  refine ⟨⟨by omega, by omega, isBoundary_snap b pos⟩, fun p hp => ?_⟩
  exact le_snap hp.2.2 hp.2.1 hp.1

/-! ## Units -/

/-- A unit ends on a boundary. -/
theorem isBoundary_unit (hb : isBoundary b i = true) (hi : i < b.length) :
    isBoundary b (i + unitLen b i) = true := by
  by_contra hnot
  have hin : insideChar b (i + unitLen b i) = true := by
    by_contra hout
    exact hnot (isBoundary_of_not_inside hout)
  obtain ⟨-, hlt, hcont, j, w, hlo, hj, hlead, hrest, hw, hover⟩ := insideChar_iff.mp hin
  -- the character that covers the end begins at `i` or before it
  have hji : j ≤ i := by
    by_contra hgt
    unfold unitLen at hj hover
    cases hc : charLenAt b i with
    | none =>
      rw [hc, Option.getD_none] at hj
      omega
    | some w' =>
      rw [hc, Option.getD_some] at hj
      have := (charLenAt_spec hc).2.2.2.2 j (by omega) hj
      rw [hlead] at this
      cases this
  rcases Nat.lt_or_eq_of_le hji with hbefore | heq
  · -- then `i` is inside that character
    have hinside : insideChar b i = true := insideChar_of_char hw hbefore (by omega)
    rw [isBoundary, hinside] at hb
    simp only [Bool.not_true, Bool.or_false, Bool.or_eq_true, beq_iff_eq] at hb
    omega
  · rw [heq] at hw
    rw [unitLen, hw, Option.getD_some] at hover
    omega

/-- The forward step crosses one unit. -/
theorem nextBoundary_unit (hb : isBoundary b i = true) (hi : i < b.length) :
    nextBoundary b i = i + unitLen b i := by
  obtain ⟨hmem, hleast⟩ := nextBoundary_least hi
  have hstep := unitLen_pos b i
  refine Nat.le_antisymm (hleast ⟨by omega, isBoundary_unit hb hi⟩) ?_
  by_contra hlt
  have hgt := hmem.1
  cases hc : charLenAt b i with
  | none =>
    rw [unitLen, hc, Option.getD_none] at hlt
    omega
  | some w =>
    rw [unitLen, hc, Option.getD_some] at hlt
    have hinside := insideChar_of_char hc hgt (by omega)
    have hnext := hmem.2
    have hend := charLenAt_le hc
    rw [isBoundary, hinside] at hnext
    simp only [Bool.not_true, Bool.or_false, Bool.or_eq_true, beq_iff_eq] at hnext
    omega

end

/-! ## Columns -/

section
variable {b : Bytes}

/-- The characters of a slice and the units behind it are the units of the whole. -/
theorem length_charsFrom_slice {k v : Nat} (h : Scans b k v) (hik : i ≤ k) (hv : v ≤ b.length) :
    (charsFrom (slice b i v) (k - i)).length + (units b v).length = (units b k).length := by
  induction h with
  | refl v =>
    have hnone : charLenAt (slice b i v) (v - i) = none := by
      unfold charLenAt
      rw [List.getElem?_eq_none (by rw [slice_length hik hv])]
      rfl
    rw [charsFrom]
    split
    · rename_i w hw
      rw [hnone] at hw
      cases hw
    · simp
  | @char k w v hw hrest ih =>
    have hle := hrest.le
    have hlen := charLenAt_pos hw
    have hslice : charLenAt (slice b i v) (k - i) = some w := charLenAt_slice hw hik hle
    have hunit : unitLen b k = w := by rw [unitLen, hw, Option.getD_some]
    have hnext := ih (by omega) hv
    rw [show k + w - i = k - i + w by omega] at hnext
    have hcons : units b k = k :: units b (k + w) := by
      have hcut := units_lt (b := b) (i := k) (by omega)
      rwa [hunit] at hcut
    rw [charsFrom, hcons, List.length_cons, ← hnext]
    split
    · rename_i w' hw'
      rw [hslice] at hw'
      cases hw'
      rw [List.length_cons]
      omega
    · rename_i hnone
      rw [hslice] at hnone
      cases hnone

theorem length_units_invalid {v m : Nat} (hle : v + m ≤ b.length)
    (h : ∀ k < m, charLenAt b (v + k) = none) :
    (units b v).length = m + (units b (v + m)).length := by
  induction m generalizing v with
  | zero => simp
  | succ m ih =>
    have hnone : charLenAt b v = none := h 0 (Nat.succ_pos m)
    have hunit : unitLen b v = 1 := by rw [unitLen, hnone, Option.getD_none]
    have hrest := ih (v := v + 1) (by omega) fun k hk => by
      rw [Nat.add_assoc, Nat.add_comm 1 k]
      exact h (k + 1) (by omega)
    rw [units_lt (by omega), hunit, List.length_cons, hrest, show v + 1 + m = v + (m + 1) by omega]
    omega

/-- The chunks of the text hold all its units. -/
theorem sum_chunks (hi : i ≤ b.length) :
    ((utf8Chunks b i).map fun c => (charsFrom c.1 0).length + c.2.length).sum =
      (units b i).length := by
  induction i using utf8Chunks.induct b with
  | case1 i hv v ih =>
    have hnone : charLenAt b (validUpTo b b.length i) = none := by
      by_contra hne
      obtain ⟨w, hw⟩ := Option.ne_none_iff_exists'.mp hne
      have := (validUpTo_spec b b.length i).2.2 w hw
      have := charLenAt_le hw
      omega
    obtain ⟨hle, hrun⟩ := invalidLen_spec hv hnone
    have hchars := length_charsFrom_slice (scans_validUpTo b b.length i) (Nat.le_refl i) hv.le
    have hbytes := length_units_invalid hle hrun
    have hslice := slice_length (Nat.le_add_right v (invalidLen b v)) hle
    rw [Nat.sub_self] at hchars
    rw [utf8Chunks, dif_pos hv, List.map_cons, List.sum_cons, ih hle, ← hchars, hbytes, hslice,
      Nat.add_sub_cancel_left, Nat.add_assoc]
  | case2 i hv hlt =>
    have hend : validUpTo b b.length i = b.length :=
      Nat.le_antisymm (validUpTo_le hi) (Nat.not_lt.mp hv)
    have hscans := scans_validUpTo b b.length i
    rw [hend] at hscans
    have hchars := length_charsFrom_slice hscans (Nat.le_refl i) (Nat.le_refl _)
    rw [Nat.sub_self, units_ge (Nat.le_refl _)] at hchars
    rw [utf8Chunks, dif_neg hv, if_pos hlt, ← hchars]
    simp
  | case3 i hv hge =>
    rw [utf8Chunks, dif_neg hv, if_neg hge, units_ge (Nat.not_lt.mp hge)]
    rfl

/-- A character of the bytes up to `pos` is one of the text that ends by `pos`. -/
theorem charLenAt_slice_eq (i : Nat) (hpos : pos ≤ b.length) (hstart : start + i ≤ pos) :
    charLenAt (slice b start pos) i =
      (charLenAt b (start + i)).filter fun w => decide (start + i + w ≤ pos) := by
  have hlen := slice_length (Nat.le_trans (Nat.le_add_right start i) hstart) hpos
  cases hc : charLenAt (slice b start pos) i with
  | some w =>
    have hend := charLenAt_le hc
    have hsame : charLenAt b (start + i) = some w := charLenAt_same hc fun k hk => by
      rw [slice, List.getElem?_take_of_lt (by omega), List.getElem?_drop, Nat.add_assoc]
    rw [hsame, Option.filter_some, if_pos (by simp; omega)]
  | none =>
    cases hb : charLenAt b (start + i) with
    | none => rfl
    | some w =>
      rw [Option.filter_some]
      split
      · rename_i hle
        have hin := charLenAt_slice hb (Nat.le_add_right start i) (by simpa using hle)
        rw [Nat.add_sub_cancel_left, hc] at hin
        cases hin
      · rfl

/-- The chunk rule counts what `colFrom` counts. -/
theorem colFrom_eq (hpos : pos ≤ b.length) (left : Nat) (hi : start + i ≤ pos)
    (hleft : pos ≤ start + i + left) :
    colFrom b pos left (start + i) = (units (slice b start pos) i).length := by
  have hlen := slice_length (Nat.le_trans (Nat.le_add_right start i) hi) hpos
  induction left generalizing i with
  | zero => rw [colFrom, units_ge (by omega), List.length_nil]
  | succ left ih =>
    rw [colFrom]
    split
    · rename_i hlt
      have hunit : unitLen (slice b start pos) i =
          ((charLenAt b (start + i)).filter fun w => decide (start + i + w ≤ pos)).getD 1 := by
        rw [unitLen, charLenAt_slice_eq i hpos hi]
      have hin : i < (slice b start pos).length := by omega
      have hstep := unitLen_pos (slice b start pos) i
      have hend := unitLen_le hin
      have hrest := ih (i := i + unitLen (slice b start pos) i) (by omega) (by omega)
      rw [units_lt hin, List.length_cons, ← hrest, ← Nat.add_assoc, hunit]
    · rename_i hge
      rw [units_ge (by omega), List.length_nil]

theorem colOfChunks_eq (hle : start ≤ pos) (hpos : pos ≤ b.length) :
    colOfChunks b start pos = colOf b start pos := by
  have hcol := @colFrom_eq 0 pos start _ hpos (pos - start) (by omega) (by omega)
  rw [Nat.add_zero] at hcol
  rw [colOfChunks, sum_chunks (Nat.zero_le _), colOf, hcol]

/-- On the way to a boundary `at_col` steps the units `col_of` counts. -/
theorem atColFrom_colFrom {stop : Nat} (hstop : pos ≤ stop) (hlen : pos ≤ b.length)
    (hpos : isBoundary b pos = true) (left : Nat) (hi : i ≤ pos) (hb : isBoundary b i = true)
    (hleft : pos ≤ i + left) :
    atColFrom b stop (colFrom b pos left i) i = pos := by
  induction left generalizing i with
  | zero =>
    rw [colFrom, atColFrom]
    omega
  | succ left ih =>
    rw [colFrom]
    split
    · rename_i hlt
      have hnext := nextBoundary_unit hb (by omega)
      have hstep := unitLen_pos b i
      have hle : nextBoundary b i ≤ pos := (nextBoundary_least (by omega)).2 ⟨hlt, hpos⟩
      have hunit : ((charLenAt b i).filter fun w => decide (i + w ≤ pos)).getD 1 = unitLen b i := by
        unfold unitLen at hnext ⊢
        cases hc : charLenAt b i with
        | none => rfl
        | some w =>
          rw [hc, Option.getD_some] at hnext
          rw [Option.filter_some, if_pos (by simp; omega)]
      rw [hunit, ← hnext, atColFrom, if_neg (by omega)]
      exact ih hle (isBoundary_nextBoundary b i) (by omega)
    · rename_i hge
      rw [atColFrom]
      omega

theorem isBoundary_lineStart {ls : Nat} (h : StartsLine b ls) : isBoundary b ls = true := by
  rcases h with hzero | hnl
  · rw [hzero]
    rfl
  · by_contra hnot
    have hin : insideChar b ls = true := by
      by_contra hout
      exact hnot (isBoundary_of_not_inside hout)
    obtain ⟨hpos, -, -, j, w, -, hj, hlead, -, hw, hover⟩ := insideChar_iff.mp hin
    obtain ⟨hfirst, -, hrest, -⟩ := charLenAt_carried hw (by omega)
    rcases Nat.lt_or_ge j (ls - 1) with hlt | hge
    · exact hrest (ls - 1) hlt (by omega) hnl
    · rw [show j = ls - 1 by omega] at hfirst
      exact hfirst hnl

theorem atCol_colOfChunks {ls : Nat} (hls : StartsLine b ls) (hle : ls ≤ pos)
    (hend : pos ≤ lineEnd b ls) (hb : isBoundary b pos = true) :
    atCol b ls (colOfChunks b ls pos) = pos := by
  have hlen := Nat.le_trans hend (lineEnd_le_length b ls)
  rw [colOfChunks_eq hle hlen]
  exact atColFrom_colFrom hend hlen hb _ hle (isBoundary_lineStart hls) (by omega)

end

/-- The steppers agree on any bytes: forward from the start and backward from the end
visit the boundaries and undo each other, `snap` finds the one at or before a place, and
the column of a place on its line leads back to it. -/
theorem steppers_agree (b : Bytes) :
    (∀ p, (∃ n, (nextBoundary b)^[n] 0 = p) ↔ p ≤ b.length ∧ isBoundary b p = true) ∧
    (∀ p, (∃ n, (prevBoundary b)^[n] b.length = p) ↔ p ≤ b.length ∧ isBoundary b p = true) ∧
    (∀ p < b.length, isBoundary b p = true → prevBoundary b (nextBoundary b p) = p) ∧
    (∀ p ≤ b.length, 0 < p → isBoundary b p = true → nextBoundary b (prevBoundary b p) = p) ∧
    (∀ pos, IsGreatest {p | p ≤ b.length ∧ p ≤ pos ∧ isBoundary b p = true} (snap b pos) ∧
      snap b (snap b pos) = snap b pos) ∧
    ∀ ls pos, StartsLine b ls → ls ≤ pos → pos ≤ lineEnd b ls → isBoundary b pos = true →
      atCol b ls (colOfChunks b ls pos) = pos := by
  refine ⟨nextBoundary_visits, prevBoundary_visits, ?_, ?_, ?_, ?_⟩
  · intro p hp hb
    exact prevBoundary_nextBoundary hp hb
  · intro p hp hpos hb
    exact nextBoundary_prevBoundary hpos hp hb
  · intro pos
    have hgreatest := snap_greatest (b := b) pos
    exact ⟨hgreatest, snap_of_isBoundary hgreatest.1.1 hgreatest.1.2.2⟩
  · intro ls pos hls hle hend hb
    exact atCol_colOfChunks hls hle hend hb

end Ruse.Core
