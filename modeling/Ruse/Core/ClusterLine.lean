import Ruse.Core.Steppers

/-!
# A cluster step moves, and stays on its line

What the walks built on `Steps::next` and `Steps::prev` rest on: from a place before the
end a step forward gets past it, from a place after the start a step back gets before it
(`nextGrapheme_gt`, `prevGrapheme_lt`), and neither goes over a line break unless it
starts there (`nextGrapheme_le_lineEnd`, `lineStart_le_prevGrapheme`).

The crate is asked for one thing more than that its answers are boundaries: that they lie
on the side they were asked for (`Segmenter.Advances`).
-/

namespace Ruse.Core

/-- A cursor's answer is past the cursor, or before it. -/
structure Segmenter.Advances (g : Segmenter) : Prop where
  forward {offset len chunkStart r : Nat} {chunk : Bytes} :
    g.nextBoundary offset len chunk chunkStart = .boundary r → offset < r
  backward {offset len chunkStart r : Nat} {chunk : Bytes} :
    g.prevBoundary offset len chunk chunkStart = .boundary r → r < offset

/-! ## The run lies on the line -/

section
variable {b : Bytes} {pos : Nat}

/-- The window starts on the line, up to `pos`. -/
theorem windowStart_line (limit : Nat) (hpos : pos ≤ b.length) :
    lineStart b pos ≤ (windowStart b pos limit).1 ∧ (windowStart b pos limit).1 ≤ pos := by
  obtain ⟨hstart, hno⟩ := lineStart_spec b pos
  have hle := lineStart_le b pos
  unfold windowStart
  dsimp only
  split
  · rename_i i hi
    obtain ⟨hnl, hlo, hlt, habove⟩ := (find?_reverse_range' _ _ _ _).mp hi
    refine ⟨?_, by omega⟩
    have heq : lineStart b pos = i + 1 := by
      refine lineStart_eq (by omega) (.inr (by simpa using hnl)) fun k hk hkp hk' => ?_
      have := habove k (by omega) (by omega)
      simp [hk'] at this
    omega
  · rename_i hnone
    have hlo : lineStart b pos ≤ pos - limit := by
      rcases hstart with hzero | hnl
      · omega
      · by_contra hgt
        have := List.find?_eq_none.mp hnone (lineStart b pos - 1) (by
          rw [List.mem_reverse, List.mem_range'_1]
          omega)
        simp [hnl] at this
    split
    · exact ⟨hlo, Nat.sub_le _ _⟩
    · have hlen := (List.takeWhile_sublist (l := slice b (pos - limit) pos)
        isContinuation).length_le
      rw [slice_length (Nat.sub_le _ _) hpos] at hlen
      exact ⟨by omega, by dsimp only; omega⟩

/-- The window ahead stays on the line. -/
theorem windowEnd_line (limit : Nat) (hpos : pos ≤ b.length) :
    (windowEnd b pos limit).1 ≤ lineEnd b pos := by
  obtain ⟨hend, hno⟩ := lineEnd_spec hpos
  have hle := le_lineEnd b hpos
  unfold windowEnd
  dsimp only
  split
  · rename_i i hi
    obtain ⟨hlt, -, hbefore⟩ := List.findIdx?_eq_some_iff_getElem.mp hi
    rcases Nat.lt_or_ge (lineEnd b pos) (pos + i) with hpast | hin
    · -- a newline before the one found
      have hcount := slice_length (Nat.le_min.mpr ⟨Nat.le_add_right pos limit, hpos⟩)
        (Nat.min_le_right (pos + limit) b.length)
      have := hbefore (lineEnd b pos - pos) (by omega)
      have hget : (slice b pos (min (pos + limit) b.length))[lineEnd b pos - pos]? = some newline := by
        rw [slice, List.getElem?_take_of_lt (by omega), List.getElem?_drop,
          show pos + (lineEnd b pos - pos) = lineEnd b pos by omega]
        rcases hend with heq | hnl
        · omega
        · exact hnl
      rw [(List.getElem?_eq_some_iff.mp hget).2] at this
      simp at this
    · exact hin
  · rename_i hnone
    by_contra hgt
    rcases hend with heq | hnl
    · omega
    · have hmem : newline ∈ slice b pos (min (pos + limit) b.length) := by
        refine List.mem_of_getElem? (i := lineEnd b pos - pos) ?_
        rw [slice, List.getElem?_take_of_lt (by omega), List.getElem?_drop,
          show pos + (lineEnd b pos - pos) = lineEnd b pos by omega]
        exact hnl
      have := List.findIdx?_eq_none_iff.mp hnone newline hmem
      simp at this

/-- The run found lies in the window. -/
theorem utf8RunFrom_within {e : Nat} (endKnown : Bool) (c : Nat) (startKnown : Bool)
    (hce : c ≤ e) : c ≤ (utf8RunFrom b pos e endKnown c startKnown).start ∧
      (utf8RunFrom b pos e endKnown c startKnown).stop ≤ e := by
  induction c, startKnown using utf8RunFrom.induct b pos e endKnown with
  | case1 c startKnown hall =>
    rw [utf8RunFrom, if_pos hall]
    exact ⟨Nat.le_refl _, Nat.le_refl _⟩
  | case2 c startKnown hfault bad hpos =>
    rw [utf8RunFrom, if_neg hfault, if_pos hpos]
    exact ⟨Nat.le_refl _, validUpTo_le hce⟩
  | case3 c startKnown hfault bad hpos ih =>
    have hscan := (scans_validUpTo b e c).le
    have hend : bad + (errorLen b e bad).getD (e - bad) ≤ e := by
      unfold errorLen
      repeat' split
      all_goals simp only [Option.getD_some, Option.getD_none]; omega
    rw [utf8RunFrom, if_neg hfault, if_neg hpos]
    obtain ⟨hstart, hstop⟩ := ih hend
    exact ⟨Nat.le_trans (Nat.le_trans hscan (Nat.le_add_right _ _)) hstart, hstop⟩

theorem utf8Run_line {q limit : Nat} (h : Edge b pos q) (hlimit : 0 < limit) :
    lineStart b pos ≤ (utf8Run b pos limit).start ∧
      (utf8Run b pos limit).stop ≤ lineEnd b pos := by
  obtain ⟨hstart, hle⟩ := windowStart_line (b := b) limit h.inside
  have hend := windowEnd_line (b := b) limit h.inside
  have hpos := (h.windowEnd_spec hlimit).1
  obtain ⟨hlow, hhigh⟩ := @utf8RunFrom_within b pos _ (windowEnd b pos limit).2
    (windowStart b pos limit).1 (windowStart b pos limit).2 (Nat.le_trans hle hpos)
  exact ⟨Nat.le_trans hstart hlow, Nat.le_trans hhigh hend⟩

/-! ## The steps by characters -/

theorem isBoundary_newline {i : Nat} (h : b[i]? = some newline) : isBoundary b i = true := by
  refine isBoundary_of_not_inside fun hin => ?_
  obtain ⟨-, -, hcont, -⟩ := insideChar_iff.mp hin
  rw [List.getD_eq_getElem?_getD, h, Option.getD_some] at hcont
  cases hcont

theorem isBoundary_lineEnd (hpos : pos ≤ b.length) : isBoundary b (lineEnd b pos) = true := by
  rcases (lineEnd_spec hpos).1 with heq | hnl
  · rw [heq]
    exact isBoundary_length b
  · exact isBoundary_newline hnl

theorem lt_lineEnd (hlt : pos < b.length) (hnl : b[pos]? ≠ some newline) : pos < lineEnd b pos := by
  have hle := le_lineEnd b (Nat.le_of_lt hlt)
  rcases (lineEnd_spec (Nat.le_of_lt hlt)).1 with heq | hat
  · omega
  · by_contra hge
    rw [show lineEnd b pos = pos by omega] at hat
    exact hnl hat

theorem nextBoundary_line (hlt : pos < b.length) (hnl : b[pos]? ≠ some newline) :
    pos < nextBoundary b pos ∧ nextBoundary b pos ≤ lineEnd b pos := by
  obtain ⟨hmem, hleast⟩ := nextBoundary_least hlt
  exact ⟨hmem.1, hleast ⟨lt_lineEnd hlt hnl, isBoundary_lineEnd (Nat.le_of_lt hlt)⟩⟩

theorem prevBoundary_line (hpos : 0 < pos) (hle : pos ≤ b.length) (hnl : b[pos - 1]? ≠ some newline) :
    lineStart b pos ≤ prevBoundary b pos ∧ prevBoundary b pos < pos := by
  obtain ⟨hmem, hgreatest⟩ := prevBoundary_greatest hpos hle
  obtain ⟨hstart, hno⟩ := lineStart_spec b pos
  have hlt : lineStart b pos < pos := by
    have := lineStart_le b pos
    by_contra hge
    rw [show lineStart b pos = pos by omega] at hstart
    rcases hstart with hzero | hnl'
    · omega
    · exact hnl hnl'
  exact ⟨hgreatest ⟨hlt, isBoundary_lineStart hstart⟩, hmem.1⟩

theorem charStep_line {forward : Bool} (hfwd : forward = true → pos < b.length ∧ b[pos]? ≠ some newline)
    (hbwd : forward = false → 0 < pos ∧ pos ≤ b.length ∧ b[pos - 1]? ≠ some newline) :
    (forward = true → pos < charStep b pos forward ∧ charStep b pos forward ≤ lineEnd b pos) ∧
    (forward = false → lineStart b pos ≤ charStep b pos forward ∧ charStep b pos forward < pos) := by
  cases forward with
  | true =>
    obtain ⟨hlt, hnl⟩ := hfwd rfl
    exact ⟨fun _ => nextBoundary_line hlt hnl, fun h => by cases h⟩
  | false =>
    obtain ⟨hpos, hle, hnl⟩ := hbwd rfl
    exact ⟨fun h => (by cases h), fun _ => prevBoundary_line hpos hle hnl⟩

theorem char_line {w : Nat} (hw : charLenAt b pos = some w) (hnl : b[pos]? ≠ some newline) :
    pos + w ≤ lineEnd b pos := by
  have hle := charLenAt_le hw
  have hposw := charLenAt_pos hw
  have hlt := @lt_lineEnd b pos (by omega) hnl
  by_contra hgt
  rcases (lineEnd_spec (b := b) (p := pos) (by omega)).1 with heq | hat
  · omega
  · exact (charLenAt_carried hw (by omega)).2.2.1 _ hlt (by omega) hat

end

/-! ## The step by clusters -/

section
variable {g : Segmenter} (hg : g.Documented) (hadv : g.Advances) {b : Bytes} {pos q : Nat}
include hg hadv

/-- What one round of `cluster_step` answers. -/
theorem clusterAsk_line (h : Edge b pos q) {forward : Bool} {limit r : Nat} (hlimit : 0 < limit)
    (hq : pos ≤ q + limit) (hr : clusterAsk g b pos forward limit = .boundary r) :
    (forward = true → pos < r ∧ r ≤ lineEnd b pos) ∧
    (forward = false → lineStart b pos ≤ r ∧ r < pos) := by
  have hrun := utf8Run_holds h hlimit hq
  obtain ⟨hlow, hhigh⟩ := utf8Run_line h hlimit
  have hstop := hrun.after.le_length h.inside
  have hscan := hrun.before.trans hrun.after
  unfold clusterAsk at hr
  dsimp only at hr
  split at hr
  · rename_i offset hanswer
    cases hr
    have hat := hrun.before.slice (e := (utf8Run b pos limit).stop) (Nat.le_refl _) hrun.after.le
    rw [Nat.sub_self] at hat
    have hvalid := hscan.validUtf8 hstop
    obtain ⟨hbase, hbound⟩ := hg hvalid (Nat.le_add_right _ _) (by
      rw [Nat.add_sub_cancel_left]
      exact hvalid.boundary_of_scans (.inl rfl) hat) hanswer
    have hlen := hbound.le
    rw [slice_length hscan.le hstop] at hlen
    refine ⟨?_, ?_⟩
    · intro hfwd
      rw [hfwd] at hanswer
      have := hadv.forward hanswer
      omega
    · intro hbwd
      rw [hbwd] at hanswer
      have := hadv.backward hanswer
      omega
  · rename_i hanswer
    rw [hr] at hanswer
    exact absurd rfl (hanswer r)

/-- A step by cluster goes on, and does not leave the line. -/
theorem clusterStep_line (h : Edge b pos q) {forward : Bool}
    (hfwd : forward = true → pos < b.length ∧ b[pos]? ≠ some newline)
    (hbwd : forward = false → 0 < pos ∧ pos ≤ b.length ∧ b[pos - 1]? ≠ some newline) :
    (forward = true → pos < clusterStep g b pos forward ∧ clusterStep g b pos forward ≤ lineEnd b pos) ∧
    (forward = false → lineStart b pos ≤ clusterStep g b pos forward ∧ clusterStep g b pos forward < pos) := by
  have hchar := charStep_line hfwd hbwd
  have hq : pos ≤ q + stepWindow := by
    rcases h.char with ⟨heq, -, -⟩ | ⟨hw, -⟩
    · omega
    · have := (charLenAt_spec hw).2.1
      simp only [stepWindow]
      omega
  unfold clusterStep
  have hlimit : 0 < stepWindow := by decide
  revert hlimit hq
  generalize stepWindow = limit
  intro hq hlimit
  induction limit using clusterLoop.induct g b pos forward with
  | case1 limit r hr =>
    rw [clusterLoop, hr]
    exact clusterAsk_line hg hadv h hlimit hq hr
  | case2 limit hr =>
    rw [clusterLoop, hr]
    exact hchar
  | case3 limit hr hknown =>
    rw [clusterLoop, hr]
    rw [if_pos hknown]
    exact hchar
  | case4 limit hr hknown hmore ih =>
    rw [clusterLoop, hr]
    rw [if_neg hknown, if_pos hmore]
    exact ih (by omega) (by omega)
  | case5 limit hr hknown hmore =>
    rw [clusterLoop, hr]
    rw [if_neg hknown, if_neg hmore]
    exact hchar

/-- `Steps::next` on a line: past the place, up to the line's end. -/
theorem nextGrapheme_line (hlt : pos < b.length) (hnl : b[pos]? ≠ some newline) :
    pos < nextGrapheme g b pos ∧ nextGrapheme g b pos ≤ lineEnd b pos := by
  have hend := lt_lineEnd hlt hnl
  unfold nextGrapheme
  split
  · exact ⟨Nat.lt_succ_self _, hend⟩
  · split
    · exact nextBoundary_line hlt hnl
    · rename_i hout
      simp only [ge_iff_le, not_or, Nat.not_le] at hout
      split
      · exact ⟨Nat.lt_succ_self _, hend⟩
      · rename_i w hw
        have hafter : pos < pos + w ∧ pos + w ≤ lineEnd b pos := by
          have := charLenAt_pos hw
          exact ⟨by omega, char_line hw hnl⟩
        split
        · exact hafter
        · split
          · exact hafter
          · split
            · exact hafter
            · have hedge : Edge b pos pos := ⟨(charLenAt_spec hw).2.2.2.1, Nat.le_refl pos,
                Nat.le_of_lt hlt, .inl ⟨rfl, hlt, hnl⟩⟩
              exact (clusterStep_line hg hadv hedge (fun _ : true = true => ⟨hlt, hnl⟩)
                fun h => by cases h).1 rfl

/-- `Steps::prev` on a line: before the place, down to the line's start. -/
theorem prevGrapheme_line (hpos : 0 < pos) (hle : pos ≤ b.length)
    (hnl : b[pos - 1]? ≠ some newline) :
    lineStart b pos ≤ prevGrapheme g b pos ∧ prevGrapheme g b pos < pos := by
  obtain ⟨hprev, hback⟩ := prevBoundary_line hpos hle hnl
  unfold prevGrapheme
  split
  · exact ⟨by omega, by omega⟩
  · rw [Nat.min_eq_left hle]
    dsimp only
    split
    · exact ⟨hprev, hback⟩
    · rename_i hout
      simp only [not_or] at hout
      obtain ⟨-, -, hin⟩ := hout
      split
      · exact ⟨hprev, hback⟩
      · rename_i hsome
        obtain ⟨w, hw⟩ := Option.ne_none_iff_exists'.mp hsome
        have hedge := edge_prevBoundary hpos hle hin hnl hw
        split
        · exact ⟨hprev, hback⟩
        · split
          · rename_i r hr
            obtain ⟨start, hstart, hr⟩ := Option.bind_eq_some_iff.mp hr
            obtain ⟨k, hk, rfl⟩ := Option.map_eq_some_iff.mp hr
            have hscan := (decidedFrom_scans hstart).trans hedge.scans
            have hlen := slice_length hscan.le hle
            refine ⟨?_, ?_⟩
            · -- where the text that decides starts is on the line
              unfold decidedFrom at hstart
              split at hstart
              · cases hstart
                omega
              · rename_i hbol
                split at hstart
                · cases hstart
                  have hne : lineStart b pos ≠ prevBoundary b pos := by
                    intro heq
                    refine hbol (.inl ?_)
                    rw [← heq, atBol]
                    have hlow := lineStart_le_length b pos
                    rcases (lineStart_spec b pos).1 with hzero | hnl'
                    · simp [hzero]
                    · simp [hnl', hlow]
                  omega
                · cases hstart
            · unfold Segmenter.alone at hk
              split at hk
              · split at hk
                · rename_i answer hanswer
                  cases hk
                  have hlt : k < (slice b start pos).length := hadv.backward hanswer
                  omega
                · cases hk
              · cases hk
          · exact (clusterStep_line hg hadv hedge (fun h : false = true => by cases h)
              fun _ => ⟨hpos, hle, hnl⟩).2 rfl

end

/-- Every character a cluster of its own; at the edge of its chunk the cursor asks for
more. -/
def Segmenter.eachChar : Segmenter where
  nextBoundary offset len chunk chunkStart :=
    if offset = len then .nowhere
    else if chunkStart + chunk.length ≤ offset then .incomplete
    else .boundary (chunkStart + charStep chunk (offset - chunkStart) true)
  prevBoundary offset _ chunk chunkStart :=
    if offset = 0 then .nowhere
    else if offset ≤ chunkStart then .incomplete
    else .boundary (chunkStart + charStep chunk (offset - chunkStart) false)

theorem Segmenter.eachChar_documented : eachChar.Documented := by
  intro forward offset len chunkStart r chunk hvalid hstart hoffset hanswer
  have hr : ∃ k, r = chunkStart + charStep chunk k forward := by
    cases forward with
    | true =>
      simp only [ask, eachChar, if_true] at hanswer
      split_ifs at hanswer
      exact ⟨_, (Answer.boundary.inj hanswer).symm⟩
    | false =>
      simp only [ask, eachChar, Bool.false_eq_true, if_false] at hanswer
      split_ifs at hanswer
      exact ⟨_, (Answer.boundary.inj hanswer).symm⟩
  obtain ⟨k, rfl⟩ := hr
  refine ⟨Nat.le_add_right _ _, ?_⟩
  rw [Nat.add_sub_cancel_left]
  exact (charStep_inText chunk k forward).2 hvalid

/-- A segmenter that breaks at each character answers past the cursor, or before it. -/
theorem Segmenter.eachChar_advances : eachChar.Advances where
  forward := by
    intro offset len chunkStart r chunk hanswer
    simp only [eachChar] at hanswer
    split_ifs at hanswer with hend hedge
    obtain rfl := Answer.boundary.inj hanswer
    change offset < chunkStart + Core.nextBoundary chunk (offset - chunkStart)
    rcases Nat.lt_or_ge offset chunkStart with hbefore | hat
    · omega
    · have hlt := (nextBoundary_least (b := chunk) (p := offset - chunkStart) (by omega)).1.1
      omega
  backward := by
    intro offset len chunkStart r chunk hanswer
    simp only [eachChar] at hanswer
    split_ifs at hanswer with hzero hedge
    obtain rfl := Answer.boundary.inj hanswer
    change chunkStart + Core.prevBoundary chunk (offset - chunkStart) < offset
    have hlt : Core.prevBoundary chunk (offset - chunkStart) < offset - chunkStart := by
      unfold Core.prevBoundary
      have hle := boundaryBelow_le chunk (min (offset - chunkStart) chunk.length)
      rcases Nat.eq_zero_or_pos (min (offset - chunkStart) chunk.length) with hnone | hsome
      · omega
      · have := boundaryBelow_lt chunk hsome
        omega
    omega

end Ruse.Core
