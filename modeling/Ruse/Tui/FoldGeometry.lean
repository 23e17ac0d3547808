import Ruse.Tui.Folds

/-!
# Fold geometry

What the painter, the relative numbers and `j` and `k` read of a set of folds, compared with
one another: the hidden lines of a range counted without walking it, the lines a closed
range hides, the display rows, and a step down undone by a step up.
-/

namespace Ruse.Tui

open Ruse.Lib

variable {folds : List Fold} {f : Fold} {line a b d last : Nat}

/-- What the helpers over a set of folds are to agree on, for a range, a line and the last
line of the buffer. -/
structure GeometryAgrees (folds : List Fold) (a b line last : Nat) : Prop where
  between : hiddenBetween folds a b = {l ∈ Finset.Ico a b | hidden folds l = true}.card
  range : hidden folds line = true ↔ ∃ r, closedRange folds line = some r ∧ line ≠ r.1
  row : hidden folds line = false →
    visibleRow folds line = {l ∈ Finset.range line | hidden folds l = false}.card
  hiddenRow : hidden folds line = true → visibleRow folds line = visibleRow folds (snapOut folds line)
  downUp : hidden folds line = false →
    ∀ d, lineDown folds line 1 last = some d → lineUp folds d 1 = some line

/-! ## Counting the hidden lines -/

theorem pairLe_trans (p q r : Nat × Nat) : pairLe p q = true → pairLe q r = true →
    pairLe p r = true := by
  simp only [pairLe, Bool.or_eq_true, Bool.and_eq_true, decide_eq_true_eq, beq_iff_eq]
  omega

theorem pairLe_total (p q : Nat × Nat) : (pairLe p q || pairLe q p) = true := by
  simp only [pairLe, Bool.or_eq_true, Bool.and_eq_true, decide_eq_true_eq, beq_iff_eq]
  omega

/-- The spans of the closed folds, cut to a range, counted once where they overlap: the
hidden lines of the range. -/
theorem hiddenBetween_eq (folds : List Fold) (a b : Nat) :
    hiddenBetween folds a b = {l ∈ Finset.Ico a b | hidden folds l = true}.card := by
  let closed := folds.filter fun f => f.closed && f.start < f.stop
  let cut := closed.map fun f => (max (f.start + 1) a, min (f.stop + 1) b)
  let spans := (cut.filter fun s => s.1 < s.2).mergeSort pairLe
  have hmem (s : Nat × Nat) : s ∈ spans ↔ ∃ f ∈ folds, (f.closed = true ∧ f.start < f.stop) ∧
      s = (max (f.start + 1) a, min (f.stop + 1) b) ∧ s.1 < s.2 := by
    simp only [spans, cut, closed, List.mem_mergeSort, List.mem_filter, List.mem_map,
      Bool.and_eq_true, decide_eq_true_eq]
    constructor
    · rintro ⟨⟨f, ⟨hf, hc⟩, rfl⟩, hlt⟩
      exact ⟨f, hf, hc, rfl, hlt⟩
    · rintro ⟨f, hf, hc, rfl, hlt⟩
      exact ⟨⟨f, ⟨hf, hc⟩, rfl⟩, hlt⟩
  have hsort : spans.Pairwise fun s t => s.1 ≤ t.1 := by
    refine (List.pairwise_mergeSort pairLe_trans pairLe_total _).imp ?_
    intro p q hpq
    simp only [pairLe, Bool.or_eq_true, Bool.and_eq_true, decide_eq_true_eq, beq_iff_eq] at hpq
    omega
  have hb : ∀ s ∈ spans, s.2 ≤ b := by
    intro s hs
    obtain ⟨f, _, _, rfl, _⟩ := (hmem s).mp hs
    exact Nat.min_le_right _ _
  have hcount : hiddenBetween folds a b = 0 + (under spans a b).card := foldl_sweep 0 a hsort hb
  have hunder : under spans a b = {l ∈ Finset.Ico a b | hidden folds l = true} := by
    ext l
    simp only [under, Finset.mem_filter, Finset.mem_Ico, hidden_iff]
    constructor
    · rintro ⟨hl, s, hs, hsl⟩
      obtain ⟨f, hf, hc, rfl, _⟩ := (hmem s).mp hs
      exact ⟨hl, f, hf, hc.1, by omega, by omega⟩
    · rintro ⟨hl, f, hf, hc, hstart, hstop⟩
      refine ⟨hl, (max (f.start + 1) a, min (f.stop + 1) b), ?_, ?_⟩
      · exact (hmem _).mpr ⟨f, hf, ⟨hc, by omega⟩, rfl, by simp only; omega⟩
      · simp only
        omega
  rw [hcount, hunder, Nat.zero_add]

theorem hiddenBefore_eq (folds : List Fold) (line : Nat) :
    hiddenBefore folds line = {l ∈ Finset.range line | hidden folds l = true}.card := by
  rw [hiddenBefore, ← List.toFinset_card_of_nodup (List.nodup_range.filter _)]
  congr 1
  ext l
  simp

theorem visibleRow_eq (folds : List Fold) (line : Nat) :
    visibleRow folds line = {l ∈ Finset.range line | hidden folds l = false}.card := by
  have hsum := Finset.card_filter_add_card_filter_not (s := Finset.range line)
    fun l => hidden folds l = true
  simp only [Bool.not_eq_true, Finset.card_range] at hsum
  rw [visibleRow, hiddenBefore_eq]
  omega

/-! ## The closed range of a line -/

/-- A line is hidden when it is in its closed range and not the first line of it. -/
theorem hidden_iff_closedRange (h : WellNested folds) :
    hidden folds line = true ↔ ∃ r, closedRange folds line = some r ∧ line ≠ r.1 := by
  rw [hidden_iff]
  constructor
  · rintro ⟨g, hg, hclosed, hstart, hstop⟩
    rcases closedRange_spec h line with ⟨_, hnone⟩ | ⟨f, hf, out⟩
    · exact absurd ⟨hstart.le, hstop⟩ (hnone g hg hclosed (by omega))
    · have hin := out.widest g hg hclosed (by omega) ⟨hstart.le, hstop⟩
      refine ⟨_, hf, ?_⟩
      have := hin.1
      simp only
      omega
  · rintro ⟨r, hr, hne⟩
    rcases closedRange_spec h line with ⟨hnone, _⟩ | ⟨f, hf, out⟩
    · simp [hnone] at hr
    · rw [hf, Option.some.injEq] at hr
      subst hr
      have := out.holds.1
      exact ⟨f, out.mem, out.closed, by simp only at hne; omega, out.holds.2⟩

/-- A line that is not hidden is the first line of its closed range, or in none. -/
theorem closedRange_of_not_hidden (h : WellNested folds) (hv : hidden folds line = false) :
    (closedRange folds line = none ∧
        ∀ f ∈ folds, f.closed = true → f.start < f.stop → ¬ f.toSpan.Holds line) ∨
      ∃ f, closedRange folds line = some (line, f.stop) ∧ f.start = line ∧ Outermost folds line f := by
  rcases closedRange_spec h line with hnone | ⟨f, hf, out⟩
  · exact .inl hnone
  · have hstart : f.start = line := by
      by_contra hne
      have : hidden folds line = true :=
        (hidden_iff_closedRange h).mpr ⟨_, hf, fun heq => hne heq.symm⟩
      rw [hv] at this
      simp at this
    exact .inr ⟨f, by rw [hf, hstart], hstart, out⟩

theorem snapOut_of_not_hidden (h : WellNested folds) (hv : hidden folds line = false) :
    snapOut folds line = line := by
  rcases closedRange_of_not_hidden h hv with ⟨hnone, _⟩ | ⟨f, hf, _, _⟩
  · simp [snapOut, hnone]
  · simp [snapOut, hf]

theorem Outermost.hidden_eq (out : Outermost folds line f) (hl : f.start < d ∧ d ≤ f.stop) :
    hidden folds d = true :=
  hidden_iff.mpr ⟨f, out.mem, out.closed, hl.1, hl.2⟩

theorem Outermost.start_visible (h : WellNested folds) (out : Outermost folds line f) :
    hidden folds f.start = false := by
  rw [Bool.eq_false_iff]
  intro hh
  obtain ⟨g, hg, hclosed, hstart, hstop⟩ := hidden_iff.mp hh
  -- a fold that hides the first line holds the whole range, and so the line
  have hfs : f.toSpan.Holds f.start := ⟨le_rfl, h.ordered f out.mem⟩
  rcases (h.nests g hg f out.mem).inside ⟨hstart.le, hstop⟩ hfs with hin | hin
  · have := hin.1
    omega
  · have := (out.widest g hg hclosed (by omega) (hin.holds out.holds)).1
    omega

/-! ## A hidden line's row -/

/-- A hidden line is one row below the fold it is in. -/
theorem visibleRow_hidden (h : WellNested folds) (hh : hidden folds line = true) :
    visibleRow folds line = visibleRow folds (snapOut folds line) + 1 := by
  obtain ⟨r, hr, hne⟩ := (hidden_iff_closedRange h).mp hh
  rcases closedRange_spec h line with ⟨hnone, _⟩ | ⟨f, hf, out⟩
  · simp [hnone] at hr
  · rw [hf, Option.some.injEq] at hr
    subst hr
    have hlt : f.start < line := lt_of_le_of_ne out.holds.1 fun heq => hne heq.symm
    have hsnap : snapOut folds line = f.start := by simp [snapOut, hf]
    -- of the lines above it from the fold's first on only that one is not hidden
    have hrows : {l ∈ Finset.range line | hidden folds l = false} =
        insert f.start {l ∈ Finset.range f.start | hidden folds l = false} := by
      ext l
      simp only [Finset.mem_filter, Finset.mem_range, Finset.mem_insert]
      constructor
      · rintro ⟨hl, hv⟩
        by_cases hin : f.start < l
        · have := out.hidden_eq ⟨hin, hl.le.trans out.holds.2⟩
          rw [hv] at this
          simp at this
        · by_cases heq : l = f.start
          · exact .inl heq
          · exact .inr ⟨by omega, hv⟩
      · rintro (rfl | ⟨hl, hv⟩)
        · exact ⟨hlt, out.start_visible h⟩
        · exact ⟨by omega, hv⟩
    rw [hsnap, visibleRow_eq, visibleRow_eq, hrows, Finset.card_insert_of_notMem (by simp)]

/-! ## Down and up -/

theorem closedRange_closedEnd (h : WellNested folds) (line : Nat) :
    closedRange folds (closedEnd folds line) = closedRange folds line := by
  rcases closedRange_spec h line with ⟨hnone, _⟩ | ⟨f, hf, out⟩
  · simp [closedEnd, hnone]
  · have hend : closedEnd folds line = f.stop := by simp [closedEnd, hf]
    have hlast : f.toSpan.Holds f.stop := ⟨h.ordered f out.mem, le_rfl⟩
    rcases closedRange_spec h f.stop with ⟨_, hno⟩ | ⟨g, hg, out'⟩
    · exact absurd hlast (hno f out.mem out.closed out.wide)
    · have hfg := out'.widest f out.mem out.closed out.wide hlast
      have hgf := out.widest g out'.mem out'.closed out'.wide (hfg.holds out.holds)
      have hstart : g.start = f.start := le_antisymm hfg.1 hgf.1
      have hstop : g.stop = f.stop := le_antisymm hgf.2 hfg.2
      rw [hend, hg, hf, hstart, hstop]

theorem below_visible (h : WellNested folds) (line : Nat) :
    hidden folds (closedEnd folds line + 1) = false := by
  rw [Bool.eq_false_iff]
  intro hh
  obtain ⟨g, hg, hclosed, hstart, hstop⟩ := hidden_iff.mp hh
  rcases closedRange_spec h line with ⟨hnone, hno⟩ | ⟨f, hf, out⟩
  · have hend : closedEnd folds line = line := by simp [closedEnd, hnone]
    rw [hend] at hstart hstop
    exact hno g hg hclosed (by omega) ⟨by omega, by omega⟩
  · have hend : closedEnd folds line = f.stop := by simp [closedEnd, hf]
    rw [hend] at hstart hstop
    have hlast : f.toSpan.Holds f.stop := ⟨h.ordered f out.mem, le_rfl⟩
    rcases (h.nests g hg f out.mem).inside ⟨by omega, by omega⟩ hlast with hin | hin
    · have := hin.2
      omega
    · have := (out.widest g hg hclosed (by omega) (hin.holds out.holds)).2
      omega

theorem lineDown_one (h : WellNested folds) (hd : lineDown folds line 1 last = some d) :
    d = closedEnd folds line + 1 := by
  have hsame : closedEnd folds (closedEnd folds line) = closedEnd folds line := by
    rw [closedEnd, closedRange_closedEnd h line]
    rcases hr : closedRange folds line with _ | r
    · simp
    · simp [closedEnd, hr]
  simp only [lineDown, stepsDown, hsame, ite_self] at hd
  split at hd
  · simp at hd
  · rename_i hlast
    split at hd
    · rw [Option.some.injEq] at hd
      omega
    · rw [Option.some.injEq] at hd
      omega

/-- A line up from a line down comes back. -/
theorem lineUp_lineDown (h : WellNested folds) (hv : hidden folds line = false)
    (hd : lineDown folds line 1 last = some d) : lineUp folds d 1 = some line := by
  rw [lineDown_one h hd]
  have hback : snapOut folds (closedEnd folds line) = line := by
    rw [snapOut, closedRange_closedEnd h line]
    rcases closedRange_of_not_hidden h hv with ⟨hnone, _⟩ | ⟨f, hf, _, _⟩
    · simp [closedEnd, hnone]
    · simp [hf]
  have hle := le_closedEnd folds line
  simp only [lineUp, stepsUp, snapOut_of_not_hidden h (below_visible h line),
    Nat.add_sub_cancel, hback]
  split
  · omega
  · split
    · omega
    · split
      · congr 1
        omega
      · rfl

/-- The helpers over folds agree at a line exactly when no closed fold hides it: a hidden
line is given the row below its fold's. -/
theorem fold_geometry (h : WellNested folds) :
    GeometryAgrees folds a b line last ↔
      ∀ f ∈ folds, f.closed = true → ¬ (f.start < line ∧ line ≤ f.stop) := by
  constructor
  · intro agrees f hf hclosed hin
    have hh : hidden folds line = true := hidden_iff.mpr ⟨f, hf, hclosed, hin.1, hin.2⟩
    have hrow := agrees.hiddenRow hh
    rw [visibleRow_hidden h hh] at hrow
    omega
  · intro hout
    have hv : hidden folds line = false := by
      rw [Bool.eq_false_iff]
      intro hh
      obtain ⟨f, hf, hclosed, hstart, hstop⟩ := hidden_iff.mp hh
      exact hout f hf hclosed ⟨hstart, hstop⟩
    refine ⟨hiddenBetween_eq folds a b, hidden_iff_closedRange h, fun _ => visibleRow_eq folds line,
      ?_, fun _ d hd => lineUp_lineDown h hv hd⟩
    intro hh
    rw [hv] at hh
    simp at hh

/-- At the line above a closed fold the helpers agree. -/
theorem fold_geometry_above : GeometryAgrees [⟨⟨⟨1, 3⟩, 1⟩, true⟩, ⟨⟨⟨2, 3⟩, 2⟩, true⟩] 0 3 0 5 :=
  (fold_geometry (by decide)).mpr (by decide)

/-- A hidden line does not get its fold's row. -/
theorem hidden_row_below : ¬ ∀ folds : List Fold, WellNested folds →
    ∀ a b line last, a ≤ b → GeometryAgrees folds a b line last := by
  intro h
  have hrow := (h [⟨⟨⟨0, 2⟩, 1⟩, true⟩] (by decide) 0 2 1 5 (by decide)).hiddenRow (by decide)
  have : visibleRow [⟨⟨⟨0, 2⟩, 1⟩, true⟩] 1 ≠
      visibleRow [⟨⟨⟨0, 2⟩, 1⟩, true⟩] (snapOut [⟨⟨⟨0, 2⟩, 1⟩, true⟩] 1) := by decide
  exact this hrow

end Ruse.Tui
