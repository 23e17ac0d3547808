import Ruse.Core.CellSteps

/-!
# Windowed steps are whole-run segmentation

What is said of the steps for any segmenter that follows UAX #29, and one such segmenter:
`wholeText` answers once it has the whole text, by trying every place of it.
-/

namespace Ruse.Core

open Ruse.Lib

/-! ## A segmenter -/

theorem scans_iff {b : Bytes} {i j : Nat} : Scans b i j ↔ i ≤ j ∧ validUpTo b j i = j := by
  constructor
  · intro h
    exact ⟨h.le, Nat.le_antisymm (validUpTo_le h.le) (h.le_validUpTo (Nat.le_refl j))⟩
  · rintro ⟨-, hat⟩
    have := scans_validUpTo b j i
    rwa [hat] at this

instance (b : Bytes) (i j : Nat) : Decidable (Scans b i j) := decidable_of_iff _ scans_iff.symm

theorem breaks_iff_and {U : UnicodeData} {b : Bytes} {s e i : Nat} : Breaks U b s e i ↔
    Scans b s i ∧ Scans b i e ∧ isBreak U.cls (charsOf b s i) (charsOf b i e) = true :=
  ⟨fun h => ⟨h.before, h.after, h.isBreak⟩, fun h => ⟨h.1, h.2.1, h.2.2⟩⟩

instance (U : UnicodeData) (b : Bytes) (s e i : Nat) : Decidable (Breaks U b s e i) :=
  decidable_of_iff _ breaks_iff_and.symm

/-- The segmenter that waits for the whole text. -/
def Segmenter.wholeText (U : UnicodeData) : Segmenter where
  nextBoundary offset len chunk chunkStart :=
    if chunkStart = 0 ∧ chunk.length = len then
      match (List.range (len + 1)).find? fun i => offset < i ∧ Breaks U chunk 0 len i with
      | some i => .boundary i
      | none => .nowhere
    else .incomplete
  prevBoundary offset len chunk chunkStart :=
    if chunkStart = 0 ∧ chunk.length = len then
      match (List.range' 0 offset).reverse.find? fun i => decide (Breaks U chunk 0 len i) with
      | some i => .boundary i
      | none => .nowhere
    else .incomplete

namespace Segmenter

section
variable {U : UnicodeData} {offset : Nat} {text : Bytes}

/-- Asked forwards, the whole text has an answer at every place but its end. -/
theorem wholeText_next (hvalid : Scans text 0 text.length) (hle : offset ≤ text.length) :
    ((wholeText U).ask true offset text.length text 0 = .nowhere ∧ offset = text.length) ∨
    ∃ r, (wholeText U).ask true offset text.length text 0 = .boundary r ∧
      Adjacent U text 0 text.length true offset r := by
  simp only [ask, wholeText, if_true, and_self]
  split
  · rename_i r hr
    obtain ⟨hat, -, hfirst⟩ := List.find?_range_eq_some.mp hr
    refine .inr ⟨r, rfl, of_decide_eq_true hat, fun i hi => ?_⟩
    by_contra hlt
    have := hfirst i (by omega)
    simp only [Bool.not_eq_true', decide_eq_false_iff_not] at this
    exact this hi
  · rename_i hnone
    refine .inl ⟨rfl, ?_⟩
    by_contra hne
    have := List.find?_eq_none.mp hnone text.length (by simp)
    exact this (decide_eq_true ⟨by omega, breaks_stop hvalid⟩)

/-- Asked backwards, the whole text has an answer at every place but its start. -/
theorem wholeText_prev (hvalid : Scans text 0 text.length) :
    ((wholeText U).ask false offset text.length text 0 = .nowhere ∧ offset = 0) ∨
    ∃ r, (wholeText U).ask false offset text.length text 0 = .boundary r ∧
      Adjacent U text 0 text.length false offset r := by
  simp only [ask, wholeText, Bool.false_eq_true, if_false, if_true, and_self]
  split
  · rename_i r hr
    obtain ⟨hat, -, hlt, hlast⟩ := (find?_reverse_range' _ _ _ _).mp hr
    refine .inr ⟨r, rfl, ⟨by omega, of_decide_eq_true hat⟩, fun i hi => ?_⟩
    obtain ⟨hio, hi⟩ := hi
    by_contra hgt
    have := hlast i (by omega) (by omega)
    rw [decide_eq_false_iff_not] at this
    exact this hi
  · rename_i hnone
    refine .inl ⟨rfl, ?_⟩
    by_contra hne
    have := List.find?_eq_none.mp hnone 0 (by
      rw [List.mem_reverse, List.mem_range'_1]
      omega)
    exact this (decide_eq_true (breaks_start hvalid))

theorem wholeText_ask (forward : Bool) {start stop : Nat} (hchunk : IsChunk text start stop offset) :
    (start = 0 ∧ stop = text.length ∧
      (wholeText U).ask forward offset text.length (slice text start stop) start =
        (wholeText U).ask forward offset text.length text 0) ∨
    ((wholeText U).ask forward offset text.length (slice text start stop) start = .incomplete ∧
      (0 < start ∨ stop < text.length)) := by
  have hstop := hchunk.after.le
  have hlen := slice_length (Nat.le_trans hchunk.left.le hchunk.right.le) hstop
  by_cases hwhole : start = 0 ∧ stop = text.length
  · obtain ⟨rfl, rfl⟩ := hwhole
    have hself : slice text 0 text.length = text := by simp [slice]
    exact .inl ⟨rfl, rfl, by rw [hself]⟩
  · refine .inr ⟨?_, by omega⟩
    have hnot : ¬ (start = 0 ∧ (slice text start stop).length = text.length) := by omega
    cases forward with
    | true => simp only [ask, wholeText, if_true, if_neg hnot]
    | false => simp only [ask, wholeText, Bool.false_eq_true, if_false, if_neg hnot]

/-- A segmenter that sees the whole text follows the rules. -/
theorem wholeText_follows (U : UnicodeData) : (wholeText U).Follows U := by
  have hspec : ∀ (forward : Bool) {offset start stop : Nat} {text : Bytes},
      IsChunk text start stop offset →
      ((wholeText U).ask forward offset text.length text 0 = .nowhere ∧
        offset = if forward then text.length else 0) ∨
      ∃ r, (wholeText U).ask forward offset text.length text 0 = .boundary r ∧
        Adjacent U text 0 text.length forward offset r := by
    intro forward offset start stop text hchunk
    have hvalid := (hchunk.before.trans (hchunk.left.trans hchunk.right)).trans hchunk.after
    have hle := Nat.le_trans hchunk.right.le hchunk.after.le
    cases forward with
    | true => exact wholeText_next hvalid hle
    | false => exact wholeText_prev hvalid
  refine ⟨?_, ?_, ?_⟩
  · intro forward offset start stop r text hchunk hanswer
    rcases wholeText_ask (U := U) forward hchunk with ⟨rfl, rfl, heq⟩ | ⟨heq, -⟩
    · rw [heq] at hanswer
      rcases hspec forward hchunk with ⟨hnone, -⟩ | ⟨r', hr', hadj⟩
      · rw [hanswer] at hnone
        cases hnone
      · rw [hanswer] at hr'
        cases hr'
        refine ⟨Nat.zero_le r, ?_, hadj⟩
        cases forward with
        | true => exact hadj.1.2.after.le
        | false => exact hadj.1.2.after.le
    · rw [heq] at hanswer
      cases hanswer
  · intro forward offset start stop text hchunk hanswer
    rcases wholeText_ask (U := U) forward hchunk with ⟨rfl, rfl, heq⟩ | ⟨heq, -⟩
    · rw [heq] at hanswer
      rcases hspec forward hchunk with ⟨-, hat⟩ | ⟨r', hr', -⟩
      · exact hat
      · rw [hanswer] at hr'
        cases hr'
    · rw [heq] at hanswer
      cases hanswer
  · intro forward offset start stop text hchunk hanswer
    rcases wholeText_ask (U := U) forward hchunk with ⟨rfl, rfl, heq⟩ | ⟨-, hpart⟩
    · rw [heq] at hanswer
      rcases hspec forward hchunk with ⟨hnone, -⟩ | ⟨r', hr', -⟩
      · rw [hanswer] at hnone
        cases hnone
      · rw [hanswer] at hr'
        cases hr'
    · exact hpart

end

end Segmenter

/-- ASCII, and the combining acute accent. -/
def UnicodeData.acute : UnicodeData where
  cls c :=
    if c = '\r' then { cluster := .cr }
    else if c = '\n' then { cluster := .lf }
    else if c = '\u0301' then { cluster := .extend, conjunct := .extend }
    else { cluster := .other }
  coherent c := by
    split
    · exact ⟨fun h => by simp at h, fun h => by simp at h, fun h => by simp at h⟩
    · split
      · exact ⟨fun h => by simp at h, fun h => by simp at h, fun h => by simp at h⟩
      · split
        · exact ⟨fun _ => .inl rfl, fun h => by simp at h, fun h => by simp at h⟩
        · exact ⟨fun h => by simp at h, fun h => by simp at h, fun h => by simp at h⟩
  ascii c hc := by
    split
    · exact ⟨.inr rfl, rfl, rfl⟩
    · split
      · exact ⟨.inr rfl, rfl, rfl⟩
      · split
        · rename_i h
          rw [h] at hc
          exact absurd hc (by decide)
        · exact ⟨.inl rfl, rfl, rfl⟩
  lf c := by
    split
    · rename_i h
      rw [h]
      simp
    · split
      · rename_i h
        simp [h]
      · rename_i h
        split <;> simp [h]
  cr c := by
    split
    · rename_i h
      simp [h]
    · rename_i h
      split
      · simp [h]
      · split <;> simp [h]

/-! ## The steps -/

/-- Every boundary is in one run; a step from it leads to the cluster boundary of the run
next to it; what a window shows is a piece of the run, its edges known only where they are
the run's; and the windows widen until there is an answer. -/
theorem steps_segment_runs (U : UnicodeData) (g : Segmenter) (hg : g.Follows U) (b : Bytes) :
    (∀ pos ≤ b.length, isBoundary b pos = true →
      ∃ s e, IsRun b s e ∧ Scans b s pos ∧ Scans b pos e) ∧
    (∀ s e pos, IsRun b s e → Scans b s pos → Scans b pos e →
      (pos < e → IsLeast {i | pos < i ∧ Breaks U b s e i} (nextGrapheme g b pos)) ∧
      (s < pos → IsGreatest {i | i < pos ∧ Breaks U b s e i} (prevGrapheme g b pos)) ∧
      (s < e → ∀ n,
        let run := utf8Run b pos (stepWindow * 2 ^ n)
        (Scans b s run.start ∧ Scans b run.start pos ∧ Scans b pos run.stop ∧ Scans b run.stop e) ∧
        (run.startKnown = true → run.start = s) ∧ (run.endKnown = true → run.stop = e)) ∧
      ∀ forward, (forward = true → pos < e) → (forward = false → s < pos) →
        ∃ n, clusterAsk g b pos forward (stepWindow * 2 ^ n) =
            .boundary (clusterStep g b pos forward) ∧
          ∀ m < n, clusterAsk g b pos forward (stepWindow * 2 ^ m) = .incomplete ∧
            ((utf8Run b pos (stepWindow * 2 ^ m)).startKnown &&
              (utf8Run b pos (stepWindow * 2 ^ m)).endKnown) = false) ∧
    (∀ pos < b.length, isBoundary b pos = true →
      IsLeast {i | pos < i ∧ CellBreak U b i} (nextGrapheme g b pos)) ∧
    (∀ pos ≤ b.length, 0 < pos → isBoundary b pos = true →
      IsGreatest {i | i < pos ∧ CellBreak U b i} (prevGrapheme g b pos)) ∧
    ∀ i, CellBreak U b i → i < lineEnd b i →
      graphemeEnd g b i (lineEnd b i) = nextGrapheme g b i ∧
      ∃ n, graphemeRound g b i (lineEnd b i) (8 * 2 ^ n) = some (nextGrapheme g b i) ∧
        ∀ m < n, graphemeRound g b i (lineEnd b i) (8 * 2 ^ m) = none := by
  refine ⟨fun pos hle hb => exists_run hb hle, ?_, ?_, ?_, fun i hcell hi => graphemeEnd_spec hg hcell hi⟩
  · intro s e pos hrun hs he
    have hsp := hs.le
    have hpe := he.le
    -- a run that is not empty has a character beside `pos`
    have hedge : s < e → ∃ q, Edge b pos q ∧ pos ≤ q + 4 := by
      intro hlt
      have hlen := hrun.inside
      rcases Nat.lt_or_ge pos e with hin | hout
      · obtain ⟨w, hw, -⟩ := he.first hin
        exact ⟨pos, ⟨(charLenAt_spec hw).2.2.2.1, Nat.le_refl pos, by omega,
          .inl ⟨rfl, by omega, hrun.noNewline pos hsp hin⟩⟩, by omega⟩
      · obtain ⟨q, hsq, hw, hq⟩ := hs.last (by omega)
        obtain ⟨hprev, hbpos, -⟩ := prevBoundary_of_char hw hq
        have h := edge_prevBoundary (by omega) (by omega) (not_insideChar hbpos)
          (hrun.noNewline _ (by omega) (by omega)) (by rw [hprev]; exact hw)
        rw [hprev] at h
        have hw4 := (charLenAt_spec hw).2.1
        exact ⟨q, h, by omega⟩
    refine ⟨nextGrapheme_isLeast hg hrun hs he, prevGrapheme_isGreatest hg hrun hs he, ?_, ?_⟩
    · intro hlt n
      obtain ⟨q, h, hq⟩ := hedge hlt
      have hwindow : 4 ≤ stepWindow * 2 ^ n := by
        have := Nat.one_le_two_pow (n := n)
        simp only [stepWindow]
        omega
      obtain ⟨⟨hbefore, hafter⟩, hstart, hend⟩ :=
        utf8Run_window hrun h hs he (show 0 < stepWindow * 2 ^ n by omega) (by omega)
      have hholds := utf8Run_holds h (show 0 < stepWindow * 2 ^ n by omega) (by omega)
      exact ⟨⟨hbefore, hholds.before, hholds.after, hafter⟩, hstart, hend⟩
    · intro forward hfwd hbwd
      obtain ⟨q, h, -⟩ := hedge (by
        cases forward with
        | true =>
          have := hfwd rfl
          omega
        | false =>
          have := hbwd rfl
          omega)
      exact (clusterStep_spec hg hrun h hs he hfwd hbwd).2
  · intro pos hlt hb
    exact nextGrapheme_cell hg hb hlt
  · intro pos hle hpos hb
    exact prevGrapheme_cell hg hb hpos hle

/-- An accented letter before another one is one step, its accent two bytes of it. -/
theorem steps_segment_runs_acute :
    IsLeast {i | 0 < i ∧ Breaks .acute [101, 0xCC, 0x81, 120] 0 4 i}
      (nextGrapheme (.wholeText .acute) [101, 0xCC, 0x81, 120] 0) ∧
    nextGrapheme (.wholeText .acute) [101, 0xCC, 0x81, 120] 0 = 3 := by
  have hno : ∀ k < 4, ([101, 0xCC, 0x81, 120] : Bytes)[k]? ≠ some newline := by decide
  have hrun : IsRun [101, 0xCC, 0x81, 120] 0 4 :=
    ⟨by decide +kernel, fun k _ hk => hno k hk, by decide,
      .inr fun j w hw => by have := charLenAt_pos hw; omega, .inr (by decide +kernel)⟩
  exact ⟨((steps_segment_runs .acute (.wholeText .acute) (Segmenter.wholeText_follows _) _).2.1 0 4 0
    hrun (.refl 0) hrun.scans).1 (by decide), by decide +kernel⟩

end Ruse.Core
