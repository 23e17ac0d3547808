import Ruse.Core.GraphemeSteps

/-!
# Cells

A text is cut into cells at the boundaries that no cluster of a run goes over
(`CellBreak`): the clusters of its runs, its newlines, and its bytes that are no part of a
character. `Steps::next` and `Steps::prev` lead from cut to cut over the whole text
(`nextGrapheme_cell`, `prevGrapheme_cell`), and so does `grapheme_end` of
`crates/core/src/editor/range.rs`, which reads forward from a cut in windows of its own
(`graphemeEnd_spec`).
-/

namespace Ruse.Core

open Ruse.Lib

/-- A boundary that no cluster goes over. -/
structure CellBreak (U : UnicodeData) (b : Bytes) (p : Nat) : Prop where
  boundary : isBoundary b p = true
  inside : p ≤ b.length
  isBreak : ∀ s e, IsRun b s e → s < p → p < e → Breaks U b s e p

section
variable {U : UnicodeData} {b : Bytes} {s e pos : Nat}

theorem IsRun.boundary (hrun : IsRun b s e) (hs : Scans b s pos) (hlt : s < e) :
    isBoundary b pos = true := by
  obtain ⟨w, hw, -⟩ := hrun.scans.first hlt
  exact hs.boundary (isBoundary_of_char hw)

theorem cellBreak_of_breaks (hrun : IsRun b s e) (hlt : s < e) (h : Breaks U b s e pos) :
    CellBreak U b pos := by
  have hle := h.after.le
  have hb := hrun.boundary h.before hlt
  refine ⟨hb, by have := hrun.inside; omega, fun s' e' hrun' hs he => ?_⟩
  obtain ⟨hs', he'⟩ := hrun'.cut hb (Nat.le_of_lt hs) (Nat.le_of_lt he)
  obtain ⟨rfl, rfl⟩ := hrun'.unique hrun hs' he' h.before h.after
  exact h

theorem CellBreak.breaks (h : CellBreak U b pos) (hrun : IsRun b s e) (hs : s ≤ pos) (he : pos ≤ e) :
    Breaks U b s e pos := by
  rcases Nat.eq_or_lt_of_le hs with heq | hlt
  · rw [← heq]
    exact breaks_start hrun.scans
  · rcases Nat.eq_or_lt_of_le he with heq | hlt'
    · rw [heq]
      exact breaks_stop hrun.scans
    · exact h.isBreak s e hrun hlt hlt'

theorem charLenAt_newline {i : Nat} (h : b[i]? = some newline) : charLenAt b i = some 1 :=
  charLenAt_eq_one.mpr ⟨newline, h, by decide⟩

theorem prevBoundary_newline (hpos : 0 < pos) (h : b[pos - 1]? = some newline) :
    prevBoundary b pos = pos - 1 :=
  (prevBoundary_of_char (by rw [charLenAt_newline h, show pos - (pos - 1) = 1 by omega])
    (by omega)).1

theorem cellBreak_succ (hb : isBoundary b pos = true) (hlt : pos < b.length) (hstop : RunStop b pos) :
    unitLen b pos = 1 ∧ CellBreak U b (pos + 1) := by
  have hunit : unitLen b pos = 1 := by
    unfold unitLen
    rcases hstop with hnl | hnone
    · rw [charLenAt_newline hnl]
      rfl
    · rw [hnone]
      rfl
  have hnext := isBoundary_unit hb hlt
  rw [hunit] at hnext
  refine ⟨hunit, hnext, hlt, fun s e hrun hs he => ?_⟩
  obtain ⟨w, hw, -⟩ := (hrun.cut hb (by omega) (by omega)).2.first (by omega)
  rcases hstop with hnl | hnone
  · exact absurd hnl (hrun.noNewline pos (by omega) (by omega))
  · rw [hnone] at hw
    cases hw

end

section
variable {U : UnicodeData} {g : Segmenter} (hg : g.Follows U) {b : Bytes} {pos : Nat}
include hg

/-- `Steps::next` leads to the next cut. -/
theorem nextGrapheme_cell (hb : isBoundary b pos = true) (hlt : pos < b.length) :
    IsLeast {i | pos < i ∧ CellBreak U b i} (nextGrapheme g b pos) := by
  obtain ⟨s, e, hrun, hs, he⟩ := exists_run hb (Nat.le_of_lt hlt)
  have hsp := hs.le
  rcases Nat.eq_or_lt_of_le he.le with heq | hin
  · -- no run goes on from `pos`
    have hstop := hrun.stop
    rw [← heq] at hstop
    obtain ⟨hunit, hcell⟩ := cellBreak_succ (U := U) hb hlt hstop
    have hnext : nextGrapheme g b pos = pos + 1 := by
      have hunit' := nextBoundary_unit hb hlt
      rw [hunit] at hunit'
      unfold nextGrapheme
      split
      · rfl
      · split
        · exact hunit'
        · rename_i hout
          split
          · rfl
          · rename_i w hw
            rcases hstop with hnl | hnone
            · exact absurd (.inr (.inl hnl)) hout
            · rw [hnone] at hw
              cases hw
    rw [hnext]
    exact ⟨⟨Nat.lt_succ_self _, hcell⟩, fun i hi => hi.1⟩
  · obtain ⟨⟨hgt, hbreak⟩, hleast⟩ := nextGrapheme_isLeast hg hrun hs he hin
    refine ⟨⟨hgt, cellBreak_of_breaks hrun (by omega) hbreak⟩, fun i hi => ?_⟩
    obtain ⟨hpi, hi⟩ := hi
    by_contra hlt'
    have hre := hbreak.after.le
    have := hleast ⟨hpi, hi.breaks hrun (by omega) (by omega)⟩
    omega

/-- `Steps::prev` leads back to the last one. -/
theorem prevGrapheme_cell (hb : isBoundary b pos = true) (hpos : 0 < pos) (hle : pos ≤ b.length) :
    IsGreatest {i | i < pos ∧ CellBreak U b i} (prevGrapheme g b pos) := by
  obtain ⟨s, e, hrun, hs, he⟩ := exists_run hb hle
  have hpe := he.le
  rcases Nat.eq_or_lt_of_le hs.le with heq | hin
  · -- no run goes back from `pos`
    obtain ⟨⟨hlt, hbprev⟩, hgreatest⟩ := prevBoundary_greatest hpos hle
    have hstart := hrun.start
    rw [heq] at hstart
    have hprev : prevGrapheme g b pos = prevBoundary b pos ∧
        (b[pos - 1]? = some newline ∨ charLenAt b (prevBoundary b pos) = none) := by
      rcases hstart with ⟨-, hnl⟩ | hnone
      · refine ⟨?_, .inl hnl⟩
        rw [prevGrapheme, if_pos ⟨hpos, hle, by rw [hnl]; rfl, .inr (.inr hnl)⟩,
          prevBoundary_newline hpos hnl]
      · -- no character ends at `pos`
        have hnl : b[pos - 1]? ≠ some newline := fun hnl =>
          hnone (pos - 1) 1 (charLenAt_newline hnl) (by omega)
        have hnochar : charLenAt b (prevBoundary b pos) = none := by
          by_contra hne
          obtain ⟨w, hw⟩ := Option.ne_none_iff_exists'.mp hne
          rcases (edge_prevBoundary hpos hle (not_insideChar hb) hnl hw).char with ⟨heq', -⟩ | ⟨hw', -⟩
          · omega
          · exact hnone _ _ hw' (by omega)
        refine ⟨?_, .inr hnochar⟩
        unfold prevGrapheme
        rw [if_neg, Nat.min_eq_left hle]
        · dsimp only
          split
          · rfl
          · rfl
        · rintro ⟨-, -, ha, -⟩
          exact hnone _ _ (plain_of_ascii (U := U) ha).1 (by omega)
    rw [hprev.1]
    refine ⟨⟨hlt, hbprev, by omega, fun s' e' hrun' hs' he' => ?_⟩, fun i hi =>
      hgreatest ⟨hi.1, hi.2.boundary⟩⟩
    obtain ⟨w, hw, -⟩ := (hrun'.cut hbprev (by omega) (by omega)).2.first (by omega)
    rcases hprev.2 with hnl | hnone
    · rw [prevBoundary_newline hpos hnl] at hs' he'
      exact absurd hnl (hrun'.noNewline _ (by omega) he')
    · rw [hnone] at hw
      cases hw
  · obtain ⟨⟨hlt, hbreak⟩, hgreatest⟩ := prevGrapheme_isGreatest hg hrun hs he hin
    refine ⟨⟨hlt, cellBreak_of_breaks hrun (by omega) hbreak⟩, fun i hi => ?_⟩
    obtain ⟨hip, hi⟩ := hi
    by_contra hgt
    have hsr := hbreak.before.le
    have := hgreatest ⟨hip, hi.breaks hrun (by omega) (by omega)⟩
    omega

end

/-! ## The cells of a line, read forward -/

/-- A round of `grapheme_end`: the cluster is read from a window of whole characters, all
there is where the line ends in the window or a byte that is not UTF-8 follows. `none` asks
for a wider window. -/
def graphemeRound (g : Segmenter) (b : Bytes) (i le window : Nat) : Option Nat :=
  let stop := min (i + window) le
  let v := validUpTo b stop i
  let last := stop == le || (decide (v < stop) && (errorLen b stop v).isSome)
  if v = i then some (max (i + 1) (min (nextBoundary b i) le))
  else
    match (g.alone true (slice b i v)).filter fun rel => rel < v - i || last with
    | some rel => some (i + rel)
    | none => if last then some v else none

/-- The loop of `grapheme_end`. A window that reaches `le` is not widened
(`graphemeRound_spec`), so the last branch is not reached. -/
def graphemeEndFrom (g : Segmenter) (b : Bytes) (i le window : Nat) : Nat :=
  match graphemeRound g b i le window with
  | some r => r
  | none => if 0 < window ∧ i + window < le then graphemeEndFrom g b i le (window * 2) else i
termination_by le - (i + window)

/-- The end of the cluster that starts at the cut `i` of a line that ends at `le`. -/
def graphemeEnd (g : Segmenter) (b : Bytes) (i le : Nat) : Nat :=
  graphemeEndFrom g b i (max (min le b.length) (i + 1)) 8

section
variable {U : UnicodeData} {b : Bytes} {s e i v k : Nat}

/-- The breaks behind a place do not depend on where the scan began. -/
theorem breaks_from (hs : Breaks U b s e i) (hiv : Scans b i v) (hve : Scans b v e) (hlen : e ≤ b.length)
    (hik : i < k) (hkv : k < v) : Breaks U b i v k ↔ Breaks U b s e k := by
  have hvlen := Nat.le_trans hve.le hlen
  have hsame : ∀ (hl : Scans b i k) (hr : Scans b k v),
      isBreak U.cls (charsOf b i k) (charsOf b k v) = isBreak U.cls (charsOf b s k) (charsOf b k e) := by
    intro hl hr
    have hne := charsOf_ne_nil hl hik (by omega)
    have hne' := charsOf_ne_nil hr hkv hvlen
    rw [charsOf_append hs.before hl (by omega), charsOf_append hr hve hlen]
    have hctx := context_of_isBreak U.coherent hs.isBreak hne (by
      rw [charsOf_append hl (hr.trans hve) hlen]
      exact List.prefix_append _ _)
    refine isBreak_congr ?_ hctx.symm ?_
    · simp [hne]
    · rw [List.head?_append_of_ne_nil _ hne']
  constructor
  · rintro ⟨hl, hr, hbreak⟩
    rw [hsame hl hr] at hbreak
    exact ⟨hs.before.trans hl, hr.trans hve, hbreak⟩
  · rintro ⟨hl, hr, hbreak⟩
    have hl' := hs.before.rest hl (Nat.le_of_lt hik)
    have hr' := hl'.rest hiv (Nat.le_of_lt hkv)
    rw [← hsame hl' hr'] at hbreak
    exact ⟨hl', hr', hbreak⟩

/-- A run of characters, sliced out, has a break to answer. -/
theorem alone_isSome {g : Segmenter} (hg : g.Follows U) (h : Scans b i v) (hlt : i < v)
    (hv : v ≤ b.length) : ∃ r, g.alone true (slice b i v) = some r := by
  have hvalid := h.validUtf8 hv
  have hlen := slice_length h.le hv
  have hscan := validUtf8_iff.mp hvalid
  have hchunk : IsChunk (slice b i v) 0 (slice b i v).length 0 :=
    ⟨.refl 0, .refl 0, hscan, .refl _⟩
  have hself : slice (slice b i v) 0 (slice b i v).length = slice b i v := by
    simp [slice]
  unfold Segmenter.alone
  rw [if_pos hvalid, if_pos rfl]
  cases hanswer : g.ask true 0 (slice b i v).length (slice b i v) 0 with
  | boundary r => exact ⟨r, rfl⟩
  | nowhere =>
    have := hg.nowhere hchunk (by rw [hself]; exact hanswer)
    simp only [if_true] at this
    omega
  | incomplete =>
    have := hg.incomplete hchunk (by rw [hself]; exact hanswer)
    omega

/-- Past `last` no character of the run follows the window. -/
theorem scans_stop_eq {le stop : Nat} (hrun : IsRun b s e) (hie : Scans b i e) (hle : le = lineEnd b i)
    (hstop : stop ≤ le) (hi : i ≤ stop) (hsi : s ≤ i) (hlen : i ≤ b.length)
    (hlast : (stop == le || (decide (validUpTo b stop i < stop) &&
      (errorLen b stop (validUpTo b stop i)).isSome)) = true) : validUpTo b stop i = e := by
  obtain ⟨hscan, hbound, hcut⟩ := validUpTo_spec b stop i
  have hvs := hbound hi
  generalize validUpTo b stop i = v at hscan hvs hcut hlast ⊢
  obtain ⟨hend, hline⟩ := lineEnd_spec hlen
  have hno : NoNewline b i v := fun k hk hkv => hline k hk (by omega)
  obtain ⟨hve, hrest⟩ := hrun.stop.le_of_scans hie hscan hno
  by_contra hne
  obtain ⟨w, hw, -⟩ := hrest.first (Nat.lt_of_le_of_ne hve hne)
  have hiv := hscan.le
  have hnl : b[v]? ≠ some newline := hrun.noNewline v (by omega) (Nat.lt_of_le_of_ne hve hne)
  have hover := hcut w hw
  simp only [Bool.or_eq_true, beq_iff_eq, Bool.and_eq_true, decide_eq_true_eq] at hlast
  rcases hlast with heq | ⟨hlt, hsome⟩
  · -- the window ends where the line does
    have hfit := char_line hw hnl
    have hsame : lineEnd b v = lineEnd b i :=
      lineEnd_eq (by omega) (lineEnd_le_length b i) hend fun k hk hkv =>
        hline k (Nat.le_trans hscan.le hk) hkv
    omega
  · rw [errorLen_of_cut hw hlt hover] at hsome
    cases hsome

end

section
variable {U : UnicodeData} {g : Segmenter} (hg : g.Follows U) {b : Bytes} {i : Nat}
include hg

/-- A round of `next_grapheme` finds the next cell, or its window was too short. -/
theorem graphemeRound_spec (hcell : CellBreak U b i) (hi : i < lineEnd b i) {window : Nat}
    (hwindow : 4 ≤ window) :
    (∃ r, graphemeRound g b i (lineEnd b i) window = some r ∧
      IsLeast {k | i < k ∧ CellBreak U b k} r) ∨
    (graphemeRound g b i (lineEnd b i) window = none ∧ i + window < lineEnd b i) := by
  have hle := lineEnd_le_length b i
  have hlt : i < b.length := by omega
  have hnl : b[i]? ≠ some newline := (lineEnd_spec hcell.inside).2 i (Nat.le_refl i) hi
  obtain ⟨s, e, hrun, hs, he⟩ := exists_run hcell.boundary hcell.inside
  have hsi := hs.le
  have hie := he.le
  unfold graphemeRound
  generalize hstop : min (i + window) (lineEnd b i) = stop
  have hscan := scans_validUpTo b stop i
  have hvstop : validUpTo b stop i ≤ stop := validUpTo_le (by omega)
  have hends := scans_stop_eq hrun he rfl (show stop ≤ lineEnd b i by omega) (by omega) hsi hcell.inside
  dsimp only
  split
  · -- the byte at `i` is no part of a character
    have hnone : charLenAt b i = none := by
      by_contra hne
      obtain ⟨w, hw⟩ := Option.ne_none_iff_exists'.mp hne
      have hfit := char_line hw hnl
      have hw4 := (charLenAt_spec hw).2.1
      have hpos := charLenAt_pos hw
      have hle := Scans.le_validUpTo (e := stop) (.char hw (.refl _)) (by omega)
      omega
    obtain ⟨hunit, hnext⟩ := cellBreak_succ (U := U) hcell.boundary hlt (.inr hnone)
    refine .inl ⟨_, rfl, ?_⟩
    rw [nextBoundary_unit hcell.boundary hlt, hunit, show max (i + 1) (min (i + 1) (lineEnd b i)) = i + 1
      by omega]
    exact ⟨⟨Nat.lt_succ_self i, hnext⟩, fun k hk => hk.1⟩
  · rename_i hfull
    generalize validUpTo b stop i = v at hscan hvstop hends hfull ⊢
    have hiv := Nat.lt_of_le_of_ne hscan.le (Ne.symm hfull)
    have hno : NoNewline b i v := fun k hk hkv =>
      (lineEnd_spec hcell.inside).2 k hk (by omega)
    obtain ⟨hve, hrest⟩ := hrun.stop.le_of_scans he hscan hno
    have hbreak := hcell.breaks hrun hsi hie
    obtain ⟨rel, halone⟩ := alone_isSome hg hscan hiv (by omega)
    obtain ⟨⟨hgt, hat⟩, hleast⟩ := alone_spec hg hscan (Nat.le_trans hve hrun.inside) halone
    simp only [if_true] at hgt hleast
    have hupper := hat.after.le
    -- inside the window a cut is a boundary of the window
    have hcut : ∀ k, i < k → k < v → (CellBreak U b k ↔ Breaks U b i v k) := by
      intro k hik hkv
      rw [breaks_from hbreak hscan hrest hrun.inside hik hkv]
      constructor
      · intro hk
        exact hk.breaks hrun (by omega) (by omega)
      · intro hk
        exact cellBreak_of_breaks hrun (by omega) hk
    have hbelow : ∀ k, i < k → k < i + rel → ¬ CellBreak U b k := by
      intro k hik hk hcellk
      have := hleast ⟨hik, (hcut k hik (by omega)).mp hcellk⟩
      omega
    generalize hlast : (stop == lineEnd b i || (decide (v < stop) && (errorLen b stop v).isSome)) = last
      at hends ⊢
    have hfound : (rel < v - i ∨ last = true) → IsLeast {k | i < k ∧ CellBreak U b k} (i + rel) := by
      intro hor
      refine ⟨⟨hgt, ?_⟩, fun k hk => ?_⟩
      · rcases Nat.lt_or_ge (i + rel) v with hin | hout
        · exact (hcut _ hgt hin).mpr hat
        · have hv := hends (hor.resolve_left (by omega))
          rw [show i + rel = e by omega]
          exact cellBreak_of_breaks hrun (by omega) (breaks_stop hrun.scans)
      · by_contra hlt'
        exact hbelow k hk.1 (by omega) hk.2
    rw [halone, Option.filter_some]
    by_cases hor : rel < v - i ∨ last = true
    · rw [if_pos (by simpa using hor)]
      exact .inl ⟨_, rfl, hfound hor⟩
    · rw [if_neg (by simpa using hor)]
      simp only [not_or, Bool.not_eq_true] at hor
      rw [hor.2] at hlast ⊢
      refine .inr ⟨rfl, ?_⟩
      by_contra hge
      rw [show stop = lineEnd b i by omega] at hlast
      simp at hlast

/-- The window of `grapheme_end` widens until a round finds the next cut. -/
theorem graphemeEndFrom_cell (hcell : CellBreak U b i) (hi : i < lineEnd b i) (window : Nat)
    (hwindow : 4 ≤ window) :
    IsLeast {k | i < k ∧ CellBreak U b k} (graphemeEndFrom g b i (lineEnd b i) window) ∧
    ∃ n, graphemeRound g b i (lineEnd b i) (window * 2 ^ n) =
        some (graphemeEndFrom g b i (lineEnd b i) window) ∧
      ∀ m < n, graphemeRound g b i (lineEnd b i) (window * 2 ^ m) = none := by
  induction window using graphemeEndFrom.induct g b i (lineEnd b i) with
  | case1 window r hr =>
    rw [graphemeEndFrom, hr]
    rcases graphemeRound_spec hg hcell hi hwindow with ⟨r', hr', hleast⟩ | ⟨hnone, -⟩
    · rw [hr] at hr'
      cases hr'
      exact ⟨hleast, 0, by rw [pow_zero, Nat.mul_one, hr], fun m hm => by omega⟩
    · rw [hr] at hnone
      cases hnone
  | case2 window hnone hmore ih =>
    obtain ⟨hleast, n, hlast, hfirst⟩ := ih (by omega)
    rw [graphemeEndFrom, hnone]
    rw [if_pos hmore]
    have hpow : ∀ m, window * 2 * 2 ^ m = window * 2 ^ (m + 1) := fun m => by
      rw [Nat.pow_succ, Nat.mul_assoc, Nat.mul_comm 2]
    refine ⟨hleast, n + 1, by rw [← hpow, hlast], fun m hm => ?_⟩
    cases m with
    | zero => rw [pow_zero, Nat.mul_one, hnone]
    | succ m =>
      rw [← hpow]
      exact hfirst m (by omega)
  | case3 window hnone hmore =>
    rcases graphemeRound_spec hg hcell hi hwindow with ⟨r', hr', -⟩ | ⟨-, hlt⟩
    · rw [hnone] at hr'
      cases hr'
    · exact absurd ⟨by omega, hlt⟩ hmore

/-- `grapheme_end` from a cut of a line is the step forward. -/
theorem graphemeEnd_spec (hcell : CellBreak U b i) (hi : i < lineEnd b i) :
    graphemeEnd g b i (lineEnd b i) = nextGrapheme g b i ∧
    ∃ n, graphemeRound g b i (lineEnd b i) (8 * 2 ^ n) = some (nextGrapheme g b i) ∧
      ∀ m < n, graphemeRound g b i (lineEnd b i) (8 * 2 ^ m) = none := by
  have hle := lineEnd_le_length b i
  have hend : max (min (lineEnd b i) b.length) (i + 1) = lineEnd b i := by omega
  obtain ⟨hleast, hrounds⟩ := graphemeEndFrom_cell hg hcell hi 8 (by decide)
  have heq := hleast.unique (nextGrapheme_cell hg hcell.boundary (by omega))
  rw [heq] at hrounds
  refine ⟨?_, hrounds⟩
  rw [graphemeEnd, hend]
  exact heq

end

end Ruse.Core
