import Ruse.Core.Words
import Ruse.Core.Segmentation

/-!
# Word motions land on word boundaries

The cells of the text, each with its class, are a line of cells as in `Ruse.Lib.Words`:
`vinc` steps over those up to the last line's `NUL` slot (`stepping_fwd`), `vdec` over all of
them in the other order (`stepping_back`). So `w` and `ge` are one search, and so are `e` and
`b`, each in its order.

From a place inside a cluster `w` and `ge` go by the class of a character that is no cell;
`w_inside_cluster` is such a walk. From every place that starts a cell, and `b` and `e` from
every boundary, the motions land where the classes say (`word_motions_land`). From stop to
stop `w` and `b` take each other back (`words_there_and_back`).
-/

namespace Ruse.Core

open Ruse.Lib

namespace WordText

variable (U : UnicodeData) (t : WordText) (big : Bool)
variable {fuel i p pos : Nat} {m : WordMotion}

def cells : Set Nat := {p | CellBreak U t.b p}

/-- A word starts at `p`. -/
abbrev WordStart (p : Nat) : Prop := Starts (t.cells U) (t.vcls · big) p

/-- A word ends with the cell at `p`. -/
abbrev WordEnd (p : Nat) : Prop := Ends (t.cells U) (t.vcls · big) p

/-- An empty line, which counts as a word. -/
def EmptyLine (p : Nat) : Prop := p < t.b.length ∧ t.onEmptyLine p = true

/-- Where a motion from `pos` lands, and when there is no such place where it stays. -/
def Lands (m : WordMotion) (pos r : Nat) : Prop :=
  match m with
  | .wordFwd => IsLeast {i | pos < i ∧ (t.WordStart U big i ∨ t.EmptyLine i)} r ∨
      ((∀ i, pos < i → ¬ (t.WordStart U big i ∨ t.EmptyLine i)) ∧ r = max pos (contentEnd t.b))
  | .wordBack => IsGreatest {i | i < pos ∧ (t.WordStart U big i ∨ t.EmptyLine i)} r ∨
      ((∀ i, i < pos → ¬ (t.WordStart U big i ∨ t.EmptyLine i)) ∧ r = 0)
  | .wordEnd => IsLeast {i | pos < i ∧ t.WordEnd U big i} r ∨
      ((∀ i, pos < i → ¬ t.WordEnd U big i) ∧ r = prevGrapheme t.steps t.b t.b.length)
  | .wordEndBack => IsGreatest {i | i < pos ∧ (t.WordEnd U big i ∨ t.EmptyLine i)} r ∨
      ((∀ i, i < pos → ¬ (t.WordEnd U big i ∨ t.EmptyLine i)) ∧ r = 0)

variable {U t big}

/-! ## The line model -/

theorem atNul_iff {b : Bytes} : atNul b p = true ↔ b.length ≤ p ∨ b[p]? = some newline := by
  simp [atNul]

theorem vcls_nul (h : atNul t.b p = true) : t.vcls p big = 0 := by rw [vcls, if_pos h]

/-- `char_cls` knows a `NUL` slot by itself. -/
theorem vcls_eq (p : Nat) : t.vcls p big = charCls t.classes t.b p big := by
  unfold vcls
  split
  · rename_i h
    unfold charCls
    rcases atNul_iff.mp h with hlen | hnl
    · rw [List.getElem?_eq_none hlen]
    · rw [hnl]
      simp
  · rfl

variable (big) in
theorem onEmptyLine_blank (h : t.onEmptyLine p = true) : t.vcls p big = 0 :=
  vcls_nul (Bool.and_eq_true_iff.mp h).2

theorem cellBreak_newline (h : t.b[p]? = some newline) : CellBreak U t.b p := by
  have hlt := (List.getElem?_eq_some_iff.mp h).1
  exact ⟨isBoundary_newline h, Nat.le_of_lt hlt, fun _ _ hrun hs he =>
    absurd h (hrun.noNewline p (Nat.le_of_lt hs) he)⟩

theorem cellBreak_length : CellBreak U t.b t.b.length :=
  ⟨isBoundary_length t.b, Nat.le_refl _, fun _ _ hrun _ he => absurd he (Nat.not_lt.mpr hrun.inside)⟩

/-- The last line's `NUL` slot, and the slot after a final newline. -/
theorem contentEnd_cases (b : Bytes) :
    (contentEnd b = b.length ∧ b.getLast? ≠ some newline) ∨
    (contentEnd b + 1 = b.length ∧ b[contentEnd b]? = some newline) := by
  unfold contentEnd
  split
  · rename_i h
    right
    rw [List.getLast?_eq_getElem?] at h
    have hpos := (List.getElem?_eq_some_iff.mp h).1
    exact ⟨by omega, h⟩
  · rename_i h
    exact .inl ⟨rfl, h⟩

theorem cellBreak_contentEnd : CellBreak U t.b (contentEnd t.b) := by
  rcases contentEnd_cases t.b with ⟨heq, -⟩ | ⟨-, hnl⟩
  · rw [heq]
    exact cellBreak_length
  · exact cellBreak_newline hnl

/-- A step of `vinc` from a boundary leads to the next cell, or there is none up to the last
line's `NUL` slot. -/
theorem vinc_spec (hg : t.steps.Follows U) (hb : isBoundary t.b p = true) (hp : p ≤ t.b.length) :
    (t.vinc p = none ∧ contentEnd t.b ≤ p) ∨
    ∃ q code, t.vinc p = some (q, code) ∧ p < contentEnd t.b ∧ IsLeast {i | p < i ∧ CellBreak U t.b i} q := by
  have hend := contentEnd_cases t.b
  unfold vinc
  cases hnul : atNul t.b p with
  | false =>
    right
    have hnot : ¬ (t.b.length ≤ p ∨ t.b[p]? = some newline) := by
      rw [← atNul_iff, hnul]
      exact Bool.false_ne_true
    simp only [not_or, Nat.not_le] at hnot
    refine ⟨_, _, rfl, ?_, nextGrapheme_cell hg hb hnot.1⟩
    rcases hend with ⟨heq, -⟩ | ⟨heq, hnl⟩
    · omega
    · by_contra hge
      exact hnot.2 (by rwa [show p = contentEnd t.b by omega])
  | true =>
    simp only [Bool.not_true, Bool.false_eq_true, if_false]
    split
    · rename_i hmore
      right
      have hnl : t.b[p]? = some newline := (atNul_iff.mp hnul).resolve_left (by omega)
      refine ⟨p + 1, .crossed, rfl, ?_, ⟨Nat.lt_succ_self p, ?_⟩, fun i hi => hi.1⟩
      · rcases hend with ⟨heq, -⟩ | ⟨heq, -⟩ <;> omega
      · exact (cellBreak_succ hb (by omega) (.inl hnl)).2
    · rename_i hlast
      refine .inl ⟨rfl, ?_⟩
      rcases hend with ⟨heq, hne⟩ | ⟨heq, -⟩
      · rw [heq]
        rcases atNul_iff.mp hnul with hlen | hnl
        · exact hlen
        · have hlt := (List.getElem?_eq_some_iff.mp hnl).1
          refine absurd ?_ hne
          rw [List.getLast?_eq_getElem?, show t.b.length - 1 = p by omega]
          exact hnl
      · omega

/-- And a step of `vdec` back to the last cell before. -/
theorem vdec_spec (hg : t.steps.Follows U) (hb : isBoundary t.b p = true) (hp : p ≤ t.b.length) :
    (t.vdec p = none ∧ p = 0) ∨
    ∃ q code, t.vdec p = some (q, code) ∧ IsGreatest {i | i < p ∧ CellBreak U t.b i} q := by
  unfold vdec
  rcases Nat.eq_zero_or_pos p with hzero | hpos
  · left
    rw [if_neg (by omega), if_neg (by omega)]
    exact ⟨rfl, hzero⟩
  · right
    split
    · exact ⟨_, _, rfl, prevGrapheme_cell hg hb hpos hp⟩
    · rename_i hnot
      have hnl : t.b[p - 1]? = some newline := by
        by_contra hne
        exact hnot ⟨hpos, .inr hne⟩
      exact ⟨_, _, rfl, ⟨Nat.sub_lt hpos Nat.one_pos, cellBreak_newline hnl⟩, fun i hi =>
        Nat.le_sub_one_of_lt hi.1⟩

/-! ## The walks as steps from cell to cell -/

/-- `vinc` goes over the cells up to the last line's `NUL` slot. -/
theorem stepping_fwd (hg : t.steps.Follows U) :
    Stepping {p | p ∈ t.cells U ∧ p ≤ contentEnd t.b} (t.vcls · big) t.onEmptyLine (t.fwdStep false)
      (t.b.length - ·) := by
  constructor
  · rintro p q stop ⟨hp, -⟩ hstep
    rcases vinc_spec hg hp.boundary hp.inside with ⟨hnone, -⟩ | ⟨q', code, hinc, hlt, hleast⟩
    · rw [fwdStep, hnone] at hstep
      cases hstep
    · rw [fwdStep, hinc] at hstep
      simp only [Option.map_some, Bool.false_and, Option.some.injEq, Prod.mk.injEq] at hstep
      obtain ⟨rfl, rfl⟩ := hstep
      have hend := hleast.2 ⟨hlt, cellBreak_contentEnd⟩
      have hinside := hleast.1.2.inside
      refine ⟨rfl, ⟨⟨hleast.1.1, hleast.1.2, hend⟩, fun i hi => hleast.2 ⟨hi.1, hi.2.1⟩⟩, ?_⟩
      have := hleast.1.1
      omega
  · rintro p ⟨hp, -⟩ hstep i ⟨-, hi⟩ hpi
    rcases vinc_spec hg hp.boundary hp.inside with ⟨-, hge⟩ | ⟨q', code, hinc, -, -⟩
    · omega
    · rw [fwdStep, hinc] at hstep
      cases hstep

theorem backStep_spec (hg : t.steps.Follows U) (hp : CellBreak U t.b p) :
    (t.backStep p = none ∧ p = 0) ∨
    ∃ q, t.backStep p = some (q, false) ∧ IsGreatest {i | i < p ∧ CellBreak U t.b i} q := by
  unfold backStep
  rcases vdec_spec hg hp.boundary hp.inside with ⟨hnone, hzero⟩ | ⟨q, code, hdec, hgreatest⟩
  · exact .inl ⟨by rw [hnone]; rfl, hzero⟩
  · exact .inr ⟨q, by rw [hdec]; rfl, hgreatest⟩

/-- `vdec` goes over all cells, from the last on. -/
theorem stepping_back (hg : t.steps.Follows U) :
    SteppingBack (t.cells U) (t.vcls · big) t.onEmptyLine t.backStep fun p => p := by
  constructor
  · intro p q stop hp hstep
    rcases backStep_spec hg hp with ⟨hnone, -⟩ | ⟨q', hback, hgreatest⟩
    · rw [hnone] at hstep
      cases hstep
    · rw [hback] at hstep
      cases hstep
      exact ⟨rfl, hgreatest, hgreatest.1.1⟩
  · intro p hp hstep i _ hi
    rcases backStep_spec hg hp with ⟨-, hzero⟩ | ⟨q', hback, -⟩
    · omega
    · rw [hback] at hstep
      cases hstep

/-- The steps of the walk `e` makes, which looks where the text ends itself. -/
def endStep (t : WordText) (p : Nat) : Option (Nat × Bool) :=
  if p < t.b.length then some (nextGrapheme t.steps t.b p, false) else none

/-- The step to a word's end is a walk over the cells. -/
theorem stepping_end (hg : t.steps.Follows U) :
    Stepping (t.cells U) (t.vcls · big) (fun p => decide (t.b.length ≤ p)) t.endStep
      (t.b.length - ·) := by
  constructor
  · intro p q stop hp hstep
    unfold endStep at hstep
    split at hstep
    · rename_i hlt
      cases hstep
      have hleast := nextGrapheme_cell hg hp.boundary hlt
      refine ⟨rfl, hleast, ?_⟩
      have := hleast.1.1
      omega
    · cases hstep
  · intro p hp hstep i hi hpi
    unfold endStep at hstep
    split at hstep
    · cases hstep
    · have := hi.inside
      omega

/-! ## Where they land -/

theorem emptyLine_iff (hi : i < t.b.length) :
    t.EmptyLine i ↔ i ∈ t.cells U ∧ t.onEmptyLine i = true := by
  refine ⟨fun h => ⟨?_, h.2⟩, fun h => ⟨hi, h.2⟩⟩
  have hnul := (Bool.and_eq_true_iff.mp h.2).2
  exact cellBreak_newline ((atNul_iff.mp hnul).resolve_left (Nat.not_le.mpr hi))

/-- No cell from the last line's `NUL` slot on is in a word. -/
theorem vcls_contentEnd (h : contentEnd t.b ≤ i) : t.vcls i big = 0 := by
  refine vcls_nul (atNul_iff.mpr ?_)
  rcases contentEnd_cases t.b with ⟨heq, -⟩ | ⟨heq, hnl⟩
  · exact .inl (by omega)
  · rcases Nat.eq_or_lt_of_le h with hi | hi
    · exact .inr (by rwa [← hi])
    · exact .inl (by omega)

theorem not_target_past (h : contentEnd t.b < i) :
    ¬ (t.WordStart U big i ∨ t.EmptyLine i) := by
  rintro (hstart | ⟨hlt, -⟩)
  · exact hstart.nonblank (vcls_contentEnd (Nat.le_of_lt h))
  · rcases contentEnd_cases t.b with ⟨heq, -⟩ | ⟨heq, -⟩ <;> omega

/-- The cells `w` goes over have the word starts and empty lines of the text. -/
theorem target_iff (hi : 0 < i) : (t.WordStart U big i ∨ t.EmptyLine i) ↔
    (Starts {p | p ∈ t.cells U ∧ p ≤ contentEnd t.b} (t.vcls · big) i ∨
      (i ∈ {p | p ∈ t.cells U ∧ p ≤ contentEnd t.b} ∧ t.onEmptyLine i = true)) := by
  have hend := contentEnd_cases t.b
  constructor
  · rintro (hstart | hempty)
    · have hlt : i < contentEnd t.b := by
        by_contra hge
        exact hstart.nonblank (vcls_contentEnd (Nat.not_lt.mp hge))
      refine .inl ⟨⟨hstart.cell, Nat.le_of_lt hlt⟩, hstart.nonblank, fun q hq => ?_⟩
      exact hstart.fresh q ⟨⟨hq.1.1, hq.1.2.1⟩, fun k hk => hq.2 ⟨hk.1, hk.2, by have := hk.1; omega⟩⟩
    · have hlt := hempty.1
      obtain ⟨hcell, hat⟩ := (emptyLine_iff (U := U) hlt).mp hempty
      refine .inr ⟨⟨hcell, ?_⟩, hat⟩
      rcases hend with ⟨heq, -⟩ | ⟨heq, -⟩ <;> omega
  · rintro (hstart | ⟨⟨hcell, hle⟩, hat⟩)
    · refine .inl ⟨hstart.cell.1, hstart.nonblank, fun q hq => hstart.fresh q ?_⟩
      have hle := hstart.cell.2
      exact ⟨⟨hq.1.1, hq.1.2, by have := hq.1.1; omega⟩, fun k hk => hq.2 ⟨hk.1, hk.2.1⟩⟩
    · refine .inr ⟨?_, hat⟩
      rcases hend with ⟨heq, hne⟩ | ⟨heq, -⟩
      · -- the end of a text without a final newline starts no line
        by_contra hge
        have hbol := (Bool.and_eq_true_iff.mp hat).1
        have hlast : i = t.b.length := by omega
        simp only [atBol, hlast, le_refl, decide_true, Bool.true_and, Bool.or_eq_true, beq_iff_eq] at hbol
        rcases hbol with hzero | hnl
        · omega
        · exact hne (by rw [List.getLast?_eq_getElem?]; exact hnl)
      · omega

theorem nextWordStart_eq (fuel pos : Nat) :
    t.nextWordStart fuel pos big = (t.fwdWord fuel false (min pos t.b.length) big).map Prod.fst := by
  unfold nextWordStart wordFwd
  rw [Nat.max_self, fwdWords]
  cases h : t.fwdWord fuel (false && 0 == 0) (min pos t.b.length) big with
  | none =>
    rw [Bool.false_and] at h
    rw [h]
    rfl
  | some m =>
    rw [Bool.false_and] at h
    rw [h]
    obtain ⟨q, ret⟩ := m
    cases ret <;> rfl

theorem vinc_onNul {q : Nat} (h : t.vinc p = some (q, .onNul)) :
    atNul t.b p = false ∧ atNul t.b q = true := by
  unfold vinc at h
  split at h
  · rename_i hnot
    simp only [Option.some.injEq, Prod.mk.injEq] at h
    obtain ⟨hq, hcode⟩ := h
    rw [hq] at hcode
    refine ⟨by simpa using hnot, ?_⟩
    by_contra hno
    rw [if_neg hno] at hcode
    cases hcode
  · split at h <;> cases h

variable (big) in
/-- A step onto the last line's `NUL` slot goes to it over no word start. -/
theorem crossed_lands {q : Nat} (hlt : pos < contentEnd t.b)
    (hleast : IsLeast {i | pos < i ∧ CellBreak U t.b i} q) (hinc : t.vinc pos = some (q, .onNul))
    (hlast : t.b.length ≤ q + 1) : t.Lands U big .wordFwd pos q ∧ contentEnd t.b ≤ q := by
  obtain ⟨hpnul, hqnul⟩ := vinc_onNul hinc
  have hqend := hleast.2 ⟨hlt, cellBreak_contentEnd⟩
  have hq : q = contentEnd t.b := by
    rcases contentEnd_cases t.b with ⟨heq, hne⟩ | ⟨heq, -⟩
    · rcases atNul_iff.mp hqnul with hlen | hnl
      · omega
      · have hlt' := (List.getElem?_eq_some_iff.mp hnl).1
        refine absurd ?_ hne
        rw [List.getLast?_eq_getElem?, show t.b.length - 1 = q by omega]
        exact hnl
    · omega
  refine ⟨.inr ⟨fun i hi hor => ?_, by omega⟩, by omega⟩
  have hcell : CellBreak U t.b i := by
    rcases hor with hstart | hempty
    · exact hstart.cell
    · exact ((emptyLine_iff hempty.1).mp hempty).1
  rcases Nat.eq_or_lt_of_le (hleast.2 ⟨hi, hcell⟩) with heq | hgt
  · rw [← heq] at hor
    rcases hor with hstart | hempty
    · exact hstart.nonblank (vcls_nul hqnul)
    · -- the line has a cell before its end
      have hbol := (Bool.and_eq_true_iff.mp hempty.2).1
      simp only [atBol, Bool.or_eq_true, beq_iff_eq, Bool.and_eq_true] at hbol
      rcases hbol with hzero | ⟨-, hnl⟩
      · omega
      · rcases Nat.lt_or_ge pos (q - 1) with hin | hout
        · have := hleast.2 ⟨hin, cellBreak_newline (U := U) hnl⟩
          omega
        · rw [show q - 1 = pos by omega] at hnl
          rw [atNul_iff.mpr (.inr hnl)] at hpnul
          cases hpnul
  · exact not_target_past (by omega) hor

variable (big) in
/-- One word of `word_fwd` from a cell. -/
theorem fwdWord_lands (hg : t.steps.Follows U) (hpos : CellBreak U t.b pos)
    (hfuel : t.b.length < fuel) :
    ∃ r ret, t.fwdWord fuel false pos big = some (r, ret) ∧ t.Lands U big .wordFwd pos r ∧
      CellBreak U t.b r ∧ (ret = true → contentEnd t.b ≤ r) := by
  have hin := hpos.inside
  rcases vinc_spec hg hpos.boundary hin with ⟨hnone, hge⟩ | ⟨q, code, hinc, hlt, hleast⟩
  · rw [fwdWord, hnone]
    refine ⟨pos, true, rfl, .inr ⟨fun i hi => ?_, by omega⟩, hpos, fun _ => hge⟩
    exact not_target_past (by omega)
  · have hfuel' : t.b.length - pos ≤ fuel := by omega
    obtain ⟨r, ret, hseek, ⟨hr, hrend⟩, hfound, hnone⟩ := seek_spec (stepping_fwd hg)
      (show pos ∈ {p | p ∈ t.cells U ∧ p ≤ contentEnd t.b} from ⟨hpos, Nat.le_of_lt hlt⟩) hfuel'
      fun i _ hi => onEmptyLine_blank big hi
    have hsought : t.Lands U big .wordFwd pos r ∧ (ret = true → contentEnd t.b ≤ r) := by
      cases ret with
      | false =>
        obtain ⟨⟨hgt, hat⟩, hmin⟩ := hfound rfl
        refine ⟨?_, fun hf => by cases hf⟩
        refine .inl ⟨⟨hgt, (target_iff (by omega)).mpr hat⟩, fun i hi => hmin ⟨hi.1, ?_⟩⟩
        exact (target_iff (by have := hi.1; omega)).mp hi.2
      | true =>
        obtain ⟨hstep, hno⟩ := hnone rfl
        have hge : contentEnd t.b ≤ r := by
          rcases vinc_spec hg hr.boundary hr.inside with ⟨-, hge⟩ | ⟨q', code', hinc', -, -⟩
          · exact hge
          · rw [fwdStep, hinc'] at hstep
            cases hstep
        exact ⟨.inr ⟨fun i hi hor => hno i hi ((target_iff (by omega)).mp hor), by omega⟩, fun _ => hge⟩
    have hround : t.fwdWord fuel false pos big = some (r, ret) ∨
        (t.fwdWord fuel false pos big = some (q, true) ∧ code = .onNul ∧ t.b.length ≤ q + 1) := by
      rw [fwdWord, hinc]
      cases code with
      | edge => exact .inl hseek
      | within => exact .inl hseek
      | crossed =>
        -- the line stepped out of is not the last
        refine .inl ?_
        have hmore : ¬ t.b.length ≤ pos + 1 := by
          rcases contentEnd_cases t.b with ⟨heq, -⟩ | ⟨heq, -⟩
          · unfold vinc at hinc
            split at hinc
            · simp only [Option.some.injEq, Prod.mk.injEq] at hinc
              have := hinc.2
              split at this <;> cases this
            · split at hinc
              · omega
              · cases hinc
          · omega
        rw [decide_eq_false hmore]
        exact hseek
      | onNul =>
        by_cases hlast : t.b.length ≤ q + 1
        · right
          refine ⟨?_, rfl, hlast⟩
          dsimp only
          rw [decide_eq_true hlast]
          rfl
        · left
          dsimp only
          rw [decide_eq_false hlast]
          exact hseek
    rcases hround with hround | ⟨hround, rfl, hlast⟩
    · exact ⟨r, ret, hround, hsought.1, hr, hsought.2⟩
    · obtain ⟨hlands, hge⟩ := crossed_lands big hlt hleast hinc hlast
      exact ⟨q, true, hround, hlands, hleast.1.2, fun _ => hge⟩

/-- `w` from a cell. -/
theorem nextWordStart_lands (hg : t.steps.Follows U) (hpos : CellBreak U t.b pos)
    (hfuel : t.b.length < fuel) :
    ∃ r, t.nextWordStart fuel pos big = some r ∧ t.Lands U big .wordFwd pos r ∧ CellBreak U t.b r := by
  obtain ⟨r, ret, hword, hlands, hr, -⟩ := fwdWord_lands big hg hpos hfuel
  refine ⟨r, ?_, hlands, hr⟩
  rw [nextWordStart_eq, Nat.min_eq_left hpos.inside, hword]
  rfl

theorem backStep_none (hg : t.steps.Follows U) (hp : CellBreak U t.b p) (h : t.backStep p = none) :
    p = 0 := by
  rcases backStep_spec hg hp with ⟨-, hzero⟩ | ⟨q, hback, -⟩
  · exact hzero
  · rw [hback] at h
    cases h

/-- `ge` from a cell. -/
theorem prevWordEnd_lands (hg : t.steps.Follows U) (hpos : CellBreak U t.b pos)
    (hfuel : t.b.length < fuel) :
    ∃ r, t.prevWordEnd fuel pos big = some r ∧ t.Lands U big .wordEndBack pos r ∧
      CellBreak U t.b r := by
  have hin := hpos.inside
  obtain ⟨r, ret, hseek, hr, hfound, hnone⟩ := seek_spec_back (stepping_back hg)
    (show pos ∈ t.cells U from hpos) (show pos ≤ fuel by omega)
    fun i _ hi => onEmptyLine_blank big hi
  have htarget : ∀ i, i < pos → ((t.WordEnd U big i ∨ t.EmptyLine i) ↔
      (t.WordEnd U big i ∨ (i ∈ t.cells U ∧ t.onEmptyLine i = true))) := by
    intro i hi
    rw [emptyLine_iff (U := U) (by omega)]
  refine ⟨r, by rw [prevWordEnd, Nat.min_eq_left hin, hseek]; rfl, ?_, hr⟩
  cases ret with
  | false =>
    obtain ⟨⟨hlt, hat⟩, hmin⟩ := hfound rfl
    exact .inl ⟨⟨hlt, (htarget r hlt).mpr hat⟩, fun i hi => hmin ⟨hi.1, (htarget i hi.1).mp hi.2⟩⟩
  | true =>
    obtain ⟨hstep, hno⟩ := hnone rfl
    exact .inr ⟨fun i hi hor => hno i hi ((htarget i hi).mp hor), backStep_none hg hr hstep⟩

/-- `b` from a boundary. -/
theorem prevWordStart_lands (hg : t.steps.Follows U) (hb : isBoundary t.b pos = true)
    (hpos : pos ≤ t.b.length) (hfuel : t.b.length < fuel) :
    ∃ r, t.prevWordStart fuel pos big = some r ∧ t.Lands U big .wordBack pos r ∧
      CellBreak U t.b r := by
  unfold prevWordStart
  rw [Nat.min_eq_left hpos]
  rcases vdec_spec hg hb hpos with ⟨hnone, hzero⟩ | ⟨q, code, hdec, hprev⟩
  · rw [hnone]
    refine ⟨0, rfl, .inr ⟨fun i hi => by omega, rfl⟩, ?_⟩
    exact ⟨rfl, Nat.zero_le _, fun s e _ hs _ => absurd hs (Nat.not_lt_zero s)⟩
  · rw [hdec]
    dsimp only
    have hq := hprev.1.1
    obtain ⟨r, ret, hwalk, ⟨hr, hrpos, hμ⟩, hpassed, hedge, hstops, hgoes⟩ :=
      skip_spec_back (stepping_back hg) hprev (show q < fuel by omega)
        fun i _ hi => onEmptyLine_blank big hi
    have htarget : ∀ i, i < pos → ((t.WordStart U big i ∨ t.EmptyLine i) ↔
        (t.WordStart U big i ∨ (i ∈ t.cells U ∧ t.onEmptyLine i = true))) := by
      intro i hi
      rw [emptyLine_iff (U := U) (by omega)]
    rw [hwalk]
    simp only [Option.bind_eq_bind, Option.bind_some]
    cases ret with
    | true =>
      obtain ⟨hstep, hno⟩ := hedge rfl
      rw [Bool.true_or, if_pos rfl]
      exact ⟨r, rfl, .inr ⟨fun i hi hor => hno i hi ((htarget i hi).mp hor), backStep_none hg hr hstep⟩,
        hr⟩
    | false =>
      rw [Bool.false_or]
      by_cases hblank : t.vcls r big = 0
      · -- an empty line
        rw [if_pos (by simpa using hblank)]
        refine ⟨r, rfl, .inl ⟨⟨hrpos, (htarget r hrpos).mpr (.inr ⟨hr, hstops rfl hblank⟩)⟩,
          fun i hi => ?_⟩, hr⟩
        by_contra hlt
        exact hpassed i hi.1 (Nat.lt_of_not_le hlt) ((htarget i hi.1).mp hi.2)
      · rw [if_neg (by simpa using hblank)]
        obtain ⟨r', ret', l, hrun, hr', hgreatest, hcells, hnext, hend⟩ :=
          run_spec_back (stepping_back hg) hr (show r < fuel by omega) hblank
        obtain ⟨⟨hlr, hstart⟩, hmax⟩ := hgreatest
        have hlands : t.Lands U big .wordBack pos l := by
          refine .inl ⟨⟨by omega, .inl hstart⟩, fun i hi => ?_⟩
          obtain ⟨hip, hor⟩ := hi
          by_contra hgt
          rcases Nat.lt_or_ge r i with hri | hir
          · exact hpassed i hip hri ((htarget i hip).mp hor)
          · rcases hor with hstart' | hempty
            · exact hgt (hmax ⟨hir, hstart'⟩)
            · -- the cells of the run are no blanks
              have hcell := ((emptyLine_iff (U := U) hempty.1).mp hempty).1
              refine hblank ?_
              rw [← hcells i hcell hir (Nat.le_of_not_le hgt)]
              exact onEmptyLine_blank big hempty.2
        rw [hrun]
        simp only [Option.bind_some]
        cases ret' with
        | true =>
          obtain ⟨rfl, -⟩ := hend rfl
          exact ⟨r', rfl, hlands, hstart.cell⟩
        | false =>
          have hafter := (hnext rfl).next hstart.cell
          rcases vinc_spec hg hr'.boundary hr'.inside with ⟨-, hge⟩ | ⟨k, code', hinc, -, hleast⟩
          · have := hafter.1.1
            exact absurd (vcls_contentEnd (by omega)) hstart.nonblank
          · rw [hinc]
            refine ⟨l, ?_, hlands, hstart.cell⟩
            have hkl : k = l := hleast.unique hafter
            rw [hkl]
            rfl

theorem nextGrapheme_length (g : Segmenter) (b : Bytes) : nextGrapheme g b b.length = b.length := by
  simp [nextGrapheme, nextBoundary_length]

/-- The text's last cell, where `e` stays when no word end follows. -/
theorem cellBreak_last (hg : t.steps.Follows U) :
    CellBreak U t.b (prevGrapheme t.steps t.b t.b.length) := by
  rcases Nat.eq_zero_or_pos t.b.length with hzero | hpos
  · rw [hzero]
    simp only [prevGrapheme, Nat.lt_irrefl, false_and, if_false, Nat.min_eq_left (Nat.zero_le _), true_or,
      if_true]
    have hprev : prevBoundary t.b 0 = 0 := by rfl
    rw [hprev]
    exact ⟨rfl, Nat.zero_le _, fun s e _ hs _ => absurd hs (Nat.not_lt_zero s)⟩
  · exact (prevGrapheme_cell hg (isBoundary_length t.b) hpos (Nat.le_refl _)).1.2

/-- The walk of `e` over blanks, as steps from cell to cell. -/
theorem walk_blanks (fuel q : Nat) :
    walk (fun i => some (nextGrapheme t.steps t.b i, false))
      (fun i => i < t.b.length && charCls t.classes t.b i big == 0) fuel q =
    walk t.endStep (fun k => t.vcls k big == 0 && !decide (t.b.length ≤ k)) fuel q := by
  have hgo : (fun i => decide (i < t.b.length) && charCls t.classes t.b i big == 0) =
      fun k => t.vcls k big == 0 && !decide (t.b.length ≤ k) := by
    funext k
    rw [vcls_eq, Bool.and_comm, ← decide_not]
    simp only [Nat.not_le]
  rw [← hgo]
  refine walk_congr (fun p hp => ?_) fuel q
  rw [endStep, if_pos (of_decide_eq_true (Bool.and_eq_true_iff.mp hp).1)]

/-- And its walk over the word at `r`. -/
theorem walk_word {r : Nat} (hr : t.vcls r big ≠ 0) (fuel : Nat) :
    walk (fun i => some (nextGrapheme t.steps t.b i, false))
      (fun k => k < t.b.length && charCls t.classes t.b k big == charCls t.classes t.b r big) fuel r =
    walk t.endStep (fun k => t.vcls k big == t.vcls r big) fuel r := by
  have hgo : (fun k => decide (k < t.b.length) &&
      charCls t.classes t.b k big == charCls t.classes t.b r big) =
      fun k => t.vcls k big == t.vcls r big := by
    funext k
    rw [vcls_eq k, vcls_eq r]
    rcases Nat.lt_or_ge k t.b.length with hlt | hge
    · rw [decide_eq_true hlt, Bool.true_and]
    · have hzero : charCls t.classes t.b k big = 0 := by
        rw [← vcls_eq]
        exact vcls_nul (atNul_iff.mpr (.inl hge))
      rw [vcls_eq] at hr
      rw [hzero, decide_eq_false (Nat.not_lt.mpr hge), Bool.false_and]
      exact (beq_eq_false_iff_ne.mpr (Ne.symm hr)).symm
  rw [hgo]
  refine walk_congr (fun p hp => ?_) fuel r
  have hlt : p < t.b.length := by
    by_contra hge
    rw [vcls_nul (atNul_iff.mpr (.inl (Nat.not_lt.mp hge)))] at hp
    exact hr (beq_iff_eq.mp hp).symm
  rw [endStep, if_pos hlt]

/-- `e` from a boundary. -/
theorem nextWordEnd_lands (hg : t.steps.Follows U) (hb : isBoundary t.b pos = true)
    (hpos : pos ≤ t.b.length) (hfuel : t.b.length < fuel) :
    ∃ r, t.nextWordEnd fuel pos big = some r ∧ t.Lands U big .wordEnd pos r ∧ CellBreak U t.b r := by
  unfold nextWordEnd wordEndIn
  rw [Nat.min_eq_left hpos]
  simp only [walk_blanks]
  rcases Nat.eq_or_lt_of_le hpos with heq | hlt
  · -- no cell follows
    obtain ⟨fuel, rfl⟩ : ∃ n, fuel = n + 1 := ⟨fuel - 1, by omega⟩
    rw [heq, nextGrapheme_length, walk, decide_eq_true (Nat.le_refl _)]
    simp only [Bool.not_true, Bool.and_false, Bool.false_eq_true, if_false, Option.bind_eq_bind,
      Option.bind_some, le_refl, if_true, Option.map_some]
    refine ⟨_, rfl, .inr ⟨fun i hi hends => ?_, rfl⟩, cellBreak_last hg⟩
    have := hends.cell.inside
    omega
  · have hnext : Next (t.cells U) pos (nextGrapheme t.steps t.b pos) := nextGrapheme_cell hg hb hlt
    have hstop : ∀ i ∈ t.cells U, decide (t.b.length ≤ i) = true → t.vcls i big = 0 := fun i _ hi =>
      vcls_nul (atNul_iff.mpr (.inl (of_decide_eq_true hi)))
    obtain ⟨r, ret, hwalk, ⟨hr, hposr, -⟩, hpassed, hedge, hstops, hgoes⟩ :=
      skip_spec (stepping_end hg) hnext (show t.b.length - _ < fuel by omega) hstop
    rw [hwalk]
    simp only [Option.bind_eq_bind, Option.bind_some]
    by_cases hend : t.b.length ≤ r
    · -- only blanks follow
      rw [if_pos hend]
      refine ⟨_, rfl, .inr ⟨fun i hi hends => ?_, rfl⟩, cellBreak_last hg⟩
      rcases Nat.lt_or_ge i r with hir | hri
      · exact hpassed i hi hir (.inl hends)
      · exact hends.nonblank (vcls_nul (atNul_iff.mpr (.inl (by omega))))
    · rw [if_neg hend]
      have hne : t.vcls r big ≠ 0 := by
        intro hzero
        cases ret with
        | true =>
          obtain ⟨hstep, -⟩ := hedge rfl
          rw [endStep, if_pos (by omega)] at hstep
          cases hstep
        | false => exact hend (of_decide_eq_true (hstops rfl hzero))
      obtain ⟨r', ret', l, hrun, hr', ⟨⟨hrl, hends⟩, hmin⟩, -, hafter, hover⟩ :=
        run_spec (stepping_end hg) hr (show t.b.length - r < fuel by omega) hne
      rw [walk_word hne, hrun]
      have hlands : t.Lands U big .wordEnd pos l := by
        refine .inl ⟨⟨by omega, hends⟩, fun i hi => ?_⟩
        by_contra hgt
        rcases Nat.lt_or_ge i r with hir | hri
        · exact hpassed i hi.1 hir (.inl hi.2)
        · exact hgt (hmin ⟨hri, hi.2⟩)
      refine ⟨l, ?_, hlands, hends.cell⟩
      cases ret' with
      | true =>
        -- a word does not go on to the end of the text
        obtain ⟨rfl, hstep⟩ := hover rfl
        rw [endStep] at hstep
        split at hstep
        · cases hstep
        · rename_i hge
          exact absurd (vcls_nul (atNul_iff.mpr (.inl (Nat.not_lt.mp hge)))) hends.nonblank
      | false =>
        have hprev := (hafter rfl).prev hends.cell
        have hback := prevGrapheme_cell hg hr'.boundary (Nat.zero_lt_of_lt hprev.1.1) hr'.inside
        exact congrArg some (hback.unique hprev)

/-! ## Counts -/

def moved (t : WordText) (fuel : Nat) (m : WordMotion) (big : Bool) (p : Nat) : Nat :=
  (t.move fuel m big p).getD p

theorem vinc_past (hg : t.steps.Follows U) (hp : CellBreak U t.b p) (hge : contentEnd t.b ≤ p) :
    t.vinc p = none := by
  rcases vinc_spec hg hp.boundary hp.inside with ⟨hnone, -⟩ | ⟨q, code, -, hlt, -⟩
  · exact hnone
  · omega

/-- The words of `word_fwd` are those of bare steps. -/
theorem fwdWords_eq (hg : t.steps.Follows U) (hfuel : t.b.length < fuel) (left : Nat)
    (hp : CellBreak U t.b p) :
    t.fwdWords fuel big false left p = some ((t.moved fuel .wordFwd big)^[left] p) := by
  induction left generalizing p with
  | zero => rfl
  | succ left ih =>
    obtain ⟨r, ret, hword, -, hr, hend⟩ := fwdWord_lands big hg hp hfuel
    have hstep : t.moved fuel .wordFwd big p = r := by
      rw [moved, move, nextWordStart_eq, Nat.min_eq_left hp.inside, hword]
      rfl
    rw [fwdWords, Bool.false_and, hword, Function.iterate_succ_apply, hstep]
    cases ret with
    | false => exact ih hr
    | true =>
      -- no step leads on
      have hstay : t.moved fuel .wordFwd big r = r := by
        rw [moved, move, nextWordStart_eq, Nat.min_eq_left hr.inside, fwdWord, vinc_past hg hr (hend rfl)]
        rfl
      exact congrArg some (Function.iterate_fixed hstay left).symm

/-- Where a motion may start: `w` and `ge` from cells. -/
def Start (U : UnicodeData) (t : WordText) (m : WordMotion) (p : Nat) : Prop :=
  isBoundary t.b p = true ∧ p ≤ t.b.length ∧ (m = .wordFwd ∨ m = .wordEndBack → CellBreak U t.b p)

theorem Start.of_cell (h : CellBreak U t.b p) : t.Start U m p :=
  ⟨h.boundary, h.inside, fun _ => h⟩

variable (big) in
theorem move_lands (hg : t.steps.Follows U) (hpos : t.Start U m pos) (hfuel : t.b.length < fuel) :
    ∃ r, t.move fuel m big pos = some r ∧ t.Lands U big m pos r ∧ CellBreak U t.b r := by
  obtain ⟨hb, hle, hcell⟩ := hpos
  cases m with
  | wordFwd => exact nextWordStart_lands hg (hcell (.inl rfl)) hfuel
  | wordBack => exact prevWordStart_lands hg hb hle hfuel
  | wordEnd => exact nextWordEnd_lands hg hb hle hfuel
  | wordEndBack => exact prevWordEnd_lands hg (hcell (.inr rfl)) hfuel

theorem moves_eq (hg : t.steps.Follows U) (hfuel : t.b.length < fuel) (left : Nat) {c : Nat}
    (hc : t.Start U m c) :
    t.moves fuel m big left c = some ((t.moved fuel m big)^[left] c) := by
  induction left generalizing c with
  | zero => rfl
  | succ left ih =>
    obtain ⟨r, hmove, -, hr⟩ := move_lands big hg hc hfuel
    have hstep : t.moved fuel m big c = r := by
      rw [moved, hmove]
      rfl
    rw [moves, hmove, Function.iterate_succ_apply, hstep]
    dsimp only
    split
    · rename_i hstay
      rw [hstay] at hstep ⊢
      exact congrArg some (Function.iterate_fixed hstep left).symm
    · exact ih (.of_cell hr)

/-- A place `w` and `b` stop at: a word's start, or an empty line. -/
abbrev Stop (U : UnicodeData) (t : WordText) (big : Bool) (p : Nat) : Prop :=
  t.WordStart U big p ∨ t.EmptyLine p

theorem Stop.cell (h : t.Stop U big p) : CellBreak U t.b p := by
  rcases h with hstart | hempty
  · exact hstart.cell
  · exact ((emptyLine_iff hempty.1).mp hempty).1

theorem next_iff_prev {S : Nat → Prop} {q : Nat} (hp : S p) (hq : S q) :
    IsLeast {i | p < i ∧ S i} q ↔ IsGreatest {i | i < q ∧ S i} p := by
  constructor
  · rintro ⟨⟨hlt, -⟩, hleast⟩
    refine ⟨⟨hlt, hp⟩, fun i ⟨hiq, hi⟩ => ?_⟩
    by_contra hpi
    have := hleast ⟨by omega, hi⟩
    omega
  · rintro ⟨⟨hlt, -⟩, hgreatest⟩
    refine ⟨⟨hlt, hq⟩, fun i ⟨hpi, hi⟩ => ?_⟩
    by_contra hiq
    have := hgreatest ⟨by omega, hi⟩
    omega

/-- From a stop `w` leads to, `b` leads back, and from one `b` leads to, `w`. -/
theorem moved_back (hg : t.steps.Follows U) (hfuel : t.b.length < fuel) {q : Nat}
    (hp : t.Stop U big p) (hq : t.Stop U big q) (hne : q ≠ p) :
    t.moved fuel .wordFwd big p = q ↔ t.moved fuel .wordBack big q = p := by
  obtain ⟨r, hfwd, hr, -⟩ := move_lands big hg (Start.of_cell hp.cell (m := .wordFwd)) hfuel
  obtain ⟨l, hback, hl, -⟩ := move_lands big hg (Start.of_cell hq.cell (m := .wordBack)) hfuel
  rw [moved, moved, hfwd, hback]
  show r = q ↔ l = p
  have hadj := next_iff_prev (S := t.Stop U big) hp hq
  constructor
  · rintro rfl
    have hleast : IsLeast {i | p < i ∧ t.Stop U big i} r := hr.resolve_right fun hnone => by
      have hle := hnone.2
      exact hnone.1 r (by omega) hq
    exact (hl.resolve_right fun hnone => hnone.1 p hleast.1.1 hp).unique (hadj.mp hleast)
  · rintro rfl
    have hgreatest : IsGreatest {i | i < q ∧ t.Stop U big i} l := hl.resolve_right fun hnone => by
      have hzero := hnone.2
      exact hnone.1 l (by omega) hp
    exact (hr.resolve_right fun hnone => hnone.1 q hgreatest.1.1 hq).unique (hadj.mpr hgreatest)

/-- Bare steps of `m` from `p`, each of them on to another stop. -/
def Goes (U : UnicodeData) (t : WordText) (fuel : Nat) (m : WordMotion) (big : Bool) (n p : Nat) :
    Prop :=
  ∀ k < n, (t.moved fuel m big)^[k + 1] p ≠ (t.moved fuel m big)^[k] p ∧
    t.Stop U big ((t.moved fuel m big)^[k + 1] p)

theorem iterate_back {f g : Nat → Nat} {P : Nat → Prop} {n : Nat}
    (hback : ∀ p q, P p → P q → q ≠ p → f p = q → g q = p) (hp : P p)
    (hgoes : ∀ k < n, f^[k + 1] p ≠ f^[k] p ∧ P (f^[k + 1] p)) : g^[n] (f^[n] p) = p := by
  induction n with
  | zero => rfl
  | succ n ih =>
    have hlast : P (f^[n] p) := by
      cases n with
      | zero => exact hp
      | succ n => exact (hgoes n (by omega)).2
    obtain ⟨hne, hnext⟩ := hgoes n (Nat.lt_succ_self n)
    have hone := hback _ _ hlast hnext hne (Function.iterate_succ_apply' f n p).symm
    rw [Function.iterate_succ_apply, hone]
    exact ih fun k hk => hgoes k (Nat.lt_succ_of_lt hk)

end WordText

/-- `b` undoes `w`, and `w` undoes `b`, with any count: from a word's start or an empty line,
when each step counted goes on to another one, the same count the other way leads back. -/
theorem words_there_and_back (U : UnicodeData) (t : WordText) (hg : t.steps.Follows U) (big : Bool)
    (pos : Nat) (hpos : t.Stop U big pos) (fuel : Nat) (hfuel : t.b.length < fuel) (count r : Nat) :
    (t.Goes U fuel .wordFwd big (max count 1) pos →
      t.target fuel pos .wordFwd big count = some r →
        t.target fuel r .wordBack big count = some pos) ∧
    (t.Goes U fuel .wordBack big (max count 1) pos →
      t.target fuel pos .wordBack big count = some r →
        t.target fuel r .wordFwd big count = some pos) := by
  have hto (m : WordMotion) {p : Nat} (hp : t.Stop U big p) :
      t.target fuel p m big count = some ((t.moved fuel m big)^[max count 1] p) := by
    rw [WordText.target, Nat.min_eq_left hp.cell.inside]
    exact WordText.moves_eq hg hfuel _ (.of_cell hp.cell)
  have hreturn {m m' : WordMotion} (hgoes : t.Goes U fuel m big (max count 1) pos)
      (hback : ∀ p q, t.Stop U big p → t.Stop U big q → q ≠ p →
        t.moved fuel m big p = q → t.moved fuel m' big q = p)
      (hr : t.target fuel pos m big count = some r) :
      t.target fuel r m' big count = some pos := by
    have hlast := (hgoes (max count 1 - 1) (by omega)).2
    rw [show max count 1 - 1 + 1 = max count 1 by omega] at hlast
    rw [hto m hpos] at hr
    obtain rfl := Option.some.inj hr
    rw [hto m' hlast]
    exact congrArg some (WordText.iterate_back hback hpos hgoes)
  constructor
  · intro hgoes
    exact hreturn hgoes fun p q hp hq hne => (WordText.moved_back hg hfuel hp hq hne).mp
  · intro hgoes
    exact hreturn hgoes fun p q hp hq hne => (WordText.moved_back hg hfuel hq hp hne.symm).mpr

/-- Two words ahead in `a, bc`, and two back. -/
theorem words_there_and_back_comma :
    (⟨[97, 44, 32, 98, 99], .wholeText .acute, []⟩ : WordText).target 9 3 .wordBack false 2 = some 0 := by
  let t : WordText := ⟨[97, 44, 32, 98, 99], .wholeText .acute, []⟩
  have hg : t.steps.Follows .acute := Segmenter.wholeText_follows _
  have hzero : t.Stop .acute false 0 :=
    .inl ⟨⟨rfl, Nat.zero_le _, fun s _ _ hs _ => absurd hs (Nat.not_lt_zero s)⟩, by decide +kernel,
      fun q hq => absurd hq.1.1 (Nat.not_lt_zero q)⟩
  -- a step that ends before the text does ends on a stop
  have hop {p r : Nat} (hp : t.Stop .acute false p) (hmove : t.move 9 .wordFwd false p = some r)
      (hr : r < 5) : t.Stop .acute false r := by
    obtain ⟨r', hmove', hlands, -⟩ :=
      WordText.move_lands (m := .wordFwd) false hg (.of_cell hp.cell) (show t.b.length < 9 by decide)
    cases hmove.symm.trans hmove'
    rcases hlands with hleast | ⟨-, hend⟩
    · exact hleast.1.2
    · have hcontent : contentEnd t.b = 5 := by decide
      omega
  have hone := hop hzero (show _ = some 1 by decide +kernel) (by decide)
  have hthree := hop hone (show _ = some 3 by decide +kernel) (by decide)
  have hmoved : t.moved 9 .wordFwd false 0 = 1 ∧ t.moved 9 .wordFwd false 1 = 3 := by decide +kernel
  refine (words_there_and_back .acute t hg false 0 hzero 9 (by decide) 2 3).1 (fun k hk => ?_) (by decide +kernel)
  rcases k with _ | _ | k
  · exact ⟨by simp [hmoved.1], by simpa [hmoved.1] using hone⟩
  · exact ⟨by simp [hmoved.1, hmoved.2], by simpa [hmoved.1, hmoved.2] using hthree⟩
  · omega

/-- From a cell, and for `b` and `e` from any boundary, a motion lands on the next word start,
word end or empty line its way, on a boundary; a count makes as many bare steps, also the
count `word_fwd` takes itself. -/
theorem word_motions_land (U : UnicodeData) (t : WordText) (hg : t.steps.Follows U) (m : WordMotion)
    (big : Bool) (pos : Nat) (hpos : t.Start U m pos) (fuel : Nat) (hfuel : t.b.length < fuel) :
    (∃ r, t.move fuel m big pos = some r ∧ t.Lands U big m pos r ∧ isBoundary t.b r = true) ∧
    (∀ count, t.target fuel pos m big count = some ((t.moved fuel m big)^[max count 1] pos)) ∧
    (m = .wordFwd → ∀ count,
      t.wordFwd fuel pos big count false = some ((t.moved fuel m big)^[max count 1] pos)) := by
  refine ⟨?_, fun count => ?_, ?_⟩
  · obtain ⟨r, hmove, hlands, hr⟩ := WordText.move_lands big hg hpos hfuel
    exact ⟨r, hmove, hlands, hr.boundary⟩
  · rw [WordText.target, Nat.min_eq_left hpos.2.1]
    exact WordText.moves_eq hg hfuel _ hpos
  · rintro rfl count
    have hcell := hpos.2.2 (.inl rfl)
    rw [WordText.wordFwd, Nat.min_eq_left hcell.inside]
    exact WordText.fwdWords_eq hg hfuel _ hcell

/-- `e` from an accented letter lands on the comma after it, `2e` on the word after that. -/
theorem word_motions_land_acute :
    (⟨[101, 0xCC, 0x81, 44, 32, 120], .wholeText .acute, []⟩ : WordText).Lands .acute false .wordEnd 0 3 ∧
    (⟨[101, 0xCC, 0x81, 44, 32, 120], .wholeText .acute, []⟩ : WordText).target 9 0 .wordEnd false 2 =
      some 5 := by
  have h := word_motions_land .acute ⟨[101, 0xCC, 0x81, 44, 32, 120], .wholeText .acute, []⟩
    (Segmenter.wholeText_follows _) .wordEnd false 0
    ⟨by decide, by decide, fun h => by rcases h with h | h <;> cases h⟩ 9 (by decide)
  obtain ⟨⟨r, hmove, hlands, -⟩, -, -⟩ := h
  have hthree : (⟨[101, 0xCC, 0x81, 44, 32, 120], .wholeText .acute, []⟩ : WordText).move 9 .wordEnd false 0 =
      some 3 := by decide +kernel
  rw [hthree] at hmove
  cases hmove
  exact ⟨hlands, by decide +kernel⟩

/-- From between a comma and the accent on it `w` passes the word that follows. -/
theorem w_inside_cluster :
    let t : WordText := ⟨[44, 0xCC, 0x81, 97, 98, 99], .wholeText .acute, []⟩
    t.steps.Follows .acute ∧ isBoundary t.b 1 = true ∧ t.move 9 .wordFwd false 1 = some 6 ∧
      t.WordStart .acute false 3 ∧ ¬ t.Lands .acute false .wordFwd 1 6 := by
  intro t
  have hfollows : t.steps.Follows .acute := Segmenter.wholeText_follows _
  have hzero : CellBreak .acute t.b 0 :=
    ⟨by decide, by decide, fun s _ _ hs _ => absurd hs (Nat.not_lt_zero s)⟩
  have hnext : Next (t.cells .acute) 0 3 := by
    have h := nextGrapheme_cell hfollows hzero.boundary (by decide)
    rwa [show nextGrapheme t.steps t.b 0 = 3 by decide +kernel] at h
  have hstart : t.WordStart .acute false 3 := by
    refine ⟨hnext.1.2, by decide +kernel, fun q hq => ?_⟩
    rw [hq.unique (hnext.prev hzero)]
    decide +kernel
  refine ⟨hfollows, by decide, by decide +kernel, hstart, ?_⟩
  rintro (hleast | ⟨hnone, -⟩)
  · have := hleast.2 ⟨show 1 < 3 by decide, .inl hstart⟩
    omega
  · exact hnone 3 (by decide) (.inl hstart)

end Ruse.Core
