import Ruse.Tui.TermCells

/-!
# Glyphs on the rows of a screen

A row is whole (`Row`) when a cell is a continuation exactly where the cell to its left holds
a glyph of two columns, and no such glyph is cut off by the end of the row. An operation that
replaces, inserts or deletes cells keeps a row whole when its edges part glyphs (`Parts`):
the first column it replaces and the first it leaves are not the right half of one
(`Row.replace`, `Row.insert`, `Row.delete`). Whole rows may be moved and blanked freely.
-/

namespace Ruse.Tui.Term

open Ruse.Lib

variable {width : Char → Option Nat}

/-- Whether a cell holds a glyph of two columns. -/
def wide (width : Char → Option Nat) (x : GridCell) : Bool :=
  x.text.head?.any fun c => width c == some 2

@[simp] theorem wide_blank (st : CellStyle) : wide width (.blank st) = false := rfl

@[simp] theorem blank_continuation (st : CellStyle) :
    (GridCell.blank st).continuation = false := rfl

theorem wide_append {x : GridCell} {c : Char} (hc : (width c).getD 0 = 0) :
    wide width { x with text := x.text ++ [c] } = wide width x := by
  cases htext : x.text with
  | nil =>
    cases hw : width c with
    | none => simp [wide, htext, hw]
    | some n =>
      rw [hw] at hc
      simp only [Option.getD_some] at hc
      simp [wide, htext, hw, hc]
  | cons d text => simp [wide, htext]

/-- A row whose continuations are the right halves of its glyphs of two columns, all of them
within the row. -/
structure Row (width : Char → Option Nat) (cols : Nat) (x : Nat → GridCell) : Prop where
  halves : ∀ c, c < cols → ((x c).continuation = true ↔ 0 < c ∧ wide width (x (c - 1)) = true)
  last : 1 < cols → wide width (x (cols - 1)) = false

/-- No glyph lies on both sides of the left edge of column `c`. -/
def Parts (cols : Nat) (x : Nat → GridCell) (c : Nat) : Prop :=
  c < cols → (x c).continuation = false

/-- The columns kept hold whole glyphs. A glyph of two columns in a screen of one has no right
half. -/
def KeepsWhole (width : Char → Option Nat) (oldCols cols : Nat) (x : Nat → GridCell) : Prop :=
  1 < cols → Parts oldCols x cols ∧ (oldCols = 1 → wide width (x 0) = false)

namespace Row

variable {cols : Nat} {x y : Nat → GridCell} {a b n : Nat}

theorem congr (h : Row width cols x) (hxy : ∀ c, c < cols → x c = y c) : Row width cols y := by
  refine ⟨fun c hc => ?_, fun hcols => ?_⟩
  · rw [← hxy c hc, ← hxy (c - 1) (by omega)]
    exact h.halves c hc
  · rw [← hxy (cols - 1) (by omega)]
    exact h.last hcols

theorem blank (st : CellStyle) : Row width cols fun _ => .blank st :=
  ⟨fun c _ => by simp, fun _ => rfl⟩

theorem parts_zero (h : Row width cols x) : Parts cols x 0 := by
  intro hc
  have := h.halves 0 hc
  simpa using this

theorem not_wide (h : Row width cols x) (hc : Parts cols x b) (hb : 0 < b) (hbc : b ≤ cols)
    (hcols : 1 < cols) : wide width (x (b - 1)) = false := by
  by_cases hlt : b < cols
  · have hhalf := h.halves b hlt
    rw [hc hlt] at hhalf
    simpa [hb] using hhalf
  · rw [show b = cols by omega]
    exact h.last hcols

/-- Cells replaced by others that make whole glyphs. -/
theorem replace (h : Row width cols x) (ha : Parts cols x a) (hb : Parts cols x b) (hab : a < b)
    (hbc : b ≤ cols) (hfirst : (y a).continuation = false)
    (hy : ∀ c, a < c → c < b → ((y c).continuation = true ↔ wide width (y (c - 1)) = true))
    (hlast : 1 < cols → wide width (y (b - 1)) = false) :
    Row width cols fun c => if a ≤ c ∧ c < b then y c else x c := by
  refine ⟨fun c hc => ?_, fun hcols => ?_⟩
  · rcases Nat.lt_trichotomy c a with hlt | rfl | hgt
    · rw [if_neg (by omega), if_neg (by omega)]
      exact h.halves c hc
    · rw [if_pos ⟨le_rfl, hab⟩, hfirst]
      simp only [Bool.false_eq_true, false_iff, not_and]
      intro hpos
      rw [if_neg (by omega), h.not_wide ha hpos hc.le (by omega)]
      simp
    · rcases Nat.lt_trichotomy c b with hlt | rfl | hgt'
      · rw [if_pos ⟨hgt.le, hlt⟩, if_pos ⟨by omega, by omega⟩, hy c hgt hlt]
        simp [Nat.zero_lt_of_lt hgt]
      · rw [if_neg (by omega), if_pos ⟨by omega, by omega⟩, hb hc, hlast (by omega)]
        simp
      · rw [if_neg (by omega), if_neg (by omega)]
        exact h.halves c hc
  · show wide width (if a ≤ cols - 1 ∧ cols - 1 < b then y (cols - 1) else x (cols - 1)) = false
    split
    · rename_i hin
      rw [show cols - 1 = b - 1 by omega]
      exact hlast hcols
    · exact h.last hcols

theorem erase (h : Row width cols x) (ha : Parts cols x a) (hb : Parts cols x b)
    (st : CellStyle) : Row width cols fun c => if a ≤ c ∧ c < b then .blank st else x c := by
  by_cases hab : a < min b cols
  · refine (h.replace (y := fun _ => .blank st) (b := min b cols) ha ?_ hab (by omega) rfl
      (fun c _ _ => by simp) (fun _ => rfl)).congr fun c hc => ?_
    · intro hlt
      rw [show min b cols = b by omega]
      exact hb (by omega)
    · simp [hc]
  · exact h.congr fun c hc => (if_neg (by omega)).symm

/-- Blank cells put in. -/
theorem insert (h : Row width cols x) (ha : Parts cols x a) (hn : 0 < n) (hacols : a < cols)
    (hcut : Parts cols x (cols - min n (cols - a))) (st : CellStyle) :
    Row width cols fun c => if a ≤ c then if c < a + n then .blank st else x (c - n) else x c := by
  refine ⟨fun c hc => ?_, fun hcols => ?_⟩
  · rcases Nat.lt_or_ge c a with hlt | hge
    · rw [if_neg (by omega), if_neg (by omega)]
      exact h.halves c hc
    · rw [if_pos hge]
      by_cases hin : c < a + n
      · rw [if_pos hin]
        simp only [blank_continuation, Bool.false_eq_true, false_iff, not_and]
        intro hpos
        by_cases heq : c = a
        · subst heq
          rw [if_neg (by omega), h.not_wide ha hpos hc.le (by omega)]
          simp
        · rw [if_pos (by omega), if_pos (by omega)]
          simp
      · rw [if_neg hin, if_pos (by omega)]
        by_cases heq : c = a + n
        · subst heq
          rw [if_pos (by omega), Nat.add_sub_cancel, ha hacols]
          simp
        · rw [if_neg (by omega), h.halves (c - n) (by omega), Nat.sub_right_comm]
          have : 0 < c - n ∧ 0 < c := by omega
          simp [this]
  · show wide width (if a ≤ cols - 1 then
      if cols - 1 < a + n then .blank st else x (cols - 1 - n) else x (cols - 1)) = false
    rw [if_pos (by omega)]
    split
    · rfl
    · rw [show min n (cols - a) = n by omega] at hcut
      rw [Nat.sub_right_comm]
      exact h.not_wide hcut (by omega) (by omega) hcols

/-- Cells taken out. -/
theorem delete (h : Row width cols x) (ha : Parts cols x a) (hn : 0 < n)
    (hcut : Parts cols x (a + n)) (st : CellStyle) :
    Row width cols fun c => if a ≤ c then if c + n < cols then x (c + n) else .blank st else x c := by
  refine ⟨fun c hc => ?_, fun hcols => ?_⟩
  · rcases Nat.lt_or_ge c a with hlt | hge
    · rw [if_neg (by omega), if_neg (by omega)]
      exact h.halves c hc
    · rw [if_pos hge]
      by_cases heq : c = a
      · have hleft : ¬ (0 < c ∧ wide width (if a ≤ c - 1 then
            if c - 1 + n < cols then x (c - 1 + n) else .blank st else x (c - 1)) = true) := by
          rintro ⟨hpos, hw⟩
          rw [if_neg (by omega), heq, h.not_wide ha (heq ▸ hpos) (by omega) (by omega)] at hw
          cases hw
        rw [iff_false_right hleft, Bool.not_eq_true]
        split
        · rename_i hlt
          exact heq ▸ hcut (heq ▸ hlt)
        · rfl
      · have hleft : a ≤ c - 1 := by omega
        rw [if_pos hleft]
        by_cases hin : c + n < cols
        · have hlt : c - 1 + n < cols := by omega
          rw [if_pos hin, if_pos hlt, h.halves (c + n) hin,
            show c + n - 1 = c - 1 + n by omega]
          have : 0 < c + n ∧ 0 < c := by omega
          simp [this]
        · rw [if_neg hin]
          simp only [blank_continuation, Bool.false_eq_true, false_iff, not_and]
          intro hpos
          split
          · rw [show c - 1 + n = cols - 1 by omega, h.last (by omega)]
            simp
          · simp
  · show wide width (if a ≤ cols - 1 then
      if cols - 1 + n < cols then x (cols - 1 + n) else .blank st else x (cols - 1)) = false
    rw [if_neg (show ¬ cols - 1 + n < cols by omega)]
    split
    · rfl
    · exact h.last hcols

/-- A row cut or widened is one of whole glyphs, where the cut parts none. -/
theorem remap {oldCols : Nat} (h : Row width oldCols x) (hkeeps : KeepsWhole width oldCols cols x)
    (hold : 0 < oldCols) :
    Row width cols fun c => if c < oldCols then x c else .blank .default := by
  -- the last glyph of a row made longer ends in the old row
  have hedge (hlong : oldCols < cols) : wide width (x (oldCols - 1)) = false := by
    by_cases hone : oldCols = 1
    · rw [hone]
      exact (hkeeps (by omega)).2 hone
    · exact h.last (by omega)
  refine ⟨fun c hc => ?_, fun hcols => ?_⟩
  · rcases Nat.lt_trichotomy c oldCols with hlt | rfl | hgt
    · rw [if_pos hlt, if_pos (by omega)]
      exact h.halves c hlt
    · rw [if_neg (lt_irrefl c), if_pos (by omega), hedge hc]
      simp
    · rw [if_neg (by omega), if_neg (by omega)]
      simp
  · show wide width (if cols - 1 < oldCols then x (cols - 1) else .blank .default) = false
    split
    · exact h.not_wide (hkeeps hcols).1 (by omega) (by omega) (by omega)
    · rfl

theorem ite (hx : Row width cols x) (hy : Row width cols y) (p : Prop) [Decidable p] :
    Row width cols fun c => if p then x c else y c := by
  by_cases hp : p
  · simpa only [if_pos hp] using hx
  · simpa only [if_neg hp] using hy

end Row

namespace Screen

def Painted (width : Char → Option Nat) (s : Screen) : Prop :=
  ∀ r, r < s.rows → Row width s.cols (s.cell r)

/-- A screen with other cells, in whole rows under the condition `p`. -/
structure Repaints (width : Char → Option Nat) (p : Prop) (s t : Screen) : Prop where
  rest : t = { s with cells := t.cells }
  length : t.cells.length = s.rows * s.cols
  painted : p → t.Painted width

variable {s t : Screen} {f : Nat → Nat → GridCell} {n : Nat} {p : Prop}

theorem Draws.repaints (h : s.Draws f t) (hf : p → ∀ r, r < s.rows → Row width s.cols (f r)) :
    Repaints width p s t := by
  refine ⟨h.rest, h.length, fun hp r hr => ?_⟩
  rw [h.rows] at hr
  rw [h.cols]
  exact (hf hp r hr).congr fun c hc => (h.cell r c hr hc).symm

namespace Repaints

theorem refl (hs : s.Fits) : Repaints width (s.Painted width) s s := ⟨rfl, hs.length, id⟩

theorem mono {q : Prop} (h : Repaints width p s t) (hpq : q → p) : Repaints width q s t :=
  ⟨h.rest, h.length, fun hq => h.painted (hpq hq)⟩

theorem draws (h : Repaints width p s t) : s.Draws t.cell t :=
  ⟨h.rest, h.length, fun _ _ _ _ => rfl⟩

theorem row (h : Repaints width p s t) (hp : p) {r : Nat} (hr : r < s.rows) :
    Row width s.cols (t.cell r) := by
  rw [← h.draws.cols]
  exact h.painted hp r (h.draws.rows ▸ hr)

theorem shiftUp (h : Repaints width p s t) {top bottom : Nat} (htop : top ≤ bottom)
    (hbottom : bottom < s.rows) (hrows : s.rows < 65536) :
    Yields (t.shiftUp top bottom) (Repaints width p s) := by
  refine (h.draws.shiftUp htop hbottom hrows).mono fun u hu => hu.repaints fun hp r hr => ?_
  by_cases hin : top ≤ r ∧ r < bottom
  · simpa only [if_pos hin] using h.row hp (by omega)
  · simpa only [if_neg hin] using (Row.blank s.style).ite (h.row hp hr) (r = bottom)

theorem shiftDown (h : Repaints width p s t) {top bottom : Nat} (htop : top ≤ bottom)
    (hbottom : bottom < s.rows) : Yields (t.shiftDown top bottom) (Repaints width p s) := by
  refine (h.draws.shiftDown htop hbottom).mono fun u hu => hu.repaints fun hp r hr => ?_
  exact (h.row hp (by omega)).ite ((Row.blank s.style).ite (h.row hp hr) (r = top)) _

end Repaints

/-! ## The operations -/

theorem scrollRegionDown_repaints (hs : s.Fits) (n : Nat) :
    Yields (s.scrollRegionDown n) (Repaints width (s.Painted width) s) :=
  yields_upTo_const (Repaints.refl hs) fun _ _ ht => ht.shiftDown hs.top_le hs.bottom_lt

theorem shiftLines_repaints (hs : s.Fits) {shift : Nat → Nat → Screen → Option Screen} (n : Nat)
    (hshift : ∀ t, Repaints width (s.Painted width) s t → s.cy ≤ s.scrollBottom →
      Yields (shift s.cy s.scrollBottom t) (Repaints width (s.Painted width) s)) :
    Yields (s.shiftLines shift n) (Repaints width (s.Painted width) s) := by
  unfold shiftLines
  split
  · exact ⟨s, rfl, .refl hs⟩
  · rename_i hin
    have hbottom := hs.bottom_lt
    have hrows := hs.rows_lt
    rw [less_eq (by omega)]
    show Yields (word16 (s.scrollBottom - s.cy + 1) >>= _) _
    rw [word16_eq (by omega)]
    exact yields_upTo_const (Repaints.refl hs) fun _ t ht => hshift t ht (by omega)

theorem insertLines_repaints (hs : s.Fits) (n : Nat) :
    Yields (s.insertLines n) (Repaints width (s.Painted width) s) :=
  shiftLines_repaints hs n fun _ ht hle => ht.shiftDown hle hs.bottom_lt

theorem deleteLines_repaints (hs : s.Fits) (n : Nat) :
    Yields (s.deleteLines n) (Repaints width (s.Painted width) s) :=
  shiftLines_repaints hs n fun _ ht hle => ht.shiftUp hle hs.bottom_lt hs.rows_lt

/-- No glyph lies on both sides of column `c` of a row. -/
def PartsAt (s : Screen) (row c : Nat) : Prop := Parts s.cols (s.cell row) c

theorem eraseSpan_repaints (hs : s.Fits) {row a b : Nat} (hrow : row < s.rows) :
    Yields (s.eraseSpan row a b)
      (Repaints width (s.Painted width ∧ s.PartsAt row a ∧ s.PartsAt row b) s) := by
  refine (hs.draws.eraseSpan hrow).mono fun t ht => ht.repaints ?_
  rintro ⟨hp, ha, hb⟩ r hr
  by_cases heq : r = row
  · subst heq
    simpa only [true_and] using (hp r hr).erase ha hb s.style
  · simpa only [heq, false_and, if_false] using hp r hr

/-- What the cells left of the cursor, or from it on, being erased asks for. -/
def ErasesWhole (s : Screen) (mode : Nat) : Prop :=
  (mode = 0 → s.PartsAt s.cy s.cx) ∧ (mode = 1 → s.PartsAt s.cy (s.cx + 1))

/-- The cursor's row with the columns of a mode erased. -/
theorem ErasesWhole.row (hs : s.Fits) (hp : s.Painted width) {mode : Nat} (h : s.ErasesWhole mode) :
    Row width s.cols fun c =>
      if mode = 0 ∧ s.cx ≤ c ∨ mode = 1 ∧ c < s.cx + 1 then .blank s.style else s.cell s.cy c := by
  have hrow := hp s.cy hs.cy_lt
  by_cases h0 : mode = 0
  · refine (hrow.erase (h.1 h0) (b := s.cols) (fun hlt => absurd hlt (lt_irrefl _)) s.style).congr ?_
    intro c hc
    simp [h0, hc]
  · by_cases h1 : mode = 1
    · refine (hrow.erase hrow.parts_zero (h.2 h1) s.style).congr ?_
      intro c hc
      simp [h1]
    · simpa [h0, h1] using hrow

theorem eraseInLine_repaints (hs : s.Fits) (mode : Nat) :
    Yields (s.eraseInLine mode)
      (Repaints width (s.Painted width ∧ s.ErasesWhole mode) s) := by
  refine (draws_eraseInLine hs mode).mono fun t ht => ht.repaints ?_
  rintro ⟨hp, h⟩ r hr
  by_cases heq : r = s.cy
  · subst heq
    refine ((Row.blank s.style).ite (h.row hs hp) (mode = 2)).congr fun c hc => ?_
    grind
  · simpa [heq] using hp r hr

theorem eraseInDisplay_repaints (hs : s.Fits) (mode : Nat) :
    Yields (s.eraseInDisplay mode)
      (Repaints width (s.Painted width ∧ s.ErasesWhole mode) s) := by
  refine (draws_eraseInDisplay hs mode).mono fun t ht => ht.repaints ?_
  rintro ⟨hp, h⟩ r hr
  -- the rows before and after the cursor's are erased whole or not at all
  by_cases heq : r = s.cy
  · subst heq
    refine ((Row.blank s.style).ite (h.row hs hp) (mode = 2 ∨ mode = 3)).congr fun c hc => ?_
    grind
  · refine ((Row.blank s.style).ite (hp r hr)
      (mode = 0 ∧ s.cy < r ∨ mode = 1 ∧ r < s.cy ∨ mode = 2 ∨ mode = 3)).congr fun c hc => ?_
    grind

theorem insertChars_repaints (hs : s.Fits) (hn : 0 < n) :
    Yields (s.insertChars n) (Repaints width (s.Painted width ∧ s.PartsAt s.cy s.cx ∧
      s.PartsAt s.cy (s.cols - min n (s.cols - s.cx))) s) := by
  refine (draws_insertChars hs hn).mono fun t ht => ht.repaints ?_
  rintro ⟨hp, ha, hcut⟩ r hr
  by_cases heq : r = s.cy
  · subst heq
    simpa only [true_and] using (hp s.cy hr).insert ha hn hs.cx_lt hcut s.style
  · simpa only [heq, false_and, if_false] using hp r hr

theorem deleteChars_repaints (hs : s.Fits) (hn : 0 < n) :
    Yields (s.deleteChars n) (Repaints width (s.Painted width ∧ s.PartsAt s.cy s.cx ∧
      s.PartsAt s.cy (s.cx + n)) s) := by
  refine (draws_deleteChars hs hn).mono fun t ht => ht.repaints ?_
  rintro ⟨hp, ha, hcut⟩ r hr
  by_cases heq : r = s.cy
  · subst heq
    simpa only [true_and] using (hp s.cy hr).delete ha hn hcut s.style
  · simpa only [heq, false_and, if_false] using hp r hr

/-- A combining character joins a glyph and keeps the cells painted. -/
theorem combine_repaints (hs : s.Fits) {c : Char} (hc : (width c).getD 0 = 0) :
    Yields (s.combine c) (Repaints width (s.Painted width) s) := by
  have hcx := hs.cx_lt
  unfold combine
  split
  · rename_i hpos
    rw [less_eq (by omega)]
    show Yields (s.get s.cy (s.cx - 1) >>= _) _
    rw [hs.draws.get hs.cy_lt (by omega)]
    refine (hs.draws.put hs.cy_lt (by omega) _).mono fun t ht => ht.repaints fun hp r hr => ?_
    have hrow := hp r hr
    -- neither the continuation nor the width of any cell changes
    have hcell (k : Nat) : ∀ x, x = (if r = s.cy ∧ k = s.cx - 1 then
        { s.cell s.cy (s.cx - 1) with text := (s.cell s.cy (s.cx - 1)).text ++ [c] }
        else s.cell r k) → x.continuation = (s.cell r k).continuation ∧
          wide width x = wide width (s.cell r k) := by
      rintro _ rfl
      split
      · rename_i heq
        rw [heq.1, heq.2]
        exact ⟨rfl, wide_append hc⟩
      · exact ⟨rfl, rfl⟩
    refine ⟨fun k hk => ?_, fun hcols => ?_⟩
    · rw [(hcell k _ rfl).1, (hcell (k - 1) _ rfl).2]
      exact hrow.halves k hk
    · rw [(hcell (s.cols - 1) _ rfl).2]
      exact hrow.last hcols
  · exact ⟨s, rfl, .refl hs⟩

/-- The cells of a glyph of `w` columns at the cursor. -/
theorem draws_writeChar (hs : s.Fits) (c : Char) {w : Nat} (hwpos : 0 < w) (hw2 : w ≤ 2) :
    Yields (s.writeChar c w) (s.Draws fun r k =>
      if r = s.cy ∧ s.cx ≤ k ∧ k < s.cx + w then
        if k = s.cx then ⟨[c], s.style, false⟩ else ⟨[], s.style, true⟩
      else s.cell r k) := by
  have hcx := hs.cx_lt
  have hcols := hs.cols_lt
  unfold writeChar
  rw [if_neg (by omega)]
  refine (hs.draws.put hs.cy_lt hcx _).bind fun t ht => ?_
  unfold writeRight
  have htcx : t.cx = s.cx := by rw [ht.rest]
  have htcy : t.cy = s.cy := by rw [ht.rest]
  rw [htcx, htcy, ht.style, ht.cols]
  split
  · rename_i hw'
    rw [word16_eq (by omega)]
    show Yields (if s.cx + 1 < s.cols then _ else _) _
    split
    · rename_i hlt
      refine (ht.put hs.cy_lt hlt _).mono fun u hu => hu.congr ?_
      intro r k _ hk
      grind
    · refine ⟨t, rfl, ht.congr ?_⟩
      intro r k _ hk
      grind
  · refine ⟨t, rfl, ht.congr ?_⟩
    intro r k _ hk
    grind

/-- A glyph written over whole ones leaves whole ones. -/
theorem writeChar_repaints (hs : s.Fits) {c : Char} {w : Nat} (hw : (width c).getD 0 = w)
    (hwpos : 0 < w) (hw2 : w ≤ 2) (hroom : w = 2 → 1 < s.cols → s.cx + 1 < s.cols) :
    Yields (s.writeChar c w) (Repaints width (s.Painted width ∧ s.PartsAt s.cy s.cx ∧
      s.PartsAt s.cy (s.cx + w)) s) := by
  have hcx := hs.cx_lt
  refine (draws_writeChar hs c hwpos hw2).mono fun t ht => ht.repaints ?_
  rintro ⟨hp, ha, hb⟩ r hr
  by_cases heq : r = s.cy
  · subst heq
    have hwide : wide width ⟨[c], s.style, false⟩ = decide (w = 2) := by
      subst hw
      cases hwc : width c with
      | none => simp [hwc] at hwpos
      | some n =>
        rw [Bool.eq_iff_iff]
        simp [wide, hwc]
    refine ((hp s.cy hr).replace
      (y := fun k => if k = s.cx then ⟨[c], s.style, false⟩ else ⟨[], s.style, true⟩)
      (b := min (s.cx + w) s.cols) ha ?_ (by omega) (by omega) (by simp) ?_ ?_).congr ?_
    · intro hlt
      rw [show min (s.cx + w) s.cols = s.cx + w by omega]
      exact hb (by omega)
    · intro k hk hk'
      rw [if_neg (by omega), if_pos (by omega), hwide]
      simp only [decide_eq_true_eq, true_iff]
      omega
    · intro hcols'
      by_cases hw2' : w = 2
      · have := hroom hw2' hcols'
        rw [if_neg (by omega)]
        rfl
      · rw [if_pos (by omega), hwide]
        simpa using hw2'
    · intro k hk
      simp [hk]
  · simpa only [heq, false_and, if_false] using hp r hr

end Screen

end Ruse.Tui.Term
