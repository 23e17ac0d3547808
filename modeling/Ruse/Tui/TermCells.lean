import Mathlib.Data.List.GetD
import Mathlib.Tactic.Ring
import Ruse.Tui.TermGrid

/-!
# What the operations on a screen draw

Each operation on the cells of a screen changes the cells only, and `Draws s t f` says what
they are after it: the cell of row `r` and column `c` is `f r c`. There is one lemma for each
operation, and none of them faults on a screen whose numbers fit (`Screen.Fits`).
-/

namespace Ruse.Tui.Term

open Ruse.Lib

theorem flat_inj {cols r c r' c' : Nat} (hc : c < cols) (hc' : c' < cols) :
    r * cols + c = r' * cols + c' ↔ r = r' ∧ c = c' := by
  constructor
  · intro h
    have hdiv := congrArg (· / cols) h
    have hmod := congrArg (· % cols) h
    simp only [Nat.mul_comm _ cols, Nat.mul_add_div (Nat.zero_lt_of_lt hc),
      Nat.div_eq_of_lt hc, Nat.div_eq_of_lt hc', Nat.mul_add_mod, Nat.mod_eq_of_lt hc,
      Nat.mod_eq_of_lt hc', Nat.add_zero] at hdiv hmod
    exact ⟨hdiv, hmod⟩
  · rintro ⟨rfl, rfl⟩
    rfl

theorem flat_lt {rows cols r c : Nat} (hr : r < rows) (hc : c < cols) :
    r * cols + c < rows * cols :=
  calc r * cols + c < r * cols + cols := by omega
    _ = (r + 1) * cols := by ring
    _ ≤ rows * cols := Nat.mul_le_mul_right cols hr

/-- The cell of a row and a column in an array of rows of `cols` cells. -/
def cellOf (cells : List GridCell) (cols r c : Nat) : GridCell :=
  cells.getD (r * cols + c) (.blank .default)

theorem getElem?_cellOf {cells : List GridCell} {rows cols r c : Nat}
    (hlen : cells.length = rows * cols) (hr : r < rows) (hc : c < cols) :
    cells[r * cols + c]? = some (cellOf cells cols r c) := by
  have hlt : r * cols + c < cells.length := hlen ▸ flat_lt hr hc
  rw [cellOf, List.getD_eq_getElem _ _ hlt, List.getElem?_eq_getElem hlt]

theorem cellOf_set {cells : List GridCell} {rows cols r c r' c' : Nat} {x : GridCell}
    (hlen : cells.length = rows * cols) (hr : r < rows) (hc : c < cols) (hc' : c' < cols) :
    cellOf (cells.set (r * cols + c) x) cols r' c' =
      if r' = r ∧ c' = c then x else cellOf cells cols r' c' := by
  have hlt : r * cols + c < cells.length := hlen ▸ flat_lt hr hc
  simp only [cellOf, List.getD, List.getElem?_set, flat_inj hc hc', hlt, if_true]
  split
  · rename_i heq
    rw [if_pos ⟨heq.1.symm, heq.2.symm⟩]
    rfl
  · rename_i hne
    rw [if_neg fun heq => hne ⟨heq.1.symm, heq.2.symm⟩]

@[simp] theorem cellOf_replicate (n cols r c : Nat) :
    cellOf (List.replicate n (.blank .default)) cols r c = .blank .default := by
  simp only [cellOf, List.getD, List.getElem?_replicate]
  split <;> rfl

namespace Screen

def cell (s : Screen) (r c : Nat) : GridCell := cellOf s.cells s.cols r c

/-- The numbers of a screen are in bounds. -/
structure Fits (s : Screen) : Prop where
  rows_pos : 0 < s.rows
  rows_lt : s.rows < 65536
  cols_pos : 0 < s.cols
  cols_lt : s.cols < 65536
  length : s.cells.length = s.rows * s.cols
  cx_lt : s.cx < s.cols
  cy_lt : s.cy < s.rows
  top_le : s.scrollTop ≤ s.scrollBottom
  bottom_lt : s.scrollBottom < s.rows

/-- A screen with the cells `f` and all else as in `s`. -/
structure Draws (s : Screen) (f : Nat → Nat → GridCell) (t : Screen) : Prop where
  rest : t = { s with cells := t.cells }
  length : t.cells.length = s.rows * s.cols
  cell : ∀ r c, r < s.rows → c < s.cols → t.cell r c = f r c

theorem Fits.draws {s : Screen} (h : s.Fits) : s.Draws s.cell s := ⟨rfl, h.length, fun _ _ _ _ => rfl⟩

namespace Draws

variable {s t : Screen} {f f' : Nat → Nat → GridCell}

theorem rows (h : s.Draws f t) : t.rows = s.rows := by rw [h.rest]

theorem cols (h : s.Draws f t) : t.cols = s.cols := by rw [h.rest]

theorem style (h : s.Draws f t) : t.style = s.style := by rw [h.rest]

theorem fits (h : s.Draws f t) (hs : s.Fits) : t.Fits := by
  rw [h.rest]
  exact { hs with length := h.length }

theorem congr (h : s.Draws f t) (hf : ∀ r c, r < s.rows → c < s.cols → f r c = f' r c) :
    s.Draws f' t :=
  ⟨h.rest, h.length, fun r c hr hc => (h.cell r c hr hc).trans (hf r c hr hc)⟩

theorem get (h : s.Draws f t) {r c : Nat} (hr : r < s.rows) (hc : c < s.cols) :
    t.get r c = some (f r c) := by
  rw [← h.cell r c hr hc, Screen.get, Screen.idx, Screen.cell, h.cols]
  exact getElem?_cellOf h.length hr hc

theorem put (h : s.Draws f t) {r c : Nat} (hr : r < s.rows) (hc : c < s.cols) (x : GridCell) :
    Yields (t.put r c x) (s.Draws fun r' c' => if r' = r ∧ c' = c then x else f r' c') := by
  have hcols := h.cols
  have hlt : t.idx r c < t.cells.length := by
    rw [h.length, Screen.idx, hcols]
    exact flat_lt hr hc
  rw [Screen.put, if_pos hlt]
  refine ⟨_, rfl, ?_, ?_, fun r' c' hr' hc' => ?_⟩
  · rw [h.rest]
  · rw [List.length_set, h.length]
  · simp only [Screen.cell, Screen.idx, hcols]
    rw [cellOf_set h.length hr hc hc', ← h.cell r' c' hr' hc', Screen.cell, hcols]

theorem blankRow (h : s.Draws f t) {row : Nat} (hrow : row < s.rows) :
    Yields (t.blankRow row)
      (s.Draws fun r c => if r = row then .blank s.style else f r c) := by
  rw [Screen.blankRow, h.cols]
  refine (yields_upTo
    (I := fun k => s.Draws fun r c => if r = row ∧ c < k then .blank s.style else f r c)
    (Nat.zero_le _) (h.congr ?_) ?_).mono fun u hu => hu.congr ?_
  · intro r c _ _
    simp
  · intro k u _ hk hu
    rw [hu.style]
    refine (hu.put hrow hk _).mono fun v hv => hv.congr ?_
    intro r c _ _
    grind
  · intro r c _ hc
    simp [hc]

theorem copyRow (h : s.Draws f t) {src dst : Nat} (hsrc : src < s.rows) (hdst : dst < s.rows) :
    Yields (t.copyRow src dst)
      (s.Draws fun r c => if r = dst then f src c else f r c) := by
  rw [Screen.copyRow, h.cols]
  refine (yields_upTo
    (I := fun k => s.Draws fun r c => if r = dst ∧ c < k then f src c else f r c)
    (Nat.zero_le _) (h.congr ?_) ?_).mono fun u hu => hu.congr ?_
  · intro r c _ _
    simp
  · intro k u _ hk hu
    rw [hu.get hsrc hk]
    refine (hu.put hdst hk _).mono fun v hv => hv.congr ?_
    intro r c _ _
    grind
  · intro r c _ hc
    simp [hc]

theorem shiftUp (h : s.Draws f t) {top bottom : Nat} (htop : top ≤ bottom)
    (hbottom : bottom < s.rows) (hrows : s.rows < 65536) :
    Yields (t.shiftUp top bottom) (s.Draws fun r c =>
      if top ≤ r ∧ r < bottom then f (r + 1) c
      else if r = bottom then .blank s.style else f r c) := by
  refine (yields_upTo
    (I := fun k => s.Draws fun r c => if top ≤ r ∧ r < k then f (r + 1) c else f r c)
    htop (h.congr ?_) ?_).bind fun u hu => (hu.blankRow hbottom).mono fun v hv => hv.congr ?_
  · intro r c _ _
    rw [if_neg (by omega)]
  · intro k u _ hk hu
    rw [word16_eq (by omega)]
    refine (hu.copyRow (by omega) (by omega)).mono fun v hv => hv.congr ?_
    intro r c _ _
    grind
  · intro r c _ _
    grind

/-- Shifting down moves the rows of the region and blanks its first. -/
theorem shiftDown (h : s.Draws f t) {top bottom : Nat} (htop : top ≤ bottom)
    (hbottom : bottom < s.rows) :
    Yields (t.shiftDown top bottom) (s.Draws fun r c =>
      if top < r ∧ r ≤ bottom then f (r - 1) c
      else if r = top then .blank s.style else f r c) := by
  refine (yields_downWhile
    (I := fun k => s.Draws fun r c =>
      if k < r ∧ r ≤ bottom then f (r - 1) c else f r c)
    (Nat.succ_pos top) (by omega) (h.congr ?_) ?_).bind fun u hu =>
      (hu.blankRow (by omega)).mono fun v hv => hv.congr ?_
  · intro r c _ _
    rw [if_neg (by omega)]
  · intro k u hk hkb hu
    rw [less_eq (Nat.le_add_left 1 k)]
    refine (hu.copyRow (by omega) (by omega)).mono fun v hv => hv.congr ?_
    intro r c _ _
    grind
  · intro r c _ _
    grind

/-- An erased span is blank, in the style of the screen. -/
theorem eraseSpan (h : s.Draws f t) {row a b : Nat} (hrow : row < s.rows) :
    Yields (t.eraseSpan row a b) (s.Draws fun r c =>
      if r = row ∧ a ≤ c ∧ c < b then .blank s.style else f r c) := by
  rw [Screen.eraseSpan, h.cols]
  by_cases hab : a ≤ min b s.cols
  · refine (yields_upTo
      (I := fun k => s.Draws fun r c =>
        if r = row ∧ a ≤ c ∧ c < k then .blank s.style else f r c)
      hab (h.congr ?_) ?_).mono fun u hu => hu.congr ?_
    · intro r c _ _
      rw [if_neg (by omega)]
    · intro k u _ hk hu
      rw [hu.style]
      refine (hu.put hrow (by omega) _).mono fun v hv => hv.congr ?_
      intro r c _ _
      grind
    · intro r c _ hc
      grind
  · rw [upTo, Nat.sub_eq_zero_of_le (by omega)]
    refine ⟨t, rfl, h.congr ?_⟩
    intro r c _ hc
    rw [if_neg (by omega)]

theorem eraseRows (h : s.Draws f t) {a b : Nat} (hab : a ≤ b) (hb : b ≤ s.rows) :
    Yields (t.eraseRows a b) (s.Draws fun r c =>
      if a ≤ r ∧ r < b then .blank s.style else f r c) := by
  rw [Screen.eraseRows]
  refine (yields_upTo
    (I := fun k => s.Draws fun r c => if a ≤ r ∧ r < k then .blank s.style else f r c)
    hab (h.congr ?_) ?_)
  · intro r c _ _
    rw [if_neg (by omega)]
  · intro k u _ hk hu
    rw [hu.cols]
    refine (hu.eraseSpan (by omega)).mono fun v hv => hv.congr ?_
    intro r c _ hc
    grind

end Draws

variable {s : Screen}

/-! ## The operations on a screen that fits -/

/-- Erasing in a line blanks the part that the mode says. -/
theorem draws_eraseInLine (h : s.Fits) (mode : Nat) :
    Yields (s.eraseInLine mode) (s.Draws fun r c =>
      if r = s.cy ∧ (mode = 0 ∧ s.cx ≤ c ∨ mode = 1 ∧ c < s.cx + 1 ∨ mode = 2) then
        .blank s.style
      else s.cell r c) := by
  have hcy := h.cy_lt
  have hcx := h.cx_lt
  have hcols := h.cols_lt
  unfold eraseInLine
  split
  · refine (h.draws.eraseSpan hcy).mono fun u hu => hu.congr ?_
    intro r c _ hc
    grind
  · rw [word16_eq (by omega)]
    refine (h.draws.eraseSpan hcy).mono fun u hu => hu.congr ?_
    intro r c _ hc
    grind
  · refine (h.draws.eraseSpan hcy).mono fun u hu => hu.congr ?_
    intro r c _ hc
    grind
  · refine ⟨s, rfl, h.draws.congr ?_⟩
    intro r c _ hc
    grind

/-- Erasing in the display blanks the part that the mode says. -/
theorem draws_eraseInDisplay (h : s.Fits) (mode : Nat) :
    Yields (s.eraseInDisplay mode) (s.Draws fun r c =>
      if mode = 0 ∧ (s.cy < r ∨ r = s.cy ∧ s.cx ≤ c) ∨
          mode = 1 ∧ (r < s.cy ∨ r = s.cy ∧ c < s.cx + 1) ∨ mode = 2 ∨ mode = 3 then
        .blank s.style
      else s.cell r c) := by
  have hcy := h.cy_lt
  have hcx := h.cx_lt
  have hcols := h.cols_lt
  have hrows := h.rows_lt
  have hall : Yields (s.eraseRows 0 s.rows) (s.Draws fun _ _ => .blank s.style) := by
    refine (h.draws.eraseRows (Nat.zero_le _) le_rfl).mono fun u hu => hu.congr ?_
    intro r c hr hc
    rw [if_pos ⟨Nat.zero_le r, hr⟩]
  unfold eraseInDisplay
  split
  · refine (h.draws.eraseSpan hcy).bind fun u hu => ?_
    rw [word16_eq (by omega)]
    refine (hu.eraseRows (by omega) le_rfl).mono fun v hv => hv.congr ?_
    intro r c hr hc
    grind
  · refine (h.draws.eraseRows (Nat.zero_le _) hcy.le).bind fun u hu => ?_
    rw [word16_eq (by omega)]
    refine (hu.eraseSpan hcy).mono fun v hv => hv.congr ?_
    intro r c hr hc
    grind
  · refine hall.mono fun u hu => hu.congr ?_
    intro r c hr hc
    simp
  · refine hall.mono fun u hu => hu.congr ?_
    intro r c hr hc
    simp
  · refine ⟨s, rfl, h.draws.congr ?_⟩
    intro r c _ hc
    grind

/-- `n` blank cells put in at the cursor. -/
theorem draws_insertChars (h : s.Fits) {n : Nat} (hn : 0 < n) :
    Yields (s.insertChars n) (s.Draws fun r c =>
      if r = s.cy ∧ s.cx ≤ c then
        if c < s.cx + n then .blank s.style else s.cell r (c - n)
      else s.cell r c) := by
  have hcy := h.cy_lt
  have hcx := h.cx_lt
  have hcols := h.cols_lt
  unfold insertChars
  rw [less_eq hcx.le]
  rw [less_eq (by omega)]
  show Yields (word16 (s.cx + min n (s.cols - s.cx)) >>= _) _
  rw [word16_eq (by omega)]
  -- the shift goes from the last column down: columns above the counter are done
  refine (yields_downWhile
    (I := fun k => s.Draws fun r c =>
      if r = s.cy ∧ k < c then s.cell r (c - min n (s.cols - s.cx)) else s.cell r c)
    (by omega) (by omega) (h.draws.congr ?_) ?_).bind fun u hu => ?_
  · intro r c _ hc
    rw [if_neg (by omega)]
  · intro k u hk hkb hu
    rw [less_eq (by omega)]
    show Yields (u.get s.cy (k + 1 - min n (s.cols - s.cx)) >>= _) _
    rw [hu.get hcy (by omega)]
    refine (hu.put hcy (by omega) _).mono fun v hv => hv.congr ?_
    intro r c _ hc
    grind
  · refine (yields_upTo
      (I := fun k => s.Draws fun r c =>
        if r = s.cy ∧ s.cx ≤ c ∧ c < k then .blank s.style
        else if r = s.cy ∧ s.cx + min n (s.cols - s.cx) ≤ c then
          s.cell r (c - min n (s.cols - s.cx))
        else s.cell r c)
      (by omega) (hu.congr ?_) ?_).mono fun v hv => hv.congr ?_
    · intro r c _ hc
      grind
    · intro k v _ hk hv
      rw [hv.style]
      refine (hv.put hcy (by omega) _).mono fun w hw => hw.congr ?_
      intro r c _ hc
      grind
    · intro r c _ hc
      grind

/-- `n` cells taken out at the cursor. -/
theorem draws_deleteChars (h : s.Fits) {n : Nat} (hn : 0 < n) :
    Yields (s.deleteChars n) (s.Draws fun r c =>
      if r = s.cy ∧ s.cx ≤ c then
        if c + n < s.cols then s.cell r (c + n) else .blank s.style
      else s.cell r c) := by
  have hcy := h.cy_lt
  have hcx := h.cx_lt
  have hcols := h.cols_lt
  unfold deleteChars
  rw [less_eq hcx.le]
  show Yields (less s.cols (min n (s.cols - s.cx)) >>= _) _
  rw [less_eq (by omega)]
  refine (yields_upTo
    (I := fun k => s.Draws fun r c =>
      if r = s.cy ∧ s.cx ≤ c ∧ c < k then s.cell r (c + min n (s.cols - s.cx))
      else s.cell r c)
    (by omega) (h.draws.congr ?_) ?_).bind fun u hu => ?_
  · intro r c _ hc
    rw [if_neg (by omega)]
  · intro k u _ hk hu
    rw [word16_eq (by omega)]
    show Yields (u.get s.cy (k + min n (s.cols - s.cx)) >>= _) _
    rw [hu.get hcy (by omega)]
    refine (hu.put hcy (by omega) _).mono fun v hv => hv.congr ?_
    intro r c _ hc
    grind
  · refine (hu.eraseSpan hcy).mono fun v hv => hv.congr ?_
    intro r c _ hc
    grind

end Screen

end Ruse.Tui.Term
