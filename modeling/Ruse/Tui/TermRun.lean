import Ruse.Lib.Loop
import Ruse.Tui.TermGlyphs

/-!
# Runs of a terminal

What holds of a grid in every state of a run. Its numbers are in bounds (`Bounded`) after
every step that does not fault, and none does but a tab so far right that the next stop is
not a 16-bit number. Its rows are whole and a wrap is pending only in the last column
(`Consistent`) as long as no step covers, shifts or cuts one half of a glyph of two columns,
or moves the cursor off the last column and leaves a wrap pending (`Allowed`).
-/

namespace Ruse.Tui.Term

open Ruse.Lib

variable {width : Char → Option Nat}

namespace Grid

variable {p : Prop} {g : Grid} {cols rows : Nat}

/-- The numbers of a grid are in bounds. -/
structure Bounded (g : Grid) : Prop where
  fits : g.Fits
  altLength : ∀ st, g.alt = some st → st.cells.length = g.rows * g.cols

/-- The numbers of a grid are in bounds, its rows and the stashed ones are whole, and a wrap is
pending only in the last column. -/
structure Consistent (width : Char → Option Nat) (g : Grid) : Prop extends Bounded g where
  painted : g.Painted width
  wrap : g.wrapNext = true → g.cx + 1 = g.cols
  altPainted : ∀ st, g.alt = some st → ∀ r, r < g.rows → Row width g.cols (cellOf st.cells g.cols r)

/-- A grid in bounds after one, and consistent when that is and `p` holds. -/
structure Follows (width : Char → Option Nat) (p : Prop) (g h : Grid) : Prop where
  bounded : h.Bounded
  consistent : g.Consistent width → p → h.Consistent width

structure Kept (width : Char → Option Nat) (p : Prop) (g h : Grid) : Prop
    extends Follows width p g h where
  rows : h.rows = g.rows
  cols : h.cols = g.cols

theorem Kept.refl (hg : g.Bounded) : g.Kept width p g :=
  ⟨⟨hg, fun hc _ => hc⟩, rfl, rfl⟩

theorem new_bounded (hrows : rows < 65536) (hcols : cols < 65536) :
    (new rows cols).Bounded := by
  refine ⟨?_, fun st h => by simp [new] at h⟩
  constructor <;> simp [new] <;> omega

/-- The grid after a line feed: the cursor is a row lower, or in a blank row, or, in the last
row below the region, where it was. -/
structure Fed (g h : Grid) : Prop where
  rest : h = { g with cells := h.cells, cy := h.cy, scrollback := h.scrollback }
  cy : h.cy = if g.cy ≠ g.scrollBottom ∧ g.cy + 1 < g.rows then g.cy + 1 else g.cy
  cell : g.cy = g.scrollBottom ∧ (∀ c, c < g.cols → h.cell h.cy c = .blank g.style) ∨
    g.cy ≠ g.scrollBottom ∧ h.cells = g.cells

theorem pushRow_yields {top : Nat} (hg : g.Fits) (htop : top < g.rows) :
    Yields (g.pushRow top) fun h => h = { g with scrollback := h.scrollback } := by
  have hrow : ((List.range g.cols).mapM fun c => g.get top c) =
      some ((List.range g.cols).map (g.cell top)) :=
    mapM_some fun c hc => hg.draws.get htop (List.mem_range.mp hc)
  unfold pushRow
  rw [hrow, Option.bind_eq_bind, Option.bind_some, Yields.some_iff]

theorem onScreen_yields {f : Screen → Option Screen} {Q : Screen → Prop}
    (h : Yields (f g.toScreen) Q) :
    Yields (g.onScreen f) fun h => Q h.toScreen ∧ h = { g with toScreen := h.toScreen } := by
  obtain ⟨s, hs, hQ⟩ := h
  exact ⟨{ g with toScreen := s }, by rw [onScreen, hs]; rfl, hQ, rfl⟩

variable (width) in
/-- Scrolling up changes the cells and the scrollback alone. -/
theorem scrollRegionUp_yields (hfits : g.Fits) :
    Yields (g.scrollRegionUp 1) fun h =>
      h = { g with cells := h.cells, scrollback := h.scrollback } ∧
      g.Repaints width (g.Painted width) h.toScreen ∧
      ∀ c, c < g.cols → h.cell g.scrollBottom c = .blank g.style := by
  have hrows := hfits.rows_pos
  have hbottom := hfits.bottom_lt
  have htop := hfits.top_le
  unfold scrollRegionUp keepsRows
  rw [less_eq (by omega), Option.bind_eq_bind, Option.bind_eq_bind, Option.bind_some,
    Option.bind_some, upTo_one]
  have hpush (b : Bool) : Yields (if b then g.pushRow g.scrollTop else some g)
      fun h => h = { g with scrollback := h.scrollback } := by
    cases b with
    | true => exact pushRow_yields hfits (by omega)
    | false => exact Yields.some_iff.mpr rfl
  refine (hpush _).bind fun h hh => ?_
  have hscreen : h.toScreen = g.toScreen := by rw [hh]
  have hdraws : Yields (h.toScreen.shiftUp g.scrollTop g.scrollBottom) (g.Draws fun r c =>
      if g.scrollTop ≤ r ∧ r < g.scrollBottom then g.cell (r + 1) c
      else if r = g.scrollBottom then .blank g.style else g.cell r c) := by
    rw [hscreen]
    exact hfits.draws.shiftUp htop hbottom hfits.rows_lt
  refine (onScreen_yields hdraws).mono fun k hk => ?_
  obtain ⟨hk, hrest⟩ := hk
  refine ⟨?_, ?_, fun c hc => ?_⟩
  · rw [hrest, hk.rest, hh]
  · refine hk.repaints fun hpainted r hr => ?_
    by_cases hin : g.scrollTop ≤ r ∧ r < g.scrollBottom
    · simpa only [if_pos hin] using hpainted (r + 1) (by omega)
    · simpa only [if_neg hin] using (Row.blank g.style).ite (hpainted r hr) (r = g.scrollBottom)
  · rw [hk.cell _ c hbottom hc, if_neg (by omega), if_pos rfl]

variable (width) in
/-- A line feed keeps the grid fitting and its cells painted. -/
theorem lineFeed_fed (hfits : g.Fits) :
    Yields g.lineFeed fun h => h.Fits ∧ (g.Painted width → h.Painted width) ∧ g.Fed h := by
  have hcy := hfits.cy_lt
  have hrows := hfits.rows_lt
  unfold lineFeed
  split
  · rename_i hat
    refine (scrollRegionUp_yields width hfits).mono fun h hh => ?_
    obtain ⟨hrest, hk, hblank⟩ := hh
    have hhcy : h.cy = g.cy := by rw [hrest]
    refine ⟨hk.draws.fits hfits, hk.painted, ⟨?_, ?_, .inl ⟨hat, ?_⟩⟩⟩
    · rw [hhcy, hrest]
    · rw [hhcy, if_neg (by simp [hat])]
    · rw [hhcy, hat]
      exact hblank
  · rename_i hat
    rw [word16_eq (by omega), Option.bind_eq_bind, Option.bind_some]
    split
    · rename_i hlt
      rw [Yields.some_iff]
      refine ⟨{ hfits with cy_lt := hlt }, id, ⟨rfl, ?_, .inr ⟨hat, rfl⟩⟩⟩
      rw [if_pos ⟨hat, hlt⟩]
    · rename_i hlast
      rw [Yields.some_iff]
      refine ⟨hfits, id, ⟨rfl, ?_, .inr ⟨hat, rfl⟩⟩⟩
      rw [if_neg fun hin => hlast hin.2]

variable (width) in
theorem lineFeed_kept (hg : g.Bounded) :
    Yields g.lineFeed fun h => g.Kept width True h ∧ g.Fed h := by
  refine (lineFeed_fed width hg.fits).mono fun h hh => ?_
  obtain ⟨hfits, hpainted, hfed⟩ := hh
  have hb : h.Bounded := by
    refine ⟨hfits, ?_⟩
    rw [hfed.rest]
    exact hg.altLength
  refine ⟨⟨⟨hb, fun hc _ => ⟨hb, hpainted hc.painted, ?_, ?_⟩⟩, ?_, ?_⟩, hfed⟩
  · rw [hfed.rest]
    exact hc.wrap
  · rw [hfed.rest]
    exact hc.altPainted
  · rw [hfed.rest]
  · rw [hfed.rest]

/-! ## Steps that break nothing -/

/-- Whether a glyph of `w` columns goes to the next line. -/
def wraps (g : Grid) (w : Nat) : Bool := g.wrapNext || (w == 2 && decide (g.cols ≤ g.cx + 1))

/-- The row that a glyph on the next line goes to. -/
def nextRow (g : Grid) : Nat := if g.cy + 1 < g.rows then g.cy + 1 else g.cy

/-- The columns that a glyph takes hold whole glyphs. A row scrolled in is blank. -/
def PrintsWhole (g : Grid) (w : Nat) : Prop :=
  if g.wraps w then g.cy = g.scrollBottom ∨ g.PartsAt g.nextRow w
  else g.PartsAt g.cy g.cx ∧ g.PartsAt g.cy (g.cx + w)

/-- A wrap that is pending stays in the last column: the cursor stays there or goes there. -/
def StaysLast (g : Grid) (col : Nat) : Prop := g.wrapNext = true → g.cols ≤ col + 1

/-- The control functions that cut no glyph of two columns, leave no wrap pending and go to no
tab stop out of the range of 16 bits. -/
def Op.Allowed (g : Grid) : Op → Prop
  | .tab => (g.cx / 8 + 1) * 8 < 65536
  | .backspace => g.StaysLast 0
  | .left n => 0 < n → g.StaysLast 0
  | .column n => g.StaysLast (n - 1)
  | .restore => ∀ p, g.saved = some p → g.StaysLast p.2
  | .region top bottom =>
    top < bottom.getD g.rows → bottom.getD g.rows ≤ g.rows → g.StaysLast 0
  | .enterAlt => g.alt = none → g.StaysLast 0
  | .leaveAlt => ∀ st, g.alt = some st → g.StaysLast st.cx
  | .eraseDisplay mode => g.ErasesWhole mode
  | .eraseLine mode => g.ErasesWhole mode
  | .insertChars n =>
    g.PartsAt g.cy g.cx ∧ g.PartsAt g.cy (g.cols - min n (g.cols - g.cx))
  | .deleteChars n => g.PartsAt g.cy g.cx ∧ g.PartsAt g.cy (g.cx + n)
  | .eraseChars n => g.PartsAt g.cy g.cx ∧ g.PartsAt g.cy (g.cx + n)
  | _ => True

def Allowed (width : Char → Option Nat) (g : Grid) : Action → Prop
  | .print c => 0 < (width c).getD 0 → g.PrintsWhole ((width c).getD 0)
  | .execute byte => (executeOp byte).Allowed g
  | .csi params inter action => (csiOp (flat params) (isPrivate inter) action).Allowed g
  | .esc _ byte => (escOp byte).Allowed g
  | .resize rows cols =>
    ∀ r, r < min (max rows.toNat 1) g.rows → KeepsWhole width g.cols cols.toNat (g.cell r) ∧
      ∀ st, g.alt = some st → KeepsWhole width g.cols cols.toNat (cellOf st.cells g.cols r)

/-! ## Printing -/

/-- A grid in which a glyph of `w` columns has room right of the cursor, unless the screen has
one column, and where it covers whole glyphs under the condition `p`. -/
structure Ready (width : Char → Option Nat) (p : Prop) (w : Nat) (g h : Grid) : Prop where
  bounded : h.Bounded
  rows : h.rows = g.rows
  cols : h.cols = g.cols
  wrapNext : h.wrapNext = false
  room : w = 2 → 1 < h.cols → h.cx + 1 < h.cols
  whole : p → h.Consistent width ∧ h.PartsAt h.cy h.cx ∧ h.PartsAt h.cy (h.cx + w)

/-- A grid with the cursor in the first column, where a glyph covers whole ones under the
condition `p`. -/
structure AtStart (width : Char → Option Nat) (p : Prop) (w : Nat) (g h : Grid) : Prop where
  bounded : h.Bounded
  rows : h.rows = g.rows
  cols : h.cols = g.cols
  wrapNext : h.wrapNext = false
  cx : h.cx = 0
  whole : p → h.Consistent width ∧ h.PartsAt h.cy w

theorem AtStart.ready {w : Nat} {h : Grid} (hh : AtStart width p w g h) :
    Ready width p w g h := by
  have hcx := hh.cx
  refine ⟨hh.bounded, hh.rows, hh.cols, hh.wrapNext, fun _ hcols => by omega, fun hp => ?_⟩
  obtain ⟨hcons, hparts⟩ := hh.whole hp
  rw [hcx, Nat.zero_add]
  exact ⟨hcons, (hcons.painted h.cy hcons.fits.cy_lt).parts_zero, hparts⟩

variable (width) in
/-- A wrap to the next line starts it in the first column. -/
theorem nextLine_yields (hg : g.Bounded) (w : Nat) :
    Yields g.carriageReturn.lineFeed
      (AtStart width (g.Consistent width ∧ (g.cy = g.scrollBottom ∨ g.PartsAt g.nextRow w))
        w g) := by
  have hcr : g.carriageReturn.Bounded :=
    ⟨{ hg.fits with cx_lt := hg.fits.cols_pos }, hg.altLength⟩
  refine (lineFeed_kept width hcr).mono fun h hh => ?_
  obtain ⟨hkept, hfed⟩ := hh
  have hcols : h.cols = g.cols := by rw [hfed.rest]; rfl
  refine ⟨hkept.bounded, hkept.rows, hcols, by rw [hfed.rest]; rfl, by rw [hfed.rest]; rfl, ?_⟩
  rintro ⟨hcons, hw⟩
  have hconscr : g.carriageReturn.Consistent width :=
    { hcr with painted := hcons.painted, wrap := nofun, altPainted := hcons.altPainted }
  refine ⟨hkept.consistent hconscr trivial, ?_⟩
  intro hlt
  rw [hcols] at hlt
  rcases hfed.cell with ⟨-, hblank⟩ | ⟨hat, hcells⟩
  · rw [hblank w hlt]
    rfl
  · have hcy : h.cy = g.nextRow := by
      have hat : g.cy ≠ g.scrollBottom := hat
      rw [hfed.cy]
      show (if g.cy ≠ g.scrollBottom ∧ g.cy + 1 < g.rows then g.cy + 1 else g.cy) = _
      simp [hat, nextRow]
    rw [hcy, Screen.cell, hcells, hcols]
    exact (hw.resolve_left hat) hlt

variable (width) in
/-- After the wraps there is room for the glyph. -/
theorem wrap_yields (hg : g.Bounded) (w : Nat) :
    Yields (g.wrap >>= wrapWide w) (Ready width (g.Consistent width ∧ g.PrintsWhole w) w g) := by
  have hcx := hg.fits.cx_lt
  have hcolslt := hg.fits.cols_lt
  have hnext := nextLine_yields width hg w
  unfold wrap
  split
  · rename_i hpending
    have hprints (h : g.PrintsWhole w) : g.cy = g.scrollBottom ∨ g.PartsAt g.nextRow w := by
      unfold PrintsWhole at h
      rwa [if_pos (by simp [wraps, hpending])] at h
    have hstart : Yields (g.carriageReturn.lineFeed >>= fun h => some { h with wrapNext := false })
        (AtStart width (g.Consistent width ∧ g.PrintsWhole w) w g) := by
      refine hnext.bind fun h hh => Yields.some_iff.mpr ?_
      have heq : { h with wrapNext := false } = h := by rw [← hh.wrapNext]
      rw [heq]
      exact { hh with whole := fun hp => hh.whole ⟨hp.1, hprints hp.2⟩ }
    refine hstart.bind fun h hh => ?_
    unfold wrapWide
    split
    · rw [hh.cx, word16_eq (by omega), Option.bind_eq_bind, Option.bind_some]
      split
      · -- in a screen of one column a glyph of two goes a line further
        refine (nextLine_yields width hh.bounded w).mono fun k hk => AtStart.ready
          { hk with
            rows := hk.rows.trans hh.rows
            cols := hk.cols.trans hh.cols
            whole := fun hp => hk.whole ⟨(hh.whole hp).1, .inr fun hlt => by omega⟩ }
      · exact Yields.some_iff.mpr hh.ready
    · exact Yields.some_iff.mpr hh.ready
  · rename_i hpending
    have hwrapNext : g.wrapNext = false := by simpa using hpending
    have hstay (hw : ¬ (w = 2 ∧ g.cols ≤ g.cx + 1)) :
        Ready width (g.Consistent width ∧ g.PrintsWhole w) w g g := by
      refine ⟨hg, rfl, rfl, hwrapNext, fun _ _ => by omega, fun hp => ⟨hp.1, ?_⟩⟩
      have h := hp.2
      unfold PrintsWhole at h
      rwa [if_neg (by simpa [wraps, hwrapNext] using hw)] at h
    show Yields (wrapWide w g) _
    unfold wrapWide
    split
    · rename_i hw2
      rw [word16_eq (by omega), Option.bind_eq_bind, Option.bind_some]
      split
      · rename_i hlast
        refine hnext.mono fun k hk => AtStart.ready
          { hk with whole := fun hp => hk.whole ⟨hp.1, ?_⟩ }
        have h := hp.2
        unfold PrintsWhole at h
        rwa [if_pos (by simp [wraps, hw2, hlast])] at h
      · rename_i hroom
        exact Yields.some_iff.mpr (hstay fun h => hroom h.2)
    · rename_i hw1
      exact Yields.some_iff.mpr (hstay fun h => hw1 h.1)

theorem Bounded.repaint (hg : g.Bounded) {s : Screen}
    (hs : g.Repaints width (g.Painted width ∧ p) s) :
    g.Kept width p { g with toScreen := s } := by
  have hrest := hs.rest
  have hb : Bounded { g with toScreen := s } := by
    refine ⟨hs.draws.fits hg.fits, ?_⟩
    rw [hrest]
    exact hg.altLength
  refine ⟨⟨hb, fun hc hp => ⟨hb, hs.painted ⟨hc.painted, hp⟩, ?_, ?_⟩⟩, hs.draws.rows, hs.draws.cols⟩
  · rw [hrest]
    exact hc.wrap
  · rw [hrest]
    exact hc.altPainted

theorem repaint_yields (hg : g.Bounded) {f : Screen → Option Screen}
    (h : Yields (f g.toScreen) (g.Repaints width (g.Painted width ∧ p))) :
    Yields (g.onScreen f) fun h => g.Kept width p h ∧ h = { g with cells := h.cells } := by
  refine (onScreen_yields h).mono fun k hk => ?_
  obtain ⟨hk, hrest⟩ := hk
  refine ⟨?_, by rw [hrest, hk.rest]⟩
  rw [hrest]
  exact hg.repaint hk

/-- The cursor moved within the screen. -/
theorem Bounded.move (hg : g.Bounded) (cx cy : Nat) (wrapNext : Bool) (hcx : cx < g.cols)
    (hcy : cy < g.rows) (hwrap : g.Consistent width → p → wrapNext = true → g.cols ≤ cx + 1) :
    g.Kept width p { g with cx := cx, cy := cy, wrapNext := wrapNext } := by
  have hb : Bounded { g with cx := cx, cy := cy, wrapNext := wrapNext } :=
    ⟨{ hg.fits with cx_lt := hcx, cy_lt := hcy }, hg.altLength⟩
  refine ⟨⟨hb, fun hc hp => ⟨hb, hc.painted, fun h => ?_, hc.altPainted⟩⟩, rfl, rfl⟩
  have := hwrap hc hp h
  show cx + 1 = g.cols
  omega

/-- Printing keeps the grid bounded, and consistent where it covers whole glyphs. -/
theorem print_yields (hg : g.Bounded) (c : Char) (hw2 : (width c).getD 0 ≤ 2) :
    Yields (g.print width c)
      (g.Kept width (0 < (width c).getD 0 → g.PrintsWhole ((width c).getD 0))) := by
  unfold print
  dsimp only
  split
  · rename_i hw
    have hcombine := (Screen.combine_repaints hg.fits hw).mono fun s hs =>
      hs.mono (q := g.Painted width ∧ True) And.left
    refine (repaint_yields hg hcombine).mono fun h hh => ?_
    exact ⟨⟨hh.1.bounded, fun hc _ => hh.1.consistent hc trivial⟩, hh.1.rows, hh.1.cols⟩
  · rename_i hw
    have hpos : 0 < (width c).getD 0 := Nat.pos_of_ne_zero hw
    have hwritten : Yields (g.wrap >>= wrapWide ((width c).getD 0) >>=
        onScreen (Screen.writeChar c ((width c).getD 0))) fun k => k.Bounded ∧ k.rows = g.rows ∧ k.cols = g.cols ∧
          k.wrapNext = false ∧ ((width c).getD 0 = 2 → 1 < k.cols → k.cx + 1 < k.cols) ∧
          (g.Consistent width ∧ g.PrintsWhole ((width c).getD 0) → k.Consistent width) := by
      refine (wrap_yields width hg _).bind fun h hh => ?_
      refine (repaint_yields hh.bounded (Screen.writeChar_repaints hh.bounded.fits rfl hpos hw2
        hh.room)).mono fun k hk => ?_
      obtain ⟨hk, hrest⟩ := hk
      refine ⟨hk.bounded, hk.rows.trans hh.rows, hk.cols.trans hh.cols,
        by rw [hrest]; exact hh.wrapNext, by rw [hrest]; exact hh.room, ?_⟩
      intro hp
      obtain ⟨hcons, hparts⟩ := hh.whole hp
      exact hk.consistent hcons hparts
    refine hwritten.bind fun k hk => ?_
    obtain ⟨hk, hrows, hcols, hwrap, hroom, hcons⟩ := hk
    have hcx := hk.fits.cx_lt
    have hcolslt := hk.fits.cols_lt
    have hadvance : Yields (k.toScreen.advance ((width c).getD 0)) fun s =>
        ∃ cx wrapNext, s = { k.toScreen with cx := cx, wrapNext := wrapNext } ∧ cx < k.cols ∧
          (wrapNext = true → k.cols ≤ cx + 1) := by
      unfold Screen.advance
      rw [word16_eq (by omega), Option.bind_eq_bind, Option.bind_some]
      split
      · rw [less_eq (by omega), Option.bind_some, Yields.some_iff]
        exact ⟨_, _, rfl, by omega, fun _ => by omega⟩
      · rw [Yields.some_iff]
        exact ⟨_, k.wrapNext, rfl, by omega, by simp [hwrap]⟩
    refine (onScreen_yields hadvance).mono fun l hl => ?_
    obtain ⟨⟨cx, wrapNext, hs, hlt, hlast⟩, hrest⟩ := hl
    have hmove : k.Kept width True { k with cx := cx, wrapNext := wrapNext } :=
      hk.move cx k.cy wrapNext hlt hk.fits.cy_lt fun _ _ => hlast
    rw [hrest, hs]
    exact ⟨⟨hmove.bounded, fun hc hp => hmove.consistent (hcons ⟨hc, hp hpos⟩) trivial⟩,
      hrows, hcols⟩

/-! ## Control functions -/

/-- The counts and positions of a decoded control function are at least 1. -/
def Op.Coded : Op → Prop
  | .position r c => 0 < r ∧ 0 < c
  | .column n => 0 < n
  | .row n => 0 < n
  | .insertChars n => 0 < n
  | .deleteChars n => 0 < n
  | .region top bottom => 0 < top ∧ bottom ≠ some 0
  | _ => True

theorem executeOp_coded (byte : UInt8) : (executeOp byte).Coded := by
  unfold executeOp
  split <;> trivial

theorem escOp_coded (byte : UInt8) : (escOp byte).Coded := by
  unfold escOp
  split <;> trivial

theorem modeOp_coded (first : Nat) (on : Bool) : (modeOp first on).Coded := by
  unfold modeOp
  split <;> (try split) <;> trivial

theorem csiOp_coded (ps : List Nat) (isPrivate : Bool) (action : Char) :
    (csiOp ps isPrivate action).Coded := by
  unfold csiOp
  split
  all_goals try (split)
  all_goals first | trivial | (exact modeOp_coded _ _) | (simp [Op.Coded])

theorem onScreen_moveTo (hg : g.Bounded) (row col : Nat) :
    g.onScreen (Screen.moveTo row col) =
      some { g with cy := min row (g.rows - 1), cx := min col (g.cols - 1) } := by
  have hrows := hg.fits.rows_pos
  have hcols := hg.fits.cols_pos
  unfold onScreen Screen.moveTo
  rw [less_eq (by omega), less_eq (by omega)]
  rfl

variable (width) in
theorem moveTo_yields (hg : g.Bounded) (row col : Nat) :
    Yields (g.onScreen (Screen.moveTo row col)) (g.Kept width (g.StaysLast col)) := by
  have hrows := hg.fits.rows_pos
  have hcols := hg.fits.cols_pos
  rw [onScreen_moveTo hg, Yields.some_iff]
  refine hg.move _ _ g.wrapNext (by omega) (by omega) fun _ hstays hwrap => ?_
  have := hstays hwrap
  omega

/-- Entering the alternate screen keeps the grid, its wrap aside. -/
theorem enterAltScreen_kept (hg : g.Bounded) :
    g.Kept width (g.alt = none → g.StaysLast 0) g.enterAltScreen := by
  have hcols := hg.fits.cols_pos
  unfold enterAltScreen
  split
  · exact .refl hg
  · rename_i halt
    refine ⟨⟨⟨?_, ?_⟩, fun hc hstays => ⟨⟨?_, ?_⟩, fun r _ => ?_, fun hwrap => ?_, ?_⟩⟩, rfl, rfl⟩
    case refine_1 | refine_3 =>
      exact { hg.fits with
        length := List.length_replicate, cx_lt := hcols, cy_lt := hg.fits.rows_pos }
    case refine_2 | refine_4 =>
      rintro st ⟨⟩
      exact hg.fits.length
    case refine_5 =>
      refine (Row.blank .default).congr fun c _ => ?_
      simp [Screen.cell]
    case refine_6 =>
      have := hstays (by simpa using halt) hwrap
      show 0 + 1 = g.cols
      omega
    case refine_7 =>
      rintro st ⟨⟩
      exact hc.painted

theorem leaveAltScreen_yields (hg : g.Bounded) :
    Yields g.leaveAltScreen
      (g.Kept width (∀ st, g.alt = some st → g.StaysLast st.cx)) := by
  unfold leaveAltScreen
  split
  · exact Yields.some_iff.mpr (.refl hg)
  · rename_i st halt
    have hlen := hg.altLength st halt
    have hmain : Bounded
        { g with cells := st.cells, style := st.style, saved := st.saved, alt := none } :=
      ⟨{ hg.fits with length := hlen }, nofun⟩
    refine (moveTo_yields width hmain st.cy st.cx).mono fun h hh =>
      ⟨⟨hh.bounded, fun hc hstays => ?_⟩, hh.rows, hh.cols⟩
    exact hh.consistent { hmain with
      painted := hc.altPainted st halt, wrap := hc.wrap, altPainted := nofun } (hstays st halt)

/-- A full reset keeps the grid bounded and consistent. -/
theorem fullReset_yields (hg : g.Bounded) :
    Yields g.fullReset (g.Kept width True) := by
  have hrows := hg.fits.rows_pos
  unfold fullReset
  rw [less_eq (by omega), Option.bind_eq_bind, Option.bind_some, Yields.some_iff]
  have hb : Bounded { g with
      alt := none, style := .default, saved := none, cx := 0, cy := 0
      scrollTop := 0, scrollBottom := g.rows - 1, wrapNext := false
      cursorVisible := true, bracketedPaste := false
      cells := g.cells.map fun _ => .blank .default } := by
    refine ⟨?_, nofun⟩
    exact { hg.fits with
      length := by rw [List.length_map]; exact hg.fits.length
      cx_lt := hg.fits.cols_pos, cy_lt := hrows
      top_le := Nat.zero_le _, bottom_lt := Nat.sub_lt hrows Nat.one_pos }
  refine ⟨⟨hb, fun _ _ => { hb with
    painted := fun r _ => ?_, wrap := nofun, altPainted := nofun }⟩, rfl, rfl⟩
  refine (Row.blank .default).congr fun c _ => ?_
  rw [Screen.cell, List.map_const', cellOf_replicate]

/-- Setting the scroll region homes the cursor within the grid. -/
theorem setRegion_yields (hg : g.Bounded) {top : Nat} {bottom : Option Nat} (htop : 0 < top)
    (hbottom : bottom ≠ some 0) :
    Yields (g.setRegion top bottom) (g.Kept width
      (top < bottom.getD g.rows → bottom.getD g.rows ≤ g.rows → g.StaysLast 0)) := by
  have hrows := hg.fits.rows_pos
  have hcols := hg.fits.cols_pos
  have hpos : 0 < bottom.getD g.rows := by
    cases bottom with
    | none => exact hrows
    | some b => exact Nat.pos_of_ne_zero fun hb => hbottom (congrArg some hb)
  unfold setRegion
  rw [less_eq htop, less_eq hpos, Option.bind_eq_bind, Option.bind_some, Option.bind_some]
  split
  · rename_i hin
    have hb : Bounded { g with
        scrollTop := top - 1, scrollBottom := bottom.getD g.rows - 1, cx := 0, cy := 0 } := by
      refine ⟨?_, hg.altLength⟩
      exact { hg.fits with
        cx_lt := hcols, cy_lt := hrows, top_le := hin.1.le, bottom_lt := hin.2 }
    refine Yields.some_iff.mpr ⟨⟨hb, fun hc hstays => { hb with
      painted := hc.painted, wrap := fun hwrap => ?_, altPainted := hc.altPainted }⟩, rfl, rfl⟩
    have := hstays (by omega) (by omega) hwrap
    show 0 + 1 = g.cols
    omega
  · exact Yields.some_iff.mpr (.refl hg)

/-- A reverse index keeps the grid bounded and consistent. -/
theorem reverseIndex_yields (hg : g.Bounded) :
    Yields (g.onScreen Screen.reverseIndex) (g.Kept width True) := by
  have hcy := hg.fits.cy_lt
  have hscreen : Yields g.toScreen.reverseIndex fun s =>
      g.Repaints width (g.Painted width) s ∨ s = { g.toScreen with cy := g.cy - 1 } := by
    unfold Screen.reverseIndex
    split
    · exact (Screen.scrollRegionDown_repaints hg.fits 1).mono fun _ => .inl
    · split
      · exact Yields.some_iff.mpr (.inr rfl)
      · exact Yields.some_iff.mpr (.inl (.refl hg.fits))
  refine (onScreen_yields hscreen).mono fun h hh => ?_
  rw [hh.2]
  rcases hh.1 with hs | hs
  · exact hg.repaint (hs.mono And.left)
  · rw [hs]
    exact hg.move g.cx (g.cy - 1) g.wrapNext hg.fits.cx_lt (by omega)
      fun hc _ hwrap => (hc.wrap hwrap).ge

/-- A tab steps to the next stop, which has to fit the code's `u16`. -/
theorem tab_yields (hg : g.Bounded) (hstop : (g.cx / 8 + 1) * 8 < 65536) :
    Yields (g.exec .tab) (g.Kept width (Op.tab.Allowed g)) := by
  have hcx := hg.fits.cx_lt
  have htab : Yields g.toScreen.tab fun s =>
      s = { g.toScreen with cx := min ((g.cx / 8 + 1) * 8) (g.cols - 1) } := by
    unfold Screen.tab
    rw [word16_eq hstop, less_eq (by omega)]
    exact Yields.some_iff.mpr rfl
  refine (onScreen_yields htab).mono fun h hh => ?_
  rw [hh.2, hh.1]
  refine hg.move _ g.cy g.wrapNext (by omega) hg.fits.cy_lt fun hc _ h => ?_
  have := (hc.wrap h).ge
  omega

/-- Restoring the cursor clamps the position that was saved. -/
theorem restoreCursor_yields (hg : g.Bounded) :
    Yields g.restoreCursor (g.Kept width (Op.restore.Allowed g)) := by
  unfold restoreCursor
  split
  · exact Yields.some_iff.mpr (.refl hg)
  · rename_i p hsaved
    refine (moveTo_yields width hg p.1 p.2).mono fun h hh =>
      ⟨⟨hh.bounded, fun hc hstays => ?_⟩, hh.rows, hh.cols⟩
    exact hh.consistent hc (hstays p hsaved)

theorem right_yields (hg : g.Bounded) (n : Nat) :
    Yields (g.exec (.right n)) (g.Kept width ((Op.right n).Allowed g)) := by
  have hcx := hg.fits.cx_lt
  have hcols := hg.fits.cols_lt
  show Yields (less g.cols 1 >>= _) _
  rw [less_eq (by omega)]
  refine Yields.some_iff.mpr (hg.move _ g.cy g.wrapNext (by omega) hg.fits.cy_lt fun hc _ h => ?_)
  have := (hc.wrap h).ge
  omega

theorem left_yields (hg : g.Bounded) (n : Nat) :
    Yields (g.exec (.left n)) (g.Kept width ((Op.left n).Allowed g)) := by
  have hcx := hg.fits.cx_lt
  refine Yields.some_iff.mpr
    (hg.move _ g.cy g.wrapNext (by omega) hg.fits.cy_lt fun hc hstays h => ?_)
  rcases Nat.eq_zero_or_pos n with rfl | hn
  · exact (hc.wrap h).ge
  · have := hstays hn h
    omega

theorem column_yields (hg : g.Bounded) {n : Nat} (hn : 0 < n) :
    Yields (g.exec (.column n)) (g.Kept width ((Op.column n).Allowed g)) := by
  have hcx := hg.fits.cx_lt
  show Yields (less n 1 >>= _) _
  rw [less_eq hn, Option.bind_eq_bind, Option.bind_some, less_eq (by omega)]
  refine Yields.some_iff.mpr
    (hg.move _ g.cy g.wrapNext (by omega) hg.fits.cy_lt fun _ hstays h => ?_)
  have := hstays h
  omega

/-- A change of state that leaves the cells, the cursor and its wrap as they are. -/
theorem kept_of_still {p : Prop} (hg : g.Bounded) (style : CellStyle) (saved : Option (Nat × Nat))
    (cursorVisible bracketedPaste : Bool) :
    g.Kept width p { g with style, saved, cursorVisible, bracketedPaste } :=
  have hb : Bounded { g with style, saved, cursorVisible, bracketedPaste } :=
    ⟨{ hg.fits with }, hg.altLength⟩
  ⟨⟨hb, fun hc _ => { hb with
    painted := hc.painted, wrap := hc.wrap, altPainted := hc.altPainted }⟩, rfl, rfl⟩

variable (width) in
/-- Every operation that is coded keeps the grid bounded, and consistent where it is allowed. -/
theorem exec_yields (hg : g.Bounded) {op : Op} (hop : op.Coded)
    (htab : op = .tab → (g.cx / 8 + 1) * 8 < 65536) :
    Yields (g.exec op) (g.Kept width (op.Allowed g)) := by
  have hfits := hg.fits
  have hcx := hfits.cx_lt
  have hcy := hfits.cy_lt
  have hcols := hfits.cols_lt
  have hrepaint {p : Prop} {f : Screen → Option Screen}
      (h : Yields (f g.toScreen) (g.Repaints width (g.Painted width ∧ p))) :
      Yields (g.onScreen f) (g.Kept width p) := (repaint_yields hg h).mono fun _ h => h.1
  have hlines {f : Screen → Option Screen}
      (h : Yields (f g.toScreen) (g.Repaints width (g.Painted width))) :
      Yields (g.onScreen f) (g.Kept width True) :=
    hrepaint (h.mono fun _ hs => hs.mono And.left)
  have hwrap (hc : g.Consistent width) (h : g.wrapNext = true) : g.cols ≤ g.cx + 1 :=
    (hc.wrap h).ge
  cases op with
  | nothing => exact Yields.some_iff.mpr (.refl hg)
  | lineFeed => exact (lineFeed_kept width hg).mono fun _ hh => hh.1
  | carriageReturn => exact Yields.some_iff.mpr (hg.move 0 g.cy false (by omega) hcy nofun)
  | tab => exact tab_yields hg (htab rfl)
  | backspace =>
    refine Yields.some_iff.mpr (hg.move _ g.cy g.wrapNext (by omega) hcy fun _ hstays h => ?_)
    have := hstays h
    omega
  | reverseIndex => exact reverseIndex_yields hg
  | save => exact Yields.some_iff.mpr (kept_of_still hg _ _ _ _)
  | restore => exact restoreCursor_yields hg
  | reset => exact fullReset_yields hg
  | position row col =>
    show Yields (less row 1 >>= _) _
    rw [less_eq hop.1, Option.bind_eq_bind, Option.bind_some, less_eq hop.2,
      Option.bind_eq_bind, Option.bind_some, onScreen_moveTo hg]
    exact Yields.some_iff.mpr (hg.move (min (col - 1) (g.cols - 1)) (min (row - 1) (g.rows - 1))
      false (by omega) (by omega) nofun)
  | up n =>
    exact Yields.some_iff.mpr (hg.move g.cx _ g.wrapNext hcx (by omega) fun hc _ => hwrap hc)
  | down n =>
    show Yields (less g.rows 1 >>= _) _
    rw [less_eq (by omega)]
    exact Yields.some_iff.mpr (hg.move g.cx _ g.wrapNext hcx (by omega) fun hc _ => hwrap hc)
  | right n => exact right_yields hg n
  | left n => exact left_yields hg n
  | column n => exact column_yields hg hop
  | row n =>
    have hn : 0 < n := hop
    show Yields (less n 1 >>= _) _
    rw [less_eq hn, Option.bind_eq_bind, Option.bind_some, less_eq (by omega)]
    exact Yields.some_iff.mpr (hg.move g.cx _ g.wrapNext hcx (by omega) fun hc _ => hwrap hc)
  | eraseDisplay mode => exact hrepaint (Screen.eraseInDisplay_repaints hfits mode)
  | eraseLine mode => exact hrepaint (Screen.eraseInLine_repaints hfits mode)
  | insertLines n => exact hlines (Screen.insertLines_repaints hfits n)
  | deleteLines n => exact hlines (Screen.deleteLines_repaints hfits n)
  | insertChars n => exact hrepaint (Screen.insertChars_repaints hfits hop)
  | deleteChars n => exact hrepaint (Screen.deleteChars_repaints hfits hop)
  | eraseChars n =>
    refine hrepaint ((Screen.eraseSpan_repaints hfits hcy).mono fun s hs => hs.mono ?_)
    rintro ⟨hp, ha, hb⟩
    refine ⟨hp, ha, fun hlt => ?_⟩
    rw [show min (g.cx + n) 65535 = g.cx + n by omega]
    exact hb (by omega)
  | region top bottom => exact setRegion_yields hg hop.1 hop.2
  | sgr ps => exact Yields.some_iff.mpr (kept_of_still hg _ _ _ _)
  | enterAlt => exact Yields.some_iff.mpr (enterAltScreen_kept hg)
  | leaveAlt => exact leaveAltScreen_yields hg
  | showCursor on => exact Yields.some_iff.mpr (kept_of_still hg _ _ _ _)

/-! ## Resizing -/

/-- Remapped cells are the old ones where both sizes hold them, and blank elsewhere. -/
theorem remap_yields {old : List GridCell} {oldRows oldCols : Nat}
    (hlen : old.length = oldRows * oldCols) :
    Yields (remap old oldRows oldCols rows cols) fun out => out.length = rows * cols ∧
      ∀ r c, r < rows → c < cols → cellOf out cols r c =
        if r < oldRows ∧ c < oldCols then cellOf old oldCols r c else .blank .default := by
  refine (yields_upTo
    (I := fun k out => out.length = rows * cols ∧ ∀ r c, r < rows → c < cols →
      cellOf out cols r c =
        if r < k ∧ c < oldCols then cellOf old oldCols r c else .blank .default)
    (Nat.zero_le _) ⟨List.length_replicate, fun r c _ _ => by simp⟩ ?_).mono fun out hout => ?_
  · intro k out _ hk hout
    refine (yields_upTo
      (I := fun j out => out.length = rows * cols ∧ ∀ r c, r < rows → c < cols →
        cellOf out cols r c =
          if (r < k ∧ c < oldCols) ∨ (r = k ∧ c < j) then cellOf old oldCols r c
          else .blank .default)
      (Nat.zero_le _) ⟨hout.1, fun r c hr hc => ?_⟩ ?_).mono fun out hout => ⟨hout.1, ?_⟩
    · rw [hout.2 r c hr hc]
      simp
    · rintro j out - hj ⟨hlen', hcell⟩
      rw [getElem?_cellOf hlen (by omega) (by omega), Option.bind_eq_bind, Option.bind_some,
        if_pos (hlen' ▸ flat_lt (by omega) (by omega)), Yields.some_iff]
      refine ⟨by rw [List.length_set, hlen'], fun r c hr hc => ?_⟩
      rw [cellOf_set hlen' (by omega) (by omega) hc, hcell r c hr hc]
      grind
    · intro r c hr hc
      grind
  · refine ⟨hout.1, fun r c hr hc => ?_⟩
    grind

variable (width) in
theorem remap_rows {old : List GridCell} {oldRows oldCols : Nat}
    (hlen : old.length = oldRows * oldCols) (hold : 0 < oldCols) :
    Yields (remap old oldRows oldCols rows cols) fun out => out.length = rows * cols ∧
      ((∀ r, r < oldRows → Row width oldCols (cellOf old oldCols r)) →
        (∀ r, r < min rows oldRows → KeepsWhole width oldCols cols (cellOf old oldCols r)) →
        ∀ r, r < rows → Row width cols (cellOf out cols r)) := by
  refine (remap_yields hlen).mono fun out hout => ⟨hout.1, fun hrow hkeeps r hr => ?_⟩
  by_cases hlt : r < oldRows
  · refine ((hrow r hlt).remap (hkeeps r (by omega)) hold).congr fun c hc => ?_
    rw [hout.2 r c hr hc]
    simp [hlt]
  · refine (Row.blank .default).congr fun c hc => ?_
    rw [hout.2 r c hr hc, if_neg (by omega)]

/-- A resize keeps the grid bounded, and consistent where it cuts no glyph. -/
theorem resize_yields (hg : g.Bounded) (hrows : rows < 65536) (hcols : cols < 65536) :
    Yields (g.resize rows cols) (g.Follows width (∀ r, r < min (max rows 1) g.rows →
      KeepsWhole width g.cols cols (g.cell r) ∧
      ∀ st, g.alt = some st → KeepsWhole width g.cols cols (cellOf st.cells g.cols r))) := by
  -- a screen of no columns gets one, which cuts nothing either
  have hmax {x : Nat → GridCell} (h : KeepsWhole width g.cols cols x) :
      KeepsWhole width g.cols (max cols 1) x := by
    intro hlt
    rw [show max cols 1 = cols by omega]
    exact h (by omega)
  unfold resize
  dsimp only
  split
  · exact Yields.some_iff.mpr ⟨hg, fun hc _ => hc⟩
  · refine (remap_rows width hg.fits.length hg.fits.cols_pos).bind fun cells hcells => ?_
    have halt : Yields (g.remapAlt (max rows 1) (max cols 1)) fun alt => ∀ st, alt = some st →
        st.cells.length = max rows 1 * max cols 1 ∧ (g.Consistent width →
          (∀ r, r < min (max rows 1) g.rows → ∀ st, g.alt = some st →
            KeepsWhole width g.cols (max cols 1) (cellOf st.cells g.cols r)) →
          ∀ r, r < max rows 1 → Row width (max cols 1) (cellOf st.cells (max cols 1) r)) := by
      unfold remapAlt
      split
      · exact Yields.some_iff.mpr nofun
      · rename_i st hst
        obtain ⟨out, hout, hlen, hwhole⟩ :=
          remap_rows width (hg.altLength st hst) hg.fits.cols_pos
        rw [hout]
        refine Yields.some_iff.mpr ?_
        rintro _ ⟨⟩
        exact ⟨hlen, fun hc hkeeps => hwhole (hc.altPainted st hst) fun r hr => hkeeps r hr st hst⟩
    refine halt.bind fun alt halt => ?_
    rw [less_eq (by omega), less_eq (by omega)]
    refine Yields.some_iff.mpr ?_
    have hb : Bounded { g with
        cells := cells, alt := alt, rows := max rows 1, cols := max cols 1
        cx := min g.cx (max cols 1 - 1), cy := min g.cy (max rows 1 - 1)
        scrollTop := 0, scrollBottom := max rows 1 - 1, wrapNext := false } := by
      refine ⟨?_, fun st hst => (halt st hst).1⟩
      constructor <;> dsimp only <;> first | exact hcells.1 | omega
    refine ⟨hb, fun hc hkeeps => { hb with
      painted := hcells.2 hc.painted fun r hr => hmax (hkeeps r hr).1
      wrap := nofun
      altPainted := fun st hst => (halt st hst).2 hc fun r hr st hst => hmax ((hkeeps r hr).2 st hst) }⟩

/-! ## Runs -/

theorem allowed_paste (g : Grid) (op : Op) (on : Bool) :
    op.Allowed { g with bracketedPaste := on } ↔ op.Allowed g := by
  cases op <;> exact Iff.rfl

/-- A tab of the step goes to a stop that is a 16-bit number. -/
def TabFits (g : Grid) (a : Action) : Prop :=
  a = .execute 0x09 → (g.cx / 8 + 1) * 8 < 65536

theorem csiOp_ne_tab (ps : List Nat) (isPrivate : Bool) (action : Char) :
    csiOp ps isPrivate action ≠ .tab := by
  unfold csiOp modeOp
  dsimp only
  all_goals try split
  all_goals try split
  all_goals try split
  all_goals nofun

theorem escOp_ne_tab (byte : UInt8) : escOp byte ≠ .tab := by
  unfold escOp
  split <;> nofun

theorem executeOp_eq_tab {byte : UInt8} (h : executeOp byte = .tab) : byte = 0x09 := by
  revert h
  unfold executeOp
  split <;> simp

/-- A step does not fault, but for a tab too far right, keeps the grid in bounds and, when it is
allowed, consistent. -/
theorem step_yields (hw : ∀ c, (width c).getD 0 ≤ 2) (hg : g.Bounded) {a : Action}
    (htab : g.TabFits a) : Yields (g.step width a) (g.Follows width (Allowed width g a)) := by
  cases a with
  | print c => exact (print_yields hg c (hw c)).mono fun _ h => h.toFollows
  | execute byte =>
    refine (exec_yields width hg (executeOp_coded byte) fun h => htab ?_).mono
      fun _ h => h.toFollows
    rw [executeOp_eq_tab h]
  | csi params inter action =>
    have hpaste : ∀ h, h = g.setPaste (flat params) (isPrivate inter) action →
        g.Follows width True h ∧ (∀ op : Op, op.Allowed h ↔ op.Allowed g) := by
      rintro _ rfl
      unfold setPaste
      split
      · have hb : Bounded { g with bracketedPaste := action = 'h' } := ⟨hg.fits, hg.altLength⟩
        exact ⟨⟨hb, fun hc _ => { hb with
          painted := hc.painted, wrap := hc.wrap, altPainted := hc.altPainted }⟩,
          fun op => allowed_paste g op _⟩
      · exact ⟨⟨hg, fun hc _ => hc⟩, fun op => Iff.rfl⟩
    obtain ⟨hkept, hallowed⟩ := hpaste _ rfl
    refine (exec_yields width hkept.bounded (csiOp_coded _ _ _) fun h =>
      absurd h (csiOp_ne_tab _ _ _)).mono fun h hh => ⟨hh.bounded, fun hc ha => ?_⟩
    exact hh.consistent (hkept.consistent hc trivial) ((hallowed _).mpr ha)
  | esc inter byte =>
    exact (exec_yields width hg (escOp_coded byte) fun h => absurd h (escOp_ne_tab byte)).mono
      fun _ h => h.toFollows
  | resize rows cols => exact resize_yields hg rows.toNat_lt cols.toNat_lt

/-- Every step of a run is allowed in the state it is taken in. -/
def AllowedRun (width : Char → Option Nat) : List Action → Grid → Prop
  | [], _ => True
  | a :: as, g => Allowed width g a ∧ ∀ h, g.step width a = some h → AllowedRun width as h

theorem AllowedRun.take {as : List Action} (h : AllowedRun width as g) (n : Nat) :
    AllowedRun width (as.take n) g := by
  induction as generalizing g n with
  | nil => simpa using h
  | cons a as ih =>
    cases n with
    | zero => trivial
    | succ n => exact ⟨h.1, fun k hk => ih (h.2 k hk) n⟩

end Grid

end Ruse.Tui.Term
