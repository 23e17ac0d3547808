import Ruse.Core.Columns
import Ruse.Core.Segmentation

/-!
# The rows of a block

The model of `block_row` in `crates/core/src/editor/range.rs`: what of one line lies in the
columns `lo..=hi` of a block. The walk over the clusters is a scan of the line's tiles
(`blockFrom_eq`), which skips the tiles left of the block, takes those it touches and stops
at the first one right of it. Whatever its way through the edges, the row it leaves has the
cells of the block on each side of the cuts (`Sliced`, `scanTiles_sliced`).
-/

namespace Ruse.Core

open Ruse.Lib

variable {i left : Nat} {t : Tile}

structure BlockRow where
  ls : Nat
  le : Nat
  /-- The characters wholly inside the block. -/
  s : Nat
  e : Nat
  /-- The characters the block touches. -/
  ds : Nat
  de : Nat
  /-- Cells inside the block of a character over its left edge, and over its right one. -/
  inL : Nat
  inR : Nat
  /-- Cells of these outside the block. -/
  outL : Nat
  outR : Nat
  /-- The column just past the line's last character. -/
  cells : Nat
deriving DecidableEq, Repr

/-- The walk of `block_row` at byte `i` and column `v`. -/
structure BlockScan where
  row : BlockRow
  s : Option Nat
  ds : Option Nat
  /-- The byte just past a character over the left edge. -/
  afterLeft : Option Nat
  i : Nat
  v : Nat

namespace BlockScan

def start (ls le : Nat) : BlockScan where
  row :=
    { ls, le, s := 0, e := 0, ds := 0, de := 0, inL := 0, inR := 0, outL := 0, outR := 0,
      cells := 0 }
  s := none
  ds := none
  afterLeft := none
  i := ls
  v := 0

/-- Take the character up to `j`, `w` cells wide, which the block touches. -/
def touch (st : BlockScan) (lo hi j w : Nat) : BlockScan :=
  let last := st.v + w - 1
  let ds := some (st.ds.getD st.i)
  let r := { st.row with de := j }
  let st' := { st with ds, i := j, v := st.v + w }
  match decide (st.v < lo), decide (last > hi) with
  | false, false => { st' with s := some (st.s.getD st.i), row := { r with e := j } }
  | true, false =>
    { st' with
      row := { r with outL := lo - st.v, inL := last - lo + 1 }
      afterLeft := some j }
  | false, true => { st' with row := { r with inR := hi - st.v + 1, outR := last - hi } }
  | true, true =>
    { st' with
      row := { r with outL := lo - st.v, inL := hi - lo + 1, outR := last - hi }
      afterLeft := some st.i }

/-- The row the walk leaves. A row that holds no whole character has its inside after a
character over the left edge, or where the walk stopped. -/
def close (st : BlockScan) (cells : Nat) : BlockRow :=
  let s := st.s.getD (st.afterLeft.getD st.i)
  let e := if st.row.e < s then s else st.row.e
  let ds := st.ds.getD s
  let de := if st.row.de < ds then ds else st.row.de
  { st.row with s, e, ds, de, cells }

end BlockScan

/-- The first loop of `block_row`. -/
def blockFrom (cells : Cells) (b : Bytes) (le lo hi : Nat) : (left : Nat) → BlockScan → BlockScan
  | 0, st => st
  | left + 1, st =>
    if st.i < le then
      let (j, w) := cells b st.i le st.v
      let last := st.v + w - 1
      if last < lo then blockFrom cells b le lo hi left { st with i := j, v := st.v + w }
      else if st.v > hi then st
      else blockFrom cells b le lo hi left (st.touch lo hi j w)
    else st

/-- The second one: the columns to the line's end. -/
def cellsFrom (cells : Cells) (b : Bytes) (le : Nat) : (left i v : Nat) → Nat
  | 0, _, v => v
  | left + 1, i, v =>
    if i < le then
      let (j, w) := cells b i le v
      cellsFrom cells b le left j (v + w)
    else v

/-- The part of the line at `ls` that the block `lo..=hi` covers. -/
def blockRow (cells : Cells) (b : Bytes) (ls lo hi : Nat) : BlockRow :=
  let le := lineEnd b ls
  let st := blockFrom cells b le lo hi (le - ls) (.start ls le)
  st.close (cellsFrom cells b le (le - st.i) st.i st.v)

/-! ## The walk is a scan of the line's tiles -/

/-- `blockFrom` over the tiles of the line. -/
def scanTiles (lo hi : Nat) : BlockScan → List Tile → BlockScan
  | st, [] => st
  | st, t :: ts =>
    if t.endCol - 1 < lo then scanTiles lo hi { st with i := t.stop, v := t.endCol } ts
    else if t.col > hi then st
    else scanTiles lo hi (st.touch lo hi t.stop t.width) ts

@[simp] theorem BlockScan.touch_at (st : BlockScan) (lo hi j w : Nat) :
    (st.touch lo hi j w).i = j ∧ (st.touch lo hi j w).v = st.v + w := by
  unfold touch
  dsimp only
  split <;> exact ⟨rfl, rfl⟩

section
variable {cells : Cells} {b : Bytes} {le lo hi : Nat}

theorem blockFrom_eq {st : BlockScan} :
    blockFrom cells b le lo hi left st = scanTiles lo hi st (tilesFrom cells b le left st.i st.v) := by
  induction left generalizing st with
  | zero => rfl
  | succ left ih =>
    rw [blockFrom, tilesFrom]
    split
    · dsimp only
      rw [scanTiles, ih, ih]
      obtain ⟨hi', hv'⟩ := st.touch_at lo hi (cells b st.i le st.v).1 (cells b st.i le st.v).2
      rw [hi', hv']
      rfl
    · rfl

theorem cellsFrom_eq {v : Nat} :
    cellsFrom cells b le left i v = v + ((tilesFrom cells b le left i v).map Tile.width).sum := by
  induction left generalizing i v with
  | zero => rfl
  | succ left ih =>
    rw [cellsFrom, tilesFrom]
    split
    · simp only [ih, List.map_cons, List.sum_cons, Nat.add_assoc]
    · rfl

end

section
variable {U : UnicodeData} {g : Segmenter} (hg : g.Follows U) {cells : Cells} {b : Bytes} {le : Nat}
  (hends : ∀ b i le v, (cells b i le v).1 = clusterEnd g b i le)
include hg hends

/-- The walk ends at the line's end with any number of rounds that is enough. -/
theorem cellsFrom_congr (hle : le ≤ b.length) {left' v : Nat} (hleft : le - i ≤ left)
    (hleft' : le - i ≤ left') : cellsFrom cells b le left i v = cellsFrom cells b le left' i v := by
  induction left generalizing left' i v with
  | zero =>
    cases left' with
    | zero => rfl
    | succ left' => rw [cellsFrom, cellsFrom, if_neg (by omega)]
  | succ left ih =>
    by_cases hi : i < le
    · obtain ⟨hgt, -⟩ := clusterEnd_bounds hg hi hle
      rw [← hends b i le v] at hgt
      cases left' with
      | zero => omega
      | succ left' =>
        rw [cellsFrom, cellsFrom, if_pos hi, if_pos hi]
        exact ih (by omega) (by omega)
    · rw [cellsFrom, if_neg hi]
      cases left' with
      | zero => rfl
      | succ left' => rw [cellsFrom, if_neg hi]

/-- Where the scan of a row stops, the cells from there on do not depend on its rounds. -/
theorem cellsFrom_blockFrom (lo hi : Nat) (hle : le ≤ b.length) {st : BlockScan}
    (hleft : le - st.i ≤ left) :
    cellsFrom cells b le (le - (blockFrom cells b le lo hi left st).i)
      (blockFrom cells b le lo hi left st).i (blockFrom cells b le lo hi left st).v =
    cellsFrom cells b le left st.i st.v := by
  induction left generalizing st with
  | zero => exact cellsFrom_congr hg hends hle (Nat.le_refl _) hleft
  | succ left ih =>
    rw [blockFrom]
    split
    · rename_i hi'
      obtain ⟨hgt, -⟩ := clusterEnd_bounds hg hi' hle
      rw [← hends b st.i le st.v] at hgt
      dsimp only
      split
      · rw [ih (by dsimp only; omega), cellsFrom, if_pos hi']
      · split
        · exact cellsFrom_congr hg hends hle (Nat.le_refl _) hleft
        · obtain ⟨hi, hv⟩ := st.touch_at lo hi (cells b st.i le st.v).1 (cells b st.i le st.v).2
          rw [ih (by rw [hi]; omega), hi, hv, cellsFrom, if_pos hi']
    · exact cellsFrom_congr hg hends hle (Nat.le_refl _) hleft

theorem blockRow_cells (ls lo hi : Nat) : (blockRow cells b ls lo hi).cells =
    ((lineTiles cells b ls).map Tile.width).sum := by
  have hwalk := cellsFrom_blockFrom hg hends lo hi (lineEnd_le_length b ls)
    (show lineEnd b ls - (BlockScan.start ls (lineEnd b ls)).i ≤ lineEnd b ls - ls from Nat.le_refl _)
  exact hwalk.trans (cellsFrom_eq.trans (Nat.zero_add _))

end

/-! ## What the scan leaves -/

/-- The cuts of a block's row, in columns of the line. The cells inside the block are those
between the inner cuts and the inside cells of the characters over its edges; between the
outer cuts are these and the outside cells. -/
structure Sliced (row : List Tile) (ls n lo hi : Nat) (r : BlockRow) (dc xc ec dec : Nat) : Prop where
  ds : Mark ls 0 row r.ds dc
  s : Mark ls 0 row r.s xc
  e : Mark ls 0 row r.e ec
  de : Mark ls 0 row r.de dec
  order : r.ds ≤ r.s ∧ r.s ≤ r.e ∧ r.e ≤ r.de
  inside : ec + r.inL + r.inR = xc + (min n (hi + 1) - lo)
  touched : dec = dc + (min n (hi + 1) - lo) + r.outL + r.outR
  whole : ∀ t ∈ row, xc ≤ t.col ∧ t.endCol ≤ ec ↔ lo ≤ t.col ∧ t.endCol ≤ hi + 1
  touches : ∀ t ∈ row, dc ≤ t.col ∧ t.endCol ≤ dec ↔ lo < t.endCol ∧ t.col ≤ hi

/-- The left edge of the block is between two characters, or inside the one from `d` to `x`. -/
def LeftEdge (row : List Tile) (lo d x dc xc inL outL : Nat) : Prop :=
  (d = x ∧ dc = lo ∧ xc = lo ∧ inL = 0 ∧ outL = 0) ∨
  ∃ t ∈ row, t.start = d ∧ t.stop = x ∧ t.col = dc ∧ t.endCol = xc ∧ dc < lo ∧ lo < xc ∧
    inL = xc - lo ∧ outL = lo - dc

/-- The walk is in the block, past its left edge. -/
structure BlockScan.Open (row : List Tile) (ls lo hi : Nat) (st : BlockScan) (d x dc xc : Nat) :
    Prop where
  ds : st.ds = some d
  s : (st.s = some x ∧ st.row.e = st.i) ∨
    (st.s = none ∧ st.afterLeft = some x ∧ st.i = x ∧ st.row.e ≤ x)
  de : st.row.de = st.i
  right : st.row.inR = 0 ∧ st.row.outR = 0
  left : LeftEdge row lo d x dc xc st.row.inL st.row.outL
  markD : Mark ls 0 row d dc
  markX : Mark ls 0 row x xc
  order : d ≤ x ∧ x ≤ st.i ∧ xc ≤ st.v
  inBlock : st.v ≤ hi + 1

namespace BlockScan

/-- The inner cuts of a row whose last whole character ends at `i`, or that has none. -/
theorem close_inner (st : BlockScan) {x : Nat}
    (hs : (st.s = some x ∧ st.row.e = i) ∨ (st.s = none ∧ st.afterLeft.getD st.i = x ∧ i = x ∧ st.row.e ≤ x))
    (hxi : x ≤ i) (cells : Nat) :
    (st.close cells).s = x ∧ (st.close cells).e = i := by
  have hx : (st.close cells).s = x := by
    rcases hs with ⟨hs, -⟩ | ⟨hs, hafter, -⟩
    · rw [close, hs]
      rfl
    · rw [close, hs, hafter]
      rfl
  refine ⟨hx, ?_⟩
  show (if st.row.e < (st.close cells).s then (st.close cells).s else st.row.e) = i
  rw [hx]
  rcases hs with ⟨-, he⟩ | ⟨-, -, hi, he⟩
  · rw [he, if_neg (by omega)]
  · split <;> omega

theorem close_outer (st : BlockScan) {d : Nat} (hd : st.ds = some d) (hde : d ≤ st.row.de) (cells : Nat) :
    (st.close cells).ds = d ∧ (st.close cells).de = st.row.de := by
  have hds : (st.close cells).ds = d := by
    rw [close, hd]
    rfl
  refine ⟨hds, ?_⟩
  show (if st.row.de < (st.close cells).ds then (st.close cells).ds else st.row.de) = st.row.de
  rw [hds, if_neg (by omega)]

variable {lo hi j w : Nat} {st : BlockScan}

theorem touch_whole (hv : ¬ st.v < lo) (hlast : ¬ hi < st.v + w - 1) : st.touch lo hi j w =
    { st with
      row := { st.row with de := j, e := j }
      s := some (st.s.getD st.i)
      ds := some (st.ds.getD st.i)
      i := j
      v := st.v + w } := by
  simp [touch, hv, hlast]

theorem touch_left (hv : st.v < lo) (hlast : ¬ hi < st.v + w - 1) : st.touch lo hi j w =
    { st with
      row := { st.row with de := j, outL := lo - st.v, inL := st.v + w - 1 - lo + 1 }
      ds := some (st.ds.getD st.i)
      afterLeft := some j
      i := j
      v := st.v + w } := by
  simp [touch, hv, hlast]

theorem touch_right (hv : ¬ st.v < lo) (hlast : hi < st.v + w - 1) : st.touch lo hi j w =
    { st with
      row := { st.row with de := j, inR := hi - st.v + 1, outR := st.v + w - 1 - hi }
      ds := some (st.ds.getD st.i)
      i := j
      v := st.v + w } := by
  simp [touch, hv, hlast]

theorem touch_both (hv : st.v < lo) (hlast : hi < st.v + w - 1) : st.touch lo hi j w =
    { st with
      row :=
        { st.row with
          de := j, outL := lo - st.v, inL := hi - lo + 1, outR := st.v + w - 1 - hi }
      ds := some (st.ds.getD st.i)
      afterLeft := some st.i
      i := j
      v := st.v + w } := by
  simp [touch, hv, hlast]

end BlockScan

section
variable {row ts done : List Tile} {ls le n lo hi d x dc xc : Nat} {st : BlockScan}
  (hrow : Tiled ls 0 row le n)
include hrow

omit hrow in
theorem LeftEdge.cols {inL outL : Nat} (h : LeftEdge row lo d x dc xc inL outL) :
    dc ≤ lo ∧ lo ≤ xc ∧ dc + outL = lo ∧ lo + inL = xc := by
  rcases h with ⟨-, rfl, rfl, rfl, rfl⟩ | ⟨t, -, -, -, -, -, hdc, hxc, rfl, rfl⟩
  · omega
  · omega

/-- A character reaches past the block's left edge just where it starts at the cut before the
edge or after it, and starts inside just where it starts at the cut after the edge or past it. -/
theorem LeftEdge.cut {inL outL : Nat} (h : LeftEdge row lo d x dc xc inL outL)
    (hd : Mark ls 0 row d dc) (hx : Mark ls 0 row x xc) (ht : t ∈ row) :
    (dc ≤ t.col ↔ lo < t.endCol) ∧ (xc ≤ t.col ↔ lo ≤ t.col) := by
  obtain ⟨-, -, -, -, hwidth, -⟩ := hrow.inside ht
  have hapartX := hx.apart hrow ht
  have hend : t.endCol = t.col + t.width := rfl
  rcases h with ⟨-, rfl, rfl, -⟩ | ⟨u, hu, -, -, rfl, rfl, hdc, hxc, -⟩
  · omega
  · have hapart := hrow.apart ht hu
    rcases hapart with rfl | hapart
    · omega
    · omega

/-- A slice still open at the end of its columns is closed there. -/
theorem BlockScan.Open.close_end (h : st.Open row ls lo hi d x dc xc) (hat : Mark ls 0 row st.i st.v)
    (hend : st.v = min n (hi + 1)) (cells : Nat) :
    Sliced row ls n lo hi (st.close cells) dc xc st.v st.v := by
  obtain ⟨hdx, hxi, hxv⟩ := h.order
  obtain ⟨hinR, houtR⟩ := h.right
  obtain ⟨hdc, hxc, hout, hin⟩ := h.left.cols
  obtain ⟨hs, he⟩ := st.close_inner (h.s.imp_right fun hs => ⟨hs.1, by rw [hs.2.1]; rfl, hs.2.2⟩) hxi cells
  obtain ⟨hds, hde⟩ := st.close_outer h.ds (by rw [h.de]; omega) cells
  rw [h.de] at hde
  have hcut : ∀ t ∈ row, t.endCol ≤ st.v ↔ t.endCol ≤ hi + 1 := by
    intro t ht
    have := hrow.inside ht
    omega
  refine ⟨hds ▸ h.markD, hs ▸ h.markX, he ▸ hat, hde ▸ hat, ?_, ?_, ?_, fun t ht => ?_, fun t ht => ?_⟩
  · rw [hds, hs, he, hde]
    omega
  · show st.v + st.row.inL + st.row.inR = _
    omega
  · show st.v = dc + _ + st.row.outL + st.row.outR
    omega
  · rw [(h.left.cut hrow h.markD h.markX ht).2, hcut t ht]
  · rw [(h.left.cut hrow h.markD h.markX ht).1]
    have hapart := hat.apart hrow ht
    have hin := hrow.inside ht
    have hwidth : t.endCol = t.col + t.width := rfl
    omega

/-- A slice whose right edge splits a cell takes the cell in and is padded on the right. -/
theorem BlockScan.Open.close_right (h : st.Open row ls lo hi d x dc xc)
    (hat : Mark ls 0 row st.i st.v) (ht : t ∈ row) (hstart : t.start = st.i) (hcol : t.col = st.v)
    (hv : st.v ≤ hi) (hend : hi + 1 < t.endCol) (hnext : Mark ls 0 row t.stop t.endCol)
    (cells : Nat) :
    Sliced row ls n lo hi ((st.touch lo hi t.stop t.width).close cells) dc xc st.v t.endCol := by
  obtain ⟨hdx, hxi, hxv⟩ := h.order
  obtain ⟨hdc, hxc, hout, hin⟩ := h.left.cols
  have hinside := hrow.inside ht
  have hwidth : t.endCol = t.col + t.width := rfl
  rw [touch_right (by omega) (by omega), h.ds]
  generalize hst : ({ st with
    row :=
      { st.row with
        de := t.stop, inR := hi - st.v + 1, outR := st.v + t.width - 1 - hi }
    ds := some ((some d).getD st.i)
    i := t.stop
    v := st.v + t.width } : BlockScan) = st'
  obtain ⟨hs, he⟩ := st'.close_inner (x := x) (i := st.i) (by
    rw [← hst]
    exact h.s.imp_right fun hs => ⟨hs.1, by rw [hs.2.1]; rfl, hs.2.2⟩) hxi cells
  obtain ⟨hds, hde⟩ := st'.close_outer (d := d) (by rw [← hst]; rfl)
    (by rw [← hst]; dsimp only; omega) cells
  have hstop : st'.row.de = t.stop := by rw [← hst]
  rw [hstop] at hde
  have hrin : (st'.close cells).inL = st.row.inL ∧ (st'.close cells).inR = hi - st.v + 1 := by
    rw [← hst]
    exact ⟨rfl, rfl⟩
  have hrout : (st'.close cells).outL = st.row.outL ∧
      (st'.close cells).outR = st.v + t.width - 1 - hi := by
    rw [← hst]
    exact ⟨rfl, rfl⟩
  refine ⟨hds ▸ h.markD, hs ▸ h.markX, he ▸ hat, hde ▸ hnext, ?_, ?_, ?_, fun u hu => ?_, fun u hu => ?_⟩
  · rw [hds, hs, he, hde]
    omega
  · rw [hrin.1, hrin.2]
    omega
  · rw [hrout.1, hrout.2]
    omega
  · have hapart := hat.apart hrow hu
    have hapart' := hrow.apart ht hu
    have hw : u.endCol = u.col + u.width := rfl
    have hcut := (h.left.cut hrow h.markD h.markX hu).2
    rcases hapart' with rfl | hapart'
    · omega
    · omega
  · have hapart := hnext.apart hrow hu
    have hapart' := hrow.apart ht hu
    have hin := hrow.inside hu
    have hw : u.endCol = u.col + u.width := rfl
    have hcut := (h.left.cut hrow h.markD h.markX hu).1
    rcases hapart' with rfl | hapart'
    · omega
    · omega

omit hrow in
theorem scanTiles_stop {j m : Nat} (h : lo ≤ hi) (hv : hi < st.v) (hts : Tiled st.i st.v ts j m) :
    scanTiles lo hi st ts = st := by
  cases hts with
  | nil => rfl
  | @cons _ _ _ _ t _ hstart hcol hstop hwidth _ =>
    have hcols : t.endCol = t.col + t.width := rfl
    rw [scanTiles, if_neg (by omega), if_pos (by omega)]

omit hrow in
/-- A whole character keeps the walk in the block. -/
theorem BlockScan.Open.touch (h : st.Open row ls lo hi d x dc xc) (hstart : t.start = st.i)
    (hstop : t.start < t.stop) (hv : lo ≤ st.v) (hend : st.v + t.width ≤ hi + 1) :
    (st.touch lo hi t.stop t.width).Open row ls lo hi d x dc xc := by
  obtain ⟨hdx, hxi, hxv⟩ := h.order
  rw [touch_whole (by omega) (by omega)]
  refine ⟨?_, .inl ⟨?_, rfl⟩, rfl, h.right, h.left, h.markD, h.markX, ?_, hend⟩
  · rw [h.ds]
    rfl
  · rcases h.s with ⟨hs, -⟩ | ⟨hs, -, hi, -⟩
    · rw [hs]
      rfl
    · rw [hs, hi]
      rfl
  · dsimp only
    omega

/-- Once the left edge is found the scan slices the row. -/
theorem scanTiles_open (h : st.Open row ls lo hi d x dc xc) (hlohi : lo ≤ hi) (hsplit : row = done ++ ts)
    (hdone : Tiled ls 0 done st.i st.v) (cells : Nat) :
    ∃ ec dec, Sliced row ls n lo hi ((scanTiles lo hi st ts).close cells) dc xc ec dec := by
  have hat : Mark ls 0 row st.i st.v := ⟨done, ts, hsplit, hdone⟩
  obtain ⟨-, -, hxv⟩ := h.order
  obtain ⟨-, hlox, -⟩ := h.left.cols
  induction ts generalizing st done with
  | nil =>
    have hend := (hsplit ▸ hrow).rest hdone
    cases hend
    exact ⟨_, _, h.close_end hrow hat (by have := h.inBlock; omega) cells⟩
  | cons t ts ih =>
    have hrest := (hsplit ▸ hrow).rest hdone
    have hle := hrest.le
    cases hrest with
    | cons hstart hcol hstop hwidth hrest =>
      have hcols : t.endCol = t.col + t.width := rfl
      have ht : t ∈ row := by rw [hsplit]; simp
      have hdone' : Tiled ls 0 (done ++ [t]) t.stop t.endCol :=
        (hstart ▸ hcol ▸ hdone).snoc (by omega) hwidth
      have hsplit' : row = (done ++ [t]) ++ ts := by rw [hsplit, List.append_assoc]; rfl
      rw [scanTiles, if_neg (by omega)]
      split
      · exact ⟨_, _, h.close_end hrow hat (by have := h.inBlock; omega) cells⟩
      · obtain ⟨hi', hv'⟩ := st.touch_at lo hi t.stop t.width
        rw [← hcol, ← hcols] at hv'
        by_cases hend : hi + 1 < t.endCol
        · rw [scanTiles_stop hlohi (by omega) (by rw [hi', hv']; exact hrest)]
          exact ⟨_, _, h.close_right hrow hat ht hstart hcol (by omega) hend
            ⟨_, _, hsplit', hdone'⟩ cells⟩
        · have hopen := h.touch hstart (by omega) (by omega) (by omega)
          rw [← hi', ← hv'] at hdone'
          exact ih hopen hsplit' hdone' ⟨_, _, hsplit', hdone'⟩ (by omega)

/-- A row that ends left of the block gives an empty slice at its end. -/
theorem BlockScan.close_missed (hs : st.s = none) (hds : st.ds = none) (hafter : st.afterLeft = none)
    (hst : st.row = (BlockScan.start ls le).row) (hn : st.v = n) (hv : st.v ≤ lo)
    (hat : Mark ls 0 row st.i st.v) (cells : Nat) :
    Sliced row ls n lo hi (st.close cells) st.v st.v st.v st.v := by
  obtain ⟨hx, he⟩ := st.close_inner (x := st.i) (i := st.i)
    (.inr ⟨hs, by rw [hafter]; rfl, rfl, by rw [hst]; exact Nat.zero_le _⟩) (Nat.le_refl _) cells
  have hd : (st.close cells).ds = st.i := by
    show st.ds.getD (st.close cells).s = st.i
    rw [hds, hx]
    rfl
  have hde : (st.close cells).de = st.i := by
    show (if st.row.de < (st.close cells).ds then (st.close cells).ds else st.row.de) = st.i
    rw [hd, hst]
    show (if 0 < st.i then st.i else 0) = st.i
    split <;> omega
  have hzero : st.row.inL = 0 ∧ st.row.inR = 0 ∧ st.row.outL = 0 ∧ st.row.outR = 0 := by
    rw [hst]
    exact ⟨rfl, rfl, rfl, rfl⟩
  refine ⟨hd ▸ hat, hx ▸ hat, he ▸ hat, hde ▸ hat, by omega, ?_, ?_, fun u hu => ?_, fun u hu => ?_⟩
  · show st.v + st.row.inL + st.row.inR = _
    omega
  · show st.v = st.v + _ + st.row.outL + st.row.outR
    omega
  · have hin := hrow.inside hu
    have hw : u.endCol = u.col + u.width := rfl
    omega
  · have hin := hrow.inside hu
    have hw : u.endCol = u.col + u.width := rfl
    omega

/-- A cell that starts on the left edge and runs past the right one is split on the right. -/
theorem BlockScan.close_onlyRight (hs : st.s = none) (hds : st.ds = none)
    (hafter : st.afterLeft = none) (hst : st.row = (BlockScan.start ls le).row) (hv : st.v = lo)
    (hat : Mark ls 0 row st.i st.v) (ht : t ∈ row) (hstart : t.start = st.i) (hcol : t.col = st.v)
    (hlohi : lo ≤ hi) (hend : hi + 1 < t.endCol) (hnext : Mark ls 0 row t.stop t.endCol)
    (cells : Nat) :
    Sliced row ls n lo hi ((st.touch lo hi t.stop t.width).close cells) lo t.endCol t.endCol t.endCol := by
  have hinside := hrow.inside ht
  have hwidth : t.endCol = t.col + t.width := rfl
  rw [touch_right (by omega) (by omega), hds, hst]
  generalize hst' : ({ st with
    row :=
      { (BlockScan.start ls le).row with
        de := t.stop, inR := hi - st.v + 1, outR := st.v + t.width - 1 - hi }
    ds := some ((none : Option Nat).getD st.i)
    i := t.stop
    v := st.v + t.width } : BlockScan) = st'
  obtain ⟨hx, he⟩ := st'.close_inner (x := t.stop) (i := t.stop) (by
    rw [← hst']
    exact .inr ⟨hs, by rw [hafter]; rfl, rfl, Nat.zero_le _⟩) (Nat.le_refl _) cells
  obtain ⟨hd, hde⟩ := st'.close_outer (d := st.i) (by rw [← hst']; rfl)
    (by rw [← hst']; dsimp only; omega) cells
  have hstop : st'.row.de = t.stop := by rw [← hst']
  rw [hstop] at hde
  have hcells : (st'.close cells).inL = 0 ∧ (st'.close cells).inR = hi - st.v + 1 ∧
      (st'.close cells).outL = 0 ∧ (st'.close cells).outR = st.v + t.width - 1 - hi := by
    rw [← hst']
    exact ⟨rfl, rfl, rfl, rfl⟩
  refine ⟨hd ▸ hv ▸ hat, hx ▸ hnext, he ▸ hnext, hde ▸ hnext, by omega, by omega, by omega,
    fun u hu => ?_, fun u hu => ?_⟩
  · have hapart := hrow.apart ht hu
    have hin := hrow.inside hu
    have hw : u.endCol = u.col + u.width := rfl
    rcases hapart with rfl | hapart
    · omega
    · omega
  · have hapart := hrow.apart ht hu
    have hin := hrow.inside hu
    have hw : u.endCol = u.col + u.width := rfl
    rcases hapart with rfl | hapart
    · omega
    · omega

/-- A cell that covers both edges is split on both sides. -/
theorem BlockScan.close_both (hs : st.s = none) (hds : st.ds = none)
    (hst : st.row = (BlockScan.start ls le).row) (hv : st.v < lo) (hat : Mark ls 0 row st.i st.v)
    (ht : t ∈ row) (hstart : t.start = st.i) (hcol : t.col = st.v) (hlohi : lo ≤ hi)
    (hend : hi + 1 < t.endCol) (hnext : Mark ls 0 row t.stop t.endCol) (cells : Nat) :
    Sliced row ls n lo hi ((st.touch lo hi t.stop t.width).close cells) st.v st.v st.v t.endCol := by
  have hinside := hrow.inside ht
  have hwidth : t.endCol = t.col + t.width := rfl
  rw [touch_both (by omega) (by omega), hds, hst]
  generalize hst' : ({ st with
    row :=
      { (BlockScan.start ls le).row with
        de := t.stop, outL := lo - st.v, inL := hi - lo + 1, outR := st.v + t.width - 1 - hi }
    ds := some ((none : Option Nat).getD st.i)
    afterLeft := some st.i
    i := t.stop
    v := st.v + t.width } : BlockScan) = st'
  obtain ⟨hx, he⟩ := st'.close_inner (x := st.i) (i := st.i) (by
    rw [← hst']
    exact .inr ⟨hs, rfl, rfl, Nat.zero_le _⟩) (Nat.le_refl _) cells
  obtain ⟨hd, hde⟩ := st'.close_outer (d := st.i) (by rw [← hst']; rfl)
    (by rw [← hst']; dsimp only; omega) cells
  have hstop : st'.row.de = t.stop := by rw [← hst']
  rw [hstop] at hde
  have hcells : (st'.close cells).inL = hi - lo + 1 ∧ (st'.close cells).inR = 0 ∧
      (st'.close cells).outL = lo - st.v ∧ (st'.close cells).outR = st.v + t.width - 1 - hi := by
    rw [← hst']
    exact ⟨rfl, rfl, rfl, rfl⟩
  refine ⟨hd ▸ hat, hx ▸ hat, he ▸ hat, hde ▸ hnext, by omega, by omega, by omega,
    fun u hu => ?_, fun u hu => ?_⟩
  · have hapart := hrow.apart ht hu
    have hin := hrow.inside hu
    have hw : u.endCol = u.col + u.width := rfl
    rcases hapart with rfl | hapart
    · omega
    · omega
  · have hapart := hrow.apart ht hu
    have hin := hrow.inside hu
    have hw : u.endCol = u.col + u.width := rfl
    rcases hapart with rfl | hapart
    · omega
    · omega

/-- From the line's start, or any place left of the block. -/
theorem scanTiles_sliced (hlohi : lo ≤ hi) (hs : st.s = none) (hds : st.ds = none)
    (hafter : st.afterLeft = none) (hst : st.row = (BlockScan.start ls le).row) (hv : st.v ≤ lo)
    (hsplit : row = done ++ ts) (hdone : Tiled ls 0 done st.i st.v) (cells : Nat) :
    ∃ dc xc ec dec, Sliced row ls n lo hi ((scanTiles lo hi st ts).close cells) dc xc ec dec := by
  have hat : Mark ls 0 row st.i st.v := ⟨done, ts, hsplit, hdone⟩
  induction ts generalizing st done with
  | nil =>
    have hend := (hsplit ▸ hrow).rest hdone
    cases hend
    exact ⟨_, _, _, _, BlockScan.close_missed hrow hs hds hafter hst rfl hv hat cells⟩
  | cons t ts ih =>
    have hrest := (hsplit ▸ hrow).rest hdone
    cases hrest with
    | cons hstart hcol hstop hwidth hrest =>
      have hcols : t.endCol = t.col + t.width := rfl
      have ht : t ∈ row := by rw [hsplit]; simp
      have hdone' : Tiled ls 0 (done ++ [t]) t.stop t.endCol :=
        (hstart ▸ hcol ▸ hdone).snoc (by omega) hwidth
      have hsplit' : row = (done ++ [t]) ++ ts := by rw [hsplit, List.append_assoc]; rfl
      have hnext : Mark ls 0 row t.stop t.endCol := ⟨_, _, hsplit', hdone'⟩
      rw [scanTiles]
      split
      · exact ih hs hds hafter hst (by dsimp only; omega) hsplit' hdone' hnext
      · rw [if_neg (by omega)]
        obtain ⟨hi', hv'⟩ := st.touch_at lo hi t.stop t.width
        rw [← hcol, ← hcols] at hv'
        have hrest' : Tiled (st.touch lo hi t.stop t.width).i (st.touch lo hi t.stop t.width).v ts le n := by
          rw [hi', hv']
          exact hrest
        by_cases hend : hi + 1 < t.endCol
        · rw [scanTiles_stop hlohi (by omega) hrest']
          by_cases hleft : st.v < lo
          · exact ⟨_, _, _, _, BlockScan.close_both hrow hs hds hst hleft hat ht hstart hcol hlohi hend
              hnext cells⟩
          · exact ⟨_, _, _, _, BlockScan.close_onlyRight hrow hs hds hafter hst (by omega) hat ht hstart
              hcol hlohi hend hnext cells⟩
        · rw [← hi', ← hv'] at hdone'
          by_cases hleft : st.v < lo
          · -- over the left edge
            have hopen : (st.touch lo hi t.stop t.width).Open row ls lo hi st.i t.stop st.v t.endCol := by
              rw [BlockScan.touch_left hleft (by omega), hds, hst]
              exact ⟨rfl, .inr ⟨hs, rfl, rfl, Nat.zero_le _⟩, rfl, ⟨rfl, rfl⟩,
                .inr ⟨t, ht, hstart, rfl, hcol, rfl, hleft, by omega, by dsimp only; omega, rfl⟩, hat,
                hnext, by dsimp only; omega, by dsimp only; omega⟩
            obtain ⟨ec, dec, hsliced⟩ := scanTiles_open hrow hopen hlohi hsplit' hdone' cells
            exact ⟨_, _, ec, dec, hsliced⟩
          · have hv0 : st.v = lo := by omega
            have hopen : (st.touch lo hi t.stop t.width).Open row ls lo hi st.i st.i st.v st.v := by
              rw [BlockScan.touch_whole hleft (by omega), hds, hst, hs]
              exact ⟨rfl, .inl ⟨rfl, rfl⟩, rfl, ⟨rfl, rfl⟩, .inl ⟨rfl, hv0, hv0, rfl, rfl⟩, hat, hat,
                by dsimp only; omega, by dsimp only; omega⟩
            obtain ⟨ec, dec, hsliced⟩ := scanTiles_open hrow hopen hlohi hsplit' hdone' cells
            exact ⟨_, _, ec, dec, hsliced⟩

end

/-- The columns of a line, with any cells assigned to its clusters: `vcols_at` gives each
cluster the columns of its tile, the tiles cover the line's width end to end, and `at_vcol`
finds the one over a column. And the rows of a block: the characters wholly inside are `s..e`
and those it touches `ds..de`; with the inside cells of the characters over an edge the former
are the line's columns inside `lo..=hi`, and the latter are these and the outside cells. So a
delete that leaves the outside cells as spaces moves the text after it left by the columns
covered. -/
theorem block_geometry {U : UnicodeData} {g : Segmenter} (hg : g.Follows U) {cells : Cells}
    (hc : cells.Assigns g) (b : Bytes) {p : Nat} (hp : p ≤ b.length) :
    let ls := lineStart b p
    let le := lineEnd b ls
    let row := lineTiles cells b ls
    Tiled ls 0 row le (lineCells cells b ls) ∧
    (∀ c < lineCells cells b ls, ∃! t, t ∈ row ∧ t.Covers c) ∧
    (∀ t ∈ row, (∀ q, t.Holds q → vcolsAt cells b q = (t.col, t.endCol - 1)) ∧
      ∀ c, t.Covers c → atVcol cells b ls c = t.start) ∧
    ∀ lo hi, lo ≤ hi →
      let r := blockRow cells b ls lo hi
      let covered := within lo hi (lineCells cells b ls)
      r.cells = lineCells cells b ls ∧
      (ls ≤ r.ds ∧ r.ds ≤ r.s ∧ r.s ≤ r.e ∧ r.e ≤ r.de ∧ r.de ≤ le) ∧
      (∀ t ∈ row, r.s ≤ t.start ∧ t.stop ≤ r.e ↔ ∀ c, t.Covers c → lo ≤ c ∧ c ≤ hi) ∧
      (∀ t ∈ row, r.ds ≤ t.start ∧ t.stop ≤ r.de ↔ ∃ c, t.Covers c ∧ lo ≤ c ∧ c ≤ hi) ∧
      spanWidth row r.s r.e + r.inL + r.inR = covered ∧
      spanWidth row r.ds r.de = covered + r.outL + r.outR ∧
      (vcolsAt cells b r.ds).1 + (r.outL + r.outR) + covered = (vcolsAt cells b r.de).1 := by
  intro ls le row
  obtain ⟨htiled, hholds⟩ := line_tiled hg hc hp
  refine ⟨htiled, fun c hlt => htiled.under (Nat.zero_le c) hlt,
    fun t ht => ⟨hholds t ht, fun c hcov => atVcol_covers hg hc hp ht hcov⟩, fun lo hi hlohi => ?_⟩
  intro r covered
  have hls := lineStart_le b p
  have hle := lineEnd_le_length b ls
  have hlsle := le_lineEnd b (p := ls) (by omega)
  -- the walk, as a scan of the tiles
  have hcells : r.cells = lineCells cells b ls :=
    (blockRow_cells hg hc.ends ls lo hi).trans ((Nat.zero_add _).symm.trans htiled.sum_width)
  obtain ⟨dc, xc, ec, dec, h⟩ : ∃ dc xc ec dec,
      Sliced row ls (lineCells cells b ls) lo hi r dc xc ec dec := by
    show ∃ dc xc ec dec, Sliced row ls _ lo hi (BlockScan.close (blockFrom cells b le lo hi (le - ls)
      (.start ls le)) _) dc xc ec dec
    rw [blockFrom_eq]
    exact scanTiles_sliced htiled hlohi rfl rfl rfl rfl (Nat.zero_le _) (show row = [] ++ row from rfl)
      (.nil ls 0) _
  have hcovered : covered = min (lineCells cells b ls) (hi + 1) - lo := within_eq hlohi _
  obtain ⟨hds, hs, he⟩ := h.order
  have hspan := h.s.spanWidth htiled h.e hs
  have hspan' := h.ds.spanWidth htiled h.de (by omega)
  have hinside := h.inside
  have htouched := h.touched
  refine ⟨hcells, ⟨h.ds.le, hds, hs, he, h.de.le_stop htiled⟩, fun t ht => ?_, fun t ht => ?_, by omega,
    by omega, ?_⟩
  · have hin := htiled.inside ht
    have hw : t.endCol = t.col + t.width := rfl
    have hiff := h.whole t ht
    have hstart := h.s.apart htiled ht
    have hstop := h.e.apart htiled ht
    constructor
    · intro hpos c hcov
      have := hcov.1
      have := hcov.2
      omega
    · intro hcov
      have hfirst := hcov t.col ⟨Nat.le_refl _, by omega⟩
      have hlast := hcov (t.endCol - 1) ⟨by omega, by omega⟩
      omega
  · have hin := htiled.inside ht
    have hw : t.endCol = t.col + t.width := rfl
    have hiff := h.touches t ht
    have hstart := h.ds.apart htiled ht
    have hstop := h.de.apart htiled ht
    constructor
    · intro hpos
      exact ⟨max lo t.col, ⟨by omega, by omega⟩, by omega, by omega⟩
    · rintro ⟨c, hcov, hlo, hhi⟩
      have := hcov.1
      have := hcov.2
      omega
  · rw [vcolsAt_mark hg hc hp h.ds, vcolsAt_mark hg hc hp h.de]
    omega

/-- Columns 2 to 6 of a line with a wide letter over the left edge and a tab over the right
one. -/
theorem block_geometry_tab :
    let cells := clusterCells (.wholeText .acute) (.uniform 8) fun s _ => if s.length = 3 then 2 else 1
    let b : Bytes := [97, 0xE4, 0xB8, 0x96, 98, 9, 99]
    blockRow cells b 0 2 6 = ⟨0, 7, 4, 5, 1, 6, 1, 3, 1, 1, 9⟩ ∧
    (vcolsAt cells b 1).1 + (1 + 1) + 5 = (vcolsAt cells b 6).1 := by
  intro cells b
  have hrow : blockRow cells b 0 2 6 = ⟨0, 7, 4, 5, 1, 6, 1, 3, 1, 1, 9⟩ := by decide +kernel
  have hassigns : cells.Assigns (.wholeText .acute) :=
    clusterCells_assigns _ _ fun s _ => by split <;> decide
  have hwidth : lineCells cells b 0 = 9 := by decide +kernel
  obtain ⟨-, -, -, hblock⟩ := block_geometry (Segmenter.wholeText_follows _) hassigns b (Nat.zero_le _)
  obtain ⟨-, -, -, -, -, -, hcols⟩ := hblock 2 6 (by decide)
  rw [show lineStart b 0 = 0 from rfl, hrow, hwidth] at hcols
  exact ⟨hrow, hcols⟩

end Ruse.Core
