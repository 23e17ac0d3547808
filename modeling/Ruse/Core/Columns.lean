import Ruse.Core.CellSteps
import Ruse.Core.Tabs
import Ruse.Lib.Tiles

/-!
# The columns of a line

The model of `cluster_cells`, `vcols_at`, `line_cells`, `at_vcol` and `wanted_vcol` in
`crates/core/src/editor/range.rs`. A line is a row of tiles, one a cluster (`lineTiles`),
and each walk over the line is a search of that row (`vcolsAt_eq`, `atVcol_eq`). The row is
laid end to end where the clusters are those of `cluster_cells` and each takes a cell or
more (`Cells.Assigns`, `lineTiles_tiled`).
-/

namespace Ruse.Core

open Ruse.Lib

/-! ## Clusters and their cells -/

/-- The cells of a byte that is not UTF-8: `<ff>`. -/
def invalidByteCells : Nat := 4

/-- A printable ASCII character with no byte of a mark right after it on its line. -/
def plainAscii (b : Bytes) (i le : Nat) : Bool :=
  (b[i]?.any fun c => 0x20 ≤ c && c < 0x7f) && b[i + 1]?.all fun n => n < 0x80 || le ≤ i + 1

/-- A byte that is not UTF-8 comes right before `i`. -/
def afterInvalid (b : Bytes) (i : Nat) : Bool :=
  (b[i]?.any (0x80 ≤ ·)) && decide (0 < i) && (b[i - 1]?.any (0x80 ≤ ·)) &&
    (charLenAt b (prevBoundary b i)).isNone

/-- `cluster_cells` with the stops `T`, where `textCells` are the cells of a cluster of
text, which may come after a byte that is not UTF-8. -/
def clusterCells (g : Segmenter) (T : Tabs) (textCells : Bytes → Bool → Nat) : Cells :=
  fun b i le v =>
    if b[i]? = some Tabs.tabByte then (i + 1, T.padding v)
    else if plainAscii b i le then (i + 1, 1)
    else
      let j := graphemeEnd g b i le
      let w :=
        if ValidUtf8 (slice b i j) then textCells (slice b i j) (afterInvalid b i)
        else invalidByteCells
      (j, w)

/-- Where `cluster_cells` ends the cluster at `i`. -/
def clusterEnd (g : Segmenter) (b : Bytes) (i le : Nat) : Nat :=
  if b[i]? = some Tabs.tabByte ∨ plainAscii b i le = true then i + 1 else graphemeEnd g b i le

/-- An assignment of cells to the clusters of `cluster_cells`, of one cell at least. -/
structure Cells.Assigns (g : Segmenter) (cells : Cells) : Prop where
  ends : ∀ b i le v, (cells b i le v).1 = clusterEnd g b i le
  positive : ∀ b i le v, i < le → 0 < (cells b i le v).2

theorem clusterCells_end (g : Segmenter) (T : Tabs) (textCells : Bytes → Bool → Nat) (b : Bytes)
    (i le v : Nat) : (clusterCells g T textCells b i le v).1 = clusterEnd g b i le := by
  unfold clusterCells clusterEnd
  split
  · rename_i htab
    rw [if_pos (.inl htab)]
  · rename_i htab
    split
    · rename_i hascii
      rw [if_pos (.inr hascii)]
    · rename_i hascii
      rw [if_neg (by simp [htab, hascii])]

theorem clusterCells_assigns (g : Segmenter) (T : Tabs) {textCells : Bytes → Bool → Nat}
    (h : ∀ s after, 0 < textCells s after) : (clusterCells g T textCells).Assigns g where
  ends := clusterCells_end g T textCells
  positive b i le v _ := by
    unfold clusterCells
    split
    · obtain ⟨k, hk, hpad, -⟩ := T.exists_interval v
      have := hk.lt_next
      dsimp only
      omega
    · split
      · exact Nat.one_pos
      · dsimp only
        split
        · exact h _ _
        · decide

/-! ## The walks -/

section
variable (cells : Cells) (b : Bytes) (le : Nat)

/-- The loop of `vcols_at`. -/
def vcolsFrom (pos : Nat) : (left i v : Nat) → Nat × Nat
  | 0, _, v => (v, v)
  | left + 1, i, v =>
    if i < le then
      let (j, w) := cells b i le v
      if pos < j then (v, v + w - 1) else vcolsFrom pos left j (v + w)
    else (v, v)

/-- The loop of `at_vcol`. -/
def atVcolFrom (vcol : Nat) : (left i v last : Nat) → Nat
  | 0, _, _, last => last
  | left + 1, i, v, last =>
    if i < le then
      let (j, w) := cells b i le v
      if vcol < v + w then i else atVcolFrom vcol left j (v + w) i
    else last

/-- The clusters from `i` on, the first of them at column `v`. -/
def tilesFrom : (left i v : Nat) → List Tile
  | 0, _, _ => []
  | left + 1, i, v =>
    if i < le then
      let (j, w) := cells b i le v
      ⟨i, j, v, w⟩ :: tilesFrom left j (v + w)
    else []

end

/-- The columns, first and last, of the cluster at `pos` on its line; at the line's end the
column past the last cell. -/
def vcolsAt (cells : Cells) (b : Bytes) (pos : Nat) : Nat × Nat :=
  let ls := lineStart b pos
  let le := lineEnd b ls
  vcolsFrom cells b le pos (le - ls) ls 0

/-- The cells the line at `ls` spans. -/
def lineCells (cells : Cells) (b : Bytes) (ls : Nat) : Nat := (vcolsAt cells b (lineEnd b ls)).1

/-- The character over column `vcol` on the line at `ls`; past the last one, that one. -/
def atVcol (cells : Cells) (b : Bytes) (ls vcol : Nat) : Nat :=
  let le := lineEnd b ls
  atVcolFrom cells b le vcol (le - ls) ls 0 ls

/-- The wanted column a caret at `pos` sets. -/
def wantedVcol (cells : Cells) (b : Bytes) (pos : Nat) (tabEnd : Bool) : Nat :=
  let (s, e) := vcolsAt cells b pos
  if tabEnd && b[pos]? == some Tabs.tabByte then e else s

/-- The clusters of the line at `ls`. -/
def lineTiles (cells : Cells) (b : Bytes) (ls : Nat) : List Tile :=
  let le := lineEnd b ls
  tilesFrom cells b le (le - ls) ls 0

/-! ## A walk is a search -/

section
variable {cells : Cells} {b : Bytes} {le : Nat}

/-- The columns of a position are those of the first cell that ends past it. -/
theorem vcolsFrom_eq (pos : Nat) {left i v : Nat} :
    vcolsFrom cells b le pos left i v =
      match (tilesFrom cells b le left i v).find? fun t => decide (pos < t.stop) with
      | some t => (t.col, t.endCol - 1)
      | none =>
        let n := v + ((tilesFrom cells b le left i v).map Tile.width).sum
        (n, n) := by
  induction left generalizing i v with
  | zero => rfl
  | succ left ih =>
    rw [vcolsFrom, tilesFrom]
    split
    · dsimp only
      rw [List.find?_cons]
      dsimp only
      by_cases hpos : pos < (cells b i le v).1
      · rw [if_pos hpos, decide_eq_true hpos]
        rfl
      · rw [if_neg hpos, decide_eq_false hpos, ih]
        simp only [List.map_cons, List.sum_cons, Nat.add_assoc]
    · rfl

/-- The position at a column is the start of the first cell that ends past the column. -/
theorem atVcolFrom_eq (vcol : Nat) {left i v last : Nat} {t : Tile}
    (h : (tilesFrom cells b le left i v).find? (fun t => decide (vcol < t.endCol)) = some t) :
    atVcolFrom cells b le vcol left i v last = t.start := by
  induction left generalizing i v last with
  | zero => cases h
  | succ left ih =>
    rw [tilesFrom] at h
    rw [atVcolFrom]
    split at h
    · rename_i hi
      rw [if_pos hi]
      dsimp only at h ⊢
      rw [List.find?_cons] at h
      by_cases hcol : vcol < v + (cells b i le v).2
      · rw [show decide (vcol < (⟨i, (cells b i le v).1, v, (cells b i le v).2⟩ : Tile).endCol) = true
          from decide_eq_true hcol] at h
        cases h
        rw [if_pos hcol]
      · rw [show decide (vcol < (⟨i, (cells b i le v).1, v, (cells b i le v).2⟩ : Tile).endCol) = false
          from decide_eq_false hcol] at h
        rw [if_neg hcol, ih h]
    · cases h

end

/-! ## A line is laid end to end -/

section
variable {U : UnicodeData} {g : Segmenter} (hg : g.Follows U) {b : Bytes} {i le : Nat}
include hg

/-- A round of `grapheme_end` ends past its start, on the line, or asks for a wider window,
short of the line's end. -/
theorem graphemeRound_bounds (hi : i < le) (hle : le ≤ b.length) {window : Nat} (hwindow : 0 < window) :
    (∃ r, graphemeRound g b i le window = some r ∧ i < r ∧ r ≤ le) ∨
    (graphemeRound g b i le window = none ∧ i + window < le) := by
  unfold graphemeRound
  generalize hstop : min (i + window) le = stop
  have hscan := scans_validUpTo b stop i
  have hvstop : validUpTo b stop i ≤ stop := validUpTo_le (by omega)
  have hiv := hscan.le
  dsimp only
  split
  · exact .inl ⟨_, rfl, by omega, by omega⟩
  · rename_i hne
    split
    · rename_i rel hrel
      obtain ⟨hanswer, -⟩ := Option.filter_eq_some_iff.mp hrel
      obtain ⟨⟨hgt, hbreak⟩, -⟩ := alone_spec hg hscan (by omega) hanswer
      have := hbreak.after.le
      exact .inl ⟨_, rfl, hgt, by omega⟩
    · split
      · exact .inl ⟨_, rfl, by omega, by omega⟩
      · rename_i hlast
        refine .inr ⟨rfl, ?_⟩
        have hne : stop ≠ le := fun heq => hlast (by simp [heq])
        omega

/-- The end of a cluster lies past its start and on its line. -/
theorem graphemeEndFrom_bounds (hi : i < le) (hle : le ≤ b.length) (window : Nat)
    (hwindow : 0 < window) :
    i < graphemeEndFrom g b i le window ∧ graphemeEndFrom g b i le window ≤ le := by
  induction window using graphemeEndFrom.induct g b i le with
  | case1 window r hr =>
    rw [graphemeEndFrom, hr]
    rcases graphemeRound_bounds hg hi hle hwindow with ⟨r', hr', hbounds⟩ | ⟨hnone, -⟩
    · rw [hr] at hr'
      cases hr'
      exact hbounds
    · rw [hr] at hnone
      cases hnone
  | case2 window hnone hmore ih =>
    rw [graphemeEndFrom, hnone]
    rw [if_pos hmore]
    exact ih (by omega)
  | case3 window hnone hmore =>
    rcases graphemeRound_bounds hg hi hle hwindow with ⟨r', hr', -⟩ | ⟨-, hlt⟩
    · rw [hnone] at hr'
      cases hr'
    · exact absurd ⟨hwindow, hlt⟩ hmore

theorem clusterEnd_bounds (hi : i < le) (hle : le ≤ b.length) :
    i < clusterEnd g b i le ∧ clusterEnd g b i le ≤ le := by
  unfold clusterEnd
  split
  · omega
  · rw [graphemeEnd, show max (min le b.length) (i + 1) = le by omega]
    exact graphemeEndFrom_bounds hg hi hle 8 (by decide)

variable {cells : Cells} (hc : cells.Assigns g)
include hc

theorem tilesFrom_tiled (hle : le ≤ b.length) {left i v : Nat} (hi : i ≤ le) (hleft : le - i ≤ left) :
    ∃ n, Tiled i v (tilesFrom cells b le left i v) le n := by
  induction left generalizing i v with
  | zero =>
    obtain rfl : i = le := by omega
    exact ⟨v, .nil i v⟩
  | succ left ih =>
    rw [tilesFrom]
    split
    · rename_i hlt
      obtain ⟨hgt, hstop⟩ := clusterEnd_bounds hg hlt hle
      rw [← hc.ends b i le v] at hgt hstop
      obtain ⟨n, hn⟩ := ih (i := (cells b i le v).1) (v := v + (cells b i le v).2) hstop (by omega)
      exact ⟨n, .cons rfl rfl hgt (hc.positive b i le v hlt) hn⟩
    · obtain rfl : i = le := by omega
      exact ⟨v, .nil i v⟩

end

theorem lineStart_of_line {b : Bytes} {p q : Nat} (hp : p ≤ b.length) (hq : lineStart b p ≤ q)
    (hle : q ≤ lineEnd b (lineStart b p)) : lineStart b q = lineStart b p := by
  have hls := lineStart_le b p
  refine lineStart_eq hq (lineStart_spec b p).1 fun k hk hkq => ?_
  exact (lineEnd_spec (by omega : lineStart b p ≤ b.length)).2 k hk (by omega)

section
variable {U : UnicodeData} {g : Segmenter} (hg : g.Follows U) {cells : Cells} (hc : cells.Assigns g)
  {b : Bytes} {p : Nat} (hp : p ≤ b.length)
include hg hc hp

/-- What `vcols_at` finds on a line: the columns of the cluster that holds the place, and past
the last cluster the line's width. -/
theorem line_tiled :
    Tiled (lineStart b p) 0 (lineTiles cells b (lineStart b p)) (lineEnd b (lineStart b p))
      (lineCells cells b (lineStart b p)) ∧
    ∀ t ∈ lineTiles cells b (lineStart b p), ∀ q, t.Holds q →
      vcolsAt cells b q = (t.col, t.endCol - 1) := by
  have hls := lineStart_le b p
  have hle := lineEnd_le_length b (lineStart b p)
  have hlsle := le_lineEnd b (p := lineStart b p) (by omega)
  obtain ⟨n, htiled⟩ := tilesFrom_tiled hg hc hle (v := 0) hlsle (Nat.le_refl _)
  have hcols : ∀ q, lineStart b p ≤ q → q ≤ lineEnd b (lineStart b p) → vcolsAt cells b q =
      vcolsFrom cells b (lineEnd b (lineStart b p)) q (lineEnd b (lineStart b p) - lineStart b p)
        (lineStart b p) 0 := by
    intro q hq hqle
    rw [vcolsAt, lineStart_of_line hp hq hqle]
  have hn : lineCells cells b (lineStart b p) = n := by
    rw [lineCells, hcols _ hlsle (Nat.le_refl _), vcolsFrom_eq,
      (htiled.find_over hlsle).2 (Nat.le_refl _)]
    exact htiled.sum_width
  rw [hn]
  refine ⟨htiled, fun t ht q hq => ?_⟩
  have hin := htiled.inside ht
  have hstart := hq.1
  have hstop := hq.2
  rw [hcols q (by omega) (by omega), vcolsFrom_eq, (htiled.find_over (by omega)).1 t ht hq]

/-- At a mark of the line `vcols_at` starts with its column. -/
theorem vcolsAt_mark {q c : Nat} (h : Mark (lineStart b p) 0 (lineTiles cells b (lineStart b p)) q c) :
    (vcolsAt cells b q).1 = c := by
  obtain ⟨htiled, hholds⟩ := line_tiled hg hc hp
  obtain ⟨us, ws, hsplit, hus⟩ := h
  have hrest := (hsplit ▸ htiled).rest hus
  cases hrest with
  | nil => rfl
  | @cons _ _ _ _ t _ hstart hcol hstop hwidth _ =>
    rw [hholds t (by rw [hsplit]; simp) q ⟨by omega, by omega⟩]
    exact hcol

/-- What `at_vcol` finds over a column of the line. -/
theorem atVcol_covers {t : Tile} (ht : t ∈ lineTiles cells b (lineStart b p)) {c : Nat}
    (hcov : t.Covers c) : atVcol cells b (lineStart b p) c = t.start := by
  obtain ⟨htiled, -⟩ := line_tiled hg hc hp
  exact atVcolFrom_eq c ((htiled.find_under (Nat.zero_le c)).1 t ht hcov)

end

end Ruse.Core
