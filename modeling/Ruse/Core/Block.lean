import Ruse.Core.BlockRow

/-!
# Blocks

The model of `block_geom` and `block_from` in `crates/core/src/editor/range.rs`. The rows of a block
are those of the lines from its top to its bottom (`mem_lineWalk`), one below the other
(`lineWalk_below`).
-/

namespace Ruse.Core

/-- A rectangle of columns `lo..=hi`, and the part of each line in it. -/
structure Block where
  rows : List BlockRow
  lo : Nat
  hi : Nat
deriving DecidableEq, Repr

/-- `MAXCOL`. -/
def maxCol : Nat := 2 ^ 64 - 1

/-- The loop of `block_from`: where the lines from `rs` down to `bot` start. -/
def lineWalk (b : Bytes) (bot : Nat) : (left rs : Nat) → List Nat
  | 0, _ => []
  | left + 1, rs =>
    let le := lineEnd b rs
    if rs ≥ bot ∨ le ≥ b.length then [rs] else rs :: lineWalk b bot left (le + 1)

/-- `block_from`: the block `lo..=hi` on the lines from the one of `top` to the one of `bot`. -/
def Block.ofLines (cells : Cells) (b : Bytes) (top bot lo hi : Nat) : Block where
  rows := (lineWalk b (lineStart b bot) (b.length + 1) (lineStart b top)).map
    fun rs => blockRow cells b rs lo hi
  lo
  hi

/-- `block_geom`: the block of a selection, whose corners take all the cells of their characters. -/
def Block.geom (cells : Cells) (b : Bytes) (anchor cursor : Nat) (toEol : Bool) : Block :=
  let (a0, a1) := vcolsAt cells b anchor
  let (c0, c1) := vcolsAt cells b cursor
  .ofLines cells b (min anchor cursor) (max anchor cursor) (min a0 c0)
    (if toEol then maxCol else max a1 c1)

/-! ## A row is of its line -/

section
variable {cells : Cells} {b : Bytes} {lo hi : Nat}

theorem BlockScan.touch_line (st : BlockScan) (lo hi j w : Nat) :
    (st.touch lo hi j w).row.ls = st.row.ls ∧ (st.touch lo hi j w).row.le = st.row.le := by
  unfold touch
  dsimp only
  split <;> exact ⟨rfl, rfl⟩

theorem blockFrom_line {le left : Nat} {st : BlockScan} :
    (blockFrom cells b le lo hi left st).row.ls = st.row.ls ∧
      (blockFrom cells b le lo hi left st).row.le = st.row.le := by
  induction left generalizing st with
  | zero => exact ⟨rfl, rfl⟩
  | succ left ih =>
    rw [blockFrom]
    split
    · dsimp only
      split
      · exact ih
      · split
        · exact ⟨rfl, rfl⟩
        · obtain ⟨hls, hle⟩ := st.touch_line lo hi (cells b st.i le st.v).1 (cells b st.i le st.v).2
          rw [ih.1, ih.2, hls, hle]
          exact ⟨rfl, rfl⟩
    · exact ⟨rfl, rfl⟩

@[simp] theorem blockRow_ls (ls : Nat) : (blockRow cells b ls lo hi).ls = ls := blockFrom_line.1

@[simp] theorem blockRow_le (ls : Nat) : (blockRow cells b ls lo hi).le = lineEnd b ls :=
  blockFrom_line.2

end

/-! ## The lines of a block -/

section
variable {b : Bytes} {bot left rs x : Nat}

theorem startsLine_lineEnd_succ (hrs : rs ≤ b.length) (hlt : lineEnd b rs < b.length) :
    StartsLine b (lineEnd b rs + 1) := by
  rcases (lineEnd_spec hrs).1 with hlen | hnl
  · omega
  · exact .inr hnl

theorem lineWalk_starts (hrs : rs ≤ b.length) (hstart : StartsLine b rs) (hx : x ∈ lineWalk b bot left rs) :
    rs ≤ x ∧ x ≤ b.length ∧ StartsLine b x := by
  induction left generalizing rs with
  | zero => cases hx
  | succ left ih =>
    have hle := le_lineEnd b hrs
    rw [lineWalk] at hx
    split at hx
    · obtain rfl := List.mem_singleton.mp hx
      exact ⟨Nat.le_refl _, hrs, hstart⟩
    · rcases List.mem_cons.mp hx with rfl | hx
      · exact ⟨Nat.le_refl _, hrs, hstart⟩
      · obtain ⟨hge, hlen, hstarts⟩ := ih (by omega) (startsLine_lineEnd_succ hrs (by omega)) hx
        exact ⟨by omega, hlen, hstarts⟩

/-- The lines of a walk are one below the other. -/
theorem lineWalk_below (hrs : rs ≤ b.length) (hstart : StartsLine b rs) :
    (lineWalk b bot left rs).Pairwise fun x y => lineEnd b x < y := by
  induction left generalizing rs with
  | zero => exact .nil
  | succ left ih =>
    rw [lineWalk]
    split
    · exact List.pairwise_singleton _ _
    · have hnext := startsLine_lineEnd_succ hrs (by omega)
      refine .cons (fun y hy => ?_) (ih (by omega) hnext)
      have := (lineWalk_starts (by omega) hnext hy).1
      omega

end

theorem Block.rows_below (cells : Cells) (b : Bytes) (top bot lo hi : Nat) :
    (∀ r ∈ (Block.ofLines cells b top bot lo hi).rows, r = blockRow cells b r.ls lo hi ∧
      r.ls ≤ b.length ∧ StartsLine b r.ls) ∧
    (Block.ofLines cells b top bot lo hi).rows.Pairwise fun r r' => r.le < r'.ls := by
  have hstart := (lineStart_spec b top).1
  have hlen := lineStart_le_length b top
  constructor
  · intro r hr
    obtain ⟨rs, hrs, rfl⟩ := List.mem_map.mp hr
    obtain ⟨-, hle, hstarts⟩ := lineWalk_starts hlen hstart hrs
    rw [blockRow_ls]
    exact ⟨rfl, hle, hstarts⟩
  · refine List.pairwise_map.mpr ((lineWalk_below hlen hstart).imp fun h => ?_)
    rw [blockRow_ls, blockRow_le]
    exact h

end Ruse.Core
