import Ruse.Core.Edit

/-!
# Lines and characters of a byte text

The line math of `crates/core/src/pos.rs` (`pos::raw`) and the character
boundaries of `motion.rs`, both over arbitrary bytes. A byte that belongs to no
valid UTF-8 character is a character of its own, so every position has a
boundary at or before it (`snap`).
-/

namespace Ruse.Core

/-! ## Lines -/

def countNewlines (b : Bytes) : Nat := b.count newline

/-- The 0-based row of `byte`: the number of newlines before it. -/
def lineOf (b : Bytes) (byte : Nat) : Nat := countNewlines (b.take byte)

/-- Where the line containing `byte` starts: just after the previous newline, or
0. -/
def lineStart (b : Bytes) (byte : Nat) : Nat :=
  let pre := b.take byte
  pre.length - Edit.tailLength pre

/-- Where the line containing `byte` ends: at the next newline, or the buffer
end. -/
def lineEnd (b : Bytes) (byte : Nat) : Nat :=
  let p := min byte b.length
  p + ((b.drop p).takeWhile (· != newline)).length

theorem lineStart_le (b : Bytes) (p : Nat) : lineStart b p ≤ p := by
  simp only [lineStart, List.length_take]
  omega

theorem lineStart_le_length (b : Bytes) (p : Nat) : lineStart b p ≤ b.length := by
  simp only [lineStart, List.length_take]
  omega

theorem le_lineEnd (b : Bytes) {p : Nat} (hp : p ≤ b.length) : p ≤ lineEnd b p := by
  simp only [lineEnd]
  omega

theorem lineEnd_le_length (b : Bytes) (p : Nat) : lineEnd b p ≤ b.length := by
  have h := (List.takeWhile_sublist (l := b.drop (min p b.length)) (· != newline)).length_le
  simp only [List.length_drop] at h
  simp only [lineEnd]
  omega

/-! ## Characters -/

/-- Whether `c` is a continuation byte. -/
def isContinuation (c : UInt8) : Bool := c &&& 0xC0 == 0x80

/-- The length of a character by its lead byte, and the range its second byte
must fall in. -/
def leadClass (lead : UInt8) : Option (Nat × UInt8 × UInt8) :=
  if 0xC2 ≤ lead ∧ lead ≤ 0xDF then some (2, 0x80, 0xBF)
  else if lead = 0xE0 then some (3, 0xA0, 0xBF)
  else if lead = 0xED then some (3, 0x80, 0x9F)
  else if 0xE1 ≤ lead ∧ lead ≤ 0xEF then some (3, 0x80, 0xBF)
  else if lead = 0xF0 then some (4, 0x90, 0xBF)
  else if lead = 0xF4 then some (4, 0x80, 0x8F)
  else if 0xF1 ≤ lead ∧ lead ≤ 0xF3 then some (4, 0x80, 0xBF)
  else none

/-- The length of the UTF-8 character that starts at `i`, or `none` when the
bytes there are not one. -/
def charLenAt (b : Bytes) (i : Nat) : Option Nat := do
  let lead ← b[i]?
  if lead ≤ 0x7F then return 1
  let (w, lo, hi) ← leadClass lead
  match slice b (i + 1) (i + w) with
  | second :: others =>
    if i + w ≤ b.length ∧ lo ≤ second ∧ second ≤ hi ∧ others.all isContinuation then return w
    else none
  | [] => none

/-- Whether `i` is strictly inside a valid character. Looks at most 3 bytes
back. -/
def insideChar (b : Bytes) (i : Nat) : Bool :=
  if i = 0 ∨ i ≥ b.length ∨ ¬ isContinuation (b.getD i 0) then false
  else
    match (List.range' (i - 3) (i - (i - 3))).reverse.find? fun j =>
      !isContinuation (b.getD j 0) with
    | some j => (charLenAt b j).any fun w => j + w > i
    | none => false

/-- Whether `i` is a character boundary. -/
def isBoundary (b : Bytes) (i : Nat) : Bool :=
  i == 0 || i == b.length || !insideChar b i

/-- The loop of `prev_boundary`: the last boundary below `i`. -/
def boundaryBelow (b : Bytes) : Nat → Nat
  | 0 => 0
  | i + 1 => if isBoundary b i then i else boundaryBelow b i

def prevBoundary (b : Bytes) (pos : Nat) : Nat := boundaryBelow b (min pos b.length)

/-- The boundary at or before `pos`. -/
def snap (b : Bytes) (pos : Nat) : Nat :=
  let p := min pos b.length
  if isBoundary b p then p else prevBoundary b p

theorem boundaryBelow_le (b : Bytes) (i : Nat) : boundaryBelow b i ≤ i := by
  induction i with
  | zero => exact Nat.le_refl 0
  | succ i ih =>
    unfold boundaryBelow
    split <;> omega

theorem boundaryBelow_lt (b : Bytes) {i : Nat} (hi : 0 < i) : boundaryBelow b i < i := by
  cases i with
  | zero => omega
  | succ i =>
    unfold boundaryBelow
    split
    · omega
    · exact Nat.lt_succ_of_le (boundaryBelow_le b i)

theorem isBoundary_boundaryBelow (b : Bytes) (i : Nat) : isBoundary b (boundaryBelow b i) := by
  induction i with
  | zero => rfl
  | succ i ih =>
    unfold boundaryBelow
    split
    · assumption
    · exact ih

theorem snap_le (b : Bytes) (pos : Nat) : snap b pos ≤ min pos b.length := by
  unfold snap
  dsimp only
  split
  · exact Nat.le_refl _
  · exact Nat.le_trans (boundaryBelow_le b _) (Nat.min_le_left _ _)

theorem isBoundary_snap (b : Bytes) (pos : Nat) : isBoundary b (snap b pos) := by
  unfold snap
  dsimp only
  split
  · assumption
  · exact isBoundary_boundaryBelow b _

theorem snap_of_isBoundary {b : Bytes} {pos : Nat} (hlen : pos ≤ b.length)
    (hb : isBoundary b pos) : snap b pos = pos := by
  unfold snap
  rw [Nat.min_eq_left hlen]
  rw [if_pos hb]

theorem le_boundaryBelow {b : Bytes} {k i : Nat} (hk : isBoundary b k = true) (hki : k < i) :
    k ≤ boundaryBelow b i := by
  induction i with
  | zero => omega
  | succ i ih =>
    unfold boundaryBelow
    split
    · omega
    · rename_i hnot
      have hne : k ≠ i := by
        rintro rfl
        exact hnot hk
      exact ih (by omega)

theorem le_snap {b : Bytes} {k p : Nat} (hk : isBoundary b k = true) (hkp : k ≤ p)
    (hlen : k ≤ b.length) : k ≤ snap b p := by
  unfold snap
  dsimp only
  split
  · omega
  · rename_i hnot
    have hne : k ≠ min p b.length := by
      rintro rfl
      exact hnot hk
    unfold prevBoundary
    rw [Nat.min_eq_left (Nat.min_le_right _ _)]
    exact le_boundaryBelow hk (by omega)

end Ruse.Core
