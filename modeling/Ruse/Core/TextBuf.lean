import Ruse.Core.ClusterLine

/-!
# The buffer through Vim's position primitives

The model of `Buf` in `crates/core/src/textobj.rs`. A position is a byte offset; the `NUL`
slot of a line is its newline, or the content end of the last line. `inc` and `dec` step by
cluster and tell how they moved (`StepCode`); `incl` and `decl` skip a `NUL` they land on.

Every step lies in the text, and but at the edge it told of it goes its way
(`Buf.inc_spec`, `Buf.dec_spec`, `Buf.incl_spec`, `Buf.decl_spec`).
-/

namespace Ruse.Core

variable {p : Nat}

/-- Where the last line's content ends: before the buffer's final newline. -/
def contentEnd (b : Bytes) : Nat :=
  if b.getLast? = some newline then b.length - 1 else b.length

theorem contentEnd_le (b : Bytes) : contentEnd b ≤ b.length := by
  unfold contentEnd
  split <;> omega

/-- How a step moved: the codes `-1`, `0`, `1` and `2` of Vim's `inc`. -/
inductive StepCode where
  | edge
  | within
  | crossed
  | onNul
deriving DecidableEq, Repr

/-- Whether the code is `1` or more. -/
def StepCode.overLine : StepCode → Bool
  | .crossed | .onNul => true
  | .edge | .within => false

def isWhite (c : UInt8) : Bool := c == 32 || c == 9

/-- The buffer, and the crate its steps go by. -/
structure Buf where
  b : Bytes
  steps : Segmenter

namespace Buf

variable (buf : Buf)

/-- The `NUL` slot of the last line. -/
def last : Nat := contentEnd buf.b

/-- Whether `p` is a line's `NUL` slot. -/
def isNul (p : Nat) : Bool := p ≥ buf.last || buf.b[p]? == some newline

/-- The byte under `p`, 0 on a `NUL` slot. -/
def gchar (p : Nat) : UInt8 := if buf.isNul p then 0 else buf.b.getD p 0

def col0 (p : Nat) : Bool := p == 0 || buf.b[p - 1]? == some newline

/-- `p` sits at column 0 of an empty line. -/
def lineEmpty (p : Nat) : Bool := buf.col0 p && buf.isNul p

/-- Whether the line holding `p` is empty. -/
def lineOfIsEmpty (p : Nat) : Bool := buf.lineEmpty (lineStart buf.b p)

def isLastLine (p : Nat) : Bool := lineEnd buf.b p ≥ buf.last

/-- Vim `inc`: one cluster forward, or over a line break from a `NUL` slot. -/
def inc (p : Nat) : Nat × StepCode :=
  if !buf.isNul p then
    let q := nextGrapheme buf.steps buf.b p
    (q, if buf.isNul q then .onNul else .within)
  else if p ≥ buf.last then (p, .edge)
  else (p + 1, .crossed)

/-- Vim `dec`: one cluster back, or to the line's `NUL` slot before. -/
def dec (p : Nat) : Nat × StepCode :=
  if !buf.col0 p then (prevGrapheme buf.steps buf.b p, .within)
  else if p = 0 then (p, .edge)
  else (p - 1, .crossed)

/-- Vim `incl`: `inc`, skipping over a `NUL` it lands on. -/
def incl (p : Nat) : Nat × StepCode :=
  let m := buf.inc p
  if m.2.overLine && !buf.col0 m.1 then buf.inc m.1 else m

/-- Vim `decl`: `dec`, skipping over the `NUL` of the line it crosses back into. -/
def decl (p : Nat) : Nat × StepCode :=
  let m := buf.dec p
  if m.2 = .crossed && !buf.col0 m.1 then buf.dec m.1 else m

/-- Vim `inindent`: the line's leading blanks reach at least `extra` past `p`. -/
def inindent (p extra : Nat) : Bool :=
  let ls := lineStart buf.b p
  ((buf.b.drop ls).takeWhile isWhite).length ≥ p - ls + extra

/-! ## Reading -/

variable {buf}

theorem isNul_false (h : buf.isNul p = false) :
    p < buf.last ∧ p < buf.b.length ∧ buf.b[p]? ≠ some newline := by
  simp only [isNul, ge_iff_le, Bool.or_eq_false_iff, decide_eq_false_iff_not, Nat.not_le,
    beq_eq_false_iff_ne, ne_eq] at h
  have := contentEnd_le buf.b
  exact ⟨h.1, Nat.lt_of_lt_of_le h.1 this, h.2⟩

theorem col0_false (h : buf.col0 p = false) :
    0 < p ∧ buf.b[p - 1]? ≠ some newline := by
  simp only [col0, Bool.or_eq_false_iff, beq_eq_false_iff_ne, ne_eq] at h
  exact ⟨Nat.pos_of_ne_zero h.1, h.2⟩

/-- A byte that is not 0 stands on no `NUL` slot. -/
theorem isNul_of_gchar (h : buf.gchar p ≠ 0) : buf.isNul p = false := by
  by_contra hnul
  rw [Bool.not_eq_false] at hnul
  rw [gchar, if_pos hnul] at h
  exact h rfl

theorem isNul_of_white (h : isWhite (buf.gchar p) = true) : buf.isNul p = false := by
  refine isNul_of_gchar fun hzero => ?_
  rw [hzero] at h
  cases h

/-- After the start of a line `dec` finds a cluster. -/
theorem dec_ne_edge (h : buf.col0 p = false) : (buf.dec p).2 ≠ .edge := by
  simp [dec, h]

/-! ## Steps -/

section
variable (hg : buf.steps.Documented) (hadv : buf.steps.Advances)
include hg hadv

/-- `inc` from a place in the text: in the text, and past the place but at the edge. -/
theorem inc_spec (hp : p ≤ buf.b.length) :
    (buf.inc p).1 ≤ buf.b.length ∧
      ((buf.inc p).2 = .edge ∧ (buf.inc p).1 = p ∨ (buf.inc p).2 ≠ .edge ∧ p < (buf.inc p).1) := by
  unfold inc
  cases hnul : buf.isNul p with
  | false =>
    obtain ⟨-, hlt, hnl⟩ := isNul_false hnul
    obtain ⟨hgt, hle⟩ := nextGrapheme_line hg hadv hlt hnl
    have hend := lineEnd_le_length buf.b p
    simp only [Bool.not_false, if_true]
    refine ⟨Nat.le_trans hle hend, .inr ⟨?_, hgt⟩⟩
    split <;> simp
  | true =>
    have hlast := contentEnd_le buf.b
    simp only [Bool.not_true, Bool.false_eq_true, if_false]
    split
    · exact ⟨hp, .inl ⟨rfl, rfl⟩⟩
    · rename_i hlt
      rw [last] at hlt
      exact ⟨by dsimp only; omega, .inr ⟨by simp, Nat.lt_succ_self p⟩⟩

/-- `dec` from a place in the text. -/
theorem dec_spec (hp : p ≤ buf.b.length) :
    (buf.dec p).1 ≤ buf.b.length ∧
      ((buf.dec p).2 = .edge ∧ (buf.dec p).1 = p ∨ (buf.dec p).2 ≠ .edge ∧ (buf.dec p).1 < p) := by
  unfold dec
  cases hcol : buf.col0 p with
  | false =>
    obtain ⟨hpos, hnl⟩ := col0_false hcol
    have hlt := (prevGrapheme_line hg hadv hpos hp hnl).2
    simp only [Bool.not_false, if_true]
    exact ⟨by omega, .inr ⟨by simp, hlt⟩⟩
  | true =>
    simp only [Bool.not_true, Bool.false_eq_true, if_false]
    split
    · exact ⟨hp, .inl ⟨rfl, rfl⟩⟩
    · rename_i hzero
      exact ⟨by dsimp only; omega, .inr ⟨by simp, by dsimp only; omega⟩⟩

/-- `incl` may stop at the edge after a step. -/
theorem incl_spec (hp : p ≤ buf.b.length) :
    (buf.incl p).1 ≤ buf.b.length ∧ p ≤ (buf.incl p).1 ∧
      ((buf.incl p).2 ≠ .edge → p < (buf.incl p).1) := by
  obtain ⟨hle, hmove⟩ := inc_spec hg hadv hp
  unfold incl
  dsimp only
  split
  · rename_i hover
    have hgt : p < (buf.inc p).1 := by
      rcases hmove with ⟨hedge, -⟩ | ⟨-, hgt⟩
      · simp [hedge, StepCode.overLine] at hover
      · exact hgt
    obtain ⟨hle', hmove'⟩ := inc_spec hg hadv hle
    exact ⟨hle', by omega, fun _ => by omega⟩
  · refine ⟨hle, ?_, ?_⟩
    · rcases hmove with ⟨-, heq⟩ | ⟨-, hgt⟩ <;> omega
    · intro hne
      rcases hmove with ⟨hedge, -⟩ | ⟨-, hgt⟩
      · exact absurd hedge hne
      · exact hgt

/-- `decl` stops at the edge only where it starts. -/
theorem decl_spec (hp : p ≤ buf.b.length) :
    (buf.decl p).1 ≤ buf.b.length ∧
      ((buf.decl p).2 = .edge ∧ (buf.decl p).1 = p ∨ (buf.decl p).2 ≠ .edge ∧ (buf.decl p).1 < p) := by
  obtain ⟨hle, hmove⟩ := dec_spec hg hadv hp
  unfold decl
  dsimp only
  split
  · rename_i hover
    simp only [Bool.and_eq_true, decide_eq_true_eq, Bool.not_eq_true'] at hover
    obtain ⟨hle', hmove'⟩ := dec_spec hg hadv hle
    have hedge' := dec_ne_edge hover.2
    rcases hmove' with ⟨hedge, -⟩ | ⟨-, hlt'⟩
    · exact absurd hedge hedge'
    · exact ⟨hle', .inr ⟨hedge', by omega⟩⟩
  · exact ⟨hle, hmove⟩

/-- On a blank `incl` moves, whatever it tells. -/
theorem incl_white (hp : p ≤ buf.b.length) (h : isWhite (buf.gchar p) = true) :
    (buf.incl p).1 ≤ buf.b.length ∧ p < (buf.incl p).1 := by
  obtain ⟨hle, hmove⟩ := inc_spec hg hadv hp
  have hgt : p < (buf.inc p).1 := by
    rcases hmove with ⟨hedge, -⟩ | ⟨-, hgt⟩
    · rw [inc, isNul_of_white h] at hedge
      simp only [Bool.not_false, if_true] at hedge
      split at hedge <;> cases hedge
    · exact hgt
  obtain ⟨hle', -, -⟩ := incl_spec hg hadv hp
  refine ⟨hle', ?_⟩
  unfold incl
  dsimp only
  split
  · have hmove' := (inc_spec hg hadv hle).2
    rcases hmove' with ⟨-, heq⟩ | ⟨-, hgt'⟩ <;> omega
  · exact hgt

end

end Buf

end Ruse.Core
