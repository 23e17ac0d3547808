import Ruse.Core.LineText
import Ruse.Lib.Memo
import Ruse.Lib.Walk

/-!
# The lines found so far

The model of `Lines` in `crates/core/src/anchor.rs`, the memo through which a `LineMap` looks
its lines up. The lines of a text are blocks of its positions (`blocks_lines`), so whatever
lines a memo has been asked for, it answers as a scan for the newlines does
(`Lines.of_transparent`).
-/

namespace Ruse.Core.LineMap

open Ruse.Lib

/-- The lines of one text found so far, as their starts and ends, in order. -/
abbrev Lines := List (Nat × Nat)

/-- `Lines::of`: the line that holds `p`, and the lines found then. -/
def Lines.of (text : Bytes) (lines : Lines) (p : Nat) : (Nat × Nat) × Lines :=
  let p := min p text.length
  let i := partitionPoint (fun j => decide ((lines.getD j (0, 0)).1 ≤ p)) lines.length
  let last := if i = 0 then none else lines[i - 1]?
  match last.filter fun line => decide (p ≤ line.2) with
  | some line => (line, lines)
  | none =>
    let line := (lineStart text p, lineEnd text p)
    (line, lines.insertIdx i line)

/-- The line over a position, by a scan back and a scan on. -/
def scanLine (text : Bytes) (p : Nat) : Nat × Nat := (lineStart text p, lineEnd text p)

variable {text : Bytes} {p : Nat}

theorem scanLine_min (text : Bytes) (p : Nat) : scanLine text (min p text.length) = scanLine text p := by
  unfold scanLine lineStart lineEnd
  simp only [Nat.min_assoc, Nat.min_self, ← List.take_eq_take_min]

/-- A text is cut into its lines; a newline is the last position of its line. -/
theorem blocks_lines (text : Bytes) : Blocks text.length (scanLine text) where
  holds p hp := ⟨lineStart_le text p, le_lineEnd text hp⟩
  whole p hp q hlo hhi := by
    obtain ⟨hstart, hbefore⟩ := lineStart_spec text p
    obtain ⟨hend, hafter⟩ := lineEnd_spec hp
    have hlen := lineEnd_le_length text p
    have hno : NoNewline text (lineStart text p) (lineEnd text p) := by
      intro k hk hlt
      rcases Nat.lt_or_ge k p with hkp | hkp
      · exact hbefore k hk hkp
      · exact hafter k hkp hlt
    have hs : lineStart text q = lineStart text p :=
      lineStart_eq hlo hstart fun k hk hkq => hno k hk (Nat.lt_of_lt_of_le hkq hhi)
    have he : lineEnd text q = lineEnd text p :=
      lineEnd_eq hhi hlen hend fun k hk hlt => hno k (Nat.le_trans hlo hk) hlt
    show (lineStart text q, lineEnd text q) = (lineStart text p, lineEnd text p)
    rw [hs, he]

/-- The lines found are lines of the text, in order. -/
abbrev Lines.Sound (text : Bytes) (lines : Lines) : Prop := Lib.Found text.length (scanLine text) lines

/-- A look-up answers as a scan does, and leaves lines of the text, in order. -/
theorem Lines.of_eq {lines : Lines} (h : lines.Sound text) (p : Nat) :
    (lines.of text p).1 = scanLine text p ∧ ((lines.of text p).2).Sound text := by
  have hb := blocks_lines text
  have hp : min p text.length ≤ text.length := Nat.min_le_right _ _
  rw [← scanLine_min text p]
  unfold Lines.of
  dsimp only
  generalize min p text.length = p at hp
  obtain ⟨hle, hgt⟩ := h.split hb p
  have hparts := List.takeWhile_append_dropWhile (p := fun line : Nat × Nat => decide (line.1 ≤ p)) (l := lines)
  generalize lines.takeWhile (fun line => decide (line.1 ≤ p)) = xs at *
  generalize lines.dropWhile (fun line => decide (line.1 ≤ p)) = ys at *
  subst hparts
  rw [partitionPoint_append (q := fun line : Nat × Nat => decide (line.1 ≤ p)) (by simpa using hle) (by simpa using hgt)]
  -- a line looked for and not found goes in where the search ended
  have hmiss : (∀ x ∈ xs, x.2 < p) →
      Lines.Sound text ((xs ++ ys).insertIdx xs.length (scanLine text p)) := by
    intro hxs
    rw [insertIdx_length_append]
    exact h.insert hb hp hxs hgt
  rcases List.eq_nil_or_concat xs with rfl | ⟨front, x, rfl⟩
  · exact ⟨rfl, hmiss fun x hx => absurd hx List.not_mem_nil⟩
  · rw [List.concat_eq_append] at *
    have hlast : (front ++ [x] ++ ys)[(front ++ [x]).length - 1]? = some x := by
      simp [List.append_assoc]
    have hx : x ∈ front ++ [x] := List.mem_append_right _ (List.mem_singleton.mpr rfl)
    rw [if_neg (by simp), hlast, Option.filter_some]
    by_cases hin : p ≤ x.2
    · rw [decide_eq_true hin, if_pos rfl]
      exact ⟨(h.hit hb (List.mem_append_left _ hx) (hle x hx) hin).symm, h⟩
    · rw [decide_eq_false hin, if_neg (by simp)]
      refine ⟨rfl, hmiss fun y hy => ?_⟩
      rcases List.mem_append.mp hy with hy | hy
      · have hfront : Lib.Found text.length (scanLine text) (front ++ [x]) :=
          ⟨fun z hz => h.known z (List.mem_append_left _ hz), (List.pairwise_append.mp h.sorted).1⟩
        exact hfront.before_last (hle x hx) y hy
      · rw [List.mem_singleton.mp hy]
        exact Nat.lt_of_not_le hin

/-- However many lines a memo has been asked for and in whatever order, it answers as a scan back
and a scan on from the offset do. -/
theorem Lines.of_transparent (text : Bytes) (offsets : List Nat) :
    answers (Lines.of text) [] offsets =
      offsets.map fun p => (lineStart text p, lineEnd text p) := by
  have hstep : ∀ (lines : Lines) (p : Nat), lines.Sound text →
      (lines.of text p).1 = scanLine text p ∧ ((lines.of text p).2).Sound text :=
    fun _ p h => Lines.of_eq h p
  exact answers_eq hstep Lib.Found.nil offsets

end Ruse.Core.LineMap
