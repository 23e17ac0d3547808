import Ruse.Core.Pos

/-!
# The line `U` restores

The model of `crates/core/src/line_undo.rs`: the saved line, the arming that
decides when a change saves one, and the swap `U` plans. Line numbers are
0-based.
-/

namespace Ruse.Core

/-- The saved line: its number, its text before the changes, and the column `U`
returns to. -/
structure Saved where
  line : Nat
  text : Bytes
  col : Nat
deriving DecidableEq, Repr

structure LineUndo where
  saved : Option Saved
  /-- The next one-line change saves its line. -/
  armed : Bool
  /-- The caret before the next change. -/
  cursor : Option Nat
deriving DecidableEq, Repr

/-- `[start, end)` of line `n`, or `none` past the last line: the loop finds the
start from `start` on. -/
def boundsFrom (text : Bytes) : Nat → Nat → Option (Nat × Nat)
  | 0, start => some (lineStart text start, lineEnd text start)
  | n + 1, start =>
    match (text.drop start).findIdx? (· == newline) with
    | some i => boundsFrom text n (start + i + 1)
    | none => none

/-- `[start, end)` of line `n`. -/
def boundsOf (text : Bytes) (n : Nat) : Option (Nat × Nat) := boundsFrom text n 0

/-- Whether `list` inserts or deletes a newline. -/
def changesLines (pre : Bytes) (list : EditList) : Bool :=
  list.edits.any fun e => e.ins.contains newline || (slice pre e.pos e.endPos).contains newline

namespace LineUndo

def default : LineUndo := ⟨none, false, none⟩

/-- Before a change: record the caret, and arm saving when a new command starts. -/
def prime (u : LineUndo) (cursor : Nat) (arm : Bool) : LineUndo :=
  { u with cursor := some cursor, armed := u.armed || arm }

/-- Drop the saved line; `disarm` keeps the rest of the command from saving
another. -/
def clear (u : LineUndo) (disarm : Bool) : LineUndo :=
  { u with saved := none, armed := u.armed && !disarm }

/-- The line below an edit still starts a line after it. -/
def startsLine (pre : Bytes) (ed : Edit) : Bool :=
  match ed.ins.getLast? with
  | some b => b == newline
  | none => ed.pos == 0 || pre[ed.pos - 1]? == some newline

/-- The lines an edit adds, less the ones it removes. -/
def lineDelta (pre : Bytes) (ed : Edit) : Int :=
  (countNewlines ed.ins : Int) - countNewlines (slice pre ed.pos ed.endPos)

/-- Whether the saved line `[s, e)` survives an edit, and how far its number moves
by one that touches it. -/
def survives (pre : Bytes) (s e : Nat) (ed : Edit) : Bool × Int :=
  -- below the line, at its end, up to its start; else above it, or into it
  if ed.pos > e then (true, 0)
  else if ed.pos = e ∧ ed.del = 0 ∧ s < e then (ed.ins.head?.all (· == newline), 0)
  else if ed.endPos = s ∧ (ed.pos < s ∨ s < e ∨ ed.del > 0) then
    (startsLine pre ed, if startsLine pre ed then lineDelta pre ed else 0)
  else if ed.pos = s ∧ s = e ∧ ed.del = 0 then
    -- an insert into an empty line
    if ed.ins.getLast? = some newline then (true, (countNewlines ed.ins : Int))
    else (ed.ins.head? == some newline, 0)
  else (decide (ed.endPos < s), 0)

/-- How one edit meets the saved line: `none` when the line does not survive it,
else how far its number moves. -/
def followEdit (pre : Bytes) (s e : Nat) (ed : Edit) : Option Int :=
  match survives pre s e ed with
  | (false, _) => none
  | (true, shift) => some (if ed.endPos < s then shift + lineDelta pre ed else shift)

/-- The loop of `follow`. -/
def followEdits (pre : Bytes) (s e : Nat) : List Edit → Int → Option Int
  | [], shift => some shift
  | ed :: es, shift => (followEdit pre s e ed).bind fun d => followEdits pre s e es (shift + d)

/-- Move the saved line's number past the lines `list` inserts or deletes before
it; drop it when an edit changes, splits, joins or removes the line itself. -/
def follow (u : LineUndo) (pre : Bytes) (list : EditList) : LineUndo :=
  match u.saved with
  | none => u
  | some saved =>
    match boundsOf pre saved.line with
    | none => { u with saved := none }
    | some (s, e) =>
      match followEdits pre s e list.edits 0 with
      | none => { u with saved := none }
      | some shift =>
        { u with saved := some { saved with line := (max ((saved.line : Int) + shift) 0).toNat } }

/-- Save the line holding `lo` unless it is the one saved. -/
def saveLine (u : LineUndo) (pre : Bytes) (lo : Nat) (cursor : Option Nat) : LineUndo :=
  let line := lineOf pre lo
  if u.saved.map Saved.line = some line then u
  else
    let (s, e) := (lineStart pre lo, lineEnd pre lo)
    let col := match cursor with
      | some c => if s ≤ c ∧ c ≤ e then c - s else lo - s
      | none => lo - s
    { u with saved := some ⟨line, slice pre s e, col⟩ }

/-- Track a fresh change from `pre`. -/
def onEdit (u : LineUndo) (pre : Bytes) (list : EditList) (fresh : Bool) : LineUndo :=
  let cursor := u.cursor
  let u := { u with cursor := none, armed := u.armed || fresh }
  match list.edits.head?, list.edits.getLast? with
  | some first, some last =>
    let lo := first.pos
    -- within one line: the line is saved, once per arming
    let oneLine := !(slice pre lo last.endPos).contains newline &&
      !list.edits.any fun e => e.ins.contains newline
    if oneLine then
      if u.armed then { u with armed := false }.saveLine pre lo cursor else u
    else if ¬ changesLines pre list then u
    else
      -- lines deleted whole take the saved one with them
      let wholeLines := list.edits.any fun e =>
        (slice pre e.pos e.endPos).contains newline &&
          (e.pos == 0 || pre[e.pos - 1]? == some newline || e.endPos == pre.length)
      if wholeLines then { u with saved := none } else u.follow pre list
  | _, _ => u

def onReapply (u : LineUndo) (pre : Bytes) (list : EditList) : LineUndo :=
  let u := { u with cursor := none }
  if changesLines pre list then u.follow pre list else u

/-- What `U` replaces: the span of the line, the saved text, and the caret offset
into the restored line. -/
structure Swap where
  start : Nat
  stop : Nat
  text : Bytes
  col : Nat
deriving DecidableEq, Repr

/-- Plan `U` over `text` with the caret at `cursor`, swapping in the current
line. -/
def swap (u : LineUndo) (text : Bytes) (cursor : Nat) : LineUndo × Option Swap :=
  match u.saved with
  | none => (u, none)
  | some saved =>
    match boundsOf text saved.line with
    | none => ({ u with saved := none }, none)
    | some (s, e) =>
      let col := if s ≤ cursor ∧ cursor ≤ e then cursor - s else saved.col
      ({ u with cursor := none, saved := some { saved with text := slice text s e, col } },
        some ⟨s, e, saved.text, saved.col⟩)

end LineUndo

theorem boundsFrom_le {text : Bytes} {n start s e : Nat}
    (h : boundsFrom text n start = some (s, e)) : s ≤ e ∧ e ≤ text.length := by
  induction n generalizing start with
  | zero =>
    simp only [boundsFrom, Option.some.injEq, Prod.mk.injEq] at h
    obtain ⟨rfl, rfl⟩ := h
    refine ⟨?_, lineEnd_le_length text start⟩
    have h1 := lineStart_le text start
    have h2 := lineStart_le_length text start
    simp only [lineEnd]
    omega
  | succ n ih =>
    unfold boundsFrom at h
    split at h
    · exact ih h
    · cases h

/-- The span `U` replaces lies inside the text. -/
theorem LineUndo.swap_inBounds {u u' : LineUndo} {text : Bytes} {cursor : Nat}
    {sw : LineUndo.Swap} (h : u.swap text cursor = (u', some sw)) :
    sw.start ≤ sw.stop ∧ sw.stop ≤ text.length := by
  unfold LineUndo.swap at h
  split at h
  · cases h
  · split at h
    · cases h
    · rename_i hb
      cases h
      exact boundsFrom_le hb

end Ruse.Core
