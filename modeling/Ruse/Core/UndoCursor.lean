import Ruse.Core.Pos

/-!
# Where an undo step leaves the cursor

The model of `crates/core/src/undo_cursor.rs`: the line-granular entries an edit
list stands for, the placement of the cursor over a step's last group, and the
change marks the step leaves.
-/

namespace Ruse.Core

/-- One undo entry, in the coordinates of the text after its list was applied. -/
structure Entry where
  /-- The number of lines above the entry. -/
  top : Nat
  oldsize : Nat
  newsize : Nat
  /-- How many of the leading lines the step left as they were. -/
  same : Nat
deriving DecidableEq, Repr

namespace UndoCursor

/-- `[..b]`'s first newline from `a` on, as an offset. -/
def nextNewline (b : Bytes) (a : Nat) : Option Nat :=
  ((b.drop a).findIdx? (· == newline)).map (a + ·)

/-- How many of the first `n` lines starting at `a` in `old` and at `b` in `new`
are equal. -/
def sameLines (old new : Bytes) : Nat → Nat → Nat → Nat
  | 0, _, _ => 0
  | n + 1, a, b =>
    let ae := nextNewline old a
    let be := nextNewline new b
    if slice old a (ae.getD old.length) ≠ slice new b (be.getD new.length) then 0
    else
      match ae, be with
      | some x, some y => sameLines old new n (x + 1) (y + 1) + 1
      | _, _ => 1

/-- What the loop of `entries` threads. -/
structure Scan where
  scan : Nat
  oldLine : Nat
  byteDelta : Int
  lineDelta : Int
  out : List Entry

/-- One round of the loop of `entries`. -/
def entry (old new : Bytes) (s : Scan) (e : Edit) : Scan :=
  let pos := e.pos
  let stop := pos + e.del
  let oldLine := s.oldLine + countNewlines (slice old s.scan pos)
  let delNl := countNewlines (slice old pos stop)
  let insNl := countNewlines e.ins
  let wholeLines := (pos == 0 || old[pos - 1]? == some newline) &&
    (e.del == 0 || old[stop - 1]? == some newline) && e.ins.getLast?.all (· == newline)
  let tailLines := !wholeLines && stop == old.length && pos > 0 &&
    old[pos - 1]? != some newline && (e.del > 0 || !e.ins.isEmpty) &&
    (e.del == 0 || old[pos]? == some newline) &&
    (e.ins.isEmpty || (e.ins.head? == some newline && e.ins.getLast? != some newline))
  let (oldsize, newsize) :=
    if wholeLines || tailLines then (delNl, insNl) else (delNl + 1, insNl + 1)
  let newPos := ((pos : Int) + s.byteDelta).toNat
  let top := ((oldLine : Int) + s.lineDelta).toNat + tailLines.toNat
  let (oldFrom, newFrom) :=
    if tailLines then (pos + 1, newPos + 1) else (lineStart old pos, lineStart new newPos)
  let same := sameLines old new (min oldsize newsize) oldFrom newFrom
  { scan := pos
    oldLine
    byteDelta := s.byteDelta + e.ins.length - e.del
    lineDelta := s.lineDelta + insNl - delNl
    out := s.out ++ [⟨top, oldsize, newsize, same⟩] }

/-- The entries one applied list contributes: `list` turned `old` into `new`. -/
def entries (old new : Bytes) (list : EditList) : List Entry :=
  (list.edits.foldl (entry old new) ⟨0, 0, 0, 0, []⟩).out

/-- The lines a step leaves the change marks on. -/
structure ChangeMarks where
  startLine : Nat
  endLine : Nat
  lastChangeLine : Option Nat
deriving DecidableEq, Repr

/-- What the loop of `change_marks` threads, 1-based. -/
structure MarkScan where
  start : Int
  stop : Int
  dot : Option Int

/-- One round of the loop of `change_marks`. -/
def markEntry (s : MarkScan) (e : Entry) : MarkScan :=
  let (top, old, new) := ((e.top : Int), (e.oldsize : Int), (e.newsize : Int))
  let start := if old ≠ new ∧ s.start > top + old then s.start + (new - old) else s.start
  let stop := if old ≠ new ∧ s.stop > top + old then s.stop + (new - old) else s.stop
  let dot := if old > 0 ∨ new > 0 then some (top + 1) else s.dot
  let stop :=
    if new = 0 ∧ top + 1 > stop then top + 1
    else if top + new > stop then top + new
    else stop
  ⟨min start (top + 1), stop, dot⟩

/-- The change marks over one group's `entries`. -/
def changeMarks (entries : List Entry) (linesBefore linesAfter : Nat) : ChangeMarks :=
  let s := entries.foldl markEntry ⟨linesBefore, 0, none⟩
  let lines : Int := max linesAfter 1
  let line (n : Int) : Nat := (max 1 (min n lines) - 1).toNat
  ⟨line s.start, line s.stop, s.dot.map line⟩

/-- Where the cursor lands: a 0-based line of the text after the step, and a byte
column on it or `none` for the sticky column. -/
structure Placed where
  line : Nat
  col : Option Nat
  marks : ChangeMarks
deriving DecidableEq, Repr

/-- What the loop of `place` threads. -/
structure PlaceScan where
  lnum : Nat
  newlnum : Option Nat
  pinned : Bool

/-- One round of the loop of `place`; `final` on the last entry. -/
def placeEntry (uhLnum : Nat) (s : PlaceScan) (e : Entry) (final : Bool) : PlaceScan :=
  if uhLnum ≥ e.top ∧ uhLnum ≤ e.top + e.newsize + 1 then
    { s with lnum := uhLnum, pinned := true }
  else if ¬ s.pinned ∧ s.newlnum.all (e.top < ·) then
    if e.same = e.newsize ∧ s.newlnum.isNone ∧ final then
      { s with newlnum := some e.top, lnum := e.top + 1 }
    else if e.same < e.newsize then
      { s with newlnum := some (e.top + e.same), lnum := e.top + e.same + 1 }
    else s
  else s

/-- The loop of `place`. -/
def placeEntries (uhLnum : Nat) : List Entry → PlaceScan → PlaceScan
  | [], s => s
  | e :: es, s => placeEntries uhLnum es (placeEntry uhLnum s e es.isEmpty)

/-- The placement over the step's last-group `entries`. `uh` is the start cursor
as (line, byte column), `curLine` the cursor's line before the step. -/
def place (entries : List Entry) (uh : Nat × Nat) (curLine lines : Nat) : Placed :=
  let uhLnum := uh.1 + 1
  let s := placeEntries uhLnum entries ⟨curLine + 1, none, false⟩
  let lines := max lines 1
  let lnum := max 1 (min s.lnum lines)
  let lnum := if uhLnum + 1 = lnum ∧ lnum > 1 then lnum - 1 else lnum
  { line := lnum - 1
    col := if uhLnum = lnum then some uh.2 else none
    marks := ⟨0, 0, none⟩ }

/-- `offset` in `text` as a 0-based (line, byte column). -/
def lineCol (text : Bytes) (offset : Nat) : Nat × Nat :=
  let offset := min offset text.length
  (lineOf text offset, offset - lineStart text offset)

/-- A final newline ends the last line rather than starting another. -/
def lineCount (text : Bytes) : Nat :=
  let n := countNewlines text + 1
  if text.getLast? = some newline then n - 1 else n

end UndoCursor

end Ruse.Core
