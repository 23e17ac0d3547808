import Ruse.Core.TextBuf
import Ruse.Lib.Loop

/-!
# Bracket objects

The model of `current_block` in `crates/core/src/textobj.rs` (`i(`, `a(` and those of `[`,
`{`, `<`), with `find_bracket` and what `op_range` makes of its result. Loops run on fuel;
`none` is a loop still going on. A failed object is `some none`. The depth is a `u32`: past
`2 ^ 32 - 1` it wraps, as a release build does.
-/

namespace Ruse.Core

open Ruse.Lib

inductive BracketKind where
  | paren
  | square
  | brace
  | angle
deriving DecidableEq, Repr

namespace BracketKind

def opener : BracketKind → UInt8
  | .paren => 40
  | .square => 91
  | .brace => 123
  | .angle => 60

def closer : BracketKind → UInt8
  | .paren => 41
  | .square => 93
  | .brace => 125
  | .angle => 62

end BracketKind

namespace Buf

variable (buf : Buf)

/-- Whether an odd number of backslashes stands before `p` on its line. -/
def escaped (p : Nat) : Bool :=
  ((slice buf.b (lineStart buf.b p) p).reverse.takeWhile (· == 92)).length % 2 == 1

/-- The loop of `find_bracket` at the byte `c` of `i`: found, or the depth to go on with. -/
def bracketAt (find other : UInt8) (i depth : Nat) (c : UInt8) : Option Nat :=
  if (c = find ∨ c = other) ∧ buf.escaped i = false then
    if c = other then some ((depth + 1) % 2 ^ 32)
    else if depth = 0 then none
    else some (depth - 1)
  else some depth

/-- `find_bracket` backwards: from below `i`. -/
def findBack (find other : UInt8) : (i : Nat) → (depth : Nat) → Option Nat
  | 0, _ => none
  | i + 1, depth =>
    match buf.bracketAt find other i depth (buf.b.getD i 0) with
    | none => some i
    | some depth => findBack find other i depth

/-- `find_bracket` forwards: from `i` on. -/
def findAhead (find other : UInt8) (i depth : Nat) : Option Nat :=
  if _h : i < buf.b.length then
    match buf.bracketAt find other i depth buf.b[i] with
    | none => some i
    | some depth => findAhead find other (i + 1) depth
  else none
termination_by buf.b.length - i

/-- Vim `findmatchlimit` from, not at, `i`. -/
def findBracket (i : Nat) (k : BracketKind) (forward seekOpen : Bool) : Option Nat :=
  let (find, other) :=
    if forward && !seekOpen then (k.closer, k.opener) else (k.opener, k.closer)
  if forward then buf.findAhead find other (i + 1) 0 else buf.findBack find other i 0

/-! ## The pair -/

def indentBody (p : Nat) : Option (Nat × Bool) :=
  if buf.inindent p 1 then
    let m := buf.inc p
    some (m.1, m.2 ≠ .within)
  else some (p, true)

/-- Where a cursor without a Visual area looks from: `{` ignores the indent. -/
def blockPos (fuel : Nat) (k : BracketKind) (cursor : Nat) : Option Nat :=
  if k = .brace then untilBreak buf.indentBody fuel cursor else some cursor

/-- On the opener it is the first match. -/
def searchFrom (k : BracketKind) (p : Nat) : Nat := if buf.gchar p = k.opener then p + 1 else p

/-- `count` openers out of the blocks around, or with none around the next ones. -/
def openers (k : BracketKind) (enclosed : Bool) : (count : Nat) → (cur : Nat) → Option Nat
  | 0, cur => some cur
  | count + 1, cur =>
    (if enclosed then buf.findBracket cur k false false else buf.findBracket cur k true true).bind
      (openers k enclosed count)

/-! ## The text between -/

/-- A pair, with the end of the selection and whether it takes in the line break before it. -/
structure BlockState where
  start : Nat
  stop : Nat
  cur : Nat
  sol : Bool

/-- Back over the indent of the closer. -/
def trimBody (s : Nat × Bool) : Option ((Nat × Bool) × Bool) :=
  if buf.inindent s.1 1 then
    let m := buf.decl s.1
    some ((m.1, true), m.2 ≠ .within)
  else some (s, true)

/-- A round for `i(`: the brackets off; in Visual a result no bigger than the area `old`
grows to the block around. -/
def innerBody (fuel : Nat) (k : BracketKind) (old : Option (Nat × Nat)) (s : Option BlockState) :
    Option (Option BlockState × Bool) :=
  match s with
  | none => some (none, true)
  | some s => do
    let start := (buf.incl s.start).1
    let (cur, sol) ← untilBreak buf.trimBody fuel ((buf.decl s.cur).1, buf.col0 s.cur)
    match old with
    | none => some (some ⟨start, s.stop, cur, sol⟩, true)
    | some (oldStart, oldEnd) =>
      if start = s.stop then some (none, true)
      else if start ≥ oldStart ∧ oldEnd ≥ cur ∧ start ≠ cur then
        match buf.findBracket (buf.decl oldStart).1 k false false with
        | none => some (none, true)
        | some start =>
          match buf.findBracket start k true false with
          | none => some (none, true)
          | some stop => some (some ⟨start, stop, stop, sol⟩, false)
      else some (some ⟨start, s.stop, cur, sol⟩, true)

def blockResult (isVisual : Bool) (s : BlockState) : Nat × Nat × Bool :=
  if isVisual then
    (s.start, if s.sol && buf.gchar s.cur != 0 then (buf.inc s.cur).1 else s.cur, true)
  else if s.sol then (s.start, (buf.incl s.cur).1, false)
  else if s.start ≤ s.cur then (s.start, s.cur, true)
  else (s.start, s.start, false)

/-- Vim `current_block`: the start, the cursor and whether it is inclusive. -/
def currentBlock (fuel cursor : Nat) (visual : Option Nat) (count : Nat) (around : Bool) (k : BracketKind) :
    Option (Option (Nat × Nat × Bool)) := do
  let area := visual.filter (· ≠ cursor)
  let cur ← (match area with
    | some v => some (min v cursor)
    | none => (buf.blockPos fuel k cursor).map (buf.searchFrom k))
  let enclosed := (buf.findBracket cur k false false).isSome
  let pair := (buf.openers k enclosed (max count 1) cur).bind fun start =>
    (buf.findBracket start k true false).map fun stop => (start, stop)
  match pair with
  | none => some none
  | some (start, stop) =>
    let s : BlockState := ⟨start, stop, stop, false⟩
    if around then some (some (buf.blockResult visual.isSome s))
    else
      let old := visual.map fun v => (min v cursor, max v cursor)
      let s ← untilBreak (buf.innerBody fuel k old) fuel (some s)
      some (s.map (buf.blockResult visual.isSome))

/-- `op_range` of such an object: the range, and whether it is exclusive and ends at a line's
start. -/
def blockRange (fuel cursor count : Nat) (around : Bool) (k : BracketKind) : Option (Nat × Nat × Bool) :=
  let cur := min (min cursor buf.b.length) buf.last
  (buf.currentBlock fuel cur none count around k).map fun r =>
    match r with
    | none => (cur, cur, false)
    | some (start, stop, inclusive) =>
      let e := if inclusive && !buf.isNul stop then nextGrapheme buf.steps buf.b stop else stop
      if e ≤ start then (start, start, false)
      else (start, e, !inclusive && buf.col0 e)

end Buf

end Ruse.Core
