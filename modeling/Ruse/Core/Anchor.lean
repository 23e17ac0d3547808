import Ruse.Core.Pos

/-!
# How one position follows an edit list

The one-anchor rules of `crates/core/src/anchor.rs`:

* `mapByteInside` — a byte anchor with a `Bias`;
* `LineMap.mapOffset` — a line anchor with a `LineGravity`, read off the text
  before and after the change;
* `Tracked` — a position its owner carries through the changes itself.

`LineMap` remembers the lines it has found (`Lines`); the memo answers what
`lineStart` and `lineEnd` do, which the model asks directly.
-/

namespace Ruse.Core

/-- Which side of a boundary an anchor clings to when an insertion lands at it. -/
inductive Bias where
  | before
  | after
deriving DecidableEq, Repr

/-- What happens to an anchor whose surrounding span is deleted. -/
inductive AnchorPolicy where
  | clamp
  | invalidate
deriving DecidableEq, Repr

/-- What a line anchor does when its whole line is deleted. -/
inductive LineGravity where
  | drop
  | keep
  | cursor
deriving DecidableEq, Repr

/-- How an anchor follows an edit: by byte or by line. -/
inductive Track where
  | byte (bias : Bias)
  | line (gravity : LineGravity)
deriving DecidableEq, Repr

/-! ## The byte rule -/

/-- The single-edit rule for an anchor at `a`: the new offset, and whether it sat
strictly inside the deleted span. -/
def mapOne (a pos del ins : Nat) (bias : Bias) : Nat × Bool :=
  let stop := pos + del
  if a < pos then (a, false)
  else if a > stop then (a - del + ins, false)
  else
    let inside := pos < a && a < stop
    match bias with
    | .before => (pos, inside)
    | .after => (pos + ins, inside)

/-- The loop of `map_byte_inside`: the edits the anchor reaches, in turn, each
shifted into the frame the edits before it leave. -/
def mapByteLoop (bias : Bias) : List Edit → Int → Nat → Bool → Nat × Bool
  | [], _, cur, inside => (cur, inside)
  | e :: es, shift, cur, inside =>
    let pos := ((e.pos : Int) + shift).toNat
    if cur < pos then (cur, inside)
    else
      let (n, ins) := mapOne cur pos e.del e.ins.length bias
      mapByteLoop bias es (shift + e.delta) n (inside || ins)

/-- The edits `partition_point` skips: those that end before `o`. -/
def editsBefore (es : List Edit) (o : Nat) : List Edit :=
  es.takeWhile fun e => e.endPos < o

/-- The summed length change of some edits. -/
def sumDelta (es : List Edit) : Int := (es.map Edit.delta).sum

/-- The byte rule over a whole edit set for one anchor at `o`. -/
def mapByteInside (es : List Edit) (o : Nat) (bias : Bias) : Nat × Bool :=
  let skipped := editsBefore es o
  let shift := sumDelta skipped
  mapByteLoop bias (es.drop skipped.length) shift ((o : Int) + shift).toNat false

/-- Where one byte anchor at `o` goes through `edits`. -/
def mapByte (edits : EditList) (o : Nat) (bias : Bias) : Nat :=
  (mapByteInside edits.edits o bias).1

/-! ## The line rule -/

/-- The line-anchor rule for `edits` turning `old` into `new`. -/
structure LineMap where
  old : Bytes
  new : Bytes
  edits : List Edit

namespace LineMap

variable (m : LineMap)

/-- `prefix[i]`: the summed delta of `edits[..i]`. -/
def prefixDelta (i : Nat) : Int := sumDelta (m.edits.take i)

def lineStartAt (p : Nat) : Bool := p == 0 || m.old[p - 1]? == some newline

/-- The edit's span starts and ends at line starts and it inserts whole lines. -/
def startAligned (e : Edit) : Bool :=
  m.lineStartAt e.pos && m.lineStartAt e.endPos &&
    (e.ins.isEmpty || e.ins.getLast? == some newline)

/-- The edit's span starts at a line's newline and ends at one or the buffer end,
and it inserts newline-led lines. -/
def endAligned (e : Edit) : Bool :=
  m.old[e.pos]? == some newline &&
    (e.endPos == m.old.length || m.old[e.endPos]? == some newline) &&
    (e.ins.isEmpty || e.ins.head? == some newline)

/-- The new-text offset of column `col` on the line starting at `ls`. -/
def atCol (ls col : Nat) : Nat :=
  let ls := min ls m.new.length
  ls + min col (lineEnd m.new ls - ls)

/-- The start of the new-text line holding `p`; the slot after a final newline
reads as the last line. -/
def newLineStart (p : Nat) : Nat :=
  let p := min p m.new.length
  let p := if p = m.new.length ∧ p > 0 ∧ m.new[p - 1]? = some newline then p - 1 else p
  lineStart m.new p

/-- Whether the charwise `e` is a join: it starts at its line's newline, removes
only blanks after it, and puts only blanks there. -/
def isJoin (e : Edit) : Bool :=
  let blank : UInt8 → Bool := fun c => c == 32 || c == 9
  m.old[e.pos]? == some newline && (slice m.old (e.pos + 1) e.endPos).all blank &&
    e.ins.all blank

/-- The lines of a text without their newlines: `split` on the newline byte. -/
def splitLines (b : Bytes) : List Bytes := b.splitOn newline

/-- The lines `f` inserts as a block of its own, and where in the insertion the
first starts. -/
def insertedBody (f : Edit) : Option (Bytes × Nat) :=
  if m.lineStartAt f.pos ∧ f.ins.getLast? = some newline then some (f.ins.dropLast, 0)
  else if f.ins.head? = some newline ∧
      (f.pos = m.old.length ∨ m.old[f.pos]? = some newline) then some (f.ins.tail, 1)
  else none

/-- The search of `moved` for the edit that carries the lines `gone`, `k` edits
lying before the ones listed. -/
def carrier (e : Edit) (gone : Bytes) (j col : Nat) : Nat → List Edit → Option Nat
  | _, [] => none
  | k, f :: fs =>
    if f.del ≠ 0 ∨ f.pos = e.pos then carrier e gone j col (k + 1) fs
    else
      match m.insertedBody f with
      | none => carrier e gone j col (k + 1) fs
      | some (body, first) =>
        if body ≠ gone then carrier e gone j col (k + 1) fs
        else
          let at' := ((f.pos : Int) + m.prefixDelta k).toNat + first
          let start := (((splitLines body).take j).map fun l => l.length + 1).sum
          some (m.atCol (at' + start) col)

/-- Line `j` of the whole-line block the pure delete `e` removes, when the same
change inserts those very lines elsewhere. -/
def moved (e : Edit) (j col : Nat) (lead : Bool) : Option Nat :=
  if ¬ e.ins.isEmpty then none
  else
    let gone := slice m.old (e.pos + lead.toNat) e.endPos
    if lead then m.carrier e gone j col 0 m.edits
    else if gone.getLast? = some newline then m.carrier e gone.dropLast j col 0 m.edits
    else none

/-- The start offsets in `ins` of the inserted lines. -/
def insertedStarts (ins : Bytes) (lead : Bool) : List Nat :=
  (if !lead && !ins.isEmpty then [0] else []) ++
    (List.range ins.length).filterMap fun k =>
      if ins[k]? = some newline ∧ (lead ∨ k + 1 < ins.length) then some (k + 1) else none

/-- Line `j` of the whole-line block `e` replaces, at `base` in the new text. -/
def replaced (e : Edit) (base j col : Nat) (gravity : LineGravity) (lead : Bool) : Option Nat :=
  let starts := insertedStarts e.ins lead
  match starts[j]? with
  | some s => some (m.atCol (base + s) col)
  | none =>
    match gravity with
    | .drop => none
    | .keep =>
      let after := base + e.ins.length + (lead && e.endPos < m.old.length).toNat
      some (m.atCol (m.newLineStart after) col)
    | .cursor =>
      some <| match starts.getLast? with
        | some s => base + s
        | none =>
          if lead then lineStart m.new base
          else if base = 0 then 0
          else lineStart m.new (base - 1)

/-- What the loop of `map_offset` finds: the line is only shifted, or an edit
reaches it and says where the position goes. -/
inductive Reach where
  | shifted (delta : Int)
  | reached (dest : Option Nat)

/-- The loop of `map_offset` for the position at `o` on the line `[ls, le]`. -/
def reach (gravity : LineGravity) (o ls le : Nat) : List Edit → Int → Reach
  | [], delta => .shifted delta
  | e :: es, delta =>
    let col := o - ls
    let base := ((e.pos : Int) + delta).toNat
    if e.pos > ls then .shifted delta
    else if e.endPos = ls ∧ e.pos < ls ∧ (m.startAligned e ∨ ¬ m.endAligned e) then
      -- ends at this line's start: lines above it went or a join reached up to it
      reach gravity o ls le es (delta + e.delta)
    else if e.del = 0 ∧ e.pos = ls ∧ e.ins.getLast? = some newline then
      -- whole lines inserted above this one
      reach gravity o ls le es (delta + e.delta)
    else if m.startAligned e ∧ ls < e.endPos then
      let j := countNewlines (slice m.old e.pos ls)
      .reached ((m.moved e j col false).or (m.replaced e base j col gravity false))
    else if e.pos < ls ∧ m.endAligned e then
      let j := countNewlines (slice m.old (e.pos + 1) ls)
      .reached ((m.moved e j col true).or (m.replaced e base j col gravity true))
    else if e.pos < ls then
      -- a charwise edit runs into this line from above
      .reached <|
        if e.endPos > le then
          match gravity with
          | .drop => none
          | .keep => some (base + e.ins.length)
          | .cursor => some (lineStart m.new base)
        else if e.ins.isEmpty ∧ ¬ m.isJoin e then
          let start := lineStart m.new base
          some (m.atCol start (base - start + col))
        else if o ≥ e.endPos then some ((o : Int) + delta + e.delta).toNat
        else some (base + e.ins.length)
    else .shifted delta

/-- Where the position at `o` goes, or `none` when its line was deleted and
`gravity` is `drop`. -/
def mapOffset (o : Nat) (gravity : LineGravity) : Option Nat :=
  let o := min o m.old.length
  let ls := lineStart m.old o
  let le := lineEnd m.old o
  let skipped := (m.edits.takeWhile fun e => e.endPos < ls).length
  match m.reach gravity o ls le (m.edits.drop skipped) (m.prefixDelta skipped) with
  | .reached dest => dest.map (snap m.new)
  | .shifted delta => some (snap m.new (m.atCol ((ls : Int) + delta).toNat (o - ls)))

end LineMap

/-! ## Positions carried by their owner -/

/-- A position a document carries through its changes for an owner outside the
anchor store. -/
structure Tracked where
  pos : Option Nat
  track : Track
  restore : Bool
deriving DecidableEq, Repr

/-- A position followed by line that undo does not restore. -/
def Tracked.line (pos : Option Nat) (gravity : LineGravity) : Tracked := ⟨pos, .line gravity, false⟩

/-- Mark a position as one undo restores. -/
def Tracked.restored (t : Tracked) : Tracked := { t with restore := true }

/-- Carry a tracked position through one change. -/
def Tracked.apply (t : Tracked) (m : LineMap) : Tracked :=
  { t with
    pos := t.pos.bind fun p =>
      match t.track with
      | .byte bias => some (snap m.new (mapByteInside m.edits p bias).1)
      | .line g => m.mapOffset p g }

end Ruse.Core
