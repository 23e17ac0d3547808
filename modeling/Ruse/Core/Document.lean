import Ruse.Core.AnchorStore
import Ruse.Core.LineUndo
import Ruse.Core.ChangeLog
import Ruse.Core.UndoCursor
import Ruse.Lib.Run

/-!
# The document

The model of `crates/core/src/document.rs`: the bytes, the revision, and what is
carried with every change (anchors, tracked positions, the line index, the line
`U` restores, the marks undo puts back, the change log). `Op` lists the
document's operations and `step` performs one, so that a run of them is a run of
the machine `step`.
-/

namespace Ruse.Core

/-- Why a transaction could not be applied. -/
inductive TxnError where
  | staleBaseRevision (base current : Nat)
  | outOfRange (pos del len : Nat)
deriving DecidableEq, Repr

structure Document where
  text : Bytes
  revision : Nat
  anchors : AnchorStore
  undo : UndoHistory
  /-- Where every line starts, made on first use after each change. -/
  lineStarts : Option (List Nat)
  /-- The line starts before the last change and its edits. -/
  lineStartsBefore : Option (List Nat × EditList)
  savedNode : Option Nat
  lineUndo : LineUndo
  /-- An open undo block: `some joining`. -/
  undoBlock : Option Bool
  /-- Per undo group, the restorable positions as they were when it began. -/
  markUndo : Nat → Option (List (Option Nat))
  pinned : List Tracked
  changes : ChangeLog
  modifiable : Bool

/-- Where every line of `text` starts. -/
def lineStartsOf (text : Bytes) : List Nat :=
  0 :: (List.range text.length).filterMap fun i =>
    if text[i]? = some newline then some (i + 1) else none

/-- The loop of `carried_line_starts` over the starts left to carry. -/
def carryStarts : List Nat → Int → List Edit → List Nat
  | starts, delta, [] => starts.map fun (s : Nat) => ((s : Int) + delta).toNat
  | starts, delta, e :: es =>
    let kept := starts.takeWhile (· ≤ e.pos)
    let rest := (starts.drop kept.length).dropWhile (· ≤ e.endPos)
    let at' := ((e.pos : Int) + delta).toNat
    kept.map (fun (s : Nat) => ((s : Int) + delta).toNat) ++
      ((List.range e.ins.length).filterMap fun j =>
        if e.ins[j]? = some newline then some (at' + j + 1) else none) ++
      carryStarts rest (delta + e.delta) es

/-- The line starts of the text `edits` made, from the starts of the text before
them. -/
def carriedLineStarts (starts : List Nat) (edits : EditList) : List Nat :=
  0 :: carryStarts starts.tail 0 edits.edits

/-- The positions of the restorable ones. -/
def restorable (tracked : List Tracked) : List (Option Nat) :=
  (tracked.filter Tracked.restore).map Tracked.pos

/-- Give the restorable positions the values `saved` that are set. -/
def restoreTracked (text : Bytes) : List Tracked → List (Option Nat) → List Tracked
  | [], _ => []
  | t :: ts, saved =>
    if t.restore then
      match saved with
      | [] => t :: ts
      | s :: rest =>
        (match s with
          | some p => { t with pos := some (snap text (min p text.length)) }
          | none => t) :: restoreTracked text ts rest
    else t :: restoreTracked text ts saved

namespace Document

/-- A document of `initial` bytes at `revision`. -/
def startingAt (initial : Bytes) (revision : Nat) : Document where
  text := initial
  revision
  anchors := .new
  undo := .new revision
  lineStarts := none
  lineStartsBefore := none
  savedNode := none
  lineUndo := .default
  undoBlock := none
  markUndo := fun _ => none
  pinned := []
  changes := .default
  modifiable := true

/-- Open a document at revision zero. -/
def new (initial : Bytes) : Document := startingAt initial 0

/-- A document that replaces one whose revision was `last`. -/
def replacing (initial : Bytes) (last : Nat) : Document := startingAt initial (last + 1)

/-- The line starts, built on the first call after a change and kept. -/
def lookupLines (d : Document) : Document × List Nat :=
  let starts := d.lineStarts.getD <|
    match d.lineStartsBefore with
    | some (starts, edits) => carriedLineStarts starts edits
    | none => lineStartsOf d.text
  ({ d with lineStarts := some starts }, starts)

/-- Keep the line starts made before a change for the next lookup to carry
through `edits`. -/
def carryLineStarts (d : Document) (edits : EditList) : Document :=
  { d with
    lineStarts := none
    lineStartsBefore := d.lineStarts.map fun starts => (starts, edits) }

/-- Carry the caller's `tracked` and the pinned positions through one change from
`old` to the current text. -/
def trackChange (d : Document) (old : Bytes) (edits : EditList) (tracked : List Tracked) :
    Document × List Tracked :=
  let map : LineMap := ⟨old, d.text, edits.edits⟩
  ({ d with pinned := d.pinned.map (·.apply map) }, tracked.map (·.apply map))

/-- Carry positions with every change from now on; where they start in the
pinned list. -/
def pinTracked (d : Document) (tracked : List Tracked) : Document × Nat :=
  ({ d with pinned := d.pinned ++ tracked.map fun t => { t with restore := false } },
    d.pinned.length)

def takePinned (d : Document) : Document × List Tracked := ({ d with pinned := [] }, d.pinned)

def createLineAnchor (d : Document) (offset : Nat) (gravity : LineGravity) :
    Document × AnchorId :=
  let (anchors, id) := d.anchors.insertLine offset gravity
  ({ d with anchors }, id)

def createAnchor (d : Document) (offset : Nat) (bias : Bias) (policy : AnchorPolicy) :
    Document × AnchorId :=
  let (anchors, id) := d.anchors.insert offset bias policy
  ({ d with anchors }, id)

def removeAnchor (d : Document) (id : AnchorId) : Document × Bool :=
  let (anchors, removed) := d.anchors.remove id
  ({ d with anchors }, removed)

/-- An empty edit list changes nothing but the revision. -/
def applyEmpty (d : Document) (txn : Transaction) : Document :=
  { d with
    revision := d.revision + 1
    changes := d.changes.push
      { baseRevision := d.revision, resultRevision := d.revision + 1, origin := txn.origin,
        groupHint := txn.groupHint, forward := .empty, inverse := .empty,
        kind := .navigate d.undo.currentSeq } }

/-- The grouping a change is recorded with, and the undo block after it. -/
def blockHint (d : Document) (hint : GroupHint) : GroupHint × Option Bool :=
  match d.undoBlock with
  | some true => (.joinPrev, some true)
  | some false => (hint, some true)
  | none => (hint, none)

/-- The committed path of `apply_inner`: the edits are in bounds and not empty. -/
def commit (d : Document) (txn : Transaction) (track : Bool) (tracked : List Tracked) :
    Document × List Tracked :=
  let inverse := txn.edits.inverse d.text
  let lineUndo :=
    if track then d.lineUndo.onEdit d.text txn.edits (txn.groupHint = .breakBefore)
    else d.lineUndo
  let saved := restorable tracked
  let old := d.text
  let prev := d.revision
  let d := { d with text := txn.edits.applyTo old, lineUndo }
  let d := d.carryLineStarts txn.edits
  let (d, tracked) := d.trackChange old txn.edits tracked
  let d :=
    { d with revision := prev + 1, anchors := d.anchors.applyChange old d.text txn.edits }
  let (hint, undoBlock) := d.blockHint txn.groupHint
  let cursor := txn.cursor.getD <|
    match txn.edits.edits.head? with
    | some e => lineStart d.text e.pos
    | none => 0
  let groupBefore := d.undo.currentGroup
  let parent := d.undo.currentSeq
  let undo := d.undo.record txn.edits inverse txn.origin hint d.revision cursor
  let changes := d.changes.push
    { baseRevision := prev, resultRevision := d.revision, origin := txn.origin,
      groupHint := txn.groupHint, forward := txn.edits, inverse,
      kind := .fresh undo.currentSeq parent }
  let group := undo.currentGroup
  let markUndo :=
    if group ≠ groupBefore ∧ saved ≠ [] then
      fun g => if g = group then some saved else d.markUndo g
    else d.markUndo
  ({ d with undoBlock, undo, changes, markUndo }, tracked)

/-- Apply a transaction; on an error the document is left as it is. -/
def applyInner (d : Document) (txn : Transaction) (track : Bool) (tracked : List Tracked) :
    Except TxnError (Document × List Tracked) :=
  if txn.baseRevision ≠ d.revision then
    .error (.staleBaseRevision txn.baseRevision d.revision)
  else
    match txn.edits.checkBounds d.text.length with
    | .error (.outOfRange pos del len) => .error (.outOfRange pos del len)
    -- `check_bounds` never answers `Overlap`
    | .error (.overlap p q) => .error (.outOfRange p q d.text.length)
    | .ok () =>
      if txn.edits.isEmpty then .ok (d.applyEmpty txn, tracked)
      else .ok (d.commit txn track tracked)

/-- `Document::apply_tracked`; `Document::apply` gives it no positions. -/
def applyTracked (d : Document) (txn : Transaction) (tracked : List Tracked) :
    Except TxnError (Document × List Tracked) := d.applyInner txn true tracked

/-- Open an undo block; one already open is left as it is. -/
def beginUndoBlock (d : Document) : Document :=
  { d with undoBlock := some (d.undoBlock.getD false) }

def endUndoBlock (d : Document) : Document := { d with undoBlock := none }

def syncUndo (d : Document) : Document := { d with undo := d.undo.sync }

/-- Whether the buffer differs from what is on disk, by undo node identity. -/
def isModified (d : Document) : Bool := d.savedNode != some d.undo.currentSeq

/-- Mark the current state as the one on disk, and close the undo group. -/
def markSaved (d : Document) : Document :=
  { d with savedNode := some d.undo.currentSeq, undo := d.undo.sync }

def markUnsaved (d : Document) : Document := { d with savedNode := none }

def setModifiable (d : Document) (on : Bool) : Document := { d with modifiable := on }

/-! ## Undo, redo and the chronological moves -/

/-- Re-apply an edit list as a navigation step. -/
def reapply (d : Document) (edits : EditList) (toNode : Nat) (origin : Option TransactionOrigin)
    (tracked : List Tracked) : Document × List Tracked :=
  let old := d.text
  let changes := d.changes.push
    { baseRevision := d.revision, resultRevision := d.revision + 1,
      origin := origin.getD .userInput, groupHint := .continue', forward := edits,
      inverse := edits.inverse old, kind := .navigate toNode }
  let d :=
    { d with
      text := edits.applyTo old, lineUndo := d.lineUndo.onReapply old edits, changes }
  let d := d.carryLineStarts edits
  let d :=
    { d with revision := d.revision + 1, anchors := d.anchors.applyChange old d.text edits }
  d.trackChange old edits tracked

/-- Put the restorable positions back as undo group `group` saved them, keeping
`before` for the way back. -/
def restoreMarks (d : Document) (group : Nat) (before : List (Option Nat))
    (tracked : List Tracked) : Document × List Tracked :=
  match d.markUndo group with
  | none => (d, tracked)
  | some saved =>
    ({ d with markUndo := fun g => if g = group then some before else d.markUndo g },
      restoreTracked d.text tracked saved)

/-- What the loop of `replay` threads. -/
structure Replay where
  doc : Document
  tracked : List Tracked
  entries : List Entry
  uh : Nat × Nat
  linesBefore : Nat
  before : List (Option Nat)

/-- One round of the loop of `replay`: edit list `i` of the step. -/
def replayOne (step : UndoStep) (r : Replay) (p : EditList × Nat) : Replay :=
  let (edits, i) := p
  let group := step.groups[i]?
  let before :=
    if i = 0 ∨ step.groups[i - 1]? ≠ group then restorable r.tracked else r.before
  let linesBefore :=
    if i = step.tail then UndoCursor.lineCount r.doc.text else r.linesBefore
  let uh :=
    if i = step.tail ∧ step.forward then UndoCursor.lineCol r.doc.text step.cursor else r.uh
  let old := r.doc.text
  let node := step.nodes.getD i (0, none)
  let (doc, tracked) := r.doc.reapply edits node.1 node.2 r.tracked
  let entries :=
    if i ≥ step.tail then r.entries ++ UndoCursor.entries old doc.text edits else r.entries
  match group with
  | some g =>
    if step.groups[i + 1]? ≠ some g then
      let (doc, tracked) := doc.restoreMarks g before tracked
      ⟨doc, tracked, entries, uh, linesBefore, []⟩
    else ⟨doc, tracked, entries, uh, linesBefore, before⟩
  | none => ⟨doc, tracked, entries, uh, linesBefore, before⟩

/-- Apply an undo step and place the cursor from its last group. -/
def replay (d : Document) (step : UndoStep) (cursor : Nat) (tracked : List Tracked) :
    Document × List Tracked × UndoCursor.Placed :=
  let curLine := lineOf d.text cursor
  let r := step.edits.zipIdx.foldl (replayOne step)
    ⟨d, tracked, [], (0, 0), UndoCursor.lineCount d.text, []⟩
  let uh := if step.forward then r.uh else UndoCursor.lineCol r.doc.text step.cursor
  let lines := UndoCursor.lineCount r.doc.text
  let placed := UndoCursor.place r.entries uh curLine lines
  (r.doc, r.tracked,
    { placed with marks := UndoCursor.changeMarks r.entries r.linesBefore lines })

def undoTracked (d : Document) (cursor : Nat) (tracked : List Tracked) :
    Option (Document × List Tracked × UndoCursor.Placed) :=
  d.undo.undo.map fun (h, step) => { d with undo := h }.replay step cursor tracked

def redoTracked (d : Document) (cursor : Nat) (tracked : List Tracked) :
    Option (Document × List Tracked × UndoCursor.Placed) :=
  d.undo.redo.map fun (h, step) => { d with undo := h }.replay step cursor tracked

/-- `g-` (`older`) / `g+`. -/
def chronologicalTracked (d : Document) (older : Bool) (cursor : Nat) (tracked : List Tracked) :
    Option (Document × List Tracked × UndoCursor.Placed) :=
  (d.undo.toChronological older).map fun (h, step) =>
    { d with undo := h }.replay step cursor tracked

/-! ## `U`, and a reload -/

def primeLineUndo (d : Document) (cursor : Nat) (newCommand : Bool) : Document :=
  { d with lineUndo := d.lineUndo.prime cursor newCommand }

def clearLineUndo (d : Document) (disarm : Bool) : Document :=
  { d with lineUndo := d.lineUndo.clear disarm }

/-- `U`: put back the latest changed line, as one undoable change. The caret, or
`none` when there is nothing to restore. -/
def lineUndoTracked (d : Document) (cursor : Nat) (origin : TransactionOrigin)
    (tracked : List Tracked) : Document × List Tracked × Option Nat :=
  match d.lineUndo.swap d.text cursor with
  | (lineUndo, none) => ({ d with lineUndo }, tracked, none)
  | (lineUndo, some sw) =>
    let d := { d with lineUndo }
    match EditList.new [Edit.replace sw.start (sw.stop - sw.start) sw.text] with
    | .error _ => (d, tracked, none)
    | .ok list =>
      let txn := ((Transaction.new d.revision list origin).withHint .breakBefore).withCursor cursor
      match d.applyInner txn false tracked with
      | .error _ => (d, tracked, none)
      | .ok (d, tracked) => (d, tracked, some (sw.start + min sw.col sw.text.length))

/-- Re-read the text as `bytes` in one undo step of its own, then mark the result
saved. Whether it applied. -/
def reloadTracked (d : Document) (bytes : Bytes) (tracked : List Tracked) :
    Document × List Tracked × Bool :=
  match EditList.new [Edit.linesChanged d.text bytes] with
  | .error _ => (d, tracked, false)
  | .ok edits =>
    let txn := Transaction.new d.revision edits .userInput
    let d := d.syncUndo
    match d.applyTracked txn tracked with
    | .error _ => (d.syncUndo.markSaved, tracked, false)
    | .ok (d, tracked) => (d.syncUndo.markSaved, tracked, true)

/-! ## The change log -/

def recordChanges (d : Document) (on : Bool) : Document :=
  { d with changes := d.changes.setRecording on }

def setChangeLogCap (d : Document) (cap : ChangeLogCap) : Document :=
  { d with changes := d.changes.setCap cap }

/-- Hand over every change since the last drain, and clear the log. -/
def drainChanges (d : Document) : Document × ChangeDrain :=
  let (changes, out) := d.changes.drain d.text d.revision d.undo.currentSeq
  ({ d with changes }, out)

/-! ## Runs -/

/-- The operations of a document, with their arguments. -/
inductive Op where
  | apply (txn : Transaction) (tracked : List Tracked)
  | undo (cursor : Nat) (tracked : List Tracked)
  | redo (cursor : Nat) (tracked : List Tracked)
  | chronological (older : Bool) (cursor : Nat) (tracked : List Tracked)
  | syncUndo
  | beginUndoBlock
  | endUndoBlock
  | markSaved
  | markUnsaved
  | lineUndo (cursor : Nat) (origin : TransactionOrigin) (tracked : List Tracked)
  | reload (bytes : Bytes) (tracked : List Tracked)
  | primeLineUndo (cursor : Nat) (newCommand : Bool)
  | clearLineUndo (disarm : Bool)
  | recordChanges (on : Bool)
  | setChangeLogCap (cap : ChangeLogCap)
  | drainChanges
  | lookupLines
  | pinTracked (tracked : List Tracked)
  | takePinned
  | createAnchor (offset : Nat) (bias : Bias) (policy : AnchorPolicy)
  | createLineAnchor (offset : Nat) (gravity : LineGravity)
  | removeAnchor (id : AnchorId)
  | setModifiable (on : Bool)

/-- Perform one operation; one that fails leaves the document as it is. -/
def step (d : Document) : Op → Document
  | .apply txn tracked =>
    match d.applyTracked txn tracked with
    | .ok (d', _) => d'
    | .error _ => d
  | .undo cursor tracked => ((d.undoTracked cursor tracked).map Prod.fst).getD d
  | .redo cursor tracked => ((d.redoTracked cursor tracked).map Prod.fst).getD d
  | .chronological older cursor tracked =>
    ((d.chronologicalTracked older cursor tracked).map Prod.fst).getD d
  | .syncUndo => d.syncUndo
  | .beginUndoBlock => d.beginUndoBlock
  | .endUndoBlock => d.endUndoBlock
  | .markSaved => d.markSaved
  | .markUnsaved => d.markUnsaved
  | .lineUndo cursor origin tracked => (d.lineUndoTracked cursor origin tracked).1
  | .reload bytes tracked => (d.reloadTracked bytes tracked).1
  | .primeLineUndo cursor newCommand => d.primeLineUndo cursor newCommand
  | .clearLineUndo disarm => d.clearLineUndo disarm
  | .recordChanges on => d.recordChanges on
  | .setChangeLogCap cap => d.setChangeLogCap cap
  | .drainChanges => d.drainChanges.1
  | .lookupLines => d.lookupLines.1
  | .pinTracked tracked => (d.pinTracked tracked).1
  | .takePinned => d.takePinned.1
  | .createAnchor offset bias policy => (d.createAnchor offset bias policy).1
  | .createLineAnchor offset gravity => (d.createLineAnchor offset gravity).1
  | .removeAnchor id => (d.removeAnchor id).1
  | .setModifiable on => d.setModifiable on

end Document

end Ruse.Core
