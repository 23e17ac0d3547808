import Ruse.Core.Document
import Ruse.Persist.Rj01

/-!
# The journal writer

The model of `Writer` in `apps/tui/src/persist/journal.rs`: what `absorb` drains from
a document's change log into pending records, and what `flush` makes of the journal
file. The file system is a function from paths to contents. What the program cannot
know is an argument: the clock, the path `claim` picks, and which of the calls into
the operating system fail (`Io`). A removal succeeds, a failed append leaves the file as
it was, and a failed replacement at most an empty one where there was none.

Left out are the fields only the status reports and the sync policy read. A base hash
is the hash of its base, so the one started early (`hashing`) is the one started late.
-/

namespace Ruse.Persist

open Ruse.Core

abbrev Files (Path : Type) := Path → Option Bytes

/-- The process a journal names, and the digest it uses. -/
structure Host where
  owner : Owner
  sha256 : Bytes → Sha

/-- The readings of the clock in one call. -/
structure Clock where
  header : Nat
  marker : Nat
  /-- The reading for the edit record of a sequence number. -/
  edit : Nat → Nat

/-- What the operating system does in one flush. -/
structure Io (Path : Type) where
  clock : Clock
  /-- The path `claim` picks. -/
  claim : Path
  openFails : Bool
  appendFails : Bool
  dirFails : Bool
  writeFails : Bool
  /-- A failed replacement had already made the missing file. -/
  leavesEmpty : Bool

/-- A document larger than this is journaled against its disk text. -/
def largeFile : Nat := 32 * 2 ^ 20

/-- Buffered records past this are dropped for a Checkpoint. -/
def pendingCap : Nat := 8 * 2 ^ 20

def compactAfter : Nat := 2 ^ 20

/-- The most of a journal `readOwner` reads. -/
def headerMax : Nat := 64 * 2 ^ 10

/-- The owner a journal's Header names. -/
def readOwner (content : Option Bytes) : Option Owner :=
  content.bind fun bs =>
    match readRecord (bs.take headerMax) 0 with
    | .ok (.header h, _) => some h.owner
    | _ => none

/-- A large document's Header, held back until its base hash is known. -/
structure HeldHeader where
  base : Bytes
  fmt : FileFormat

/-- Where a `Writer`'s journal is. -/
inductive State where
  | idle
  | fresh
  | live
deriving DecidableEq, Repr

/-- Writes one file buffer's journal. -/
structure Writer (Path : Type) where
  journal : Path
  /-- The canonical document path. -/
  doc : Bytes
  fmt : FileFormat
  /-- The text at the last drain while there was no journal. -/
  base : Option Bytes
  state : State
  /-- The next flush replaces the journal with the current text. -/
  rewrite : Bool
  pending : Bytes
  onDisk : Nat
  sinceCheckpoint : Nat
  checkpointLen : Nat
  large : Bool
  held : Option HeldHeader
  seq : Nat

variable {Path : Type} [DecidableEq Path]

/-- The Header this process writes for a document. -/
def Host.header (host : Host) (canon : Bytes) (format : FileFormat) (base : Base)
    (createdMs : Nat) : Header := ⟨host.owner, canon, format, createdMs, base⟩

/-- A whole journal holding `text`: Header, Checkpoint, Marker. -/
def Host.whole (host : Host) (canon : Bytes) (format : FileFormat) (text : Bytes)
    (revision node : Nat) (clock : Clock) : Except FileTooLarge Bytes := do
  let header ← encodeHeader (host.header canon format .checkpoint clock.header)
  let checkpoint ← encodeCheckpoint node revision text
  let marker ← encodeMarker clock.marker
  return header ++ checkpoint ++ marker

/-- The Header of a journal whose base is a disk text. -/
def Host.diskHeader (host : Host) (canon : Bytes) (held : HeldHeader) (createdMs : Nat) : Header :=
  host.header canon held.fmt (.disk held.base.length (host.sha256 held.base)) createdMs

/-- `discard_file`: remove a journal whose Header names this process. -/
def Host.discardFile (host : Host) (files : Files Path) (path : Path) : Files Path :=
  if readOwner (files path) = some host.owner then Function.update files path none else files

/-- `write_private`: replace a file, or fail. -/
def writePrivate (files : Files Path) (path : Path) (bytes : Bytes) (os : Io Path) :
    Files Path × Bool :=
  if os.writeFails then
    if os.leavesEmpty ∧ files path = none then (Function.update files path (some []), false)
    else (files, false)
  else (Function.update files path (some bytes), true)

namespace Writer

/-- `Writer::new`, at the path `claim` picked. -/
def new (journal : Path) (doc : Bytes) (fmt : FileFormat) : Writer Path where
  journal
  doc
  fmt
  base := none
  state := .idle
  rewrite := false
  pending := []
  onDisk := 0
  sinceCheckpoint := 0
  checkpointLen := 0
  large := false
  held := none
  seq := 0

/-- Drop the journal and start over. -/
def discard (host : Host) (w : Writer Path) (files : Files Path) : Writer Path × Files Path :=
  ({ w with
      state := .idle, rewrite := false, held := none, pending := [], onDisk := 0,
      sinceCheckpoint := 0 },
    if w.state ≠ .idle then host.discardFile files w.journal else files)

/-- Begin a journal at the first change: Header and the base the change applied to. -/
def start (host : Host) (w : Writer Path) (first : Option ChangeEntry) (clock : Clock) :
    Writer Path :=
  let w := { w with state := .fresh, pending := [], sinceCheckpoint := 0 }
  match w.base with
  | none => { w with rewrite := true }
  | some base =>
    let w := { w with base := none, large := decide (base.length > largeFile) }
    -- a large file is not copied in: the journal names the disk text as its base
    if base.length > largeFile then
      { w with held := some ⟨base, w.fmt⟩, checkpointLen := 0 }
    else
      let revision := match first with
        | some e => e.baseRevision
        | none => 0
      let node := match first with
        | some ⟨_, _, _, _, _, _, .fresh _ parent⟩ => parent
        | _ => 0
      let w := { w with checkpointLen := base.length }
      match encodeHeader (host.header w.doc w.fmt .checkpoint clock.header),
        encodeCheckpoint node revision base with
      | .ok header, .ok checkpoint => { w with pending := header ++ checkpoint }
      | .ok header, .error _ => { w with pending := header, rewrite := true }
      | .error _, _ => { w with rewrite := true }

/-- The loop of `absorb` over the drained entries. -/
def encodeEntries (clock : Clock) (w : Writer Path) : List ChangeEntry → Writer Path
  | [] => w
  | e :: es =>
    let w := { w with seq := w.seq + 1 }
    match encodeEdit ⟨w.seq, clock.edit w.seq⟩ e with
    | .error _ => { w with rewrite := true }
    | .ok bs =>
      encodeEntries clock { w with
        pending := w.pending ++ bs
        sinceCheckpoint := w.sinceCheckpoint + bs.length } es

/-- A changed file format, noted in a journal that is begun. -/
def follow (w : Writer Path) (fmt : FileFormat) : Writer Path :=
  if fmt = w.fmt then w
  else
    let w := { w with fmt := fmt }
    if w.state ≠ .idle ∧ w.rewrite = false then
      match encodeMeta (.format fmt) with
      | .ok bs => { w with pending := w.pending ++ bs }
      | .error _ => w
    else w

/-- What a drain of a modified buffer adds to the pending records. -/
def take (host : Host) (w : Writer Path) (clock : Clock) : ChangeDrain → Writer Path
  | .checkpoint _ _ _ _ =>
    { w with rewrite := true, state := if w.state = .idle then .fresh else w.state }
  | .changes [] => w
  | .changes (e :: es) =>
    let w := if w.state = .idle then w.start host (some e) clock else w
    -- a journal to be rewritten will hold the text itself
    if w.rewrite then w else w.encodeEntries clock (e :: es)

/-- What a rewrite makes of the pending records, at the end of `absorb`. -/
def trim (w : Writer Path) : Writer Path :=
  let w := if w.pending.length > pendingCap then { w with rewrite := true } else w
  if w.rewrite then { w with pending := [] } else w

/-- Drain the document's change log into the pending records. -/
def absorb (host : Host) (w : Writer Path) (files : Files Path) (doc : Document)
    (fmt : FileFormat) (clock : Clock) : Writer Path × Files Path × Document :=
  let doc := if doc.changes.recording then doc else doc.recordChanges true
  let (doc, drain) := doc.drainChanges
  if doc.isModified then (((w.follow fmt).take host clock drain).trim, files, doc)
  else
    let (w, files) := w.discard host files
    ({ w with base := some doc.text }, files, doc)

/-- Whether records wait to be written. -/
def unsynced (w : Writer Path) : Bool :=
  w.state != .idle && (w.rewrite || w.held.isSome || !w.pending.isEmpty)

inductive Appended (Path : Type) where
  | wrote (w : Writer Path) (files : Files Path)
  /-- The journal on disk is not the one this writer left. -/
  | other
  | failed

/-- Append the pending records and a Marker to the journal on disk. -/
def append (w : Writer Path) (files : Files Path) (os : Io Path) : Appended Path :=
  if os.openFails then .failed
  else match files w.journal with
    | none => .other
    | some bs =>
      -- someone else wrote to the file, or cut it short
      if bs.length ≠ w.onDisk then .other
      else match encodeMarker os.clock.marker with
        | .error _ => .failed
        | .ok tail =>
          if os.appendFails then .failed
          else .wrote { w with onDisk := w.onDisk + (w.pending.length + tail.length) }
            (Function.update files w.journal (some (bs ++ w.pending ++ tail)))

/-- The journal replaced by one that holds the current text. -/
def writeWhole (host : Host) (w : Writer Path) (files : Files Path) (doc : Document)
    (os : Io Path) : Writer Path × Files Path × Bool :=
  match host.whole w.doc w.fmt doc.text doc.revision doc.undo.currentSeq os.clock with
  | .error _ => (w, files, false)
  | .ok bytes =>
    match writePrivate files w.journal bytes os with
    | (files, false) => (w, files, false)
    | (files, true) =>
      ({ w with
          held := none, large := false, sinceCheckpoint := 0, checkpointLen := doc.text.length,
          onDisk := bytes.length }, files, true)

/-- A large document's fresh journal: its Header, then the records. -/
def writeHeld (host : Host) (w : Writer Path) (files : Files Path) (held : HeldHeader)
    (os : Io Path) : Writer Path × Files Path × Bool :=
  match encodeHeader (host.diskHeader w.doc held os.clock.header), encodeMarker os.clock.marker with
  | .ok header, .ok marker =>
    let out := header ++ w.pending ++ marker
    match writePrivate files w.journal out os with
    | (files, false) => (w, files, false)
    | (files, true) => ({ w with held := none, onDisk := out.length }, files, true)
  | _, _ => (w, files, false)

/-- A fresh journal: the pending records start with its Header. -/
def writeFresh (w : Writer Path) (files : Files Path) (os : Io Path) :
    Writer Path × Files Path × Bool :=
  match encodeMarker os.clock.marker with
  | .error _ => (w, files, false)
  | .ok marker =>
    match writePrivate files w.journal (w.pending ++ marker) os with
    | (files, false) => (w, files, false)
    | (files, true) => ({ w with onDisk := (w.pending ++ marker).length }, files, true)

/-- `write_out` where the journal is not appended to. -/
def writeNew (host : Host) (w : Writer Path) (files : Files Path) (doc : Document) (os : Io Path) :
    Writer Path × Files Path × Bool :=
  -- a name is claimed when the first record is written
  let w := if w.state ≠ .live then { w with journal := os.claim } else w
  if os.dirFails then (w, files, false)
  else if w.rewrite then w.writeWhole host files doc os
  else match w.held with
    | some held => w.writeHeld host files held os
    | none => w.writeFresh files os

def writeOut (host : Host) (w : Writer Path) (files : Files Path) (doc : Document) (os : Io Path) :
    Writer Path × Files Path × Bool :=
  if w.state = .live ∧ w.rewrite = false then
    match w.append files os with
    | .wrote w files => (w, files, true)
    | .failed => (w, files, false)
    | .other => writeNew host { w with rewrite := true } files doc os
  else w.writeNew host files doc os

/-- The edits since the last Checkpoint are compacted. -/
def compact (w : Writer Path) : Writer Path :=
  if w.state = .live ∧ w.large = false ∧ w.sinceCheckpoint > compactAfter ∧
      w.sinceCheckpoint > w.checkpointLen then
    { w with rewrite := true, pending := [] }
  else w

/-- Write the pending records and a Marker. On failure the records stay pending. -/
def flush (host : Host) (w : Writer Path) (files : Files Path) (doc : Document) (os : Io Path) :
    Writer Path × Files Path × Bool :=
  if w.unsynced then
    match w.compact.writeOut host files doc os with
    | (w, files, true) => ({ w with pending := [], rewrite := false, state := .live }, files, true)
    | (w, files, false) => (w, files, false)
  else (w, files, true)

end Writer

end Ruse.Persist
