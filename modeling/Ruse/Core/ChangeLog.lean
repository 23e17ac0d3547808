import Ruse.Core.Undo

/-!
# The drainable change log

The model of `crates/core/src/change_log.rs`: entries that chain revision to
revision, a bound past which everything is dropped, and the drain that hands over
what was recorded or asks for a checkpoint.
-/

namespace Ruse.Core

/-- How an entry moved the undo tree, nodes named by their `seq`. -/
inductive ChangeKind where
  | fresh (node parent : Nat)
  | navigate (toNode : Nat)
deriving DecidableEq, Repr

/-- One applied change: `forward` took the text at `baseRevision` to the text at
`resultRevision`, and `inverse` takes it back. -/
structure ChangeEntry where
  baseRevision : Nat
  resultRevision : Nat
  origin : TransactionOrigin
  groupHint : GroupHint
  forward : EditList
  inverse : EditList
  kind : ChangeKind
deriving DecidableEq

/-- The per-edit cost counted on top of its inserted bytes. -/
def editOverhead : Nat := 16

def listBytes (list : EditList) : Nat := (list.edits.map fun e => e.ins.length + editOverhead).sum

/-- The bytes an entry holds against the cap. -/
def ChangeEntry.payloadBytes (e : ChangeEntry) : Nat := listBytes e.forward + listBytes e.inverse

structure ChangeLogCap where
  entries : Nat
  bytes : Nat
deriving DecidableEq, Repr

/-- 4096 entries or 8 MiB of edit payload. -/
def ChangeLogCap.default : ChangeLogCap := ⟨4096, 8 * 2 ^ 20⟩

/-- Why a drain has no deltas to give. -/
inductive CheckpointReason where
  | notRecording
  | started
  | overflow
deriving DecidableEq, Repr

/-- What a drain hands the journal writer. -/
inductive ChangeDrain where
  | changes (entries : List ChangeEntry)
  | checkpoint (reason : CheckpointReason) (text : Bytes) (revision node : Nat)
deriving DecidableEq

structure ChangeLog where
  recording : Bool
  entries : List ChangeEntry
  bytes : Nat
  /-- Set when the entries since the last drain are unusable. -/
  lost : Option CheckpointReason
  cap : ChangeLogCap

namespace ChangeLog

def default : ChangeLog := ⟨false, [], 0, none, .default⟩

/-- Whether a change should be offered to `push`. -/
def wants (l : ChangeLog) : Bool := l.recording && l.lost.isNone

def clear (l : ChangeLog) : ChangeLog := { l with entries := [], bytes := 0, lost := none }

def setRecording (l : ChangeLog) (on : Bool) : ChangeLog :=
  if on = l.recording then l
  else
    let l := { l with recording := on }.clear
    if on then { l with lost := some .started } else l

def setCap (l : ChangeLog) (cap : ChangeLogCap) : ChangeLog := { l with cap }

/-- Append `entry`, or overflow if it would pass the cap. -/
def push (l : ChangeLog) (entry : ChangeEntry) : ChangeLog :=
  if ¬ l.wants then l
  else
    let bytes := l.bytes + entry.payloadBytes
    if l.entries.length ≥ l.cap.entries ∨ bytes > l.cap.bytes then
      { l.clear with lost := some .overflow }
    else { l with bytes, entries := l.entries ++ [entry] }

/-- Hand over what was recorded and start again. -/
def drain (l : ChangeLog) (text : Bytes) (revision node : Nat) : ChangeLog × ChangeDrain :=
  let reason := if l.recording then l.lost else some .notRecording
  match reason with
  | some reason => (l.clear, .checkpoint reason text revision node)
  | none => ({ l with bytes := 0, entries := [] }, .changes l.entries)

/-! ## The chain of entries -/

/-- The entries chain from revision `r` to revision `r'` without gap, and take
the text `a` to `b` forwards and `b` back to `a` by their inverses. -/
inductive Chain : Nat → Bytes → List ChangeEntry → Nat → Bytes → Prop
  | nil (r : Nat) (a : Bytes) : Chain r a [] r a
  | snoc {r r' : Nat} {a b : Bytes} {es : List ChangeEntry} {e : ChangeEntry} :
      Chain r a es r' b → e.baseRevision = r' → e.resultRevision = r' + 1 →
      e.forward.InBounds b.length → e.inverse = e.forward.inverse b →
      Chain r a (es ++ [e]) e.resultRevision (e.forward.applyTo b)

end ChangeLog

end Ruse.Core
