import Ruse.Core.ChangeLog
import Ruse.Lib.Reader
import Ruse.Persist.Word

/-!
# The recovery-journal record format

The model of the encoder and the record reader of `apps/tui/src/persist/rj01.rs`,
with the file format of `encoding.rs` they carry. A journal is a stream of framed
records:

    magic "RJ01" | schema_ver u16 | kind u8 | flags u8 | payload_len u32 | header_crc u32
    payload
    payload_crc u32 | end_magic "rj01"

Numbers of the source's fixed widths are natural numbers here and are written
modulo their width; what fits is `Record.Sized`.
-/

namespace Ruse.Persist

open Ruse.Core
open Ruse.Lib
open Ruse.Lib.Reader

/-- A natural number that is a value of a 64-bit field. -/
abbrev Word (v : Nat) : Prop := v < wordLimit

/-- The largest value of a 32-bit field. -/
def u32Max : Nat := 2 ^ 32 - 1

/-- The line-ending style of a file. -/
inductive Eol where
  | lf
  | crlf
  | cr
deriving DecidableEq, Repr

/-- The original on-disk shape to restore on save. -/
structure FileFormat where
  eol : Eol
  bom : Bool
  finalNewline : Bool
  eof : Bool
  binary : Bool
deriving DecidableEq, Repr

/-- `FileFormat::default`. -/
def FileFormat.default : FileFormat := ⟨.lf, false, true, false, false⟩

/-- The record kinds, with the byte that names each. -/
inductive Kind where
  | header
  | checkpoint
  | edit
  | meta'
  | marker
deriving DecidableEq, Repr

def Kind.toU8 : Kind → Nat
  | header => 1
  | checkpoint => 2
  | edit => 3
  | meta' => 4
  | marker => 5

def Kind.fromU8 : Nat → Option Kind
  | 1 => some header
  | 2 => some checkpoint
  | 3 => some edit
  | 4 => some meta'
  | 5 => some marker
  | _ => none

structure Owner where
  pid : Nat
  host : Bytes
  startMs : Nat
deriving DecidableEq, Repr

def Sha : Type := { bs : Bytes // bs.length = 32 }
deriving DecidableEq

/-- What the edit records of a journal apply to. -/
inductive Base where
  | checkpoint
  | disk (len : Nat) (sha256 : Sha)
deriving DecidableEq

/-- The first record of every journal. -/
structure Header where
  owner : Owner
  path : Bytes
  format : FileFormat
  createdMs : Nat
  base : Base
deriving DecidableEq

inductive Meta where
  | savePoint (savedNode len : Nat) (sha256 : Sha)
  | format (f : FileFormat)
  | rename (path : Bytes)
deriving DecidableEq

/-- What the writer adds to a drained `ChangeEntry`. -/
structure EditMeta where
  seq : Nat
  timestampMs : Nat
deriving DecidableEq, Repr

structure EditRecord where
  meta' : EditMeta
  baseRevision : Nat
  resultRevision : Nat
  origin : TransactionOrigin
  groupHint : GroupHint
  kind : ChangeKind
  forward : EditList
  inverse : EditList
deriving DecidableEq

inductive Record where
  | header (h : Header)
  | checkpoint (node revision : Nat) (text : Bytes)
  | edit (e : EditRecord)
  | meta' (m : Meta)
  | marker (timeMs : Nat)
  | skipped
deriving DecidableEq

/-! ## The one-byte codes -/

/-- `crc32c`'s table entry for one byte. -/
def crcEntry (n : UInt32) : UInt32 :=
  (List.range 8).foldl (fun (c : UInt32) _ =>
    if c &&& 1 ≠ 0 then (0x82F63B78 : UInt32) ^^^ (c >>> 1) else c >>> 1) n

def crc32c (bytes : Bytes) : Nat :=
  let crc : UInt32 :=
    bytes.foldl (fun crc b => crcEntry ((crc ^^^ b.toUInt32) &&& 0xFF) ^^^ (crc >>> 8)) 0xFFFFFFFF
  (crc ^^^ 0xFFFFFFFF).toNat

theorem crc32c_lt (bytes : Bytes) : crc32c bytes < 256 ^ 4 := UInt32.toNat_lt _

/-- Bit 0 CRLF, bit 1 BOM, bit 2 final newline. -/
def formatBits (f : FileFormat) : Nat :=
  (if f.eol = .crlf then 1 else 0) ||| (if f.bom then 2 else 0) |||
    (if f.finalNewline then 4 else 0)

def formatFromBits (b : Nat) : FileFormat where
  eol := if b &&& 1 ≠ 0 then .crlf else .lf
  bom := b &&& 2 ≠ 0
  finalNewline := b &&& 4 ≠ 0
  eof := false
  binary := false

def originU8 : TransactionOrigin → Nat
  | .userInput => 0
  | .macro' => 1
  | .plugin => 2
  | .lsp => 3
  | .aiAgent => 4
  | .remotePeer => 5

def originFrom : Nat → Option TransactionOrigin
  | 0 => some .userInput
  | 1 => some .macro'
  | 2 => some .plugin
  | 3 => some .lsp
  | 4 => some .aiAgent
  | 5 => some .remotePeer
  | _ => none

def hintU8 : GroupHint → Nat
  | .continue' => 0
  | .breakBefore => 1
  | .joinPrev => 2

def hintFrom : Nat → Option GroupHint
  | 0 => some .continue'
  | 1 => some .breakBefore
  | 2 => some .joinPrev
  | _ => none

/-! ## Encoding -/

def magic : Bytes := [82, 74, 48, 49]

def endMagic : Bytes := [114, 106, 48, 49]

def schemaMajor : Nat := 1

def schemaMinor : Nat := 0

/-- The `schema_ver` this build writes. -/
def schema : Nat := schemaMajor * 256 + schemaMinor

def headSize : Nat := 16

def trailSize : Nat := 8

/-- A payload past `u32::MAX` bytes is refused. -/
structure FileTooLarge where
  len : Nat
deriving DecidableEq, Repr

def putU8 (v : Nat) : Bytes := leBytes 1 v

def putU32 (v : Nat) : Bytes := leBytes 4 v

def putU64 (v : Nat) : Bytes := leBytes 8 v

/-- The twelve bytes `header_crc` covers. -/
def frameHead (kind : Kind) (len : Nat) : Bytes :=
  magic ++ leBytes 2 schema ++ putU8 kind.toU8 ++ putU8 0 ++ putU32 len

def frame (kind : Kind) (payload : Bytes) : Except FileTooLarge Bytes :=
  if payload.length ≤ u32Max then
    let head := frameHead kind payload.length
    .ok (head ++ putU32 (crc32c head) ++ payload ++ putU32 (crc32c payload) ++ endMagic)
  else .error ⟨payload.length⟩

/-- A length-prefixed byte string. The frame refuses a record whose length does
not fit. -/
def putBytes (b : Bytes) : Bytes := putU32 (min b.length u32Max) ++ b

def putEdit (e : Edit) : Bytes := putU64 e.pos ++ putU64 e.del ++ putBytes e.ins

def putList (l : EditList) : Bytes :=
  putU32 (min l.edits.length u32Max) ++ l.edits.flatMap putEdit

def putBase : Base → Bytes
  | .checkpoint => putU8 0
  | .disk len sha256 => putU8 1 ++ putU64 len ++ sha256.val

def putKind : ChangeKind → Bytes
  | .fresh node parent => putU8 0 ++ putU64 node ++ putU64 parent
  | .navigate toNode => putU8 1 ++ putU64 toNode

def encodeHeader (h : Header) : Except FileTooLarge Bytes :=
  frame .header (putU32 h.owner.pid ++ putBytes h.owner.host ++ putU64 h.owner.startMs ++
    putBytes h.path ++ putU8 (formatBits h.format) ++ putU64 h.createdMs ++ putBase h.base)

def encodeCheckpoint (node revision : Nat) (text : Bytes) : Except FileTooLarge Bytes :=
  frame .checkpoint (putU64 node ++ putU64 revision ++ putU64 text.length ++ text)

/-- One drained change as an Edit record. -/
def encodeEdit (m : EditMeta) (e : ChangeEntry) : Except FileTooLarge Bytes :=
  frame .edit (putU64 m.seq ++ putU64 e.baseRevision ++ putU64 e.resultRevision ++
    putU8 (originU8 e.origin) ++ putU8 (hintU8 e.groupHint) ++ putU64 m.timestampMs ++
    putKind e.kind ++ putList e.forward ++ putList e.inverse)

def putMeta : Meta → Bytes
  | .savePoint savedNode len sha256 => putU8 0 ++ putU64 savedNode ++ putU64 len ++ sha256.val
  | .format f => putU8 1 ++ putU8 (formatBits f)
  | .rename path => putU8 2 ++ putBytes path

def encodeMeta (m : Meta) : Except FileTooLarge Bytes := frame .meta' (putMeta m)

def encodeMarker (timeMs : Nat) : Except FileTooLarge Bytes := frame .marker (putU64 timeMs)

/-- The change an Edit record records. -/
def EditRecord.entry (e : EditRecord) : ChangeEntry where
  baseRevision := e.baseRevision
  resultRevision := e.resultRevision
  origin := e.origin
  groupHint := e.groupHint
  forward := e.forward
  inverse := e.inverse
  kind := e.kind

/-- The record written by the encoder of its kind. A skipped record has none. -/
def Record.encode : Record → Option (Except FileTooLarge Bytes)
  | .header h => some (encodeHeader h)
  | .checkpoint node revision text => some (encodeCheckpoint node revision text)
  | .edit e => some (encodeEdit e.meta' e.entry)
  | .meta' m => some (encodeMeta m)
  | .marker timeMs => some (encodeMarker timeMs)
  | .skipped => none

/-! ## Decoding a payload -/

/-- A bounds-checked cursor over one payload. A read stops with no error of its own
where the payload does not decode, and with a fault where the arithmetic does. -/
abbrev Cursor (α : Type) := Reader (Option Fault) α

namespace Cursor

def u8 : Cursor Nat := readLe none 1

def u32 : Cursor Nat := readLe none 4

def u64 : Cursor Nat := readLe none 8

def bytes : Cursor Bytes := do
  let n ← u32
  take none n

def sha : Cursor Sha := fun bs =>
  if h : 32 ≤ bs.length then .ok (⟨bs.take 32, by simpa using h⟩, bs.drop 32) else .error none

/-- What a code stands for, if anything. -/
def known {α : Type} : Option α → Cursor α
  | some a => pure a
  | none => stop none

def edit : Cursor Edit := do
  let pos ← u64
  let del ← u64
  let ins ← bytes
  return Edit.replace pos del ins

/-- The edits of a list, as the loop of `list` collects them. Each takes at least
twenty bytes, so a count the payload cannot hold is refused first. -/
def edits : Cursor (List Edit) := do
  let n ← u32
  let left ← rest
  if n > left / 20 then stop none
  else count edit n

def build (es : List Edit) : Cursor EditList :=
  match newWord es with
  | .error f => stop (some f)
  | .ok (.error _) => stop none
  | .ok (.ok l) => pure l

def list : Cursor EditList := do
  let es ← edits
  build es

end Cursor

open Cursor

def decodeBase : Cursor Base := do
  match ← u8 with
  | 0 => return .checkpoint
  | 1 => return .disk (← u64) (← sha)
  | _ => stop none

def decodeHeader : Cursor Header := do
  let pid ← u32
  let host ← bytes
  let startMs ← u64
  let path ← bytes
  let format ← u8
  let createdMs ← u64
  let base ← decodeBase
  return ⟨⟨pid, host, startMs⟩, path, formatFromBits format, createdMs, base⟩

def decodeKind : Cursor ChangeKind := do
  match ← u8 with
  | 0 => return .fresh (← u64) (← u64)
  | 1 => return .navigate (← u64)
  | _ => stop none

/-- The fields of an Edit payload before its two lists. -/
def decodeEditFields : Cursor (EditList → EditList → EditRecord) := do
  let seq ← u64
  let baseRevision ← u64
  let resultRevision ← u64
  let origin ← known (originFrom (← u8))
  let groupHint ← known (hintFrom (← u8))
  let timestampMs ← u64
  let kind ← decodeKind
  return EditRecord.mk ⟨seq, timestampMs⟩ baseRevision resultRevision origin groupHint kind

def decodeEdit : Cursor EditRecord := do
  let record ← decodeEditFields
  let forward ← list
  let inverse ← list
  return record forward inverse

def decodeCheckpoint : Cursor Record := do
  let node ← u64
  let revision ← u64
  let n ← u64
  let text ← take none n
  return .checkpoint node revision text

def decodeMeta : Cursor Meta := do
  match ← u8 with
  | 0 => return .savePoint (← u64) (← u64) (← sha)
  | 1 => return .format (formatFromBits (← u8))
  | 2 => return .rename (← bytes)
  | _ => stop none

/-- The payload of a record of a known kind. -/
def decode : Kind → Cursor Record
  | .header => Record.header <$> decodeHeader
  | .checkpoint => decodeCheckpoint
  | .edit => Record.edit <$> decodeEdit
  | .meta' => Record.meta' <$> decodeMeta
  | .marker => Record.marker <$> u64

/-! ## Reading a record -/

/-- Why reading a record at some offset stopped. -/
inductive Stop where
  | torn
  | corrupt
  | newerMajor (major : Nat)
deriving DecidableEq, Repr

/-- How reading a record ends without one. -/
inductive Halt where
  | fault (f : Fault)
  | stop (s : Stop)
deriving DecidableEq, Repr

/-- `&b[i..j]`. -/
def range (b : Bytes) (i j : Nat) : Except Halt Bytes :=
  if i ≤ j ∧ j ≤ b.length then .ok (slice b i j) else .error (.fault .range)

/-- A record's frame once its magics and both sums are checked. -/
structure Frame where
  kind : Nat
  minor : Nat
  payload : Bytes
  /-- The record's length with its header and trailer. -/
  size : Nat
deriving DecidableEq

/-- The frame at the start of `rest`. -/
def readFrame (rest : Bytes) : Except Halt Frame :=
  if rest.length < headSize then .error (.stop .torn)
  else do
    let h ← range rest 0 headSize
    let tag ← range h 0 4
    let covered ← range h 0 12
    let headerCrc ← range h 12 16
    if tag ≠ magic then .error (.stop .corrupt)
    else if crc32c covered ≠ leValue headerCrc then .error (.stop .corrupt)
    else do
      let ver ← leValue <$> range h 4 6
      let kind ← leValue <$> range h 6 7
      let len ← leValue <$> range h 8 12
      if ver / 256 ≠ schemaMajor then .error (.stop (.newerMajor (ver / 256)))
      else if rest.length < headSize + len + trailSize then .error (.stop .torn)
      else do
        let payload ← range rest headSize (headSize + len)
        let trail ← range rest (headSize + len) (headSize + len + trailSize)
        let payloadCrc ← range trail 0 4
        let closing ← range trail 4 8
        if crc32c payload ≠ leValue payloadCrc ∨ closing ≠ endMagic then
          .error (.stop .corrupt)
        else return ⟨kind, ver % 256, payload, headSize + len + trailSize⟩

/-- What a frame's payload says. An unknown kind of a newer minor version is
skipped, and so is what such a version appends to a payload it knows. -/
def Frame.record (fr : Frame) : Except Halt Record :=
  match Kind.fromU8 fr.kind with
  | none => if fr.minor > schemaMinor then .ok .skipped else .error (.stop .corrupt)
  | some kind =>
    match decode kind fr.payload with
    | .error (some f) => .error (.fault f)
    | .error none => .error (.stop .corrupt)
    | .ok (record, left) =>
      if left = [] ∨ fr.minor > schemaMinor then .ok record else .error (.stop .corrupt)

/-- The record at `raw[at..]` and the offset after it. -/
def readRecord (raw : Bytes) (pos : Nat) : Except Halt (Record × Nat) := do
  let fr ← readFrame (raw.drop (min pos raw.length))
  let record ← fr.record
  return (record, pos + fr.size)

end Ruse.Persist
