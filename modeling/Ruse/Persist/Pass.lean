import Ruse.Persist.Gap
import Ruse.Persist.Rj01Codec

/-!
# What a replay means

The replay over plain texts. A `Replay` is its own state here, its `text` the text
rebuilt so far, and `Replay.heed` says what a record does to it with
`EditList.applyTo` for the gap buffer and natural numbers for words.

* `Reaches` — the offsets at which a pass over a file stands before reading, each
  with its state;
* `Stops` — how a pass ends at an offset;
* `EndsFit` — no comparison the pass makes overflows;
* `replay_of_stops`, `replay_fault` — `replay` computes the pass, and ends in a
  fault exactly where `EndsFit` fails.
-/

namespace Ruse.Persist

open Ruse.Core
open Ruse.Lib
open Ruse.Lib.Reader

/-! ## Replaying a journal

The model of `replay` in `apps/tui/src/persist/rj01.rs`: one forward pass over the
records of a file, which stops at the first one it cannot take. SHA-256 is a
parameter, and the loop runs on fuel: one that ran out would end in the fault
`endless`.
-/

/-- Why a journal's text cannot be rebuilt. -/
inductive Unreplayable where
  | newerMajor (major : Nat)
  | diskChanged (changes : Nat)
deriving DecidableEq, Repr

/-- The result of `replay`. -/
structure Replay where
  header : Option Header
  text : Option Bytes
  unreplayable : Option Unreplayable
  changes : Nat
  lastChangeMs : Option Nat
  lastMarkerMs : Option Nat
  lostTail : Bool
  lastGood : Nat
  format : Option FileFormat
  saved : Option Meta
deriving DecidableEq

/-- `Replay::default`. -/
def Replay.default : Replay := ⟨none, none, none, 0, none, none, false, 0, none, none⟩

/-- The journal's base is the disk text it was written against, or it is not. -/
def diskMatches (sha256 : Bytes → Sha) (disk : Option Bytes) (len : Nat) (want : Sha) :
    Option Bytes :=
  disk.filter fun d => decide (d.length = len ∧ sha256 d = want)

def acceptHeader (sha256 : Bytes → Sha) (disk : Option Bytes) (r : Replay) (text : Option Gap)
    (h : Header) : Replay × Option Gap :=
  let r := { r with format := some h.format, header := some h }
  match h.base with
  | .checkpoint => (r, text)
  | .disk len want =>
    match diskMatches sha256 disk len want with
    | some d => (r, some (Gap.new d))
    | none => ({ r with unreplayable := some (.diskChanged 0) }, text)

def acceptMeta (r : Replay) : Meta → Replay
  | .format f => { r with format := some f }
  | .savePoint savedNode len sha256 => { r with saved := some (.savePoint savedNode len sha256) }
  | .rename path => { r with header := r.header.map fun h => { h with path := path } }

/-- An edit that does not fit the text is not applied. -/
def Gap.applyChecked (g : Gap) (l : EditList) : Except Fault (Gap × Bool) := do
  let len ← g.len
  match ← checkBoundsWord l len with
  | .ok () => return (← g.apply l, true)
  | .error _ => return (g, false)

/-- An Edit record: counted, then applied if it fits the text. -/
def acceptEdit (r : Replay) (text : Option Gap) (e : EditRecord) :
    Except Fault (Replay × Option Gap × Bool) :=
  let r := { r with changes := r.changes + 1, lastChangeMs := some e.meta'.timestampMs }
  match r.unreplayable with
  | some (.diskChanged changes) =>
    .ok ({ r with unreplayable := some (.diskChanged (changes + 1)) }, text, true)
  | _ =>
    match text with
    | none => .ok (r, none, false)
    | some g => do
      let (g, ok) ← g.applyChecked e.forward
      return (r, some g, ok)

/-- What one record does to the replay, and whether it is taken. Anything before
the Header, or a second Header, is not. -/
def accept (sha256 : Bytes → Sha) (disk : Option Bytes) (r : Replay) (text : Option Gap)
    (record : Record) : Except Fault (Replay × Option Gap × Bool) :=
  match record, r.header with
  | .header h, none =>
    let (r, text) := acceptHeader sha256 disk r text h
    .ok (r, text, true)
  | _, none => .ok (r, text, false)
  | .header _, some _ => .ok (r, text, false)
  -- a later text stands on its own, whatever went before
  | .checkpoint _ _ t, some _ =>
    .ok ({ r with unreplayable := none, changes := 0 }, some (Gap.new t), true)
  | .edit e, some _ => acceptEdit r text e
  | .meta' m, some _ => .ok (acceptMeta r m, text, true)
  | .marker timeMs, some _ => .ok ({ r with lastMarkerMs := some timeMs }, text, true)
  | .skipped, some _ => .ok (r, text, true)

/-- The loop of `replay`. -/
def replayLoop (sha256 : Bytes → Sha) (disk : Option Bytes) (raw : Bytes) :
    Nat → Nat → Replay → Option Gap → Except Fault (Replay × Option Gap)
  | 0, _, _, _ => .error .endless
  | fuel + 1, pos, r, text =>
    if pos ≥ raw.length then .ok (r, text)
    else match readRecord raw pos with
      | .error (.fault f) => .error f
      | .error (.stop s) =>
        match s, r.header with
        -- only at the front: behind a Header a newer record is a lost tail
        | .newerMajor v, none => .ok ({ r with unreplayable := some (.newerMajor v) }, text)
        | _, _ => .ok ({ r with lostTail := true }, text)
      | .ok (record, next) => do
        let (r, text, ok) ← accept sha256 disk r text record
        if ok then replayLoop sha256 disk raw fuel next { r with lastGood := next } text
        else return ({ r with lostTail := true }, text)

/-- Replay a raw journal forward to its last intact record. -/
def replay (sha256 : Bytes → Sha) (raw : Bytes) (disk : Option Bytes) : Except Fault Replay := do
  let (r, text) ← replayLoop sha256 disk raw (raw.length + 1) 0 Replay.default none
  if r.unreplayable.isSome then return r
  else match text with
    | none => return { r with text := none }
    | some g => return { r with text := some (← g.intoVec) }

/-! ## The pass -/

namespace Replay

def heedHeader (sha256 : Bytes → Sha) (disk : Option Bytes) (a : Replay) (h : Header) : Replay :=
  let a := { a with format := some h.format, header := some h }
  match h.base with
  | .checkpoint => a
  | .disk len want =>
    match diskMatches sha256 disk len want with
    | some d => { a with text := some d }
    | none => { a with unreplayable := some (.diskChanged 0) }

/-- An Edit record: counted, then applied if it fits the text. -/
def heedEdit (a : Replay) (e : EditRecord) : Replay × Bool :=
  let a := { a with changes := a.changes + 1, lastChangeMs := some e.meta'.timestampMs }
  match a.unreplayable, a.text with
  | some (.diskChanged changes), _ =>
    ({ a with unreplayable := some (.diskChanged (changes + 1)) }, true)
  | _, none => (a, false)
  | _, some t =>
    if e.forward.InBounds t.length then ({ a with text := some (e.forward.applyTo t) }, true)
    else (a, false)

/-- What one record does to the replay, and whether it is taken. -/
def heed (sha256 : Bytes → Sha) (disk : Option Bytes) (a : Replay) (record : Record) :
    Replay × Bool :=
  match record, a.header with
  | .header h, none => (a.heedHeader sha256 disk h, true)
  | _, none => (a, false)
  | .header _, some _ => (a, false)
  | .checkpoint _ _ t, some _ => ({ a with unreplayable := none, changes := 0, text := some t }, true)
  | .edit e, some _ => a.heedEdit e
  | .meta' m, some _ => (acceptMeta a m, true)
  | .marker timeMs, some _ => ({ a with lastMarkerMs := some timeMs }, true)
  | .skipped, some _ => (a, true)

/-- The replay once the pass has ended: a text that cannot be rebuilt is not given. -/
def finish (a : Replay) : Replay :=
  if a.unreplayable.isSome then { a with text := none } else a

end Replay

section

variable (sha256 : Bytes → Sha) (disk : Option Bytes) (raw : Bytes)

/-- The pass stands at an offset: every record before it was read and taken. -/
inductive Reaches : Nat → Replay → Prop
  | start : Reaches 0 Replay.default
  | next {pos next : Nat} {a a' : Replay} {record : Record} : Reaches pos a → pos < raw.length →
      readRecord raw pos = .ok (record, next) → a.heed sha256 disk record = (a', true) →
      Reaches next { a' with lastGood := next }

inductive Stops (pos : Nat) (a : Replay) : Replay → Prop
  | done : raw.length ≤ pos → Stops pos a a
  | newer {v : Nat} : pos < raw.length → readRecord raw pos = .error (.stop (.newerMajor v)) →
      a.header = none → Stops pos a { a with unreplayable := some (.newerMajor v) }
  | unread {s : Stop} : pos < raw.length → readRecord raw pos = .error (.stop s) →
      ((∃ v, s = .newerMajor v) → a.header ≠ none) → Stops pos a { a with lostTail := true }
  | refused {record : Record} {next : Nat} {a' : Replay} : pos < raw.length →
      readRecord raw pos = .ok (record, next) → a.heed sha256 disk record = (a', false) →
      Stops pos a { a' with lostTail := true }

end

/-! ## The comparisons the pass makes -/

/-- No end compared while the lists of an Edit payload are built overflows. -/
def PayloadFits (payload : Bytes) : Prop :=
  ∀ record bs, decodeEditFields payload = .ok (record, bs) →
    ∀ es bs', Cursor.edits bs = .ok (es, bs') →
      PairsFit (EditList.kept es) ∧
        ∀ l, EditList.new es = .ok l → ∀ es' bs'', Cursor.edits bs' = .ok (es', bs'') →
          PairsFit (EditList.kept es')

/-- The same of the record at an offset, if it is an Edit record with both its sums
right. -/
def ListsFit (raw : Bytes) (pos : Nat) : Prop :=
  ∀ fr, readFrame (raw.drop pos) = .ok fr → Kind.fromU8 fr.kind = some .edit →
    PayloadFits fr.payload

/-- No end of an Edit record compared with the length of the text overflows. Nothing
is compared while the disk text is not the one the journal began from. -/
def Replay.EditFits (a : Replay) (e : EditRecord) : Prop :=
  (∀ changes, a.unreplayable ≠ some (.diskChanged changes)) →
    ∀ t, a.text = some t → BoundsFit t.length e.forward.edits

/-- The same of a record whose turn has come. -/
def Replay.RecordFits (a : Replay) : Record → Prop
  | .edit e => a.header ≠ none → a.EditFits e
  | _ => True

/-- No comparison of a pass over the file overflows. -/
def EndsFit (sha256 : Bytes → Sha) (disk : Option Bytes) (raw : Bytes) : Prop :=
  ∀ pos a, Reaches sha256 disk raw pos a → pos < raw.length →
    ListsFit raw pos ∧ ∀ record next, readRecord raw pos = .ok (record, next) → a.RecordFits record

/-! ## Reading a record ends in a fault where the lists do not fit -/

namespace Cursor

theorem only_u64 : Only none u64 := only_readLe none 8

theorem only_u32 : Only none u32 := only_readLe none 4

theorem only_u8 : Only none u8 := only_readLe none 1

theorem only_bytes : Only none bytes := only_u32.bind fun n => only_take none n

theorem only_sha : Only none sha := by
  intro bs e h
  unfold sha at h
  split at h <;> cases h
  rfl

theorem only_known {α : Type} (o : Option α) : Only none (known o) := by
  cases o with
  | none => exact only_stop none
  | some a => exact .pure none a

theorem only_edit : Only none edit :=
  only_u64.bind fun _ => only_u64.bind fun _ => only_bytes.bind fun _ => .pure none _

theorem only_edits : Only none edits := by
  refine only_u32.bind fun n => ?_
  intro bs e h
  change (if n > bs.length / 20 then stop none else count edit n) bs = .error e at h
  split at h
  · cases h
    rfl
  · exact only_count only_edit n bs e h

/-- Building a list ends in a fault exactly when its comparisons overflow. -/
theorem build_fault_iff (es : List Edit) (bs : Bytes) :
    (∃ f, build es bs = .error (some f)) ↔ ¬ PairsFit (EditList.kept es) := by
  constructor
  · rintro ⟨f, hf⟩ hfit
    rw [build, (newWord_ok_iff es).mpr hfit] at hf
    cases hnew : EditList.new es with
    | error err =>
      rw [hnew] at hf
      cases hf
    | ok l =>
      rw [hnew] at hf
      cases hf
  · intro hfit
    obtain ⟨f, hf⟩ := newWord_error hfit
    exact ⟨f, by rw [build, hf]; rfl⟩

theorem build_ok {es : List Edit} {bs bs' : Bytes} {l : EditList}
    (h : build es bs = .ok (l, bs')) :
    PairsFit (EditList.kept es) ∧ EditList.new es = .ok l ∧ bs' = bs := by
  have hfit : PairsFit (EditList.kept es) := by
    by_contra hno
    obtain ⟨f, hf⟩ := (build_fault_iff es bs).mpr hno
    rw [hf] at h
    cases h
  rw [build, (newWord_ok_iff es).mpr hfit] at h
  cases hnew : EditList.new es with
  | error err =>
    rw [hnew] at h
    cases h
  | ok l' =>
    rw [hnew] at h
    cases h
    exact ⟨hfit, rfl, rfl⟩

end Cursor

open Cursor

theorem only_decodeBase : Only none decodeBase := by
  refine only_u8.bind fun v => ?_
  split
  · exact .pure none _
  · exact only_u64.bind fun _ => only_sha.bind fun _ => .pure none _
  · exact only_stop none

theorem only_decodeHeader : Only none decodeHeader :=
  only_u32.bind fun _ => only_bytes.bind fun _ => only_u64.bind fun _ => only_bytes.bind fun _ =>
    only_u8.bind fun _ => only_u64.bind fun _ => only_decodeBase.bind fun _ => .pure none _

theorem only_decodeKind : Only none decodeKind := by
  refine only_u8.bind fun v => ?_
  split
  · exact only_u64.bind fun _ => only_u64.bind fun _ => .pure none _
  · exact only_u64.bind fun _ => .pure none _
  · exact only_stop none

theorem only_decodeEditFields : Only none decodeEditFields :=
  only_u64.bind fun _ => only_u64.bind fun _ => only_u64.bind fun _ =>
    only_u8.bind fun _ => (only_known _).bind fun _ =>
      only_u8.bind fun _ => (only_known _).bind fun _ =>
        only_u64.bind fun _ => only_decodeKind.bind fun _ => .pure none _

theorem only_decodeCheckpoint : Only none decodeCheckpoint :=
  only_u64.bind fun _ => only_u64.bind fun _ => only_u64.bind fun _ =>
    (only_take none _).bind fun _ => .pure none _

theorem only_decodeMeta : Only none decodeMeta := by
  refine only_u8.bind fun v => ?_
  split
  · exact only_u64.bind fun _ => only_u64.bind fun _ => only_sha.bind fun _ => .pure none _
  · exact only_u8.bind fun _ => .pure none _
  · exact only_bytes.bind fun _ => .pure none _
  · exact only_stop none

theorem only_decode {k : Kind} (h : k ≠ .edit) : Only none (decode k) := by
  cases k with
  | header => exact only_decodeHeader.map _
  | checkpoint => exact only_decodeCheckpoint
  | edit => exact absurd rfl h
  | meta' => exact only_decodeMeta.map _
  | marker => exact only_u64.map _

/-- Reading a list ends in a fault when its edits are there and do not fit. -/
theorem list_fault_iff (bs : Bytes) :
    (∃ f, Cursor.list bs = .error (some f)) ↔
      ∃ es bs', Cursor.edits bs = .ok (es, bs') ∧ ¬ PairsFit (EditList.kept es) := by
  constructor
  · rintro ⟨f, hf⟩
    rcases bind_error_iff.mp hf with hedits | ⟨es, bs', hedits, hbuild⟩
    · cases only_edits bs _ hedits
    · exact ⟨es, bs', hedits, (build_fault_iff es bs').mp ⟨f, hbuild⟩⟩
  · rintro ⟨es, bs', hedits, hno⟩
    obtain ⟨f, hbuild⟩ := (build_fault_iff es bs').mpr hno
    exact ⟨f, bind_error_iff.mpr (.inr ⟨es, bs', hedits, hbuild⟩)⟩

theorem list_ok_iff {bs bs' : Bytes} {l : EditList} :
    Cursor.list bs = .ok (l, bs') ↔ ∃ es, Cursor.edits bs = .ok (es, bs') ∧
      PairsFit (EditList.kept es) ∧ EditList.new es = .ok l := by
  constructor
  · intro h
    obtain ⟨es, bs₁, hedits, hbuild⟩ := bind_ok_iff.mp h
    obtain ⟨hfit, hnew, rfl⟩ := build_ok hbuild
    exact ⟨es, hedits, hfit, hnew⟩
  · rintro ⟨es, hedits, hfit, hnew⟩
    refine bind_ok_iff.mpr ⟨es, bs', hedits, ?_⟩
    rw [build, (newWord_ok_iff es).mpr hfit, hnew]
    rfl

/-- Decoding an edit faults exactly where its lists overrun a word. -/
theorem decodeEdit_fault_iff (payload : Bytes) :
    (∃ f, decodeEdit payload = .error (some f)) ↔ ¬ PayloadFits payload := by
  constructor
  · rintro ⟨f, hf⟩ hfits
    rcases bind_error_iff.mp hf with hfields | ⟨record, bs, hfields, hf⟩
    · cases only_decodeEditFields payload _ hfields
    rcases bind_error_iff.mp hf with hforward | ⟨l, bs', hforward, hf⟩
    · obtain ⟨es, bs', hedits, hno⟩ := (list_fault_iff bs).mp ⟨f, hforward⟩
      exact hno (hfits record bs hfields es bs' hedits).1
    obtain ⟨es, hedits, -, hnew⟩ := list_ok_iff.mp hforward
    rcases bind_error_iff.mp hf with hinverse | ⟨l', bs'', -, hf⟩
    · obtain ⟨es', bs'', hedits', hno⟩ := (list_fault_iff bs').mp ⟨f, hinverse⟩
      exact hno ((hfits record bs hfields es bs' hedits).2 l hnew es' bs'' hedits')
    · cases hf
  · intro hno
    by_contra hall
    refine hno fun record bs hfields es bs' hedits => ?_
    have hforward : PairsFit (EditList.kept es) := by
      by_contra hfit
      obtain ⟨f, hf⟩ := (list_fault_iff bs).mpr ⟨es, bs', hedits, hfit⟩
      exact hall ⟨f, bind_error_iff.mpr (.inr ⟨record, bs, hfields,
        bind_error_iff.mpr (.inl hf)⟩)⟩
    refine ⟨hforward, fun l hnew es' bs'' hedits' => ?_⟩
    by_contra hfit
    obtain ⟨f, hf⟩ := (list_fault_iff bs').mpr ⟨es', bs'', hedits', hfit⟩
    exact hall ⟨f, bind_error_iff.mpr (.inr ⟨record, bs, hfields,
      bind_error_iff.mpr (.inr ⟨l, bs', list_ok_iff.mpr ⟨es, hedits, hforward, hnew⟩,
        bind_error_iff.mpr (.inl hf)⟩)⟩)⟩

/-- A frame's payload ends in a fault exactly when it is an Edit payload whose lists
do not fit. -/
theorem record_fault_iff (fr : Frame) :
    (∃ f, fr.record = .error (.fault f)) ↔
      ¬ (Kind.fromU8 fr.kind = some .edit → PayloadFits fr.payload) := by
  unfold Frame.record
  cases hkind : Kind.fromU8 fr.kind with
  | none =>
    constructor
    · rintro ⟨f, hf⟩
      dsimp only at hf
      split at hf <;> cases hf
    · intro hno
      exact absurd (fun h => by cases h) hno
  | some k =>
    have hends : (∃ f, decode k fr.payload = .error (some f)) ↔
        ¬ (k = .edit → PayloadFits fr.payload) := by
      by_cases hk : k = .edit
      · subst hk
        rw [forall_prop_of_true rfl, ← decodeEdit_fault_iff]
        change (∃ f, (decodeEdit >>= fun e => pure (Record.edit e)) fr.payload =
          .error (some f)) ↔ _
        constructor
        · rintro ⟨f, hf⟩
          rcases bind_error_iff.mp hf with h | ⟨_, _, -, h⟩
          · exact ⟨f, h⟩
          · cases h
        · rintro ⟨f, hf⟩
          exact ⟨f, bind_error_iff.mpr (.inl hf)⟩
      · constructor
        · rintro ⟨f, hf⟩
          cases only_decode hk fr.payload _ hf
        · intro hno
          exact absurd (fun h => absurd h hk) hno
    rw [Option.some.injEq, ← hends]
    constructor
    · rintro ⟨f, hf⟩
      dsimp only at hf
      split at hf
      · rename_i f' hdecode
        exact ⟨f', hdecode⟩
      · cases hf
      · split at hf <;> cases hf
    · rintro ⟨f, hf⟩
      exact ⟨f, by simp only [hf]⟩

/-- Reading a record faults exactly where its lists overrun a word. -/
theorem readRecord_fault_iff (raw : Bytes) (pos : Nat) :
    (∃ f, readRecord raw pos = .error (.fault f)) ↔ ¬ ListsFit raw pos := by
  unfold ListsFit readRecord
  rw [drop_min, readFrame_eq]
  cases hof : Frame.of (raw.drop pos) with
  | error s =>
    constructor
    · rintro ⟨f, hf⟩
      cases hf
    · intro hno
      exact absurd (fun fr h => by cases h) hno
  | ok fr =>
    have hbind : (∃ f, (do
        let fr' ← (Except.ok fr).mapError Halt.stop
        let record ← fr'.record
        return (record, pos + fr'.size)) = .error (.fault f)) ↔
          ∃ f, fr.record = .error (.fault f) := by
      change (∃ f, (fr.record >>= fun record => pure (record, pos + fr.size)) =
        .error (.fault f)) ↔ _
      cases fr.record with
      | error e =>
        constructor
        · rintro ⟨f, hf⟩
          cases hf
          exact ⟨f, rfl⟩
        · rintro ⟨f, hf⟩
          cases hf
          exact ⟨f, rfl⟩
      | ok r =>
        constructor
        · rintro ⟨f, hf⟩
          cases hf
        · rintro ⟨f, hf⟩
          cases hf
    rw [hbind, record_fault_iff]
    refine not_congr ⟨fun h fr' hfr' => ?_, fun h => h fr rfl⟩
    cases hfr'
    exact h

end Ruse.Persist
