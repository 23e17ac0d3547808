import Ruse.Persist.Journal
import Ruse.Persist.Recovery

/-!
# The text a journal gives

* `Record.stored` — what is read back of a record: its numbers modulo their width,
  its formats as the format byte holds them;
* `JournalText` — a byte string is a journal, and replaying it over a base text gives
  some text (`JournalText.replay`), with one lemma for each record the writer adds.
-/

namespace Ruse.Persist

open Ruse.Core
open Ruse.Lib.Reader

variable {out : Bytes}

/-! ## What is read back -/

/-- The format as the format byte holds it. -/
def FileFormat.stored (f : FileFormat) : FileFormat := formatFromBits (formatBits f)

theorem FileFormat.plain_stored (f : FileFormat) : f.stored.Plain := by
  refine ⟨?_, rfl, rfl⟩
  show (if formatBits f &&& 1 ≠ 0 then Eol.crlf else Eol.lf) ≠ .cr
  split <;> exact nofun

theorem FileFormat.bits_stored (f : FileFormat) : formatBits f.stored = formatBits f := by
  have hbits : formatBits f < 8 := by
    unfold formatBits
    split <;> split <;> split <;> decide
  have hback : ∀ b < 8, formatBits (formatFromBits b) = b := by decide
  exact hback _ hbits

theorem leBytes_mod (n v : Nat) : leBytes n (v % 256 ^ n) = leBytes n v := by
  induction n generalizing v with
  | zero => rfl
  | succ n ih =>
    have hlow : v % 256 ^ (n + 1) % 256 = v % 256 :=
      Nat.mod_mod_of_dvd v (Dvd.intro_left (256 ^ n) rfl)
    have hhigh : v % 256 ^ (n + 1) / 256 = v / 256 % 256 ^ n := by
      rw [Nat.pow_succ, Nat.mul_comm, Nat.mod_mul_right_div_self]
    rw [leBytes, hlow, hhigh, ih, leBytes]

theorem putU64_mod (v : Nat) : putU64 (v % wordLimit) = putU64 v := leBytes_mod 8 v

theorem putU32_mod (v : Nat) : putU32 (v % 2 ^ 32) = putU32 v := leBytes_mod 4 v

theorem word_mod (v : Nat) : Word (v % wordLimit) := Nat.mod_lt v (by decide)

def Base.stored : Base → Base
  | .checkpoint => .checkpoint
  | .disk len sha256 => .disk (len % wordLimit) sha256

def Header.stored (h : Header) : Header where
  owner := ⟨h.owner.pid % 2 ^ 32, h.owner.host, h.owner.startMs % wordLimit⟩
  path := h.path
  format := h.format.stored
  createdMs := h.createdMs % wordLimit
  base := h.base.stored

def kindStored : ChangeKind → ChangeKind
  | .fresh node parent => .fresh (node % wordLimit) (parent % wordLimit)
  | .navigate toNode => .navigate (toNode % wordLimit)

def editStored (m : EditMeta) (e : ChangeEntry) : EditRecord where
  meta' := ⟨m.seq % wordLimit, m.timestampMs % wordLimit⟩
  baseRevision := e.baseRevision % wordLimit
  resultRevision := e.resultRevision % wordLimit
  origin := e.origin
  groupHint := e.groupHint
  kind := kindStored e.kind
  forward := e.forward
  inverse := e.inverse

theorem encodeHeader_stored (h : Header) : encodeHeader h.stored = encodeHeader h := by
  have hbase : putBase h.base.stored = putBase h.base := by
    cases h.base with
    | checkpoint => rfl
    | disk len sha256 => rw [Base.stored, putBase, putU64_mod, putBase]
  simp only [encodeHeader, Header.stored, putU32_mod, putU64_mod, FileFormat.bits_stored, hbase]

theorem sized_header (h : Header) : (Record.header h.stored).Sized := by
  refine ⟨?_, word_mod _, h.format.plain_stored, word_mod _, ?_⟩
  · rw [u32Max]
    show h.owner.pid % 2 ^ 32 ≤ 2 ^ 32 - 1
    omega
  · show h.base.stored.Sized
    cases h.base with
    | checkpoint => exact trivial
    | disk len sha256 => exact word_mod len

theorem encodeCheckpoint_stored (node revision : Nat) (text : Bytes) :
    encodeCheckpoint (node % wordLimit) (revision % wordLimit) text =
      encodeCheckpoint node revision text := by
  simp only [encodeCheckpoint, putU64_mod]

theorem encodeEdit_stored (m : EditMeta) (e : ChangeEntry) :
    encodeEdit (editStored m e).meta' (editStored m e).entry = encodeEdit m e := by
  have hkind : putKind (kindStored e.kind) = putKind e.kind := by
    cases e.kind <;> simp only [kindStored, putKind, putU64_mod]
  simp only [encodeEdit, EditRecord.entry, editStored, putU64_mod, hkind]

/-- The ends of an entry's edits are words. -/
def EntryFits (e : ChangeEntry) : Prop :=
  ∀ ed ∈ e.forward.edits ++ e.inverse.edits, ed.endPos < wordLimit

theorem listSized_of_ends {l : EditList} (h : ∀ ed ∈ l.edits, ed.endPos < wordLimit) :
    ListSized l := by
  intro ed hed
  have hend := h ed hed
  rw [Edit.endPos] at hend
  exact ⟨Nat.lt_of_le_of_lt (Nat.le_add_right _ _) hend,
    Nat.lt_of_le_of_lt (Nat.le_add_left _ _) hend⟩

theorem sized_edit (m : EditMeta) {e : ChangeEntry} (h : EntryFits e) :
    (Record.edit (editStored m e)).Sized := by
  refine ⟨word_mod _, word_mod _, word_mod _, word_mod _, ?_, ?_, ?_⟩
  · show KindSized (kindStored e.kind)
    cases e.kind with
    | fresh node parent => exact ⟨word_mod node, word_mod parent⟩
    | navigate toNode => exact word_mod toNode
  · exact listSized_of_ends fun ed hed => h ed (List.mem_append_left _ hed)
  · exact listSized_of_ends fun ed hed => h ed (List.mem_append_right _ hed)

/-! ## Journals -/

/-- The bytes are a journal, and replaying it over `base` gives `text`. -/
def JournalText (sha256 : Bytes → Sha) (base bs text : Bytes) : Prop :=
  ∃ rs a, bs = file rs ∧ Encoded rs ∧ EndsWords rs ∧ Takes sha256 (some base) rs a ∧
    a.header ≠ none ∧ a.unreplayable = none ∧ a.text = some text

variable {sha256 : Bytes → Sha} {base bs text : Bytes}

/-- A journal is replayed to its text. -/
theorem JournalText.replay (h : JournalText sha256 base bs text) :
    ∃ r, replay sha256 bs (some base) = .ok r ∧ r.text = some text := by
  obtain ⟨rs, a, rfl, henc, hends, htakes, -, hun, htext⟩ := h
  have hfit := endsFit_cut sha256 (some base) henc hends (file rs).length
  rw [← List.append_nil rs] at henc
  have hreach := reaches_takes henc htakes (Nat.le_refl _)
  rw [List.append_nil, List.take_length] at hreach
  rw [List.take_length] at hfit
  refine ⟨_, replay_of_stops hfit hreach (.done (Nat.le_refl _)), ?_⟩
  rw [Replay.finish, hun, if_neg (by simp), htext]

/-- One more record makes a journal of the text it leads to. -/
theorem JournalText.snoc (h : JournalText sha256 base bs text) {r : Record} {text' : Bytes}
    (hsized : r.Sized) (hout : r.encode = some (.ok out))
    (hends : ∀ e, r = .edit e → ∀ ed ∈ e.forward.edits, ed.endPos < wordLimit)
    (hheed : ∀ a : Replay, a.header ≠ none → a.unreplayable = none → a.text = some text → ∃ a', a.heed sha256 (some base) r = (a', true) ∧ a'.header ≠ none ∧ a'.unreplayable = none ∧ a'.text = some text') :
    JournalText sha256 base (bs ++ out) text' := by
  obtain ⟨rs, a, rfl, henc, hwords, htakes, hheader, hun, htext⟩ := h
  obtain ⟨a', htaken, hheader', hun', htext'⟩ := hheed a hheader hun htext
  refine ⟨rs ++ [(r, out)], _, ?_, ?_, ?_, htakes.snoc (p := (r, out)) htaken, hheader', hun',
    htext'⟩
  · rw [file_append]
    simp [file]
  · intro p hp
    rcases List.mem_append.mp hp with hp | hp
    · exact henc p hp
    · rw [List.mem_singleton.mp hp]
      exact ⟨hsized, hout⟩
  · intro p hp
    rcases List.mem_append.mp hp with hp | hp
    · exact hwords p hp
    · rw [List.mem_singleton.mp hp]
      exact hends

/-- A record that is always taken once there is a Header, and leaves the text. -/
theorem JournalText.marker (h : JournalText sha256 base bs text) {timeMs : Nat}
    (hout : encodeMarker timeMs = .ok out) : JournalText sha256 base (bs ++ out) text := by
  have hstored : encodeMarker (timeMs % wordLimit) = .ok out := by
    rw [← hout]
    simp only [encodeMarker, putU64_mod]
  refine h.snoc (r := .marker (timeMs % wordLimit)) (word_mod timeMs) (congrArg some hstored)
    (fun e he => by cases he) ?_
  intro a hheader hun htext
  obtain ⟨hd, hhd⟩ := Option.ne_none_iff_exists'.mp hheader
  refine ⟨{ a with lastMarkerMs := some (timeMs % wordLimit) }, ?_, hheader, hun, htext⟩
  unfold Replay.heed
  rw [hhd]

theorem JournalText.format (h : JournalText sha256 base bs text) {f : FileFormat}
    (hout : encodeMeta (.format f) = .ok out) : JournalText sha256 base (bs ++ out) text := by
  have hstored : encodeMeta (.format f.stored) = .ok out := by
    rw [← hout]
    simp only [encodeMeta, putMeta, FileFormat.bits_stored]
  refine h.snoc (r := .meta' (.format f.stored)) f.plain_stored (congrArg some hstored)
    (fun e he => by cases he) ?_
  intro a hheader hun htext
  obtain ⟨hd, hhd⟩ := Option.ne_none_iff_exists'.mp hheader
  refine ⟨acceptMeta a (.format f.stored), ?_, hheader, hun, htext⟩
  unfold Replay.heed
  rw [hhd]

/-- One more edit makes a journal of the edited text. -/
theorem JournalText.edit (h : JournalText sha256 base bs text) {m : EditMeta} {e : ChangeEntry}
    (hout : encodeEdit m e = .ok out) (hfit : EntryFits e) (hin : e.forward.InBounds text.length) :
    JournalText sha256 base (bs ++ out) (e.forward.applyTo text) := by
  have hstored : (Record.edit (editStored m e)).encode = some (.ok out) := by
    rw [← hout, ← encodeEdit_stored m e]
    rfl
  refine h.snoc (sized_edit m hfit) hstored ?_ ?_
  · intro e' he' ed hed
    cases he'
    exact hfit ed (List.mem_append_left _ hed)
  intro a hheader hun htext
  obtain ⟨hd, hhd⟩ := Option.ne_none_iff_exists'.mp hheader
  refine ⟨{ a with
    changes := a.changes + 1
    lastChangeMs := some (editStored m e).meta'.timestampMs
    text := some (e.forward.applyTo text) }, ?_, hheader, hun, rfl⟩
  unfold Replay.heed
  rw [hhd]
  dsimp only
  rw [Replay.heedEdit, hun, htext]
  dsimp only
  rw [if_pos (show (editStored m e).forward.InBounds text.length from hin), ← hhd]
  rfl

/-- A header and a checkpoint are a journal of the checkpoint's text. -/
theorem journalText_checkpoint (sha256 : Bytes → Sha) (base : Bytes) {h : Header}
    {node revision : Nat} {text out' : Bytes} (hbase : h.base = .checkpoint)
    (hheader : encodeHeader h = .ok out)
    (hcheckpoint : encodeCheckpoint node revision text = .ok out') :
    JournalText sha256 base (out ++ out') text := by
  obtain ⟨owner, path, format, createdMs, _⟩ := h
  subst hbase
  have hfirst := (Takes.nil : Takes sha256 (some base) [] Replay.default).snoc
    (p := (.header (Header.stored ⟨owner, path, format, createdMs, .checkpoint⟩), out)) rfl
  have htakes := hfirst.snoc
    (p := (.checkpoint (node % wordLimit) (revision % wordLimit) text, out')) rfl
  refine ⟨_, _, by simp [file], ?_, ?_, htakes, Option.some_ne_none _, rfl, rfl⟩
  · simp only [Encoded, List.nil_append, List.singleton_append, List.forall_mem_cons,
      List.not_mem_nil, false_implies, implies_true, and_true]
    refine ⟨⟨sized_header _, ?_⟩, ⟨word_mod node, word_mod revision⟩, ?_⟩
    · rw [Record.encode, encodeHeader_stored, hheader]
    · rw [Record.encode, encodeCheckpoint_stored, hcheckpoint]
  · simp only [EndsWords, List.nil_append, List.singleton_append, List.forall_mem_cons,
      List.not_mem_nil, false_implies, implies_true, and_true]
    exact ⟨fun e he => (by cases he), fun e he => (by cases he)⟩

/-- A header over a file is a journal of the file's text. -/
theorem journalText_disk {h : Header} (hbase : h.base = .disk base.length (sha256 base))
    (hword : base.length < wordLimit) (hheader : encodeHeader h = .ok out) :
    JournalText sha256 base out base := by
  obtain ⟨owner, path, format, createdMs, _⟩ := h
  subst hbase
  have hmatches : diskMatches sha256 (some base) (base.length % wordLimit) (sha256 base) =
      some base := by
    rw [Nat.mod_eq_of_lt hword, diskMatches, Option.filter_some, if_pos (by simp)]
  have hheed : Replay.default.heed sha256 (some base) (.header (Header.stored
      ⟨owner, path, format, createdMs, .disk base.length (sha256 base)⟩)) =
      ({ Replay.default with
          format := some format.stored
          header := some (Header.stored
            ⟨owner, path, format, createdMs, .disk base.length (sha256 base)⟩)
          text := some base }, true) := by
    unfold Replay.heed
    dsimp only [Replay.default]
    rw [Replay.heedHeader]
    dsimp only [Header.stored, Base.stored]
    rw [hmatches]
  have htakes := (Takes.nil : Takes sha256 (some base) [] Replay.default).snoc
    (p := (.header (Header.stored
      ⟨owner, path, format, createdMs, .disk base.length (sha256 base)⟩), out)) hheed
  refine ⟨_, _, by simp [file], ?_, ?_, htakes, Option.some_ne_none _, rfl, rfl⟩
  · intro p hp
    rw [List.mem_singleton.mp hp]
    exact ⟨sized_header _, by rw [Record.encode, encodeHeader_stored, hheader]⟩
  · intro p hp
    rw [List.mem_singleton.mp hp]
    intro e he
    cases he

end Ruse.Persist
