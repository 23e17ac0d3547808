import Ruse.Persist.JournalSound

/-!
# The journal end to end

A document, its writer and the files, over runs of edits, saves, format changes,
drains, flushes and other people's changes to the files (`System`, `Event`). The log
tracks the changes since the last drain, and the writer is `Sound` for the text of
then (`Inv`); from that, `journal_end_to_end` says what a successful flush leaves, and
`crash_recovers` what a crash then finds.
-/

namespace Ruse.Persist

open Ruse.Core
open Ruse.Core.Document (Op Tracks Versioned startingAt step_tracks step_versioned run_versioned
  drainChanges_eq tracks_drained)
open Ruse.Lib

variable {Path : Type} [DecidableEq Path]
variable {host : Host} {clean text : Bytes} {w : Writer Path} {files : Files Path}
variable {doc : Document} {fmt : FileFormat} {clock : Clock}

/-! ## Draining a document -/

/-- The document as `absorb` drains it. -/
def drainable (doc : Document) : Document :=
  if doc.changes.recording then doc else doc.recordChanges true

theorem drainable_tracks {root : Bytes} {revision : Nat} (hv : Versioned root doc.inner)
    (ht : Tracks revision text doc.inner.toLogState) :
    Tracks revision text (drainable doc).inner.toLogState := by
  unfold drainable
  split
  · exact ht
  · show Tracks revision text (Document.step doc (.recordChanges true)).inner.toLogState
    exact step_tracks nofun hv ht

theorem drainable_entries (doc : Document) {e : ChangeEntry}
    (he : e ∈ (drainable doc).changes.entries) : e ∈ doc.changes.entries := by
  unfold drainable at he
  split at he
  · exact he
  · rename_i hoff
    have hswitched : (doc.recordChanges true).changes.entries = [] := by
      show (doc.changes.setRecording true).entries = []
      rw [ChangeLog.setRecording, if_neg (fun h => hoff h.symm)]
      rfl
    rw [hswitched] at he
    cases he

theorem drainable_same (doc : Document) : (drainable doc).text = doc.text ∧
    (drainable doc).revision = doc.revision ∧ (drainable doc).undo = doc.undo ∧
      (drainable doc).savedNode = doc.savedNode := by
  unfold drainable
  split <;> exact ⟨rfl, rfl, rfl, rfl⟩

/-- A drain of a log that tracks the changes leads from the text it tracks them from. -/
theorem drain_leads {revision : Nat} (ht : Tracks revision text (drainable doc).inner.toLogState)
    (hfit : ∀ e ∈ doc.changes.entries, EntryFits e) :
    Leads text doc.text (drainable doc).drainChanges.2 := by
  have hsame := (drainable_same doc).1
  cases hw : (drainable doc).changes.wants with
  | false =>
    obtain ⟨reason, hdrain⟩ := ChangeLog.drain_of_not_wants (drainable doc).text
      (drainable doc).revision (drainable doc).undo.currentSeq hw
    rw [drainChanges_eq, hdrain]
    exact trivial
  | true =>
    rw [drainChanges_eq, (ChangeLog.drain_of_wants _ _ _ hw).1]
    refine ⟨?_, fun e he => hfit e (drainable_entries doc he)⟩
    rw [← hsame]
    exact (ht hw).forward

/-- What `absorb` gives, by whether the buffer is modified. -/
theorem absorb_eq (host : Host) (w : Writer Path) (files : Files Path) (doc : Document)
    (fmt : FileFormat) (clock : Clock) :
    w.absorb host files doc fmt clock =
      if doc.isModified then
        (((w.follow fmt).take host clock (drainable doc).drainChanges.2).trim, files,
          (drainable doc).drainChanges.1)
      else ({ (w.discard host files).1 with base := some doc.text }, (w.discard host files).2,
        (drainable doc).drainChanges.1) := by
  obtain ⟨htext, -, hundo, hsaved⟩ := drainable_same doc
  have hmodified : (drainable doc).drainChanges.1.isModified = doc.isModified := by
    show ((drainable doc).savedNode != some (drainable doc).undo.currentSeq) = _
    rw [hundo, hsaved]
    rfl
  change (if (drainable doc).drainChanges.1.isModified = true then _ else _) = _
  rw [hmodified]
  split
  · rfl
  · refine congrArg (fun t => (({ (w.discard host files).1 with base := some t } : Writer Path),
      (w.discard host files).2, (drainable doc).drainChanges.1)) ?_
    exact htext

/-- The text when the buffer was last clean at a drain. -/
def cleanText (clean : Bytes) (doc : Document) : Bytes := if doc.isModified then clean else doc.text

/-- Taking in the log's entries keeps the writer sound. -/
theorem absorb_sound {root : Bytes} {revision : Nat} (h : Sound host clean text w files)
    (hv : Versioned root doc.inner) (ht : Tracks revision text doc.inner.toLogState)
    (hword : clean.length < wordLimit) (hfit : ∀ e ∈ doc.changes.entries, EntryFits e) :
    Sound host (cleanText clean doc) doc.text (w.absorb host files doc fmt clock).1
      (w.absorb host files doc fmt clock).2.1 := by
  rw [absorb_eq]
  cases hmodified : doc.isModified with
  | true =>
    rw [if_pos rfl, cleanText, if_pos hmodified]
    exact ((h.follow fmt).take hword clock (drain_leads (drainable_tracks hv ht) hfit)).trim
  | false =>
    rw [if_neg Bool.false_ne_true, cleanText, if_neg (by simp [hmodified])]
    obtain ⟨hidle, hnone⟩ := h.discard
    refine ⟨fun _ => ⟨rfl, rfl, rfl, ?_⟩, nofun, nofun, nofun,
      fun p hp => absurd hp (hnone p)⟩
    intro b hb
    cases hb
    exact ⟨rfl, rfl⟩

/-! ## The system -/

/-- A file buffer, its journal writer and the files. -/
structure System (Path : Type) where
  doc : Document
  /-- The buffer's file format. -/
  fmt : FileFormat
  writer : Writer Path
  files : Files Path
  /-- The base text: what the buffer held when a drain last found it clean. -/
  clean : Bytes

inductive Event (Path : Type) where
  | op (op : Op)
  | format (fmt : FileFormat)
  | absorb (clock : Clock)
  /-- A flush directly after an absorb. -/
  | sync (clock : Clock) (os : Io Path)
  /-- Someone else removes or replaces a file. -/
  | touch (p : Path) (content : Option Bytes)

namespace System

/-- A buffer just opened, with its text clean. -/
def start (initial : Bytes) (revision : Nat) (fmt : FileFormat) (journal : Path) (canon : Bytes)
    (files : Files Path) : System Path where
  doc := startingAt initial revision
  fmt
  writer := .new journal canon fmt
  files
  clean := initial

def absorb (host : Host) (s : System Path) (clock : Clock) : System Path :=
  let (writer, files, doc) := s.writer.absorb host s.files s.doc s.fmt clock
  { s with doc, writer, files, clean := cleanText s.clean s.doc }

/-- A flush, and whether it succeeds. -/
def flush (host : Host) (s : System Path) (os : Io Path) : System Path × Bool :=
  let (writer, files, ok) := s.writer.flush host s.files s.doc os
  ({ s with writer, files }, ok)

def step (host : Host) (s : System Path) : Event Path → System Path
  | .op op => { s with doc := Document.step s.doc op }
  | .format fmt => { s with fmt }
  | .absorb clock => s.absorb host clock
  | .sync clock os => ((s.absorb host clock).flush host os).1
  | .touch p content => { s with files := Function.update s.files p content }

/-- The text and the edit ends are machine words. -/
def InMemory (d : Document) : Prop :=
  d.text.length < wordLimit ∧ ∀ e ∈ d.changes.entries, EntryFits e

instance (d : Document) : Decidable (InMemory d) :=
  inferInstanceAs (Decidable (d.text.length < wordLimit ∧ ∀ e ∈ d.changes.entries,
    ∀ ed ∈ e.forward.edits ++ e.inverse.edits, ed.endPos < wordLimit))

/-- Only the writer drains the document, in memory positions are machine words, and
others do not write journals in this process's name: of the journal on disk they
change the length. -/
def Allowed (host : Host) (s : System Path) : Event Path → Prop
  | .op op => op ≠ .drainChanges ∧ InMemory (Document.step s.doc op)
  | .touch p content =>
    (readOwner content = some host.owner → s.writer.state = .live ∧ p = s.writer.journal) ∧
      (s.writer.state = .live → p = s.writer.journal →
        ∀ bs, content = some bs → bs.length ≠ s.writer.onDisk)
  | _ => True

/-- Every event of a run is allowed where it happens. -/
def Permitted (host : Host) : System Path → List (Event Path) → Prop
  | _, [] => True
  | s, ev :: evs => Allowed host s ev ∧ Permitted host (s.step host ev) evs

/-- Between events, with `text` the text at the last drain: the log tracks the changes
since then, and the writer is sound. -/
structure Inv (host : Host) (text : Bytes) (s : System Path) : Prop where
  versioned : ∃ root, Versioned root s.doc.inner
  memory : InMemory s.doc
  word : s.clean.length < wordLimit
  tracks : ∃ revision, Tracks revision text s.doc.inner.toLogState
  sound : Sound host s.clean text s.writer s.files

variable {s : System Path}

omit [DecidableEq Path] in
theorem start_inv {initial : Bytes} (hword : initial.length < wordLimit)
    (hfiles : ∀ p, ¬ host.Owns files p) (revision : Nat) (fmt : FileFormat) (journal : Path)
    (canon : Bytes) : Inv host initial (start initial revision fmt journal canon files) where
  versioned := ⟨initial, run_versioned initial revision []⟩
  memory := ⟨hword, nofun⟩
  word := hword
  tracks := ⟨revision, nofun⟩
  sound := ⟨fun _ => ⟨rfl, rfl, rfl, nofun⟩, nofun, nofun, nofun, fun p hp => absurd hp (hfiles p)⟩

/-- Taking in the log's entries keeps the journal's invariant. -/
theorem absorb_inv (h : Inv host text s) (clock : Clock) :
    Inv host s.doc.text (s.absorb host clock) := by
  obtain ⟨root, hv⟩ := h.versioned
  obtain ⟨revision, ht⟩ := h.tracks
  obtain ⟨htext, hfit⟩ := h.memory
  have hdoc : (s.absorb host clock).doc = (drainable s.doc).drainChanges.1 := by
    show (s.writer.absorb host s.files s.doc s.fmt clock).2.2 = _
    rw [absorb_eq]
    split <;> rfl
  have hsame : (drainable s.doc).text = s.doc.text := (drainable_same s.doc).1
  refine ⟨⟨root, ?_⟩, ?_, ?_, ⟨(drainable s.doc).revision, ?_⟩,
    absorb_sound h.sound hv ht h.word hfit⟩
  · rw [hdoc]
    refine (step_versioned (drainable s.doc) .drainChanges ?_).1
    unfold drainable
    split
    · exact hv
    · exact (step_versioned s.doc (.recordChanges true) hv).1
  · rw [hdoc]
    refine ⟨(congrArg List.length hsame).trans_lt htext, fun e he => ?_⟩
    have hnil : (drainable s.doc).drainChanges.1.changes.entries = [] :=
      ChangeLog.drain_entries _ _ _ _
    rw [hnil] at he
    cases he
  · show (cleanText s.clean s.doc).length < wordLimit
    unfold cleanText
    split
    · exact h.word
    · exact htext
  · rw [hdoc, ← hsame]
    exact tracks_drained (drainable s.doc)

theorem absorb_text (host : Host) (s : System Path) (clock : Clock) :
    (s.absorb host clock).doc.text = s.doc.text := by
  show (s.writer.absorb host s.files s.doc s.fmt clock).2.2.text = _
  rw [absorb_eq]
  split <;> exact (drainable_same s.doc).1

theorem flush_inv (h : Inv host s.doc.text s) (os : Io Path) :
    Inv host s.doc.text (s.flush host os).1 :=
  ⟨h.versioned, h.memory, h.word, h.tracks, (flush_sound h.sound).1⟩

/-- A change from outside to a file that is not the journal keeps the invariant. -/
theorem touch_inv (h : Inv host text s) {p : Path} {content : Option Bytes}
    (hallowed : Allowed host s (.touch p content)) :
    Inv host text (s.step host (.touch p content)) := by
  obtain ⟨hname, hlength⟩ := hallowed
  refine ⟨h.versioned, h.memory, h.word, h.tracks, h.sound.idle, h.sound.fresh, h.sound.held,
    ?_, ?_⟩
  · intro hlive
    obtain ⟨hnone, left, hleft, hundisturbed, hjt⟩ := h.sound.live hlive
    refine ⟨hnone, left, hleft, ?_, hjt⟩
    show Undisturbed left (Function.update s.files p content s.writer.journal)
    -- a touch of the journal itself changes its length, and that the writer sees
    by_cases hp : p = s.writer.journal
    · rw [hp, Function.update_self]
      exact .inr fun bs hbs => hleft ▸ hlength hlive hp bs hbs
    · rw [Function.update_of_ne (Ne.symm hp)]
      exact hundisturbed
  · intro q hq
    -- only the touched file can have come to name this process
    by_cases hp : q = p
    · change readOwner (Function.update s.files p content q) = _ at hq
      rw [hp, Function.update_self] at hq
      rw [hp]
      exact hname hq
    · change readOwner (Function.update s.files p content q) = _ at hq
      rw [Function.update_of_ne hp] at hq
      exact h.sound.owned q hq

theorem step_inv {ev : Event Path} (h : Inv host text s) (hallowed : Allowed host s ev) :
    ∃ text', Inv host text' (s.step host ev) := by
  cases ev with
  | op op =>
    obtain ⟨hop, hmemory⟩ := hallowed
    obtain ⟨root, hv⟩ := h.versioned
    obtain ⟨revision, ht⟩ := h.tracks
    exact ⟨text, ⟨root, (step_versioned s.doc op hv).1⟩, hmemory, h.word,
      ⟨revision, step_tracks hop hv ht⟩, h.sound⟩
  | format fmt => exact ⟨text, h.versioned, h.memory, h.word, h.tracks, h.sound⟩
  | absorb clock => exact ⟨_, absorb_inv h clock⟩
  | sync clock os =>
    have habsorbed := absorb_inv h clock
    rw [← absorb_text host s clock] at habsorbed
    exact ⟨_, flush_inv habsorbed os⟩
  | touch p content => exact ⟨text, touch_inv h hallowed⟩

theorem run_inv {evs : List (Event Path)} (h : Inv host text s) (hevs : Permitted host s evs) :
    ∃ text', Inv host text' (run (step host) s evs) := by
  induction evs generalizing s text with
  | nil => exact ⟨text, h⟩
  | cons ev evs ih =>
    obtain ⟨text', h'⟩ := step_inv h hevs.1
    exact ih h' hevs.2

/-- The journal is on disk as the writer last left it. -/
def Intact (s : System Path) : Prop :=
  s.writer.state = .live ∧ ∃ bs, s.files s.writer.journal = some bs ∧ bs.length = s.writer.onDisk

/-- The journal on disk replays to the document's text. -/
def Recoverable (host : Host) (s : System Path) : Prop :=
  ∃ raw r, s.files s.writer.journal = some raw ∧
    replay host.sha256 raw (some s.clean) = .ok r ∧ r.text = some s.doc.text

omit [DecidableEq Path] in
theorem not_recoverable_of_missing (hmissing : s.files s.writer.journal = none) :
    ¬ s.Recoverable host := by
  rintro ⟨raw, r, hraw, -⟩
  rw [hmissing] at hraw
  cases hraw

omit [DecidableEq Path] in
theorem recoverable_of_intact (h : Inv host s.doc.text s) (hun : s.writer.unsynced = false)
    (hintact : s.Intact) : Recoverable host s := by
  obtain ⟨hlive, bs, hbs, hlen⟩ := hintact
  obtain ⟨hnone, left, hleft, hundisturbed, hjt⟩ := h.sound.live hlive
  have hempty : s.writer.rewrite = false ∧ s.writer.pending = [] := by
    simpa [Writer.unsynced, hlive, hnone] using hun
  have hjournal := hjt hempty.1
  rw [hempty.2, List.append_nil] at hjournal
  have hsame : bs = left := by
    rcases hundisturbed with heq | hne
    · rw [hbs] at heq
      exact Option.some.inj heq
    · exact absurd (hlen.trans hleft.symm) (hne bs hbs)
  obtain ⟨r, hr, htext⟩ := hjournal.replay
  exact ⟨left, r, hsame ▸ hbs, hr, htext⟩

/-- The journal end to end. After any run of edits, undos, redos, saves, format changes
and drains, with flushes that write or fail and with the files changed by others: a
flush directly after an absorb of a modified buffer, if it succeeds and it had records to
write or the journal is as the writer left it, leaves a journal that replays to the
document's text; one of a buffer that is not modified leaves no journal owned. -/
theorem journal_end_to_end (host : Host) (initial : Bytes) (revision : Nat) (fmt : FileFormat)
    (journal : Path) (canon : Bytes) (files : Files Path) (evs : List (Event Path))
    (clock : Clock) (os : Io Path) (hword : initial.length < wordLimit)
    (hfiles : ∀ p, ¬ host.Owns files p)
    (hevs : Permitted host (start initial revision fmt journal canon files) evs) :
    let s := run (step host) (start initial revision fmt journal canon files) evs
    let absorbed := s.absorb host clock
    let synced := (absorbed.flush host os).1
    (s.doc.isModified → (absorbed.flush host os).2 = true →
      absorbed.writer.unsynced ∨ absorbed.Intact → synced.Recoverable host) ∧
    (s.doc.isModified = false → ∀ p, ¬ host.Owns synced.files p) := by
  obtain ⟨text, h⟩ := run_inv (start_inv hword hfiles revision fmt journal canon) hevs
  dsimp only
  generalize run (step host) (start initial revision fmt journal canon files) evs = s at h
  have habsorbed := absorb_inv h clock
  rw [← absorb_text host s clock] at habsorbed
  constructor
  · intro _ hok hwrites
    cases hun : (s.absorb host clock).writer.unsynced with
    | true =>
      obtain ⟨raw, hraw, hjt⟩ := (flush_sound habsorbed.sound).2 hok hun
      obtain ⟨r, hr, htext⟩ := hjt.replay
      exact ⟨raw, r, hraw, hr, htext⟩
    | false =>
      have hsame : ((s.absorb host clock).flush host os).1 = s.absorb host clock := by
        unfold flush Writer.flush
        rw [if_neg (by simp [hun])]
      rw [hsame]
      refine recoverable_of_intact habsorbed hun (hwrites.resolve_left ?_)
      simp [hun]
  · intro hclean p hp
    have hidle : (s.absorb host clock).writer.state = .idle := by
      show (s.writer.absorb host s.files s.doc s.fmt clock).1.state = _
      rw [absorb_eq, if_neg (by simp [hclean])]
      rfl
    have hflush : ((s.absorb host clock).flush host os).1 = s.absorb host clock := by
      unfold flush Writer.flush
      rw [if_neg (by simp [Writer.unsynced, hidle])]
    rw [hflush] at hp
    rw [(habsorbed.sound.owned p hp).1] at hidle
    cases hidle

/-! ## Between flushes -/

/-- Events between two flushes of a buffer that every drain finds modified. -/
def Unflushed (host : Host) : System Path → List (Event Path) → Prop
  | _, [] => True
  | s, .op op :: evs => Unflushed host (s.step host (.op op)) evs
  | s, .format fmt :: evs => Unflushed host (s.step host (.format fmt)) evs
  | s, .absorb clock :: evs =>
    s.doc.isModified = true ∧ Unflushed host (s.step host (.absorb clock)) evs
  | _, .sync _ _ :: _ | _, .touch _ _ :: _ => False

omit [DecidableEq Path] in
theorem journal_encodeEntries (clock : Clock) (es : List ChangeEntry) (w : Writer Path) :
    (w.encodeEntries clock es).journal = w.journal := by
  induction es generalizing w with
  | nil => rfl
  | cons e es ih =>
    rw [Writer.encodeEntries]
    split
    · rfl
    · exact ih _

omit [DecidableEq Path] in
theorem journal_start (host : Host) (w : Writer Path) (first : Option ChangeEntry)
    (clock : Clock) : (w.start host first clock).journal = w.journal := by
  unfold Writer.start
  dsimp only
  split
  · rfl
  · split
    · rfl
    · split <;> rfl

omit [DecidableEq Path] in
theorem journal_take (host : Host) (w : Writer Path) (clock : Clock) (drain : ChangeDrain) :
    (w.take host clock drain).journal = w.journal := by
  unfold Writer.take
  split
  · rfl
  · rfl
  · simp only [apply_ite Writer.journal, journal_encodeEntries, journal_start, ite_self]

omit [DecidableEq Path] in
theorem journal_follow (w : Writer Path) (fmt : FileFormat) :
    (w.follow fmt).journal = w.journal := by
  unfold Writer.follow
  split
  · rfl
  · dsimp only
    split
    · split <;> rfl
    · rfl

omit [DecidableEq Path] in
theorem journal_trim (w : Writer Path) : w.trim.journal = w.journal := by
  simp only [Writer.trim, apply_ite Writer.journal, ite_self]

/-- With nothing flushed since, the journal still holds the text it held. -/
theorem unflushed_keeps {evs : List (Event Path)} (h : Unflushed host s evs) :
    let s' := run (step host) s evs
    s'.files = s.files ∧ s'.writer.journal = s.writer.journal ∧ s'.clean = s.clean := by
  induction evs generalizing s with
  | nil => exact ⟨rfl, rfl, rfl⟩
  | cons ev evs ih =>
    cases ev with
    | op op => exact ih (s := s.step host (.op op)) h
    | format fmt => exact ih (s := s.step host (.format fmt)) h
    | absorb clock =>
      obtain ⟨hmodified, hrest⟩ := h
      obtain ⟨hfiles, hjournal, hclean⟩ := ih hrest
      have habsorb := absorb_eq host s.writer s.files s.doc s.fmt clock
      rw [if_pos hmodified] at habsorb
      refine ⟨hfiles.trans ?_, hjournal.trans ?_, hclean.trans ?_⟩
      · show (s.writer.absorb host s.files s.doc s.fmt clock).2.1 = _
        rw [habsorb]
      · show (s.writer.absorb host s.files s.doc s.fmt clock).1.journal = _
        rw [habsorb]
        rw [journal_trim, journal_take, journal_follow]
      · exact if_pos hmodified
    | sync clock os => exact h.elim
    | touch p content => exact h.elim

/-- A state that a run of permitted events leads to. -/
def Reached (host : Host) (s : System Path) : Prop :=
  ∃ initial revision fmt journal canon files evs, initial.length < wordLimit ∧
    (∀ p, ¬ host.Owns files p) ∧
    Permitted host (start initial revision fmt journal canon files) evs ∧
    s = run (step host) (start initial revision fmt journal canon files) evs

/-- What a crash loses. After any run, a flush that writes and succeeds, and then whatever
edits, undos, saves, format changes and drains there are up to the crash: the journal on
disk replays to the text of that flush, as long as the drains found the buffer modified. -/
theorem crash_recovers (hs : Reached host s) (clock : Clock) (os : Io Path)
    (hok : ((s.absorb host clock).flush host os).2 = true)
    (hun : (s.absorb host clock).writer.unsynced = true) {evs : List (Event Path)}
    (hquiet : Unflushed host ((s.absorb host clock).flush host os).1 evs) :
    let crashed := run (step host) ((s.absorb host clock).flush host os).1 evs
    ∃ raw r, crashed.files crashed.writer.journal = some raw ∧
      replay host.sha256 raw (some crashed.clean) = .ok r ∧ r.text = some s.doc.text := by
  obtain ⟨initial, revision, fmt, journal, canon, files, evs', hword, hfiles, hevs, rfl⟩ := hs
  obtain ⟨text, h⟩ := run_inv (start_inv hword hfiles revision fmt journal canon) hevs
  generalize run (step host) (start initial revision fmt journal canon files) evs' = s at *
  have habsorbed := absorb_inv h clock
  rw [← absorb_text host s clock] at habsorbed
  obtain ⟨raw, hraw, hjt⟩ := (flush_sound habsorbed.sound).2 hok hun
  rw [absorb_text] at hjt
  obtain ⟨r, hr, htext⟩ := hjt.replay
  obtain ⟨hsame, hjournal, hclean⟩ := unflushed_keeps hquiet
  refine ⟨raw, r, ?_, ?_, htext⟩
  · rw [hsame, hjournal]
    exact hraw
  · rw [hclean]
    exact hr

/-! ## A run -/

def sampleHost : Host := ⟨⟨42, [], 7⟩, noSha⟩

def sampleClock : Clock := ⟨9, 10, fun _ => 11⟩

/-- Every call into the operating system succeeds. -/
def sampleIo : Io Unit := ⟨sampleClock, (), false, false, false, false, false⟩

def sampleStart : System Unit := start [104] 0 FileFormat.default () [] fun _ => none

/-- A file opened and drained, and one byte typed. -/
def sampleTyped : List (Event Unit) :=
  [.op .markSaved, .absorb sampleClock,
    .op (.apply (.new 0 ⟨[Edit.insert 0 [120]], by decide, by decide⟩ .userInput) [])]

/-- The byte journaled, and the journal removed by someone else. -/
def sampleRemoved : List (Event Unit) :=
  sampleTyped ++ [.sync sampleClock sampleIo, .touch () none]

theorem permitted_removed : Permitted sampleHost sampleStart sampleRemoved := by
  refine ⟨⟨nofun, ?_⟩, trivial, ⟨nofun, ?_⟩, trivial, ⟨fun h => ?_, fun _ _ bs h => ?_⟩, trivial⟩
  · decide +kernel
  · decide +kernel
  · cases h
  · cases h

/-- The typed byte is on disk. -/
theorem journal_end_to_end_typed :
    (((run (step sampleHost) sampleStart sampleTyped).absorb sampleHost sampleClock).flush
      sampleHost sampleIo).1.Recoverable sampleHost :=
  (journal_end_to_end sampleHost [104] 0 FileFormat.default () [] (fun _ => none) sampleTyped
    sampleClock sampleIo (by decide) nofun
    ⟨⟨nofun, by decide +kernel⟩, trivial, ⟨nofun, by decide +kernel⟩, trivial⟩).1
    (by decide +kernel) (by decide +kernel) (.inl (by decide +kernel))

/-- A second byte typed, and drained. -/
def sampleMore : List (Event Unit) :=
  [.op (.apply (.new 1 ⟨[Edit.insert 1 [121]], by decide, by decide⟩ .userInput) []),
    .absorb sampleClock]

theorem reached_typed : Reached sampleHost (run (step sampleHost) sampleStart sampleTyped) :=
  ⟨[104], 0, FileFormat.default, (), [], fun _ => none, sampleTyped, by decide, nofun,
    ⟨⟨nofun, by decide +kernel⟩, trivial, ⟨nofun, by decide +kernel⟩, trivial⟩, rfl⟩

/-- A crash after the flush recovers the text typed before it. -/
theorem crash_recovers_typed :
    let s := run (step sampleHost) sampleStart sampleTyped
    let crashed := run (step sampleHost) ((s.absorb sampleHost sampleClock).flush sampleHost
      sampleIo).1 sampleMore
    ∃ raw r, crashed.files crashed.writer.journal = some raw ∧
      replay sampleHost.sha256 raw (some crashed.clean) = .ok r ∧ r.text = some s.doc.text :=
  crash_recovers reached_typed sampleClock sampleIo (by decide +kernel) (by decide +kernel)
    ⟨by decide +kernel, trivial⟩

/-- With nothing new to write, a removed journal stays removed: the flush succeeds. -/
theorem journal_stays_removed :
    let s := run (step sampleHost) sampleStart sampleRemoved
    let synced := (s.absorb sampleHost sampleClock).flush sampleHost sampleIo
    Permitted sampleHost sampleStart sampleRemoved ∧ s.doc.isModified = true ∧
      synced.2 = true ∧ ¬ synced.1.Recoverable sampleHost := by
  refine ⟨permitted_removed, by decide +kernel, by decide +kernel, ?_⟩
  exact not_recoverable_of_missing (by decide +kernel)

end System

end Ruse.Persist
