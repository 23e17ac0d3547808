import Ruse.Core.ChangeLogRun
import Ruse.Persist.JournalText

/-!
# What the journal writer keeps

* `Sound` — between calls the journal on disk and the pending records make a journal
  of the text at the last drain, or the next flush rewrites it;
* `Sound.take`, `Sound.discard` — a drain keeps it;
* `flush_sound` — a flush keeps it, and what one that succeeds leaves on disk.
-/

namespace Ruse.Persist

open Ruse.Core
open Ruse.Lib

variable {Path : Type}

/-! ## What the writer keeps -/

/-- The file is a journal of this process. -/
def Host.Owns (host : Host) (files : Files Path) (p : Path) : Prop :=
  readOwner (files p) = some host.owner

/-- Nobody else has made the file as long as the writer left it. -/
def Undisturbed (left : Bytes) (content : Option Bytes) : Prop :=
  content = some left ∨ ∀ bs, content = some bs → bs.length ≠ left.length

/-- What holds of the writer with `text` the text at the last drain and `clean` the text
when the buffer was last clean. -/
structure Sound (host : Host) (clean text : Bytes) (w : Writer Path) (files : Files Path) :
    Prop where
  idle : w.state = .idle → w.rewrite = false ∧ w.held = none ∧ w.pending = [] ∧
    ∀ b, w.base = some b → b = text ∧ b = clean
  fresh : w.state = .fresh → w.rewrite = false → w.held = none →
    JournalText host.sha256 clean w.pending text
  held : ∀ h, w.state = .fresh → w.rewrite = false → w.held = some h →
    ∀ createdMs out, encodeHeader (host.diskHeader w.doc h createdMs) = .ok out →
      JournalText host.sha256 clean (out ++ w.pending) text
  live : w.state = .live → w.held = none ∧ ∃ left, left.length = w.onDisk ∧
    Undisturbed left (files w.journal) ∧
    (w.rewrite = false → JournalText host.sha256 clean (left ++ w.pending) text)
  owned : ∀ p, host.Owns files p → w.state = .live ∧ p = w.journal

/-- The pending records of `w'` are those of `w` and more, which take a journal of `text`
to one of `text'`. -/
structure Extends (host : Host) (clean text text' : Bytes) (w w' : Writer Path) : Prop where
  same : w'.state = w.state ∧ w'.journal = w.journal ∧ w'.doc = w.doc ∧ w'.onDisk = w.onDisk ∧
    w'.held = w.held
  journal : w'.rewrite = false → w.rewrite = false ∧ ∃ bs, w'.pending = w.pending ++ bs ∧
    ∀ front, JournalText host.sha256 clean (front ++ w.pending) text →
      JournalText host.sha256 clean (front ++ w'.pending) text'

variable {host : Host} {clean text text' : Bytes} {w w' : Writer Path} {files : Files Path}

/-- A buffer that grew by the entries of the change stays sound. -/
theorem Sound.extend (h : Sound host clean text w files) (hbegun : w.state ≠ .idle)
    (hext : Extends host clean text text' w w') : Sound host clean text' w' files := by
  obtain ⟨⟨hstate, hjournal, hdoc, hdisk, hheld⟩, hgrow⟩ := hext
  constructor
  · intro hidle
    exact absurd (hstate ▸ hidle) hbegun
  · intro hfresh hrw hnone
    obtain ⟨hrw', bs, -, hfront⟩ := hgrow hrw
    exact hfront [] (h.fresh (hstate ▸ hfresh) hrw' (hheld ▸ hnone))
  · intro hd hfresh hrw hsome createdMs out hout
    obtain ⟨hrw', bs, -, hfront⟩ := hgrow hrw
    rw [hdoc] at hout
    exact hfront out (h.held hd (hstate ▸ hfresh) hrw' (hheld ▸ hsome) createdMs out hout)
  · intro hlive
    obtain ⟨hnone, left, hleft, hundisturbed, hjt⟩ := h.live (hstate ▸ hlive)
    refine ⟨hheld.trans hnone, left, hleft.trans hdisk.symm, hjournal ▸ hundisturbed, fun hrw => ?_⟩
    obtain ⟨hrw', bs, -, hfront⟩ := hgrow hrw
    exact hfront left (hjt hrw')
  · intro p hp
    rw [hstate, hjournal]
    exact h.owned p hp

/-- A writer that will rewrite the journal is sound about any text. -/
theorem Sound.rewriting (h : Sound host clean text w files) (hrw : w'.rewrite = true)
    (hstate : w'.state = if w.state = .idle then .fresh else w.state)
    (hsame : w'.journal = w.journal ∧ w'.onDisk = w.onDisk ∧ w'.held = w.held) :
    Sound host clean text' w' files := by
  obtain ⟨hjournal, hdisk, hheld⟩ := hsame
  have hno (hrw' : w'.rewrite = false) : False := by
    rw [hrw] at hrw'
    cases hrw'
  have hlive : w'.state = .live ↔ w.state = .live := by
    rw [hstate]
    cases w.state <;> decide
  constructor
  · intro hidle
    rw [hstate] at hidle
    cases hw : w.state <;> simp [hw] at hidle
  · exact fun _ hrw' => absurd hrw' hno
  · exact fun _ _ hrw' => absurd hrw' hno
  · intro hl
    obtain ⟨hnone, left, hleft, hundisturbed, -⟩ := h.live (hlive.mp hl)
    exact ⟨hheld.trans hnone, left, hleft.trans hdisk.symm, hjournal ▸ hundisturbed,
      fun hrw' => absurd hrw' hno⟩
  · intro p hp
    rw [hjournal]
    exact ⟨hlive.mpr (h.owned p hp).1, (h.owned p hp).2⟩

/-! ## Draining -/

/-- Following the file's format keeps the writer sound. -/
theorem Sound.follow (h : Sound host clean text w files) (fmt : FileFormat) :
    Sound host clean text (w.follow fmt) files := by
  unfold Writer.follow
  by_cases hfmt : fmt = w.fmt
  · rw [if_pos hfmt]
    exact h
  rw [if_neg hfmt]
  by_cases hbegun : w.state ≠ .idle ∧ w.rewrite = false
  · rw [if_pos hbegun]
    split
    · rename_i bs hbs
      exact h.extend hbegun.1 ⟨⟨rfl, rfl, rfl, rfl, rfl⟩, fun hrw =>
        ⟨hrw, bs, rfl, fun front hfront => by
          rw [← List.append_assoc]
          exact hfront.format hbs⟩⟩
    · exact h.extend hbegun.1 ⟨⟨rfl, rfl, rfl, rfl, rfl⟩, fun hrw =>
        ⟨hrw, [], (List.append_nil _).symm, fun _ hfront => hfront⟩⟩
  · rw [if_neg hbegun]
    exact ⟨h.idle, h.fresh, h.held, h.live, h.owned⟩

/-- The entries take a journal of the text they begin at to one of the text they end
at. -/
theorem encodeEntries_extends (clock : Clock) {es : List ChangeEntry}
    (hreplay : ChangeLog.replayForward es text = some text') (hfit : ∀ e ∈ es, EntryFits e) :
    Extends host clean text text' w (w.encodeEntries clock es) := by
  induction es generalizing w text with
  | nil =>
    cases hreplay
    exact ⟨⟨rfl, rfl, rfl, rfl, rfl⟩, fun hrw =>
      ⟨hrw, [], (List.append_nil _).symm, fun _ hfront => hfront⟩⟩
  | cons e es ih =>
    rw [ChangeLog.replayForward, List.map_cons, VersionTree.replay] at hreplay
    obtain ⟨mid, hfirst, hrest⟩ := Option.bind_eq_some_iff.mp hreplay
    obtain ⟨hin, rfl⟩ := EditList.applyIn_eq_some hfirst
    rw [Writer.encodeEntries]
    split
    · exact ⟨⟨rfl, rfl, rfl, rfl, rfl⟩, fun hrw => by cases hrw⟩
    · rename_i bs hbs
      obtain ⟨hsame, hgrow⟩ := ih (w := { w with
        seq := w.seq + 1
        pending := w.pending ++ bs
        sinceCheckpoint := w.sinceCheckpoint + bs.length }) hrest
        (fun e' he' => hfit e' (List.mem_cons_of_mem _ he'))
      refine ⟨hsame, fun hrw => ?_⟩
      obtain ⟨hrw', bs', hpending, hfront⟩ := hgrow hrw
      refine ⟨hrw', bs ++ bs', hpending.trans (List.append_assoc _ _ _), fun front hjt => ?_⟩
      refine hfront front ?_
      rw [← List.append_assoc]
      exact hjt.edit hbs (hfit e List.mem_cons_self) hin

/-- Starting the journal keeps it sound, and it is begun. -/
theorem Sound.start (h : Sound host clean text w files) (hidle : w.state = .idle)
    (hword : clean.length < wordLimit) (first : Option ChangeEntry) (clock : Clock) :
    Sound host clean text (w.start host first clock) files ∧
      (w.start host first clock).state ≠ .idle := by
  obtain ⟨hrw, hheld, -, hbase⟩ := h.idle hidle
  have hnone (p : Path) : ¬ host.Owns files p := by
    intro hp
    rw [(h.owned p hp).1] at hidle
    cases hidle
  unfold Writer.start
  cases hb : w.base with
  | none => exact ⟨h.rewriting rfl (by simp [hidle]) ⟨rfl, rfl, rfl⟩, nofun⟩
  | some base =>
    obtain ⟨rfl, rfl⟩ := hbase base hb
    dsimp only
    split
    · refine ⟨⟨nofun, nofun, ?_, nofun, fun p hp => absurd hp (hnone p)⟩,
        nofun⟩
      rintro _ - - hsome createdMs out hout
      cases hsome
      rw [List.append_nil]
      exact journalText_disk rfl hword hout
    · split
      · rename_i header checkpoint hheader hcheckpoint
        refine ⟨⟨nofun, fun _ _ _ => ?_, ?_, nofun, fun p hp => absurd hp (hnone p)⟩, nofun⟩
        · exact journalText_checkpoint host.sha256 base rfl hheader hcheckpoint
        · intro hd _ _ hsome
          rw [show w.held = some hd from hsome] at hheld
          cases hheld
      · exact ⟨h.rewriting rfl (by simp [hidle]) ⟨rfl, rfl, rfl⟩, nofun⟩
      · exact ⟨h.rewriting rfl (by simp [hidle]) ⟨rfl, rfl, rfl⟩, nofun⟩

/-- Trimming the buffer keeps the writer sound. -/
theorem Sound.trim (h : Sound host clean text w files) :
    Sound host clean text w.trim files := by
  unfold Writer.trim
  by_cases hcap : w.pending.length > pendingCap
  · rw [if_pos hcap, if_pos rfl]
    have hbegun : w.state ≠ .idle := by
      intro hidle
      rw [(h.idle hidle).2.2.1, List.length_nil] at hcap
      exact Nat.not_lt_zero _ hcap
    exact h.rewriting rfl (if_neg hbegun).symm ⟨rfl, rfl, rfl⟩
  · rw [if_neg hcap]
    by_cases hrw : w.rewrite = true
    · rw [if_pos hrw]
      have hbegun : w.state ≠ .idle := by
        intro hidle
        rw [(h.idle hidle).1] at hrw
        cases hrw
      exact h.rewriting hrw (if_neg hbegun).symm ⟨rfl, rfl, rfl⟩
    · rw [if_neg hrw]
      exact h

/-- What a drain says of the text: changes that lead to it, or nothing of the text
before. -/
def Leads (text text' : Bytes) : ChangeDrain → Prop
  | .changes es => ChangeLog.replayForward es text = some text' ∧ ∀ e ∈ es, EntryFits e
  | .checkpoint _ _ _ _ => True

/-- Taking the drained changes keeps the writer sound. -/
theorem Sound.take (h : Sound host clean text w files) (hword : clean.length < wordLimit)
    (clock : Clock) {drain : ChangeDrain} (hleads : Leads text text' drain) :
    Sound host clean text' (w.take host clock drain) files := by
  cases drain with
  | checkpoint reason t revision node => exact h.rewriting rfl rfl ⟨rfl, rfl, rfl⟩
  | changes es =>
    obtain ⟨hreplay, hfit⟩ := hleads
    cases es with
    | nil =>
      cases hreplay
      exact h
    | cons e es =>
      have hbegun : Sound host clean text (if w.state = .idle then w.start host (some e) clock
          else w) files ∧ (if w.state = .idle then w.start host (some e) clock else w).state ≠
            .idle := by
        by_cases hidle : w.state = .idle
        · rw [if_pos hidle]
          exact h.start hidle hword _ _
        · rw [if_neg hidle]
          exact ⟨h, hidle⟩
      unfold Writer.take
      dsimp only
      generalize (if w.state = .idle then w.start host (some e) clock else w) = w' at hbegun
      by_cases hrw : w'.rewrite = true
      · rw [if_pos hrw]
        exact hbegun.1.rewriting hrw (if_neg hbegun.2).symm ⟨rfl, rfl, rfl⟩
      · rw [if_neg hrw]
        exact hbegun.1.extend hbegun.2 (encodeEntries_extends clock hreplay hfit)

/-! ## Flushing -/

/-- The path `claim` picks while no journal of this writer is on disk. -/
theorem Sound.claim (h : Sound host clean text w files) (path : Path) :
    Sound host clean text (if w.state ≠ .live then { w with journal := path } else w) files := by
  by_cases hlive : w.state = .live
  · rw [if_neg (not_not.mpr hlive)]
    exact h
  · rw [if_pos hlive]
    exact ⟨h.idle, h.fresh, h.held, fun hl => absurd hl hlive,
      fun p hp => absurd (h.owned p hp).1 hlive⟩

theorem Sound.compact (h : Sound host clean text w files) :
    Sound host clean text w.compact files ∧ w.compact.state = w.state := by
  unfold Writer.compact
  split
  · rename_i hlarge
    exact ⟨h.rewriting rfl (by simp [hlarge.1]) ⟨rfl, rfl, rfl⟩, rfl⟩
  · exact ⟨h, rfl⟩

section

variable [DecidableEq Path]

/-- A clean buffer leaves no journal of this process. -/
theorem Sound.discard (h : Sound host clean text w files) :
    (w.discard host files).1.state = .idle ∧
      ∀ p, ¬ host.Owns (w.discard host files).2 p := by
  refine ⟨rfl, fun p hp => ?_⟩
  unfold Writer.discard at hp
  dsimp only at hp
  by_cases hidle : w.state = .idle
  · rw [if_neg (not_not.mpr hidle)] at hp
    rw [(h.owned p hp).1] at hidle
    cases hidle
  · rw [if_pos hidle] at hp
    unfold Host.discardFile at hp
    split at hp
    · by_cases hpath : p = w.journal
      · rw [hpath, Host.Owns, Function.update_self] at hp
        cases hp
      · rw [Host.Owns, Function.update_of_ne hpath] at hp
        exact hpath (h.owned p hp).2
    · rename_i hnot
      have hpath := (h.owned p hp).2
      rw [hpath] at hp
      exact hnot hp

/-- How writing ends: the writer is sound as it is, or the file holds the text and the
writer is sound once the records are dropped. -/
def Writes (host : Host) (clean text : Bytes) : Writer Path × Files Path × Bool → Prop
  | (w, files, false) => Sound host clean text w files
  | (w, files, true) =>
    (∃ raw, files w.journal = some raw ∧ JournalText host.sha256 clean raw text) ∧
      Sound host clean text { w with pending := [], rewrite := false, state := .live } files

/-- A journal written anew over its file is sound. -/
theorem Sound.written (h : Sound host clean text w files) {raw : Bytes}
    (hjt : JournalText host.sha256 clean raw text)
    (hsame : w'.journal = w.journal ∧ w'.onDisk = raw.length ∧ w'.held = none) :
    Writes host clean text (w', Function.update files w.journal (some raw), true) := by
  obtain ⟨hjournal, hdisk, hheld⟩ := hsame
  refine ⟨⟨raw, by rw [hjournal, Function.update_self], hjt⟩, nofun, nofun, nofun, ?_, ?_⟩
  · intro _
    refine ⟨hheld, raw, hdisk.symm, .inl ?_, fun _ => ?_⟩
    · show Function.update files w.journal (some raw) w'.journal = _
      rw [hjournal, Function.update_self]
    · show JournalText host.sha256 clean (raw ++ []) text
      rwa [List.append_nil]
  · intro p hp
    refine ⟨rfl, ?_⟩
    rw [hjournal]
    by_contra hpath
    rw [Host.Owns, Function.update_of_ne hpath] at hp
    exact hpath (h.owned p hp).2

/-- A write that failed before the rename leaves the journal sound. -/
theorem Sound.unwritten (h : Sound host clean text w files) (bytes : Bytes) {os : Io Path}
    (hfail : os.writeFails = true) :
    Sound host clean text w (writePrivate files w.journal bytes os).1 := by
  unfold writePrivate
  rw [if_pos hfail]
  split
  · rename_i hempty
    refine ⟨h.idle, h.fresh, h.held, ?_, ?_⟩
    · intro hlive
      obtain ⟨hnone, left, hleft, -, hjt⟩ := h.live hlive
      refine ⟨hnone, left, hleft, ?_, hjt⟩
      dsimp only
      rw [Function.update_self]
      cases left with
      | nil => exact .inl rfl
      | cons b left => exact .inr fun bs hbs => by cases hbs; simp
    · intro p hp
      change readOwner (Function.update files w.journal (some []) p) = _ at hp
      by_cases hpath : p = w.journal
      · rw [hpath, Function.update_self] at hp
        cases hp
      · rw [Function.update_of_ne hpath] at hp
        exact h.owned p hp
  · exact h

/-- The whole journal written anew is sound, whether the write succeeds or not. -/
theorem Sound.replaced (h : Sound host clean text w files) {raw : Bytes} {os : Io Path}
    (hjt : JournalText host.sha256 clean raw text)
    (hsame : w'.journal = w.journal ∧ w'.onDisk = raw.length ∧ w'.held = none) :
    Writes host clean text (match writePrivate files w.journal raw os with
      | (files, false) => (w, files, false)
      | (files, true) => (w', files, true)) := by
  cases hfail : os.writeFails with
  | true =>
    have hun := h.unwritten raw hfail
    have hfalse : (writePrivate files w.journal raw os).2 = false := by
      unfold writePrivate
      rw [if_pos hfail]
      split <;> rfl
    generalize writePrivate files w.journal raw os = res at hun hfalse
    obtain ⟨files', ok⟩ := res
    cases hfalse
    exact hun
  | false =>
    rw [writePrivate, if_neg (by simp [hfail])]
    exact h.written hjt hsame

/-- The whole journal is one of the text. -/
theorem whole_text {canon : Bytes} {format : FileFormat} {revision node : Nat} {clock : Clock}
    {bytes : Bytes} (hwhole : host.whole canon format text revision node clock = .ok bytes) :
    JournalText host.sha256 clean bytes text := by
  unfold Host.whole at hwhole
  cases hheader : encodeHeader (host.header canon format .checkpoint clock.header) with
  | error err =>
    rw [hheader] at hwhole
    cases hwhole
  | ok header =>
    rw [hheader] at hwhole
    cases hcheckpoint : encodeCheckpoint node revision text with
    | error err =>
      rw [hcheckpoint] at hwhole
      cases hwhole
    | ok checkpoint =>
      simp only [hcheckpoint, bind, Except.bind] at hwhole
      cases hmarker : encodeMarker clock.marker with
      | error err =>
        rw [hmarker] at hwhole
        cases hwhole
      | ok marker =>
        rw [hmarker] at hwhole
        cases hwhole
        exact (journalText_checkpoint host.sha256 clean rfl hheader hcheckpoint).marker hmarker

variable {doc : Document} {os : Io Path}

/-- Writing the journal anew keeps it sound. -/
theorem writeNew_sound (h : Sound host clean doc.text w files)
    (hbegun : w.rewrite = true ∨ w.state = .fresh) :
    Writes host clean doc.text (w.writeNew host files doc os) := by
  have hclaim := h.claim os.claim
  have hbegun' : (if w.state ≠ .live then { w with journal := os.claim } else w).rewrite = true ∨
      (if w.state ≠ .live then { w with journal := os.claim } else w).state = .fresh := by
    split <;> exact hbegun
  unfold Writer.writeNew
  generalize (if w.state ≠ .live then { w with journal := os.claim } else w) = w' at hclaim hbegun'
  split
  · exact hclaim
  by_cases hrw : w'.rewrite = true
  · rw [if_pos hrw, Writer.writeWhole]
    split
    · exact hclaim
    · rename_i bytes hwhole
      exact hclaim.replaced (whole_text hwhole) ⟨rfl, rfl, rfl⟩
  · rw [if_neg hrw]
    have hfresh := hbegun'.resolve_left hrw
    have hrw' : w'.rewrite = false := Bool.eq_false_iff.mpr hrw
    split
    · rename_i held hheld
      rw [Writer.writeHeld]
      split
      · rename_i header marker hheader hmarker
        exact hclaim.replaced
          ((hclaim.held held hfresh hrw' hheld _ header hheader).marker hmarker) ⟨rfl, rfl, rfl⟩
      · exact hclaim
    · rename_i hheld
      rw [Writer.writeFresh]
      split
      · exact hclaim
      · rename_i marker hmarker
        exact hclaim.replaced ((hclaim.fresh hfresh hrw' hheld).marker hmarker) ⟨rfl, rfl, hheld⟩

/-- Appending to the journal keeps it sound. -/
theorem append_sound (h : Sound host clean text w files) (hlive : w.state = .live)
    (hrw : w.rewrite = false) {files' : Files Path}
    (happ : w.append files os = .wrote w' files') :
    Writes host clean text (w', files', true) := by
  obtain ⟨hnone, left, hleft, hundisturbed, hjt⟩ := h.live hlive
  unfold Writer.append at happ
  split at happ
  · cases happ
  · split at happ
    · cases happ
    · rename_i bs hbs
      split at happ
      · cases happ
      · rename_i hlen
        rw [not_not] at hlen
        -- a file of the length this writer left is the one it left
        have hsame : bs = left := by
          rcases hundisturbed with heq | hne
          · rw [hbs] at heq
            exact Option.some.inj heq
          · exact absurd (hlen.trans hleft.symm) (hne bs hbs)
        subst hsame
        split at happ
        · cases happ
        · rename_i tail htail
          split at happ
          · cases happ
          · cases happ
            refine h.written ((hjt hrw).marker htail) ⟨rfl, ?_, hnone⟩
            simp only [List.length_append, ← hleft]
            omega

/-- Writing out keeps the journal sound, whichever way is taken. -/
theorem writeOut_sound (h : Sound host clean doc.text w files) (hbegun : w.state ≠ .idle) :
    Writes host clean doc.text (w.writeOut host files doc os) := by
  unfold Writer.writeOut
  by_cases hlive : w.state = .live ∧ w.rewrite = false
  · rw [if_pos hlive]
    cases happ : w.append files os with
    | wrote w' files' => exact append_sound h hlive.1 hlive.2 happ
    | failed => exact h
    | other =>
      exact writeNew_sound (h.rewriting rfl (if_neg hbegun).symm ⟨rfl, rfl, rfl⟩) (.inl rfl)
  · rw [if_neg hlive]
    refine writeNew_sound h ?_
    cases hrw : w.rewrite with
    | true => exact .inl rfl
    | false =>
      refine .inr ?_
      cases hstate : w.state with
      | idle => exact absurd hstate hbegun
      | fresh => rfl
      | live => exact absurd ⟨hstate, hrw⟩ hlive

/-- A flush keeps the writer sound, and one that had something to write and succeeds
leaves the text on disk. -/
theorem flush_sound (h : Sound host clean doc.text w files) :
    Sound host clean doc.text (w.flush host files doc os).1 (w.flush host files doc os).2.1 ∧
      ((w.flush host files doc os).2.2 = true → w.unsynced = true →
        ∃ raw, (w.flush host files doc os).2.1 (w.flush host files doc os).1.journal = some raw ∧
          JournalText host.sha256 clean raw doc.text) := by
  unfold Writer.flush
  by_cases hun : w.unsynced = true
  · rw [if_pos hun]
    have hbegun : w.compact.state ≠ .idle := by
      rw [h.compact.2]
      intro hidle
      simp [Writer.unsynced, hidle] at hun
    have hwrites : Writes host clean doc.text (w.compact.writeOut host files doc os) :=
      writeOut_sound h.compact.1 hbegun
    generalize w.compact.writeOut host files doc os = res at hwrites
    obtain ⟨w', files', ok⟩ := res
    cases ok with
    | false => exact ⟨hwrites, nofun⟩
    | true => exact ⟨hwrites.2, fun _ _ => hwrites.1⟩
  · rw [if_neg hun]
    exact ⟨h, fun _ hun' => absurd hun' hun⟩

end

end Ruse.Persist
