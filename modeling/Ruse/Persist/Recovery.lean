import Ruse.Persist.Cut

/-!
# What is recovered from a journal

* `replay_cut` — a file of encoded records, cut anywhere, gives what the records
  before the cut say, up to the first one the pass does not take;
* `replay_safe_iff` — the replay of any file ends without a fault, unless an end it
  compares passes the word size;
* `truncate_iff` — cut at the offset replay reports as good, a file gives the same
  replay, unless the pass ended at an Edit record it did not take.
-/

namespace Ruse.Persist

open Ruse.Core
open Ruse.Lib.Reader

variable {sha256 : Bytes → Sha} {disk : Option Bytes} {raw : Bytes} {pos : Nat} {a : Replay}
variable {text : Bytes} {e : Edit} {a' : Replay}

/-! ## Sample journals -/

/-- A record with what its encoder writes. -/
def withBytes (r : Record) : Record × Bytes :=
  (r, match r.encode with
    | some (.ok bs) => bs
    | _ => [])

/-- Records with what their encoders write. -/
def written (rs : List Record) : List (Record × Bytes) := rs.map withBytes

theorem encoded_written {rs : List Record}
    (h : ∀ r ∈ rs, r.Sized ∧ ∃ bs, r.encode = some (.ok bs)) : Encoded (written rs) := by
  intro p hp
  obtain ⟨r, hr, rfl⟩ := List.mem_map.mp hp
  obtain ⟨hsized, bs, hbs⟩ := h r hr
  refine ⟨hsized, ?_⟩
  rw [withBytes, hbs]

theorem frame_ok {kind : Kind} {payload : Bytes} (h : payload.length ≤ u32Max) :
    ∃ bs, some (frame kind payload) = some (.ok bs) := ⟨_, congrArg some (if_pos h)⟩

/-- A Header with its base in a Checkpoint. -/
def sampleHeader : Header := ⟨⟨42, [], 7⟩, [], FileFormat.default, 9, .checkpoint⟩

def sampleEdit (e : Edit) (h : e.Changes) : EditRecord where
  meta' := ⟨1, 11⟩
  baseRevision := 0
  resultRevision := 1
  origin := .userInput
  groupHint := .continue'
  kind := .fresh 1 0
  forward := ⟨[e], List.pairwise_singleton _ _, by simpa using h⟩
  inverse := EditList.empty

/-- A Header, a text, and one edit of it. -/
def sampleJournal (text : Bytes) (e : Edit) (h : e.Changes) : List (Record × Bytes) :=
  written [.header sampleHeader, .checkpoint 0 0 text, .edit (sampleEdit e h)]

theorem encoded_sample {h : e.Changes} (htext : text.length < 2 ^ 16) (hpos : Word e.pos)
    (hdel : Word e.del) (hins : e.ins.length < 2 ^ 16) :
    Encoded (sampleJournal text e h) := by
  refine encoded_written ?_
  simp only [List.forall_mem_cons, List.not_mem_nil, false_implies, implies_true, and_true]
  refine ⟨⟨⟨by decide, by decide, by decide, by decide, trivial⟩, frame_ok (by decide)⟩,
    ⟨⟨by decide, by decide⟩, frame_ok ?_⟩, ⟨?_, frame_ok ?_⟩⟩
  · simp only [List.length_append, putU64, length_leBytes, u32Max]
    omega
  · simp [Record.Sized, sampleEdit, KindSized, ListSized, EditList.empty, Word, wordLimit]
    exact ⟨hpos, hdel⟩
  · simp [putU64, putU8, putKind, putList, putU32, sampleEdit, EditRecord.entry, u32Max,
      Cursor.length_putEdit, EditList.empty]
    omega

theorem takes_sample (sha256 : Bytes → Sha) (disk : Option Bytes) (text : Bytes) :
    ∃ a, Takes sha256 disk (written [.header sampleHeader, .checkpoint 0 0 text]) a ∧
      a.header = some sampleHeader ∧ a.unreplayable = none ∧ a.text = some text ∧
      a.changes = 0 := by
  have hheader := (Takes.nil : Takes sha256 disk [] Replay.default).snoc
    (p := withBytes (.header sampleHeader)) rfl
  have hcheckpoint := hheader.snoc (p := withBytes (.checkpoint 0 0 text)) rfl
  exact ⟨_, hcheckpoint, rfl, rfl, rfl, rfl⟩

/-- The replay of the sample reaches its edit. -/
theorem reaches_sample (sha256 : Bytes → Sha) (disk : Option Bytes) {h : e.Changes}
    (henc : Encoded (sampleJournal text e h)) :
    ∃ pos a next, Reaches sha256 disk (file (sampleJournal text e h)) pos a ∧
      pos < (file (sampleJournal text e h)).length ∧
      readRecord (file (sampleJournal text e h)) pos = .ok (.edit (sampleEdit e h), next) ∧
      a.header = some sampleHeader ∧ a.unreplayable = none ∧ a.text = some text ∧
      a.changes = 0 := by
  obtain ⟨a, htakes, hheader, hun, htext, hchanges⟩ := takes_sample sha256 disk text
  obtain ⟨p, hsplit, hp⟩ : ∃ p, sampleJournal text e h =
      written [.header sampleHeader, .checkpoint 0 0 text] ++ [p] ∧ p.1 = .edit (sampleEdit e h) :=
    ⟨_, rfl, rfl⟩
  rw [hsplit] at henc ⊢
  generalize written [.header sampleHeader, .checkpoint 0 0 text] = base at henc htakes
  have hlen := length_file_snoc base p
  have hreach := reaches_takes (n := (file (base ++ [p])).length) henc htakes (by omega)
  have hread := readRecord_file henc
  rw [List.take_length] at hreach
  rw [hp] at hread
  have hbounds := readRecord_bounds hread
  exact ⟨_, a, _, hreach, by omega, hread, hheader, hun, htext, hchanges⟩

theorem readRecord_sample {h : e.Changes} (henc : Encoded (sampleJournal text e h)) :
    ∃ next, readRecord (file (sampleJournal text e h)) 0 = .ok (.header sampleHeader, next) := by
  obtain ⟨rest, hsplit⟩ : ∃ rest, sampleJournal text e h =
      [] ++ withBytes (.header sampleHeader) :: rest := ⟨_, rfl⟩
  rw [hsplit] at henc ⊢
  exact ⟨_, readRecord_file henc⟩

/-- A digest for files that hold none. -/
def noSha (_ : Bytes) : Sha := ⟨List.replicate 32 0, rfl⟩

/-- Bytes `5..2^64 + 2` of a five-byte text are deleted: the end is past the word
size. -/
def pastWord : List (Record × Bytes) :=
  sampleJournal [104, 101, 108, 108, 111] (Edit.delete 5 (2 ^ 64 - 3)) (by decide)

theorem encoded_pastWord : Encoded pastWord :=
  encoded_sample (by decide) (by decide) (by decide) (by decide)

theorem not_endsFit_pastWord : ¬ EndsFit noSha none (file pastWord) := by
  intro hfit
  obtain ⟨pos, a, next, hreach, hpos, hread, hheader, hun, htext, -⟩ :=
    reaches_sample noSha none encoded_pastWord
  have hsome : a.header ≠ none := by
    rw [hheader]
    exact Option.some_ne_none _
  have hbounds := (hfit pos a hreach hpos).2 _ next hread hsome
    (by rw [hun]; exact nofun) _ htext
  exact absurd (hbounds (by decide)).1 (by decide)

/-- A byte behind the end of the text is deleted. -/
def outsideText : List (Record × Bytes) := sampleJournal [] (Edit.delete 5 1) (by decide)

/-! ## Torn writes -/

theorem lastGood_of_stops (hreach : Reaches sha256 disk raw pos a)
    (hstops : Stops sha256 disk raw pos a a') : a'.finish.lastGood = pos := by
  have hfinish : a'.finish.lastGood = a'.lastGood := by
    unfold Replay.finish
    split <;> rfl
  rw [hfinish, ← lastGood_of_reaches hreach]
  cases hstops with
  | done => rfl
  | newer => rfl
  | unread => rfl
  | @refused record next b hpos hread hheed =>
    have h := heeded sha256 disk a record
    rw [hheed] at h
    exact h.lastGood

/-- The records that end at or before a cut. -/
def wholeBefore : Nat → List (Record × Bytes) → List (Record × Bytes)
  | _, [] => []
  | n, p :: rs => if p.2.length ≤ n then p :: wholeBefore (n - p.2.length) rs else []

theorem wholeBefore_append {n : Nat} {rs : List (Record × Bytes)} (h : (file rs).length ≤ n)
    (rs' : List (Record × Bytes)) :
    wholeBefore n (rs ++ rs') = rs ++ wholeBefore (n - (file rs).length) rs' := by
  induction rs generalizing n with
  | nil => rfl
  | cons p rs ih =>
    rw [file_cons, List.length_append] at h ⊢
    rw [List.cons_append, wholeBefore, if_pos (by omega), ih (by omega), Nat.sub_sub,
      List.cons_append]

/-- The ends of the edits a file holds are words. -/
def EndsWords (rs : List (Record × Bytes)) : Prop :=
  ∀ p ∈ rs, ∀ e, p.1 = .edit e → ∀ ed ∈ e.forward.edits, ed.endPos < wordLimit

theorem endsWords_sample {h : e.Changes} (hword : e.endPos < wordLimit) :
    EndsWords (sampleJournal text e h) := by
  simp only [EndsWords, sampleJournal, written, withBytes, List.map_cons, List.map_nil,
    List.forall_mem_cons, List.not_mem_nil, false_implies, implies_true, and_true]
  refine ⟨nofun, nofun, fun r hr ed hed => ?_⟩
  cases hr
  rw [List.mem_singleton.mp hed]
  exact hword

/-- In a cut file the next record is whole, or torn. -/
theorem readRecord_cut {taken post : List (Record × Bytes)} (h : Encoded (taken ++ post)) {n : Nat}
    (hle : (file taken).length ≤ n)
    (hpos : (file taken).length < ((file (taken ++ post)).take n).length) :
    ∃ p post', post = p :: post' ∧
      (((file taken).length + p.2.length ≤ n ∧
          readRecord ((file (taken ++ post)).take n) (file taken).length =
            .ok (p.1, (file taken).length + p.2.length)) ∨
        (n < (file taken).length + p.2.length ∧
          readRecord ((file (taken ++ post)).take n) (file taken).length =
            .error (.stop .torn))) := by
  cases post with
  | nil =>
    rw [List.append_nil, List.length_take] at hpos
    omega
  | cons p post' =>
    refine ⟨p, post', rfl, ?_⟩
    by_cases hn : (file taken).length + p.2.length ≤ n
    · exact .inl ⟨hn, readRecord_before h hn⟩
    · exact .inr ⟨by omega, readRecord_across h hle (by omega)⟩

/-- The words of any cut of an encoded file fit. -/
theorem endsFit_cut (sha256 : Bytes → Sha) (disk : Option Bytes) {rs : List (Record × Bytes)} (h : Encoded rs) (hends : EndsWords rs) (n : Nat) :
    EndsFit sha256 disk ((file rs).take n) := by
  intro pos a hreach hpos
  obtain ⟨taken, post, rfl, rfl, hle, -⟩ := takes_of_reaches h hreach
  obtain ⟨p, post', rfl, ⟨-, hread⟩ | ⟨-, hread⟩⟩ := readRecord_cut h hle hpos
  · constructor
    · by_contra hno
      obtain ⟨f, hf⟩ := (readRecord_fault_iff _ _).mpr hno
      rw [hread] at hf
      cases hf
    · intro record next hread'
      rw [hread] at hread'
      cases hread'
      cases hp : p.1 with
      | edit e =>
        intro _ _ t _
        exact boundsFit_of_words (hends p (by simp) e hp)
      | _ => trivial
  · constructor
    · by_contra hno
      obtain ⟨f, hf⟩ := (readRecord_fault_iff _ _).mpr hno
      rw [hread] at hf
      cases hf
    · intro record next hread'
      rw [hread] at hread'
      cases hread'

/-- Each record of a file is read back with the offset after it. Where the ends of its edits
are words, the file cut at any offset gives the text of the records before the cut, up to the
first one the pass does not take, and the offset after the last one it takes. -/
theorem replay_cut (sha256 : Bytes → Sha) (disk : Option Bytes) {rs : List (Record × Bytes)}
    (h : Encoded rs) :
    (∀ before p after, rs = before ++ p :: after →
      readRecord (file rs) (file before).length =
        .ok (p.1, (file before).length + p.2.length)) ∧
    (EndsWords rs → ∀ n,
      ∃ taken left a r, wholeBefore n rs = taken ++ left ∧ Takes sha256 disk taken a ∧
      (∀ p ∈ left.head?, (a.heed sha256 disk p.1).2 = false) ∧
      replay sha256 ((file rs).take n) disk = .ok r ∧ r.text = a.finish.text ∧
      r.lastGood = (file taken).length) := by
  constructor
  · rintro before p after rfl
    exact readRecord_file h
  intro hends n
  have hfit := endsFit_cut sha256 disk h hends n
  obtain ⟨pos, a, a', hreach, hstops⟩ := exists_stops hfit .start
  have hreplay := replay_of_stops hfit hreach hstops
  have hgood := lastGood_of_stops hreach hstops
  obtain ⟨taken, post, rfl, rfl, hle, htakes⟩ := takes_of_reaches h hreach
  have hwhole := wholeBefore_append hle post
  cases hstops with
  | done hend =>
    -- the cut is where the taken records end, or behind the last record
    refine ⟨taken, [], a, _, ?_, htakes, by simp, hreplay, rfl, hgood⟩
    rw [hwhole]
    cases post with
    | nil => rfl
    | cons p post' =>
      have hlen := length_pos_of_encoded h (p := p) (by simp)
      rw [List.length_take, file_append, file_cons] at hend
      simp only [List.length_append] at hend
      rw [wholeBefore, if_neg (by omega)]
  | newer hpos hread _ =>
    obtain ⟨p, post', rfl, ⟨-, hread'⟩ | ⟨-, hread'⟩⟩ := readRecord_cut h hle hpos <;>
    · rw [hread'] at hread
      cases hread
  | unread hpos hread _ =>
    obtain ⟨p, post', rfl, ⟨-, hread'⟩ | ⟨hn, -⟩⟩ := readRecord_cut h hle hpos
    · rw [hread'] at hread
      cases hread
    · refine ⟨taken, [], a, _, ?_, htakes, by simp, hreplay, ?_, hgood⟩
      · rw [hwhole, wholeBefore, if_neg (by omega)]
      · unfold Replay.finish
        split <;> rfl
  | @refused record next b hpos hread hheed =>
    obtain ⟨p, post', rfl, ⟨hn, hread'⟩ | ⟨-, hread'⟩⟩ := readRecord_cut h hle hpos
    · rw [hread'] at hread
      cases hread
      have hleft := heeded sha256 disk a p.1
      rw [hheed] at hleft
      refine ⟨taken, _, a, _, hwhole, htakes, ?_, hreplay, ?_, hgood⟩
      · rw [wholeBefore, if_pos (by omega)]
        simp only [List.head?_cons, Option.mem_some_iff]
        rintro _ rfl
        rw [hheed]
      · unfold Replay.finish
        rw [(hleft.text rfl).1, (hleft.text rfl).2]
        split <;> rfl
    · rw [hread'] at hread
      cases hread

/-- A journal whose first 103 bytes are its Header and Checkpoint, cut through its one edit. -/
theorem replay_cut_sample :
    ∃ taken left a r,
      wholeBefore 150 (sampleJournal [104] (Edit.insert 1 [105]) (by decide)) = taken ++ left ∧
      Takes noSha none taken a ∧ (∀ p ∈ left.head?, (a.heed noSha none p.1).2 = false) ∧
      replay noSha ((file (sampleJournal [104] (Edit.insert 1 [105]) (by decide))).take 150) none =
        .ok r ∧
      r.text = a.finish.text ∧ r.lastGood = (file taken).length :=
  (replay_cut noSha none (encoded_sample (by decide) (by decide) (by decide) (by decide))).2
    (endsWords_sample (by decide)) 150

/-- A second Header is read back, and the replay stops before it. An edit that ends past
the word size ends the replay in a fault. -/
theorem replay_cut_two_headers :
    (Encoded (written [.header sampleHeader, .header sampleHeader, .marker 5]) ∧
      ¬ ∃ r, replay noSha
          ((file (written [.header sampleHeader, .header sampleHeader, .marker 5])).take
            (file (written [.header sampleHeader, .header sampleHeader])).length) none = .ok r ∧
        r.lastGood = (file (written [.header sampleHeader, .header sampleHeader])).length) ∧
    Encoded pastWord ∧
      ¬ ∃ r, replay noSha ((file pastWord).take (file pastWord).length) none = .ok r := by
  have hheader : (Record.header sampleHeader).Sized ∧
      ∃ bs, (Record.header sampleHeader).encode = some (.ok bs) :=
    ⟨⟨by decide, by decide, by decide, by decide, trivial⟩, frame_ok (by decide)⟩
  have henc : Encoded (written [.header sampleHeader, .header sampleHeader, .marker 5]) := by
    refine encoded_written ?_
    simp only [List.forall_mem_cons, List.not_mem_nil, false_implies, implies_true, and_true]
    exact ⟨hheader, hheader, (by decide : 5 < wordLimit), frame_ok (by decide)⟩
  obtain ⟨a, htakes, hsome⟩ : ∃ a, Takes noSha none (written [.header sampleHeader]) a ∧
      a.header = some sampleHeader :=
    ⟨_, Takes.nil.snoc (p := withBytes (.header sampleHeader)) rfl, rfl⟩
  have hrefused : a.heed noSha none (.header sampleHeader) = (a, false) := by
    unfold Replay.heed
    rw [hsome]
  have hlen := length_file_snoc (written [.header sampleHeader]) (withBytes (.header sampleHeader))
  have hsplit : written [.header sampleHeader, .header sampleHeader, .marker 5] =
      written [.header sampleHeader] ++ withBytes (.header sampleHeader) :: written [.marker 5] :=
    rfl
  have hboth : written [.header sampleHeader, .header sampleHeader] =
      written [.header sampleHeader] ++ [withBytes (.header sampleHeader)] := rfl
  have hends : EndsWords (written [.header sampleHeader, .header sampleHeader, .marker 5]) := by
    simp only [EndsWords, written, withBytes, List.map_cons, List.map_nil,
      List.forall_mem_cons, List.not_mem_nil, false_implies, implies_true, and_true]
    exact ⟨nofun, nofun, nofun⟩
  rw [hsplit] at henc hends ⊢
  rw [hboth]
  have hread := readRecord_before henc (Nat.le_of_eq hlen.symm)
  have hreach := reaches_takes henc htakes (Nat.le.intro hlen.symm)
  have hbounds := readRecord_bounds hread
  refine ⟨⟨henc, ?_⟩, encoded_pastWord, ?_⟩
  · rintro ⟨r, hr, hgood⟩
    have hstops := Stops.refused (by omega) hread hrefused
    rw [replay_of_stops (endsFit_cut noSha none henc hends _) hreach hstops] at hr
    cases hr
    rw [lastGood_of_stops hreach hstops] at hgood
    omega
  · rw [List.take_length]
    rintro ⟨r, hr⟩
    exact not_endsFit_pastWord (replay_ok_iff.mp hr).1

/-! ## Any file -/

/-- The replay of any file over any base text returns, with every list that passes
its check applied and every other one leaving the gap as it was, exactly when no end
of an edit it compares passes the word size. -/
theorem replay_safe_iff (sha256 : Bytes → Sha) (raw : Bytes) (disk : Option Bytes) :
    ((∃ r, replay sha256 raw disk = .ok r) ∧
      ∀ (g : Gap) (l : EditList) (len : Nat), g.WF → g.len = .ok len →
        (checkBoundsWord l len = .ok (.ok ()) → ∃ g', g.applyChecked l = .ok (g', true) ∧ g'.WF) ∧
        (∀ err, checkBoundsWord l len = .ok (.error err) → g.applyChecked l = .ok (g, false))) ↔
      EndsFit sha256 disk raw := by
  constructor
  · rintro ⟨⟨r, hr⟩, -⟩
    exact (replay_ok_iff.mp hr).1
  · intro hfit
    obtain ⟨pos, a, a', hreach, hstops⟩ := exists_stops hfit .start
    refine ⟨⟨_, replay_of_stops hfit hreach hstops⟩, fun g l len hwf hlen => ?_⟩
    rw [Gap.len_eq hwf, Except.ok.injEq] at hlen
    subst hlen
    rcases checkBoundsLoop_cases g.text.length l.edits with
      ⟨hbounds, hin, hcheck⟩ | ⟨hbounds, hout, err, hcheck⟩ | ⟨-, f, hcheck⟩
    · refine ⟨fun _ => ?_, fun err h => ?_⟩
      · obtain ⟨g', happly, hwf', -⟩ := Gap.applyChecked_ok hwf hbounds hin
        exact ⟨g', happly, hwf'⟩
      · rw [checkBoundsWord, hcheck] at h
        cases h
    · refine ⟨fun h => ?_, fun _ _ => Gap.applyChecked_refused hwf hbounds hout⟩
      rw [checkBoundsWord, hcheck] at h
      cases h
    · refine ⟨fun h => ?_, fun err h => ?_⟩ <;>
      · rw [checkBoundsWord, hcheck] at h
        cases h

/-- The replay of an edit that ends past the word size ends in a fault. -/
theorem replay_unsafe : ¬ ∃ r, replay noSha (file pastWord) none = .ok r := by
  rintro ⟨r, hr⟩
  exact not_endsFit_pastWord (replay_ok_iff.mp hr).1

/-! ## The good prefix -/

/-- The replay but for the report of a lost tail. -/
def Replay.found (r : Replay) : Replay := { r with lostTail := false }

/-- No Edit record the pass comes to is left out. -/
def EditsTaken (sha256 : Bytes → Sha) (disk : Option Bytes) (raw : Bytes) : Prop :=
  ∀ pos a, Reaches sha256 disk raw pos a → ∀ e next,
    readRecord raw pos = .ok (.edit e, next) → (a.heed sha256 disk (.edit e)).2 = true

theorem editsTaken_of_stops (hreach : Reaches sha256 disk raw pos a)
    (hstops : Stops sha256 disk raw pos a a')
    (hlast : ∀ e next, pos < raw.length → readRecord raw pos = .ok (.edit e, next) → (a.heed sha256 disk (.edit e)).2 = true) :
    EditsTaken sha256 disk raw := by
  intro pos' b hreach' e next hread
  have hpos : pos' < raw.length := by
    have := readRecord_bounds hread
    omega
  rcases hheed : b.heed sha256 disk (.edit e) with ⟨b', taken⟩
  cases taken with
  | true => rfl
  | false =>
    obtain ⟨rfl, rfl⟩ := Stops.unique hreach hstops hreach' (.refused hpos hread hheed)
    have h := hlast e next hpos hread
    rw [hheed] at h
    cases h

theorem found_finish (a : Replay) : a.finish.found = a.found.finish := by
  unfold Replay.finish Replay.found
  split <;> rfl

/-- The good prefix of a file is replayed to the state before the record the pass ends
at. -/
theorem truncate_same_iff (hfit : EndsFit sha256 disk raw) (hreach : Reaches sha256 disk raw pos a)
    (hstops : Stops sha256 disk raw pos a a') :
    (∃ r', replay sha256 (raw.take a'.finish.lastGood) disk = .ok r' ∧
      r'.found = a'.finish.found) ↔ a.found.finish = a'.found.finish := by
  have hcut : replay sha256 (raw.take pos) disk = .ok a.finish :=
    replay_of_stops (endsFit_take hfit pos) (reaches_cut hreach (Nat.le_refl _))
      (.done (List.length_take_le _ _))
  rw [lastGood_of_stops hreach hstops, hcut, ← found_finish, ← found_finish]
  exact ⟨fun ⟨r', hr', hfound⟩ => Except.ok.inj hr' ▸ hfound, fun h => ⟨_, rfl, h⟩⟩

theorem changes_found_finish (a : Replay) : a.found.finish.changes = a.changes := by
  unfold Replay.finish Replay.found
  split <;> rfl

/-- Replaying the good prefix of a file with an intact Header gives the same replay but
for the lost tail, exactly when the pass does not end at an Edit record it reads and
does not take. -/
theorem truncate_iff (sha256 : Bytes → Sha) (disk : Option Bytes) (raw : Bytes) {r : Replay}
    {hd : Header} {next : Nat} (hheader : readRecord raw 0 = .ok (.header hd, next))
    (hreplay : replay sha256 raw disk = .ok r) :
    (∃ r', replay sha256 (raw.take r.lastGood) disk = .ok r' ∧ r'.found = r.found) ↔
      EditsTaken sha256 disk raw := by
  obtain ⟨hfit, pos, a, a', hreach, hstops, rfl⟩ := replay_ok_iff.mp hreplay
  -- a pass that reads its first record goes on with a Header
  have hbegun (hlt : pos < raw.length) : a.header ≠ none ∨
      readRecord raw pos = .ok (.header hd, next) := by
    rcases header_of_reaches hreach with rfl | hsome
    · exact .inr hheader
    · exact .inl hsome
  rw [truncate_same_iff hfit hreach hstops]
  have hstops' := hstops
  cases hstops with
  | done hend =>
    exact ⟨fun _ => editsTaken_of_stops hreach hstops' fun e next hpos => by omega, fun _ => rfl⟩
  | newer hpos hread hnone =>
    rcases hbegun hpos with hsome | hread'
    · exact absurd hnone hsome
    · rw [hread'] at hread
      cases hread
  | unread hpos hread _ =>
    refine ⟨fun _ => editsTaken_of_stops hreach hstops' fun e next _ hread' => ?_, fun _ => rfl⟩
    rw [hread'] at hread
    cases hread
  | @refused record next' b hpos hread hheed =>
    have h := heeded sha256 disk a record
    rw [hheed] at h
    by_cases hedit : ∃ e, record = .edit e
    · -- the Edit record that is left out has been counted
      obtain ⟨e, rfl⟩ := hedit
      have hsome : a.header ≠ none := by
        rcases hbegun hpos with hsome | hread'
        · exact hsome
        · rw [hread'] at hread
          cases hread
      have hcount : b.changes = a.changes + 1 := h.counted rfl hsome ⟨e, rfl⟩
      constructor
      · intro heq
        have hchanges : a.changes = b.changes := by
          rw [← changes_found_finish a, heq]
          exact changes_found_finish _
        omega
      · intro htaken
        have hno := htaken pos a hreach e next' hread
        rw [hheed] at hno
        cases hno
    · rcases h.refused rfl with rfl | ⟨-, he⟩
      · refine ⟨fun _ => editsTaken_of_stops hreach hstops' fun e next'' _ hread' => ?_,
          fun _ => rfl⟩
        rw [hread'] at hread
        cases hread
        exact absurd ⟨e, rfl⟩ hedit
      · exact absurd he hedit

/-- The good prefix of a journal whose edit fits. -/
theorem truncate_iff_sample :
    ∃ r, replay noSha (file (sampleJournal [104] (Edit.insert 1 [105]) (by decide))) none = .ok r ∧
      ((∃ r', replay noSha ((file (sampleJournal [104] (Edit.insert 1 [105])
          (by decide))).take r.lastGood) none = .ok r' ∧ r'.found = r.found) ↔
        EditsTaken noSha none (file (sampleJournal [104] (Edit.insert 1 [105]) (by decide)))) := by
  have henc : Encoded (sampleJournal [104] (Edit.insert 1 [105]) (by decide)) :=
    encoded_sample (by decide) (by decide) (by decide) (by decide)
  have hends : EndsWords (sampleJournal [104] (Edit.insert 1 [105]) (by decide)) :=
    endsWords_sample (by decide)
  obtain ⟨next, hread⟩ := readRecord_sample henc
  have hfit := endsFit_cut noSha none henc hends
    (file (sampleJournal [104] (Edit.insert 1 [105]) (by decide))).length
  rw [List.take_length] at hfit
  obtain ⟨pos, a, a', hreach, hstops⟩ := exists_stops hfit .start
  have hreplay := replay_of_stops hfit hreach hstops
  exact ⟨_, hreplay, truncate_iff noSha none _ hread hreplay⟩

/-- An edit outside the text is counted before it is left out. -/
theorem truncate_counts_left_out :
    ∃ hd next r, readRecord (file outsideText) 0 = .ok (.header hd, next) ∧
      replay noSha (file outsideText) none = .ok r ∧
      ¬ ∃ r', replay noSha ((file outsideText).take r.lastGood) none = .ok r' ∧
        r'.found = r.found := by
  have henc : Encoded outsideText :=
    encoded_sample (by decide) (by decide) (by decide) (by decide)
  obtain ⟨next, hfirst⟩ := readRecord_sample henc
  have hfit := endsFit_cut noSha none henc (endsWords_sample (by decide))
    (file outsideText).length
  rw [List.take_length] at hfit
  obtain ⟨pos, a, next', hreach, hpos, hread, hheader, hun, htext, hchanges⟩ :=
    reaches_sample noSha none henc
  have hrefused : a.heed noSha none (.edit (sampleEdit (Edit.delete 5 1) (by decide))) =
      ({ a with changes := a.changes + 1, lastChangeMs := some 11 }, false) := by
    unfold Replay.heed
    rw [hheader]
    dsimp only
    rw [Replay.heedEdit, hun, htext]
    dsimp only
    rw [if_neg (by decide), hheader]
    rfl
  have hstops := Stops.refused hpos hread hrefused
  refine ⟨_, next, _, hfirst, replay_of_stops hfit hreach hstops, fun hsame => ?_⟩
  -- one change against none
  have hfound := congrArg Replay.changes ((truncate_same_iff hfit hreach hstops).mp hsame)
  rw [changes_found_finish, changes_found_finish, hchanges] at hfound
  exact absurd hfound (by simp)

end Ruse.Persist
