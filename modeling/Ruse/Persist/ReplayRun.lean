import Ruse.Persist.Pass

/-!
# The replay computes the pass

`replay` with its gap buffer and its checked arithmetic against the pass over plain
texts: record for record the same (`accept_ok`), and a fault exactly where a
comparison overflows (`accept_fault`).
-/

namespace Ruse.Persist

open Ruse.Core

/-! ## One edit list -/

theorem Gap.applyChecked_ok {g : Gap} (h : g.WF) {l : EditList}
    (hfit : BoundsFit g.text.length l.edits) (hin : l.InBounds g.text.length) :
    ∃ g', g.applyChecked l = .ok (g', true) ∧ g'.WF ∧ g'.text = l.applyTo g.text := by
  obtain ⟨g', happly, hwf, htext⟩ := apply_ok h hin (boundsFit_words hfit hin)
  refine ⟨g', ?_, hwf, htext⟩
  rcases checkBoundsLoop_cases g.text.length l.edits with
    ⟨-, -, hcheck⟩ | ⟨-, hout, -⟩ | ⟨hno, -⟩
  · rw [applyChecked, len_eq h]
    show (checkBoundsWord l g.text.length >>= _) = _
    rw [checkBoundsWord, hcheck]
    rw [happly]
    rfl
  · exact absurd hin hout
  · exact absurd hfit hno

theorem Gap.applyChecked_refused {g : Gap} (h : g.WF) {l : EditList}
    (hfit : BoundsFit g.text.length l.edits) (hout : ¬ l.InBounds g.text.length) :
    g.applyChecked l = .ok (g, false) := by
  rcases checkBoundsLoop_cases g.text.length l.edits with
    ⟨-, hin, -⟩ | ⟨-, -, err, hcheck⟩ | ⟨hno, -⟩
  · exact absurd hin hout
  · rw [applyChecked, len_eq h]
    show (checkBoundsWord l g.text.length >>= _) = _
    rw [checkBoundsWord, hcheck]
    rfl
  · exact absurd hfit hno

theorem Gap.applyChecked_fault {g : Gap} (h : g.WF) {l : EditList}
    (hno : ¬ BoundsFit g.text.length l.edits) : ∃ f, g.applyChecked l = .error f := by
  rcases checkBoundsLoop_cases g.text.length l.edits with
    ⟨hfit, -, -⟩ | ⟨hfit, -, -⟩ | ⟨-, f, hcheck⟩
  · exact absurd hfit hno
  · exact absurd hfit hno
  · refine ⟨f, ?_⟩
    rw [applyChecked, len_eq h]
    show (checkBoundsWord l g.text.length >>= _) = _
    rw [checkBoundsWord, hcheck]
    rfl

/-! ## One record -/

/-- The gap buffer shows the text rebuilt so far. -/
def Shows : Option Gap → Option Bytes → Prop
  | none, none => True
  | some g, some t => g.WF ∧ g.text = t
  | _, _ => False

theorem shows_new (t : Bytes) : Shows (some (Gap.new t)) (some t) :=
  ⟨Gap.wf_new t, Gap.text_new t⟩

/-- The loop's variables stand for a state of the pass. -/
structure Stands (r : Replay) (text : Option Gap) (a : Replay) : Prop where
  replay : r = { a with text := none }
  shows : Shows text a.text

theorem stands_default : Stands Replay.default none Replay.default := ⟨rfl, trivial⟩

variable {sha256 : Bytes → Sha} {disk : Option Bytes} {r a : Replay} {text : Option Gap}

theorem acceptHeader_stands (h : Stands r text a) (hd : Header) :
    Stands (acceptHeader sha256 disk r text hd).1 (acceptHeader sha256 disk r text hd).2
      (a.heedHeader sha256 disk hd) := by
  obtain ⟨rfl, hshows⟩ := h
  unfold acceptHeader Replay.heedHeader
  cases hd.base with
  | checkpoint => exact ⟨rfl, hshows⟩
  | disk len want =>
    dsimp only
    cases diskMatches sha256 disk len want with
    | none => exact ⟨rfl, hshows⟩
    | some d => exact ⟨rfl, shows_new d⟩

theorem acceptMeta_stands (h : Stands r text a) (m : Meta) :
    Stands (acceptMeta r m) text (acceptMeta a m) := by
  obtain ⟨rfl, hshows⟩ := h
  cases m <;> exact ⟨rfl, hshows⟩

/-- An edit that fits is accepted, and stands for what was heeded. -/
theorem acceptEdit_ok (h : Stands r text a) {e : EditRecord} (hfit : a.EditFits e) :
    ∃ r' text', acceptEdit r text e = .ok (r', text', (a.heedEdit e).2) ∧
      Stands r' text' (a.heedEdit e).1 := by
  obtain ⟨rfl, hshows⟩ := h
  unfold acceptEdit Replay.heedEdit
  rcases hun : a.unreplayable with - | ⟨v⟩ | ⟨changes⟩
  all_goals dsimp only
  pick_goal 3
  · exact ⟨_, _, rfl, rfl, hshows⟩
  all_goals
    -- the gap and the text are both there or both missing
    rcases htext : a.text with - | t <;> rcases text with - | g <;> rw [htext] at hshows <;>
      first
        | exact absurd hshows id
        | exact ⟨_, _, rfl, rfl, trivial⟩
        | skip
  all_goals
    obtain ⟨hwf, rfl⟩ := hshows
    have hbounds := hfit (by rw [hun]; intro changes h; cases h) g.text htext
    dsimp only
    by_cases hin : e.forward.InBounds g.text.length
    · obtain ⟨g', happly, hwf', htext'⟩ := Gap.applyChecked_ok hwf hbounds hin
      rw [happly, if_pos hin]
      exact ⟨_, _, rfl, rfl, hwf', htext'⟩
    · rw [Gap.applyChecked_refused hwf hbounds hin, if_neg hin]
      exact ⟨_, _, rfl, rfl, hwf, rfl⟩

/-- An edit that does not fit faults. -/
theorem acceptEdit_fault (h : Stands r text a) {e : EditRecord} (hno : ¬ a.EditFits e) :
    ∃ f, acceptEdit r text e = .error f := by
  obtain ⟨rfl, hshows⟩ := h
  unfold Replay.EditFits at hno
  push Not at hno
  obtain ⟨hchanged, t, htext, hno⟩ := hno
  rw [htext] at hshows
  rcases text with - | g
  · exact absurd hshows id
  obtain ⟨hwf, rfl⟩ := hshows
  obtain ⟨f, hf⟩ := Gap.applyChecked_fault hwf hno
  refine ⟨f, ?_⟩
  unfold acceptEdit
  rcases hun : a.unreplayable with - | ⟨v⟩ | ⟨changes⟩
  · dsimp only
    rw [hf]
    rfl
  · dsimp only
    rw [hf]
    rfl
  · exact absurd hun (hchanged changes)

/-- A record that fits does what the pass says. -/
theorem accept_ok (sha256 : Bytes → Sha) (disk : Option Bytes) (h : Stands r text a) {record : Record} (hfit : a.RecordFits record) :
    ∃ r' text', accept sha256 disk r text record =
        .ok (r', text', (a.heed sha256 disk record).2) ∧
      Stands r' text' (a.heed sha256 disk record).1 := by
  have hheader : r.header = a.header := by
    rw [h.replay]
  unfold accept Replay.heed
  rw [hheader]
  cases hhd : a.header with
  | none =>
    cases record with
    | header hd => exact ⟨_, _, rfl, acceptHeader_stands h hd⟩
    | _ => exact ⟨r, text, rfl, h⟩
  | some hd' =>
    obtain ⟨hr, hshows⟩ := h
    cases record with
    | header hd => exact ⟨r, text, rfl, hr, hshows⟩
    | checkpoint node revision t =>
      refine ⟨_, _, rfl, ?_, shows_new t⟩
      rw [hr]
    | edit e =>
      refine acceptEdit_ok ⟨hr, hshows⟩ (hfit ?_)
      rw [hhd]
      exact Option.some_ne_none hd'
    | meta' m => exact ⟨_, _, rfl, acceptMeta_stands ⟨hr, hshows⟩ m⟩
    | marker timeMs =>
      refine ⟨_, _, rfl, ?_, hshows⟩
      rw [hr]
    | skipped => exact ⟨r, text, rfl, hr, hshows⟩

/-- A record that does not fit ends in a fault. -/
theorem accept_fault (sha256 : Bytes → Sha) (disk : Option Bytes) (h : Stands r text a) {record : Record} (hno : ¬ a.RecordFits record) :
    ∃ f, accept sha256 disk r text record = .error f := by
  cases record with
  | edit e =>
    simp only [Replay.RecordFits, not_forall] at hno
    obtain ⟨hheader, hno⟩ := hno
    obtain ⟨hd, hhd⟩ := Option.ne_none_iff_exists'.mp hheader
    have hr : r.header = some hd := by
      rw [h.replay]
      exact hhd
    unfold accept
    rw [hr]
    exact acceptEdit_fault h hno
  | _ => exact absurd trivial hno

/-! ## The loop -/

variable {raw : Bytes}

/-- The loop has come as far as the pass. -/
def Running (sha256 : Bytes → Sha) (disk : Option Bytes) (raw : Bytes) (pos : Nat) (a : Replay) :
    Prop :=
  ∃ fuel r text, raw.length - pos < fuel ∧ Stands r text a ∧
    replayLoop sha256 disk raw (raw.length + 1) 0 Replay.default none =
      replayLoop sha256 disk raw fuel pos r text

theorem replayLoop_record {fuel pos next : Nat} {record : Record} (hpos : pos < raw.length)
    (hread : readRecord raw pos = .ok (record, next)) :
    replayLoop sha256 disk raw (fuel + 1) pos r text = (do
      let (r, text, ok) ← accept sha256 disk r text record
      if ok then replayLoop sha256 disk raw fuel next { r with lastGood := next } text
      else return ({ r with lostTail := true }, text)) := by
  rw [replayLoop, if_neg (Nat.not_le_of_lt hpos), hread]

theorem Running.next {pos next : Nat} {a' : Replay} {record : Record}
    (h : Running sha256 disk raw pos a) (hpos : pos < raw.length)
    (hread : readRecord raw pos = .ok (record, next)) (hfit : a.RecordFits record)
    (hheed : a.heed sha256 disk record = (a', true)) :
    Running sha256 disk raw next { a' with lastGood := next } := by
  obtain ⟨fuel, r, text, hfuel, hstands, hrun⟩ := h
  obtain ⟨fuel, rfl⟩ : ∃ n, fuel = n + 1 := ⟨fuel - 1, by omega⟩
  obtain ⟨r', text', haccept, hstands'⟩ := accept_ok sha256 disk hstands hfit
  rw [hheed] at haccept hstands'
  refine ⟨fuel, { r' with lastGood := next }, text', ?_, ?_, ?_⟩
  · have := readRecord_bounds hread
    omega
  · exact ⟨by rw [hstands'.replay], hstands'.shows⟩
  · rw [hrun, replayLoop_record hpos hread, haccept]
    rfl

theorem replay_error {f : Fault}
    (h : replayLoop sha256 disk raw (raw.length + 1) 0 Replay.default none = .error f) :
    replay sha256 raw disk = .error f := by
  rw [replay, h]
  rfl

/-- The loop ends in a fault at an offset where a comparison overflows. -/
theorem Running.fault {pos : Nat} (h : Running sha256 disk raw pos a) (hpos : pos < raw.length)
    (hno : ¬ (ListsFit raw pos ∧
      ∀ record next, readRecord raw pos = .ok (record, next) → a.RecordFits record)) :
    ∃ f, replay sha256 raw disk = .error f := by
  obtain ⟨fuel, r, text, hfuel, hstands, hrun⟩ := h
  obtain ⟨fuel, rfl⟩ : ∃ n, fuel = n + 1 := ⟨fuel - 1, by omega⟩
  by_cases hlists : ListsFit raw pos
  · have hrecord : ∃ record next, readRecord raw pos = .ok (record, next) ∧
        ¬ a.RecordFits record := by
      by_contra hall
      push Not at hall
      exact hno ⟨hlists, hall⟩
    obtain ⟨record, next, hread, hno⟩ := hrecord
    obtain ⟨f, hf⟩ := accept_fault sha256 disk hstands hno
    refine ⟨f, replay_error ?_⟩
    rw [hrun, replayLoop_record hpos hread, hf]
    rfl
  · obtain ⟨f, hf⟩ := (readRecord_fault_iff raw pos).mpr hlists
    refine ⟨f, replay_error ?_⟩
    rw [hrun, replayLoop, if_neg (Nat.not_le_of_lt hpos), hf]

/-- The loop comes to every offset the pass reaches, unless an end overflows on the
way. -/
theorem running_of_reaches {pos : Nat} (h : Reaches sha256 disk raw pos a) :
    Running sha256 disk raw pos a ∨
      (¬ EndsFit sha256 disk raw ∧ ∃ f, replay sha256 raw disk = .error f) := by
  induction h with
  | start => exact .inl ⟨raw.length + 1, _, _, by omega, stands_default, rfl⟩
  | @next pos next a a' record hreach hpos hread hheed ih =>
    rcases ih with hrun | hfault
    · by_cases hfit : a.RecordFits record
      · exact .inl (hrun.next hpos hread hfit hheed)
      · exact .inr ⟨fun hall => hfit ((hall pos a hreach hpos).2 record next hread),
          hrun.fault hpos fun hall => hfit (hall.2 record next hread)⟩
    · exact .inr hfault

theorem replay_fault (h : ¬ EndsFit sha256 disk raw) :
    ∃ f, replay sha256 raw disk = .error f := by
  unfold EndsFit at h
  push Not at h
  obtain ⟨pos, a, hreach, hpos, hno⟩ := h
  rcases running_of_reaches hreach with hrun | ⟨-, hfault⟩
  · refine hrun.fault hpos fun hall => ?_
    obtain ⟨record, next, hread, hbad⟩ := hno hall.1
    exact hbad (hall.2 record next hread)
  · exact hfault

/-- A replay that stops with fitting records returns what was heeded. -/
theorem Running.stops {pos : Nat} {a' : Replay} (h : Running sha256 disk raw pos a)
    (hfit : ∀ record next, readRecord raw pos = .ok (record, next) → a.RecordFits record)
    (hstops : Stops sha256 disk raw pos a a') :
    ∃ r' text', replayLoop sha256 disk raw (raw.length + 1) 0 Replay.default none =
      .ok (r', text') ∧ Stands r' text' a' := by
  obtain ⟨fuel, r, text, hfuel, hstands, hrun⟩ := h
  obtain ⟨fuel, rfl⟩ : ∃ n, fuel = n + 1 := ⟨fuel - 1, by omega⟩
  have hheader : r.header = a.header := by
    rw [hstands.replay]
  rw [hrun]
  cases hstops with
  | done hpos =>
    rw [replayLoop, if_pos hpos]
    exact ⟨r, text, rfl, hstands⟩
  | newer hpos hread hnone =>
    rw [replayLoop, if_neg (Nat.not_le_of_lt hpos), hread]
    rw [hheader, hnone]
    exact ⟨_, text, rfl, by rw [hstands.replay], hstands.shows⟩
  | @unread s hpos hread hold =>
    rw [replayLoop, if_neg (Nat.not_le_of_lt hpos), hread]
    dsimp only
    refine ⟨{ r with lostTail := true }, text, ?_, by rw [hstands.replay], hstands.shows⟩
    rw [hheader]
    split
    · rename_i v hnone
      exact absurd hnone (hold ⟨v, rfl⟩)
    · rfl
  | @refused record next a₁ hpos hread hheed =>
    obtain ⟨r', text', haccept, hstands'⟩ :=
      accept_ok sha256 disk hstands (hfit record next hread)
    rw [hheed] at haccept hstands'
    rw [replayLoop_record hpos hread, haccept]
    exact ⟨{ r' with lostTail := true }, text', rfl, by rw [hstands'.replay], hstands'.shows⟩

/-- What the loop returns is finished the same way. -/
theorem replay_finish {r : Replay} {text : Option Gap} (h : Stands r text a)
    (hrun : replayLoop sha256 disk raw (raw.length + 1) 0 Replay.default none = .ok (r, text)) :
    replay sha256 raw disk = .ok a.finish := by
  obtain ⟨rfl, hshows⟩ := h
  rw [replay, hrun]
  show (if a.unreplayable.isSome then _ else _) = _
  unfold Replay.finish
  by_cases hun : a.unreplayable.isSome
  · rw [if_pos hun, if_pos hun]
    rfl
  · rw [if_neg hun, if_neg hun]
    rcases htext : a.text with - | t <;> rcases text with - | g <;> rw [htext] at hshows
    · dsimp only
      rw [← htext]
      rfl
    · exact absurd hshows id
    · exact absurd hshows id
    · dsimp only
      rw [Gap.intoVec_eq hshows.1, hshows.2]
      show Except.ok { a with text := some t } = _
      rw [← htext]

theorem replay_of_stops (hfit : EndsFit sha256 disk raw) {pos : Nat} {a' : Replay}
    (hreach : Reaches sha256 disk raw pos a) (hstops : Stops sha256 disk raw pos a a') :
    replay sha256 raw disk = .ok a'.finish := by
  rcases running_of_reaches hreach with hrun | ⟨hno, -⟩
  · have hrecord : ∀ record next, readRecord raw pos = .ok (record, next) →
        a.RecordFits record := by
      intro record next hread
      have := readRecord_bounds hread
      exact (hfit pos a hreach (by omega)).2 record next hread
    obtain ⟨r', text', hloop, hstands⟩ := hrun.stops hrecord hstops
    exact replay_finish hstands hloop
  · exact absurd hfit hno

/-- Every replay stops somewhere. -/
theorem exists_stops (hfit : EndsFit sha256 disk raw) {pos : Nat} {a : Replay}
    (hreach : Reaches sha256 disk raw pos a) :
    ∃ pos' a₁ a', Reaches sha256 disk raw pos' a₁ ∧ Stops sha256 disk raw pos' a₁ a' := by
  by_cases hpos : raw.length ≤ pos
  · exact ⟨pos, a, a, hreach, .done hpos⟩
  have hlt : pos < raw.length := Nat.lt_of_not_le hpos
  cases hread : readRecord raw pos with
  | error e =>
    cases e with
    | fault f =>
      exact absurd (hfit pos a hreach hlt).1 ((readRecord_fault_iff raw pos).mp ⟨f, hread⟩)
    | stop s =>
      by_cases hnewer : (∃ v, s = .newerMajor v) ∧ a.header = none
      · obtain ⟨⟨v, rfl⟩, hnone⟩ := hnewer
        exact ⟨pos, a, _, hreach, .newer hlt hread hnone⟩
      · exact ⟨pos, a, _, hreach, .unread hlt hread fun hv hnone => hnewer ⟨hv, hnone⟩⟩
  | ok p =>
    obtain ⟨record, next⟩ := p
    have hbounds := readRecord_bounds hread
    rcases hheed : a.heed sha256 disk record with ⟨a', ok⟩
    cases ok with
    | false => exact ⟨pos, a, _, hreach, .refused hlt hread hheed⟩
    | true => exact exists_stops hfit (hreach.next hlt hread hheed)
termination_by raw.length - pos

/-- The replay answers what the pass ends with, exactly when the pass's comparisons
fit. -/
theorem replay_ok_iff {r : Replay} :
    replay sha256 raw disk = .ok r ↔ EndsFit sha256 disk raw ∧
      ∃ pos a a', Reaches sha256 disk raw pos a ∧ Stops sha256 disk raw pos a a' ∧
        r = a'.finish := by
  constructor
  · intro h
    have hfit : EndsFit sha256 disk raw := by
      by_contra hno
      obtain ⟨f, hf⟩ := replay_fault hno
      rw [hf] at h
      cases h
    obtain ⟨pos, a, a', hreach, hstops⟩ := exists_stops hfit .start
    rw [replay_of_stops hfit hreach hstops] at h
    exact ⟨hfit, pos, a, a', hreach, hstops, (Except.ok.inj h).symm⟩
  · rintro ⟨hfit, pos, a, a', hreach, hstops, rfl⟩
    exact replay_of_stops hfit hreach hstops

end Ruse.Persist
