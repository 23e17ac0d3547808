import Ruse.Core.VersionedText

/-!
# The change log loses nothing silently

Between two drains the log either holds a `Chain` from the text the earlier drain
saw to the text now, one entry per revision, or it is no longer `wants`-ing and
the next drain is a checkpoint of the text now. `Tracks` is that disjunction; each
list applied keeps it (`Tracks.applied`), and so does every operation but a drain
(`step_tracks`).
-/

namespace Ruse.Core

open Ruse.Lib

namespace ChangeLog

variable {r r' : Nat} {es : List ChangeEntry} {l : ChangeLog}

/-- Replaying the forward lists of some entries. -/
def replayForward (es : List ChangeEntry) (text : Bytes) : Option Bytes :=
  VersionTree.replay EditList.applyIn (es.map ChangeEntry.forward) text

/-- Replaying the inverse lists of some entries, the newest first. -/
def replayBackward (es : List ChangeEntry) (text : Bytes) : Option Bytes :=
  VersionTree.replay EditList.applyIn (es.reverse.map ChangeEntry.inverse) text

/-- The revisions of some entries chain from `r` to `r'`, one by one. -/
def Chained : Nat → List ChangeEntry → Nat → Prop
  | r, [], r' => r = r'
  | r, e :: es, r' => e.baseRevision = r ∧ e.resultRevision = r + 1 ∧ Chained (r + 1) es r'

theorem Chained.snoc {e : ChangeEntry} (h : Chained r es r') (hb : e.baseRevision = r')
    (hr : e.resultRevision = r' + 1) :
    Chained r (es ++ [e]) (r' + 1) := by
  induction es generalizing r with
  | nil =>
    cases h
    exact ⟨hb, hr, rfl⟩
  | cons e' es ih => exact ⟨h.1, h.2.1, ih h.2.2⟩

theorem Chain.chained {a b : Bytes} (h : Chain r a es r' b) : Chained r es r' := by
  induction h with
  | nil => rfl
  | snoc _ hb hr _ _ ih =>
    rw [hr]
    exact ih.snoc hb hr

theorem Chain.forward {a b : Bytes} (h : Chain r a es r' b) : replayForward es a = some b := by
  induction h with
  | nil => rfl
  | snoc _ _ _ hin _ ih =>
    rw [replayForward, List.map_append, VersionTree.replay_append]
    rw [replayForward] at ih
    rw [ih, Option.bind_some, List.map_cons, List.map_nil, VersionTree.replay,
      EditList.applyIn_of_inBounds hin, Option.bind_some, VersionTree.replay]

theorem Chain.backward {a b : Bytes} (h : Chain r a es r' b) : replayBackward es b = some a := by
  induction h with
  | nil => rfl
  | snoc _ _ _ hin hinv ih =>
    rw [replayBackward, List.reverse_append, List.reverse_singleton, List.singleton_append,
      List.map_cons, VersionTree.replay, hinv, EditList.applyIn_inverse hin, Option.bind_some]
    exact ih

theorem push_of_not_wants (e : ChangeEntry) (h : l.wants = false) :
    l.push e = l := by
  rw [push, if_pos (by rw [h]; exact Bool.false_ne_true)]

theorem push_cases (e : ChangeEntry) (h : l.wants = true) :
    ((l.push e).entries = l.entries ++ [e] ∧ (l.push e).wants = true) ∨
      (l.push e).wants = false := by
  rw [push, if_neg (by rw [h]; simp)]
  dsimp only
  split
  · refine .inr ?_
    simp [wants]
  · exact .inl ⟨rfl, h⟩

/-- A drain of a log that stopped is a checkpoint of the state it is given. -/
theorem drain_of_not_wants (text : Bytes) (revision node : Nat) (h : l.wants = false) :
    ∃ reason, (l.drain text revision node).2 = .checkpoint reason text revision node := by
  unfold drain
  cases hr : l.recording with
  | false => exact ⟨.notRecording, by simp⟩
  | true =>
    cases hl : l.lost with
    | none => simp [wants, hr, hl] at h
    | some reason => exact ⟨reason, by simp⟩

theorem drain_of_wants (text : Bytes) (revision node : Nat) (h : l.wants = true) :
    (l.drain text revision node).2 = .changes l.entries ∧
      (l.drain text revision node).1.entries = [] ∧
      (l.drain text revision node).1.wants = true := by
  simp only [wants, Bool.and_eq_true, Option.isNone_iff_eq_none] at h
  simp [drain, wants, h.1, h.2]

theorem drain_entries (l : ChangeLog) (text : Bytes) (revision node : Nat) :
    (l.drain text revision node).1.entries = [] := by
  cases hw : l.wants with
  | true => exact (drain_of_wants text revision node hw).2.1
  | false =>
    unfold drain
    cases hr : l.recording with
    | false => rfl
    | true =>
      cases hl : l.lost with
      | none => simp [wants, hr, hl] at hw
      | some reason => simp [clear]

theorem setRecording_cases (l : ChangeLog) (on : Bool) :
    l.setRecording on = l ∨ (l.setRecording on).wants = false := by
  unfold setRecording
  split
  · exact .inl rfl
  · refine .inr ?_
    cases on <;> simp [wants, clear]

end ChangeLog

namespace Document

variable {r : Nat} {t : Bytes} {s s' : LogState} {a b : Inner} {d : Document} {op : Op}

open ChangeLog

/-- What the log says of the changes since a drain that saw `text` at
`revision`: while it records, they are its entries. -/
def Tracks (revision : Nat) (text : Bytes) (s : LogState) : Prop :=
  s.changes.wants = true → Chain revision text s.changes.entries s.revision s.text

/-- Lists applied in turn keep the log a record of the text. -/
theorem Tracks.applied {es : List EditList} (h : Tracks r t s) (happ : Applied s es s')
    (hfit : FitsInTurn es s.text) :
    Tracks r t s' := by
  induction happ with
  | nil => exact h
  | @cons s s' edits rest e he _ ih =>
    refine ih ?_ hfit.2
    intro hw
    cases hws : s.changes.wants with
    | false =>
      rw [push_of_not_wants e hws, hws] at hw
      cases hw
    | true =>
      rcases push_cases e hws with ⟨hentries, -⟩ | hstop
      · have hchain := (h hws).snoc he.base he.result (by rw [he.forward]; exact hfit.1)
          (by rw [he.inverse, he.forward])
        rw [he.result, he.forward, ← hentries] at hchain
        exact hchain
      · rw [hstop] at hw
        cases hw

/-- Applying lists never starts a stopped log. -/
theorem Applied.wants {es : List EditList} (happ : Applied s es s') (h : s.changes.wants = false) :
    s'.changes.wants = false := by
  induction happ with
  | nil => exact h
  | cons e _ _ ih => exact ih (by rw [push_of_not_wants e h]; exact h)

theorem InnerStep.tracks {root : Bytes} (h : InnerStep a b) (hv : Versioned root a)
    (ht : Tracks r t a.toLogState) :
    Tracks r t b.toLogState := by
  cases h with
  | sync => exact ht
  | empty happ => exact ht.applied happ ⟨EditList.empty_inBounds _, trivial⟩
  | fresh origin hint cursor hin happ => exact ht.applied happ ⟨hin, trivial⟩
  | move hm happ =>
    have hfit := fitsInTurn_of_replay ((hm.moved hv.wf).replay hv.sound)
    rw [← hv.text] at hfit
    exact ht.applied happ hfit

theorem InnerSteps.tracks {root : Bytes} (h : InnerSteps a b) (hv : Versioned root a)
    (ht : Tracks r t a.toLogState) :
    Tracks r t b.toLogState := by
  induction h with
  | refl => exact ht
  | tail hab hstep ih => exact hstep.tracks (hab.versioned hv).1 ih

theorem InnerSteps.wants (h : InnerSteps a b) (hw : a.changes.wants = false) :
    b.changes.wants = false := by
  induction h with
  | refl => exact hw
  | tail _ hstep ih =>
    cases hstep with
    | sync => exact ih
    | empty happ => exact happ.wants ih
    | fresh _ _ _ _ happ => exact happ.wants ih
    | move _ happ => exact happ.wants ih

/-- Every operation but a drain keeps what the log says. -/
theorem step_tracks {root : Bytes} (hop : op ≠ .drainChanges) (hv : Versioned root d.inner)
    (ht : Tracks r t d.inner.toLogState) : Tracks r t (step d op).inner.toLogState := by
  by_cases hlog : op.OnLog
  · cases op with
    | recordChanges on =>
      intro hw
      rcases setRecording_cases d.changes on with heq | hstop
      · have hw' : (d.changes.setRecording on).wants = true := hw
        rw [heq] at hw'
        show Chain r t (d.changes.setRecording on).entries d.revision d.text
        rw [heq]
        exact ht hw'
      · have hw' : (d.changes.setRecording on).wants = true := hw
        rw [hstop] at hw'
        cases hw'
    | setChangeLogCap cap => exact fun hw => ht hw
    | drainChanges => exact absurd rfl hop
    | _ => exact absurd hlog id
  · obtain ⟨c, hc, heq⟩ := step_inner d hlog
    rw [heq]
    exact hc.tracks hv ht

theorem Applied.prefix {es : List EditList} (happ : Applied s es s') (hw : s'.changes.wants = true) :
    s.changes.entries <+: s'.changes.entries := by
  induction happ with
  | nil => exact List.prefix_refl _
  | @cons s s' edits rest e _ hrest ih =>
    cases hws : s.changes.wants with
    | false =>
      have := hrest.wants (by rw [push_of_not_wants e hws]; exact hws)
      rw [hw] at this
      cases this
    | true =>
      rcases push_cases e hws with ⟨hentries, -⟩ | hstop
      · refine List.IsPrefix.trans ?_ (ih hw)
        rw [hentries]
        exact List.prefix_append _ _
      · rw [hrest.wants hstop] at hw
        cases hw

theorem InnerSteps.prefix (h : InnerSteps a b) (hw : b.changes.wants = true) :
    a.changes.entries <+: b.changes.entries := by
  induction h with
  | refl => exact List.prefix_refl _
  | @tail b c hab hstep ih =>
    have hwb : b.changes.wants = true := by
      by_contra hstop
      rw [hstep.steps.wants (Bool.eq_false_iff.mpr hstop)] at hw
      cases hw
    refine (ih hwb).trans ?_
    cases hstep with
    | sync => exact List.prefix_refl _
    | empty happ => exact happ.prefix hw
    | fresh _ _ _ _ happ => exact happ.prefix hw
    | move _ happ => exact happ.prefix hw

/-- A log that wants no entries wants none until it is drained. -/
theorem step_wants (hop : op ≠ .drainChanges) (hw : d.changes.wants = false) :
    (step d op).changes.wants = false := by
  by_cases hlog : op.OnLog
  · cases op with
    | recordChanges on =>
      show (d.changes.setRecording on).wants = false
      rcases setRecording_cases d.changes on with heq | hstop
      · rw [heq]
        exact hw
      · exact hstop
    | setChangeLogCap cap => exact hw
    | drainChanges => exact absurd rfl hop
    | _ => exact absurd hlog id
  · obtain ⟨c, hc, heq⟩ := step_inner d hlog
    have hchanges : (step d op).changes = c.changes :=
      congrArg (fun c : Inner => c.changes) heq
    rw [hchanges]
    exact hc.wants hw

/-- An operation discards log entries: ones recorded before it are gone after it,
or it stops a log that was recording. -/
def Discards (d : Document) (op : Op) : Prop :=
  ¬ d.changes.entries <+: (step d op).changes.entries ∨
    (d.changes.wants = true ∧ (step d op).changes.wants = false)

/-- Entries are discarded only by stopping the log. -/
theorem Discards.wants (hop : op ≠ .drainChanges) (h : Discards d op) :
    (step d op).changes.wants = false := by
  by_contra hon
  have hw : (step d op).changes.wants = true := Bool.eq_true_of_not_eq_false hon
  rcases h with hgone | ⟨-, hstop⟩
  · refine hgone ?_
    by_cases hlog : op.OnLog
    · cases op with
      | recordChanges on =>
        rcases setRecording_cases d.changes on with heq | hstop
        · have hentries : (d.changes.setRecording on).entries = d.changes.entries := by rw [heq]
          exact hentries ▸ List.prefix_refl _
        · exact absurd hstop hon
      | setChangeLogCap cap => exact List.prefix_refl _
      | drainChanges => exact absurd rfl hop
      | _ => exact absurd hlog id
    · obtain ⟨c, hc, heq⟩ := step_inner d hlog
      have hchanges : (step d op).changes = c.changes :=
        congrArg (fun c : Inner => c.changes) heq
      rw [hchanges] at hw ⊢
      exact hc.prefix hw
  · exact hon hstop

/-! ## Between two drains -/

section
variable {root : Bytes} {ops : List Op} (hops : ∀ op ∈ ops, op ≠ Op.drainChanges)
include hops

theorem run_tracks (hv : Versioned root d.inner) (ht : Tracks r t d.inner.toLogState) :
    Tracks r t (run step d ops).inner.toLogState := by
  induction ops generalizing d with
  | nil => exact ht
  | cons op ops ih =>
    exact ih (fun op' hop' => hops op' (List.mem_cons_of_mem _ hop')) (step_versioned d op hv).1
      (step_tracks (hops op List.mem_cons_self) hv ht)

theorem run_wants (hw : d.changes.wants = false) :
    (run step d ops).changes.wants = false := by
  induction ops generalizing d with
  | nil => exact hw
  | cons op ops ih =>
    exact ih (fun op' hop' => hops op' (List.mem_cons_of_mem _ hop'))
      (step_wants (hops op List.mem_cons_self) hw)

theorem run_discards {i : Nat} (hget : ops[i]? = some op) (h : Discards (moment step d ops i) op) :
    (run step d ops).changes.wants = false := by
  obtain ⟨hlt, hop⟩ := List.getElem?_eq_some_iff.mp hget
  have hsplit : ops = ops.take i ++ op :: ops.drop (i + 1) := by
    rw [← hop, ← List.drop_eq_getElem_cons hlt, List.take_append_drop]
  rw [hsplit, run_append, run_cons]
  exact run_wants (fun op' hop' => hops op' (List.mem_of_mem_drop hop'))
    (h.wants (hops op (List.mem_of_getElem? hget)))

end

/-- What a drain after `d` was last drained, and `d'` reached without a drain,
hands over. -/
structure DrainsWell (d d' : Document) : Prop where
  changes : ∀ es, d'.drainChanges.2 = .changes es →
    Chained d.revision es d'.revision ∧ replayForward es d.text = some d'.text ∧
      replayBackward es d'.text = some d.text
  checkpoint : ∀ reason text revision node,
    d'.drainChanges.2 = .checkpoint reason text revision node →
      text = d'.text ∧ revision = d'.revision ∧ node = d'.undo.currentSeq

theorem drainChanges_eq (d : Document) : d.drainChanges.2 =
    (d.changes.drain d.text d.revision d.undo.currentSeq).2 := rfl

/-- A log that tracks the changes since `d` drains well. -/
theorem drainsWell_of_tracks {d' : Document} (ht : Tracks d.revision d.text d'.inner.toLogState) :
    DrainsWell d d' := by
  cases hw : d'.changes.wants with
  | true =>
    obtain ⟨hdrain, -, -⟩ := drain_of_wants d'.text d'.revision d'.undo.currentSeq hw
    have hchain := ht hw
    constructor
    · intro es hes
      rw [drainChanges_eq, hdrain] at hes
      cases hes
      exact ⟨hchain.chained, hchain.forward, hchain.backward⟩
    · intro reason text revision node hck
      rw [drainChanges_eq, hdrain] at hck
      cases hck
  | false =>
    obtain ⟨reason, hdrain⟩ := drain_of_not_wants d'.text d'.revision d'.undo.currentSeq hw
    constructor
    · intro es hes
      rw [drainChanges_eq, hdrain] at hes
      cases hes
    · intro reason' text revision node hck
      rw [drainChanges_eq, hdrain] at hck
      cases hck
      exact ⟨rfl, rfl, rfl⟩

theorem tracks_drained (d : Document) :
    Tracks d.revision d.text d.drainChanges.1.inner.toLogState := by
  intro _
  have hnil : d.drainChanges.1.changes.entries = [] := drain_entries _ _ _ _
  show Chain _ _ d.drainChanges.1.changes.entries _ _
  rw [hnil]
  exact .nil _ _

/-- The change log loses nothing silently. `d` is the document at a drain and
`d'` the one at the next: changes handed over chain from `d` to `d'` and replay
both ways, a checkpoint holds the state of `d'`, entries discarded in between
make it one, and the first drain of all is one. -/
theorem changeLog_complete (initial : Bytes) (revision : Nat) (ops ops' : List Op)
    (hops' : ∀ op ∈ ops', op ≠ Op.drainChanges) :
    let d := run step (startingAt initial revision) ops
    let drained := d.drainChanges.1
    let d' := run step drained ops'
    DrainsWell d d' ∧
    (∀ i op, ops'[i]? = some op → Discards (moment step drained ops' i) op →
      ∃ reason, d'.drainChanges.2 =
        .checkpoint reason d'.text d'.revision d'.undo.currentSeq) ∧
    ∃ reason, (run step (startingAt initial revision) ops').drainChanges.2 =
      .checkpoint reason (run step (startingAt initial revision) ops').text
        (run step (startingAt initial revision) ops').revision
        (run step (startingAt initial revision) ops').undo.currentSeq := by
  have hv := run_versioned initial revision ops
  set d := run step (startingAt initial revision) ops
  have hvd : Versioned initial d.drainChanges.1.inner :=
    (step_versioned d .drainChanges hv).1
  dsimp only
  refine ⟨drainsWell_of_tracks (run_tracks hops' hvd (tracks_drained d)), ?_, ?_⟩
  · intro i op hget hdisc
    exact drain_of_not_wants _ _ _ (run_discards hops' hget hdisc)
  · exact drain_of_not_wants _ _ _ (run_wants hops' rfl)

/-- The log switched on and drained, and drained again after a reload and its
undo. -/
theorem changeLog_complete_reload :
    DrainsWell (run step (startingAt [] 0) [.recordChanges true])
      (run step (run step (startingAt [] 0) [.recordChanges true]).drainChanges.1
        [.reload [97] [], .undo 0 []]) :=
  (changeLog_complete [] 0 [.recordChanges true] [.reload [97] [], .undo 0 []]
    (fun op hop => by
      rcases List.mem_cons.mp hop with rfl | hop
      · exact Op.noConfusion
      · rw [List.mem_singleton.mp hop]
        exact Op.noConfusion)).1

end Document

end Ruse.Core
