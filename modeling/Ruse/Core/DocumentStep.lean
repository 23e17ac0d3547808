import Ruse.Core.Document
import Ruse.Core.UndoInvariant

/-!
# What an operation of a document can do

The part of a document the history and the change log speak of is its `Inner` state;
anchors, tracked positions and the line index follow it and never feed back.
Every operation, seen on it, is a sequence of `InnerStep`s
(`step_inner`), so an invariant of it is shown for four cases once;
the saved node alone is set besides (`Op.savedNode`).

* `sync` — closing the undo group;
* `empty` — an empty transaction, which bumps the revision;
* `fresh` — a change recorded as a new undo node;
* `move` — an undo, a redo or a chronological move, list by list.

The three operations on the log itself change nothing else (`step_log`). So a revision
names one text (`revision_names_text`).
-/

namespace Ruse.Core

open Lib (run moment run_append run_rel moment_later)

/-- Apply an edit list that fits, `none` where it is out of bounds. -/
def EditList.applyIn (l : EditList) (buf : Bytes) : Option Bytes :=
  if l.InBounds buf.length then some (l.applyTo buf) else none

theorem EditList.applyIn_of_inBounds {l : EditList} {buf : Bytes} (h : l.InBounds buf.length) :
    l.applyIn buf = some (l.applyTo buf) := if_pos h

theorem EditList.applyIn_eq_some {l : EditList} {buf buf' : Bytes}
    (h : l.applyIn buf = some buf') : l.InBounds buf.length ∧ l.applyTo buf = buf' := by
  unfold EditList.applyIn at h
  split at h
  · rename_i hin
    exact ⟨hin, Option.some.inj h⟩
  · cases h

theorem EditList.applyIn_inverse {l : EditList} {buf : Bytes} (h : l.InBounds buf.length) :
    (l.inverse buf).applyIn (l.applyTo buf) = some buf := by
  rw [applyIn_of_inBounds (inverse_inBounds h), inverse_applyTo h]

@[simp] theorem EditList.empty_inBounds (n : Nat) : empty.InBounds n := by
  simp [InBounds]

@[simp] theorem EditList.inverse_empty (buf : Bytes) : empty.inverse buf = empty := by
  rw [EditList.inverse, dif_pos (empty_inBounds _)]
  rfl

namespace Document

structure LogState where
  text : Bytes
  revision : Nat
  changes : ChangeLog

/-- What the history and the change log speak of. -/
structure Inner extends LogState where
  undo : UndoHistory
  savedNode : Option Nat

def inner (d : Document) : Inner := ⟨⟨d.text, d.revision, d.changes⟩, d.undo, d.savedNode⟩

/-- An entry for the list `edits` applied in state `s`. -/
structure EntryFor (s : LogState) (edits : EditList) (e : ChangeEntry) : Prop where
  base : e.baseRevision = s.revision
  result : e.resultRevision = s.revision + 1
  forward : e.forward = edits
  inverse : e.inverse = edits.inverse s.text

/-- Edit lists applied one after the other, each a revision and a log entry. -/
inductive Applied : LogState → List EditList → LogState → Prop
  | nil (s : LogState) : Applied s [] s
  | cons {s s' : LogState} {edits : EditList} {rest : List EditList} (e : ChangeEntry) :
      EntryFor s edits e →
      Applied ⟨edits.applyTo s.text, s.revision + 1, s.changes.push e⟩ rest s' →
      Applied s (edits :: rest) s'

theorem Applied.one {s : LogState} {edits : EditList} (e : ChangeEntry)
    (he : EntryFor s edits e) :
    Applied s [edits] ⟨edits.applyTo s.text, s.revision + 1, s.changes.push e⟩ :=
  .cons e he (.nil _)

theorem Applied.text {s s' : LogState} {es : List EditList} (h : Applied s es s') {t : Bytes}
    (hfit : Lib.VersionTree.replay EditList.applyIn es s.text = some t) : s'.text = t := by
  induction h with
  | nil => exact Option.some.inj hfit
  | @cons s s' edits rest e he _ ih =>
    obtain ⟨mid, hmid, hrest⟩ := Option.bind_eq_some_iff.mp hfit
    exact ih (by rw [(EditList.applyIn_eq_some hmid).2]; exact hrest)

end Document

def UndoHistory.Move (h h' : UndoHistory) (step : UndoStep) : Prop :=
  h.undo = some (h', step) ∨ h.redo = some (h', step) ∨
    ∃ older, h.toChronological older = some (h', step)

namespace Document

/-- One thing an operation does to the inner state. -/
inductive InnerStep : Inner → Inner → Prop
  | sync (c : Inner) : InnerStep c { c with undo := c.undo.sync }
  | empty {c : Inner} {s : LogState} : Applied c.toLogState [.empty] s →
      InnerStep c { c with toLogState := s }
  | fresh {c : Inner} {s : LogState} {edits : EditList} (origin : TransactionOrigin)
      (hint : GroupHint) (cursor : Nat) :
      edits.InBounds c.text.length → Applied c.toLogState [edits] s →
      InnerStep c
        { c with
          toLogState := s
          undo := c.undo.record edits (edits.inverse c.text) origin hint s.revision cursor }
  | move {c : Inner} {s : LogState} {h : UndoHistory} {step : UndoStep} :
      c.undo.Move h step → Applied c.toLogState step.edits s →
      InnerStep c { c with toLogState := s, undo := h }

/-- Things done one after the other. -/
inductive InnerSteps : Inner → Inner → Prop
  | refl (c : Inner) : InnerSteps c c
  | tail {a b c : Inner} : InnerSteps a b → InnerStep b c → InnerSteps a c

theorem InnerStep.steps {a b : Inner} (h : InnerStep a b) : InnerSteps a b := .tail (.refl a) h

theorem InnerSteps.trans {a b c : Inner} (h : InnerSteps a b) (h' : InnerSteps b c) :
    InnerSteps a c := by
  induction h' with
  | refl => exact h
  | tail _ hstep ih => exact .tail ih hstep

/-! ## The pieces of an operation -/

theorem applyEmpty_inner (d : Document) (txn : Transaction) :
    InnerStep d.inner (d.applyEmpty txn).inner := by
  have h : EntryFor d.inner.toLogState .empty
      { baseRevision := d.revision, resultRevision := d.revision + 1, origin := txn.origin,
        groupHint := txn.groupHint, forward := .empty, inverse := .empty,
        kind := .navigate d.undo.currentSeq } :=
    ⟨rfl, rfl, rfl, (EditList.inverse_empty _).symm⟩
  have happ := Applied.one _ h
  rw [EditList.applyTo_empty] at happ
  exact .empty happ

theorem commit_inner (d : Document) (txn : Transaction) (track : Bool) (tracked : List Tracked)
    (hin : txn.edits.InBounds d.text.length) :
    InnerStep d.inner (d.commit txn track tracked).1.inner := by
  have h : ∀ node parent, EntryFor d.inner.toLogState txn.edits
      { baseRevision := d.revision, resultRevision := d.revision + 1, origin := txn.origin,
        groupHint := txn.groupHint, forward := txn.edits, inverse := txn.edits.inverse d.text,
        kind := .fresh node parent } := fun _ _ => ⟨rfl, rfl, rfl, rfl⟩
  exact .fresh (c := d.inner) txn.origin _ _ hin (Applied.one _ (h _ _))

/-- An applied transaction is one step of the text and its log, or none. -/
theorem applyInner_inner {d d' : Document} {txn : Transaction} {track : Bool}
    {tracked tracked' : List Tracked}
    (h : d.applyInner txn track tracked = .ok (d', tracked')) : InnerStep d.inner d'.inner := by
  unfold applyInner at h
  split at h
  · cases h
  · split at h
    · cases h
    · cases h
    · rename_i hb
      split at h
      · cases h
        exact applyEmpty_inner d txn
      · have hcommit := commit_inner d txn track tracked (EditList.checkBounds_ok_iff.mp hb)
        cases hc : d.commit txn track tracked with
        | mk d₁ t₁ =>
          rw [hc] at h hcommit
          cases h
          exact hcommit

@[simp] theorem restoreMarks_inner (d : Document) (group : Nat) (before : List (Option Nat))
    (tracked : List Tracked) : (d.restoreMarks group before tracked).1.inner = d.inner := by
  unfold restoreMarks
  split <;> rfl

/-- A replayed list puts one entry into the log. -/
theorem replayOne_inner (step : UndoStep) (r : Replay) (edits : EditList) (i : Nat) :
    ∃ e, EntryFor r.doc.inner.toLogState edits e ∧
      (replayOne step r (edits, i)).doc.inner =
        { r.doc.inner with
          text := edits.applyTo r.doc.text
          revision := r.doc.revision + 1
          changes := r.doc.changes.push e } := by
  refine ⟨{ baseRevision := r.doc.revision, resultRevision := r.doc.revision + 1,
            origin := (step.nodes.getD i (0, none)).2.getD .userInput,
            groupHint := .continue', forward := edits, inverse := edits.inverse r.doc.text,
            kind := .navigate (step.nodes.getD i (0, none)).1 }, ⟨rfl, rfl, rfl, rfl⟩, ?_⟩
  unfold replayOne
  dsimp only
  split
  · split
    · rw [restoreMarks_inner]
      rfl
    · rfl
  · rfl

theorem replayFold_inner (step : UndoStep) (es : List (EditList × Nat)) (r : Replay) :
    ∃ s, Applied r.doc.inner.toLogState (es.map Prod.fst) s ∧
      (es.foldl (replayOne step) r).doc.inner = { r.doc.inner with toLogState := s } := by
  induction es generalizing r with
  | nil => exact ⟨_, .nil _, rfl⟩
  | cons p es ih =>
    obtain ⟨edits, i⟩ := p
    obtain ⟨e, he, hone⟩ := replayOne_inner step r edits i
    obtain ⟨s, hs, hfold⟩ := ih (replayOne step r (edits, i))
    rw [hone] at hs hfold
    exact ⟨s, .cons e he hs, hfold⟩

theorem replay_inner {d : Document} {h : UndoHistory} {step : UndoStep} (cursor : Nat)
    (tracked : List Tracked) (hm : d.undo.Move h step) :
    InnerStep d.inner ({ d with undo := h }.replay step cursor tracked).1.inner := by
  obtain ⟨s, hs, hfold⟩ := replayFold_inner step step.edits.zipIdx
    ⟨{ d with undo := h }, tracked, [], (0, 0), UndoCursor.lineCount d.text, []⟩
  rw [List.zipIdx_map_fst] at hs
  have hinner : ({ d with undo := h }.replay step cursor tracked).1.inner =
      { d.inner with toLogState := s, undo := h } := hfold
  rw [hinner]
  exact .move hm hs

theorem lineUndoTracked_inner (d : Document) (cursor : Nat) (origin : TransactionOrigin)
    (tracked : List Tracked) :
    InnerSteps d.inner (d.lineUndoTracked cursor origin tracked).1.inner := by
  unfold lineUndoTracked
  split
  · exact .refl _
  · dsimp only
    split
    · exact .refl _
    · split
      · exact .refl _
      · rename_i happ
        exact (applyInner_inner happ).steps

theorem syncUndo_inner (d : Document) : InnerSteps d.inner d.syncUndo.inner :=
  (InnerStep.sync d.inner).steps

theorem reloadTracked_inner (d : Document) (bytes : Bytes) (tracked : List Tracked) :
    ∃ c, InnerSteps d.inner c ∧ (d.reloadTracked bytes tracked).1.inner =
      { c with savedNode := some c.undo.currentSeq } := by
  unfold reloadTracked
  obtain ⟨l, hl⟩ := EditList.new_single (Edit.linesChanged d.text bytes)
  rw [hl]
  dsimp only
  split
  · exact ⟨_, (syncUndo_inner d).trans ((syncUndo_inner _).trans (syncUndo_inner _)), rfl⟩
  · rename_i d' tracked' happ
    exact ⟨_, (syncUndo_inner d).trans
      ((applyInner_inner happ).steps.trans ((syncUndo_inner d').trans (syncUndo_inner _))), rfl⟩

/-! ## The operations -/

/-- The operations on the change log itself. -/
def Op.OnLog : Op → Prop
  | .recordChanges _ => True
  | .setChangeLogCap _ => True
  | .drainChanges => True
  | _ => False

/-- The saved node an operation leaves, once the rest of it is done. -/
def Op.savedNode : Op → Inner → Option Nat
  | .markSaved, c => some c.undo.currentSeq
  | .reload _ _, c => some c.undo.currentSeq
  | .markUnsaved, _ => none
  | _, c => c.savedNode

/-- Every other operation is a sequence of inner steps, and sets the saved node. -/
theorem step_inner (d : Document) {op : Op} (hop : ¬ op.OnLog) :
    ∃ c, InnerSteps d.inner c ∧ (step d op).inner = { c with savedNode := op.savedNode c } := by
  cases op with
  | apply txn tracked =>
    simp only [step]
    split
    · rename_i happ
      exact ⟨_, (applyInner_inner happ).steps, rfl⟩
    · exact ⟨_, .refl _, rfl⟩
  | undo cursor tracked =>
    simp only [step, undoTracked]
    cases hu : d.undo.undo with
    | none => exact ⟨_, .refl _, rfl⟩
    | some r => exact ⟨_, (replay_inner cursor tracked (.inl hu)).steps, rfl⟩
  | redo cursor tracked =>
    simp only [step, redoTracked]
    cases hr : d.undo.redo with
    | none => exact ⟨_, .refl _, rfl⟩
    | some r => exact ⟨_, (replay_inner cursor tracked (.inr (.inl hr))).steps, rfl⟩
  | chronological older cursor tracked =>
    simp only [step, chronologicalTracked]
    cases hc : d.undo.toChronological older with
    | none => exact ⟨_, .refl _, rfl⟩
    | some r => exact ⟨_, (replay_inner cursor tracked (.inr (.inr ⟨older, hc⟩))).steps, rfl⟩
  | syncUndo => exact ⟨_, syncUndo_inner d, rfl⟩
  | markSaved => exact ⟨_, syncUndo_inner d, rfl⟩
  | lineUndo cursor origin tracked => exact ⟨_, lineUndoTracked_inner d cursor origin tracked, rfl⟩
  | reload bytes tracked => exact reloadTracked_inner d bytes tracked
  | recordChanges on => exact absurd trivial hop
  | setChangeLogCap cap => exact absurd trivial hop
  | drainChanges => exact absurd trivial hop
  | markUnsaved => exact ⟨_, .refl _, rfl⟩
  | beginUndoBlock => exact ⟨_, .refl _, rfl⟩
  | endUndoBlock => exact ⟨_, .refl _, rfl⟩
  | primeLineUndo cursor newCommand => exact ⟨_, .refl _, rfl⟩
  | clearLineUndo disarm => exact ⟨_, .refl _, rfl⟩
  | lookupLines => exact ⟨_, .refl _, rfl⟩
  | pinTracked tracked => exact ⟨_, .refl _, rfl⟩
  | takePinned => exact ⟨_, .refl _, rfl⟩
  | createAnchor offset bias policy => exact ⟨_, .refl _, rfl⟩
  | createLineAnchor offset gravity => exact ⟨_, .refl _, rfl⟩
  | removeAnchor id => exact ⟨_, .refl _, rfl⟩
  | setModifiable on => exact ⟨_, .refl _, rfl⟩

theorem InnerSteps.savedNode {a b : Inner} (h : InnerSteps a b) : b.savedNode = a.savedNode := by
  induction h with
  | refl => rfl
  | tail _ hstep ih => cases hstep <;> exact ih

theorem step_inner_undo (d : Document) (op : Op) :
    ∃ c, InnerSteps d.inner c ∧ (step d op).undo = c.undo ∧ (step d op).text = c.text ∧
      (step d op).revision = c.revision := by
  by_cases hop : op.OnLog
  · refine ⟨d.inner, .refl _, ?_, ?_, ?_⟩
    all_goals cases op <;> first | exact absurd hop id | rfl
  · obtain ⟨c, hc, heq⟩ := step_inner d hop
    exact ⟨c, hc, congrArg Inner.undo heq, congrArg (fun c : Inner => c.text) heq,
      congrArg (fun c : Inner => c.revision) heq⟩

/-- An operation on the log changes nothing else. -/
theorem step_log (d : Document) {op : Op} (hop : op.OnLog) :
    (step d op).inner = { d.inner with changes := (step d op).changes } := by
  cases op <;> first | exact absurd hop id | rfl

/-! ## Revisions -/

/-- Between `d` and `e` the revision did not go back, and where it stands still so does the
text. -/
def Later (d e : Document) : Prop :=
  d.revision ≤ e.revision ∧ (e.revision = d.revision → e.text = d.text)

theorem Applied.revision_le {s s' : LogState} {es : List EditList} (h : Applied s es s') :
    s.revision ≤ s'.revision := by
  induction h with
  | nil => exact Nat.le_refl _
  | cons e he _ ih => exact Nat.le_of_succ_le ih

theorem Applied.later {s s' : LogState} {es : List EditList} (h : Applied s es s') :
    s.revision ≤ s'.revision ∧ (s'.revision = s.revision → s'.text = s.text) := by
  cases h with
  | nil => exact ⟨Nat.le_refl _, fun _ => rfl⟩
  | cons e he hrest =>
    have hpast : s.revision + 1 ≤ s'.revision := hrest.revision_le
    exact ⟨Nat.le_of_succ_le hpast, fun heq => by omega⟩

theorem InnerSteps.later {a b : Inner} (h : InnerSteps a b) :
    a.revision ≤ b.revision ∧ (b.revision = a.revision → b.text = a.text) := by
  induction h with
  | refl => exact ⟨Nat.le_refl _, fun _ => rfl⟩
  | @tail b c _ hstep ih =>
    have hone : b.revision ≤ c.revision ∧ (c.revision = b.revision → c.text = b.text) := by
      cases hstep with
      | sync => exact ⟨Nat.le_refl _, fun _ => rfl⟩
      | empty happ => exact happ.later
      | fresh _ _ _ _ happ => exact happ.later
      | move _ happ => exact happ.later
    obtain ⟨hle, htext⟩ := ih
    obtain ⟨hle', htext'⟩ := hone
    exact ⟨hle.trans hle', fun heq => by rw [htext' (by omega), htext (by omega)]⟩

theorem run_later (d : Document) (ops : List Op) : Later d (run step d ops) := by
  refine run_rel (P := fun _ => True) (R := Later) (fun _ _ _ => trivial)
    (fun _ => ⟨Nat.le_refl _, fun _ => rfl⟩) ?_ ?_ trivial ops
  · intro d e f hde hef
    refine ⟨hde.1.trans hef.1, fun heq => ?_⟩
    have hle := hde.1
    have hle' := hef.1
    rw [hef.2 (by omega), hde.2 (by omega)]
  · intro d op _
    obtain ⟨c, hc, -, htext, hrev⟩ := step_inner_undo d op
    rw [Later, htext, hrev]
    exact hc.later

theorem applyTracked_advances {d d' : Document} {txn : Transaction}
    {tracked tracked' : List Tracked} (h : d.applyTracked txn tracked = .ok (d', tracked')) :
    txn.baseRevision = d.revision ∧ d'.revision = d.revision + 1 := by
  unfold applyTracked applyInner at h
  split at h
  · cases h
  · rename_i hbase
    refine ⟨not_not.mp hbase, ?_⟩
    split at h
    · cases h
    · cases h
    · split at h <;> cases h <;> rfl

/-- A revision names one text: over any run it never goes back, and two moments of one
revision show one text. A transaction once taken is stale ever after, so none is applied
twice, and a document that replaces this one shows none of its revisions. -/
theorem revision_names_text (d : Document) (ops : List Op) {i j : Nat} (hij : i ≤ j) :
    let at' := moment step d ops
    (at' i).revision ≤ (at' j).revision ∧
      ((at' j).revision = (at' i).revision → (at' j).text = (at' i).text) ∧
      (∀ txn tracked, i < j → ops[i]? = some (.apply txn tracked) →
        ((at' i).applyTracked txn tracked).toOption.isSome →
          ∀ again tracked', again.baseRevision = txn.baseRevision →
            (at' j).applyTracked again tracked' =
              .error (.staleBaseRevision again.baseRevision (at' j).revision)) ∧
      ∀ bytes ops', (at' j).revision <
        (run step (replacing bytes (at' j).revision) ops').revision := by
  dsimp only
  obtain ⟨rest, hrest⟩ := moment_later step d ops hij
  have hlater := run_later (moment step d ops i) rest
  rw [← hrest] at hlater
  refine ⟨hlater.1, hlater.2, ?_, fun bytes ops' => ?_⟩
  · intro txn tracked hlt hop hok again tracked' hbase
    obtain ⟨⟨d', t'⟩, htaken⟩ := Option.isSome_iff_exists.mp hok
    have happ : (moment step d ops i).applyTracked txn tracked = .ok (d', t') := by
      cases hcase : (moment step d ops i).applyTracked txn tracked with
      | error e => rw [hcase] at htaken; cases htaken
      | ok r => rw [hcase] at htaken; cases htaken; rfl
    obtain ⟨hrev, hnext⟩ := applyTracked_advances happ
    -- the operation itself goes past the revision the transaction was made for
    have hone : moment step d ops (i + 1) = d' := by
      rw [moment, List.take_add_one, hop, run_append, Option.toList_some]
      show step (moment step d ops i) (.apply txn tracked) = d'
      simp only [step, happ]
    obtain ⟨rest', hrest'⟩ := moment_later step d ops (Nat.succ_le_of_lt hlt)
    have hpast := (run_later (moment step d ops (i + 1)) rest').1
    rw [← hrest', hone] at hpast
    unfold applyTracked applyInner
    rw [if_pos (by omega)]
  · have hreplaced := (run_later (replacing bytes (moment step d ops j).revision) ops').1
    exact Nat.lt_of_lt_of_le (Nat.lt_succ_self _) hreplaced

/-- A transaction made for revision 0 is refused once it was applied. -/
theorem revision_names_text_typed :
    let txn := Transaction.new 0 ⟨[Edit.insert 0 [120]], by decide, by decide⟩ .userInput
    (moment step (new [104]) [.apply txn []] 1).applyTracked txn [] =
      .error (.staleBaseRevision 0 1) :=
  (revision_names_text (new [104]) _ (Nat.zero_le 1)).2.2.1 _ [] Nat.zero_lt_one rfl (by decide)
    _ [] rfl

end Document

end Ruse.Core
