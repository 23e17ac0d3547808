import Ruse.Core.MarksReturn

/-!
# Marks come back with undo

The positions of one owner over a run: every operation is given the list the one
before it answered (`carry`). Seen on the text, the list and the saved marks an
operation is quiet, records a change, or crosses groups (`MarkStep`), and each of the
three keeps the positions with their nodes (`Settled.next`). So whenever the history
comes back to a node the restorable positions do too (`marks_come_back`).
-/

namespace Ruse.Core

open Ruse.Lib Ruse.Lib.VersionTree

variable {c n : Nat} {d d' : Document} {tracked tracked' : List Tracked}

/-! ## A recorded change -/

namespace UndoHistory

/-- What a recorded change does to the nodes: `r` is `h` with one more, made from
`current` by `fwd`, in a group of its own or in that of the newest node. -/
structure Grown (h r : UndoHistory) (root : Bytes) (fwd : EditList) : Prop where
  tree : Tree r
  size : r.size = h.size + 1
  current : r.current = h.size
  parentOf_old : ∀ i < h.size, r.parentOf i = h.parentOf i
  parentOf_new : r.parentOf h.size = some h.current
  forwardOf_old : ∀ i < h.size, r.forwardOf i = h.forwardOf i
  forwardOf_new : r.forwardOf h.size = fwd
  groupOf_old : ∀ i < h.size, r.groupOf i = h.groupOf i
  groupOf_new : r.groupOf h.size = h.groupOf h.current ∨
    ∀ i < h.size, h.groupOf i ≠ r.groupOf h.size
  textOf_old : ∀ i < h.size, r.textOf root i = h.textOf root i
  textOf_new : r.textOf root h.size = fwd.applyTo (h.textOf root h.current)

/-- A recorded change makes the history grow by its node. -/
theorem grown_record {h : UndoHistory} (hw : WF h) (root : Bytes) (fwd inv : EditList)
    (origin : TransactionOrigin) (hint : GroupHint) (revision cursor : Nat) :
    Grown h (h.record fwd inv origin hint revision cursor) root fwd := by
  have hc := hw.tip.1
  have hnew := node_record_new h fwd inv origin hint revision cursor hc
  have hg : (h.record fwd inv origin hint revision cursor).groupOf h.size =
      (h.groupFor origin hint).1 := by rw [groupOf, hnew]
  exact
  { tree := (wf_record hw fwd inv origin hint revision cursor).toTree
    size := size_record ..
    current := current_record ..
    parentOf_old := fun i hi => parentOf_record_old fwd inv origin hint revision cursor hi
    parentOf_new := by rw [parentOf, hnew]
    forwardOf_old := fun i hi => forwardOf_record_old fwd inv origin hint revision cursor hi
    forwardOf_new := by rw [forwardOf, hnew, Option.getD_some]
    groupOf_old := by
      intro i hi
      rw [groupOf, groupOf, node_record_old h fwd inv origin hint revision cursor hi]
      split <;> rfl
    groupOf_new := by
      rw [hg]
      rcases groupFor_cases hw origin hint with ⟨heq, -, -⟩ | heq
      · exact .inl (by rw [heq])
      · refine .inr fun i hi => ?_
        rw [heq]
        exact Nat.ne_of_lt (hw.group_lt i hi)
    textOf_old := fun i hi => textOf_record_old fwd inv origin hint revision cursor hc root hi
    textOf_new := textOf_record_new fwd inv origin hint revision cursor hc root }

namespace Grown

variable {h r : UndoHistory} {root : Bytes} {fwd : EditList}

theorem under_old (hg : Grown h r root fwd) (hn : n < h.size) :
    Under r.parentOf c n ↔ Under h.parentOf c n := by
  constructor
  · intro hu
    induction hu with
    | refl => exact .refl _
    | @tail m n _ hp ih =>
      have := hg.tree.older _ _ hp
      rw [hg.parentOf_old n hn] at hp
      exact (ih (by omega)).made hp
  · intro hu
    induction hu with
    | refl => exact .refl _
    | @tail m n _ hp ih =>
      have hp' : r.parentOf n = some m := (hg.parentOf_old n hn).trans hp
      have := hg.tree.older _ _ hp'
      exact (ih (by omega)).made hp'

/-- Above the new node stand itself and those above `current`. -/
theorem under_new (hg : Grown h r root fwd) (hc : h.current < h.size) :
    Under r.parentOf c h.size ↔ c = h.size ∨ Under h.parentOf c h.current := by
  rw [← hg.under_old hc]
  constructor
  · intro hu
    rcases hu.last hg.parentOf_new with heq | hup
    · exact .inl heq.symm
    · exact .inr hup
  · rintro (rfl | hup)
    · exact .refl _
    · exact hup.made hg.parentOf_new

theorem groupTip_old (hg : Grown h r root fwd) {i : Nat} (hi : i < h.size)
    (htip : r.GroupTip i) : h.GroupTip i := by
  refine ⟨hi, fun hnext => ?_⟩
  have hne := htip.2 (by rw [hg.size]; omega)
  rwa [hg.groupOf_old _ hnext, hg.groupOf_old _ hi] at hne

end Grown

/-- The nodes of a group are below its first. -/
theorem Tree.under_first {h : UndoHistory} (ht : Tree h) {first p : Nat}
    (hp : h.parentOf first = some p) (hne : h.groupOf p ≠ h.groupOf first) (hn : n < h.size)
    (hg : h.groupOf n = h.groupOf first) : Under h.parentOf first n := by
  induction n using Nat.strong_induction_on with
  | _ n ih =>
    by_cases hnf : n = first
    · subst hnf
      exact .refl _
    · have hpos : 0 < n := by
        rcases Nat.eq_zero_or_pos n with rfl | hpos
        · have hfirst := ht.older _ _ hp
          have := ht.group_pos first (lt_size_of_parentOf hp) (by omega)
          rw [ht.root_group] at hg
          omega
        · exact hpos
      obtain ⟨q, hlt, hq⟩ := ht.parent n hn hpos
      by_cases hgq : h.groupOf q = h.groupOf n
      · exact (ih q hlt (by omega) (hgq.trans hg)).made hq
      · exact absurd (ht.first_unique hg hq hp hgq hne) hnf

end UndoHistory

open UndoHistory

section
variable {h r : UndoHistory} {root : Bytes} {fwd : EditList} {start size : Nat}
  {marks : Nat → List Tracked}

/-- The positions of the nodes, those of a node made by `fwd` with them. -/
def marksWith (h : UndoHistory) (root : Bytes) (fwd : EditList) (marks : Nat → List Tracked) :
    Nat → List Tracked := fun n =>
  if n = h.size then
    (marks h.current).map
      (·.apply ⟨h.textOf root h.current, fwd.applyTo (h.textOf root h.current), fwd.edits⟩)
  else marks n

theorem marksWith_old (hn : n < h.size) : marksWith h root fwd marks n = marks n :=
  if_neg (by omega)

/-- The marks of the nodes, and those carried into the new one. -/
theorem NodeMarks.grown (hm : NodeMarks h root start size marks) (hg : Grown h r root fwd)
    (hc : h.current < h.size) (hsize : size ≤ h.size) (hsince : Since start size h.current) :
    NodeMarks r root start size (marksWith h root fwd marks) := by
  have hstart : start < h.size := Nat.lt_of_lt_of_le hm.lt hsize
  constructor
  · exact hm.lt
  · intro n p hn hp
    by_cases hns : n = h.size
    · subst hns
      rw [hg.parentOf_new] at hp
      cases hp
      refine ⟨hsince, ?_⟩
      rw [marksWith_old hc, hg.textOf_old _ hc, hg.textOf_new, hg.forwardOf_new]
      exact if_pos rfl
    · have hlt := lt_size_of_parentOf hp
      have hold : n < h.size := by
        have := hg.size
        omega
      have hpn := hg.tree.older _ _ hp
      rw [hg.parentOf_old n hold] at hp
      rw [marksWith_old hold, marksWith_old (by omega), hg.textOf_old _ hold,
        hg.textOf_old _ (by omega), hg.forwardOf_old _ hold]
      exact hm.made n p hn hp
  · rw [marksWith_old hstart]
    exact hm.restore
  · rw [marksWith_old hstart, hg.textOf_old _ hstart]
    exact hm.onText

/-- What a document shows after a change: the group it opens, if it opens one, has the
positions before it saved. -/
theorem Shown.grown {s : MarkState} (ht : Tree h) (hg : Grown h r root fwd)
    (hc : h.current < h.size) (hsh : Shown h root size marks h.current s) :
    Shown r root size (marksWith h root fwd marks) r.current
      { text := fwd.applyTo s.text
        tracked := s.tracked.map (·.apply ⟨s.text, fwd.applyTo s.text, fwd.edits⟩)
        markUndo :=
          if r.currentGroup ≠ h.currentGroup ∧ restorable s.tracked ≠ [] then
            fun g => if g = r.currentGroup then some (restorable s.tracked) else s.markUndo g
          else s.markUndo } := by
  have hgroup : r.currentGroup = r.groupOf h.size := by
    show r.groupOf r.current = _
    rw [hg.current]
  have hgroup' : h.currentGroup = h.groupOf h.current := rfl
  set saved := if r.currentGroup ≠ h.currentGroup ∧ restorable s.tracked ≠ [] then
      fun g => if g = r.currentGroup then some (restorable s.tracked) else s.markUndo g
    else s.markUndo with hsaved
  -- a group that was there keeps what was saved for it
  have hkept : ∀ f < h.size, saved (r.groupOf f) = s.markUndo (h.groupOf f) := by
    intro f hf
    rw [hg.groupOf_old f hf, hsaved]
    split
    · rename_i hopens
      rcases hg.groupOf_new with hjoin | hfresh
      · exact absurd (by rw [hgroup, hgroup', hjoin]) hopens.1
      · exact if_neg (by rw [hgroup]; exact hfresh f hf)
    · rfl
  constructor
  · rw [hg.current, hg.textOf_new, hsh.text]
  · rw [restorables_apply, hsh.tracked, hg.current, hsh.text]
    exact (if_pos rfl).symm
  · intro f q hf hq hsize hu hne
    rw [hg.current, hg.under_new hc] at hu
    by_cases hfs : f = h.size
    · subst hfs
      rw [hg.parentOf_new] at hf
      cases hf
      rw [marksWith_old hc] at hne ⊢
      have hopens : r.currentGroup ≠ h.currentGroup ∧ restorable s.tracked ≠ [] := by
        rw [hgroup, hgroup', restorable_eq, hsh.tracked]
        rw [hg.groupOf_old _ hc] at hq
        exact ⟨hq.symm, fun hnil => hne (List.map_eq_nil_iff.mp hnil)⟩
      show saved (r.groupOf h.size) = _
      rw [hsaved, if_pos hopens, ← hgroup, if_pos rfl, restorable_eq, hsh.tracked]
    · have hfr := lt_size_of_parentOf hf
      have hfold : f < h.size := by
        have := hg.size
        omega
      have hqf := hg.tree.older _ _ hf
      rw [hg.parentOf_old f hfold] at hf
      rw [hg.groupOf_old _ hfold, hg.groupOf_old q (by omega)] at hq
      rw [marksWith_old (by omega : q < h.size)] at hne ⊢
      show saved (r.groupOf f) = _
      rw [hkept f hfold]
      exact hsh.savedIn f q hf hq hsize (hu.resolve_left hfs) hne
  · intro f q tip hf hq hsize htip hgt hu hne
    rw [hg.current, hg.under_new hc, not_or] at hu
    have hfr := lt_size_of_parentOf hf
    have hfold : f < h.size := by
      have := hg.size
      omega
    have hqf := hg.tree.older _ _ hf
    rw [hg.parentOf_old f hfold] at hf
    rw [hg.groupOf_old _ hfold, hg.groupOf_old q (by omega)] at hq
    rw [hg.groupOf_old f hfold] at hgt
    by_cases htips : tip = h.size
    · -- the change joined the group of `current`, which `f` is above
      subst htips
      rcases hg.groupOf_new with hjoin | hfresh
      · exact absurd (ht.under_first hf hq hc (hjoin.symm.trans hgt)) hu.2
      · exact absurd hgt.symm (hfresh f hfold)
    · have htold : tip < h.size := by
        have := htip.1
        have := hg.size
        omega
      rw [hg.groupOf_old tip htold] at hgt
      rw [marksWith_old htold] at hne ⊢
      show saved (r.groupOf f) = _
      rw [hkept f hfold]
      exact hsh.savedOut f q tip hf hq hsize (hg.groupTip_old htold htip) hgt hu.2 hne

end

namespace Document

/-! ## Runs with the positions of one owner -/

/-- A document, and the positions its owner carries through it. -/
abbrev Carried := Document × List Tracked

/-- One operation, given the positions the one before it answered. -/
def carry (s : Carried) : Op → Carried
  | .apply txn _ => (s.1.applyTracked txn s.2).toOption.getD s
  | .undo cursor _ => ((s.1.undoTracked cursor s.2).map fun r => (r.1, r.2.1)).getD s
  | .redo cursor _ => ((s.1.redoTracked cursor s.2).map fun r => (r.1, r.2.1)).getD s
  | .chronological older cursor _ =>
    ((s.1.chronologicalTracked older cursor s.2).map fun r => (r.1, r.2.1)).getD s
  | .lineUndo cursor origin _ =>
    let r := s.1.lineUndoTracked cursor origin s.2
    (r.1, r.2.1)
  | .reload bytes _ =>
    let r := s.1.reloadTracked bytes s.2
    (r.1, r.2.1)
  | op => (step s.1 op, s.2)

/-- The operation with these positions. -/
def Op.withTracked (tracked : List Tracked) : Op → Op
  | .apply txn _ => .apply txn tracked
  | .undo cursor _ => .undo cursor tracked
  | .redo cursor _ => .redo cursor tracked
  | .chronological older cursor _ => .chronological older cursor tracked
  | .lineUndo cursor origin _ => .lineUndo cursor origin tracked
  | .reload bytes _ => .reload bytes tracked
  | op => op

theorem carry_fst (s : Carried) (op : Op) : (carry s op).1 = step s.1 (op.withTracked s.2) := by
  cases op with
  | apply txn tracked =>
    simp only [carry, Op.withTracked, step]
    cases s.1.applyTracked txn s.2 <;> rfl
  | undo cursor tracked =>
    simp only [carry, Op.withTracked, step]
    cases s.1.undoTracked cursor s.2 <;> rfl
  | redo cursor tracked =>
    simp only [carry, Op.withTracked, step]
    cases s.1.redoTracked cursor s.2 <;> rfl
  | chronological older cursor tracked =>
    simp only [carry, Op.withTracked, step]
    cases s.1.chronologicalTracked older cursor s.2 <;> rfl
  | _ => rfl

def Carried.marks (s : Carried) : MarkState := s.1.markState s.2

/-- What a change does to the history, the text, the positions and the saved marks:
nothing, or it records a node. -/
inductive Changed (s s' : Carried) : Prop
  | quiet (synced : Bool) : s'.1.undo = { s.1.undo with synced } → s'.marks = s.marks →
      Changed s s'
  | record (fwd inv : EditList) (origin : TransactionOrigin) (hint : GroupHint)
      (revision cursor : Nat) (synced synced' : Bool) (r : UndoHistory) :
      r = ({ s.1.undo with synced } : UndoHistory).record fwd inv origin hint revision cursor →
      s'.1.undo = { r with synced := synced' } →
      s'.marks =
        { text := fwd.applyTo s.1.text
          tracked := s.2.map (·.apply ⟨s.1.text, fwd.applyTo s.1.text, fwd.edits⟩)
          markUndo :=
            if r.currentGroup ≠ s.1.undo.currentGroup ∧ restorable s.2 ≠ [] then
              fun g => if g = r.currentGroup then some (restorable s.2) else s.1.markUndo g
            else s.1.markUndo } →
      Changed s s'

/-- What an operation does to them: a change, or a move across groups. -/
inductive MarkStep (s s' : Carried) : Prop
  | change : Changed s s' → MarkStep s s'
  | move (st : UndoStep) : s.1.undo.Move s'.1.undo st →
      (∀ runs, Runs st runs → s'.marks = runs.foldl MarkState.cross s.marks) → MarkStep s s'

theorem Changed.refl (s : Carried) : Changed s s := .quiet s.1.undo.synced rfl rfl

theorem Changed.congr {s t s' : Carried} (hundo : t.1.undo = s.1.undo)
    (hmarks : t.marks = s.marks) (h : Changed s s') : Changed t s' := by
  have htext : t.1.text = s.1.text := congrArg MarkState.text hmarks
  have htracked : t.2 = s.2 := congrArg MarkState.tracked hmarks
  have hsaved : t.1.markUndo = s.1.markUndo := congrArg MarkState.markUndo hmarks
  cases h with
  | quiet synced h hm => exact .quiet synced (by rw [h, hundo]) (by rw [hm, hmarks])
  | record fwd inv origin hint revision cursor synced synced' r hr h hm =>
    refine .record fwd inv origin hint revision cursor synced synced' r (by rw [hr, hundo]) h ?_
    rw [hm, hundo, htext, htracked, hsaved]

/-- What an applied transaction leaves is a change. -/
theorem applyInner_changed {txn : Transaction} {track : Bool}
    (h : d.applyInner txn track tracked = .ok (d', tracked')) :
    Changed (d, tracked) (d', tracked') := by
  unfold applyInner at h
  split at h
  · cases h
  · split at h
    · cases h
    · cases h
    · split at h
      · cases h
        exact .quiet d.undo.synced rfl rfl
      · obtain ⟨d₁, t₁, hc⟩ : ∃ d₁ t₁, d.commit txn track tracked = (d₁, t₁) := ⟨_, _, rfl⟩
        rw [hc] at h
        cases h
        have hundo := congrArg (fun r : Document × List Tracked => r.1.undo) hc
        have hmarks := congrArg Carried.marks hc
        refine .record txn.edits (txn.edits.inverse d.text) txn.origin
          (d.blockHint txn.groupHint).1 (d.revision + 1) _ d.undo.synced false _ rfl hundo.symm ?_
        rw [← hmarks]
        rfl

theorem Changed.reloaded {s' : Carried} (h : Changed (d.syncUndo, tracked) s') :
    Changed (d, tracked) (s'.1.syncUndo.markSaved, s'.2) := by
  cases h with
  | quiet synced hundo hmarks =>
    refine .quiet true ?_ hmarks
    show { s'.1.undo with synced := true } = { d.undo with synced := true }
    rw [hundo]
    rfl
  | record fwd inv origin hint revision cursor synced synced' r hr hundo hmarks =>
    refine .record fwd inv origin hint revision cursor synced true r hr ?_ hmarks
    show { s'.1.undo with synced := true } = { r with synced := true }
    rw [hundo]

theorem replay_markStep {h : UndoHistory} {st : UndoStep} (hm : d.undo.Move h st) (cursor : Nat)
    (tracked : List Tracked) :
    MarkStep (d, tracked) (({ d with undo := h }.replay st cursor tracked).1,
      ({ d with undo := h }.replay st cursor tracked).2.1) := by
  refine .move st ?_ fun runs hruns => ?_
  · rw [replay_undo]
    exact hm
  · exact replay_runs { d with undo := h } hruns cursor tracked

theorem lineUndo_changed (d : Document) (cursor : Nat) (origin : TransactionOrigin)
    (tracked : List Tracked) : Changed (d, tracked) ((d.lineUndoTracked cursor origin tracked).1,
      (d.lineUndoTracked cursor origin tracked).2.1) := by
  unfold lineUndoTracked
  split
  · exact .quiet d.undo.synced rfl rfl
  · dsimp only
    split
    · exact .quiet d.undo.synced rfl rfl
    · split
      · exact .quiet d.undo.synced rfl rfl
      · rename_i happ
        refine Changed.congr ?_ ?_ (applyInner_changed happ)
        · rfl
        · rfl

theorem reload_changed (d : Document) (bytes : Bytes) (tracked : List Tracked) :
    Changed (d, tracked) ((d.reloadTracked bytes tracked).1,
      (d.reloadTracked bytes tracked).2.1) := by
  unfold reloadTracked
  split
  · exact .refl _
  · dsimp only
    split
    · exact .quiet true rfl rfl
    · rename_i d' tracked' happ
      exact (applyInner_changed happ).reloaded

/-- Every operation takes the marks one step. -/
theorem carry_markStep (s : Carried) (op : Op) : MarkStep s (carry s op) := by
  obtain ⟨d, T⟩ := s
  cases op with
  | apply txn tracked =>
    simp only [carry]
    cases happ : d.applyTracked txn T with
    | error e => exact .change (.refl _)
    | ok r => exact .change (applyInner_changed happ)
  | undo cursor tracked =>
    simp only [carry, undoTracked]
    cases hu : d.undo.undo with
    | none => exact .change (.refl _)
    | some r => exact replay_markStep (.inl hu) cursor T
  | redo cursor tracked =>
    simp only [carry, redoTracked]
    cases hr : d.undo.redo with
    | none => exact .change (.refl _)
    | some r => exact replay_markStep (.inr (.inl hr)) cursor T
  | chronological older cursor tracked =>
    simp only [carry, chronologicalTracked]
    cases hc : d.undo.toChronological older with
    | none => exact .change (.refl _)
    | some r => exact replay_markStep (.inr (.inr ⟨older, hc⟩)) cursor T
  | lineUndo cursor origin tracked => exact .change (lineUndo_changed d cursor origin T)
  | reload bytes tracked => exact .change (reload_changed d bytes T)
  | syncUndo => exact .change (.quiet true rfl rfl)
  | markSaved => exact .change (.quiet true rfl rfl)
  | markUnsaved => exact .change (.quiet d.undo.synced rfl rfl)
  | beginUndoBlock => exact .change (.quiet d.undo.synced rfl rfl)
  | endUndoBlock => exact .change (.quiet d.undo.synced rfl rfl)
  | primeLineUndo cursor newCommand => exact .change (.quiet d.undo.synced rfl rfl)
  | clearLineUndo disarm => exact .change (.quiet d.undo.synced rfl rfl)
  | recordChanges on => exact .change (.quiet d.undo.synced rfl rfl)
  | setChangeLogCap cap => exact .change (.quiet d.undo.synced rfl rfl)
  | drainChanges => exact .change (.quiet d.undo.synced rfl rfl)
  | lookupLines => exact .change (.quiet d.undo.synced rfl rfl)
  | pinTracked tracked => exact .change (.quiet d.undo.synced rfl rfl)
  | takePinned => exact .change (.quiet d.undo.synced rfl rfl)
  | createAnchor offset bias policy => exact .change (.quiet d.undo.synced rfl rfl)
  | createLineAnchor offset gravity => exact .change (.quiet d.undo.synced rfl rfl)
  | removeAnchor id => exact .change (.quiet d.undo.synced rfl rfl)
  | setModifiable on => exact .change (.quiet d.undo.synced rfl rfl)

end Document

/-! ## The positions stay with their nodes -/

section
variable {h h' : UndoHistory} {root : Bytes} {start size : Nat} {marks : Nat → List Tracked}

theorem UndoHistory.Relinked.nodeMarks (hr : Relinked h h')
    (hm : NodeMarks h root start size marks) : NodeMarks h' root start size marks where
  lt := hm.lt
  made := by
    rw [hr.parentOf, hr.textOf, hr.forwardOf]
    exact hm.made
  restore := hm.restore
  onText := by
    rw [hr.textOf]
    exact hm.onText

theorem UndoHistory.Relinked.shown (hr : Relinked h h') {s : MarkState}
    (hs : Shown h root size marks c s) : Shown h' root size marks c s where
  text := by
    rw [hr.textOf]
    exact hs.text
  tracked := hs.tracked
  savedIn := by
    rw [hr.parentOf, hr.groupOf]
    exact hs.savedIn
  savedOut := by
    rw [hr.parentOf, hr.groupOf]
    exact fun first p tip hp hne hle htip =>
      hs.savedOut first p tip hp hne hle ((hr.groupTip tip).mp htip)

end

namespace Document

/-- The restorable positions are those of the node the document stands at, which was
made since the history had `size` nodes or is the one it stood at then. -/
structure Settled (root : Bytes) (start size : Nat) (marks : Nat → List Tracked)
    (s : Carried) : Prop where
  steady : Steady root s.1
  nodes : NodeMarks s.1.undo root start size marks
  shown : Shown s.1.undo root size marks s.1.undo.current s.marks
  since : Since start size s.1.undo.current
  le : size ≤ s.1.undo.size

namespace Settled

variable {root : Bytes} {start size : Nat} {marks : Nat → List Tracked} {s : Carried}

theorem restorable_eq (hs : Settled root start size marks s) :
    restorable s.2 = (marks s.1.undo.current).map Tracked.pos := by
  rw [Ruse.Core.restorable_eq]
  exact congrArg _ hs.shown.tracked

/-- Where the marks start to be followed, only the current node is known. -/
theorem begin (hd : Steady root d) (hon : OnText d.text (restorables tracked)) :
    Settled root d.undo.current d.undo.size (fun _ => restorables tracked) (d, tracked) where
  steady := hd
  nodes :=
    { lt := hd.wf.tip.1
      made := by
        intro n p hn hp
        have hlt : n < d.undo.size := lt_size_of_parentOf hp
        omega
      restore := fun t ht => (List.mem_filter.mp ht).2
      onText := by
        have htext : d.text = d.undo.textOf root d.undo.current := hd.versioned.text
        rw [← htext]
        exact hon }
  shown :=
    { text := hd.versioned.text
      tracked := rfl
      savedIn := by
        intro first p hp _ hsize
        have hlt : first < d.undo.size := lt_size_of_parentOf hp
        omega
      savedOut := by
        intro first p _ hp _ hsize
        have hlt : first < d.undo.size := lt_size_of_parentOf hp
        omega }
  since := .inl rfl
  le := Nat.le_refl _

/-- An operation keeps the positions of the nodes there are, and settles those of the
node it comes to. -/
theorem next (hs : Settled root start size marks s) (op : Op)
    (hsince : Since start size (carry s op).1.undo.current) :
    ∃ marks', (∀ n < s.1.undo.size, marks' n = marks n) ∧
      Settled root start size marks' (carry s op) ∧
      s.1.undo.size ≤ (carry s op).1.undo.size := by
  have hw := hs.steady.wf
  have hnext : Steady root (carry s op).1 := by
    rw [carry_fst]
    exact hs.steady.next _
  cases carry_markStep s op with
  | change hch =>
    cases hch with
    | quiet synced hundo hmarks =>
      have hrel : Relinked s.1.undo (carry s op).1.undo := by
        rw [hundo]
        exact ⟨rfl, fun _ => rfl, rfl, rfl, rfl⟩
      have hcur : (carry s op).1.undo.current = s.1.undo.current := by rw [hundo]
      refine ⟨marks, fun n _ => rfl, ⟨hnext, hrel.nodeMarks hs.nodes, ?_, hsince, ?_⟩, ?_⟩
      · rw [hcur, hmarks]
        exact hrel.shown hs.shown
      · rw [hrel.size]
        exact hs.le
      · rw [hrel.size]
    | record fwd inv origin hint revision cursor synced synced' r hr hundo hmarks =>
      have hw' : WF { s.1.undo with synced } := hw.setSynced synced
      have hgrown : Grown { s.1.undo with synced } r root fwd := by
        rw [hr]
        exact grown_record hw' root fwd inv origin hint revision cursor
      have hrel : Relinked r (carry s op).1.undo := by
        rw [hundo]
        exact ⟨rfl, fun _ => rfl, rfl, rfl, rfl⟩
      have hrel' : Relinked s.1.undo { s.1.undo with synced } :=
        ⟨rfl, fun _ => rfl, rfl, rfl, rfl⟩
      have hcur : (carry s op).1.undo.current = r.current := by rw [hundo]
      have hnodes := (hrel'.nodeMarks hs.nodes).grown hgrown hw'.tip.1 hs.le hs.since
      have hshown := Shown.grown hw'.toTree hgrown hw'.tip.1 (hrel'.shown hs.shown)
      refine ⟨_, fun n hn => marksWith_old hn,
        ⟨hnext, hrel.nodeMarks hnodes, ?_, hsince, ?_⟩, ?_⟩
      · rw [hcur, hmarks]
        exact hrel.shown hshown
      · rw [hrel.size, hgrown.size]
        exact Nat.le_succ_of_le hs.le
      · rw [hrel.size, hgrown.size]
        exact Nat.le_succ _
  | move st hmove hruns =>
    have hrel := (hmove.moved hw).crossed.relinked
    obtain ⟨runs, hst, hshown⟩ := hmove.shown hw hs.steady.way hs.steady.versioned.sound
      hs.nodes hs.since hsince
    refine ⟨marks, fun n _ => rfl, ⟨hnext, hrel.nodeMarks hs.nodes, ?_, hsince, ?_⟩, ?_⟩
    · rw [hruns runs hst]
      exact hrel.shown (hshown _ hs.shown)
    · rw [hrel.size]
      exact hs.le
    · rw [hrel.size]

/-- Over a run that stays at the nodes made since, each node keeps its positions. -/
theorem run (ops : List Op) {marks : Nat → List Tracked} {s : Carried}
    (hs : Settled root start size marks s)
    (hsince : ∀ k ≤ ops.length, Since start size (moment carry s ops k).1.undo.current) :
    ∃ marks', (∀ n < s.1.undo.size, marks' n = marks n) ∧
      Settled root start size marks' (run carry s ops) := by
  induction ops generalizing marks s with
  | nil => exact ⟨marks, fun _ _ => rfl, hs⟩
  | cons op ops ih =>
    have hone : Since start size (carry s op).1.undo.current := hsince 1 (by simp)
    obtain ⟨marks₁, hkept₁, hs₁, hle⟩ := hs.next op hone
    obtain ⟨marks₂, hkept₂, hs₂⟩ := ih hs₁ fun k hk =>
      hsince (k + 1) (Nat.succ_le_succ hk)
    refine ⟨marks₂, fun n hn => ?_, hs₂⟩
    rw [hkept₂ n (Nat.lt_of_lt_of_le hn hle), hkept₁ n hn]

theorem returns_next (hs : Settled root start size marks s) (op op' : Op)
    (hout : Since start size (carry s op).1.undo.current)
    (hback : (carry (carry s op) op').1.undo.current = s.1.undo.current) :
    restorable (carry (carry s op) op').2 = restorable s.2 := by
  obtain ⟨marks₁, hkept₁, hs₁, hle⟩ := hs.next op hout
  obtain ⟨marks₂, hkept₂, hs₂, -⟩ := hs₁.next op' (by
    rw [hback]
    exact hs.since)
  have hlt := hs.steady.wf.tip.1
  rw [hs₂.restorable_eq, hs.restorable_eq, hback, hkept₂ _ (Nat.lt_of_lt_of_le hlt hle),
    hkept₁ _ hlt]

theorem returns (hs : Settled root start size marks s) (later : List Op)
    (hsince : ∀ k ≤ later.length, Since start size (moment carry s later k).1.undo.current)
    (hback : (Lib.run carry s later).1.undo.current = s.1.undo.current) :
    restorable (Lib.run carry s later).2 = restorable s.2 := by
  obtain ⟨marks', hkept, hend⟩ := hs.run later hsince
  rw [hend.restorable_eq, hs.restorable_eq, hback, hkept _ hs.steady.wf.tip.1]

end Settled

theorem carry_undo {cursor : Nat} {placed : UndoCursor.Placed}
    (h : d.undoTracked cursor tracked = some (d', tracked', placed)) :
    carry (d, tracked) (.undo cursor []) = (d', tracked') := by
  simp only [carry, h, Option.map_some, Option.getD_some]

theorem carry_redo {cursor : Nat} {placed : UndoCursor.Placed}
    (h : d.redoTracked cursor tracked = some (d', tracked', placed)) :
    carry (d, tracked) (.redo cursor []) = (d', tracked') := by
  simp only [carry, h, Option.map_some, Option.getD_some]

/-- A change that opens a group is the whole of it, so the next undo goes back to where
it was made. -/
theorem undo_opened {root : Bytes} {d₁ : Document} {txn : Transaction} {track : Bool}
    {tracked₁ : List Tracked} (hd : Steady root d) (hd₁ : Steady root d₁)
    (happ : d.applyInner txn track tracked = .ok (d₁, tracked₁))
    (hopens : d₁.undo.currentGroup ≠ d.undo.currentGroup) :
    d.undo.size ≤ d₁.undo.current ∧
      ∃ h st, d₁.undo.undo = some (h, st) ∧ h.current = d.undo.current := by
  cases applyInner_changed happ with
  | quiet synced hundo _ =>
    refine absurd ?_ hopens
    rw [hundo]
    rfl
  | record fwd inv origin hint revision cursor synced synced' r hr hundo _ =>
    have hw : WF { d.undo with synced } := hd.wf.setSynced synced
    have hgrown : Grown { d.undo with synced } r root fwd := by
      rw [hr]
      exact grown_record hw root fwd inv origin hint revision cursor
    have hcur : d₁.undo.current = d.undo.size := by
      rw [hundo]
      exact hgrown.current
    have hparent : d₁.undo.parentOf d₁.undo.current = some d.undo.current := by
      rw [hcur, hundo]
      exact hgrown.parentOf_new
    have hgroup : d₁.undo.groupOf d.undo.current = d.undo.currentGroup := by
      rw [hundo]
      exact hgrown.groupOf_old _ hw.tip.1
    have hpos : 0 < d₁.undo.current := by
      rw [hcur]
      exact hd.wf.nonempty
    obtain ⟨⟨h, st⟩, hu⟩ := Option.isSome_iff_exists.mp ((undo_isSome_iff hd₁.wf).mpr hpos)
    obtain ⟨-, first, hfg, hfp, hne, -⟩ := undo_spec hd₁.wf hd₁.way hu
    have hopens' : d₁.undo.groupOf d.undo.current ≠ d₁.undo.groupOf d₁.undo.current := by
      rw [hgroup]
      exact hopens.symm
    obtain rfl := hd₁.wf.first_unique hfg hfp hparent hne hopens'
    rw [hparent] at hfp
    exact ⟨by rw [hcur], h, st, hu, (Option.some.inj hfp).symm⟩

/-- **Marks come back with undo.** For every reachable document and every list of
positions whose restorable ones lie on its text: a change that opens a new undo group,
undone, puts them all back, and redone, puts them where they were before the undo;
and over a whole run of operations that is handed the list on (undo, redo, `g-`, `g+`,
changes that open groups and changes that join them), whenever the history comes back
to a node made since, by whatever groups it crosses, they are back where they were there. -/
theorem marks_come_back (initial : Bytes) (revision : Nat) (before : List Op)
    (tracked : List Tracked) :
    let d := Lib.run step (startingAt initial revision) before
    OnText d.text (restorables tracked) →
    (∀ (txn : Transaction) (cursor cursor' : Nat) (d₁ : Document) (tracked₁ : List Tracked),
      d.applyTracked txn tracked = .ok (d₁, tracked₁) →
      d₁.undo.currentGroup ≠ d.undo.currentGroup →
      ∃ d₂ tracked₂ placed, d₁.undoTracked cursor tracked₁ = some (d₂, tracked₂, placed) ∧
        restorable tracked₂ = restorable tracked ∧
        ∃ d₃ tracked₃ placed', d₂.redoTracked cursor' tracked₂ = some (d₃, tracked₃, placed') ∧
          restorable tracked₃ = restorable tracked₁) ∧
    ∀ ops later : List Op,
      (∀ k ≤ (ops ++ later).length, Since d.undo.current d.undo.size
        (moment carry (d, tracked) (ops ++ later) k).1.undo.current) →
      let s := Lib.run carry (d, tracked) ops
      let e := Lib.run carry s later
      e.1.undo.current = s.1.undo.current → restorable e.2 = restorable s.2 := by
  intro d hon
  have hd : Steady initial d := steady_run initial revision before
  have hs := Settled.begin hd hon
  refine ⟨?_, ?_⟩
  · intro txn cursor cursor' d₁ tracked₁ happ hopens
    have hcarry : carry (d, tracked) (.apply txn []) = (d₁, tracked₁) := by
      simp only [carry, happ, Except.toOption, Option.getD_some]
    have hd₁ : Steady initial d₁ := by
      have hnext := hd.next ((Op.apply txn []).withTracked tracked)
      rwa [← carry_fst (d, tracked), hcarry] at hnext
    obtain ⟨hnew, h, st, hu, hback⟩ := undo_opened hd hd₁ happ hopens
    obtain ⟨⟨d₂, tracked₂, placed⟩, hundo⟩ :
        ∃ r, d₁.undoTracked cursor tracked₁ = some r := by
      rw [undoTracked, hu]
      exact ⟨_, rfl⟩
    have hcarry₂ := carry_undo hundo
    have hcur₂ : d₂.undo.current = d.undo.current := by
      have hstep := step_undo_undo hu cursor tracked₁
      simp only [step, hundo, Option.map_some, Option.getD_some] at hstep
      rw [hstep, hback]
    have hsome : (d₁.undoTracked cursor tracked₁).isSome := by
      rw [hundo]
      rfl
    obtain ⟨hredo, hsame⟩ := hd₁.redo_undo cursor cursor' tracked₁ tracked₂ hsome
    simp only [step, hundo, Option.map_some, Option.getD_some] at hredo hsame
    obtain ⟨⟨d₃, tracked₃, placed'⟩, hredo⟩ := Option.isSome_iff_exists.mp hredo
    have hcarry₃ := carry_redo hredo
    have hcur₃ : d₃.undo.current = d₁.undo.current := by
      have hcur := hsame.1
      simpa only [hredo, Option.map_some, Option.getD_some] using hcur
    have hout : Since d.undo.current d.undo.size
        (carry (d, tracked) (.apply txn [])).1.undo.current := by
      rw [hcarry]
      exact .inr hnew
    obtain ⟨marks₁, -, hs₁, -⟩ := hs.next (.apply txn []) hout
    have hundone := hs.returns_next (.apply txn []) (.undo cursor []) hout
      (by rw [hcarry, hcarry₂]
          exact hcur₂)
    rw [hcarry] at hs₁ hundone
    have hredone := hs₁.returns_next (.undo cursor []) (.redo cursor' [])
      (by rw [hcarry₂]
          exact .inl hcur₂)
      (by rw [hcarry₂, hcarry₃]
          exact hcur₃)
    rw [hcarry₂] at hundone hredone
    rw [hcarry₃] at hredone
    exact ⟨d₂, tracked₂, placed, hundo, hundone, d₃, tracked₃, placed', hredo, hredone⟩
  · intro ops later hsince s e hback
    obtain ⟨marks, -, hs'⟩ := hs.run ops fun k hk => by
      have hk' := hsince k (by rw [List.length_append]; omega)
      rwa [moment, List.take_append_of_le_length hk, ← moment] at hk'
    refine hs'.returns later (fun k hk => ?_) hback
    have hk' := hsince (ops.length + k) (by rw [List.length_append]; omega)
    rwa [moment, List.take_length_add_append, run_append] at hk'

/-- Two changes of a text of three lines: the second line goes, then the first. -/
def cutSecond : Transaction := .new 0 ⟨[.delete 2 2], by decide, by decide⟩ .userInput

def cutFirst : Transaction :=
  (Transaction.new 1 ⟨[.delete 0 2], by decide, by decide⟩ .userInput).withHint .breakBefore

/-- A mark on the second line and one on the third. -/
def lineMarks : List Tracked := [⟨some 2, .line .drop, true⟩, ⟨some 4, .line .drop, true⟩]

/-- The mark of a deleted line comes back with the line, goes again with the redo, and
two `g-` over two groups bring back both marks. -/
theorem marks_come_back_cut :
    let d := startingAt [97, 10, 98, 10, 99, 10] 0
    let s := carry (d, lineMarks) (.apply cutSecond [])
    restorable s.2 = [none, some 2] ∧
      (∃ d₂ tracked₂ placed, s.1.undoTracked 0 s.2 = some (d₂, tracked₂, placed) ∧
        restorable tracked₂ = [some 2, some 4] ∧
        ∃ d₃ tracked₃ placed', d₂.redoTracked 0 tracked₂ = some (d₃, tracked₃, placed') ∧
          restorable tracked₃ = [none, some 2]) ∧
      restorable (Lib.run carry (d, lineMarks) [.apply cutSecond [], .apply cutFirst [],
        .chronological true 0 [], .chronological true 0 []]).2 = [some 2, some 4] := by
  intro d s
  have hon : OnText d.text (restorables lineMarks) := by decide
  obtain ⟨hundo, hrun⟩ := marks_come_back [97, 10, 98, 10, 99, 10] 0 [] lineMarks hon
  have hs : restorable s.2 = [none, some 2] := by decide
  refine ⟨hs, ?_, ?_⟩
  · rw [← hs]
    exact hundo cutSecond 0 0 s.1 s.2 rfl (by decide)
  · exact hrun [] [.apply cutSecond [], .apply cutFirst [], .chronological true 0 [],
      .chronological true 0 []] (by decide) (by decide)

end Document

end Ruse.Core
