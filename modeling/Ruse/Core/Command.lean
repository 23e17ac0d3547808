import Ruse.Core.CommitKeeps

/-!
# What commands are made of

`apply_command` commits plans and then writes the cursor, the jump it left and the start
of the insert; the Ex edits behind `apply_ex` hand the document a transaction of their
own, place the cursor and settle every offset (`settle_offsets`). A `Part` is one of these
steps; a command is any number of them, one after the other. Every part but one leaves
the view's positions in the text (`Part.run_valid`): `:s` records its jump after the edit,
from where the cursor was before it.
-/

namespace Ruse.Core

/-- Notes a command leaves in the document beside the text. -/
inductive Note where
  | syncUndo
  | markSaved
  | markUnsaved
  | setModifiable (on : Bool)
  | clearLineUndo (disarm : Bool)
deriving DecidableEq, Repr

def Document.note (d : Document) : Note → Document
  | .syncUndo => d.syncUndo
  | .markSaved => d.markSaved
  | .markUnsaved => d.markUnsaved
  | .setModifiable on => d.setModifiable on
  | .clearLineUndo disarm => d.clearLineUndo disarm

namespace View

/-- `View::set_mark`: `:mark`. -/
def setMark (v : View) (c : Char) (pos : Nat) : View :=
  if c = '\'' ∨ c = '`' then v.pushJump pos
  else if c = '[' then { v with changeStart := some pos }
  else if c = ']' then { v with changeEnd := some pos }
  else if c = '<' ∨ c = '>' then
    match v.lastVisual, v.visualOneEnd with
    | some (a, _, kind), some only =>
      -- the other end is still unset, or was missing until now
      if only = c then { v with lastVisual := some (pos, pos, kind) }
      else
        { v with
          visualOneEnd := none
          lastVisual := some (if c = '<' then (pos, a, kind) else (a, pos, kind)) }
    | some (a, e, kind), none =>
      { v with lastVisual := some (if c = '<' then (pos, e, kind) else (a, pos, kind)) }
    | none, _ => { v with visualOneEnd := some c, lastVisual := some (pos, pos, .charwise) }
  else v.setNamedMark c pos

/-- What of a view is no position is as in `w`. -/
def withFields (v w : View) : View :=
  { v with
    mode := w.mode
    lastWasEdit := w.lastWasEdit
    lastWasKill := w.lastWasKill
    registers := w.registers
    pendingRegister := w.pendingRegister
    replaceStack := w.replaceStack
    blockInsert := w.blockInsert
    lastBlockGeom := w.lastBlockGeom
    textWidth := w.textWidth
    curswant := w.curswant
    caret := w.caret
    newChange := w.newChange
    keepJumps := w.keepJumps }

end View

/-- A part of a command. The places it computes are on a boundary of the text, which
snapping leaves where they are. -/
inductive Part where
  | commit (plan : Plan)
  /-- An Ex edit. -/
  | edit (edits : EditList) (hint : GroupHint) (origin : TransactionOrigin) (cursor : Nat)
  /-- A `:s` that matched. -/
  | substitute (edits : EditList) (cursor : Nat)
  | place (cursor : Nat)
  /-- The selection a repeat of a Visual operator makes. -/
  | select (kind : SelectKind) (cursor : Nat)
  | jump (pos : Nat)
  | mark (c : Char) (pos : Nat)
  /-- Where the insert under way began. -/
  | insstart (start : Option Nat)
  | fields (v : View)
  | note (n : Note)

namespace EditorState

/-- Snap the cursor and every stored offset into the text. -/
def settleOffsets (st : EditorState) : EditorState :=
  let b := st.doc.text
  { st with view := { st.view.snapOffsets b with cursor := snap b st.view.cursor } }

/-- An edit applied outside `commit`, `none` where its `expect` fails. -/
def exEdit (st : EditorState) (edits : EditList) (hint : GroupHint) (origin : TransactionOrigin)
    (cursor : Nat) : Option EditorState :=
  (st.applyTxn ((Transaction.new st.doc.revision edits origin).withHint hint)).map fun st =>
    ({ st with view := { st.view with lastWasEdit := true, cursor } }).settleOffsets

end EditorState

/-- Run one part of a command, `none` where an `expect` on its edits fails. -/
def Part.run (g : Segmenter) (cells : Cells) (st : EditorState) :
    Part → Option (EditorState × List Effect)
  | .commit plan => Core.commit g cells st plan
  | .edit edits hint origin cursor => (st.exEdit edits hint origin cursor).map (·, [])
  | .substitute edits cursor =>
    (st.exEdit edits .breakBefore st.origin cursor).map fun st' =>
      ({ st' with view := st'.view.pushJump st.view.cursor }, [])
  | .place cursor =>
    some ({ st with view := { st.view with cursor := snap st.doc.text cursor } }, [])
  | .select kind cursor =>
    some ({ st with
      view :=
        { st.view with
          mode := .visual kind
          anchor := some st.view.cursor
          cursor := snap st.doc.text cursor } }, [])
  | .jump pos => some ({ st with view := st.view.pushJump (snap st.doc.text pos) }, [])
  | .mark c pos => some ({ st with view := st.view.setMark c (snap st.doc.text pos) }, [])
  | .insstart start =>
    some ({ st with view := { st.view with insstart := start.map (snap st.doc.text) } }, [])
  | .fields v => some ({ st with view := st.view.withFields v }, [])
  | .note n => some ({ st with doc := st.doc.note n }, [])

def runParts (g : Segmenter) (cells : Cells) :
    List Part → EditorState → Option (EditorState × List Effect)
  | [], st => some (st, [])
  | p :: ps, st =>
    (p.run g cells st).bind fun (st, effects) =>
      (runParts g cells ps st).map fun (st, more) => (st, effects ++ more)

/-! ## What a part keeps -/

namespace View

/-- Setting a mark leaves the lists of a view within their bounds. -/
theorem Bounded.setMark {v : View} (h : v.Bounded) (c : Char) (p : Nat) :
    (v.setMark c p).Bounded := by
  have hsame {w : View} (hc : w.changes = v.changes) (hj : w.jumps = v.jumps)
      (hi : w.changeIdx = v.changeIdx) (hk : w.jumpIdx = v.jumpIdx) : w.Bounded :=
    ⟨hc ▸ h.changes, hj ▸ h.jumps, hc ▸ hi ▸ h.changeIdx, hj ▸ hk ▸ h.jumpIdx⟩
  unfold View.setMark View.setNamedMark
  split
  · exact h.pushJump p
  split
  · exact hsame rfl rfl rfl rfl
  split
  · exact hsame rfl rfl rfl rfl
  split
  · split
    · split
      · exact hsame rfl rfl rfl rfl
      · exact hsame rfl rfl rfl rfl
    · exact hsame rfl rfl rfl rfl
    · exact hsame rfl rfl rfl rfl
  · split
    · exact hsame rfl rfl rfl rfl
    · exact h

theorem has_of_get {v : View} {s : Place} {p : Nat} (h : v.get s = some p) : v.Has s := by
  cases s with
  | visualStart =>
    obtain ⟨area, harea, -⟩ := Option.map_eq_some_iff.mp h
    exact Option.isSome_iff_exists.mpr ⟨area, harea⟩
  | visualEnd =>
    obtain ⟨area, harea, -⟩ := Option.map_eq_some_iff.mp h
    exact Option.isSome_iff_exists.mpr ⟨area, harea⟩
  | change i => exact (List.getElem?_eq_some_iff.mp h).1
  | jump i => exact (List.getElem?_eq_some_iff.mp h).1
  | _ => trivial

namespace Valid

variable {v : View} {b : Bytes} (h : v.Valid b)
include h

theorem get {s : Place} {p : Nat} (hp : v.get s = some p) : InText b p :=
  h.tracked (v.entry s) (List.mem_of_getElem? (tracked_at (has_of_get hp))) p hp

/-- Other places of the text, and nothing else, are written. -/
theorem write {w : View} (hbounded : w.Bounded) (hcursor : w.cursor = v.cursor)
    (hget : ∀ s p, w.get s = some p → v.get s = some p ∨ InText b p)
    (hanchor : w.anchor = v.anchor) (hmark : w.mark = v.mark)
    (hinsertStart : w.insertStart = v.insertStart) (hinsstart : w.insstart = v.insstart) :
    w.Valid b where
  toBounded := hbounded
  cursor := by rw [hcursor]; exact h.cursor
  tracked := by
    intro t ht p hp
    exact tracked_inText (fun s q hq => (hget s q hq).elim h.get id) ht hp
  anchor := by rw [hanchor]; exact h.anchor
  mark := by rw [hmark]; exact h.mark
  insertStart := by rw [hinsertStart]; exact h.insertStart
  insstart := by rw [hinsstart]; exact h.insstart

/-- A jump to a place in the text keeps the view's positions in the text. -/
theorem pushJump {p : Nat} (hp : InText b p) : (v.pushJump p).Valid b := by
  have hframe : ∃ jumps jumpIdx, v.pushJump p = { v with jumps, jumpIdx } ∧
      ∀ q ∈ jumps, q ∈ v.jumps ∨ q = p := by
    unfold View.pushJump
    split
    · exact ⟨v.jumps, v.jumpIdx, rfl, fun q hq => .inl hq⟩
    · dsimp only
      split
      · refine ⟨_, _, rfl, fun q hq => ?_⟩
        unfold pushBounded at hq
        dsimp only at hq
        have hmem : q ∈ v.jumps ++ [p] := by
          split at hq
          · exact List.mem_of_mem_tail hq
          · exact hq
        simpa using hmem
      · exact ⟨v.jumps, _, rfl, fun q hq => .inl hq⟩
  have hbounded := h.toBounded.pushJump p
  obtain ⟨jumps, jumpIdx, heq, hjumps⟩ := hframe
  rw [heq] at hbounded ⊢
  refine h.write hbounded rfl (fun s q hq => ?_) rfl rfl rfl rfl
  cases s with
  | jump i =>
    have hmem : q ∈ jumps := List.mem_of_getElem? hq
    rcases hjumps q hmem with hold | rfl
    · obtain ⟨j, hj⟩ := List.mem_iff_getElem?.mp hold
      exact .inr (h.get (s := .jump j) hj)
    · exact .inr hp
  | _ => exact .inl hq

theorem setNamedMark (c : Char) {p : Nat} (hp : InText b p) : (v.setNamedMark c p).Valid b := by
  unfold View.setNamedMark
  split
  · rename_i i hi
    refine h.write ⟨h.changes, h.jumps, h.changeIdx, h.jumpIdx⟩ rfl (fun s q hq => ?_) rfl rfl rfl rfl
    cases s with
    | named j =>
      have hq' : Function.update v.namedMarks i (some p) j = some q := hq
      rw [Function.update_apply] at hq'
      split at hq'
      · cases hq'
        exact .inr hp
      · exact .inl hq'
    | _ => exact .inl hq
  · exact h

theorem setVisual {x y : Nat} (hx : InText b x) (hy : InText b y) (kind : SelectKind)
    (visualOneEnd : Option Char) :
    ({ v with lastVisual := some (x, y, kind), visualOneEnd } : View).Valid b := by
  refine h.write ⟨h.changes, h.jumps, h.changeIdx, h.jumpIdx⟩ rfl (fun s q hq => ?_) rfl rfl rfl rfl
  cases s with
  | visualStart =>
    cases hq
    exact .inr hx
  | visualEnd =>
    cases hq
    exact .inr hy
  | _ => exact .inl hq

/-- A mark set at a place in the text keeps the view's positions in the text. -/
theorem setMark (c : Char) {p : Nat} (hp : InText b p) : (v.setMark c p).Valid b := by
  have harea {a e : Nat} {kind : SelectKind} (harea : v.lastVisual = some (a, e, kind)) :
      InText b a ∧ InText b e :=
    ⟨h.get (s := .visualStart) (by simp [View.get, harea]),
      h.get (s := .visualEnd) (by simp [View.get, harea])⟩
  unfold View.setMark
  split
  · exact h.pushJump hp
  split
  · refine h.write ⟨h.changes, h.jumps, h.changeIdx, h.jumpIdx⟩ rfl (fun s q hq => ?_) rfl rfl rfl rfl
    cases s with
    | changeStart =>
      cases hq
      exact .inr hp
    | _ => exact .inl hq
  split
  · refine h.write ⟨h.changes, h.jumps, h.changeIdx, h.jumpIdx⟩ rfl (fun s q hq => ?_) rfl rfl rfl rfl
    cases s with
    | changeEnd =>
      cases hq
      exact .inr hp
    | _ => exact .inl hq
  split
  · split
    · rename_i a e kind only hvisual hone
      obtain ⟨ha, -⟩ := harea hvisual
      split
      · exact h.setVisual hp hp kind v.visualOneEnd
      · split
        · exact h.setVisual hp ha kind none
        · exact h.setVisual ha hp kind none
    · rename_i a e kind hvisual hone
      obtain ⟨ha, he⟩ := harea hvisual
      split
      · exact h.setVisual hp he kind v.visualOneEnd
      · exact h.setVisual ha hp kind v.visualOneEnd
    · exact h.setVisual hp hp .charwise (some c)
  · exact h.setNamedMark c hp

end Valid

end View

namespace EditorState

/-- A transaction that was applied fits the text, and carries the places. -/
theorem applyTxn_moved {st st' : EditorState} {txn : Transaction} (hb : st.view.Bounded)
    (h : st.applyTxn txn = some st') :
    txn.edits.InBounds st.doc.text.length ∧
      Moved st.doc st.view st' (st.doc.txnPasses txn) := by
  unfold applyTxn at h
  split at h
  · rename_i doc t happ
    cases h
    refine ⟨?_, Moved.of_carries (Document.applyInner_carries happ) hb st.origin⟩
    unfold Document.applyTracked Document.applyInner at happ
    split at happ
    · cases happ
    · split at happ
      · cases happ
      · cases happ
      · rename_i hbounds
        exact EditList.checkBounds_ok_iff.mp hbounds
  · cases h

/-- From `st` to `st'` by the passes `ps`, which also carry the positions at rest. -/
structure Followed (st st' : EditorState) (ps : List Pass) : Prop where
  bounded : st'.view.Bounded
  passes : Passes st.doc.text ps st'.doc.text
  pinned : st'.doc.pinned = restAll ps st.doc.pinned

theorem Followed.trans {a b c : EditorState} {ps ps' : List Pass} (h : Followed a b ps)
    (h' : Followed b c ps') : Followed a c (ps ++ ps') where
  bounded := h'.bounded
  passes := h.passes.append h'.passes
  pinned := by rw [h'.pinned, h.pinned, restAll_append]

/-- Settling puts every position of a view in the text. -/
theorem settleOffsets_valid {st : EditorState} (h : st.view.Bounded) :
    st.settleOffsets.view.Valid st.doc.text where
  toBounded :=
    have hb := View.snapOffsets_bounded h st.doc.text
    ⟨hb.changes, hb.jumps, hb.changeIdx, hb.jumpIdx⟩
  cursor := inText_snap _ _
  tracked := by
    intro t ht p hp
    refine View.tracked_inText (fun s q hq => ?_) ht hp
    have hq' : (st.view.snapOffsets st.doc.text).get s = some q := hq
    rw [View.snapOffsets_get] at hq'
    exact View.inText_of_map_snap hq'
  anchor := by
    intro p hp
    obtain ⟨q, -, rfl⟩ := Option.map_eq_some_iff.mp hp
    exact inText_snap _ _
  mark := by
    intro p hp
    obtain ⟨q, -, rfl⟩ := Option.map_eq_some_iff.mp hp
    exact inText_snap _ _
  insertStart := by
    intro p hp
    obtain ⟨q, -, rfl⟩ := Option.map_eq_some_iff.mp hp
    exact inText_snap _ _
  insstart := by
    intro p hp
    obtain ⟨q, -, rfl⟩ := Option.map_eq_some_iff.mp hp
    exact inText_snap _ _

def exPasses (st : EditorState) (edits : EditList) : List Pass :=
  if edits.isEmpty then [] else [.edit st.doc.text edits]

theorem exEdit_settled {st st' : EditorState} {edits : EditList} {hint : GroupHint}
    {origin : TransactionOrigin} {cursor : Nat} (hb : st.view.Bounded)
    (h : st.exEdit edits hint origin cursor = some st') :
    st'.view.Valid st'.doc.text ∧ Followed st st' (st.exPasses edits) := by
  obtain ⟨st1, htxn, rfl⟩ := Option.map_eq_some_iff.mp h
  obtain ⟨-, hmoved⟩ := applyTxn_moved hb htxn
  have hb1 := hmoved.bounded
  have hplaced : ({ st1.view with lastWasEdit := true, cursor } : View).Bounded :=
    ⟨hb1.changes, hb1.jumps, hb1.changeIdx, hb1.jumpIdx⟩
  let st2 : EditorState := { st1 with view := { st1.view with lastWasEdit := true, cursor } }
  have hvalid : st2.settleOffsets.view.Valid st2.doc.text := settleOffsets_valid hplaced
  exact ⟨hvalid, hvalid.toBounded, hmoved.passes, hmoved.pinned⟩

theorem edit_inBounds {st : EditorState} {edits : EditList} {hint : GroupHint} {a : Acted}
    (hb : st.view.Bounded) (h : st.edit edits hint = some a) :
    edits.InBounds st.doc.text.length := by
  obtain ⟨st1, htxn, -⟩ := Option.map_eq_some_iff.mp h
  refine (applyTxn_moved ?_ htxn).1
  exact hb

end EditorState

/-- A plan that was committed fits the text. -/
theorem commit_fits {g : Segmenter} {cells : Cells} {st : EditorState} {plan : Plan}
    {r : EditorState × List Effect} (hb : st.view.Bounded) (h : commit g cells st plan = some r) :
    plan.Fits st.doc.text.length := by
  intro edits hedits
  have harms : plan.action.armsRegister = false := by
    cases haction : plan.action <;> rw [haction] at hedits <;> first | rfl | cases hedits
  rw [commit_eq g cells st harms] at h
  obtain ⟨a, hact, -⟩ := Option.map_eq_some_iff.mp h
  have hleft : (st.left plan).view.Bounded := View.leaveSelection_bounded hb plan.mode
  unfold EditorState.act at hact
  cases haction : plan.action with
  | txn es hint =>
    rw [haction] at hact hedits
    cases hedits
    have hin := EditorState.edit_inBounds hleft hact
    exact hin
  | replaceTxn es hint push pop =>
    rw [haction] at hact hedits
    cases hedits
    obtain ⟨a', ha', -⟩ := Option.map_eq_some_iff.mp hact
    have hin := EditorState.edit_inBounds hleft ha'
    exact hin
  | blockInsertArm es hint session =>
    rw [haction] at hact hedits
    cases hedits
    obtain ⟨a', ha', -⟩ := Option.map_eq_some_iff.mp hact
    by_cases hempty : edits.isEmpty = true
    · intro e he
      rw [List.isEmpty_iff.mp hempty] at he
      cases he
    · rw [if_neg hempty] at ha'
      have hin := EditorState.edit_inBounds hleft ha'
      exact hin
  | _ =>
    rw [haction] at hedits
    cases hedits

theorem settled_of_commit {g : Segmenter} (hg : g.Documented) {cells : Cells}
    {st st' : EditorState} {plan : Plan} {effects : List Effect} (hb : st.view.Bounded)
    (h : commit g cells st plan = some (st', effects)) : st.SettledBy plan st' := by
  obtain ⟨st1, effects1, heq, hback⟩ := commit_settled hg cells hb (commit_fits hb h)
  obtain ⟨rfl, rfl⟩ : st1 = st' ∧ effects1 = effects := by
    rw [h] at heq
    simpa [eq_comm] using heq
  exact hback

namespace Part

/-- Every part but a `:s` leaves the positions it wrote in the text. -/
def settles : Part → Bool
  | substitute _ _ => false
  | _ => true

variable {g : Segmenter} {cells : Cells} {st st' : EditorState} {p : Part} {effects : List Effect}

def passes (st : EditorState) : Part → List Pass
  | commit plan => st.commitPasses plan
  | edit edits _ _ _ => st.exPasses edits
  | substitute edits _ => st.exPasses edits
  | _ => []

theorem commitPasses_of_arms (st : EditorState) {plan : Plan}
    (h : plan.action.armsRegister = true) : st.commitPasses plan = [] := by
  unfold EditorState.commitPasses EditorState.passes EditorState.moves EditorState.lists
  cases haction : plan.action with
  | setPending name => rfl
  | setExprPending result => rfl
  | _ =>
    rw [haction] at h
    cases h

/-- A part that was run carries the places of the view by its passes. -/
theorem run_followed (hg : g.Documented) (hb : st.view.Bounded)
    (h : p.run g cells st = some (st', effects)) : st.Followed st' (p.passes st) := by
  have hstay {v : View} (hv : v.Bounded) : st.Followed { st with view := v } [] :=
    ⟨hv, .nil _, rfl⟩
  cases p with
  | commit plan =>
    have hback := settled_of_commit hg hb h
    unfold EditorState.SettledBy at hback
    split at hback
    · rename_i harms
      obtain ⟨hdoc, hstored, -⟩ := hback
      rw [passes, commitPasses_of_arms st harms]
      refine ⟨hb.congr hstored, ?_, ?_⟩
      · rw [hdoc]
        exact .nil _
      · rw [hdoc]
        rfl
    · obtain ⟨hvalid, hput, hpinned⟩ := hback
      exact ⟨hvalid.toBounded, hput.passes, hpinned⟩
  | edit edits hint origin cursor =>
    obtain ⟨st1, hedit, heq⟩ := Option.map_eq_some_iff.mp h
    cases heq
    exact (EditorState.exEdit_settled hb hedit).2
  | substitute edits cursor =>
    obtain ⟨st1, hedit, heq⟩ := Option.map_eq_some_iff.mp h
    cases heq
    obtain ⟨-, hf⟩ := EditorState.exEdit_settled hb hedit
    exact ⟨hf.bounded.pushJump _, hf.passes, hf.pinned⟩
  | place cursor =>
    cases h
    exact hstay ⟨hb.changes, hb.jumps, hb.changeIdx, hb.jumpIdx⟩
  | select kind cursor =>
    cases h
    exact hstay ⟨hb.changes, hb.jumps, hb.changeIdx, hb.jumpIdx⟩
  | jump pos =>
    cases h
    exact hstay (hb.pushJump _)
  | mark c pos =>
    cases h
    exact hstay (hb.setMark c _)
  | insstart start =>
    cases h
    exact hstay ⟨hb.changes, hb.jumps, hb.changeIdx, hb.jumpIdx⟩
  | fields v =>
    cases h
    exact hstay ⟨hb.changes, hb.jumps, hb.changeIdx, hb.jumpIdx⟩
  | note n =>
    cases h
    have hnote : (st.doc.note n).text = st.doc.text ∧ (st.doc.note n).pinned = st.doc.pinned := by
      cases n <;> exact ⟨rfl, rfl⟩
    refine ⟨hb, ?_, hnote.2⟩
    rw [hnote.1]
    exact .nil _

/-- A part that settles leaves every position in the text. -/
theorem run_valid (hg : g.Documented) (hv : st.view.Valid st.doc.text) (hp : p.settles = true)
    (h : p.run g cells st = some (st', effects)) : st'.view.Valid st'.doc.text := by
  cases p with
  | commit plan =>
    have hback := settled_of_commit hg hv.toBounded h
    unfold EditorState.SettledBy at hback
    split at hback
    · obtain ⟨hdoc, hstored, hcursor, hanchor, hmark⟩ := hback
      rw [hdoc]
      exact hv.congr hstored hcursor hanchor hmark
    · exact hback.1
  | edit edits hint origin cursor =>
    obtain ⟨st1, hedit, heq⟩ := Option.map_eq_some_iff.mp h
    cases heq
    exact (EditorState.exEdit_settled hv.toBounded hedit).1
  | substitute edits cursor => cases hp
  | place cursor =>
    cases h
    exact ⟨⟨hv.changes, hv.jumps, hv.changeIdx, hv.jumpIdx⟩, inText_snap _ _, hv.tracked, hv.anchor,
      hv.mark, hv.insertStart, hv.insstart⟩
  | select kind cursor =>
    cases h
    refine ⟨⟨hv.changes, hv.jumps, hv.changeIdx, hv.jumpIdx⟩, inText_snap _ _, hv.tracked, ?_,
      hv.mark, hv.insertStart, hv.insstart⟩
    intro p hp
    cases hp
    exact hv.cursor
  | jump pos =>
    cases h
    exact hv.pushJump (inText_snap _ _)
  | mark c pos =>
    cases h
    exact hv.setMark c (inText_snap _ _)
  | insstart start =>
    cases h
    refine ⟨⟨hv.changes, hv.jumps, hv.changeIdx, hv.jumpIdx⟩, hv.cursor, hv.tracked, hv.anchor,
      hv.mark, hv.insertStart, ?_⟩
    intro p hp
    exact View.inText_of_map_snap hp
  | fields v =>
    cases h
    exact ⟨⟨hv.changes, hv.jumps, hv.changeIdx, hv.jumpIdx⟩, hv.cursor, hv.tracked, hv.anchor,
      hv.mark, hv.insertStart, hv.insstart⟩
  | note n =>
    cases h
    have hnote : (st.doc.note n).text = st.doc.text := by cases n <;> rfl
    rw [hnote]
    exact hv

end Part

def Action.still : Action → Bool
  | .undo | .redo | .undoChrono _ | .lineUndo => false
  | action => action.edits.all EditList.isEmpty

namespace Part

/-- A part that makes no edit: it leaves the text as it was. -/
def still : Part → Bool
  | commit plan => plan.action.still
  | edit _ _ _ _ => false
  | substitute _ _ => false
  | _ => true

/-- A still part has no edits. -/
theorem lists_of_still (st : EditorState) {plan : Plan} (h : (commit plan).still = true) :
    st.lists plan = [] := by
  have hstill : plan.action.still = true := h
  unfold EditorState.lists
  cases haction : plan.action with
  | txn edits hint =>
    rw [haction] at hstill
    exact if_pos hstill
  | replaceTxn edits hint push pop =>
    rw [haction] at hstill
    exact if_pos hstill
  | blockInsertArm edits hint session =>
    rw [haction] at hstill
    exact if_pos hstill
  | undo => rw [haction] at hstill; cases hstill
  | redo => rw [haction] at hstill; cases hstill
  | undoChrono older => rw [haction] at hstill; cases hstill
  | lineUndo => rw [haction] at hstill; cases hstill
  | _ => rfl

end Part

theorem Passes.eq_of_listsOf {a b : Bytes} {ps : List Pass} (h : Passes a ps b)
    (hlists : listsOf ps = []) : a = b := by
  induction h with
  | nil text => rfl
  | edit edits _ ih => cases hlists
  | restore saved _ ih => exact ih hlists

/-- A still part leaves the text. -/
theorem Part.run_still {g : Segmenter} {cells : Cells} (hg : g.Documented) {st st' : EditorState}
    {p : Part} {effects : List Effect} (hb : st.view.Bounded) (hp : p.still = true)
    (h : p.run g cells st = some (st', effects)) : st'.doc.text = st.doc.text := by
  cases p with
  | commit plan =>
    have hback := settled_of_commit hg hb h
    unfold EditorState.SettledBy at hback
    split at hback
    · rw [hback.1]
    · obtain ⟨-, hput, -⟩ := hback
      exact (hput.passes.eq_of_listsOf (hput.lists.trans (lists_of_still st hp))).symm
  | edit edits hint origin cursor => cases hp
  | substitute edits cursor => cases hp
  | note n =>
    cases h
    cases n <;> rfl
  | _ =>
    cases h
    rfl

/-- The passes the parts of a command make. -/
def partsPasses (g : Segmenter) (cells : Cells) : List Part → EditorState → List Pass
  | [], _ => []
  | p :: ps, st =>
    p.passes st ++ (p.run g cells st).elim [] fun (st, _) => partsPasses g cells ps st

theorem runParts_followed {g : Segmenter} (hg : g.Documented) {cells : Cells} {ps : List Part}
    {st st' : EditorState} {effects : List Effect} (hb : st.view.Bounded)
    (h : runParts g cells ps st = some (st', effects)) :
    st.Followed st' (partsPasses g cells ps st) := by
  induction ps generalizing st effects with
  | nil =>
    cases h
    exact ⟨hb, .nil _, rfl⟩
  | cons p ps ih =>
    obtain ⟨⟨st1, effects1⟩, hp, hrest⟩ := Option.bind_eq_some_iff.mp h
    obtain ⟨⟨st2, effects2⟩, hps, heq⟩ := Option.map_eq_some_iff.mp hrest
    cases heq
    have hf := Part.run_followed hg hb hp
    rw [partsPasses, hp]
    exact hf.trans (ih hf.bounded hps)

theorem runParts_valid {g : Segmenter} (hg : g.Documented) {cells : Cells} {ps : List Part}
    {st st' : EditorState} {effects : List Effect} (hv : st.view.Valid st.doc.text)
    (hps : ∀ p ∈ ps, p.settles = true) (h : runParts g cells ps st = some (st', effects)) :
    st'.view.Valid st'.doc.text := by
  induction ps generalizing st effects with
  | nil =>
    cases h
    exact hv
  | cons p ps ih =>
    obtain ⟨⟨st1, effects1⟩, hp, hrest⟩ := Option.bind_eq_some_iff.mp h
    obtain ⟨⟨st2, effects2⟩, hrun, heq⟩ := Option.map_eq_some_iff.mp hrest
    cases heq
    exact ih (Part.run_valid hg hv (hps p List.mem_cons_self) hp)
      (fun q hq => hps q (List.mem_cons_of_mem _ hq)) hrun

theorem runParts_still {g : Segmenter} (hg : g.Documented) {cells : Cells} {ps : List Part}
    {st st' : EditorState} {effects : List Effect} (hb : st.view.Bounded)
    (hps : ∀ p ∈ ps, p.still = true) (h : runParts g cells ps st = some (st', effects)) :
    st'.doc.text = st.doc.text := by
  induction ps generalizing st effects with
  | nil =>
    cases h
    rfl
  | cons p ps ih =>
    obtain ⟨⟨st1, effects1⟩, hp, hrest⟩ := Option.bind_eq_some_iff.mp h
    obtain ⟨⟨st2, effects2⟩, hrun, heq⟩ := Option.map_eq_some_iff.mp hrest
    cases heq
    have hf := Part.run_followed hg hb hp
    have hrest' := ih hf.bounded (fun q hq => hps q (List.mem_cons_of_mem _ hq)) hrun
    exact hrest'.trans (Part.run_still hg hb (hps p List.mem_cons_self) hp)

/-! ## Commands -/

/-- A command: the parts it takes from a state of the editor, which all go through. -/
structure Command (g : Segmenter) (cells : Cells) where
  parts : EditorState → List Part
  made : ∀ st, (runParts g cells (parts st) st).isSome = true

namespace Command

variable {g : Segmenter} {cells : Cells}

def run (c : Command g cells) (st : EditorState) : EditorState × List Effect :=
  (runParts g cells (c.parts st) st).get (c.made st)

theorem runs (c : Command g cells) (st : EditorState) :
    runParts g cells (c.parts st) st = some (c.run st) := (Option.some_get _).symm

/-- The command of fixed parts, which does nothing where one of them fails. -/
def ofParts (g : Segmenter) (cells : Cells) (ps : List Part) : Command g cells where
  parts st := if (runParts g cells ps st).isSome then ps else []
  made := by
    intro st
    split
    · assumption
    · rfl

/-- On `st` the command makes no `:s` that matches. -/
def Settles (c : Command g cells) (st : EditorState) : Prop := ∀ p ∈ c.parts st, p.settles = true

/-- On `st` the command makes no edit. -/
def Still (c : Command g cells) (st : EditorState) : Prop := ∀ p ∈ c.parts st, p.still = true

theorem ofParts_parts {ps : List Part} {st : EditorState} (h : (runParts g cells ps st).isSome) :
    (ofParts g cells ps).parts st = ps := if_pos h

theorem ofParts_all {P : Part → Prop} {ps : List Part} (h : ∀ p ∈ ps, P p) (st : EditorState) :
    ∀ p ∈ (ofParts g cells ps).parts st, P p := by
  intro p hp
  unfold ofParts at hp
  dsimp only at hp
  split at hp
  · exact h p hp
  · cases hp

theorem run_followed (c : Command g cells) (hg : g.Documented) {st : EditorState}
    (hb : st.view.Bounded) : st.Followed (c.run st).1 (partsPasses g cells (c.parts st) st) :=
  runParts_followed hg hb (c.runs st)

theorem Settles.run_valid {c : Command g cells} {st : EditorState} (h : c.Settles st)
    (hg : g.Documented) (hv : st.view.Valid st.doc.text) :
    (c.run st).1.view.Valid (c.run st).1.doc.text := runParts_valid hg hv h (c.runs st)

theorem Still.text {c : Command g cells} {st : EditorState} (h : c.Still st) (hg : g.Documented)
    (hb : st.view.Bounded) : (c.run st).1.doc.text = st.doc.text := runParts_still hg hb h (c.runs st)

end Command

end Ruse.Core
