import Ruse.Core.ApplyEdits

/-!
# What a committed edit leaves

`commit` of a plan that edits, told by what the next command reads: the text, the cursor, the
registers and the other things a view carries from command to command (`View.Kit`). Each phase
leaves these alone but for the one it is about.
-/

namespace Ruse.Core

namespace View

/-- What a view carries from command to command, the stored offsets apart. -/
structure Kit where
  caret : CaretGravity
  registers : RegisterStore
  pendingRegister : Option Char
  lastWasKill : Bool
  replaceStack : List (Option Bytes)

def kit (v : View) : Kit :=
  ⟨v.caret, v.registers, v.pendingRegister, v.lastWasKill, v.replaceStack⟩

@[simp] theorem leaveSelection_kit (v : View) (mode : Mode) : (v.leaveSelection mode).kit = v.kit := by
  unfold leaveSelection
  split
  · split <;> rfl
  · rfl

@[simp] theorem pushChange_kit (v : View) (b : Bytes) (pos : Nat) (newStep : Bool) :
    (v.pushChange b pos newStep).kit = v.kit := by
  unfold pushChange
  split <;> rfl

@[simp] theorem pushChange_mode (v : View) (b : Bytes) (pos : Nat) (newStep : Bool) :
    (v.pushChange b pos newStep).mode = v.mode := by
  unfold pushChange
  split <;> rfl

@[simp] theorem place_kit (v : View) (b : Bytes) (entered : Entered) (plan : Plan) (nav : Option Nat)
    (newStep : Bool) : (v.place b entered plan nav newStep).kit = v.kit := by
  unfold place
  dsimp only
  split
  · rw [pushChange_kit]
    rfl
  · rfl

@[simp] theorem place_mode (v : View) (b : Bytes) (entered : Entered) (plan : Plan) (nav : Option Nat)
    (newStep : Bool) : (v.place b entered plan nav newStep).mode = plan.mode := by
  unfold place
  dsimp only
  split
  · rw [pushChange_mode]
  · rfl

@[simp] theorem bracket_kit (g : Segmenter) (v : View) (b : Bytes) (entered : Entered) (plan : Plan)
    (editSpan : Option (Nat × Nat)) : (v.bracket g b entered plan editSpan).kit = v.kit := by
  unfold bracket
  dsimp only
  split_ifs
  all_goals first
    | rfl
    | (split <;> rfl)

@[simp] theorem bracket_mode (g : Segmenter) (v : View) (b : Bytes) (entered : Entered) (plan : Plan)
    (editSpan : Option (Nat × Nat)) : (v.bracket g b entered plan editSpan).mode = v.mode := by
  unfold bracket
  dsimp only
  split_ifs
  all_goals first
    | rfl
    | (split <;> rfl)

@[simp] theorem clampCursor_kit (g : Segmenter) (v : View) (b : Bytes) (plan : Plan) :
    (v.clampCursor g b plan).kit = v.kit := by
  unfold clampCursor
  split <;> rfl

@[simp] theorem clampCursor_mode (g : Segmenter) (v : View) (b : Bytes) (plan : Plan) :
    (v.clampCursor g b plan).mode = v.mode := by
  unfold clampCursor
  split <;> rfl

@[simp] theorem leavePhantom_kit (g : Segmenter) (v : View) (b : Bytes) (entered : Entered)
    (plan : Plan) : (v.leavePhantom g b entered plan).kit = v.kit := by
  unfold leavePhantom
  dsimp only
  split <;> rfl

@[simp] theorem leavePhantom_mode (g : Segmenter) (v : View) (b : Bytes) (entered : Entered)
    (plan : Plan) : (v.leavePhantom g b entered plan).mode = v.mode := by
  unfold leavePhantom
  dsimp only
  split <;> rfl

@[simp] theorem capture_mode (v : View) (plan : Plan) : (v.capture plan).mode = v.mode := by
  unfold capture
  dsimp only
  split <;> rfl

@[simp] theorem capture_caret (v : View) (plan : Plan) : (v.capture plan).caret = v.caret := by
  unfold capture
  dsimp only
  split <;> rfl

@[simp] theorem capture_replaceStack (v : View) (plan : Plan) :
    (v.capture plan).replaceStack = v.replaceStack := by
  unfold capture
  dsimp only
  split <;> rfl

/-- What is written into the registers comes from them, the pending one and the kill before. -/
theorem capture_congr {v w : View} (hregisters : w.registers = v.registers)
    (hpending : w.pendingRegister = v.pendingRegister) (hkill : w.lastWasKill = v.lastWasKill)
    (plan : Plan) : (w.capture plan).registers = (v.capture plan).registers ∧
      (w.capture plan).lastWasKill = (v.capture plan).lastWasKill := by
  unfold capture
  split <;> simp only [hregisters, hpending, hkill, and_self]

/-- Neither clamp moves the cursor of a caret between characters, or of a text-entry session. -/
theorem clamps_cursor (g : Segmenter) {v : View} (b : Bytes) (entered : Entered) (plan : Plan)
    (h : v.caret = .betweenChar ∨ v.mode.isTextEntry = true) :
    ((v.clampCursor g b plan).leavePhantom g b entered plan).cursor = v.cursor := by
  have hclamp : v.clampCursor g b plan = v := by
    unfold clampCursor
    rw [if_neg]
    rintro ⟨-, hmode, hcaret⟩
    rcases h with h | h
    · rw [h] at hcaret
      cases hcaret
    · rw [hmode] at h
      cases h
  rw [hclamp]
  unfold leavePhantom
  rw [if_neg]
  rintro ⟨hcaret, hmode, -⟩
  rcases h with h | h
  · rw [h] at hcaret
    cases hcaret
  · exact hmode h

/-- What settling a command without a jump or an undo makes of the rest of the view. -/
theorem settle_kit (g : Segmenter) (v : View) (b : Bytes) (entered : Entered) (plan : Plan)
    (editSpan : Option (Nat × Nat)) (newStep : Bool) :
    let v' := v.settle g b entered plan editSpan none none newStep
    v'.mode = plan.mode ∧ v'.caret = v.caret ∧ v'.registers = (v.capture plan).registers ∧
      v'.lastWasKill = (v.capture plan).lastWasKill ∧ v'.pendingRegister = none ∧
      v'.replaceStack = (if plan.mode ≠ .replace ∧ plan.mode ≠ .virtualReplace then []
        else v.replaceStack) ∧
      (v.caret = .betweenChar ∨ plan.mode.isTextEntry = true → v'.cursor = snap b plan.cursor) ∧
      ∀ m, plan.setMark = some m → v'.mark = some (snap b m) := by
  let u := ((v.place b entered plan none newStep).bracket g b entered plan editSpan).snapOffsets b
  have hukit : u.kit = v.kit := by
    show (View.bracket ..).kit = _
    rw [bracket_kit, place_kit]
  have humode : u.mode = plan.mode := by
    show (View.bracket ..).mode = _
    rw [bracket_mode, place_mode]
  have hucursor : u.cursor = snap b plan.cursor := by
    show (View.bracket ..).cursor = _
    rw [bracket_cursor, place_cursor]
    rfl
  simp only [kit, Kit.mk.injEq] at hukit
  obtain ⟨hcaret, hregisters, hpending, hkill, hstack⟩ := hukit
  let x := (u.endSessions.clampCursor g b plan).leavePhantom g b entered plan
  have hxkit : x.kit = u.endSessions.kit := by
    show (View.leavePhantom ..).kit = _
    rw [leavePhantom_kit, clampCursor_kit]
  have hxmode : x.mode = plan.mode := by
    show (View.leavePhantom ..).mode = _
    rw [leavePhantom_mode, clampCursor_mode]
    exact humode
  simp only [kit, Kit.mk.injEq] at hxkit
  obtain ⟨hxcaret, hxregisters, hxpending, hxkill, hxstack⟩ := hxkit
  obtain ⟨hwritten, hkilled⟩ := capture_congr (hxregisters.trans hregisters)
    (hxpending.trans hpending) (hxkill.trans hkill) plan
  refine ⟨?_, ?_, hwritten, hkilled, rfl, ?_, fun h => ?_, fun m hm => ?_⟩
  · show (x.capture plan).mode = _
    rw [capture_mode, hxmode]
  · show (x.capture plan).caret = _
    rw [capture_caret, hxcaret]
    exact hcaret
  · show (x.capture plan).replaceStack = _
    rw [capture_replaceStack, hxstack, ← hstack, ← humode]
    rfl
  · show (x.capture plan).cursor = _
    rw [capture_cursor, ← hucursor]
    refine clamps_cursor g b entered plan ?_
    rwa [show u.endSessions.caret = v.caret from hcaret, show u.endSessions.mode = plan.mode from humode]
  · show (plan.setMark.or (x.capture plan).mark).map (snap b) = _
    rw [hm]
    rfl

end View

/-! ## An edit -/

/-- What an edit under `plan` leaves of `st`. -/
structure Edited (st : EditorState) (plan : Plan) (edits : EditList) (stack : List (Option Bytes))
    (st' : EditorState) : Prop where
  text : st'.doc.text = edits.applyTo st.doc.text
  mode : st'.view.mode = plan.mode
  caret : st'.view.caret = st.view.caret
  registers : st'.view.registers = (st.view.capture plan).registers
  lastWasKill : st'.view.lastWasKill = (st.view.capture plan).lastWasKill
  pendingRegister : st'.view.pendingRegister = none
  replaceStack : st'.view.replaceStack =
    if plan.mode ≠ .replace ∧ plan.mode ≠ .virtualReplace then [] else stack
  cursor : st.view.caret = .betweenChar ∨ plan.mode.isTextEntry = true →
    st'.view.cursor = snap st'.doc.text plan.cursor
  mark : ∀ m, plan.setMark = some m → st'.view.mark = some (snap st'.doc.text m)

section
variable (g : Segmenter) (cells : Cells) {st : EditorState} {plan : Plan} {edits : EditList}
  {hint : GroupHint}

theorem EditorState.edit_kit (st : EditorState) (edits : EditList) (hint : GroupHint)
    (hin : edits.InBounds st.doc.text.length) :
    ∃ st' span, st.edit edits hint = some ⟨st', span, none, none, []⟩ ∧
      st'.doc.text = edits.applyTo st.doc.text ∧ st'.view.kit = st.view.kit := by
  let doc := st.doc.primeLineUndo st.view.cursor (!st.view.mode.isTextEntry)
  let txn := ((Transaction.new st.doc.revision edits st.origin).withHint hint).withCursor
    (changeStart st.doc.text st.view.mode st.view.cursor st.view.anchor edits)
  obtain ⟨doc', t, happ⟩ := doc.applyInner_inBounds true st.view.tracked txn rfl hin
  have htxn : applyTxn { st with doc } txn = some ⟨doc', st.view.untrack t, st.origin⟩ := by
    unfold applyTxn Document.applyTracked
    rw [happ]
  exact ⟨⟨doc', st.view.untrack t, st.origin⟩, editBracket edits, congrArg (Option.map _) htxn,
    Document.applyInner_text happ, rfl⟩

/-- An edit that leaves the rest of the view is committed. -/
theorem commit_edited (harms : plan.action.armsRegister = false) {stack : List (Option Bytes)}
    (hact : ∃ st' span, (st.left plan).act g cells plan = some ⟨st', span, none, none, []⟩ ∧
      st'.doc.text = edits.applyTo st.doc.text ∧
      st'.view.kit = { st.view.kit with replaceStack := stack }) :
    ∃ st' effects, commit g cells st plan = some (st', effects) ∧ Edited st plan edits stack st' := by
  obtain ⟨a, span, hact, htext, hkit⟩ := hact
  simp only [View.kit, View.Kit.mk.injEq] at hkit
  obtain ⟨hcaret, hregisters, hpending, hkill, hstack⟩ := hkit
  rw [commit_eq g cells st harms, hact]
  obtain ⟨hwritten, hkilled⟩ := View.capture_congr hregisters hpending hkill plan
  obtain ⟨smode, scaret, sregisters, skill, spending, sstack, scursor, smark⟩ :=
    View.settle_kit g a.view a.doc.text
      ⟨st.view.cursor, st.view.anchor, st.view.mode, st.doc.text.getLast? == some newline,
        st.doc.undo.currentGroup⟩ plan span (a.doc.undo.currentGroup != st.doc.undo.currentGroup)
  refine ⟨_, _, rfl, htext, smode, scaret.trans hcaret, sregisters.trans hwritten,
    skill.trans hkilled, spending, ?_, fun h => scursor ?_, smark⟩
  · rw [sstack, hstack]
  · rwa [hcaret]

theorem commit_txn (haction : plan.action = .txn edits hint)
    (hin : edits.InBounds st.doc.text.length) :
    ∃ st' effects, commit g cells st plan = some (st', effects) ∧
      Edited st plan edits st.view.replaceStack st' := by
  obtain ⟨a, span, hedit, htext, hkit⟩ := (st.left plan).edit_kit edits hint hin
  refine commit_edited g cells (by rw [haction]; rfl) ⟨a, span, ?_, htext, ?_⟩
  · rw [EditorState.act, haction]
    exact hedit
  · rw [hkit]
    exact View.leaveSelection_kit st.view plan.mode

/-- A replace commits its edits, and pushes and pops as it says. -/
theorem commit_replaceTxn {push : Option (Option Bytes)} {pop : Bool}
    (haction : plan.action = .replaceTxn edits hint push pop)
    (hin : edits.InBounds st.doc.text.length) :
    ∃ st' effects, commit g cells st plan = some (st', effects) ∧
      Edited st plan edits ((if pop then st.view.replaceStack.dropLast else st.view.replaceStack) ++
        push.toList) st' := by
  obtain ⟨a, span, hedit, htext, hkit⟩ := (st.left plan).edit_kit edits hint hin
  replace hkit := hkit.trans (View.leaveSelection_kit st.view plan.mode)
  refine commit_edited g cells (by rw [haction]; rfl)
    ⟨{ a with
        view :=
          { a.view with
            replaceStack :=
              (if pop then a.view.replaceStack.dropLast else a.view.replaceStack) ++ push.toList } },
      span, ?_, htext, ?_⟩
  · rw [EditorState.act, haction]
    show Option.map _ ((st.left plan).edit edits hint) = _
    rw [hedit]
    rfl
  · simp only [View.kit, View.Kit.mk.injEq] at hkit ⊢
    obtain ⟨hcaret, hregisters, hpending, hkill, hstack⟩ := hkit
    exact ⟨hcaret, hregisters, hpending, hkill, by rw [hstack]⟩

end

end Ruse.Core
