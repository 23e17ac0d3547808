import Ruse.Core.View
import Ruse.Core.Cluster

/-!
# Committing a plan

The model of `commit` of `crates/core/src/editor/mod.rs`: what a planned command does to
the document and its view. A plan performs its `Action` first (`EditorState.act`), which
may carry the view's positions through an edit or an undo; then the cursor, the lists, the
change marks and the selection are put where the plan and the new text want them
(`View.settle`), each offset into the text and on a boundary.

The cells a cluster takes on the screen (`cluster_cells`) and the segmentation into
clusters are parameters.
-/

namespace Ruse.Core

/-! ## Lines and columns of the new text -/

/-- Where line `n` starts, or the text's end. -/
def nthLineStart (b : Bytes) (n : Nat) : Nat := (lineStartsOf b).getD n b.length

/-- The loop of `col_of` with `left` bytes to go: the characters from `i` to `pos`, a byte
of none counting as one. -/
def colFrom (b : Bytes) (pos : Nat) : (left i : Nat) → Nat
  | 0, _ => 0
  | left + 1, i =>
    if i < pos then
      colFrom b pos left (i + ((charLenAt b i).filter (i + · ≤ pos)).getD 1) + 1
    else 0

/-- The character column of `pos` on the line starting at `start`. -/
def colOf (b : Bytes) (start pos : Nat) : Nat := colFrom b pos (pos - start) start

/-- The loop of `at_col`. -/
def atColFrom (b : Bytes) (stop : Nat) : (col i : Nat) → Nat
  | 0, i => min i stop
  | col + 1, i => if i ≥ stop then min i stop else atColFrom b stop col (nextBoundary b i)

/-- Character `col` of the line starting at `start`, or its end. -/
def atCol (b : Bytes) (start col : Nat) : Nat := atColFrom b (lineEnd b start) col start

/-- `cluster_cells`: the end of the cluster at `i` of a line ending at `le`, and the cells
it takes from column `v` on. -/
abbrev Cells := Bytes → (i le v : Nat) → Nat × Nat

/-- The loop of `want_col`, a cluster of the line `left` bytes long a round. -/
def wantFrom (cells : Cells) (b : Bytes) (le want : Nat) : (left i v : Nat) → Nat
  | 0, _, _ => le
  | left + 1, i, v =>
    if i < le then
      if want < v + (cells b i le v).2 then i
      else wantFrom cells b le want left (cells b i le v).1 (v + (cells b i le v).2)
    else le

/-- Where the sticky column `want` is on the line at `ls`. -/
def wantCol (cells : Cells) (b : Bytes) (ls want : Nat) : Nat :=
  wantFrom cells b (lineEnd b ls) want (lineEnd b ls - ls) ls 0

/-- Off the slot after the final newline. -/
def offPhantom (g : Segmenter) (b : Bytes) (pos : Nat) : Nat :=
  if pos < b.length ∨ b.getLast? ≠ some newline then pos
  else if atBol b (b.length - 1) then b.length - 1
  else prevGrapheme g b (b.length - 1)

/-! ## Plans -/

/-- What a command asks of the frontend. -/
inductive Effect where
  | save
  | quit
  | status (text : String)
  | beep
  | registerRefused
deriving DecidableEq, Repr

inductive Action where
  | txn (edits : EditList) (hint : GroupHint)
  /-- An edit of Replace mode, with its entry for the stack `<BS>` restores from. -/
  | replaceTxn (edits : EditList) (hint : GroupHint) (push : Option (Option Bytes)) (pop : Bool)
  | undo
  | redo
  | lineUndo
  | undoChrono (older : Bool)
  | jumpChange (older : Bool)
  | jumpList (older : Bool)
  | setNamedMark (ch : Char)
  | nop
  | setPending (name : Option Char)
  | setExprPending (result : Bytes)
  | blockInsertArm (edits : EditList) (hint : GroupHint) (session : BlockInsert)

/-- How captured text goes into the registers. -/
inductive RegWrite where
  | edit (reg : Register)
  | editRingOne (reg : Register)
  | replaced (reg : Register)
  | yank (reg : Register) (start stop : Nat)
  | killAppend (reg : Register)
  | killPrepend (reg : Register)
  | write (reg : Register)

/-- What a command would do, before any mutation. -/
structure Plan where
  action : Action
  cursor : Nat
  mode : Mode
  isEdit : Bool
  effects : List Effect
  setRegister : Option RegWrite
  setAnchor : Option Nat
  /-- Where to install the Emacs mark. -/
  setMark : Option Nat

/-- The editor over one document and its view. -/
structure EditorState where
  doc : Document
  view : View
  origin : TransactionOrigin

/-- The span the change marks bracket, in the new text. -/
def editBracket (list : EditList) : Option (Nat × Nat) :=
  match list.edits.head?, list.edits.getLast? with
  | some first, some last =>
    -- lines put below an unterminated last line start after the newline they bring
    let start :=
      if list.edits.length = 1 ∧ first.del = 0 ∧ first.ins.length > 1 ∧
          first.ins.head? = some newline then first.pos + 1
      else first.pos
    let before : Int := sumDelta list.edits.dropLast
    some (start, ((last.pos : Int) + before).toNat + last.ins.length)
  | _, _ => none

/-- Where a change begins for undo, in the text before it. -/
def changeStart (b : Bytes) (mode : Mode) (cursor : Nat) (anchor : Option Nat)
    (edits : EditList) : Nat :=
  match edits.edits.head? with
  | none => cursor
  | some first =>
    let pos := first.pos
    match mode.selection, anchor with
    | some .linewise, some a => if a < cursor then lineStart b a else cursor
    | some .linewise, none => cursor
    | some .charwise, some a => min a cursor
    | some .blockwise, some a =>
      let top := min a cursor
      let bottom := max a cursor
      atCol b (lineStart b top)
        (min (colOf b (lineStart b top) top) (colOf b (lineStart b bottom) bottom))
    | some _, none => min pos cursor
    | none, _ =>
      if mode.isTextEntry then cursor
      else
        let atLineStart := pos == 0 || b[pos - 1]? == some newline
        let stop := pos + first.del
        -- from a line start to a line end, or the newline above the last lines with them
        let wholeLines := first.del > 0 &&
          ((atLineStart && (b[stop - 1]? == some newline || stop == b.length)) ||
            (b[pos]? == some newline && stop == b.length))
        if first.del > 0 ∧ ¬ wholeLines ∧ pos < cursor then pos
        else
          let top := if wholeLines && !atLineStart then pos + 1 else pos
          if top < lineStart b cursor then
            atCol b (lineStart b top) (colOf b (lineStart b cursor) cursor)
          else cursor

/-! ## The action -/

/-- What an action leaves: the state, and what placing the cursor and the marks needs. -/
structure Acted where
  state : EditorState
  /-- The change marks of a one-shot edit. -/
  editSpan : Option (Nat × Nat)
  navTarget : Option Nat
  undoMarks : Option UndoCursor.ChangeMarks
  extra : List Effect

/-- Leaving a selection for a mode without one remembers it. -/
def View.leaveSelection (v : View) (mode : Mode) : View :=
  if mode.selection.isNone then
    match v.mode.selection, v.anchor with
    | some kind, some a => { v with lastVisual := some (a, v.cursor, kind), visualOneEnd := none }
    | _, _ => v
  else v

namespace EditorState

/-- `apply_txn`: the view's positions go with the transaction and come back. `none` where
the document refuses it. -/
def applyTxn (st : EditorState) (txn : Transaction) : Option EditorState :=
  match st.doc.applyTracked txn st.view.tracked with
  | .ok (doc, t) => some { st with doc, view := st.view.untrack t }
  | .error _ => none

/-- The edit of a planned command, `none` where its `expect` fails. -/
def edit (st : EditorState) (edits : EditList) (hint : GroupHint) : Option Acted :=
  let start := changeStart st.doc.text st.view.mode st.view.cursor st.view.anchor edits
  let txn := ((Transaction.new st.doc.revision edits st.origin).withHint hint).withCursor start
  let doc := st.doc.primeLineUndo st.view.cursor (!st.view.mode.isTextEntry)
  ({ st with doc }.applyTxn txn).map fun st => ⟨st, editBracket edits, none, none, []⟩

/-- `undo_step`: the cursor joins the jumplist before the step, unless there is none. -/
def undoStep (st : EditorState)
    (f : Document → List Tracked → Option (Document × List Tracked × UndoCursor.Placed)) :
    EditorState × Option UndoCursor.Placed :=
  let view := st.view.pushJump st.view.cursor
  match f st.doc view.tracked with
  | some (doc, t, placed) => ({ st with doc, view := view.untrack t }, some placed)
  | none =>
    -- nothing to undo: the jump goes off the list again
    let view := view.untrack view.tracked
    ({ st with view := { view with jumps := st.view.jumps, jumpIdx := st.view.jumpIdx } }, none)

/-- Where an undo step puts the cursor. -/
def undoTarget (g : Segmenter) (cells : Cells) (st : EditorState) (placed : UndoCursor.Placed)
    (mode : Mode) : Nat :=
  let b := st.doc.text
  let ls := nthLineStart b placed.line
  let le := lineEnd b ls
  let to' :=
    match placed.col with
    | some col => snap b (min (ls + col) le)
    | none => wantCol cells b ls st.view.curswant
  -- no block cursor on the newline
  if to' = le ∧ ls < le ∧ mode = .normal ∧ st.view.caret = .onChar then prevGrapheme g b le
  else to'

/-- An undo, a redo or a chronological step. -/
def undoAct (g : Segmenter) (cells : Cells) (st : EditorState) (mode : Mode)
    (f : Document → List Tracked → Option (Document × List Tracked × UndoCursor.Placed)) : Acted :=
  let (st, placed) := st.undoStep f
  ⟨st, none, placed.map fun p => st.undoTarget g cells p mode, placed.map (·.marks), []⟩

/-- What a failed step along the change list says. -/
def changeListEnd (v : View) (older : Bool) : String :=
  if v.changes.isEmpty then "E664: Changelist is empty"
  else if older then "E662: At start of changelist"
  else "E663: At end of changelist"

/-- The geometry of a block insert, for a repeat. -/
def blockGeom (session : BlockInsert) : BlockGeom where
  height := session.rowsBelow + 1
  width := session.width
  kind := if session.change then .change else if session.append then .append else .insert
  toEol := session.toEol

/-- Perform the action of a plan, `none` where an `expect` on its edits fails. -/
def act (g : Segmenter) (cells : Cells) (st : EditorState) (plan : Plan) : Option Acted :=
  match plan.action with
  | .txn edits hint => st.edit edits hint
  | .replaceTxn edits hint push pop =>
    (st.edit edits hint).map fun a =>
      let view := a.state.view
      let stack := if pop then view.replaceStack.dropLast else view.replaceStack
      { a with
        state := { a.state with view := { view with replaceStack := stack ++ push.toList } } }
  | .undo => some (st.undoAct g cells plan.mode fun d t => d.undoTracked st.view.cursor t)
  | .redo => some (st.undoAct g cells plan.mode fun d t => d.redoTracked st.view.cursor t)
  | .undoChrono older =>
    some (st.undoAct g cells plan.mode fun d t => d.chronologicalTracked older st.view.cursor t)
  | .lineUndo =>
    let (doc, t, caret) := st.doc.lineUndoTracked st.view.cursor st.origin st.view.tracked
    some ⟨{ st with doc, view := st.view.untrack t }, none, caret, none, []⟩
  | .jumpChange older =>
    let (view, target) := st.view.navChange older
    let extra :=
      if target.isNone then [.status (changeListEnd view older), .beep] else []
    some ⟨{ st with view }, none, target, none, extra⟩
  | .jumpList older =>
    let (view, target) := st.view.navJump older st.view.cursor st.doc.text
    some ⟨{ st with view }, none, target, none, if target.isNone then [.beep] else []⟩
  | .setNamedMark ch =>
    some ⟨{ st with view := st.view.setNamedMark ch st.view.cursor }, none, none, none, []⟩
  | .blockInsertArm edits hint session =>
    (if edits.isEmpty then some ⟨st, none, none, none, []⟩ else st.edit edits hint).map fun a =>
      { a with
        state :=
          { a.state with
            view :=
              { a.state.view with
                lastBlockGeom := some (blockGeom session)
                blockInsert := some session } } }
  | .nop => some ⟨st, none, none, none, []⟩
  | .setPending _ => some ⟨st, none, none, none, []⟩
  | .setExprPending _ => some ⟨st, none, none, none, []⟩

end EditorState

/-! ## Settling the view -/

/-- What `commit` reads before it acts. -/
structure Entered where
  cursor : Nat
  anchor : Option Nat
  mode : Mode
  /-- The text ended in a newline. -/
  terminated : Bool
  group : Nat

namespace View

/-- The cursor, the mode and the change list. -/
def place (v : View) (b : Bytes) (entered : Entered) (plan : Plan) (nav : Option Nat)
    (newStep : Bool) : View :=
  let cursor := snap b (nav.getD plan.cursor)
  let v :=
    { v with
      cursor
      -- where Insert was left, for `gi`
      lastInsert :=
        if v.mode = .insert ∧ plan.mode = .normal then some entered.cursor else v.lastInsert
      mode := plan.mode
      lastWasEdit := plan.isEdit }
  if plan.isEdit then v.pushChange b cursor newStep else v

/-- The lines an undo or redo leaves the change marks on. -/
def undoLines (v : View) (b : Bytes) (m : UndoCursor.ChangeMarks) : View :=
  let v :=
    { v with
      changeStart := some (nthLineStart b m.startLine)
      changeEnd := some (nthLineStart b m.endLine) }
  match m.lastChangeLine with
  | some line => v.pushChange b (nthLineStart b line) false
  | none => v

/-- The change marks of a text-entry session left, an edit or a yank. -/
def bracket (g : Segmenter) (v : View) (b : Bytes) (entered : Entered) (plan : Plan)
    (editSpan : Option (Nat × Nat)) : View :=
  let v :=
    if !entered.mode.isTextEntry && plan.mode.isTextEntry then
      { v with insertStart := some v.cursor }
    else v
  if entered.mode.isTextEntry && !plan.mode.isTextEntry then
    -- a session is bracketed from where it began to where it was left
    let start := v.insertStart.getD entered.cursor
    { v with
      changeStart := some (min start entered.cursor)
      changeEnd := some (max start entered.cursor)
      insertStart := none }
  else if !plan.mode.isTextEntry then
    let yankSpan :=
      match plan.setRegister with
      | some (.yank _ start stop) => some (start, stop)
      | _ => none
    match editSpan.or yankSpan with
    | some (s, e) =>
      let s := min s b.length
      { v with
        changeStart := some s
        changeEnd := some (if e > s then prevGrapheme g b (min e b.length) else s) }
    | none => v
  else v

def endSessions (v : View) : View :=
  { v with
    replaceStack :=
      if v.mode ≠ .replace ∧ v.mode ≠ .virtualReplace then [] else v.replaceStack
    blockInsert := if v.mode ≠ .insert then none else v.blockInsert }

/-- Off the newline, and onto the start of a cluster the edit made. -/
def clampCursor (g : Segmenter) (v : View) (b : Bytes) (plan : Plan) : View :=
  if plan.isEdit ∧ v.mode = .normal ∧ v.caret = .onChar then
    let le := lineEnd b v.cursor
    let cursor :=
      if v.cursor = le ∧ lineStart b v.cursor < le then prevGrapheme g b le else v.cursor
    -- the start of the cluster the cursor is in
    let head := prevGrapheme g b (nextGrapheme g b cursor)
    { v with
      cursor :=
        if cursor < b.length ∧ b[cursor]? ≠ some newline ∧ head < cursor then head else cursor }
  else v

/-- Off the slot after the final newline. -/
def leavePhantom (g : Segmenter) (v : View) (b : Bytes) (entered : Entered) (plan : Plan) :
    View :=
  let leaving := entered.mode.isTextEntry && !plan.mode.isTextEntry
  if v.caret = .onChar ∧ ¬ v.mode.isTextEntry ∧ ¬ leaving ∧ entered.terminated then
    { v with cursor := offPhantom g b v.cursor }
  else v

/-- The captured text goes into the registers. -/
def capture (v : View) (plan : Plan) : View :=
  let wasKill := v.lastWasKill
  let v := { v with lastWasKill := false }
  let pending := v.pendingRegister
  match plan.setRegister with
  | some (.edit reg) => { v with registers := v.registers.delete pending reg }
  | some (.editRingOne reg) => { v with registers := v.registers.deleteRing pending reg true }
  | some (.replaced reg) => { v with registers := v.registers.delete none reg }
  | some (.yank reg _ _) => { v with registers := v.registers.yank pending reg }
  | some (.killAppend reg) =>
    { v with
      registers :=
        if wasKill then v.registers.killAppend reg else v.registers.write pending reg
      lastWasKill := true }
  | some (.killPrepend reg) =>
    { v with
      registers :=
        if wasKill then v.registers.killPrepend reg else v.registers.write pending reg
      lastWasKill := true }
  | some (.write reg) => { v with registers := v.registers.write pending reg }
  | none => v

def reanchor (v : View) (b : Bytes) (entered : Entered) (plan : Plan) : View :=
  let anchor :=
    match entered.mode.selection.isSome, v.mode.selection.isSome with
    | false, true => some entered.cursor
    | _, false => none
    | true, true => v.anchor
  { v with anchor := (plan.setAnchor.or anchor).map (snap b) }

/-- The Emacs mark; the pending register is used up. -/
def remark (v : View) (b : Bytes) (plan : Plan) : View :=
  { v with mark := (plan.setMark.or v.mark).map (snap b), pendingRegister := none }

/-- Everything `commit` does to the view after the action, over the new text `b`. -/
def settle (g : Segmenter) (v : View) (b : Bytes) (entered : Entered) (plan : Plan)
    (editSpan : Option (Nat × Nat)) (nav : Option Nat)
    (undoMarks : Option UndoCursor.ChangeMarks) (newStep : Bool) : View :=
  let v := v.place b entered plan nav newStep
  let v := match undoMarks with
    | some m => v.undoLines b m
    | none => v
  let v := ((v.bracket g b entered plan editSpan).snapOffsets b).endSessions
  let v := (v.clampCursor g b plan).leavePhantom g b entered plan
  ((v.capture plan).reanchor b entered plan).remark b plan

end View

/-- Apply a plan, `none` where an `expect` on its edits fails; the state and the effects. -/
def commit (g : Segmenter) (cells : Cells) (st : EditorState) (plan : Plan) :
    Option (EditorState × List Effect) :=
  match plan.action with
  | .setPending name =>
    some ({ st with view := { st.view with pendingRegister := name } }, plan.effects)
  | .setExprPending result =>
    some ({ st with
      view :=
        { st.view with
          registers := st.view.registers.setExpr result
          pendingRegister := some '=' } }, plan.effects)
  | _ =>
    let entered : Entered :=
      ⟨st.view.cursor, st.view.anchor, st.view.mode, st.doc.text.getLast? == some newline,
        st.doc.undo.currentGroup⟩
    let st := { st with view := st.view.leaveSelection plan.mode }
    (st.act g cells plan).map fun a =>
      -- the change opened an undo group
      let newStep := a.state.doc.undo.currentGroup != entered.group
      ({ a.state with
        view := a.state.view.settle g a.state.doc.text entered plan a.editSpan a.navTarget
          a.undoMarks newStep }, plan.effects ++ a.extra)

end Ruse.Core
