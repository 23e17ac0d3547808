import Ruse.Core.Command
import Ruse.Lib.Arena

/-!
# The workspace

The model of `crates/core/src/workspace.rs`: the arenas of documents and views, the
windows over them and the buffer list. A command runs in the focused window on an
`EditorState` the workspace lends it (`withView`): the register store goes along, and the
positions of the other views of the document are pinned in it, to be carried by the
command's edits and read back. Where an `expect` or an index of the source fails, the
model answers `none`.

The clipboard, the window display options, the scroll state and the flags a frontend
takes are left out.
-/

namespace Ruse.Core

open Ruse.Lib

/-- A document in its arena, with the `DocumentId` it was given, from 1 on. -/
structure Buffer where
  id : Nat
  doc : Document

/-- A view in its arena, and the buffer it shows. -/
structure Resident where
  doc : Nat
  view : View

inductive SplitDir where
  | horizontal
  | vertical
deriving DecidableEq, Repr

/-- The option values a view starts with. -/
structure ViewOptions where
  caret : CaretGravity
  textWidth : Nat

structure Workspace where
  /-- Slot `i` holds the buffer with id `i + 1`. -/
  docs : Arena Buffer
  views : Arena Resident
  /-- The view of each window, in tile order. -/
  windows : List Nat
  split : SplitDir
  focus : Nat
  names : List (Option String)
  bufferOrder : List Nat
  alt : Option Nat
  defaults : ViewOptions
  beeped : Bool
  refused : Bool
  registers : RegisterStore
  /-- Where the views at rest have their positions in the lent document. -/
  pins : List (Nat × Nat × Nat)
  origin : TransactionOrigin

/-- Reload the document under a view, with the view's positions. -/
def EditorState.reload (st : EditorState) (bytes : Bytes) : EditorState × Bool :=
  let (doc, t, ok) := st.doc.reloadTracked bytes st.view.tracked
  ({ st with doc, view := st.view.untrack t }, ok)

namespace Workspace

/-- A fresh workspace over `initial`: one buffer, one view, one window. -/
def new (initial : Bytes) : Workspace where
  docs := [some ⟨1, (Document.new initial).markSaved⟩]
  views := [some ⟨1, View.fresh⟩]
  windows := [0]
  split := .horizontal
  focus := 0
  names := [none]
  bufferOrder := [1]
  alt := none
  defaults := ⟨.onChar, 0⟩
  beeped := false
  refused := false
  registers := .new
  pins := []
  origin := .userInput

/-! ## Looking up -/

/-- The buffer `id`, `none` for a retired one. -/
def document (ws : Workspace) (id : Nat) : Option Buffer :=
  if id = 0 then none else ws.docs.get (id - 1)

def docIsLive (ws : Workspace) (id : Nat) : Bool := (ws.document id).isSome

/-- Put a document into the slot of its buffer. -/
def putDoc (ws : Workspace) (id : Nat) (buf : Option Buffer) : Workspace :=
  { ws with docs := ws.docs.put (id - 1) buf }

def putView (ws : Workspace) (vid : Nat) (r : Option Resident) : Workspace :=
  { ws with views := ws.views.put vid r }

/-- The view the focused window shows. -/
def focusedView (ws : Workspace) : Option Nat := ws.windows[ws.focus]?

/-- The buffer the focused window shows. -/
def focusedBuffer (ws : Workspace) : Option Nat :=
  ws.focusedView.bind fun vid => (ws.views.get vid).map Resident.doc

/-- The focused window's view and document. -/
def focused (ws : Workspace) : Option (Resident × Buffer) :=
  ws.focusedView.bind fun vid =>
    (ws.views.get vid).bind fun r => (ws.document r.doc).map fun buf => (r, buf)

/-! ## Lending the focused pair -/

/-- Pin the positions of the views of buffer `id`, from view `i` on. -/
def pinFrom (id : Nat) : (i : Nat) → Arena Resident → Document →
    Document × List (Nat × Nat × Nat)
  | _, [], doc => (doc, [])
  | i, some r :: views, doc =>
    if r.doc = id then
      -- the cursor last, where `unpinOne` takes it off
      let t := r.view.tracked ++ [Tracked.line (some r.view.cursor) .cursor]
      let (doc, start) := doc.pinTracked t
      let (doc, pins) := pinFrom id (i + 1) views doc
      (doc, (i, start, start + t.length) :: pins)
    else pinFrom id (i + 1) views doc
  | i, none :: views, doc => pinFrom id (i + 1) views doc

/-- An editor over `buf` and `view`, which holds the register store. -/
def lend (ws : Workspace) (buf : Buffer) (view : View) : Workspace × EditorState :=
  let (doc, pins) := pinFrom buf.id 0 ws.views buf.doc
  ({ ws with pins := ws.pins ++ pins, registers := view.registers },
    ⟨doc, { view with registers := ws.registers }, ws.origin⟩)

/-- Read the positions of one view back. -/
def unpinOne (b : Bytes) (pinned : List Tracked) (views : Arena Resident)
    (pin : Nat × Nat × Nat) : Option (Arena Resident) :=
  let (vid, start, stop) := pin
  if vid < views.length then
    match views.get vid with
    -- a view retired meanwhile has nothing to take back
    | none => some views
    | some r =>
      if start ≤ stop ∧ stop ≤ pinned.length then
        let t := (pinned.drop start).take (stop - start)
        t.getLast?.map fun last =>
          let view := r.view.untrack t.dropLast
          views.put vid (some { r with
            view := { view with cursor := snap b (min (last.pos.getD 0) b.length) } })
      else none
  else none

/-- Take the register store and the pinned positions back. -/
def reclaim (ws : Workspace) (st : EditorState) : Option (Workspace × Document × View) :=
  let (doc, pinned) := st.doc.takePinned
  (ws.pins.foldlM (unpinOne doc.text pinned) ws.views).map fun views =>
    ({ ws with views, pins := [], registers := st.view.registers }, doc,
      { st.view with registers := ws.registers })

/-- Run `f` on view `vid` and its document. -/
def withView {α : Type} (ws : Workspace) (vid : Nat) (f : EditorState → EditorState × α) :
    Option (Workspace × α) :=
  (ws.views.get vid).bind fun r =>
    (ws.document r.doc).bind fun buf =>
      -- both slots stand empty while `f` runs
      let (lent, st) := ((ws.putView vid none).putDoc r.doc none).lend buf r.view
      let (st, out) := f st
      (lent.reclaim st).map fun (ws, doc, view) =>
        ((ws.putDoc r.doc (some { buf with doc })).putView vid (some { r with view }), out)

/-- Run a command in the focused window. -/
def apply {g : Segmenter} {cells : Cells} (ws : Workspace) (c : Command g cells) :
    Option (Workspace × List Effect) :=
  ws.focusedView.bind fun vid =>
    (ws.withView vid c.run).map fun (ws, effects) =>
      ({ ws with
        beeped := ws.beeped || effects.contains .beep
        refused := ws.refused || effects.contains .registerRefused }, effects)

/-! ## Windows -/

def focusNext (ws : Workspace) : Workspace :=
  if ws.windows.isEmpty then ws else { ws with focus := (ws.focus + 1) % ws.windows.length }

def focusPrev (ws : Workspace) : Workspace :=
  if ws.windows.isEmpty then ws
  else { ws with focus := (ws.focus + ws.windows.length - 1) % ws.windows.length }

def focusWindow (ws : Workspace) (i : Nat) : Workspace :=
  if ws.windows.isEmpty then ws else { ws with focus := min i (ws.windows.length - 1) }

/-- Split the focused window: the new one shows a clone of its view. -/
def splitFocused (ws : Workspace) (dir : SplitDir) : Option (Workspace × Nat) :=
  ws.focusedView.bind fun src =>
    (ws.views.get src).map fun clone =>
      let vid := ws.views.length
      ({ ws with
        split := dir
        views := ws.views ++ [some clone]
        windows := ws.windows.insertIdx (ws.focus + 1) vid
        focus := ws.focus + 1 }, vid)

/-- Close the focused window and retire its view; never the last one. -/
def closeFocused (ws : Workspace) : Option (Workspace × Bool) :=
  if ws.windows.length ≤ 1 then some (ws, false)
  else
    ws.focusedView.bind fun vid =>
      if vid < ws.views.length then
        let windows := ws.windows.eraseIdx ws.focus
        some ({ ws with
          windows
          views := ws.views.put vid none
          focus := if ws.focus ≥ windows.length then windows.length - 1 else ws.focus }, true)
      else none

def retire (views : Arena Resident) (vid : Nat) : Option (Arena Resident) :=
  if vid < views.length then some (views.put vid none) else none

/-- Close every window but the focused one. -/
def only (ws : Workspace) : Option (Workspace × Nat) :=
  if ws.windows.length ≤ 1 then some (ws, 0)
  else
    ws.focusedView.bind fun kept =>
      let others := ws.windows.eraseIdx ws.focus
      (others.foldlM retire ws.views).map fun views =>
        ({ ws with views, windows := [kept], focus := 0 }, others.length)

/-! ## Buffers -/

/-- A fresh view of buffer `id`. -/
def pushView (ws : Workspace) (id : Nat) : Workspace × Nat :=
  let view := { View.fresh with caret := ws.defaults.caret, textWidth := ws.defaults.textWidth }
  ({ ws with views := ws.views ++ [some (Resident.mk id view)] }, ws.views.length)

def addBuffer (ws : Workspace) (bytes : Bytes) (name : Option String) : Workspace × Nat :=
  let id := ws.docs.length + 1
  let ws :=
    { ws with
      docs := ws.docs ++ [some (Buffer.mk id (Document.new bytes).markSaved)]
      names := ws.names ++ [name] }
  let (ws, _) := ws.pushView id
  ({ ws with bufferOrder := ws.bufferOrder ++ [id] }, id)

/-- Whether a window other than the focused one shows view `vid`. -/
def shownElsewhere (ws : Workspace) (vid : Nat) : Bool :=
  ws.windows.zipIdx.any fun (w, i) => i != ws.focus && w == vid

/-- A view of buffer `id` to show in the focused window: one no other window shows, or a
fresh one. -/
def viewForBuffer (ws : Workspace) (id : Nat) : Option (Workspace × Nat) :=
  let reusable := (List.range ws.views.length).find? fun vid =>
    (ws.views.get vid).any (·.doc == id) && !ws.shownElsewhere vid
  match reusable with
  | some vid => some (ws, vid)
  | none => ws.focused.map fun _ => ws.pushView id

/-- Show buffer `id` in the focused window. -/
def focusBuffer (ws : Workspace) (id : Nat) : Option (Workspace × Bool) :=
  if !ws.docIsLive id then some (ws, false)
  else
    ws.focusedBuffer.bind fun current =>
      if current = id then some (ws, true)
      else
        (({ ws with alt := some current } : Workspace).viewForBuffer id).map fun (ws, vid) =>
          ({ ws with windows := ws.windows.set ws.focus vid }, true)

/-- Show the next or the previous buffer of the list. -/
def cycleBuffer (ws : Workspace) (forward : Bool) : Option Workspace :=
  let live := ws.bufferOrder.filter ws.docIsLive
  if live.length ≤ 1 then some ws
  else
    ws.focusedBuffer.bind fun current =>
      match live.idxOf? current with
      | none => some ws
      | some pos =>
        let n := live.length
        -- round the list of live buffers
        let next := if forward then (pos + 1) % n else (pos + n - 1) % n
        live[next]?.bind fun id => (ws.focusBuffer id).map Prod.fst

/-- The buffer to show instead of `id`: the alternate one, or the next in the list. -/
def replacementOf (ws : Workspace) (id : Nat) : Option Nat :=
  (ws.alt.filter fun a => a != id && ws.docIsLive a).or <|
    (ws.bufferOrder.idxOf? id).bind fun p =>
      -- the list from the place after `id`, and round to it
      ((ws.bufferOrder ++ ws.bufferOrder).drop (p + 1) |>.take ws.bufferOrder.length).find?
        fun b => b != id && ws.docIsLive b

/-- Give window `i` a fresh view of `replacement` if it shows buffer `id`. -/
def repoint (id replacement : Nat) (ws : Workspace) (i : Nat) : Option Workspace :=
  ws.windows[i]?.bind fun vid =>
    if vid < ws.views.length then
      if (ws.views.get vid).any (·.doc == id) then
        let (ws, nv) := ws.pushView replacement
        some { ws with windows := ws.windows.set i nv }
      else some ws
    else none

/-- Delete buffer `id`: its windows show another one, its views and it are retired. -/
def removeBuffer (ws : Workspace) (id : Nat) : Option (Workspace × Bool) :=
  if !ws.docIsLive id then some (ws, false)
  else
    let (ws, replacement) :=
      match ws.replacementOf id with
      | some r => (ws, r)
      | none => ws.addBuffer [] none
    ((List.range ws.windows.length).foldlM (repoint id replacement) ws).map fun ws =>
      ({ ws with
        views := ws.views.map fun v => v.filter (·.doc != id)
        docs := ws.docs.put (id - 1) none
        names := ws.names.set (id - 1) none
        bufferOrder := ws.bufferOrder.filter (· != id)
        alt := if ws.alt = some id then none else ws.alt }, true)

/-! ## Reloading -/

/-- A view of buffer `id` keeps its place, clamped into the new text. -/
def resettle (id : Nat) (b : Bytes) (r : Resident) : Resident :=
  if r.doc = id then
    { r with view := { r.view with cursor := snap b r.view.cursor }.snapOffsets b }
  else r

/-- Put the focused view's cursor at `pos`, or the end. -/
def placeFocusedCursor (ws : Workspace) (pos : Nat) : Option Workspace :=
  ws.focusedView.bind fun vid =>
    (ws.views.get vid).bind fun r =>
      (ws.document r.doc).map fun buf =>
        ws.putView vid (some { r with view := { r.view with cursor := min pos buf.doc.text.length } })

/-- `:e!`: a fresh, saved document under the same id. -/
def reloadFocused (ws : Workspace) (bytes : Bytes) : Option Workspace :=
  ws.focusedBuffer.bind fun id =>
    if 0 < id ∧ id ≤ ws.docs.length then
      let old := ws.document id
      let last := old.elim 0 (·.doc.revision)
      let doc := ((Document.replacing bytes last).markSaved).setModifiable (old.all (·.doc.modifiable))
      let ws := { ws with views := ws.views.map (Option.map (resettle id doc.text)) }
      (ws.putDoc id (some ⟨id, doc⟩)).placeFocusedCursor 0
    else none

/-- Re-read buffer `id` as one undoable change, then mark it saved. -/
def reloadUndoable (ws : Workspace) (id : Nat) (bytes : Bytes) :
    Option (Workspace × Bool) :=
  match ws.document id with
  | none => some (ws, false)
  | some buf =>
    if buf.doc.text = bytes then
      some (ws.putDoc id (some { buf with doc := buf.doc.markSaved }), false)
    else
      (ws.focusedView.bind fun vid =>
        ws.focusedBuffer.bind fun current =>
          if id = current then
            ws.withView vid (·.reload bytes)
          else
            let (doc, _, ok) := buf.doc.reloadTracked bytes []
            some (ws.putDoc id (some { buf with doc }), ok)).map fun (ws, ok) =>
        (match ws.document id with
          | none => ws
          | some buf =>
            { ws with views := ws.views.map (Option.map (resettle id buf.doc.text)) }, ok)

/-! ## Runs -/

inductive Op (g : Segmenter) (cells : Cells) where
  | split (dir : SplitDir)
  | closeFocused
  | only
  | focusNext
  | focusPrev
  | focusWindow (i : Nat)
  | addBuffer (bytes : Bytes) (name : Option String)
  | focusBuffer (id : Nat)
  | cycleBuffer (forward : Bool)
  | removeBuffer (id : Nat)
  | reloadFocused (bytes : Bytes)
  | reloadUndoable (id : Nat) (bytes : Bytes)
  | apply (c : Command g cells)

def step {g : Segmenter} {cells : Cells} (ws : Workspace) : Op g cells → Option Workspace
  | .split dir => (ws.splitFocused dir).map Prod.fst
  | .closeFocused => ws.closeFocused.map Prod.fst
  | .only => ws.only.map Prod.fst
  | .focusNext => some ws.focusNext
  | .focusPrev => some ws.focusPrev
  | .focusWindow i => some (ws.focusWindow i)
  | .addBuffer bytes name => some (ws.addBuffer bytes name).1
  | .focusBuffer id => (ws.focusBuffer id).map Prod.fst
  | .cycleBuffer forward => ws.cycleBuffer forward
  | .removeBuffer id => (ws.removeBuffer id).map Prod.fst
  | .reloadFocused bytes => ws.reloadFocused bytes
  | .reloadUndoable id bytes => (ws.reloadUndoable id bytes).map Prod.fst
  | .apply c => (ws.apply c).map Prod.fst

end Workspace

end Ruse.Core
