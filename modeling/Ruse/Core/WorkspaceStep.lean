import Ruse.Core.WorkspaceRun
import Ruse.Core.MarkMemory

/-!
# Windows on one buffer

A command in the focused window leaves every other buffer and its views alone, and gives
each other view of its buffer back its own positions, carried by the passes of the command
(`InStep`). A `Story` is a run of a workspace with what it has shown of the marks: what the
undo groups have saved is what the marks of their owners had (`Remembered`), so a command
whose undo groups are the focused view's own puts a mark back only to a value that mark had
before (`windows_in_step`). A group another view made puts its marks in (`windows_out_of_step`).
-/

namespace Ruse.Core

open Ruse.Lib

namespace Workspace

/-! ## What the other operations save -/

/-- What an undo group has saved after a step, it had saved, or it is what the marks of
the focused view were, or it is nothing. -/
def Saves (ws ws' : Workspace) : Prop :=
  ∀ id buf', ws'.document id = some buf' → ∀ group saved, buf'.doc.markUndo group = some saved →
    (∃ buf, ws.document id = some buf ∧ buf.doc.markUndo group = some saved) ∨
      ∃ vid r, ws.focusedView = some vid ∧ ws.views.get vid = some r ∧
        (saved = restorable r.view.tracked ∨ saved = [])

theorem saves_of_docs {ws ws' : Workspace} (h : ws'.docs = ws.docs) : Saves ws ws' := by
  intro id buf hbuf group saved hsaved
  exact .inl ⟨buf, document_congr h id ▸ hbuf, hsaved⟩

theorem Saves.retired {ws ws' ws'' : Workspace} (h : Saves ws ws')
    (hkept : ∀ id buf, ws''.document id = some buf → ws'.document id = some buf) : Saves ws ws'' :=
  fun id buf hbuf => h id buf (hkept id buf hbuf)

theorem saves_of_put {ws ws' : Workspace} {id : Nat} {buf buf' : Buffer}
    (hid : ws.document id = some buf) (hdocs : ws'.docs = ws.docs.put (id - 1) (some buf'))
    (h : ∀ group saved, buf'.doc.markUndo group = some saved →
      buf.doc.markUndo group = some saved ∨ ∃ vid r, ws.focusedView = some vid ∧
        ws.views.get vid = some r ∧ (saved = restorable r.view.tracked ∨ saved = [])) :
    Saves ws ws' := by
  intro j b hb group saved hsaved
  have hdoc : ws'.document j = if j = id then some buf' else ws.document j :=
    document_put hid hdocs j
  rw [hdoc] at hb
  split at hb
  · rename_i hj
    cases hb
    exact (h group saved hsaved).imp (fun hold => ⟨buf, hj ▸ hid, hold⟩) fun hnew => hnew
  · exact .inl ⟨b, hb, hsaved⟩

theorem addBuffer_saves (ws : Workspace) (bytes : Bytes) (name : Option String) :
    Saves ws (ws.addBuffer bytes name).1 := by
  intro id buf hbuf group saved hsaved
  rw [addBuffer_document] at hbuf
  split at hbuf
  · cases hbuf
    cases hsaved
  · exact .inl ⟨buf, hbuf, hsaved⟩

/-- Removing a buffer saves and restores no marks. -/
theorem removeBuffer_saves {ws : Workspace} (h : ws.Sound) (id : Nat) {r : Workspace × Bool}
    (hr : ws.removeBuffer id = some r) : Saves ws r.1 := by
  have hput {a b : Workspace} (hdocs : b.docs = a.docs) (j : Nat) (buf : Buffer) {c : Workspace}
      (hc : c.docs = b.docs.put (id - 1) none) (hbuf : c.document j = some buf) :
      a.document j = some buf := by
    unfold document at hbuf ⊢
    split at hbuf
    · cases hbuf
    · rename_i hj
      rw [if_neg hj, ← hdocs]
      rw [hc, Arena.get_put] at hbuf
      split at hbuf
      · cases hbuf
      · exact hbuf
  cases hid : ws.document id with
  | none =>
    unfold removeBuffer at hr
    rw [docIsLive, hid] at hr
    cases hr
    exact saves_of_docs rfl
  | some buf =>
    obtain ⟨mid, ws', hmid, hspec, hrun⟩ := removeBuffer_cases h hid
    rw [hrun] at hr
    cases hr
    rcases hmid with rfl | rfl
    · exact (saves_of_docs rfl).retired fun j b hb => hput hspec.steady.docs j b rfl hb
    · exact (addBuffer_saves ws [] none).retired fun j b hb => hput hspec.steady.docs j b rfl hb

theorem reloadFocused_saves {ws ws' : Workspace} (h : ws.Sound) {bytes : Bytes}
    (hr : ws.reloadFocused bytes = some ws') : Saves ws ws' := by
  obtain ⟨vid, r, buf, -, -, -, hbuf, hfocused⟩ := h.focused
  unfold reloadFocused at hr
  rw [hfocused, Option.bind_some, if_pos ⟨(document_pos hbuf).1, document_le hbuf⟩] at hr
  obtain ⟨v, -, hr⟩ := Option.bind_eq_some_iff.mp hr
  obtain ⟨r', -, hr⟩ := Option.bind_eq_some_iff.mp hr
  obtain ⟨b, -, rfl⟩ := Option.map_eq_some_iff.mp hr
  refine saves_of_put hbuf rfl fun group saved hsaved => ?_
  cases hsaved

/-- An undoable reload saves the marks it crosses from. -/
theorem reloadUndoable_saves {ws : Workspace} (h : ws.Sound) {id : Nat} {bytes : Bytes}
    {out : Workspace × Bool} (hr : ws.reloadUndoable id bytes = some out) : Saves ws out.1 := by
  cases hid : ws.document id with
  | none =>
    unfold reloadUndoable at hr
    rw [hid] at hr
    cases hr
    exact saves_of_docs rfl
  | some buf =>
    by_cases hsame : buf.doc.text = bytes
    · unfold reloadUndoable at hr
      rw [hid] at hr
      dsimp only at hr
      rw [if_pos hsame] at hr
      cases hr
      exact saves_of_put hid rfl fun group saved hsaved => .inl hsaved
    · obtain ⟨vid, r, buf1, hvid, -, hview, hbuf, hfocused⟩ := h.focused
      by_cases hcur : id = r.doc
      · subst hcur
        obtain rfl : buf1 = buf := Option.some.inj (hbuf.symm.trans hid)
        obtain ⟨st, ps, ok, hst, -, hrun⟩ := reloadUndoable_focused h hvid hview hbuf hfocused hsame
        rw [hrun] at hr
        cases hr
        refine saves_of_put hbuf rfl fun group saved hsaved => ?_
        have hgroup : st.doc.markUndo group = some saved := hsaved
        rw [← hst] at hgroup
        refine (Document.reloadTracked_saves hgroup).imp id fun heq => ?_
        exact ⟨vid, r, hvid, hview, .inl heq⟩
      · unfold reloadUndoable at hr
        rw [hid] at hr
        dsimp only at hr
        rw [if_neg hsame, hvid, Option.bind_some, hfocused, Option.bind_some, if_neg hcur,
          Option.map_some] at hr
        generalize hout : buf.doc.reloadTracked bytes [] = re at hr
        have hlive : (ws.putDoc id (some { buf with doc := re.1 })).document id =
            some { buf with doc := re.1 } := (document_put hid rfl id).trans (if_pos rfl)
        rw [hlive] at hr
        cases hr
        refine saves_of_put hid rfl fun group saved hsaved => ?_
        have hgroup : re.1.markUndo group = some saved := hsaved
        rw [← hout] at hgroup
        refine (Document.reloadTracked_saves hgroup).imp (fun hold => hold) fun heq => ?_
        exact ⟨vid, r, hvid, hview, .inr heq⟩

/-- Every operation but a command saves the marks of the focused view, if any. -/
theorem step_saves {g : Segmenter} {cells : Cells} {ws ws' : Workspace} (h : ws.Sound)
    {op : Op g cells} (hop : ∀ c, op ≠ .apply c) (hstep : ws.step op = some ws') : Saves ws ws' := by
  have hsteady {out : Workspace} (hs : Steady ws out) (heq : some out = some ws') :
      Saves ws ws' := by
    cases heq
    exact saves_of_docs hs.docs
  cases op with
  | apply c => exact absurd rfl (hop c)
  | split dir =>
    obtain ⟨r, hr, hs⟩ := splitFocused_steady h dir
    rw [step, hr] at hstep
    exact hsteady hs hstep
  | closeFocused =>
    obtain ⟨r, hr, hs⟩ := closeFocused_steady h
    rw [step, hr] at hstep
    exact hsteady hs hstep
  | only =>
    obtain ⟨r, hr, hs⟩ := only_steady h
    rw [step, hr] at hstep
    exact hsteady hs hstep
  | focusNext => exact hsteady (focusNext_steady h) hstep
  | focusPrev => exact hsteady (focusPrev_steady h) hstep
  | focusWindow i => exact hsteady (focusWindow_steady h i) hstep
  | addBuffer bytes name =>
    cases hstep
    exact addBuffer_saves ws bytes name
  | focusBuffer id =>
    obtain ⟨r, hr, hs⟩ := focusBuffer_steady h id
    rw [step, hr] at hstep
    exact hsteady hs hstep
  | cycleBuffer forward =>
    obtain ⟨out, hr, hs⟩ := cycleBuffer_steady h forward
    rw [step, hr] at hstep
    exact hsteady hs hstep
  | removeBuffer id =>
    obtain ⟨r, hr, rfl⟩ := Option.map_eq_some_iff.mp hstep
    exact removeBuffer_saves h id hr
  | reloadFocused bytes => exact reloadFocused_saves h hstep
  | reloadUndoable id bytes =>
    obtain ⟨r, hr, rfl⟩ := Option.map_eq_some_iff.mp hstep
    exact reloadUndoable_saves h hr

/-! ## A run and what it has shown -/

end Workspace

namespace Memory

def blank : Memory := ⟨fun _ _ _ => False, fun _ _ => none⟩

/-- The marks the views have now, seen. -/
def see (m : Memory) (ws : Workspace) : Memory :=
  { m with had := fun v i p => m.had v i p ∨
      ∃ r, ws.views.get v = some r ∧ (restorable r.view.tracked)[i]? = some (some p) }

/-- After an operation that is no command: a group saved now is the focused view's. -/
def saved (m : Memory) (ws ws' : Workspace) : Memory :=
  { m with owner := fun id group =>
      if (ws'.document id).bind (·.doc.markUndo group) ≠
          (ws.document id).bind (·.doc.markUndo group) then ws.focusedView
      else m.owner id group }

end Memory

namespace Workspace

/-- A run of a workspace whose commands go over undo groups of the view they run in, and
what it has shown of the marks. -/
inductive Story (g : Segmenter) (cells : Cells) (initial : Bytes) : Workspace → Memory → Prop
  | start : Story g cells initial (new initial) (Memory.blank.see (new initial))
  | op {ws ws' : Workspace} {m : Memory} {op : Op g cells} : Story g cells initial ws m →
      (∀ c, op ≠ .apply c) → ws.step op = some ws' →
      Story g cells initial ws' ((m.saved ws ws').see ws')
  | command {ws ws' : Workspace} {m : Memory} {c : Command g cells} {vid : Nat} {r : Resident}
      {buf : Buffer} {effects : List Effect} : Story g cells initial ws m →
      ws.focusedView = some vid → ws.views.get vid = some r → ws.document r.doc = some buf →
      m.Own g cells vid r.doc (c.parts (ws.lent vid r buf)) (ws.lent vid r buf) →
      ws.apply c = some (ws', effects) → Story g cells initial ws'
        ((m.parts g cells vid r.doc (c.parts (ws.lent vid r buf)) (ws.lent vid r buf)).see ws')

/-- What the undo groups have saved, the marks of their owners had, and so did the views
what their marks are now. -/
structure Remembered (ws : Workspace) (m : Memory) : Prop where
  tells : ∀ id buf, ws.document id = some buf → m.Tells id buf.doc
  sees : ∀ v r, ws.views.get v = some r → Known (m.had v) (restorable r.view.tracked)

theorem Remembered.see {ws : Workspace} {m : Memory}
    (h : ∀ id buf, ws.document id = some buf → m.Tells id buf.doc) : Remembered ws (m.see ws) where
  tells := by
    intro id buf hbuf group saved hsaved
    obtain ⟨v, hv, hknown⟩ := h id buf hbuf group saved hsaved
    exact ⟨v, hv, hknown.mono fun i q hq => .inl hq⟩
  sees := fun v r hr i q hq => .inr ⟨r, hr, hq⟩

/-- The memory tells what a step that saves left. -/
theorem Remembered.saved {ws ws' : Workspace} {m : Memory} (h : Remembered ws m)
    (hs : Saves ws ws') {id : Nat} {buf : Buffer} (hbuf : ws'.document id = some buf) :
    (m.saved ws ws').Tells id buf.doc := by
  intro group saved hsaved
  have hnow : (ws'.document id).bind (·.doc.markUndo group) = some saved := by
    rw [hbuf, Option.bind_some, hsaved]
  by_cases hsame : (ws'.document id).bind (·.doc.markUndo group) =
      (ws.document id).bind (·.doc.markUndo group)
  · rw [hnow] at hsame
    obtain ⟨old, hold, hgroup⟩ := Option.bind_eq_some_iff.mp hsame.symm
    obtain ⟨v, hv, hknown⟩ := h.tells id old hold group saved hgroup
    refine ⟨v, ?_, hknown⟩
    show (if _ then _ else _) = _
    rw [if_neg (by rw [hnow, ← hsame]; simp), hv]
  · rcases hs id buf hbuf group saved hsaved with ⟨old, hold, hgroup⟩ | ⟨vid, r, hvid, hr, hnew⟩
    · rw [hnow, hold, Option.bind_some, hgroup] at hsame
      exact absurd rfl hsame
    · refine ⟨vid, (if_pos hsame).trans hvid, ?_⟩
      rcases hnew with rfl | rfl
      · exact h.sees vid r hr
      · exact .nil _

section Step

variable {g : Segmenter} {cells : Cells} {ws : Workspace} {m : Memory} {vid : Nat} {r : Resident}
  {buf : Buffer} {c : Command g cells}

theorem apply_eq (hg : g.Documented) (h : ws.Sound) (hvid : ws.focusedView = some vid)
    (hr : ws.views.get vid = some r) (hbuf : ws.document r.doc = some buf) :
    ∃ effects beeped refused, ws.apply c = some
      ({ ws.takenBack vid r buf (c.run (ws.lent vid r buf)).1
          (partsPasses g cells (c.parts (ws.lent vid r buf)) (ws.lent vid r buf)) with
        beeped, refused }, effects) := by
  have hold := h.bounded vid r hr
  have hb : (ws.lent vid r buf).view.Bounded :=
    ⟨hold.changes, hold.jumps, hold.changeIdx, hold.jumpIdx⟩
  have hback := withView_eq hr hbuf h.pins (h.unpinned_doc hbuf) c.run (c.run_followed hg hb)
  generalize c.run (ws.lent vid r buf) = out at hback ⊢
  refine ⟨out.2, ws.beeped || out.2.contains .beep, ws.refused || out.2.contains .registerRefused, ?_⟩
  unfold apply
  rw [hvid, Option.bind_some, hback, Option.map_some]
  rfl

theorem takenBack_document (hbuf : ws.document r.doc = some buf) (st : EditorState)
    (passes : List Pass) (beeped refused : Bool) (id : Nat) :
    ({ ws.takenBack vid r buf st passes with beeped, refused } : Workspace).document id =
      if id = r.doc then some { buf with doc := { st.doc with pinned := [] } } else ws.document id :=
  document_put hbuf rfl id

theorem Story.sound (hg : g.Documented) {initial : Bytes} (h : Story g cells initial ws m) :
    ws.Sound := by
  induction h with
  | start => exact new_sound initial
  | op _ _ hstep ih =>
    obtain ⟨ws1, hstep1, hspec, -⟩ := step_stepped hg ih _
    rw [hstep] at hstep1
    cases hstep1
    exact hspec.sound
  | command _ _ _ _ _ happly ih =>
    obtain ⟨out, hout, hspec, -⟩ := apply_stepped hg ih _
    rw [happly] at hout
    cases hout
    exact hspec.sound

/-- A command whose undo groups are the view's own keeps what is remembered. -/
theorem Remembered.command (h : Remembered ws m) (hbuf : ws.document r.doc = some buf)
    (hown : m.Own g cells vid r.doc (c.parts (ws.lent vid r buf)) (ws.lent vid r buf)) :
    m.PutsHad g cells vid r.doc (c.parts (ws.lent vid r buf)) (ws.lent vid r buf) ∧
    ∀ (passes : List Pass) (beeped refused : Bool) (id : Nat) (buf' : Buffer),
      ({ ws.takenBack vid r buf (c.run (ws.lent vid r buf)).1 passes with
        beeped, refused } : Workspace).document id = some buf' →
      (m.parts g cells vid r.doc (c.parts (ws.lent vid r buf)) (ws.lent vid r buf)).Tells id buf'.doc := by
  have htells : m.Tells r.doc (ws.lent vid r buf).doc := h.tells r.doc buf hbuf
  obtain ⟨hputs, htells'⟩ := Memory.parts_remembered htells hown (c.runs _)
  refine ⟨hputs, fun passes beeped refused id buf' hbuf' => ?_⟩
  rw [takenBack_document hbuf] at hbuf'
  split at hbuf'
  · rename_i hid
    cases hbuf'
    rw [hid]
    exact htells'
  · rename_i hid
    intro group saved hsaved
    obtain ⟨v, hv, hknown⟩ := h.tells id buf' hbuf' group saved hsaved
    refine ⟨v, ?_, hknown.mono fun i q hq => Memory.parts_had _ hq⟩
    rw [Memory.parts_owner _ hid, hv]

/-- The memory of a story is right about every document. -/
theorem Story.remembered (hg : g.Documented) {initial : Bytes} (h : Story g cells initial ws m) :
    Remembered ws m := by
  induction h with
  | start =>
    refine .see fun id buf hbuf group saved hsaved => ?_
    obtain ⟨hpos, hget⟩ := document_pos hbuf
    cases hid : id - 1 with
    | zero =>
      rw [hid] at hget
      cases hget
      cases hsaved
    | succ n =>
      rw [hid] at hget
      cases hget
  | op hstory hop hstep ih =>
    exact .see fun id buf hbuf => ih.saved (step_saves (hstory.sound hg) hop hstep) hbuf
  | command hstory hvid hr hbuf hown happly ih =>
    obtain ⟨effects, beeped, refused, heq⟩ := apply_eq hg (hstory.sound hg) hvid hr hbuf
    rw [happly] at heq
    cases heq
    exact .see ((ih.command hbuf hown).2 _ beeped refused)

end Step

/-! ## A view at rest in step -/

/-- A position is in the text after passes with an edit among them, wherever it was. -/
theorem moveAll_inText_of_edit {a b : Bytes} {passes : List Pass} (h : Passes a passes b)
    (hedit : listsOf passes ≠ []) (g : LineGravity) {pos : Option Nat} :
    ∀ q, moveAll (.line g) none passes pos = some q → InText b q := by
  induction h generalizing pos with
  | nil text => exact absurd rfl hedit
  | @edit text text' ps edits hrest ih =>
    by_cases hmore : listsOf ps = []
    · refine moveAll_inText hrest g fun p hp => ?_
      obtain ⟨o, -, hmap⟩ := Option.bind_eq_some_iff.mp hp
      obtain ⟨q, rfl⟩ := LineMap.mapOffset_snapped hmap
      exact inText_snap _ q
    · exact ih hmore
  | restore saved hrest ih => exact ih hedit

/-- A view at rest has its own positions back: each is the old one through the passes, by
its own gravity, with nothing restored, and is in the new text; nothing else of the view
is changed. -/
structure InStep (passes : List Pass) (b b' : Bytes) (old new : Resident) : Prop where
  rest : ∃ t cursor, new = { old with view := { old.view.untrack t with cursor } }
  cursor : new.view.cursor =
    snap b' ((moveAll (.line .cursor) none passes (some old.view.cursor)).getD 0)
  changes : new.view.changes.length = old.view.changes.length
  jumps : new.view.jumps.length = old.view.jumps.length
  places : ∀ s, old.view.Has s → new.view.get s = moveAll (.line s.gravity) none passes (old.view.get s)
  cursorValid : InText b' new.view.cursor
  valid : listsOf passes ≠ [] ∨ (∀ s p, old.view.get s = some p → InText b p) →
    ∀ s p, new.view.get s = some p → InText b' p

theorem atRest_inStep {a b : Bytes} {passes : List Pass} (h : Passes a passes b) (old : Resident) :
    InStep passes a b old (atRest passes b old) where
  rest := ⟨_, _, rfl⟩
  cursor := atRest_cursor passes b old
  changes := atRest_changes passes b old
  jumps := atRest_jumps passes b old
  places := fun _ hs => atRest_get passes b old hs
  cursorValid := inText_snap _ _
  valid := by
    intro hvalid s p hp
    rw [atRest_get passes b old (has_of_atRest (View.has_of_get hp))] at hp
    rcases hvalid with hedit | hold
    · exact moveAll_inText_of_edit h hedit s.gravity p hp
    · exact moveAll_inText h s.gravity (fun q hq => hold s q hq) p hp

/-! ## The step -/

/-- The passes of a commit among the parts are passes of the command, and take the view's
places where they go. -/
theorem commit_putBack {g : Segmenter} {cells : Cells} (hg : g.Documented) {before after : List Part}
    {plan : Plan} {st st1 st2 : EditorState} {effects1 effects2 : List Effect}
    (hb : st.view.Bounded) (hbefore : runParts g cells before st = some (st1, effects1))
    (hcommit : commit g cells st1 plan = some (st2, effects2))
    (harms : plan.action.armsRegister = false) :
    PutBack st1 plan st2 (st1.commitPasses plan) ∧
      ∀ p ∈ st1.commitPasses plan, p ∈ partsPasses g cells (before ++ .commit plan :: after) st := by
  constructor
  · have hb1 := (runParts_followed hg hb hbefore).bounded
    have hback := settled_of_commit hg hb1 hcommit
    rw [EditorState.SettledBy, harms] at hback
    exact hback.2.1
  · intro p hp
    induction before generalizing st effects1 with
    | nil =>
      cases hbefore
      exact List.mem_append_left _ hp
    | cons part before ih =>
      obtain ⟨⟨st', effects'⟩, hpart, hrest⟩ := Option.bind_eq_some_iff.mp hbefore
      obtain ⟨⟨st'', effects''⟩, hrun, heq⟩ := Option.map_eq_some_iff.mp hrest
      cases heq
      have hmem := ih (Part.run_followed hg hb hpart).bounded hrun
      rw [List.cons_append, partsPasses, hpart]
      exact List.mem_append_right _ hmem

/-- After every run a command in the focused window leaves the other buffers and their views
as they were, keeps the one register store, and gives each other view of the buffer its own
positions back. Where the commands of the run, and this one, go over undo groups of the view
they run in, what it puts back in a mark of the focused view, that mark had before. -/
theorem windows_in_step {g : Segmenter} {cells : Cells} (hg : g.Documented) {initial : Bytes}
    {ops : List (Op g cells)} {ws : Workspace} (hrun : (new initial).run ops = some ws)
    (c : Command g cells) {vid : Nat} {r : Resident} {buf : Buffer} (hvid : ws.focusedView = some vid)
    (hr : ws.views.get vid = some r) (hbuf : ws.document r.doc = some buf) :
    let st := ws.lent vid r buf
    let st' := (c.run st).1
    let passes := partsPasses g cells (c.parts st) st
    ∃ ws' effects, ws.apply c = some (ws', effects) ∧
      -- the rest is untouched
      (∀ id, id ≠ r.doc → ws'.document id = ws.document id) ∧
      (∀ w old, ws.views.get w = some old → old.doc ≠ r.doc → ws'.views.get w = some old) ∧
      -- one register store
      st.view.registers = ws.registers ∧ ws'.registers = st'.view.registers ∧
      (∀ w new, ws'.views.get w = some new → new.view.registers = .new) ∧
      -- the other views of the buffer
      (∀ w old, w ≠ vid → ws.views.get w = some old → old.doc = r.doc →
        ∃ new, ws'.views.get w = some new ∧ InStep passes buf.doc.text st'.doc.text old new) ∧
      -- the marks of the focused view
      (∀ before plan after st1 effects1 st2 effects2, c.parts st = before ++ .commit plan :: after →
        runParts g cells before st = some (st1, effects1) →
        commit g cells st1 plan = some (st2, effects2) → plan.action.armsRegister = false →
        PutBack st1 plan st2 (st1.commitPasses plan) ∧
          ∀ p ∈ st1.commitPasses plan, p ∈ passes) ∧
      ∀ m, Story g cells initial ws m → m.Own g cells vid r.doc (c.parts st) st →
        m.PutsHad g cells vid r.doc (c.parts st) st := by
  intro st st' passes
  have hsound : ws.Sound := by
    obtain ⟨ws1, hws1, hsound, -⟩ := run_sound hg (new_sound initial) ops
    rw [hrun] at hws1
    cases hws1
    exact hsound
  have hold := hsound.bounded vid r hr
  have hb : (ws.lent vid r buf).view.Bounded :=
    ⟨hold.changes, hold.jumps, hold.changeIdx, hold.jumpIdx⟩
  have hf := c.run_followed hg hb
  obtain ⟨effects, beeped, refused, heq⟩ := apply_eq (c := c) hg hsound hvid hr hbuf
  have hid : buf.id = r.doc := hsound.id_eq hbuf
  refine ⟨_, effects, heq, ?_, ?_, rfl, rfl, ?_, ?_, ?_, ?_⟩
  · intro id hne
    rw [takenBack_document hbuf, if_neg hne]
  · intro w old hw hne
    have hwvid : w ≠ vid := by
      rintro rfl
      rw [hr] at hw
      cases hw
      exact hne rfl
    refine (takenBack_get_of_ne buf _ _ hwvid).trans ?_
    rw [hw, Option.map_some, if_neg fun h => hne (h.trans hid)]
  · intro w new hnew
    obtain ⟨out, hout, hspec, -⟩ := apply_stepped hg hsound c
    rw [heq] at hout
    cases hout
    exact hspec.sound.store w new hnew
  · intro w old hwvid hw hsame
    refine ⟨_, ?_, atRest_inStep hf.passes old⟩
    refine (takenBack_get_of_ne buf _ _ hwvid).trans ?_
    rw [hw, Option.map_some, if_pos (hsame.trans hid.symm)]
  · intro before plan after st1 effects1 st2 effects2 hsplit hbefore hcommit harms
    show _ ∧ ∀ p ∈ _, p ∈ partsPasses g cells (c.parts st) st
    rw [hsplit]
    exact commit_putBack hg hb hbefore hcommit harms
  · intro m hstory hown
    exact ((hstory.remembered hg).command hbuf hown).1

/-- A character replaced, and that undone in the view that did it. -/
theorem windows_in_step_undone :
    let cells : Cells := fun _ i _ _ => (i + 1, 1)
    let edits : EditList := ⟨[⟨0, 1, [120]⟩], by decide, by decide⟩
    let plan (action : Action) (isEdit : Bool) : Plan :=
      ⟨action, 0, .normal, isEdit, [], none, none, none⟩
    let ps : List Part :=
      [.mark 'a' 1, .commit (plan (.txn edits .breakBefore) true), .commit (plan .undo false)]
    let ws := new [97, 98, 10]
    let r : Resident := ⟨1, View.fresh⟩
    let buf : Buffer := ⟨1, (Document.new [97, 98, 10]).markSaved⟩
    (∃ ws' effects, ws.apply (.ofParts .byChar cells ps) = some (ws', effects)) ∧
      (Memory.blank.see ws).PutsHad .byChar cells 0 1 ps (ws.lent 0 r buf) := by
  intro cells edits plan ps ws r buf
  have hparts : (Command.ofParts .byChar cells ps).parts (ws.lent 0 r buf) = ps :=
    Command.ofParts_parts (by decide +kernel)
  have hown : (Memory.blank.see ws).Own .byChar cells 0 1 ps (ws.lent 0 r buf) := by
    decide +kernel
  obtain ⟨ws', effects, happly, -, -, -, -, -, -, -, hmarks⟩ :=
    @windows_in_step .byChar cells Segmenter.byChar_documented [97, 98, 10] [] ws rfl
      (.ofParts .byChar cells ps) 0 r buf rfl rfl rfl
  have hputs := hmarks _ .start (hparts.symm ▸ hown)
  rw [hparts] at hputs
  exact ⟨⟨ws', effects, happly⟩, hputs⟩

/-- Two windows on one buffer, each with a mark `a`: an undo in the second of a change made
in the first puts its mark where the first one's was. -/
theorem windows_out_of_step :
    let cells : Cells := fun _ i _ _ => (i + 1, 1)
    let edits : EditList := ⟨[⟨0, 1, [120]⟩], by decide, by decide⟩
    let plan (action : Action) (isEdit : Bool) : Plan :=
      ⟨action, 0, .normal, isEdit, [], none, none, none⟩
    let ops : List (Op .byChar cells) :=
      [.split .horizontal, .apply (.ofParts _ _ [.mark 'a' 2]), .focusNext,
        .apply (.ofParts _ _ [.mark 'a' 0]),
        .apply (.ofParts _ _ [.commit (plan (.txn edits .breakBefore) true)]),
        .focusNext, .apply (.ofParts _ _ [.commit (plan .undo false)])]
    let marks : List (Option (Option Nat)) := (List.range 8).map fun k =>
      ((new [97, 98, 99, 10]).run (ops.take k)).bind fun ws =>
        (ws.views.get 1).map fun r => r.view.get (.named 0)
    marks = [none, some none, some (some 2), some (some 2), some (some 2), some (some 2),
      some (some 2), some (some 0)] := by
  decide +kernel

end Workspace

end Ruse.Core
