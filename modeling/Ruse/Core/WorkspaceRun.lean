import Ruse.Core.WorkspaceReload

/-!
# Every run of a workspace

No operation fails on a sound workspace, and each leaves a sound one (`step_stepped`), so
every run does (`workspace_sound`). The stored positions stay in their texts through the
operations that are `Calm`.
-/

namespace Ruse.Core

open Ruse.Lib

namespace Workspace

variable {ws : Workspace} {g : Segmenter} {cells : Cells}

/-! ## Commands -/

/-- The buffers an operation is about. -/
def Op.Touches {g : Segmenter} {cells : Cells} (ws : Workspace) (id : Nat) : Op g cells → Prop
  | .apply _ => ws.focusedBuffer = some id
  | .reloadFocused _ => ws.focusedBuffer = some id
  | .reloadUndoable j _ => id = j
  | .removeBuffer j => id = j
  | _ => False

/-- A command makes no `:s` that matches, and where it edits no other view of the buffer
has a position that rests outside the pinned ones. -/
def Op.Calm {g : Segmenter} {cells : Cells} (ws : Workspace) : Op g cells → Prop
  | .apply c => ∀ vid r buf, ws.focusedView = some vid → ws.views.get vid = some r →
      ws.document r.doc = some buf → c.Settles (ws.lent vid r buf) ∧
        (c.Still (ws.lent vid r buf) ∨ ∀ w old, w ≠ vid → ws.views.get w = some old →
          old.doc = r.doc → Unanchored old.view)
  | _ => True

theorem Sound.with_flags (h : ws.Sound) (beeped refused : Bool) :
    ({ ws with beeped, refused } : Workspace).Sound :=
  { h with }

/-- A command steps the focused buffer alone. -/
theorem apply_stepped (hg : g.Documented) (h : ws.Sound) (c : Command g cells) :
    ∃ r, ws.apply c = some r ∧ Stepped ws r.1 (fun id => ws.focusedBuffer = some id) ∧
      ((Op.apply c).Calm ws → ws.InPlace → r.1.InPlace) := by
  obtain ⟨vid, r, buf, hvid, hmem, hr, hbuf, hfocused⟩ := h.focused
  have hold := h.bounded vid r hr
  have hb : (ws.lent vid r buf).view.Bounded :=
    ⟨hold.changes, hold.jumps, hold.changeIdx, hold.jumpIdx⟩
  have hf := c.run_followed hg hb
  generalize partsPasses g cells (c.parts (ws.lent vid r buf)) (ws.lent vid r buf) = ps at hf
  have hback := withView_eq hr hbuf h.pins (h.unpinned_doc hbuf) c.run hf
  have hstep := @takenBack_stepped ws vid r buf _ ps h hr hbuf hf.bounded
  have hplace (hcalm : (Op.apply c).Calm ws) (hin : ws.InPlace) :
      (ws.takenBack vid r buf (c.run (ws.lent vid r buf)).1 ps).InPlace := by
    obtain ⟨hsettles, hrest⟩ := hcalm vid r buf hvid hr hbuf
    have hv := hin vid r buf hr hbuf
    have hlent : (ws.lent vid r buf).view.Valid (ws.lent vid r buf).doc.text :=
      ⟨hb, hv.cursor, hv.tracked, hv.anchor, hv.mark, hv.insertStart, hv.insstart⟩
    refine takenBack_inPlace h hr hbuf hf (hsettles.run_valid hg hlent) ?_ hin
    exact hrest.imp (fun hstill => hstill.text hg hb) id
  generalize c.run (ws.lent vid r buf) = out at hf hback hstep hplace
  have hrun : ws.apply c = some
      ({ ws.takenBack vid r buf out.1 ps with
          beeped := ws.beeped || out.2.contains .beep
          refused := ws.refused || out.2.contains .registerRefused }, out.2) := by
    unfold apply
    rw [hvid, Option.bind_some, hback, Option.map_some]
    rfl
  refine ⟨_, hrun, ⟨hstep.sound.with_flags _ _, hstep.grows, hstep.retired, ?_⟩, ?_⟩
  · intro id b hid hne
    refine hstep.kept id b hid fun heq => hne ?_
    rw [heq]
    exact hfocused
  · intro hcalm hin
    exact (hplace hcalm hin).of_views rfl fun w r' hr' => ⟨w, hr'⟩

/-! ## Steps and runs -/

theorem Stepped.mono {ws' : Workspace} {touched touched' : Nat → Prop} (h : Stepped ws ws' touched)
    (hsub : ∀ id, touched id → touched' id) :
    Stepped ws ws' touched' :=
  { h with kept := fun id buf hid hne => h.kept id buf hid fun ht => hne (hsub id ht) }

/-- No operation fails on a sound workspace, and each leaves a sound one. -/
theorem step_stepped (hg : g.Documented) (h : ws.Sound) (op : Op g cells) :
    ∃ ws', ws.step op = some ws' ∧ Stepped ws ws' (op.Touches ws) ∧
      (op.Calm ws → ws.InPlace → ws'.InPlace) := by
  cases op with
  | split dir =>
    obtain ⟨r, hr, hs⟩ := splitFocused_steady h dir
    exact ⟨r.1, by rw [step, hr, Option.map_some], hs.stepped _, fun _ => hs.inPlace⟩
  | closeFocused =>
    obtain ⟨r, hr, hs⟩ := closeFocused_steady h
    exact ⟨r.1, by rw [step, hr, Option.map_some], hs.stepped _, fun _ => hs.inPlace⟩
  | only =>
    obtain ⟨r, hr, hs⟩ := only_steady h
    exact ⟨r.1, by rw [step, hr, Option.map_some], hs.stepped _, fun _ => hs.inPlace⟩
  | focusNext =>
    have hs := focusNext_steady h
    exact ⟨_, rfl, hs.stepped _, fun _ => hs.inPlace⟩
  | focusPrev =>
    have hs := focusPrev_steady h
    exact ⟨_, rfl, hs.stepped _, fun _ => hs.inPlace⟩
  | focusWindow i =>
    have hs := focusWindow_steady h i
    exact ⟨_, rfl, hs.stepped _, fun _ => hs.inPlace⟩
  | addBuffer bytes name =>
    exact ⟨_, rfl, addBuffer_stepped h bytes name _, fun _ hp => addBuffer_inPlace h hp bytes name⟩
  | focusBuffer id =>
    obtain ⟨r, hr, hs⟩ := focusBuffer_steady h id
    exact ⟨r.1, by rw [step, hr, Option.map_some], hs.stepped _, fun _ => hs.inPlace⟩
  | cycleBuffer forward =>
    obtain ⟨ws', hr, hs⟩ := cycleBuffer_steady h forward
    exact ⟨ws', hr, hs.stepped _, fun _ => hs.inPlace⟩
  | removeBuffer id =>
    obtain ⟨r, hr, hs, hplace⟩ := removeBuffer_stepped h id
    exact ⟨r.1, by rw [step, hr, Option.map_some], hs, fun _ => hplace⟩
  | reloadFocused bytes =>
    obtain ⟨ws', id, hr, hfocused, hs, hplace⟩ := reloadFocused_stepped h bytes
    refine ⟨ws', hr, hs.mono fun j hj => ?_, fun _ => hplace⟩
    show ws.focusedBuffer = some j
    rw [hj, hfocused]
  | reloadUndoable id bytes =>
    obtain ⟨r, hr, hs, hplace⟩ := reloadUndoable_stepped h id bytes
    exact ⟨r.1, by rw [step, hr, Option.map_some], hs, fun _ => hplace⟩
  | apply c =>
    obtain ⟨r, hr, hs, hplace⟩ := apply_stepped hg h c
    exact ⟨r.1, by rw [step, hr, Option.map_some], hs, hplace⟩

/-- A new workspace is sound. -/
theorem new_sound (initial : Bytes) : (new initial).Sound := by
  have hview (vid : Nat) (r : Resident) (hr : (new initial).views.get vid = some r) :
      vid = 0 ∧ r = ⟨1, View.fresh⟩ := by
    cases vid with
    | zero =>
      cases hr
      exact ⟨rfl, rfl⟩
    | succ n => cases hr
  have hdoc (i : Nat) (buf : Buffer) (hb : (new initial).docs.get i = some buf) :
      i = 0 ∧ buf = ⟨1, (Document.new initial).markSaved⟩ := by
    cases i with
    | zero =>
      cases hb
      exact ⟨rfl, rfl⟩
    | succ n => cases hb
  have hfresh : View.fresh.Bounded := (fresh_valid .onChar 0 []).toBounded
  constructor
  · rfl
  · intro i buf hb
    obtain ⟨rfl, rfl⟩ := hdoc i buf hb
    rfl
  · intro vid r hr
    obtain ⟨rfl, rfl⟩ := hview vid r hr
    exact ⟨_, rfl⟩
  · intro vid r hr
    obtain ⟨rfl, rfl⟩ := hview vid r hr
    exact hfresh
  · intro vid hvid
    cases List.mem_singleton.mp hvid
    exact ⟨_, rfl⟩
  · exact List.nodup_singleton _
  · exact Nat.one_pos
  · exact List.nodup_singleton _
  · intro id
    show id ∈ [1] ↔ _
    rw [List.mem_singleton]
    constructor
    · rintro rfl
      exact ⟨_, rfl⟩
    · rintro ⟨buf, hb⟩
      obtain ⟨hpos, hget⟩ := document_pos hb
      have := (hdoc _ _ hget).1
      omega
  · intro id hid
    cases hid
  · rfl
  · intro i buf hb
    obtain ⟨rfl, rfl⟩ := hdoc i buf hb
    rfl
  · intro vid r hr
    obtain ⟨rfl, rfl⟩ := hview vid r hr
    rfl

theorem new_inPlace (initial : Bytes) : (new initial).InPlace := by
  intro vid r buf hr hbuf
  cases vid with
  | zero =>
    cases hr
    exact fresh_valid .onChar 0 _
  | succ n => cases hr

def run {g : Segmenter} {cells : Cells} : Workspace → List (Op g cells) → Option Workspace
  | ws, [] => some ws
  | ws, op :: ops => (ws.step op).bind fun ws => ws.run ops

def Calm {g : Segmenter} {cells : Cells} : Workspace → List (Op g cells) → Prop
  | _, [] => True
  | ws, op :: ops => op.Calm ws ∧ ∀ ws', ws.step op = some ws' → ws'.Calm ops

theorem run_sound (hg : g.Documented) (h : ws.Sound) (ops : List (Op g cells)) :
    ∃ ws', ws.run ops = some ws' ∧ ws'.Sound ∧ (ws.Calm ops → ws.InPlace → ws'.InPlace) := by
  induction ops generalizing ws with
  | nil => exact ⟨ws, rfl, h, fun _ hp => hp⟩
  | cons op ops ih =>
    obtain ⟨ws1, hstep, hspec, hplace⟩ := step_stepped hg h op
    obtain ⟨ws2, hrun, hsound, hplace2⟩ := ih hspec.sound
    refine ⟨ws2, ?_, hsound, fun hcalm hp => hplace2 (hcalm.2 ws1 hstep) (hplace hcalm.1 hp)⟩
    rw [run, hstep, Option.bind_some, hrun]

/-- Every run of a fresh workspace goes through and leaves a sound one, whose next
operation goes through too, gives no id again and leaves the buffers it is not about alone;
and if the steps are calm, every stored position is in its text. -/
theorem workspace_sound {g : Segmenter} {cells : Cells} (hg : g.Documented) (initial : Bytes)
    (ops : List (Op g cells)) :
    ∃ ws, (new initial).run ops = some ws ∧ ws.Sound ∧
      ((new initial).Calm ops → ws.InPlace) ∧
      ∀ op : Op g cells, ∃ ws', ws.step op = some ws' ∧ Stepped ws ws' (op.Touches ws) := by
  obtain ⟨ws, hrun, hsound, hplace⟩ := run_sound hg (new_sound initial) ops
  refine ⟨ws, hrun, hsound, fun hcalm => hplace hcalm (new_inPlace initial), fun op => ?_⟩
  obtain ⟨ws', hstep, hspec, -⟩ := step_stepped hg hsound op
  exact ⟨ws', hstep, hspec⟩

/-- An edit, a jump in a window split off, a buffer added, and the first one read again and
removed. -/
theorem workspace_sound_split :
    let cells : Cells := fun _ i _ _ => (i + 1, 1)
    let edits : EditList := ⟨[⟨0, 1, [120]⟩], by decide, by decide⟩
    let ops : List (Op .byChar cells) :=
      [.apply (.ofParts _ _ [.edit edits .breakBefore .userInput 0]), .split .horizontal, .focusNext,
        .apply (.ofParts _ _ [.jump 1]), .addBuffer [98] none, .reloadUndoable 1 [99, 10], .removeBuffer 1]
    ∃ ws, (new [97, 10]).run ops = some ws ∧ ws.Sound ∧ ws.InPlace := by
  intro cells edits ops
  obtain ⟨ws, hrun, hsound, hplace, -⟩ := workspace_sound Segmenter.byChar_documented [97, 10] ops
  refine ⟨ws, hrun, hsound, hplace ⟨?_, fun _ _ => ⟨trivial, fun _ _ => ⟨trivial, fun _ _ => ⟨?_,
    fun _ _ => ⟨trivial, fun _ _ => ⟨trivial, fun _ _ => ⟨trivial, fun _ _ => trivial⟩⟩⟩⟩⟩⟩⟩⟩
  · intro vid r buf hvid _ _
    refine ⟨Command.ofParts_all (by decide) _, .inr fun w old hne hold => ?_⟩
    -- there is only one view
    cases hvid
    cases w with
    | zero => exact absurd rfl hne
    | succ n => cases hold
  · intro vid r buf _ _ _
    exact ⟨Command.ofParts_all (by decide) _, .inl (Command.ofParts_all (by decide) _)⟩

/-- A `:s` that takes away the line the cursor is on leaves a jump past the end of the
text, and an edit in another window the anchor of a selection. -/
theorem workspace_sound_not :
    let edits : EditList := ⟨[⟨0, 3, []⟩], by decide, by decide⟩
    let cells : Cells := fun _ i _ _ => (i + 1, 1)
    let jumped : List (Op .byChar cells) :=
      [.apply (.ofParts _ _ [.place 2]), .apply (.ofParts _ _ [.substitute edits 0])]
    let rested : List (Op .byChar cells) :=
      [.apply (.ofParts _ _ [.place 2]), .apply (.ofParts _ _ [.select .charwise 0]),
        .split .horizontal, .apply (.ofParts _ _ [.edit edits .breakBefore .userInput 0])]
    (∃ ws, (new [97, 97, 97, 10]).run jumped = some ws ∧ ¬ ws.InPlace) ∧
      ∃ ws, (new [97, 97, 97, 10]).run rested = some ws ∧ ¬ ws.InPlace := by
  intro edits cells jumped rested
  constructor
  · have hrun : ((new [97, 97, 97, 10]).run jumped).bind (fun ws =>
        (ws.views.get 0).bind fun r => (ws.document r.doc).map fun buf =>
          (r.view.jumps, buf.doc.text)) = some ([2], [10]) := by decide
    obtain ⟨ws, hws, hrest⟩ := Option.bind_eq_some_iff.mp hrun
    obtain ⟨r, hr, hrest⟩ := Option.bind_eq_some_iff.mp hrest
    obtain ⟨buf, hbuf, heq⟩ := Option.map_eq_some_iff.mp hrest
    obtain ⟨hjumps, htext⟩ := Prod.mk.inj heq
    refine ⟨ws, hws, fun hplace => ?_⟩
    have hjump : r.view.get (.jump 0) = some 2 := by
      show r.view.jumps[0]? = some 2
      rw [hjumps]
      rfl
    have hin := ((hplace 0 r buf hr hbuf).get hjump).1
    rw [htext] at hin
    exact absurd hin (by decide)
  · have hrun : ((new [97, 97, 97, 10]).run rested).bind (fun ws =>
        (ws.views.get 0).bind fun r => (ws.document r.doc).map fun buf =>
          (r.view.anchor, buf.doc.text)) = some (some 2, [10]) := by decide
    obtain ⟨ws, hws, hrest⟩ := Option.bind_eq_some_iff.mp hrun
    obtain ⟨r, hr, hrest⟩ := Option.bind_eq_some_iff.mp hrest
    obtain ⟨buf, hbuf, heq⟩ := Option.map_eq_some_iff.mp hrest
    obtain ⟨hanchor, htext⟩ := Prod.mk.inj heq
    refine ⟨ws, hws, fun hplace => ?_⟩
    have hin := ((hplace 0 r buf hr hbuf).anchor 2 hanchor).1
    rw [htext] at hin
    exact absurd hin (by decide)

end Workspace

end Ruse.Core
