import Ruse.Core.WorkspaceRemove

/-!
# Reloading a buffer

A reload replaces one document and settles every view of its buffer over the new text
(`resettled_stepped`); `:e!` puts a fresh document there, and the undoable reload edits
the old one, through the lent pair where the focused window shows it. What a lent pair
brings back changes the one buffer (`takenBack_stepped`).
-/

namespace Ruse.Core

open Ruse.Lib

namespace Workspace

/-! ## Reloading -/

theorem resettle_shows (id : Nat) (b : Bytes) (r : Resident) : (resettle id b r).doc = r.doc := by
  unfold resettle
  split <;> rfl

theorem resettle_registers (id : Nat) (b : Bytes) (r : Resident) :
    (resettle id b r).view.registers = r.view.registers := by
  unfold resettle
  split <;> rfl

theorem resettle_valid {id : Nat} {r : Resident} (h : r.view.Bounded) (doc : Document)
    (hr : r.doc = id) : (resettle id doc.text r).view.Valid doc.text := by
  rw [resettle, if_pos hr]
  have hvalid := @EditorState.settleOffsets_valid ⟨doc, r.view, .userInput⟩ h
  exact hvalid

theorem resettle_bounded {r : Resident} (h : r.view.Bounded) (id : Nat) (b : Bytes) :
    (resettle id b r).view.Bounded := by
  unfold resettle
  split
  · have hb := View.snapOffsets_bounded h b
    exact ⟨hb.changes, hb.jumps, hb.changeIdx, hb.jumpIdx⟩
  · exact h

/-- What stays when the document of one buffer changes. -/
structure Around (ws ws' : Workspace) : Prop where
  names : ws'.names = ws.names
  windows : ws'.windows = ws.windows
  focus : ws'.focus = ws.focus
  bufferOrder : ws'.bufferOrder = ws.bufferOrder
  alt : ws'.alt = ws.alt
  pins : ws'.pins = []
  /-- The views show the buffers they showed. -/
  shows : ∀ vid, (ws'.views.get vid).map Resident.doc = (ws.views.get vid).map Resident.doc

theorem Around.view {ws ws' : Workspace} (h : Around ws ws') {vid : Nat} {r' : Resident}
    (hr' : ws'.views.get vid = some r') : ∃ r, ws.views.get vid = some r ∧ r.doc = r'.doc := by
  have hshows := h.shows vid
  rw [hr'] at hshows
  exact Option.map_eq_some_iff.mp hshows.symm

/-- A document put back under its id steps that document and no other. -/
theorem stepped_put {ws ws' : Workspace} {id : Nat} {buf buf' : Buffer} (h : ws.Sound)
    (haround : Around ws ws') (hid : ws.document id = some buf)
    (hdocs : ws'.docs = ws.docs.put (id - 1) (some buf'))
    (hbuf : buf'.id = id) (hpinned : buf'.doc.pinned = [])
    (hviews : ∀ vid r, ws'.views.get vid = some r → r.view.Bounded ∧ r.view.registers = .new) :
    Stepped ws ws' (· = id) ∧
      ∀ j, ws'.document j = if j = id then some buf' else ws.document j := by
  obtain ⟨hpos, hget⟩ := document_pos hid
  have hdoc (j : Nat) : ws'.document j = if j = id then some buf' else ws.document j :=
    document_put hid hdocs j
  have hslot (i : Nat) : ws'.docs.get i = if i = id - 1 then some buf' else ws.docs.get i := by
    rw [hdocs]
    by_cases hi : i = id - 1
    · rw [if_pos hi, hi, Arena.get_put_self _ hget]
    · rw [if_neg hi, Arena.get_put_of_ne _ (Ne.symm hi)]
  have hlive (j : Nat) : (∃ b, ws'.document j = some b) ↔ ∃ b, ws.document j = some b := by
    rw [hdoc]
    split
    · rename_i hj
      exact ⟨fun _ => ⟨buf, hj ▸ hid⟩, fun _ => ⟨buf', rfl⟩⟩
    · exact Iff.rfl
  refine ⟨⟨?_, ?_, ?_, ?_⟩, hdoc⟩
  · constructor
    · rw [haround.names, hdocs, Arena.put_length, h.names]
    · intro i b hb
      rw [hslot] at hb
      split at hb
      · cases hb
        omega
      · exact h.ids i b hb
    · intro vid r hr
      obtain ⟨r', hr', hsame⟩ := haround.view hr
      rw [← hsame]
      exact (hlive _).mpr (h.shows vid r' hr')
    · exact fun vid r hr => (hviews vid r hr).1
    · rw [haround.windows]
      intro vid hvid
      obtain ⟨r, hr⟩ := h.windows vid hvid
      have hshows := haround.shows vid
      rw [hr] at hshows
      obtain ⟨r', hr', -⟩ := Option.map_eq_some_iff.mp hshows
      exact ⟨r', hr'⟩
    · rw [haround.windows]
      exact h.apart
    · rw [haround.focus, haround.windows]
      exact h.focus
    · rw [haround.bufferOrder]
      exact h.once
    · intro j
      rw [haround.bufferOrder, h.lists, hlive]
    · intro j hj
      rw [haround.alt] at hj
      exact (hlive j).mpr (h.alt j hj)
    · exact haround.pins
    · intro i b hb
      rw [hslot] at hb
      split at hb
      · cases hb
        exact hpinned
      · exact h.unpinned i b hb
    · exact fun vid r hr => (hviews vid r hr).2
  · rw [hdocs, Arena.put_length]
  · intro j _ hnone
    rw [hdoc, if_neg, hnone]
    rintro rfl
    rw [hid] at hnone
    cases hnone
  · intro j b hb hne
    rw [hdoc, if_neg hne, hb]

/-- Views settled over the new text of their buffer, the others in place before. -/
theorem inPlace_put {ws ws' : Workspace} {id : Nat} {buf' : Buffer}
    (hdoc : ∀ j, ws'.document j = if j = id then some buf' else ws.document j)
    (hviews : ∀ vid r, ws'.views.get vid = some r →
      if r.doc = id then r.view.Valid buf'.doc.text else ws.views.get vid = some r) :
    ws.InPlace → ws'.InPlace := by
  intro hplace vid r b hr hb
  have hview := hviews vid r hr
  rw [hdoc] at hb
  split at hb
  · rename_i hrid
    rw [if_pos hrid] at hview
    cases hb
    exact hview
  · rename_i hrid
    rw [if_neg hrid] at hview
    exact hplace vid r b hview hb

theorem placeFocusedCursor_eq {ws : Workspace} {vid : Nat} {r : Resident} {buf : Buffer}
    (hvid : ws.focusedView = some vid) (hr : ws.views.get vid = some r)
    (hbuf : ws.document r.doc = some buf) (pos : Nat) : ws.placeFocusedCursor pos = some
      (ws.putView vid
        (some { r with view := { r.view with cursor := min pos buf.doc.text.length } })) := by
  rw [placeFocusedCursor, hvid, Option.bind_some, hr, Option.bind_some, hbuf, Option.map_some]

/-- Reloading the focused buffer steps that buffer alone. -/
theorem reloadFocused_stepped {ws : Workspace} (h : ws.Sound) (bytes : Bytes) :
    ∃ ws' id, ws.reloadFocused bytes = some ws' ∧ ws.focusedBuffer = some id ∧
      Stepped ws ws' (· = id) ∧ (ws.InPlace → ws'.InPlace) := by
  obtain ⟨vid, r, buf, hvid, hmem, hr, hbuf, hfocused⟩ := h.focused
  have hpos := (document_pos hbuf).1
  have hle := document_le hbuf
  let doc := ((Document.replacing bytes buf.doc.revision).markSaved).setModifiable buf.doc.modifiable
  let settled : Arena Resident := ws.views.map (Option.map (resettle r.doc doc.text))
  have hget (w : Nat) : settled.get w = (ws.views.get w).map (resettle r.doc doc.text) :=
    Arena.get_map _ _ _
  let view : View := { (resettle r.doc doc.text r).view with cursor := min 0 doc.text.length }
  let placed := settled.put vid (some { resettle r.doc doc.text r with view })
  have hplaced (w : Nat) (r' : Resident) (hr' : placed.get w = some r') :
      ∃ old, ws.views.get w = some old ∧ r'.doc = old.doc ∧
        (r' = resettle r.doc doc.text old ∨ old = r ∧ r' = { resettle r.doc doc.text r with view }) := by
    rw [Arena.get_put] at hr'
    split at hr'
    · rename_i hw
      cases hr'
      exact ⟨r, hw.1 ▸ hr, resettle_shows _ _ _, .inr ⟨rfl, rfl⟩⟩
    · rw [hget] at hr'
      obtain ⟨old, hold, rfl⟩ := Option.map_eq_some_iff.mp hr'
      exact ⟨old, hold, resettle_shows _ _ _, .inl rfl⟩
  let ws' : Workspace :=
    { ws with docs := ws.docs.put (r.doc - 1) (some ⟨r.doc, doc⟩), views := placed }
  have hdoc (j : Nat) : ws'.document j = if j = r.doc then some ⟨r.doc, doc⟩ else ws.document j :=
    document_put hbuf rfl j
  have hrun : ws.reloadFocused bytes = some ws' := by
    unfold reloadFocused
    rw [hfocused, Option.bind_some, if_pos ⟨hpos, hle⟩, hbuf]
    let read : Workspace :=
      { ws with docs := ws.docs.put (r.doc - 1) (some ⟨r.doc, doc⟩), views := settled }
    have hsettled : settled.get vid = some (resettle r.doc doc.text r) := by
      rw [hget, hr, Option.map_some]
    have hlive : ws'.document (resettle r.doc doc.text r).doc = some ⟨r.doc, doc⟩ := by
      rw [resettle_shows, hdoc, if_pos rfl]
    exact @placeFocusedCursor_eq read vid _ _ hvid hsettled hlive 0
  have haround : Around ws ws' := by
    refine ⟨rfl, rfl, rfl, rfl, rfl, h.pins, fun w => ?_⟩
    rw [Arena.get_put]
    split
    · rename_i hw
      rw [← hw.1, hr]
      show some (resettle r.doc doc.text r).doc = some r.doc
      rw [resettle_shows]
    · rw [hget]
      cases ws.views.get w with
      | none => rfl
      | some old =>
        show some (resettle r.doc doc.text old).doc = some old.doc
        rw [resettle_shows]
  have hstep := stepped_put h haround hbuf rfl rfl rfl (fun w r' hr' => by
    obtain ⟨old, hold, -, hnew⟩ := hplaced w r' hr'
    have hb := resettle_bounded (h.bounded w old hold) r.doc doc.text
    have hs := (resettle_registers r.doc doc.text old).trans (h.store w old hold)
    rcases hnew with rfl | ⟨rfl, rfl⟩
    · exact ⟨hb, hs⟩
    · exact ⟨⟨hb.changes, hb.jumps, hb.changeIdx, hb.jumpIdx⟩, hs⟩)
  refine ⟨ws', r.doc, hrun, hfocused, hstep.1, inPlace_put hdoc fun w r' hr' => ?_⟩
  obtain ⟨old, hold, hsame, hnew⟩ := hplaced w r' hr'
  rw [hsame]
  have hb := h.bounded w old hold
  split
  · rename_i hid
    have hv := resettle_valid hb doc hid
    rcases hnew with rfl | ⟨rfl, rfl⟩
    · exact hv
    · have hzero : InText doc.text (min 0 doc.text.length) := by
        rw [Nat.min_eq_left (Nat.zero_le _)]
        exact inText_zero _
      exact ⟨⟨hv.changes, hv.jumps, hv.changeIdx, hv.jumpIdx⟩, hzero, hv.tracked, hv.anchor,
        hv.mark, hv.insertStart, hv.insstart⟩
  · rename_i hid
    rcases hnew with rfl | ⟨rfl, rfl⟩
    · rw [resettle, if_neg hid]
      exact hold
    · exact absurd rfl hid

/-- The document of one buffer replaced and its views settled over the new text. -/
theorem resettled_stepped {ws ws1 : Workspace} {id : Nat} {buf buf' : Buffer} (h : ws.Sound)
    (haround : Around ws ws1) (hid : ws.document id = some buf)
    (hdocs : ws1.docs = ws.docs.put (id - 1) (some buf'))
    (hbuf : buf'.id = id) (hpinned : buf'.doc.pinned = [])
    (hviews : ∀ vid r, ws1.views.get vid = some r → r.view.Bounded ∧ r.view.registers = .new)
    (hothers : ∀ vid r, ws1.views.get vid = some r → r.doc ≠ id → ws.views.get vid = some r) :
    Stepped ws { ws1 with views := ws1.views.map (Option.map (resettle id buf'.doc.text)) } (· = id) ∧
      (ws.InPlace → InPlace
        { ws1 with views := ws1.views.map (Option.map (resettle id buf'.doc.text)) }) := by
  have hget (w : Nat) (r : Resident)
      (hr : Arena.get (ws1.views.map (Option.map (resettle id buf'.doc.text))) w = some r) :
      ∃ old, ws1.views.get w = some old ∧ resettle id buf'.doc.text old = r := by
    rw [Arena.get_map] at hr
    exact Option.map_eq_some_iff.mp hr
  have hshows : Around ws
      { ws1 with views := ws1.views.map (Option.map (resettle id buf'.doc.text)) } := by
    refine { haround with shows := fun w => ?_ }
    rw [← haround.shows w]
    show (Arena.get (ws1.views.map _) w).map Resident.doc = _
    rw [Arena.get_map, Option.map_map]
    refine congrArg (fun f => Option.map f _) (funext fun r => ?_)
    exact resettle_shows _ _ r
  obtain ⟨hstep, hdoc⟩ := stepped_put h hshows hid hdocs hbuf hpinned (fun w r hr => by
    obtain ⟨old, hold, rfl⟩ := hget w r hr
    obtain ⟨hb, hs⟩ := hviews w old hold
    exact ⟨resettle_bounded hb _ _, (resettle_registers _ _ _).trans hs⟩)
  refine ⟨hstep, inPlace_put hdoc fun w r hr => ?_⟩
  obtain ⟨old, hold, rfl⟩ := hget w r hr
  rw [resettle_shows]
  split
  · exact resettle_valid (hviews w old hold).1 buf'.doc ‹_›
  · rename_i hne
    rw [resettle, if_neg hne]
    exact hothers w old hold hne

section
variable {ws : Workspace} {vid : Nat} {r : Resident} {buf : Buffer} {st : EditorState}
  {ps : List Pass}

theorem takenBack_view (hr : ws.views.get vid = some r) {w : Nat} {r' : Resident}
    (hr' : (ws.takenBack vid r buf st ps).views.get w = some r') :
    (w = vid ∧ r' = { r with view := { st.view with registers := r.view.registers } }) ∨
    (w ≠ vid ∧ ∃ old, ws.views.get w = some old ∧
      r' = if old.doc = buf.id then atRest ps st.doc.text old else old) := by
  by_cases hw : w = vid
  · subst hw
    rw [takenBack_get_self buf st ps hr] at hr'
    cases hr'
    exact .inl ⟨rfl, rfl⟩
  · rw [takenBack_get_of_ne buf st ps hw] at hr'
    obtain ⟨old, hold, rfl⟩ := Option.map_eq_some_iff.mp hr'
    exact .inr ⟨hw, old, hold, rfl⟩

theorem takenBack_around (hr : ws.views.get vid = some r) :
    Around ws (ws.takenBack vid r buf st ps) := by
  refine ⟨rfl, rfl, rfl, rfl, rfl, rfl, fun w => ?_⟩
  by_cases hw : w = vid
  · subst hw
    rw [takenBack_get_self buf st ps hr, hr]
    rfl
  · rw [takenBack_get_of_ne buf st ps hw, Option.map_map]
    refine congrArg (fun f => Option.map f _) (funext fun old => ?_)
    show (if old.doc = buf.id then atRest ps st.doc.text old else old).doc = old.doc
    split <;> rfl

theorem takenBack_bounded (h : ws.Sound) (hr : ws.views.get vid = some r)
    (hb : st.view.Bounded) (w : Nat) (r' : Resident)
    (hr' : (ws.takenBack vid r buf st ps).views.get w = some r') :
    r'.view.Bounded ∧ r'.view.registers = .new := by
  rcases takenBack_view hr hr' with ⟨-, rfl⟩ | ⟨-, old, hold, rfl⟩
  · exact ⟨⟨hb.changes, hb.jumps, hb.changeIdx, hb.jumpIdx⟩, h.store vid r hr⟩
  · split
    · exact ⟨atRest_bounded (h.bounded w old hold), h.store w old hold⟩
    · exact ⟨h.bounded w old hold, h.store w old hold⟩

/-- Taking back changes the one buffer. -/
theorem takenBack_stepped (h : ws.Sound) (hr : ws.views.get vid = some r)
    (hbuf : ws.document r.doc = some buf) (hb : st.view.Bounded) :
    Stepped ws (ws.takenBack vid r buf st ps) (· = r.doc) := by
  have hid := h.id_eq hbuf
  exact (stepped_put h (takenBack_around hr) hbuf rfl hid rfl (takenBack_bounded h hr hb)).1

/-- The views at rest come back in place where none has an anchor, or the text is as it
was. -/
theorem takenBack_inPlace (h : ws.Sound) (hr : ws.views.get vid = some r)
    (hbuf : ws.document r.doc = some buf) (hf : (ws.lent vid r buf).Followed st ps)
    (hv : st.view.Valid st.doc.text)
    (hrest : st.doc.text = buf.doc.text ∨ ∀ w old, w ≠ vid → ws.views.get w = some old →
      old.doc = r.doc → Unanchored old.view) :
    ws.InPlace → (ws.takenBack vid r buf st ps).InPlace := by
  intro hplace
  have hid := h.id_eq hbuf
  have hdoc := (stepped_put h (@takenBack_around ws vid r buf st ps hr) hbuf rfl hid rfl
    (takenBack_bounded h hr hf.bounded)).2
  refine inPlace_put hdoc (fun w r' hr' => ?_) hplace
  have hpasses : Passes buf.doc.text ps st.doc.text := hf.passes
  rcases takenBack_view hr hr' with ⟨-, rfl⟩ | ⟨hw, old, hold, rfl⟩
  · rw [if_pos rfl]
    exact ⟨⟨hv.changes, hv.jumps, hv.changeIdx, hv.jumpIdx⟩, hv.cursor, hv.tracked, hv.anchor,
      hv.mark, hv.insertStart, hv.insstart⟩
  -- a view at rest is carried if it shows the lent buffer, else left alone
  · by_cases hdoc' : old.doc = buf.id
    · have hown : old.doc = r.doc := hdoc'.trans hid
      rw [if_pos hdoc', if_pos (show (atRest ps st.doc.text old).doc = r.doc from hown)]
      have hold' := hplace w old buf hold (hown ▸ hbuf)
      rcases hrest with hsame | hfree
      · exact atRest_valid_of_same hold' hpasses hsame
      · exact atRest_valid hold' hpasses (hfree w old hw hold hown)
    · rw [if_neg hdoc', if_neg (hid ▸ hdoc')]
      exact hold

end

theorem reload_followed {st : EditorState} (hb : st.view.Bounded) (bytes : Bytes) :
    ∃ ps, st.Followed (st.reload bytes).1 ps := by
  obtain ⟨ps, hcarries⟩ := Document.reload_carries st.doc bytes st.view.tracked
  have hmoved := Moved.of_carries hcarries hb st.origin
  exact ⟨ps, hmoved.bounded, hmoved.passes, hmoved.pinned⟩

/-- An undoable reload of the focused buffer goes through its window. -/
theorem reloadUndoable_focused {ws : Workspace} (h : ws.Sound) {vid : Nat} {r : Resident}
    {buf : Buffer} {bytes : Bytes} (hvid : ws.focusedView = some vid)
    (hr : ws.views.get vid = some r) (hbuf : ws.document r.doc = some buf)
    (hfocused : ws.focusedBuffer = some r.doc) (hne : buf.doc.text ≠ bytes) :
    ∃ st ps ok, ((ws.lent vid r buf).reload bytes).1 = st ∧ (ws.lent vid r buf).Followed st ps ∧
      ws.reloadUndoable r.doc bytes =
        some ({ ws.takenBack vid r buf st ps with
          views := (ws.takenBack vid r buf st ps).views.map
            (Option.map (resettle r.doc st.doc.text)) }, ok) := by
  have hb : (ws.lent vid r buf).view.Bounded := by
    have hold := h.bounded vid r hr
    exact ⟨hold.changes, hold.jumps, hold.changeIdx, hold.jumpIdx⟩
  obtain ⟨ps, hf⟩ := reload_followed hb bytes
  have hback := withView_eq hr hbuf h.pins (h.unpinned_doc hbuf) (·.reload bytes) hf
  generalize hout : (ws.lent vid r buf).reload bytes = out at hf hback
  have hlive : (ws.takenBack vid r buf out.1 ps).document r.doc =
      some { buf with doc := { out.1.doc with pinned := [] } } :=
    (document_put hbuf rfl r.doc).trans (if_pos rfl)
  refine ⟨out.1, ps, out.2, rfl, hf, ?_⟩
  unfold reloadUndoable
  rw [hbuf]
  dsimp only
  rw [if_neg hne, hvid, Option.bind_some, hfocused, Option.bind_some, if_pos rfl, hback,
    Option.map_some]
  dsimp only
  rw [hlive]

/-- An undoable reload steps the buffer it names alone. -/
theorem reloadUndoable_stepped {ws : Workspace} (h : ws.Sound) (id : Nat) (bytes : Bytes) :
    ∃ r, ws.reloadUndoable id bytes = some r ∧ Stepped ws r.1 (· = id) ∧
      (ws.InPlace → r.1.InPlace) := by
  have haround : Around ws ws := ⟨rfl, rfl, rfl, rfl, rfl, h.pins, fun _ => rfl⟩
  have hviews (w : Nat) (r : Resident) (hr : ws.views.get w = some r) :
      r.view.Bounded ∧ r.view.registers = .new := ⟨h.bounded w r hr, h.store w r hr⟩
  cases hid : ws.document id with
  | none =>
    unfold reloadUndoable
    rw [hid]
    exact ⟨_, rfl, (Steady.refl h).stepped _, fun hp => hp⟩
  | some buf =>
    have hbid := h.id_eq hid
    by_cases hsame : buf.doc.text = bytes
    · have hput (doc : Document) : Around ws (ws.putDoc id (some { buf with doc })) :=
        { haround with }
      have hunpinned : buf.doc.markSaved.pinned = [] := h.unpinned_doc hid
      obtain ⟨hstep, hdoc⟩ := stepped_put h (hput buf.doc.markSaved) hid rfl hbid hunpinned hviews
      refine ⟨(ws.putDoc id (some { buf with doc := buf.doc.markSaved }), false), ?_, hstep, ?_⟩
      · unfold reloadUndoable
        rw [hid]
        exact if_pos hsame
      · intro hplace
        refine inPlace_put hdoc (fun w r hr => ?_) hplace
        split
        · rename_i hrid
          exact hplace w r buf hr (hrid ▸ hid)
        · exact hr
    · obtain ⟨vid, r, buf1, hvid, hmem, hr, hbuf, hfocused⟩ := h.focused
      by_cases hcur : id = r.doc
      · -- the focused buffer is edited through the lent pair
        subst hcur
        obtain rfl : buf1 = buf := Option.some.inj (hbuf.symm.trans hid)
        obtain ⟨st, ps, ok, -, hf, hrun⟩ := reloadUndoable_focused h hvid hr hbuf hfocused hsame
        have haround' : Around ws (ws.takenBack vid r buf1 st ps) := takenBack_around hr
        have hdocs : (ws.takenBack vid r buf1 st ps).docs =
          ws.docs.put (r.doc - 1) (some { buf1 with doc := { st.doc with pinned := [] } }) := rfl
        have hothers (w : Nat) (r' : Resident)
            (hr' : (ws.takenBack vid r buf1 st ps).views.get w = some r') (hne : r'.doc ≠ r.doc) :
            ws.views.get w = some r' := by
          rcases takenBack_view hr hr' with ⟨-, rfl⟩ | ⟨-, old, hold, rfl⟩
          · exact absurd rfl hne
          · by_cases hown : old.doc = buf1.id
            · rw [if_pos hown] at hne
              exact absurd (hown.trans hbid) hne
            · rw [if_neg hown]
              exact hold
        have hstep := resettled_stepped h haround' hbuf hdocs hbid rfl
          (takenBack_bounded h hr hf.bounded) hothers
        exact ⟨_, hrun, hstep⟩
      · -- another buffer is edited with no view's positions
        obtain ⟨ps, hcarries⟩ := Document.reload_carries buf.doc bytes []
        have hrun : ws.reloadUndoable id bytes =
            some ({ ws.putDoc id (some { buf with doc := (buf.doc.reloadTracked bytes []).1 }) with
              views := ws.views.map
                (Option.map (resettle id (buf.doc.reloadTracked bytes []).1.text)) },
              (buf.doc.reloadTracked bytes []).2.2) := by
          unfold reloadUndoable
          rw [hid]
          dsimp only
          rw [if_neg hsame, hvid, Option.bind_some, hfocused, Option.bind_some, if_neg hcur,
            Option.map_some]
          generalize buf.doc.reloadTracked bytes [] = out
          have hlive : (ws.putDoc id (some { buf with doc := out.1 })).document id =
              some { buf with doc := out.1 } := (document_put hid rfl id).trans (if_pos rfl)
          rw [hlive]
          rfl
        have hpinned : (buf.doc.reloadTracked bytes []).1.pinned = [] := by
          have hrest : (buf.doc.reloadTracked bytes []).1.pinned = restAll ps buf.doc.pinned :=
            hcarries.pinned
          rw [hrest, h.unpinned_doc hid]
          exact List.eq_nil_of_length_eq_zero (restAll_length ps [])
        generalize buf.doc.reloadTracked bytes [] = out at hrun hpinned
        have hput : Around ws (ws.putDoc id (some { buf with doc := out.1 })) := { haround with }
        have hstep := resettled_stepped h hput hid rfl hbid hpinned hviews fun w r' hr' _ => hr'
        exact ⟨_, hrun, hstep⟩

end Workspace

end Ruse.Core
