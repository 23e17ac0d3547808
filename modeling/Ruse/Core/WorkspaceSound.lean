import Ruse.Core.WorkspaceLend
import Mathlib.Data.List.Perm.Basic

/-!
# The invariant of a workspace

`Sound` is what `Workspace::assert_invariants` asks of the arenas, the windows and the
buffer list, and `InPlace` what it asks of the stored positions. Windows opened, closed
and focused and buffers added or shown leave every document alone (`Steady`).
-/

namespace Ruse.Core

open Ruse.Lib

namespace Workspace

variable {ws : Workspace} {focus id : Nat} {buf : Buffer}

/-! ## The invariant -/

/-- The rules of the arenas, the windows and the buffer list. -/
structure Sound (ws : Workspace) : Prop where
  names : ws.names.length = ws.docs.length
  ids : ∀ i buf, ws.docs.get i = some buf → buf.id = i + 1
  shows : ∀ vid r, ws.views.get vid = some r → ∃ buf, ws.document r.doc = some buf
  bounded : ∀ vid r, ws.views.get vid = some r → r.view.Bounded
  windows : ∀ vid ∈ ws.windows, ∃ r, ws.views.get vid = some r
  apart : ws.windows.Nodup
  focus : ws.focus < ws.windows.length
  once : ws.bufferOrder.Nodup
  lists : ∀ id, id ∈ ws.bufferOrder ↔ ∃ buf, ws.document id = some buf
  alt : ∀ id, ws.alt = some id → ∃ buf, ws.document id = some buf
  pins : ws.pins = []
  unpinned : ∀ i buf, ws.docs.get i = some buf → buf.doc.pinned = []
  /-- The one register store is the workspace's. -/
  store : ∀ vid r, ws.views.get vid = some r → r.view.registers = .new

/-- Every stored position of a view is valid for its buffer's text. -/
def InPlace (ws : Workspace) : Prop :=
  ∀ vid r buf, ws.views.get vid = some r → ws.document r.doc = some buf →
    r.view.Valid buf.doc.text

/-- From `ws` to `ws'` no document changed. -/
structure Steady (ws ws' : Workspace) : Prop where
  sound : ws'.Sound
  docs : ws'.docs = ws.docs
  inPlace : ws.InPlace → ws'.InPlace

theorem Steady.refl (h : ws.Sound) : Steady ws ws := ⟨h, rfl, id⟩

/-! ## Documents by id -/

theorem document_congr {ws' : Workspace} (h : ws'.docs = ws.docs) (id : Nat) :
    ws'.document id = ws.document id := by
  rw [document, document, h]

theorem document_pos (h : ws.document id = some buf) :
    0 < id ∧ ws.docs.get (id - 1) = some buf := by
  unfold document at h
  split at h
  · cases h
  · exact ⟨by omega, h⟩

theorem Sound.id_eq (h : ws.Sound) (hbuf : ws.document id = some buf) : buf.id = id := by
  obtain ⟨hpos, hget⟩ := document_pos hbuf
  have := h.ids _ _ hget
  omega

theorem Sound.unpinned_doc (h : ws.Sound) (hbuf : ws.document id = some buf) :
    buf.doc.pinned = [] :=
  h.unpinned _ _ (document_pos hbuf).2

theorem document_put {docs : Arena Buffer} (hbuf : ws.document id = some buf) {buf' : Option Buffer}
    (hdocs : docs = ws.docs.put (id - 1) buf') (j : Nat) :
    (if j = 0 then none else docs.get (j - 1)) = if j = id then buf' else ws.document j := by
  obtain ⟨hpos, hget⟩ := document_pos hbuf
  subst hdocs
  by_cases hj : j = id
  · subst hj
    rw [if_neg (by omega), if_pos rfl, Arena.get_put_self _ hget]
  · rw [if_neg hj]
    by_cases hz : j = 0
    · rw [if_pos hz, document, if_pos hz]
    · rw [if_neg hz, document, if_neg hz, Arena.get_put_of_ne _ (by omega)]

/-- The focused window shows a live view of a live buffer. -/
theorem Sound.focused (h : ws.Sound) : ∃ vid r buf,
    ws.focusedView = some vid ∧ vid ∈ ws.windows ∧ ws.views.get vid = some r ∧
      ws.document r.doc = some buf ∧ ws.focusedBuffer = some r.doc := by
  have hfocus := h.focus
  have hget : ws.focusedView = some ws.windows[ws.focus] := List.getElem?_eq_getElem h.focus
  have hmem : ws.windows[ws.focus] ∈ ws.windows := List.getElem_mem h.focus
  obtain ⟨r, hr⟩ := h.windows _ hmem
  obtain ⟨buf, hbuf⟩ := h.shows _ _ hr
  refine ⟨_, r, buf, hget, hmem, hr, hbuf, ?_⟩
  rw [focusedBuffer, hget, Option.bind_some, hr, Option.map_some]

theorem focusedView_window {vid : Nat} (hfocus : ws.focus < ws.windows.length)
    (hvid : ws.focusedView = some vid) : ws.windows[ws.focus] = vid := by
  rw [focusedView, List.getElem?_eq_getElem hfocus] at hvid
  exact Option.some.inj hvid

/-! ## Windows -/

theorem Sound.with_windows (h : ws.Sound) {windows : List Nat}
    (hlive : ∀ vid ∈ windows, ∃ r, ws.views.get vid = some r) (hapart : windows.Nodup)
    (hfocus : focus < windows.length) : ({ ws with windows, focus } : Workspace).Sound :=
  { h with windows := hlive, apart := hapart, focus := hfocus }

/-- Views of live buffers, bounded and without a register store, all of the old ones or
new. -/
theorem Sound.with_views (h : ws.Sound) {views : Arena Resident}
    {windows : List Nat}
    (hviews : ∀ vid r, views.get vid = some r →
      ws.views.get vid = some r ∨ (∃ buf, ws.document r.doc = some buf) ∧ r.view.Bounded ∧
        r.view.registers = .new)
    (hlive : ∀ vid ∈ windows, ∃ r, views.get vid = some r) (hapart : windows.Nodup)
    (hfocus : focus < windows.length) : ({ ws with views, windows, focus } : Workspace).Sound :=
  { h with
    shows := fun vid r hr => (hviews vid r hr).elim (h.shows vid r) fun hnew => hnew.1
    bounded := fun vid r hr => (hviews vid r hr).elim (h.bounded vid r) fun hnew => hnew.2.1
    windows := hlive
    apart := hapart
    focus := hfocus
    store := fun vid r hr => (hviews vid r hr).elim (h.store vid r) fun hnew => hnew.2.2 }

theorem InPlace.of_views {ws' : Workspace} (h : ws.InPlace) (hdocs : ws'.docs = ws.docs)
    (hviews : ∀ vid r, ws'.views.get vid = some r → ∃ w, ws.views.get w = some r) :
    ws'.InPlace := by
  intro vid r buf hr hbuf
  obtain ⟨w, hw⟩ := hviews vid r hr
  exact h w r buf hw (document_congr hdocs r.doc ▸ hbuf)

theorem steady_focus (h : ws.Sound) (hfocus : focus < ws.windows.length) :
    Steady ws { ws with focus } where
  sound := { h with focus := hfocus }
  docs := rfl
  inPlace := fun hplace => hplace.of_views rfl fun vid _ hr => ⟨vid, hr⟩

theorem focusNext_steady (h : ws.Sound) : Steady ws ws.focusNext := by
  have hfocus := h.focus
  unfold focusNext
  split
  · exact .refl h
  · exact steady_focus h (Nat.mod_lt _ (by omega))

theorem focusPrev_steady (h : ws.Sound) : Steady ws ws.focusPrev := by
  have hfocus := h.focus
  unfold focusPrev
  split
  · exact .refl h
  · exact steady_focus h (Nat.mod_lt _ (by omega))

theorem focusWindow_steady (h : ws.Sound) (i : Nat) :
    Steady ws (ws.focusWindow i) := by
  have hfocus := h.focus
  unfold focusWindow
  split
  · exact .refl h
  · exact steady_focus h (by omega)

/-- Splitting a window leaves the documents alone. -/
theorem splitFocused_steady (h : ws.Sound) (dir : SplitDir) :
    ∃ r, ws.splitFocused dir = some r ∧ Steady ws r.1 := by
  obtain ⟨src, r, buf, hsrc, hmem, hr, hbuf, -⟩ := h.focused
  have hfocus := h.focus
  have hview (vid : Nat) (r' : Resident)
      (hget : Arena.get (ws.views ++ [some r]) vid = some r') :
      ws.views.get vid = some r' ∨ r' = r := by
    rw [Arena.get_push] at hget
    split at hget
    · cases hget
      exact .inr rfl
    · exact .inl hget
  have hperm := List.perm_insertIdx ws.views.length ws.windows hfocus
  refine ⟨_, by rw [splitFocused, hsrc, Option.bind_some, hr]; rfl, ?_, rfl, ?_⟩
  · have hsound : ({ ws with
        views := ws.views ++ [some r]
        windows := ws.windows.insertIdx (ws.focus + 1) ws.views.length
        focus := ws.focus + 1 } : Workspace).Sound := by
      refine h.with_views ?_ ?_ ?_ ?_
      · intro vid r' hget
        rcases hview vid r' hget with hold | rfl
        · exact .inl hold
        · exact .inr ⟨⟨buf, hbuf⟩, h.bounded _ _ hr, h.store _ _ hr⟩
      · intro vid hvid
        rw [Arena.get_push]
        rcases List.mem_cons.mp (hperm.mem_iff.mp hvid) with rfl | hold
        · exact ⟨r, if_pos rfl⟩
        · obtain ⟨r', hr'⟩ := h.windows vid hold
          exact ⟨r', by rw [if_neg (Nat.ne_of_lt (Arena.lt_of_get hr')), hr']⟩
      · refine hperm.nodup_iff.mpr (List.nodup_cons.mpr ⟨fun hold => ?_, h.apart⟩)
        obtain ⟨r', hr'⟩ := h.windows _ hold
        exact Nat.lt_irrefl _ (Arena.lt_of_get hr')
      · rw [hperm.length_eq, List.length_cons]
        omega
    exact { hsound with }
  · intro hplace
    refine hplace.of_views rfl fun vid r' hget => ?_
    rcases hview vid r' hget with hold | rfl
    · exact ⟨vid, hold⟩
    · exact ⟨src, hr⟩

/-- Closing a window leaves the documents alone. -/
theorem closeFocused_steady (h : ws.Sound) :
    ∃ r, ws.closeFocused = some r ∧ Steady ws r.1 := by
  obtain ⟨vid, r, buf, hvid, hmem, hr, hbuf, -⟩ := h.focused
  have hfocus := h.focus
  have hat := focusedView_window hfocus hvid
  have hview (w : Nat) (r' : Resident) (hget : (ws.views.put vid none).get w = some r') :
      ws.views.get w = some r' := by
    rw [Arena.get_put] at hget
    split at hget
    · cases hget
    · exact hget
  unfold closeFocused
  split
  · exact ⟨_, rfl, .refl h⟩
  · rename_i hmany
    rw [hvid, Option.bind_some, if_pos (Arena.lt_of_get hr)]
    have hperm := List.getElem_cons_eraseIdx_perm hfocus
    have hapart := hperm.nodup_iff.mpr h.apart
    have hlen := hperm.length_eq
    rw [List.length_cons] at hlen
    refine ⟨_, rfl, ?_, rfl, ?_⟩
    · refine h.with_views (fun w r' hget => .inl (hview w r' hget)) ?_ (List.nodup_cons.mp hapart).2 ?_
      · intro w hw
        have hne : vid ≠ w := by
          rintro rfl
          exact (List.nodup_cons.mp hapart).1 (hat ▸ hw)
        rw [Arena.get_put_of_ne _ hne]
        exact h.windows w (hperm.mem_iff.mp (List.mem_cons_of_mem _ hw))
      · split <;> omega
    · exact fun hplace => hplace.of_views rfl fun w r' hget => ⟨w, hview w r' hget⟩

/-- Retiring views takes those and no other. -/
theorem foldlM_retire {vids : List Nat} {views : Arena Resident}
    (h : ∀ vid ∈ vids, vid < views.length) : ∃ views', vids.foldlM retire views = some views' ∧
      ∀ w, views'.get w = if w ∈ vids then none else views.get w := by
  induction vids generalizing views with
  | nil => exact ⟨views, rfl, fun w => (if_neg List.not_mem_nil).symm⟩
  | cons vid vids ih =>
    have hlt := h vid List.mem_cons_self
    obtain ⟨views', hrun, hget⟩ := @ih (views.put vid none) (fun v hv => by
      rw [Arena.put_length]
      exact h v (List.mem_cons_of_mem _ hv))
    refine ⟨views', ?_, fun w => ?_⟩
    · rw [List.foldlM_cons, retire, if_pos hlt]
      exact hrun
    · rw [hget, Arena.get_put]
      by_cases hw : w ∈ vids
      · rw [if_pos hw, if_pos (List.mem_cons_of_mem _ hw)]
      · rw [if_neg hw]
        by_cases heq : vid = w
        · subst heq
          rw [if_pos ⟨rfl, hlt⟩, if_pos List.mem_cons_self]
        · rw [if_neg fun hc => heq hc.1, if_neg fun hmem => ?_]
          rcases List.mem_cons.mp hmem with rfl | hold
          · exact heq rfl
          · exact hw hold

/-- Closing all other windows leaves the documents alone. -/
theorem only_steady (h : ws.Sound) :
    ∃ r, ws.only = some r ∧ Steady ws r.1 := by
  obtain ⟨vid, r, buf, hvid, hmem, hr, hbuf, -⟩ := h.focused
  have hfocus := h.focus
  have hat := focusedView_window hfocus hvid
  unfold only
  split
  · exact ⟨_, rfl, .refl h⟩
  · have hperm := List.getElem_cons_eraseIdx_perm hfocus
    have hapart := hperm.nodup_iff.mpr h.apart
    obtain ⟨views, hrun, hget⟩ := @foldlM_retire (ws.windows.eraseIdx ws.focus)
      ws.views (fun w hw => by
        obtain ⟨r', hr'⟩ := h.windows w (hperm.mem_iff.mp (List.mem_cons_of_mem _ hw))
        exact Arena.lt_of_get hr')
    have hview (w : Nat) (r' : Resident) (hgot : views.get w = some r') :
        ws.views.get w = some r' := by
      rw [hget] at hgot
      split at hgot
      · cases hgot
      · exact hgot
    rw [hvid, Option.bind_some]
    dsimp only
    rw [hrun]
    refine ⟨_, rfl, ?_, rfl, ?_⟩
    · refine h.with_views (fun w r' hgot => .inl (hview w r' hgot)) ?_ (List.nodup_singleton _)
        (Nat.one_pos)
      intro w hw
      cases List.mem_singleton.mp hw
      refine ⟨r, ?_⟩
      rw [hget, if_neg (hat ▸ (List.nodup_cons.mp hapart).1), hr]
    · exact fun hplace => hplace.of_views rfl fun w r' hgot => ⟨w, hview w r' hgot⟩

/-! ## Buffers -/

theorem fresh_valid (caret : CaretGravity) (textWidth : Nat) (b : Bytes) :
    ({ View.fresh with caret, textWidth } : View).Valid b where
  changes := Nat.zero_le _
  jumps := Nat.zero_le _
  changeIdx := Nat.zero_le _
  jumpIdx := Nat.zero_le _
  cursor := inText_zero b
  tracked := by
    intro t ht p hp
    refine View.tracked_inText (fun s q hq => ?_) ht hp
    cases s <;> cases hq
  anchor := fun _ hp => by cases hp
  mark := fun _ hp => by cases hp
  insertStart := fun _ hp => by cases hp
  insstart := fun _ hp => by cases hp

theorem pushView_get (ws : Workspace) (id vid : Nat) : (ws.pushView id).1.views.get vid =
    if vid = ws.views.length then
      some ⟨id, { View.fresh with caret := ws.defaults.caret, textWidth := ws.defaults.textWidth }⟩
    else ws.views.get vid := by
  unfold pushView
  dsimp only
  rw [Arena.get_push]

theorem pushView_sound (h : ws.Sound) (hid : ws.document id = some buf) :
    (ws.pushView id).1.Sound := by
  have hsound : ({ ws with views := (ws.pushView id).1.views } : Workspace).Sound := by
    refine h.with_views ?_ ?_ h.apart h.focus
    · intro vid r hr
      rw [pushView_get] at hr
      split at hr
      · cases hr
        exact .inr ⟨⟨buf, hid⟩, (fresh_valid _ _ []).toBounded, rfl⟩
      · exact .inl hr
    · intro vid hvid
      obtain ⟨r, hr⟩ := h.windows vid hvid
      exact ⟨r, by rw [pushView_get, if_neg (Nat.ne_of_lt (Arena.lt_of_get hr)), hr]⟩
  exact hsound

theorem pushView_inPlace (h : ws.InPlace) (id : Nat) :
    (ws.pushView id).1.InPlace := by
  intro vid r buf hr hbuf
  rw [pushView_get] at hr
  split at hr
  · cases hr
    exact fresh_valid _ _ _
  · exact h vid r buf hr hbuf

theorem addBuffer_document (bytes : Bytes) (name : Option String) (id : Nat) :
    (ws.addBuffer bytes name).1.document id =
      if id = ws.docs.length + 1 then
        some ⟨ws.docs.length + 1, (Document.new bytes).markSaved⟩
      else ws.document id := by
  unfold addBuffer pushView document
  by_cases hz : id = 0
  · rw [if_pos hz, if_pos hz, if_neg (by omega)]
  · rw [if_neg hz, if_neg hz, Arena.get_push]
    by_cases hnew : id = ws.docs.length + 1
    · rw [if_pos (by omega), if_pos hnew]
    · rw [if_neg (by omega), if_neg hnew]

theorem document_le (h : ws.document id = some buf) :
    id ≤ ws.docs.length := by
  obtain ⟨hpos, hget⟩ := document_pos h
  have := Arena.lt_of_get hget
  omega

theorem addBuffer_kept (bytes : Bytes) (name : Option String) (h : ws.document id = some buf) :
    (ws.addBuffer bytes name).1.document id = some buf := by
  have := document_le h
  rw [addBuffer_document, if_neg (by omega), h]

theorem addBuffer_views (ws : Workspace) (bytes : Bytes) (name : Option String) (vid : Nat) :
    (ws.addBuffer bytes name).1.views.get vid =
      if vid = ws.views.length then
        some ⟨ws.docs.length + 1,
          { View.fresh with caret := ws.defaults.caret, textWidth := ws.defaults.textWidth }⟩
      else ws.views.get vid := by
  unfold addBuffer pushView
  dsimp only
  rw [Arena.get_push]

/-- Adding a buffer keeps a workspace sound. -/
theorem addBuffer_sound (h : ws.Sound) (bytes : Bytes) (name : Option String) :
    (ws.addBuffer bytes name).1.Sound := by
  have hget (i : Nat) : (ws.addBuffer bytes name).1.docs.get i =
      if i = ws.docs.length then some ⟨ws.docs.length + 1, (Document.new bytes).markSaved⟩
      else ws.docs.get i := by
    unfold addBuffer pushView
    rw [Arena.get_push]
  have hnew : (ws.addBuffer bytes name).1.document (ws.docs.length + 1) =
      some ⟨ws.docs.length + 1, (Document.new bytes).markSaved⟩ := by
    rw [addBuffer_document, if_pos rfl]
  refine { names := ?_, ids := ?_, shows := ?_, bounded := ?_, windows := ?_, apart := h.apart,
           focus := h.focus, once := ?_, lists := ?_, alt := ?_, pins := h.pins,
           unpinned := ?_, store := ?_ }
  · show (ws.names ++ [name]).length = (ws.docs ++ [some _]).length
    rw [List.length_append, List.length_append, h.names]
    rfl
  · intro i buf hbuf
    rw [hget] at hbuf
    split at hbuf
    · rename_i hi
      cases hbuf
      rw [hi]
    · exact h.ids i buf hbuf
  · intro vid r hr
    rw [addBuffer_views] at hr
    split at hr
    · cases hr
      exact ⟨_, hnew⟩
    · obtain ⟨buf, hbuf⟩ := h.shows vid r hr
      exact ⟨buf, addBuffer_kept bytes name hbuf⟩
  · intro vid r hr
    rw [addBuffer_views] at hr
    split at hr
    · cases hr
      exact (fresh_valid _ _ []).toBounded
    · exact h.bounded vid r hr
  · intro vid hvid
    obtain ⟨r, hr⟩ := h.windows vid hvid
    exact ⟨r, by rw [addBuffer_views, if_neg (Nat.ne_of_lt (Arena.lt_of_get hr)), hr]⟩
  · show (ws.bufferOrder ++ [ws.docs.length + 1]).Nodup
    rw [List.nodup_append]
    refine ⟨h.once, List.nodup_singleton _, ?_⟩
    intro id hid j hj
    obtain ⟨buf, hbuf⟩ := (h.lists id).mp hid
    have := document_le hbuf
    have := List.mem_singleton.mp hj
    omega
  · intro id
    show id ∈ ws.bufferOrder ++ [ws.docs.length + 1] ↔ _
    rw [List.mem_append, List.mem_singleton, h.lists, addBuffer_document]
    constructor
    · rintro (⟨buf, hbuf⟩ | rfl)
      · have := document_le hbuf
        exact ⟨buf, by rw [if_neg (by omega), hbuf]⟩
      · exact ⟨_, if_pos rfl⟩
    · rintro ⟨buf, hbuf⟩
      split at hbuf
      · exact .inr ‹_›
      · exact .inl ⟨buf, hbuf⟩
  · intro id hid
    obtain ⟨buf, hbuf⟩ := h.alt id hid
    exact ⟨buf, addBuffer_kept bytes name hbuf⟩
  · intro i buf hbuf
    rw [hget] at hbuf
    split at hbuf
    · cases hbuf
      rfl
    · exact h.unpinned i buf hbuf
  · intro vid r hr
    rw [addBuffer_views] at hr
    split at hr
    · cases hr
      rfl
    · exact h.store vid r hr

theorem addBuffer_inPlace (h : ws.Sound) (hplace : ws.InPlace) (bytes : Bytes)
    (name : Option String) : (ws.addBuffer bytes name).1.InPlace := by
  intro vid r buf hr hbuf
  rw [addBuffer_views] at hr
  split at hr
  · cases hr
    exact fresh_valid _ _ _
  · obtain ⟨old, hold⟩ := h.shows vid r hr
    rw [addBuffer_kept bytes name hold] at hbuf
    cases hbuf
    exact hplace vid r buf hr hold

/-- The view found for a buffer shows it, and no other window shows the view. -/
structure Found (ws : Workspace) (id : Nat) (r : Workspace × Nat) : Prop extends
    Steady ws r.1 where
  windows : r.1.windows = ws.windows
  focus : r.1.focus = ws.focus
  kept : ∀ vid r', ws.views.get vid = some r' → r.1.views.get vid = some r'
  view : ∃ r', r.1.views.get r.2 = some r' ∧ r'.doc = id
  elsewhere : ∀ i, i ≠ ws.focus → ws.windows[i]? ≠ some r.2

/-- Every buffer has a view, one that is in use or a new one. -/
theorem viewForBuffer_found (h : ws.Sound) (hid : ws.document id = some buf) :
    ∃ r, ws.viewForBuffer id = some r ∧ Found ws id r := by
  unfold viewForBuffer
  dsimp only
  split
  · rename_i vid hfind
    have hkeep := List.find?_some hfind
    rw [Bool.and_eq_true] at hkeep
    obtain ⟨hshows, helse⟩ := hkeep
    refine ⟨_, rfl, .refl h, rfl, rfl, fun _ _ hr => hr, ?_, ?_⟩
    · cases hr : ws.views.get vid with
      | none => rw [hr] at hshows; cases hshows
      | some r =>
        rw [hr] at hshows
        exact ⟨r, rfl, by simpa using hshows⟩
    · intro i hi hat
      rw [Bool.not_eq_true', shownElsewhere, List.any_eq_false] at helse
      refine helse (vid, i) ?_ ?_
      · rw [List.mk_mem_zipIdx_iff_getElem?]
        exact hat
      · simp [hi]
  · obtain ⟨vid, r, buf', hvid, hmem, hr, hbuf', hfocused⟩ := h.focused
    have hlive : ws.focused = some (r, buf') := by
      rw [Workspace.focused, hvid, Option.bind_some, hr, Option.bind_some, hbuf', Option.map_some]
    rw [hlive, Option.map_some]
    refine ⟨_, rfl, ⟨pushView_sound h hid, rfl, fun hp => pushView_inPlace hp id⟩, rfl, rfl,
      ?_, ?_, ?_⟩
    · intro w r' hr'
      rw [pushView_get, if_neg (Nat.ne_of_lt (Arena.lt_of_get hr')), hr']
    · refine ⟨_, (pushView_get ws id ws.views.length).trans (if_pos rfl), rfl⟩
    · intro i _ hat
      obtain ⟨r', hr'⟩ := h.windows _ (List.mem_of_getElem? hat)
      exact Nat.lt_irrefl _ (Arena.lt_of_get hr')

/-- Focusing a buffer leaves the documents alone. -/
theorem focusBuffer_steady (h : ws.Sound) (id : Nat) :
    ∃ r, ws.focusBuffer id = some r ∧ Steady ws r.1 := by
  unfold focusBuffer
  cases hid : ws.document id with
  | none =>
    rw [docIsLive, hid]
    exact ⟨_, rfl, .refl h⟩
  | some buf =>
    obtain ⟨vid, r, buf', hvid, hmem, hr, hbuf', hfocused⟩ := h.focused
    rw [docIsLive, hid, hfocused]
    dsimp only [Option.isSome_some, Bool.not_true, Option.bind_some]
    rw [if_neg (by simp)]
    split
    · exact ⟨_, rfl, .refl h⟩
    · rename_i hne
      have hsound : ({ ws with alt := some r.doc } : Workspace).Sound := by
        refine { h with alt := fun j hj => ?_ }
        cases hj
        exact ⟨buf', hbuf'⟩
      obtain ⟨found, hfound, hspec⟩ := viewForBuffer_found hsound hid
      rw [hfound, Option.map_some]
      obtain ⟨r', hr', hdoc⟩ := hspec.view
      have hfocus := h.focus
      refine ⟨_, rfl, ?_, hspec.docs, fun hp => hspec.inPlace hp⟩
      have hwin : found.1.windows = ws.windows := hspec.windows
      have hfoc : found.1.focus = ws.focus := hspec.focus
      have hnot : found.2 ∉ ws.windows := by
        intro hin
        obtain ⟨i, hi⟩ := List.mem_iff_getElem?.mp hin
        by_cases hif : i = ws.focus
        · subst hif
          have hsame : found.2 = vid := by
            rw [focusedView, hi] at hvid
            exact Option.some.inj hvid
          have hold := hspec.kept vid r hr
          rw [← hsame, hr'] at hold
          cases hold
          exact hne hdoc
        · exact hspec.elsewhere i hif hi
      refine hspec.sound.with_windows ?_ ?_ ?_
      · intro w hw
        rcases List.mem_or_eq_of_mem_set hw with hold | rfl
        · exact hspec.sound.windows w hold
        · exact ⟨r', hr'⟩
      · rw [hwin]
        exact h.apart.set hnot
      · rw [List.length_set, hwin, hfoc]
        exact hfocus

end Workspace

end Ruse.Core
