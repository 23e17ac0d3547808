import Ruse.Core.Workspace

/-!
# Lending a view and taking it back

The positions of the views at rest go into the lent document chunk by chunk, one for each
view of the buffer with its cursor last, and come back chunk by chunk. Whatever passes a
command makes carry the whole list (`Followed`), so each view at rest gets its own chunk
back (`withView_eq`), and each of its places what the passes make of that place
(`atRest_get`).
-/

namespace Ruse.Core

open Ruse.Lib

variable {a b : Bytes}

namespace Workspace

/-- The positions a view at rest pins: its places, and the cursor last. -/
def chunk (r : Resident) : List Tracked :=
  (r.view.tracked ++ [Tracked.line (some r.view.cursor) .cursor]).map fun t =>
    { t with restore := false }

/-- What the views of buffer `id` pin. -/
def chunks (id : Nat) : Arena Resident → List Tracked
  | [] => []
  | some r :: views => (if r.doc = id then chunk r else []) ++ chunks id views
  | none :: views => chunks id views

/-- A view at rest after the passes `ps` to the text `b`. -/
def atRest (ps : List Pass) (b : Bytes) (r : Resident) : Resident :=
  let t := restAll ps (chunk r)
  { r with
    view :=
      { r.view.untrack t.dropLast with
        cursor := snap b (min ((t.getLast?.bind Tracked.pos).getD 0) b.length) } }

/-- The views after the passes: those of buffer `id` moved, the others as they were. -/
def restOf (id : Nat) (ps : List Pass) (b : Bytes) (views : Arena Resident) :
    Arena Resident :=
  views.map (Option.map fun r => if r.doc = id then atRest ps b r else r)

/-! ## Chunk by chunk -/

theorem pinFrom_doc (id : Nat) (i : Nat) (views : Arena Resident) (doc : Document) :
    (pinFrom id i views doc).1 = { doc with pinned := doc.pinned ++ chunks id views } := by
  induction views generalizing i doc with
  | nil => simp [pinFrom, chunks]
  | cons v views ih =>
    cases v with
    | none => exact ih (i + 1) doc
    | some r =>
      unfold pinFrom chunks
      split
      · dsimp only
        rw [ih]
        simp only [Document.pinTracked, List.append_assoc]
        rfl
      · exact ih (i + 1) doc

theorem get_append_cons (before : Arena Resident) (v : Option Resident) (views : Arena Resident) :
    Arena.get (before ++ v :: views) before.length = v := by
  rw [Arena.get, List.getElem?_append_right (Nat.le_refl _), Nat.sub_self]
  rfl

/-- Unpinning gives a resident its own chunk of the pinned positions. -/
theorem unpinOne_chunk (ps : List Pass) (b : Bytes) (before views : Arena Resident) (r : Resident)
    {pinned : List Tracked} {start : Nat} {rest : List Tracked}
    (hpinned : pinned.drop start = restAll ps (chunk r) ++ rest) :
    unpinOne b pinned (before ++ some r :: views)
        (before.length, start, start + (chunk r).length) =
      some (before ++ some (atRest ps b r) :: views) := by
  have hchunk : (restAll ps (chunk r)).length = (chunk r).length := restAll_length ps _
  have hstop : start + (chunk r).length ≤ pinned.length := by
    have := congrArg List.length hpinned
    rw [List.length_drop, List.length_append, hchunk] at this
    have hpos : 0 < (chunk r).length := by simp [chunk]
    omega
  have ht : (pinned.drop start).take (start + (chunk r).length - start) = restAll ps (chunk r) := by
    rw [Nat.add_sub_cancel_left, hpinned, ← hchunk, List.take_left]
  have hlast : ∃ last, (restAll ps (chunk r)).getLast? = some last := by
    rw [← Option.isSome_iff_exists, List.getLast?_isSome, ← List.length_pos_iff, hchunk]
    simp [chunk]
  obtain ⟨last, hlast⟩ := hlast
  unfold unpinOne
  dsimp only
  rw [if_pos (by simp), get_append_cons]
  dsimp only
  rw [if_pos ⟨Nat.le_add_right _ _, hstop⟩, ht, hlast, Option.map_some, Arena.put,
    List.set_append_right _ _ (Nat.le_refl _), Nat.sub_self, List.set_cons_zero]
  simp only [atRest, hlast, Option.bind_some]

/-- The pins of the views from `i` on, read back from a list that holds the moved chunks
of those views from `doc.pinned` on. -/
theorem unpin_pinFrom (id : Nat) (ps : List Pass) (b : Bytes) (views : Arena Resident)
    (before : Arena Resident) (doc : Document) (pinned : List Tracked)
    (hlen : pinned.length = doc.pinned.length + (chunks id views).length)
    (hpinned : pinned.drop doc.pinned.length = restAll ps (chunks id views)) :
    (pinFrom id before.length views doc).2.foldlM (unpinOne b pinned) (before ++ views) =
      some (before ++ restOf id ps b views) := by
  induction views generalizing before doc with
  | nil => simp [pinFrom, restOf]
  | cons v views ih =>
    cases v with
    | none =>
      have hnext := ih (before ++ [none]) doc hlen hpinned
      rw [List.length_append, List.length_singleton, List.append_assoc, List.append_assoc] at hnext
      exact hnext
    | some r =>
      -- a view of the buffer takes its chunk off the front of what is left
      by_cases hr : r.doc = id
      · have hchunks : chunks id (some r :: views) = chunk r ++ chunks id views := by
          rw [chunks, if_pos hr]
        rw [hchunks, List.length_append] at hlen
        rw [hchunks, restAll_concat] at hpinned
        have hlength : (r.view.tracked ++ [Tracked.line (some r.view.cursor) .cursor]).length =
            (chunk r).length := by simp [chunk]
        have hpin : doc.pinTracked (r.view.tracked ++ [Tracked.line (some r.view.cursor) .cursor]) =
            ({ doc with pinned := doc.pinned ++ chunk r }, doc.pinned.length) := rfl
        rw [pinFrom, if_pos hr]
        simp only [hpin, hlength]
        rw [List.foldlM_cons, unpinOne_chunk ps b before views r hpinned]
        have hnext := ih (before ++ [some (atRest ps b r)])
          { doc with pinned := doc.pinned ++ chunk r }
          (by simp only [List.length_append]; omega)
          (by
            rw [List.length_append, ← List.drop_drop, hpinned, ← restAll_length ps (chunk r),
              List.drop_left])
        rw [List.length_append, List.length_singleton, List.append_assoc, List.append_assoc] at hnext
        simpa [restOf, hr] using hnext
      · have hskip : chunks id (some r :: views) = chunks id views := by
          rw [chunks, if_neg hr, List.nil_append]
        rw [hskip] at hlen hpinned
        have hnext := ih (before ++ [some r]) doc hlen hpinned
        rw [List.length_append, List.length_singleton, List.append_assoc, List.append_assoc] at hnext
        rw [pinFrom, if_neg hr]
        simpa [restOf, hr] using hnext

/-! ## A view at rest -/

theorem restAll_chunk (ps : List Pass) (r : Resident) : restAll ps (chunk r) =
    restAll ps (r.view.tracked.map fun t => { t with restore := false }) ++
      [⟨moveAll (.line .cursor) none ps (some r.view.cursor), .line .cursor, false⟩] := by
  rw [chunk, List.map_append, restAll_concat]
  congr 1
  refine List.ext_getElem? fun i => ?_
  rw [restAll_getElem?]
  cases i <;> rfl

/-- Each place of a view at rest holds what the passes make of it, nothing restored. -/
theorem atRest_get (ps : List Pass) (b : Bytes) (r : Resident) {s : Place} (hs : r.view.Has s) :
    (atRest ps b r).view.get s = moveAll (.line s.gravity) none ps (r.view.get s) := by
  have hentry (i : Nat) :
      (restAll ps (r.view.tracked.map fun t => { t with restore := false }))[i]?.bind Tracked.pos =
        r.view.tracked[i]?.bind fun e => moveAll e.track none ps e.pos := by
    rw [restAll_getElem?, List.getElem?_map]
    cases r.view.tracked[i]? <;> rfl
  have hget := View.untrack_moved (fun _ => none) hentry hs
  unfold atRest
  dsimp only
  rw [restAll_chunk, List.dropLast_concat]
  exact (View.get_congr rfl s).trans hget

theorem atRest_cursor (ps : List Pass) (b : Bytes) (r : Resident) : (atRest ps b r).view.cursor =
    snap b ((moveAll (.line .cursor) none ps (some r.view.cursor)).getD 0) := by
  unfold atRest
  dsimp only
  rw [restAll_chunk, List.getLast?_concat, View.snap_min]
  rfl

theorem atRest_changes (ps : List Pass) (b : Bytes) (r : Resident) :
    (atRest ps b r).view.changes.length = r.view.changes.length :=
  View.untrack_changes_length _ _

theorem atRest_jumps (ps : List Pass) (b : Bytes) (r : Resident) :
    (atRest ps b r).view.jumps.length = r.view.jumps.length :=
  View.untrack_jumps_length _ _

theorem atRest_bounded {ps : List Pass} {r : Resident} (h : r.view.Bounded) :
    (atRest ps b r).view.Bounded where
  changes := by rw [atRest_changes]; exact h.changes
  jumps := by rw [atRest_jumps]; exact h.jumps
  changeIdx := by rw [atRest_changes]; exact h.changeIdx
  jumpIdx := by rw [atRest_jumps]; exact h.jumpIdx

/-- A view at rest has the places it had before. -/
theorem has_of_atRest {ps : List Pass} {r : Resident} {s : Place} (h : (atRest ps b r).view.Has s) :
    r.view.Has s := by
  have hvisual : (atRest ps b r).view.lastVisual.isSome → r.view.lastVisual.isSome := by
    cases harea : r.view.lastVisual with
    | none =>
      intro hsome
      simp [atRest, View.untrack, harea] at hsome
    | some area => exact fun _ => rfl
  cases s with
  | visualStart => exact hvisual h
  | visualEnd => exact hvisual h
  | change i =>
    have hi : i < (atRest ps b r).view.changes.length := h
    rwa [atRest_changes] at hi
  | jump i =>
    have hi : i < (atRest ps b r).view.jumps.length := h
    rwa [atRest_jumps] at hi
  | _ => trivial

end Workspace

theorem moveAll_inText {ps : List Pass} (h : Passes a ps b) (g : LineGravity) {pos : Option Nat}
    (hpos : ∀ p, pos = some p → InText a p) :
    ∀ q, moveAll (.line g) none ps pos = some q → InText b q := by
  induction h generalizing pos with
  | nil text => exact hpos
  | edit edits _ ih =>
    refine ih fun p hp => ?_
    obtain ⟨o, -, hmap⟩ := Option.bind_eq_some_iff.mp hp
    obtain ⟨q, rfl⟩ := LineMap.mapOffset_snapped hmap
    exact inText_snap _ q
  | restore saved _ ih => exact ih hpos

namespace Workspace

/-- No position of the view is carried by its offset alone. -/
structure Unanchored (v : View) : Prop where
  anchor : v.anchor = none
  mark : v.mark = none
  insertStart : v.insertStart = none
  insstart : v.insstart = none

/-- At rest, the places of a view stay in the text, and so do its anchors where they are
in the text still. -/
theorem atRest_valid_of {ps : List Pass} {r : Resident} (hv : r.view.Valid a) (h : Passes a ps b)
    (hanchor : ∀ p, r.view.anchor = some p → InText b p)
    (hmark : ∀ p, r.view.mark = some p → InText b p)
    (hinsertStart : ∀ p, r.view.insertStart = some p → InText b p)
    (hinsstart : ∀ p, r.view.insstart = some p → InText b p) :
    (atRest ps b r).view.Valid b where
  toBounded := atRest_bounded hv.toBounded
  cursor := inText_snap _ _
  tracked := by
    intro t ht p hp
    refine View.tracked_inText (fun s q hq => ?_) ht hp
    have hs := has_of_atRest (View.has_of_get hq)
    rw [atRest_get ps b r hs] at hq
    exact moveAll_inText h s.gravity (fun p hp => hv.get hp) q hq
  anchor := hanchor
  mark := hmark
  insertStart := hinsertStart
  insstart := hinsstart

theorem atRest_valid {ps : List Pass} {r : Resident} (hv : r.view.Valid a) (h : Passes a ps b)
    (hfree : Unanchored r.view) : (atRest ps b r).view.Valid b := by
  have hnone {o : Option Nat} (ho : o = none) (p : Nat) (hp : o = some p) : InText b p := by
    rw [ho] at hp
    cases hp
  exact atRest_valid_of hv h (hnone hfree.anchor) (hnone hfree.mark) (hnone hfree.insertStart)
    (hnone hfree.insstart)

theorem atRest_valid_of_same {ps : List Pass} {r : Resident} (hv : r.view.Valid a)
    (h : Passes a ps b) (hsame : b = a) : (atRest ps b r).view.Valid b := by
  subst hsame
  exact atRest_valid_of hv h hv.anchor hv.mark hv.insertStart hv.insstart

/-! ## The focused pair -/

/-- The editor a workspace lends for view `vid`, the resident `r`, on `buf`. -/
def lent (ws : Workspace) (vid : Nat) (r : Resident) (buf : Buffer) : EditorState where
  doc := { buf.doc with pinned := chunks buf.id (ws.views.put vid none) }
  view := { r.view with registers := ws.registers }
  origin := ws.origin

/-- The workspace that takes back the editor `st` after the passes `ps`. -/
def takenBack (ws : Workspace) (vid : Nat) (r : Resident) (buf : Buffer) (st : EditorState)
    (ps : List Pass) : Workspace :=
  { ws with
    docs := ws.docs.put (r.doc - 1) (some { buf with doc := { st.doc with pinned := [] } })
    views := (restOf buf.id ps st.doc.text (ws.views.put vid none)).put vid
      (some { r with view := { st.view with registers := r.view.registers } })
    pins := []
    registers := st.view.registers }

/-- Lending never fails, and what comes back went by the passes of the editor. -/
theorem withView_eq {α : Type} {ws : Workspace} {vid : Nat} {r : Resident} {buf : Buffer}
    (hr : ws.views.get vid = some r) (hbuf : ws.document r.doc = some buf)
    (hpins : ws.pins = []) (hpinned : buf.doc.pinned = []) (f : EditorState → EditorState × α)
    {ps : List Pass} (hf : (ws.lent vid r buf).Followed (f (ws.lent vid r buf)).1 ps) :
    ws.withView vid f =
      some (ws.takenBack vid r buf (f (ws.lent vid r buf)).1 ps, (f (ws.lent vid r buf)).2) := by
  have hlend : ((ws.putView vid none).putDoc r.doc none).lend buf r.view =
      ({ (ws.putView vid none).putDoc r.doc none with
          pins := (pinFrom buf.id 0 (ws.views.put vid none) buf.doc).2
          registers := r.view.registers }, ws.lent vid r buf) := by
    unfold lend lent putView putDoc
    dsimp only
    rw [hpins, List.nil_append, pinFrom_doc, hpinned, List.nil_append]
  have hpinned' : (f (ws.lent vid r buf)).1.doc.pinned =
      restAll ps (chunks buf.id (ws.views.put vid none)) := hf.pinned
  have hback := unpin_pinFrom buf.id ps (f (ws.lent vid r buf)).1.doc.text (ws.views.put vid none) []
    buf.doc (f (ws.lent vid r buf)).1.doc.pinned
    (by rw [hpinned', restAll_length, hpinned, List.length_nil, Nat.zero_add])
    (by rw [hpinned, List.length_nil, List.drop_zero, hpinned'])
  unfold withView
  rw [hr, Option.bind_some, hbuf, Option.bind_some, hlend]
  unfold reclaim
  dsimp only [Document.takePinned, putDoc, putView]
  rw [List.length_nil, List.nil_append, List.nil_append] at hback
  rw [hback]
  simp only [Option.map_some, takenBack, Arena.put, List.set_set]

section
variable {ws : Workspace} {vid : Nat} {r : Resident} (buf : Buffer) (st : EditorState)
  (ps : List Pass)

theorem takenBack_get_self (hr : ws.views.get vid = some r) :
    (ws.takenBack vid r buf st ps).views.get vid =
      some { r with view := { st.view with registers := r.view.registers } } := by
  have hlt : vid < (restOf buf.id ps st.doc.text (ws.views.put vid none)).length := by
    rw [restOf, List.length_map, Arena.put_length]
    exact Arena.lt_of_get hr
  unfold takenBack
  rw [Arena.get_put, if_pos ⟨rfl, hlt⟩]

theorem takenBack_get_of_ne {w : Nat} (hw : w ≠ vid) :
    (ws.takenBack vid r buf st ps).views.get w =
      (ws.views.get w).map fun r => if r.doc = buf.id then atRest ps st.doc.text r else r := by
  unfold takenBack restOf
  rw [Arena.get_put_of_ne _ hw.symm, Arena.get_map, Arena.get_put_of_ne _ hw.symm]

end

end Workspace

end Ruse.Core
