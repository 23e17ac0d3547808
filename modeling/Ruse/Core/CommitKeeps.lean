import Ruse.Core.Passes
import Ruse.Core.Settle

/-!
# Committing a plan keeps the positions

A commit gives the view's places out once, takes them back entry by entry, and then only
snaps them (`commit_keeps_positions`): each place the plan does not set itself holds what
the passes of the action made of that place, and the view it leaves passes the walker over
the new text.
-/

namespace Ruse.Core

variable {ps : List Pass} {s : Place} {st : EditorState}

/-! ## The places of a view through an operation

A document carries the flat list of a view's positions entry by entry, each by its own
rule and rank. Read back, the list puts in each place what the passes made of that place
(`untrack_moved`): of a focused view with its rank among the restorable positions
(`untrack_carryAll`), of a view at rest with none.
-/

/-- The rank of a place among the restorable ones, which come first in the flat list. -/
def Place.rank (s : Place) : Option Nat := if s.restored then some (s.index 0) else none

namespace View

/-- A list whose entries are the moved entries of the flat list is read back place by
place. -/
theorem untrack_moved {v : View} {t : List Tracked} (rank : Nat → Option Nat)
    (h : ∀ i, t[i]?.bind Tracked.pos =
      v.tracked[i]?.bind fun e => moveAll e.track (rank i) ps e.pos)
    (hs : v.Has s) : (v.untrack t).get s =
      moveAll (.line s.gravity) (rank (s.index v.changes.length)) ps (v.get s) := by
  have hplace : ∀ s, v.Has s → t[s.index v.changes.length]?.bind Tracked.pos =
      moveAll (.line s.gravity) (rank (s.index v.changes.length)) ps (v.get s) := by
    intro s hs
    rw [h, tracked_at hs]
    rfl
  have hkept : ∀ s p, v.Has s → s.gravity = .keep → v.get s = some p →
      ∃ q, t[s.index v.changes.length]?.bind Tracked.pos = some q := by
    intro s p hs hkeep hp
    rw [hplace s hs, hkeep, hp]
    exact moveAll_keep _ ps p
  rw [untrack_get hs, hplace s hs]
  · intro hv
    obtain ⟨⟨a, e, kind⟩, harea⟩ := Option.isSome_iff_exists.mp hv
    exact ⟨hkept .visualStart a hv rfl (by simp [get, harea]),
      hkept .visualEnd e hv rfl (by simp [get, harea])⟩
  · intro i hi
    rcases Nat.lt_or_ge i v.changes.length with hc | hj
    · exact hkept (.change i) v.changes[i] hc rfl (List.getElem?_eq_getElem hc)
    · have hj' : i - v.changes.length < v.jumps.length := by omega
      obtain ⟨q, hq⟩ := hkept (.jump (i - v.changes.length)) _ hj' rfl
        (List.getElem?_eq_getElem hj')
      rw [Place.index, show trackedFixed + v.changes.length + (i - v.changes.length) =
        trackedFixed + i by omega] at hq
      exact ⟨q, hq⟩

theorem tracked_countP (v : View) {k : Nat} (hk : k ≤ 28) :
    (v.tracked.take k).countP Tracked.restore = k := by
  have hparts : ∃ first rest, v.tracked = first ++ rest ∧ first.length = 28 ∧
      ∀ t ∈ first, t.restore = true := by
    unfold tracked
    simp only [List.append_assoc]
    rw [← List.append_assoc]
    refine ⟨_, _, rfl, ?_, ?_⟩
    · simp [v.marksFrom_length (show 0 + 26 ≤ 62 by decide)]
    · intro t ht
      simp only [List.mem_append, List.mem_map, List.mem_cons, List.not_mem_nil, or_false] at ht
      rcases ht with ⟨m, -, rfl⟩ | rfl | rfl <;> rfl
  obtain ⟨first, rest, heq, hlen, hall⟩ := hparts
  rw [heq, List.take_append_of_le_length (by omega),
    List.countP_eq_length.mpr fun t ht => hall t (List.mem_of_mem_take ht), List.length_take]
  omega

theorem rankAt_tracked {v : View} (hs : v.Has s) :
    rankAt v.tracked (s.index v.changes.length) = s.rank := by
  rw [rankAt, tracked_at hs, Place.rank]
  show (if s.restored = true then _ else _) = _
  by_cases hr : s.restored = true
  · have hfirst : s.index v.changes.length = s.index 0 ∧ s.index 0 ≤ 28 := by
      cases s with
      | named i =>
        have hlow : i.val < 26 := by simpa [Place.restored] using hr
        simp only [Place.index, hlow, if_true]
        exact ⟨trivial, by omega⟩
      | visualStart => exact ⟨rfl, by decide⟩
      | visualEnd => exact ⟨rfl, by decide⟩
      | _ => cases hr
    rw [if_pos hr, if_pos hr, hfirst.1, v.tracked_countP hfirst.2]
  · rw [if_neg hr, if_neg hr]

theorem untrack_carryAll {v : View} (ps : List Pass) (hs : v.Has s) :
    (v.untrack (carryAll ps v.tracked)).get s =
      moveAll (.line s.gravity) s.rank ps (v.get s) := by
  have hentry (i : Nat) : (carryAll ps v.tracked)[i]?.bind Tracked.pos =
      v.tracked[i]?.bind fun e => moveAll e.track (rankAt v.tracked i) ps e.pos := by
    rw [carryAll_getElem?]
    cases v.tracked[i]? <;> rfl
  rw [untrack_moved _ hentry hs, rankAt_tracked hs]

end View

/-! ## What a plan asks for -/

namespace Action

/-- The edit list an action applies. -/
def edits : Action → Option EditList
  | txn edits _ => some edits
  | replaceTxn edits _ _ _ => some edits
  | blockInsertArm edits _ _ => some edits
  | _ => none

/-- The move of the undo tree an action makes. -/
def undoMove (h : UndoHistory) : Action → Option (UndoHistory × UndoStep)
  | undo => h.undo
  | redo => h.redo
  | undoChrono older => h.toChronological older
  | _ => none

/-- Whether an action only names the register of the next command. -/
def armsRegister : Action → Bool
  | setPending _ => true
  | setExprPending _ => true
  | _ => false

/-- The places an action writes itself. -/
def Writes (action : Action) : Place → Prop
  | .named i => ∃ ch, action = setNamedMark ch ∧ markSlot ch = some i
  | .jump _ => ∃ older, action = jumpList older
  | _ => False

end Action

namespace Plan

/-- The edits of a plan are valid for a text of `len` bytes. -/
def Fits (plan : Plan) (len : Nat) : Prop :=
  ∀ edits, plan.action.edits = some edits → edits.InBounds len

def yanks (plan : Plan) : Bool :=
  match plan.setRegister with
  | some (.yank _ _ _) => true
  | _ => false

end Plan

namespace EditorState

/-- The edit lists of a plan's action, in order. -/
def lists (st : EditorState) (plan : Plan) : List EditList :=
  match plan.action.edits with
  | some edits => if edits.isEmpty then [] else [edits]
  | none =>
    match plan.action with
    | .lineUndo => st.doc.lineUndoLists st.view.cursor
    | action => ((action.undoMove st.doc.undo).map (·.2.edits)).getD []

/-- Whether a plan moves in the undo tree. -/
def moves (st : EditorState) (plan : Plan) : Bool := (plan.action.undoMove st.doc.undo).isSome

/-- The view whose positions an action gives out: the cursor has joined the jumplist
before a move in the undo tree. -/
def jumped (st : EditorState) (plan : Plan) : View :=
  if st.moves plan then st.view.pushJump st.view.cursor else st.view

end EditorState

/-! ## The action -/

/-- From document `doc` and view `v`, to `st'` by the passes `ps`, each place going its
own way. -/
structure Moved (doc : Document) (v : View) (st' : EditorState) (ps : List Pass) : Prop where
  passes : Passes doc.text ps st'.doc.text
  pinned : st'.doc.pinned = restAll ps doc.pinned
  bounded : st'.view.Bounded
  mode : st'.view.mode = v.mode
  changes : st'.view.changes.length = v.changes.length
  get : ∀ s, v.Has s → st'.view.get s = moveAll (.line s.gravity) s.rank ps (v.get s)

namespace Moved

theorem refl (st : EditorState) (h : st.view.Bounded) : Moved st.doc st.view st [] :=
  ⟨.nil _, rfl, h, rfl, rfl, fun _ _ => rfl⟩

/-- What a document carries, put back into the view, has moved. -/
theorem of_carries {doc doc' : Document} {v : View} {t : List Tracked}
    (h : Document.Carries (doc, v.tracked) (doc', t) ps) (hv : v.Bounded)
    (origin : TransactionOrigin) : Moved doc v ⟨doc', v.untrack t, origin⟩ ps where
  passes := h.passes
  pinned := h.pinned
  bounded := by
    refine ⟨?_, ?_, ?_, ?_⟩ <;> dsimp only
    · rw [View.untrack_changes_length]
      exact hv.changes
    · rw [View.untrack_jumps_length]
      exact hv.jumps
    · rw [View.untrack_changes_length]
      exact hv.changeIdx
    · rw [View.untrack_jumps_length]
      exact hv.jumpIdx
  mode := rfl
  changes := v.untrack_changes_length t
  get := by
    intro s hs
    have ht : t = carryAll ps v.tracked := h.tracked
    rw [ht]
    exact View.untrack_carryAll ps hs

theorem congr {doc : Document} {v : View} {st' st'' : EditorState} (h : Moved doc v st' ps)
    (hdoc : st''.doc = st'.doc) (hstored : st''.view.stored = st'.view.stored)
    (hmode : st''.view.mode = st'.view.mode) :
    Moved doc v st'' ps where
  passes := by rw [hdoc]; exact h.passes
  pinned := by rw [hdoc]; exact h.pinned
  bounded := h.bounded.congr hstored
  mode := hmode.trans h.mode
  changes := by
    rw [show st''.view.changes = st'.view.changes from congrArg View.Stored.changes hstored]
    exact h.changes
  get := by
    intro s hs
    rw [View.get_congr hstored]
    exact h.get s hs

end Moved

namespace EditorState

/-- The edit of a plan is never refused, and carries each place through it. -/
theorem edit_moved (st : EditorState) (h : st.view.Bounded) (edits : EditList) (hint : GroupHint)
    (hin : edits.InBounds st.doc.text.length) : ∃ a, st.edit edits hint = some a ∧
      Moved st.doc st.view a.state (if edits.isEmpty then [] else [.edit st.doc.text edits]) ∧
      a.editSpan = editBracket edits ∧ a.undoMarks = none := by
  let doc := st.doc.primeLineUndo st.view.cursor (!st.view.mode.isTextEntry)
  let txn := ((Transaction.new st.doc.revision edits st.origin).withHint hint).withCursor
    (changeStart st.doc.text st.view.mode st.view.cursor st.view.anchor edits)
  obtain ⟨doc', t, happ⟩ := doc.applyInner_inBounds true st.view.tracked txn rfl hin
  have hcarries : Document.Carries (st.doc, st.view.tracked) (doc', t) _ :=
    (Document.applyInner_carries happ).congr rfl rfl rfl rfl rfl rfl
  refine ⟨⟨⟨doc', st.view.untrack t, st.origin⟩, editBracket edits, none, none, []⟩, ?_,
    Moved.of_carries hcarries h st.origin, rfl, rfl⟩
  have htxn : applyTxn { st with doc } txn = some ⟨doc', st.view.untrack t, st.origin⟩ := by
    unfold applyTxn Document.applyTracked
    rw [happ]
  exact congrArg (Option.map _) htxn

/-- The passes of a move in the undo tree, over the positions of a view. -/
def movePasses (st : EditorState) (move : Option (UndoHistory × UndoStep)) (v : View) : List Pass :=
  move.elim [] fun (h, step) => ({ st.doc with undo := h } : Document).replayPasses step v.tracked

def passes (st : EditorState) (plan : Plan) : List Pass :=
  if st.moves plan then st.movePasses (plan.action.undoMove st.doc.undo) (st.jumped plan)
  else editPasses st.doc.text (st.lists plan)

/-- A step of the undo tree carries each place of the view that has jumped, and leaves the
state as it is where there is no step. -/
theorem undoAct_moved (g : Segmenter) (cells : Cells) (st : EditorState) (h : st.view.Bounded)
    (mode : Mode) (move : Option (UndoHistory × UndoStep)) :
    let a := st.undoAct g cells mode fun d t =>
      move.map fun (h, step) => { d with undo := h }.replay step st.view.cursor t
    let v := if move.isSome then st.view.pushJump st.view.cursor else st.view
    Moved st.doc v a.state (st.movePasses move v) ∧
      listsOf (st.movePasses move v) = (move.map (·.2.edits)).getD [] ∧
      a.editSpan = none ∧ a.undoMarks.isSome = move.isSome := by
  cases move with
  | none =>
    refine ⟨?_, rfl, rfl, rfl⟩
    have hstate : (st.undoAct g cells mode fun _ _ => none).state = st := by
      show ({ st with
        view :=
          { (st.view.pushJump st.view.cursor).untrack (st.view.pushJump st.view.cursor).tracked with
            jumps := st.view.jumps, jumpIdx := st.view.jumpIdx } } : EditorState) = st
      rw [View.untrack_tracked]
      unfold View.pushJump
      split <;> rfl
    show Moved st.doc st.view (st.undoAct g cells mode fun _ _ => none).state []
    rw [hstate]
    exact .refl st h
  | some hs =>
    obtain ⟨hist, step⟩ := hs
    obtain ⟨hcarries, hlists⟩ := ({ st.doc with undo := hist } : Document).replay_carries step
      st.view.cursor (st.view.pushJump st.view.cursor).tracked
    have hfrom : Document.Carries (st.doc, (st.view.pushJump st.view.cursor).tracked) _ _ :=
      hcarries.congr rfl rfl rfl rfl rfl rfl
    exact ⟨Moved.of_carries hfrom (h.pushJump _) st.origin, hlists, rfl, rfl⟩

end EditorState

/-- What a performed action says about where its places went. -/
structure Performed (st : EditorState) (plan : Plan) (a : Acted) (ps : List Pass) : Prop where
  passes : Passes st.doc.text ps a.state.doc.text
  pinned : a.state.doc.pinned = restAll ps st.doc.pinned
  lists : listsOf ps = st.lists plan
  restores : st.moves plan = false → ∀ p ∈ ps, p.list.isSome
  bounded : a.state.view.Bounded
  mode : a.state.view.mode = st.view.mode
  changes : a.state.view.changes.length = (st.jumped plan).changes.length
  get : ∀ s, (st.jumped plan).Has s → ¬ plan.action.Writes s →
    a.state.view.get s = moveAll (.line s.gravity) s.rank ps ((st.jumped plan).get s)
  span : a.editSpan.isSome → ∃ edits, plan.action.edits = some edits ∧ edits.isEmpty = false
  marks : a.undoMarks.isSome = st.moves plan

theorem Moved.performed {plan : Plan} {a : Acted} (h : Moved st.doc (st.jumped plan) a.state ps)
    (hmode : (st.jumped plan).mode = st.view.mode) (hlists : listsOf ps = st.lists plan)
    (hrest : st.moves plan = false → ∀ p ∈ ps, p.list.isSome)
    (hspan : a.editSpan.isSome → ∃ edits, plan.action.edits = some edits ∧ edits.isEmpty = false)
    (hmarks : a.undoMarks.isSome = st.moves plan) : Performed st plan a ps where
  passes := h.passes
  pinned := h.pinned
  lists := hlists
  restores := hrest
  bounded := h.bounded
  mode := h.mode.trans hmode
  changes := h.changes
  get := fun s hs _ => h.get s hs
  span := hspan
  marks := hmarks

theorem editBracket_isSome {edits : EditList} (h : (editBracket edits).isSome) :
    edits.isEmpty = false := by
  cases hempty : edits.isEmpty with
  | false => rfl
  | true =>
    have hnil : edits.edits = [] := by simpa [EditList.isEmpty] using hempty
    simp [editBracket, hnil] at h

namespace View

theorem navChange_frame (v : View) (older : Bool) :
    ∃ changeIdx, (v.navChange older).1 = { v with changeIdx } := by
  unfold navChange
  split_ifs <;> exact ⟨_, rfl⟩

theorem cleanJumps_frame (v : View) (b : Bytes) (now : Nat) :
    ∃ jumps jumpIdx, v.cleanJumps b now = { v with jumps, jumpIdx } := by
  unfold cleanJumps
  dsimp only
  split_ifs <;> exact ⟨_, _, rfl⟩

theorem navJump_frame (v : View) (older : Bool) (now : Nat) (b : Bytes) :
    ∃ jumps jumpIdx, (v.navJump older now b).1 = { v with jumps, jumpIdx } := by
  obtain ⟨jumps, jumpIdx, hclean⟩ := v.cleanJumps_frame b now
  unfold navJump
  rw [hclean]
  dsimp only
  split_ifs <;> exact ⟨_, _, rfl⟩

end View

/-- A move in the undo tree is performed, or nothing is where there is no move. -/
theorem EditorState.undoAct_performed (g : Segmenter) (cells : Cells) (st : EditorState)
    (h : st.view.Bounded) (plan : Plan) {move : Option (UndoHistory × UndoStep)}
    (hmove : plan.action.undoMove st.doc.undo = move) (hedits : plan.action.edits = none)
    (hline : plan.action ≠ .lineUndo) : Performed st plan
      (st.undoAct g cells plan.mode fun d t =>
        move.map fun (h, step) => { d with undo := h }.replay step st.view.cursor t)
      (st.movePasses move (st.jumped plan)) := by
  have hmoves : st.moves plan = move.isSome := by rw [moves, hmove]
  have hmoved := st.undoAct_moved g cells h plan.mode move
  rw [← hmoves, show (if st.moves plan then st.view.pushJump st.view.cursor else st.view) =
    st.jumped plan from rfl] at hmoved
  obtain ⟨hmoved, hlists, hspan, hmarks⟩ := hmoved
  have hmode : (st.jumped plan).mode = st.view.mode := by
    unfold jumped View.pushJump
    split
    · split <;> rfl
    · rfl
  refine Moved.performed hmoved hmode ?_ ?_ (by rw [hspan]; simp) hmarks
  · rw [hlists, lists, hedits]
    dsimp only
    split
    · rename_i heq
      exact absurd heq hline
    · rw [hmove]
  · intro hstill p hp
    rw [hmoves, Option.isSome_eq_false_iff, Option.isNone_iff_eq_none] at hstill
    rw [hstill] at hp
    cases hp

theorem EditorState.jumped_of_still {plan : Plan} (hstill : st.moves plan = false) :
    st.jumped plan = st.view := by
  rw [jumped, hstill]
  rfl

/-- An action that carries the view through its edit list is performed. -/
theorem Moved.performed_edit {plan : Plan} {a : Acted} (edits : EditList)
    (h : Moved st.doc st.view a.state (if edits.isEmpty then [] else [.edit st.doc.text edits]))
    (hedits : plan.action.edits = some edits) (hstill : ∀ h, plan.action.undoMove h = none)
    (hspan : a.editSpan.isSome → edits.isEmpty = false) (hmarks : a.undoMarks = none) :
    Performed st plan a (if edits.isEmpty then [] else [.edit st.doc.text edits]) := by
  have hno : st.moves plan = false := by
    rw [EditorState.moves, hstill]
    rfl
  have hjumped := EditorState.jumped_of_still hno
  refine Moved.performed (by rwa [hjumped]) (by rw [hjumped]) ?_ ?_
    (fun hsome => ⟨edits, hedits, hspan hsome⟩) (by rw [hmarks, hno]; rfl)
  · rw [EditorState.lists, hedits]
    dsimp only
    split <;> rfl
  · intro _ p hp
    split at hp
    · cases hp
    · rw [List.mem_singleton.mp hp]
      rfl

/-- An action that carries the view through nothing is performed. -/
theorem Moved.performed_still {plan : Plan} {a : Acted} (h : Moved st.doc st.view a.state [])
    (hno : st.moves plan = false) (hlists : st.lists plan = []) (hspan : a.editSpan = none)
    (hmarks : a.undoMarks = none) : Performed st plan a [] := by
  have hjumped := EditorState.jumped_of_still hno
  refine Moved.performed (by rwa [hjumped]) (by rw [hjumped]) hlists.symm ?_
    (by rw [hspan]; simp) (by rw [hmarks, hno]; rfl)
  intro _ p hp
  cases hp

namespace EditorState

variable {plan : Plan}

theorem edit_performed (plan : Plan) (h : st.view.Bounded) {edits : EditList} (hint : GroupHint)
    (hin : edits.InBounds st.doc.text.length) (hedits : plan.action.edits = some edits)
    (hstill : ∀ h, plan.action.undoMove h = none) :
    ∃ a, st.edit edits hint = some a ∧ ∀ st' : EditorState, st'.doc = a.state.doc →
      st'.view.stored = a.state.view.stored → st'.view.mode = a.state.view.mode →
      Performed st plan { a with state := st' }
        (if edits.isEmpty then [] else [.edit st.doc.text edits]) := by
  obtain ⟨a, ha, hmoved, hspan, hmarks⟩ := st.edit_moved h edits hint hin
  refine ⟨a, ha, fun st' hdoc hstored hmode => ?_⟩
  exact Moved.performed_edit edits (hmoved.congr hdoc hstored hmode) hedits hstill
    (fun hsome => editBracket_isSome (hspan ▸ hsome)) hmarks

theorem lineUndo_performed (h : st.view.Bounded) (haction : plan.action = .lineUndo) :
    let r := st.doc.lineUndoTracked st.view.cursor st.origin st.view.tracked
    ∃ ps, Performed st plan
      ⟨{ st with doc := r.1, view := st.view.untrack r.2.1 }, none, r.2.2, none, []⟩ ps := by
  have hno : st.moves plan = false := by
    rw [moves, haction]
    rfl
  have hjumped := jumped_of_still hno
  obtain ⟨ps, hcarries, hlists, hall⟩ :=
    st.doc.lineUndo_carries st.view.cursor st.origin st.view.tracked
  refine ⟨ps, Moved.performed ?_ (by rw [hjumped]) ?_ (fun _ => hall)
    (fun hsome => by cases hsome) hno.symm⟩
  · rw [hjumped]
    exact Moved.of_carries hcarries h st.origin
  · rw [hlists, lists, haction]
    rfl

theorem jumpChange_performed (h : st.view.Bounded) {older : Bool}
    (haction : plan.action = .jumpChange older) (nav : Option Nat) (extra : List Effect) :
    Performed st plan
      ⟨{ st with view := (st.view.navChange older).1 }, none, nav, none, extra⟩ [] := by
  obtain ⟨changeIdx, hnav⟩ := st.view.navChange_frame older
  refine Moved.performed_still ⟨.nil _, rfl, h.navChange older, ?_, ?_, ?_⟩
    (by rw [moves, haction]; rfl) (by rw [lists, haction]; rfl) rfl rfl
  · show (st.view.navChange older).1.mode = st.view.mode
    rw [hnav]
  · show (st.view.navChange older).1.changes.length = _
    rw [hnav]
  · intro s hs
    show (st.view.navChange older).1.get s = st.view.get s
    rw [hnav]
    cases s <;> rfl

/-- A jump cleans the jumplist, which it may write: every other place stays. -/
theorem jumpList_performed (h : st.view.Bounded) {older : Bool}
    (haction : plan.action = .jumpList older) (nav : Option Nat) (extra : List Effect) :
    Performed st plan
      ⟨{ st with view := (st.view.navJump older st.view.cursor st.doc.text).1 },
        none, nav, none, extra⟩ [] := by
  obtain ⟨jumps, jumpIdx, hnav⟩ := st.view.navJump_frame older st.view.cursor st.doc.text
  have hno : st.moves plan = false := by
    rw [moves, haction]
    rfl
  refine { passes := .nil _, pinned := rfl, lists := ?_, restores := ?_, bounded := h.navJump older _ _,
           mode := ?_, changes := ?_, get := ?_, span := ?_, marks := hno.symm }
  · rw [lists, haction]
    rfl
  · intro _ p hp
    cases hp
  · show (st.view.navJump older st.view.cursor st.doc.text).1.mode = _
    rw [hnav]
  · show (st.view.navJump older st.view.cursor st.doc.text).1.changes.length = _
    rw [hnav, jumped_of_still hno]
  · intro s hs hwrites
    show (st.view.navJump older st.view.cursor st.doc.text).1.get s = (st.jumped plan).get s
    rw [hnav, jumped_of_still hno]
    cases s with
    | jump i => exact absurd ⟨older, haction⟩ hwrites
    | _ => rfl
  · intro hsome
    cases hsome

/-- Setting a mark writes that mark alone. -/
theorem setNamedMark_performed (h : st.view.Bounded) {ch : Char}
    (haction : plan.action = .setNamedMark ch) : Performed st plan
      ⟨{ st with view := st.view.setNamedMark ch st.view.cursor }, none, none, none, []⟩ [] := by
  have hno : st.moves plan = false := by
    rw [moves, haction]
    rfl
  refine { passes := .nil _, pinned := rfl, lists := ?_, restores := ?_, bounded := ?_,
           mode := ?_, changes := ?_, get := ?_, span := ?_, marks := hno.symm }
  · rw [lists, haction]
    rfl
  · intro _ p hp
    cases hp
  · show (st.view.setNamedMark ch st.view.cursor).Bounded
    unfold View.setNamedMark
    split
    · exact ⟨h.changes, h.jumps, h.changeIdx, h.jumpIdx⟩
    · exact h
  · show (st.view.setNamedMark ch st.view.cursor).mode = _
    unfold View.setNamedMark
    split <;> rfl
  · show (st.view.setNamedMark ch st.view.cursor).changes.length = _
    rw [jumped_of_still hno]
    unfold View.setNamedMark
    split <;> rfl
  · intro s hs hwrites
    rw [jumped_of_still hno]
    unfold View.setNamedMark
    split
    · rename_i i hi
      cases s with
      | named j =>
        have hne : j ≠ i := by
          rintro rfl
          exact hwrites ⟨ch, haction, hi⟩
        exact Function.update_of_ne hne _ _
      | _ => rfl
    · rfl
  · intro hsome
    cases hsome

/-- Every action is performed by some passes. -/
theorem act_performed_some (g : Segmenter) (cells : Cells) (st : EditorState)
    (h : st.view.Bounded) (plan : Plan) (hfit : plan.Fits st.doc.text.length) :
    ∃ a ps, st.act g cells plan = some a ∧ Performed st plan a ps := by
  have hundo {move : Option (UndoHistory × UndoStep)}
      (hmove : plan.action.undoMove st.doc.undo = move) (hedits : plan.action.edits = none)
      (hline : plan.action ≠ .lineUndo) := st.undoAct_performed g cells h plan hmove hedits hline
  have hstay (hno : st.moves plan = false) (hlists : st.lists plan = []) :
      Performed st plan ⟨st, none, none, none, []⟩ [] :=
    Moved.performed_still (.refl st h) hno hlists rfl rfl
  unfold act
  cases haction : plan.action with
  | txn edits hint =>
    obtain ⟨a, ha, hperf⟩ := edit_performed plan h hint
      (hfit edits (by rw [haction]; rfl)) (by rw [haction]; rfl) (by rw [haction]; intro; rfl)
    exact ⟨a, _, ha, hperf a.state rfl rfl rfl⟩
  | replaceTxn edits hint push pop =>
    obtain ⟨a, ha, hperf⟩ := edit_performed plan h hint
      (hfit edits (by rw [haction]; rfl)) (by rw [haction]; rfl) (by rw [haction]; intro; rfl)
    dsimp only
    rw [ha]
    exact ⟨_, _, rfl, hperf _ rfl rfl rfl⟩
  | blockInsertArm edits hint session =>
    dsimp only
    -- an empty list is no transaction: the session alone is armed
    by_cases hempty : edits.isEmpty = true
    · have hmoved : Moved st.doc st.view { st with
          view :=
            { st.view with
              lastBlockGeom := some (blockGeom session)
              blockInsert := some session } } [] := (Moved.refl st h).congr rfl rfl rfl
      rw [if_pos hempty]
      refine ⟨_, _, rfl, Moved.performed_edit edits ?_ (by rw [haction]; rfl)
        (by rw [haction]; intro; rfl) (fun hsome => by cases hsome) rfl⟩
      rw [if_pos hempty]
      exact hmoved
    · rw [if_neg hempty]
      obtain ⟨a, ha, hperf⟩ := edit_performed plan h hint
        (hfit edits (by rw [haction]; rfl)) (by rw [haction]; rfl) (by rw [haction]; intro; rfl)
      rw [ha]
      exact ⟨_, _, rfl, hperf _ rfl rfl rfl⟩
  | undo => exact ⟨_, _, rfl, hundo (by rw [haction]; rfl) (by rw [haction]; rfl) (by simp [haction])⟩
  | redo => exact ⟨_, _, rfl, hundo (by rw [haction]; rfl) (by rw [haction]; rfl) (by simp [haction])⟩
  | undoChrono older =>
    exact ⟨_, _, rfl, hundo (by rw [haction]; rfl) (by rw [haction]; rfl) (by simp [haction])⟩
  | lineUndo =>
    obtain ⟨ps, hperf⟩ := lineUndo_performed h haction
    exact ⟨_, ps, rfl, hperf⟩
  | jumpChange older => exact ⟨_, [], rfl, jumpChange_performed h haction _ _⟩
  | jumpList older => exact ⟨_, [], rfl, jumpList_performed h haction _ _⟩
  | setNamedMark ch => exact ⟨_, [], rfl, setNamedMark_performed h haction⟩
  | nop => exact ⟨_, [], rfl, hstay (by rw [moves, haction]; rfl) (by rw [lists, haction]; rfl)⟩
  | setPending name =>
    exact ⟨_, [], rfl, hstay (by rw [moves, haction]; rfl) (by rw [lists, haction]; rfl)⟩
  | setExprPending result =>
    exact ⟨_, [], rfl, hstay (by rw [moves, haction]; rfl) (by rw [lists, haction]; rfl)⟩

end EditorState

/-- Every action of a fitting plan is performed, by the passes of the plan. -/
theorem EditorState.act_performed (g : Segmenter) (cells : Cells) (st : EditorState)
    (h : st.view.Bounded) (plan : Plan) (hfit : plan.Fits st.doc.text.length) :
    ∃ a, st.act g cells plan = some a ∧ Performed st plan a (st.passes plan) := by
  unfold passes
  by_cases hmoves : st.moves plan = true
  · rw [if_pos hmoves]
    unfold act
    cases haction : plan.action with
    | undo =>
      exact ⟨_, rfl, st.undoAct_performed g cells h plan (by rw [haction]; rfl)
        (by rw [haction]; rfl) (by rw [haction]; simp)⟩
    | redo =>
      exact ⟨_, rfl, st.undoAct_performed g cells h plan (by rw [haction]; rfl)
        (by rw [haction]; rfl) (by rw [haction]; simp)⟩
    | undoChrono older =>
      exact ⟨_, rfl, st.undoAct_performed g cells h plan (by rw [haction]; rfl)
        (by rw [haction]; rfl) (by rw [haction]; simp)⟩
    | _ =>
      rw [moves, haction] at hmoves
      cases hmoves
  · rw [if_neg hmoves]
    obtain ⟨a, ps, hact, hperf⟩ := st.act_performed_some g cells h plan hfit
    -- no undo move puts a mark back, so the passes are those of the lists
    have hps := hperf.passes.eq_editPasses (hperf.restores (Bool.eq_false_iff.mpr hmoves))
    rw [hperf.lists] at hps
    exact ⟨a, hact, hps ▸ hperf⟩

/-! ## The view settled -/

namespace View

theorem pushChange_get (v : View) (b : Bytes) (pos : Nat) (newStep : Bool) (hs : ∀ i, s ≠ .change i) :
    (v.pushChange b pos newStep).get s = v.get s := by
  unfold pushChange
  split
  · rfl
  · cases s with
    | change i => exact absurd rfl (hs i)
    | _ => rfl

/-- Placing the cursor writes the last insert on leaving Insert, and the newest change. -/
theorem place_get (v : View) (b : Bytes) (entered : Entered) (plan : Plan) (nav : Option Nat)
    (newStep : Bool) (hs : ∀ i, s ≠ .change i)
    (hinsert : s = .lastInsert → ¬ (v.mode = .insert ∧ plan.mode = .normal)) :
    (v.place b entered plan nav newStep).get s = v.get s := by
  unfold place
  dsimp only
  split
  · rw [pushChange_get _ b _ _ hs]
    cases s with
    | lastInsert => exact if_neg (hinsert rfl)
    | _ => rfl
  · cases s with
    | lastInsert => exact if_neg (hinsert rfl)
    | _ => rfl

theorem undoLines_get (v : View) (b : Bytes) (m : UndoCursor.ChangeMarks) (hs : ∀ i, s ≠ .change i)
    (hstart : s ≠ .changeStart) (hend : s ≠ .changeEnd) :
    (v.undoLines b m).get s = v.get s := by
  unfold undoLines
  split
  · rw [pushChange_get _ b _ _ hs]
    cases s <;> first | rfl | contradiction
  · cases s <;> first | rfl | contradiction

theorem bracket_get (g : Segmenter) (v : View) (b : Bytes) (entered : Entered) (plan : Plan)
    (editSpan : Option (Nat × Nat)) (hstart : s ≠ .changeStart) (hend : s ≠ .changeEnd) :
    (v.bracket g b entered plan editSpan).get s = v.get s := by
  unfold bracket
  dsimp only
  split_ifs
  all_goals first
    | (cases s <;> first | rfl | contradiction)
    | (split <;> cases s <;> first | rfl | contradiction)

/-- Nothing is bracketed inside a session, or by a command without an edit or a yank. -/
theorem bracket_get_of_still (g : Segmenter) (v : View) (b : Bytes) (entered : Entered)
    (plan : Plan) (editSpan : Option (Nat × Nat)) (s : Place)
    (hstill : plan.mode.isTextEntry = true ∨
      entered.mode.isTextEntry = false ∧ plan.yanks = false ∧ editSpan = none) :
    (v.bracket g b entered plan editSpan).get s = v.get s := by
  unfold bracket
  rcases hstill with htext | ⟨hentered, hyank, rfl⟩
  · simp only [htext, Bool.not_true, Bool.and_false, Bool.and_true, Bool.false_eq_true, if_false]
    split_ifs <;> cases s <;> rfl
  · simp only [hentered, Bool.false_and, Bool.false_eq_true, if_false, Bool.not_false,
      Bool.true_and]
    cases hreg : plan.setRegister with
    | none => split_ifs <;> cases s <;> rfl
    | some write =>
      cases write with
      | yank reg start stop =>
        rw [Plan.yanks, hreg] at hyank
        cases hyank
      | _ => split_ifs <;> cases s <;> rfl

theorem undoLines_shifted (v : View) (b : Bytes) (m : UndoCursor.ChangeMarks)
    (h : v.changes.length ≤ maxChanges) :
    ∃ n k, n ≤ 1 ∧ Shifted n k v.changes (v.undoLines b m).changes := by
  unfold undoLines
  split
  · refine ⟨1, (pushChange_shifted ?_ h b _ false).imp fun _ hk => ⟨Nat.le_refl _, hk⟩⟩
    rfl
  · exact ⟨0, 0, Nat.zero_le _, .refl _⟩

section
variable (g : Segmenter) (v : View) (b : Bytes) (entered : Entered) (plan : Plan)
  (editSpan : Option (Nat × Nat)) (nav : Option Nat)
  (undoMarks : Option UndoCursor.ChangeMarks) (newStep : Bool)

/-- The change list before snapping: an edit writes the newest entry, and an undo the
newest. -/
theorem unsettled_shifted (h : v.Bounded) :
    ∃ n k, n ≤ plan.isEdit.toNat + undoMarks.isSome.toNat ∧ Shifted n k v.changes
      (v.unsettled g b entered plan editSpan nav undoMarks newStep).changes := by
  have hplace : ∃ k, Shifted plan.isEdit.toNat k v.changes
      (v.place b entered plan nav newStep).changes := by
    unfold place
    cases plan.isEdit with
    | true =>
      refine pushChange_shifted ?_ h.changes b _ newStep
      rfl
    | false => exact ⟨0, .refl _⟩
  obtain ⟨k, hk⟩ := hplace
  have hbracket (w : View) : (w.bracket g b entered plan editSpan).changes = w.changes := by
    unfold bracket
    dsimp only
    split_ifs
    all_goals first
      | rfl
      | (split <;> rfl)
  unfold unsettled
  rw [hbracket]
  cases undoMarks with
  | none => exact ⟨_, k, Nat.le_refl _, hk⟩
  | some m =>
    have hplaced := v.place_bounded b entered plan nav newStep h
    obtain ⟨n', k', hn', hk'⟩ := undoLines_shifted (v.place b entered plan nav newStep) b m
      hplaced.changes
    exact ⟨_, _, Nat.add_le_add_left hn' _,
      hk.trans hk' (undoLines_bounded _ b hplaced m).changes⟩

end

end View

/-! ## The commit -/

namespace EditorState

/-- The state an action starts from: leaving a selection has stored it. -/
def left (st : EditorState) (plan : Plan) : EditorState :=
  { st with view := st.view.leaveSelection plan.mode }

/-- The view whose positions a commit gives out. -/
def givenOut (st : EditorState) (plan : Plan) : View := (st.left plan).jumped plan

/-- Whether a commit sets the change marks. -/
def Brackets (st : EditorState) (plan : Plan) : Prop :=
  st.moves plan = true ∨
  plan.mode.isTextEntry = false ∧
    (st.view.mode.isTextEntry = true ∨ plan.yanks = true ∨
      ∃ edits, plan.action.edits = some edits ∧ edits.isEmpty = false)

/-- The places a commit sets; the change list is told apart. -/
def Sets (st : EditorState) (plan : Plan) (s : Place) : Prop :=
  plan.action.Writes s ∨
  match s with
  | .lastInsert => st.view.mode = .insert ∧ plan.mode = .normal
  | .changeStart => st.Brackets plan
  | .changeEnd => st.Brackets plan
  | .change _ => True
  | _ => False

end EditorState

/-- Where a place of `v` lands in the text `b` by the passes `ps`. -/
def View.landed (v : View) (ps : List Pass) (b : Bytes) (s : Place) : Option Nat :=
  (moveAll (.line s.gravity) s.rank ps (v.get s)).map (snap b)

/-- A commit from `st` to `st'` puts back what it gave out: the passes make the edits of
the action, and restore nothing unless it moves in the undo tree; each place gets what
they make of that place. -/
structure PutBack (st : EditorState) (plan : Plan) (st' : EditorState) (ps : List Pass) : Prop where
  passes : Passes st.doc.text ps st'.doc.text
  lists : listsOf ps = st.lists plan
  restores : st.moves plan = false → ∀ p ∈ ps, p.list.isSome
  places : ∀ s, (st.givenOut plan).Has s → ¬ st.Sets plan s →
    st'.view.get s = (st.givenOut plan).landed ps st'.doc.text s
  changes : ∃ l n k, l.length = (st.givenOut plan).changes.length ∧
    (∀ i < l.length, l[i]? = (st.givenOut plan).landed ps st'.doc.text (.change i)) ∧
    n ≤ plan.isEdit.toNat + (st.moves plan).toNat ∧ View.Shifted n k l st'.view.changes

/-- A plan that arms no register is acted on, and the view settled. -/
theorem commit_eq (g : Segmenter) (cells : Cells) (st : EditorState) {plan : Plan}
    (h : plan.action.armsRegister = false) : commit g cells st plan =
      ((st.left plan).act g cells plan).map fun a =>
        ({ a.state with
          view := a.state.view.settle g a.state.doc.text
            ⟨st.view.cursor, st.view.anchor, st.view.mode, st.doc.text.getLast? == some newline,
              st.doc.undo.currentGroup⟩ plan a.editSpan a.navTarget a.undoMarks
            (a.state.doc.undo.currentGroup != st.doc.undo.currentGroup) },
          plan.effects ++ a.extra) := by
  unfold commit
  split
  · rename_i haction
    rw [haction] at h
    cases h
  · rename_i haction
    rw [haction] at h
    cases h
  · rfl

theorem View.leaveSelection_bounded {v : View} (h : v.Bounded) (mode : Mode) :
    (v.leaveSelection mode).Bounded := by
  unfold leaveSelection
  split
  · split
    · exact ⟨h.changes, h.jumps, h.changeIdx, h.jumpIdx⟩
    · exact h
  · exact h

theorem View.leaveSelection_mode (v : View) (mode : Mode) :
    (v.leaveSelection mode).mode = v.mode := by
  unfold leaveSelection
  split
  · split <;> rfl
  · rfl

theorem View.leaveSelection_cursor (v : View) (mode : Mode) :
    (v.leaveSelection mode).cursor = v.cursor := by
  unfold leaveSelection
  split
  · split <;> rfl
  · rfl

/-- A place the commit does not set is not written on the way to the snap. -/
theorem Performed.unsettled_get {plan : Plan} {a : Acted} (h : Performed (st.left plan) plan a ps)
    (g : Segmenter) (b : Bytes) (entered : Entered) (hentered : entered.mode = st.view.mode)
    (newStep : Bool) (hs : ¬ st.Sets plan s) :
    (a.state.view.unsettled g b entered plan a.editSpan a.navTarget a.undoMarks newStep).get s =
      a.state.view.get s := by
  have hchange : ∀ i, s ≠ .change i := by
    rintro i rfl
    exact hs (.inr trivial)
  have hmode : a.state.view.mode = st.view.mode :=
    h.mode.trans (st.view.leaveSelection_mode plan.mode)
  have hmarks : a.undoMarks.isSome = st.moves plan := h.marks
  have hplace := a.state.view.place_get b entered plan a.navTarget newStep hchange (by
    rintro rfl ⟨hinsert, hnormal⟩
    exact hs (.inr ⟨hmode ▸ hinsert, hnormal⟩))
  unfold View.unsettled
  -- `'[` and `']` are what the bracket and an undo step write; the other places neither touches
  by_cases hedge : s = .changeStart ∨ s = .changeEnd
  · have hstill : ¬ st.Brackets plan := by
      intro hb
      rcases hedge with rfl | rfl <;> exact hs (.inr hb)
    have hnone : a.undoMarks = none := by
      cases hm : a.undoMarks with
      | none => rfl
      | some m =>
        rw [hm] at hmarks
        exact absurd (.inl hmarks.symm) hstill
    rw [hnone]
    rw [View.bracket_get_of_still, hplace]
    cases htext : plan.mode.isTextEntry with
    | true => exact .inl rfl
    | false =>
      refine .inr ⟨?_, ?_, ?_⟩
      · rw [hentered]
        exact Bool.eq_false_iff.mpr fun ht => hstill (.inr ⟨htext, .inl ht⟩)
      · exact Bool.eq_false_iff.mpr fun hy => hstill (.inr ⟨htext, .inr (.inl hy)⟩)
      · cases hspan : a.editSpan with
        | none => rfl
        | some span =>
          exact absurd (.inr ⟨htext, .inr (.inr (h.span (by rw [hspan]; rfl)))⟩) hstill
  · obtain ⟨hstart, hend⟩ := not_or.mp hedge
    rw [View.bracket_get _ _ _ _ _ _ hstart hend]
    cases a.undoMarks with
    | none => exact hplace
    | some m => rw [View.undoLines_get _ _ _ hchange hstart hend, hplace]

def EditorState.commitPasses (st : EditorState) (plan : Plan) : List Pass :=
  (st.left plan).passes plan

/-- What a commit leaves. Naming a register leaves the document and the positions; any other
plan a view that passes the walker, and the positions at rest in the document go by the
passes of the view's. -/
def EditorState.SettledBy (st : EditorState) (plan : Plan) (st' : EditorState) : Prop :=
  if plan.action.armsRegister then
    st'.doc = st.doc ∧ st'.view.stored = st.view.stored ∧ st'.view.cursor = st.view.cursor ∧
      st'.view.anchor = st.view.anchor ∧ st'.view.mark = st.view.mark
  else st'.view.Valid st'.doc.text ∧ PutBack st plan st' (st.commitPasses plan) ∧
    st'.doc.pinned = restAll (st.commitPasses plan) st.doc.pinned

/-- A fitting plan is committed, and the view settled over the new text. -/
theorem commit_settled {g : Segmenter} (hg : g.Documented) (cells : Cells) (hb : st.view.Bounded)
    {plan : Plan} (hfit : plan.Fits st.doc.text.length) : ∃ st' effects,
      commit g cells st plan = some (st', effects) ∧
      st.SettledBy plan st' := by
  unfold EditorState.SettledBy
  cases harms : plan.action.armsRegister with
  | true =>
    cases haction : plan.action with
    | setPending name =>
      exact ⟨{ st with view := { st.view with pendingRegister := name } }, plan.effects,
        by unfold commit; rw [haction], rfl, rfl, rfl, rfl, rfl⟩
    | setExprPending result =>
      exact ⟨{ st with
        view :=
          { st.view with
            registers := st.view.registers.setExpr result
            pendingRegister := some '=' } }, plan.effects,
        by unfold commit; rw [haction], rfl, rfl, rfl, rfl, rfl⟩
    | _ =>
      rw [haction] at harms
      cases harms
  | false =>
    have hbounded : (st.left plan).view.Bounded := View.leaveSelection_bounded hb plan.mode
    obtain ⟨a, hact, hperf⟩ := (st.left plan).act_performed g cells hbounded plan hfit
    refine ⟨_, _, by rw [commit_eq g cells st harms, hact]; rfl, ?_, ?_, ?_⟩
    · exact View.settle_valid hg _ plan hperf.bounded _ _ _ _ _
    · have hlists : listsOf (st.commitPasses plan) = st.lists plan := by
        rw [EditorState.commitPasses, hperf.lists]
        unfold EditorState.lists EditorState.left
        rw [View.leaveSelection_cursor]
      refine ⟨hperf.passes, hlists, hperf.restores, fun s hhas hs => ?_, ?_⟩
      · have hwrites : ¬ plan.action.Writes s := fun hw => hs (.inl hw)
        rw [View.settle_get', hperf.unsettled_get g _ _ rfl _ hs, hperf.get s hhas hwrites]
        rfl
      · obtain ⟨n, k, hn, hshift⟩ := a.state.view.unsettled_shifted g a.state.doc.text
          ⟨st.view.cursor, st.view.anchor, st.view.mode, st.doc.text.getLast? == some newline,
              st.doc.undo.currentGroup⟩ plan a.editSpan a.navTarget a.undoMarks
            (a.state.doc.undo.currentGroup != st.doc.undo.currentGroup) hperf.bounded
        refine ⟨a.state.view.changes.map (snap a.state.doc.text), n, k, ?_, ?_, ?_, ?_⟩
        · rw [List.length_map]
          exact hperf.changes
        · intro i hi
          rw [List.length_map, hperf.changes] at hi
          have hget := hperf.get (.change i) hi (fun hw => hw)
          rw [List.getElem?_map]
          exact congrArg (Option.map _) hget
        · have hmarks : a.undoMarks.isSome = st.moves plan := hperf.marks
          rwa [hmarks] at hn
        · rw [View.settle_changes]
          exact hshift.map _
    · exact hperf.pinned

/-- Committing a plan whose edits fit the text never fails, keeps every stored position
valid, and puts the positions it gave out back place by place, each carried by the plan's
edits and, where the plan moves in the undo tree, by the marks saved with its groups. -/
theorem commit_keeps_positions {g : Segmenter} (hg : g.Documented) (cells : Cells)
    {st : EditorState} (hv : st.view.Valid st.doc.text) {plan : Plan}
    (hfit : plan.Fits st.doc.text.length) : ∃ st' effects,
      commit g cells st plan = some (st', effects) ∧ st'.view.Valid st'.doc.text ∧
      if plan.action.armsRegister then
        st'.doc = st.doc ∧ ∀ s, st'.view.get s = st.view.get s
      else PutBack st plan st' (st.commitPasses plan) := by
  obtain ⟨st', effects, hcommit, hback⟩ := commit_settled hg cells hv.toBounded hfit
  refine ⟨st', effects, hcommit, ?_⟩
  unfold EditorState.SettledBy at hback
  split
  · rename_i harms
    rw [if_pos harms] at hback
    obtain ⟨hdoc, hstored, hcursor, hanchor, hmark⟩ := hback
    refine ⟨?_, hdoc, View.get_congr hstored⟩
    rw [hdoc]
    exact hv.congr hstored hcursor hanchor hmark
  · rename_i harms
    rw [if_neg harms] at hback
    exact ⟨hback.1, hback.2.1⟩

/-- A line put above the one mark `a` is on, the cursor on the first. -/
theorem commit_keeps_positions_insert :
    let st : EditorState :=
      ⟨.new [97, 10, 98, 10], (View.fresh.setNamedMark 'a' 2), .userInput⟩
    let edits : EditList := ⟨[⟨0, 0, [120, 10]⟩], by decide, by decide⟩
    let plan : Plan := ⟨.txn edits .breakBefore, 0, .normal, true, [], none, none, none⟩
    ∃ st' effects, commit .byChar (fun _ i _ _ => (i + 1, 1)) st plan = some (st', effects) ∧
      st'.view.Valid st'.doc.text ∧
      if plan.action.armsRegister then
        st'.doc = st.doc ∧ ∀ s, st'.view.get s = st.view.get s
      else PutBack st plan st' (st.commitPasses plan) := by
  intro st edits plan
  have hv : st.view.Valid st.doc.text := by
    refine { changes := by decide, jumps := by decide, changeIdx := by decide,
             jumpIdx := by decide, cursor := inText_zero _, tracked := ?_, anchor := ?_,
             mark := ?_, insertStart := ?_, insstart := ?_ }
    · intro t ht p hp
      refine View.tracked_inText (fun s q hq => ?_) ht hp
      cases s with
      | named i =>
        have hmark : Function.update (fun _ => none) (0 : Fin 62) (some 2) i = some q := hq
        rw [Function.update_apply] at hmark
        split at hmark
        · cases hmark
          exact inText_of_lead (by decide) (by decide)
        · cases hmark
      | _ => cases hq
    all_goals
      intro p hp
      cases hp
  refine commit_keeps_positions Segmenter.byChar_documented _ hv ?_
  intro es hes
  cases hes
  decide

end Ruse.Core
