import Ruse.Core.MarksRun

/-!
# What carries a position through an operation

An operation of a document passes its caller's positions, and the ones of the views at
rest, through the edit lists it applies and the saved values it puts back. `Carries` says
which passes an operation makes; each moves a position by the position's own rule and its
own rank among the restorable ones (`Pass.move`), so that a list of positions is moved
entry by entry (`carry_getElem?`).
-/

namespace Ruse.Core

/-- One pass over the positions a document carries. -/
inductive Pass where
  | edit (old : Bytes) (edits : EditList)
  | restore (text : Bytes) (saved : List (Option Nat))

namespace Pass

/-- The pass over the caller's positions. -/
def carry : Pass → List Tracked → List Tracked
  | edit old edits, ts => ts.map (·.apply ⟨old, edits.applyTo old, edits.edits⟩)
  | restore text saved, ts => restoreTracked text ts saved

/-- The pass over the positions at rest, which undo does not restore. -/
def rest : Pass → List Tracked → List Tracked
  | edit old edits, ts => ts.map (·.apply ⟨old, edits.applyTo old, edits.edits⟩)
  | restore _ _, ts => ts

/-- The pass over one position, of rank `rank` among the restorable ones. -/
def move (track : Track) (rank : Option Nat) : Pass → Option Nat → Option Nat
  | edit old edits, pos =>
    (Tracked.apply ⟨pos, track, false⟩ ⟨old, edits.applyTo old, edits.edits⟩).pos
  | restore text saved, pos =>
    match rank.bind (saved[·]?) with
    | some (some p) => some (snap text (min p text.length))
    | _ => pos

end Pass

def carryAll (ps : List Pass) (ts : List Tracked) : List Tracked :=
  ps.foldl (fun ts p => p.carry ts) ts

def restAll (ps : List Pass) (ts : List Tracked) : List Tracked :=
  ps.foldl (fun ts p => p.rest ts) ts

def moveAll (track : Track) (rank : Option Nat) (ps : List Pass) (pos : Option Nat) :
    Option Nat :=
  ps.foldl (fun pos p => p.move track rank pos) pos

/-- The edit list of a pass, none where it puts saved values back. -/
def Pass.list : Pass → Option EditList
  | edit _ edits => some edits
  | restore _ _ => none

def listsOf (ps : List Pass) : List EditList := ps.filterMap Pass.list

theorem listsOf_append (ps ps' : List Pass) : listsOf (ps ++ ps') = listsOf ps ++ listsOf ps' :=
  List.filterMap_append

/-! ## One position of a list -/

/-- How many restorable positions come before entry `i`, which is one. -/
def rankAt (ts : List Tracked) (i : Nat) : Option Nat :=
  if ts[i]?.any Tracked.restore then some ((ts.take i).countP Tracked.restore) else none

theorem rankAt_congr {ts ts' : List Tracked}
    (h : ts.map Tracked.restore = ts'.map Tracked.restore) (i : Nat) : rankAt ts i = rankAt ts' i := by
  have hread : ∀ l : List Tracked, rankAt l i =
      if (l.map Tracked.restore)[i]?.any id then some (((l.map Tracked.restore).take i).countP id)
      else none := by
    intro l
    rw [rankAt, List.getElem?_map, ← List.map_take, List.countP_map, Option.any_map]
    rfl
  rw [hread, hread, h]

theorem rankAt_cons_succ (t : Tracked) (ts : List Tracked) (i : Nat) :
    rankAt (t :: ts) (i + 1) = (rankAt ts i).map (· + t.restore.toNat) := by
  simp only [rankAt, List.getElem?_cons_succ, List.take_succ_cons, List.countP_cons]
  split
  · simp only [Option.map_some, Option.some.injEq]
    cases t.restore <;> rfl
  · rfl

theorem restoreTracked_of_nil (text : Bytes) (ts : List Tracked) :
    restoreTracked text ts [] = ts := by
  induction ts with
  | nil => rfl
  | cons t ts ih =>
    cases hr : t.restore with
    | true => exact restoreTracked_nil text ts hr
    | false => rw [restoreTracked_skip text ts [] hr, ih]

/-- Putting back moves each place to its saved position, by its rank. -/
theorem restoreTracked_getElem? (text : Bytes) (ts : List Tracked) (saved : List (Option Nat))
    (i : Nat) : (restoreTracked text ts saved)[i]? = ts[i]?.map fun t =>
      { t with pos := (Pass.restore text saved).move t.track (rankAt ts i) t.pos } := by
  induction ts generalizing saved i with
  | nil => rfl
  | cons t ts ih =>
    cases hr : t.restore with
    | false =>
      rw [restoreTracked_skip text ts saved hr]
      cases i with
      | zero =>
        rw [List.getElem?_cons_zero, List.getElem?_cons_zero, Option.map_some,
          show rankAt (t :: ts) 0 = none by simp [rankAt, hr]]
        rfl
      | succ i =>
        rw [List.getElem?_cons_succ, List.getElem?_cons_succ, ih, rankAt_cons_succ, hr]
        simp
    | true =>
      have hfirst : rankAt (t :: ts) 0 = some 0 := by simp [rankAt, hr]
      cases saved with
      | nil =>
        rw [restoreTracked_of_nil]
        cases (t :: ts)[i]? <;> simp [Pass.move]
      | cons s saved =>
        have hlater (i : Nat) : (restoreTracked text ts saved)[i]? = ts[i]?.map fun u =>
            { u with pos :=
              (Pass.restore text (s :: saved)).move u.track (rankAt (t :: ts) (i + 1)) u.pos } := by
          rw [ih, rankAt_cons_succ, hr]
          cases rankAt ts i <;> simp [Pass.move]
        cases s with
        | none =>
          rw [restoreTracked_none text ts saved hr]
          cases i with
          | zero => simp [hfirst, Pass.move]
          | succ i => rw [List.getElem?_cons_succ, List.getElem?_cons_succ, hlater]
        | some p =>
          rw [restoreTracked_some text ts p saved hr]
          cases i with
          | zero => simp [hfirst, Pass.move]
          | succ i => rw [List.getElem?_cons_succ, List.getElem?_cons_succ, hlater]

/-- A pass moves a list entry by entry, each by its own rule and rank. -/
theorem carry_getElem? (p : Pass) (ts : List Tracked) (i : Nat) :
    (p.carry ts)[i]? = ts[i]?.map fun t =>
      { t with pos := p.move t.track (rankAt ts i) t.pos } := by
  cases p with
  | edit old edits =>
    rw [Pass.carry, List.getElem?_map]
    rfl
  | restore text saved => exact restoreTracked_getElem? text ts saved i

theorem carry_map_restore (p : Pass) (ts : List Tracked) :
    (p.carry ts).map Tracked.restore = ts.map Tracked.restore := by
  refine List.ext_getElem? fun i => ?_
  rw [List.getElem?_map, carry_getElem?, List.getElem?_map, Option.map_map]
  rfl

theorem carryAll_getElem? (ps : List Pass) (ts : List Tracked) (i : Nat) :
    (carryAll ps ts)[i]? = ts[i]?.map fun t =>
      { t with pos := moveAll t.track (rankAt ts i) ps t.pos } := by
  induction ps generalizing ts with
  | nil =>
    show ts[i]? = ts[i]?.map id
    rw [Option.map_id, id]
  | cons p ps ih =>
    show (carryAll ps (p.carry ts))[i]? = _
    rw [ih, carry_getElem?, rankAt_congr (carry_map_restore p ts), Option.map_map]
    rfl

theorem restAll_getElem? (ps : List Pass) (ts : List Tracked) (i : Nat) :
    (restAll ps ts)[i]? = ts[i]?.map fun t => { t with pos := moveAll t.track none ps t.pos } := by
  induction ps generalizing ts with
  | nil =>
    show ts[i]? = ts[i]?.map id
    rw [Option.map_id, id]
  | cons p ps ih =>
    show (restAll ps (p.rest ts))[i]? = _
    rw [ih]
    cases p with
    | edit old edits =>
      rw [Pass.rest, List.getElem?_map, Option.map_map]
      rfl
    | restore text saved => rfl

theorem restAll_length (ps : List Pass) (ts : List Tracked) :
    (restAll ps ts).length = ts.length := by
  induction ps generalizing ts with
  | nil => rfl
  | cons p ps ih =>
    have hone : (p.rest ts).length = ts.length := by
      cases p with
      | edit old edits => exact List.length_map _
      | restore text saved => rfl
    exact (ih (p.rest ts)).trans hone

theorem restAll_append (ps ps' : List Pass) (ts : List Tracked) :
    restAll (ps ++ ps') ts = restAll ps' (restAll ps ts) := List.foldl_append

theorem carryAll_append (ps ps' : List Pass) (ts : List Tracked) :
    carryAll (ps ++ ps') ts = carryAll ps' (carryAll ps ts) := List.foldl_append

theorem restAll_concat (ps : List Pass) (ts ts' : List Tracked) :
    restAll ps (ts ++ ts') = restAll ps ts ++ restAll ps ts' := by
  induction ps generalizing ts ts' with
  | nil => rfl
  | cons p ps ih =>
    show restAll ps (p.rest (ts ++ ts')) = _
    cases p with
    | edit old edits =>
      rw [Pass.rest, List.map_append, ih]
      rfl
    | restore text saved => exact ih ts ts'

/-! ### A position that is kept -/

/-- The rule that keeps a position never says it is gone. -/
theorem LineMap.reach_keep (m : LineMap) (o ls le : Nat) (es : List Edit) (delta : Int) :
    m.reach .keep o ls le es delta ≠ .reached none := by
  have hreplaced (e : Edit) (base j col : Nat) (lead : Bool) (first : Option Nat) :
      first.or (m.replaced e base j col .keep lead) ≠ none := by
    have hsome : ∃ p, m.replaced e base j col .keep lead = some p := by
      unfold replaced
      dsimp only
      split <;> exact ⟨_, rfl⟩
    obtain ⟨p, hp⟩ := hsome
    rw [hp]
    cases first <;> simp
  induction es generalizing delta with
  | nil => simp [reach]
  | cons e es ih =>
    unfold reach
    split
    · simp
    split
    · exact ih _
    split
    · exact ih _
    split
    · simpa using hreplaced e _ _ _ false _
    split
    · simpa using hreplaced e _ _ _ true _
    split
    · split
      · simp
      · split
        · simp
        · split <;> simp
    · simp

theorem LineMap.mapOffset_keep (m : LineMap) (o : Nat) : ∃ p, m.mapOffset o .keep = some p := by
  unfold mapOffset
  dsimp only
  split
  · rename_i dest hdest
    cases dest with
    | none => exact absurd hdest (m.reach_keep _ _ _ _ _)
    | some p => exact ⟨_, rfl⟩
  · exact ⟨_, rfl⟩

theorem LineMap.mapOffset_snapped {m : LineMap} {o p : Nat} {g : LineGravity}
    (h : m.mapOffset o g = some p) : ∃ q, p = snap m.new q := by
  unfold mapOffset at h
  dsimp only at h
  split at h
  · obtain ⟨q, -, rfl⟩ := Option.map_eq_some_iff.mp h
    exact ⟨q, rfl⟩
  · cases h
    exact ⟨_, rfl⟩

theorem moveAll_keep (rank : Option Nat) (ps : List Pass) (p : Nat) :
    ∃ q, moveAll (.line .keep) rank ps (some p) = some q := by
  induction ps generalizing p with
  | nil => exact ⟨p, rfl⟩
  | cons pass ps ih =>
    have hone : ∃ q, pass.move (.line .keep) rank (some p) = some q := by
      cases pass with
      | edit old edits => exact LineMap.mapOffset_keep _ p
      | restore text saved =>
        simp only [Pass.move]
        split
        · exact ⟨_, rfl⟩
        · exact ⟨p, rfl⟩
    obtain ⟨q, hq⟩ := hone
    show ∃ q, moveAll (.line .keep) rank ps (pass.move (.line .keep) rank (some p)) = some q
    rw [hq]
    exact ih q

/-! ## The passes of an operation -/

/-- Passes that lead from one text to another. -/
inductive Passes : Bytes → List Pass → Bytes → Prop
  | nil (text : Bytes) : Passes text [] text
  | edit {text text' : Bytes} {ps : List Pass} (edits : EditList) :
      Passes (edits.applyTo text) ps text' → Passes text (.edit text edits :: ps) text'
  | restore {text text' : Bytes} {ps : List Pass} (saved : List (Option Nat)) :
      Passes text ps text' → Passes text (.restore text saved :: ps) text'

theorem Passes.append {a b c : Bytes} {ps ps' : List Pass} (h : Passes a ps b)
    (h' : Passes b ps' c) : Passes a (ps ++ ps') c := by
  induction h with
  | nil => exact h'
  | edit edits _ ih => exact .edit edits (ih h')
  | restore saved _ ih => exact .restore saved (ih h')

/-- The passes of edit lists one after the other, nothing put back. -/
def editPasses : Bytes → List EditList → List Pass
  | _, [] => []
  | text, edits :: lists => .edit text edits :: editPasses (edits.applyTo text) lists

theorem Passes.eq_editPasses {a b : Bytes} {ps : List Pass} (h : Passes a ps b)
    (hedits : ∀ p ∈ ps, p.list.isSome) : ps = editPasses a (listsOf ps) := by
  induction h with
  | nil => rfl
  | @edit text text' ps edits _ ih =>
    have hrest := ih fun p hp => hedits p (List.mem_cons_of_mem _ hp)
    show Pass.edit text edits :: ps = .edit text edits :: editPasses (edits.applyTo text) (listsOf ps)
    rw [← hrest]
  | restore saved _ _ => cases hedits _ List.mem_cons_self

namespace Document

/-- An operation carries the positions by the passes `ps`. -/
structure Carries (s s' : Carried) (ps : List Pass) : Prop where
  passes : Passes s.1.text ps s'.1.text
  tracked : s'.2 = carryAll ps s.2
  pinned : s'.1.pinned = restAll ps s.1.pinned

theorem Carries.refl (s : Carried) : Carries s s [] := ⟨.nil _, rfl, rfl⟩

theorem Carries.trans {a b c : Carried} {ps ps' : List Pass} (h : Carries a b ps)
    (h' : Carries b c ps') : Carries a c (ps ++ ps') where
  passes := h.passes.append h'.passes
  tracked := by rw [h'.tracked, h.tracked, carryAll_append]
  pinned := by rw [h'.pinned, h.pinned, restAll_append]

theorem Carries.congr {s s' t t' : Carried} {ps : List Pass} (h : Carries s s' ps)
    (htext : t.1.text = s.1.text) (hpin : t.1.pinned = s.1.pinned) (htracked : t.2 = s.2)
    (htext' : t'.1.text = s'.1.text) (hpin' : t'.1.pinned = s'.1.pinned)
    (htracked' : t'.2 = s'.2) : Carries t t' ps where
  passes := by rw [htext, htext']; exact h.passes
  tracked := by rw [htracked, htracked', h.tracked]
  pinned := by rw [hpin, hpin', h.pinned]

def txnPasses (d : Document) (txn : Transaction) : List Pass :=
  if txn.edits.isEmpty then [] else [.edit d.text txn.edits]

/-- The passes of a transaction are the one of its edit list, if that has an edit. -/
theorem listsOf_txnPasses (d : Document) (txn : Transaction) :
    listsOf (d.txnPasses txn) = if txn.edits.isEmpty then [] else [txn.edits] := by
  unfold txnPasses
  split <;> rfl

theorem txnPasses_list {d : Document} {txn : Transaction} {p : Pass} (h : p ∈ d.txnPasses txn) :
    p.list.isSome := by
  unfold txnPasses at h
  split at h
  · cases h
  · rw [List.mem_singleton.mp h]
    rfl

theorem applyInner_inBounds (d : Document) (track : Bool) (tracked : List Tracked)
    (txn : Transaction) (hrev : txn.baseRevision = d.revision)
    (hin : txn.edits.InBounds d.text.length) :
    ∃ d' tracked', d.applyInner txn track tracked = .ok (d', tracked') := by
  unfold applyInner
  rw [if_neg (by simpa using hrev), EditList.checkBounds_ok_iff.mpr hin]
  dsimp only
  split <;> exact ⟨_, _, rfl⟩

/-- An applied transaction carries the places by its passes. -/
theorem applyInner_carries {d d' : Document} {txn : Transaction} {track : Bool}
    {tracked tracked' : List Tracked}
    (h : d.applyInner txn track tracked = .ok (d', tracked')) :
    Carries (d, tracked) (d', tracked') (d.txnPasses txn) := by
  unfold applyInner at h
  split at h
  · cases h
  · split at h
    · cases h
    · cases h
    · split at h
      · rename_i hempty
        cases h
        rw [txnPasses, if_pos hempty]
        exact ⟨.nil _, rfl, rfl⟩
      · rename_i hfull
        cases h
        rw [txnPasses, if_neg hfull]
        exact ⟨.edit txn.edits (.nil _), rfl, rfl⟩

/-- The pass that puts back what undo group `group` saved, if it saved anything. -/
def restorePasses (d : Document) (group : Nat) : List Pass :=
  ((d.markUndo group).map fun saved => Pass.restore d.text saved).toList

theorem restoreMarks_carries (d : Document) (group : Nat) (before : List (Option Nat))
    (tracked : List Tracked) :
    Carries (d, tracked) (d.restoreMarks group before tracked) (d.restorePasses group) := by
  unfold restoreMarks restorePasses
  cases d.markUndo group with
  | none => exact .refl _
  | some saved => exact ⟨.restore saved (.nil _), rfl, rfl⟩

theorem listsOf_restorePasses (d : Document) (group : Nat) : listsOf (d.restorePasses group) = [] := by
  unfold restorePasses
  cases d.markUndo group <;> rfl

/-- The passes of one round of a replay: its edits, and after the last ones of a group what
the group saved. -/
def replayOnePasses (step : UndoStep) (r : Replay) (p : EditList × Nat) : List Pass :=
  let node := step.nodes.getD p.2 (0, none)
  .edit r.doc.text p.1 ::
    ((step.groups[p.2]?).elim [] fun g =>
      if step.groups[p.2 + 1]? ≠ some g then
        (r.doc.reapply p.1 node.1 node.2 r.tracked).1.restorePasses g
      else [])

/-- One list replayed carries the places by its passes. -/
theorem replayOne_carries (step : UndoStep) (r : Replay) (p : EditList × Nat) :
    Carries (r.doc, r.tracked) ((replayOne step r p).doc, (replayOne step r p).tracked)
        (replayOnePasses step r p) ∧
      listsOf (replayOnePasses step r p) = [p.1] := by
  obtain ⟨edits, i⟩ := p
  have hedit : Carries (r.doc, r.tracked)
      (r.doc.reapply edits (step.nodes.getD i (0, none)).1 (step.nodes.getD i (0, none)).2 r.tracked)
      [.edit r.doc.text edits] := ⟨.edit edits (.nil _), rfl, rfl⟩
  unfold replayOne replayOnePasses
  dsimp only
  cases step.groups[i]? with
  | none => exact ⟨hedit, rfl⟩
  | some g =>
    simp only [Option.elim_some]
    -- the marks of a group go back after its last list only
    by_cases hlast : step.groups[i + 1]? ≠ some g
    · rw [if_pos hlast, if_pos hlast]
      refine ⟨hedit.trans (restoreMarks_carries _ _ _ _), ?_⟩
      have hnone := listsOf_restorePasses
        (r.doc.reapply edits (step.nodes.getD i (0, none)).1 (step.nodes.getD i (0, none)).2
          r.tracked).1 g
      rw [← List.singleton_append, listsOf_append, hnone]
      rfl
    · rw [if_neg hlast, if_neg hlast]
      exact ⟨hedit, rfl⟩

/-- The passes of the rounds of a replay. -/
def replayPassesFrom (step : UndoStep) : List (EditList × Nat) → Replay → List Pass
  | [], _ => []
  | p :: es, r => replayOnePasses step r p ++ replayPassesFrom step es (replayOne step r p)

/-- What the rounds of a replay begin with. -/
def replayStart (d : Document) (tracked : List Tracked) : Replay :=
  ⟨d, tracked, [], (0, 0), UndoCursor.lineCount d.text, []⟩

def replayPasses (d : Document) (step : UndoStep) (tracked : List Tracked) : List Pass :=
  replayPassesFrom step step.edits.zipIdx (d.replayStart tracked)

/-- A replay makes the edits of its step, and puts saved values back between them. -/
theorem replay_carries (d : Document) (step : UndoStep) (cursor : Nat) (tracked : List Tracked) :
    Carries (d, tracked) ((d.replay step cursor tracked).1, (d.replay step cursor tracked).2.1)
        (d.replayPasses step tracked) ∧
      listsOf (d.replayPasses step tracked) = step.edits := by
  have hfold : ∀ (es : List (EditList × Nat)) (r : Replay), Carries (r.doc, r.tracked)
      ((es.foldl (replayOne step) r).doc, (es.foldl (replayOne step) r).tracked)
        (replayPassesFrom step es r) ∧ listsOf (replayPassesFrom step es r) = es.map Prod.fst := by
    intro es
    induction es with
    | nil => exact fun r => ⟨.refl _, rfl⟩
    | cons p es ih =>
      intro r
      obtain ⟨hps, hone⟩ := replayOne_carries step r p
      obtain ⟨hps', hrest⟩ := ih (replayOne step r p)
      refine ⟨hps.trans hps', ?_⟩
      rw [replayPassesFrom, listsOf_append, hone, hrest]
      rfl
  obtain ⟨hps, hlists⟩ := hfold step.edits.zipIdx (d.replayStart tracked)
  exact ⟨hps, hlists.trans (List.zipIdx_map_fst 0 step.edits)⟩

/-- The edit list of `U`, if there is a line to put back. -/
def lineUndoLists (d : Document) (cursor : Nat) : List EditList :=
  match (d.lineUndo.swap d.text cursor).2 with
  | none => []
  | some sw =>
    match EditList.new [Edit.replace sw.start (sw.stop - sw.start) sw.text] with
    | .error _ => []
    | .ok list => if list.isEmpty then [] else [list]

/-- `U` carries the places by its lists, with nothing put back. -/
theorem lineUndo_carries (d : Document) (cursor : Nat) (origin : TransactionOrigin)
    (tracked : List Tracked) : ∃ ps, Carries (d, tracked)
      ((d.lineUndoTracked cursor origin tracked).1,
        (d.lineUndoTracked cursor origin tracked).2.1) ps ∧
      listsOf ps = d.lineUndoLists cursor ∧ ∀ p ∈ ps, p.list.isSome := by
  unfold lineUndoTracked lineUndoLists
  generalize hswap : d.lineUndo.swap d.text cursor = r
  obtain ⟨lineUndo, sw⟩ := r
  cases sw with
  | none => exact ⟨[], ⟨.nil _, rfl, rfl⟩, rfl, by simp⟩
  | some sw =>
    obtain ⟨hle, hlen⟩ := LineUndo.swap_inBounds hswap
    obtain ⟨list, hlist⟩ := EditList.new_single (Edit.replace sw.start (sw.stop - sw.start) sw.text)
    have hin : list.InBounds d.text.length := by
      refine EditList.new_single_inBounds hlist ?_
      show sw.start + (sw.stop - sw.start) ≤ d.text.length
      omega
    obtain ⟨doc, t, happ⟩ := ({ d with lineUndo } : Document).applyInner_inBounds false tracked
      (((Transaction.new d.revision list origin).withHint .breakBefore).withCursor cursor) rfl hin
    dsimp only
    rw [hlist]
    dsimp only
    rw [happ]
    refine ⟨_, (applyInner_carries happ).congr rfl rfl rfl rfl rfl rfl, ?_, ?_⟩
    · exact listsOf_txnPasses _ _
    · intro p hp
      exact txnPasses_list hp

theorem reload_carries (d : Document) (bytes : Bytes) (tracked : List Tracked) :
    ∃ ps, Carries (d, tracked)
      ((d.reloadTracked bytes tracked).1, (d.reloadTracked bytes tracked).2.1) ps := by
  unfold reloadTracked
  split
  · exact ⟨[], .refl _⟩
  · dsimp only
    split
    · exact ⟨[], .nil _, rfl, rfl⟩
    · rename_i happ
      exact ⟨_, (applyInner_carries happ).congr rfl rfl rfl rfl rfl rfl⟩

end Document

end Ruse.Core
