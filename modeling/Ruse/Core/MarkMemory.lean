import Ruse.Core.Command

/-!
# What undo knows of the marks

The restorable marks of the focused view go through a command as values: the ones the view
had when a part of it began, and in an undo step the ones before each round of the replay
(`Part.moments`). What an undo group saves of them is one of these, and what a round puts
back is what a group it goes over had saved (`Part.run_recalls`). A `Memory` keeps the
values each view's marks had and the view whose marks each group last saved, so that a
group that is `Own`ed gives a view back nothing it did not have before that round
(`parts_remembered`).
-/

namespace Ruse.Core

variable {saved : List (Option Nat)} {d : Document} {group : Nat} {text : Bytes}
  {tracked : List Tracked} {txn : Transaction} {edits : EditList} {a : Acted}
  {effects : List Effect}

/-- Every value that is set in `saved` is known, by its rank. -/
def Known (known : Nat → Nat → Prop) (saved : List (Option Nat)) : Prop :=
  ∀ i p, saved[i]? = some (some p) → known i p

/-- The mark of rank `i` is at `p` in one of the lists. -/
def Held (moments : List (List (Option Nat))) (i p : Nat) : Prop :=
  ∃ l ∈ moments, l[i]? = some (some p)

theorem Known.nil (known : Nat → Nat → Prop) : Known known [] := by
  intro i p h
  cases h

theorem Known.mono {known known' : Nat → Nat → Prop} (h : Known known saved)
    (hsub : ∀ i p, known i p → known' i p) : Known known' saved :=
  fun i p hip => hsub i p (h i p hip)

/-- The values had so far, and in these lists. -/
def Seen (had : Nat → Nat → Prop) (moments : List (List (Option Nat))) (i p : Nat) : Prop :=
  had i p ∨ Held moments i p

theorem known_seen {had : Nat → Nat → Prop} {moments : List (List (Option Nat))}
    {l : List (Option Nat)} (hl : l ∈ moments) : Known (Seen had moments) l :=
  fun _ _ hip => .inr ⟨l, hl, hip⟩

theorem Seen.cons {had : Nat → Nat → Prop} {l : List (Option Nat)} {moments : List (List (Option Nat))}
    {i p : Nat} (h : Seen (Seen had [l]) moments i p) : Seen had (l :: moments) i p := by
  rcases h with (h | ⟨l', hl, hip⟩) | ⟨l', hl, hip⟩
  · exact .inl h
  · cases List.mem_singleton.mp hl
    exact .inr ⟨_, List.mem_cons_self, hip⟩
  · exact .inr ⟨l', List.mem_cons_of_mem _ hl, hip⟩

namespace Document

/-- The restorable positions before each round of a replay. -/
def momentsFrom (step : UndoStep) : List (EditList × Nat) → Replay → List (List (Option Nat))
  | [], _ => []
  | p :: es, r => restorable r.tracked :: momentsFrom step es (replayOne step r p)

def replayMoments (d : Document) (step : UndoStep) (tracked : List Tracked) :
    List (List (Option Nat)) :=
  momentsFrom step step.edits.zipIdx (d.replayStart tracked)

/-- Each value that a round of a replay puts back, its mark had before that round. -/
def PutsHadFrom (step : UndoStep) (had : Nat → Nat → Prop) : List (EditList × Nat) → Replay → Prop
  | [], _ => True
  | p :: es, r =>
    (∀ text saved, Pass.restore text saved ∈ replayOnePasses step r p →
      Known (Seen had [restorable r.tracked]) saved) ∧
    PutsHadFrom step (Seen had [restorable r.tracked]) es (replayOne step r p)

def PutsHad (had : Nat → Nat → Prop) (d : Document) (step : UndoStep) (tracked : List Tracked) : Prop :=
  PutsHadFrom step had step.edits.zipIdx (d.replayStart tracked)

theorem mem_restorePasses (h : Pass.restore text saved ∈ d.restorePasses group) :
    d.markUndo group = some saved := by
  unfold restorePasses at h
  cases hsaved : d.markUndo group with
  | none =>
    rw [hsaved] at h
    cases h
  | some saved' =>
    rw [hsaved] at h
    cases List.mem_singleton.mp h
    rfl

/-- What a group saved after an undo went over it: what it had saved, or what it was given
for the way back. -/
theorem restoreMarks_saves {before : List (Option Nat)} {g : Nat}
    (h : (d.restoreMarks group before tracked).1.markUndo g = some saved) :
    d.markUndo g = some saved ∨ saved = before := by
  unfold restoreMarks at h
  split at h
  · exact .inl h
  · dsimp only at h
    split at h
    · cases h
      exact .inr rfl
    · exact .inl h

section Replay

variable {known : Nat → Nat → Prop} {step : UndoStep} {r : Replay}

/-- A round of a replay puts back what the group it ends saved, and saves what is known. -/
theorem replayOne_recalls (p : EditList × Nat) (hnow : Known known (restorable r.tracked))
    (hbefore : Known known r.before)
    (hsaved : ∀ g ∈ step.groups, ∀ saved, r.doc.markUndo g = some saved → Known known saved) :
    (∀ text saved, Pass.restore text saved ∈ replayOnePasses step r p → Known known saved) ∧
      Known known (replayOne step r p).before ∧
      ∀ g saved, (replayOne step r p).doc.markUndo g = some saved →
        r.doc.markUndo g = some saved ∨ Known known saved := by
  obtain ⟨edits, i⟩ := p
  have hgiven : Known known
      (if i = 0 ∨ step.groups[i - 1]? ≠ step.groups[i]? then restorable r.tracked else r.before) := by
    split
    · exact hnow
    · exact hbefore
  unfold replayOne replayOnePasses
  dsimp only
  cases hg : step.groups[i]? with
  | none =>
    rw [hg] at hgiven
    refine ⟨fun text saved hmem => ?_, hgiven, fun g saved h => .inl h⟩
    cases List.mem_singleton.mp hmem
  | some g =>
    rw [hg] at hgiven
    dsimp only [Option.elim_some]
    -- only the round that ends a group restores, and it saves what the group began with
    by_cases hlast : step.groups[i + 1]? ≠ some g
    · rw [if_pos hlast, if_pos hlast]
      refine ⟨fun text saved hmem => ?_, .nil known, fun g' saved h => ?_⟩
      · rcases List.mem_cons.mp hmem with hedit | hmem
        · cases hedit
        · have hold := mem_restorePasses hmem
          exact hsaved g (List.mem_of_getElem? hg) saved hold
      · rcases restoreMarks_saves h with hold | rfl
        · exact .inl hold
        · exact .inr hgiven
    · rw [if_neg hlast, if_neg hlast]
      refine ⟨fun text saved hmem => ?_, hgiven, fun g' saved h => .inl h⟩
      cases List.mem_singleton.mp hmem

/-- Every round puts back what was known before it, and what is saved in the end is known. -/
theorem replayFrom_recalls (es : List (EditList × Nat)) (hbefore : Known known r.before)
    (hsaved : ∀ g ∈ step.groups, ∀ saved, r.doc.markUndo g = some saved → Known known saved) :
    PutsHadFrom step known es r ∧
      ∀ g saved, (es.foldl (replayOne step) r).doc.markUndo g = some saved →
        r.doc.markUndo g = some saved ∨ Known (Seen known (momentsFrom step es r)) saved := by
  induction es generalizing r known with
  | nil => exact ⟨trivial, fun g saved h => .inl h⟩
  | cons p es ih =>
    obtain ⟨hputs, hbefore', hsaves⟩ := @replayOne_recalls (Seen known [restorable r.tracked]) step r p
      (known_seen List.mem_cons_self) (hbefore.mono fun i q hq => .inl hq)
      fun g hg saved h => (hsaved g hg saved h).mono fun i q hq => .inl hq
    obtain ⟨hrest, hsaves'⟩ := ih hbefore' fun g hg saved h =>
      (hsaves g saved h).elim (fun hold => (hsaved g hg saved hold).mono fun i q hq => .inl hq) id
    refine ⟨⟨hputs, hrest⟩, fun g saved h => ?_⟩
    rcases hsaves' g saved h with hold | hknown
    · refine (hsaves g saved hold).imp id fun hknown => hknown.mono fun i q hq => ?_
      exact Seen.cons (.inl hq)
    · exact .inr (hknown.mono fun i q hq => hq.cons)

end Replay

/-- An undo step puts back what the groups it goes over saved, and what it saves is known. -/
theorem replay_recalls {known : Nat → Nat → Prop} (d : Document) (step : UndoStep) (cursor : Nat)
    (tracked : List Tracked)
    (hsaved : ∀ g ∈ step.groups, ∀ saved, d.markUndo g = some saved → Known known saved) :
    d.PutsHad known step tracked ∧
      ∀ g saved, (d.replay step cursor tracked).1.markUndo g = some saved →
        d.markUndo g = some saved ∨ Known (Seen known (d.replayMoments step tracked)) saved :=
  @replayFrom_recalls known step (d.replayStart tracked) step.edits.zipIdx (.nil known) hsaved

theorem saves_of_given {c : Prop} [Decidable c] {old : Nat → Option (List (Option Nat))} {g : Nat}
    {given : List (Option Nat)}
    (h : (if c then fun g => if g = group then some given else old g else old) g = some saved) :
    old g = some saved ∨ saved = given := by
  split at h
  · dsimp only at h
    split at h
    · cases h
      exact .inr rfl
    · exact .inl h
  · exact .inl h

theorem commit_saves {track : Bool} {g : Nat}
    (h : (d.commit txn track tracked).1.markUndo g = some saved) :
    d.markUndo g = some saved ∨ saved = restorable tracked :=
  saves_of_given h

theorem applyInner_saves {d' : Document} {track : Bool} {tracked' : List Tracked}
    (h : d.applyInner txn track tracked = .ok (d', tracked')) {g : Nat}
    (hsaved : d'.markUndo g = some saved) :
    d.markUndo g = some saved ∨ saved = restorable tracked := by
  unfold applyInner at h
  split at h
  · cases h
  · split at h
    · cases h
    · cases h
    · split at h
      · have hdoc : d.applyEmpty txn = d' := congrArg Prod.fst (Except.ok.inj h)
        rw [← hdoc] at hsaved
        exact .inl hsaved
      · have hdoc : (d.commit txn track tracked).1 = d' := congrArg Prod.fst (Except.ok.inj h)
        rw [← hdoc] at hsaved
        exact commit_saves hsaved

/-- So does `U`. -/
theorem lineUndoTracked_saves {cursor : Nat} {origin : TransactionOrigin} {g : Nat}
    (h : (d.lineUndoTracked cursor origin tracked).1.markUndo g = some saved) :
    d.markUndo g = some saved ∨ saved = restorable tracked := by
  unfold lineUndoTracked at h
  split at h
  · exact .inl h
  · dsimp only at h
    split at h
    · exact .inl h
    · split at h
      · exact .inl h
      · rename_i happ
        exact applyInner_saves happ h

theorem reloadTracked_saves {bytes : Bytes} {g : Nat}
    (h : (d.reloadTracked bytes tracked).1.markUndo g = some saved) :
    d.markUndo g = some saved ∨ saved = restorable tracked := by
  unfold reloadTracked at h
  split at h
  · exact .inl h
  · dsimp only at h
    split at h
    · exact .inl h
    · rename_i happ
      exact applyInner_saves happ h

end Document

/-! ## The parts of a command -/

theorem not_mem_editPasses {text' : Bytes} {lists : List EditList} :
    Pass.restore text saved ∉ editPasses text' lists := by
  induction lists generalizing text' with
  | nil => exact List.not_mem_nil
  | cons edits lists ih =>
    intro hmem
    rcases List.mem_cons.mp hmem with hedit | hmem
    · cases hedit
    · exact ih hmem

namespace EditorState

/-- The undo groups a plan goes over. -/
def goesOver (st : EditorState) (plan : Plan) : List Nat :=
  ((plan.action.undoMove st.doc.undo).map (·.2.groups)).getD []

/-- The restorable marks while a plan is performed: where it moves in the undo tree, before
each round of the replay. -/
def moments (st : EditorState) (plan : Plan) : List (List (Option Nat)) :=
  (plan.action.undoMove st.doc.undo).elim [restorable st.view.tracked] fun (h, step) =>
    ({ st.doc with undo := h } : Document).replayMoments step (st.jumped plan).tracked

/-- Each value that a plan puts back, its mark had before; only a move in the undo tree puts any back. -/
def PutsHad (had : Nat → Nat → Prop) (st : EditorState) (plan : Plan) : Prop :=
  (plan.action.undoMove st.doc.undo).elim (∀ text saved, Pass.restore text saved ∉ st.passes plan)
    fun (h, step) => ({ st.doc with undo := h } : Document).PutsHad had step (st.jumped plan).tracked

section Recall

variable {known : Nat → Nat → Prop} {st : EditorState} {plan : Plan}

theorem putsHad_of_none (h : plan.action.undoMove st.doc.undo = none) : st.PutsHad known plan := by
  have hstays : ¬ st.moves plan = true := by
    rw [moves, h]
    exact Bool.false_ne_true
  unfold PutsHad passes
  rw [h, if_neg hstays]
  exact fun text saved hmem => not_mem_editPasses hmem

/-- A move in the undo tree puts back what is known, and saves what is known. -/
theorem undoAct_recalls (g : Segmenter) (cells : Cells) {hist : UndoHistory} {step : UndoStep}
    (hmove : plan.action.undoMove st.doc.undo = some (hist, step))
    (hsaved : ∀ g ∈ st.goesOver plan, ∀ saved, st.doc.markUndo g = some saved → Known known saved) :
    st.PutsHad known plan ∧
    ∀ group saved, (st.undoAct g cells plan.mode fun d t =>
        (plan.action.undoMove st.doc.undo).map fun (h, step) =>
          { d with undo := h }.replay step st.view.cursor t).state.doc.markUndo
          group = some saved → st.doc.markUndo group = some saved ∨ Known (Seen known (st.moments plan)) saved := by
  have hjumped : st.jumped plan = st.view.pushJump st.view.cursor := by
    rw [jumped, moves, hmove]
    rfl
  unfold goesOver at hsaved
  unfold PutsHad moments
  rw [hmove] at hsaved ⊢
  have hreplay := ({ st.doc with undo := hist } : Document).replay_recalls step st.view.cursor
    (st.jumped plan).tracked hsaved
  refine ⟨hreplay.1, fun group saved h => hreplay.2 group saved ?_⟩
  rw [hjumped]
  exact h

theorem applyTxn_saves {st' : EditorState} (h : st.applyTxn txn = some st') {group : Nat}
    {saved : List (Option Nat)} (hsaved : st'.doc.markUndo group = some saved) :
    st.doc.markUndo group = some saved ∨ saved = restorable st.view.tracked := by
  unfold applyTxn at h
  split at h
  · rename_i doc t happ
    cases h
    exact Document.applyInner_saves happ hsaved
  · cases h

theorem edit_saves {hint : GroupHint} (h : st.edit edits hint = some a)
    (hsaved : a.state.doc.markUndo group = some saved) :
    st.doc.markUndo group = some saved ∨ saved = restorable st.view.tracked := by
  obtain ⟨st1, htxn, rfl⟩ := Option.map_eq_some_iff.mp h
  exact applyTxn_saves htxn hsaved

theorem undoAct_doc_of_none (g : Segmenter) (cells : Cells) (mode : Mode)
    {f : Document → List Tracked → Option (Document × List Tracked × UndoCursor.Placed)}
    (h : ∀ t, f st.doc t = none) : (st.undoAct g cells mode f).state.doc = st.doc := by
  unfold undoAct undoStep
  dsimp only
  rw [h]

/-- An action that does not move in the undo tree saves the marks of the view, if any. -/
theorem act_saves {g : Segmenter} {cells : Cells} (h : st.act g cells plan = some a)
    (hmove : plan.action.undoMove st.doc.undo = none)
    (hsaved : a.state.doc.markUndo group = some saved) :
    st.doc.markUndo group = some saved ∨ saved = restorable st.view.tracked := by
  unfold act at h
  cases haction : plan.action with
  | txn edits hint =>
    rw [haction] at h
    exact edit_saves h hsaved
  | replaceTxn edits hint push pop =>
    rw [haction] at h
    obtain ⟨a1, hedit, rfl⟩ := Option.map_eq_some_iff.mp h
    exact edit_saves hedit hsaved
  | blockInsertArm edits hint session =>
    rw [haction] at h
    obtain ⟨a1, hedit, rfl⟩ := Option.map_eq_some_iff.mp h
    split at hedit
    · cases hedit
      exact .inl hsaved
    · exact edit_saves hedit hsaved
  | undo =>
    rw [haction] at h hmove
    cases h
    have hnone : st.doc.undo.undo = none := hmove
    rw [undoAct_doc_of_none g cells plan.mode fun t => by
      rw [Document.undoTracked, hnone, Option.map_none]] at hsaved
    exact .inl hsaved
  | redo =>
    rw [haction] at h hmove
    cases h
    have hnone : st.doc.undo.redo = none := hmove
    rw [undoAct_doc_of_none g cells plan.mode fun t => by
      rw [Document.redoTracked, hnone, Option.map_none]] at hsaved
    exact .inl hsaved
  | undoChrono older =>
    rw [haction] at h hmove
    cases h
    have hnone : st.doc.undo.toChronological older = none := hmove
    rw [undoAct_doc_of_none g cells plan.mode fun t => by
      rw [Document.chronologicalTracked, hnone, Option.map_none]] at hsaved
    exact .inl hsaved
  | lineUndo =>
    rw [haction] at h
    cases h
    exact Document.lineUndoTracked_saves hsaved
  | _ =>
    rw [haction] at h
    cases h
    exact .inl hsaved

/-- Whatever a plan does, it puts back what is known, and saves what is known. -/
theorem act_recalls {g : Segmenter} {cells : Cells} (h : st.act g cells plan = some a)
    (hsaved : ∀ g ∈ st.goesOver plan, ∀ saved, st.doc.markUndo g = some saved → Known known saved) :
    st.PutsHad known plan ∧
    ∀ group saved, a.state.doc.markUndo group = some saved →
      st.doc.markUndo group = some saved ∨ Known (Seen known (st.moments plan)) saved := by
  cases hmove : plan.action.undoMove st.doc.undo with
  | some hs =>
    obtain ⟨hputs, hsaves⟩ := undoAct_recalls g cells hmove hsaved
    refine ⟨hputs, fun group saved hgroup => hsaves group saved ?_⟩
    unfold act at h
    cases haction : plan.action with
    | undo =>
      rw [haction] at h
      cases h
      exact hgroup
    | redo =>
      rw [haction] at h
      cases h
      exact hgroup
    | undoChrono older =>
      rw [haction] at h
      cases h
      exact hgroup
    | _ =>
      rw [haction] at hmove
      cases hmove
  | none =>
    refine ⟨putsHad_of_none hmove, fun group saved hgroup => ?_⟩
    unfold moments
    rw [hmove]
    refine (act_saves h hmove hgroup).imp id fun heq => ?_
    rw [heq]
    exact known_seen List.mem_cons_self

end Recall

end EditorState

namespace Part

/-- The undo groups a part goes over. -/
def goesOver (st : EditorState) : Part → List Nat
  | commit plan => (st.left plan).goesOver plan
  | _ => []

/-- The restorable marks of the view while a part runs. -/
def moments (st : EditorState) : Part → List (List (Option Nat))
  | commit plan => (st.left plan).moments plan
  | _ => [restorable st.view.tracked]

/-- Each value that a part puts back, its mark had before; only a commit puts any back. -/
def PutsHad (had : Nat → Nat → Prop) (st : EditorState) : Part → Prop
  | commit plan => (st.left plan).PutsHad had plan
  | p => ∀ text saved, Pass.restore text saved ∉ p.passes st

theorem exEdit_saves {st st' : EditorState} {hint : GroupHint} {origin : TransactionOrigin}
    {cursor : Nat} (h : st.exEdit edits hint origin cursor = some st')
    (hsaved : st'.doc.markUndo group = some saved) :
    st.doc.markUndo group = some saved ∨ saved = restorable st.view.tracked := by
  obtain ⟨st1, htxn, rfl⟩ := Option.map_eq_some_iff.mp h
  exact EditorState.applyTxn_saves htxn hsaved

theorem not_mem_exPasses {st : EditorState} : Pass.restore text saved ∉ st.exPasses edits := by
  unfold EditorState.exPasses
  split <;> simp

/-- A part puts back what the groups it goes over saved, and what it saves is known. -/
theorem run_recalls {known : Nat → Nat → Prop} {g : Segmenter} {cells : Cells}
    {st st' : EditorState} {p : Part} {effects : List Effect}
    (h : p.run g cells st = some (st', effects))
    (hsaved : ∀ g ∈ p.goesOver st, ∀ saved, st.doc.markUndo g = some saved → Known known saved) :
    p.PutsHad known st ∧
    ∀ group saved, st'.doc.markUndo group = some saved →
      st.doc.markUndo group = some saved ∨ Known (Seen known (p.moments st)) saved := by
  have hex {saved : List (Option Nat)} {old : Prop} (hor : old ∨ saved = restorable st.view.tracked) :
      old ∨ Known (Seen known [restorable st.view.tracked]) saved := by
    refine hor.imp id fun heq => ?_
    rw [heq]
    exact known_seen List.mem_cons_self
  cases p with
  | commit plan =>
    have hcommit : Core.commit g cells st plan = some (st', effects) := h
    by_cases harms : plan.action.armsRegister = true
    · have hdoc : st'.doc = st.doc ∧ plan.action.undoMove (st.left plan).doc.undo = none := by
        cases haction : plan.action with
        | setPending name =>
          unfold Core.commit at hcommit
          rw [haction] at hcommit
          cases hcommit
          exact ⟨rfl, rfl⟩
        | setExprPending result =>
          unfold Core.commit at hcommit
          rw [haction] at hcommit
          cases hcommit
          exact ⟨rfl, rfl⟩
        | _ =>
          rw [haction] at harms
          cases harms
      rw [hdoc.1]
      exact ⟨EditorState.putsHad_of_none hdoc.2, fun group saved hg => .inl hg⟩
    · rw [commit_eq g cells st (Bool.eq_false_iff.mpr harms)] at hcommit
      obtain ⟨a, hact, heq⟩ := Option.map_eq_some_iff.mp hcommit
      cases heq
      exact EditorState.act_recalls hact hsaved
  | edit edits hint origin cursor =>
    obtain ⟨st1, hedit, heq⟩ := Option.map_eq_some_iff.mp h
    cases heq
    exact ⟨fun text saved => not_mem_exPasses, fun group saved hg => hex (exEdit_saves hedit hg)⟩
  | substitute edits cursor =>
    obtain ⟨st1, hedit, heq⟩ := Option.map_eq_some_iff.mp h
    cases heq
    exact ⟨fun text saved => not_mem_exPasses, fun group saved hg => hex (exEdit_saves hedit hg)⟩
  | note n =>
    cases h
    refine ⟨fun text saved => List.not_mem_nil, fun group saved hg => ?_⟩
    cases n <;> exact .inl hg
  | _ =>
    cases h
    exact ⟨fun text saved => List.not_mem_nil, fun group saved hg => .inl hg⟩

end Part

/-! ## The memory of a run -/

/-- What a run has shown of the marks: the values each restorable mark of each view had,
by its rank, and of each buffer the view whose marks an undo group last saved. -/
structure Memory where
  had : (vid i p : Nat) → Prop
  owner : (id group : Nat) → Option Nat

namespace Memory

/-- After a part that took view `vid` of buffer `id` from `st` to `st'`. -/
def part (m : Memory) (vid id : Nat) (st : EditorState) (p : Part) (st' : EditorState) : Memory where
  had v i q := m.had v i q ∨ v = vid ∧ Held (p.moments st) i q
  owner j group :=
    if j = id ∧ (group ∈ p.goesOver st ∨ st'.doc.markUndo group ≠ st.doc.markUndo group) then
      some vid
    else m.owner j group

def parts (g : Segmenter) (cells : Cells) (vid id : Nat) : List Part → EditorState → Memory → Memory
  | [], _, m => m
  | p :: ps, st, m =>
    (p.run g cells st).elim m fun (st', _) => parts g cells vid id ps st' (m.part vid id st p st')

/-- Each value that the parts put back in a mark of the view, it had before. -/
def PutsHad (g : Segmenter) (cells : Cells) (vid id : Nat) : List Part → EditorState → Memory → Prop
  | [], _, _ => True
  | p :: ps, st, m =>
    p.PutsHad (m.had vid) st ∧
    (p.run g cells st).elim True fun (st', _) => PutsHad g cells vid id ps st' (m.part vid id st p st')

/-- Each undo group the command goes over has saved no mark that was set, or has last
saved the marks of the view the command runs in. -/
def Own (g : Segmenter) (cells : Cells) (vid id : Nat) : List Part → EditorState → Memory → Prop
  | [], _, _ => True
  | p :: ps, st, m =>
    (∀ group ∈ p.goesOver st, ∀ saved ∈ st.doc.markUndo group,
      (∀ x ∈ saved, x = none) ∨ m.owner id group = some vid) ∧
    (p.run g cells st).elim True fun (st', _) =>
      Own g cells vid id ps st' (m.part vid id st p st')

instance decidableOwn (g : Segmenter) (cells : Cells) (vid id : Nat) :
    (ps : List Part) → (st : EditorState) → (m : Memory) → Decidable (m.Own g cells vid id ps st)
  | [], _, _ => .isTrue trivial
  | p :: ps, st, m =>
    have : Decidable ((p.run g cells st).elim True fun (st', _) =>
        Own g cells vid id ps st' (m.part vid id st p st')) :=
      match p.run g cells st with
      | none => .isTrue trivial
      | some (st', _) => decidableOwn g cells vid id ps st' (m.part vid id st p st')
    inferInstanceAs (Decidable (_ ∧ _))

/-- What the undo groups of a document have saved is what the marks of their views had. -/
def Tells (m : Memory) (id : Nat) (doc : Document) : Prop :=
  ∀ group saved, doc.markUndo group = some saved →
    ∃ v, m.owner id group = some v ∧ Known (m.had v) saved

section Parts

variable {g : Segmenter} {cells : Cells} {vid id : Nat} {m : Memory} {st st' : EditorState}

/-- A part of a command in view `vid`. -/
theorem part_remembered {p : Part} (hm : m.Tells id st.doc)
    (hown : ∀ group ∈ p.goesOver st, ∀ saved, st.doc.markUndo group = some saved → (∀ x ∈ saved, x = none) ∨ m.owner id group = some vid)
    (h : p.run g cells st = some (st', effects)) :
    p.PutsHad (m.had vid) st ∧ (m.part vid id st p st').Tells id st'.doc := by
  -- what a group gone over has saved, the view's marks had
  have hover : ∀ group ∈ p.goesOver st, ∀ saved, st.doc.markUndo group = some saved →
      Known (m.had vid) saved := by
    intro group hgroup saved hsaved i q hiq
    rcases hown group hgroup saved hsaved with hnone | howner
    · cases hnone _ (List.mem_of_getElem? hiq)
    · obtain ⟨v, hv, hknown⟩ := hm group saved hsaved
      rw [howner] at hv
      cases hv
      exact hknown i q hiq
  obtain ⟨hputs, hsaves⟩ := Part.run_recalls h hover
  refine ⟨hputs, fun group saved hsaved => ?_⟩
  -- a group gone over, or written, is this view's from here on; any other is as it was
  by_cases htold : group ∈ p.goesOver st ∨ st'.doc.markUndo group ≠ st.doc.markUndo group
  · refine ⟨vid, if_pos ⟨rfl, htold⟩, ?_⟩
    rcases hsaves group saved hsaved with hold | hknown
    · rcases htold with hgroup | hne
      · exact (hover group hgroup saved hold).mono fun i q hq => .inl hq
      · exact absurd (hsaved.trans hold.symm) hne
    · exact hknown.mono fun i q hq => hq.imp_right fun hheld => ⟨rfl, hheld⟩
  · have hsame : st'.doc.markUndo group = st.doc.markUndo group :=
      not_not.mp fun hne => htold (.inr hne)
    obtain ⟨v, hv, hknown⟩ := hm group saved (hsame ▸ hsaved)
    refine ⟨v, ?_, hknown.mono fun i q hq => .inl hq⟩
    show (if _ then _ else _) = _
    rw [if_neg fun hc => htold hc.2, hv]

theorem parts_had (ps : List Part) {v i q : Nat} (h : m.had v i q) :
    (parts g cells vid id ps st m).had v i q := by
  induction ps generalizing st m with
  | nil => exact h
  | cons p ps ih =>
    unfold parts
    cases p.run g cells st with
    | none => exact h
    | some r => exact ih (.inl h)

theorem parts_owner (ps : List Part) {j : Nat} (hj : j ≠ id) :
    (parts g cells vid id ps st m).owner j = m.owner j := by
  induction ps generalizing st m with
  | nil => rfl
  | cons p ps ih =>
    unfold parts
    cases p.run g cells st with
    | none => rfl
    | some r =>
      refine (@ih (m.part vid id st p r.1) r.1).trans ?_
      funext group
      exact if_neg fun hc => hj hc.1

/-- A command whose undo groups are the view's own puts back only what the view's marks
had. -/
theorem parts_remembered {ps : List Part} (hm : m.Tells id st.doc)
    (hown : Own g cells vid id ps st m) (h : runParts g cells ps st = some (st', effects)) :
    PutsHad g cells vid id ps st m ∧ (parts g cells vid id ps st m).Tells id st'.doc := by
  induction ps generalizing st m effects with
  | nil =>
    cases h
    exact ⟨trivial, hm⟩
  | cons p ps ih =>
    obtain ⟨⟨st1, effects1⟩, hp, hrest⟩ := Option.bind_eq_some_iff.mp h
    obtain ⟨⟨st2, effects2⟩, hps, heq⟩ := Option.map_eq_some_iff.mp hrest
    cases heq
    obtain ⟨hputs, htells⟩ := part_remembered hm hown.1 hp
    have hrest := hown.2
    rw [hp] at hrest
    obtain ⟨hputs', htells'⟩ := ih htells hrest hps
    unfold PutsHad parts
    rw [hp]
    exact ⟨⟨hputs, hputs'⟩, htells'⟩

end Parts

end Memory

end Ruse.Core
