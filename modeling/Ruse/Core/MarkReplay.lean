import Ruse.Core.AnchorFar
import Ruse.Core.DocumentStep

/-!
# What an undo step does to the tracked positions

The loop of `replay` looks at the groups either side of each edit list. Cut where the
group changes, a step is a sequence of runs, one group each, and on the text, the
tracked positions and the saved marks the loop crosses them one by one
(`replay_runs`): the lists of a run are applied, then the marks the group saved are
put back and the ones before the run kept in their place (`MarkState.cross`).
-/

namespace Ruse.Core

/-- The text, the tracked positions, and the marks saved for each undo group. -/
structure MarkState where
  text : Bytes
  tracked : List Tracked
  markUndo : Nat → Option (List (Option Nat))

namespace MarkState

def edit (s : MarkState) (edits : EditList) : MarkState :=
  { s with
    text := edits.applyTo s.text
    tracked := s.tracked.map (·.apply ⟨s.text, edits.applyTo s.text, edits.edits⟩) }

/-- `restore_marks`. -/
def restore (s : MarkState) (group : Nat) (before : List (Option Nat)) : MarkState :=
  match s.markUndo group with
  | none => s
  | some saved =>
    { s with
      tracked := restoreTracked s.text s.tracked saved
      markUndo := fun g => if g = group then some before else s.markUndo g }

/-- The edit lists of one group, then its marks. -/
def cross (s : MarkState) (run : Nat × List EditList) : MarkState :=
  (run.2.foldl edit s).restore run.1 (restorable s.tracked)

end MarkState

namespace Document

/-- What of a document and its caller's positions `MarkState` keeps. -/
def markState (d : Document) (tracked : List Tracked) : MarkState :=
  ⟨d.text, tracked, d.markUndo⟩

def Replay.marks (r : Replay) : MarkState := r.doc.markState r.tracked

theorem restoreMarks_marks (d : Document) (group : Nat) (before : List (Option Nat))
    (tracked : List Tracked) :
    (d.restoreMarks group before tracked).1.markState (d.restoreMarks group before tracked).2 =
      (d.markState tracked).restore group before := by
  simp only [restoreMarks, MarkState.restore, markState]
  cases d.markUndo group <;> rfl

section
variable {step : UndoStep} {g i : Nat} (hg : step.groups[i]? = some g) (r : Replay)
  (edits : EditList)
include hg

/-- One round inside a run: the edit list, and `before` kept or taken. -/
theorem replayOne_inside (hnext : step.groups[i + 1]? = some g) :
    (replayOne step r (edits, i)).marks = r.marks.edit edits ∧
      (replayOne step r (edits, i)).before =
        if i = 0 ∨ step.groups[i - 1]? ≠ some g then restorable r.tracked else r.before := by
  unfold replayOne
  simp only [hg, hnext, ne_eq, not_true_eq_false, if_false]
  exact ⟨rfl, trivial⟩

theorem replayOne_last (hnext : step.groups[i + 1]? ≠ some g) :
    (replayOne step r (edits, i)).marks = (r.marks.edit edits).restore g
      (if i = 0 ∨ step.groups[i - 1]? ≠ some g then restorable r.tracked else r.before) := by
  unfold replayOne
  simp only [hg, hnext, ne_eq, not_false_eq_true, if_true]
  exact restoreMarks_marks _ _ _ _

end

/-- What is left of a run: its lists, then its marks, against the `before` the first of
these rounds takes or finds. -/
theorem replay_part {step : UndoStep} {g : Nat} (es : List EditList) {i : Nat} (r : Replay)
    (hne : es ≠ []) (hin : ∀ j < es.length, step.groups[i + j]? = some g)
    (hnext : step.groups[i + es.length]? ≠ some g) :
    ((es.zipIdx i).foldl (replayOne step) r).marks =
      (es.foldl MarkState.edit r.marks).restore g
        (if i = 0 ∨ step.groups[i - 1]? ≠ some g then restorable r.tracked else r.before) := by
  induction es generalizing i r with
  | nil => exact absurd rfl hne
  | cons e es ih =>
    have hg : step.groups[i]? = some g := hin 0 (Nat.succ_pos _)
    rw [List.zipIdx_cons, List.foldl_cons]
    cases es with
    | nil =>
      rw [List.zipIdx_nil, List.foldl_nil, replayOne_last hg r e hnext]
      rfl
    | cons e' es =>
      have hnext' : step.groups[i + 1]? = some g := hin 1 (by simp)
      obtain ⟨hmarks, hbefore⟩ := replayOne_inside hg r e hnext'
      -- the round after this one is in the run, so it finds what this one took
      have hkeep : ¬ (i + 1 = 0 ∨ step.groups[i + 1 - 1]? ≠ some g) := by
        rintro (h | h)
        · omega
        · exact h hg
      rw [ih _ (List.cons_ne_nil _ _)
        (fun j hj => by
          have := hin (j + 1) (Nat.succ_lt_succ hj)
          rwa [show i + (j + 1) = i + 1 + j by omega] at this)
        (by rwa [show i + 1 + (e' :: es).length = i + (e :: e' :: es).length by
              simp only [List.length_cons]; omega]),
        if_neg hkeep, hmarks, hbefore]
      rfl

/-- A whole run is crossed. -/
theorem replay_run {step : UndoStep} {g : Nat} (es : List EditList) {i : Nat} (r : Replay)
    (hne : es ≠ []) (hprev : i = 0 ∨ step.groups[i - 1]? ≠ some g)
    (hin : ∀ j < es.length, step.groups[i + j]? = some g)
    (hnext : step.groups[i + es.length]? ≠ some g) :
    ((es.zipIdx i).foldl (replayOne step) r).marks = r.marks.cross (g, es) := by
  rw [replay_part es r hne hin hnext, if_pos hprev]
  rfl

/-- The groups of a step cut into runs. -/
def runGroups (runs : List (Nat × List EditList)) : List Nat :=
  runs.flatMap fun run => List.replicate run.2.length run.1

/-- A step is a sequence of runs, each of one group and the next of another. -/
structure Runs (step : UndoStep) (runs : List (Nat × List EditList)) : Prop where
  edits : step.edits = runs.flatMap Prod.snd
  groups : step.groups = runGroups runs
  nonempty : ∀ run ∈ runs, run.2 ≠ []
  apart : runs.IsChain fun a b => a.1 ≠ b.1

theorem runGroups_cons (run : Nat × List EditList) (runs : List (Nat × List EditList)) :
    runGroups (run :: runs) = List.replicate run.2.length run.1 ++ runGroups runs := by
  simp [runGroups]

theorem runGroups_head {runs : List (Nat × List EditList)} (h : ∀ run ∈ runs, run.2 ≠ []) :
    (runGroups runs)[0]? = runs.head?.map Prod.fst := by
  cases runs with
  | nil => rfl
  | cons run runs =>
    have hlen := List.length_pos_of_ne_nil (h run List.mem_cons_self)
    rw [runGroups_cons, List.getElem?_append_left (by rw [List.length_replicate]; exact hlen),
      List.getElem?_replicate, if_pos hlen]
    rfl

/-- Replaying a step crosses its runs of equal groups one after the other. -/
theorem replay_runs_from {step : UndoStep} (runs : List (Nat × List EditList))
    {front : List Nat} (r : Replay) (hgroups : step.groups = front ++ runGroups runs)
    (hne : ∀ run ∈ runs, run.2 ≠ []) (hapart : runs.IsChain fun a b => a.1 ≠ b.1)
    (hfront : ∀ run ∈ runs.head?, front = [] ∨ front.getLast? ≠ some run.1) :
    (((runs.flatMap Prod.snd).zipIdx front.length).foldl (replayOne step) r).marks =
      runs.foldl MarkState.cross r.marks := by
  induction runs generalizing front r with
  | nil => rfl
  | cons run runs ih =>
    obtain ⟨g, es⟩ := run
    have hes : es ≠ [] := hne (g, es) List.mem_cons_self
    have hrest : ∀ run ∈ runs, run.2 ≠ [] := fun run hrun => hne run (List.mem_cons_of_mem _ hrun)
    have hpos := List.length_pos_of_ne_nil hes
    have hgroups' : step.groups = front ++ List.replicate es.length g ++ runGroups runs := by
      rw [hgroups, runGroups_cons, List.append_assoc]
    have hlen : (front ++ List.replicate es.length g).length = front.length + es.length := by
      rw [List.length_append, List.length_replicate]
    have hget (j : Nat) : step.groups[front.length + j]? =
        (List.replicate es.length g ++ runGroups runs)[j]? := by
      rw [hgroups', List.append_assoc, List.getElem?_append_right (Nat.le_add_right _ _),
        Nat.add_sub_cancel_left]
    have hin : ∀ j < es.length, step.groups[front.length + j]? = some g := by
      intro j hj
      rw [hget, List.getElem?_append_left (by rw [List.length_replicate]; exact hj),
        List.getElem?_replicate, if_pos hj]
    have hnext : step.groups[front.length + es.length]? ≠ some g := by
      rw [hget, List.getElem?_append_right (by rw [List.length_replicate]), List.length_replicate,
        Nat.sub_self, runGroups_head hrest]
      intro hhead
      cases runs with
      | nil => cases hhead
      | cons run' runs =>
        have hapart' := (List.isChain_cons_cons.mp hapart).1
        simp only [List.head?_cons, Option.map_some, Option.some.injEq] at hhead
        exact hapart' hhead.symm
    have hprev : front.length = 0 ∨ step.groups[front.length - 1]? ≠ some g := by
      rcases hfront (g, es) rfl with hnil | hlast
      · exact .inl (by rw [hnil]; rfl)
      · rcases Nat.eq_zero_or_pos front.length with hzero | hlt
        · exact .inl hzero
        · refine .inr ?_
          rw [hgroups, List.getElem?_append_left (by omega), ← List.getLast?_eq_getElem?]
          exact hlast
    rw [List.flatMap_cons, List.zipIdx_append, List.foldl_append, List.foldl_cons]
    have hrun := replay_run es r hes hprev hin hnext
    rw [← hlen, ih _ hgroups' hrest hapart.tail ?_, hrun]
    intro run' hrun'
    refine .inr ?_
    rw [List.getLast?_append_of_ne_nil _ (by simp [hes]), List.getLast?_replicate]
    intro hlast
    cases runs with
    | nil => cases hrun'
    | cons run'' runs =>
      cases hrun'
      rw [if_neg (by omega)] at hlast
      exact (List.isChain_cons_cons.mp hapart).1 (Option.some.inj hlast)

/-- On the marks a step crosses its runs one after the other. -/
theorem replay_runs (d : Document) {st : UndoStep} {runs : List (Nat × List EditList)}
    (h : Runs st runs) (cursor : Nat) (tracked : List Tracked) :
    (d.replay st cursor tracked).1.markState (d.replay st cursor tracked).2.1 =
      runs.foldl MarkState.cross (d.markState tracked) := by
  have hgroups : st.groups = [] ++ runGroups runs := h.groups
  have hfold := replay_runs_from runs
    ⟨d, tracked, [], (0, 0), UndoCursor.lineCount d.text, []⟩ hgroups h.nonempty h.apart
    (fun _ _ => .inl rfl)
  rw [← h.edits] at hfold
  exact hfold

end Document

end Ruse.Core
