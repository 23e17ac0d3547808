import Ruse.Core.DocumentStep
import Mathlib.Data.List.Sort

/-!
# Chronological moves

`g-` and `g+` step through `groupTips`, the last node of each group in creation
order. The list is exactly the tips (`mem_groupTips`), strictly increasing from
the root to the newest node, and `current` is always one of them; so a move finds
its place and its target (`toChronological_older`, `toChronological_newer`), and
the moves repeated from any reachable document walk the list to either end
(`chronological_complete`).
-/

namespace Ruse.Core

namespace UndoHistory

/-! ## The tips -/

/-- The group tips are the nodes with no next one, or one of another group. -/
theorem groupTips_go (h : UndoHistory) (a n : Nat) :
    groupTips.go h (List.range' a n) =
      (List.range' a n).filter fun i =>
        decide (i + 1 < a + n → h.groupOf (i + 1) ≠ h.groupOf i) := by
  induction n generalizing a with
  | zero => rfl
  | succ n ih =>
    cases n with
    | zero =>
      have hlast : (a + 1 < a + (0 + 1) → h.groupOf (a + 1) ≠ h.groupOf a) := fun hlt => by omega
      rw [List.range'_one, groupTips.go, List.filter_cons, if_pos (decide_eq_true hlast),
        List.filter_nil]
    | succ n =>
      have hrest := ih (a + 1)
      have hsum : a + 1 + (n + 1) = a + (n + 1 + 1) := by omega
      rw [hsum] at hrest
      rw [List.range'_succ, List.filter_cons, ← hrest, List.range'_succ, groupTips.go]
      have hin : a + 1 < a + (n + 1 + 1) := by omega
      simp only [hin, forall_const, groupOf, decide_eq_true_eq]

theorem groupTips_eq {h : UndoHistory} (ht : Tree h) :
    h.groupTips = (List.range h.size).filter fun i =>
      decide (i + 1 < h.size → h.groupOf (i + 1) ≠ h.groupOf i) := by
  have hgo := groupTips_go h 0 h.size
  rw [← List.range_eq_range', Nat.zero_add] at hgo
  rw [groupTips, ht.chronological, hgo]

theorem mem_groupTips {h : UndoHistory} (ht : Tree h) {i : Nat} :
    i ∈ h.groupTips ↔ h.GroupTip i := by
  rw [groupTips_eq ht, List.mem_filter, List.mem_range, GroupTip, decide_eq_true_eq]

theorem groupTips_sorted {h : UndoHistory} (ht : Tree h) : h.groupTips.Pairwise (· < ·) := by
  rw [groupTips_eq ht]
  exact List.pairwise_lt_range.filter _

theorem groupTip_root {h : UndoHistory} (ht : Tree h) : h.GroupTip 0 := by
  refine ⟨ht.nonempty, fun hlt hg => ?_⟩
  have := ht.group_pos 1 hlt Nat.one_pos
  rw [Nat.zero_add, ht.root_group] at hg
  omega

theorem groupTip_newest {h : UndoHistory} (ht : Tree h) : h.GroupTip (h.size - 1) := by
  have := ht.nonempty
  exact ⟨by omega, fun hlt => by omega⟩

theorem Relinked.groupTips {h h' : UndoHistory} (hr : Relinked h h') (ht : Tree h)
    (ht' : Tree h') : h'.groupTips = h.groupTips := by
  rw [groupTips_eq ht', groupTips_eq ht, hr.size, hr.groupOf]

theorem groupTips_head {h : UndoHistory} (ht : Tree h) : h.groupTips.head? = some 0 := by
  have hmem := (mem_groupTips ht).mpr (groupTip_root ht)
  cases htips : h.groupTips with
  | nil =>
    rw [htips] at hmem
    cases hmem
  | cons a rest =>
    have hsorted := groupTips_sorted ht
    rw [htips] at hsorted hmem
    rcases List.mem_cons.mp hmem with rfl | hrest
    · rfl
    · have := (List.pairwise_cons.mp hsorted).1 0 hrest
      omega

theorem groupTips_last {h : UndoHistory} (ht : Tree h) :
    h.groupTips.getLast? = some (h.size - 1) := by
  have hmem := (mem_groupTips ht).mpr (groupTip_newest ht)
  have hne := List.ne_nil_of_mem hmem
  rw [List.getLast?_eq_getLast_of_ne_nil hne]
  have hlast := (mem_groupTips ht).mp (List.getLast_mem hne)
  have hle : h.size - 1 ≤ h.groupTips.getLast hne :=
    ((groupTips_sorted ht).imp (fun hab => Nat.le_of_lt hab)).rel_getLast hmem
  have := hlast.1
  congr 1
  omega

/-- Place `pos` of the tips holds `current`. -/
def AtPlace (h : UndoHistory) (pos : Nat) : Prop := h.groupTips[pos]? = some h.current

theorem WF.exists_place {h : UndoHistory} (hw : WF h) : ∃ pos, h.AtPlace pos := by
  have hmem := (mem_groupTips hw.toTree).mpr hw.tip
  obtain ⟨pos, hlt, hpos⟩ := List.getElem_of_mem hmem
  exact ⟨pos, by rw [AtPlace, List.getElem?_eq_getElem hlt, hpos]⟩

theorem AtPlace.idxOf {h : UndoHistory} {pos : Nat} (hw : WF h) (hp : h.AtPlace pos) :
    h.groupTips.idxOf? h.current = some pos := by
  obtain ⟨hlt, hget⟩ := List.getElem?_eq_some_iff.mp hp
  have hnodup : h.groupTips.Nodup := (groupTips_sorted hw.toTree).imp (fun hab => Nat.ne_of_lt hab)
  have hidx := hnodup.idxOf_getElem pos hlt
  rw [hget] at hidx
  rw [List.idxOf?_eq_some_iff]
  refine ⟨hlt, hget, fun j hj heq => ?_⟩
  have := (List.Nodup.getElem_inj_iff hnodup).mp (heq.trans hget.symm)
  omega

/-! ## One move -/

/-- `navigate_to` reaches the group tip at any other place of the order. -/
theorem navigateTo_place {h : UndoHistory} (hw : WF h) {pos pos' : Nat} (hp : h.AtPlace pos)
    (hlt : pos' < h.groupTips.length) (hne : pos' ≠ pos) :
    ∃ h' step, h.navigateTo (h.groupTips.getD pos' 0) = some (h', step) ∧
      Moved h h' step ∧ h'.AtPlace pos' := by
  have hget : h.groupTips.getD pos' 0 = h.groupTips[pos'] := by
    rw [List.getD_eq_getElem _ _ hlt]
  rw [hget]
  have htip := (mem_groupTips hw.toTree).mp (List.getElem_mem hlt)
  have hcur : h.groupTips[pos'] ≠ h.current := by
    obtain ⟨hplt, hpget⟩ := List.getElem?_eq_some_iff.mp hp
    have hnodup : h.groupTips.Nodup :=
      (groupTips_sorted hw.toTree).imp (fun hab => Nat.ne_of_lt hab)
    intro heq
    exact hne ((List.Nodup.getElem_inj_iff hnodup).mp (heq.trans hpget.symm))
  cases hn : h.navigateTo h.groupTips[pos'] with
  | none =>
    unfold navigateTo at hn
    rw [if_neg hcur] at hn
    cases hn
  | some r =>
    obtain ⟨h', step⟩ := r
    obtain ⟨hm, hcur'⟩ := navigateTo_moved hw htip hn
    refine ⟨h', step, rfl, hm, ?_⟩
    rw [AtPlace, hm.crossed.relinked.groupTips hw.toTree hm.tree, hcur',
      List.getElem?_eq_getElem hlt]

theorem toChronological_eq {h : UndoHistory} (hw : WF h) {pos : Nat} (hp : h.AtPlace pos)
    (older : Bool) :
    h.toChronological older =
      (chronologicalTarget older pos h.groupTips.length).bind
        fun target => h.navigateTo (h.groupTips.getD target 0) := by
  simp only [toChronological, hp.idxOf hw]
  rfl

/-- `g-` reaches the tip before, and only the root has none. -/
theorem toChronological_older {h : UndoHistory} (hw : WF h) {pos : Nat} (hp : h.AtPlace pos) :
    (pos = 0 ∧ h.toChronological true = none) ∨
    (0 < pos ∧ ∃ h' step, h.toChronological true = some (h', step) ∧ Moved h h' step ∧
      h'.AtPlace (pos - 1)) := by
  obtain ⟨hlt, -⟩ := List.getElem?_eq_some_iff.mp hp
  rw [toChronological_eq hw hp]
  rcases Nat.eq_zero_or_pos pos with rfl | hpos
  · exact .inl ⟨rfl, rfl⟩
  · obtain ⟨h', step, hn, hm, hplace⟩ :=
      navigateTo_place hw hp (by omega : pos - 1 < _) (by omega)
    refine .inr ⟨hpos, h', step, ?_, hm, hplace⟩
    rw [chronologicalTarget, if_pos rfl, if_neg (by omega), Option.bind_some, hn]

/-- `g+` reaches the tip after, and only the newest has none. -/
theorem toChronological_newer {h : UndoHistory} (hw : WF h) {pos : Nat} (hp : h.AtPlace pos) :
    (pos + 1 = h.groupTips.length ∧ h.toChronological false = none) ∨
    (pos + 1 < h.groupTips.length ∧ ∃ h' step, h.toChronological false = some (h', step) ∧
      Moved h h' step ∧ h'.AtPlace (pos + 1)) := by
  obtain ⟨hlt, -⟩ := List.getElem?_eq_some_iff.mp hp
  rw [toChronological_eq hw hp]
  by_cases hnext : pos + 1 < h.groupTips.length
  · obtain ⟨h', step, hn, hm, hplace⟩ := navigateTo_place hw hp hnext (by omega)
    refine .inr ⟨hnext, h', step, ?_, hm, hplace⟩
    rw [chronologicalTarget, if_neg Bool.false_ne_true, if_pos hnext, Option.bind_some, hn]
  · refine .inl ⟨by omega, ?_⟩
    rw [chronologicalTarget, if_neg Bool.false_ne_true, if_neg hnext]
    rfl

/-- A move of the tree goes from the current node to the new one by inverses, then forward edits.
-/
theorem Move.moved {h h' : UndoHistory} {step : UndoStep} (hw : WF h) (hm : h.Move h' step) :
    Moved h h' step := by
  rcases hm with hu | hr | ⟨older, hc⟩
  · exact undo_moved hw hu
  · exact redo_moved hw hr
  · obtain ⟨pos, hp⟩ := hw.exists_place
    cases older with
    | true =>
      rcases toChronological_older hw hp with ⟨-, hnone⟩ | ⟨-, h₁, step₁, hsome, hmoved, -⟩
      · rw [hnone] at hc
        cases hc
      · rw [hsome] at hc
        cases hc
        exact hmoved
    | false =>
      rcases toChronological_newer hw hp with ⟨-, hnone⟩ | ⟨-, h₁, step₁, hsome, hmoved, -⟩
      · rw [hnone] at hc
        cases hc
      · rw [hsome] at hc
        cases hc
        exact hmoved

theorem relinked_sync (h : UndoHistory) : Relinked h h.sync :=
  ⟨rfl, fun _ => rfl, rfl, rfl, rfl⟩

theorem WF.sync {h : UndoHistory} (hw : WF h) : WF h.sync :=
  { (relinked_sync h).tree hw.toTree hw.redoChild with
    tip := hw.tip
    newest := hw.newest }

end UndoHistory

namespace Document

open Ruse.Lib

/-! ## Every reachable history -/

theorem InnerStep.wf {a b : Inner} (h : InnerStep a b) (hw : a.undo.WF) : b.undo.WF := by
  cases h with
  | sync => exact hw.sync
  | empty => exact hw
  | fresh => exact UndoHistory.wf_record hw _ _ _ _ _ _
  | move hm => exact (hm.moved hw).wf

theorem InnerSteps.wf {a b : Inner} (h : InnerSteps a b) (hw : a.undo.WF) : b.undo.WF := by
  induction h with
  | refl => exact hw
  | tail _ hstep ih => exact hstep.wf ih

theorem step_wf (d : Document) (op : Op) (hw : d.undo.WF) : (step d op).undo.WF := by
  obtain ⟨c, hc, hundo, -, -⟩ := step_inner_undo d op
  rw [hundo]
  exact hc.wf hw

theorem run_wf (initial : Bytes) (revision : Nat) (ops : List Op) :
    (run step (startingAt initial revision) ops).undo.WF :=
  run_invariant (P := fun d : Document => d.undo.WF) step_wf (UndoHistory.wf_new revision) ops

/-! ## Repeated moves -/

theorem chronologicalTracked_undo {d : Document} {older : Bool} (cursor : Nat)
    (tracked : List Tracked) {h : UndoHistory} {st : UndoStep}
    (hc : d.undo.toChronological older = some (h, st)) :
    ∃ d' r, d.chronologicalTracked older cursor tracked = some (d', r) ∧ d'.undo = h := by
  refine ⟨({ d with undo := h }.replay st cursor tracked).1,
    ({ d with undo := h }.replay st cursor tracked).2, ?_, ?_⟩
  · rw [chronologicalTracked, hc]
    rfl
  · obtain ⟨s, -, hfold⟩ := replayFold_inner st st.edits.zipIdx
      ⟨{ d with undo := h }, tracked, [], (0, 0), UndoCursor.lineCount d.text, []⟩
    exact congrArg Inner.undo hfold

/-- `g-` or `g+` repeated, each time with its own caret and tracked positions. -/
def chronologicalMoves (older : Bool) : List (Nat × List Tracked) → Document → Option Document
  | [], d => some d
  | (cursor, tracked) :: args, d =>
    (d.chronologicalTracked older cursor tracked).bind fun r =>
      chronologicalMoves older args r.1

/-- Repeated `g-` visits the earlier tips, newest first. -/
theorem chronologicalMoves_older {d : Document} (hw : d.undo.WF) {pos : Nat}
    (hp : d.undo.AtPlace pos) (args : List (Nat × List Tracked)) :
    (args.length ≤ pos →
      ∃ d', chronologicalMoves true args d = some d' ∧ d'.undo.AtPlace (pos - args.length) ∧
        d'.undo.groupTips = d.undo.groupTips) ∧
    (pos < args.length → chronologicalMoves true args d = none) := by
  induction args generalizing d pos with
  | nil => exact ⟨fun _ => ⟨d, rfl, hp, rfl⟩, fun hlt => absurd hlt (Nat.not_lt_zero _)⟩
  | cons arg args ih =>
    obtain ⟨cursor, tracked⟩ := arg
    rw [List.length_cons]
    rcases UndoHistory.toChronological_older hw hp with ⟨rfl, hnone⟩ | ⟨hpos, h, st, hc, hm, hplace⟩
    · refine ⟨fun hle => absurd hle (Nat.not_succ_le_zero _), fun _ => ?_⟩
      rw [chronologicalMoves, chronologicalTracked, hnone]
      rfl
    · obtain ⟨d', r, hmove, hundo⟩ := chronologicalTracked_undo cursor tracked hc
      have htips := hm.crossed.relinked.groupTips hw.toTree hm.tree
      obtain ⟨hsome, hnone⟩ := ih (d := d') (hundo ▸ hm.wf) (hundo ▸ hplace)
      simp only [chronologicalMoves, hmove, Option.bind_some]
      refine ⟨fun hle => ?_, fun hlt => hnone (by omega)⟩
      obtain ⟨d'', hmoves, hat, htips'⟩ := hsome (by omega)
      refine ⟨d'', hmoves, ?_, by rw [htips', hundo, htips]⟩
      rw [Nat.add_comm, ← Nat.sub_sub]
      exact hat

/-- Repeated `g+` visits the later tips, oldest first. -/
theorem chronologicalMoves_newer {d : Document} (hw : d.undo.WF) {pos : Nat}
    (hp : d.undo.AtPlace pos) (args : List (Nat × List Tracked)) :
    (pos + args.length < d.undo.groupTips.length →
      ∃ d', chronologicalMoves false args d = some d' ∧ d'.undo.AtPlace (pos + args.length) ∧
        d'.undo.groupTips = d.undo.groupTips) ∧
    (d.undo.groupTips.length ≤ pos + args.length → chronologicalMoves false args d = none) := by
  induction args generalizing d pos with
  | nil =>
    obtain ⟨hlt, -⟩ := List.getElem?_eq_some_iff.mp hp
    exact ⟨fun _ => ⟨d, rfl, hp, rfl⟩, fun hle => absurd hlt (Nat.not_lt_of_le hle)⟩
  | cons arg args ih =>
    obtain ⟨cursor, tracked⟩ := arg
    rw [List.length_cons]
    rcases UndoHistory.toChronological_newer hw hp with
      ⟨hlast, hnone⟩ | ⟨hlt, h, st, hc, hm, hplace⟩
    · refine ⟨fun hlt => by omega, fun _ => ?_⟩
      rw [chronologicalMoves, chronologicalTracked, hnone]
      rfl
    · obtain ⟨d', r, hmove, hundo⟩ := chronologicalTracked_undo cursor tracked hc
      have htips := hm.crossed.relinked.groupTips hw.toTree hm.tree
      obtain ⟨hsome, hnone⟩ := ih (d := d') (hundo ▸ hm.wf) (hundo ▸ hplace)
      rw [hundo, htips] at hsome hnone
      simp only [chronologicalMoves, hmove, Option.bind_some]
      have hsum : pos + (args.length + 1) = pos + 1 + args.length := by omega
      rw [hsum]
      exact ⟨hsome, hnone⟩

/-- In every reachable document the groups are chains of creation order, each in
one branch, `current` is the last node of one, and the chronological moves walk
the tips between the root and the newest node without stopping short. -/
theorem chronological_complete (initial : Bytes) (revision : Nat) (ops : List Op) :
    let d := run step (startingAt initial revision) ops
    let h := d.undo
    -- the groups
    (h.chronological = List.range h.size ∧
      (∀ i k j, i ≤ k → k ≤ j → j < h.size → h.groupOf i = h.groupOf j →
        h.groupOf k = h.groupOf i) ∧
      ∀ i, i + 1 < h.size → h.groupOf (i + 1) = h.groupOf i → h.parentOf (i + 1) = some i) ∧
    -- the tips
    (h.groupTips.Pairwise (· < ·) ∧ (∀ i, i ∈ h.groupTips ↔ h.GroupTip i) ∧
      h.groupTips.head? = some 0 ∧ h.groupTips.getLast? = some (h.size - 1)) ∧
    -- the moves, from the place of `current`
    ∃ pos, h.groupTips[pos]? = some h.current ∧
      (∀ args, (args.length ≤ pos → ∃ d', chronologicalMoves true args d = some d' ∧
          h.groupTips[pos - args.length]? = some d'.undo.current) ∧
        (pos < args.length → chronologicalMoves true args d = none)) ∧
      ∀ args, (pos + args.length < h.groupTips.length →
          ∃ d', chronologicalMoves false args d = some d' ∧
            h.groupTips[pos + args.length]? = some d'.undo.current) ∧
        (h.groupTips.length ≤ pos + args.length → chronologicalMoves false args d = none) := by
  have hw := run_wf initial revision ops
  set d := run step (startingAt initial revision) ops
  dsimp only
  refine ⟨⟨hw.chronological, fun i k j hik hkj hj hg => hw.contiguous hik hkj hj hg,
    hw.chain⟩, ⟨UndoHistory.groupTips_sorted hw.toTree,
    fun i => UndoHistory.mem_groupTips hw.toTree, UndoHistory.groupTips_head hw.toTree,
    UndoHistory.groupTips_last hw.toTree⟩, ?_⟩
  obtain ⟨pos, hp⟩ := hw.exists_place
  refine ⟨pos, hp, fun args => ?_, fun args => ?_⟩
  · obtain ⟨hsome, hnone⟩ := chronologicalMoves_older hw hp args
    refine ⟨fun hle => ?_, hnone⟩
    obtain ⟨d', hmoves, hat, htips⟩ := hsome hle
    exact ⟨d', hmoves, htips ▸ hat⟩
  · obtain ⟨hsome, hnone⟩ := chronologicalMoves_newer hw hp args
    refine ⟨fun hlt => ?_, hnone⟩
    obtain ⟨d', hmoves, hat, htips⟩ := hsome hlt
    exact ⟨d', hmoves, htips ▸ hat⟩

end Document

end Ruse.Core
