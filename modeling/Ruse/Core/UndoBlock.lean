import Ruse.Core.UndoRedo

/-!
# Undo blocks

From `begin_undo_block` to `end_undo_block` every change joins the group of the block's first
one (`OpenedOn.record`), so that one `u` goes back to where the block began and one `C-r`
to its end (`undo_block_one_step`). A sync or a nested block inside changes nothing.
-/

namespace Ruse.Core

open Lib (run run_append run_cons run_nil run_rel)

namespace UndoHistory

variable {h h' : UndoHistory} {n : Nat} {fwd inv : EditList} {origin : TransactionOrigin}
variable {hint : GroupHint} {revision cursor : Nat}

/-- The group of `current` began with a change made at node `n`. -/
structure OpenedOn (n : Nat) (h : UndoHistory) : Prop where
  nav : h.lastWasNav = false
  first : ∃ first, h.groupOf first = h.groupOf h.current ∧ h.parentOf first = some n ∧
    h.groupOf n ≠ h.groupOf first

theorem groupOf_record_old {i : Nat} (hi : i < h.size) :
    (h.record fwd inv origin hint revision cursor).groupOf i = h.groupOf i := by
  rw [groupOf, groupOf, node_record_old h fwd inv origin hint revision cursor hi]
  split <;> rfl

theorem groupFor_join (hw : WF h) (hpos : 0 < h.current) (hnav : h.lastWasNav = false) :
    (h.groupFor origin .joinPrev).1 = h.groupOf h.current := by
  obtain ⟨p, -, hp⟩ := hw.parent _ hw.tip.1 hpos
  have hsome : (h.node h.current).parent.isSome = true := Option.isSome_iff_exists.mpr ⟨p, hp⟩
  simp only [groupFor, hsome, hnav, Bool.not_false, Bool.and_self, if_true]
  rfl

theorem OpenedOn.pos (ho : OpenedOn n h) (hw : WF h) : 0 < h.current := by
  obtain ⟨first, hg, hp, -⟩ := ho.first
  have hlt := hw.older _ _ hp
  exact hw.pos_of_group (lt_size_of_parentOf hp) (by omega) hg.symm

theorem OpenedOn.record (ho : OpenedOn n h) (hw : WF h) :
    OpenedOn n (h.record fwd inv origin .joinPrev revision cursor) := by
  obtain ⟨first, hg, hp, hne⟩ := ho.first
  have hfirst := lt_size_of_parentOf hp
  have hlt := hw.older _ _ hp
  refine ⟨by simp only [UndoHistory.record], first, ?_, ?_, ?_⟩
  · rw [groupOf_record_old hfirst, hg, current_record, groupOf, groupOf,
      node_record_new h fwd inv origin .joinPrev revision cursor hw.tip.1]
    exact (groupFor_join hw (ho.pos hw) ho.nav).symm
  · rw [parentOf_record_old _ _ _ _ _ _ hfirst, hp]
  · rw [groupOf_record_old hfirst, groupOf_record_old (by omega)]
    exact hne

theorem OpenedOn.begins (hw : WF h)
    (hne : (h.record fwd inv origin hint revision cursor).currentGroup ≠ h.currentGroup) :
    OpenedOn h.current (h.record fwd inv origin hint revision cursor) := by
  have hnew := node_record_new h fwd inv origin hint revision cursor hw.tip.1
  rw [currentGroup, current_record] at hne
  refine ⟨by simp only [UndoHistory.record], h.size, ?_, ?_, ?_⟩
  · rw [current_record]
  · rw [parentOf, hnew]
  · rw [groupOf_record_old hw.tip.1]
    exact hne.symm

/-- An undo of such a group goes back to where it began. -/
theorem OpenedOn.undo (ho : OpenedOn n h) (hw : WF h) (hm : Remembers h h.current)
    {st : UndoStep} (hu : h.undo = some (h', st)) : h'.current = n := by
  obtain ⟨first, hg, hp, hne⟩ := ho.first
  obtain ⟨-, first', hg', hp', hne', -⟩ := undo_spec hw hm hu
  obtain rfl := hw.first_unique (hg.trans hg'.symm) hp hp' hne hne'
  rw [hp] at hp'
  exact (Option.some.inj hp').symm

end UndoHistory

namespace Document

open UndoHistory

/-- What is done inside an undo block. -/
def Op.Inside : Op → Prop
  | .apply _ _ | .lineUndo _ _ _ | .primeLineUndo _ _ | .clearLineUndo _ | .syncUndo | .beginUndoBlock => True
  | _ => False

/-- Inside a block that was opened with history `h₀`: no change yet, or all of them in one
group. -/
def InBlock (h₀ : UndoHistory) (e : Document) : Prop :=
  (e.undo.nodes = h₀.nodes ∧ e.undo.current = h₀.current ∧ e.undoBlock = some false) ∨
    (e.undoBlock = some true ∧ 0 < e.undo.current ∧ e.undo.lastWasNav = false ∧
      (e.undo.currentGroup = h₀.currentGroup ∨ OpenedOn h₀.current e.undo))

theorem applyInner_block {d d' : Document} {txn : Transaction} {track : Bool}
    {tracked tracked' : List Tracked} (h : d.applyInner txn track tracked = .ok (d', tracked')) :
    (d'.undo = d.undo ∧ d'.undoBlock = d.undoBlock) ∨
      (∃ fwd inv revision cursor, d'.undo = d.undo.record fwd inv txn.origin
        (d.blockHint txn.groupHint).1 revision cursor) ∧
      d'.undoBlock = (d.blockHint txn.groupHint).2 := by
  unfold applyInner at h
  split at h
  · cases h
  · split at h
    · cases h
    · cases h
    · split at h
      · cases h
        exact .inl ⟨rfl, rfl⟩
      · cases h
        exact .inr ⟨⟨_, _, _, _, rfl⟩, rfl⟩

/-- A change inside the block is its first one, or joins its group. -/
theorem InBlock.applied {h₀ : UndoHistory} {e d' : Document} (hi : InBlock h₀ e) (hw : e.undo.WF)
    {txn : Transaction} {track : Bool} {tracked tracked' : List Tracked}
    (happ : e.applyInner txn track tracked = .ok (d', tracked')) : InBlock h₀ d' := by
  rcases applyInner_block happ with ⟨hu, hb⟩ | ⟨⟨fwd, inv, revision, cursor, hu⟩, hb⟩
  · rw [InBlock, hu, hb]
    exact hi
  rcases hi with ⟨hn, hc, hblock⟩ | ⟨hblock, hpos, hnav, hg⟩
  · -- the block's first change, in a group of its own or in the one before
    have hbefore : h₀.currentGroup = e.undo.currentGroup := by
      rw [currentGroup, currentGroup, node, node, hn, hc]
    rw [blockHint, hblock] at hu hb
    rw [InBlock, hu, hb, ← hc, hbefore, current_record]
    exact .inr ⟨rfl, Nat.zero_lt_of_lt hw.tip.1, by simp only [UndoHistory.record],
      Classical.or_iff_not_imp_left.mpr (.begins hw)⟩
  · rw [blockHint, hblock] at hu hb
    rw [InBlock, hu, hb, current_record]
    refine .inr ⟨rfl, Nat.zero_lt_of_lt hw.tip.1, by simp only [UndoHistory.record], ?_⟩
    refine hg.imp (fun hg => ?_) fun ho => ho.record hw
    rw [currentGroup, current_record, node_record_new _ _ _ _ _ _ _ hw.tip.1, ← hg]
    exact groupFor_join hw hpos hnav

/-- `U` is a change too; the line it keeps is no part of the block. -/
theorem InBlock.lineUndo {h₀ : UndoHistory} {e : Document} (hi : InBlock h₀ e) (hw : e.undo.WF)
    {cursor : Nat} {origin : TransactionOrigin} {tracked : List Tracked} :
    InBlock h₀ (e.lineUndoTracked cursor origin tracked).1 := by
  unfold lineUndoTracked
  split
  · exact hi
  · rename_i kept sw _
    have hi' : InBlock h₀ { e with lineUndo := kept } := hi
    have hw' : ({ e with lineUndo := kept } : Document).undo.WF := hw
    dsimp only
    generalize ({ e with lineUndo := kept } : Document) = d at *
    split
    · exact hi'
    · split
      · exact hi'
      · rename_i happ
        exact hi'.applied hw' happ

/-- An operation inside a block adds to the block's group only. -/
theorem InBlock.next {h₀ : UndoHistory} {e : Document} (hi : InBlock h₀ e) (hw : e.undo.WF)
    {op : Op} (hop : op.Inside) : InBlock h₀ (step e op) := by
  cases op with
  | syncUndo => exact hi.imp id fun ⟨hb, hpos, hnav, hg⟩ => ⟨hb, hpos, hnav, hg.imp id
      fun ho => ⟨ho.nav, ho.first⟩⟩
  | beginUndoBlock =>
    have hblock (b : Bool) (hb : e.undoBlock = some b) :
        (step e .beginUndoBlock).undoBlock = some b := by
      show some (e.undoBlock.getD false) = some b
      rw [hb, Option.getD_some]
    exact hi.imp (fun ⟨hn, hc, hb⟩ => ⟨hn, hc, hblock _ hb⟩) fun ⟨hb, hrest⟩ => ⟨hblock _ hb, hrest⟩
  | primeLineUndo cursor newCommand => exact hi
  | clearLineUndo disarm => exact hi
  | apply txn tracked =>
    simp only [step]
    split
    · rename_i d' t' happ
      exact hi.applied hw happ
    · exact hi
  | lineUndo cursor origin tracked => exact hi.lineUndo hw
  | _ => exact hop.elim

theorem InBlock.run {h₀ : UndoHistory} {root : Bytes} {e : Document} (hi : InBlock h₀ e)
    (hs : Steady root e) {ops : List Op} (hops : ∀ op ∈ ops, op.Inside) :
    InBlock h₀ (run step e ops) ∧ Steady root (Lib.run step e ops) := by
  induction ops generalizing e with
  | nil => exact ⟨hi, hs⟩
  | cons op ops ih =>
    obtain ⟨hop, hrest⟩ := List.forall_mem_cons.mp hops
    exact ih (hi.next hs.wf hop) (hs.next op) hrest

/-- An undo block is one undo step. After any run, from the begin of a block to its end, with
any changes, `U`, syncs and nested begins inside: if its changes opened a group, one undo
goes back to the node and the bytes the block began with, and a redo then to those it ended
with. -/
theorem undo_block_one_step (initial : Bytes) (revision : Nat) (ops block : List Op)
    (hblock : ∀ op ∈ block, op.Inside) (cursor : Nat) (tracked : List Tracked) :
    let d := run step (startingAt initial revision) ops
    let e := run step d (.beginUndoBlock :: block ++ [.endUndoBlock])
    d.undoBlock = none → e.undo.currentGroup ≠ d.undo.currentGroup →
      SameState (step e (.undo cursor tracked)) d ∧
        SameState (run step e [.undo cursor tracked, .redo cursor tracked]) e := by
  intro d e hnone hgroup
  have hsd : Steady initial d := steady_run initial revision ops
  have hbegun : InBlock d.undo (step d .beginUndoBlock) := by
    refine .inl ⟨rfl, rfl, ?_⟩
    show some (d.undoBlock.getD false) = some false
    rw [hnone, Option.getD_none]
  obtain ⟨hi, hsb⟩ := hbegun.run (hsd.next _) hblock
  have he : e = step (run step (step d .beginUndoBlock) block) .endUndoBlock := by
    show run step d (.beginUndoBlock :: block ++ [.endUndoBlock]) = _
    rw [List.cons_append, run_cons, run_append, run_cons, run_nil]
  generalize run step (step d .beginUndoBlock) block = b at hi hsb he
  have hse : Steady initial e := he ▸ hsb.next .endUndoBlock
  have hundo : e.undo = b.undo := by rw [he]; rfl
  have hopened : OpenedOn d.undo.current e.undo := by
    rw [hundo] at hgroup ⊢
    rcases hi with ⟨hn, hc, -⟩ | ⟨-, -, -, hsame | ho⟩
    · exact absurd (by rw [currentGroup, currentGroup, node, node, hn, hc]) hgroup
    · exact absurd hsame hgroup
    · exact ho
  have hsome : (e.undoTracked cursor tracked).isSome := by
    rw [undoTracked_isSome, undo_isSome_iff hse.wf]
    exact hopened.pos hse.wf
  refine ⟨?_, (hse.redo_undo cursor cursor tracked tracked hsome).2⟩
  rw [undoTracked_isSome] at hsome
  obtain ⟨⟨h', st⟩, hu⟩ := Option.isSome_iff_exists.mp hsome
  have hcur : (step e (.undo cursor tracked)).undo.current = d.undo.current := by
    rw [step_undo_undo hu cursor tracked]
    exact hopened.undo hse.wf hse.way hu
  have hkeeps : KeepsTexts initial d.undo e.undo :=
    run_rel (P := Steady initial) (R := fun a b => KeepsTexts initial a.undo b.undo)
      (fun _ op hs => hs.next op) (fun a => .refl _ a.undo) (fun _ _ _ => .trans)
      (fun a op hs => (step_versioned a op hs.versioned).2) hsd _
  have hkeeps' := hkeeps.trans (step_versioned e (.undo cursor tracked) hse.versioned).2
  refine ⟨hcur, ?_⟩
  calc (step e (.undo cursor tracked)).text
      = (step e (.undo cursor tracked)).undo.textOf initial d.undo.current := by
        rw [← hcur]
        exact (hse.next _).versioned.text
    _ = d.undo.textOf initial d.undo.current := hkeeps'.2 _ hsd.wf.tip.1
    _ = d.text := hsd.versioned.text.symm

/-- Two characters typed into a block, with a sync between them. -/
theorem undo_block_one_step_typed :
    let typed (n : Nat) : Op :=
      .apply (.new n ⟨[Edit.insert n [120]], by simp, by simp [Edit.Changes, Edit.insert]⟩ .userInput) []
    let e := run step (new [104]) [.beginUndoBlock, typed 0, .syncUndo, typed 1, .endUndoBlock]
    e.text = [120, 120, 104] ∧ (step e (.undo 0 [])).text = [104] := by
  refine ⟨by decide +kernel, ?_⟩
  exact (undo_block_one_step [104] 0 [] [_, _, _] (by simp [Op.Inside]) 0 [] rfl
    (by decide +kernel)).1.2

end Document

end Ruse.Core
