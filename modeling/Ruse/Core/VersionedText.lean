import Ruse.Core.Chronological

/-!
# An undo node determines the text

The undo history is a version tree (`Ruse.Lib.VersionTree`): the text of a node is
its forward edits applied to its parent's text, the root's text being the one the
document opened with. `Versioned` says that the document shows the text of
`current` and that each node's two edit lists take its parent's text to its own
and back. Every operation keeps it, and no operation changes the text of a node
that exists (`InnerStep.textOf`), so the texts of two moments with the same node
current are equal (`seq_determines_text`).
-/

namespace Ruse.Core

open Ruse.Lib Ruse.Lib.VersionTree

variable {h' : UndoHistory} {root : Bytes} {i : Nat}

namespace UndoHistory

/-- The edge that made a node: its parent and its forward edits. -/
def edge (h : UndoHistory) (i : Nat) : Option (Nat × EditList) :=
  (h.parentOf i).map fun p => (p, h.forwardOf i)

def edges (h : UndoHistory) : List (Option (Nat × EditList)) := (List.range h.size).map h.edge

@[simp] theorem length_edges (h : UndoHistory) : h.edges.length = h.size := by
  simp [edges]

/-- The text of a node, `root` being the text at the root. -/
def textOf (h : UndoHistory) (root : Bytes) (i : Nat) : Bytes :=
  version EditList.applyTo root h.edges i

theorem Relinked.edges {h : UndoHistory} (hr : Relinked h h') : h'.edges = h.edges := by
  have hedge : h'.edge = h.edge := by
    funext i
    rw [UndoHistory.edge, UndoHistory.edge, hr.parentOf, hr.forwardOf]
  rw [UndoHistory.edges, UndoHistory.edges, hr.size, hedge]

theorem Relinked.textOf {h : UndoHistory} (hr : Relinked h h') : h'.textOf = h.textOf := by
  funext root i
  rw [UndoHistory.textOf, UndoHistory.textOf, hr.edges]

/-- Each node's edits take its parent's text to its own and back. -/
def SoundText (h : UndoHistory) (root : Bytes) : Prop :=
  Sound h.parentOf h.forwardOf h.inverseOf EditList.applyIn (h.textOf root)

theorem Relinked.soundText {h : UndoHistory} (hr : Relinked h h') (hs : h.SoundText root) :
    h'.SoundText root := by
  rw [SoundText, hr.parentOf, hr.forwardOf, hr.inverseOf, hr.textOf]
  exact hs

theorem parentOf_new (revision n : Nat) : (new revision).parentOf n = none := by
  cases n <;> rfl

/-! ## Recording -/

section
variable {h : UndoHistory} (hw : WF h) (fwd inv : EditList) (origin : TransactionOrigin)
  (hint : GroupHint) (revision cursor : Nat)

theorem parentOf_record_old (hi : i < h.size) :
    (h.record fwd inv origin hint revision cursor).parentOf i = h.parentOf i := by
  rw [parentOf, parentOf, node_record_old h fwd inv origin hint revision cursor hi]
  split <;> rfl

theorem forwardOf_record_old (hi : i < h.size) :
    (h.record fwd inv origin hint revision cursor).forwardOf i = h.forwardOf i := by
  rw [forwardOf, forwardOf, node_record_old h fwd inv origin hint revision cursor hi]
  split <;> rfl

theorem inverseOf_record_old (hi : i < h.size) :
    (h.record fwd inv origin hint revision cursor).inverseOf i = h.inverseOf i := by
  rw [inverseOf, inverseOf, node_record_old h fwd inv origin hint revision cursor hi]
  split <;> rfl

theorem edges_record (hc : h.current < h.size) :
    (h.record fwd inv origin hint revision cursor).edges =
      h.edges ++ [some (h.current, fwd)] := by
  rw [edges, size_record, List.range_succ, List.map_append, edges]
  congr 1
  · refine List.map_congr_left fun i hi => ?_
    have hi := List.mem_range.mp hi
    rw [edge, edge, parentOf_record_old fwd inv origin hint revision cursor hi,
      forwardOf_record_old fwd inv origin hint revision cursor hi]
  · have hnew := node_record_new h fwd inv origin hint revision cursor hc
    simp only [List.map_cons, List.map_nil, edge, parentOf, forwardOf, hnew, Option.map_some,
      Option.getD_some]

theorem textOf_record_old (hc : h.current < h.size) (root : Bytes) (hi : i < h.size) :
    (h.record fwd inv origin hint revision cursor).textOf root i = h.textOf root i := by
  rw [textOf, textOf, edges_record fwd inv origin hint revision cursor hc,
    version_append _ _ (by rw [length_edges]; exact hi)]

theorem textOf_record_new (hc : h.current < h.size) (root : Bytes) :
    (h.record fwd inv origin hint revision cursor).textOf root h.size =
      fwd.applyTo (h.textOf root h.current) := by
  have hlast := version_last EditList.applyTo root h.edges h.current fwd
  rw [length_edges] at hlast
  rw [textOf, textOf, edges_record fwd inv origin hint revision cursor hc, hlast]

include hw in
/-- A change that fits the text of `current`, recorded with its inverse there,
keeps the edits sound. -/
theorem soundText_record (hs : h.SoundText root)
    (hin : fwd.InBounds (h.textOf root h.current).length) :
    (h.record fwd (fwd.inverse (h.textOf root h.current)) origin hint revision
      cursor).SoundText root := by
  set inv := fwd.inverse (h.textOf root h.current) with hinv
  set r := h.record fwd inv origin hint revision cursor with hr
  have hc := hw.tip.1
  have hwr : WF r := wf_record hw fwd inv origin hint revision cursor
  have hnew := node_record_new h fwd inv origin hint revision cursor hc
  rw [← hr] at hnew
  have hnewtext := textOf_record_new fwd inv origin hint revision cursor hc root
  have hold := fun {i : Nat} (hi : i < h.size) =>
    textOf_record_old fwd inv origin hint revision cursor hc root hi
  have hsplit : ∀ n p, r.parentOf n = some p → n < h.size ∨ n = h.size := by
    intro n p hp
    by_cases hn : n < r.size
    · have : r.size = h.size + 1 := size_record ..
      omega
    · have hout : r.node n = rootNode 0 := by
        rw [node, List.getD_eq_default _ _ (by simpa using hn)]
      rw [parentOf, hout] at hp
      cases hp
  constructor
  · intro n p hp
    rcases hsplit n p hp with hn | rfl
    · rw [parentOf_record_old fwd inv origin hint revision cursor hn] at hp
      have hlt := hw.parent_lt hn hp
      rw [forwardOf_record_old fwd inv origin hint revision cursor hn, hold hn,
        hold (by omega)]
      exact hs.into n p hp
    · rw [parentOf, hnew] at hp
      cases hp
      rw [forwardOf, hnew, Option.getD_some, hold hc, hnewtext]
      exact EditList.applyIn_of_inBounds hin
  · intro n p hp
    rcases hsplit n p hp with hn | rfl
    · rw [parentOf_record_old fwd inv origin hint revision cursor hn] at hp
      have hlt := hw.parent_lt hn hp
      rw [inverseOf_record_old fwd inv origin hint revision cursor hn, hold hn,
        hold (by omega)]
      exact hs.out n p hp
    · rw [parentOf, hnew] at hp
      cases hp
      rw [inverseOf, hnew, Option.getD_some, hold hc, hnewtext, hinv]
      exact EditList.applyIn_inverse hin

end

/-- The lists of a move take the text of the node it leaves to the text of the
node it reaches. -/
theorem Moved.replay {h : UndoHistory} {step : UndoStep} (hm : Moved h h' step)
    (hs : h.SoundText root) :
    VersionTree.replay EditList.applyIn step.edits (h.textOf root h.current) =
      some (h'.textOf root h'.current) := by
  obtain ⟨legs, hwalk, hedits, -, -⟩ := hm.crossed.walk
  have hlists : step.edits = legs.map (Leg.edit h.forwardOf h.inverseOf) := by
    rw [hedits]
    rfl
  rw [hlists, hwalk.replay hs, hm.crossed.relinked.textOf]

end UndoHistory

namespace Document

/-- The document shows the text of `current`, in a sound history over `root`. -/
structure Versioned (root : Bytes) (c : Inner) : Prop where
  wf : c.undo.WF
  sound : c.undo.SoundText root
  text : c.text = c.undo.textOf root c.undo.current

/-- No node of `h` shows another text in `h'`. -/
def KeepsTexts (root : Bytes) (h h' : UndoHistory) : Prop :=
  h.size ≤ h'.size ∧ ∀ i < h.size, h'.textOf root i = h.textOf root i

theorem KeepsTexts.refl (root : Bytes) (h : UndoHistory) : KeepsTexts root h h :=
  ⟨Nat.le_refl _, fun _ _ => rfl⟩

theorem KeepsTexts.trans {h h'' : UndoHistory} (hk : KeepsTexts root h h')
    (hk' : KeepsTexts root h' h'') : KeepsTexts root h h'' :=
  ⟨Nat.le_trans hk.1 hk'.1, fun i hi =>
    (hk'.2 i (Nat.lt_of_lt_of_le hi hk.1)).trans (hk.2 i hi)⟩

theorem keepsTexts_of_relinked {h : UndoHistory} (hr : UndoHistory.Relinked h h') :
    KeepsTexts root h h' :=
  ⟨Nat.le_of_eq hr.size.symm, fun i _ => by rw [hr.textOf]⟩

/-- Each thing an operation does keeps the document versioned, and the text of
every node. -/
theorem InnerStep.versioned {a b : Inner} (h : InnerStep a b) (hv : Versioned root a) :
    Versioned root b ∧ KeepsTexts root a.undo b.undo := by
  have hwf := h.wf hv.wf
  cases h with
  | sync =>
    have hr := UndoHistory.relinked_sync a.undo
    exact ⟨⟨hwf, hr.soundText hv.sound, by rw [hr.textOf]; exact hv.text⟩,
      keepsTexts_of_relinked hr⟩
  | empty happ =>
    refine ⟨⟨hwf, hv.sound, ?_⟩, .refl _ _⟩
    have hfit : VersionTree.replay EditList.applyIn [EditList.empty] a.text = some a.text := by
      simp [VersionTree.replay, EditList.applyIn]
    rw [happ.text hfit]
    exact hv.text
  | @fresh s edits origin hint cursor hin happ =>
    have htext := hv.text
    have hfit : VersionTree.replay EditList.applyIn [edits] a.text = some (edits.applyTo a.text) := by
      rw [VersionTree.replay, EditList.applyIn_of_inBounds hin, Option.bind_some,
        VersionTree.replay]
    have hs := happ.text hfit
    have hc := hv.wf.tip.1
    refine ⟨⟨hwf, ?_, ?_⟩, ?_, fun i hi => ?_⟩
    · simp only [htext] at hin ⊢
      exact UndoHistory.soundText_record hv.wf edits origin hint s.revision cursor hv.sound hin
    · rw [UndoHistory.current_record, hs, htext]
      exact (UndoHistory.textOf_record_new _ _ _ _ _ _ hc root).symm
    · rw [UndoHistory.size_record]
      exact Nat.le_succ _
    · exact UndoHistory.textOf_record_old _ _ _ _ _ _ hc root hi
  | @move s h' st hm happ =>
    have hmoved := hm.moved hv.wf
    have hreplay := hmoved.replay hv.sound
    have hr := hmoved.crossed.relinked
    exact ⟨⟨hwf, hr.soundText hv.sound, happ.text (hv.text ▸ hreplay)⟩,
      keepsTexts_of_relinked hr⟩

theorem InnerSteps.versioned {a b : Inner} (h : InnerSteps a b) (hv : Versioned root a) :
    Versioned root b ∧ KeepsTexts root a.undo b.undo := by
  induction h with
  | refl => exact ⟨hv, .refl _ _⟩
  | tail _ hstep ih =>
    obtain ⟨hv', hk⟩ := ih
    obtain ⟨hv'', hk'⟩ := hstep.versioned hv'
    exact ⟨hv'', hk.trans hk'⟩

theorem step_versioned (d : Document) (op : Op) (hv : Versioned root d.inner) :
    Versioned root (step d op).inner ∧ KeepsTexts root d.undo (step d op).undo := by
  obtain ⟨c, hc, hundo, htext, -⟩ := step_inner_undo d op
  obtain ⟨hv', hk⟩ := hc.versioned hv
  rw [← hundo] at hk
  refine ⟨⟨?_, ?_, ?_⟩, hk⟩
  · show (step d op).undo.WF
    rw [hundo]
    exact hv'.wf
  · show (step d op).undo.SoundText root
    rw [hundo]
    exact hv'.sound
  · show (step d op).text = (step d op).undo.textOf root (step d op).undo.current
    rw [htext, hundo]
    exact hv'.text

theorem versioned_startingAt (initial : Bytes) (revision : Nat) :
    Versioned initial (startingAt initial revision).inner where
  wf := UndoHistory.wf_new revision
  sound :=
    { into := fun n p hp => absurd ((UndoHistory.parentOf_new revision n).symm.trans hp) (by simp)
      out := fun n p hp => absurd ((UndoHistory.parentOf_new revision n).symm.trans hp) (by simp) }
  text := rfl

theorem run_versioned (initial : Bytes) (revision : Nat) (ops : List Op) :
    Versioned initial (run step (startingAt initial revision) ops).inner :=
  run_invariant (P := fun d : Document => Versioned initial d.inner)
    (fun d op hv => (step_versioned d op hv).1) (versioned_startingAt initial revision) ops

theorem keepsTexts_moments (initial : Bytes) (revision : Nat) (ops : List Op) {j : Nat}
    (hij : i ≤ j) :
    KeepsTexts initial (moment step (startingAt initial revision) ops i).undo
      (moment step (startingAt initial revision) ops j).undo := by
  obtain ⟨rest, hrest⟩ := moment_later step (startingAt initial revision) ops hij
  rw [hrest]
  exact run_rel (P := fun d : Document => Versioned initial d.inner)
    (R := fun d d' => KeepsTexts initial d.undo d'.undo)
    (fun d op hv => (step_versioned d op hv).1) (fun d => .refl _ d.undo)
    (fun _ _ _ hk hk' => hk.trans hk') (fun d op hv => (step_versioned d op hv).2)
    (run_versioned initial revision _) rest

/-- Two moments at one node have one text. -/
theorem text_eq_of_seq_eq (initial : Bytes) (revision : Nat) (ops : List Op) {j : Nat} (hij : i ≤ j)
    (hseq : (moment step (startingAt initial revision) ops j).undo.currentSeq = (moment step (startingAt initial revision) ops i).undo.currentSeq) :
    (moment step (startingAt initial revision) ops j).text =
      (moment step (startingAt initial revision) ops i).text := by
  have hi := run_versioned initial revision (ops.take i)
  have hj := run_versioned initial revision (ops.take j)
  have hk := keepsTexts_moments initial revision ops hij
  unfold moment at hseq hk ⊢
  set di := run step (startingAt initial revision) (ops.take i)
  set dj := run step (startingAt initial revision) (ops.take j)
  have hcur : dj.undo.current = di.undo.current := by
    have hsj : dj.undo.currentSeq = dj.undo.current := hj.wf.seq _ hj.wf.tip.1
    have hsi : di.undo.currentSeq = di.undo.current := hi.wf.seq _ hi.wf.tip.1
    rw [← hsj, ← hsi]
    exact hseq
  calc dj.text = dj.undo.textOf initial dj.undo.current := hj.text
    _ = di.undo.textOf initial di.undo.current := by
      rw [hcur, hk.2 di.undo.current hi.wf.tip.1]
    _ = di.text := hi.text.symm

/-! ## The saved state -/

/-- The operations that mark the current state as the one on disk. -/
def Op.saves : Op → Bool
  | .markSaved => true
  | .reload _ _ => true
  | _ => false

theorem savedNode_of_saves (d : Document) {op : Op} (h : op.saves = true) :
    (step d op).savedNode = some (step d op).undo.currentSeq := by
  have hop : ¬ op.OnLog := by cases op <;> first | exact id | cases h
  obtain ⟨c, -, heq⟩ := step_inner d hop
  have hsaved : (step d op).savedNode = op.savedNode c := congrArg Inner.savedNode heq
  have hundo : (step d op).undo = c.undo := congrArg Inner.undo heq
  rw [hsaved, hundo]
  cases op <;> first | rfl | cases h

theorem savedNode_of_not_saves (d : Document) {op : Op} (h : op.saves = false) :
    (step d op).savedNode = d.savedNode ∨ (step d op).savedNode = none := by
  by_cases hop : op.OnLog
  · exact .inl (congrArg Inner.savedNode (step_log d hop))
  · obtain ⟨c, hc, heq⟩ := step_inner d hop
    have hsaved : (step d op).savedNode = op.savedNode c := congrArg Inner.savedNode heq
    rw [hsaved, ← show c.savedNode = d.savedNode from hc.savedNode]
    cases op <;> first | exact .inl rfl | exact .inr rfl | cases h

/-- The saved node is the one that was current at the last save. -/
theorem savedNode_run (initial : Bytes) (revision : Nat) (ops : List Op) {seq : Nat}
    (h : (run step (startingAt initial revision) ops).savedNode = some seq) :
    ∃ i < ops.length, (∃ op, ops[i]? = some op ∧ op.saves = true) ∧
      (∀ k op, i < k → ops[k]? = some op → op.saves = false) ∧
      (moment step (startingAt initial revision) ops (i + 1)).undo.currentSeq = seq := by
  -- on the run from its end: the last save is the last operation, or before it
  induction ops using List.reverseRecOn with
  | nil => cases h
  | append_singleton ops op ih =>
    rw [run_append, run_cons, run_nil] at h
    cases hs : op.saves with
    | true =>
      rw [savedNode_of_saves _ hs] at h
      refine ⟨ops.length, by simp, ⟨op, by simp, hs⟩, fun k op' hk hget => ?_, ?_⟩
      · rw [List.getElem?_eq_none (by simp only [List.length_append, List.length_singleton]; omega)] at hget
        cases hget
      · rw [moment_of_length_le _ _ (by simp), run_append]
        exact Option.some.inj h
    | false =>
      rcases savedNode_of_not_saves (run step (startingAt initial revision) ops) hs with hk | hk
      · rw [hk] at h
        obtain ⟨i, hi, ⟨op', hget, hop'⟩, hlater, hseq⟩ := ih h
        refine ⟨i, by rw [List.length_append]; omega, ⟨op', ?_, hop'⟩, ?_, ?_⟩
        · rw [List.getElem?_append_left hi]
          exact hget
        · intro k op'' hik hget'
          by_cases hklt : k < ops.length
          · rw [List.getElem?_append_left hklt] at hget'
            exact hlater k op'' hik hget'
          · have hk : k < (ops ++ [op]).length := (List.getElem?_eq_some_iff.mp hget').1
            simp only [List.length_append, List.length_singleton] at hk
            obtain rfl : k = ops.length := by omega
            rw [List.getElem?_concat_length] at hget'
            cases hget'
            exact hs
        · rw [moment, List.take_append_of_le_length (by omega)]
          exact hseq
      · rw [hk] at h
        cases h

/-- The lists of a step fit one after the other, each the text the ones before
it leave. -/
def FitsInTurn : List EditList → Bytes → Prop
  | [], _ => True
  | edits :: rest, text => edits.InBounds text.length ∧ FitsInTurn rest (edits.applyTo text)

theorem fitsInTurn_of_replay {es : List EditList} {text t : Bytes}
    (h : VersionTree.replay EditList.applyIn es text = some t) : FitsInTurn es text := by
  induction es generalizing text with
  | nil => trivial
  | cons edits rest ih =>
    obtain ⟨mid, hmid, hrest⟩ := Option.bind_eq_some_iff.mp h
    obtain ⟨hin, happ⟩ := EditList.applyIn_eq_some hmid
    exact ⟨hin, ih (happ ▸ hrest)⟩

/-- An undo node determines the text: at two moments of a run with the same node
current the bytes are equal; the lists every move re-applies fit; and while the
document counts as unmodified it holds the bytes the last saving operation
left. -/
theorem seq_determines_text (initial : Bytes) (revision : Nat) (ops : List Op) :
    (∀ i j, (moment step (startingAt initial revision) ops i).undo.currentSeq =
        (moment step (startingAt initial revision) ops j).undo.currentSeq →
      (moment step (startingAt initial revision) ops i).text =
        (moment step (startingAt initial revision) ops j).text) ∧
    (∀ h st, (run step (startingAt initial revision) ops).undo.Move h st →
      FitsInTurn st.edits (run step (startingAt initial revision) ops).text) ∧
    ((run step (startingAt initial revision) ops).isModified = false →
      ∃ i < ops.length, (∃ op, ops[i]? = some op ∧ op.saves = true) ∧
        (∀ k op, i < k → ops[k]? = some op → op.saves = false) ∧
        (run step (startingAt initial revision) ops).text =
          (moment step (startingAt initial revision) ops (i + 1)).text) := by
  refine ⟨fun i j hseq => ?_, fun h st hm => ?_, fun hsaved => ?_⟩
  · rcases Nat.le_total i j with hij | hji
    · exact (text_eq_of_seq_eq initial revision ops hij hseq.symm).symm
    · exact text_eq_of_seq_eq initial revision ops hji hseq
  · have hv := run_versioned initial revision ops
    have hreplay := (hm.moved hv.wf).replay hv.sound
    have htext : (run step (startingAt initial revision) ops).text = _ := hv.text
    rw [htext]
    exact fitsInTurn_of_replay hreplay
  · have hnode : (run step (startingAt initial revision) ops).savedNode =
        some (run step (startingAt initial revision) ops).undo.currentSeq := by
      simpa [isModified] using hsaved
    obtain ⟨i, hi, hop, hlater, hseq⟩ := savedNode_run initial revision ops hnode
    refine ⟨i, hi, hop, hlater, ?_⟩
    have hend := moment_of_length_le step (startingAt initial revision) (Nat.le_refl ops.length)
    have heq := text_eq_of_seq_eq initial revision ops (i := i + 1) (j := ops.length) hi
      (by rw [hend]; exact hseq.symm)
    rw [hend] at heq
    exact heq

end Document

end Ruse.Core
