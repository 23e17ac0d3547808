import Ruse.Core.VersionedText

/-!
# Undo and redo as inverse moves

A history remembers, at every node on the way from the root to where it stands,
the child it stands below (`Remembers`). A move up leaves the tree as it is, since
what it would remember is remembered already; a move down and a new change extend
the way by one node. So an undo lands on the parent of its group's first node and
a redo from there comes back to the group's last (`undo_spec`, `redo_spec`), and a
node's redo target changes only while the history stands below that node
(`HistStep.redoChild`), which makes it the branch last left.
-/

namespace Ruse.Core

open Ruse.Lib Ruse.Lib.VersionTree

variable {h' : UndoHistory} {st : UndoStep} {c : Nat}

namespace UndoHistory

variable {step : UndoStep}

/-! ## The way to a node -/

/-- Every node on the way to `n` has the next one as its redo child, and no node
with a child is without a redo child. -/
structure Remembers (h : UndoHistory) (n : Nat) : Prop where
  way : ∀ p c, h.parentOf c = some p → Under h.parentOf c n → (h.node p).redoChild = some c
  linked : ∀ p c, h.parentOf c = some p → (h.node p).redoChild ≠ none

theorem parentOf_of_size_le {h : UndoHistory} {n : Nat} (hn : h.size ≤ n) :
    h.parentOf n = none := by
  rw [parentOf, node, List.getD_eq_default _ _ hn]
  rfl

theorem lt_size_of_parentOf {h : UndoHistory} {n p : Nat} (hp : h.parentOf n = some p) :
    n < h.size := by
  by_contra hge
  rw [parentOf_of_size_le (by omega)] at hp
  cases hp

theorem Tree.older {h : UndoHistory} (ht : Tree h) (n p : Nat) (hp : h.parentOf n = some p) :
    p < n := ht.parent_lt (lt_size_of_parentOf hp) hp

theorem remembers_new (revision n : Nat) : Remembers (new revision) n where
  way p c hp := by
    rw [parentOf_new] at hp
    cases hp
  linked p c hp := by
    rw [parentOf_new] at hp
    cases hp

namespace Remembers

variable {h : UndoHistory} {n p : Nat}

/-- Where `current` and the flags stand is not part of it. -/
theorem congr_nodes (hm : Remembers h n) (hnodes : h'.nodes = h.nodes) :
    Remembers h' n := by
  have hnode : h'.node = h.node := by
    funext i
    rw [node, node, hnodes]
  constructor
  · intro p c hp hu
    have hparent : h'.parentOf = h.parentOf := by
      funext i
      rw [parentOf, parentOf, hnode]
    rw [hparent] at hp hu
    rw [hnode]
    exact hm.way p c hp hu
  · intro p c hp
    rw [parentOf, hnode] at hp
    rw [hnode]
    exact hm.linked p c hp

theorem redoTarget_eq (ht : Tree h) (hm : Remembers h n) (hp : p < h.size) :
    h.redoTarget p = (h.node p).redoChild := by
  cases hr : (h.node p).redoChild with
  | some c => rw [redoTarget, hr, Option.some_or]
  | none =>
    rw [redoTarget, hr, Option.none_or, List.getLast?_eq_none_iff]
    cases hch : (h.node p).children with
    | nil => rfl
    | cons c rest =>
      have hmem : c ∈ (h.node p).children := by rw [hch]; exact List.mem_cons_self
      exact absurd hr (hm.linked p c ((ht.children p hp c).mp hmem).2)

theorem above (hm : Remembers h n) (hp : Under h.parentOf p n) : Remembers h p :=
  ⟨fun q c hq hu => hm.way q c hq (hu.trans hp), hm.linked⟩

/-- Out of a node into its parent. -/
theorem leave (hm : Remembers h n) (hp : h.parentOf n = some p) : Remembers h p :=
  hm.above ((Under.refl p).made hp)

theorem enter (ht : Tree h) (hm : Remembers h p) (hps : p < h.size)
    (hr : h.redoTarget p = some n) : Remembers h n := by
  have hp := (ht.redoTarget_child hps hr).2
  rw [hm.redoTarget_eq ht hps] at hr
  refine ⟨fun q c hq hu => ?_, hm.linked⟩
  rcases hu.last hp with rfl | hup
  · rw [hp] at hq
    cases hq
    exact hr
  · exact hm.way q c hq hup

/-- Setting the redo child that is remembered changes nothing. -/
theorem setRedoChild_eq (hm : Remembers h n) (hp : h.parentOf n = some p) :
    h.setRedoChild p n = h := by
  have hr : (h.node p).redoChild = some n := hm.way p n hp (.refl n)
  have hnodes : (h.nodes.modify p fun m => { m with redoChild := some n }) = h.nodes := by
    refine List.ext_getElem? fun i => ?_
    rw [List.getElem?_modify]
    split
    · rename_i hpi
      subst hpi
      cases hget : h.nodes[p]? with
      | none => rfl
      | some m =>
        have hm' : h.node p = m := by
          rw [node, List.getD_eq_getElem?_getD, hget]
          rfl
        rw [hm'] at hr
        show some { m with redoChild := some n } = some m
        rw [← hr]
    · cases h.nodes[i]? <;> rfl
  rw [setRedoChild, hnodes]

/-- Setting a redo child makes the way to it remembered. -/
theorem setRedoChild (ht : Tree h) (hm : Remembers h p) (hps : p < h.size)
    (hp : h.parentOf n = some p) : Remembers (h.setRedoChild p n) n := by
  have hrel := relinked_setRedoChild h p n
  constructor
  · intro q c hq hu
    rw [hrel.parentOf] at hq hu
    rw [node_setRedoChild]
    rcases hu.last hp with rfl | hup
    · rw [hp] at hq
      cases hq
      rw [if_pos ⟨rfl, hps⟩]
    · -- a child of `p` above `p` would be older than `p`
      have hqp : q ≠ p := by
        have := ht.older _ _ hq
        have := hup.le ht.older
        omega
      rw [if_neg (fun hand => hqp hand.1)]
      exact hm.way q c hq hup
  · intro q c hq
    rw [hrel.parentOf] at hq
    rw [node_setRedoChild]
    split
    · exact fun habs => by cases habs
    · exact hm.linked q c hq

end Remembers

/-! ## The moves -/

theorem Tree.tip_unique {h : UndoHistory} (ht : Tree h) {i j : Nat} (hi : h.GroupTip i)
    (hj : h.GroupTip j) (hg : h.groupOf i = h.groupOf j) : i = j := by
  have hle : ∀ {i j : Nat}, h.GroupTip i → h.GroupTip j → h.groupOf i = h.groupOf j →
      ¬ i < j := by
    intro i j hi hj hg hlt
    have hnext := ht.contiguous (k := i + 1) (Nat.le_succ i) hlt hj.1 hg
    exact hi.2 (by have := hj.1; omega) hnext
  have := hle hi hj hg
  have := hle hj hi hg.symm
  omega

theorem Tree.first_unique {h : UndoHistory} (ht : Tree h) {i j p q : Nat}
    (hg : h.groupOf i = h.groupOf j) (hi : h.parentOf i = some p) (hj : h.parentOf j = some q)
    (hpi : h.groupOf p ≠ h.groupOf i) (hqj : h.groupOf q ≠ h.groupOf j) : i = j := by
  have hle : ∀ {i j q : Nat}, h.groupOf i = h.groupOf j → h.parentOf j = some q →
      h.groupOf q ≠ h.groupOf j → ¬ i < j := by
    intro i j q hg hj hqj hlt
    obtain ⟨k, rfl⟩ : ∃ k, j = k + 1 := ⟨j - 1, by omega⟩
    have hjs := lt_size_of_parentOf hj
    -- the node before `j` is of the run too, so it is the parent
    have hk := ht.contiguous (k := k) (by omega) (Nat.le_succ k) hjs hg
    have hchain := ht.chain k hjs (hg.symm.trans hk.symm)
    rw [hj] at hchain
    cases hchain
    exact hqj (hk.trans hg)
  have := hle hg hj hqj
  have := hle hg.symm hi hpi
  omega

/-- Where `undo`'s loop stops, and that it changes no node. -/
theorem undoLoop_way {group fuel : Nat} {h : UndoHistory} (out : UndoStep) (ht : Tree h)
    (hm : Remembers h h.current) (hc : h.current < h.size) (hpos : 0 < h.current)
    (hg : h.groupOf h.current = group) (hfuel : h.current ≤ fuel) :
    let r := (undoLoop group fuel h out).1
    r = { h with current := r.current } ∧
      ∃ first, h.groupOf first = group ∧ h.parentOf first = some r.current ∧
        h.groupOf r.current ≠ group ∧ Under h.parentOf first h.current := by
  induction fuel generalizing h out with
  | zero => omega
  | succ fuel ih =>
    obtain ⟨p, hlt, hp⟩ := ht.parent _ hc hpos
    rw [undoLoop_succ hp hg, hm.setRedoChild_eq hp]
    by_cases hgp : h.groupOf p = group
    · have hp0 := ht.pos_of_group hc hpos (hgp.trans hg.symm)
      obtain ⟨heq, first, hfg, hfp, hne, hu⟩ := ih (h := { h with current := p }) _
        (ht.moveTo p) ((hm.leave hp).congr_nodes rfl) (Nat.lt_trans hlt hc) hp0 hgp
        (by show p ≤ fuel
            omega)
      exact ⟨heq, first, hfg, hfp, hne, hu.made hp⟩
    · have hstop : ({ h with current := p } : UndoHistory).groupOf p ≠ group := hgp
      rw [undoLoop_stop hstop]
      exact ⟨rfl, h.current, hg, hp, hgp, .refl _⟩

/-- What `undo` does to a history that remembers its way: it goes to the parent of
the first node of the current group. -/
theorem undo_spec {h : UndoHistory} (hw : WF h) (hm : Remembers h h.current)
    (hu : h.undo = some (h', step)) :
    h'.nodes = h.nodes ∧ ∃ first, h.groupOf first = h.groupOf h.current ∧
      h.parentOf first = some h'.current ∧ h.groupOf h'.current ≠ h.groupOf first ∧
      Under h.parentOf first h.current := by
  unfold undo at hu
  split at hu
  · cases hu
  · rename_i p hp
    have hpos : 0 < h.current := by
      rcases Nat.eq_zero_or_pos h.current with h0 | hpos
      · have hroot := hw.root
        rw [← h0, parentOf, hp] at hroot
        cases hroot
      · exact hpos
    obtain ⟨heq, first, hfg, hfp, hne, hunder⟩ := undoLoop_way emptyStep hw.toTree hm hw.tip.1
      hpos rfl (Nat.le_of_lt hw.tip.1)
    cases hu
    have hnodes := congrArg UndoHistory.nodes heq
    exact ⟨hnodes, first, hfg, hfp, by rw [hfg]; exact hne, hunder⟩

/-- Where `redo`'s loop stops, and that it changes no node. -/
theorem redoLoop_way {group : Nat} (fuel : Nat) {h : UndoHistory} {p node : Nat}
    (out : UndoStep) (ht : Tree h) (hm : Remembers h p) (hps : p < h.size)
    (hr : h.redoTarget p = some node) (hg : h.groupOf node = group)
    (hfuel : h.size ≤ node + fuel) :
    let r := (redoLoop group fuel h node out).1
    r = { h with current := r.current } ∧ h.groupOf r.current = group ∧
      Remembers h r.current ∧ Under h.parentOf node r.current := by
  obtain ⟨hns, hp⟩ := ht.redoTarget_child hps hr
  have hmn := hm.enter ht hps hr
  induction fuel generalizing h p node out with
  | zero => omega
  | succ fuel ih =>
    unfold redoLoop
    dsimp only
    split
    · rename_i child hchild
      have hchild : h.redoTarget node = some child := hchild
      obtain ⟨hcs, hcp⟩ := ht.redoTarget_child hns hchild
      have hlt := ht.parent_lt hcs hcp
      split
      · rename_i hcg
        obtain ⟨heq, hrg, hrm, hu⟩ := ih (h := { h with current := node }) _ (ht.moveTo node)
          (hmn.congr_nodes rfl) hns hchild hcg
          (by show h.size ≤ child + fuel
              omega)
          hcs hcp ((hmn.enter ht hns hchild).congr_nodes rfl)
        exact ⟨heq, hrg, hrm.congr_nodes rfl, ((Under.refl node).made hcp).trans hu⟩
      · exact ⟨rfl, hg, hmn, .refl _⟩
    · exact ⟨rfl, hg, hmn, .refl _⟩

/-- What `redo` does to a history that remembers its way: it goes to the last node
of the group of its redo target. -/
theorem redo_spec {h : UndoHistory} (hw : WF h) (hm : Remembers h h.current)
    (hr : h.redo = some (h', step)) :
    h'.nodes = h.nodes ∧ Remembers h' h'.current ∧ ∃ first,
      h.redoTarget h.current = some first ∧ h.groupOf h'.current = h.groupOf first ∧
      Under h.parentOf first h'.current := by
  unfold redo at hr
  split at hr
  · cases hr
  · rename_i first hfirst
    obtain ⟨heq, hrg, hrm, hu⟩ := redoLoop_way h.size emptyStep hw.toTree hm hw.tip.1 hfirst rfl
      (Nat.le_add_left _ _)
    cases hr
    have hnodes := congrArg UndoHistory.nodes heq
    exact ⟨hnodes, hrm.congr_nodes hnodes, first, hfirst, hrg, hu⟩

/-- Node `n` stands strictly below `p`. -/
def Below (h : UndoHistory) (p n : Nat) : Prop :=
  ∃ c, h.parentOf c = some p ∧ Under h.parentOf c n

/-- `navUp` changes no redo target of a history that remembers its way. -/
theorem navUp_way {lca fuel : Nat} {s : NavState} (ht : Tree s.hist) (hm : Remembers s.hist c)
    (hc : c < s.hist.size) (hfuel : c ≤ fuel) (hanc : lca ∈ s.hist.ancestry fuel c) :
    (navUp lca fuel c s).hist = s.hist ∧ Remembers s.hist lca := by
  induction fuel generalizing c s with
  | zero =>
    obtain rfl : lca = c := List.mem_singleton.mp hanc
    exact ⟨rfl, hm⟩
  | succ fuel ih =>
    obtain ⟨rfl, hstay⟩ | ⟨p, hp, hanc', hgo⟩ := navUp_succ hanc
    · rw [hstay]
      exact ⟨rfl, hm⟩
    · have hlt := ht.parent_lt hc hp
      have hsame : (s.leave c p).hist = s.hist := hm.setRedoChild_eq hp
      have hstep := ih (c := p) (s := s.leave c p) (by rw [hsame]; exact ht)
        (by rw [hsame]; exact hm.leave hp) (by rw [hsame]; omega) (by omega)
        (by rw [hsame]; exact hanc')
      rw [hgo]
      rw [hsame] at hstep
      exact hstep

/-- `navDown` remembers the way it goes, and only that. -/
theorem navDown_way {target : Nat} (down : List Nat) {s : NavState} (ht : Tree s.hist)
    (hm : Remembers s.hist c) (hwalk : Walk s.hist.parentOf c (down.map .into) target)
    (hdown : ∀ n ∈ down, n < s.hist.size) :
    let r := navDown down s
    Remembers r.hist target ∧ ∀ q, ¬ s.hist.Below q target →
      (r.hist.node q).redoChild = (s.hist.node q).redoChild := by
  induction down generalizing c s with
  | nil =>
    cases hwalk
    exact ⟨hm, fun q _ => rfl⟩
  | cons n rest ih =>
    cases hwalk with
    | into hp hrest =>
      have hhist := hist_enter s hp
      have hrel : Relinked s.hist (s.enter n).hist := (crossed_enter s hp).relinked
      have hn := hdown n List.mem_cons_self
      have hcs := Nat.lt_trans (ht.parent_lt hn hp) hn
      obtain ⟨hrm, hkept⟩ := ih (c := n) (s := s.enter n)
        (by rw [hhist]; exact ht.setRedoChild hn hp)
        (by rw [hhist]; exact hm.setRedoChild ht hcs hp)
        (by rw [hrel.parentOf]; exact hrest)
        (by rw [hrel.size]; exact fun m hm => hdown m (List.mem_cons_of_mem _ hm))
      refine ⟨hrm, fun q hq => ?_⟩
      have hkeptq := hkept q (by
        rw [Below, hrel.parentOf]
        exact hq)
      -- the one node entered from has the target below it
      have hqc : q ≠ c := by
        rintro rfl
        exact hq ⟨n, hp, hrest.under⟩
      refine hkeptq.trans ?_
      rw [hhist, node_setRedoChild, if_neg (fun hand => hqc hand.1)]

/-- Navigating remembers the way to where it comes, and writes no other branch. -/
theorem navigateTo_way {h : UndoHistory} {target : Nat} (hw : WF h) (hm : Remembers h h.current)
    (ht : h.GroupTip target) (hn : h.navigateTo target = some (h', step)) :
    Remembers h' h'.current ∧ ∀ q, ¬ h.Below q h'.current →
      (h'.node q).redoChild = (h.node q).redoChild := by
  obtain ⟨lca, path, hanc, hwalk, hpath, rfl, rfl⟩ := navigateTo_cases hw ht.1 hn
  obtain ⟨hup, hlca⟩ := navUp_way (s := ⟨h, emptyStep, none⟩) hw.toTree hm hw.tip.1
    (Nat.le_of_lt hw.tip.1) hanc
  set up := navUp lca h.size h.current ⟨h, emptyStep, none⟩
  obtain ⟨hrm, hkept⟩ := navDown_way path (c := lca) (s := { up with group := none })
    (by show Tree up.hist
        rw [hup]
        exact hw.toTree)
    (by show Remembers up.hist lca
        rw [hup]
        exact hlca)
    (by show Walk up.hist.parentOf _ _ _
        rw [hup]
        exact hwalk)
    (by show ∀ n ∈ path, n < up.hist.size
        rw [hup]
        exact fun n hn => (hpath n hn).1)
  refine ⟨hrm.congr_nodes rfl, fun q hq => ?_⟩
  refine (hkept q ?_).trans ?_
  · show ¬ up.hist.Below q target
    rw [hup]
    exact hq
  · show (up.hist.node q).redoChild = _
    rw [hup]

/-- The chronological neighbours are group tips. -/
theorem toChronological_tip {h : UndoHistory} {older : Bool} (hw : WF h)
    (hc : h.toChronological older = some (h', step)) :
    ∃ target, h.GroupTip target ∧ h.navigateTo target = some (h', step) := by
  obtain ⟨pos, hp⟩ := hw.exists_place
  rw [toChronological_eq hw hp, Option.bind_eq_some_iff] at hc
  obtain ⟨target, htarget, hn⟩ := hc
  have hlt : target < h.groupTips.length := by
    obtain ⟨hplt, -⟩ := List.getElem?_eq_some_iff.mp hp
    unfold chronologicalTarget at htarget
    split at htarget
    · split at htarget
      · cases htarget
      · cases htarget
        omega
    · split at htarget
      · cases htarget
        assumption
      · cases htarget
  refine ⟨_, (mem_groupTips hw.toTree).mp ?_, hn⟩
  rw [List.getD_eq_getElem _ _ hlt]
  exact List.getElem_mem hlt

/-- Each move keeps the way to where it goes, and changes the redo target only of
nodes above that. -/
theorem Move.way {h : UndoHistory} (hw : WF h) (hm : Remembers h h.current) (hmove : h.Move h' step) :
    Remembers h' h'.current ∧ ∀ q, ¬ h.Below q h'.current →
      (h'.node q).redoChild = (h.node q).redoChild := by
  have hsame : h'.nodes = h.nodes → ∀ q, (h'.node q).redoChild = (h.node q).redoChild := by
    intro hnodes q
    rw [node, node, hnodes]
  rcases hmove with hu | hr | ⟨older, hc⟩
  · obtain ⟨hnodes, first, -, hfp, -, hunder⟩ := undo_spec hw hm hu
    have habove := hm.above (((Under.refl h'.current).made hfp).trans hunder)
    exact ⟨habove.congr_nodes hnodes, fun q _ => hsame hnodes q⟩
  · obtain ⟨hnodes, hrm, -⟩ := redo_spec hw hm hr
    exact ⟨hrm, fun q _ => hsame hnodes q⟩
  · obtain ⟨target, htip, hn⟩ := toChronological_tip hw hc
    exact navigateTo_way hw hm htip hn

/-- A recorded change is remembered as the way to itself. -/
theorem remembers_record {h : UndoHistory} (hw : WF h) (hm : Remembers h h.current)
    (fwd inv : EditList) (origin : TransactionOrigin) (hint : GroupHint)
    (revision cursor : Nat) :
    let r := h.record fwd inv origin hint revision cursor
    Remembers r r.current ∧
      ∀ q, ¬ r.Below q r.current → (r.node q).redoChild = (h.node q).redoChild := by
  dsimp only
  set r := h.record fwd inv origin hint revision cursor with hr
  have hc := hw.tip.1
  have hsize : r.size = h.size + 1 := size_record ..
  have hcur : r.current = h.size := current_record ..
  have hnew := node_record_new h fwd inv origin hint revision cursor hc
  have hold := fun {i : Nat} (hi : i < h.size) =>
    node_record_old h fwd inv origin hint revision cursor hi
  have hpold := fun {i : Nat} (hi : i < h.size) =>
    parentOf_record_old fwd inv origin hint revision cursor (h := h) hi
  rw [← hr] at hnew
  have hpnew : r.parentOf h.size = some h.current := by rw [parentOf, hnew]
  have htr : Tree r := (wf_record hw fwd inv origin hint revision cursor).toTree
  rw [hcur]
  -- the way to an old node is the old way
  have hunder : ∀ {c n : Nat}, n < h.size → Under r.parentOf c n → Under h.parentOf c n := by
    intro c n hn hu
    induction hu with
    | refl => exact .refl _
    | @tail m n _ hp ih =>
      have hmn := htr.older _ _ hp
      rw [hpold hn] at hp
      exact (ih (by omega)).made hp
  refine ⟨⟨?_, ?_⟩, ?_⟩
  · intro p c hp hu
    rcases hu.last hpnew with rfl | hup
    · rw [hpnew] at hp
      cases hp
      rw [hold hc, if_pos rfl]
    · have hcc := hup.le htr.older
      have hpc := htr.older _ _ hp
      rw [hpold (by omega)] at hp
      rw [hold (by omega), if_neg (by omega)]
      exact hm.way p c hp (hunder hc hup)
  · intro p c hp
    have hpc := htr.older _ _ hp
    have hcs := lt_size_of_parentOf hp
    rw [hold (by omega)]
    split
    · exact fun habs => by cases habs
    · rename_i hpcur
      refine hm.linked p c ?_
      rcases Nat.lt_or_ge c h.size with hcold | hcnew
      · rwa [hpold hcold] at hp
      · obtain rfl : c = h.size := by omega
        rw [hpnew] at hp
        exact absurd (Option.some.inj hp).symm hpcur
  · intro q hq
    have hqc : q ≠ h.current := by
      rintro rfl
      exact hq ⟨h.size, hpnew, .refl _⟩
    rcases Nat.lt_trichotomy q h.size with hlt | rfl | hgt
    · rw [hold hlt, if_neg hqc]
    · rw [hnew, node, List.getD_eq_default _ _ (Nat.le_refl _)]
      rfl
    · have hge : r.size ≤ q := by omega
      rw [node, node, List.getD_eq_default _ _ hge,
        List.getD_eq_default _ _ (Nat.le_of_lt hgt)]

/-- What one operation of a document does to its history. -/
inductive HistStep (h : UndoHistory) : UndoHistory → Prop
  | quiet (synced : Bool) : HistStep h { h with synced }
  | record (fwd inv : EditList) (origin : TransactionOrigin) (hint : GroupHint)
      (revision cursor : Nat) (synced synced' : Bool) :
      HistStep h
        { ({ h with synced }.record fwd inv origin hint revision cursor) with synced := synced' }
  | move {h' : UndoHistory} {step : UndoStep} : h.Move h' step → HistStep h h'

theorem WF.setSynced {h : UndoHistory} (hw : WF h) (synced : Bool) : WF { h with synced } :=
  have hrel : Relinked h { h with synced } := ⟨rfl, fun _ => rfl, rfl, rfl, rfl⟩
  { hrel.tree hw.toTree hw.redoChild with
    tip := hw.tip
    newest := hw.newest }

/-- An operation keeps the way to where the history stands, and changes the redo
target only of nodes the history stands below after it. -/
theorem HistStep.way {h : UndoHistory} (hs : HistStep h h') (hw : WF h) (hm : Remembers h h.current) :
    Remembers h' h'.current ∧ ∀ q, ¬ h'.Below q h'.current →
      (h'.node q).redoChild = (h.node q).redoChild := by
  cases hs with
  | quiet synced => exact ⟨hm.congr_nodes rfl, fun q _ => rfl⟩
  | record fwd inv origin hint revision cursor synced synced' =>
    obtain ⟨hrm, hkept⟩ := remembers_record (hw.setSynced synced) (hm.congr_nodes rfl) fwd inv
      origin hint revision cursor
    exact ⟨hrm.congr_nodes rfl, hkept⟩
  | move hmove =>
    obtain ⟨hrm, hkept⟩ := hmove.way hw hm
    have hrel := (hmove.moved hw).crossed.relinked
    refine ⟨hrm, fun q hq => hkept q ?_⟩
    rw [Below, ← hrel.parentOf]
    exact hq

end UndoHistory

namespace Document

open UndoHistory

/-- An applied transaction records one change, or none. -/
theorem applyInner_history {d d' : Document} {txn : Transaction} {track : Bool}
    {tracked tracked' : List Tracked}
    (h : d.applyInner txn track tracked = .ok (d', tracked')) :
    d'.undo = d.undo ∨ ∃ fwd inv origin hint revision cursor,
      d'.undo = d.undo.record fwd inv origin hint revision cursor := by
  unfold applyInner at h
  split at h
  · cases h
  · split at h
    · cases h
    · cases h
    · split at h
      · cases h
        exact .inl rfl
      · obtain ⟨d₁, t₁, hc⟩ : ∃ d₁ t₁, d.commit txn track tracked = (d₁, t₁) := ⟨_, _, rfl⟩
        rw [hc] at h
        cases h
        have hundo := congrArg (fun r : Document × List Tracked => r.1.undo) hc
        exact .inr ⟨_, _, _, _, _, _, hundo.symm⟩

theorem applyInner_histStep {d d' : Document} {txn : Transaction} {track : Bool}
    {tracked tracked' : List Tracked}
    (h : d.applyInner txn track tracked = .ok (d', tracked')) : HistStep d.undo d'.undo := by
  rcases applyInner_history h with heq | ⟨fwd, inv, origin, hint, revision, cursor, heq⟩
  · rw [heq]
    exact .quiet d.undo.synced
  · rw [heq]
    exact .record fwd inv origin hint revision cursor d.undo.synced false

@[simp] theorem replay_undo (d : Document) (st : UndoStep) (cursor : Nat)
    (tracked : List Tracked) : (d.replay st cursor tracked).1.undo = d.undo := by
  obtain ⟨s, -, hfold⟩ := replayFold_inner st st.edits.zipIdx
    ⟨d, tracked, [], (0, 0), UndoCursor.lineCount d.text, []⟩
  exact congrArg Inner.undo hfold

theorem lineUndoTracked_histStep (d : Document) (cursor : Nat) (origin : TransactionOrigin)
    (tracked : List Tracked) :
    HistStep d.undo (d.lineUndoTracked cursor origin tracked).1.undo := by
  unfold lineUndoTracked
  split
  · exact .quiet d.undo.synced
  · dsimp only
    split
    · exact .quiet d.undo.synced
    · split
      · exact .quiet d.undo.synced
      · rename_i happ
        have hstep := applyInner_histStep happ
        exact hstep

/-- A reload makes one step of the history, or none. -/
theorem reloadTracked_histStep (d : Document) (bytes : Bytes) (tracked : List Tracked) :
    HistStep d.undo (d.reloadTracked bytes tracked).1.undo := by
  unfold reloadTracked
  split
  · exact .quiet d.undo.synced
  · dsimp only
    split
    · exact .quiet true
    · rename_i d' tracked' happ
      -- the change is recorded between the two syncs
      rcases applyInner_history happ with heq | ⟨fwd, inv, origin, hint, revision, cursor, heq⟩
      · have hend : d'.syncUndo.markSaved.undo = { d.undo with synced := true } :=
          congrArg (fun h : UndoHistory => { h with synced := true }) heq
        rw [hend]
        exact .quiet true
      · have hend : d'.syncUndo.markSaved.undo = { (({ d.undo with synced := true } :
            UndoHistory).record fwd inv origin hint revision cursor) with synced := true } :=
          congrArg (fun h : UndoHistory => { h with synced := true }) heq
        rw [hend]
        exact .record fwd inv origin hint revision cursor true true

/-- Every operation makes one step of the history, or none. -/
theorem step_histStep (d : Document) (op : Op) : HistStep d.undo (step d op).undo := by
  cases op with
  | apply txn tracked =>
    simp only [step]
    split
    · rename_i happ
      exact applyInner_histStep happ
    · exact .quiet d.undo.synced
  | undo cursor tracked =>
    simp only [step, undoTracked]
    cases hu : d.undo.undo with
    | none => exact .quiet d.undo.synced
    | some r =>
      show HistStep d.undo ({ d with undo := r.1 }.replay r.2 cursor tracked).1.undo
      rw [replay_undo]
      exact .move (.inl hu)
  | redo cursor tracked =>
    simp only [step, redoTracked]
    cases hr : d.undo.redo with
    | none => exact .quiet d.undo.synced
    | some r =>
      show HistStep d.undo ({ d with undo := r.1 }.replay r.2 cursor tracked).1.undo
      rw [replay_undo]
      exact .move (.inr (.inl hr))
  | chronological older cursor tracked =>
    simp only [step, chronologicalTracked]
    cases hc : d.undo.toChronological older with
    | none => exact .quiet d.undo.synced
    | some r =>
      show HistStep d.undo ({ d with undo := r.1 }.replay r.2 cursor tracked).1.undo
      rw [replay_undo]
      exact .move (.inr (.inr ⟨older, hc⟩))
  | lineUndo cursor origin tracked => exact lineUndoTracked_histStep d cursor origin tracked
  | reload bytes tracked => exact reloadTracked_histStep d bytes tracked
  | syncUndo => exact .quiet true
  | markSaved => exact .quiet true
  | markUnsaved => exact .quiet d.undo.synced
  | beginUndoBlock => exact .quiet d.undo.synced
  | endUndoBlock => exact .quiet d.undo.synced
  | primeLineUndo cursor newCommand => exact .quiet d.undo.synced
  | clearLineUndo disarm => exact .quiet d.undo.synced
  | recordChanges on => exact .quiet d.undo.synced
  | setChangeLogCap cap => exact .quiet d.undo.synced
  | drainChanges => exact .quiet d.undo.synced
  | lookupLines => exact .quiet d.undo.synced
  | pinTracked tracked => exact .quiet d.undo.synced
  | takePinned => exact .quiet d.undo.synced
  | createAnchor offset bias policy => exact .quiet d.undo.synced
  | createLineAnchor offset gravity => exact .quiet d.undo.synced
  | removeAnchor id => exact .quiet d.undo.synced
  | setModifiable on => exact .quiet d.undo.synced

/-- What a document keeps over a run from `root`. -/
structure Steady (root : Bytes) (d : Document) : Prop where
  versioned : Versioned root d.inner
  way : d.undo.Remembers d.undo.current

namespace Steady

variable {root : Bytes} {d : Document}

theorem wf (hs : Steady root d) : d.undo.WF := hs.versioned.wf

theorem next (hs : Steady root d) (op : Op) : Steady root (step d op) where
  versioned := (step_versioned d op hs.versioned).1
  way := ((step_histStep d op).way hs.wf hs.way).1

theorem text_eq {e : Document} (hs : Steady root d) (he : Steady root e)
    (hr : Relinked d.undo e.undo) (hcur : e.undo.current = d.undo.current) :
    e.text = d.text :=
  calc e.text = e.undo.textOf root e.undo.current := he.versioned.text
    _ = d.undo.textOf root d.undo.current := by rw [hr.textOf, hcur]
    _ = d.text := hs.versioned.text.symm

end Steady

theorem steady_run (initial : Bytes) (revision : Nat) (ops : List Op) :
    Steady initial (run step (startingAt initial revision) ops) :=
  run_invariant (P := Steady initial) (fun _ op hs => hs.next op)
    ⟨versioned_startingAt initial revision, remembers_new revision _⟩ ops

/-! ## One move and back -/

theorem undoTracked_isSome (d : Document) (cursor : Nat) (tracked : List Tracked) :
    (d.undoTracked cursor tracked).isSome = d.undo.undo.isSome := by
  rw [undoTracked, Option.isSome_map]

theorem redoTracked_isSome (d : Document) (cursor : Nat) (tracked : List Tracked) :
    (d.redoTracked cursor tracked).isSome = d.undo.redo.isSome := by
  rw [redoTracked, Option.isSome_map]

theorem step_undo_undo {d : Document} {h : UndoHistory} (hu : d.undo.undo = some (h, st))
    (cursor : Nat) (tracked : List Tracked) :
    (step d (.undo cursor tracked)).undo = h := by
  simp only [step, undoTracked, hu, Option.map_some, Option.getD_some]
  exact replay_undo _ st cursor tracked

theorem step_redo_undo {d : Document} {h : UndoHistory} (hr : d.undo.redo = some (h, st))
    (cursor : Nat) (tracked : List Tracked) :
    (step d (.redo cursor tracked)).undo = h := by
  simp only [step, redoTracked, hr, Option.map_some, Option.getD_some]
  exact replay_undo _ st cursor tracked

end Document

namespace UndoHistory

variable {step : UndoStep}

theorem redo_isSome {h : UndoHistory} : h.redo.isSome = (h.redoTarget h.current).isSome := by
  unfold redo
  split
  · rename_i hnone
    rw [hnone]
    rfl
  · rename_i first hfirst
    rw [hfirst]
    rfl

theorem undo_isSome {h : UndoHistory} : h.undo.isSome = (h.parentOf h.current).isSome := by
  unfold undo parentOf
  split
  · rename_i hnone
    rw [hnone]
    rfl
  · rename_i p hp
    rw [hp]
    rfl

/-- Only at the root has `undo` nothing to do. -/
theorem undo_isSome_iff {h : UndoHistory} (hw : WF h) : h.undo.isSome ↔ 0 < h.current := by
  rw [undo_isSome]
  constructor
  · intro hp
    rcases Nat.eq_zero_or_pos h.current with h0 | hpos
    · rw [h0, hw.root] at hp
      cases hp
    · exact hpos
  · intro hpos
    obtain ⟨p, -, hp⟩ := hw.parent _ hw.tip.1 hpos
    rw [hp]
    rfl

/-- After an undo a redo comes back. -/
theorem redo_undo {h : UndoHistory} (hw : WF h) (hm : Remembers h h.current)
    (hu : h.undo = some (h', st)) :
    ∃ h'' st', h'.redo = some (h'', st') ∧ Relinked h h'' ∧ h''.current = h.current := by
  obtain ⟨hnodes, first, hfg, hfp, hne, hunder⟩ := undo_spec hw hm hu
  have hmoved := undo_moved hw hu
  have hrel := hmoved.crossed.relinked
  have hm' : Remembers h' h'.current :=
    (hm.above (((Under.refl h'.current).made hfp).trans hunder)).congr_nodes hnodes
  have htarget : h'.redoTarget h'.current = some first := by
    rw [hm'.redoTarget_eq hmoved.tree hmoved.tip.1]
    show (h'.nodes.getD h'.current _).redoChild = some first
    rw [hnodes]
    exact hm.way _ _ hfp hunder
  obtain ⟨⟨h'', st'⟩, hr⟩ : ∃ r, h'.redo = some r := by
    rw [← Option.isSome_iff_exists, redo_isSome, htarget]
    rfl
  obtain ⟨-, -, first', hfirst', hg', -⟩ := redo_spec hmoved.wf hm' hr
  have hmoved' := redo_moved hmoved.wf hr
  rw [htarget] at hfirst'
  cases hfirst'
  rw [hrel.groupOf, hfg] at hg'
  have hrel' := hrel.trans hmoved'.crossed.relinked
  -- both are the last node of that group
  exact ⟨h'', st', hr, hrel', hw.tip_unique ((hrel'.groupTip _).mp hmoved'.tip) hw.tip hg'⟩

/-- After a redo an undo comes back. -/
theorem undo_redo {h : UndoHistory} (hw : WF h) (hm : Remembers h h.current)
    (hr : h.redo = some (h', st)) :
    ∃ h'' st', h'.undo = some (h'', st') ∧ Relinked h h'' ∧ h''.current = h.current := by
  obtain ⟨-, hm', first, hfirst, hg, hunder⟩ := redo_spec hw hm hr
  have hmoved := redo_moved hw hr
  have hrel := hmoved.crossed.relinked
  obtain ⟨hfs, hfp⟩ := hw.redoTarget_child hw.tip.1 hfirst
  have hpos : 0 < h'.current := by
    have := hw.older _ _ hfp
    have := hunder.le hw.older
    omega
  obtain ⟨⟨h'', st'⟩, hu⟩ : ∃ r, h'.undo = some r :=
    Option.isSome_iff_exists.mp ((undo_isSome_iff hmoved.wf).mpr hpos)
  obtain ⟨-, first', hfg', hfp', hne', -⟩ := undo_spec hmoved.wf hm' hu
  have hmoved' := undo_moved hmoved.wf hu
  rw [hrel.groupOf] at hfg' hne'
  rw [hrel.parentOf] at hfp'
  -- the group entered starts below a tip, so `first` is its first node
  have hne : h.groupOf h.current ≠ h.groupOf first := by
    intro heq
    have hnext := hw.contiguous (k := h.current + 1) (Nat.le_succ _) (hw.older _ _ hfp) hfs heq
    exact hw.tip.2 (by have := hw.older _ _ hfp; omega) hnext
  obtain rfl := hw.first_unique (hfg'.trans hg) hfp' hfp hne' hne
  rw [hfp] at hfp'
  exact ⟨h'', st', hu, hrel.trans hmoved'.crossed.relinked, (Option.some.inj hfp').symm⟩

end UndoHistory

namespace Document

open UndoHistory

/-- Another document at the same node, with the same bytes. -/
def SameState (e d : Document) : Prop := e.undo.current = d.undo.current ∧ e.text = d.text

namespace Steady

variable {root : Bytes} {d : Document} (cursor cursor' : Nat) (tracked tracked' : List Tracked)

theorem redo_undo (hs : Steady root d) (hu : (d.undoTracked cursor tracked).isSome) :
    let d' := step d (.undo cursor tracked)
    (d'.redoTracked cursor' tracked').isSome ∧
      SameState (step d' (.redo cursor' tracked')) d := by
  rw [undoTracked_isSome] at hu
  obtain ⟨⟨h', st⟩, hu⟩ := Option.isSome_iff_exists.mp hu
  obtain ⟨h'', st', hr, hrel, hcur⟩ := UndoHistory.redo_undo hs.wf hs.way hu
  have hd' := step_undo_undo hu cursor tracked
  rw [← hd'] at hr
  have hd'' := step_redo_undo hr cursor' tracked'
  refine ⟨?_, ?_⟩
  · rw [redoTracked_isSome, hr]
    rfl
  · rw [← hd''] at hrel hcur
    exact ⟨hcur, hs.text_eq ((hs.next _).next _) hrel hcur⟩

theorem undo_redo (hs : Steady root d) (hr : (d.redoTracked cursor tracked).isSome) :
    let d' := step d (.redo cursor tracked)
    (d'.undoTracked cursor' tracked').isSome ∧
      SameState (step d' (.undo cursor' tracked')) d := by
  rw [redoTracked_isSome] at hr
  obtain ⟨⟨h', st⟩, hr⟩ := Option.isSome_iff_exists.mp hr
  obtain ⟨h'', st', hu, hrel, hcur⟩ := UndoHistory.undo_redo hs.wf hs.way hr
  have hd' := step_redo_undo hr cursor tracked
  rw [← hd'] at hu
  have hd'' := step_undo_undo hu cursor' tracked'
  refine ⟨?_, ?_⟩
  · rw [undoTracked_isSome, hu]
    rfl
  · rw [← hd''] at hrel hcur
    exact ⟨hcur, hs.text_eq ((hs.next _).next _) hrel hcur⟩

/-- Where nothing can be undone the text is the first one. -/
theorem at_root (hs : Steady root d) (hu : d.undoTracked cursor tracked = none) :
    d.undo.current = 0 ∧ d.text = root := by
  have hnone : ¬ (d.undoTracked cursor tracked).isSome := by rw [hu]; exact Bool.false_ne_true
  rw [undoTracked_isSome, undo_isSome_iff hs.wf] at hnone
  have h0 : d.undo.current = 0 := by omega
  have htext : d.text = d.undo.textOf root d.undo.current := hs.versioned.text
  refine ⟨h0, ?_⟩
  rw [htext, h0]
  -- the first edge is the root's, which has none
  show (versions EditList.applyTo root d.undo.edges).getD 0 root = root
  have hroot : d.undo.edges.head? = some none := by
    rw [edges, List.head?_map, List.head?_range, if_neg (by have := hs.wf.nonempty; omega)]
    show some ((d.undo.parentOf 0).map fun p => (p, d.undo.forwardOf 0)) = some none
    rw [hs.wf.root]
    rfl
  cases hes : d.undo.edges with
  | nil => rfl
  | cons e es =>
    rw [hes] at hroot
    cases hroot
    have hkept : version EditList.applyTo root ([none] ++ es) 0 =
        version EditList.applyTo root [none] 0 := version_append _ _ Nat.one_pos
    exact hkept

theorem current_undo (hs : Steady root d) :
    (step d (.undo cursor tracked)).undo.current ≤ d.undo.current - 1 := by
  cases hu : d.undo.undo with
  | none =>
    have h0 : ¬ 0 < d.undo.current := by
      rw [← undo_isSome_iff hs.wf, hu]
      exact Bool.false_ne_true
    simp only [Document.step, undoTracked, hu, Option.map_none, Option.getD_none]
    omega
  | some r =>
    rw [step_undo_undo hu cursor tracked]
    obtain ⟨-, first, -, hfp, -, hunder⟩ := undo_spec hs.wf hs.way hu
    have := hs.wf.older _ _ hfp
    have := hunder.le hs.wf.older
    omega

end Steady

/-- The undos with the cursors and positions `args`. -/
def undos (args : List (Nat × List Tracked)) : List Op := args.map fun a => .undo a.1 a.2

theorem Steady.after_undos {root : Bytes} {d : Document} (hs : Steady root d)
    (args : List (Nat × List Tracked)) :
    Steady root (run step d (undos args)) ∧
      (run step d (undos args)).undo.current ≤ d.undo.current - args.length := by
  induction args generalizing d with
  | nil => exact ⟨hs, Nat.le_refl _⟩
  | cons a args ih =>
    obtain ⟨hend, hle⟩ := ih (hs.next (.undo a.1 a.2))
    have hfirst := hs.current_undo a.1 a.2
    refine ⟨hend, ?_⟩
    show (run step (step d (.undo a.1 a.2)) (undos args)).undo.current ≤ _
    rw [List.length_cons]
    omega

/-- The branch last left is the one redo enters: if the history stood below `p` on
the branch of `c`, and since then nowhere else below `p`, then `c` is the redo child. -/
theorem Steady.redoChild_run {root : Bytes} {d : Document} (hs : Steady root d) {p : Nat}
    (hc : (d.undo.node p).redoChild = some c) (later : List Op)
    (hlast : ∀ j ≤ later.length, ∀ c', (moment step d later j).undo.parentOf c' = some p → Under (moment step d later j).undo.parentOf c' (moment step d later j).undo.current → c' = c) :
    ((run step d later).undo.node p).redoChild = some c := by
  induction later generalizing d with
  | nil => exact hc
  | cons op later ih =>
    have hs' := hs.next op
    refine ih hs' ?_ fun j hj => ?_
    · obtain ⟨-, hkept⟩ := (step_histStep d op).way hs.wf hs.way
      by_cases hbelow : (step d op).undo.Below p (step d op).undo.current
      · obtain ⟨c', hp, hu⟩ := hbelow
        have hfirst := hlast 1 (by simp) c'
        obtain rfl : c' = c := hfirst hp hu
        exact hs'.way.way p c' hp hu
      · rw [hkept p hbelow]
        exact hc
    · exact hlast (j + 1) (Nat.succ_le_succ hj)

/-- **Undo and redo are inverse moves.** For every run of operations from a fresh
document: an undo is taken back by the next redo and a redo by the next undo, to
the same node and bytes; a redo at a node enters the branch of its child `c` if
that is where the history last stood below it; and undoing as often as there are
nodes below the current one reaches the root and the initial text, as does any
undo that finds nothing left. -/
theorem undo_redo_inverse (initial : Bytes) (revision : Nat) (ops : List Op)
    (cursor cursor' : Nat) (tracked tracked' : List Tracked) :
    let d := run step (startingAt initial revision) ops
    ((d.undoTracked cursor tracked).isSome →
      let d' := step d (.undo cursor tracked)
      (d'.redoTracked cursor' tracked').isSome ∧
        SameState (step d' (.redo cursor' tracked')) d) ∧
    ((d.redoTracked cursor tracked).isSome →
      let d' := step d (.redo cursor tracked)
      (d'.undoTracked cursor' tracked').isSome ∧
        SameState (step d' (.undo cursor' tracked')) d) ∧
    (∀ (later : List Op) (p c : Nat), d.undo.parentOf c = some p →
      Under d.undo.parentOf c d.undo.current →
      (∀ j ≤ later.length, ∀ c', (moment step d later j).undo.parentOf c' = some p →
        Under (moment step d later j).undo.parentOf c' (moment step d later j).undo.current →
        c' = c) →
      let e := run step d later
      e.undo.current = p →
      (e.redoTracked cursor tracked).isSome ∧
        Under e.undo.parentOf c (step e (.redo cursor tracked)).undo.current) ∧
    (∀ args : List (Nat × List Tracked), d.undo.current ≤ args.length →
      let e := run step d (undos args)
      e.undoTracked cursor tracked = none ∧ e.undo.current = 0 ∧ e.text = initial) ∧
    (d.undoTracked cursor tracked = none → d.undo.current = 0 ∧ d.text = initial) := by
  intro d
  have hs : Steady initial d := steady_run initial revision ops
  refine ⟨hs.redo_undo cursor cursor' tracked tracked', hs.undo_redo cursor cursor' tracked
    tracked', ?_, ?_, hs.at_root cursor tracked⟩
  · intro later p c hp hu hlast e hcur
    have he : Steady initial e := by
      have hrun := steady_run initial revision (ops ++ later)
      rwa [run_append] at hrun
    have hchild := hs.redoChild_run (hs.way.way p c hp hu) later hlast
    have htarget : e.undo.redoTarget e.undo.current = some c := by
      rw [he.way.redoTarget_eq he.wf.toTree he.wf.tip.1, hcur]
      exact hchild
    obtain ⟨⟨h', st⟩, hr⟩ : ∃ r, e.undo.redo = some r := by
      rw [← Option.isSome_iff_exists, redo_isSome, htarget]
      rfl
    obtain ⟨-, -, first, hfirst, -, hunder⟩ := redo_spec he.wf he.way hr
    rw [htarget] at hfirst
    cases hfirst
    refine ⟨?_, ?_⟩
    · rw [redoTracked_isSome, hr]
      rfl
    · rw [step_redo_undo hr cursor tracked]
      exact hunder
  · intro args hargs
    obtain ⟨hend, hle⟩ := hs.after_undos args
    have hzero : ¬ 0 < (run step d (undos args)).undo.current := by omega
    rw [← undo_isSome_iff hend.wf, ← undoTracked_isSome _ cursor tracked] at hzero
    have hnone := Option.not_isSome_iff_eq_none.mp hzero
    exact ⟨hnone, hend.at_root cursor tracked hnone⟩

/-- Two changes made from the root, the first one undone before the second. -/
def twoBranches : List Op :=
  [.apply (.new 0 ⟨[.insert 0 [97]], by decide, by decide⟩ .userInput) [],
    .undo 0 [],
    .apply (.new 2 ⟨[.insert 0 [98]], by decide, by decide⟩ .userInput) []]

/-- After an undo from the second branch, redo goes back to it and not to the
first. -/
theorem undo_redo_inverse_branches :
    let d := run step (startingAt [] 0) twoBranches
    let e := run step d [.undo 0 []]
    SameState (step (step d (.undo 0 [])) (.redo 0 [])) d ∧
      SameState (step (step e (.redo 0 [])) (.undo 0 [])) e ∧
      Under e.undo.parentOf 2 (step e (.redo 0 [])).undo.current ∧
      (run step d (undos [(0, []), (0, [])])).text = [] ∧ e.text = [] := by
  intro d e
  have hd : Steady [] d := steady_run [] 0 twoBranches
  have he : Steady [] e := hd.next (.undo 0 [])
  obtain ⟨hundo, -, hbranch, hroot, -⟩ := undo_redo_inverse [] 0 twoBranches 0 0 [] []
  obtain ⟨-, hredo, -, -, hnone⟩ :=
    undo_redo_inverse [] 0 (twoBranches ++ [.undo 0 []]) 0 0 [] []
  have hbelow : Under d.undo.parentOf 2 d.undo.current := .refl 2
  refine ⟨(hundo (by decide)).2, (hredo (by decide)).2, ?_, (hroot _ (by decide)).2.2,
    (hnone (by decide)).2⟩
  refine (hbranch [.undo 0 []] 0 2 rfl hbelow ?_ rfl).2
  intro j hj c' hp hu
  rcases Nat.le_one_iff_eq_zero_or_eq_one.mp hj with rfl | rfl
  · exact hbelow.child_unique hd.wf.older rfl hp hu
  · -- the undo went to the root
    have hle := hu.le he.wf.older
    obtain rfl : c' = 0 := Nat.le_zero.mp hle
    cases hp

end Document

end Ruse.Core
