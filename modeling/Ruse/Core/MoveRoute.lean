import Ruse.Core.UndoRedo
import Ruse.Core.MarkReplay

/-!
# The groups a move crosses

An undo, a redo and a chronological move all go up to a node and down from it,
never out of a node and back into it (`Move.route`). Both ends and the node
between are last nodes of their groups, so each half of the way is a sequence of
whole groups (`Spans`), each crossed from its first node to its last or back, and no
two groups that follow each other on the way are the same (`Move.crosses`).
-/

namespace Ruse.Core

open Ruse.Lib Ruse.Lib.VersionTree

namespace UndoHistory

/-! ## The way of a move -/

/-- The loop appended to `out` the inverse lists of `up`, last first, and the
forward lists of `down`. -/
structure Emits (h : UndoHistory) (up down : List Nat) (out out' : UndoStep) : Prop where
  edits : out'.edits = out.edits ++ (up.reverse.map h.inverseOf ++ down.map h.forwardOf)
  groups : out'.groups = out.groups ++ (up.reverse.map h.groupOf ++ down.map h.groupOf)

namespace Emits

variable {h : UndoHistory} {up up' down down' : List Nat} {out out' out'' : UndoStep}

theorem none (h : UndoHistory) (out : UndoStep) : Emits h [] [] out out :=
  ⟨by simp, by simp⟩

theorem leave {n : Nat} (he : out'.edits = out.edits ++ [h.inverseOf n])
    (hg : out'.groups = out.groups ++ [h.groupOf n]) (h' : Emits h up [] out' out'') :
    Emits h (up ++ [n]) [] out out'' :=
  ⟨by rw [h'.edits, he]; simp, by rw [h'.groups, hg]; simp⟩

theorem enter {n : Nat} (he : out'.edits = out.edits ++ [h.forwardOf n])
    (hg : out'.groups = out.groups ++ [h.groupOf n]) (h' : Emits h [] down out' out'') :
    Emits h [] (n :: down) out out'' :=
  ⟨by rw [h'.edits, he]; simp, by rw [h'.groups, hg]; simp⟩

theorem turn (hu : Emits h up [] out out') (hd : Emits h [] down out' out'') :
    Emits h up down out out'' :=
  ⟨by rw [hd.edits, hu.edits]; simp, by rw [hd.groups, hu.groups]; simp⟩

end Emits

theorem Relinked.emits {h h' : UndoHistory} (hr : Relinked h h') {up down : List Nat}
    {out out' : UndoStep} (he : Emits h' up down out out') : Emits h up down out out' := by
  have hedits := he.edits
  have hgroups := he.groups
  rw [hr.inverseOf, hr.forwardOf] at hedits
  rw [hr.groupOf] at hgroups
  exact ⟨hedits, hgroups⟩

/-- `undo`'s loop goes up. -/
theorem undoLoop_emits (group fuel : Nat) {h : UndoHistory} (out : UndoStep) (ht : Tree h)
    (hm : Remembers h h.current) (hc : h.current < h.size) :
    let r := undoLoop group fuel h out
    ∃ up, Walk h.parentOf r.1.current (up.map .into) h.current ∧ Emits h up [] out r.2 := by
  induction fuel generalizing h out with
  | zero => exact ⟨[], .here _, .none h out⟩
  | succ fuel ih =>
    cases hp : h.parentOf h.current with
    | none =>
      have hstop : undoLoop group (fuel + 1) h out = (h, out) := by
        simp only [parentOf] at hp
        rw [undoLoop]
        dsimp only
        rw [hp]
      rw [hstop]
      exact ⟨[], .here _, .none h out⟩
    | some p =>
      by_cases hg : h.groupOf h.current = group
      · rw [undoLoop_succ hp hg, hm.setRedoChild_eq hp]
        obtain ⟨up, hwalk, hem⟩ := ih (h := { h with current := p })
          { out with
            edits := out.edits ++ [h.inverseOf h.current]
            groups := out.groups ++ [group]
            nodes := out.nodes ++ [((h.node p).seq, (h.node h.current).origin)]
            cursor := (h.node h.current).cursor }
          (ht.moveTo p) ((hm.leave hp).congr_nodes rfl) (Nat.lt_trans (ht.older _ _ hp) hc)
        refine ⟨up ++ [h.current], Walk.into_concat.mpr ⟨rfl, p, hwalk, hp⟩, ?_⟩
        exact .leave rfl (by rw [hg]) ((relinked_current h p).emits hem)
      · rw [undoLoop_stop hg]
        exact ⟨[], .here _, .none h out⟩

/-- `redo`'s loop goes down. -/
theorem redoLoop_emits (group fuel : Nat) {h : UndoHistory} {p node : Nat}
    (out : UndoStep) (ht : Tree h) (hn : node < h.size) (hp : h.parentOf node = some p)
    (hg : h.groupOf node = group) (hfuel : h.size ≤ node + fuel) :
    let r := redoLoop group fuel h node out
    ∃ down, Walk h.parentOf p (down.map .into) r.1.current ∧ Emits h [] down out r.2 := by
  induction fuel generalizing h p node out with
  | zero => omega
  | succ fuel ih =>
    unfold redoLoop
    dsimp only
    split
    · rename_i child hchild
      have hchild : h.redoTarget node = some child := hchild
      obtain ⟨hcs, hcp⟩ := ht.redoTarget_child hn hchild
      have hlt := ht.older _ _ hcp
      split
      · rename_i hcg
        obtain ⟨down, hwalk, hem⟩ := ih (h := { h with current := node })
          { out with
            edits := out.edits ++ [h.forwardOf node]
            groups := out.groups ++ [group]
            nodes := out.nodes ++ [((h.node node).seq, (h.node node).origin)] }
          (ht.moveTo node) hcs hcp hcg
          (by show h.size ≤ child + fuel
              omega)
        refine ⟨node :: down, .into hp hwalk, ?_⟩
        exact .enter rfl (by rw [hg]) ((relinked_current h node).emits hem)
      · exact ⟨[node], .into hp (.here node), .enter rfl (by rw [hg]) (.none h _)⟩
    · exact ⟨[node], .into hp (.here node), .enter rfl (by rw [hg]) (.none h _)⟩

/-- The way up emits the inverses of its nodes. -/
theorem navUp_emits {lca fuel c : Nat} {s : NavState} (ht : Tree s.hist)
    (hm : Remembers s.hist c) (hanc : lca ∈ s.hist.ancestry fuel c) :
    ∃ up, Walk s.hist.parentOf lca (up.map .into) c ∧
      Emits s.hist up [] s.out (navUp lca fuel c s).out := by
  induction fuel generalizing c s with
  | zero =>
    obtain rfl : lca = c := List.mem_singleton.mp hanc
    exact ⟨[], .here _, .none _ _⟩
  | succ fuel ih =>
    obtain ⟨rfl, hstay⟩ | ⟨p, hp, hanc', hgo⟩ := navUp_succ hanc
    · rw [hstay]
      exact ⟨[], .here _, .none _ _⟩
    · have hsame : (s.leave c p).hist = s.hist := hm.setRedoChild_eq hp
      have hstep := ih (c := p) (s := s.leave c p) (by rw [hsame]; exact ht)
        (by rw [hsame]; exact hm.leave hp) (by rw [hsame]; exact hanc')
      rw [hsame] at hstep
      obtain ⟨up, hwalk, hem⟩ := hstep
      rw [hgo]
      exact ⟨up ++ [c], Walk.into_concat.mpr ⟨rfl, p, hwalk, hp⟩, .leave rfl rfl hem⟩

theorem navDown_emits {c target : Nat} (down : List Nat) {s : NavState}
    (hwalk : Walk s.hist.parentOf c (down.map .into) target) :
    Emits s.hist [] down s.out (navDown down s).out := by
  induction down generalizing c s with
  | nil => exact .none _ _
  | cons n rest ih =>
    cases hwalk with
    | into hp hrest =>
      have hrel : Relinked s.hist (s.enter n).hist := (crossed_enter s hp).relinked
      have hem := ih (c := n) (s := s.enter n) (by rw [hrel.parentOf]; exact hrest)
      refine .enter ?_ ?_ (hrel.emits hem)
      · show s.out.edits ++ [(s.enter n).hist.forwardOf n] = _
        rw [hrel.forwardOf]
      · show s.out.groups ++ [(s.enter n).hist.groupOf n] = _
        rw [hrel.groupOf]

/-- The ancestry lists every node above. -/
theorem mem_ancestry {h : UndoHistory} (ht : Tree h) {fuel a c : Nat} (hfuel : c ≤ fuel)
    (ha : Under h.parentOf a c) : a ∈ h.ancestry fuel c := by
  induction fuel generalizing c with
  | zero =>
    obtain rfl : c = 0 := by omega
    have := ha.le ht.older
    obtain rfl : a = 0 := by omega
    exact List.mem_singleton_self 0
  | succ fuel ih =>
    cases hp : h.parentOf c with
    | none =>
      have hself : a = c := by
        rcases Relation.ReflTransGen.cases_tail ha with heq | ⟨q, -, hq⟩
        · exact heq.symm
        · rw [hp] at hq
          cases hq
      subst hself
      rw [parentOf] at hp
      rw [ancestry, hp]
      exact List.mem_singleton_self a
    | some p =>
      have hlt := ht.older _ _ hp
      rw [ancestry, show (h.node c).parent = some p from hp]
      rcases ha.last hp with rfl | hup
      · exact List.mem_cons_self
      · exact List.mem_cons_of_mem _ (ih (by omega) hup)

/-- A move goes up from `c` to `apex` and down to `c'`, by paths that part there. -/
structure Route (h : UndoHistory) (c c' : Nat) (step : UndoStep) where
  apex : Nat
  up : List Nat
  down : List Nat
  upWalk : Walk h.parentOf apex (up.map .into) c
  downWalk : Walk h.parentOf apex (down.map .into) c'
  parts : ∀ n ∈ down, n ∉ up
  emits : Emits h up down emptyStep step

/-- Every move has a route. -/
theorem Move.route {h h' : UndoHistory} {step : UndoStep} (hw : WF h)
    (hm : Remembers h h.current) (hmove : h.Move h' step) :
    Nonempty (Route h h.current h'.current step) := by
  rcases hmove with hu | hr | ⟨older, hc⟩
  · unfold undo at hu
    split at hu
    · cases hu
    · obtain ⟨up, hwalk, hem⟩ := undoLoop_emits (h.node h.current).group h.nodes.length emptyStep hw.toTree hm hw.tip.1
      cases hu
      exact ⟨⟨_, up, [], hwalk, .here _, (fun n hn => by cases hn), hem⟩⟩
  · unfold redo at hr
    split at hr
    · cases hr
    · rename_i first hfirst
      obtain ⟨hlt, hp⟩ := hw.redoTarget_child hw.tip.1 hfirst
      obtain ⟨down, hwalk, hem⟩ := redoLoop_emits (h.node first).group h.size
        emptyStep hw.toTree hlt hp rfl (Nat.le_add_left _ _)
      cases hr
      exact ⟨⟨_, [], down, .here _, hwalk, (fun n _ hn => by cases hn), ⟨hem.edits, hem.groups⟩⟩⟩
  · obtain ⟨target, htip, hn⟩ := toChronological_tip hw hc
    obtain ⟨lca, path, hanc, hwalk, hpath, rfl, rfl⟩ := navigateTo_cases hw htip.1 hn
    obtain ⟨hup, -⟩ := navUp_way (s := ⟨h, emptyStep, none⟩) hw.toTree hm hw.tip.1
      (Nat.le_of_lt hw.tip.1) hanc
    obtain ⟨up, hupwalk, hupem⟩ := navUp_emits (s := ⟨h, emptyStep, none⟩) hw.toTree hm hanc
    dsimp only at hup hupwalk hupem
    set top := navUp lca h.size h.current ⟨h, emptyStep, none⟩
    have hdownem := navDown_emits path (c := lca)
      (s := { top with group := none })
      (by show Walk top.hist.parentOf _ _ _
          rw [hup]
          exact hwalk)
    have hdownem' : Emits h [] path top.out (navDown path { top with group := none }).out := by
      rw [← hup]
      exact hdownem
    have hem := hupem.turn hdownem'
    refine ⟨⟨lca, up, path, hupwalk, hwalk, ?_, ⟨hem.edits, hem.groups⟩⟩⟩
    intro n hn hnup
    exact (hpath n hn).2 (mem_ancestry hw.toTree (Nat.le_of_lt hw.tip.1)
      (hupwalk.under_of_mem hnup))

/-! ## Whole groups -/

/-- The group below `p` that starts at `first` and ends at `tip`. -/
structure Span (h : UndoHistory) (p first tip : Nat) : Prop where
  enters : h.parentOf first = some p
  apart : h.groupOf p ≠ h.groupOf first
  le : first ≤ tip
  same : h.groupOf tip = h.groupOf first
  tip : h.GroupTip tip

def span (s : Nat × Nat) : List Nat := List.range' s.1 (s.2 + 1 - s.1)

theorem mem_span {s : Nat × Nat} {n : Nat} : n ∈ span s ↔ s.1 ≤ n ∧ n ≤ s.2 := by
  rw [span, List.mem_range'_1]
  omega

namespace Span

variable {h : UndoHistory} {p first tip : Nat}

theorem groupOf_mem (ht : Tree h) (hs : Span h p first tip) {n : Nat} (hle : first ≤ n)
    (hn : n ≤ tip) : h.groupOf n = h.groupOf first :=
  ht.contiguous hle hn hs.tip.1 hs.same.symm

theorem parentOf_succ (ht : Tree h) (hs : Span h p first tip) {n : Nat} (hle : first ≤ n)
    (hn : n < tip) : h.parentOf (n + 1) = some n := by
  have := hs.tip.1
  refine ht.chain n (by omega) ?_
  rw [hs.groupOf_mem ht (by omega) hn, hs.groupOf_mem ht hle (by omega)]

theorem walk_to (ht : Tree h) (hs : Span h p first tip) (n : Nat) (hn : first + n ≤ tip) :
    Walk h.parentOf p ((List.range' first (n + 1)).map .into) (first + n) := by
  induction n with
  | zero => exact .into hs.enters (.here first)
  | succ n ih =>
    rw [List.range'_1_concat, Walk.into_concat]
    exact ⟨rfl, first + n, ih (Nat.le_of_succ_le hn),
      hs.parentOf_succ ht (Nat.le_add_right first n) hn⟩

theorem walk (ht : Tree h) (hs : Span h p first tip) :
    Walk h.parentOf p ((span (first, tip)).map .into) tip := by
  have hle := hs.le
  have hw := hs.walk_to ht (tip - first) (by omega)
  rw [show tip - first + 1 = tip + 1 - first by omega, show first + (tip - first) = tip by omega]
    at hw
  exact hw

/-- Above a node of a group stand nodes of the group, and those above its parent. -/
theorem under (ht : Tree h) (hs : Span h p first tip) {a n : Nat} (hle : first ≤ n)
    (hn : n ≤ tip) (ha : Under h.parentOf a n) : first ≤ a ∨ Under h.parentOf a p := by
  induction n, hle using Nat.le_induction with
  | base =>
    rcases ha.last hs.enters with rfl | hup
    · exact .inl (Nat.le_refl _)
    · exact .inr hup
  | succ n hle ih =>
    rcases ha.last (hs.parentOf_succ ht hle (by omega)) with rfl | hup
    · exact .inl (by omega)
    · exact ih (by omega) hup

/-- Above the last node of a group stand, besides its own nodes, those above its
parent. -/
theorem under_first (ht : Tree h) (hs : Span h p first tip) {f q : Nat}
    (hf : h.parentOf f = some q) (hq : h.groupOf q ≠ h.groupOf f) :
    Under h.parentOf f tip ↔ f = first ∨ Under h.parentOf f p := by
  constructor
  · intro hu
    rcases hs.under ht hs.le (Nat.le_refl _) hu with hle | hup
    · refine .inl ?_
      have hg := hs.groupOf_mem ht hle (hu.le ht.older)
      exact ht.first_unique hg hf hs.enters hq hs.apart
    · exact .inr hup
  · have hend := (hs.walk ht).under
    have hfirst : Under h.parentOf first tip :=
      (hs.walk ht).under_of_mem (mem_span.mpr ⟨Nat.le_refl _, hs.le⟩)
    rintro (rfl | hup)
    · exact hfirst
    · exact hup.trans hend

theorem parent_lt_size (ht : Tree h) (hs : Span h p first tip) : p < h.size := by
  have := hs.tip.1
  have := hs.le
  have := ht.older _ _ hs.enters
  omega

theorem not_under (ht : Tree h) (hs : Span h p first tip) : ¬ Under h.parentOf first p := by
  intro hu
  have := hu.le ht.older
  have := ht.older _ _ hs.enters
  omega

end Span

theorem Tree.exists_first {h : UndoHistory} (ht : Tree h) {n : Nat} (hn : n < h.size)
    (hpos : 0 < n) : ∃ first p, first ≤ n ∧ h.groupOf first = h.groupOf n ∧
      h.parentOf first = some p ∧ h.groupOf p ≠ h.groupOf first := by
  induction n using Nat.strong_induction_on with
  | _ n ih =>
    obtain ⟨p, hlt, hp⟩ := ht.parent n hn hpos
    by_cases hg : h.groupOf p = h.groupOf n
    · have hp0 : 0 < p := by
        rcases Nat.eq_zero_or_pos p with rfl | hp0
        · have := ht.group_pos _ hn hpos
          rw [ht.root_group] at hg
          omega
        · exact hp0
      obtain ⟨first, q, hle, hfg, hfq, hne⟩ := ih p hlt (by omega) hp0
      exact ⟨first, q, by omega, hfg.trans hg, hfq, hne⟩
    · exact ⟨n, p, Nat.le_refl n, rfl, hp, hg⟩

/-- The groups between a node and one below it, from the top. -/
inductive Spans (h : UndoHistory) : Nat → List (Nat × Nat) → Nat → Prop
  | here (n : Nat) : Spans h n [] n
  | cross {p first tip c : Nat} {l : List (Nat × Nat)} : Span h p first tip →
      Spans h tip l c → Spans h p ((first, tip) :: l) c

/-- The nodes of some groups, from the top. -/
def spanNodes (l : List (Nat × Nat)) : List Nat := l.flatMap span

namespace Spans

variable {h : UndoHistory} {a c : Nat} {l : List (Nat × Nat)}

theorem walk (ht : Tree h) (hs : Spans h a l c) :
    Walk h.parentOf a ((spanNodes l).map .into) c := by
  induction hs with
  | here n => exact .here n
  | cross hs _ ih =>
    rw [spanNodes, List.flatMap_cons, List.map_append]
    exact (hs.walk ht).append ih

theorem under (ht : Tree h) (hs : Spans h a l c) {s : Nat × Nat} (hmem : s ∈ l) :
    a < s.1 ∧ Under h.parentOf a s.1 ∧ Under h.parentOf s.1 c := by
  induction hs with
  | here n => cases hmem
  | @cross p first tip c l hs hrest ih =>
    have hin : Under h.parentOf first tip :=
      (hs.walk ht).under_of_mem (mem_span.mpr ⟨Nat.le_refl _, hs.le⟩)
    rcases List.mem_cons.mp hmem with rfl | hmem
    · exact ⟨ht.older _ _ hs.enters, (Under.refl p).made hs.enters,
        hin.trans (hrest.walk ht).under⟩
    · obtain ⟨hlt, hup, hdown⟩ := ih hmem
      have := (hs.walk ht).under.le ht.older
      exact ⟨by omega, (hs.walk ht).under.trans hup, hdown⟩

theorem append {b : Nat} {l' : List (Nat × Nat)} (hs : Spans h a l b) (hs' : Spans h b l' c) :
    Spans h a (l ++ l') c := by
  induction hs with
  | here n => exact hs'
  | cross hspan _ ih => exact .cross hspan (ih hs')

/-- Between a group tip and one below it lies a chain of whole groups. -/
theorem exists_between (ht : Tree h) (ha : h.GroupTip a) {c : Nat} (hc : h.GroupTip c)
    (hu : Under h.parentOf a c) : ∃ l, Spans h a l c := by
  induction c using Nat.strong_induction_on with
  | _ c ih =>
    by_cases hac : a = c
    · subst hac
      exact ⟨[], .here a⟩
    · have hle := hu.le ht.older
      obtain ⟨first, p, hfc, hfg, hfp, hne⟩ := ht.exists_first hc.1 (by omega)
      have hspan : Span h p first c := ⟨hfp, hne, hfc, hfg.symm, hc⟩
      have hup : Under h.parentOf a p := by
        rcases hspan.under ht hfc (Nat.le_refl _) hu with hfa | hup
        · exact absurd (ht.tip_unique ha hc ((hspan.groupOf_mem ht hfa hle).trans hfg)) hac
        · exact hup
      have hfs : first < h.size := by
        have := hc.1
        omega
      have hlt := ht.older _ _ hfp
      have hp : h.GroupTip p := ⟨by omega, fun _ => ht.tipParent first hfs p hfp hne⟩
      obtain ⟨l, hl⟩ := ih p (by omega) hp hup
      exact ⟨l ++ [(first, c)], hl.append (.cross hspan (.here c))⟩

theorem apart (hs : Spans h a l c) :
    l.IsChain fun s s' => h.groupOf s.1 ≠ h.groupOf s'.1 := by
  induction hs with
  | here n => exact .nil
  | cross hs hrest ih =>
    cases hrest with
    | here n => exact .singleton _
    | cross hs' hrest' =>
      refine List.isChain_cons_cons.mpr ⟨?_, ih⟩
      rw [← hs.same]
      exact hs'.apart

end Spans

/-- The run of a group a move enters. -/
def downRun (h : UndoHistory) (s : Nat × Nat) : Nat × List EditList :=
  (h.groupOf s.1, (span s).map h.forwardOf)

/-- The run of a group a move leaves. -/
def upRun (h : UndoHistory) (s : Nat × Nat) : Nat × List EditList :=
  (h.groupOf s.1, (span s).reverse.map h.inverseOf)

theorem Spans.groups (h : UndoHistory) {a c : Nat} {l : List (Nat × Nat)} (ht : Tree h)
    (hs : Spans h a l c) : ∀ s ∈ l,
      (span s).map h.groupOf = List.replicate (span s).length (h.groupOf s.1) ∧ span s ≠ [] := by
  induction hs with
  | here n =>
    intro s hmem
    cases hmem
  | @cross p first tip c l hs _ ih =>
    intro s hmem
    rcases List.mem_cons.mp hmem with rfl | hmem
    · refine ⟨List.map_eq_replicate_iff.mpr fun n hn => ?_, ?_⟩
      · rw [mem_span] at hn
        exact hs.groupOf_mem ht hn.1 hn.2
      · exact List.ne_nil_of_mem (mem_span.mpr ⟨Nat.le_refl _, hs.le⟩)
    · exact ih s hmem

namespace Route

variable {h : UndoHistory} {c c' : Nat} {step : UndoStep}

/-- A route between tips turns at a tip. -/
theorem tip (r : Route h c c' step) (ht : Tree h) (hc : h.GroupTip c) (hc' : h.GroupTip c') :
    h.GroupTip r.apex := by
  obtain ⟨apex, up, down, hup, hdown, hparts, -⟩ := r
  cases up with
  | nil =>
    cases hup
    exact hc
  | cons u up =>
    cases down with
    | nil =>
      cases hdown
      exact hc'
    | cons v down =>
      cases hup with
      | into hu hup =>
        cases hdown with
        | into hv hdown =>
          have hus : u < h.size := lt_size_of_parentOf hu
          have hvs : v < h.size := lt_size_of_parentOf hv
          have := ht.older _ _ hu
          refine ⟨by dsimp only; omega, fun _ hg => ?_⟩
          -- inside a group there is one child only
          have huv : u = v := (ht.child_of_inner hg hus hu).trans
            (ht.child_of_inner hg hvs hv).symm
          exact hparts v List.mem_cons_self (huv ▸ List.mem_cons_self)

end Route

theorem Route.under_apex {h : UndoHistory} {c c' n : Nat} {step : UndoStep}
    (r : Route h c c' step) (hn : Under h.parentOf n c) (hn' : Under h.parentOf n c') :
    Under h.parentOf n r.apex := by
  rcases r.upWalk.mem_or_under hn with hup | hapex
  · rcases r.downWalk.mem_or_under hn' with hdown | hapex
    · exact absurd hup (r.parts n hdown)
    · exact hapex
  · exact hapex

/-- A move crosses whole groups, out of some and then into others. -/
theorem Move.crosses {h h' : UndoHistory} {step : UndoStep} (hw : WF h)
    (hm : Remembers h h.current) (hmove : h.Move h' step) :
    ∃ apex ups downs, Spans h apex ups h.current ∧ Spans h apex downs h'.current ∧
      (∀ n, Under h.parentOf n h.current → Under h.parentOf n h'.current →
        Under h.parentOf n apex) ∧
      Document.Runs step ((ups.map h.upRun).reverse ++ downs.map h.downRun) := by
  have ht := hw.toTree
  have hmoved := hmove.moved hw
  have htip' := (hmoved.crossed.relinked.groupTip _).mp hmoved.tip
  obtain ⟨r⟩ := hmove.route hw hm
  have hapex := r.tip ht hw.tip htip'
  obtain ⟨ups, hups⟩ := Spans.exists_between ht hapex hw.tip r.upWalk.under
  obtain ⟨downs, hdowns⟩ := Spans.exists_between ht hapex htip' r.downWalk.under
  have hup : r.up = spanNodes ups := r.upWalk.path_unique ht.older (hups.walk ht)
  have hdown : r.down = spanNodes downs := r.downWalk.path_unique ht.older (hdowns.walk ht)
  have hedits := r.emits.edits
  have hgroups := r.emits.groups
  have hparts := r.parts
  rw [hup, hdown] at hedits hgroups hparts
  have hgu := hups.groups h ht
  have hgd := hdowns.groups h ht
  refine ⟨r.apex, ups, downs, hups, hdowns, fun n hn hn' => r.under_apex hn hn', ?_, ?_, ?_, ?_⟩
  · rw [hedits]
    show [] ++ _ = _
    rw [List.nil_append, List.flatMap_append, ← List.map_reverse, List.flatMap_map,
      List.flatMap_map, spanNodes, spanNodes, List.reverse_flatMap, List.map_flatMap,
      List.map_flatMap]
    rfl
  · rw [hgroups]
    show [] ++ _ = _
    rw [List.nil_append, Document.runGroups, List.flatMap_append, ← List.map_reverse,
      List.flatMap_map, List.flatMap_map, spanNodes, spanNodes, List.reverse_flatMap,
      List.map_flatMap, List.map_flatMap]
    congr 1
    · refine List.flatMap_congr fun s hs => ?_
      have hg := (hgu s (List.mem_reverse.mp hs)).1
      rw [Function.comp_apply, List.map_reverse, hg, List.reverse_replicate]
      simp [upRun]
    · refine List.flatMap_congr fun s hs => ?_
      rw [(hgd s hs).1]
      simp [downRun]
  · intro run hrun
    rcases List.mem_append.mp hrun with hrun | hrun
    · obtain ⟨s, hs, rfl⟩ := List.mem_map.mp (List.mem_reverse.mp hrun)
      simp only [upRun, ne_eq, List.map_eq_nil_iff, List.reverse_eq_nil_iff]
      exact (hgu s hs).2
    · obtain ⟨s, hs, rfl⟩ := List.mem_map.mp hrun
      simp only [downRun, ne_eq, List.map_eq_nil_iff]
      exact (hgd s hs).2
  · rw [List.isChain_append]
    refine ⟨?_, ?_, ?_⟩
    · rw [List.isChain_reverse, List.isChain_map]
      exact hups.apart.imp fun s s' hne => Ne.symm hne
    · rw [List.isChain_map]
      exact hdowns.apart
    · -- two groups of one group number below the apex would be one
      intro run hrun run' hrun'
      rw [List.getLast?_reverse, List.head?_map] at hrun
      rw [List.head?_map] at hrun'
      generalize r.apex = apex at hups hdowns
      cases hups with
      | here => cases hrun
      | @cross _ first tip _ _ hs _ =>
        cases hdowns with
        | here => cases hrun'
        | @cross _ first' tip' _ _ hs' _ =>
          cases hrun
          cases hrun'
          intro hg
          have heq := ht.first_unique hg hs.enters hs'.enters hs.apart hs'.apart
          subst heq
          have hup := mem_span (s := (first, tip)).mpr ⟨Nat.le_refl _, hs.le⟩
          have hdown := mem_span (s := (first, tip')).mpr ⟨Nat.le_refl _, hs'.le⟩
          exact hparts first (List.mem_flatMap.mpr ⟨_, List.mem_cons_self, hdown⟩)
            (List.mem_flatMap.mpr ⟨_, List.mem_cons_self, hup⟩)

end UndoHistory

end Ruse.Core
