import Ruse.Core.Undo
import Ruse.Lib.VersionTree
import Mathlib.Data.List.Range

/-!
# The invariant of the undo history

What every operation of `UndoHistory` keeps, in three layers.

* `Tree` — the nodes form a tree grown in creation order, and the groups are
  runs of that order, each a chain of one branch;
* `AtTip` — where `current` may stand: on the last node of a group;
* `Crossed` — what a loop of `undo`, `redo` or `navigateTo` did: it relinked
  redo targets only (`Relinked`), and its edit lists are those of a walk.

`tipParent` is the field the moves rest on: a branch starts only where a group
ends, so leaving a group by its first node lands on another group's last node.
-/

namespace Ruse.Core

variable {fuel group i n p target : Nat} {s : UndoHistory.NavState} {step : UndoStep}

def UndoNode.unlinked (n : UndoNode) : UndoNode := { n with redoChild := none }

namespace UndoHistory

open Ruse.Lib.VersionTree

abbrev size (h : UndoHistory) : Nat := h.nodes.length

def parentOf (h : UndoHistory) (i : Nat) : Option Nat := (h.node i).parent

def groupOf (h : UndoHistory) (i : Nat) : Nat := (h.node i).group

/-- Node `i` is the last of its group. -/
def GroupTip (h : UndoHistory) (i : Nat) : Prop :=
  i < h.size ∧ (i + 1 < h.size → h.groupOf (i + 1) ≠ h.groupOf i)

/-- The nodes form a tree in creation order, grouped into chains. -/
structure Tree (h : UndoHistory) : Prop where
  nonempty : 0 < h.size
  chronological : h.chronological = List.range h.size
  seq : ∀ i < h.size, (h.node i).seq = i
  nextSeq : h.nextSeq = h.size
  root : h.parentOf 0 = none
  root_group : h.groupOf 0 = 0
  parent : ∀ i < h.size, 0 < i → ∃ p < i, h.parentOf i = some p
  children : ∀ p < h.size, ∀ c,
    c ∈ (h.node p).children ↔ c < h.size ∧ h.parentOf c = some p
  redoChild : ∀ p < h.size, ∀ c,
    (h.node p).redoChild = some c → c < h.size ∧ h.parentOf c = some p
  edits : ∀ i < h.size, 0 < i →
    (h.node i).forward.isSome ∧ (h.node i).inverse.isSome
  group_lt : ∀ i < h.size, h.groupOf i < h.nextGroup
  group_pos : ∀ i < h.size, 0 < i → 0 < h.groupOf i
  group_mono : ∀ i, i + 1 < h.size → h.groupOf i ≤ h.groupOf (i + 1)
  chain : ∀ i, i + 1 < h.size → h.groupOf (i + 1) = h.groupOf i →
    h.parentOf (i + 1) = some i
  tipParent : ∀ i < h.size, ∀ p, h.parentOf i = some p →
    h.groupOf p ≠ h.groupOf i → h.groupOf (p + 1) ≠ h.groupOf p

/-- `current` is the last node of a group, and the newest node unless a move
came last. -/
structure AtTip (h : UndoHistory) : Prop where
  tip : h.GroupTip h.current
  newest : h.lastWasNav = false → h.current + 1 = h.size

structure WF (h : UndoHistory) : Prop extends Tree h, AtTip h

/-! ## Facts about a tree -/

namespace Tree

variable {h : UndoHistory}

theorem parent_lt (ht : Tree h) (hi : i < h.size) (hp : h.parentOf i = some p) :
    p < i := by
  rcases Nat.eq_zero_or_pos i with rfl | hpos
  · rw [ht.root] at hp
    cases hp
  · obtain ⟨q, hq, hqi⟩ := ht.parent i hi hpos
    rw [hqi] at hp
    cases hp
    exact hq

theorem group_mono_le (ht : Tree h) {j : Nat} (hij : i ≤ j) (hj : j < h.size) :
    h.groupOf i ≤ h.groupOf j := by
  induction j, hij using Nat.le_induction with
  | base => exact Nat.le_refl _
  | succ j _ ih => exact Nat.le_trans (ih (by omega)) (ht.group_mono j hj)

theorem contiguous (ht : Tree h) {j k : Nat} (hik : i ≤ k) (hkj : k ≤ j) (hj : j < h.size)
    (hg : h.groupOf i = h.groupOf j) : h.groupOf k = h.groupOf i := by
  have h1 := ht.group_mono_le hik (by omega)
  have h2 := ht.group_mono_le hkj hj
  omega

/-- A node in the group of a node that is not the root is not the root either. -/
theorem pos_of_group (ht : Tree h) {c : Nat} (hc : c < h.size) (hpos : 0 < c)
    (hg : h.groupOf p = h.groupOf c) : 0 < p := by
  rcases Nat.eq_zero_or_pos p with rfl | hp
  · have := ht.group_pos c hc hpos
    rw [← hg, ht.root_group] at this
    omega
  · exact hp

theorem child_of_inner (ht : Tree h) {c : Nat} (hg : h.groupOf (i + 1) = h.groupOf i)
    (hc : c < h.size) (hp : h.parentOf c = some i) : c = i + 1 := by
  have hlt := ht.parent_lt hc hp
  by_cases hgc : h.groupOf i = h.groupOf c
  · -- `c` is in the run of `i`, so its parent is the node before it
    have hpred : h.groupOf (c - 1) = h.groupOf i :=
      ht.contiguous (by omega) (by omega) hc hgc
    have hchain := ht.chain (c - 1) (by omega)
      (by rw [Nat.sub_add_cancel (by omega), hpred, hgc])
    rw [Nat.sub_add_cancel (by omega), hp] at hchain
    have : i = c - 1 := Option.some.inj hchain
    omega
  · exact absurd hg (ht.tipParent c hc i hp hgc)

theorem redoTarget_child (ht : Tree h) {c : Nat} (hi : i < h.size) (hr : h.redoTarget i = some c) :
    c < h.size ∧ h.parentOf c = some i := by
  unfold redoTarget at hr
  cases hrc : (h.node i).redoChild with
  | some r =>
    rw [hrc] at hr
    cases hr
    exact ht.redoChild i hi _ hrc
  | none =>
    rw [hrc, Option.none_or] at hr
    exact (ht.children i hi c).mp (List.mem_of_getLast? hr)

theorem tip_of_redoTarget (ht : Tree h) (hi : i < h.size)
    (hstop : ∀ c, h.redoTarget i = some c → h.groupOf c ≠ h.groupOf i) : h.GroupTip i := by
  refine ⟨hi, fun hnext hg => ?_⟩
  have hmem := (ht.children i hi (i + 1)).mpr ⟨hnext, ht.chain i hnext hg⟩
  obtain ⟨c, hc⟩ : ∃ c, h.redoTarget i = some c := by
    unfold redoTarget
    cases (h.node i).redoChild with
    | some r => exact ⟨r, rfl⟩
    | none =>
      rw [Option.none_or]
      exact ⟨_, List.getLast?_eq_getLast_of_ne_nil (List.ne_nil_of_mem hmem)⟩
  obtain ⟨hlt, hp⟩ := ht.redoTarget_child hi hc
  have := ht.child_of_inner hg hlt hp
  subst this
  exact hstop _ hc hg

end Tree

/-! ## A new history -/

@[simp] theorem size_new (r : Nat) : (new r).size = 1 := rfl

/-- The history of a new document is well formed. -/
theorem wf_new (r : Nat) : WF (new r) where
  nonempty := Nat.zero_lt_one
  chronological := rfl
  seq := by
    intro i hi
    obtain rfl : i = 0 := by simpa using hi
    rfl
  nextSeq := rfl
  root := rfl
  root_group := rfl
  parent := by
    intro i hi hpos
    simp at hi
    omega
  children := by
    intro p hp c
    obtain rfl : p = 0 := by simpa using hp
    constructor
    · intro hc
      cases hc
    · rintro ⟨hc, hpar⟩
      obtain rfl : c = 0 := by simpa using hc
      cases hpar
  redoChild := by
    intro p hp c hc
    obtain rfl : p = 0 := by simpa using hp
    cases hc
  edits := by
    intro i hi hpos
    simp at hi
    omega
  group_lt := by
    intro i hi
    obtain rfl : i = 0 := by simpa using hi
    exact Nat.zero_lt_one
  group_pos := by
    intro i hi hpos
    simp at hi
    omega
  group_mono := by
    intro i hi
    simp at hi
  chain := by
    intro i hi
    simp at hi
  tipParent := by
    intro i hi p hp
    obtain rfl : i = 0 := by simpa using hi
    cases hp
  tip := ⟨Nat.zero_lt_one, fun hi => absurd hi (Nat.lt_irrefl 1)⟩
  newest := fun _ => rfl

/-! ## Relinking redo targets -/

/-- `h'` is `h` but for redo targets, `current` and the flags. -/
structure Relinked (h h' : UndoHistory) : Prop where
  size : h'.size = h.size
  node : ∀ i, (h'.node i).unlinked = (h.node i).unlinked
  chronological : h'.chronological = h.chronological
  nextSeq : h'.nextSeq = h.nextSeq
  nextGroup : h'.nextGroup = h.nextGroup

namespace Relinked

variable {h h' h'' : UndoHistory}

theorem refl (h : UndoHistory) : Relinked h h := ⟨rfl, fun _ => rfl, rfl, rfl, rfl⟩

theorem trans (hr : Relinked h h') (hr' : Relinked h' h'') : Relinked h h'' where
  size := hr'.size.trans hr.size
  node i := (hr'.node i).trans (hr.node i)
  chronological := hr'.chronological.trans hr.chronological
  nextSeq := hr'.nextSeq.trans hr.nextSeq
  nextGroup := hr'.nextGroup.trans hr.nextGroup

theorem parentOf (hr : Relinked h h') : h'.parentOf = h.parentOf :=
  funext fun i => show (h'.node i).unlinked.parent = _ by rw [hr.node]; rfl

theorem groupOf (hr : Relinked h h') : h'.groupOf = h.groupOf :=
  funext fun i => show (h'.node i).unlinked.group = _ by rw [hr.node]; rfl

theorem seq (hr : Relinked h h') (i : Nat) : (h'.node i).seq = (h.node i).seq :=
  show (h'.node i).unlinked.seq = _ by rw [hr.node]; rfl

theorem origin (hr : Relinked h h') (i : Nat) : (h'.node i).origin = (h.node i).origin :=
  show (h'.node i).unlinked.origin = _ by rw [hr.node]; rfl

theorem children (hr : Relinked h h') (i : Nat) :
    (h'.node i).children = (h.node i).children :=
  show (h'.node i).unlinked.children = _ by rw [hr.node]; rfl

theorem forward (hr : Relinked h h') (i : Nat) : (h'.node i).forward = (h.node i).forward :=
  show (h'.node i).unlinked.forward = _ by rw [hr.node]; rfl

theorem inverse (hr : Relinked h h') (i : Nat) : (h'.node i).inverse = (h.node i).inverse :=
  show (h'.node i).unlinked.inverse = _ by rw [hr.node]; rfl

theorem forwardOf (hr : Relinked h h') : h'.forwardOf = h.forwardOf :=
  funext fun i => by rw [UndoHistory.forwardOf, hr.forward, UndoHistory.forwardOf]

theorem inverseOf (hr : Relinked h h') : h'.inverseOf = h.inverseOf :=
  funext fun i => by rw [UndoHistory.inverseOf, hr.inverse, UndoHistory.inverseOf]

theorem ancestry (hr : Relinked h h') : h'.ancestry = h.ancestry := by
  funext fuel n
  induction fuel generalizing n with
  | zero => rfl
  | succ fuel ih =>
    have hp : (h'.node n).parent = (h.node n).parent := congrFun hr.parentOf n
    simp only [UndoHistory.ancestry, hp, ih]

theorem groupTip (hr : Relinked h h') (i : Nat) : h'.GroupTip i ↔ h.GroupTip i := by
  rw [GroupTip, GroupTip, hr.size, hr.groupOf]

/-- A relinked tree is a tree when its redo targets are children. -/
theorem tree (hr : Relinked h h') (ht : Tree h)
    (hredo : ∀ p < h.size, ∀ c, (h'.node p).redoChild = some c →
      c < h.size ∧ h.parentOf c = some p) : Tree h' where
  nonempty := hr.size ▸ ht.nonempty
  chronological := by rw [hr.chronological, ht.chronological, hr.size]
  seq i hi := (hr.seq i).trans (ht.seq i (hr.size ▸ hi))
  nextSeq := by rw [hr.nextSeq, ht.nextSeq, hr.size]
  root := by rw [hr.parentOf, ht.root]
  root_group := by rw [hr.groupOf, ht.root_group]
  parent := by
    rw [hr.size, hr.parentOf]
    exact ht.parent
  children p hp c := by
    rw [hr.children, hr.size, hr.parentOf]
    exact ht.children p (hr.size ▸ hp) c
  redoChild := by
    rw [hr.size, hr.parentOf]
    exact hredo
  edits i hi := by
    rw [hr.forward, hr.inverse]
    exact ht.edits i (hr.size ▸ hi)
  group_lt := by
    rw [hr.size, hr.groupOf, hr.nextGroup]
    exact ht.group_lt
  group_pos := by
    rw [hr.size, hr.groupOf]
    exact ht.group_pos
  group_mono := by
    rw [hr.size, hr.groupOf]
    exact ht.group_mono
  chain := by
    rw [hr.size, hr.groupOf, hr.parentOf]
    exact ht.chain
  tipParent := by
    rw [hr.size, hr.groupOf, hr.parentOf]
    exact ht.tipParent

end Relinked

/-- Moving `current` relinks nothing. -/
theorem relinked_current (h : UndoHistory) (n : Nat) : Relinked h { h with current := n } :=
  ⟨rfl, fun _ => rfl, rfl, rfl, rfl⟩

theorem getD_modify {α : Type*} (l : List α) (p i : Nat) (f : α → α) (d : α) :
    (l.modify p f).getD i d =
      if i = p ∧ p < l.length then f (l.getD i d) else l.getD i d := by
  simp only [List.getD_eq_getElem?_getD, List.getElem?_modify]
  by_cases hip : i = p
  · subst hip
    by_cases hlt : i < l.length
    · simp [hlt]
    · simp [hlt]
  · simp [hip, Ne.symm hip]

theorem node_setRedoChild (h : UndoHistory) (p c i : Nat) :
    (h.setRedoChild p c).node i =
      if i = p ∧ p < h.size then { h.node i with redoChild := some c } else h.node i :=
  getD_modify h.nodes p i _ _

theorem relinked_setRedoChild (h : UndoHistory) (p c : Nat) :
    Relinked h (h.setRedoChild p c) where
  size := List.length_modify _ _ _
  node i := by
    rw [node_setRedoChild]
    split <;> rfl
  chronological := rfl
  nextSeq := rfl
  nextGroup := rfl

theorem Tree.setRedoChild {h : UndoHistory} (ht : Tree h) {c : Nat} (hc : c < h.size)
    (hp : h.parentOf c = some p) : Tree (h.setRedoChild p c) := by
  refine (relinked_setRedoChild h p c).tree ht (fun q hq d hd => ?_)
  rw [node_setRedoChild] at hd
  split at hd
  · rename_i hqp
    cases hd
    exact ⟨hc, hqp.1 ▸ hp⟩
  · exact ht.redoChild q hq d hd

theorem Tree.moveTo {h : UndoHistory} (ht : Tree h) (n : Nat) : Tree { h with current := n } :=
  (relinked_current h n).tree ht ht.redoChild

/-! ## What a move crosses -/

/-- The node current after a leg and the origin of the edits it applies. -/
def landing (h : UndoHistory) : Leg → Nat × Option TransactionOrigin
  | .out n => ((h.node ((h.parentOf n).getD 0)).seq, (h.node n).origin)
  | .into n => ((h.node n).seq, (h.node n).origin)

/-- From node `c` of `h` to node `c'` of `h'` a loop only relinked the tree, and
appended to `out` what the legs of a walk apply. -/
structure Crossed (h : UndoHistory) (c : Nat) (out : UndoStep)
    (h' : UndoHistory) (c' : Nat) (out' : UndoStep) : Prop where
  relinked : Relinked h h'
  walk : ∃ legs, Walk h.parentOf c legs c' ∧
    out'.edits = out.edits ++ legs.map (Leg.edit h.forwardOf h.inverseOf) ∧
    out'.groups = out.groups ++ legs.map (fun leg => h.groupOf leg.edge) ∧
    out'.nodes = out.nodes ++ legs.map h.landing

theorem Relinked.landing {h h' : UndoHistory} (hr : Relinked h h') : h'.landing = h.landing := by
  funext leg
  cases leg <;> simp only [UndoHistory.landing, hr.parentOf, hr.seq, hr.origin]

namespace Crossed

variable {h h' h'' : UndoHistory} {c c' c'' : Nat} {out out' out'' : UndoStep}

theorem refl (h : UndoHistory) (c : Nat) (out : UndoStep) : Crossed h c out h c out :=
  ⟨.refl h, [], .here c, by simp, by simp, by simp⟩

theorem trans (hx : Crossed h c out h' c' out') (hy : Crossed h' c' out' h'' c'' out'') :
    Crossed h c out h'' c'' out'' := by
  obtain ⟨legs, hwalk, hedits, hgroups, hnodes⟩ := hx.walk
  obtain ⟨legs', hwalk', hedits', hgroups', hnodes'⟩ := hy.walk
  rw [hx.relinked.parentOf] at hwalk'
  rw [hx.relinked.forwardOf, hx.relinked.inverseOf] at hedits'
  rw [hx.relinked.groupOf] at hgroups'
  rw [hx.relinked.landing] at hnodes'
  refine ⟨hx.relinked.trans hy.relinked, legs ++ legs', hwalk.append hwalk', ?_, ?_, ?_⟩
  · rw [hedits', hedits, List.map_append, List.append_assoc]
  · rw [hgroups', hgroups, List.map_append, List.append_assoc]
  · rw [hnodes', hnodes, List.map_append, List.append_assoc]

theorem leg {leg : Leg} (hr : Relinked h h') (hw : Walk h.parentOf c [leg] c')
    (hedits : out'.edits = out.edits ++ [leg.edit h.forwardOf h.inverseOf])
    (hgroups : out'.groups = out.groups ++ [h.groupOf leg.edge])
    (hnodes : out'.nodes = out.nodes ++ [h.landing leg]) :
    Crossed h c out h' c' out' :=
  ⟨hr, [leg], hw, hedits, hgroups, hnodes⟩

end Crossed

theorem walk_out {h : UndoHistory} (hp : h.parentOf n = some p) :
    Walk h.parentOf n [.out n] p := .out hp (.here p)

theorem walk_into {h : UndoHistory} (hp : h.parentOf n = some p) :
    Walk h.parentOf p [.into n] n := .into hp (.here n)

/-! ## The loops -/

/-- One round of `undo`'s loop, out of `current` into its parent. -/
theorem undoLoop_succ {h : UndoHistory} {out : UndoStep} (hp : h.parentOf h.current = some p)
    (hg : h.groupOf h.current = group) :
    undoLoop group (fuel + 1) h out =
      undoLoop group fuel { h.setRedoChild p h.current with current := p }
        { out with
          edits := out.edits ++ [h.inverseOf h.current]
          groups := out.groups ++ [group]
          nodes := out.nodes ++ [((h.node p).seq, (h.node h.current).origin)]
          cursor := (h.node h.current).cursor } := by
  simp only [parentOf] at hp
  simp only [groupOf] at hg
  rw [undoLoop]
  dsimp only
  rw [hp]
  dsimp only
  rw [if_neg (not_not.mpr hg)]

/-- The loop of `undo` stops at a node of another group. -/
theorem undoLoop_stop {h : UndoHistory} {out : UndoStep} (hg : h.groupOf h.current ≠ group) :
    undoLoop group fuel h out = (h, out) := by
  simp only [groupOf] at hg
  cases fuel with
  | zero => rfl
  | succ fuel =>
    rw [undoLoop]
    split
    · rfl
    · rw [if_pos hg]

/-- `undo`'s loop leaves a group by its first node. -/
theorem undoLoop_spec {h : UndoHistory} (out : UndoStep) (ht : Tree h) (hc : h.current < h.size)
    (hpos : 0 < h.current) (hg : h.groupOf h.current = group) (hfuel : h.current ≤ fuel) :
    let r := undoLoop group fuel h out
    Crossed h h.current out r.1 r.1.current r.2 ∧ Tree r.1 ∧ h.GroupTip r.1.current := by
  induction fuel generalizing h out with
  | zero => omega
  | succ fuel ih =>
    obtain ⟨p, hlt, hp⟩ := ht.parent _ hc hpos
    rw [undoLoop_succ hp hg]
    have hleg : Crossed h h.current out { h.setRedoChild p h.current with current := p } p
        { out with
          edits := out.edits ++ [h.inverseOf h.current]
          groups := out.groups ++ [group]
          nodes := out.nodes ++ [((h.node p).seq, (h.node h.current).origin)]
          cursor := (h.node h.current).cursor } :=
      .leg ((relinked_setRedoChild h p _).trans (relinked_current _ p)) (walk_out hp) rfl
        (by rw [← hg]; rfl) (by simp only [landing, hp, Option.getD_some])
    have ht' := (ht.setRedoChild hc hp).moveTo p
    by_cases hgp : h.groupOf p = group
    · have hp0 := ht.pos_of_group hc hpos (hgp.trans hg.symm)
      obtain ⟨hcross, htree, htip⟩ := ih _ ht' (by rw [hleg.relinked.size]; simp only; omega)
        hp0 (by rw [hleg.relinked.groupOf]; exact hgp) (by simp only; omega)
      exact ⟨hleg.trans hcross, htree, (hleg.relinked.groupTip _).mp htip⟩
    · rw [undoLoop_stop (by rw [hleg.relinked.groupOf]; exact hgp)]
      refine ⟨hleg, ht', ?_⟩
      exact ⟨by simp only; omega, fun _ => ht.tipParent _ hc p hp (by rw [hg]; exact hgp)⟩

/-- The loop of `redo` goes to the end of the group it enters. -/
theorem redoLoop_spec (fuel : Nat) {h : UndoHistory} {node : Nat} (out : UndoStep) (ht : Tree h)
    (hn : node < h.size) (hp : h.parentOf node = some p) (hg : h.groupOf node = group)
    (hfuel : h.size ≤ node + fuel) :
    let r := redoLoop group fuel h node out
    Crossed h p out r.1 r.1.current r.2 ∧ Tree r.1 ∧ h.GroupTip r.1.current := by
  induction fuel generalizing h p node out with
  | zero => omega
  | succ fuel ih =>
    have hleg : Crossed h p out { h with current := node } node
        { out with
          edits := out.edits ++ [h.forwardOf node]
          groups := out.groups ++ [group]
          nodes := out.nodes ++ [((h.node node).seq, (h.node node).origin)] } :=
      .leg (relinked_current h node) (walk_into hp) rfl (by rw [← hg]; rfl) rfl
    have ht' := ht.moveTo node
    -- the loop stops where the redo target is missing or of another group
    have hstop : (∀ c, h.redoTarget node = some c → h.groupOf c ≠ h.groupOf node) →
        h.GroupTip node := ht.tip_of_redoTarget hn
    unfold redoLoop
    dsimp only
    split
    · rename_i child hchild
      obtain ⟨hclt, hcp⟩ := ht.redoTarget_child hn hchild
      have hlt := ht.parent_lt hclt hcp
      split
      · rename_i hcg
        obtain ⟨hcross, htree, htip⟩ := ih _ ht' hclt hcp hcg (by
          show h.size ≤ child + fuel
          omega)
        exact ⟨hleg.trans hcross, htree, htip⟩
      · rename_i hcg
        refine ⟨hleg, ht', hstop fun c hc => ?_⟩
        have hcc : some child = some c := hchild.symm.trans hc
        cases hcc
        rw [hg]
        exact hcg
    · rename_i hnone
      refine ⟨hleg, ht', hstop fun c hc => ?_⟩
      have hcc : none = some c := hnone.symm.trans hc
      cases hcc

theorem zero_mem_ancestry {h : UndoHistory} (ht : Tree h) (hn : n < h.size) (hfuel : n ≤ fuel) :
    0 ∈ h.ancestry fuel n := by
  induction fuel generalizing n with
  | zero =>
    obtain rfl : n = 0 := by omega
    exact List.mem_singleton_self 0
  | succ fuel ih =>
    rcases Nat.eq_zero_or_pos n with rfl | hpos
    · unfold ancestry
      split <;> exact List.mem_cons_self
    · obtain ⟨p, hlt, hp⟩ := ht.parent n hn hpos
      simp only [parentOf] at hp
      rw [ancestry, hp]
      exact List.mem_cons_of_mem _ (ih (by omega) (by omega))

/-- The climb from `node` meets the ancestry at the top of the walk down to
`node`. -/
theorem climb_spec {h : UndoHistory} (ht : Tree h) {anc : List Nat} (h0 : 0 ∈ anc)
    (fuel : Nat) {node : Nat} (down : List Nat) (hn : node < h.size) (hfuel : node ≤ fuel) :
    ∃ path, (h.climb anc fuel node down).2 = path ++ down ∧
      (h.climb anc fuel node down).1 ∈ anc ∧
      Walk h.parentOf (h.climb anc fuel node down).1 (path.map .into) node ∧
      ∀ n ∈ path, n < h.size ∧ n ∉ anc := by
  induction fuel generalizing node down with
  | zero =>
    obtain rfl : node = 0 := by omega
    exact ⟨[], rfl, h0, .here 0, by simp⟩
  | succ fuel ih =>
    unfold climb
    split
    · rename_i hmem
      exact ⟨[], rfl, hmem, .here node, by simp⟩
    · rename_i hmem
      have hpos : 0 < node := by
        rcases Nat.eq_zero_or_pos node with rfl | hpos
        · exact absurd h0 hmem
        · exact hpos
      obtain ⟨p, hlt, hp⟩ := ht.parent node hn hpos
      obtain ⟨path, hdown, hanc, hwalk, hpath⟩ := ih (node :: down) (by omega : p < h.size)
        (by omega)
      have hp' : (h.node node).parent = some p := hp
      rw [hp']
      refine ⟨path ++ [node], by simp [hdown], hanc, ?_, ?_⟩
      · rw [List.map_append]
        exact hwalk.append (walk_into hp)
      · intro n hin
        rcases List.mem_append.mp hin with hin | hin
        · exact hpath n hin
        · rw [List.mem_singleton.mp hin]
          exact ⟨hn, hmem⟩

theorem crossed_leave {c : Nat} (s : NavState) (hp : s.hist.parentOf c = some p) :
    Crossed s.hist c s.out (s.leave c p).hist p (s.leave c p).out :=
  .leg (relinked_setRedoChild s.hist p c) (walk_out hp) rfl rfl
    (by simp only [NavState.leave, landing, hp, Option.getD_some])

theorem hist_enter {c : Nat} (s : NavState) (hp : s.hist.parentOf n = some c) :
    (s.enter n).hist = s.hist.setRedoChild c n := by
  simp only [parentOf] at hp
  simp only [NavState.enter, hp]

theorem crossed_enter {c : Nat} (s : NavState) (hp : s.hist.parentOf n = some c) :
    Crossed s.hist c s.out (s.enter n).hist n (s.enter n).out := by
  have hrel : Relinked s.hist (s.enter n).hist := by
    rw [hist_enter s hp]
    exact relinked_setRedoChild s.hist c n
  refine .leg hrel (walk_into hp) ?_ ?_ ?_
  · show s.out.edits ++ [(s.enter n).hist.forwardOf n] = _
    rw [hrel.forwardOf]
    rfl
  · show s.out.groups ++ [(s.enter n).hist.groupOf n] = _
    rw [hrel.groupOf]
    rfl
  · show s.out.nodes ++ [(((s.enter n).hist.node n).seq, ((s.enter n).hist.node n).origin)] = _
    rw [hrel.seq, hrel.origin]
    rfl

/-- A round of `navUp` stands at the ancestor it climbs to, or goes on from the parent. -/
theorem navUp_succ {lca c : Nat} (hanc : lca ∈ s.hist.ancestry (fuel + 1) c) :
    (lca = c ∧ navUp lca (fuel + 1) c s = s) ∨
      ∃ p, s.hist.parentOf c = some p ∧ lca ∈ s.hist.ancestry fuel p ∧
        navUp lca (fuel + 1) c s = navUp lca fuel p (s.leave c p) := by
  by_cases hcl : c = lca
  · exact .inl ⟨hcl.symm, by rw [navUp, if_pos hcl]⟩
  · refine .inr ?_
    cases hp : (s.hist.node c).parent with
    | none =>
      rw [ancestry, hp] at hanc
      exact absurd (List.mem_singleton.mp hanc).symm hcl
    | some p =>
      rw [ancestry, hp] at hanc
      refine ⟨p, hp, (List.mem_cons.mp hanc).resolve_left (fun h => hcl h.symm), ?_⟩
      rw [navUp, if_neg hcl]
      rw [hp, Option.getD_some]

/-- `navUp` climbs to an ancestor. -/
theorem navUp_spec {lca c : Nat} (ht : Tree s.hist) (hc : c < s.hist.size) (hfuel : c ≤ fuel)
    (hanc : lca ∈ s.hist.ancestry fuel c) :
    let r := navUp lca fuel c s
    Crossed s.hist c s.out r.hist lca r.out ∧ Tree r.hist := by
  induction fuel generalizing c s with
  | zero =>
    obtain rfl : lca = c := List.mem_singleton.mp hanc
    exact ⟨.refl _ _ _, ht⟩
  | succ fuel ih =>
    obtain ⟨rfl, hstay⟩ | ⟨p, hp, hanc', hgo⟩ := navUp_succ hanc
    · rw [hstay]
      exact ⟨.refl _ _ _, ht⟩
    · have hlt := ht.parent_lt hc hp
      have hleg := crossed_leave s hp
      have hstep := ih (c := p) (s := s.leave c p) (ht.setRedoChild hc hp)
        (by rw [hleg.relinked.size]; omega) (by omega)
        (by rw [hleg.relinked.ancestry]; exact hanc')
      rw [hgo]
      exact ⟨hleg.trans hstep.1, hstep.2⟩

/-- `navDown` follows a walk of `into` legs. -/
theorem navDown_spec {c : Nat} (down : List Nat) (ht : Tree s.hist)
    (hwalk : Walk s.hist.parentOf c (down.map .into) target) (hdown : ∀ n ∈ down, n < s.hist.size) :
    let r := navDown down s
    Crossed s.hist c s.out r.hist target r.out ∧ Tree r.hist := by
  induction down generalizing c s with
  | nil =>
    cases hwalk
    exact ⟨.refl _ _ _, ht⟩
  | cons n rest ih =>
    cases hwalk with
    | into hp hrest =>
      have hleg := crossed_enter s hp
      have htree : Tree (s.enter n).hist := by
        rw [hist_enter s hp]
        exact ht.setRedoChild (hdown n List.mem_cons_self) hp
      have hstep := ih (c := n) (s := s.enter n) htree
        (by rw [hleg.relinked.parentOf]; exact hrest)
        (by rw [hleg.relinked.size]; exact fun m hm => hdown m (List.mem_cons_of_mem _ hm))
      exact ⟨hleg.trans hstep.1, hstep.2⟩

/-! ## The moves -/

/-- What a move does: it crosses from `current` to the tip of a group. -/
structure Moved (h h' : UndoHistory) (step : UndoStep) : Prop where
  crossed : Crossed h h.current emptyStep h' h'.current step
  tree : Tree h'
  tip : h'.GroupTip h'.current
  nav : h'.lastWasNav = true

theorem Moved.wf {h h' : UndoHistory} (hm : Moved h h' step) : WF h' :=
  { hm.tree with
    tip := hm.tip
    newest := fun hnav => by
      rw [hm.nav] at hnav
      cases hnav }

/-- Fields a move's result carries besides what `Crossed` speaks of. -/
theorem Crossed.finish {h h' : UndoHistory} {c c' : Nat} {out out' : UndoStep}
    (hx : Crossed h c out h' c' out') (nav : Bool) (cur tail cursor : Nat) (forward : Bool) :
    Crossed h c out { h' with current := cur, lastWasNav := nav } c'
      { out' with tail, cursor, forward } :=
  ⟨⟨hx.relinked.size, hx.relinked.node, hx.relinked.chronological, hx.relinked.nextSeq,
    hx.relinked.nextGroup⟩, hx.walk⟩

/-- A tree and its tips do not depend on where `current` stands. -/
theorem Tree.at {h : UndoHistory} (ht : Tree h) (cur : Nat) (nav : Bool) :
    Tree { h with current := cur, lastWasNav := nav } :=
  Relinked.tree (h := h) ⟨rfl, fun _ => rfl, rfl, rfl, rfl⟩ ht ht.redoChild

theorem undo_moved {h h' : UndoHistory} (hw : WF h) (hu : h.undo = some (h', step)) :
    Moved h h' step := by
  unfold undo at hu
  split at hu
  · cases hu
  · rename_i p hp
    have hpos : 0 < h.current := by
      rcases Nat.eq_zero_or_pos h.current with h0 | hpos
      · have := hw.root
        rw [← h0, parentOf, hp] at this
        cases this
      · exact hpos
    obtain ⟨hcross, htree, htip⟩ := undoLoop_spec emptyStep hw.toTree hw.tip.1 hpos rfl
      (Nat.le_of_lt hw.tip.1)
    cases hu
    exact ⟨hcross.finish true _ _ _ _, htree.at _ true,
      (hcross.relinked.groupTip _).mpr htip, rfl⟩

theorem redo_moved {h h' : UndoHistory} (hw : WF h) (hr : h.redo = some (h', step)) :
    Moved h h' step := by
  unfold redo at hr
  split at hr
  · cases hr
  · rename_i first hfirst
    obtain ⟨hlt, hp⟩ := hw.redoTarget_child hw.tip.1 hfirst
    obtain ⟨hcross, htree, htip⟩ := redoLoop_spec h.size emptyStep hw.toTree hlt hp rfl
      (Nat.le_add_left _ _)
    cases hr
    exact ⟨hcross.finish true _ _ _ _, htree.at _ true,
      (hcross.relinked.groupTip _).mpr htip, rfl⟩

/-- A move to `target` goes up to an ancestor of `current` and from it down a path that
meets no other. -/
theorem navigateTo_cases {h h' : UndoHistory} (hw : WF h) (ht : target < h.size)
    (hn : h.navigateTo target = some (h', step)) :
    ∃ lca path, lca ∈ h.ancestry h.size h.current ∧
      Walk h.parentOf lca (path.map .into) target ∧
      (∀ n ∈ path, n < h.size ∧ n ∉ h.ancestry h.size h.current) ∧
      let up := navUp lca h.size h.current ⟨h, emptyStep, none⟩
      let s := navDown path { up with group := none }
      h' = { s.hist with current := target, lastWasNav := true } ∧
        step = { s.out with forward := !path.isEmpty } := by
  unfold navigateTo at hn
  split at hn
  · cases hn
  · dsimp only at hn
    obtain ⟨path, hdown, hanc, hwalk, hpath⟩ := climb_spec hw.toTree
      (zero_mem_ancestry hw.toTree hw.tip.1 (Nat.le_of_lt hw.tip.1)) h.size [] ht
      (Nat.le_of_lt ht)
    rw [List.append_nil] at hdown
    rw [hdown] at hn
    cases hn
    exact ⟨_, path, hanc, hwalk, hpath, rfl, rfl⟩

theorem navigateTo_moved {h h' : UndoHistory} (hw : WF h) (ht : h.GroupTip target)
    (hn : h.navigateTo target = some (h', step)) :
    Moved h h' step ∧ h'.current = target := by
  obtain ⟨lca, path, hanc, hwalk, hpath, rfl, rfl⟩ := navigateTo_cases hw ht.1 hn
  obtain ⟨hup, htree⟩ := navUp_spec (s := ⟨h, emptyStep, none⟩) hw.toTree hw.tip.1
    (Nat.le_of_lt hw.tip.1) hanc
  set up := navUp lca h.size h.current ⟨h, emptyStep, none⟩
  obtain ⟨hdn, htree'⟩ := navDown_spec path (c := lca) (s := { up with group := none })
    htree
    (by show Walk up.hist.parentOf _ _ _
        rw [hup.relinked.parentOf]
        exact hwalk)
    (by show ∀ n ∈ path, n < up.hist.size
        rw [hup.relinked.size]
        exact fun n hn => (hpath n hn).1)
  exact ⟨⟨(hup.trans hdn).finish true target _ _ _, htree'.at _ true,
    ((hup.trans hdn).relinked.groupTip _).mpr ht, rfl⟩, rfl⟩

/-! ## Recording a change -/

/-- A change joins the group of `current`, which is then the newest node, or
starts the next group. -/
theorem groupFor_cases {h : UndoHistory} (hw : WF h) (origin : TransactionOrigin)
    (hint : GroupHint) :
    (h.groupFor origin hint = (h.groupOf h.current, h) ∧ h.current + 1 = h.size ∧
      0 < h.current) ∨
    h.groupFor origin hint = (h.nextGroup, { h with nextGroup := h.nextGroup + 1 }) := by
  have hjoin : (h.node h.current).parent.isSome = true → h.lastWasNav = false →
      h.current + 1 = h.size ∧ 0 < h.current := by
    intro hp hnav
    refine ⟨hw.newest hnav, ?_⟩
    rcases Nat.eq_zero_or_pos h.current with h0 | hpos
    · have hroot := hw.root
      rw [← h0, parentOf] at hroot
      rw [hroot] at hp
      cases hp
    · exact hpos
  cases hint with
  | breakBefore => exact .inr rfl
  | joinPrev =>
    simp only [groupFor]
    split
    · rename_i hm
      simp only [Bool.and_eq_true, Bool.not_eq_true'] at hm
      exact .inl ⟨rfl, hjoin hm.1 hm.2⟩
    · exact .inr rfl
  | continue' =>
    simp only [groupFor]
    split
    · rename_i hm
      simp only [Bool.and_eq_true, Bool.not_eq_true'] at hm
      exact .inl ⟨rfl, hjoin hm.1.1.1 hm.1.1.2⟩
    · exact .inr rfl

/-- What `groupFor` leaves alone. -/
theorem groupFor_frame (h : UndoHistory) (origin : TransactionOrigin) (hint : GroupHint) :
    (h.groupFor origin hint).2 = { h with nextGroup := (h.groupFor origin hint).2.nextGroup } := by
  cases hint <;> simp only [groupFor, freshGroup] <;> (try split) <;> rfl

section
variable (h : UndoHistory) (fwd inv : EditList) (origin : TransactionOrigin) (hint : GroupHint)
  (revision cursor : Nat)

theorem size_record : (h.record fwd inv origin hint revision cursor).size = h.size + 1 := by
  have hframe := groupFor_frame h origin hint
  simp only [record, size, addChild, List.length_modify, List.length_append]
  rw [hframe]
  rfl

theorem current_record :
    (h.record fwd inv origin hint revision cursor).current = h.size := by
  have hframe := groupFor_frame h origin hint
  simp only [record]
  rw [hframe]

theorem node_record_new (hc : h.current < h.size) :
    (h.record fwd inv origin hint revision cursor).node h.size =
      { parent := some h.current, children := [], seq := h.nextSeq,
        group := (h.groupFor origin hint).1, forward := some fwd, inverse := some inv,
        origin := some origin, resultRevision := revision, redoChild := none, cursor } := by
  have hframe := groupFor_frame h origin hint
  simp only [record, node, addChild, getD_modify]
  rw [hframe]
  dsimp only
  rw [if_neg (by simp only [size] at hc ⊢; omega), List.getD_append_right _ _ _ _ (Nat.le_refl _)]
  simp

/-- The nodes a change finds: only `current` gains a child. -/
theorem node_record_old (hi : i < h.size) :
    (h.record fwd inv origin hint revision cursor).node i =
      if i = h.current then
        { h.node i with
          children := (h.node i).children ++ [h.size], redoChild := some h.size }
      else h.node i := by
  have hframe := groupFor_frame h origin hint
  simp only [record, node, addChild, getD_modify]
  rw [hframe]
  dsimp only
  rw [List.getD_append _ _ _ _ hi, List.length_append]
  by_cases hic : i = h.current
  · rw [if_pos ⟨hic, by simp only [size] at hi; omega⟩, if_pos hic]
  · rw [if_neg (fun hand => hic hand.1), if_neg hic]

end

/-- `r` is `h` with one node more, a child of the current one. -/
structure Lengthened (h r : UndoHistory) : Prop where
  size : r.size = h.size + 1
  current : r.current = h.size
  parent : r.parentOf h.size = some h.current
  leaf : (r.node h.size).children = [] ∧ (r.node h.size).redoChild = none
  old : ∀ i < h.size, r.node i =
    if i = h.current then
      { h.node i with children := (h.node i).children ++ [h.size], redoChild := some h.size }
    else h.node i

/-- The new node's group joins the newest one or comes after it. -/
structure NewGroup (h r : UndoHistory) : Prop where
  lt : r.groupOf h.size < r.nextGroup
  le : h.nextGroup ≤ r.nextGroup
  pos : 0 < r.groupOf h.size
  mono : h.groupOf (h.size - 1) ≤ r.groupOf h.size
  join : r.groupOf h.size = h.groupOf (h.size - 1) → h.current = h.size - 1

theorem lengthened_record {h : UndoHistory} (hc : h.current < h.size) (fwd inv : EditList)
    (origin : TransactionOrigin) (hint : GroupHint) (revision cursor : Nat) :
    Lengthened h (h.record fwd inv origin hint revision cursor) where
  size := size_record ..
  current := current_record ..
  parent := by rw [parentOf, node_record_new _ _ _ _ _ _ _ hc]
  leaf := by
    rw [node_record_new _ _ _ _ _ _ _ hc]
    exact ⟨rfl, rfl⟩
  old _ hi := node_record_old h fwd inv origin hint revision cursor hi

/-- A recorded change joins the newest group only where the current node is the newest. -/
theorem newGroup_record {h : UndoHistory} (hw : WF h) (fwd inv : EditList)
    (origin : TransactionOrigin) (hint : GroupHint) (revision cursor : Nat) :
    NewGroup h (h.record fwd inv origin hint revision cursor) := by
  have hc := hw.tip.1
  have hg : (h.record fwd inv origin hint revision cursor).groupOf h.size = (h.groupFor origin hint).1 := by
    rw [groupOf, node_record_new _ _ _ _ _ _ _ hc]
  have hn : (h.record fwd inv origin hint revision cursor).nextGroup =
      (h.groupFor origin hint).2.nextGroup := rfl
  have hfirst := hw.group_lt 0 hw.nonempty
  have hlast := hw.group_lt (h.size - 1) (by omega)
  rcases groupFor_cases hw origin hint with ⟨heq, hnewest, hpos⟩ | heq
  · rw [heq] at hg hn
    dsimp only at hg hn
    have hcur : h.current = h.size - 1 := by omega
    have hgpos := hw.group_pos _ hc hpos
    rw [← hcur] at hlast
    refine ⟨by omega, by omega, by omega, ?_, fun _ => hcur⟩
    rw [← hcur, hg]
  · rw [heq] at hg hn
    dsimp only at hg hn
    exact ⟨by omega, by omega, by omega, by omega, fun hjoin => by omega⟩

namespace Lengthened

variable {h r : UndoHistory} (hgr : Lengthened h r)
include hgr

theorem parentOf_old (hi : i < h.size) : r.parentOf i = h.parentOf i := by
  rw [parentOf, parentOf, hgr.old i hi]
  split <;> rfl

theorem groupOf_old (hi : i < h.size) : r.groupOf i = h.groupOf i := by
  rw [groupOf, groupOf, hgr.old i hi]
  split <;> rfl

theorem old_or_new (hi : i < r.size) : i < h.size ∨ i = h.size := by
  have := hgr.size
  omega

/-- Only the current node has a child more. -/
theorem children (hw : WF h) (hp : p < r.size) (c : Nat) :
    c ∈ (r.node p).children ↔ c < r.size ∧ r.parentOf c = some p := by
  have hsize := hgr.size
  have hc := hw.tip.1
  rcases hgr.old_or_new hp with hp | rfl
  · rw [hgr.old p hp, hsize]
    have hchild := hw.children p hp
    by_cases hcs : c < h.size
    · rw [hgr.parentOf_old hcs]
      split
      · have hne : c ≠ h.size := by omega
        simp only [List.mem_append, List.mem_singleton, hne, or_false, hchild c]
        exact ⟨fun hand => ⟨by omega, hand.2⟩, fun hand => ⟨hcs, hand.2⟩⟩
      · rw [hchild c]
        exact ⟨fun hand => ⟨by omega, hand.2⟩, fun hand => ⟨hcs, hand.2⟩⟩
    · have hno : c ∉ (h.node p).children := fun hmem => hcs ((hchild c).mp hmem).1
      split
      · rename_i hpc
        simp only [List.mem_append, hno, false_or, List.mem_singleton]
        constructor
        · rintro rfl
          exact ⟨Nat.lt_succ_self _, by rw [hgr.parent, hpc]⟩
        · intro hand
          omega
      · rename_i hpc
        refine ⟨fun hmem => absurd hmem hno, fun hand => ?_⟩
        obtain rfl : c = h.size := by omega
        rw [hgr.parent] at hand
        exact absurd (Option.some.inj hand.2).symm hpc
  · rw [hgr.leaf.1]
    refine ⟨fun hmem => by simp at hmem, fun hand => ?_⟩
    rcases hgr.old_or_new hand.1 with hcs | rfl
    · rw [hgr.parentOf_old hcs] at hand
      have := hw.parent_lt hcs hand.2
      omega
    · rw [hgr.parent] at hand
      have := Option.some.inj hand.2
      omega

theorem redoChild (hw : WF h) (hp : p < r.size) {c : Nat} (hredo : (r.node p).redoChild = some c) :
    c < r.size ∧ r.parentOf c = some p := by
  have hsize := hgr.size
  rcases hgr.old_or_new hp with hp | rfl
  · rw [hgr.old p hp] at hredo
    split at hredo
    · rename_i hpc
      cases hredo
      exact ⟨by omega, by rw [hgr.parent, hpc]⟩
    · obtain ⟨hlt, hpar⟩ := hw.redoChild p hp c hredo
      exact ⟨by omega, by rw [hgr.parentOf_old hlt, hpar]⟩
  · rw [hgr.leaf.2] at hredo
    cases hredo

/-- The groups after a change are chains like those before it. -/
theorem chain (hw : WF h) (hng : NewGroup h r) (hi : i + 1 < r.size) :
    r.groupOf i ≤ r.groupOf (i + 1) ∧
      (r.groupOf (i + 1) = r.groupOf i → r.parentOf (i + 1) = some i) := by
  have hsize := hgr.size
  rw [hgr.groupOf_old (i := i) (by omega)]
  rcases hgr.old_or_new hi with hi | heq
  · rw [hgr.groupOf_old hi, hgr.parentOf_old hi]
    exact ⟨hw.group_mono i hi, hw.chain i hi⟩
  · rw [heq, hgr.parent]
    obtain rfl : i = h.size - 1 := by omega
    exact ⟨hng.mono, fun hg => congrArg some (hng.join hg)⟩

theorem tipParent (hw : WF h) (hi : i < r.size) (hp : r.parentOf i = some p)
    (hg : r.groupOf p ≠ r.groupOf i) : r.groupOf (p + 1) ≠ r.groupOf p := by
  have hc := hw.tip.1
  rcases hgr.old_or_new hi with hi | rfl
  · rw [hgr.parentOf_old hi] at hp
    have hlt := hw.parent_lt hi hp
    rw [hgr.groupOf_old (i := p) (by omega), hgr.groupOf_old hi] at hg
    rw [hgr.groupOf_old (i := p + 1) (by omega), hgr.groupOf_old (i := p) (by omega)]
    exact hw.tipParent i hi p hp hg
  · rw [hgr.parent] at hp
    obtain rfl : h.current = p := Option.some.inj hp
    rw [hgr.groupOf_old hc] at hg ⊢
    by_cases hcl : h.current + 1 < h.size
    · rw [hgr.groupOf_old hcl]
      exact hw.tip.2 hcl
    · rw [show h.current + 1 = h.size by omega]
      exact fun habs => hg habs.symm

end Lengthened

/-- A change keeps the history well formed. -/
theorem wf_record {h : UndoHistory} (hw : WF h) (fwd inv : EditList)
    (origin : TransactionOrigin) (hint : GroupHint) (revision cursor : Nat) :
    WF (h.record fwd inv origin hint revision cursor) := by
  have hc := hw.tip.1
  have hgr := lengthened_record hc fwd inv origin hint revision cursor
  have hng := newGroup_record hw fwd inv origin hint revision cursor
  have hnew := node_record_new h fwd inv origin hint revision cursor hc
  have hframe := groupFor_frame h origin hint
  have hsize := hgr.size
  have hcur := hgr.current
  exact
  { nonempty := by omega
    chronological := by
      rw [hsize, List.range_succ, ← hw.chronological]
      show (h.groupFor origin hint).2.chronological ++
        [(h.groupFor origin hint).2.nodes.length] = _
      rw [hframe]
    seq := by
      intro i hi
      rcases hgr.old_or_new hi with hi | rfl
      · rw [hgr.old i hi]
        split <;> exact hw.seq i hi
      · rw [hnew, hw.nextSeq]
    nextSeq := by
      rw [hsize, ← hw.nextSeq]
      show (h.groupFor origin hint).2.nextSeq + 1 = _
      rw [hframe]
    root := by rw [hgr.parentOf_old hw.nonempty, hw.root]
    root_group := by rw [hgr.groupOf_old hw.nonempty, hw.root_group]
    parent := by
      intro i hi hpos
      rcases hgr.old_or_new hi with hi | rfl
      · rw [hgr.parentOf_old hi]
        exact hw.parent i hi hpos
      · exact ⟨h.current, hc, hgr.parent⟩
    children := fun _ hp c => hgr.children hw hp c
    redoChild := fun _ hp _ hredo => hgr.redoChild hw hp hredo
    edits := by
      intro i hi hpos
      rcases hgr.old_or_new hi with hi | rfl
      · rw [hgr.old i hi]
        split <;> exact hw.edits i hi hpos
      · rw [hnew]
        exact ⟨rfl, rfl⟩
    group_lt := by
      intro i hi
      rcases hgr.old_or_new hi with hi | rfl
      · rw [hgr.groupOf_old hi]
        exact Nat.lt_of_lt_of_le (hw.group_lt i hi) hng.le
      · exact hng.lt
    group_pos := by
      intro i hi hpos
      rcases hgr.old_or_new hi with hi | rfl
      · rw [hgr.groupOf_old hi]
        exact hw.group_pos i hi hpos
      · exact hng.pos
    group_mono := fun _ hi => (hgr.chain hw hng hi).1
    chain := fun _ hi => (hgr.chain hw hng hi).2
    tipParent := fun _ hi _ hp hg => hgr.tipParent hw hi hp hg
    tip := ⟨by omega, fun hlt => by omega⟩
    newest := fun _ => by omega }

end UndoHistory

end Ruse.Core
