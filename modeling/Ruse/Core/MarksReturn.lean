import Ruse.Core.MoveRoute

/-!
# Where the marks of an undo go

The restorable positions a document carries belong to the node it stands at: every
node made since they are carried has its positions, those of its parent taken through
its edits (`NodeMarks`), and the positions saved for a group are those of the end
of it that the document will come to when it crosses it next (`Shown`). Crossing a
group, in either direction, keeps that (`Shown.leave`, `Shown.enter`).
-/

namespace Ruse.Core

open Ruse.Lib Ruse.Lib.VersionTree

variable {t : Tracked} {s : MarkState}

/-! ## Lists of positions -/

/-- The positions that are set lie in the text, on character boundaries. -/
def OnText (text : Bytes) (marks : List Tracked) : Prop :=
  ∀ t ∈ marks, ∀ p ∈ t.pos, p ≤ text.length ∧ isBoundary text p = true
deriving Decidable

/-- The same positions, none of them set where the second one is not. -/
def Follows (marks marks' : List Tracked) : Prop :=
  List.Forall₂ (fun t u => t.track = u.track ∧ t.restore = u.restore ∧
    (u.pos = none → t.pos = none)) marks marks'

/-- The restorable positions of a list. -/
def restorables (tracked : List Tracked) : List Tracked := tracked.filter Tracked.restore

theorem restorable_eq (tracked : List Tracked) :
    restorable tracked = (restorables tracked).map Tracked.pos := rfl

theorem restorables_apply (tracked : List Tracked) (m : LineMap) :
    restorables (tracked.map (·.apply m)) = (restorables tracked).map (·.apply m) := by
  rw [restorables, List.filter_map]
  rfl

theorem Tracked.apply_none (m : LineMap) (h : t.pos = none) :
    (t.apply m).pos = none := by
  rw [Tracked.apply, h]
  rfl

theorem onText_apply (m : LineMap) (tracked : List Tracked) :
    OnText m.new (tracked.map (·.apply m)) := by
  intro t ht p hp
  obtain ⟨u, -, rfl⟩ := List.mem_map.mp ht
  obtain ⟨q, -, hq⟩ := Option.bind_eq_some_iff.mp hp
  cases hu : u.track with
  | byte bias =>
    rw [hu] at hq
    cases hq
    exact ⟨Nat.le_trans (snap_le m.new _) (Nat.min_le_right _ _), isBoundary_snap m.new _⟩
  | line g =>
    rw [hu] at hq
    exact mapOffset_inside hq

namespace Follows

variable {a b c : List Tracked}

theorem refl (a : List Tracked) : Follows a a :=
  List.forall₂_same.mpr fun _ _ => ⟨rfl, rfl, id⟩

theorem trans (h : Follows a b) (h' : Follows b c) : Follows a c := by
  induction h generalizing c with
  | nil =>
    cases h'
    exact .nil
  | cons hab _ ih =>
    cases h' with
    | cons hbc hrest =>
      exact .cons ⟨hab.1.trans hbc.1, hab.2.1.trans hbc.2.1, fun hn => hab.2.2 (hbc.2.2 hn)⟩
        (ih hrest)

theorem apply (h : Follows a b) (m : LineMap) : Follows (a.map (·.apply m)) b := by
  induction h with
  | nil => exact .nil
  | cons hab _ ih => exact .cons ⟨hab.1, hab.2.1, fun hn => Tracked.apply_none m (hab.2.2 hn)⟩ ih

theorem length_eq (h : Follows a b) : a.length = b.length := List.Forall₂.length_eq h

end Follows

theorem restoreTracked_skip (text : Bytes) (ts : List Tracked) (saved : List (Option Nat))
    (hr : t.restore = false) :
    restoreTracked text (t :: ts) saved = t :: restoreTracked text ts saved := by
  rw [restoreTracked.eq_def]
  simp only [hr, Bool.false_eq_true, if_false]

theorem restoreTracked_nil (text : Bytes) (ts : List Tracked) (hr : t.restore = true) :
    restoreTracked text (t :: ts) [] = t :: ts := by
  rw [restoreTracked.eq_def]
  simp only [hr, if_true]

theorem restoreTracked_none (text : Bytes) (ts : List Tracked) (rest : List (Option Nat))
    (hr : t.restore = true) :
    restoreTracked text (t :: ts) (none :: rest) = t :: restoreTracked text ts rest := by
  rw [restoreTracked.eq_def]
  simp only [hr, if_true]

theorem restoreTracked_some (text : Bytes) (ts : List Tracked) (p : Nat) (rest : List (Option Nat))
    (hr : t.restore = true) :
    restoreTracked text (t :: ts) (some p :: rest) =
      { t with pos := some (snap text (min p text.length)) } :: restoreTracked text ts rest := by
  rw [restoreTracked.eq_def]
  simp only [hr, if_true]

/-- Putting back reads nothing of the positions that are not put back. -/
theorem restorables_restoreTracked (text : Bytes) (tracked : List Tracked)
    (saved : List (Option Nat)) : restorables (restoreTracked text tracked saved) =
      restoreTracked text (restorables tracked) saved := by
  induction tracked generalizing saved with
  | nil => rfl
  | cons t ts ih =>
    cases hr : t.restore with
    | false =>
      have hskip (l : List Tracked) : restorables (t :: l) = restorables l :=
        List.filter_cons_of_neg (by simp [hr])
      rw [restoreTracked_skip text ts saved hr, hskip, hskip, ih]
    | true =>
      have hkeep (l : List Tracked) : restorables (t :: l) = t :: restorables l :=
        List.filter_cons_of_pos hr
      rw [hkeep]
      cases saved with
      | nil => rw [restoreTracked_nil text _ hr, restoreTracked_nil text _ hr, hkeep]
      | cons s rest =>
        cases s with
        | none => rw [restoreTracked_none text _ _ hr, restoreTracked_none text _ _ hr, hkeep, ih]
        | some p =>
          rw [restoreTracked_some text _ _ _ hr, restoreTracked_some text _ _ _ hr, ← ih]
          exact List.filter_cons_of_pos hr

/-- Marks saved and put back over the same text are the saved ones. -/
theorem restoreTracked_follows {text : Bytes} {a b : List Tracked} (h : Follows a b)
    (hres : ∀ t ∈ b, t.restore = true) (hon : OnText text b) :
    restoreTracked text a (b.map Tracked.pos) = b := by
  induction h with
  | nil => rfl
  | @cons t u ts us htu _ ih =>
    have hrest := ih (fun t ht => hres t (List.mem_cons_of_mem _ ht))
      (fun t ht => hon t (List.mem_cons_of_mem _ ht))
    have hr : t.restore = true := htu.2.1.trans (hres u List.mem_cons_self)
    rw [List.map_cons]
    cases hu : u.pos with
    | none =>
      rw [restoreTracked_none text _ _ hr, hrest]
      obtain ⟨pos, track, restore⟩ := u
      obtain ⟨htrack, hrestore, hnone⟩ := htu
      rw [← hu] at hnone
      obtain ⟨pos', track', restore'⟩ := t
      cases htrack
      cases hrestore
      cases hu
      cases hnone rfl
      rfl
    | some p =>
      obtain ⟨hp, hb⟩ := hon u List.mem_cons_self p hu
      rw [restoreTracked_some text _ _ _ hr, hrest, Nat.min_eq_left hp,
        snap_of_isBoundary hp hb, ← hu, htu.1, htu.2.1]

/-! ## The positions of the nodes -/

open UndoHistory

/-- The node the positions are carried from, and the nodes made since. -/
def Since (start size n : Nat) : Prop := n = start ∨ size ≤ n
deriving Decidable

/-- Every node made since has the positions of its parent, taken through its edits. -/
structure NodeMarks (h : UndoHistory) (root : Bytes) (start size : Nat)
    (marks : Nat → List Tracked) : Prop where
  lt : start < size
  made : ∀ n p, size ≤ n → h.parentOf n = some p → Since start size p ∧
    marks n = (marks p).map (·.apply ⟨h.textOf root p, h.textOf root n, (h.forwardOf n).edits⟩)
  restore : ∀ t ∈ marks start, t.restore = true
  onText : OnText (h.textOf root start) (marks start)

/-- What a document that stands at `c` has: the text and the positions of `c`, and for
each group made since the positions of the end the document is not at. -/
structure Shown (h : UndoHistory) (root : Bytes) (size : Nat) (marks : Nat → List Tracked)
    (c : Nat) (s : MarkState) : Prop where
  text : s.text = h.textOf root c
  tracked : restorables s.tracked = marks c
  savedIn : ∀ first p, h.parentOf first = some p → h.groupOf p ≠ h.groupOf first →
    size ≤ first → Under h.parentOf first c → marks p ≠ [] →
    s.markUndo (h.groupOf first) = some ((marks p).map Tracked.pos)
  savedOut : ∀ first p tip, h.parentOf first = some p → h.groupOf p ≠ h.groupOf first →
    size ≤ first → h.GroupTip tip → h.groupOf tip = h.groupOf first →
    ¬ Under h.parentOf first c → marks tip ≠ [] →
    s.markUndo (h.groupOf first) = some ((marks tip).map Tracked.pos)

namespace NodeMarks

variable {h : UndoHistory} {root : Bytes} {start size : Nat} {marks : Nat → List Tracked}

theorem since_above (hm : NodeMarks h root start size marks) (ht : Tree h) {n c : Nat}
    (hc : Since start size c) (hn : Under h.parentOf n c) (hstart : Under h.parentOf start n) :
    Since start size n := by
  induction hn with
  | refl => exact hc
  | @tail p c hup hp ih =>
    rcases hc with rfl | hge
    · -- `n` would be both above and below the start
      have := (Under.made hup hp).le ht.older
      have := hstart.le ht.older
      exact .inl (by omega)
    · exact ih (hm.made c p hge hp).1

theorem start_above (hm : NodeMarks h root start size marks) (ht : Tree h) {c : Nat}
    (hc : Since start size c) (hlt : c < h.size) : Under h.parentOf start c := by
  induction c using Nat.strong_induction_on with
  | _ c ih =>
    rcases hc with rfl | hge
    · exact .refl _
    · have := hm.lt
      obtain ⟨p, hpc, hp⟩ := ht.parent c hlt (by omega)
      exact (ih p hpc (hm.made c p hge hp).1 (by omega)).made hp

theorem wellPlaced (hm : NodeMarks h root start size marks) (ht : Tree h) {c : Nat}
    (hc : Since start size c) (hlt : c < h.size) :
    (∀ t ∈ marks c, t.restore = true) ∧ OnText (h.textOf root c) (marks c) := by
  induction c using Nat.strong_induction_on with
  | _ c ih =>
    rcases hc with rfl | hge
    · exact ⟨hm.restore, hm.onText⟩
    · have := hm.lt
      obtain ⟨p, hpc, hp⟩ := ht.parent c hlt (by omega)
      obtain ⟨hsince, heq⟩ := hm.made c p hge hp
      rw [heq]
      refine ⟨fun t ht => ?_, onText_apply _ _⟩
      obtain ⟨u, hu, rfl⟩ := List.mem_map.mp ht
      exact (ih p hpc hsince (by omega)).1 u hu

theorem follows (hm : NodeMarks h root start size marks) {a c : Nat} {path : List Nat}
    (hw : Walk h.parentOf a (path.map .into) c) (hpath : ∀ n ∈ path, size ≤ n) :
    Follows (marks c) (marks a) := by
  induction path generalizing a with
  | nil =>
    cases hw
    exact .refl _
  | cons n path ih =>
    cases hw with
    | into hp hrest =>
      have hfirst := (hm.made n a (hpath n List.mem_cons_self) hp).2
      have hn : Follows (marks n) (marks a) := by
        rw [hfirst]
        exact (Follows.refl _).apply _
      exact (ih hrest fun m hm => hpath m (List.mem_cons_of_mem _ hm)).trans hn

end NodeMarks

/-! ## Edit lists -/

namespace MarkState

@[simp] theorem markUndo_edits (s : MarkState) (es : List EditList) :
    (es.foldl edit s).markUndo = s.markUndo := by
  induction es generalizing s with
  | nil => rfl
  | cons e es ih => exact ih (s.edit e)

theorem text_edits {es : List EditList} {t : Bytes}
    (hfit : VersionTree.replay EditList.applyIn es s.text = some t) :
    (es.foldl edit s).text = t := by
  induction es generalizing s with
  | nil => exact Option.some.inj hfit
  | cons e es ih =>
    obtain ⟨mid, hmid, hrest⟩ := Option.bind_eq_some_iff.mp hfit
    exact ih (s := s.edit e) (by
      show VersionTree.replay EditList.applyIn es (e.applyTo s.text) = some t
      rw [(EditList.applyIn_eq_some hmid).2]
      exact hrest)

theorem restorables_edit (s : MarkState) (e : EditList) :
    restorables (s.edit e).tracked =
      (restorables s.tracked).map (·.apply ⟨s.text, e.applyTo s.text, e.edits⟩) :=
  restorables_apply _ _

theorem follows_edits {marks : List Tracked} (es : List EditList)
    (h : Follows (restorables s.tracked) marks) :
    Follows (restorables (es.foldl edit s).tracked) marks := by
  induction es generalizing s with
  | nil => exact h
  | cons e es ih =>
    refine ih (s := s.edit e) ?_
    rw [restorables_edit]
    exact h.apply _

@[simp] theorem text_restore (s : MarkState) (group : Nat) (before : List (Option Nat)) :
    (s.restore group before).text = s.text := by
  unfold restore
  split <;> rfl

theorem markUndo_restore {group g : Nat} (before : List (Option Nat)) (hg : g ≠ group) :
    (s.restore group before).markUndo g = s.markUndo g := by
  unfold restore
  split
  · rfl
  · exact if_neg hg

/-- The marks saved for a group, if there are any, come back, and the ones they
replace are saved. -/
theorem restore_spec (group : Nat) (s : MarkState) (before : List (Option Nat))
    (marks : List Tracked) (hf : Follows (restorables s.tracked) marks)
    (hres : ∀ t ∈ marks, t.restore = true) (hon : OnText s.text marks)
    (hsaved : marks ≠ [] → s.markUndo group = some (marks.map Tracked.pos)) :
    restorables (s.restore group before).tracked = marks ∧
      (marks ≠ [] → (s.restore group before).markUndo group = some before) := by
  by_cases hnil : marks = []
  · subst hnil
    refine ⟨?_, fun hne => absurd rfl hne⟩
    have hempty : restorables s.tracked = [] := List.length_eq_zero_iff.mp hf.length_eq
    unfold restore
    split
    · exact hempty
    · dsimp only
      rw [restorables_restoreTracked, hempty]
      rfl
  · have hs := hsaved hnil
    unfold restore
    rw [hs]
    refine ⟨?_, fun _ => if_pos rfl⟩
    rw [restorables_restoreTracked, restoreTracked_follows hf hres hon]

end MarkState

/-! ## Crossing groups -/

/-- The marks of a node are carried along every path made since. -/
theorem NodeMarks.along {h : UndoHistory} {root : Bytes} {start size : Nat}
    {marks : Nat → List Tracked} (hm : NodeMarks h root start size marks)
    (hsound : h.SoundText root) {a c : Nat} {path : List Nat}
    (hw : Walk h.parentOf a (path.map .into) c) (hpath : ∀ n ∈ path, size ≤ n)
    (htext : s.text = h.textOf root a) (htracked : restorables s.tracked = marks a) :
    ((path.map h.forwardOf).foldl MarkState.edit s).text = h.textOf root c ∧
      restorables ((path.map h.forwardOf).foldl MarkState.edit s).tracked = marks c := by
  induction path generalizing a s with
  | nil =>
    cases hw
    exact ⟨htext, htracked⟩
  | cons n path ih =>
    cases hw with
    | into hp hrest =>
      have hfit := hsound.into n a hp
      have hmade := (hm.made n a (hpath n List.mem_cons_self) hp).2
      have hnew : (h.forwardOf n).applyTo s.text = h.textOf root n := by
        rw [htext]
        exact (EditList.applyIn_eq_some hfit).2
      refine ih hrest (fun m hm => hpath m (List.mem_cons_of_mem _ hm))
        (s := s.edit (h.forwardOf n)) hnew ?_
      rw [MarkState.restorables_edit, htracked, hnew, htext, hmade]

namespace Shown

variable {h : UndoHistory} {root : Bytes} {start size : Nat} {marks : Nat → List Tracked}

section
variable {p first tip : Nat} (ht : Tree h) (hs : Span h p first tip)
include ht hs

theorem markUndo_cross (s : MarkState) (es : List EditList) {f q : Nat}
    (hf : h.parentOf f = some q) (hq : h.groupOf q ≠ h.groupOf f) (hne : f ≠ first) :
    (s.cross (h.groupOf first, es)).markUndo (h.groupOf f) = s.markUndo (h.groupOf f) := by
  have hg : h.groupOf f ≠ h.groupOf first := fun hg =>
    hne (ht.first_unique hg hf hs.enters hq hs.apart)
  rw [MarkState.cross, MarkState.markUndo_restore _ hg, MarkState.markUndo_edits]

variable (hsound : h.SoundText root) (hm : NodeMarks h root start size marks)
  (hfirst : size ≤ first)
include hm hfirst

theorem follows_span : Follows (marks tip) (marks p) := by
  refine hm.follows (hs.walk ht) fun n hn => ?_
  have := (mem_span.mp hn).1
  omega

include hsound

/-- Out of a group, by its inverse lists: the positions are those of its parent. -/
theorem leave (hsh : Shown h root size marks tip s) :
    Shown h root size marks p (s.cross (h.upRun (first, tip))) := by
  have hfollows := follows_span ht hs hm hfirst
  obtain ⟨hres, hon⟩ := hm.wellPlaced ht (hm.made first p hfirst hs.enters).1
    (hs.parent_lt_size ht)
  have htext : ((h.upRun (first, tip)).2.foldl MarkState.edit s).text = h.textOf root p := by
    refine MarkState.text_edits ?_
    have hreplay := (hs.walk ht).back.replay hsound
    rw [List.map_map] at hreplay
    rw [hsh.text]
    exact hreplay
  have hat : Under h.parentOf first tip :=
    (hs.under_first ht hs.enters hs.apart).mpr (.inl rfl)
  obtain ⟨htracked, hsaved⟩ := MarkState.restore_spec (h.groupOf first)
    ((h.upRun (first, tip)).2.foldl MarkState.edit s) (restorable s.tracked) (marks p)
    (MarkState.follows_edits _ (by rw [hsh.tracked]; exact hfollows)) hres
    (by rw [htext]; exact hon)
    (by rw [MarkState.markUndo_edits]; exact hsh.savedIn first p hs.enters hs.apart hfirst hat)
  constructor
  · rw [MarkState.cross, MarkState.text_restore]
    exact htext
  · exact htracked
  · intro f q hf hq hsize hu hne
    have hff : f ≠ first := by
      rintro rfl
      exact hs.not_under ht hu
    rw [upRun, markUndo_cross ht hs s _ hf hq hff]
    exact hsh.savedIn f q hf hq hsize ((hs.under_first ht hf hq).mpr (.inr hu)) hne
  · intro f q t hf hq hsize htip hgt hu hne
    by_cases hff : f = first
    · subst hff
      have hend : t = tip := ht.tip_unique htip hs.tip (hgt.trans hs.same.symm)
      subst hend
      have hp : marks p ≠ [] := by
        rw [← List.length_pos_iff, ← hfollows.length_eq, List.length_pos_iff]
        exact hne
      refine (hsaved hp).trans ?_
      rw [restorable_eq, hsh.tracked]
    · rw [upRun, markUndo_cross ht hs s _ hf hq hff]
      refine hsh.savedOut f q t hf hq hsize htip hgt ?_ hne
      rw [hs.under_first ht hf hq]
      exact not_or.mpr ⟨hff, hu⟩

include hsound in
/-- Into a group, by its forward lists: the positions are those of its last node. -/
theorem enter (hsh : Shown h root size marks p s) :
    Shown h root size marks tip (s.cross (h.downRun (first, tip))) := by
  have hfollows := follows_span ht hs hm hfirst
  have hsince : Since start size tip := .inr (Nat.le_trans hfirst hs.le)
  obtain ⟨hres, hon⟩ := hm.wellPlaced ht hsince hs.tip.1
  have hpath : ∀ n ∈ span (first, tip), size ≤ n := fun n hn =>
    Nat.le_trans hfirst (mem_span.mp hn).1
  obtain ⟨htext, htracked⟩ := hm.along hsound (hs.walk ht) hpath hsh.text hsh.tracked
  obtain ⟨hback, hsaved⟩ := MarkState.restore_spec (h.groupOf first)
    ((h.downRun (first, tip)).2.foldl MarkState.edit s) (restorable s.tracked) (marks tip)
    (by rw [downRun, htracked]; exact .refl _) hres (by rw [downRun, htext]; exact hon)
    (by rw [MarkState.markUndo_edits]
        exact hsh.savedOut first p tip hs.enters hs.apart hfirst hs.tip hs.same
          (hs.not_under ht))
  constructor
  · rw [MarkState.cross, MarkState.text_restore]
    exact htext
  · exact hback
  · intro f q hf hq hsize hu hne
    by_cases hff : f = first
    · subst hff
      rw [hs.enters] at hf
      cases hf
      have htip : marks tip ≠ [] := by
        rw [← List.length_pos_iff, hfollows.length_eq, List.length_pos_iff]
        exact hne
      refine (hsaved htip).trans ?_
      rw [restorable_eq, hsh.tracked]
    · rw [downRun, markUndo_cross ht hs s _ hf hq hff]
      have hup := ((hs.under_first ht hf hq).mp hu).resolve_left hff
      exact hsh.savedIn f q hf hq hsize hup hne
  · intro f q t hf hq hsize htip hgt hu hne
    rw [hs.under_first ht hf hq] at hu
    rw [downRun, markUndo_cross ht hs s _ hf hq (not_or.mp hu).1]
    exact hsh.savedOut f q t hf hq hsize htip hgt (not_or.mp hu).2 hne

end

section
variable (ht : Tree h) (hsound : h.SoundText root) (hm : NodeMarks h root start size marks)
  {a c : Nat} {l : List (Nat × Nat)} (hs : Spans h a l c) (hl : ∀ s ∈ l, size ≤ s.1)
include ht hsound hm hs hl

theorem leaves (hsh : Shown h root size marks c s) :
    Shown h root size marks a ((l.map h.upRun).reverse.foldl MarkState.cross s) := by
  induction hs with
  | here n => exact hsh
  | cross hspan _ ih =>
    rw [List.map_cons, List.reverse_cons, List.foldl_append]
    exact leave ht hspan hsound hm (hl _ List.mem_cons_self)
      (ih (fun s hs => hl s (List.mem_cons_of_mem _ hs)) hsh)

theorem enters (hsh : Shown h root size marks a s) :
    Shown h root size marks c ((l.map h.downRun).foldl MarkState.cross s) := by
  induction hs generalizing s with
  | here n => exact hsh
  | cross hspan _ ih =>
    exact ih (fun s hs => hl s (List.mem_cons_of_mem _ hs))
      (enter ht hspan hsound hm (hl _ List.mem_cons_self) hsh)

end

end Shown

/-- A move of the tree shows the marks of the node it comes to. -/
theorem UndoHistory.Move.shown {h h' : UndoHistory} {step : UndoStep} {root : Bytes}
    {start size : Nat} {marks : Nat → List Tracked} (hw : WF h) (hway : Remembers h h.current)
    (hsound : h.SoundText root) (hm : NodeMarks h root start size marks)
    (hmove : h.Move h' step) (hc : Since start size h.current)
    (hc' : Since start size h'.current) :
    ∃ runs, Document.Runs step runs ∧ ∀ s : MarkState, Shown h root size marks h.current s →
      Shown h root size marks h'.current (runs.foldl MarkState.cross s) := by
  have ht := hw.toTree
  obtain ⟨apex, ups, downs, hups, hdowns, hapex, hruns⟩ := hmove.crosses hw hway
  have hmoved := hmove.moved hw
  have htip' := (hmoved.crossed.relinked.groupTip _).mp hmoved.tip
  have hstart := hapex start (hm.start_above ht hc hw.tip.1) (hm.start_above ht hc' htip'.1)
  -- below the start stand only nodes made since
  have hsince : ∀ {c : Nat} {l : List (Nat × Nat)}, Since start size c → Spans h apex l c →
      ∀ s ∈ l, size ≤ s.1 := by
    intro c l hc hs s hmem
    obtain ⟨hlt, hup, hdown⟩ := hs.under ht hmem
    have := hstart.le ht.older
    rcases hm.since_above ht hc hdown (hstart.trans hup) with heq | hge
    · omega
    · exact hge
  refine ⟨_, hruns, fun s hs => ?_⟩
  rw [List.foldl_append]
  exact Shown.enters ht hsound hm hdowns (hsince hc' hdowns)
    (Shown.leaves ht hsound hm hups (hsince hc hups) hs)

end Ruse.Core
