import Ruse.Core.LineIndex
import Ruse.Tui.FoldRenest

/-!
# Runs on a buffer with folds

The folds of a buffer are a forest after every run: each command keeps it, an edit does not
touch the folds, and following the edits ends in giving the nesting back.
-/

namespace Ruse.Tui

open Ruse.Core Ruse.Lib

/-! ## Folds pinned by line anchors

The manual folds of a buffer are pinned by three line anchors each: the first line and the
last, both dropped with their line, and the last line again, whose anchor goes to the line
above a deleted block. `follow` moves the folds to where their anchors went.
-/

/-- The folds anchored at a revision, each with the anchors of its two ends. -/
structure Anchored where
  rev : Option Nat
  folds : List (Fold × AnchorId × AnchorId × AnchorId)

/-- Whether two folds cover the same lines. -/
def sameRange (a b : Fold) : Bool := a.start == b.start && a.stop == b.stop

namespace Anchored

def new : Anchored := ⟨none, []⟩

/-- Whether these are the folds anchored at revision `rev`. -/
def current (a : Anchored) (rev : Nat) (folds : List Fold) : Bool :=
  a.rev == some rev && a.folds.length == folds.length &&
    (a.folds.zip folds).all fun p => sameRange p.1.1 p.2

/-- The line a fold now starts on: that of its first anchor, or the next when the line was
joined onto the one above. -/
def startNow (d : Document) (lineOf : Nat → Nat) (s : Resolved) : Nat :=
  let at' := min s.offset d.text.length
  lineOf at' + if 0 < at' ∧ d.text[at' - 1]? ≠ some newline then 1 else 0

def stopNow (lineOf : Nat → Nat) (e eUp : Resolved) : Nat :=
  lineOf (if e.invalidated then eUp.offset else e.offset)

/-- Where a fold's anchors put it; `none` when its lines are gone. -/
def moved (d : Document) (lineOf : Nat → Nat) (f : Fold) (s e eUp : Resolved) : Option Fold :=
  let start := startNow d lineOf s
  let stop := stopNow lineOf e eUp
  if (s.invalidated && e.invalidated) || stop < start then none
  else some { f with start, stop }

/-- A fold after the edits; one not anchored stays as it is. -/
def followOne (a : Anchored) (d : Document) (lineOf : Nat → Nat) (f : Fold) : Option Fold :=
  match a.folds.find? fun p => sameRange p.1 f with
  | none => some f
  | some (_, ids) =>
    match d.anchors.tryResolve ids.1, d.anchors.tryResolve ids.2.1, d.anchors.tryResolve ids.2.2 with
    | some s, some e, some eUp => moved d lineOf f s e eUp
    | _, _, _ => some f

/-- The folds after the edits made since they were anchored. -/
def follow (a : Anchored) (d : Document) (folds : List Fold) (lineOf : Nat → Nat) : List Fold :=
  if a.rev = none ∨ a.rev = some d.revision then folds
  else renest (folds.filterMap (a.followOne d lineOf))

/-- Every anchor held is taken out of the document. -/
def release (a : Anchored) (d : Document) : Anchored × Document :=
  (new, (a.folds.flatMap fun p => [p.2.1, p.2.2.1, p.2.2.2]).foldl
    (fun d id => (d.removeAnchor id).1) d)

def anchorOne (lineStart : Nat → Nat) (st : Anchored × Document) (f : Fold) : Anchored × Document :=
  let (d, s) := st.2.createLineAnchor (lineStart f.start) .drop
  let (d, e) := d.createLineAnchor (lineStart f.stop) .drop
  let (d, eUp) := d.createLineAnchor (lineStart f.stop) .cursor
  ({ st.1 with folds := st.1.folds ++ [(f, s, e, eUp)] }, d)

/-- The folds anchored in the document as it stands. -/
def anchor (a : Anchored) (d : Document) (folds : List Fold) (lineStart : Nat → Nat) :
    Anchored × Document :=
  let r := a.release d
  folds.foldl (anchorOne lineStart) ({ r.1 with rev := some r.2.revision }, r.2)

end Anchored

/-! ## A buffer with its manual folds -/

/-- A buffer, its folds, and what pins them. -/
structure FoldedBuffer where
  doc : Document
  folds : List Fold
  anchored : Anchored

/-- What is done to a buffer and its folds. -/
inductive FoldOp where
  | insert (start stop : Nat)
  | delete (line : Nat) (recursive : Bool)
  | openOne (line : Nat)
  | openRec (line : Nat)
  | closeOne (line : Nat)
  | closeRec (line : Nat)
  | openAt (line : Nat)
  | opRange (first last : Nat) (opening recursive : Bool)
  | renest
  | edit (op : Document.Op)
  | settle

namespace FoldedBuffer

def start (text : Bytes) : FoldedBuffer := ⟨.new text, [], .new⟩

/-- The folds follow the edits made, and are anchored again unless they are already. -/
def settle (b : FoldedBuffer) : FoldedBuffer :=
  let folds := b.anchored.follow b.doc b.folds (lineOf b.doc.text)
  if b.anchored.current b.doc.revision folds then { b with folds }
  else
    let starts := lineStartsOf b.doc.text
    let (anchored, doc) := b.anchored.anchor b.doc folds fun l => starts.getD l b.doc.text.length
    ⟨doc, folds, anchored⟩

def step (b : FoldedBuffer) : FoldOp → FoldedBuffer
  | .insert start stop => { b with folds := insertClosedFold b.folds start stop }
  | .delete line recursive => { b with folds := (deleteAt b.folds line recursive).1 }
  | .openOne line => { b with folds := (openOne b.folds line).elim b.folds Prod.fst }
  | .openRec line => { b with folds := (openRec b.folds line).elim b.folds Prod.fst }
  | .closeOne line => { b with folds := (closeOne b.folds line).elim b.folds Prod.fst }
  | .closeRec line => { b with folds := (closeRec b.folds line).elim b.folds Prod.fst }
  | .openAt line => { b with folds := (openAt b.folds line).1 }
  | .opRange first last opening recursive =>
    { b with folds := (opRange b.folds first last opening recursive).1 }
  | .renest => { b with folds := Tui.renest b.folds }
  | .edit op => { b with doc := b.doc.step op }
  | .settle => b.settle

end FoldedBuffer

variable {folds : List Fold} {f t : Fold} {line i start stop : Nat}

/-! ## Following the edits -/

theorem Anchored.moved_ordered {d : Document} {lineOf : Nat → Nat} {s e eUp : Resolved}
    (h : Anchored.moved d lineOf f s e eUp = some t) : t.start ≤ t.stop := by
  simp only [Anchored.moved] at h
  split at h
  · simp at h
  · rename_i hkept
    rw [← Option.some.inj h]
    simp only [Bool.or_eq_true, Bool.and_eq_true, decide_eq_true_eq, not_or, Nat.not_lt] at hkept
    exact hkept.2

theorem Anchored.followOne_ordered {a : Anchored} {d : Document} {lineOf : Nat → Nat}
    (hf : f.start ≤ f.stop) (h : a.followOne d lineOf f = some t) : t.start ≤ t.stop := by
  simp only [Anchored.followOne] at h
  split at h
  · rw [← Option.some.inj h]
    exact hf
  · split at h
    · exact moved_ordered h
    · rw [← Option.some.inj h]
      exact hf

theorem Anchored.follow_nested (a : Anchored) (d : Document) (lineOf : Nat → Nat)
    (h : DepthNested folds) : DepthNested (a.follow d folds lineOf) := by
  unfold Anchored.follow
  split
  · exact h
  · apply renest_nested
    intro t ht
    obtain ⟨f, hf, heq⟩ := List.mem_filterMap.mp ht
    exact followOne_ordered (h.ordered _ (List.mem_map_of_mem hf)) heq

/-! ## What a command does -/

/-- A delete takes out its target, whose nested folds go a level up, or are taken out too when
it is recursive. -/
theorem deleteAt_exact (h : DepthNested folds) (hi : deleteTarget folds line = some i)
    (recursive : Bool) : ∃ t, folds[i]? = some t ∧ t.contains line = true ∧
      deleteAt folds line recursive =
        (if recursive then (folds.eraseIdx i).filter fun f => ¬ t.toRanked.Over f.toRanked
          else (folds.eraseIdx i).map (lowered t), true) := by
  obtain ⟨t, hmem, hcontains, ht, heq⟩ := deleteAt_eq h hi recursive
  refine ⟨t, ht, hcontains, ?_⟩
  -- no other fold is of the same lines and level
  have hnodup : folds.Nodup := List.Nodup.of_map _ h.nodup
  obtain ⟨hlt, hget⟩ := List.getElem?_eq_some_iff.mp ht
  have herase : folds.eraseIdx i = folds.filter fun f => f.toRanked ≠ t.toRanked := by
    have hidx := hnodup.idxOf_getElem i hlt
    rw [hget] at hidx
    rw [← hidx, List.eraseIdx_idxOf_eq_erase, hnodup.erase_eq_filter]
    refine List.filter_congr ?_
    intro f hf
    obtain ⟨j, hj⟩ := List.mem_iff_getElem?.mp hf
    have hsame : f = t ↔ f.toRanked = t.toRanked := by
      refine ⟨fun heq => by rw [heq], fun heq => ?_⟩
      have hij := h.inj ht hj heq.symm
      rw [hij, hj] at ht
      exact Option.some.inj ht
    rw [bne, beq_eq_decide]
    simp [hsame]
  rw [heq, herase]
  cases recursive with
  | false => simp
  | true =>
    simp only [true_and, if_true, List.filter_filter, Prod.mk.injEq, and_true]
    have hkeep : folds.filter (fun f => decide (f.toRanked ≠ t.toRanked ∧
        ¬ t.toRanked.Over f.toRanked)) = folds.filter (fun f =>
        decide (¬ t.toRanked.Over f.toRanked) && decide (f.toRanked ≠ t.toRanked)) := by
      refine List.filter_congr ?_
      intro f _
      by_cases hov : t.toRanked.Over f.toRanked <;> simp [hov]
    rw [hkeep]
    refine (List.map_congr_left ?_).trans (List.map_id _)
    intro f hf
    have := (List.mem_filter.mp hf).2
    simp only [Bool.and_eq_true, decide_eq_true_eq] at this
    simp [lowered, this.1]

/-- A new fold leaves the lines of every other fold as they are, and holds those asked for. -/
theorem insertClosedFold_keeps (hle : start ≤ stop) : ∃ old new,
    insertClosedFold folds start stop = old ++ [new] ∧
      old.map (fun f => (f.toSpan, f.closed)) = folds.map (fun f => (f.toSpan, f.closed)) ∧
      new.closed = true ∧ new.start ≤ start ∧ stop ≤ new.stop := by
  have hask := (takenIn_spec folds (parentFrom folds start stop none) start stop).1
  simp only [insertClosedFold, Nat.not_lt.mpr hle, if_false]
  refine ⟨_, _, rfl, ?_, rfl, hask.1, hask.2⟩
  rw [List.map_map]
  refine List.map_congr_left ?_
  intro f _
  simp only [Function.comp_apply]
  split <;> rfl

/-! ## Runs -/

/-- Every operation keeps the folds nested. -/
theorem step_nested {b : FoldedBuffer} (op : FoldOp) (h : DepthNested b.folds) :
    DepthNested (b.step op).folds := by
  have helim {hit : Option (List Fold × Bool)} (hsame : ∀ r ∈ hit, SameRanks b.folds r.1) :
      DepthNested (hit.elim b.folds Prod.fst) := by
    cases hit with
    | none => exact h
    | some r => exact (hsame r rfl).nested h
  cases op with
  | insert start stop => exact insertClosedFold_nested h start stop
  | delete line recursive => exact deleteAt_nested h line recursive
  | openOne line => exact helim fun r hr => openOne_same hr
  | openRec line => exact helim fun r hr => openRec_same hr
  | closeOne line => exact helim fun r hr => closeOne_same hr
  | closeRec line => exact helim fun r hr => closeRec_same hr
  | openAt line => exact (openAt_same b.folds line).nested h
  | opRange first last opening recursive =>
    exact (opRange_same b.folds first last opening recursive).nested h
  | renest => exact renest_nested fun f hf => h.ordered _ (List.mem_map_of_mem hf)
  | edit op => exact h
  | settle =>
    have hfollow := b.anchored.follow_nested b.doc (lineOf b.doc.text) h
    simp only [FoldedBuffer.step, FoldedBuffer.settle]
    split
    · exact hfollow
    · exact hfollow

/-- After every run the folds are a forest, as the walker checks, a delete takes out its
target and no more than it should, and a new fold leaves the lines of the others alone. -/
theorem manual_folds_nested (text : Bytes) (ops : List FoldOp) :
    let folds := (run FoldedBuffer.step (FoldedBuffer.start text) ops).folds
    DepthNested folds ∧
    (∀ lines, (∀ f ∈ folds, f.stop < max lines 1) → assertInvariants folds lines true = true) ∧
    (∀ line recursive,
      (deleteTarget folds line = none ∧ deleteAt folds line recursive = (folds, false)) ∨
      ∃ i t, deleteTarget folds line = some i ∧ folds[i]? = some t ∧ t.contains line = true ∧
        deleteAt folds line recursive =
          (if recursive then (folds.eraseIdx i).filter fun f => ¬ t.toRanked.Over f.toRanked
            else (folds.eraseIdx i).map (lowered t), true)) ∧
    (∀ start stop, (stop < start ∧ insertClosedFold folds start stop = folds) ∨
      ∃ old new, insertClosedFold folds start stop = old ++ [new] ∧
        old.map (fun f => (f.toSpan, f.closed)) = folds.map (fun f => (f.toSpan, f.closed)) ∧
        new.closed = true ∧ new.start ≤ start ∧ stop ≤ new.stop) := by
  intro folds
  have hstart : DepthNested (FoldedBuffer.start text).folds := Forest.nil
  have hforest : DepthNested folds :=
    run_invariant (P := fun b : FoldedBuffer => DepthNested b.folds)
      (fun _ op => step_nested op) hstart ops
  refine ⟨hforest, fun lines hin => assertInvariants_of_nested hforest hin, ?_, ?_⟩
  · intro line recursive
    cases hi : deleteTarget folds line with
    | none => exact .inl ⟨rfl, by simp [deleteAt, hi]⟩
    | some i =>
      obtain ⟨t, ht, hcontains, heq⟩ := deleteAt_exact hforest hi recursive
      exact .inr ⟨i, t, rfl, ht, hcontains, heq⟩
  · intro start stop
    by_cases hle : start ≤ stop
    · exact .inr (insertClosedFold_keeps hle)
    · exact .inl ⟨by omega, by simp [insertClosedFold, Nat.lt_of_not_le hle]⟩

end Ruse.Tui
