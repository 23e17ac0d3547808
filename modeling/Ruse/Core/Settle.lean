import Ruse.Core.Commit

/-!
# What settling a view keeps

The invariant walker of a view (`View.Valid`) asks that every stored position lie in the
text, on a character boundary of a valid one, and that the two lists be bounded with
their walk cursors in them. Settling a view over a text makes the positions so whatever
they were, and keeps the lists; the positions it does not set itself it only snaps
(`settle_get'`).
-/

namespace Ruse.Core

namespace View

variable {k p : Nat} {l l' : List Nat} {w : View}

/-! ## The invariant -/

/-- The change list and the jumplist are bounded, and walked inside. -/
structure Bounded (v : View) : Prop where
  changes : v.changes.length ≤ maxChanges
  jumps : v.jumps.length ≤ maxChanges
  changeIdx : v.changeIdx ≤ v.changes.length
  jumpIdx : v.jumpIdx ≤ v.jumps.length

/-- `View::assert_invariants` over the text `b`. -/
structure Valid (v : View) (b : Bytes) : Prop extends Bounded v where
  cursor : InText b v.cursor
  tracked : ∀ t ∈ v.tracked, ∀ p, t.pos = some p → InText b p
  anchor : ∀ p, v.anchor = some p → InText b p
  mark : ∀ p, v.mark = some p → InText b p
  insertStart : ∀ p, v.insertStart = some p → InText b p
  insstart : ∀ p, v.insstart = some p → InText b p

/-- A tracked position is one of the view's. -/
theorem tracked_inText {v : View} {b : Bytes} (h : ∀ s p, v.get s = some p → InText b p)
    {t : Tracked} (ht : t ∈ v.tracked) (hp : t.pos = some p) : InText b p := by
  have hmarks (lo n : Nat) (f : Option Nat → Tracked) (hf : ∀ m, (f m).pos = m)
      (hmem : t ∈ (v.marksFrom lo n).map f) : InText b p := by
    obtain ⟨m, hm, rfl⟩ := List.mem_map.mp hmem
    obtain ⟨i, -, rfl⟩ := List.mem_map.mp hm
    rw [hf] at hp
    exact h (.named i) p hp
  have hlist (l : List Nat) (place : Nat → Place) (hl : ∀ i, v.get (place i) = l[i]?)
      (hmem : t ∈ l.map fun p => Tracked.line (some p) .keep) : InText b p := by
    obtain ⟨q, hq, rfl⟩ := List.mem_map.mp hmem
    obtain ⟨i, hi⟩ := List.mem_iff_getElem?.mp hq
    cases hp
    exact h (place i) p ((hl i).trans hi)
  simp only [tracked, List.mem_append, List.mem_cons, List.not_mem_nil, or_false] at ht
  rcases ht with (((((hlower | hvisual) | hupper) | hfixed) | hdigits) | hchanges) | hjumps
  · exact hmarks _ _ _ (fun _ => rfl) hlower
  · rcases hvisual with rfl | rfl
    · exact h .visualStart p hp
    · exact h .visualEnd p hp
  · exact hmarks _ _ _ (fun _ => rfl) hupper
  · rcases hfixed with rfl | rfl | rfl
    · exact h .lastInsert p hp
    · exact h .changeStart p hp
    · exact h .changeEnd p hp
  · exact hmarks _ _ _ (fun _ => rfl) hdigits
  · exact hlist v.changes .change (fun _ => rfl) hchanges
  · exact hlist v.jumps .jump (fun _ => rfl) hjumps

/-! ## The lists -/

theorem pushBounded_length (h : l.length ≤ maxChanges) (p : Nat) :
    (pushBounded l p).length ≤ maxChanges := by
  simp only [pushBounded]
  split
  · simp only [List.length_tail, List.length_append, List.length_singleton]
    omega
  · omega

/-- Cleaning the jumplist adds no entry and keeps the index on it or past it. -/
theorem cleanLoop_spec (line : Nat → Nat) (l : List Nat) (i : Nat) (kept : List Nat) (idx : Nat)
    (hkept : kept.length ≤ i) (hidx : idx ≤ kept.length ∨ i ≤ idx) :
    (cleanLoop line i l kept idx).1.length ≤ kept.length + l.length ∧
      ((cleanLoop line i l kept idx).2 ≤ (cleanLoop line i l kept idx).1.length ∨
        ((cleanLoop line i l kept idx).2 = idx ∧ i + l.length ≤ idx)) := by
  induction l generalizing i kept idx with
  | nil =>
    refine ⟨Nat.le_refl _, ?_⟩
    rcases hidx with h | h
    · exact .inl h
    · exact .inr ⟨rfl, h⟩
  | cons pos rest ih =>
    rw [cleanLoop]
    generalize hk : (if (rest.map line).contains (line pos) then kept else kept ++ [pos]) = kept'
    have hlo : kept.length ≤ kept'.length ∧ kept'.length ≤ kept.length + 1 := by
      rw [← hk]
      split <;> simp
    have hidx' : (if idx = i then kept.length else idx) ≤ kept'.length ∨
        i + 1 ≤ if idx = i then kept.length else idx := by
      split
      · exact .inl hlo.1
      · rcases hidx with h | h
        · exact .inl (by omega)
        · exact .inr (by omega)
    -- from here on the cursor is where this entry went, if it was on it
    obtain ⟨hlen, hcase⟩ := ih (i + 1) kept' _ (by omega) hidx'
    refine ⟨by simp only [List.length_cons]; omega, ?_⟩
    rcases hcase with h | ⟨heq, h⟩
    · exact .inl h
    · by_cases hi : idx = i
      · rw [if_pos hi] at h
        omega
      · rw [if_neg hi] at h heq ⊢
        exact .inr ⟨heq, by simp only [List.length_cons]; omega⟩

namespace Bounded

variable {v : View} (h : v.Bounded)
include h

theorem pushJump (p : Nat) : (v.pushJump p).Bounded := by
  unfold View.pushJump
  split
  · exact h
  · dsimp only
    split
    · exact ⟨h.changes, pushBounded_length h.jumps p, h.changeIdx, Nat.le_refl _⟩
    · exact ⟨h.changes, h.jumps, h.changeIdx, Nat.le_refl _⟩

/-- A new change leaves the lists within their bounds. -/
theorem pushChange (b : Bytes) (p : Nat) (newStep : Bool) :
    (v.pushChange b p newStep).Bounded := by
  unfold View.pushChange
  split
  · exact h
  · have hlen : ∀ l : List Nat, l.length ≤ maxChanges →
        (if l.isEmpty then l else l.dropLast ++ [p]).length ≤ maxChanges := by
      intro l hl
      split
      · exact hl
      · rename_i hne
        have := List.length_pos_iff.mpr (by simpa using hne)
        simp only [List.length_append, List.length_dropLast, List.length_singleton]
        omega
    refine ⟨hlen _ ?_, h.jumps, Nat.le_refl _, h.jumpIdx⟩
    split
    · exact pushBounded_length h.changes p
    · exact h.changes

theorem navChange (older : Bool) : (v.navChange older).1.Bounded := by
  have hidx := h.changeIdx
  unfold View.navChange
  split_ifs
  · exact h
  · exact h
  · exact ⟨h.changes, h.jumps, by dsimp only; omega, h.jumpIdx⟩
  · exact h
  · exact ⟨h.changes, h.jumps, by dsimp only; omega, h.jumpIdx⟩

/-- Cleaning leaves the lists within their bounds. -/
theorem cleanJumps (b : Bytes) (now : Nat) : (v.cleanJumps b now).Bounded := by
  have hjumps := h.jumps
  have hjumpIdx := h.jumpIdx
  unfold View.cleanJumps
  obtain ⟨hlen, hidx⟩ := cleanLoop_spec (fun p => lineOf b (min p b.length)) v.jumps 0 []
    v.jumpIdx (Nat.le_refl _) (.inr (Nat.zero_le _))
  dsimp only
  generalize cleanLoop (fun p => lineOf b (min p b.length)) 0 v.jumps [] v.jumpIdx = r at hlen hidx
  obtain ⟨kept, idx⟩ := r
  simp only [List.length_nil, Nat.zero_add] at hlen hidx
  have hwalk : (if idx = v.jumps.length then kept.length else idx) ≤ kept.length := by
    split
    · exact Nat.le_refl _
    · omega
  generalize (if idx = v.jumps.length then kept.length else idx) = idx' at hwalk
  split
  · refine ⟨h.changes, ?_, h.changeIdx, ?_⟩
    · simp only [List.length_dropLast]
      omega
    · simp only [List.length_dropLast]
      omega
  · exact ⟨h.changes, Nat.le_trans hlen hjumps, h.changeIdx, hwalk⟩

/-- A walk of the jumplist leaves the lists within their bounds. -/
theorem navJump (older : Bool) (now : Nat) (b : Bytes) : (v.navJump older now b).1.Bounded := by
  have hclean := h.cleanJumps b now
  have hidx := hclean.jumpIdx
  have hpush := pushBounded_length hclean.jumps now
  unfold View.navJump
  generalize v.cleanJumps b now = w at hclean hidx hpush
  dsimp only
  split
  · split
    · exact hclean
    · generalize hw : (if w.jumpIdx = w.jumps.length then
        { w with
          jumps := pushBounded w.jumps now
          jumpIdx := (pushBounded w.jumps now).length - 1 } else w) = w'
      have hw' : w'.Bounded := by
        rw [← hw]
        split
        · exact ⟨hclean.changes, hpush, hclean.changeIdx, Nat.sub_le _ _⟩
        · exact hclean
      have hidx' := hw'.jumpIdx
      split
      · exact hw'
      · exact ⟨hw'.changes, hw'.jumps, hw'.changeIdx, by dsimp only; omega⟩
  · split
    · exact hclean
    · exact ⟨hclean.changes, hclean.jumps, hclean.changeIdx, by dsimp only; omega⟩

end Bounded

/-! ## The offsets, snapped -/

/-- The stored offsets of a view, the cursor, the anchor and the Emacs mark apart. -/
structure Stored where
  changes : List Nat
  namedMarks : Fin 62 → Option Nat
  lastInsert : Option Nat
  lastVisual : Option (Nat × Nat × SelectKind)
  changeStart : Option Nat
  changeEnd : Option Nat
  insertStart : Option Nat
  insstart : Option Nat
  jumps : List Nat
  changeIdx : Nat
  jumpIdx : Nat

def stored (v : View) : Stored :=
  ⟨v.changes, v.namedMarks, v.lastInsert, v.lastVisual, v.changeStart, v.changeEnd,
    v.insertStart, v.insstart, v.jumps, v.changeIdx, v.jumpIdx⟩

theorem get_congr {v : View} (h : w.stored = v.stored) (s : Place) : w.get s = v.get s := by
  simp only [stored, Stored.mk.injEq] at h
  obtain ⟨h1, h2, h3, h4, h5, h6, -, -, h9, -, -⟩ := h
  cases s <;> simp only [get, h1, h2, h3, h4, h5, h6, h9]

theorem Bounded.congr {v : View} (h : v.Bounded) (hw : w.stored = v.stored) : w.Bounded := by
  simp only [stored, Stored.mk.injEq] at hw
  obtain ⟨h1, -, -, -, -, -, -, -, h9, h10, h11⟩ := hw
  exact ⟨by rw [h1]; exact h.changes, by rw [h9]; exact h.jumps,
    by rw [h1, h10]; exact h.changeIdx, by rw [h9, h11]; exact h.jumpIdx⟩

theorem tracked_congr {v : View} (h : w.stored = v.stored) : w.tracked = v.tracked := by
  simp only [stored, Stored.mk.injEq] at h
  obtain ⟨h1, h2, h3, h4, h5, h6, -, -, h9, -, -⟩ := h
  simp only [tracked, marksFrom, h1, h2, h3, h4, h5, h6, h9]

theorem Valid.congr {v : View} {b : Bytes} (h : v.Valid b) (hw : w.stored = v.stored)
    (hcursor : w.cursor = v.cursor) (hanchor : w.anchor = v.anchor) (hmark : w.mark = v.mark) :
    w.Valid b where
  toBounded := h.toBounded.congr hw
  cursor := by rw [hcursor]; exact h.cursor
  tracked := by rw [tracked_congr hw]; exact h.tracked
  anchor := by rw [hanchor]; exact h.anchor
  mark := by rw [hmark]; exact h.mark
  insertStart := by
    rw [show w.insertStart = v.insertStart from congrArg Stored.insertStart hw]
    exact h.insertStart
  insstart := by
    rw [show w.insstart = v.insstart from congrArg Stored.insstart hw]
    exact h.insstart

theorem snap_min (b : Bytes) (p : Nat) : snap b (min p b.length) = snap b p := by
  rw [snap, snap, Nat.min_assoc, Nat.min_self]

theorem snapOffsets_get (v : View) (b : Bytes) (s : Place) :
    (v.snapOffsets b).get s = (v.get s).map (snap b) := by
  have hmap : (fun p => snap b (min p b.length)) = snap b := funext (snap_min b)
  cases s with
  | visualStart => cases h : v.lastVisual <;> simp [snapOffsets, get, h, snap_min]
  | visualEnd => cases h : v.lastVisual <;> simp [snapOffsets, get, h, snap_min]
  | _ => simp [snapOffsets, get, hmap]

theorem snapOffsets_bounded {v : View} (h : v.Bounded) (b : Bytes) : (v.snapOffsets b).Bounded := by
  refine ⟨?_, ?_, ?_, ?_⟩ <;> simp only [snapOffsets, List.length_map]
  · exact h.changes
  · exact h.jumps
  · exact h.changeIdx
  · exact h.jumpIdx

theorem inText_of_map_snap {b : Bytes} {o : Option Nat} (h : o.map (snap b) = some p) :
    InText b p := by
  obtain ⟨q, -, rfl⟩ := Option.map_eq_some_iff.mp h
  exact inText_snap b q

/-! ## The phases after it leave them alone -/

@[simp] theorem endSessions_stored (v : View) : v.endSessions.stored = v.stored := rfl

@[simp] theorem clampCursor_stored (g : Segmenter) (v : View) (b : Bytes) (plan : Plan) :
    (v.clampCursor g b plan).stored = v.stored := by
  unfold clampCursor
  split <;> rfl

@[simp] theorem leavePhantom_stored (g : Segmenter) (v : View) (b : Bytes) (entered : Entered)
    (plan : Plan) : (v.leavePhantom g b entered plan).stored = v.stored := by
  unfold leavePhantom
  dsimp only
  split <;> rfl

@[simp] theorem capture_stored (v : View) (plan : Plan) : (v.capture plan).stored = v.stored := by
  unfold capture
  dsimp only
  split <;> rfl

@[simp] theorem reanchor_stored (v : View) (b : Bytes) (entered : Entered) (plan : Plan) :
    (v.reanchor b entered plan).stored = v.stored := rfl

@[simp] theorem remark_stored (v : View) (b : Bytes) (plan : Plan) :
    (v.remark b plan).stored = v.stored := rfl

/-- The view before its offsets are snapped. -/
def unsettled (g : Segmenter) (v : View) (b : Bytes) (entered : Entered) (plan : Plan)
    (editSpan : Option (Nat × Nat)) (nav : Option Nat)
    (undoMarks : Option UndoCursor.ChangeMarks) (newStep : Bool) : View :=
  let v := v.place b entered plan nav newStep
  let v := match undoMarks with
    | some m => v.undoLines b m
    | none => v
  v.bracket g b entered plan editSpan

section
variable (g : Segmenter) (v : View) (b : Bytes) (entered : Entered) (plan : Plan)
  (editSpan : Option (Nat × Nat)) (nav : Option Nat)
  (undoMarks : Option UndoCursor.ChangeMarks) (newStep : Bool)

theorem settle_stored : (v.settle g b entered plan editSpan nav undoMarks newStep).stored =
    ((v.unsettled g b entered plan editSpan nav undoMarks newStep).snapOffsets b).stored := by
  unfold settle
  rw [remark_stored, reanchor_stored, capture_stored, leavePhantom_stored, clampCursor_stored,
    endSessions_stored]
  rfl

theorem settle_get' (s : Place) :
    (v.settle g b entered plan editSpan nav undoMarks newStep).get s =
      ((v.unsettled g b entered plan editSpan nav undoMarks newStep).get s).map (snap b) := by
  rw [get_congr (v.settle_stored g b entered plan editSpan nav undoMarks newStep),
    snapOffsets_get]

theorem place_bounded (h : v.Bounded) : (v.place b entered plan nav newStep).Bounded := by
  unfold place
  dsimp only
  split
  · refine Bounded.pushChange ?_ b _ _
    exact ⟨h.changes, h.jumps, h.changeIdx, h.jumpIdx⟩
  · exact ⟨h.changes, h.jumps, h.changeIdx, h.jumpIdx⟩

theorem undoLines_bounded (h : v.Bounded) (m : UndoCursor.ChangeMarks) :
    (v.undoLines b m).Bounded := by
  have hmarks : ({ v with
      changeStart := some (nthLineStart b m.startLine)
      changeEnd := some (nthLineStart b m.endLine) } : View).Bounded :=
    ⟨h.changes, h.jumps, h.changeIdx, h.jumpIdx⟩
  unfold undoLines
  split
  · exact hmarks.pushChange b _ _
  · exact hmarks

theorem settle_changes : (v.settle g b entered plan editSpan nav undoMarks newStep).changes =
    (v.unsettled g b entered plan editSpan nav undoMarks newStep).changes.map (snap b) := by
  have hstored := v.settle_stored g b entered plan editSpan nav undoMarks newStep
  have hchanges := congrArg Stored.changes hstored
  refine hchanges.trans (List.map_congr_left fun p _ => ?_)
  exact snap_min b p

theorem unsettled_bounded (h : v.Bounded) :
    (v.unsettled g b entered plan editSpan nav undoMarks newStep).Bounded := by
  have hplace := v.place_bounded b entered plan nav newStep h
  have hbracket (w : View) (hw : w.Bounded) : (w.bracket g b entered plan editSpan).Bounded := by
    unfold bracket
    dsimp only
    split_ifs
    all_goals first
      | exact ⟨hw.changes, hw.jumps, hw.changeIdx, hw.jumpIdx⟩
      | (split <;> exact ⟨hw.changes, hw.jumps, hw.changeIdx, hw.jumpIdx⟩)
  cases undoMarks with
  | none => exact hbracket _ hplace
  | some m =>
    exact hbracket _ (undoLines_bounded _ b hplace m)

end

/-! ## The cursor -/

@[simp] theorem pushChange_cursor (v : View) (b : Bytes) (pos : Nat) (newStep : Bool) :
    (v.pushChange b pos newStep).cursor = v.cursor := by
  unfold pushChange
  split <;> rfl

@[simp] theorem place_cursor (v : View) (b : Bytes) (entered : Entered) (plan : Plan)
    (nav : Option Nat) (newStep : Bool) :
    (v.place b entered plan nav newStep).cursor = snap b (nav.getD plan.cursor) := by
  unfold place
  dsimp only
  split
  · rw [pushChange_cursor]
  · rfl

@[simp] theorem undoLines_cursor (v : View) (b : Bytes) (m : UndoCursor.ChangeMarks) :
    (v.undoLines b m).cursor = v.cursor := by
  unfold undoLines
  dsimp only
  split
  · rw [pushChange_cursor]
  · rfl

@[simp] theorem bracket_cursor (g : Segmenter) (v : View) (b : Bytes) (entered : Entered)
    (plan : Plan) (editSpan : Option (Nat × Nat)) :
    (v.bracket g b entered plan editSpan).cursor = v.cursor := by
  unfold bracket
  dsimp only
  split_ifs
  all_goals first
    | rfl
    | (split <;> rfl)

@[simp] theorem capture_cursor (v : View) (plan : Plan) : (v.capture plan).cursor = v.cursor := by
  unfold capture
  dsimp only
  split <;> rfl

section
variable {g : Segmenter} (hg : g.Documented) (b : Bytes) (plan : Plan)
include hg

theorem clampCursor_inText {v : View} (h : InText b v.cursor) :
    InText b (v.clampCursor g b plan).cursor := by
  have hstep : InText b (if v.cursor = lineEnd b v.cursor ∧
      lineStart b v.cursor < lineEnd b v.cursor then prevGrapheme g b (lineEnd b v.cursor)
      else v.cursor) := by
    split
    · exact prevGrapheme_inText hg b _
    · exact h
  unfold clampCursor
  split
  · dsimp only
    generalize (if v.cursor = lineEnd b v.cursor ∧ lineStart b v.cursor < lineEnd b v.cursor then
      prevGrapheme g b (lineEnd b v.cursor) else v.cursor) = cursor at hstep
    split
    · exact prevGrapheme_inText hg b _
    · exact hstep
  · exact h

theorem offPhantom_inText (h : InText b p) : InText b (offPhantom g b p) := by
  unfold offPhantom
  split
  · exact h
  · rename_i hend
    simp only [not_or, not_not] at hend
    split
    · -- the final newline begins no other character
      have hpos : 0 < b.length := by
        rw [List.length_pos_iff]
        rintro rfl
        exact absurd hend.2 (by simp)
      refine inText_of_lead (by omega) ?_
      rw [List.getD_eq_getElem?_getD, ← List.getLast?_eq_getElem?, hend.2]
      decide
    · exact prevGrapheme_inText hg b _

theorem leavePhantom_inText {v : View} (entered : Entered) (h : InText b v.cursor) :
    InText b (v.leavePhantom g b entered plan).cursor := by
  unfold leavePhantom
  dsimp only
  split
  · exact offPhantom_inText hg b h
  · exact h

/-- A view settled over a text passes the walker, whatever its positions were. -/
theorem settle_valid {v : View} (h : v.Bounded) (entered : Entered)
    (editSpan : Option (Nat × Nat)) (nav : Option Nat)
    (undoMarks : Option UndoCursor.ChangeMarks) (newStep : Bool) :
    (v.settle g b entered plan editSpan nav undoMarks newStep).Valid b := by
  have hstored := v.settle_stored g b entered plan editSpan nav undoMarks newStep
  have hbounded := (snapOffsets_bounded
    (v.unsettled_bounded g b entered plan editSpan nav undoMarks newStep h) b).congr hstored
  refine { toBounded := hbounded, cursor := ?_, tracked := ?_, anchor := ?_, mark := ?_,
           insertStart := ?_, insstart := ?_ }
  · have hunsettled : (v.unsettled g b entered plan editSpan nav undoMarks newStep).cursor =
        snap b (nav.getD plan.cursor) := by
      unfold unsettled
      rw [bracket_cursor]
      cases undoMarks <;> simp
    show InText b (View.capture _ plan).cursor
    rw [capture_cursor]
    refine leavePhantom_inText hg b plan entered (clampCursor_inText hg b plan ?_)
    show InText b (v.unsettled g b entered plan editSpan nav undoMarks newStep).cursor
    rw [hunsettled]
    exact inText_snap b _
  · intro t ht p hp
    refine tracked_inText (fun s q hq => ?_) ht hp
    rw [settle_get'] at hq
    exact inText_of_map_snap hq
  · intro p hp
    exact inText_of_map_snap hp
  · intro p hp
    exact inText_of_map_snap hp
  · intro p hp
    obtain ⟨q, -, rfl⟩ := Option.map_eq_some_iff.mp
      ((congrArg Stored.insertStart hstored).symm.trans hp)
    exact inText_snap b _
  · intro p hp
    obtain ⟨q, -, rfl⟩ := Option.map_eq_some_iff.mp
      ((congrArg Stored.insstart hstored).symm.trans hp)
    exact inText_snap b _

end

/-! ## The entries of the change list -/

/-- `l'` is `l` with its `n` newest entries written, some of them new, and the `k` oldest
dropped from a full list. -/
structure Shifted (n k : Nat) (l l' : List Nat) : Prop where
  le : k ≤ n
  grows : l.length ≤ l'.length
  length : l'.length + k ≤ l.length + n
  full : k = 0 ∨ l'.length = maxChanges
  old : ∀ i, i + n < l'.length → l'[i]? = l[i + k]?

namespace Shifted

theorem refl (l : List Nat) : Shifted 0 0 l l :=
  ⟨Nat.le_refl _, Nat.le_refl _, Nat.le_refl _, .inl rfl, fun _ _ => rfl⟩

theorem trans {n n' k' : Nat} {l'' : List Nat} (h : Shifted n k l l') (h' : Shifted n' k' l' l'')
    (hmax : l''.length ≤ maxChanges) :
    Shifted (n + n') (k + k') l l'' where
  le := Nat.add_le_add h.le h'.le
  grows := Nat.le_trans h.grows h'.grows
  length := by have := h.length; have := h'.length; omega
  full := by
    have := h'.grows
    rcases h.full with hk | hk
    · rcases h'.full with hk' | hk'
      · exact .inl (by omega)
      · exact .inr hk'
    · exact .inr (by omega)
  old := by
    intro i hi
    have hlen := h'.length
    rw [h'.old i (by omega), h.old (i + k') (by omega), Nat.add_assoc, Nat.add_comm k k']

theorem map {n : Nat} (h : Shifted n k l l') (f : Nat → Nat) :
    Shifted n k (l.map f) (l'.map f) where
  le := h.le
  grows := by simpa using h.grows
  length := by simpa using h.length
  full := by simpa using h.full
  old := by
    intro i hi
    rw [List.length_map] at hi
    rw [List.getElem?_map, List.getElem?_map, h.old i hi]

end Shifted

/-- A position joins a list with room, or pushes the oldest out of a full one. -/
theorem pushBounded_shifted (h : l.length ≤ maxChanges) (p : Nat) :
    ∃ k, Shifted 1 k l (pushBounded l p) := by
  unfold pushBounded
  dsimp only
  split
  · rename_i hfull
    rw [List.length_append, List.length_singleton] at hfull
    refine ⟨1, Nat.le_refl _, ?_, ?_, .inr ?_, fun i hi => ?_⟩
    · simp
    · simp
    · simp only [List.length_tail, List.length_append, List.length_singleton]
      omega
    · simp only [List.length_tail, List.length_append, List.length_singleton] at hi
      rw [List.getElem?_tail, List.getElem?_append_left (by omega)]
  · refine ⟨0, Nat.zero_le _, ?_, ?_, .inl rfl, fun i hi => ?_⟩
    · simp
    · simp
    · simp only [List.length_append, List.length_singleton] at hi
      rw [List.getElem?_append_left (by omega), Nat.add_zero]

theorem Shifted.newest (h : Shifted 1 k l l') (p : Nat) :
    Shifted 1 k l (if l'.isEmpty then l' else l'.dropLast ++ [p]) := by
  split
  · exact h
  · rename_i hne
    have hpos : 0 < l'.length := List.length_pos_iff.mpr (by simpa using hne)
    have hlen : (l'.dropLast ++ [p]).length = l'.length := by
      simp only [List.length_append, List.length_dropLast, List.length_singleton]
      omega
    refine ⟨h.le, hlen ▸ h.grows, hlen ▸ h.length, hlen ▸ h.full, fun i hi => ?_⟩
    rw [hlen] at hi
    rw [List.getElem?_append_left (by rw [List.length_dropLast]; omega), List.getElem?_dropLast,
      if_pos (by omega), h.old i hi]

theorem pushChange_shifted {v : View} (hl : v.changes = l) (h : l.length ≤ maxChanges) (b : Bytes)
    (p : Nat) (newStep : Bool) :
    ∃ k, Shifted 1 k l (v.pushChange b p newStep).changes := by
  subst hl
  have hsame : Shifted 1 0 v.changes v.changes :=
    ⟨Nat.zero_le _, Nat.le_refl _, Nat.le_succ _, .inl rfl, fun _ _ => rfl⟩
  unfold pushChange
  split
  · exact ⟨0, hsame⟩
  · dsimp only
    split
    · obtain ⟨k, hk⟩ := pushBounded_shifted h p
      exact ⟨k, hk.newest p⟩
    · exact ⟨0, hsame.newest p⟩

end View

end Ruse.Core
