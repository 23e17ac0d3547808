import Ruse.Core.AnchorStore
import Ruse.Core.LineText

/-!
# Positions no edit comes near

A position outside the lines an edit touches, and the one line either side of them
(`Far`), is only shifted by it: by the byte rule, and by the line rule too, since its
line stands in the new text with the same bytes (`sameLine_far`). The two rules keep
every position inside the text.
-/

namespace Ruse.Core

variable {es : List Edit} {cur n p : Nat} {buf : Bytes} {e : Edit} {m : LineMap}

/-! ## Length changes -/

@[simp] theorem sumDelta_nil : sumDelta [] = 0 := rfl

@[simp] theorem sumDelta_cons (e : Edit) (es : List Edit) :
    sumDelta (e :: es) = e.delta + sumDelta es := by
  simp [sumDelta]

theorem sumDelta_append (es es' : List Edit) :
    sumDelta (es ++ es') = sumDelta es + sumDelta es' := by
  simp [sumDelta]

/-- Edits in `[p, n]` delete no more than that. -/
theorem le_sumDelta (hs : es.Pairwise Edit.Before) (hp : ∀ e ∈ es, p ≤ e.pos)
    (hn : ∀ e ∈ es, e.endPos ≤ n) (hpn : p ≤ n) :
    (p : Int) - n ≤ sumDelta es := by
  induction es generalizing p with
  | nil =>
    rw [sumDelta_nil]
    omega
  | cons e es ih =>
    have hhead := List.pairwise_cons.mp hs
    have hrest := ih hhead.2 (fun e' he' => (hhead.1 e' he').2)
      (fun e' he' => hn e' (List.mem_cons_of_mem _ he')) (hn e List.mem_cons_self)
    have hpe := hp e List.mem_cons_self
    rw [sumDelta_cons]
    simp only [Edit.delta, Edit.endPos] at hrest ⊢
    omega

namespace EditList

/-- A list of edits changes the length by its sum. -/
theorem length_applyFrom (hs : es.Pairwise Edit.Before) (hcur : ∀ e ∈ es, cur ≤ e.pos)
    (hin : ∀ e ∈ es, e.endPos ≤ buf.length) (hlen : cur ≤ buf.length) :
    ((applyFrom buf cur es).length : Int) = buf.length - cur + sumDelta es := by
  induction es generalizing cur with
  | nil =>
    rw [applyFrom, List.length_drop, sumDelta_nil]
    omega
  | cons e es ih =>
    have hhead := List.pairwise_cons.mp hs
    have hend := hin e List.mem_cons_self
    have hpos := e.pos_le_endPos
    have hrest := ih hhead.2 (fun e' he' => (hhead.1 e' he').2)
      (fun e' he' => hin e' (List.mem_cons_of_mem _ he')) hend
    have hkept := slice_length (hcur e List.mem_cons_self) (Nat.le_trans hpos hend)
    have hce := hcur e List.mem_cons_self
    rw [applyFrom, List.length_append, List.length_append, hkept, sumDelta_cons]
    simp only [Edit.delta, Edit.endPos] at hrest ⊢
    omega

theorem length_applyTo {l : EditList} (hin : l.InBounds buf.length) :
    ((l.applyTo buf).length : Int) = buf.length + sumDelta l.edits := by
  have h := length_applyFrom l.sorted (fun e _ => Nat.zero_le e.pos) hin (Nat.zero_le _)
  rw [applyTo, h]
  omega

/-- A byte between two edits stands in the new text at its place plus the sum before it. -/
theorem getElem?_applyFrom {x : Nat} {es' : List Edit} (hs : (es ++ es').Pairwise Edit.Before)
    (hcur : ∀ e ∈ es, cur ≤ e.pos) (hin : ∀ e ∈ es ++ es', e.endPos ≤ buf.length) (hx : cur ≤ x)
    (hbefore : ∀ e ∈ es, e.endPos ≤ x) (hafter : ∀ e ∈ es', x < e.pos) :
    (applyFrom buf cur (es ++ es'))[((x : Int) - cur + sumDelta es).toNat]? = buf[x]? := by
  induction es generalizing cur with
  | nil =>
    have hidx : ((x : Int) - cur + sumDelta []).toNat = x - cur := by
      rw [sumDelta_nil]
      omega
    rw [hidx, List.nil_append]
    cases es' with
    | nil => rw [applyFrom, List.getElem?_drop, Nat.add_sub_cancel' hx]
    | cons e es' =>
      have hxe := hafter e List.mem_cons_self
      have hend := hin e List.mem_cons_self
      have hpos := e.pos_le_endPos
      have hkept : (slice buf cur e.pos).length = e.pos - cur :=
        slice_length (by omega) (by omega)
      rw [applyFrom, List.append_assoc, List.getElem?_append_left (by omega), slice,
        List.getElem?_take_of_lt (by omega), List.getElem?_drop, Nat.add_sub_cancel' hx]
  | cons e es ih =>
    have hhead := List.pairwise_cons.mp hs
    have hend := hin e List.mem_cons_self
    have hpos := e.pos_le_endPos
    have hce := hcur e List.mem_cons_self
    have hex := hbefore e List.mem_cons_self
    have hrest := ih hhead.2
      (fun e' he' => (hhead.1 e' (List.mem_append_left _ he')).2)
      (fun e' he' => hin e' (List.mem_cons_of_mem _ he')) hex
      (fun e' he' => hbefore e' (List.mem_cons_of_mem _ he'))
    have hkept : (slice buf cur e.pos ++ e.ins).length = e.pos - cur + e.ins.length := by
      rw [List.length_append, slice_length hce (Nat.le_trans hpos hend)]
    have hroom := le_sumDelta (List.pairwise_append.mp hhead.2).1
      (fun e' he' => (hhead.1 e' (List.mem_append_left _ he')).2)
      (fun e' he' => hbefore e' (List.mem_cons_of_mem _ he')) hex
    have hidx : ((x : Int) - cur + sumDelta (e :: es)).toNat =
        (slice buf cur e.pos ++ e.ins).length + ((x : Int) - e.endPos + sumDelta es).toNat := by
      rw [hkept, sumDelta_cons]
      simp only [Edit.delta, Edit.endPos] at hroom hex ⊢
      omega
    rw [List.cons_append, applyFrom, hidx, List.getElem?_append_right (Nat.le_add_right _ _),
      Nat.add_sub_cancel_left]
    exact hrest

end EditList

/-! ## The edits before a position -/

theorem takeWhile_append {α : Type*} {p : α → Bool} {xs ys : List α} (hxs : ∀ x ∈ xs, p x = true)
    (hys : ∀ y ∈ ys, p y = false) : (xs ++ ys).takeWhile p = xs := by
  rw [List.takeWhile_append_of_pos hxs]
  cases ys with
  | nil => rw [List.takeWhile_nil, List.append_nil]
  | cons y ys =>
    rw [List.takeWhile_cons, hys y List.mem_cons_self]
    exact List.append_nil xs

theorem editsBefore_append (es : List Edit) (o : Nat) :
    es = editsBefore es o ++ es.drop (editsBefore es o).length := by
  have hpre : editsBefore es o <+: es := List.takeWhile_prefix _
  obtain ⟨rest, hrest⟩ := hpre
  generalize editsBefore es o = before at hrest ⊢
  rw [← hrest, List.drop_left]

theorem endPos_of_editsBefore {o : Nat} (he : e ∈ editsBefore es o) : e.endPos < o := by
  have h := List.mem_takeWhile_imp he
  simpa using h

/-- The edits that are not before `o` end at it or after it. -/
theorem le_endPos_of_drop {o : Nat} (hs : es.Pairwise Edit.Before)
    (he : e ∈ es.drop (editsBefore es o).length) : o ≤ e.endPos := by
  induction es with
  | nil => cases he
  | cons e' es ih =>
    by_cases hlt : e'.endPos < o
    · have hbefore : editsBefore (e' :: es) o = e' :: editsBefore es o :=
        List.takeWhile_cons_of_pos (decide_eq_true hlt)
      rw [hbefore, List.length_cons, List.drop_succ_cons] at he
      exact ih (List.pairwise_cons.mp hs).2 he
    · have hbefore : editsBefore (e' :: es) o = [] :=
        List.takeWhile_cons_of_neg (by simpa using hlt)
      rw [hbefore, List.length_nil, List.drop_zero] at he
      rcases List.mem_cons.mp he with rfl | he
      · omega
      · have := ((List.pairwise_cons.mp hs).1 e he).2
        have := e.pos_le_endPos
        omega

/-! ## The byte rule -/

/-- A position far from every edit is moved by the sum of those before it, whatever the bias. -/
theorem mapByteInside_far {o : Nat} (hs : es.Pairwise Edit.Before)
    (hfar : ∀ e ∈ es, o < e.pos ∨ e.endPos < o) (bias : Bias) :
    mapByteInside es o bias = (((o : Int) + sumDelta (editsBefore es o)).toNat, false) := by
  have hroom : (0 : Int) - o ≤ sumDelta (editsBefore es o) :=
    le_sumDelta (hs.sublist (List.takeWhile_sublist _)) (fun e _ => Nat.zero_le e.pos)
      (fun e he => Nat.le_of_lt (endPos_of_editsBefore he)) (Nat.zero_le o)
  unfold mapByteInside
  dsimp only
  cases hrest : es.drop (editsBefore es o).length with
  | nil => rfl
  | cons e rest =>
    have he : e ∈ es.drop (editsBefore es o).length := by
      rw [hrest]
      exact List.mem_cons_self
    have hoe : o < e.pos := by
      have hend := le_endPos_of_drop hs he
      rcases hfar e (List.mem_of_mem_drop he) with hlt | hlt
      · exact hlt
      · omega
    rw [mapByteLoop]
    rw [if_pos (by omega)]

theorem mapOne_le {a pos del : Nat} (ins : Nat) (bias : Bias) (ha : a ≤ n) (hstop : pos + del ≤ n) :
    (mapOne a pos del ins bias).1 ≤ n - del + ins ∨
      ((mapOne a pos del ins bias).1 = a ∧ a < pos) := by
  unfold mapOne
  dsimp only
  split
  · exact .inr ⟨rfl, ‹_›⟩
  · split
    · exact .inl (by dsimp only; omega)
    · cases bias
      · exact .inl (by dsimp only; omega)
      · exact .inl (by dsimp only; omega)

/-- The loop stays inside the text: `n` is the length of the old one. -/
theorem mapByteLoop_le {shift : Int} (bias : Bias) (inside : Bool) (hs : es.Pairwise Edit.Before)
    (hin : ∀ e ∈ es, e.endPos ≤ n) (hshift : ∀ e ∈ es, 0 ≤ (e.pos : Int) + shift)
    (hcur : (cur : Int) ≤ n + shift) :
    ((mapByteLoop bias es shift cur inside).1 : Int) ≤ n + shift + sumDelta es := by
  induction es generalizing shift cur inside with
  | nil =>
    rw [mapByteLoop, sumDelta_nil]
    omega
  | cons e es ih =>
    have hhead := List.pairwise_cons.mp hs
    have hend := hin e List.mem_cons_self
    have hpos := hshift e List.mem_cons_self
    have hroom := le_sumDelta hhead.2 (fun e' he' => (hhead.1 e' he').2)
      (fun e' he' => hin e' (List.mem_cons_of_mem _ he')) hend
    rw [mapByteLoop]
    dsimp only
    split
    · rename_i hstop
      rw [sumDelta_cons]
      simp only [Edit.delta, Edit.endPos] at hroom hend ⊢
      omega
    · rename_i hreach
      have hstop : ((e.pos : Int) + shift).toNat + e.del ≤ ((n : Int) + shift).toNat := by
        simp only [Edit.endPos] at hend
        omega
      have hstep := mapOne_le e.ins.length bias (show cur ≤ ((n : Int) + shift).toNat by omega) hstop
      rw [sumDelta_cons, ← Int.add_assoc, Int.add_assoc (n : Int) shift]
      refine ih _ hhead.2 (fun e' he' => hin e' (List.mem_cons_of_mem _ he')) (fun e' he' => ?_) ?_
      · have := (hhead.1 e' he').2
        simp only [Edit.delta, Edit.endPos] at this ⊢
        omega
      · simp only [Edit.delta, Edit.endPos] at hend ⊢
        omega

/-- A position of the text is sent into the new text. -/
theorem mapByteInside_le {l : EditList} {old : Bytes} {o : Nat} (hin : l.InBounds old.length)
    (ho : o ≤ old.length) (bias : Bias) :
    (mapByteInside l.edits o bias).1 ≤ (l.applyTo old).length := by
  have hsplit := editsBefore_append l.edits o
  have hs : (editsBefore l.edits o ++ l.edits.drop (editsBefore l.edits o).length).Pairwise
      Edit.Before := hsplit ▸ l.sorted
  obtain ⟨hbefore, hrest, hacross⟩ := List.pairwise_append.mp hs
  have hroom : (0 : Int) - o ≤ sumDelta (editsBefore l.edits o) :=
    le_sumDelta hbefore (fun e _ => Nat.zero_le e.pos)
      (fun e he => Nat.le_of_lt (endPos_of_editsBefore he)) (Nat.zero_le o)
  have hlen := EditList.length_applyTo hin
  rw [hsplit, sumDelta_append] at hlen
  have hshift : ∀ e ∈ l.edits.drop (editsBefore l.edits o).length,
      0 ≤ (e.pos : Int) + sumDelta (editsBefore l.edits o) := by
    intro e he
    have := le_sumDelta hbefore (fun e _ => Nat.zero_le e.pos)
      (fun e' he' => (hacross e' he' e he).2) (Nat.zero_le e.pos)
    omega
  have hcur : ((((o : Int) + sumDelta (editsBefore l.edits o)).toNat : Nat) : Int) ≤
      old.length + sumDelta (editsBefore l.edits o) := by
    omega
  have hloop := mapByteLoop_le bias false hrest
    (fun e he => hin e (List.mem_of_mem_drop he)) hshift hcur
  unfold mapByteInside
  dsimp only
  omega

/-! ## The line rule -/

/-- The position is outside the lines `e` touches and the line either side of them. -/
def Far (m : LineMap) (o : Nat) (e : Edit) : Prop :=
  o < (AnchorStore.editRegion m e).ws ∨ (AnchorStore.editRegion m e).we < o

theorem lineEnd_of_length_le {b : Bytes} (hp : b.length ≤ p) :
    lineEnd b p = b.length := by
  unfold lineEnd
  dsimp only
  rw [Nat.min_eq_right hp, List.drop_length]
  rfl

theorem editRegion_covers (m : LineMap) (hin : e.endPos ≤ m.old.length) :
    (AnchorStore.editRegion m e).ws ≤ e.pos ∧ e.endPos ≤ (AnchorStore.editRegion m e).we := by
  constructor
  · have h := lineStart_le m.old (lineStart m.old e.pos - 1)
    have h' := lineStart_le m.old e.pos
    show lineStart m.old (lineStart m.old e.pos - 1) ≤ e.pos
    omega
  · have h := le_lineEnd m.old hin
    show e.endPos ≤ lineEnd m.old (lineEnd m.old e.endPos + 1)
    rcases Nat.lt_or_ge (lineEnd m.old e.endPos) m.old.length with hlt | hge
    · have := le_lineEnd m.old (show lineEnd m.old e.endPos + 1 ≤ m.old.length by omega)
      omega
    · rw [lineEnd_of_length_le (by omega)]
      exact hin

/-- An edit far above a position ends before the line above its line ends. -/
theorem far_above {o : Nat} (ho : o ≤ m.old.length) (hin : e.endPos ≤ m.old.length)
    (hfar : (AnchorStore.editRegion m e).we < o) :
    e.endPos + 1 < lineStart m.old o := by
  change lineEnd m.old (lineEnd m.old e.endPos + 1) < o at hfar
  have hle := le_lineEnd m.old hin
  have hnext : lineEnd m.old e.endPos + 1 ≤ m.old.length := by
    by_contra hlast
    rw [lineEnd_of_length_le (by omega)] at hfar
    omega
  have hwe := le_lineEnd m.old hnext
  rcases (lineEnd_spec hnext).1 with hstop | hnl
  · omega
  · by_contra hnear
    exact (lineStart_spec m.old o).2 _ (by omega) hfar hnl

theorem far_below {o : Nat} (ho : o ≤ m.old.length) (hfar : o < (AnchorStore.editRegion m e).ws) :
    lineEnd m.old o < e.pos := by
  have hws := lineStart_le m.old (lineStart m.old e.pos - 1)
  have hls := lineStart_le m.old e.pos
  change o < lineStart m.old (lineStart m.old e.pos - 1) at hfar
  rcases (lineStart_spec m.old (lineStart m.old e.pos - 1)).1 with hzero | hnl
  · omega
  · by_contra hnear
    exact (lineEnd_spec ho).2 _ (by omega) (by omega) hnl

section

variable {l : EditList} {old : Bytes} {o : Nat} (hin : l.InBounds old.length) (ho : o ≤ old.length)
  (hfar : ∀ e ∈ l.edits, Far ⟨old, l.applyTo old, l.edits⟩ o e)
include hin ho hfar

/-- No edit touches the line of a position that is far from all, nor the break above it. -/
theorem around_far :
    (∀ e ∈ editsBefore l.edits o, e.endPos + 1 < lineStart old o) ∧
      ∀ e ∈ l.edits.drop (editsBefore l.edits o).length, lineEnd old o < e.pos := by
  constructor
  · intro e he
    have hmem : e ∈ l.edits := (List.takeWhile_sublist _).mem he
    have hend := endPos_of_editsBefore he
    rcases hfar e hmem with hlt | hgt
    · have := (editRegion_covers ⟨old, l.applyTo old, l.edits⟩ (hin e hmem)).1
      have := e.pos_le_endPos
      omega
    · exact far_above ho (hin e hmem) hgt
  · intro e he
    have hmem : e ∈ l.edits := List.mem_of_mem_drop he
    have hend := le_endPos_of_drop l.sorted he
    rcases hfar e hmem with hlt | hgt
    · exact far_below (m := ⟨old, l.applyTo old, l.edits⟩) ho hlt
    · have := (editRegion_covers ⟨old, l.applyTo old, l.edits⟩ (hin e hmem)).2
      omega

/-- The line of a far position stands in the new text, moved by the edits above it. -/
theorem sameLine_far : 0 ≤ (lineStart old o : Int) + sumDelta (editsBefore l.edits o) ∧
    SameLine old (l.applyTo old) (lineStart old o)
      ((lineStart old o : Int) + sumDelta (editsBefore l.edits o)).toNat
      (lineEnd old o - lineStart old o) := by
  obtain ⟨habove, hbelow⟩ := around_far hin ho hfar
  have hsplit := editsBefore_append l.edits o
  have hs : (editsBefore l.edits o ++ l.edits.drop (editsBefore l.edits o).length).Pairwise
      Edit.Before := hsplit ▸ l.sorted
  have hls := lineStart_le old o
  have hle := le_lineEnd old ho
  have hlen := EditList.length_applyTo hin
  have hbefore := (List.pairwise_append.mp hs).1
  have hroom := le_sumDelta hbefore (fun e _ => Nat.zero_le e.pos)
    (fun e he => (Nat.lt_of_succ_lt (habove e he)).le) (Nat.zero_le _)
  -- every byte from the newline above the line to its end is kept
  have hkept (x : Nat) (hx : lineStart old o ≤ x + 1) (hxe : x ≤ lineEnd old o) :
      (l.applyTo old)[((x : Int) + sumDelta (editsBefore l.edits o)).toNat]? = old[x]? := by
    have h := EditList.getElem?_applyFrom (x := x) hs (fun e _ => Nat.zero_le e.pos)
      (fun e he => hin e (hsplit ▸ he)) (Nat.zero_le x)
      (fun e he => by have := habove e he; omega) (fun e he => by have := hbelow e he; omega)
    rw [← hsplit] at h
    rw [← h, EditList.applyTo]
    congr 2
  generalize hδ : sumDelta (editsBefore l.edits o) = δ at hroom hkept
  refine ⟨by omega, ?_, ?_, ?_, ?_, ?_⟩
  · intro k hk
    have h := hkept (lineStart old o + k) (by omega) (by omega)
    rw [← h]
    congr 1
    omega
  · intro k hk hlt
    rcases Nat.lt_or_ge k o with hko | hko
    · exact (lineStart_spec old o).2 k hk hko
    · exact (lineEnd_spec ho).2 k hko (by omega)
  · rw [Nat.add_sub_cancel' (by omega)]
    exact (lineEnd_spec ho).1
  · rcases (lineEnd_spec ho).1 with hstop | hnl
    · refine .inl ?_
      have hnone : l.edits.drop (editsBefore l.edits o).length = [] := by
        refine List.eq_nil_iff_forall_not_mem.mpr fun e he => ?_
        have := hbelow e he
        have := e.pos_le_endPos
        have := hin e (List.mem_of_mem_drop he)
        omega
      rw [hsplit, hnone, List.append_nil, hδ] at hlen
      omega
    · refine .inr ?_
      have h := hkept (lineEnd old o) (by omega) (Nat.le_refl _)
      rw [hnl] at h
      rw [← h]
      congr 1
      omega
  · rcases Nat.eq_zero_or_pos (lineStart old o) with hzero | hpos
    · refine .inl ⟨hzero, ?_⟩
      have hnone : editsBefore l.edits o = [] :=
        List.eq_nil_iff_forall_not_mem.mpr fun e he => by have := habove e he; omega
      rw [hnone, sumDelta_nil] at hδ
      omega
    · have hnl := (lineStart_spec old o).1.resolve_left (by omega)
      have hroom' := le_sumDelta hbefore (fun e _ => Nat.zero_le e.pos)
        (fun e he => show e.endPos ≤ lineStart old o - 1 by have := habove e he; omega)
        (Nat.zero_le _)
      rw [hδ] at hroom'
      refine .inr ⟨hpos, by omega, hnl, ?_⟩
      have h := hkept (lineStart old o - 1) (by omega) (by omega)
      rw [← hnl, ← h]
      congr 1
      omega

/-- The line rule too moves a position far from every edit by the sum of those before it. -/
theorem mapOffset_far (hb : isBoundary old o = true) (g : LineGravity) :
    LineMap.mapOffset ⟨old, l.applyTo old, l.edits⟩ o g =
      some ((o : Int) + sumDelta (editsBefore l.edits o)).toNat := by
  obtain ⟨habove, hbelow⟩ := around_far hin ho hfar
  obtain ⟨hnonneg, hsame⟩ := sameLine_far hin ho hfar
  have hls := lineStart_le old o
  have hle := le_lineEnd old ho
  have hsplit := editsBefore_append l.edits o
  -- the edits skipped are the ones before the position
  have hskip : l.edits.takeWhile (fun e => e.endPos < lineStart old o) =
      editsBefore l.edits o := by
    conv_lhs => rw [hsplit]
    refine takeWhile_append (fun e he => ?_) fun e he => ?_
    · have := habove e he
      exact decide_eq_true (by omega)
    · have := hbelow e he
      have := e.pos_le_endPos
      exact decide_eq_false (by omega)
  have hdelta : LineMap.prefixDelta ⟨old, l.applyTo old, l.edits⟩ (editsBefore l.edits o).length =
      sumDelta (editsBefore l.edits o) := by
    have hpre : editsBefore l.edits o <+: l.edits := List.takeWhile_prefix _
    exact congrArg sumDelta (List.prefix_iff_eq_take.mp hpre).symm
  have hreach : LineMap.reach ⟨old, l.applyTo old, l.edits⟩ g o (lineStart old o) (lineEnd old o)
      (l.edits.drop (editsBefore l.edits o).length) (sumDelta (editsBefore l.edits o)) =
      .shifted (sumDelta (editsBefore l.edits o)) := by
    cases hrest : l.edits.drop (editsBefore l.edits o).length with
    | nil => rfl
    | cons e rest =>
      have := hbelow e (by rw [hrest]; exact List.mem_cons_self)
      unfold LineMap.reach
      rw [if_pos (by omega)]
  unfold LineMap.mapOffset
  dsimp only
  rw [Nat.min_eq_left ho, hskip, hdelta, hreach]
  dsimp only
  have hend : lineEnd (l.applyTo old) ((lineStart old o : Int) +
      sumDelta (editsBefore l.edits o)).toNat = ((lineStart old o : Int) +
        sumDelta (editsBefore l.edits o)).toNat + (lineEnd old o - lineStart old o) :=
    lineEnd_eq (Nat.le_add_right _ _) hsame.symm.length_le hsame.stop' hsame.symm.inner
  have hlen := hsame.symm.length_le
  have hcol : LineMap.atCol ⟨old, l.applyTo old, l.edits⟩ ((lineStart old o : Int) +
      sumDelta (editsBefore l.edits o)).toNat (o - lineStart old o) =
      ((lineStart old o : Int) + sumDelta (editsBefore l.edits o)).toNat +
        (o - lineStart old o) := by
    unfold LineMap.atCol
    dsimp only
    rw [Nat.min_eq_left (by omega), hend]
    omega
  have hto : isBoundary (l.applyTo old) (((lineStart old o : Int) +
      sumDelta (editsBefore l.edits o)).toNat + (o - lineStart old o)) = true :=
    hsame.isBoundary (by omega) (by rw [Nat.add_sub_cancel' hls]; exact hb)
  rw [hcol, snap_of_isBoundary (by omega) hto]
  congr 1
  omega

end

theorem mapOffset_inside {o : Nat} {g : LineGravity} (h : m.mapOffset o g = some p) :
    p ≤ m.new.length ∧ isBoundary m.new p = true := by
  have hsnap (q : Nat) : snap m.new q ≤ m.new.length :=
    Nat.le_trans (snap_le m.new q) (Nat.min_le_right _ _)
  unfold LineMap.mapOffset at h
  dsimp only at h
  split at h
  · rename_i dest _
    obtain ⟨q, -, rfl⟩ := Option.map_eq_some_iff.mp h
    exact ⟨hsnap q, isBoundary_snap m.new q⟩
  · cases h
    exact ⟨hsnap _, isBoundary_snap m.new _⟩

end Ruse.Core
