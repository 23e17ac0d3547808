import Ruse.Core.AnchorBytes
import Ruse.Core.Utf8

/-!
# Edits at once

What a set of edits means in whatever order they are given: every edit is about the old
text, none sees what another one did (`Edit.atOnce`). `EditList.new` takes a set just where
no two edits that change something get in each other's way, in any order (`new_ok_iff_apart`,
`new_perm`), and the list it makes applies them all at once (`applyTo_atOnce`). Where the
edits insert whole characters and leave none cut, a cursor that stood on a boundary is
carried to one (`isBoundary_mapByte`).
-/

namespace Ruse.Core

/-- What becomes of byte `i` of `b`: before it what is inserted there, then the byte unless an
edit deletes it. -/
def Edit.piece (es : List Edit) (b : Bytes) (i : Nat) : Bytes :=
  (es.filter (·.pos = i)).flatMap Edit.ins ++
    if es.any fun e => e.pos ≤ i ∧ i < e.endPos then [] else b[i]?.toList

/-- Every edit of `es` applied to `b` at once. -/
def Edit.atOnce (es : List Edit) (b : Bytes) : Bytes :=
  (List.range (b.length + 1)).flatMap (piece es b)

/-- Two edits stay out of each other's way. -/
def Edit.Apart (a b : Edit) : Prop := a.Before b ∨ b.Before a

namespace EditList

section
variable {es es' : List Edit} {l : EditList}

/-! ## When a list is formed -/

theorem kept_perm (es : List Edit) : (kept es).Perm (es.filter fun e => decide e.Changes) :=
  List.perm_insertionSort _ _

theorem mem_kept {e : Edit} : e ∈ kept es ↔ e ∈ es ∧ e.Changes := by
  rw [(kept_perm es).mem_iff, List.mem_filter, decide_eq_true_iff]

theorem kept_sorted (es : List Edit) : (kept es).Pairwise fun a b => a.pos ≤ b.pos := by
  exact List.pairwise_insertionSort _ _

theorem new_eq (h : (kept es).Pairwise Edit.Before) :
    ∃ l, new es = .ok l ∧ l.edits = kept es := by
  unfold new
  split
  · rename_i e he
    rw [firstOverlap_of_sorted h] at he
    cases he
  · exact ⟨_, rfl, rfl⟩

theorem edits_of_new (h : new es = .ok l) : l.edits = kept es := by
  unfold new at h
  split at h
  · cases h
  · cases h
    rfl

theorem kept_before_iff : (kept es).Pairwise Edit.Before ↔
    (es.filter fun e => decide e.Changes).Pairwise Edit.Apart := by
  have hsymm : ∀ {a b : Edit}, a.Apart b → b.Apart a := fun h => h.symm
  rw [← (kept_perm es).pairwise_iff hsymm]
  constructor
  · intro h
    exact h.imp fun hab => .inl hab
  · intro h
    refine ((kept_sorted es).and h).imp fun {a b} hab => ?_
    rcases hab.2 with hab' | hba
    · exact hab'
    · have := hab.1
      have := hba.1
      omega

/-- A list is formed just where the edits that change something are pairwise apart. -/
theorem new_ok_iff_apart : (∃ l, new es = .ok l) ↔
    es.Pairwise fun a b => a.Changes → b.Changes → a.Apart b := by
  have hfilter : (es.filter fun e => decide e.Changes).Pairwise Edit.Apart ↔
      es.Pairwise fun a b => a.Changes → b.Changes → a.Apart b := by
    rw [List.pairwise_filter]
    simp only [decide_eq_true_iff]
  rw [← hfilter, ← kept_before_iff]
  constructor
  · rintro ⟨l, hl⟩
    rw [← edits_of_new hl]
    exact l.sorted
  · intro h
    obtain ⟨l, hl, -⟩ := new_eq h
    exact ⟨l, hl⟩

/-- The order of the edits does not matter. -/
theorem new_perm (hperm : es.Perm es') (h : new es = .ok l) : new es' = .ok l := by
  have hkept : (kept es).Perm (kept es') :=
    (kept_perm es).trans ((hperm.filter _).trans (kept_perm es').symm)
  have hbefore : (kept es).Pairwise Edit.Before := edits_of_new h ▸ l.sorted
  have hbefore' : (kept es').Pairwise Edit.Before := by
    rw [kept_before_iff] at hbefore ⊢
    exact ((hperm.filter _).pairwise_iff fun h => h.symm).mp hbefore
  have heq : kept es = kept es' := by
    refine hkept.eq_of_pairwise (fun a b _ _ hab hba => ?_) hbefore hbefore'
    have := hab.1
    have := hba.1
    omega
  obtain ⟨l', hl', hedits⟩ := new_eq hbefore'
  rw [hl', Except.ok.injEq]
  exact ext' (by rw [hedits, ← heq, edits_of_new h])

/-! ## What a list does -/

theorem flatMap_bytes (b : Bytes) (i n : Nat) :
    (List.range' i n).flatMap (fun k => b[k]?.toList) = (b.drop i).take n := by
  induction n generalizing i with
  | zero => simp
  | succ n ih =>
    rw [List.range'_succ, List.flatMap_cons, ih]
    by_cases hi : i < b.length
    · rw [List.drop_eq_getElem_cons hi, List.take_succ_cons, List.getElem?_eq_getElem hi]
      rfl
    · rw [List.getElem?_eq_none (by omega), List.drop_of_length_le (by omega),
        List.drop_of_length_le (by omega)]
      simp

theorem piece_far {b : Bytes} {i : Nat} (h : ∀ e ∈ es, i < e.pos) : Edit.piece es b i = b[i]?.toList := by
  have hfilter : es.filter (·.pos = i) = [] := by
    refine List.filter_eq_nil_iff.mpr fun e he => ?_
    have := h e he
    simp
    omega
  have hany : (es.any fun e => e.pos ≤ i ∧ i < e.endPos) = false := by
    refine List.any_eq_false.mpr fun e he => ?_
    have := h e he
    simp
    omega
  rw [Edit.piece, hfilter, hany]
  rfl

theorem piece_cons {b : Bytes} {e : Edit} {i : Nat} : Edit.piece (e :: es) b i =
    (if i = e.pos then e.ins else []) ++
      (es.filter (·.pos = i)).flatMap Edit.ins ++
      if (e.pos ≤ i ∧ i < e.endPos) ∨ (es.any fun e => e.pos ≤ i ∧ i < e.endPos) = true then []
      else b[i]?.toList := by
  rw [Edit.piece, List.filter_cons]
  by_cases hi : e.pos = i
  · simp [hi]
  · simp [hi, Ne.symm hi]

/-- A list applied is each place of the text with what its edits put there. -/
theorem applyFrom_pieces {b : Bytes} {cur : Nat} {es : List Edit} (hs : es.Pairwise Edit.Before)
    (hc : ∀ e ∈ es, cur ≤ e.pos) (hin : ∀ e ∈ es, e.endPos ≤ b.length) (hcur : cur ≤ b.length) :
    applyFrom b cur es = (List.range' cur (b.length + 1 - cur)).flatMap (Edit.piece es b) := by
  induction es generalizing cur with
  | nil =>
    have hpiece : Edit.piece [] b = fun k => b[k]?.toList := by
      funext i
      exact piece_far fun e he => absurd he List.not_mem_nil
    rw [hpiece, flatMap_bytes, List.take_of_length_le (by simp only [List.length_drop]; omega)]
    rfl
  | cons e es ih =>
    obtain ⟨hbefore, hs⟩ := List.pairwise_cons.mp hs
    have hpos := hc e List.mem_cons_self
    have hend := hin e List.mem_cons_self
    have hple := e.pos_le_endPos
    have hrest := ih hs (fun e' he' => (hbefore e' he').2)
      (fun e' he' => hin e' (List.mem_cons_of_mem _ he')) hend
    -- up to the edit the bytes stay
    have hkeep : (List.range' cur (e.pos - cur)).flatMap (Edit.piece (e :: es) b) = slice b cur e.pos := by
      rw [slice, ← flatMap_bytes]
      refine List.flatMap_congr fun i hi => piece_far fun e' he' => ?_
      have hi' := List.mem_range'_1.mp hi
      rcases List.mem_cons.mp he' with rfl | he'
      · omega
      · have := (hbefore e' he').1
        omega
    have hfar : ∀ i, i < e.endPos ∨ i = e.pos → (es.filter (·.pos = i)) = [] := by
      refine fun i hi => List.filter_eq_nil_iff.mpr fun e' he' => ?_
      have := (hbefore e' he').1
      have := (hbefore e' he').2
      simp
      omega
    have hpast : ∀ i, e.endPos ≤ i → i ≠ e.pos → Edit.piece (e :: es) b i = Edit.piece es b i := by
      intro i hi hne
      rw [piece_cons, if_neg hne, Edit.piece]
      simp [Nat.not_lt.mpr hi]
    have hfirst : Edit.piece (e :: es) b e.pos =
        e.ins ++ if e.pos < e.endPos then [] else b[e.pos]?.toList := by
      rw [piece_cons, if_pos rfl, hfar _ (.inr rfl)]
      by_cases hdel : e.pos < e.endPos
      · simp [hdel]
      · have hany : (es.any fun e' => e'.pos ≤ e.pos ∧ e.pos < e'.endPos) = false := by
          refine List.any_eq_false.mpr fun e' he' => ?_
          have := (hbefore e' he').1
          simp
          omega
        rw [if_neg (by rw [hany]; simp [hdel]), if_neg hdel]
        simp
    have hedit : (List.range' e.pos (b.length + 1 - e.pos)).flatMap (Edit.piece (e :: es) b) =
        e.ins ++ applyFrom b e.endPos es := by
      rw [hrest]
      rcases Nat.eq_or_lt_of_le hple with heq | hlt
      · -- an insertion: the byte at its place is the rest's
        rw [← heq, show b.length + 1 - e.pos = b.length - e.pos + 1 by omega, List.range'_succ,
          List.flatMap_cons, List.flatMap_cons, hfirst, if_neg (by omega), List.append_assoc,
          piece_far fun e' he' => (hbefore e' he').1]
        congr 2
        refine List.flatMap_congr fun i hi => hpast i ?_ ?_
        · have := List.mem_range'_1.mp hi
          omega
        · have := List.mem_range'_1.mp hi
          omega
      · rw [show b.length + 1 - e.pos = (e.endPos - e.pos) + (b.length + 1 - e.endPos) by omega,
          ← List.range'_append_1, List.flatMap_append, show e.pos + (e.endPos - e.pos) = e.endPos by omega]
        congr 1
        · rw [show e.endPos - e.pos = e.endPos - e.pos - 1 + 1 by omega, List.range'_succ,
            List.flatMap_cons, hfirst, if_pos hlt, List.append_nil]
          have hnil : (List.range' (e.pos + 1) (e.endPos - e.pos - 1)).flatMap
              (Edit.piece (e :: es) b) = [] := by
            refine List.flatMap_eq_nil_iff.mpr fun i hi => ?_
            have := List.mem_range'_1.mp hi
            rw [piece_cons, if_neg (by omega), hfar i (.inl (by omega)),
              if_pos (.inl ⟨by omega, by omega⟩)]
            rfl
          rw [hnil, List.append_nil]
        · refine List.flatMap_congr fun i hi => hpast i ?_ ?_
          · have := List.mem_range'_1.mp hi
            omega
          · have := List.mem_range'_1.mp hi
            omega
    calc
      applyFrom b cur (e :: es) = slice b cur e.pos ++ (e.ins ++ applyFrom b e.endPos es) := by
        rw [applyFrom, List.append_assoc]
      _ = (List.range' cur (e.pos - cur)).flatMap (Edit.piece (e :: es) b) ++
          (List.range' e.pos (b.length + 1 - e.pos)).flatMap (Edit.piece (e :: es) b) := by
        rw [hkeep, hedit]
      _ = _ := by
        rw [← List.flatMap_append, show b.length + 1 - cur = (e.pos - cur) + (b.length + 1 - e.pos) by omega,
          ← List.range'_append_1, show cur + (e.pos - cur) = e.pos by omega]

theorem flatMap_changes (es : List Edit) (i : Nat) :
    ((es.filter fun e => decide e.Changes).filter (·.pos = i)).flatMap Edit.ins =
      (es.filter (·.pos = i)).flatMap Edit.ins := by
  rw [List.filter_comm]
  induction es.filter (·.pos = i) with
  | nil => rfl
  | cons e rest ih =>
    by_cases he : e.Changes
    · rw [List.filter_cons_of_pos (by simpa using he), List.flatMap_cons, List.flatMap_cons, ih]
    · have hins : e.ins = [] := by
        by_contra hne
        exact he (.inr hne)
      rw [List.filter_cons_of_neg (by simpa using he), List.flatMap_cons, hins, List.nil_append, ih]

/-- At most one edit of an ordered list starts at a place, so any order has the same ones there. -/
theorem starting_perm {ks : List Edit} (hs : ks.Pairwise Edit.Before) (hperm : ks.Perm es) (i : Nat) :
    ks.filter (·.pos = i) = es.filter (·.pos = i) := by
  have hfilter := hperm.filter (·.pos = i)
  have hstart : ∀ e ∈ ks.filter (·.pos = i), e.pos = i := fun e he =>
    of_decide_eq_true (List.mem_filter.mp he).2
  have hs' := hs.filter (·.pos = i)
  generalize ks.filter (·.pos = i) = here at hfilter hstart hs'
  cases here with
  | nil => exact hfilter.nil_eq
  | cons e rest =>
    cases rest with
    | nil => exact (List.perm_singleton.mp hfilter.symm).symm
    | cons e' rest =>
      have hlt := ((List.pairwise_cons.mp hs').1 e' List.mem_cons_self).1
      rw [hstart e List.mem_cons_self, hstart e' (List.mem_cons_of_mem _ List.mem_cons_self)] at hlt
      omega

/-- The list that is formed applies the edits at once. -/
theorem applyTo_atOnce {b : Bytes} (h : new es = .ok l) (hin : l.InBounds b.length) :
    l.applyTo b = Edit.atOnce es b := by
  have hpiece : ∀ i, Edit.piece l.edits b i = Edit.piece es b i := by
    intro i
    have hkept := edits_of_new h
    have hins : (l.edits.filter (·.pos = i)).flatMap Edit.ins = (es.filter (·.pos = i)).flatMap Edit.ins := by
      rw [← flatMap_changes es, hkept, starting_perm (hkept ▸ l.sorted) (kept_perm es)]
    have hany : (l.edits.any fun e => e.pos ≤ i ∧ i < e.endPos) =
        es.any fun e => e.pos ≤ i ∧ i < e.endPos := by
      rw [Bool.eq_iff_iff, List.any_eq_true, List.any_eq_true, hkept]
      constructor
      · rintro ⟨e, he, hi⟩
        exact ⟨e, (mem_kept.mp he).1, hi⟩
      · rintro ⟨e, he, hi⟩
        refine ⟨e, mem_kept.mpr ⟨he, .inl ?_⟩, hi⟩
        have := of_decide_eq_true hi
        simp only [Edit.endPos] at this
        omega
    rw [Edit.piece, Edit.piece, hins, hany]
  rw [applyTo, applyFrom_pieces l.sorted (fun e _ => Nat.zero_le e.pos) hin (Nat.zero_le _), Edit.atOnce,
    List.range_eq_range']
  exact List.flatMap_congr fun i _ => hpiece i

end

end EditList

/-! ## A cursor through the list -/

/-- No character is cut at `p`: the byte there, if there is one, continues none. -/
def Uncut (b : Bytes) (p : Nat) : Prop := isContinuation (b.getD p 0) = false

section
variable {b t : Bytes} {e : Edit} {c p : Nat}

theorem Uncut.congr (h : Uncut b p) {b' : Bytes} {p' : Nat} (hbyte : b'[p']? = b[p]?) : Uncut b' p' := by
  rw [Uncut, List.getD_eq_getElem?_getD, hbyte, ← List.getD_eq_getElem?_getD]
  exact h

theorem Uncut.isBoundary (h : Uncut b p) : Core.isBoundary b p = true := by
  have hout : insideChar b p = false := by
    by_contra hin
    have hcont := (insideChar_iff.mp (by simpa using hin)).2.2.1
    rw [h] at hcont
    cases hcont
  simp [Core.isBoundary, hout]

theorem exists_char_over (h : isBoundary b p = false) :
    ∃ j w, charLenAt b j = some w ∧ j < p ∧ p < j + w := by
  have hinside : insideChar b p = true := by
    simp only [isBoundary, Bool.or_eq_false_iff] at h
    simpa using h.2
  obtain ⟨-, -, -, j, w, -, hj, -, -, hw, hpast⟩ := insideChar_iff.mp hinside
  exact ⟨j, w, hw, hj, hpast⟩

theorem not_char_over (h : isBoundary b p = true) {j w : Nat} (hw : charLenAt b j = some w) (hj : j < p) :
    j + w ≤ p := by
  by_contra hlt
  have hin := insideChar_of_char hw hj (by omega)
  have hle := (charLenAt_spec hw).2.2.1
  simp only [isBoundary, hin, Bool.not_true, Bool.or_false, Bool.or_eq_true, beq_iff_eq] at h
  omega

theorem uncut_over (h : Uncut b p) {j w : Nat} (hw : charLenAt b j = some w) (hj : j < p) : j + w ≤ p :=
  not_char_over h.isBoundary hw hj

theorem splice_left (hpos : e.pos ≤ t.length) (hp : p < e.pos) : (e.splice t)[p]? = t[p]? := by
  rw [Edit.splice, List.append_assoc, List.getElem?_append_left (by simp; omega),
    List.getElem?_take_of_lt hp]

theorem splice_right (hpos : e.pos ≤ t.length) (hp : e.pos + e.ins.length ≤ p) :
    (e.splice t)[p]? = t[p - (e.pos + e.ins.length) + e.endPos]? := by
  have hlen : (t.take e.pos ++ e.ins).length = e.pos + e.ins.length := by simp; omega
  rw [Edit.splice, List.getElem?_append_right (by omega), hlen, List.getElem?_drop, Nat.add_comm]

/-- Both ends of an insertion of whole characters are uncut where what follows it is. -/
theorem splice_uncut (hpos : e.pos ≤ t.length) (hins : ValidUtf8 e.ins) (hend : Uncut t e.endPos) :
    Uncut (e.splice t) e.pos ∧ Uncut (e.splice t) (e.pos + e.ins.length) := by
  have hafter : Uncut (e.splice t) (e.pos + e.ins.length) :=
    hend.congr (by rw [splice_right hpos (Nat.le_refl _), Nat.sub_self, Nat.zero_add])
  refine ⟨?_, hafter⟩
  rcases Nat.eq_zero_or_pos e.ins.length with hnil | hlen
  · rwa [hnil] at hafter
  · obtain ⟨w, hw, -⟩ := (validUtf8_iff.mp hins).first hlen
    have hlead : Uncut e.ins 0 := (charLenAt_spec hw).2.2.2.1
    refine hlead.congr ?_
    have htake : (t.take e.pos).length = e.pos := by simp; omega
    rw [Edit.splice, List.append_assoc, List.getElem?_append_right (by omega), htake, Nat.sub_self,
      List.getElem?_append_left hlen]

/-- A boundary that an edit does not cut stays one through it. -/
theorem isBoundary_splice (hpos : e.pos ≤ t.length) (hins : ValidUtf8 e.ins) (hend : Uncut t e.endPos)
    (hc : isBoundary t c = true) :
    isBoundary (e.splice t) (mapOne c e.pos e.del e.ins.length .after).1 = true := by
  obtain ⟨hstart, hafter⟩ := splice_uncut hpos hins hend
  have hstop : e.endPos = e.pos + e.del := rfl
  by_contra hnot
  obtain ⟨j, w, hw, hj, hjw⟩ := exists_char_over (by simpa using hnot)
  rw [mapOne_fst] at hj hjw
  by_cases hbefore : c < e.pos
  · rw [if_pos hbefore] at hj hjw
    have hfit := uncut_over hstart hw (by omega)
    have hsame : charLenAt t j = some w :=
      charLenAt_same hw fun k hk => (splice_left hpos (by omega)).symm
    have := not_char_over hc hsame hj
    omega
  · rw [if_neg hbefore] at hj hjw
    by_cases hpast : c > e.pos + e.del
    · rw [if_pos hpast] at hj hjw
      by_cases hlow : j < e.pos + e.ins.length
      · have := uncut_over hafter hw hlow
        omega
      · have hsame : charLenAt t (j - (e.pos + e.ins.length) + e.endPos) = some w :=
          charLenAt_same hw fun k hk => by
            rw [splice_right hpos (by omega)]
            congr 1
            omega
        have := not_char_over hc hsame (by omega)
        omega
    · rw [if_neg hpast, Bias.push] at hj hjw
      have := uncut_over hafter hw hj
      omega

/-- A boundary stays one through a list of edits that cut no character. -/
theorem isBoundary_inTurn {text done : Bytes} {es : List Edit} {cur : Nat} {shift : Int}
    (hs : es.Pairwise Edit.Before) (hcur : ∀ e ∈ es, cur ≤ e.pos)
    (hin : ∀ e ∈ es, e.endPos ≤ text.length) (hins : ∀ e ∈ es, ValidUtf8 e.ins)
    (huncut : ∀ e ∈ es, Uncut text e.endPos) (hframe : (done.length : Int) = cur + shift)
    (hc : isBoundary (done ++ text.drop cur) c = true) (inside : Bool) :
    isBoundary (done ++ EditList.applyFrom text cur es)
      ((inTurn es shift).foldl (mapEdit .after) (c, inside)).1 = true := by
  induction es generalizing done cur shift c inside with
  | nil => exact hc
  | cons e es ih =>
    obtain ⟨hbefore, hs⟩ := List.pairwise_cons.mp hs
    obtain ⟨hfits, hsplice, hframe'⟩ :=
      splice_shifted (hcur e List.mem_cons_self) (hin e List.mem_cons_self) hframe
    have hle := e.pos_le_endPos
    have hpos := hcur e List.mem_cons_self
    have hend : Uncut (done ++ text.drop cur) (e.shifted shift).endPos := by
      refine (huncut e List.mem_cons_self).congr ?_
      have hat : (e.shifted shift).endPos = done.length + (e.endPos - cur) := by
        simp only [Edit.shifted, Edit.endPos] at hle ⊢
        omega
      rw [hat, List.getElem?_append_right (Nat.le_add_right _ _), Nat.add_sub_cancel_left,
        List.getElem?_drop, show cur + (e.endPos - cur) = e.endPos by omega]
    have hstep := isBoundary_splice hfits (hins e List.mem_cons_self) hend hc
    rw [hsplice] at hstep
    rw [inTurn, List.foldl_cons, EditList.applyFrom]
    have hrest := ih hs (fun e' he' => (hbefore e' he').2)
      (fun e' he' => hin e' (List.mem_cons_of_mem _ he'))
      (fun e' he' => hins e' (List.mem_cons_of_mem _ he'))
      (fun e' he' => huncut e' (List.mem_cons_of_mem _ he')) hframe' hstep
      (inside || (mapOne c (e.shifted shift).pos e.del e.ins.length .after).2)
    simp only [List.append_assoc] at hrest ⊢
    exact hrest

/-- A cursor on a boundary is carried to a boundary. -/
theorem isBoundary_mapByte {l : EditList} (hin : l.InBounds b.length) (hins : ∀ e ∈ l.edits, ValidUtf8 e.ins)
    (huncut : ∀ e ∈ l.edits, Uncut b e.endPos) (hc : isBoundary b c = true) :
    isBoundary (l.applyTo b) (mapByte l c .after) = true := by
  rw [mapByte, mapByteInside_eq]
  exact @isBoundary_inTurn c b [] _ 0 0 l.sorted (fun e _ => Nat.zero_le _) hin hins huncut rfl hc false

end

end Ruse.Core
