import Ruse.Core.AnchorFar

/-!
# A line anchor and the line its newline ends

A line whose newline no edit deletes, and onto which no edit puts a newline, is ended
in the new text by that newline (`tail_line`): what stands before it there has none
back to the start of the line, or to the place where an edit from above runs into it.
The line rule ends up on that line, but for one case: a position that follows an edit
running in from above is moved as that edit moves it, whatever the edits on the line
itself do (`mapOffset_keeps_line_iff`).
-/

namespace Ruse.Core

variable {c le : Nat} {A B : List Edit} {m : LineMap} {e : Edit}

/-! ## Lines in a text -/

theorem isBoundary_of_startsLine {b : Bytes} {i : Nat} (h : StartsLine b i) :
    isBoundary b i = true := by
  simp only [isBoundary, Bool.or_eq_true, beq_iff_eq, Bool.not_eq_true']
  refine .inr (Bool.eq_false_iff.mpr fun hin => ?_)
  obtain ⟨hpos, hlt, -, j, w, -, hji, -, -, hw, hpast⟩ := insideChar_iff.mp hin
  obtain ⟨hjnl, -, hrest, -⟩ := charLenAt_carried hw (by omega)
  rcases h with hzero | hnl
  · omega
  · -- the newline before `i` would be a byte of the character
    rcases Nat.lt_or_ge j (i - 1) with hbefore | hlead
    · exact hrest (i - 1) hbefore (by omega) hnl
    · rw [show j = i - 1 by omega] at hjnl
      exact hjnl hnl

section
variable {b : Bytes} {s nl : Nat}

/-- A position before a newline with none between is on the line that newline ends. -/
theorem lineEnd_of_newline (hnl : b[nl]? = some newline) (hno : NoNewline b s nl)
    (hs : s ≤ nl) : lineEnd b s = nl :=
  lineEnd_eq hs (Nat.le_of_lt (List.getElem?_eq_some_iff.mp hnl).1) (.inr hnl) hno

theorem noNewline_lineStart (hno : NoNewline b s nl) : NoNewline b (lineStart b s) nl := by
  intro k hk hkn
  rcases Nat.lt_or_ge k s with hks | hks
  · exact (lineStart_spec b s).2 k hk hks
  · exact hno k hks hkn

theorem lineEnd_snap (hnl : b[nl]? = some newline) (hno : NoNewline b s nl) {q : Nat}
    (hsq : lineStart b s ≤ q) (hq : q ≤ nl) : lineEnd b (snap b q) = nl := by
  have hlen := (List.getElem?_eq_some_iff.mp hnl).1
  have hlow := le_snap (isBoundary_of_startsLine (lineStart_spec b s).1) hsq (by omega)
  have hhigh := snap_le b q
  refine lineEnd_of_newline hnl (fun k hk hkn => ?_) (by omega)
  exact noNewline_lineStart hno k (by omega) hkn

theorem lineEnd_snap_past (hnl : b[nl]? = some newline) {q : Nat} (hq : nl < q) :
    lineEnd b (snap b q) ≠ nl := by
  have hlen := (List.getElem?_eq_some_iff.mp hnl).1
  have hstart : StartsLine b (nl + 1) := .inr (by rw [Nat.add_sub_cancel, hnl])
  have hlow := le_snap (isBoundary_of_startsLine hstart) hq hlen
  have hle := le_lineEnd b (Nat.le_trans (snap_le b q) (Nat.min_le_right _ _))
  omega

end

/-! ## The new text from a kept position on -/

namespace EditList

/-- The new text, cut where the edits `A` are done and the old text stands at `c`. -/
theorem applyFrom_split {buf : Bytes} {cur : Nat} (hs : (A ++ B).Pairwise Edit.Before)
    (hcur : ∀ e ∈ A, cur ≤ e.pos) (hcc : cur ≤ c) (hA : ∀ e ∈ A, e.endPos ≤ c)
    (hB : ∀ e ∈ B, c ≤ e.pos) (hc : c ≤ buf.length) :
    ∃ front, applyFrom buf cur (A ++ B) = front ++ applyFrom buf c B ∧
      (front.length : Int) = c - cur + sumDelta A := by
  induction A generalizing cur with
  | nil =>
    refine ⟨slice buf cur c, ?_, ?_⟩
    · rw [List.nil_append]
      cases B with
      | nil =>
        rw [applyFrom, applyFrom, slice_append_drop hcc]
      | cons e B =>
        have hce := hB e List.mem_cons_self
        have hmid : slice buf cur e.pos = slice buf cur c ++ slice buf c e.pos := by
          rw [slice, slice, slice, ← List.take_append_drop (c - cur) ((buf.drop cur).take _),
            List.take_take, Nat.min_eq_left (by omega), List.drop_take, List.drop_drop,
            show cur + (c - cur) = c by omega, show e.pos - cur - (c - cur) = e.pos - c by omega]
        rw [applyFrom, applyFrom, hmid]
        simp only [List.append_assoc]
    · rw [slice_length hcc hc, sumDelta_nil]
      omega
  | cons e A ih =>
    have hhead := List.pairwise_cons.mp hs
    have hend := hA e List.mem_cons_self
    have hce := hcur e List.mem_cons_self
    have hpos := e.pos_le_endPos
    obtain ⟨front, heq, hlen⟩ := ih hhead.2
      (fun e' he' => (hhead.1 e' (List.mem_append_left _ he')).2) hend
      (fun e' he' => hA e' (List.mem_cons_of_mem _ he'))
    refine ⟨slice buf cur e.pos ++ e.ins ++ front, ?_, ?_⟩
    · rw [List.cons_append, applyFrom, heq, List.append_assoc (slice buf cur e.pos ++ e.ins)]
    · rw [List.length_append, List.length_append, slice_length hce (by omega), sumDelta_cons]
      simp only [Edit.delta, Edit.endPos] at hlen ⊢
      omega

/-- From `c` on the new text runs without a newline to the newline kept at `le`: the
edits up to there put none in, and the old text has none. -/
theorem tail_line {buf : Bytes} (hs : B.Pairwise Edit.Before) (hB : ∀ e ∈ B, c ≤ e.pos)
    (hcle : c ≤ le) (hnl : buf[le]? = some newline) (hno : NoNewline buf c le)
    (hkept : ∀ e ∈ B, e.pos ≤ le → e.endPos ≤ le) (hins : ∀ e ∈ B, e.pos ≤ le → newline ∉ e.ins) :
    ∃ n : Nat, (n : Int) = le - c + sumDelta (B.filter (·.pos ≤ le)) ∧
      (applyFrom buf c B)[n]? = some newline ∧ NoNewline (applyFrom buf c B) 0 n := by
  have hlen := (List.getElem?_eq_some_iff.mp hnl).1
  induction B generalizing c with
  | nil =>
    refine ⟨le - c, ?_, ?_, ?_⟩
    · rw [List.filter_nil, sumDelta_nil]
      omega
    · rw [applyFrom, List.getElem?_drop, Nat.add_sub_cancel' hcle, hnl]
    · intro k _ hk
      rw [applyFrom, List.getElem?_drop]
      exact hno _ (by omega) (by omega)
  | cons e B ih =>
    have hhead := List.pairwise_cons.mp hs
    have hce := hB e List.mem_cons_self
    have hslice (k : Nat) (hk : k < e.pos - c) : (slice buf c e.pos)[k]? = buf[c + k]? := by
      rw [slice, List.getElem?_take_of_lt hk, List.getElem?_drop]
    rcases Nat.lt_or_ge le e.pos with hafter | hon
    · -- the newline stands before the edit
      have hnone : (e :: B).filter (·.pos ≤ le) = [] := by
        refine List.filter_eq_nil_iff.mpr fun e' he' => ?_
        have hle : e.pos ≤ e'.pos := by
          rcases List.mem_cons.mp he' with rfl | he'
          · exact Nat.le_refl _
          · exact Nat.le_of_lt (hhead.1 e' he').1
        simp only [decide_eq_true_eq]
        omega
      have hget (k : Nat) (hk : k ≤ le - c) :
          (applyFrom buf c (e :: B))[k]? = buf[c + k]? := by
        rw [applyFrom, List.append_assoc, List.getElem?_append_left, hslice k (by omega)]
        rcases Nat.lt_or_ge k (slice buf c e.pos).length with h | h
        · exact h
        · have := hslice k (by omega)
          rw [List.getElem?_eq_none h, List.getElem?_eq_getElem (by omega)] at this
          cases this
      refine ⟨le - c, ?_, ?_, ?_⟩
      · rw [hnone, sumDelta_nil]
        omega
      · rw [hget _ (Nat.le_refl _), Nat.add_sub_cancel' hcle, hnl]
      · intro k _ hk
        rw [hget k (by omega)]
        exact hno _ (by omega) (by omega)
    · have hend := hkept e List.mem_cons_self hon
      have hpos := e.pos_le_endPos
      have hnoins := hins e List.mem_cons_self hon
      have hklen : (slice buf c e.pos).length = e.pos - c := slice_length hce (by omega)
      obtain ⟨n, hn, hnget, hnno⟩ := ih hhead.2 (fun e' he' => (hhead.1 e' he').2) hend
        (fun k hk hkl => hno k (by omega) hkl)
        (fun e' he' => hkept e' (List.mem_cons_of_mem _ he'))
        (fun e' he' => hins e' (List.mem_cons_of_mem _ he'))
      have hfront : (slice buf c e.pos ++ e.ins).length = e.pos - c + e.ins.length := by
        rw [List.length_append, hklen]
      refine ⟨e.pos - c + e.ins.length + n, ?_, ?_, ?_⟩
      · rw [List.filter_cons_of_pos (by simpa using hon), sumDelta_cons]
        simp only [Edit.delta, Edit.endPos] at hn hend ⊢
        omega
      · rw [applyFrom, List.getElem?_append_right (by omega), hfront, Nat.add_sub_cancel_left, hnget]
      · intro k _ hk hknl
        rw [applyFrom] at hknl
        rcases Nat.lt_or_ge k (e.pos - c) with h | h
        · rw [List.append_assoc, List.getElem?_append_left (by omega), hslice k h] at hknl
          exact hno _ (by omega) (by omega) hknl
        · rcases Nat.lt_or_ge k (e.pos - c + e.ins.length) with h' | h'
          · rw [List.getElem?_append_left (by omega), List.getElem?_append_right (by omega)] at hknl
            exact hnoins (List.mem_of_getElem? hknl)
          · rw [List.getElem?_append_right (by omega), hfront] at hknl
            exact hnno _ (Nat.zero_le _) (by omega) hknl

end EditList

namespace LineMap

/-! ## What the line rule finds -/

/-- What the loop of `map_offset` finds on a line whose newline is kept: the edits `A`
are above it and those of `B` start on it or after it, with maybe one edit between
that runs into the line from above. -/
inductive Found (m : LineMap) (o ls le : Nat) (es : List Edit) (delta : Int) : Reach → Prop
  | shifted (A B : List Edit) : es = A ++ B → (∀ e ∈ A, e.endPos ≤ ls) →
      (∀ e ∈ B, ls ≤ e.pos) → Found m o ls le es delta (.shifted (delta + sumDelta A))
  | cut (A B : List Edit) (e : Edit) (start : Nat) : es = A ++ e :: B → (∀ e ∈ A, e.endPos ≤ ls) →
      e.pos < ls → ls < e.endPos → e.endPos ≤ le → e.ins = [] → ¬ m.isJoin e →
      start = lineStart m.new ((e.pos : Int) + (delta + sumDelta A)).toNat →
      Found m o ls le es delta (.reached (some (m.atCol start
        (((e.pos : Int) + (delta + sumDelta A)).toNat - start + (o - ls)))))
  | after (A B : List Edit) (e : Edit) : es = A ++ e :: B → (∀ e ∈ A, e.endPos ≤ ls) →
      e.pos < ls → ls < e.endPos → e.endPos ≤ le → e.ins ≠ [] ∨ m.isJoin e → e.endPos ≤ o →
      Found m o ls le es delta
        (.reached (some ((o : Int) + (delta + sumDelta A) + e.delta).toNat))
  | within (A B : List Edit) (e : Edit) : es = A ++ e :: B → (∀ e ∈ A, e.endPos ≤ ls) →
      e.pos < ls → ls < e.endPos → e.endPos ≤ le → e.ins ≠ [] ∨ m.isJoin e → o < e.endPos →
      Found m o ls le es delta (.reached (some
        (((e.pos : Int) + (delta + sumDelta A)).toNat + e.ins.length)))

/-- One more edit above the line. -/
theorem Found.above {o ls : Nat} {es : List Edit} {delta : Int} {r : Reach} (he : e.endPos ≤ ls)
    (h : Found m o ls le es (delta + e.delta) r) :
    Found m o ls le (e :: es) delta r := by
  have hsum (A : List Edit) : delta + e.delta + sumDelta A = delta + sumDelta (e :: A) := by
    rw [sumDelta_cons, Int.add_assoc]
  have habove {A : List Edit} (hA : ∀ a ∈ A, a.endPos ≤ ls) : ∀ a ∈ e :: A, a.endPos ≤ ls := by
    intro a ha
    rcases List.mem_cons.mp ha with rfl | ha
    · exact he
    · exact hA a ha
  cases h with
  | shifted A B hes hA hB =>
    rw [hsum]
    exact .shifted (e :: A) B (by rw [hes]; rfl) (habove hA) hB
  | cut A B f start hes hA h1 h2 h3 h4 h5 h6 =>
    rw [hsum] at h6 ⊢
    exact .cut (e :: A) B f start (by rw [hes]; rfl) (habove hA) h1 h2 h3 h4 h5 h6
  | after A B f hes hA h1 h2 h3 h4 h5 =>
    rw [hsum]
    exact .after (e :: A) B f (by rw [hes]; rfl) (habove hA) h1 h2 h3 h4 h5
  | within A B f hes hA h1 h2 h3 h4 h5 =>
    rw [hsum]
    exact .within (e :: A) B f (by rw [hes]; rfl) (habove hA) h1 h2 h3 h4 h5

/-- An end-aligned edit takes the line `ls` starts with the newline before it. -/
def TakesLine (m : LineMap) (ls : Nat) (e : Edit) : Prop :=
  e.pos < ls ∧ ls ≤ e.endPos ∧ m.endAligned e ∧ ¬ (e.endPos = ls ∧ m.startAligned e)

instance (m : LineMap) (ls : Nat) (e : Edit) : Decidable (m.TakesLine ls e) :=
  inferInstanceAs (Decidable (_ ∧ _))

/-- On a line whose newline is kept the loop finds one of the four cases of `Found`. -/
theorem reach_found {g : LineGravity} {o ls : Nat} {es : List Edit} (delta : Int)
    (hs : es.Pairwise Edit.Before) (hls : ls ≤ le) (hno : NoNewline m.old ls le)
    (hnear : ∀ e ∈ es, ls ≤ e.endPos) (hkept : ∀ e ∈ es, ¬ (e.pos ≤ le ∧ le < e.endPos))
    (hins : ∀ e ∈ es, ls ≤ e.pos → e.pos ≤ le → newline ∉ e.ins)
    (htake : ∀ e ∈ es, ¬ m.TakesLine ls e) :
    Found m o ls le es delta (m.reach g o ls le es delta) := by
  induction es generalizing delta with
  | nil =>
    have h : Found m o ls le [] delta (.shifted (delta + sumDelta [])) :=
      .shifted [] [] rfl (fun _ h => absurd h List.not_mem_nil)
        (fun _ h => absurd h List.not_mem_nil)
    rwa [sumDelta_nil, Int.add_zero] at h
  | cons e es ih =>
    have hhead := List.pairwise_cons.mp hs
    have hend := hnear e List.mem_cons_self
    have hk := hkept e List.mem_cons_self
    have hrest := ih (delta + e.delta) hhead.2 (fun e' he' => hnear e' (List.mem_cons_of_mem _ he'))
      (fun e' he' => hkept e' (List.mem_cons_of_mem _ he'))
      (fun e' he' => hins e' (List.mem_cons_of_mem _ he'))
      (fun e' he' => htake e' (List.mem_cons_of_mem _ he'))
    -- the edits from one that starts at the line's start or after it
    have hfrom (hle : ls ≤ e.pos) : Found m o ls le (e :: es) delta (.shifted delta) := by
      have h : Found m o ls le (e :: es) delta (.shifted (delta + sumDelta [])) := by
        refine .shifted [] (e :: es) rfl (fun _ h => absurd h List.not_mem_nil) fun e' he' => ?_
        rcases List.mem_cons.mp he' with rfl | he'
        · exact hle
        · exact Nat.le_trans hle (Nat.le_of_lt (hhead.1 e' he').1)
      rwa [sumDelta_nil, Int.add_zero] at h
    unfold reach
    dsimp only
    split
    · exact hfrom (by omega)
    · rename_i hle
      split
      · exact hrest.above (by omega)
      · rename_i hjoin
        split
        · -- whole lines put above this one would put a newline on it
          rename_i hwhole
          exact absurd (List.mem_of_getLast? hwhole.2.2)
            (hins e List.mem_cons_self (by omega) (by omega))
        · split
          · -- a block of whole lines that holds this one would take its newline
            rename_i hblock
            exfalso
            obtain ⟨haligned, hlt⟩ := hblock
            simp only [startAligned, lineStartAt, Bool.and_eq_true, Bool.or_eq_true, beq_iff_eq]
              at haligned
            rcases haligned.1.2 with hzero | hnl
            · omega
            · refine hno (e.endPos - 1) (by omega) ?_ hnl
              by_contra hge
              exact hk ⟨by omega, by omega⟩
          · split
            · rename_i hblock
              exfalso
              refine htake e List.mem_cons_self ⟨hblock.1, hend, hblock.2, fun hstart => ?_⟩
              exact hjoin ⟨hstart.1, hblock.1, .inl hstart.2⟩
            · rename_i hblock
              split
              · rename_i hcut
                have hlt : ls < e.endPos := by
                  rcases Nat.lt_or_ge ls e.endPos with h | h
                  · exact h
                  · refine absurd ⟨by omega, hcut, .inr fun ha => hblock ⟨hcut, ha⟩⟩ hjoin
                have hin : e.endPos ≤ le := by
                  by_contra hover
                  exact hk ⟨by omega, by omega⟩
                rw [if_neg (by omega)]
                have hdelta : delta = delta + sumDelta [] := by rw [sumDelta_nil, Int.add_zero]
                split
                · rename_i hdel
                  have h : Found m o ls le (e :: es) delta (.reached (some (m.atCol _ _))) :=
                    .cut [] es e _ rfl (fun _ h => absurd h List.not_mem_nil) hcut hlt hin
                      (List.isEmpty_iff.mp hdel.1) hdel.2 rfl
                  rwa [← hdelta] at h
                · rename_i htext
                  have htext : e.ins ≠ [] ∨ m.isJoin e := by
                    by_contra hnot
                    obtain ⟨hnil, hj⟩ := not_or.mp hnot
                    exact htext ⟨List.isEmpty_iff.mpr (not_not.mp hnil), hj⟩
                  split
                  · rename_i hafter
                    have h : Found m o ls le (e :: es) delta _ :=
                      .after [] es e rfl (fun _ h => absurd h List.not_mem_nil) hcut hlt hin htext
                        hafter
                    rwa [← hdelta] at h
                  · rename_i hwithin
                    have h : Found m o ls le (e :: es) delta _ :=
                      .within [] es e rfl (fun _ h => absurd h List.not_mem_nil) hcut hlt hin htext
                        (by omega)
                    rwa [← hdelta] at h
              · exact hfrom (by omega)

/-! ## Where the line rule ends up -/

/-- The line of `o` ends in a newline that no edit deletes, no edit that starts on it
puts a newline in, and no end-aligned edit takes it. -/
structure LineKept (old : Bytes) (l : EditList) (o : Nat) : Prop where
  inText : o ≤ old.length
  inBounds : l.InBounds old.length
  ended : old[lineEnd old o]? = some newline
  kept : ∀ e ∈ l.edits, ¬ (e.pos ≤ lineEnd old o ∧ lineEnd old o < e.endPos)
  none_added : ∀ e ∈ l.edits, lineStart old o ≤ e.pos → e.pos ≤ lineEnd old o →
    newline ∉ e.ins
  not_taken : ∀ e ∈ l.edits, ¬ TakesLine ⟨old, l.applyTo old, l.edits⟩ (lineStart old o) e

/-- Where the newline of the line of `o` stands in the new text. -/
def newlineImage (old : Bytes) (l : EditList) (o : Nat) : Nat :=
  ((lineEnd old o : Int) + sumDelta (l.edits.filter (·.pos ≤ lineEnd old o))).toNat

/-- An edit that inserts text or is a join runs into the line from above and ends at
`o` or before it, and the edits that start on the line shorten it by more than the
distance from `o` to its newline. -/
def PassesLine (old : Bytes) (l : EditList) (o : Nat) : Prop :=
  (∃ e ∈ l.edits, e.pos < lineStart old o ∧ lineStart old o < e.endPos ∧ e.endPos ≤ o ∧
    (e.ins ≠ [] ∨ LineMap.isJoin ⟨old, l.applyTo old, l.edits⟩ e)) ∧
  (lineEnd old o : Int) + sumDelta (l.edits.filter fun e =>
    lineStart old o ≤ e.pos ∧ e.pos ≤ lineEnd old o) < o

namespace LineKept

variable {old : Bytes} {l : EditList} {o : Nat} (h : LineKept old l o)
include h

/-- The new text from a place `c` on the line that the edits of `A` are before and
those of `B` are not: no newline up to the image of the line's. -/
theorem from_split (hsplit : l.edits = A ++ B) (hA : ∀ e ∈ A, e.endPos ≤ c)
    (hB : ∀ e ∈ B, c ≤ e.pos) (hls : lineStart old o ≤ c) (hle : c ≤ lineEnd old o) :
    0 ≤ (c : Int) + sumDelta A ∧
      (newlineImage old l o : Int) =
        lineEnd old o + sumDelta A + sumDelta (B.filter (·.pos ≤ lineEnd old o)) ∧
      ((c : Int) + sumDelta A).toNat ≤ newlineImage old l o ∧
      (l.applyTo old)[newlineImage old l o]? = some newline ∧
      NoNewline (l.applyTo old) ((c : Int) + sumDelta A).toNat (newlineImage old l o) := by
  have hs := l.sorted
  rw [hsplit] at hs
  have hlen := (List.getElem?_eq_some_iff.mp h.ended).1
  have hmem {e : Edit} (he : e ∈ B) : e ∈ l.edits := by
    rw [hsplit]
    exact List.mem_append_right _ he
  have hno : NoNewline old c (lineEnd old o) := by
    intro k hk hkl
    rcases Nat.lt_or_ge k o with hko | hko
    · exact (lineStart_spec old o).2 k (by omega) hko
    · exact (lineEnd_spec h.inText).2 k hko hkl
  obtain ⟨front, hfront, hflen⟩ : ∃ front,
      EditList.applyFrom old 0 (A ++ B) = front ++ EditList.applyFrom old c B ∧
        (front.length : Int) = c - (0 : Nat) + sumDelta A :=
    EditList.applyFrom_split hs (fun e _ => Nat.zero_le _) (Nat.zero_le c) hA hB
      (Nat.le_trans hle (Nat.le_of_lt hlen))
  obtain ⟨n, hn, hnget, hnno⟩ := EditList.tail_line (List.pairwise_append.mp hs).2.1 hB hle
    h.ended hno
    (fun e he hpos => by
      by_contra hover
      exact h.kept e (hmem he) ⟨hpos, by omega⟩)
    (fun e he hpos => h.none_added e (hmem he) (by have := hB e he; omega) hpos)
  have hnew : l.applyTo old = front ++ EditList.applyFrom old c B := by
    rw [EditList.applyTo, hsplit, hfront]
  have hfilter : l.edits.filter (·.pos ≤ lineEnd old o) =
      A ++ B.filter (·.pos ≤ lineEnd old o) := by
    rw [hsplit, List.filter_append, List.filter_eq_self.mpr]
    intro e he
    have := hA e he
    have := e.pos_le_endPos
    exact decide_eq_true (by omega)
  have himage : newlineImage old l o = front.length + n := by
    rw [newlineImage, hfilter, sumDelta_append]
    omega
  refine ⟨by omega, ?_, by omega, ?_, ?_⟩
  · rw [newlineImage, hfilter, sumDelta_append]
    omega
  · rw [hnew, himage, List.getElem?_append_right (Nat.le_add_right _ _), Nat.add_sub_cancel_left,
      hnget]
  · intro k hk hkn
    rw [hnew, List.getElem?_append_right (by omega)]
    exact hnno _ (Nat.zero_le _) (by omega)

omit h in
/-- At most one edit runs into the line from above; the others lie on either side of it. -/
theorem around (hsplit : l.edits = A ++ e :: B) (hpos : e.pos < lineStart old o)
    (hlt : lineStart old o < e.endPos) :
    (∀ a ∈ A, a.endPos ≤ e.pos) ∧ (∀ b ∈ B, e.endPos ≤ b.pos) ∧
      (∀ f ∈ l.edits, f.pos < lineStart old o → lineStart old o < f.endPos → f = e) ∧
      l.edits.filter (fun f => lineStart old o ≤ f.pos ∧ f.pos ≤ lineEnd old o) =
        B.filter (·.pos ≤ lineEnd old o) := by
  have hs := l.sorted
  rw [hsplit] at hs
  obtain ⟨-, hright, hacross⟩ := List.pairwise_append.mp hs
  have hA : ∀ a ∈ A, a.endPos ≤ e.pos := fun a ha => (hacross a ha e List.mem_cons_self).2
  have hB : ∀ b ∈ B, e.endPos ≤ b.pos := fun b hb => ((List.pairwise_cons.mp hright).1 b hb).2
  refine ⟨hA, hB, fun f hf hfpos hflt => ?_, ?_⟩
  · rw [hsplit] at hf
    rcases List.mem_append.mp hf with ha | hf
    · have := hA f ha
      omega
    · rcases List.mem_cons.mp hf with rfl | hb
      · rfl
      · have := hB f hb
        omega
  · have hnone : A.filter (fun f => lineStart old o ≤ f.pos ∧ f.pos ≤ lineEnd old o) = [] := by
      refine List.filter_eq_nil_iff.mpr fun a ha => ?_
      have := hA a ha
      have := a.pos_le_endPos
      simp only [decide_eq_true_eq]
      omega
    rw [hsplit, List.filter_append, hnone, List.nil_append, List.filter_cons_of_neg
      (by simp only [decide_eq_true_eq]; omega)]
    refine List.filter_congr fun b hb => ?_
    have := hB b hb
    exact decide_eq_decide.mpr ⟨fun hand => hand.2, fun hle => ⟨by omega, hle⟩⟩

end LineKept

/-- The new text after an edit that runs into the line from above, and whether the
position passes the line. -/
theorem LineKept.from_cut {old : Bytes} {l : EditList} {o : Nat} (h : LineKept old l o)
    (hsplit : l.edits = A ++ e :: B) (hpos : e.pos < lineStart old o)
    (hlt : lineStart old o < e.endPos) (hend : e.endPos ≤ lineEnd old o) :
    let s := ((e.pos : Int) + sumDelta A).toNat + e.ins.length
    s ≤ newlineImage old l o ∧
      (l.applyTo old)[newlineImage old l o]? = some newline ∧
      NoNewline (l.applyTo old) s (newlineImage old l o) ∧
      (s : Int) = e.endPos + sumDelta A + e.delta ∧
      (PassesLine old l o ↔ e.endPos ≤ o ∧
        (e.ins ≠ [] ∨ LineMap.isJoin ⟨old, l.applyTo old, l.edits⟩ e) ∧
        (newlineImage old l o : Int) < o + sumDelta A + e.delta) := by
  intro s
  obtain ⟨hA, hB, honly, hfilter⟩ := LineKept.around (o := o) hsplit hpos hlt
  have hsorted := l.sorted
  rw [hsplit] at hsorted
  have hroom := le_sumDelta (List.pairwise_append.mp hsorted).1 (fun a _ => Nat.zero_le a.pos) hA
    (Nat.zero_le e.pos)
  have hsplit' : l.edits = (A ++ [e]) ++ B := by rw [hsplit, List.append_assoc]; rfl
  obtain ⟨-, himage, hs, hnl, hno⟩ := h.from_split hsplit' (c := e.endPos)
    (fun a ha => by
      rcases List.mem_append.mp ha with ha | ha
      · have := hA a ha
        have := e.pos_le_endPos
        omega
      · rw [List.mem_singleton.mp ha])
    hB (Nat.le_of_lt hlt) hend
  have hsum : sumDelta (A ++ [e]) = sumDelta A + e.delta := by
    rw [sumDelta_append, sumDelta_cons, sumDelta_nil, Int.add_zero]
  rw [hsum] at himage hs hno
  have hstart : (s : Int) = e.endPos + sumDelta A + e.delta := by
    simp only [s, Edit.delta, Edit.endPos]
    omega
  have hsame : ((e.endPos : Int) + (sumDelta A + e.delta)).toNat = s := by omega
  rw [hsame] at hs hno
  refine ⟨hs, hnl, hno, hstart, ?_⟩
  constructor
  · rintro ⟨⟨f, hf, hfpos, hflt, hfo, hftext⟩, hshort⟩
    obtain rfl := honly f hf hfpos hflt
    rw [hfilter] at hshort
    exact ⟨hfo, hftext, by omega⟩
  · rintro ⟨ho, htext, hpast⟩
    refine ⟨⟨e, ?_, hpos, hlt, ho, htext⟩, ?_⟩
    · rw [hsplit]
      exact List.mem_append_right _ List.mem_cons_self
    · rw [hfilter]
      omega

theorem atCol_on_line {s nl : Nat} (hnl : m.new[nl]? = some newline) (hno : NoNewline m.new s nl)
    (hs : s ≤ nl) (col : Nat) :
    s ≤ m.atCol s col ∧ m.atCol s col ≤ nl := by
  have hlen := (List.getElem?_eq_some_iff.mp hnl).1
  unfold atCol
  dsimp only
  rw [Nat.min_eq_left (by omega), lineEnd_of_newline hnl hno hs]
  omega

/-- Where the position goes, from what the loop found. -/
def Reach.dest (m : LineMap) (o : Nat) : Reach → Option Nat
  | .reached dest => dest.map (snap m.new)
  | .shifted delta =>
    some (snap m.new
      (m.atCol ((lineStart m.old o : Int) + delta).toNat (o - lineStart m.old o)))

theorem mapOffset_eq (m : LineMap) {o : Nat} (g : LineGravity) (ho : o ≤ m.old.length) :
    m.mapOffset o g =
      (m.reach g o (lineStart m.old o) (lineEnd m.old o)
        (m.edits.drop (editsBefore m.edits (lineStart m.old o)).length)
        (m.prefixDelta (editsBefore m.edits (lineStart m.old o)).length)).dest m o := by
  unfold mapOffset
  rw [Nat.min_eq_left ho]
  rfl

/-- A position sent to `x` stays on its line, but for one that passes the line. -/
def KeepsLine (old : Bytes) (l : EditList) (o x : Nat) : Prop :=
  (l.applyTo old)[newlineImage old l o]? = some newline ∧
    (lineEnd (l.applyTo old) (snap (l.applyTo old) x) = newlineImage old l o ↔
      ¬ PassesLine old l o)

namespace LineKept

variable {old : Bytes} {l : EditList} {o : Nat} (h : LineKept old l o)
include h

/-- Nothing cuts into the line: it starts where the edits above it leave its start. -/
theorem shifted (hsplit : l.edits = A ++ B) (hA : ∀ e ∈ A, e.endPos ≤ lineStart old o)
    (hB : ∀ e ∈ B, lineStart old o ≤ e.pos) :
    KeepsLine old l o (atCol ⟨old, l.applyTo old, l.edits⟩
      ((lineStart old o : Int) + sumDelta A).toNat (o - lineStart old o)) := by
  have hspan := Nat.le_trans (lineStart_le old o) (le_lineEnd old h.inText)
  obtain ⟨-, -, hsle, hnl, hno⟩ := h.from_split hsplit hA hB (Nat.le_refl _) hspan
  have hnot : ¬ PassesLine old l o := by
    rintro ⟨⟨e, he, hpos, hlt, -⟩, -⟩
    rw [hsplit] at he
    rcases List.mem_append.mp he with he | he
    · have := hA e he
      omega
    · have := hB e he
      omega
  have hin := atCol_on_line (m := ⟨old, l.applyTo old, l.edits⟩) hnl hno hsle (o - lineStart old o)
  exact ⟨hnl, iff_of_true
    (lineEnd_snap hnl hno (Nat.le_trans (lineStart_le _ _) hin.1) hin.2) hnot⟩

variable (hsplit : l.edits = A ++ e :: B) (hpos : e.pos < lineStart old o)
  (hlt : lineStart old o < e.endPos) (hend : e.endPos ≤ lineEnd old o)
include hsplit hpos hlt hend

/-- The head of the line above takes the rest of this one. -/
theorem cut (hnil : e.ins = []) (hjoin : ¬ isJoin ⟨old, l.applyTo old, l.edits⟩ e) {start : Nat}
    (hstart : start = lineStart (l.applyTo old) ((e.pos : Int) + sumDelta A).toNat) (col : Nat) :
    KeepsLine old l o (atCol ⟨old, l.applyTo old, l.edits⟩ start col) := by
  obtain ⟨hsle, hnl, hno, -, hpasses⟩ := h.from_cut hsplit hpos hlt hend
  rw [hnil, List.length_nil, Nat.add_zero] at hsle hno
  have hnot : ¬ PassesLine old l o := by
    rw [hpasses]
    rintro ⟨-, htext, -⟩
    rcases htext with htext | htext
    · exact htext hnil
    · exact hjoin htext
  have hstart_le : start ≤ newlineImage old l o := by
    rw [hstart]
    exact Nat.le_trans (lineStart_le _ _) hsle
  have hstart_no : NoNewline (l.applyTo old) start (newlineImage old l o) := by
    rw [hstart]
    exact noNewline_lineStart hno
  have hin := atCol_on_line (m := ⟨old, l.applyTo old, l.edits⟩) hnl hstart_no hstart_le col
  exact ⟨hnl, iff_of_true
    (lineEnd_snap hnl hstart_no (Nat.le_trans (lineStart_le _ _) hin.1) hin.2) hnot⟩

/-- Moved as the edit from above moves it: on the line unless that is past its newline. -/
theorem after (htext : e.ins ≠ [] ∨ isJoin ⟨old, l.applyTo old, l.edits⟩ e) (ho : e.endPos ≤ o) :
    KeepsLine old l o ((o : Int) + sumDelta A + e.delta).toNat := by
  obtain ⟨hsle, hnl, hno, hs, hpasses⟩ := h.from_cut hsplit hpos hlt hend
  refine ⟨hnl, ?_⟩
  rw [hpasses]
  constructor
  · rintro hline ⟨-, -, hpast⟩
    exact lineEnd_snap_past hnl (by omega) hline
  · intro hnot
    refine lineEnd_snap hnl hno (Nat.le_trans (lineStart_le _ _) ?_) ?_
    · omega
    · by_contra hpast
      exact hnot ⟨ho, htext, by omega⟩

/-- Inside the edit from above: behind what it inserts. -/
theorem within (ho : o < e.endPos) :
    KeepsLine old l o (((e.pos : Int) + sumDelta A).toNat + e.ins.length) := by
  obtain ⟨hsle, hnl, hno, -, hpasses⟩ := h.from_cut hsplit hpos hlt hend
  have hnot : ¬ PassesLine old l o := by
    rw [hpasses]
    rintro ⟨hafter, -⟩
    omega
  exact ⟨hnl, iff_of_true (lineEnd_snap hnl hno (lineStart_le _ _) hsle) hnot⟩

end LineKept

/-- **A line's anchor stays with its line, or passes it.** On a line whose newline is
kept the position is sent to the new line that newline ends, but for a position that
passes the line: one that follows an edit running in from above is moved as that edit
moves it, and the other edits on the line are not looked at. -/
theorem mapOffset_keeps_line_iff {old : Bytes} {l : EditList} {o : Nat} (h : LineKept old l o)
    (g : LineGravity) :
    (l.applyTo old)[newlineImage old l o]? = some newline ∧
      ((∃ p, mapOffset ⟨old, l.applyTo old, l.edits⟩ o g = some p ∧
          lineEnd (l.applyTo old) p = newlineImage old l o) ↔ ¬ PassesLine old l o) := by
  set m : LineMap := ⟨old, l.applyTo old, l.edits⟩ with hm
  have hls := lineStart_le old o
  have hle := le_lineEnd old h.inText
  set skipped := editsBefore l.edits (lineStart old o) with hskip
  have hsplit : l.edits = skipped ++ l.edits.drop skipped.length := editsBefore_append _ _
  have hdelta : m.prefixDelta skipped.length = sumDelta skipped := by
    have hpre : skipped <+: l.edits := List.takeWhile_prefix _
    exact congrArg sumDelta (List.prefix_iff_eq_take.mp hpre).symm
  have hrest {e : Edit} (he : e ∈ l.edits.drop skipped.length) : e ∈ l.edits :=
    List.mem_of_mem_drop he
  have hfound := reach_found (m := m) (g := g) (o := o) (sumDelta skipped)
    (l.sorted.sublist (List.drop_sublist skipped.length _)) (Nat.le_trans hls hle)
    (fun k hk hkl => by
      rcases Nat.lt_or_ge k o with hko | hko
      · exact (lineStart_spec old o).2 k hk hko
      · exact (lineEnd_spec h.inText).2 k hko hkl)
    (fun e he => le_endPos_of_drop l.sorted he) (fun e he => h.kept e (hrest he))
    (fun e he => h.none_added e (hrest he)) (fun e he => h.not_taken e (hrest he))
  rw [mapOffset_eq m g h.inText, hdelta]
  generalize m.reach g o (lineStart old o) (lineEnd old o) (l.edits.drop skipped.length)
    (sumDelta skipped) = r at hfound
  -- the edits above the line are those skipped and those of `A`
  have habove {A : List Edit} (hA : ∀ e ∈ A, e.endPos ≤ lineStart old o) :
      ∀ e ∈ skipped ++ A, e.endPos ≤ lineStart old o := by
    intro e he
    rcases List.mem_append.mp he with he | he
    · exact Nat.le_of_lt (endPos_of_editsBefore he)
    · exact hA e he
  have hall {A B : List Edit} (hes : l.edits.drop skipped.length = A ++ B) :
      l.edits = (skipped ++ A) ++ B := by rw [List.append_assoc, ← hes, ← hsplit]
  have hdest {x : Nat} (hx : KeepsLine old l o x) :
      (l.applyTo old)[newlineImage old l o]? = some newline ∧
        ((∃ p, some (snap (l.applyTo old) x) = some p ∧
          lineEnd (l.applyTo old) p = newlineImage old l o) ↔ ¬ PassesLine old l o) := by
    refine ⟨hx.1, ?_⟩
    rw [← hx.2]
    constructor
    · rintro ⟨p, hp, hline⟩
      cases hp
      exact hline
    · intro hline
      exact ⟨_, rfl, hline⟩
  cases hfound with
  | shifted A B hes hA hB =>
    rw [← sumDelta_append]
    exact hdest (h.shifted (hall hes) (habove hA) hB)
  | cut A B e start hes hA hpos hlt hend hnil hjoin hstart =>
    rw [← sumDelta_append] at hstart ⊢
    exact hdest (h.cut (hall hes) hpos hlt hend hnil hjoin hstart _)
  | after A B e hes hA hpos hlt hend htext ho =>
    rw [← sumDelta_append]
    exact hdest (h.after (hall hes) hpos hlt hend htext ho)
  | within A B e hes hA hpos hlt hend htext ho =>
    rw [← sumDelta_append]
    exact hdest (h.within (hall hes) hpos hlt hend ho)

/-- `a`, `bcdef`, `g`: a `Q` in place of the first newline and `bc`, and `de` deleted
further on. -/
def cutAndShortened : Bytes := [97, 10, 98, 99, 100, 101, 102, 10, 103, 10]

def cutAndShorten : EditList :=
  ⟨[.replace 1 3 [81], .delete 4 2], by decide, by decide⟩

theorem lineKept_cutAndShortened : LineKept cutAndShortened cutAndShorten 6 where
  inText := by decide
  inBounds := by decide
  ended := by decide
  kept := by decide
  none_added := by decide
  not_taken := by decide

/-- The `f` after both edits is sent to the `g` of the next line. -/
theorem mapOffset_leaves_line :
    ¬ ∀ (old : Bytes) (l : EditList) (o : Nat) (g : LineGravity), LineKept old l o →
      ∃ p, mapOffset ⟨old, l.applyTo old, l.edits⟩ o g = some p ∧
        lineEnd (l.applyTo old) p = newlineImage old l o := by
  intro hall
  obtain ⟨p, hp, hline⟩ := hall _ _ _ .keep lineKept_cutAndShortened
  have hmap : mapOffset ⟨cutAndShortened, cutAndShorten.applyTo cutAndShortened,
      cutAndShorten.edits⟩ 6 .keep = some 4 := by decide
  rw [hmap] at hp
  cases hp
  exact absurd hline (by decide)

/-- There the rule says which: the `f` passes its line. -/
theorem mapOffset_keeps_line_iff_cut :
    (cutAndShorten.applyTo cutAndShortened)[newlineImage cutAndShortened cutAndShorten 6]? =
        some newline ∧
      ((∃ p, mapOffset ⟨cutAndShortened, cutAndShorten.applyTo cutAndShortened,
          cutAndShorten.edits⟩ 6 .keep = some p ∧
          lineEnd (cutAndShorten.applyTo cutAndShortened) p =
            newlineImage cutAndShortened cutAndShorten 6) ↔
        ¬ PassesLine cutAndShortened cutAndShorten 6) :=
  mapOffset_keeps_line_iff lineKept_cutAndShortened .keep

end LineMap

end Ruse.Core
