import Mathlib.Data.List.TakeWhile
import Ruse.Core.Pos

/-!
# Lines and what they share

What `lineStart` and `lineEnd` find, and that a line which two texts share has the
same character boundaries in both (`SameLine.isBoundary`): no character goes past a
newline, so none that covers a byte of the line starts before it or ends after it.
-/

namespace Ruse.Core

/-! ## The ends of a line -/

/-- No newline from `i` up to `j`. -/
def NoNewline (b : Bytes) (i j : Nat) : Prop := ∀ k, i ≤ k → k < j → b[k]? ≠ some newline

/-- A line starts at `i`. -/
def StartsLine (b : Bytes) (i : Nat) : Prop := i = 0 ∨ b[i - 1]? = some newline

/-- A line ends at `i`. -/
def EndsLine (b : Bytes) (i : Nat) : Prop := i = b.length ∨ b[i]? = some newline

theorem tail_split (t : Bytes) : ∃ front tail, t = front ++ tail ∧
    tail.length = Edit.tailLength t ∧ (∀ c ∈ tail, c ≠ newline) ∧
      (front = [] ∨ front.getLast? = some newline) := by
  refine ⟨(t.reverse.dropWhile (· != newline)).reverse, (t.reverse.takeWhile (· != newline)).reverse,
    ?_, by simp [Edit.tailLength], ?_, ?_⟩
  · rw [← List.reverse_append, List.takeWhile_append_dropWhile, List.reverse_reverse]
  · intro c hc
    have h := List.mem_takeWhile_imp (List.mem_reverse.mp hc)
    simpa using h
  · rw [List.getLast?_reverse]
    cases hd : t.reverse.dropWhile (· != newline) with
    | nil => exact .inl rfl
    | cons c rest =>
      refine .inr ?_
      have h := List.head_dropWhile_not (· != newline) (l := t.reverse) (by simp [hd])
      simp only [hd, List.head_cons] at h
      simpa using h

/-- The start found is one of a line, with no newline up to the position. -/
theorem lineStart_spec (b : Bytes) (p : Nat) :
    StartsLine b (lineStart b p) ∧ NoNewline b (lineStart b p) p := by
  obtain ⟨front, tail, hsplit, hlen, htail, hfront⟩ := tail_split (b.take p)
  have hstart : lineStart b p = front.length := by
    show (b.take p).length - Edit.tailLength (b.take p) = _
    rw [← hlen, hsplit, List.length_append, Nat.add_sub_cancel]
  have hget (k : Nat) (hk : k < p) : b[k]? = (front ++ tail)[k]? := by
    rw [← hsplit, List.getElem?_take_of_lt hk]
  rw [hstart]
  constructor
  · rcases hfront with hnil | hlast
    · exact .inl (by rw [hnil]; rfl)
    · refine .inr ?_
      have hpos : 0 < front.length := by
        cases front with
        | nil => cases hlast
        | cons c rest => exact Nat.succ_pos _
      have hle : front.length ≤ p := by
        rw [← hstart]
        exact lineStart_le b p
      rw [hget _ (by omega), List.getElem?_append_left (by omega), ← List.getLast?_eq_getElem?, hlast]
  · intro k hk hkp hnl
    rw [hget k hkp, List.getElem?_append_right hk] at hnl
    exact htail _ (List.mem_of_getElem? hnl) rfl

theorem lineStart_eq {b : Bytes} {p ls : Nat} (hle : ls ≤ p) (hstart : StartsLine b ls)
    (hno : NoNewline b ls p) : lineStart b p = ls := by
  obtain ⟨hs, hns⟩ := lineStart_spec b p
  have hsp := lineStart_le b p
  rcases Nat.lt_trichotomy (lineStart b p) ls with hlt | heq | hgt
  · rcases hstart with hzero | hnl
    · omega
    · exact absurd hnl (hns _ (by omega) (by omega))
  · exact heq
  · rcases hs with hzero | hnl
    · omega
    · exact absurd hnl (hno _ (by omega) (by omega))

/-- The end found is one of a line, with no newline from the position on. -/
theorem lineEnd_spec {b : Bytes} {p : Nat} (hp : p ≤ b.length) :
    EndsLine b (lineEnd b p) ∧ NoNewline b p (lineEnd b p) := by
  have hend : lineEnd b p = p + ((b.drop p).takeWhile (· != newline)).length := by
    show min p b.length + ((b.drop (min p b.length)).takeWhile (· != newline)).length = _
    rw [Nat.min_eq_left hp]
  have hget (k : Nat) : b[p + k]? = ((b.drop p).takeWhile (· != newline) ++
      (b.drop p).dropWhile (· != newline))[k]? := by
    rw [List.takeWhile_append_dropWhile, List.getElem?_drop]
  rw [hend]
  constructor
  · cases hd : (b.drop p).dropWhile (· != newline) with
    | nil =>
      refine .inl ?_
      have hall := List.takeWhile_append_dropWhile (p := (· != newline)) (l := b.drop p)
      rw [hd, List.append_nil] at hall
      rw [hall, List.length_drop]
      omega
    | cons c rest =>
      refine .inr ?_
      have h := List.head_dropWhile_not (· != newline) (l := b.drop p) (by simp [hd])
      simp only [hd, List.head_cons] at h
      rw [hget, hd, List.getElem?_append_right (Nat.le_refl _), Nat.sub_self]
      simpa using h
  · intro k hk hlt hnl
    obtain ⟨j, rfl⟩ := Nat.exists_eq_add_of_le hk
    rw [hget, List.getElem?_append_left (by omega)] at hnl
    have h := List.mem_takeWhile_imp (List.mem_of_getElem? hnl)
    simp at h

theorem lineEnd_eq {b : Bytes} {p le : Nat} (hle : p ≤ le) (hlen : le ≤ b.length)
    (hend : EndsLine b le) (hno : NoNewline b p le) : lineEnd b p = le := by
  have hp : p ≤ b.length := by omega
  obtain ⟨hs, hns⟩ := lineEnd_spec hp
  have hpl := le_lineEnd b hp
  have hlen' := lineEnd_le_length b p
  rcases Nat.lt_trichotomy (lineEnd b p) le with hlt | heq | hgt
  · rcases hs with hstop | hnl
    · omega
    · exact absurd hnl (hno _ hpl hlt)
  · exact heq
  · rcases hend with hstop | hnl
    · omega
    · exact absurd hnl (hns _ hle hgt)

theorem lineStart_mono (b : Bytes) {p q : Nat} (h : p ≤ q) : lineStart b p ≤ lineStart b q := by
  by_contra hlt
  obtain ⟨hs, -⟩ := lineStart_spec b p
  have hp := lineStart_le b p
  rcases hs with hzero | hnl
  · omega
  · exact (lineStart_spec b q).2 _ (by omega) (by omega) hnl

/-! ## Characters -/

/-- A line start is known by the number of newlines before it. -/
theorem startsLine_unique {b : Bytes} {s s' : Nat} (hs : StartsLine b s) (hs' : StartsLine b s')
    (hlen : s ≤ b.length) (hlen' : s' ≤ b.length)
    (h : countNewlines (b.take s) = countNewlines (b.take s')) : s = s' := by
  have hlt {x y : Nat} (hy : StartsLine b y) (hxy : x < y) (hylen : y ≤ b.length) :
      countNewlines (b.take x) < countNewlines (b.take y) := by
    rcases hy with rfl | hnl
    · omega
    · have hstep : b.take y = b.take (y - 1) ++ [newline] := by
        obtain ⟨k, rfl⟩ : ∃ k, y = k + 1 := ⟨y - 1, by omega⟩
        rw [List.take_add_one]
        simp only [Nat.add_sub_cancel] at hnl ⊢
        rw [hnl]
        rfl
      have hsub : (b.take x).Sublist (b.take (y - 1)) := by
        have := List.take_sublist x (b.take (y - 1))
        rwa [List.take_take, Nat.min_eq_left (by omega)] at this
      have := hsub.count_le newline
      simp only [countNewlines, hstep, List.count_append, List.count_singleton_self]
      omega
  rcases Nat.lt_trichotomy s s' with hlt' | heq | hgt
  · have := hlt hs' hlt' hlen'
    omega
  · exact heq
  · have := hlt hs hgt hlen
    omega

theorem slice_eq_of_getElem? {b b' : Bytes} {i i' n : Nat} (h : ∀ k < n, b'[i' + k]? = b[i + k]?) :
    slice b' i' (i' + n) = slice b i (i + n) := by
  refine List.ext_getElem? fun k => ?_
  simp only [slice, Nat.add_sub_cancel_left, List.getElem?_take, List.getElem?_drop]
  split
  · exact h k ‹_›
  · rfl

/-- What `find?` finds in a range walked down: the last number that passes. -/
theorem find?_reverse_range' (pred : Nat → Bool) (lo n j : Nat) :
    (List.range' lo n).reverse.find? pred = some j ↔
      pred j = true ∧ lo ≤ j ∧ j < lo + n ∧ ∀ k, j < k → k < lo + n → pred k = false := by
  induction n with
  | zero =>
    simp only [List.range'_zero, List.reverse_nil, List.find?_nil, reduceCtorEq, false_iff]
    omega
  | succ n ih =>
    rw [List.range'_1_concat, List.reverse_append, List.reverse_singleton, List.singleton_append,
      List.find?_cons]
    cases hp : pred (lo + n) with
    | true =>
      simp only [Option.some.injEq]
      constructor
      · rintro rfl
        exact ⟨hp, by omega, by omega, fun k hk hlt => by omega⟩
      · rintro ⟨hpj, hlo, hlt, habove⟩
        by_contra hne
        have := habove (lo + n) (by omega) (by omega)
        rw [hp] at this
        cases this
    | false =>
      rw [ih]
      constructor
      · rintro ⟨hpj, hlo, hlt, habove⟩
        refine ⟨hpj, hlo, by omega, fun k hk hkn => ?_⟩
        rcases Nat.lt_or_ge k (lo + n) with hk' | hk'
        · exact habove k hk hk'
        · rw [show k = lo + n by omega, hp]
      · rintro ⟨hpj, hlo, hlt, habove⟩
        have hne : j ≠ lo + n := by
          rintro rfl
          rw [hp] at hpj
          cases hpj
        exact ⟨hpj, hlo, by omega, fun k hk hkn => habove k hk (by omega)⟩

/-- Where a position is strictly inside a character: it holds a continuation byte, and
the character that starts at the last byte before it that is none goes past it. -/
theorem insideChar_iff {b : Bytes} {i : Nat} : insideChar b i = true ↔
    0 < i ∧ i < b.length ∧ isContinuation (b.getD i 0) = true ∧
      ∃ j w, i - 3 ≤ j ∧ j < i ∧ isContinuation (b.getD j 0) = false ∧
        (∀ k, j < k → k < i → isContinuation (b.getD k 0) = true) ∧
        charLenAt b j = some w ∧ i < j + w := by
  unfold insideChar
  split
  · rename_i hout
    simp only [Bool.false_eq_true, false_iff]
    rintro ⟨hpos, hlt, hcont, -⟩
    rcases hout with hzero | hend | hnot
    · omega
    · omega
    · exact hnot hcont
  · rename_i hin
    simp only [not_or, not_not, ge_iff_le, Nat.not_le] at hin
    have hrange : i - 3 + (i - (i - 3)) = i := by omega
    split
    · rename_i j hj
      obtain ⟨hpj, hlo, hlt, habove⟩ := (find?_reverse_range' _ _ _ _).mp hj
      rw [hrange] at hlt habove
      simp only [Bool.not_eq_true', Bool.not_eq_false'] at hpj habove
      constructor
      · intro hany
        obtain ⟨w, hw, hpast⟩ := Option.any_eq_true _ _ |>.mp hany
        exact ⟨Nat.pos_of_ne_zero hin.1, hin.2.1, hin.2.2, j, w, hlo, hlt, hpj, habove, hw,
          of_decide_eq_true hpast⟩
      · rintro ⟨-, -, -, j', w, hlo', hlt', hpj', habove', hw, hpast⟩
        have hsame : j' = j := by
          rcases Nat.lt_trichotomy j' j with h | h | h
          · rw [habove' j h hlt] at hpj
            cases hpj
          · exact h
          · rw [habove j' h hlt'] at hpj'
            cases hpj'
        rw [hsame] at hw hpast
        rw [hw]
        exact decide_eq_true hpast
    · rename_i hnone
      simp only [Bool.false_eq_true, false_iff]
      rintro ⟨-, -, -, j, w, hlo, hlt, hpj, habove, -⟩
      have hfound := (find?_reverse_range' (fun j => !isContinuation (b.getD j 0))
        (i - 3) (i - (i - 3)) j).mpr
        ⟨by rw [hpj]; rfl, hlo, by omega, fun k hk hkn => by rw [habove k hk (by omega)]; rfl⟩
      rw [hnone] at hfound
      cases hfound

/-- A character of more than one byte: its lead is no newline, the bytes after the
lead are none either, and it is one wherever its bytes stand. -/
theorem charLenAt_carried {b : Bytes} {j w : Nat} (h : charLenAt b j = some w) (hw : 1 < w) :
    b[j]? ≠ some newline ∧ j + w ≤ b.length ∧ (∀ k, j < k → k < j + w → b[k]? ≠ some newline) ∧
      ∀ (b' : Bytes) (j' : Nat), (∀ k < w, b'[j' + k]? = b[j + k]?) → charLenAt b' j' = some w := by
  unfold charLenAt at h
  cases hlead : b[j]? with
  | none =>
    rw [hlead] at h
    cases h
  | some lead =>
    rw [hlead] at h
    change (if lead ≤ 0x7F then some 1 else _) = some w at h
    by_cases hascii : lead ≤ 0x7F
    · rw [if_pos hascii] at h
      cases h
      omega
    · rw [if_neg hascii] at h
      cases hclass : leadClass lead with
      | none =>
        rw [hclass] at h
        cases h
      | some cls =>
        obtain ⟨w', lo, hi⟩ := cls
        rw [hclass] at h
        have hlo : ¬ lo ≤ newline := by
          unfold leadClass at hclass
          revert hclass
          split_ifs <;> (intro hclass; cases hclass <;> decide)
        dsimp only [bind, Option.bind] at h
        cases hslice : slice b (j + 1) (j + w') with
        | nil =>
          rw [hslice] at h
          cases h
        | cons second others =>
          rw [hslice] at h
          dsimp only at h
          split at h
          · rename_i hchar
            cases h
            obtain ⟨hlen, hslo, hshi, hall⟩ := hchar
            have hnext : j + 1 + (w - 1) = j + w := by omega
            refine ⟨?_, hlen, ?_, ?_⟩
            · intro hnl
              cases hnl
              exact hascii (by decide)
            · intro k hk hkw hnl
              have hmem : newline ∈ slice b (j + 1) (j + w) := by
                refine List.mem_of_getElem? (i := k - (j + 1)) ?_
                rw [slice, List.getElem?_take_of_lt (by omega), List.getElem?_drop,
                  show j + 1 + (k - (j + 1)) = k by omega, hnl]
              rw [hslice] at hmem
              rcases List.mem_cons.mp hmem with heq | hmem
              · exact hlo (heq ▸ hslo)
              · have := List.all_eq_true.mp hall _ hmem
                revert this
                decide
            · intro b' j' hsame
              have hlead' : b'[j']? = some lead := by
                have := hsame 0 (by omega)
                rwa [Nat.add_zero, Nat.add_zero, hlead] at this
              have hslice' : slice b' (j' + 1) (j' + w) = second :: others := by
                rw [← hslice, ← hnext, show j' + w = j' + 1 + (w - 1) by omega]
                refine slice_eq_of_getElem? fun k hk => ?_
                have := hsame (k + 1) (by omega)
                rw [show j' + 1 + k = j' + (k + 1) by omega, this]
                congr 1
                omega
              have hlen' : j' + w ≤ b'.length := by
                have hlast := hsame (w - 1) (by omega)
                rw [List.getElem?_eq_getElem (show j + (w - 1) < b.length by omega)] at hlast
                have := (List.getElem?_eq_some_iff.mp hlast).1
                omega
              unfold charLenAt
              rw [hlead']
              change (if lead ≤ 0x7F then some 1 else _) = some w
              rw [if_neg hascii, hclass]
              dsimp only [bind, Option.bind]
              rw [hslice']
              exact if_pos ⟨hlen', hslo, hshi, hall⟩
          · cases h

/-! ## A line two texts share -/

/-- The line `[ls, ls + n]` of `b` is the line `[ls', ls' + n]` of `b'`, and a newline
stands before both or neither. -/
structure SameLine (b b' : Bytes) (ls ls' n : Nat) : Prop where
  bytes : ∀ k ≤ n, b'[ls' + k]? = b[ls + k]?
  inner : NoNewline b ls (ls + n)
  stop : EndsLine b (ls + n)
  stop' : EndsLine b' (ls' + n)
  start : (ls = 0 ∧ ls' = 0) ∨
    (0 < ls ∧ 0 < ls' ∧ b[ls - 1]? = some newline ∧ b'[ls' - 1]? = some newline)

namespace SameLine

variable {b b' : Bytes} {ls ls' n : Nat}

theorem symm (h : SameLine b b' ls ls' n) : SameLine b' b ls' ls n where
  bytes k hk := (h.bytes k hk).symm
  inner k hk hlt := by
    obtain ⟨i, rfl⟩ := Nat.exists_eq_add_of_le hk
    rw [h.bytes i (by omega)]
    exact h.inner _ (by omega) (by omega)
  stop := h.stop'
  stop' := h.stop
  start := h.start.imp And.symm fun ⟨h1, h2, h3, h4⟩ => ⟨h2, h1, h4, h3⟩

theorem length_le (h : SameLine b b' ls ls' n) : ls + n ≤ b.length := by
  rcases h.stop with heq | hnl
  · omega
  · have := (List.getElem?_eq_some_iff.mp hnl).1
    omega

theorem getD (h : SameLine b b' ls ls' n) {k : Nat} (hk : k ≤ n) :
    b'.getD (ls' + k) 0 = b.getD (ls + k) 0 := by
  rw [List.getD_eq_getElem?_getD, List.getD_eq_getElem?_getD, h.bytes k hk]

/-- A position inside a character of the line is inside one in the other text. -/
theorem insideChar (h : SameLine b b' ls ls' n) {c : Nat} (hc : c ≤ n)
    (hin : insideChar b (ls + c) = true) : insideChar b' (ls' + c) = true := by
  obtain ⟨hpos, hlt, hcont, j, w, hlo, hji, hpj, habove, hw, hpast⟩ := insideChar_iff.mp hin
  have hnot : isContinuation newline = false := by decide
  obtain ⟨hjnl, hjw, hrest, hcarry⟩ := charLenAt_carried hw (by omega)
  -- the character starts on the line: the newline before it is no continuation byte
  have hj : ls ≤ j := by
    by_contra hbefore
    rcases h.start with ⟨hzero, -⟩ | ⟨hls, -, hnl, -⟩
    · omega
    · rcases Nat.lt_or_ge j (ls - 1) with hfar | hnear
      · have hcover := habove (ls - 1) hfar (by omega)
        rw [List.getD_eq_getElem?_getD, hnl] at hcover
        cases hnot.symm.trans hcover
      · rw [show j = ls - 1 by omega] at hjnl
        exact hjnl hnl
  -- and ends on it
  have hend : j + w ≤ ls + n := by
    by_contra hover
    rcases h.stop with heq | hnl
    · omega
    · exact hrest (ls + n) (by omega) (by omega) hnl
  obtain ⟨i, rfl⟩ := Nat.exists_eq_add_of_le hj
  have hlen' := h.symm.length_le
  refine insideChar_iff.mpr ⟨by omega, by omega, ?_, ls' + i, w, by omega, by omega, ?_, ?_, ?_,
    by omega⟩
  · rwa [h.getD hc]
  · rwa [h.getD (by omega)]
  · intro k hk hkc
    obtain ⟨m, rfl⟩ := Nat.exists_eq_add_of_le (show ls' ≤ k by omega)
    rw [h.getD (by omega)]
    exact habove _ (by omega) (by omega)
  · refine hcarry b' (ls' + i) fun k hk => ?_
    rw [Nat.add_assoc, Nat.add_assoc]
    exact h.bytes (i + k) (by omega)

/-- The shared line has the same boundaries. -/
theorem isBoundary (h : SameLine b b' ls ls' n) {c : Nat} (hc : c ≤ n)
    (hb : isBoundary b (ls + c) = true) : isBoundary b' (ls' + c) = true := by
  simp only [Core.isBoundary, Bool.or_eq_true, beq_iff_eq, Bool.not_eq_true'] at hb ⊢
  refine .inr (Bool.eq_false_iff.mpr fun hin' => ?_)
  have hin := h.symm.insideChar hc hin'
  obtain ⟨hpos, hlt, -⟩ := insideChar_iff.mp hin
  rcases hb with (hzero | hend) | hnot
  · omega
  · omega
  · rw [hin] at hnot
    cases hnot

end SameLine

end Ruse.Core
