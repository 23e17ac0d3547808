import Ruse.Core.SortReaders

/-!
# Numeric `:sort` keys are read safely

A reader that goes over digits reads a prefix: cut where it stopped the text reads the same
(`runEnd_take`, `expEnd_take`, `mantissaEnd_take`), and it stops past a byte of ASCII, which
is a boundary. So the readers slice at boundaries, but for the three bytes compared with
`inf` and `nan`: those need not be whole characters (`readsKey_iff`). The keys that are read are
ordered (`compareLines_trans`).
-/

namespace Ruse.Core

/-! ## Runs -/

section
variable {p : UInt8 → Bool} {s : Bytes} {i j n : Nat}

theorem le_runEnd (p : UInt8 → Bool) (s : Bytes) (i : Nat) : i ≤ runEnd p s i := Nat.le_add_right _ _

theorem runEnd_le (h : i ≤ s.length) : runEnd p s i ≤ s.length := by
  have hlen := (List.takeWhile_prefix p (l := s.drop i)).length_le
  rw [List.length_drop] at hlen
  unfold runEnd
  omega

theorem runEnd_mem (hi : i ≤ j) (hj : j < runEnd p s i) : ∃ c, s[j]? = some c ∧ p c = true := by
  have hlt : j - i < ((s.drop i).takeWhile p).length := by
    unfold runEnd at hj
    omega
  refine ⟨_, ?_, List.mem_takeWhile_imp (List.getElem_mem hlt)⟩
  have hpre := (List.takeWhile_prefix p (l := s.drop i)).getElem hlt
  rw [hpre, List.getElem_drop]
  simp only [Nat.add_sub_cancel' hi]
  exact List.getElem?_eq_getElem _

theorem takeWhile_take {α : Type*} {p : α → Bool} {l : List α} (h : (l.takeWhile p).length ≤ n) :
    (l.take n).takeWhile p = l.takeWhile p := by
  induction l generalizing n with
  | nil => simp
  | cons c l ih =>
    cases hc : p c with
    | false => cases n <;> simp [hc]
    | true =>
      rw [List.takeWhile_cons, if_pos hc] at h ⊢
      obtain ⟨n, rfl⟩ : ∃ m, n = m + 1 := ⟨n - 1, by rw [List.length_cons] at h; omega⟩
      rw [List.length_cons] at h
      rw [List.take_succ_cons, List.takeWhile_cons, if_pos hc, ih (by omega)]

/-- A run that ends in a prefix is the same there. -/
theorem runEnd_take (h : runEnd p s i ≤ n) : runEnd p (s.take n) i = runEnd p s i := by
  have hlen : ((s.drop i).takeWhile p).length ≤ n - i := by
    unfold runEnd at h
    omega
  rw [runEnd, runEnd, List.drop_take, takeWhile_take hlen]

theorem le_afterSign (s : Bytes) (k : Nat) : k ≤ afterSign s k := by
  unfold afterSign
  split <;> omega

theorem le_fracEnd (p : UInt8 → Bool) (s : Bytes) (j : Nat) : j ≤ fracEnd p s j := by
  unfold fracEnd
  split
  · exact Nat.le_trans (Nat.le_succ j) (le_runEnd p s _)
  · exact Nat.le_refl j

theorem le_mantissaEnd (p : UInt8 → Bool) (s : Bytes) (i : Nat) : i ≤ mantissaEnd p s i :=
  Nat.le_trans (le_runEnd p s i) (le_fracEnd p s _)

theorem expEnd_cases (mark : UInt8 → Bool) (s : Bytes) (j : Nat) :
    expEnd mark s j = j ∨
    ((s[j]?).any mark = true ∧ afterSign s (j + 1) < expEnd mark s j ∧
      expEnd mark s j = runEnd isDigit s (afterSign s (j + 1))) := by
  unfold expEnd
  dsimp only
  split
  · rename_i h
    rw [Bool.and_eq_true, decide_eq_true_eq] at h
    exact .inr ⟨h.1, h.2, rfl⟩
  · exact .inl rfl

theorem le_expEnd (mark : UInt8 → Bool) (s : Bytes) (j : Nat) : j ≤ expEnd mark s j := by
  rcases expEnd_cases mark s j with heq | ⟨-, hlt, -⟩
  · rw [heq]
  · have := le_afterSign s (j + 1)
    omega

/-! ## Readings of a prefix -/

theorem fracEnd_take (h : fracEnd p s j ≤ n) : fracEnd p (s.take n) j = fracEnd p s j := by
  unfold fracEnd at h ⊢
  rw [List.getElem?_take]
  by_cases hdot : s[j]? = some 46
  · rw [if_pos hdot] at h ⊢
    have hlt : j < n := Nat.lt_of_lt_of_le (le_runEnd p s (j + 1)) h
    rw [if_pos hlt, if_pos hdot, runEnd_take h]
  · rw [if_neg hdot, if_neg]
    split
    · exact hdot
    · exact fun h => by cases h

theorem mantissaEnd_take (h : mantissaEnd p s i ≤ n) :
    mantissaEnd p (s.take n) i = mantissaEnd p s i ∧ hasDigit p (s.take n) i = hasDigit p s i ∧
      runEnd p (s.take n) i = runEnd p s i := by
  have hrun := runEnd_take (Nat.le_trans (le_fracEnd p s _) h)
  have hend : mantissaEnd p (s.take n) i = mantissaEnd p s i := by
    rw [mantissaEnd, hrun]
    exact fracEnd_take h
  exact ⟨hend, by rw [hasDigit, hrun, hend]; rfl, hrun⟩

theorem afterSign_take (h : afterSign s j < n) : afterSign (s.take n) j = afterSign s j := by
  have hlt := Nat.lt_of_le_of_lt (le_afterSign s j) h
  unfold afterSign
  rw [List.getElem?_take_of_lt hlt]

theorem expEnd_take (mark : UInt8 → Bool) (s : Bytes) (j : Nat) :
    expEnd mark (s.take (expEnd mark s j)) j = expEnd mark s j := by
  rcases expEnd_cases mark s j with heq | ⟨hmark, hlt, heq⟩
  · rw [heq, expEnd, List.getElem?_take, if_neg (Nat.lt_irrefl j)]
    rfl
  · have hj := le_afterSign s (j + 1)
    rw [expEnd, List.getElem?_take_of_lt (by omega), hmark, afterSign_take hlt, runEnd_take (Nat.le_of_eq heq.symm),
      ← heq, Bool.true_and, if_pos (by simpa using hlt)]

end

/-! ## Boundaries -/

section
variable {p : UInt8 → Bool} {t : Bytes} {i j n : Nat}

theorem boundary_of_ascii (hv : ValidUtf8 t) {c : UInt8} (h : t[j]? = some c) (hc : c ≤ 0x7F) :
    IsCharBoundary t j ∧ IsCharBoundary t (j + 1) := by
  have hchar : charLenAt t j = some 1 := charLenAt_eq_one.mpr ⟨c, h, hc⟩
  have hj : IsCharBoundary t j :=
    .inr (.inr ⟨(List.getElem?_eq_some_iff.mp h).1, (charLenAt_spec hchar).2.2.2.1⟩)
  exact ⟨hj, hv.boundary_of_scans hj (.char hchar (.refl _))⟩

theorem boundary_runEnd (hv : ValidUtf8 t) (hp : ∀ c, p c = true → c ≤ 0x7F) (hi : IsCharBoundary t i) :
    IsCharBoundary t (runEnd p t i) := by
  rcases Nat.eq_or_lt_of_le (le_runEnd p t i) with heq | hlt
  · rwa [← heq]
  · obtain ⟨c, hc, hpc⟩ := runEnd_mem (Nat.le_sub_one_of_lt hlt) (Nat.sub_lt (by omega) Nat.one_pos)
    have hb := (boundary_of_ascii hv hc (hp c hpc)).2
    rwa [Nat.sub_add_cancel (by omega)] at hb

theorem boundary_mantissaEnd (hv : ValidUtf8 t) (hp : ∀ c, p c = true → c ≤ 0x7F)
    (hi : IsCharBoundary t i) : IsCharBoundary t (mantissaEnd p t i) := by
  unfold mantissaEnd fracEnd
  split
  · rename_i hdot
    exact boundary_runEnd hv hp (boundary_of_ascii hv hdot (by decide)).2
  · exact boundary_runEnd hv hp hi

theorem isDigit_ascii (c : UInt8) (h : isDigit c = true) : c ≤ 0x7F := by
  simp only [isDigit, Bool.and_eq_true, decide_eq_true_eq] at h
  exact Nat.le_trans h.2 (by decide)

theorem isHexDigit_ascii (c : UInt8) (h : isHexDigit c = true) : c ≤ 0x7F := by
  simp only [isHexDigit, Bool.or_eq_true, Bool.and_eq_true, decide_eq_true_eq] at h
  rcases h with (h | h) | h
  · exact isDigit_ascii c h
  · exact Nat.le_trans h.2 (by decide)
  · exact Nat.le_trans h.2 (by decide)

theorem asciiLower_ascii {c d : UInt8} (h : asciiLower c = d) (hd : d ≤ 0x7F) : c ≤ 0x7F := by
  unfold asciiLower at h
  split at h
  · rename_i hup
    exact Nat.le_trans hup.2 (by decide)
  · rwa [h]

theorem boundary_afterSign (hv : ValidUtf8 t) (hi : IsCharBoundary t i) :
    IsCharBoundary t (afterSign t i) := by
  unfold afterSign
  split
  · rename_i hsign
    obtain ⟨c, hc, hsign⟩ := (Option.any_eq_true _ _).mp hsign
    simp only [isSign, Bool.or_eq_true, beq_iff_eq] at hsign
    refine (boundary_of_ascii hv hc ?_).2
    rcases hsign with rfl | rfl
    · decide
    · decide
  · exact hi

theorem boundary_expEnd (hv : ValidUtf8 t) {mark : UInt8 → Bool} (hmark : ∀ c, mark c = true → c ≤ 0x7F)
    (hj : IsCharBoundary t j) : IsCharBoundary t (expEnd mark t j) ∧
      (j < expEnd mark t j → afterSign t (j + 1) ≤ expEnd mark t j ∧
        IsCharBoundary t (afterSign t (j + 1))) := by
  rcases expEnd_cases mark t j with heq | ⟨hat, hlt, heq⟩
  · rw [heq]
    exact ⟨hj, fun h => absurd h (Nat.lt_irrefl j)⟩
  · obtain ⟨c, hc, hm⟩ := (Option.any_eq_true _ _).mp hat
    have hstart := boundary_afterSign hv (boundary_of_ascii hv hc (hmark c hm)).2
    refine ⟨?_, fun _ => ⟨Nat.le_of_lt hlt, hstart⟩⟩
    rw [heq]
    exact boundary_runEnd hv isDigit_ascii hstart

theorem boundary_take (hn : n ≤ t.length) (hi : IsCharBoundary t i) (hin : i ≤ n) :
    IsCharBoundary (t.take n) i := by
  have hlen : (t.take n).length = n := by rw [List.length_take, Nat.min_eq_left hn]
  rcases Nat.eq_or_lt_of_le hin with heq | hlt
  · exact .inr (.inl (by rw [heq, hlen]))
  · rcases hi with hzero | hend | ⟨-, hlead⟩
    · exact .inl hzero
    · omega
    · refine .inr (.inr ⟨by omega, ?_⟩)
      rwa [List.getD_eq_getElem?_getD, List.getElem?_take_of_lt hlt, ← List.getD_eq_getElem?_getD]

theorem slice_take (h : j ≤ n) : slice (t.take n) i j = slice t i j := by
  rw [slice, slice, List.drop_take, List.take_take, Nat.min_eq_left (by omega)]

theorem strSlice_take (hn : n ≤ t.length) (hij : i ≤ j) (hi : IsCharBoundary t i)
    (hj : IsCharBoundary t j) (hjn : j ≤ n) : strSlice (t.take n) i j = some (slice t i j) := by
  rw [strSlice_some hij (boundary_take hn hi (by omega)) (boundary_take hn hj hjn), slice_take hjn]

theorem valid_drop (hv : ValidUtf8 t) (hi : IsCharBoundary t i) : ValidUtf8 (t.drop i) := by
  have h := (hv.cut hi).2.slice (Nat.le_refl i) (Nat.le_refl t.length)
  rw [Nat.sub_self] at h
  refine validUtf8_iff.mpr ?_
  have hdrop : slice t i t.length = t.drop i := by
    rw [slice, List.take_of_length_le (by rw [List.length_drop])]
  rwa [hdrop, ← List.length_drop] at h

end

/-! ## `strtod` -/

section
variable {F : Type} (fl : Floats F) {t : Bytes} {i n : Nat} {sign : F}

theorem parseI32_nonneg (s : Bytes) : 0 ≤ parseI32 s := by
  unfold parseI32
  dsimp only
  split
  · exact Int.natCast_nonneg _
  · decide

variable (sign) in
/-- Digits that an ASCII mark follows, read: to where, and the same from what was read. -/
theorem decimalFloat_spec (hv : ValidUtf8 t) (hi : IsCharBoundary t i) :
    ∃ x n, decimalFloat fl t i sign = some (x, n) ∧ n ≤ t.length ∧ IsCharBoundary t n ∧
      ((n = 0 ∧ x = fl.ofNat 0) ∨ (i < n ∧ decimalFloat fl (t.take n) i sign = some (x, n))) := by
  unfold decimalFloat
  cases hdigit : hasDigit isDigit t i with
  | false => exact ⟨fl.ofNat 0, 0, rfl, Nat.zero_le _, .inl rfl, .inl ⟨rfl, rfl⟩⟩
  | true =>
    have hmantissa := boundary_mantissaEnd hv isDigit_ascii hi
    have hmark : ∀ c, (asciiLower c == 101) = true → c ≤ 0x7F := fun c hc =>
      asciiLower_ascii (beq_iff_eq.mp hc) (by decide)
    have hstop := (boundary_expEnd hv hmark hmantissa).1
    have hlt : i < mantissaEnd isDigit t i := by
      have := le_fracEnd isDigit t (runEnd isDigit t i)
      have := le_runEnd isDigit t i
      simp only [hasDigit, Bool.or_eq_true, decide_eq_true_eq] at hdigit
      unfold mantissaEnd at hdigit ⊢
      omega
    have hle := le_expEnd (asciiLower · == 101) t (mantissaEnd isDigit t i)
    have htake := expEnd_take (asciiLower · == 101) t (mantissaEnd isDigit t i)
    obtain ⟨hm, hd, -⟩ := mantissaEnd_take hle
    dsimp only
    rw [if_pos rfl, strSlice_some (by omega) hi hstop]
    refine ⟨_, _, rfl, hstop.le, hstop, .inr ⟨by omega, ?_⟩⟩
    rw [hd, hdigit, if_pos rfl, hm, htake, strSlice_take hstop.le (by omega) hi hstop (Nat.le_refl _)]
    rfl

/-- An exponent is read off the digits before its end, and is no less than `-i32::MAX`. -/
theorem hexExponent_spec (hv : ValidUtf8 t) {k : Nat} (hk : IsCharBoundary t k) :
    ∃ e, hexExponent t k (expEnd (asciiLower · == 112) t k) = some e ∧
      hexExponent (t.take (expEnd (asciiLower · == 112) t k)) k (expEnd (asciiLower · == 112) t k) =
        some e := by
  have hmark : ∀ c, (asciiLower c == 112) = true → c ≤ 0x7F := fun c hc =>
    asciiLower_ascii (beq_iff_eq.mp hc) (by decide)
  obtain ⟨hstop, hstart⟩ := boundary_expEnd hv hmark hk
  rcases expEnd_cases (asciiLower · == 112) t k with heq | ⟨-, hlt, -⟩
  · rw [heq]
    simp only [hexExponent, Nat.lt_irrefl, if_false]
    exact ⟨0, rfl, rfl⟩
  · have hk1 := le_afterSign t (k + 1)
    obtain ⟨-, hbound⟩ := hstart (by omega)
    generalize expEnd (asciiLower · == 112) t k = stop at hlt hstop ⊢
    unfold hexExponent
    rw [if_pos (by omega), if_pos (by omega), strSlice_some (Nat.le_of_lt hlt) hbound hstop, afterSign_take hlt,
      strSlice_take hstop.le (Nat.le_of_lt hlt) hbound hstop (Nat.le_refl _),
      List.getElem?_take_of_lt (by omega)]
    simp only [Option.bind_eq_bind, Option.bind_some]
    have hneg : negI32 (parseI32 (slice t (afterSign t (k + 1)) stop)) =
        some (-parseI32 (slice t (afterSign t (k + 1)) stop)) := by
      have := parseI32_nonneg (slice t (afterSign t (k + 1)) stop)
      rw [negI32, if_pos]
      unfold i32Max
      omega
    rw [hneg]
    split
    · exact ⟨_, rfl, rfl⟩
    · exact ⟨_, rfl, rfl⟩

variable (sign) in
/-- A number after `0x`; without a digit only the `0` is read. -/
theorem hexFloat_spec (hv : ValidUtf8 t) (hx : (t[i + 1]?).any (asciiLower · == 120) = true) :
    ∃ x n, hexFloat fl t i sign = some (x, n) ∧ n ≤ t.length ∧
      ((n = i + 1 ∧ x = fl.mul sign (fl.ofNat 0)) ∨
        (i + 2 ≤ n ∧ IsCharBoundary t n ∧ hexFloat fl (t.take n) i sign = some (x, n))) := by
  obtain ⟨c, hc, hxc⟩ := (Option.any_eq_true _ _).mp hx
  have hlt := (List.getElem?_eq_some_iff.mp hc).1
  have hi := (boundary_of_ascii hv hc (asciiLower_ascii (beq_iff_eq.mp hxc) (by decide))).2
  unfold hexFloat
  dsimp only
  cases hdigit : hasDigit isHexDigit t (i + 2) with
  | false => exact ⟨_, _, rfl, by omega, .inl ⟨rfl, rfl⟩⟩
  | true =>
    have hk := le_mantissaEnd isHexDigit t (i + 2)
    have hj : runEnd isHexDigit t (i + 2) ≤ mantissaEnd isHexDigit t (i + 2) := le_fracEnd _ _ _
    have hmark : ∀ c, (asciiLower c == 112) = true → c ≤ 0x7F := fun c hc =>
      asciiLower_ascii (beq_iff_eq.mp hc) (by decide)
    have hmantissa := boundary_mantissaEnd hv isHexDigit_ascii hi
    have hstop := (boundary_expEnd hv hmark hmantissa).1
    have hle := le_expEnd (asciiLower · == 112) t (mantissaEnd isHexDigit t (i + 2))
    have htake := expEnd_take (asciiLower · == 112) t (mantissaEnd isHexDigit t (i + 2))
    obtain ⟨e, hexp, hexp'⟩ := hexExponent_spec hv hmantissa
    obtain ⟨hm, hd, hrun⟩ := mantissaEnd_take hle
    rw [if_pos rfl, hexp]
    refine ⟨_, _, rfl, hstop.le, .inr ⟨by omega, hstop, ?_⟩⟩
    rw [hd, hdigit, if_pos rfl, hm, htake, hexp', hrun, slice_take (by omega), slice_take (by omega)]
    rfl

/-- The text that ends with a `0` at `i`. -/
theorem decimalFloat_zero (h : t[i]? = some 48) :
    decimalFloat fl (t.take (i + 1)) i sign = some (fl.mul sign (fl.ofNat 0), i + 1) := by
  have hlt := (List.getElem?_eq_some_iff.mp h).1
  have hdrop : (t.take (i + 1)).drop i = [48] := by
    rw [List.drop_take, Nat.add_sub_cancel_left, List.drop_eq_getElem_cons hlt]
    rw [List.getElem?_eq_getElem hlt, Option.some.injEq] at h
    rw [h]
    rfl
  have hlen : (t.take (i + 1)).length = i + 1 := by rw [List.length_take, Nat.min_eq_left hlt]
  have hpast : (t.take (i + 1))[i + 1]? = none := List.getElem?_eq_none (Nat.le_of_eq hlen)
  have hrun : runEnd isDigit (t.take (i + 1)) i = i + 1 := by
    rw [runEnd, hdrop]
    rfl
  have hmantissa : mantissaEnd isDigit (t.take (i + 1)) i = i + 1 := by
    rw [mantissaEnd, hrun, fracEnd, hpast]
    rfl
  have hexp : expEnd (asciiLower · == 101) (t.take (i + 1)) (i + 1) = i + 1 := by
    rw [expEnd, hpast]
    rfl
  have hdigit : hasDigit isDigit (t.take (i + 1)) i = true := by
    rw [hasDigit, hrun, decide_eq_true (Nat.lt_succ_self i)]
    rfl
  have hlead : IsCharBoundary (t.take (i + 1)) i := by
    refine .inr (.inr ⟨by omega, ?_⟩)
    rw [List.getD_eq_getElem?_getD, List.getElem?_take_of_lt (Nat.lt_succ_self i), h]
    decide
  have hslice : slice (t.take (i + 1)) i (i + 1) = [48] := by
    rw [slice, hdrop, Nat.add_sub_cancel_left]
    rfl
  unfold decimalFloat
  rw [hdigit, if_pos rfl, hmantissa, hexp]
  dsimp only
  rw [strSlice_some (Nat.le_succ i) hlead (.inr (.inl hlen.symm)), hslice]
  simp only [Option.bind_eq_bind, Option.bind_some, fl.parse_zero, Option.getD_some]

/-! ## Words -/

/-- Whether the text begins with the word. -/
def hasWord (w rest : Bytes) : Bool := (rest.take w.length).map asciiLower == w

theorem hasWord_length {w rest : Bytes} (h : hasWord w rest = true) : w.length ≤ rest.length := by
  have hlen := congrArg List.length (beq_iff_eq.mp h)
  rw [List.length_map, List.length_take] at hlen
  omega

theorem hasWord_take {w rest : Bytes} {m : Nat} (hm : hasWord w rest = true → w.length ≤ m) :
    hasWord w (rest.take m) = hasWord w rest := by
  rcases Nat.lt_or_ge m w.length with hlt | hge
  · have hno : hasWord w rest = false := by
      by_contra hyes
      have := hm (by simpa using hyes)
      omega
    rw [hno]
    by_contra hyes
    have hlen := hasWord_length (by simpa using hyes)
    rw [List.length_take] at hlen
    omega
  · rw [hasWord, List.take_take, Nat.min_eq_left hge]
    rfl

theorem startsCi_eq (w rest : Bytes) : startsCi w rest =
    if w.length ≤ rest.length → IsCharBoundary rest w.length then some (hasWord w rest) else none := by
  unfold startsCi
  by_cases hlen : w.length ≤ rest.length
  · rw [if_pos hlen]
    by_cases hb : IsCharBoundary rest w.length
    · rw [strSlice_some (Nat.zero_le _) (.inl rfl) hb, if_pos fun _ => hb]
      simp only [Option.map_some, slice, Nat.sub_zero, List.drop_zero, hasWord]
    · rw [if_neg fun h => hb (h hlen), strSlice, if_neg fun h => hb h.2.2]
      rfl
  · rw [if_neg hlen, if_pos fun h => absurd h hlen]
    by_contra hyes
    exact hlen (hasWord_length (by simpa using hyes))

/-- Three bytes past the sign are whole characters. -/
def Fits (t : Bytes) : Prop :=
  3 ≤ (t.drop (afterSign t 0)).length → IsCharBoundary (t.drop (afterSign t 0)) 3

theorem drop_slice (t : Bytes) (i : Nat) : slice t i t.length = t.drop i := by
  rw [slice, List.take_of_length_le (by rw [List.length_drop])]

theorem strtodTrimmed_eq (hi : IsCharBoundary t (afterSign t 0)) (hfit : Fits t) :
    strtodTrimmed fl t =
      let i := afterSign t 0
      let sign := if t[0]? = some 45 then fl.neg (fl.ofNat 1) else fl.ofNat 1
      if hasWord [105, 110, 102] (t.drop i) then some (fl.mul sign fl.infinity, i + 3)
      else if hasWord [110, 97, 110] (t.drop i) then some (fl.nan, i + 3)
      else if t[i]? = some 48 ∧ (t[i + 1]?).any (asciiLower · == 120) then hexFloat fl t i sign
      else decimalFloat fl t i sign := by
  have hslice : strSlice t (afterSign t 0) t.length = some (t.drop (afterSign t 0)) := by
    rw [strSlice_some hi.le hi (.inr (.inl rfl)), drop_slice]
  have hinf := (startsCi_eq [105, 110, 102] (t.drop (afterSign t 0))).trans (if_pos hfit)
  have hnan := (startsCi_eq [110, 97, 110] (t.drop (afterSign t 0))).trans (if_pos hfit)
  unfold strtodTrimmed
  dsimp only
  rw [hslice]
  simp only [Option.bind_eq_bind, Option.bind_some, hinf, hnan]

/-- The comparison with the words fails exactly when it is cut inside a character. -/
theorem strtodTrimmed_none (hi : IsCharBoundary t (afterSign t 0)) (hfit : ¬ Fits t) :
    strtodTrimmed fl t = none := by
  have hslice : strSlice t (afterSign t 0) t.length = some (t.drop (afterSign t 0)) := by
    rw [strSlice_some hi.le hi (.inr (.inl rfl)), drop_slice]
  have hinf := (startsCi_eq [105, 110, 102] (t.drop (afterSign t 0))).trans (if_neg hfit)
  unfold strtodTrimmed
  dsimp only
  rw [hslice]
  simp only [Option.bind_eq_bind, Option.bind_some, hinf, Option.bind_none]

/-- What a prefix that goes past the sign reads. -/
theorem strtodTrimmed_take (hv : ValidUtf8 t) (hfit : Fits t) {n : Nat} (hn : n ≤ t.length)
    (hin : afterSign t 0 < n) :
    strtodTrimmed fl (t.take n) =
      let i := afterSign t 0
      let sign := if t[0]? = some 45 then fl.neg (fl.ofNat 1) else fl.ofNat 1
      if hasWord [105, 110, 102] ((t.drop i).take (n - i)) then some (fl.mul sign fl.infinity, i + 3)
      else if hasWord [110, 97, 110] ((t.drop i).take (n - i)) then some (fl.nan, i + 3)
      else if t[i]? = some 48 ∧ ((t.take n)[i + 1]?).any (asciiLower · == 120) then
        hexFloat fl (t.take n) i sign
      else decimalFloat fl (t.take n) i sign := by
  have hi := boundary_afterSign hv (i := 0) (.inl rfl)
  have hsign := afterSign_take hin
  have hfit' : Fits (t.take n) := by
    unfold Fits
    rw [hsign, List.drop_take]
    intro hlen
    rw [List.length_take, List.length_drop] at hlen
    exact boundary_take (by rw [List.length_drop]; omega) (hfit (by rw [List.length_drop]; omega)) (by omega)
  rw [strtodTrimmed_eq fl (by rw [hsign]; exact boundary_take hn hi (Nat.le_of_lt hin)) hfit']
  dsimp only
  rw [hsign, List.drop_take, List.getElem?_take_of_lt hin, List.getElem?_take_of_lt (by omega)]

/-- A word of three letters past the sign ends on a boundary. -/
theorem boundary_of_word (hv : ValidUtf8 t) (hfit : Fits t) {w : Bytes} (hw : w.length = 3)
    (hyes : hasWord w (t.drop (afterSign t 0)) = true) :
    afterSign t 0 + 3 ≤ t.length ∧ IsCharBoundary t (afterSign t 0 + 3) := by
  have hi := boundary_afterSign hv (i := 0) (.inl rfl)
  have hlen := hasWord_length hyes
  rw [hw] at hlen
  have hb := hfit hlen
  rw [← drop_slice] at hb
  rw [List.length_drop] at hlen
  exact ⟨by omega, boundary_of_slice hi.le hi (.inr (.inl rfl)) hb⟩

/-- Past the sign, `strtod` reads a prefix up to a boundary, and reads it again the same. -/
theorem strtodTrimmed_spec (hv : ValidUtf8 t) (hfit : Fits t) :
    ∃ x n, strtodTrimmed fl t = some (x, n) ∧ n ≤ t.length ∧ IsCharBoundary t n ∧
      strtodTrimmed fl (t.take n) = some (x, n) := by
  have hi := boundary_afterSign hv (i := 0) (.inl rfl)
  have hcut := fun n => strtodTrimmed_take fl hv hfit (n := n)
  rw [strtodTrimmed_eq fl hi hfit]
  dsimp only
  generalize hsign : (if t[0]? = some 45 then fl.neg (fl.ofNat 1) else fl.ofNat 1) = sign at hcut ⊢
  cases hinf : hasWord [105, 110, 102] (t.drop (afterSign t 0)) with
  | true =>
    obtain ⟨hle, hb⟩ := boundary_of_word hv hfit rfl hinf
    refine ⟨_, _, rfl, hle, hb, ?_⟩
    rw [hcut _ hle (by omega)]
    dsimp only
    rw [Nat.add_sub_cancel_left, hasWord_take (fun _ => by decide), hinf, if_pos rfl]
  | false =>
    have hinf' : ∀ m, hasWord [105, 110, 102] ((t.drop (afterSign t 0)).take m) = false := fun m => by
      rw [hasWord_take (fun h => by rw [hinf] at h; cases h), hinf]
    cases hnan : hasWord [110, 97, 110] (t.drop (afterSign t 0)) with
    | true =>
      obtain ⟨hle, hb⟩ := boundary_of_word hv hfit rfl hnan
      refine ⟨_, _, rfl, hle, hb, ?_⟩
      rw [hcut _ hle (by omega)]
      dsimp only
      rw [hinf', if_neg (by decide), Nat.add_sub_cancel_left, hasWord_take (fun _ => by decide), hnan,
        if_pos rfl]
    | false =>
      have hnan' : ∀ m, hasWord [110, 97, 110] ((t.drop (afterSign t 0)).take m) = false := fun m => by
        rw [hasWord_take (fun h => by rw [hnan] at h; cases h), hnan]
      simp only [hinf', hnan', Bool.false_eq_true, if_false] at hcut ⊢
      by_cases hhex : t[afterSign t 0]? = some 48 ∧
          (t[afterSign t 0 + 1]?).any (asciiLower · == 120) = true
      · rw [if_pos hhex]
        obtain ⟨x, n, hread, hle, hn⟩ := hexFloat_spec fl sign hv hhex.2
        refine ⟨x, n, hread, hle, ?_⟩
        rcases hn with ⟨rfl, rfl⟩ | ⟨hin, hb, htake⟩
        · -- the `0` reads as a decimal number
          refine ⟨(boundary_of_ascii hv hhex.1 (by decide)).2, ?_⟩
          rw [hcut _ hle (Nat.lt_succ_self _), if_neg]
          · exact decimalFloat_zero fl hhex.1
          · rintro ⟨-, h⟩
            rw [List.getElem?_take, if_neg (Nat.lt_irrefl _)] at h
            cases h
        · refine ⟨hb, ?_⟩
          rw [hcut _ hle (by omega), if_pos, htake]
          rwa [List.getElem?_take_of_lt (by omega)]
      · rw [if_neg hhex]
        obtain ⟨x, n, hread, hle, hb, hn⟩ := decimalFloat_spec fl sign hv hi
        refine ⟨x, n, hread, hle, hb, ?_⟩
        rcases hn with ⟨rfl, rfl⟩ | ⟨hin, htake⟩
        · rfl
        · rw [hcut _ hle hin, if_neg, htake]
          rintro ⟨hzero, h⟩
          refine hhex ⟨hzero, ?_⟩
          rw [List.getElem?_take] at h
          split at h
          · exact h
          · cases h

end

/-! ## White space before the number -/

theorem whiteEnd_some {s : Bytes} {i w : Nat} (h : charLenAt s i = some w) :
    whiteEnd s i = if Persist.isWhitespace (charAt s i w) then whiteEnd s (i + w) else i := by
  rw [whiteEnd]
  split
  · rename_i w' hw'
    rw [h] at hw'
    cases hw'
    rfl
  · rename_i hnone
    rw [h] at hnone
    cases hnone

theorem whiteEnd_none {s : Bytes} {i : Nat} (h : charLenAt s i = none) : whiteEnd s i = i := by
  rw [whiteEnd]
  split
  · rename_i w hw
    rw [h] at hw
    cases hw
  · rfl

theorem whiteEnd_scans (s : Bytes) (i : Nat) : Scans s i (whiteEnd s i) := by
  induction i using whiteEnd.induct s with
  | case1 i w hw hwhite ih =>
    rw [whiteEnd_some hw, if_pos hwhite]
    exact .char hw ih
  | case2 i w hw hno =>
    rw [whiteEnd_some hw, if_neg hno]
    exact .refl i
  | case3 i hw =>
    rw [whiteEnd_none hw]
    exact .refl i

theorem charLenAt_take {s : Bytes} {i w n : Nat} (h : charLenAt s i = some w) (hn : i + w ≤ n) :
    charLenAt (s.take n) i = some w :=
  charLenAt_same h fun k hk => List.getElem?_take_of_lt (by omega)

theorem charLenAt_of_take {s : Bytes} {i w n : Nat} (h : charLenAt (s.take n) i = some w) :
    charLenAt s i = some w ∧ i + w ≤ n := by
  have hle := charLenAt_le h
  rw [List.length_take] at hle
  exact ⟨charLenAt_same h fun k hk => (List.getElem?_take_of_lt (by omega)).symm, by omega⟩

theorem charAt_take {s : Bytes} {i w n : Nat} (hn : i + w ≤ n) : charAt (s.take n) i w = charAt s i w := by
  rw [charAt, charAt, slice_take hn]

/-- White space that ends within a prefix ends there in the prefix too. -/
theorem whiteEnd_take {s : Bytes} {i n : Nat} (h : whiteEnd s i ≤ n) :
    whiteEnd (s.take n) i = whiteEnd s i := by
  induction i using whiteEnd.induct s with
  | case1 i w hw hwhite ih =>
    rw [whiteEnd_some hw, if_pos hwhite] at h ⊢
    have hle := (whiteEnd_scans s (i + w)).le
    have hin : i + w ≤ n := by omega
    rw [whiteEnd_some (charLenAt_take hw hin), charAt_take hin, if_pos hwhite, ih h]
  | case2 i w hw hno =>
    rw [whiteEnd_some hw, if_neg hno]
    cases hw' : charLenAt (s.take n) i with
    | none => rw [whiteEnd_none hw']
    | some w' =>
      obtain ⟨hsame, hin⟩ := charLenAt_of_take hw'
      rw [hw] at hsame
      cases hsame
      rw [whiteEnd_some hw', charAt_take hin, if_neg hno]
  | case3 i hw =>
    rw [whiteEnd_none hw]
    cases hw' : charLenAt (s.take n) i with
    | none => rw [whiteEnd_none hw']
    | some w' =>
      rw [(charLenAt_of_take hw').1] at hw
      cases hw

section
variable {F : Type} (fl : Floats F) {s : Bytes}

/-- Reading a float fails exactly where three bytes past the sign are no whole characters. -/
theorem strtodPrefix_spec (hv : ValidUtf8 s) :
    (Fits (s.drop (whiteEnd s 0)) ∧ ∃ x n, strtodPrefix fl s = some (x, n) ∧ n ≤ s.length ∧
      IsCharBoundary s n ∧ strtodPrefix fl (s.take n) = some (x, n)) ∨
    (¬ Fits (s.drop (whiteEnd s 0)) ∧ strtodPrefix fl s = none) := by
  have hw := hv.boundary_of_scans (.inl rfl) (whiteEnd_scans s 0)
  have hle := hw.le
  have hv' := valid_drop hv hw
  unfold strtodPrefix
  dsimp only
  by_cases hfit : Fits (s.drop (whiteEnd s 0))
  · left
    obtain ⟨x, n, hread, hn, hb, htake⟩ := strtodTrimmed_spec fl hv' hfit
    rw [List.length_drop] at hn
    refine ⟨hfit, x, whiteEnd s 0 + n, by rw [hread]; rfl, by omega, ?_, ?_⟩
    · rw [← drop_slice] at hb
      exact boundary_of_slice hle hw (.inr (.inl rfl)) hb
    · rw [whiteEnd_take (Nat.le_add_right _ _), List.drop_take, Nat.add_sub_cancel_left, htake]
      rfl
  · right
    rw [strtodTrimmed_none fl (boundary_afterSign hv' (.inl rfl)) hfit]
    exact ⟨hfit, rfl⟩

theorem dropWhile_eq_drop (p : UInt8 → Bool) (s : Bytes) : s.dropWhile p = s.drop (runEnd p s 0) := by
  have h := congrArg (List.drop (s.takeWhile p).length) (List.takeWhile_append_dropWhile (p := p) (l := s))
  rw [List.drop_left] at h
  rw [runEnd, List.drop_zero, Nat.zero_add, h]

theorem floatText_valid (hv : ValidUtf8 s) : ValidUtf8 (floatText s) := by
  have hblank : ∀ t : Bytes, ValidUtf8 t → ValidUtf8 (t.dropWhile fun c => c == 32 || c == 9) := by
    intro t ht
    rw [dropWhile_eq_drop]
    refine valid_drop ht (boundary_runEnd ht (fun c hc => ?_) (.inl rfl))
    simp only [Bool.or_eq_true, beq_iff_eq] at hc
    rcases hc with rfl | rfl
    · decide
    · decide
  have hrest := hblank s hv
  unfold floatText
  dsimp only
  split
  · rename_i r hr
    rw [hr] at hrest
    exact hblank r (valid_drop hrest (boundary_of_ascii (j := 0) hrest rfl (by decide)).2)
  · exact hrest

/-- The float reader gives the value of a prefix of what it reads. -/
def ReadsFloat (fl : Floats F) (s : Bytes) : Prop :=
  (floatText s = [] ∧ firstFloat fl s = some fl.lowest) ∨
  ∃ x n, firstFloat fl s = some x ∧ strtodPrefix fl (floatText s) = some (x, n) ∧
    n ≤ (floatText s).length ∧ IsCharBoundary (floatText s) n ∧
    strtodPrefix fl ((floatText s).take n) = some (x, n)

theorem firstFloat_cases (hv : ValidUtf8 s) :
    (WordsFit s ∧ ReadsFloat fl s) ∨ (¬ WordsFit s ∧ firstFloat fl s = none) := by
  by_cases hnil : floatText s = []
  · refine .inl ⟨?_, .inl ⟨hnil, if_pos hnil⟩⟩
    simp [WordsFit, wordText, hnil]
  · have hvalue : firstFloat fl s = (strtodPrefix fl (floatText s)).map Prod.fst := if_neg hnil
    rcases strtodPrefix_spec fl (floatText_valid hv) with ⟨hyes, x, n, hread, hn, hb, htake⟩ | ⟨hno, hnone⟩
    · rw [hread] at hvalue
      exact .inl ⟨hyes, .inr ⟨x, n, hvalue, hread, hn, hb, htake⟩⟩
    · rw [hnone] at hvalue
      exact .inr ⟨hno, hvalue⟩

theorem firstFloat_isSome (hv : ValidUtf8 s) : (firstFloat fl s).isSome = true ↔ WordsFit s := by
  rcases firstFloat_cases fl hv with ⟨hyes, ⟨-, hvalue⟩ | ⟨x, n, hvalue, -⟩⟩ | ⟨hno, hnone⟩
  · rw [hvalue]
    exact iff_of_true rfl hyes
  · rw [hvalue]
    exact iff_of_true rfl hyes
  · rw [hnone]
    exact iff_of_false Bool.false_ne_true hno

theorem readsFloat_iff (hv : ValidUtf8 s) : ReadsFloat fl s ↔ WordsFit s := by
  rcases firstFloat_cases fl hv with ⟨hyes, hreads⟩ | ⟨hno, hnone⟩
  · exact iff_of_true hreads hyes
  · refine iff_of_false ?_ hno
    rintro (⟨-, hvalue⟩ | ⟨x, n, hvalue, -⟩)
    · rw [hnone] at hvalue
      cases hvalue
    · rw [hnone] at hvalue
      cases hvalue

end

/-! ## Numbers -/

section
variable {s : Bytes} {kind : SortKind} {i n : Nat}

theorem toDigit_ascii {radix : Nat} {c : UInt8} (h : (toDigit radix c).isSome = true) : c ≤ 0x7F := by
  by_contra hgt
  have hlarge : ¬ c.toNat ≤ 127 := hgt
  have hnone : toDigit radix c = none := by
    unfold toDigit
    dsimp only
    rw [if_neg (show ¬ (48 ≤ c.toNat ∧ c.toNat ≤ 57) by omega),
      if_neg (show ¬ (97 ≤ c.toNat ∧ c.toNat ≤ 122) by omega),
      if_neg (show ¬ (65 ≤ c.toNat ∧ c.toNat ≤ 90) by omega), if_neg (Nat.lt_irrefl radix)]
  rw [hnone] at h
  cases h

/-- Where the digits start: past a prefix that a digit follows. -/
def numberStart (s : Bytes) (kind : SortKind) (i : Nat) : Nat :=
  if kind.mark ≠ none ∧ s.getD i 0 = 48 ∧ (s[i + 1]?).map asciiLower = kind.mark ∧
      ((s[i + 2]?).bind (toDigit kind.radix)).isSome then i + 2
  else i

/-- One past what is read of a number that starts at `i`. -/
def numberEnd (s : Bytes) (kind : SortKind) (i : Nat) : Nat :=
  max (i + 1) (runEnd (fun c => (toDigit kind.radix c).isSome) s (numberStart s kind i))

/-- The number that starts at `i`. -/
def numberAt (s : Bytes) (kind : SortKind) (i : Nat) : Int :=
  let digits := ((s.drop (numberStart s kind i)).takeWhile fun c => (toDigit kind.radix c).isSome).filterMap
    (toDigit kind.radix)
  let magnitude := digits.foldl (addDigit kind.radix) 0
  if 0 < i ∧ s.getD (i - 1) 0 = 45 then max (-(magnitude : Int)) (-2 ^ 63)
  else min (magnitude : Int) (2 ^ 63 - 1)

theorem firstNumber_eq (s : Bytes) (kind : SortKind) : firstNumber s kind =
    (s.findIdx? fun c => (toDigit kind.base c).isSome).map (numberAt s kind) := by
  have hat : ∀ i, (s.findIdx? fun c => (toDigit kind.base c).isSome) = some i →
      firstNumber s kind = some (numberAt s kind i) := by
    intro i hi
    cases kind <;> delta firstNumber SortKind.base at * <;> dsimp only at hi ⊢ <;> rw [hi] <;>
      simp [numberAt, numberStart, SortKind.radix, SortKind.mark]
  cases hfind : s.findIdx? fun c => (toDigit kind.base c).isSome with
  | none => cases kind <;> delta firstNumber SortKind.base at * <;> dsimp only at hfind ⊢ <;> rw [hfind] <;> rfl
  | some i => exact hat i hfind

theorem firstDigit_spec (h : (s.findIdx? fun c => (toDigit kind.base c).isSome) = some i) :
    ∃ c, s[i]? = some c ∧ c ≤ 0x7F := by
  obtain ⟨hlt, hc, -⟩ := List.findIdx?_eq_some_iff_getElem.mp h
  exact ⟨s[i], List.getElem?_eq_getElem hlt, toDigit_ascii hc⟩

theorem numberStart_cases (s : Bytes) (kind : SortKind) (i : Nat) : numberStart s kind i = i ∨
    (numberStart s kind i = i + 2 ∧ (s[i + 1]?).map asciiLower = kind.mark ∧ kind.mark ≠ none ∧
      ∃ c, s[i + 2]? = some c ∧ (toDigit kind.radix c).isSome = true) := by
  unfold numberStart
  split
  · rename_i h
    obtain ⟨hmark, -, hletter, hdigit⟩ := h
    cases hc : s[i + 2]? with
    | none =>
      rw [hc] at hdigit
      cases hdigit
    | some c =>
      rw [hc] at hdigit
      exact .inr ⟨rfl, hletter, hmark, c, rfl, hdigit⟩
  · exact .inl rfl

/-- A number is read from its first digit on. -/
theorem readNumber_at (h : (s.findIdx? fun c => (toDigit kind.base c).isSome) = some i) :
    readNumber s kind = some (some (numberAt s kind i), numberEnd s kind i) := by
  obtain ⟨c, hc, -⟩ := firstDigit_spec h
  have hlt := (List.getElem?_eq_some_iff.mp hc).1
  have hnegative : (if 0 < i then (s[i - 1]?).map (· == 45) else some false) =
      some (decide (0 < i ∧ s.getD (i - 1) 0 = 45)) := by
    by_cases hpos : 0 < i
    · have hget := List.getElem?_eq_getElem (show i - 1 < s.length by omega)
      simp [hpos, hget, List.getD_eq_getElem?_getD, beq_eq_decide]
    · simp [hpos]
  have hzero : (if kind.mark ≠ none then (s[i]?).map (· == 48) else some false) =
      some (decide (kind.mark ≠ none ∧ s.getD i 0 = 48)) := by
    by_cases hmark : kind.mark = none
    · simp [hmark]
    · simp [hmark, hc, List.getD_eq_getElem?_getD, beq_eq_decide]
  have hstart : (if decide (kind.mark ≠ none ∧ s.getD i 0 = 48) &&
      (s[i + 1]?).map asciiLower == kind.mark && ((s[i + 2]?).bind (toDigit kind.radix)).isSome then i + 2
      else i) = numberStart s kind i := by
    congr 1
    simp only [Bool.and_eq_true, decide_eq_true_eq, beq_iff_eq, and_assoc]
  have hin : numberStart s kind i ≤ s.length := by
    rcases numberStart_cases s kind i with heq | ⟨heq, -, -, c, hc, -⟩
    · omega
    · have := (List.getElem?_eq_some_iff.mp hc).1
      omega
  have hlength := List.filterMap_length_eq_length.mpr fun c hc =>
    List.mem_takeWhile_imp (p := fun c => (toDigit kind.radix c).isSome)
      (l := s.drop (numberStart s kind i)) hc
  unfold readNumber
  rw [h]
  dsimp only
  rw [hnegative, hzero]
  simp only [Option.bind_eq_bind, Option.bind_some, hstart, slice?_eq hin (Nat.le_refl _), drop_slice]
  rw [hlength]
  simp only [decide_eq_true_eq]
  rfl

/-- A number ends on a character boundary. -/
theorem numberEnd_spec (hv : ValidUtf8 s)
    (h : (s.findIdx? fun c => (toDigit kind.base c).isSome) = some i) :
    numberEnd s kind i ≤ s.length ∧ IsCharBoundary s (numberEnd s kind i) := by
  obtain ⟨c, hc, hascii⟩ := firstDigit_spec h
  have hi := boundary_of_ascii hv hc hascii
  have hstart : IsCharBoundary s (numberStart s kind i) := by
    rcases numberStart_cases s kind i with heq | ⟨heq, -, -, c, hc, hdigit⟩
    · rw [heq]
      exact hi.1
    · rw [heq]
      exact (boundary_of_ascii hv hc (toDigit_ascii hdigit)).1
  have hend := boundary_runEnd (p := fun c => (toDigit kind.radix c).isSome) hv
    (fun c hc => toDigit_ascii hc) hstart
  have hb : IsCharBoundary s (numberEnd s kind i) := by
    rcases max_choice (i + 1) (runEnd (fun c => (toDigit kind.radix c).isSome) s (numberStart s kind i))
      with heq | heq
    · rw [numberEnd, heq]
      exact hi.2
    · rw [numberEnd, heq]
      exact hend
  exact ⟨hb.le, hb⟩

/-- A number reads the same in any prefix that holds it. -/
theorem number_take (h : (s.findIdx? fun c => (toDigit kind.base c).isSome) = some i)
    (hn : numberEnd s kind i ≤ n) :
    ((s.take n).findIdx? fun c => (toDigit kind.base c).isSome) = some i ∧
    numberAt (s.take n) kind i = numberAt s kind i ∧ numberEnd (s.take n) kind i = numberEnd s kind i := by
  have hi : i < n := Nat.lt_of_lt_of_le (Nat.le_max_left _ _) hn
  have hrun : runEnd (fun c => (toDigit kind.radix c).isSome) s (numberStart s kind i) ≤ n :=
    Nat.le_trans (Nat.le_max_right _ _) hn
  have hfind : ((s.take n).findIdx? fun c => (toDigit kind.base c).isSome) = some i := by
    obtain ⟨hlt, hc, hfirst⟩ := List.findIdx?_eq_some_iff_getElem.mp h
    refine List.findIdx?_eq_some_iff_getElem.mpr ⟨by rw [List.length_take]; omega, ?_, fun j hj => ?_⟩
    · rwa [List.getElem_take]
    · rw [List.getElem_take]
      exact hfirst j hj
  have hget : ∀ k, k < n → (s.take n).getD k 0 = s.getD k 0 := fun k hk => by
    rw [List.getD_eq_getElem?_getD, List.getElem?_take_of_lt hk, ← List.getD_eq_getElem?_getD]
  have hstart : numberStart (s.take n) kind i = numberStart s kind i := by
    have hcases := numberStart_cases s kind i
    unfold numberStart at hcases hrun ⊢
    rw [hget i hi]
    split at hcases
    · rename_i hyes
      rw [if_pos hyes] at hrun
      -- a digit follows the prefix, so it is read
      obtain ⟨c, hc, hdigit⟩ : ∃ c, s[i + 2]? = some c ∧ (toDigit kind.radix c).isSome = true := by
        rcases hcases with heq | ⟨-, -, -, hdigit⟩
        · omega
        · exact hdigit
      have hmore : i + 2 < n := by
        refine Nat.lt_of_lt_of_le ?_ hrun
        unfold runEnd
        have hlt := (List.getElem?_eq_some_iff.mp hc).1
        rw [List.drop_eq_getElem_cons hlt, List.takeWhile_cons]
        rw [List.getElem?_eq_getElem hlt, Option.some.injEq] at hc
        rw [hc, if_pos hdigit, List.length_cons]
        omega
      rw [if_pos hyes, List.getElem?_take_of_lt hmore, List.getElem?_take_of_lt (by omega), if_pos hyes]
    · rename_i hno
      rw [if_neg hno, if_neg]
      rintro ⟨hmark, hzero, hletter, hdigit⟩
      refine hno ⟨hmark, hzero, ?_, ?_⟩
      · rw [List.getElem?_take] at hletter
        split at hletter
        · exact hletter
        · exact absurd hletter.symm hmark
      · rw [List.getElem?_take] at hdigit
        split at hdigit
        · exact hdigit
        · cases hdigit
  have hend : numberEnd (s.take n) kind i = numberEnd s kind i := by
    rw [numberEnd, hstart, runEnd_take hrun]
    rfl
  have hdigits : ((s.drop (numberStart s kind i)).takeWhile fun c => (toDigit kind.radix c).isSome).length ≤
      n - numberStart s kind i := by
    unfold runEnd at hrun
    omega
  refine ⟨hfind, ?_, hend⟩
  unfold numberAt
  rw [hstart, List.drop_take, takeWhile_take hdigits, hget (i - 1) (by omega)]

variable (kind) in
theorem readNumber_spec (hv : ValidUtf8 s) :
    ∃ n, readNumber s kind = some (firstNumber s kind, n) ∧ n ≤ s.length ∧ IsCharBoundary s n ∧
      readNumber (s.take n) kind = some (firstNumber s kind, n) := by
  rw [firstNumber_eq]
  cases hfind : s.findIdx? fun c => (toDigit kind.base c).isSome with
  | none =>
    have hread : readNumber s kind = some (none, s.length) := by
      rw [readNumber, hfind]
    refine ⟨s.length, hread, Nat.le_refl _, .inr (.inl rfl), ?_⟩
    rw [List.take_length]
    exact hread
  | some i =>
    obtain ⟨hle, hb⟩ := numberEnd_spec hv hfind
    obtain ⟨hfind', hnumber, hend⟩ := number_take hfind (Nat.le_refl _)
    refine ⟨numberEnd s kind i, readNumber_at hfind, hle, hb, ?_⟩
    rw [readNumber_at hfind', hnumber, hend]
    rfl

end

/-! ## Keys -/

/-- The reader of such keys reads a prefix of `s`, whole characters of it. -/
def ReadsKey {F : Type} (fl : Floats F) (kind : SortKind) (s : Bytes) : Prop :=
  match kind with
  | .text => True
  | .locale => True
  | .float => ReadsFloat fl s
  | kind => ∃ n, readNumber s kind = some (firstNumber s kind, n) ∧ n ≤ s.length ∧
      IsCharBoundary s n ∧ readNumber (s.take n) kind = some (firstNumber s kind, n)

theorem readsKey_iff {F : Type} (fl : Floats F) (kind : SortKind) {s : Bytes} (hv : ValidUtf8 s) :
    ReadsKey fl kind s ↔ (kind = .float → WordsFit s) := by
  cases kind with
  | float => exact (readsFloat_iff fl hv).trans ⟨fun h _ => h, fun h => h rfl⟩
  | text => exact ⟨fun _ h => (by cases h), fun _ => trivial⟩
  | locale => exact ⟨fun _ h => (by cases h), fun _ => trivial⟩
  | decimal => exact ⟨fun _ h => (by cases h), fun _ => readNumber_spec _ hv⟩
  | hex => exact ⟨fun _ h => (by cases h), fun _ => readNumber_spec _ hv⟩
  | octal => exact ⟨fun _ h => (by cases h), fun _ => readNumber_spec _ hv⟩
  | binary => exact ⟨fun _ h => (by cases h), fun _ => readNumber_spec _ hv⟩

/-- The keys of the range are read when no line makes a float reader cut a character. -/
theorem readKey_isSome {F : Type} (fl : Floats F) (opts : SortOptions) (re : Option Regex)
    {line base : Bytes} (hbase : keyBase re opts.useMatch line = some base) :
    (readKey fl opts re line).isSome = true ↔ (opts.key = .float → WordsFit (spell base)) := by
  have hv : ValidUtf8 (spell base) := Hay.new_valid base
  have hnumber : ∀ kind, ((readNumber (spell base) kind).map fun m => SortKey.num m.1).isSome = true := by
    intro kind
    obtain ⟨n, hread, -⟩ := readNumber_spec kind hv
    rw [hread]
    rfl
  rw [readKey, hbase, Option.bind_some]
  cases opts.key with
  | float =>
    rw [Option.isSome_map, firstFloat_isSome fl hv]
    exact ⟨fun h _ => h, fun h => h rfl⟩
  | text => exact ⟨fun _ h => (by cases h), fun _ => rfl⟩
  | locale => exact ⟨fun _ h => (by cases h), fun _ => rfl⟩
  | decimal => exact ⟨fun _ h => (by cases h), fun _ => hnumber .decimal⟩
  | hex => exact ⟨fun _ h => (by cases h), fun _ => hnumber .hex⟩
  | octal => exact ⟨fun _ h => (by cases h), fun _ => hnumber .octal⟩
  | binary => exact ⟨fun _ h => (by cases h), fun _ => hnumber .binary⟩

/-- No line of the block makes the reader of floats cut a character. -/
def KeysFit (opts : SortOptions) (re : Option Regex) (block : List Bytes) : Prop :=
  opts.key = .float → ∀ line ∈ block, ∀ base, keyBase re opts.useMatch line = some base →
    WordsFit (spell base)

/-- The keys of a block are read, whatever the lines, unless one of them is such a key. -/
theorem keysFit_iff {F : Type} (fl : Floats F) (opts : SortOptions) (re : Option Regex)
    (block : List Bytes) :
    KeysFit opts re block ↔ ∀ line ∈ block, (readKey fl opts re line).isSome = true := by
  constructor
  · intro h line hline
    obtain ⟨base, hbase⟩ := keyBase_total re opts.useMatch line
    exact (readKey_isSome fl opts re hbase).mpr fun hfloat => h hfloat line hline base hbase
  · intro h hfloat line hline base hbase
    exact (readKey_isSome fl opts re hbase).mp (h line hline) hfloat

/-! ## The order of lines -/

/-- How two lines compare: by their keys, one whose key is not read before the others. -/
def compareLines {F : Type} (env : SortEnv F) (opts : SortOptions) (re : Option Regex)
    (line line' : Bytes) : Ordering :=
  match readKey env.floats opts re line, readKey env.floats opts re line' with
  | some key, some key' => key.compare env key'
  | key, key' => compare key.isSome key'.isSome

/-- The keys of one sort are of one kind, which is ordered. -/
instance compareLines_trans {F : Type} (env : SortEnv F) (opts : SortOptions) (re : Option Regex) :
    Std.TransCmp (compareLines env opts re) := by
  choose base hbase using fun line => keyBase_total re opts.useMatch line
  have hof : ∀ cmp : Bytes → Bytes → Ordering, Std.TransCmp cmp →
      (∀ line line', compareLines env opts re line line' = cmp line line') →
      Std.TransCmp (compareLines env opts re) := by
    intro cmp htrans heq
    rwa [show compareLines env opts re = cmp from funext₂ heq]
  have hnum : ∀ kind, (∀ line, readKey env.floats opts re line =
      (readNumber (spell (base line)) kind).map fun m => .num m.1) →
      Std.TransCmp (compareLines env opts re) := by
    intro kind hkey
    have hvalue : ∀ line, readKey env.floats opts re line =
        some (.num (firstNumber (spell (base line)) kind)) := by
      intro line
      obtain ⟨n, hread, -⟩ := readNumber_spec kind
        (show ValidUtf8 (spell (base line)) from Hay.new_valid (base line))
      rw [hkey, hread, Option.map_some]
    refine hof (compareOn fun l => firstNumber (spell (base l)) kind) inferInstance fun l l' => ?_
    rw [compareLines, hvalue, hvalue]
    rfl
  have hread : ∀ line, readKey env.floats opts re line = _ := fun line => by
    rw [readKey, hbase, Option.bind_some]
  cases hkey : opts.key with
  | text =>
    refine hof (compareOn fun l => if opts.ignoreCase then (base l).map asciiLower else base l)
      inferInstance fun l l' => ?_
    rw [compareLines, hread, hread, hkey]
    rfl
  | locale =>
    refine hof (compareLex (compareOn fun l => env.fold (spell (base l)))
      (compareLex (compareOn fun l => env.upper (spell (base l))) (compareOn fun l => spell (base l))))
      inferInstance fun l l' => ?_
    rw [compareLines, hread, hread, hkey]
    rfl
  | float =>
    refine hof (compareOn fun l => (firstFloat env.floats (spell (base l))).map env.floats.rank)
      inferInstance fun l l' => ?_
    rw [compareLines, hread, hread, hkey]
    show _ = compare ((firstFloat env.floats (spell (base l))).map env.floats.rank)
      ((firstFloat env.floats (spell (base l'))).map env.floats.rank)
    cases firstFloat env.floats (spell (base l)) <;>
      cases firstFloat env.floats (spell (base l')) <;> rfl
  | decimal => exact hnum .decimal fun line => by rw [hread, hkey]
  | hex => exact hnum .hex fun line => by rw [hread, hkey]
  | octal => exact hnum .octal fun line => by rw [hread, hkey]
  | binary => exact hnum .binary fun line => by rw [hread, hkey]

end Ruse.Core
