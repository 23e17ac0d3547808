import Ruse.Core.Chars

/-!
# Positions of a language server

A language server counts lines and, on a line, UTF-16 code units. `byteToLspPos` takes an
offset to such a position, `lspPosToByte` takes one back. On a line of valid UTF-8 the two
agree when the text from the line on is valid too (`positions_agree`): where it is not, the
way back takes every position of the line to the line's start.
-/

namespace Ruse.Tui

open Ruse.Core

/-- `char::len_utf16`: two units for a character outside the first plane. -/
def lenUtf16 (c : Char) : Nat := if c.toNat < 0x10000 then 1 else 2

/-- The values of a `u32`. -/
def u32Modulus : Nat := 2 ^ 32

/-- The walk to the start of a line `n` lines on from `idx`, or `none` past the end. -/
def walkLines (b : Bytes) : Nat → Nat → Option Nat
  | 0, idx => some idx
  | n + 1, idx =>
    match (b.drop idx).findIdx? (· == newline) with
    | some p => walkLines b n (idx + p + 1)
    | none => none

/-- The walk over a line's characters until `character` units are passed or the line ends. -/
def walkUnits (b : Bytes) (character i units : Nat) : Nat :=
  match _h : charLenAt b i with
  | some w =>
    if b[i]? = some newline ∨ character ≤ units then i
    else walkUnits b character (i + w) ((units + lenUtf16 (charAt b i w)) % u32Modulus)
  | none => i
termination_by b.length - i
decreasing_by
  have hle := charLenAt_le _h
  have hpos := charLenAt_pos _h
  omega

/-- The offset of a position: the end of the line when `character` runs past it, the end of
the text for a line that is missing. The text from the line on is read as UTF-8, and as
nothing when it is not. -/
def lspPosToByte (b : Bytes) (line character : Nat) : Nat :=
  match walkLines b line 0 with
  | some idx => if ValidUtf8 (b.drop idx) then walkUnits b character idx 0 else idx
  | none => b.length

def byteToLspPos (b : Bytes) (byte : Nat) : Nat × Nat :=
  let byte := min byte b.length
  let seg := slice b (lineStart b byte) byte
  (countNewlines (b.take byte) % u32Modulus,
    if ValidUtf8 seg then ((charsFrom seg 0).map lenUtf16).sum % u32Modulus else 0)

/-- The UTF-16 units of the characters from `i` to `j`. -/
def unitsOf (b : Bytes) (i j : Nat) : Nat := ((charsOf b i j).map lenUtf16).sum

/-- What the two walks are to do on line `n`, from `s` to `e`: the round trip at every
boundary of it, a boundary of it for every character, its end for one past it, and positions
in order. -/
structure PositionsAgree (b : Bytes) (n s e : Nat) : Prop where
  roundTrip : ∀ p, s ≤ p → p ≤ e → IsCharBoundary (slice b s e) (p - s) →
    lspPosToByte b (byteToLspPos b p).1 (byteToLspPos b p).2 = p
  boundary : ∀ c, s ≤ lspPosToByte b n c ∧ lspPosToByte b n c ≤ e ∧
    IsCharBoundary (slice b s e) (lspPosToByte b n c - s)
  past : ∀ c, unitsOf b s e ≤ c → lspPosToByte b n c = e
  inOrder : ∀ c n' c', n < n' ∨ (n = n' ∧ c ≤ c') → lspPosToByte b n c ≤ lspPosToByte b n' c'

variable {b : Bytes} {i j s e p n c u : Nat}

/-! ## The walk over the lines -/

theorem count_slice_zero (h : NoNewline b i j) (hle : i ≤ j) :
    countNewlines (b.take j) = countNewlines (b.take i) := by
  have hsplit : b.take j = b.take i ++ slice b i j := by
    have hcut := List.take_append_drop i (b.take j)
    rw [List.take_take, Nat.min_eq_left hle, List.drop_take] at hcut
    exact hcut.symm
  have hnone : (slice b i j).count newline = 0 := by
    rw [List.count_eq_zero]
    intro hmem
    obtain ⟨k, hk⟩ := List.getElem?_of_mem hmem
    have hlt : k < j - i := by
      by_contra hge
      rw [slice, List.getElem?_take_eq_none (by omega)] at hk
      simp at hk
    rw [slice, List.getElem?_take_of_lt hlt, List.getElem?_drop] at hk
    exact h (i + k) (by omega) (by omega) hk
  rw [hsplit, countNewlines, List.count_append, hnone, Nat.add_zero, countNewlines]

/-- Walking `n` lines on comes to a line start that many newlines behind. -/
theorem walkLines_spec (hs : walkLines b n i = some s) (hi : StartsLine b i) (hlen : i ≤ b.length) :
    i ≤ s ∧ s ≤ b.length ∧ StartsLine b s ∧
      countNewlines (b.take s) = countNewlines (b.take i) + n := by
  induction n generalizing i with
  | zero =>
    obtain rfl : i = s := by simpa [walkLines] using hs
    exact ⟨le_rfl, hlen, hi, rfl⟩
  | succ n ih =>
    rw [walkLines] at hs
    split at hs
    · rename_i p hp
      obtain ⟨hlt, hnl, hno⟩ := List.findIdx?_eq_some_iff_getElem.mp hp
      rw [List.length_drop] at hlt
      have hnl' : b[i + p]? = some newline := by
        rw [← List.getElem?_drop, List.getElem?_eq_getElem (by rw [List.length_drop]; omega)]
        simpa using hnl
      have hfree : NoNewline b i (i + p) := by
        intro k hk hkp heq
        obtain ⟨m, rfl⟩ := Nat.exists_eq_add_of_le hk
        have hm := hno m (by omega)
        rw [← List.getElem?_drop, List.getElem?_eq_getElem (by rw [List.length_drop]; omega)] at heq
        rw [Option.some.inj heq] at hm
        simp at hm
      have hstep := ih hs (.inr (by simpa using hnl')) (by omega)
      have hone : countNewlines (b.take (i + p + 1)) = countNewlines (b.take i) + 1 := by
        rw [List.take_add_one, hnl', countNewlines, List.count_append,
          ← countNewlines, count_slice_zero hfree (by omega)]
        simp
      rw [hone] at hstep
      exact ⟨by omega, hstep.2.1, hstep.2.2.1, by omega⟩
    · simp at hs

/-- The walk finds the line where there are newlines enough. -/
theorem walkLines_some (h : n ≤ countNewlines (b.drop i)) : ∃ s, walkLines b n i = some s := by
  induction n generalizing i with
  | zero => exact ⟨i, rfl⟩
  | succ n ih =>
    rw [walkLines]
    cases hfind : (b.drop i).findIdx? (· == newline) with
    | none =>
      have hnone : countNewlines (b.drop i) = 0 := by
        rw [countNewlines, List.count_eq_zero]
        intro hmem
        have := List.findIdx?_eq_none_iff.mp hfind newline hmem
        simp at this
      omega
    | some p =>
      refine ih ?_
      have hcut := List.take_append_drop (p + 1) (b.drop i)
      have hcount := congrArg countNewlines hcut
      have hfirst : countNewlines ((b.drop i).take (p + 1)) = 1 := by
        obtain ⟨hlt, hnl, hno⟩ := List.findIdx?_eq_some_iff_getElem.mp hfind
        rw [List.take_add_one, List.getElem?_eq_getElem hlt, countNewlines, List.count_append]
        have hzero : ((b.drop i).take p).count newline = 0 := by
          rw [List.count_eq_zero]
          intro hmem
          obtain ⟨k, hk, heq⟩ := List.mem_take_iff_getElem.mp hmem
          have := hno k (by omega)
          rw [heq] at this
          simp at this
        rw [hzero]
        simp only [beq_iff_eq] at hnl
        simp [hnl]
      simp only [countNewlines, List.count_append, List.drop_drop] at hcount hfirst h ⊢
      rw [show i + p + 1 = i + (p + 1) by omega]
      omega

theorem walkLines_lineOf (at' : Nat) :
    walkLines b (lineOf b at') 0 = some (lineStart b at') := by
  have hle : lineOf b at' ≤ countNewlines (b.drop 0) := by
    rw [List.drop_zero]
    exact (List.take_sublist at' b).count_le newline
  obtain ⟨s, hs⟩ := walkLines_some hle
  obtain ⟨_, hlen, hstart, hcount⟩ := walkLines_spec hs (.inl rfl) (Nat.zero_le _)
  obtain ⟨hstart', hno⟩ := lineStart_spec b at'
  have hsame : countNewlines (b.take (lineStart b at')) = lineOf b at' :=
    (count_slice_zero hno (lineStart_le b at')).symm
  rw [hs]
  congr 1
  refine startsLine_unique hstart hstart' hlen (lineStart_le_length b at') ?_
  rw [hcount, hsame]
  simp [countNewlines]

/-! ## The walk over a line's characters -/

theorem lenUtf16_pos (ch : Char) : 0 < lenUtf16 ch := by
  unfold lenUtf16
  split <;> omega

@[simp] theorem unitsOf_self (b : Bytes) (i : Nat) : unitsOf b i i = 0 := by simp [unitsOf]

theorem unitsOf_char {w : Nat} (hw : charLenAt b i = some w) (h : Scans b (i + w) j)
    (hj : j ≤ b.length) : unitsOf b i j = lenUtf16 (charAt b i w) + unitsOf b (i + w) j := by
  simp [unitsOf, charsOf_char hw h hj]

theorem unitsOf_append {k : Nat} (h : Scans b i j) (h' : Scans b j k) (hk : k ≤ b.length) :
    unitsOf b i k = unitsOf b i j + unitsOf b j k := by
  simp [unitsOf, charsOf_append h h' hk]

theorem unitsOf_pos (h : Scans b i j) (hlt : i < j) (hj : j ≤ b.length) : 0 < unitsOf b i j := by
  obtain ⟨w, hw, hrest⟩ := h.first hlt
  have := lenUtf16_pos (charAt b i w)
  rw [unitsOf_char hw hrest hj]
  omega

theorem walkUnits_some {w : Nat} (h : charLenAt b i = some w) : walkUnits b c i u =
    if b[i]? = some newline ∨ c ≤ u then i
    else walkUnits b c (i + w) ((u + lenUtf16 (charAt b i w)) % u32Modulus) := by
  rw [walkUnits]
  split
  · rename_i w' hw'
    rw [h] at hw'
    rw [Option.some.inj hw']
  · rename_i hnone
    rw [h] at hnone
    simp at hnone

theorem walkUnits_none (h : charLenAt b i = none) : walkUnits b c i u = i := by
  rw [walkUnits]
  split
  · rename_i w hw
    rw [h] at hw
    simp at hw
  · rfl

/-- The walk stops at the first boundary of the line with as many units before it as asked,
and at the line's end when there is none. -/
theorem walkUnits_spec (h : Scans b i e) (hno : NoNewline b i e) (hend : EndsLine b e)
    (hlen : e ≤ b.length) (hfew : u + unitsOf b i e < u32Modulus) :
    Scans b i (walkUnits b c i u) ∧ Scans b (walkUnits b c i u) e ∧
      (walkUnits b c i u = e ∨ c ≤ u + unitsOf b i (walkUnits b c i u)) ∧
      ∀ r, Scans b i r → r < walkUnits b c i u → u + unitsOf b i r < c := by
  induction h generalizing u with
  | refl e =>
    have hstop : walkUnits b c e u = e := by
      cases hw : charLenAt b e with
      | none => exact walkUnits_none hw
      | some w =>
        rw [walkUnits_some hw, if_pos]
        rcases hend with heq | hnl
        · have := charLenAt_le hw
          have := charLenAt_pos hw
          omega
        · exact .inl hnl
    rw [hstop]
    refine ⟨.refl e, .refl e, .inl rfl, ?_⟩
    intro r hr hlt
    have := hr.le
    omega
  | @char i w e hw hrest ih =>
    have hpos := charLenAt_pos hw
    have hle := hrest.le
    have hbyte : b[i]? ≠ some newline := hno i le_rfl (by omega)
    rw [unitsOf_char hw hrest hlen] at hfew
    rw [walkUnits_some hw]
    by_cases hc : c ≤ u
    · rw [if_pos (.inr hc)]
      refine ⟨.refl i, .char hw hrest, .inr (by omega), ?_⟩
      intro r hr hlt
      have := hr.le
      omega
    · rw [if_neg (by simp [hbyte, hc]), Nat.mod_eq_of_lt (by omega)]
      have hno' : NoNewline b (i + w) e := fun k hk hke => hno k (by omega) hke
      obtain ⟨hq, hqe, hreach, hfirst⟩ := @ih (u + lenUtf16 (charAt b i w)) hno' hend hlen (by omega)
      refine ⟨.char hw hq, hqe, ?_, ?_⟩
      · rcases hreach with heq | hle
        · exact .inl heq
        · rw [unitsOf_char hw hq (hqe.le.trans hlen)]
          exact .inr (by omega)
      · intro r hr hlt
        -- a boundary is the first one, or after the first character
        cases hr with
        | refl =>
          rw [unitsOf_self]
          omega
        | char hw' hr' =>
          rw [hw] at hw'
          obtain rfl := Option.some.inj hw'
          have := hfirst r hr' hlt
          rw [unitsOf_char hw hr' (by have := hqe.le; omega)]
          omega

theorem le_walkUnits (b : Bytes) (c i u : Nat) : i ≤ walkUnits b c i u := by
  fun_induction walkUnits b c i u with
  | case1 i u w hw hstop => exact le_rfl
  | case2 i u w hw hgo ih => omega
  | case3 i u hnone => exact le_rfl

/-! ## One line -/

/-- A line of valid UTF-8, with few enough lines before it and units on it. -/
structure ValidLine (b : Bytes) (n s e : Nat) : Prop where
  starts : StartsLine b s
  one : NoNewline b s e
  ends : EndsLine b e
  le_length : e ≤ b.length
  scans : Scans b s e
  walk : walkLines b n 0 = some s
  row : countNewlines (b.take s) = n
  fewLines : n < u32Modulus
  fewUnits : unitsOf b s e < u32Modulus

namespace ValidLine

theorem boundary_iff (h : ValidLine b n s e) (hsp : s ≤ p) (hpe : p ≤ e) :
    IsCharBoundary (slice b s e) (p - s) ↔ Scans b s p ∧ Scans b p e := by
  have hvalid := h.scans.validUtf8 h.le_length
  constructor
  · intro hp
    have hcut := (hvalid.cut hp).1
    have hback : Scans b s (s + (p - s - 0)) := hcut.same (by
      intro k hk
      rw [Nat.zero_add, slice, List.getElem?_take_of_lt (by omega), List.getElem?_drop])
    rw [Nat.sub_zero, Nat.add_sub_cancel' hsp] at hback
    exact ⟨hback, hback.rest h.scans hpe⟩
  · rintro ⟨hp, _⟩
    have hslice := hp.slice le_rfl hpe
    rw [Nat.sub_self] at hslice
    exact hvalid.boundary_of_scans (.inl rfl) hslice

theorem byteToLspPos_eq (h : ValidLine b n s e) (hsp : Scans b s p) (hpe : Scans b p e) :
    byteToLspPos b p = (n, unitsOf b s p) := by
  have hp : p ≤ b.length := hpe.le.trans h.le_length
  have hno : NoNewline b s p := fun k hk hkp => h.one k hk (hkp.trans_le hpe.le)
  have hstart := lineStart_eq hsp.le h.starts hno
  have hunits := unitsOf_append hsp hpe h.le_length
  have hfew := h.fewUnits
  simp only [byteToLspPos, Nat.min_eq_left hp, hstart, count_slice_zero hno hsp.le, h.row,
    if_pos (hsp.validUtf8 hp), Prod.mk.injEq]
  refine ⟨Nat.mod_eq_of_lt h.fewLines, ?_⟩
  change unitsOf b s p % u32Modulus = _
  exact Nat.mod_eq_of_lt (by omega)

theorem lspPosToByte_eq (h : ValidLine b n s e) (c : Nat) : lspPosToByte b n c =
    if ValidUtf8 (b.drop s) then walkUnits b c s 0 else s := by
  simp only [lspPosToByte, h.walk]

theorem stop_spec (h : ValidLine b n s e) (c : Nat) :
    Scans b s (walkUnits b c s 0) ∧ Scans b (walkUnits b c s 0) e ∧
      (walkUnits b c s 0 = e ∨ c ≤ unitsOf b s (walkUnits b c s 0)) ∧
      ∀ r, Scans b s r → r < walkUnits b c s 0 → unitsOf b s r < c := by
  simpa using walkUnits_spec (c := c) (u := 0) h.scans h.one h.ends h.le_length
    (by simpa using h.fewUnits)

/-- A later line is sent past the end of a valid one. -/
theorem later (h : ValidLine b n s e) {n' : Nat} (hn : n < n') (c : Nat) :
    e ≤ lspPosToByte b n' c := by
  cases hwalk : walkLines b n' 0 with
  | none => simpa [lspPosToByte, hwalk] using h.le_length
  | some s' =>
    obtain ⟨_, hlen, _, hcount⟩ := walkLines_spec hwalk (.inl rfl) (Nat.zero_le _)
    have hpast : e < s' := by
      by_contra hle
      have hsub : (b.take s').Sublist (b.take e) := by
        have := List.take_sublist s' (b.take e)
        rwa [List.take_take, Nat.min_eq_left (by omega)] at this
      have hmono := hsub.count_le newline
      have hsame := count_slice_zero h.one h.scans.le
      rw [h.row] at hsame
      simp only [countNewlines, List.take_zero, List.count_nil] at hcount hmono hsame
      omega
    have hle : s' ≤ lspPosToByte b n' c := by
      simp only [lspPosToByte, hwalk]
      split
      · exact le_walkUnits b c s' 0
      · exact le_rfl
    omega

/-- On a valid line with a valid rest the positions agree. -/
theorem agree_of_valid (h : ValidLine b n s e) (hrest : ValidUtf8 (b.drop s)) :
    PositionsAgree b n s e := by
  have hpos (c : Nat) : lspPosToByte b n c = walkUnits b c s 0 := by
    rw [h.lspPosToByte_eq, if_pos hrest]
  refine ⟨?_, ?_, ?_, ?_⟩
  · intro p hsp hpe hp
    obtain ⟨hsp, hpe⟩ := (h.boundary_iff hsp hpe).mp hp
    rw [h.byteToLspPos_eq hsp hpe, hpos]
    obtain ⟨hq, hqe, hreach, hfirst⟩ := h.stop_spec (unitsOf b s p)
    -- the walk does not pass the boundary, nor stop at one before it
    rcases Nat.lt_trichotomy (walkUnits b (unitsOf b s p) s 0) p with hlt | heq | hgt
    · have hqp := hq.rest hsp hlt.le
      have hmore := unitsOf_append hq hqp (hpe.le.trans h.le_length)
      have := unitsOf_pos hqp hlt (hpe.le.trans h.le_length)
      rcases hreach with heq | hle <;> omega
    · exact heq
    · have := hfirst p hsp hgt
      omega
  · intro c
    obtain ⟨hq, hqe, _, _⟩ := h.stop_spec c
    rw [hpos]
    exact ⟨hq.le, hqe.le, (h.boundary_iff hq.le hqe.le).mpr ⟨hq, hqe⟩⟩
  · intro c hc
    obtain ⟨hq, hqe, hreach, _⟩ := h.stop_spec c
    rw [hpos]
    rcases hreach with heq | hle
    · exact heq
    · by_contra hne
      have hlt : walkUnits b c s 0 < e := lt_of_le_of_ne hqe.le hne
      have := unitsOf_append hq hqe h.le_length
      have := unitsOf_pos hqe hlt h.le_length
      omega
  · rintro c n' c' (hn | ⟨rfl, hc⟩)
    · obtain ⟨_, hqe, _, _⟩ := h.stop_spec c
      rw [hpos]
      exact hqe.le.trans (h.later hn c')
    · obtain ⟨_, hqe, _, hfirst⟩ := h.stop_spec c
      obtain ⟨hq', _, hreach', _⟩ := h.stop_spec c'
      rw [hpos, hpos]
      by_contra hlt
      have := hfirst _ hq' (by omega)
      have := hqe.le
      rcases hreach' with heq | hle <;> omega

/-- On an empty line the positions agree. -/
theorem agree_of_empty (h : ValidLine b n s e) (hempty : s = e) : PositionsAgree b n s e := by
  subst hempty
  have hpos (c : Nat) : lspPosToByte b n c = s := by
    rw [h.lspPosToByte_eq]
    split
    · obtain ⟨hq, hqe, _, _⟩ := h.stop_spec c
      exact le_antisymm hqe.le hq.le
    · rfl
  refine ⟨?_, ?_, fun c _ => hpos c, ?_⟩
  · intro p hsp hps _
    obtain rfl : s = p := le_antisymm hsp hps
    rw [h.byteToLspPos_eq (.refl s) (.refl s), hpos]
  · intro c
    rw [hpos]
    exact ⟨le_rfl, le_rfl, by simp [IsCharBoundary]⟩
  · rintro c n' c' (hn | ⟨rfl, _⟩)
    · rw [hpos]
      exact h.later hn c'
    · rw [hpos, hpos]

/-- Where the text from the line on is not valid, the end of a line with text on it does not
make the round trip. -/
theorem valid_of_agree (h : ValidLine b n s e) (hagree : PositionsAgree b n s e) (hne : s ≠ e) :
    ValidUtf8 (b.drop s) := by
  by_contra hrest
  have hend := hagree.roundTrip e h.scans.le le_rfl
    ((h.boundary_iff h.scans.le le_rfl).mpr ⟨h.scans, .refl e⟩)
  rw [h.byteToLspPos_eq h.scans (.refl e), h.lspPosToByte_eq, if_neg hrest] at hend
  exact hne hend

end ValidLine

/-- The line of an offset is valid where its text is, and its numbers fit a word. -/
theorem validLine_of_offset {at' : Nat} (hat : at' ≤ b.length)
    (hvalid : ValidUtf8 (slice b (lineStart b at') (lineEnd b at')))
    (hlines : countNewlines b < u32Modulus)
    (hunits : unitsOf b (lineStart b at') (lineEnd b at') < u32Modulus) :
    ValidLine b (lineOf b at') (lineStart b at') (lineEnd b at') := by
  obtain ⟨hstarts, hbefore⟩ := lineStart_spec b at'
  obtain ⟨hends, hafter⟩ := lineEnd_spec hat
  have hsat := lineStart_le b at'
  have hate := le_lineEnd b hat
  have hlen := lineEnd_le_length b at'
  have hone : NoNewline b (lineStart b at') (lineEnd b at') := by
    intro k hk hke
    rcases Nat.lt_or_ge k at' with hlt | hge
    · exact hbefore k hk hlt
    · exact hafter k hge hke
  have hscans : Scans b (lineStart b at') (lineEnd b at') := by
    have hslice := validUtf8_iff.mp hvalid
    rw [slice_length (by omega) hlen] at hslice
    have hback : Scans b (lineStart b at') (lineStart b at' + (lineEnd b at' - lineStart b at' - 0)) :=
      hslice.same (by
        intro k hk
        rw [Nat.zero_add, slice, List.getElem?_take_of_lt (by omega), List.getElem?_drop])
    rwa [Nat.sub_zero, Nat.add_sub_cancel' (by omega : lineStart b at' ≤ lineEnd b at')] at hback
  have hrow : countNewlines (b.take (lineStart b at')) = lineOf b at' :=
    (count_slice_zero hbefore hsat).symm
  have hfew : lineOf b at' < u32Modulus :=
    ((List.take_sublist at' b).count_le newline).trans_lt hlines
  exact ⟨hstarts, hone, hends, hlen, hscans, walkLines_lineOf at', hrow, hfew, hunits⟩

/-- On a line of valid UTF-8 the two walks agree exactly when the text from the line on is
valid, or the line is empty. -/
theorem positions_agree (b : Bytes) (at' : Nat) (hat : at' ≤ b.length)
    (hvalid : ValidUtf8 (slice b (lineStart b at') (lineEnd b at')))
    (hlines : countNewlines b < u32Modulus)
    (hunits : unitsOf b (lineStart b at') (lineEnd b at') < u32Modulus) :
    PositionsAgree b (lineOf b at') (lineStart b at') (lineEnd b at') ↔
      ValidUtf8 (b.drop (lineStart b at')) ∨ lineStart b at' = lineEnd b at' := by
  have line := validLine_of_offset hat hvalid hlines hunits
  constructor
  · intro hagree
    by_cases hempty : lineStart b at' = lineEnd b at'
    · exact .inr hempty
    · exact .inl (line.valid_of_agree hagree hempty)
  · rintro (hrest | hempty)
    · exact line.agree_of_valid hrest
    · exact line.agree_of_empty hempty

/-- A line with a character outside the first plane, the lines after it valid. -/
theorem positions_agree_astral :
    PositionsAgree [97, 0xF0, 0x9F, 0x98, 0x80, 98, 10, 99] 0 0 6 :=
  (positions_agree [97, 0xF0, 0x9F, 0x98, 0x80, 98, 10, 99] 0 (by decide) (by decide +kernel)
    (by decide) (by decide +kernel)).mpr (.inl (by decide +kernel))

/-- A byte that is not UTF-8 on the next line takes every position of this one to its
start. -/
theorem positions_lost : ¬ ∀ b at', at' ≤ b.length →
    ValidUtf8 (slice b (lineStart b at') (lineEnd b at')) → countNewlines b < u32Modulus →
    unitsOf b (lineStart b at') (lineEnd b at') < u32Modulus →
    PositionsAgree b (lineOf b at') (lineStart b at') (lineEnd b at') := by
  intro h
  have hagree := h [97, 98, 10, 0xFF] 0 (by decide) (by decide +kernel) (by decide)
    (by decide +kernel)
  have hpast := hagree.past 2 (by decide +kernel)
  have : lspPosToByte [97, 98, 10, 0xFF] 0 2 = 0 := by decide +kernel
  rw [show lineOf [97, 98, 10, 0xFF] 0 = 0 from rfl, this] at hpast
  exact absurd hpast (by decide)

end Ruse.Tui
