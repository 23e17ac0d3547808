import Ruse.Core.LineText

/-!
# Valid UTF-8

The reading of bytes as characters that `std::str::from_utf8` does, over the
character lengths of `motion.rs`: `validUpTo` scans whole characters from a place
on, and a text is valid when the scan reaches its end. On a valid text the
boundaries the editor counts, over any bytes, are the ones of `str`
(`isCharBoundary_of_isBoundary`).
-/

namespace Ruse.Core

variable {c e p w : Nat}

/-! ## One character -/

theorem isContinuation_of_range {c : UInt8} (hlo : 0x80 ≤ c) (hhi : c ≤ 0xBF) :
    isContinuation c = true := by
  have hall : ∀ n : Fin 256, 0x80 ≤ UInt8.ofFin n → UInt8.ofFin n ≤ 0xBF →
      isContinuation (UInt8.ofFin n) = true := by decide +kernel
  exact hall c.toFin hlo hhi

theorem not_isContinuation_of_ascii {c : UInt8} (h : c ≤ 0x7F) : isContinuation c = false := by
  have hall : ∀ n : Fin 256, UInt8.ofFin n ≤ 0x7F → isContinuation (UInt8.ofFin n) = false := by
    decide +kernel
  exact hall c.toFin h

theorem leadClass_spec {lead lo hi : UInt8} (h : leadClass lead = some (w, lo, hi)) :
    2 ≤ w ∧ w ≤ 4 ∧ isContinuation lead = false ∧ 0x80 ≤ lo ∧ hi ≤ 0xBF := by
  have hlead : ∀ n : Fin 256, (leadClass (UInt8.ofFin n)).all fun c =>
      decide (2 ≤ c.1 ∧ c.1 ≤ 4 ∧ isContinuation (UInt8.ofFin n) = false ∧ 0x80 ≤ c.2.1 ∧
        c.2.2 ≤ 0xBF) := by decide +kernel
  have := hlead lead.toFin
  rw [show UInt8.ofFin lead.toFin = lead from rfl, h] at this
  exact of_decide_eq_true this

/-- A character lies in the text, begins with a byte that continues none and goes on
with bytes that do. -/
theorem charLenAt_spec {b : Bytes} {i : Nat} (h : charLenAt b i = some w) :
    0 < w ∧ w ≤ 4 ∧ i + w ≤ b.length ∧ isContinuation (b.getD i 0) = false ∧
      ∀ k, i < k → k < i + w → isContinuation (b.getD k 0) = true := by
  unfold charLenAt at h
  cases hlead : b[i]? with
  | none =>
    rw [hlead] at h
    cases h
  | some lead =>
    have hlt := (List.getElem?_eq_some_iff.mp hlead).1
    have hget : b.getD i 0 = lead := by rw [List.getD_eq_getElem?_getD, hlead, Option.getD_some]
    rw [hlead] at h
    change (if lead ≤ 0x7F then some 1 else _) = some w at h
    -- a byte of its own, or a lead byte and the continuation bytes of its class
    by_cases hascii : lead ≤ 0x7F
    · rw [if_pos hascii] at h
      cases h
      exact ⟨by omega, by omega, hlt, by rw [hget, not_isContinuation_of_ascii hascii],
        fun k hk hkw => by omega⟩
    · rw [if_neg hascii] at h
      cases hclass : leadClass lead with
      | none =>
        rw [hclass] at h
        cases h
      | some cls =>
        obtain ⟨w', lo, hi⟩ := cls
        obtain ⟨hw2, hw4, hnot, hlo, hhi⟩ := leadClass_spec hclass
        rw [hclass] at h
        dsimp only [bind, Option.bind] at h
        cases hslice : slice b (i + 1) (i + w') with
        | nil =>
          rw [hslice] at h
          cases h
        | cons second others =>
          rw [hslice] at h
          dsimp only at h
          split at h
          · rename_i hchar
            cases h
            obtain ⟨hlen, hslo, hshi, hrest⟩ := hchar
            refine ⟨by omega, hw4, hlen, by rw [hget, hnot], fun k hk hkw => ?_⟩
            have hmem : b.getD k 0 ∈ slice b (i + 1) (i + w) := by
              refine List.mem_of_getElem? (i := k - (i + 1)) ?_
              rw [slice, List.getElem?_take_of_lt (by omega), List.getElem?_drop,
                show i + 1 + (k - (i + 1)) = k by omega, List.getD_eq_getElem?_getD,
                List.getElem?_eq_getElem (by omega), Option.getD_some]
            rw [hslice] at hmem
            rcases List.mem_cons.mp hmem with heq | hmem
            · rw [heq]
              exact isContinuation_of_range (UInt8.le_trans hlo hslo) (UInt8.le_trans hshi hhi)
            · exact List.all_eq_true.mp hrest _ hmem
          · cases h

theorem charLenAt_pos {b : Bytes} {i : Nat} (h : charLenAt b i = some w) : 0 < w :=
  (charLenAt_spec h).1

theorem charLenAt_le {b : Bytes} {i : Nat} (h : charLenAt b i = some w) : i + w ≤ b.length :=
  (charLenAt_spec h).2.2.1

/-! ## Whole characters one after the other -/

/-- The bytes from `i` to `j` are whole characters. -/
inductive Scans (b : Bytes) : Nat → Nat → Prop
  | refl (i : Nat) : Scans b i i
  | char {i w j : Nat} : charLenAt b i = some w → Scans b (i + w) j → Scans b i j

namespace Scans

variable {b : Bytes} {i j k : Nat}

theorem le (h : Scans b i j) : i ≤ j := by
  induction h with
  | refl => exact Nat.le_refl _
  | char _ _ ih => omega

theorem trans (h : Scans b i j) (h' : Scans b j k) : Scans b i k := by
  induction h with
  | refl => exact h'
  | char hw _ ih => exact .char hw (ih h')

theorem le_length (h : Scans b i j) (hi : i ≤ b.length) : j ≤ b.length := by
  induction h with
  | refl => exact hi
  | char hw _ ih => exact ih (charLenAt_le hw)

theorem char_at (h : Scans b i j) (hik : i ≤ k) (hkj : k < j) :
    ∃ c w, Scans b i c ∧ charLenAt b c = some w ∧ Scans b (c + w) j ∧ c ≤ k ∧ k < c + w := by
  induction h with
  | refl => omega
  | @char i w j hw hrest ih =>
    rcases Nat.lt_or_ge k (i + w) with hin | hpast
    · exact ⟨i, w, .refl i, hw, hrest, hik, hin⟩
    · obtain ⟨c, w', hc, hw', hrest', hck, hkc⟩ := ih hpast hkj
      exact ⟨c, w', .char hw hc, hw', hrest', hck, hkc⟩

theorem cut (h : Scans b i j) (hik : i ≤ k) (hkj : k ≤ j)
    (hk : k < j → isContinuation (b.getD k 0) = false) : Scans b i k ∧ Scans b k j := by
  rcases Nat.lt_or_ge k j with hlt | hge
  · obtain ⟨c, w, hc, hw, hrest, hck, hkc⟩ := h.char_at hik hlt
    have heq : k = c := by
      by_contra hne
      have := (charLenAt_spec hw).2.2.2.2 k (by omega) hkc
      rw [hk hlt] at this
      cases this
    rw [heq]
    exact ⟨hc, .char hw hrest⟩
  · obtain rfl : k = j := by omega
    exact ⟨h, .refl k⟩

/-- Two scans from one place: the longer one goes on from where the shorter stops. -/
theorem rest (h : Scans b i j) (h' : Scans b i k) (hjk : j ≤ k) : Scans b j k := by
  induction h with
  | refl => exact h'
  | @char i w j hw hrest ih =>
    have hlt : i < k := by
      have := hrest.le
      have := charLenAt_pos hw
      omega
    cases h' with
    | refl => omega
    | char hw' hrest' =>
      rw [hw] at hw'
      cases hw'
      exact ih hrest' hjk

end Scans

/-- Characters of one byte are the ASCII ones. -/
theorem charLenAt_eq_one {b : Bytes} {i : Nat} :
    charLenAt b i = some 1 ↔ ∃ c, b[i]? = some c ∧ c ≤ 0x7F := by
  constructor
  · intro h
    unfold charLenAt at h
    cases hlead : b[i]? with
    | none =>
      rw [hlead] at h
      cases h
    | some lead =>
      refine ⟨lead, rfl, ?_⟩
      rw [hlead] at h
      change (if lead ≤ 0x7F then some 1 else _) = some 1 at h
      by_contra hascii
      rw [if_neg hascii] at h
      cases hclass : leadClass lead with
      | none =>
        rw [hclass] at h
        cases h
      | some cls =>
        obtain ⟨w, lo, hi⟩ := cls
        have hw := (leadClass_spec hclass).1
        rw [hclass] at h
        dsimp only [bind, Option.bind] at h
        split at h
        · split at h
          · cases h
            omega
          · cases h
        · cases h
  · rintro ⟨c, hc, hascii⟩
    unfold charLenAt
    rw [hc]
    change (if c ≤ 0x7F then some 1 else _) = some 1
    rw [if_pos hascii]

theorem insideChar_of_char {b : Bytes} {i k : Nat} (hw : charLenAt b i = some w) (hk : i < k)
    (hkw : k < i + w) : insideChar b k = true := by
  obtain ⟨hpos, hle4, hlen, hlead, hcont⟩ := charLenAt_spec hw
  refine insideChar_iff.mpr ⟨by omega, by omega, hcont k hk hkw, i, w, by omega, hk, hlead, ?_, hw,
    hkw⟩
  intro m hm hmk
  exact hcont m hm (by omega)

theorem charLenAt_same {b b' : Bytes} {i i' : Nat} (h : charLenAt b i = some w)
    (hbyte : ∀ k < w, b'[i' + k]? = b[i + k]?) : charLenAt b' i' = some w := by
  have hpos := charLenAt_pos h
  rcases Nat.lt_or_ge 1 w with hw | hw
  · exact (charLenAt_carried h hw).2.2.2 _ _ hbyte
  · obtain rfl : w = 1 := by omega
    obtain ⟨lead, hlead, hascii⟩ := charLenAt_eq_one.mp h
    exact charLenAt_eq_one.mpr ⟨lead, (hbyte 0 (by omega)).trans hlead, hascii⟩

theorem charLenAt_slice {b : Bytes} {i : Nat} (h : charLenAt b i = some w) (hc : c ≤ i)
    (he : i + w ≤ e) : charLenAt (slice b c e) (i - c) = some w := by
  refine charLenAt_same h fun k hk => ?_
  rw [slice, List.getElem?_take_of_lt (by omega), List.getElem?_drop,
    show c + (i - c + k) = i + k by omega]

theorem Scans.slice {b : Bytes} {i j : Nat} (h : Scans b i j) (hc : c ≤ i) (he : j ≤ e) :
    Scans (slice b c e) (i - c) (j - c) := by
  induction h with
  | refl => exact .refl _
  | @char i w j hw hrest ih =>
    have hle := hrest.le
    have hstep := ih (by omega) he
    rw [show i + w - c = i - c + w by omega] at hstep
    exact .char (charLenAt_slice hw hc (by omega)) hstep

/-- `from_utf8(&b[c..e])`: the end of the whole characters from `c` on, which is `e`
when the bytes are valid and else `valid_up_to`. -/
def validUpTo (b : Bytes) (e c : Nat) : Nat :=
  match _h : charLenAt b c with
  | some w => if c + w ≤ e then validUpTo b e (c + w) else c
  | none => c
termination_by b.length - c
decreasing_by
  have hle := charLenAt_le _h
  have hpos := charLenAt_pos _h
  omega

theorem validUpTo_some {b : Bytes} (e : Nat) (h : charLenAt b c = some w) :
    validUpTo b e c = if c + w ≤ e then validUpTo b e (c + w) else c := by
  rw [validUpTo]
  split
  · rename_i w' hw'
    rw [h] at hw'
    cases hw'
    rfl
  · rename_i hnone
    rw [h] at hnone
    cases hnone

theorem validUpTo_none {b : Bytes} (e : Nat) (h : charLenAt b c = none) :
    validUpTo b e c = c := by
  rw [validUpTo]
  split
  · rename_i hw
    rw [h] at hw
    cases hw
  · rfl

/-- The whole characters end at a byte that begins none, or at one cut short by `e`. -/
theorem validUpTo_spec (b : Bytes) (e c : Nat) :
    Scans b c (validUpTo b e c) ∧ (c ≤ e → validUpTo b e c ≤ e) ∧
      ∀ w, charLenAt b (validUpTo b e c) = some w → e < validUpTo b e c + w := by
  induction c using validUpTo.induct b e with
  | case1 c w hw hle ih =>
    rw [validUpTo_some e hw, if_pos hle]
    exact ⟨.char hw ih.1, fun _ => ih.2.1 hle, ih.2.2⟩
  | case2 c w hw hgt =>
    rw [validUpTo_some e hw, if_neg hgt]
    refine ⟨.refl c, fun h => h, fun w' hw' => ?_⟩
    rw [hw] at hw'
    cases hw'
    omega
  | case3 c hnone =>
    rw [validUpTo_none e hnone]
    exact ⟨.refl c, fun h => h, fun w hw => by rw [hnone] at hw; cases hw⟩

theorem scans_validUpTo (b : Bytes) (e c : Nat) : Scans b c (validUpTo b e c) :=
  (validUpTo_spec b e c).1

theorem validUpTo_le {b : Bytes} (h : c ≤ e) : validUpTo b e c ≤ e :=
  (validUpTo_spec b e c).2.1 h

theorem Scans.le_validUpTo {b : Bytes} {s : Nat} (h : Scans b c s) (hse : s ≤ e) :
    s ≤ validUpTo b e c := by
  by_contra hlt
  have hrest := (scans_validUpTo b e c).rest h (by omega)
  generalize hat : validUpTo b e c = v at hrest hlt
  cases hrest with
  | refl => omega
  | char hw hrest =>
    have hpast := (validUpTo_spec b e c).2.2 _ (by rw [hat]; exact hw)
    have := hrest.le
    omega

def ValidUtf8 (b : Bytes) : Prop := validUpTo b b.length 0 = b.length

instance (b : Bytes) : Decidable (ValidUtf8 b) := inferInstanceAs (Decidable (_ = _))

theorem validUtf8_iff {b : Bytes} : ValidUtf8 b ↔ Scans b 0 b.length := by
  constructor
  · intro h
    have hs := scans_validUpTo b b.length 0
    rwa [show validUpTo b b.length 0 = b.length from h] at hs
  · intro h
    exact Nat.le_antisymm (validUpTo_le (Nat.zero_le _)) (h.le_validUpTo (Nat.le_refl _))

/-! ## The boundaries of a valid text -/

/-- `str::is_char_boundary`. -/
def IsCharBoundary (b : Bytes) (i : Nat) : Prop :=
  i = 0 ∨ i = b.length ∨ (i < b.length ∧ isContinuation (b.getD i 0) = false)

instance (b : Bytes) (i : Nat) : Decidable (IsCharBoundary b i) :=
  inferInstanceAs (Decidable (_ ∨ _))

theorem IsCharBoundary.le {b : Bytes} {i : Nat} (h : IsCharBoundary b i) : i ≤ b.length := by
  rcases h with h | h | h <;> omega

theorem ValidUtf8.cut {b : Bytes} {i : Nat} (hb : ValidUtf8 b) (hi : IsCharBoundary b i) :
    Scans b 0 i ∧ Scans b i b.length := by
  have hs := validUtf8_iff.mp hb
  rcases hi with h | h | h
  · rw [h]
    exact ⟨.refl 0, hs⟩
  · rw [h]
    exact ⟨hs, .refl _⟩
  · exact hs.cut (Nat.zero_le i) (Nat.le_of_lt h.1) fun _ => h.2

theorem ValidUtf8.char_of_boundary {b : Bytes} {i : Nat} (hb : ValidUtf8 b)
    (hi : IsCharBoundary b i) (hlt : i < b.length) :
    ∃ w, charLenAt b i = some w ∧ Scans b (i + w) b.length := by
  have hrest := (hb.cut hi).2
  cases hrest with
  | refl => omega
  | @char _ w _ hw hrest => exact ⟨w, hw, hrest⟩

theorem ValidUtf8.boundary_of_scans {b : Bytes} {i j : Nat} (hb : ValidUtf8 b)
    (hi : IsCharBoundary b i) (h : Scans b i j) : IsCharBoundary b j := by
  have hj := h.le_length hi.le
  have hrest := h.rest (hb.cut hi).2 hj
  cases hrest with
  | refl => exact .inr (.inl rfl)
  | char hw hrest =>
    obtain ⟨hpos, -, hle, hlead, -⟩ := charLenAt_spec hw
    exact .inr (.inr ⟨by omega, hlead⟩)

/-- On a valid text the editor's boundaries are the ones of `str`: a continuation byte
is inside the character it continues. -/
theorem isCharBoundary_of_isBoundary {b : Bytes} {i : Nat} (hb : ValidUtf8 b)
    (hi : isBoundary b i = true) : i ≤ b.length → IsCharBoundary b i := by
  intro hle
  by_contra hnot
  simp only [IsCharBoundary, not_or, not_and, Bool.not_eq_false] at hnot
  obtain ⟨hzero, hend, hcont⟩ := hnot
  have hlt : i < b.length := by omega
  obtain ⟨c, w, -, hw, -, hci, hic⟩ := (validUtf8_iff.mp hb).char_at (Nat.zero_le i) hlt
  obtain ⟨-, hw4, -, hlead, hrest⟩ := charLenAt_spec hw
  have hne : c ≠ i := by
    rintro rfl
    rw [hcont hlt] at hlead
    cases hlead
  have hinside : insideChar b i = true := insideChar_iff.mpr
    ⟨by omega, hlt, hcont hlt, c, w, by omega, by omega, hlead,
      fun k hk hki => hrest k hk (by omega), hw, hic⟩
  simp only [isBoundary, hinside, Bool.not_true, Bool.or_false, Bool.or_eq_true,
    beq_iff_eq] at hi
  omega

/-- What the invariant walker asks of a stored position: it lies in the text, and on a
character boundary of a valid one. -/
def InText (b : Bytes) (p : Nat) : Prop := p ≤ b.length ∧ (ValidUtf8 b → IsCharBoundary b p)

theorem inText_of_isBoundary {b : Bytes} (hle : p ≤ b.length) (hp : isBoundary b p = true) :
    InText b p :=
  ⟨hle, fun hb => isCharBoundary_of_isBoundary hb hp hle⟩

theorem inText_snap (b : Bytes) (p : Nat) : InText b (snap b p) :=
  inText_of_isBoundary (Nat.le_trans (snap_le b p) (Nat.min_le_right _ _)) (isBoundary_snap b p)

theorem inText_of_lead {b : Bytes} (hlt : p < b.length) (hp : isContinuation (b.getD p 0) = false) :
    InText b p :=
  ⟨Nat.le_of_lt hlt, fun _ => .inr (.inr ⟨hlt, hp⟩)⟩

theorem inText_zero (b : Bytes) : InText b 0 := ⟨Nat.zero_le _, fun _ => .inl rfl⟩

theorem inText_length (b : Bytes) : InText b b.length :=
  ⟨Nat.le_refl _, fun _ => .inr (.inl rfl)⟩

theorem Scans.first {b : Bytes} {i j : Nat} (h : Scans b i j) (hlt : i < j) :
    ∃ w, charLenAt b i = some w ∧ Scans b (i + w) j := by
  cases h with
  | refl => omega
  | char hw hrest => exact ⟨_, hw, hrest⟩

theorem Scans.validUtf8 {b : Bytes} (h : Scans b c e) (he : e ≤ b.length) :
    ValidUtf8 (Ruse.Core.slice b c e) := by
  rw [validUtf8_iff, slice_length h.le he]
  have := h.slice (Nat.le_refl c) (Nat.le_refl e)
  rwa [Nat.sub_self] at this

/-- Whole characters after a stored position end at one. -/
theorem InText.scans {b : Bytes} {q : Nat} (hp : InText b p) (h : Scans b p q) : InText b q :=
  ⟨h.le_length hp.1, fun hb => hb.boundary_of_scans (hp.2 hb) h⟩

end Ruse.Core
