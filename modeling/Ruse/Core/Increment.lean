import Ruse.Core.Block
import Ruse.Core.IncrNumber
import Ruse.Core.Plans

/-!
# Increments add

What is written where an increment goes (`incrNumber` in `Ruse.Core.IncrNumber`): the sum in the
literal's own notation, unless a value or a sum does not fit an `i128` or a based literal loses zeros
(`Adds`).
-/

namespace Ruse.Core

open Ruse.Lib

/-! ## Sums of an `i128` and an `i64` -/

theorem addI128_eq {x y : Int} (h : FitsI128 (x + y)) : addI128 x y = x + y :=
  Int.bmod_eq_of_le_mul_two (by unfold FitsI128 at h; omega) (by unfold FitsI128 at h; omega)

theorem addI128_wraps {x : Int} {delta : Int64} (hx : FitsI128 x) (h : ¬ FitsI128 (x + delta.toInt)) :
    addI128 x delta.toInt < 0 ↔ 0 ≤ x + delta.toInt := by
  have hlt := delta.toInt_lt
  have hge := delta.le_toInt
  unfold FitsI128 at hx h
  rcases Int.lt_or_le (x + delta.toInt) 0 with hneg | hpos
  · have hsum : addI128 x delta.toInt = x + delta.toInt + 2 ^ 128 := by
      rw [addI128, ← Int.add_bmod_right]
      exact Int.bmod_eq_of_le_mul_two (by omega) (by omega)
    omega
  · have hsum : addI128 x delta.toInt = x + delta.toInt - 2 ^ 128 := by
      rw [addI128, ← Int.sub_bmod_right]
      exact Int.bmod_eq_of_le_mul_two (by omega) (by omega)
    omega

theorem parseI128_eq {x : Int} (h : FitsI128 x) : parseI128 x = x := if_pos h

/-- A value that does not fit is read as zero, so what is written is far from it. -/
theorem addI128_misfit {x : Int} (delta : Int64) (h : ¬ FitsI128 x) :
    addI128 (parseI128 x) delta.toInt = delta.toInt ∧ delta.toInt.natAbs < x.natAbs := by
  have hlt := delta.toInt_lt
  have hge := delta.le_toInt
  constructor
  · rw [parseI128, if_neg h, addI128_eq (by unfold FitsI128; omega), Int.zero_add]
  · unfold FitsI128 at h
    omega

/-! ## Based literals -/

section
variable {b : Bytes} {ls le p e r : Nat} {c : UInt8} {delta : Int64}

theorem BasedLit.bytes_eq (h : BasedLit b le p e r c) (delta : Int64) :
    (incrBased b le p delta).bytes = [0x30, c] ++ numeral r
      (max (addI128 (parseI128 (numeralValue r (slice b (p + 2) e))) delta.toInt) 0).toNat := by
  unfold incrBased
  dsimp only
  rw [radixAt_eq h.letter h.radix, ← h.stop, List.getD_eq_getElem?_getD, h.letter]
  rfl

theorem BasedLit.head (h : BasedLit b le p e r c) : slice b p (p + 2) = [0x30, c] := by
  obtain ⟨hlt, h0⟩ := List.getElem?_eq_some_iff.mp h.zero
  obtain ⟨hlt1, h1⟩ := List.getElem?_eq_some_iff.mp h.letter
  rw [slice, List.drop_eq_getElem_cons hlt, List.drop_eq_getElem_cons hlt1, h0, h1,
    Nat.add_sub_cancel_left]
  rfl

theorem BasedLit.radix_bounds (h : BasedLit b le p e r c) : 1 < r ∧ r ≤ 16 := by
  rcases (radixOf_spec h.radix).1 with rfl | rfl | rfl <;> decide

/-- A numeral keeps the width of digits when the number is not less than their place value. -/
theorem width_kept_iff {k : Nat} {n : Int} (hr : 1 < r) (hk : 1 < k) :
    k ≤ (numeral r (max n 0).toNat).length ↔ (r : Int) ^ (k - 1) ≤ n := by
  have hpow : 0 < r ^ (k - 1) := Nat.pow_pos (by omega)
  have hlen := length_numeral_le_iff (n := (max n 0).toNat) hr (show 0 < k - 1 by omega)
  have hcast : (r : Int) ^ (k - 1) = ((r ^ (k - 1) : Nat) : Int) := (Int.natCast_pow _ _).symm
  rw [hcast]
  omega

/-- The digits of a sum that fits are right exactly where it keeps the width of the zeros. -/
theorem BasedLit.denotes_iff (h : BasedLit b le p e r c) (hle : le ≤ b.length)
    (hfits : FitsI128 ((Literal.based p e r).value b ls))
    (hsum : FitsI128 ((Literal.based p e r).value b ls + delta.toInt)) :
    Denotes b ls (.based p e r) delta (incrBased b le p delta).bytes ↔
      (Padded (slice b (p + 2) e) →
        (r : Int) ^ (e - (p + 2) - 1) ≤ (Literal.based p e r).value b ls + delta.toInt) := by
  obtain ⟨hr, hr16⟩ := h.radix_bounds
  have hdigit := h.some_digit
  have hend := h.end_le
  have hbytes := h.bytes_eq delta
  have hval : (numeralValue r (slice b (p + 2) e) : Int) = (Literal.based p e r).value b ls := rfl
  rw [hval] at hbytes
  generalize hn : (Literal.based p e r).value b ls + delta.toInt = n at hsum ⊢
  have hnumber : (Literal.based p e r).sum b ls delta = max n 0 := by rw [← hn]; rfl
  have hwidth : (slice b (p + 2) e).length = e - (p + 2) := slice_length (by omega) (by omega)
  rw [parseI128_eq hfits, addI128_eq (by rwa [hn]), hn] at hbytes
  rw [hbytes]
  constructor
  · rintro ⟨ds, heq, -, -, hpad⟩ hpadded
    have hds : numeral r (max n 0).toNat = ds := by
      apply List.append_cancel_left
      rw [heq, ← h.head]
      rfl
    have hlen : (slice b (p + 2) e).length ≤ ds.length := by
      rw [hpad, if_pos (show Padded ((Literal.based p e r).digits b) from hpadded)]
      exact Nat.le_max_left _ _
    rw [hwidth, ← hds, width_kept_iff hr (hwidth ▸ hpadded.1)] at hlen
    exact hlen
  · intro hpow
    refine ⟨numeral r (max n 0).toNat, ?_, isDigitOf_numeral hr hr16 _, ?_, ?_⟩
    · rw [← h.head]
      rfl
    · rw [hnumber]
      exact (numeralValue_numeral hr hr16 _).trans (by omega)
    · have hkept : (if Padded (slice b (p + 2) e) then (slice b (p + 2) e).length else 0) ≤
          (numeral r (max n 0).toNat).length := by
        split
        · rename_i hpadded
          rw [hwidth, width_kept_iff hr (hwidth ▸ hpadded.1)]
          exact hpow hpadded
        · exact Nat.zero_le _
      have hlog := length_numeral hr (max n 0).toNat
      rw [hnumber, show (max n 0).natAbs = (max n 0).toNat by omega]
      show _ = max (if Padded (slice b (p + 2) e) then (slice b (p + 2) e).length else 0)
        (Nat.log r _ + 1)
      omega

/-- A sum that wraps becomes a negative one, which stays at zero. -/
theorem BasedLit.not_denotes_of_wraps (h : BasedLit b le p e r c)
    (hfits : FitsI128 ((Literal.based p e r).value b ls))
    (hsum : ¬ FitsI128 ((Literal.based p e r).value b ls + delta.toInt)) :
    ¬ Denotes b ls (.based p e r) delta (incrBased b le p delta).bytes := by
  obtain ⟨hr, hr16⟩ := h.radix_bounds
  have hbytes := h.bytes_eq delta
  have hval : (numeralValue r (slice b (p + 2) e) : Int) = (Literal.based p e r).value b ls := rfl
  rw [hval] at hbytes
  have hge := delta.le_toInt
  have hnonneg : (0 : Int) ≤ (Literal.based p e r).value b ls := by rw [← hval]; exact Int.natCast_nonneg _
  have hbig : 2 ^ 127 ≤ (Literal.based p e r).value b ls + delta.toInt := by
    unfold FitsI128 at hsum
    omega
  have hneg := (addI128_wraps hfits hsum).mpr (by omega)
  rw [parseI128_eq hfits] at hbytes
  rintro ⟨ds, heq, -, hvalue, -⟩
  have hds : numeral r 0 = ds := by
    apply List.append_cancel_left
    rw [hbytes, show (max (addI128 ((Literal.based p e r).value b ls) delta.toInt) 0).toNat = 0 by omega]
      at heq
    rw [heq, ← h.head]
    rfl
  have hzero : numeralValue r (numeral r 0) = 0 := numeralValue_numeral hr hr16 0
  have hnumber : (Literal.based p e r).sum b ls delta =
      max ((Literal.based p e r).value b ls + delta.toInt) 0 := rfl
  rw [← hds, hnumber] at hvalue
  change numeralValue r (numeral r 0) = _ at hvalue
  omega

/-- A value that does not fit is read as zero, and never written back. -/
theorem BasedLit.bytes_ne_of_misfit (h : BasedLit b le p e r c)
    (hfits : ¬ FitsI128 ((Literal.based p e r).value b ls)) :
    (incrBased b le p delta).bytes ≠ slice b p e := by
  obtain ⟨hr, hr16⟩ := h.radix_bounds
  have hdigit := h.some_digit
  have hbytes := h.bytes_eq delta
  have hval : (numeralValue r (slice b (p + 2) e) : Int) = (Literal.based p e r).value b ls := rfl
  rw [hval] at hbytes
  intro heq
  obtain ⟨hresult, hfar⟩ := addI128_misfit delta hfits
  rw [hbytes, hresult, ← slice_append_slice (show p ≤ p + 2 by omega) (show p + 2 ≤ e by omega), h.head]
    at heq
  have hds := congrArg (numeralValue r) (List.append_cancel_left heq)
  rw [numeralValue_numeral hr hr16] at hds
  omega

/-- The digits put for a based literal are right exactly where the sum is as long and fits. -/
theorem BasedLit.right_iff (h : BasedLit b le p e r c) (hle : le ≤ b.length) :
    (FitsI128 ((Literal.based p e r).value b ls) →
        Denotes b ls (.based p e r) delta (incrBased b le p delta).bytes) ∧
      (¬ FitsI128 ((Literal.based p e r).value b ls) →
        (incrBased b le p delta).bytes = slice b p e) ↔
      Adds b ls delta (.based p e r) := by
  have hadds : Adds b ls delta (.based p e r) ↔ FitsI128 ((Literal.based p e r).value b ls) ∧
      FitsI128 ((Literal.based p e r).value b ls + delta.toInt) ∧
      (Padded (slice b (p + 2) e) →
        (r : Int) ^ (e - (p + 2) - 1) ≤ (Literal.based p e r).value b ls + delta.toInt) := .rfl
  rw [hadds]
  by_cases hfits : FitsI128 ((Literal.based p e r).value b ls)
  · simp only [hfits, forall_const, not_true_eq_false, false_imp_iff, and_true, true_and]
    by_cases hsum : FitsI128 ((Literal.based p e r).value b ls + delta.toInt)
    · simp only [hsum, true_and]
      exact h.denotes_iff hle hfits hsum
    · simp only [hsum, false_and, iff_false]
      exact h.not_denotes_of_wraps hfits hsum
  · simp only [hfits, false_imp_iff, true_and, false_and, iff_false, not_false_eq_true, forall_const]
    exact h.bytes_ne_of_misfit hfits

end

/-! ## Decimal numbers -/

def minus (n : Int) : Bytes := if n < 0 then [0x2D] else []

theorem minus_append_inj {m n : Int} {ds ds' : Bytes} (hds : ∀ c ∈ ds, isDigitOf 10 c = true)
    (hds' : ∀ c ∈ ds', isDigitOf 10 c = true) (h : minus m ++ ds = minus n ++ ds') :
    (m < 0 ↔ n < 0) ∧ ds = ds' := by
  unfold minus at h
  split at h <;> split at h
  · rename_i hm hn
    exact ⟨iff_of_true hm hn, List.append_cancel_left h⟩
  · have hmem : (0x2D : UInt8) ∈ ds' := by
      rw [← List.nil_append ds', ← h]
      exact List.mem_cons_self
    exact absurd (hds' _ hmem) (by decide)
  · have hmem : (0x2D : UInt8) ∈ ds := by
      rw [← List.nil_append ds, h]
      exact List.mem_cons_self
    exact absurd (hds _ hmem) (by decide)
  · rename_i hm hn
    exact ⟨iff_of_false hm hn, h⟩

/-- The digits of a result, as wide as digits with zeros before them. -/
def widened (width : Nat) (zero : Prop) [Decidable zero] (mag : Bytes) : Bytes :=
  if zero ∧ mag.length < width then List.replicate (width - mag.length) 0x30 ++ mag else mag

section
variable {width n : Nat} {zero : Prop} [Decidable zero]

/-- The digits written keep the width of leading zeros. -/
theorem widened_spec (width n : Nat) (zero : Prop) [Decidable zero] :
    (∀ c ∈ widened width zero (numeral 10 n), isDigitOf 10 c = true) ∧
      numeralValue 10 (widened width zero (numeral 10 n)) = n ∧
      (widened width zero (numeral 10 n)).length =
        max (if zero then width else 0) (Nat.log 10 n + 1) := by
  have hlog := length_numeral (r := 10) (by decide) n
  have hdigit := isDigitOf_numeral (r := 10) (by decide) (by decide) n
  have hvalue := numeralValue_numeral (r := 10) (by decide) (by decide) n
  unfold widened
  split
  · rename_i hzero
    refine ⟨fun c hc => ?_, ?_, ?_⟩
    · rcases List.mem_append.mp hc with hc | hc
      · rw [List.eq_of_mem_replicate hc]
        rfl
      · exact hdigit c hc
    · rw [numeralValue_zeros, hvalue]
    · rw [List.length_append, List.length_replicate, if_pos hzero.1]
      omega
  · rename_i hnot
    refine ⟨hdigit, hvalue, ?_⟩
    split
    · rename_i hzero
      have : ¬ (numeral 10 n).length < width := fun hlt => hnot ⟨hzero, hlt⟩
      omega
    · omega

end

section
variable {b : Bytes} {ls le s e d : Nat} {delta : Int64}

theorem incrDecimal_bytes (hs : runBegin isDigit b ls d = s) (he : runEnd isDigit (b.take le) d = e) :
    (incrDecimal b ls le d delta).bytes =
      let result := addI128 (parseI128 (signedValue b ls s e)) delta.toInt
      minus result ++ widened (e - s) (e - s > 1 ∧ b[s]? = some 0x30) (numeral 10 result.natAbs) := by
  unfold incrDecimal minus widened
  dsimp only
  rw [hs, he]
  split <;> rfl

theorem slice_signStart (hse : s ≤ e) :
    slice b (signStart b ls s) e = minus (if signStart b ls s < s then -1 else 0) ++ slice b s e := by
  rcases signStart_cases b ls s with h | ⟨h, hlt, hminus⟩
  · rw [h, if_neg (Nat.lt_irrefl s)]
    rfl
  · obtain ⟨hlen, hbyte⟩ := List.getElem?_eq_some_iff.mp hminus
    rw [h, if_pos (by omega), ← slice_append_slice (show s - 1 ≤ s by omega) hse]
    rw [slice, List.drop_eq_getElem_cons hlen, hbyte, show s - (s - 1) = 1 by omega]
    rfl

theorem padded_slice_iff (hse : s < e) (hle : e ≤ b.length) :
    Padded (slice b s e) ↔ e - s > 1 ∧ b[s]? = some 0x30 := by
  have hhead : (slice b s e).head? = b[s]? := by
    rw [List.head?_eq_getElem?, slice, List.getElem?_take_of_lt (by omega), List.getElem?_drop,
      Nat.add_zero]
  rw [Padded, slice_length (Nat.le_of_lt hse) hle, hhead]

/-- The digits put for a decimal are right exactly where the value and the sum fit an `i128`. -/
theorem decimal_right_iff (hse : s < e) (hle : e ≤ b.length)
    (hdigits : ∀ k, s ≤ k → k < e → ∃ x, b[k]? = some x ∧ isDigit x = true)
    (hs : runBegin isDigit b ls d = s) (he : runEnd isDigit (b.take le) d = e) :
    (FitsI128 ((Literal.decimal s e).value b ls) →
        Denotes b ls (.decimal s e) delta (incrDecimal b ls le d delta).bytes) ∧
      (¬ FitsI128 ((Literal.decimal s e).value b ls) →
        (incrDecimal b ls le d delta).bytes = slice b (signStart b ls s) e) ↔
      Adds b ls delta (.decimal s e) := by
  have hbytes := @incrDecimal_bytes b ls le s e d delta hs he
  generalize hv : signedValue b ls s e = v at hbytes
  have hval : (Literal.decimal s e).value b ls = v := hv
  have hsum : (Literal.decimal s e).sum b ls delta = v + delta.toInt := by rw [← hv]; rfl
  have hadds : Adds b ls delta (.decimal s e) ↔ FitsI128 v ∧ FitsI128 (v + delta.toInt) := by
    rw [← hv]
    exact and_congr_right' (and_true _).to_iff
  have hold : ∀ c ∈ slice b s e, isDigitOf 10 c = true := by
    intro c hc
    obtain ⟨k, hsk, hke, hk⟩ := mem_slice_iff.mp hc
    obtain ⟨x, hx, hdigit⟩ := hdigits k hsk hke
    rw [hk] at hx
    cases hx
    rw [isDigitOf_ten]
    exact hdigit
  have hmag : v.natAbs = numeralValue 10 (slice b s e) := by
    rw [← hv]
    unfold signedValue
    dsimp only
    split <;> omega
  rw [hadds, hval, hbytes]
  dsimp only
  generalize hresult : addI128 (parseI128 v) delta.toInt = result
  obtain ⟨hnew, hvalue, hwide⟩ :=
    widened_spec (e - s) result.natAbs (e - s > 1 ∧ b[s]? = some 0x30)
  generalize widened (e - s) (e - s > 1 ∧ b[s]? = some 0x30) (numeral 10 result.natAbs) = mag at *
  by_cases hfits : FitsI128 v
  · simp only [hfits, forall_const, not_true_eq_false, false_imp_iff, and_true, true_and]
    rw [parseI128_eq hfits] at hresult
    by_cases hfits' : FitsI128 (v + delta.toInt)
    · simp only [hfits', iff_true]
      rw [addI128_eq hfits'] at hresult
      refine ⟨mag, ?_, hnew, ?_, ?_⟩
      · rw [hsum, hresult]
        rfl
      · rw [hsum, hresult]
        exact hvalue
      · rw [hsum, hresult, hwide]
        show _ = max (if Padded (slice b s e) then (slice b s e).length else 0) (Nat.log 10 _ + 1)
        rw [slice_length (Nat.le_of_lt hse) hle, if_congr (padded_slice_iff hse hle) rfl rfl]
    · -- the sum wraps and has the other sign
      simp only [hfits', iff_false]
      rintro ⟨ds, heq, hds, -, -⟩
      rw [hsum] at heq
      obtain ⟨hsign, -⟩ := minus_append_inj (n := v + delta.toInt) hnew hds heq
      have hwraps := addI128_wraps hfits hfits'
      omega
  · -- the value does not fit, and is not written back
    simp only [hfits, false_imp_iff, true_and, false_and, iff_false, not_false_eq_true, forall_const]
    intro heq
    obtain ⟨hdelta, hfar⟩ := addI128_misfit delta hfits
    rw [slice_signStart (Nat.le_of_lt hse)] at heq
    obtain ⟨-, hds⟩ := minus_append_inj hnew hold heq
    have hsame := congrArg (numeralValue 10) hds
    rw [hvalue, ← hmag, ← hresult, hdelta] at hsame
    omega

end

/-! ## The edit is right -/

/-- An edit of `CTRL-A` is right exactly where its way back reaches the literal at the cursor and the
numbers fit. -/
theorem incrNumber_right {b : Bytes} {ls cur : Nat} {delta : Int64} {r : Incr} (hls : ls ≤ b.length)
    (h : incrNumber b ls (lineEnd b ls) cur delta = some r) :
    Right b ls (lineEnd b ls) cur delta r ↔
      ∃ l ∈ literalAt b ls (lineEnd b ls) cur,
        Reached b ls (firstDigit b ls (lineEnd b ls) cur) l ∧ Adds b ls delta l := by
  have hle := lineEnd_le_length b ls
  have hend := (lineEnd_spec hls).1
  generalize lineEnd b ls = le at *
  have hlt : firstDigit b ls le cur < le := by
    by_contra hge
    rw [incrNumber, if_pos (Nat.le_of_not_lt hge)] at h
    cases h
  obtain ⟨hlsd, hcurd, ⟨y, hy, hydigit⟩, -⟩ := firstDigit_at hle hlt
  obtain ⟨l, hat, hlexed, hcur⟩ := exists_literalAt hlsd hcurd hlt
    ((Option.any_eq_true _ _).mpr ⟨y, hy, hydigit⟩)
  obtain ⟨hspans, hr⟩ := incrNumber_spans_iff hle hend hlexed hcur h
  have hright : Right b ls le cur delta r ↔ r.Spans b ls l ∧
      (FitsI128 (l.value b ls) → Denotes b ls l delta r.bytes) ∧
      (¬ FitsI128 (l.value b ls) → r.bytes = slice b (l.start b ls) l.stop) := by
    unfold Right Incr.Spans
    rw [hat]
    simp only [Option.mem_some, exists_eq_left', and_assoc]
  have hvalue : r.Spans b ls l → ((FitsI128 (l.value b ls) → Denotes b ls l delta r.bytes) ∧
      (¬ FitsI128 (l.value b ls) → r.bytes = slice b (l.start b ls) l.stop) ↔ Adds b ls delta l) := by
    intro hspan
    have hreached := hspans.mp hspan
    rw [hr hspan]
    cases l with
    | decimal s e =>
      obtain ⟨hsd, hde, hbefore, -, -⟩ := hreached
      obtain ⟨hbegin, hrun⟩ := decimal_run hlexed hle hsd hde hbefore
      obtain ⟨-, hs, -, -, he⟩ := hlexed
      have hele : e ≤ le := he ▸ runEnd_line_le (Nat.le_of_lt hs) hle
      apply decimal_right_iff (by omega) (by omega) ?_ hbegin hrun
      intro k hk hke
      exact (runEnd_line_mem hk (he ▸ hke)).2
    | based p e k =>
      obtain ⟨-, hp, hbased, rfl, rfl⟩ := hlexed
      obtain ⟨c, hlit⟩ := basedLit_of_basedAt hle hend hp hbased
      exact hlit.right_iff hle
  rw [hright, hat]
  simp only [Option.mem_some, exists_eq_left', ← hspans]
  exact and_congr_right hvalue

/-! ## The commands -/

def Incr.edit (r : Incr) : Edit := .replace r.start r.oldLen r.bytes

/-- `IncrementNumber`: `CTRL-A` and `CTRL-X`. -/
def incrementNumber (st : EditorState) (delta : Int64) : Plan :=
  let b := st.doc.text
  let cur := st.view.cursor
  match incrNumber b (lineStart b cur) (lineEnd b cur) cur delta with
  | some r => .edit (.one r.edit) r.cursor st.view.mode st.view.groupHint
  | none => .nop cur st.view.mode

/-- `selection_range`: the bytes of a selection, with the character under its higher end. -/
def selectionRange (g : Segmenter) (b : Bytes) (anchor cursor : Nat) (line : Bool) : Nat × Nat :=
  let lo := min anchor cursor
  let hi := max anchor cursor
  if line then
    let le := lineEnd b hi
    (lineStart b lo, if le < b.length then le + 1 else le)
  else
    (lo,
      if hi ≥ b.length ∨ (b[hi]? = some newline ∧ hi + 1 = b.length) then hi
      else if b[hi]? = some newline then hi + 1
      else nextGrapheme g b hi)

/-- The lines from `ls` on that start before `e`, each with where its search starts. -/
def linesUpTo (b : Bytes) (e : Nat) : (left ls start : Nat) → List (Nat × Nat)
  | 0, _, _ => []
  | left + 1, ls, start =>
    if ls < e ∧ ls ≤ b.length then
      let le := lineEnd b ls
      (ls, start) :: if le ≥ b.length then [] else linesUpTo b e left (le + 1) (le + 1)
    else []

/-- The selected lines, each with where its search starts: at the selection's left edge. -/
def selectedLines (g : Segmenter) (cells : Cells) (b : Bytes) (anchor cur : Nat)
    (kind : Option SelectKind) : List (Nat × Nat) :=
  if kind = some .blockwise then
    (Block.geom cells b anchor cur false).rows.map fun r => (r.ls, r.ds)
  else
    let linewise := kind == some .linewise
    let (s, e) := selectionRange g b anchor cur linewise
    let ls := lineStart b (min s b.length)
    linesUpTo b e (b.length + 1) ls (if linewise then ls else max s ls)

/-- The edits on `lines`, `steps` of which had a number before them. -/
def incrEdits (b : Bytes) (delta : Int64) (sequential : Bool) :
    (steps : Int64) → List (Nat × Nat) → List Edit
  | _, [] => []
  | steps, (ls, start) :: rest =>
    let this := if sequential then delta * (steps + 1) else delta
    match incrNumber b ls (lineEnd b ls) start this with
    | some r => r.edit :: incrEdits b delta sequential (steps + 1) rest
    | none => incrEdits b delta sequential steps rest

/-- `IncrementSelection`: `CTRL-A` and `CTRL-X` in Visual mode, and `g` with them. `none` is a
panic. -/
def incrementSelection (g : Segmenter) (cells : Cells) (st : EditorState) (delta : Int64)
    (sequential : Bool) : Option Plan :=
  let b := st.doc.text
  let cur := st.view.cursor
  match st.view.anchor with
  | none => some (.nop cur .normal)
  | some anchor =>
    let lines := selectedLines g cells b anchor cur st.view.mode.selection
    let caret := (lines.head?.map Prod.snd).getD cur
    let edits := incrEdits b delta sequential 0 lines
    if edits.isEmpty then some (.nop caret .normal)
    else (EditList.new edits).toOption.map fun list => .edit list caret .normal st.view.groupHint

/-! ## One edit a line -/

/-- The edits replace numbers on lines of `lines`, at most one on each, in order. -/
structure OnePerLine (b : Bytes) (lines : List (Nat × Nat)) (edits : List Edit) : Prop where
  each : ∃ chosen, chosen.Sublist lines ∧ List.Forall₂ (fun e p => ∃ delta r,
    incrNumber b p.1 (lineEnd b p.1) p.2 delta = some r ∧ e = r.edit) edits chosen
  order : edits.Pairwise Edit.Before

section
variable {b : Bytes} {ls le cur : Nat} {delta : Int64}

/-- The edit of a line lies within the line. -/
theorem incrNumber_within {r : Incr} (hls : ls ≤ b.length)
    (h : incrNumber b ls (lineEnd b ls) cur delta = some r) :
    ls ≤ r.start ∧ r.start < r.start + r.oldLen ∧ r.start + r.oldLen ≤ lineEnd b ls := by
  have hle := lineEnd_le_length b ls
  have hend := (lineEnd_spec hls).1
  generalize lineEnd b ls = le at *
  unfold incrNumber at h
  dsimp only at h
  split at h
  · cases h
  rename_i hlt
  obtain ⟨hlsd, -, ⟨y, hy, hydigit⟩, -⟩ := firstDigit_at hle (Nat.lt_of_not_le hlt)
  have hbased {pre : Nat} (hpre : ls ≤ pre) (hstop : pre + 2 ≤ le) :
      ls ≤ (incrBased b le pre delta).start ∧ (incrBased b le pre delta).start <
        (incrBased b le pre delta).start + (incrBased b le pre delta).oldLen ∧
      (incrBased b le pre delta).start + (incrBased b le pre delta).oldLen ≤ le := by
    have hge : pre + 2 ≤ basedEnd b le pre (radixAt b pre) := le_runEnd _ _ _
    have hbound : basedEnd b le pre (radixAt b pre) ≤ le := runEnd_line_le hstop hle
    show ls ≤ pre ∧ pre < pre + (basedEnd b le pre (radixAt b pre) - pre) ∧
      pre + (basedEnd b le pre (radixAt b pre) - pre) ≤ le
    omega
  split at h
  · rename_i hat
    cases h
    obtain ⟨c, hlit⟩ := basedLit_of_basedAt hle hend (Nat.lt_of_not_le hlt) hat
    have := hlit.some_digit
    have := hlit.end_le
    exact hbased hlsd (by omega)
  · split at h
    · rename_i hinside
      cases h
      obtain ⟨q, c, hleft, hlsq, hqd, -⟩ := basedInside_spec hlsd (by omega) hinside
      rw [hleft, Nat.add_sub_cancel]
      exact hbased hlsq (by omega)
    · cases h
      obtain ⟨hge, hbegin, -, -⟩ := runBegin_spec (p := isDigit) hlsd
        (show firstDigit b ls le cur ≤ b.length by omega)
      have hstop := lt_runEnd_of_digit (Nat.lt_of_not_le hlt) ((Option.any_eq_true _ _).mpr ⟨y, hy, hydigit⟩)
      have hbound := runEnd_line_le (p := isDigit) (Nat.le_of_lt (Nat.lt_of_not_le hlt)) hle
      have hsign := signStart_cases b ls (runBegin isDigit b ls (firstDigit b ls le cur))
      show ls ≤ signStart b ls _ ∧ signStart b ls _ < signStart b ls _ + (runEnd isDigit (b.take le) _ - signStart b ls _) ∧
        signStart b ls _ + (runEnd isDigit (b.take le) _ - signStart b ls _) ≤ le
      omega

/-- There is at most one edit for each line, on that line. -/
theorem incrEdits_onePerLine {sequential : Bool} {steps : Int64} {lines : List (Nat × Nat)}
    (hlen : ∀ p ∈ lines, p.1 ≤ b.length) (hbelow : lines.Pairwise fun p q => lineEnd b p.1 < q.1) :
    OnePerLine b lines (incrEdits b delta sequential steps lines) ∧
      ∀ e ∈ incrEdits b delta sequential steps lines,
        ∃ p ∈ lines, p.1 ≤ e.pos ∧ e.pos < e.endPos ∧ e.endPos ≤ lineEnd b p.1 := by
  induction lines generalizing steps with
  | nil => exact ⟨⟨⟨[], .refl _, .nil⟩, .nil⟩, fun e he => by cases he⟩
  | cons p rest ih =>
    obtain ⟨ls, start⟩ := p
    have hlen' : ∀ p ∈ rest, p.1 ≤ b.length := fun p hp => hlen p (List.mem_cons_of_mem _ hp)
    obtain ⟨hfirst, hrest⟩ := List.pairwise_cons.mp hbelow
    rw [incrEdits]
    split
    · rename_i r hr
      obtain ⟨hge, hsome, hend⟩ := incrNumber_within (hlen _ List.mem_cons_self) hr
      obtain ⟨⟨⟨chosen, hsub, hall⟩, horder⟩, hwithin⟩ := ih hlen' hrest
      refine ⟨⟨⟨(ls, start) :: chosen, hsub.cons_cons _, .cons ⟨_, r, hr, rfl⟩ hall⟩, .cons ?_ horder⟩, ?_⟩
      · intro e he
        obtain ⟨p, hp, hpos, -⟩ := hwithin e he
        have hbefore := hfirst p hp
        change r.start < e.pos ∧ r.start + r.oldLen ≤ e.pos
        omega
      · intro e he
        rcases List.mem_cons.mp he with rfl | he
        · exact ⟨_, List.mem_cons_self, hge, hsome, hend⟩
        · obtain ⟨p, hp, hin⟩ := hwithin e he
          exact ⟨p, List.mem_cons_of_mem _ hp, hin⟩
    · obtain ⟨⟨⟨chosen, hsub, hall⟩, horder⟩, hwithin⟩ := ih hlen' hrest
      refine ⟨⟨⟨chosen, hsub.cons _, hall⟩, horder⟩, fun e he => ?_⟩
      obtain ⟨p, hp, hin⟩ := hwithin e he
      exact ⟨p, List.mem_cons_of_mem _ hp, hin⟩

/-- The lines of a selection start below one another. -/
theorem linesUpTo_below {e left start : Nat} :
    (∀ p ∈ linesUpTo b e left ls start, ls ≤ p.1 ∧ p.1 ≤ b.length) ∧
      (linesUpTo b e left ls start).Pairwise fun p q => lineEnd b p.1 < q.1 := by
  induction left generalizing ls start with
  | zero => exact ⟨fun p hp => (by cases hp), .nil⟩
  | succ left ih =>
    rw [linesUpTo]
    split
    · rename_i hls
      have hle := le_lineEnd b hls.2
      dsimp only
      split
      · exact ⟨fun p hp => by rw [List.mem_singleton.mp hp]; exact ⟨Nat.le_refl _, hls.2⟩,
          List.pairwise_singleton _ _⟩
      · obtain ⟨hmem, hbelow⟩ := ih
        refine ⟨fun p hp => ?_, .cons (fun p hp => (hmem p hp).1) hbelow⟩
        rcases List.mem_cons.mp hp with rfl | hp
        · exact ⟨Nat.le_refl _, hls.2⟩
        · have := hmem p hp
          omega
    · exact ⟨fun p hp => (by cases hp), .nil⟩

/-- The selected lines start in the text, below one another. -/
theorem selectedLines_below (g : Segmenter) (cells : Cells) (b : Bytes) (anchor cur : Nat)
    (kind : Option SelectKind) : (∀ p ∈ selectedLines g cells b anchor cur kind, p.1 ≤ b.length) ∧
      (selectedLines g cells b anchor cur kind).Pairwise fun p q => lineEnd b p.1 < q.1 := by
  unfold selectedLines
  split
  · obtain ⟨hrows, hbelow⟩ := Block.rows_below cells b (min anchor cur) (max anchor cur)
      (min (vcolsAt cells b anchor).1 (vcolsAt cells b cur).1)
      (max (vcolsAt cells b anchor).2 (vcolsAt cells b cur).2)
    constructor
    · intro p hp
      obtain ⟨r, hr, rfl⟩ := List.mem_map.mp hp
      exact (hrows r hr).2.1
    · refine List.pairwise_map.mpr (hbelow.imp_of_mem fun {r r'} hr hr' h => ?_)
      rw [(hrows r hr).1, blockRow_le] at h
      exact h
  · dsimp only
    obtain ⟨hmem, hbelow⟩ := linesUpTo_below
    exact ⟨fun p hp => (hmem p hp).2, hbelow⟩

end

theorem lineEnd_lineStart {b : Bytes} {p : Nat} (hp : p ≤ b.length) :
    lineEnd b (lineStart b p) = lineEnd b p := by
  obtain ⟨hend, hno⟩ := lineEnd_spec hp
  have hle := le_lineEnd b hp
  have hls := lineStart_le b p
  apply lineEnd_eq (by omega) (lineEnd_le_length b p) hend
  intro k hk hlt
  rcases Nat.lt_or_ge k p with hkp | hge
  · exact (lineStart_spec b p).2 k hk hkp
  · exact hno k hge hlt

/-- Visual increments are accepted as they are made: at most one on each of the selected lines. -/
theorem incrementSelection_onePerLine (g : Segmenter) (cells : Cells) (st : EditorState) (delta : Int64)
    (sequential : Bool) :
    ∃ plan, incrementSelection g cells st delta sequential = some plan ∧
      ∀ edits hint, plan.action = .txn edits hint → ∃ lines,
        lines.Pairwise (fun p q => lineEnd st.doc.text p.1 < q.1) ∧
        OnePerLine st.doc.text lines edits.edits := by
  unfold incrementSelection
  dsimp only
  generalize st.doc.text = b
  split
  · exact ⟨_, rfl, fun edits hint h => by cases h⟩
  · rename_i anchor hanchor
    obtain ⟨hlen, hbelow⟩ :=
      selectedLines_below g cells b anchor st.view.cursor st.view.mode.selection
    generalize selectedLines g cells b anchor st.view.cursor st.view.mode.selection = lines at *
    obtain ⟨hone, hwithin⟩ := incrEdits_onePerLine
      hlen hbelow
    have hchanges : ∀ e ∈ incrEdits b delta sequential 0 lines, e.Changes := by
      intro e he
      obtain ⟨p, -, -, hsome, -⟩ := hwithin e he
      left
      unfold Edit.endPos at hsome
      omega
    split
    · exact ⟨_, rfl, fun edits hint h => by cases h⟩
    · have hnew := EditList.new_edits ⟨incrEdits b delta sequential 0 lines, hone.order, hchanges⟩
      rw [hnew]
      refine ⟨_, rfl, fun edits hint h => ?_⟩
      cases h
      exact ⟨lines, hbelow, hone⟩

/-- Where `CTRL-A` and `CTRL-X` are right. An edit replaces all of the literal at the cursor by its
sum exactly where the way back from the first digit reaches that literal and the numbers fit; and
the Visual ones make at most one such edit a line, which are accepted as they are. -/
theorem increments_right (g : Segmenter) (cells : Cells) (st : EditorState) (delta : Int64) :
    (∀ (b : Bytes) (ls cur : Nat) (r : Incr), ls ≤ b.length →
      incrNumber b ls (lineEnd b ls) cur delta = some r →
      (Right b ls (lineEnd b ls) cur delta r ↔
        ∃ l ∈ literalAt b ls (lineEnd b ls) cur,
          Reached b ls (firstDigit b ls (lineEnd b ls) cur) l ∧ Adds b ls delta l)) ∧
    (∀ (edits : EditList) (hint : GroupHint),
      st.view.cursor ≤ st.doc.text.length → (incrementNumber st delta).action = .txn edits hint →
      ∃ r, incrNumber st.doc.text (lineStart st.doc.text st.view.cursor)
          (lineEnd st.doc.text (lineStart st.doc.text st.view.cursor)) st.view.cursor delta = some r ∧
        edits = .one r.edit) ∧
    ∀ sequential : Bool,
      ∃ plan, incrementSelection g cells st delta sequential = some plan ∧
        ∀ edits hint, plan.action = .txn edits hint → ∃ lines,
          lines.Pairwise (fun p q => lineEnd st.doc.text p.1 < q.1) ∧
          OnePerLine st.doc.text lines edits.edits := by
  refine ⟨fun b ls cur r hls h => incrNumber_right hls h, ?_,
    incrementSelection_onePerLine g cells st delta⟩
  intro edits hint hcur h
  rw [lineEnd_lineStart hcur]
  unfold incrementNumber at h
  dsimp only at h
  split at h
  · rename_i r hr
    cases h
    exact ⟨r, hr, rfl⟩
  · cases h

/-- On the `9` of `"a-09 0x0f"` the number is the one with the sign, which stays as wide. -/
theorem increments_right_minusNine :
    incrNumber [97, 45, 48, 57, 32, 48, 120, 48, 102] 0 9 3 1 = some ⟨1, 3, [45, 48, 56], 3⟩ ∧
    Right [97, 45, 48, 57, 32, 48, 120, 48, 102] 0 9 3 1 ⟨1, 3, [45, 48, 56], 3⟩ := by
  have hr : incrNumber [97, 45, 48, 57, 32, 48, 120, 48, 102] 0 9 3 1 = some ⟨1, 3, [45, 48, 56], 3⟩ := by
    decide +kernel
  have hend : lineEnd [97, 45, 48, 57, 32, 48, 120, 48, 102] 0 = 9 := by decide
  have hright := (increments_right .eachChar (fun _ i _ _ => (i + 1, 1))
    ⟨Document.new [], View.fresh, .userInput⟩ 1).1
    [97, 45, 48, 57, 32, 48, 120, 48, 102] 0 3 ⟨1, 3, [45, 48, 56], 3⟩ (Nat.zero_le _)
  rw [hend] at hright
  refine ⟨hr, (hright hr).mpr ⟨.decimal 2 4, by decide +kernel, ?_, by decide +kernel, by decide +kernel, trivial⟩⟩
  exact ⟨by decide +kernel, by decide +kernel, by decide +kernel, by decide +kernel, by decide +kernel⟩

/-- On the second digit of `"0b101"` the literal is not found: its last three digits become `102`. -/
theorem increment_binary_digits :
    incrNumber [48, 98, 49, 48, 49] 0 5 2 1 = some ⟨2, 3, [49, 48, 50], 4⟩ ∧
    literalAt [48, 98, 49, 48, 49] 0 5 2 = some (.based 0 5 2) ∧
    ¬ Right [48, 98, 49, 48, 49] 0 5 2 1 ⟨2, 3, [49, 48, 50], 4⟩ := by
  have hlit : literalAt [48, 98, 49, 48, 49] 0 5 2 = some (.based 0 5 2) := by decide +kernel
  refine ⟨by decide +kernel, hlit, ?_⟩
  rintro ⟨l, hl, hstart, -⟩
  rw [hlit] at hl
  cases hl
  exact absurd hstart (by decide)

end Ruse.Core
