import Ruse.Core.ByteRuns
import Ruse.Lib.Numerals

/-!
# Adding to a number

The model of `incr_number` in `crates/core/src/editor/planner.rs`, the engine of `CTRL-A` and
`CTRL-X`. The number literals of a line are those a reader from left to right finds (`literals`);
`literalAt` is the first one that ends after the cursor. `incrNumber` finds that one where its way
back from the first decimal digit leads to it (`Reached`), and adds to it where the numbers fit
(`Adds`); `incrNumber_right_iff` says that it is right there and nowhere else.
-/

namespace Ruse.Core

open Ruse.Lib

/-! ## The source -/

/-- `radix_of`: the base a letter after a zero stands for. -/
def radixOf (c : UInt8) : Option Nat :=
  if c = 0x78 ∨ c = 0x58 then some 16
  else if c = 0x6F ∨ c = 0x4F then some 8
  else if c = 0x62 ∨ c = 0x42 then some 2
  else none

/-- `based_at_d`: a based literal begins at `d`. -/
def basedAt (b : Bytes) (d : Nat) : Bool :=
  b[d]? == some 0x30 && (b[d + 1]?.bind radixOf).any fun r => b[d + 2]?.any (isDigitOf r)

/-- `hleft`: where the hexadecimal digits before `d` begin. -/
def hexLeft (b : Bytes) (ls d : Nat) : Nat := runBegin isHexDigit b ls d

/-- `based_inside`: these digits lead back to a zero and a base letter. -/
def basedInside (b : Bytes) (ls d : Nat) : Bool :=
  let hleft := hexLeft b ls d
  decide (ls + 2 ≤ hleft) && b[hleft - 2]? == some 0x30 && (b[hleft - 1]?.bind radixOf).isSome

def FitsI128 (x : Int) : Prop := -2 ^ 127 ≤ x ∧ x < 2 ^ 127

instance (x : Int) : Decidable (FitsI128 x) := inferInstanceAs (Decidable (_ ∧ _))

/-- `parse().ok().unwrap_or(0)` to an `i128`. -/
def parseI128 (x : Int) : Int := if FitsI128 x then x else 0

/-- `i128` addition without overflow checks. -/
def addI128 (x y : Int) : Int := (x + y).bmod (2 ^ 128)

/-- The base of the literal at `pre`. -/
def radixAt (b : Bytes) (pre : Nat) : Nat := (b[pre + 1]?.bind radixOf).getD 16

/-- A replacement, and where the cursor goes. -/
structure Incr where
  start : Nat
  oldLen : Nat
  bytes : Bytes
  cursor : Nat
deriving DecidableEq, Repr

/-- One past the digits of the based literal at `pre`. -/
def basedEnd (b : Bytes) (le pre radix : Nat) : Nat := runEnd (isDigitOf radix) (b.take le) (pre + 2)

/-- The branch of a based literal at `pre`. -/
def incrBased (b : Bytes) (le pre : Nat) (delta : Int64) : Incr :=
  let radix := radixAt b pre
  let letter := b.getD (pre + 1) 0
  let stop := basedEnd b le pre radix
  let val := parseI128 (numeralValue radix (slice b (pre + 2) stop))
  let n := max (addI128 val delta.toInt) 0
  let bytes := 0x30 :: letter :: numeral radix n.toNat
  ⟨pre, stop - pre, bytes, pre + (bytes.length - 1)⟩

/-- Where a number begins whose digits begin at `start`: at a sign right before them. -/
def signStart (b : Bytes) (ls start : Nat) : Nat :=
  if ls < start ∧ b[start - 1]? = some 0x2D then start - 1 else start

/-- The value of the digits from `start` to `stop` with their sign. -/
def signedValue (b : Bytes) (ls start stop : Nat) : Int :=
  let v := numeralValue 10 (slice b start stop)
  if signStart b ls start < start then -v else v

/-- The branch of a decimal number around `d`. -/
def incrDecimal (b : Bytes) (ls le d : Nat) (delta : Int64) : Incr :=
  let start := runBegin isDigit b ls d
  let stop := runEnd isDigit (b.take le) d
  let numStart := signStart b ls start
  let val := parseI128 (signedValue b ls start stop)
  let result := addI128 val delta.toInt
  let origMagWidth := stop - start
  let hadLeadingZero := origMagWidth > 1 ∧ b[start]? = some 0x30
  let mag := numeral 10 result.natAbs
  let mag :=
    if hadLeadingZero ∧ mag.length < origMagWidth then
      List.replicate (origMagWidth - mag.length) 0x30 ++ mag
    else mag
  let bytes := if result < 0 then 0x2D :: mag else mag
  ⟨numStart, stop - numStart, bytes, numStart + (bytes.length - 1)⟩

/-- The first decimal digit of the line at or after `from`, else the line's end or later. -/
def firstDigit (b : Bytes) (ls le start : Nat) : Nat :=
  runEnd (fun c => !isDigit c) (b.take le) (max start ls)

/-- `incr_number` on the line `ls..le` from `start` on. -/
def incrNumber (b : Bytes) (ls le start : Nat) (delta : Int64) : Option Incr :=
  let d := firstDigit b ls le start
  if d ≥ le then none
  else if basedAt b d then some (incrBased b le d delta)
  else if basedInside b ls d then some (incrBased b le (hexLeft b ls d - 2) delta)
  else some (incrDecimal b ls le d delta)

/-! ## The literals of a line -/

/-- A number of a line, by where its digits begin and end. -/
inductive Literal where
  | decimal (s e : Nat)
  /-- With its zero at `p`. -/
  | based (p e radix : Nat)
deriving DecidableEq, Repr

namespace Literal

/-- Where the literal begins, with a decimal number's sign. -/
def start (b : Bytes) (ls : Nat) : Literal → Nat
  | decimal s _ => signStart b ls s
  | based p _ _ => p

def stop : Literal → Nat
  | decimal _ e => e
  | based _ e _ => e

def radix : Literal → Nat
  | decimal _ _ => 10
  | based _ _ r => r

/-- The digits, without a sign or a prefix. -/
def digits (b : Bytes) : Literal → Bytes
  | decimal s e => slice b s e
  | based p e _ => slice b (p + 2) e

def value (b : Bytes) (ls : Nat) : Literal → Int
  | decimal s e => signedValue b ls s e
  | based p e r => numeralValue r (slice b (p + 2) e)

/-- What the literal's value becomes: a based literal stays at zero. -/
def sum (b : Bytes) (ls : Nat) (delta : Int64) : Literal → Int
  | decimal s e => signedValue b ls s e + delta.toInt
  | based p e r => max (numeralValue r (slice b (p + 2) e) + delta.toInt) 0

/-- What is written before the digits of the new number. -/
def lead (b : Bytes) (sum : Int) : Literal → Bytes
  | decimal _ _ => if sum < 0 then [0x2D] else []
  | based p _ _ => slice b p (p + 2)

end Literal

/-- The literals from `i` on, read from left to right: a based one where one begins, else all the
decimal digits there are. -/
def lex (b : Bytes) (le : Nat) : (left i : Nat) → List Literal
  | 0, _ => []
  | left + 1, i =>
    if i < le then
      if basedAt b i then
        let r := radixAt b i
        .based i (basedEnd b le i r) r :: lex b le left (basedEnd b le i r)
      else if b[i]?.any isDigit then
        .decimal i (runEnd isDigit (b.take le) i) :: lex b le left (runEnd isDigit (b.take le) i)
      else lex b le left (i + 1)
    else []

def literals (b : Bytes) (ls le : Nat) : List Literal := lex b le (le - ls) ls

/-- The literal under the cursor, or else the first one after it. -/
def literalAt (b : Bytes) (ls le cur : Nat) : Option Literal :=
  (literals b ls le).find? fun l => decide (cur < l.stop)

/-- The digits begin with a zero that stands for nothing. -/
def Padded (ds : Bytes) : Prop := 1 < ds.length ∧ ds.head? = some 0x30

instance (ds : Bytes) : Decidable (Padded ds) := inferInstanceAs (Decidable (_ ∧ _))

/-- `new` is written like `l` and denotes its sum with `delta`, in the digits it needs, or as wide
as `l` if zeros were before it. -/
def Denotes (b : Bytes) (ls : Nat) (l : Literal) (delta : Int64) (new : Bytes) : Prop :=
  ∃ ds, new = l.lead b (l.sum b ls delta) ++ ds ∧ (∀ c ∈ ds, isDigitOf l.radix c = true) ∧
    numeralValue l.radix ds = (l.sum b ls delta).natAbs ∧
    ds.length = max (if Padded (l.digits b) then (l.digits b).length else 0)
      (Nat.log l.radix (l.sum b ls delta).natAbs + 1)

/-- What is asked of an edit: all of the literal at the cursor is replaced, by its sum with `delta`,
or by itself where its value does not fit. -/
def Right (b : Bytes) (ls le cur : Nat) (delta : Int64) (r : Incr) : Prop :=
  ∃ l ∈ literalAt b ls le cur, r.start = l.start b ls ∧ r.start + r.oldLen = l.stop ∧
    (FitsI128 (l.value b ls) → Denotes b ls l delta r.bytes) ∧
    (¬ FitsI128 (l.value b ls) → r.bytes = slice b (l.start b ls) l.stop)

/-- The way back from the digit at `d` leads to all of the literal. -/
def Reached (b : Bytes) (ls d : Nat) : Literal → Prop
  | .decimal s e =>
    s ≤ d ∧ d < e ∧ (ls < s → ¬ b[s - 1]?.any isDigit) ∧ ¬ basedAt b d ∧ ¬ basedInside b ls d
  | .based p e r => d = p ∨ (p + 2 ≤ d ∧ d < e ∧ r ≠ 2 ∧ ¬ basedAt b d)

/-- The value and the sum fit an `i128`, and a based literal with zeros before it does not get
shorter. -/
def Adds (b : Bytes) (ls : Nat) (delta : Int64) (l : Literal) : Prop :=
  FitsI128 (l.value b ls) ∧ FitsI128 (l.value b ls + delta.toInt) ∧
    match l with
    | .decimal _ _ => True
    | .based p e r => Padded (slice b (p + 2) e) →
      (r : Int) ^ (e - (p + 2) - 1) ≤ numeralValue r (slice b (p + 2) e) + delta.toInt

/-! ## Digits and base letters -/

theorem isDigitOf_ten (c : UInt8) : isDigitOf 10 c = isDigit c := by
  have hall : ∀ n : Fin 256, isDigitOf 10 (UInt8.ofFin n) = isDigit (UInt8.ofFin n) := by
    decide +kernel
  exact hall c.toFin

theorem isDigitOf_sixteen (c : UInt8) : isDigitOf 16 c = isHexDigit c := by
  have hall : ∀ n : Fin 256, isDigitOf 16 (UInt8.ofFin n) = isHexDigit (UInt8.ofFin n) := by
    decide +kernel
  exact hall c.toFin

theorem isHexDigit_of_isDigitOf {r : Nat} (hr : r ≤ 16) {c : UInt8} (h : isDigitOf r c = true) :
    isHexDigit c = true := by
  rw [← isDigitOf_sixteen]
  exact isDigitOf_mono hr h

theorem isDigit_of_isDigitOf {r : Nat} (hr : r ≤ 10) {c : UInt8} (h : isDigitOf r c = true) :
    isDigit c = true := by
  rw [← isDigitOf_ten]
  exact isDigitOf_mono hr h

/-- A base letter is no decimal digit, and a hexadecimal one for the binary base only. -/
theorem radixOf_spec {c : UInt8} {r : Nat} (h : radixOf c = some r) :
    (r = 16 ∨ r = 8 ∨ r = 2) ∧ isDigit c = false ∧ isHexDigit c = decide (r = 2) := by
  unfold radixOf at h
  split at h
  · rename_i hc
    cases h
    rcases hc with rfl | rfl <;> decide
  · split at h
    · rename_i hc
      cases h
      rcases hc with rfl | rfl <;> decide
    · split at h
      · rename_i hc
        cases h
        rcases hc with rfl | rfl <;> decide
      · cases h

/-! ## A based literal -/

theorem basedAt_iff {b : Bytes} {d : Nat} : basedAt b d = true ↔ b[d]? = some 0x30 ∧
    ∃ c r x, b[d + 1]? = some c ∧ radixOf c = some r ∧ b[d + 2]? = some x ∧ isDigitOf r x = true := by
  unfold basedAt
  rw [Bool.and_eq_true, beq_iff_eq, Option.any_eq_true]
  constructor
  · rintro ⟨hzero, r, hr, hx⟩
    obtain ⟨c, hc, hcr⟩ := Option.bind_eq_some_iff.mp hr
    obtain ⟨x, hx, hdigit⟩ := (Option.any_eq_true _ _).mp hx
    exact ⟨hzero, c, r, x, hc, hcr, hx, hdigit⟩
  · rintro ⟨hzero, c, r, x, hc, hcr, hx, hdigit⟩
    exact ⟨hzero, r, Option.bind_eq_some_iff.mpr ⟨c, hc, hcr⟩, (Option.any_eq_true _ _).mpr ⟨x, hx, hdigit⟩⟩

/-- The based literal at `p` with its base letter, up to `e`. -/
structure BasedLit (b : Bytes) (le p e r : Nat) (c : UInt8) : Prop where
  zero : b[p]? = some 0x30
  letter : b[p + 1]? = some c
  radix : radixOf c = some r
  some_digit : p + 2 < e
  end_le : e ≤ le
  digits : ∀ k, p + 2 ≤ k → k < e → ∃ x, b[k]? = some x ∧ isDigitOf r x = true
  stop : e = basedEnd b le p r

section
variable {b : Bytes} {ls le p e r d : Nat} {c : UInt8}

theorem radixAt_eq (hc : b[p + 1]? = some c) (hr : radixOf c = some r) : radixAt b p = r := by
  rw [radixAt, hc, Option.bind_some, hr]
  rfl

/-- A literal that `based_at` finds has a zero, a letter and a digit. -/
theorem basedLit_of_basedAt (hle : le ≤ b.length) (hend : EndsLine b le) (hp : p < le)
    (h : basedAt b p = true) : ∃ c, BasedLit b le p (basedEnd b le p (radixAt b p)) (radixAt b p) c := by
  obtain ⟨hzero, c, r, x, hc, hcr, hx, hdigit⟩ := basedAt_iff.mp h
  rw [radixAt_eq hc hcr]
  -- neither the letter nor the digit after it is the line's end
  have hnot (k : Nat) (y : UInt8) (hk : b[k]? = some y) (hy : y ≠ newline) : k ≠ le := by
    rintro rfl
    rcases hend with hlen | hnl
    · exact absurd (List.getElem?_eq_some_iff.mp hk).1 (by omega)
    · rw [hk] at hnl
      exact hy (Option.some.inj hnl)
  have h1 := hnot _ _ hc (by
    rintro rfl
    cases hcr.symm.trans (show radixOf newline = none from rfl))
  have h2 := hnot _ _ hx (by
    rintro rfl
    obtain ⟨hr, -⟩ := radixOf_spec hcr
    rcases hr with rfl | rfl | rfl <;> exact absurd hdigit (by decide))
  have hgt : p + 2 < basedEnd b le p r := by
    by_contra hnlt
    have hstop : basedEnd b le p r = p + 2 := Nat.le_antisymm (Nat.le_of_not_lt hnlt) (le_runEnd _ _ _)
    have hfalse := runEnd_line_stop (p := isDigitOf r) (b := b) (i := p + 2) (c := x)
      (by rw [← basedEnd, hstop]; omega) (by rw [← basedEnd, hstop]; exact hx)
    rw [hdigit] at hfalse
    cases hfalse
  exact ⟨c, hzero, hc, hcr, hgt, runEnd_line_le (by omega) hle,
    fun k hk hlt => (runEnd_line_mem hk hlt).2, rfl⟩

/-- The way back from a digit of a literal that is not binary leads to its zero. -/
theorem BasedLit.hexLeft (h : BasedLit b le p e r c) (hle : le ≤ b.length) (hls : ls ≤ p)
    (hpd : p + 2 ≤ d) (hde : d < e) (hr : r ≠ 2) : hexLeft b ls d = p + 2 := by
  have hend := h.end_le
  obtain ⟨hr16, -, hhex⟩ := radixOf_spec h.radix
  apply runBegin_eq (by omega) hpd (by omega)
  · intro k hk hkd
    obtain ⟨x, hx, hdigit⟩ := h.digits k hk (by omega)
    exact ⟨x, hx, isHexDigit_of_isDigitOf (by omega) hdigit⟩
  · intro _ x hx
    have heq : some c = some x := h.letter.symm.trans hx
    cases heq
    rw [hhex, decide_eq_false hr]

theorem BasedLit.inside (h : BasedLit b le p e r c) (hle : le ≤ b.length) (hls : ls ≤ p)
    (hpd : p + 2 ≤ d) (hde : d < e) (hr : r ≠ 2) : basedInside b ls d = true := by
  have hleft := h.hexLeft hle hls hpd hde hr
  unfold basedInside
  dsimp only
  rw [hleft, decide_eq_true (by omega), Nat.add_sub_cancel, h.zero,
    show p + 2 - 1 = p + 1 from rfl, h.letter, Option.bind_some, h.radix]
  rfl

/-- The digit the way back begins at is one of the literal's when the cursor is before its end. -/
theorem BasedLit.holds {cur : Nat} {y : UInt8} (h : BasedLit b le p e r c) (hr : r = 16 ∨ r = 8)
    (hcur : cur < e) (hd : d < le)
    (hhex : ∀ k, p + 2 ≤ k → k < d → ∃ x, b[k]? = some x ∧ isHexDigit x = true)
    (hydigit : isDigit y = true) (hy : b[d]? = some y) (hls : ls ≤ p)
    (hfirst : ∀ k, ls ≤ k → cur ≤ k → k < d → ∀ x, b[k]? = some x → isDigit x = false) : d < e := by
  have hdigit := h.some_digit
  by_contra hpast
  rcases hr with rfl | rfl
  · -- the hexadecimal digits go on past the end
    have hx : ∃ x, b[e]? = some x ∧ isHexDigit x = true := by
      rcases Nat.lt_or_ge e d with hlt | hge
      · exact hhex e (by omega) hlt
      · refine ⟨y, by rw [show e = d by omega]; exact hy, ?_⟩
        unfold isHexDigit
        rw [hydigit]
        rfl
    obtain ⟨x, hx, hxhex⟩ := hx
    have hstop := h.stop
    have hnot := runEnd_line_stop (p := isDigitOf 16) (b := b) (i := p + 2) (c := x)
      (by rw [← basedEnd, ← hstop]; omega) (by rw [← basedEnd, ← hstop]; exact hx)
    rw [isDigitOf_sixteen, hxhex] at hnot
    cases hnot
  · -- the last octal digit is a decimal one
    obtain ⟨x, hx, hoctal⟩ := h.digits (e - 1) (by omega) (by omega)
    have hnot := hfirst (e - 1) (by omega) (by omega) (by omega) x hx
    rw [isDigit_of_isDigitOf (by decide) hoctal] at hnot
    cases hnot

/-- Where the way back leads: behind a zero and a letter that is no hexadecimal digit. -/
theorem basedInside_spec (hlsd : ls ≤ d) (hd : d ≤ b.length) (h : basedInside b ls d = true) :
    ∃ q c, hexLeft b ls d = q + 2 ∧ ls ≤ q ∧ q + 2 ≤ d ∧ b[q]? = some 0x30 ∧ b[q + 1]? = some c ∧
      (radixOf c = some 16 ∨ radixOf c = some 8) ∧
      ∀ k, q + 2 ≤ k → k < d → ∃ x, b[k]? = some x ∧ isHexDigit x = true := by
  unfold basedInside at h
  simp only [Bool.and_eq_true, decide_eq_true_eq, beq_iff_eq, Option.isSome_iff_exists] at h
  obtain ⟨⟨hlo, hzero⟩, r, hr⟩ := h
  obtain ⟨c, hc, hcr⟩ := Option.bind_eq_some_iff.mp hr
  obtain ⟨hge, hle, hmem, hbefore⟩ := runBegin_spec (p := isHexDigit) hlsd hd
  rw [← hexLeft] at hge hle hmem hbefore
  obtain ⟨hcases, -, hhex⟩ := radixOf_spec hcr
  have hne : r ≠ 2 := by
    have hnot := hbefore (by omega) c hc
    rw [hhex, decide_eq_false_iff_not] at hnot
    exact hnot
  refine ⟨hexLeft b ls d - 2, c, by omega, by omega, by omega, hzero, ?_, ?_, ?_⟩
  · rw [show hexLeft b ls d - 2 + 1 = hexLeft b ls d - 1 by omega]
    exact hc
  · rcases hcases with rfl | rfl | rfl
    · exact .inl hcr
    · exact .inr hcr
    · exact absurd rfl hne
  · intro k hk hkd
    exact hmem k (by omega) hkd

end

/-! ## The literals of a line, from left to right -/

/-- A literal where the reader finds it. -/
def Literal.Lexed (b : Bytes) (ls le : Nat) : Literal → Prop
  | .decimal s e => ls ≤ s ∧ s < le ∧ b[s]?.any isDigit = true ∧ basedAt b s = false ∧
      e = runEnd isDigit (b.take le) s
  | .based p e r => ls ≤ p ∧ p < le ∧ basedAt b p = true ∧ r = radixAt b p ∧ e = basedEnd b le p r

section
variable {b : Bytes} {ls le : Nat}

theorem lt_runEnd_of_digit {i : Nat} (hi : i < le) (h : b[i]?.any isDigit = true) :
    i < runEnd isDigit (b.take le) i := by
  by_contra hnlt
  obtain ⟨c, hc, hdigit⟩ := (Option.any_eq_true _ _).mp h
  have hstop : runEnd isDigit (b.take le) i = i :=
    Nat.le_antisymm (Nat.le_of_not_lt hnlt) (le_runEnd _ _ _)
  have hfalse := runEnd_line_stop (p := isDigit) (b := b) (i := i) (c := c)
    (by rw [hstop]; exact hi) (by rw [hstop]; exact hc)
  rw [hdigit] at hfalse
  cases hfalse

/-- What the lexer yields is a literal of the line. -/
theorem lexed_of_mem {left i : Nat} (hi : ls ≤ i) {l : Literal} (hl : l ∈ lex b le left i) :
    l.Lexed b ls le := by
  induction left generalizing i with
  | zero => cases hl
  | succ left ih =>
    rw [lex] at hl
    split at hl
    · rename_i hlt
      split at hl
      · rename_i hbased
        rcases List.mem_cons.mp hl with rfl | hl
        · exact ⟨hi, hlt, hbased, rfl, rfl⟩
        · exact ih (Nat.le_trans (by omega) (le_runEnd _ _ _)) hl
      · rename_i hbased
        split at hl
        · rename_i hdigit
          rcases List.mem_cons.mp hl with rfl | hl
          · exact ⟨hi, hlt, hdigit, Bool.eq_false_iff.mpr hbased, rfl⟩
          · exact ih (Nat.le_trans hi (le_runEnd _ _ _)) hl
        · exact ih (by omega) hl
    · cases hl

/-- Every digit of the line lies in a literal. -/
theorem exists_lex_of_digit {left i d : Nat} (hleft : le - i ≤ left) (hid : i ≤ d) (hd : d < le)
    (hdigit : b[d]?.any isDigit = true) : ∃ l ∈ lex b le left i, d < l.stop := by
  induction left generalizing i with
  | zero => omega
  | succ left ih =>
    rw [lex, if_pos (by omega)]
    split
    · rename_i hbased
      have hgt : i + 2 ≤ basedEnd b le i (radixAt b i) := le_runEnd _ _ _
      rcases Nat.lt_or_ge d (basedEnd b le i (radixAt b i)) with hlt | hge
      · exact ⟨_, List.mem_cons_self, hlt⟩
      · obtain ⟨l, hl, hstop⟩ := ih (i := basedEnd b le i (radixAt b i)) (by omega) hge
        exact ⟨l, List.mem_cons_of_mem _ hl, hstop⟩
    · split
      · rename_i hat
        have hgt := lt_runEnd_of_digit (show i < le by omega) hat
        rcases Nat.lt_or_ge d (runEnd isDigit (b.take le) i) with hlt | hge
        · exact ⟨_, List.mem_cons_self, hlt⟩
        · obtain ⟨l, hl, hstop⟩ := ih (i := runEnd isDigit (b.take le) i) (by omega) hge
          exact ⟨l, List.mem_cons_of_mem _ hl, hstop⟩
      · rename_i hnot
        have hne : i ≠ d := by
          rintro rfl
          exact hnot hdigit
        exact ih (by omega) (by omega)

theorem exists_literalAt {cur d : Nat} (hls : ls ≤ d) (hcur : cur ≤ d) (hd : d < le)
    (hdigit : b[d]?.any isDigit = true) :
    ∃ l, literalAt b ls le cur = some l ∧ l.Lexed b ls le ∧ cur < l.stop := by
  obtain ⟨l, hl, hstop⟩ := exists_lex_of_digit (Nat.le_refl _) hls hd hdigit
  have hsome : (literalAt b ls le cur).isSome = true := by
    rw [literalAt, List.find?_isSome]
    exact ⟨l, hl, decide_eq_true (Nat.lt_of_le_of_lt hcur hstop)⟩
  obtain ⟨found, hfound⟩ := Option.isSome_iff_exists.mp hsome
  refine ⟨found, hfound, lexed_of_mem (Nat.le_refl _) (List.mem_of_find?_eq_some hfound), ?_⟩
  rw [literalAt] at hfound
  simpa using List.find?_some hfound

theorem firstDigit_at {cur : Nat} (hle : le ≤ b.length) (hlt : firstDigit b ls le cur < le) :
    ls ≤ firstDigit b ls le cur ∧ cur ≤ firstDigit b ls le cur ∧
      (∃ c, b[firstDigit b ls le cur]? = some c ∧ isDigit c = true) ∧
      ∀ k, ls ≤ k → cur ≤ k → k < firstDigit b ls le cur → ∀ c, b[k]? = some c → isDigit c = false := by
  have hge : max cur ls ≤ firstDigit b ls le cur := le_runEnd _ _ _
  refine ⟨by omega, by omega, ?_, fun k hls hcur hk c hc => ?_⟩
  · have hat := List.getElem?_eq_getElem (show firstDigit b ls le cur < b.length by omega)
    have hstop := runEnd_line_stop hlt hat
    exact ⟨_, hat, by simpa using hstop⟩
  · obtain ⟨-, x, hx, hnot⟩ := runEnd_line_mem (Nat.max_le.mpr ⟨hcur, hls⟩) hk
    rw [hc] at hx
    cases hx
    simpa using hnot

end

/-! ## Where the edit goes -/

/-- The edit replaces `l`, and nothing else. -/
def Incr.Spans (b : Bytes) (ls : Nat) (r : Incr) (l : Literal) : Prop :=
  r.start = l.start b ls ∧ r.start + r.oldLen = l.stop

section
variable {b : Bytes} {ls le s s' d q : Nat} {delta : Int64} {l : Literal}

theorem signStart_cases (b : Bytes) (ls s : Nat) :
    signStart b ls s = s ∨ (signStart b ls s = s - 1 ∧ ls < s ∧ b[s - 1]? = some 0x2D) := by
  unfold signStart
  split
  · exact .inr ⟨rfl, ‹_›⟩
  · exact .inl rfl

theorem signStart_le (b : Bytes) (ls s : Nat) : signStart b ls s ≤ s := by
  rcases signStart_cases b ls s with h | ⟨h, -, -⟩ <;> omega

theorem signStart_inj (hs : b[s]?.any isDigit = true) (hs' : b[s']?.any isDigit = true)
    (h : signStart b ls s = signStart b ls s') : s = s' := by
  have hsign {k : Nat} (hk : b[k]?.any isDigit = true) : b[k]? ≠ some 0x2D := by
    intro hminus
    rw [hminus] at hk
    cases hk
  rcases signStart_cases b ls s with h1 | ⟨h1, hlt, hminus⟩ <;>
    rcases signStart_cases b ls s' with h2 | ⟨h2, hlt', hminus'⟩
  · omega
  · exact absurd (show b[s]? = some 0x2D by rw [← hminus']; congr 1; omega) (hsign hs)
  · exact absurd (show b[s']? = some 0x2D by rw [← hminus]; congr 1; omega) (hsign hs')
  · omega

theorem signStart_of_zero (hq : b[q]? = some 0x30) (h : signStart b ls s = q) : s = q := by
  rcases signStart_cases b ls s with hs | ⟨hs, -, hminus⟩
  · omega
  · rw [← hs, h, hq] at hminus
    cases hminus

/-- An edit of a based literal spans that literal and no other. -/
theorem incrBased_spans_iff {c : UInt8} {r : Nat} (hl : l.Lexed b ls le)
    (hq : b[q]? = some 0x30) (hc : b[q + 1]? = some c) (hr : radixOf c = some r) :
    (incrBased b le q delta).Spans b ls l ↔ ∃ e k, l = .based q e k := by
  have hgt : q + 2 ≤ basedEnd b le q (radixAt b q) := le_runEnd _ _ _
  have hspan : (incrBased b le q delta).Spans b ls l ↔
      q = l.start b ls ∧ q + (basedEnd b le q (radixAt b q) - q) = l.stop := Iff.rfl
  rw [hspan]
  cases l with
  | decimal s e =>
    obtain ⟨-, hs, hdigit, -, he⟩ := hl
    constructor
    · rintro ⟨hstart, hstop⟩
      obtain rfl : q = s := (signStart_of_zero hq hstart.symm).symm
      -- the letter ends the digits
      have hstop' : q + 2 ≤ e := by
        change q + _ = e at hstop
        omega
      obtain ⟨-, x, hx, hdigit'⟩ := runEnd_line_mem (p := isDigit) (b := b) (i := q) (k := q + 1)
        (by omega) (show q + 1 < runEnd isDigit (b.take le) q by omega)
      rw [hc] at hx
      cases hx
      rw [(radixOf_spec hr).2.1] at hdigit'
      cases hdigit'
    · rintro ⟨e', k, h⟩
      cases h
  | based p e k =>
    obtain ⟨-, -, -, rfl, rfl⟩ := hl
    constructor
    · rintro ⟨hstart, -⟩
      obtain rfl : q = p := hstart
      exact ⟨_, _, rfl⟩
    · rintro ⟨e', k, h⟩
      cases h
      exact ⟨rfl, Nat.add_sub_cancel' (Nat.le_trans (Nat.le_add_right _ _) hgt)⟩

/-- A decimal edit replaces the run of digits around the one it was led by. -/
theorem incrDecimal_spans_iff (hl : l.Lexed b ls le) (hle : le ≤ b.length) (hend : EndsLine b le)
    (hls : ls ≤ d) (hd : d < le) (hdigit : b[d]?.any isDigit = true) (hnot : basedAt b d = false) :
    (incrDecimal b ls le d delta).Spans b ls l ↔
      l = .decimal (runBegin isDigit b ls d) (runEnd isDigit (b.take le) d) := by
  obtain ⟨hge, hbegin, hmem, -⟩ := runBegin_spec (p := isDigit) hls (Nat.le_trans (Nat.le_of_lt hd) hle)
  have hstop := lt_runEnd_of_digit hd hdigit
  have hsign := signStart_le b ls (runBegin isDigit b ls d)
  have hat : b[runBegin isDigit b ls d]?.any isDigit = true := by
    rcases Nat.lt_or_ge (runBegin isDigit b ls d) d with hlt | hge
    · obtain ⟨x, hx, hxdigit⟩ := hmem _ (Nat.le_refl _) hlt
      exact (Option.any_eq_true _ _).mpr ⟨x, hx, hxdigit⟩
    · rw [show runBegin isDigit b ls d = d by omega]
      exact hdigit
  have hspan : (incrDecimal b ls le d delta).Spans b ls l ↔
      signStart b ls (runBegin isDigit b ls d) = l.start b ls ∧
        runEnd isDigit (b.take le) d = l.stop := by
    show _ ∧ signStart b ls (runBegin isDigit b ls d) +
      (runEnd isDigit (b.take le) d - signStart b ls (runBegin isDigit b ls d)) = _ ↔ _
    rw [Nat.add_sub_cancel' (by omega)]
    rfl
  rw [hspan]
  cases l with
  | decimal s e =>
    obtain ⟨-, -, hsdigit, -, -⟩ := hl
    constructor
    · rintro ⟨hstart, hstop'⟩
      have hs : runBegin isDigit b ls d = s := signStart_inj hat hsdigit hstart
      have he : runEnd isDigit (b.take le) d = e := hstop'
      rw [hs, he]
    · intro h
      rw [h]
      exact ⟨rfl, rfl⟩
  | based p e k =>
    obtain ⟨-, hp, hbased, -, -⟩ := hl
    constructor
    · rintro ⟨hstart, -⟩
      obtain ⟨c, hlit⟩ := basedLit_of_basedAt hle hend hp hbased
      have hs : runBegin isDigit b ls d = p := signStart_of_zero hlit.zero hstart
      rw [hs] at hbegin hmem
      -- the run of digits does not go over the letter
      rcases Nat.lt_or_ge (p + 1) d with hlt | hge
      · obtain ⟨x, hx, hxdigit⟩ := hmem (p + 1) (by omega) hlt
        rw [hlit.letter] at hx
        cases hx
        rw [(radixOf_spec hlit.radix).2.1] at hxdigit
        cases hxdigit
      · rcases Nat.lt_or_ge p d with hlt | hge'
        · rw [show d = p + 1 by omega, hlit.letter, Option.any_some,
            (radixOf_spec hlit.radix).2.1] at hdigit
          cases hdigit
        · rw [show d = p by omega, hbased] at hnot
          cases hnot
    · intro h
      cases h

theorem decimal_run {e : Nat} (hl : (Literal.decimal s e).Lexed b ls le) (hle : le ≤ b.length)
    (hsd : s ≤ d) (hde : d < e) (hbefore : ls < s → ¬ b[s - 1]?.any isDigit) :
    runBegin isDigit b ls d = s ∧ runEnd isDigit (b.take le) d = e := by
  obtain ⟨hlss, hs, -, -, he⟩ := hl
  have hele : e ≤ le := he ▸ runEnd_line_le (Nat.le_of_lt hs) hle
  refine ⟨?_, by rw [runEnd_line_within hsd (he ▸ hde) hle, ← he]⟩
  apply runBegin_eq hlss hsd (by omega)
  · intro k hk hkd
    exact (runEnd_line_mem hk (he ▸ (by omega : k < e))).2
  · intro hpos x hx
    rw [hx] at hbefore
    exact Bool.eq_false_iff.mpr (hbefore hpos)

/-- From a digit that begins a literal, that literal is reached. -/
theorem reached_of_basedAt (hbased : basedAt b d = true) :
    Reached b ls d l ↔ ∃ e k, l = .based d e k := by
  cases l with
  | decimal s e =>
    constructor
    · rintro ⟨-, -, -, hnot, -⟩
      exact absurd hbased hnot
    · rintro ⟨e', k, h⟩
      cases h
  | based p e k =>
    constructor
    · rintro (rfl | ⟨-, -, -, hnot⟩)
      · exact ⟨_, _, rfl⟩
      · exact absurd hbased hnot
    · rintro ⟨e', k', h⟩
      cases h
      exact .inl rfl

/-- From a digit behind a zero and a letter, the literal they begin is reached. -/
theorem reached_of_basedInside {cur : Nat} {y : UInt8} (hle : le ≤ b.length) (hend : EndsLine b le)
    (hl : l.Lexed b ls le) (hcur : cur < l.stop) (hls : ls ≤ d) (hd : d < le)
    (hy : b[d]? = some y) (hydigit : isDigit y = true)
    (hfirst : ∀ k, ls ≤ k → cur ≤ k → k < d → ∀ c, b[k]? = some c → isDigit c = false)
    (hnot : ¬ basedAt b d = true) (hinside : basedInside b ls d = true) :
    ∃ q c r, hexLeft b ls d = q + 2 ∧ b[q]? = some 0x30 ∧ b[q + 1]? = some c ∧
      radixOf c = some r ∧ (Reached b ls d l ↔ ∃ e k, l = .based q e k) := by
  obtain ⟨q, c, hleft, hlsq, hqd, hzero, hc, hcr, hhex⟩ :=
    basedInside_spec hls (Nat.le_trans (Nat.le_of_lt hd) hle) hinside
  have hradix : ∃ r, radixOf c = some r ∧ (r = 16 ∨ r = 8) := by
    rcases hcr with hcr | hcr
    · exact ⟨_, hcr, .inl rfl⟩
    · exact ⟨_, hcr, .inr rfl⟩
  obtain ⟨r, hr, hr16⟩ := hradix
  refine ⟨q, c, r, hleft, hzero, hc, hr, ?_⟩
  cases l with
  | decimal s e =>
    constructor
    · rintro ⟨-, -, -, -, hout⟩
      exact absurd hinside hout
    · rintro ⟨e', k, h⟩
      cases h
  | based p e k =>
    obtain ⟨hlsp, hp, hbased, hk, he⟩ := hl
    obtain ⟨c', hlit⟩ := basedLit_of_basedAt hle hend hp hbased
    rw [← hk, ← he] at hlit
    constructor
    · rintro (rfl | ⟨hpd, hde, hk2, -⟩)
      · exact absurd hbased hnot
      · have := hlit.hexLeft hle hlsp hpd hde hk2
        obtain rfl : p = q := by omega
        exact ⟨_, _, rfl⟩
    · rintro ⟨e', k', h⟩
      cases h
      have hcc : c' = c := Option.some.inj (hlit.letter.symm.trans hc)
      have hkr : k = r := Option.some.inj ((hcc ▸ hlit.radix).symm.trans hr)
      refine .inr ⟨hqd, ?_, by omega, hnot⟩
      exact hlit.holds (hkr ▸ hr16) hcur (by omega) hhex hydigit hy hlsp hfirst

/-- From any other digit, the run of digits around it is reached. -/
theorem reached_of_decimal (hle : le ≤ b.length) (hend : EndsLine b le) (hl : l.Lexed b ls le)
    (hls : ls ≤ d) (hd : d < le) (hdigit : b[d]?.any isDigit = true) (hnot : ¬ basedAt b d = true)
    (houtside : ¬ basedInside b ls d = true) :
    Reached b ls d l ↔ l = .decimal (runBegin isDigit b ls d) (runEnd isDigit (b.take le) d) := by
  cases l with
  | decimal s e =>
    obtain ⟨hlss, hs, hsdigit, hfree, he⟩ := hl
    constructor
    · rintro ⟨hsd, hde, hbefore, -, -⟩
      obtain ⟨hbegin, hrun⟩ := decimal_run ⟨hlss, hs, hsdigit, hfree, he⟩ hle hsd hde hbefore
      rw [hbegin, hrun]
    · intro heq
      injection heq with hsbegin hestop
      obtain ⟨-, hbegin, -, hbefore⟩ := runBegin_spec (p := isDigit) hls (by omega : d ≤ b.length)
      refine ⟨hsbegin ▸ hbegin, hestop ▸ lt_runEnd_of_digit hd hdigit, fun hpos hany => ?_, hnot,
        houtside⟩
      obtain ⟨x, hx, hxdigit⟩ := (Option.any_eq_true _ _).mp hany
      rw [hsbegin] at hpos hx
      rw [hbefore hpos x hx] at hxdigit
      cases hxdigit
  | based p e k =>
    obtain ⟨hlsp, hp, hbased, hk, he⟩ := hl
    obtain ⟨c', hlit⟩ := basedLit_of_basedAt hle hend hp hbased
    rw [← hk, ← he] at hlit
    constructor
    · rintro (rfl | ⟨hpd, hde, hk2, -⟩)
      · exact absurd hbased hnot
      · exact absurd (hlit.inside hle hlsp hpd hde hk2) houtside
    · intro h
      cases h

/-- The edit goes to the literal at the cursor where the way back reaches it. -/
theorem incrNumber_spans_iff {cur : Nat} {r : Incr} (hle : le ≤ b.length) (hend : EndsLine b le)
    (hl : l.Lexed b ls le) (hcur : cur < l.stop) (h : incrNumber b ls le cur delta = some r) :
    (r.Spans b ls l ↔ Reached b ls (firstDigit b ls le cur) l) ∧
      (r.Spans b ls l → r = match l with
        | .decimal _ _ => incrDecimal b ls le (firstDigit b ls le cur) delta
        | .based p _ _ => incrBased b le p delta) := by
  unfold incrNumber at h
  dsimp only at h
  generalize hdef : firstDigit b ls le cur = d at h ⊢
  split at h
  · cases h
  rename_i hlt
  obtain ⟨hls, hcurd, ⟨y, hy, hydigit⟩, hfirst⟩ :=
    firstDigit_at (b := b) hle (hdef.symm ▸ Nat.lt_of_not_le hlt)
  rw [hdef] at hls hcurd hy hfirst
  have hd := Nat.lt_of_not_le hlt
  have hdigit : b[d]?.any isDigit = true := (Option.any_eq_true _ _).mpr ⟨y, hy, hydigit⟩
  split at h
  · -- a literal begins at the digit
    rename_i hbased
    cases h
    obtain ⟨hzero, c, r, -, hc, hcr, -, -⟩ := basedAt_iff.mp hbased
    rw [incrBased_spans_iff hl hzero hc hcr, reached_of_basedAt hbased]
    refine ⟨Iff.rfl, ?_⟩
    rintro ⟨e, k, rfl⟩
    rfl
  rename_i hnot
  split at h
  · -- the digits lead back to a zero and a letter
    rename_i hinside
    cases h
    obtain ⟨q, c, r, hleft, hzero, hc, hr, hreached⟩ :=
      reached_of_basedInside hle hend hl hcur hls hd hy hydigit hfirst hnot hinside
    rw [hleft, Nat.add_sub_cancel, incrBased_spans_iff hl hzero hc hr, hreached]
    refine ⟨Iff.rfl, ?_⟩
    rintro ⟨e, k, rfl⟩
    rfl
  · -- a decimal number
    rename_i houtside
    cases h
    rw [incrDecimal_spans_iff hl hle hend hls hd hdigit (Bool.eq_false_iff.mpr hnot),
      reached_of_decimal hle hend hl hls hd hdigit hnot houtside]
    refine ⟨Iff.rfl, ?_⟩
    rintro rfl
    rfl

end

end Ruse.Core
