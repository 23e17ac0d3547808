import Ruse.Core.Utf8

/-!
# Haystacks

The model of `Hay`, `spell` and `unspell` in `crates/core/src/pattern.rs`. The
engine matches text, a buffer holds any bytes: a byte that belongs to no
character is spelled as an escape character of four bytes, and offsets are mapped
between the two.

* `spell`, `unspell` — bytes as text, and back;
* `Hay` — the haystack of a buffer with the offsets of the escaped bytes;
* `Hay.toHay`, `Hay.toBuf` — the offset maps.

`units` walks a buffer character by character, an invalid byte counting as one, and
`unitSpelling` says what each such unit becomes; the haystack is its units spelled
(`Hay.new_text`), and the offset maps are read off that (`Hay.faithful`).
-/

namespace Ruse.Core

variable {b : Bytes} {h i p v : Nat}

/-! ## The escape characters -/

/-- The first escape character's code point minus 0x80. -/
def escapeBase : Nat := 0x10FF00

/-- The escape character that spells the byte `b`. -/
def escapeChar (b : UInt8) : Bytes := String.utf8EncodeChar (Char.ofNat (escapeBase + b.toNat))

/-- The code point of the bytes of one character. -/
def codePoint : Bytes → Nat
  | [a] => a.toNat
  | [a, b] => a.toNat % 0x20 * 0x40 + b.toNat % 0x40
  | [a, b, c] => (a.toNat % 0x10 * 0x40 + b.toNat % 0x40) * 0x40 + c.toNat % 0x40
  | [a, b, c, d] =>
    ((a.toNat % 0x08 * 0x40 + b.toNat % 0x40) * 0x40 + c.toNat % 0x40) * 0x40 + d.toNat % 0x40
  | _ => 0

/-- The byte an escape character spells, or `none` for any other character. -/
def escapedByte (c : Nat) : Option UInt8 :=
  if escapeBase ≤ c ∧ c - escapeBase ≤ 0xFF ∧ 0x80 ≤ c - escapeBase then
    some (UInt8.ofNat (c - escapeBase))
  else none

/-! ## `utf8_chunks` -/

/-- The length of the invalid sequence at `i`: as many bytes as begin a character
that the next byte does not go on with. -/
def invalidLen (b : Bytes) (i : Nat) : Nat :=
  match b[i]?.bind leadClass with
  | none => 1
  | some (w, lo, hi) =>
    match slice b (i + 1) (i + w) with
    | [] => 1
    | second :: others =>
      if lo ≤ second ∧ second ≤ hi then 2 + (others.takeWhile isContinuation).length else 1

theorem invalidLen_pos (b : Bytes) (i : Nat) : 0 < invalidLen b i := by
  unfold invalidLen
  split
  · omega
  · split
    · omega
    · split <;> omega

/-- `b.utf8_chunks()` from `i` on: a valid text and the invalid sequence after it, until
the bytes end. -/
def utf8Chunks (b : Bytes) (i : Nat) : List (Bytes × Bytes) :=
  if _h : validUpTo b b.length i < b.length then
    let v := validUpTo b b.length i
    (slice b i v, slice b v (v + invalidLen b v)) :: utf8Chunks b (v + invalidLen b v)
  else if i < b.length then [(slice b i b.length, [])]
  else []
termination_by b.length - i
decreasing_by
  have hle := (scans_validUpTo b b.length i).le
  have hpos := invalidLen_pos b (validUpTo b b.length i)
  omega

/-! ## Spelling -/

/-- `b` as text the engine matches. -/
def spell (b : Bytes) : Bytes :=
  if ValidUtf8 b then b
  else (utf8Chunks b 0).flatMap fun chunk => chunk.1 ++ chunk.2.flatMap escapeChar

/-- The loop of `unspell` from `i` on. -/
def unspellFrom (s : Bytes) (i : Nat) : Bytes :=
  match _h : charLenAt s i with
  | some w =>
    (match escapedByte (codePoint (slice s i (i + w))) with
      | some b => [b]
      | none => slice s i (i + w)) ++ unspellFrom s (i + w)
  | none => []
termination_by s.length - i
decreasing_by
  have hle := charLenAt_le _h
  have hpos := charLenAt_pos _h
  omega

/-- The bytes `s` spells; with no escape character the loop copies `s`, which is then
borrowed. -/
def unspell (s : Bytes) : Bytes := unspellFrom s 0

/-- A buffer as the engine's haystack, with the offsets of the bytes it escaped. -/
structure Hay where
  text : Bytes
  escaped : List Nat

namespace Hay

/-- How many bytes longer an escape character is than the byte it spells. -/
def escapeGrowth : Nat := 3

/-- The offsets of the invalid bytes of the chunks, the first of them at `at'`. -/
def escapedOffsets : Nat → List (Bytes × Bytes) → List Nat
  | _, [] => []
  | at', chunk :: rest =>
    let start := at' + chunk.1.length
    List.range' start chunk.2.length ++ escapedOffsets (start + chunk.2.length) rest

/-- The haystack for buffer `b`. -/
def new (b : Bytes) : Hay where
  text := spell b
  escaped := if ValidUtf8 b then [] else escapedOffsets 0 (utf8Chunks b 0)

/-- The binary search of `to_buf`: the number of escapes that begin before `h`. -/
def bisect (escaped : List Nat) (h : Nat) (lo hi : Nat) : Nat :=
  if lo < hi then
    let mid := (lo + hi) / 2
    if escaped.getD mid 0 + escapeGrowth * mid < h then bisect escaped h (mid + 1) hi
    else bisect escaped h lo mid
  else lo
termination_by hi - lo

/-- The buffer offset of haystack offset `h`; `none` is the underflow of an offset
inside an escape character. -/
def toBuf (hay : Hay) (h : Nat) : Option Nat :=
  let lo := bisect hay.escaped h 0 hay.escaped.length
  if escapeGrowth * lo ≤ h then some (h - escapeGrowth * lo) else none

/-- The haystack offset of buffer offset `p`. -/
def toHay (hay : Hay) (p : Nat) : Nat :=
  p + escapeGrowth * (hay.escaped.takeWhile fun x => x < p).length

end Hay

/-! ## The units of a buffer -/

/-- The length of the unit at `i`: a character, or one invalid byte. -/
def unitLen (b : Bytes) (i : Nat) : Nat := (charLenAt b i).getD 1

/-- What the haystack spells the unit at `i` with. -/
def unitSpelling (b : Bytes) (i : Nat) : Bytes :=
  match charLenAt b i with
  | some w => slice b i (i + w)
  | none => escapeChar (b.getD i 0)

theorem unitLen_pos (b : Bytes) (i : Nat) : 0 < unitLen b i := by
  unfold unitLen
  cases h : charLenAt b i with
  | none => exact Nat.one_pos
  | some w => exact charLenAt_pos h

theorem unitLen_le (hi : i < b.length) : i + unitLen b i ≤ b.length := by
  unfold unitLen
  cases h : charLenAt b i with
  | none => exact hi
  | some w => exact charLenAt_le h

/-- Where the units from `i` on begin. -/
def units (b : Bytes) (i : Nat) : List Nat :=
  if i < b.length then i :: units b (i + unitLen b i) else []
termination_by b.length - i
decreasing_by
  have hpos := unitLen_pos b i
  omega

/-- The unit is a byte that belongs to no character. -/
def invalidAt (b : Bytes) (i : Nat) : Bool := (charLenAt b i).isNone

theorem units_lt (hi : i < b.length) :
    units b i = i :: units b (i + unitLen b i) := by
  rw [units, if_pos hi]

theorem units_ge (hi : b.length ≤ i) : units b i = [] := by
  rw [units, if_neg (Nat.not_lt.mpr hi)]

theorem le_of_mem_units {x : Nat} (h : x ∈ units b i) : i ≤ x := by
  induction i using units.induct b with
  | case1 i hi ih =>
    rw [units_lt hi] at h
    rcases List.mem_cons.mp h with rfl | h
    · exact Nat.le_refl _
    · exact Nat.le_trans (Nat.le_add_right _ _) (ih h)
  | case2 i hi =>
    rw [units_ge (Nat.not_lt.mp hi)] at h
    exact absurd h List.not_mem_nil

/-! ## The chunks are the units -/

theorem units_of_scans (h : Scans b i v) :
    (units b i).flatMap (unitSpelling b) = slice b i v ++ (units b v).flatMap (unitSpelling b) ∧
      (units b i).filter (invalidAt b) = (units b v).filter (invalidAt b) := by
  induction h with
  | refl i => exact ⟨by rw [slice_self, List.nil_append], rfl⟩
  | @char i w v hw hrest ih =>
    have hi : i < b.length := by
      have := charLenAt_le hw
      have := charLenAt_pos hw
      omega
    have hlen : unitLen b i = w := by rw [unitLen, hw, Option.getD_some]
    have hspell : unitSpelling b i = slice b i (i + w) := by rw [unitSpelling, hw]
    have hvalid : invalidAt b i = false := by rw [invalidAt, hw]; rfl
    rw [units_lt hi, hlen, List.flatMap_cons, ih.1, hspell, List.filter_cons_of_neg (by simp [hvalid]),
      ih.2, ← List.append_assoc, slice_append_slice (Nat.le_add_right _ _) hrest.le]
    exact ⟨rfl, rfl⟩

/-- Invalid bytes are units of their own, each spelled by its escape. -/
theorem units_of_invalid {m : Nat} (hle : v + m ≤ b.length)
    (h : ∀ k < m, charLenAt b (v + k) = none) :
    (units b v).flatMap (unitSpelling b) =
        (slice b v (v + m)).flatMap escapeChar ++ (units b (v + m)).flatMap (unitSpelling b) ∧
      (units b v).filter (invalidAt b) = List.range' v m ++ (units b (v + m)).filter (invalidAt b) := by
  induction m generalizing v with
  | zero => exact ⟨by rw [Nat.add_zero, slice_self]; rfl, rfl⟩
  | succ m ih =>
    have hnone : charLenAt b v = none := h 0 (Nat.succ_pos m)
    have hv : v < b.length := by omega
    have hlen : unitLen b v = 1 := by rw [unitLen, hnone, Option.getD_none]
    have hspell : unitSpelling b v = escapeChar (b.getD v 0) := by rw [unitSpelling, hnone]
    have hinvalid : invalidAt b v = true := by rw [invalidAt, hnone, Option.isNone_none]
    have hone : slice b v (v + (m + 1)) = b.getD v 0 :: slice b (v + 1) (v + (m + 1)) := by
      rw [← slice_append_slice (Nat.le_add_right v 1) (by omega : v + 1 ≤ v + (m + 1))]
      simp [slice, List.take_one, List.getElem?_eq_getElem hv]
    obtain ⟨ihs, ihe⟩ := ih (v := v + 1) (by omega) fun k hk => by
      rw [Nat.add_assoc, Nat.add_comm 1 k]
      exact h (k + 1) (by omega)
    rw [show v + 1 + m = v + (m + 1) by omega] at ihs ihe
    rw [units_lt hv, hlen, List.flatMap_cons, List.filter_cons_of_pos hinvalid, ihs, ihe, hspell,
      hone, List.flatMap_cons, List.append_assoc, List.range'_succ]
    exact ⟨rfl, rfl⟩

theorem charLenAt_of_continuation (h : isContinuation (b.getD i 0) = true) :
    charLenAt b i = none := by
  by_contra hne
  obtain ⟨w, hw⟩ := Option.ne_none_iff_exists'.mp hne
  rw [(charLenAt_spec hw).2.2.2.1] at h
  cases h

/-- The bytes counted as invalid start no character. -/
theorem invalidLen_spec (hv : v < b.length) (h : charLenAt b v = none) :
    v + invalidLen b v ≤ b.length ∧ ∀ k < invalidLen b v, charLenAt b (v + k) = none := by
  have hone : v + 1 ≤ b.length ∧ ∀ k < 1, charLenAt b (v + k) = none :=
    ⟨hv, fun k hk => by obtain rfl : k = 0 := by omega
                        exact h⟩
  unfold invalidLen
  split
  · exact hone
  · rename_i w lo hi hclass
    obtain ⟨lead, -, hlead⟩ := Option.bind_eq_some_iff.mp hclass
    obtain ⟨-, -, -, hlo, hhi⟩ := leadClass_spec hlead
    split
    · exact hone
    · rename_i second others hslice
      split
      · rename_i hrange
        have hlen : 1 + others.length ≤ b.length - (v + 1) := by
          have hs := congrArg List.length hslice
          rw [slice, List.length_take, List.length_drop, List.length_cons] at hs
          omega
        have hrun := List.takeWhile_prefix isContinuation (l := others)
        have hle := hrun.length_le
        refine ⟨by omega, fun k hk => ?_⟩
        -- the byte after the lead is in its class, the ones after that are counted one by one
        have hget : ∀ j, j < 1 + others.length → b.getD (v + 1 + j) 0 = (second :: others).getD j 0 := by
          intro j hj
          rw [← hslice, List.getD_eq_getElem?_getD, List.getD_eq_getElem?_getD, slice,
            List.getElem?_take_of_lt (by
              have hs := congrArg List.length hslice
              rw [slice, List.length_take, List.length_cons] at hs
              omega), List.getElem?_drop]
        rcases k with - | - | k
        · exact h
        · refine charLenAt_of_continuation ?_
          rw [show v + (0 + 1) = v + 1 + 0 from rfl, hget 0 (by omega), List.getD_cons_zero]
          exact isContinuation_of_range (UInt8.le_trans hlo hrange.1) (UInt8.le_trans hrange.2 hhi)
        · refine charLenAt_of_continuation ?_
          rw [show v + (k + 1 + 1) = v + 1 + (k + 1) by omega, hget (k + 1) (by omega),
            List.getD_cons_succ]
          have hmem : others.getD k 0 ∈ others.takeWhile isContinuation := by
            have hk' : k < (others.takeWhile isContinuation).length := by omega
            rw [List.getD_eq_getElem?_getD, List.getElem?_eq_getElem (by omega), Option.getD_some,
              ← hrun.getElem hk']
            exact List.getElem_mem hk'
          exact List.mem_takeWhile_imp hmem
      · exact hone

/-- The chunks spell what the units spell, and escape the bytes they escape. -/
theorem chunks_eq_units (b : Bytes) (i : Nat) (hi : i ≤ b.length) :
    ((utf8Chunks b i).flatMap fun chunk => chunk.1 ++ chunk.2.flatMap escapeChar) =
        (units b i).flatMap (unitSpelling b) ∧
      Hay.escapedOffsets i (utf8Chunks b i) = (units b i).filter (invalidAt b) := by
  induction i using utf8Chunks.induct b with
  | case1 i hv v ih =>
    have hnone : charLenAt b (validUpTo b b.length i) = none := by
      by_contra hne
      obtain ⟨w, hw⟩ := Option.ne_none_iff_exists'.mp hne
      have := (validUpTo_spec b b.length i).2.2 w hw
      have := charLenAt_le hw
      omega
    have hscans := scans_validUpTo b b.length i
    obtain ⟨hle, hrun⟩ := invalidLen_spec hv hnone
    obtain ⟨ihs, ihe⟩ := ih hle
    obtain ⟨hspell, hescape⟩ := units_of_scans hscans
    obtain ⟨hspell', hescape'⟩ := units_of_invalid hle hrun
    rw [utf8Chunks, dif_pos hv, List.flatMap_cons, Hay.escapedOffsets, slice_length hscans.le hv.le,
      slice_length (Nat.le_add_right _ _) hle, Nat.add_sub_cancel' hscans.le,
      Nat.add_sub_cancel_left, ihs, ihe, hspell, hescape, hspell', hescape']
    exact ⟨by rw [List.append_assoc], rfl⟩
  | case2 i hv hlt =>
    have hend : validUpTo b b.length i = b.length :=
      Nat.le_antisymm (validUpTo_le hi) (Nat.not_lt.mp hv)
    have hscans := scans_validUpTo b b.length i
    rw [hend] at hscans
    obtain ⟨hspell, hescape⟩ := units_of_scans hscans
    rw [utf8Chunks, dif_neg hv, if_pos hlt, hspell, hescape, units_ge (Nat.le_refl _)]
    exact ⟨by simp, rfl⟩
  | case3 i hv hge =>
    rw [utf8Chunks, dif_neg hv, if_neg hge, units_ge (Nat.not_lt.mp hge)]
    exact ⟨rfl, rfl⟩

/-- The haystack is the units spelled, whether the buffer is valid text or not. -/
theorem Hay.new_text (b : Bytes) :
    (Hay.new b).text = (units b 0).flatMap (unitSpelling b) ∧
      (Hay.new b).escaped = (units b 0).filter (invalidAt b) := by
  obtain ⟨hspell, hescape⟩ := chunks_eq_units b 0 (Nat.zero_le _)
  by_cases hvalid : ValidUtf8 b
  · obtain ⟨hwhole, hnone⟩ := units_of_scans (validUtf8_iff.mp hvalid)
    rw [Hay.new, spell, if_pos hvalid, if_pos hvalid, hwhole, hnone, units_ge (Nat.le_refl _)]
    exact ⟨by rw [List.flatMap_nil, List.append_nil, slice, List.drop_zero, Nat.sub_zero,
      List.take_length], rfl⟩
  · rw [Hay.new, spell, if_neg hvalid, if_neg hvalid, hspell, hescape]
    exact ⟨rfl, rfl⟩

/-! ## Every unit is spelled as a character -/

theorem escapeChar_val (c : UInt8) :
    (Char.ofNat (escapeBase + c.toNat)).val.toNat = 0x10FF00 + c.toNat := by
  have hlt : c.toNat < 256 := c.toNat_lt
  have hvalid : Nat.isValidChar (escapeBase + c.toNat) := by
    right
    simp only [escapeBase]
    omega
  rw [Char.ofNat, dif_pos hvalid]
  rfl

/-- An escape is four bytes, the last two made of the byte's bits. -/
theorem escapeChar_eq (c : UInt8) : escapeChar c =
    [0xF4, 0x8F, UInt8.ofNat (0xBC + c.toNat / 64), UInt8.ofNat (0x80 + c.toNat % 64)] := by
  have hlt : c.toNat < 256 := c.toNat_lt
  unfold escapeChar String.utf8EncodeChar
  rw [escapeChar_val, if_neg (by omega), if_neg (by omega), if_neg (by omega),
    show (0x10FF00 + c.toNat) / 262144 % 8 + 240 = 0xF4 by omega,
    show (0x10FF00 + c.toNat) / 4096 % 64 + 128 = 0x8F by omega,
    show (0x10FF00 + c.toNat) / 64 % 64 + 128 = 0xBC + c.toNat / 64 by omega,
    show (0x10FF00 + c.toNat) % 64 + 128 = 0x80 + c.toNat % 64 by omega]
  rfl
theorem charLenAt_escapeChar (c : UInt8) : charLenAt (escapeChar c) 0 = some 4 := by
  have hlt : c.toNat < 256 := c.toNat_lt
  have hcont : ∀ n, 0x80 ≤ n → n ≤ 0xBF → isContinuation (UInt8.ofNat n) = true := by
    intro n hlow hhigh
    have hn : (UInt8.ofNat n).toNat = n := Nat.mod_eq_of_lt (by omega)
    apply isContinuation_of_range
    · rw [UInt8.le_iff_toNat_le, hn]
      exact hlow
    · rw [UInt8.le_iff_toNat_le, hn]
      exact hhigh
  have hthird := hcont (0xBC + c.toNat / 64) (by omega) (by omega)
  have hfourth := hcont (0x80 + c.toNat % 64) (by omega) (by omega)
  rw [escapeChar_eq]
  generalize UInt8.ofNat (0xBC + c.toNat / 64) = third at hthird ⊢
  generalize UInt8.ofNat (0x80 + c.toNat % 64) = fourth at hfourth ⊢
  simp [charLenAt, leadClass, slice, hthird, hfourth]

theorem escapeChar_length (c : UInt8) : (escapeChar c).length = 4 := by
  rw [escapeChar_eq]
  rfl

/-- The escape of a byte gives it back. -/
theorem escapedByte_escapeChar {c : UInt8} (h : ¬ c ≤ 0x7F) :
    escapedByte (codePoint (escapeChar c)) = some c := by
  have hlt : c.toNat < 256 := c.toNat_lt
  have hhigh : 0x7F < c.toNat := by simpa [UInt8.le_iff_toNat_le] using h
  have hthird : (UInt8.ofNat (0xBC + c.toNat / 64)).toNat = 0xBC + c.toNat / 64 :=
    Nat.mod_eq_of_lt (by omega)
  have hfourth : (UInt8.ofNat (0x80 + c.toNat % 64)).toNat = 0x80 + c.toNat % 64 :=
    Nat.mod_eq_of_lt (by omega)
  have hcode : codePoint (escapeChar c) = escapeBase + c.toNat := by
    rw [escapeChar_eq, codePoint, hthird, hfourth]
    simp [escapeBase]
    omega
  rw [hcode, escapedByte, if_pos (by omega), Nat.add_sub_cancel_left, UInt8.ofNat_toNat]
theorem unitSpelling_char :
    charLenAt (unitSpelling b i) 0 = some (unitSpelling b i).length := by
  unfold unitSpelling
  cases h : charLenAt b i with
  | none => exact (charLenAt_escapeChar _).trans (by rw [escapeChar_length])
  | some w =>
    have hlen : (slice b i (i + w)).length = w := by
      rw [slice_length (Nat.le_add_right _ _) (charLenAt_le h), Nat.add_sub_cancel_left]
    rw [hlen, ← Nat.sub_self i]
    exact charLenAt_slice h (Nat.le_refl i) (Nat.le_refl _)

theorem unitSpelling_length :
    (unitSpelling b i).length =
      unitLen b i + Hay.escapeGrowth * (if invalidAt b i then 1 else 0) := by
  unfold unitSpelling unitLen invalidAt
  cases h : charLenAt b i with
  | none => exact escapeChar_length _
  | some w => exact (slice_length (Nat.le_add_right _ _) (charLenAt_le h)).trans (by simp)

theorem scans_spelled (b : Bytes) (pre post : Bytes) (l : List Nat) :
    Scans (pre ++ (l.flatMap (unitSpelling b) ++ post)) pre.length
      (pre.length + (l.flatMap (unitSpelling b)).length) := by
  induction l generalizing pre with
  | nil => exact .refl _
  | cons u rest ih =>
    have hchar : charLenAt (pre ++ ((u :: rest).flatMap (unitSpelling b) ++ post)) pre.length =
        some (unitSpelling b u).length := by
      refine charLenAt_same unitSpelling_char fun k hk => ?_
      rw [List.flatMap_cons, List.append_assoc, List.getElem?_append_right (by omega),
        List.getElem?_append_left (by omega)]
      congr 1
      omega
    refine .char hchar ?_
    have hrest := ih (pre ++ unitSpelling b u)
    rw [List.append_assoc, List.length_append] at hrest
    rwa [List.flatMap_cons, List.append_assoc, List.length_append, ← Nat.add_assoc]

/-! ## The places between the units -/

/-- Units lead from `i` to `p`. -/
inductive Reaches (b : Bytes) : Nat → Nat → Prop
  | refl (i : Nat) : Reaches b i i
  | unit {i p : Nat} : i < b.length → Reaches b (i + unitLen b i) p → Reaches b i p

/-- The units on the way to a place come first in the list, and end there. -/
theorem Reaches.split (h : Reaches b i p) :
    ∃ l, units b i = l ++ units b p ∧ (∀ x ∈ l, x < p) ∧ i ≤ p ∧
      i + (l.flatMap (unitSpelling b)).length =
        p + Hay.escapeGrowth * (l.filter (invalidAt b)).length := by
  induction h with
  | refl i => exact ⟨[], rfl, fun x hx => absurd hx List.not_mem_nil, Nat.le_refl i, rfl⟩
  | @unit i p hi hrest ih =>
    obtain ⟨l, hl, hlt, hle, hlen⟩ := ih
    have hpos := unitLen_pos b i
    refine ⟨i :: l, by rw [units_lt hi, hl, List.cons_append], fun x hx => ?_, by omega, ?_⟩
    · rcases List.mem_cons.mp hx with rfl | hx
      · omega
      · exact hlt x hx
    · have hu := unitSpelling_length (b := b) (i := i)
      rw [List.flatMap_cons, List.length_append, List.filter_cons]
      split at hu
      · rename_i hinvalid
        rw [if_pos hinvalid, List.length_cons, Nat.mul_succ]
        omega
      · rename_i hvalid
        rw [if_neg hvalid]
        omega

/-- A boundary is reached by stepping over units. -/
theorem reaches_of_boundary (hp : isBoundary b p = true) (hle : p ≤ b.length) (hi : i ≤ p) :
    Reaches b i p := by
  induction i using units.induct b with
  | case1 i hlt ih =>
    rcases Nat.eq_or_lt_of_le hi with rfl | hip
    · exact .refl i
    refine .unit hlt (ih ?_)
    by_contra hpast
    -- the unit would hold `p` inside it, so it is a character
    cases hw : charLenAt b i with
    | none =>
      rw [unitLen, hw, Option.getD_none] at hpast
      omega
    | some w =>
      rw [unitLen, hw, Option.getD_some] at hpast
      obtain ⟨-, hw4, hwle, hlead, hcont⟩ := charLenAt_spec hw
      have hinside : insideChar b p = true := insideChar_iff.mpr
        ⟨by omega, by omega, hcont p hip (by omega), i, w, by omega, hip, hlead,
          fun k hk hkp => hcont k hk (by omega), hw, by omega⟩
      simp only [isBoundary, hinside, Bool.not_true, Bool.or_false, Bool.or_eq_true,
        beq_iff_eq] at hp
      omega
  | case2 i hge =>
    obtain rfl : i = p := by omega
    exact .refl i

theorem Reaches.snoc (h : Reaches b i p) (hp : p < b.length) :
    Reaches b i (p + unitLen b p) := by
  induction h with
  | refl i => exact .unit hp (.refl _)
  | unit hi _ ih => exact .unit hi (ih hp)

/-! ## The offset maps -/

/-- The bisection finds the number of escapes below `h`, whatever its bounds. -/
theorem Hay.bisect_eq {escaped : List Nat} {n lo hi : Nat} (hlo : lo ≤ n) (hhi : n ≤ hi)
    (hbelow : ∀ k < n, escaped.getD k 0 + escapeGrowth * k < h)
    (habove : ∀ k, n ≤ k → k < hi → ¬ escaped.getD k 0 + escapeGrowth * k < h) :
    bisect escaped h lo hi = n := by
  induction lo, hi using bisect.induct escaped h with
  | case1 lo hi hlt mid hcond ih =>
    rw [bisect, if_pos hlt, if_pos hcond]
    refine ih ?_ hhi habove
    by_contra hpast
    exact habove mid (by omega) (by omega) hcond
  | case2 lo hi hlt mid hcond ih =>
    rw [bisect, if_pos hlt, if_neg hcond]
    refine ih hlo ?_ fun k hk hkm => habove k hk (by omega)
    by_contra hpast
    exact hcond (hbelow mid (by omega))
  | case3 lo hi hge =>
    rw [bisect, if_neg hge]
    omega

/-- A place between units: the text and the escapes before it and after it, and its
offset in the haystack. -/
theorem Hay.split_at (h : Reaches b 0 p) :
    ∃ l, units b 0 = l ++ units b p ∧
      (Hay.new b).toHay p = (l.flatMap (unitSpelling b)).length ∧
      (Hay.new b).toHay p = p + escapeGrowth * (l.filter (invalidAt b)).length ∧
      (∀ x ∈ l, x < p) := by
  obtain ⟨l, hl, hlt, -, hlen⟩ := h.split
  have hbefore : (Hay.new b).escaped.takeWhile (fun x => x < p) = l.filter (invalidAt b) := by
    rw [(Hay.new_text b).2, hl, List.filter_append, List.takeWhile_append_of_pos fun x hx =>
      decide_eq_true (hlt x (List.mem_filter.mp hx).1)]
    -- no unit from `p` on begins before it
    have hnone : ((units b p).filter (invalidAt b)).takeWhile (fun x => x < p) = [] := by
      rw [List.takeWhile_eq_nil_iff]
      intro hne
      have hmem := List.getElem_mem hne
      have := le_of_mem_units (List.mem_filter.mp hmem).1
      simpa using this
    rw [hnone, List.append_nil]
  have hto : (Hay.new b).toHay p = p + escapeGrowth * (l.filter (invalidAt b)).length := by
    rw [Hay.toHay, hbefore]
  exact ⟨l, hl, by omega, hto, hlt⟩

/-- A position taken into the hay and back is the same. -/
theorem Hay.toBuf_toHay (h : Reaches b 0 p) :
    (Hay.new b).toBuf ((Hay.new b).toHay p) = some p := by
  obtain ⟨l, hl, -, hto, hlt⟩ := Hay.split_at h
  have hescaped : (Hay.new b).escaped =
      l.filter (invalidAt b) ++ (units b p).filter (invalidAt b) := by
    rw [(Hay.new_text b).2, hl, List.filter_append]
  have hcount : bisect (Hay.new b).escaped ((Hay.new b).toHay p) 0 (Hay.new b).escaped.length =
      (l.filter (invalidAt b)).length := by
    rw [hescaped, hto]
    refine Hay.bisect_eq (Nat.zero_le _) (by rw [List.length_append]; omega) (fun k hk => ?_)
      fun k hk hkl => ?_
    · rw [List.getD_eq_getElem?_getD, List.getElem?_append_left hk, List.getElem?_eq_getElem hk,
        Option.getD_some]
      have := hlt _ (List.mem_filter.mp (List.getElem_mem hk)).1
      unfold escapeGrowth
      omega
    · rw [List.length_append] at hkl
      have hk' : k - (l.filter (invalidAt b)).length < ((units b p).filter (invalidAt b)).length := by
        omega
      rw [List.getD_eq_getElem?_getD, List.getElem?_append_right hk, List.getElem?_eq_getElem hk',
        Option.getD_some]
      have := le_of_mem_units (List.mem_filter.mp (List.getElem_mem hk')).1
      unfold escapeGrowth
      omega
  rw [Hay.toBuf, hcount, hto]
  exact (if_pos (by omega)).trans (by rw [Nat.add_sub_cancel])

theorem Hay.toHay_mono (hay : Hay) {q : Nat} (h : p ≤ q) :
    hay.toHay p + (q - p) ≤ hay.toHay q := by
  have hcount : (hay.escaped.takeWhile fun x => x < p).length ≤
      (hay.escaped.takeWhile fun x => x < q).length := by
    induction hay.escaped with
    | nil => exact Nat.le_refl _
    | cons x rest ih =>
      rw [List.takeWhile_cons, List.takeWhile_cons]
      by_cases hx : x < p
      · rw [if_pos (decide_eq_true hx), if_pos (decide_eq_true (Nat.lt_of_lt_of_le hx h))]
        exact Nat.succ_le_succ ih
      · rw [if_neg (by simpa using hx)]
        exact Nat.zero_le _
  unfold Hay.toHay escapeGrowth
  omega

theorem Hay.new_valid (b : Bytes) : ValidUtf8 (Hay.new b).text := by
  have h := scans_spelled b [] [] (units b 0)
  rw [List.nil_append, List.append_nil, List.length_nil, Nat.zero_add] at h
  rw [(Hay.new_text b).1]
  exact validUtf8_iff.mpr h

theorem Hay.toHay_scans (h : Reaches b 0 p) :
    Scans (Hay.new b).text 0 ((Hay.new b).toHay p) := by
  obtain ⟨l, hl, hlen, -, -⟩ := Hay.split_at h
  have hs := scans_spelled b [] ((units b p).flatMap (unitSpelling b)) l
  rw [List.nil_append, List.length_nil, Nat.zero_add] at hs
  rwa [(Hay.new_text b).1, hl, List.flatMap_append, hlen]

/-- Each unit of the text is one character of the hay. -/
theorem Hay.char_at (h : Reaches b 0 i) (hi : i < b.length) :
    charLenAt (Hay.new b).text ((Hay.new b).toHay i) = some (unitSpelling b i).length ∧
      (Hay.new b).toHay (i + unitLen b i) =
        (Hay.new b).toHay i + (unitSpelling b i).length := by
  obtain ⟨l, hl, hlen, -, -⟩ := Hay.split_at h
  obtain ⟨l', hl', hlen', -, -⟩ := Hay.split_at (h.snoc hi)
  rw [units_lt hi] at hl
  have hsame : l' = l ++ [i] := by
    have hsplit : l' ++ units b (i + unitLen b i) = (l ++ [i]) ++ units b (i + unitLen b i) := by
      rw [← hl', hl, List.append_assoc, List.singleton_append]
    exact List.append_cancel_right hsplit
  refine ⟨?_, by rw [hlen', hlen, hsame, List.flatMap_append, List.length_append,
    List.flatMap_singleton]⟩
  refine charLenAt_same unitSpelling_char fun k hk => ?_
  rw [(Hay.new_text b).1, hl, List.flatMap_append, List.flatMap_cons,
    List.getElem?_append_right (by omega), List.getElem?_append_left (by omega)]
  congr 1
  omega

/-- Every boundary of the haystack is the offset of a place between units. -/
theorem Hay.boundary_of_hay (hh : IsCharBoundary (Hay.new b).text h) (hi : Reaches b 0 i)
    (hle : (Hay.new b).toHay i ≤ h) :
    ∃ p, Reaches b 0 p ∧ (Hay.new b).toHay p = h := by
  induction i using units.induct b with
  | case1 i hlt ih =>
    obtain ⟨hchar, hnext⟩ := Hay.char_at hi hlt
    rcases Nat.eq_or_lt_of_le hle with heq | hgt
    · exact ⟨i, hi, heq⟩
    refine ih (hi.snoc hlt) ?_
    by_contra hin
    -- inside the character there is no boundary
    obtain ⟨-, -, hend, -, hcont⟩ := charLenAt_spec hchar
    have hc := hcont h hgt (by omega)
    rcases hh with hz | hl | ⟨-, hlead⟩
    · omega
    · omega
    · rw [hlead] at hc
      cases hc
  | case2 i hge =>
    obtain ⟨l, hl, hlen, -, -⟩ := Hay.split_at hi
    rw [units_ge (Nat.not_lt.mp hge), List.append_nil] at hl
    have hle' := hh.le
    rw [(Hay.new_text b).1, hl] at hle'
    exact ⟨i, hi, by omega⟩

theorem Reaches.le_length (h : Reaches b i p) (hi : i ≤ b.length) :
    p ≤ b.length := by
  induction h with
  | refl _ => exact hi
  | unit hlt _ ih => exact ih (unitLen_le hlt)

theorem Hay.toBuf_boundary (hh : IsCharBoundary (Hay.new b).text h) :
    ∃ p, (Hay.new b).toBuf h = some p ∧ Reaches b 0 p ∧ (Hay.new b).toHay p = h := by
  have hzero : (Hay.new b).toHay 0 = 0 := by simp [Hay.toHay]
  obtain ⟨p, hp, rfl⟩ := Hay.boundary_of_hay hh (.refl 0) (by omega)
  exact ⟨p, Hay.toBuf_toHay hp, hp, rfl⟩

theorem Hay.le_of_toHay_le {hay : Hay} {q : Nat} (h : hay.toHay p ≤ hay.toHay q) : p ≤ q := by
  by_contra hlt
  have := hay.toHay_mono (Nat.le_of_lt (Nat.lt_of_not_le hlt))
  omega

/-! ## Back to bytes -/

/-- No character of the buffer is one of the reserved escape characters. -/
def NoReserved (b : Bytes) : Prop :=
  ∀ i w, charLenAt b i = some w → escapedByte (codePoint (slice b i (i + w))) = none

theorem unspellFrom_some {s : Bytes} {w : Nat} (h : charLenAt s i = some w) :
    unspellFrom s i = (match escapedByte (codePoint (slice s i (i + w))) with
      | some b => [b]
      | none => slice s i (i + w)) ++ unspellFrom s (i + w) := by
  rw [unspellFrom]
  split
  · rename_i w' hw'
    rw [h] at hw'
    cases hw'
    rfl
  · rename_i hnone
    rw [h] at hnone
    cases hnone

/-- Unspelling gives the bytes back where the text has none of the reserved characters. -/
theorem unspellFrom_spelled (hb : NoReserved b) (pre : Bytes) (i : Nat) :
    unspellFrom (pre ++ (units b i).flatMap (unitSpelling b)) pre.length = b.drop i := by
  induction i using units.induct b generalizing pre with
  | case1 i hi ih =>
    have hchar : charLenAt (pre ++ (units b i).flatMap (unitSpelling b)) pre.length =
        some (unitSpelling b i).length := by
      refine charLenAt_same unitSpelling_char fun k hk => ?_
      rw [units_lt hi, List.flatMap_cons, List.getElem?_append_right (by omega),
        List.getElem?_append_left (by omega)]
      congr 1
      omega
    have hslice : slice (pre ++ (units b i).flatMap (unitSpelling b)) pre.length
        (pre.length + (unitSpelling b i).length) = unitSpelling b i := by
      rw [units_lt hi, List.flatMap_cons, slice, List.drop_left, Nat.add_sub_cancel_left,
        List.take_left]
    have hrest := ih (pre ++ unitSpelling b i)
    rw [List.append_assoc, List.length_append, ← List.flatMap_cons, ← units_lt hi] at hrest
    rw [unspellFrom_some hchar, hslice, hrest]
    -- a character is read as itself, an escape character as its byte
    cases hw : charLenAt b i with
    | some w =>
      have hspell : unitSpelling b i = slice b i (i + w) := by rw [unitSpelling, hw]
      rw [hspell, hb i w hw, unitLen, hw, Option.getD_some]
      rw [slice, Nat.add_sub_cancel_left, ← List.drop_drop, List.take_append_drop]
    | none =>
      have hspell : unitSpelling b i = escapeChar (b.getD i 0) := by rw [unitSpelling, hw]
      have hget : b[i]? = some (b.getD i 0) := by
        rw [List.getD_eq_getElem?_getD, List.getElem?_eq_getElem hi, Option.getD_some]
      have hhigh : ¬ b.getD i 0 ≤ 0x7F := fun hlow => by
        rw [charLenAt_eq_one.mpr ⟨_, hget, hlow⟩] at hw
        cases hw
      rw [hspell, escapedByte_escapeChar hhigh, unitLen, hw, Option.getD_none]
      rw [List.drop_eq_getElem_cons hi, List.getD_eq_getElem?_getD, List.getElem?_eq_getElem hi]
      rfl
  | case2 i hge =>
    have hnone : charLenAt (pre ++ []) pre.length = none := by
      by_contra hne
      obtain ⟨w, hw⟩ := Option.ne_none_iff_exists'.mp hne
      have := charLenAt_le hw
      have := charLenAt_pos hw
      rw [List.append_nil] at *
      omega
    rw [units_ge (Nat.not_lt.mp hge), List.flatMap_nil, List.drop_eq_nil_of_le (Nat.not_lt.mp hge),
      unspellFrom]
    split
    · rename_i hw
      rw [hnone] at hw
      cases hw
    · rfl

theorem unspell_spelled (hb : NoReserved b) : unspell (spell b) = b := by
  have hback := unspellFrom_spelled hb [] 0
  rw [List.nil_append, List.length_nil, List.drop_zero] at hback
  rw [unspell, show spell b = (Hay.new b).text from rfl, (Hay.new_text b).1, hback]

/-- The haystack is faithful to any bytes: it is valid text, the boundaries of the buffer
are boundaries of it and come back, neither map goes backwards, and the spelling is
undone. -/
theorem Hay.faithful (b : Bytes) :
    ValidUtf8 (Hay.new b).text ∧
    (∀ p ≤ b.length, isBoundary b p = true →
      IsCharBoundary (Hay.new b).text ((Hay.new b).toHay p) ∧
        (Hay.new b).toBuf ((Hay.new b).toHay p) = some p) ∧
    (∀ p q, p ≤ q → (Hay.new b).toHay p ≤ (Hay.new b).toHay q) ∧
    (∀ h k, IsCharBoundary (Hay.new b).text h → IsCharBoundary (Hay.new b).text k → h ≤ k →
      ∃ p q, (Hay.new b).toBuf h = some p ∧ (Hay.new b).toBuf k = some q ∧ p ≤ q) ∧
    (NoReserved b → unspell (spell b) = b) := by
  have hvalid := Hay.new_valid b
  refine ⟨hvalid, fun p hp hbound => ?_, fun p q hpq => ?_, fun h k hh hk hhk => ?_,
    unspell_spelled⟩
  · have hr := reaches_of_boundary hbound hp (Nat.zero_le p)
    exact ⟨hvalid.boundary_of_scans (.inl rfl) (Hay.toHay_scans hr), Hay.toBuf_toHay hr⟩
  · have := Hay.toHay_mono (Hay.new b) hpq
    omega
  · have hzero : (Hay.new b).toHay 0 = 0 := by
      have hnone : (Hay.new b).escaped.takeWhile (fun x => x < 0) = [] := by
        rw [List.takeWhile_eq_nil_iff]
        intro _ hlt
        exact absurd (of_decide_eq_true hlt) (Nat.not_lt_zero _)
      rw [Hay.toHay, hnone]
      rfl
    obtain ⟨p, hp, rfl⟩ := Hay.boundary_of_hay hh (.refl 0) (by omega)
    obtain ⟨q, hq, rfl⟩ := Hay.boundary_of_hay hk (.refl 0) (by omega)
    refine ⟨p, q, Hay.toBuf_toHay hp, Hay.toBuf_toHay hq, ?_⟩
    by_contra hqp
    have := Hay.toHay_mono (Hay.new b) (Nat.le_of_lt (Nat.lt_of_not_le hqp))
    omega

/-- A letter and a stray byte are spelled and read back. -/
theorem Hay.faithful_stray : unspell (spell [0x61, 0xFF]) = [0x61, 0xFF] := by
  refine (Hay.faithful [0x61, 0xFF]).2.2.2.2 fun i w h => ?_
  have hle := charLenAt_le h
  have hpos := charLenAt_pos h
  have hi : i = 0 ∨ i = 1 := by
    simp at hle
    omega
  rcases hi with rfl | rfl
  · rw [show charLenAt [0x61, 0xFF] 0 = some 1 by decide] at h
    cases h
    decide
  · rw [show charLenAt [0x61, 0xFF] 1 = none by decide] at h
    cases h

end Ruse.Core
