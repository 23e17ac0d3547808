import Ruse.Core.Runs

/-!
# The characters of a stretch of text

`charsOf` reads whole characters as a list. Conversely a list of characters, each in its
bytes (`Spelled`), spells a text (`spelling`), and stands wherever its bytes stand
(`charsOf_spelling`).
-/

namespace Ruse.Core

/-- The characters from `i` to `j`. -/
def charsOf (b : Bytes) (i j : Nat) : List Char := charsFrom (slice b i j) 0

/-- The character of `w` bytes at `i`. -/
def charAt (b : Bytes) (i w : Nat) : Char := Char.ofNat (codePoint (slice b i (i + w)))

theorem slice_slice {b : Bytes} {c j i k : Nat} (hc : c ≤ i) (hk : k ≤ j) :
    slice (slice b c j) (i - c) (k - c) = slice b i k := by
  refine List.ext_getElem? fun n => ?_
  have hread : ∀ (t : Bytes) (i k : Nat), (slice t i k)[n]? = if n < k - i then t[i + n]? else none := by
    intro t i k
    split
    · rw [slice, List.getElem?_take_of_lt ‹_›, List.getElem?_drop]
    · rw [slice, List.getElem?_eq_none]
      simp only [List.length_take, List.length_drop]
      omega
  rw [hread, hread]
  by_cases hn : n < k - i
  · rw [if_pos hn, if_pos (by omega), slice, List.getElem?_take_of_lt (by omega), List.getElem?_drop,
      show c + (i - c + n) = i + n by omega]
  · rw [if_neg hn, if_neg (by omega)]

theorem charsFrom_some {b : Bytes} {i w : Nat} (h : charLenAt b i = some w) :
    charsFrom b i = charAt b i w :: charsFrom b (i + w) := by
  rw [charsFrom]
  split
  · rename_i w' hw'
    rw [h] at hw'
    cases hw'
    rfl
  · rename_i hnone
    rw [h] at hnone
    cases hnone

theorem charsFrom_none {b : Bytes} {i : Nat} (h : charLenAt b i = none) : charsFrom b i = [] := by
  rw [charsFrom]
  split
  · rename_i w hw
    rw [h] at hw
    cases hw
  · rfl

section
variable {b : Bytes} {i j k : Nat}

@[simp] theorem charsOf_self (b : Bytes) (i : Nat) : charsOf b i i = [] := by
  rw [charsOf, slice_self]
  exact charsFrom_none rfl

/-- The characters of a slice are those of the text between the two places. -/
theorem charsFrom_slice {c : Nat} (h : Scans b i j) (hc : c ≤ i) (hj : j ≤ b.length) :
    charsFrom (slice b c j) (i - c) = charsOf b i j := by
  induction h generalizing c with
  | refl j =>
    rw [charsOf_self]
    refine charsFrom_none ?_
    have hlen := charLenAt_length (slice b c j)
    rwa [slice_length hc hj] at hlen
  | @char i w j hw hrest ih =>
    have hle := hrest.le
    have hwide := charLenAt_slice hw hc hle
    have hself := charLenAt_slice hw (Nat.le_refl i) hle
    have hchar : ∀ c, c ≤ i → charAt (slice b c j) (i - c) w = charAt b i w := by
      intro c hc
      rw [charAt, charAt, show i - c + w = i + w - c by omega, slice_slice hc hle]
    have hnext : ∀ c, c ≤ i → charsFrom (slice b c j) (i - c + w) = charsOf b (i + w) j := by
      intro c hc
      rw [show i - c + w = i + w - c by omega]
      exact ih (by omega) hj
    rw [Nat.sub_self] at hself
    have hchar' := hchar i (Nat.le_refl i)
    have hnext' := hnext i (Nat.le_refl i)
    rw [Nat.sub_self] at hchar' hnext'
    have hread : charsOf b i j = charAt b i w :: charsOf b (i + w) j := by
      rw [charsOf, charsFrom_some hself, hchar', hnext']
    rw [charsFrom_some hwide, hchar c hc, hnext c hc, hread]

theorem charsOf_char {w : Nat} (hw : charLenAt b i = some w) (h : Scans b (i + w) j)
    (hj : j ≤ b.length) : charsOf b i j = charAt b i w :: charsOf b (i + w) j := by
  have hle := h.le
  have hself := charLenAt_slice hw (Nat.le_refl i) hle
  have hnext := charsFrom_slice (c := i) h (Nat.le_add_right i w) hj
  rw [Nat.sub_self] at hself
  rw [Nat.add_sub_cancel_left] at hnext
  have hslice := slice_slice (b := b) (Nat.le_refl i) hle
  rw [Nat.sub_self, Nat.add_sub_cancel_left] at hslice
  rw [charsOf, charsFrom_some hself, charAt, Nat.zero_add, hslice, hnext]
  rfl

theorem charsOf_one {w : Nat} (hw : charLenAt b i = some w) :
    charsOf b i (i + w) = [charAt b i w] := by
  rw [charsOf_char hw (.refl _) (charLenAt_le hw), charsOf_self]

theorem charsOf_append (h : Scans b i j) (h' : Scans b j k) (hk : k ≤ b.length) :
    charsOf b i k = charsOf b i j ++ charsOf b j k := by
  induction h with
  | refl => rw [charsOf_self, List.nil_append]
  | @char i w j hw hrest ih =>
    have hj := Nat.le_trans h'.le hk
    rw [charsOf_char hw (hrest.trans h') hk, charsOf_char hw hrest hj, ih h', List.cons_append]

theorem charsOf_ne_nil (h : Scans b i j) (hlt : i < j) (hj : j ≤ b.length) : charsOf b i j ≠ [] := by
  obtain ⟨w, hw, hrest⟩ := h.first hlt
  rw [charsOf_char hw hrest hj]
  exact List.cons_ne_nil _ _

end

/-! ## The same bytes elsewhere -/

theorem Scans.same {b b' : Bytes} {i j i' : Nat} (h : Scans b i j)
    (hbyte : ∀ k < j - i, b'[i' + k]? = b[i + k]?) : Scans b' i' (i' + (j - i)) := by
  induction h generalizing i' with
  | refl =>
    rw [Nat.sub_self]
    exact .refl i'
  | @char i w j hw hrest ih =>
    have hle := hrest.le
    have hnext : Scans b' (i' + w) (i' + w + (j - (i + w))) := ih fun k hk => by
      have := hbyte (w + k) (by omega)
      rwa [← Nat.add_assoc, ← Nat.add_assoc] at this
    rw [show i' + w + (j - (i + w)) = i' + (j - i) by omega] at hnext
    exact .char (charLenAt_same hw fun k hk => hbyte k (by omega)) hnext

theorem charsOf_same {b b' : Bytes} {i j i' j' : Nat} (hlen : j' - i' = j - i)
    (hbyte : ∀ k < j - i, b'[i' + k]? = b[i + k]?) : charsOf b' i' j' = charsOf b i j := by
  have hslice := slice_eq_of_getElem? hbyte
  rw [Nat.add_comm i, Nat.add_comm i'] at hslice
  simp only [slice] at hslice
  simp only [charsOf, slice, hlen]
  rw [Nat.add_sub_cancel, Nat.add_sub_cancel] at hslice
  rw [hslice]

/-! ## Characters in bytes -/

structure Spelled where
  bytes : Bytes
  one : charLenAt bytes 0 = some bytes.length

namespace Spelled

def char (u : Spelled) : Char := charAt u.bytes 0 u.bytes.length

theorem length_le (u : Spelled) : u.bytes.length ≤ 4 := (charLenAt_spec u.one).2.1

def ascii (c : UInt8) (h : c ≤ 0x7F) : Spelled := ⟨[c], charLenAt_eq_one.mpr ⟨c, rfl, h⟩⟩

end Spelled

def spelling (us : List Spelled) : Bytes := us.flatMap Spelled.bytes

@[simp] theorem spelling_nil : spelling [] = [] := rfl

@[simp] theorem spelling_cons (u : Spelled) (us : List Spelled) :
    spelling (u :: us) = u.bytes ++ spelling us := rfl

@[simp] theorem spelling_append (us vs : List Spelled) :
    spelling (us ++ vs) = spelling us ++ spelling vs := List.flatMap_append

theorem spelling_length_le (us : List Spelled) : (spelling us).length ≤ 4 * us.length := by
  induction us with
  | nil => exact Nat.le_refl _
  | cons u us ih =>
    have := u.length_le
    rw [spelling_cons, List.length_append, List.length_cons]
    omega

theorem spelling_replicate_ascii (n : Nat) (c : UInt8) (h : c ≤ 0x7F) :
    (spelling (List.replicate n (.ascii c h))).length = n := by
  induction n with
  | zero => rfl
  | succ n ih =>
    rw [List.replicate_succ, spelling_cons, List.length_append, ih]
    exact Nat.add_comm 1 n

/-- Spelled characters are whole characters of every text they stand in. -/
theorem charsOf_spelling (x y : Bytes) (us : List Spelled) :
    Scans (x ++ (spelling us ++ y)) x.length (x.length + (spelling us).length) ∧
      charsOf (x ++ (spelling us ++ y)) x.length (x.length + (spelling us).length) =
        us.map Spelled.char := by
  induction us generalizing x with
  | nil => exact ⟨.refl _, charsOf_self _ _⟩
  | cons u us ih =>
    have hbyte : ∀ k < u.bytes.length,
        (x ++ (spelling (u :: us) ++ y))[x.length + k]? = u.bytes[0 + k]? := by
      intro k hk
      rw [List.getElem?_append_right (Nat.le_add_right _ _), Nat.add_sub_cancel_left, spelling_cons,
        List.append_assoc, List.getElem?_append_left hk, Nat.zero_add]
    have hw : charLenAt (x ++ (spelling (u :: us) ++ y)) x.length = some u.bytes.length :=
      charLenAt_same u.one hbyte
    have hchar : charAt (x ++ (spelling (u :: us) ++ y)) x.length u.bytes.length = u.char := by
      have := slice_eq_of_getElem? hbyte
      rw [charAt, this]
      rfl
    have htext : x ++ (spelling (u :: us) ++ y) = (x ++ u.bytes) ++ (spelling us ++ y) := by
      rw [spelling_cons, List.append_assoc, List.append_assoc]
    obtain ⟨hscan, hchars⟩ := ih (x ++ u.bytes)
    rw [← htext, List.length_append] at hscan hchars
    have hlen : x.length + (spelling (u :: us)).length =
        x.length + u.bytes.length + (spelling us).length := by
      rw [spelling_cons, List.length_append, Nat.add_assoc]
    rw [hlen]
    refine ⟨.char hw hscan, ?_⟩
    rw [charsOf_char hw hscan (by simp; omega), hchar, hchars, List.map_cons]

theorem exists_spelled {b : Bytes} {i j : Nat} (h : Scans b i j) (hj : j ≤ b.length) :
    ∃ us : List Spelled, charsOf b i j = us.map Spelled.char := by
  induction h with
  | refl i => exact ⟨[], charsOf_self b i⟩
  | @char i w j hw hrest ih =>
    obtain ⟨us, hus⟩ := ih hj
    have hlen := slice_length (Nat.le_add_right i w) (charLenAt_le hw)
    have hone := charLenAt_slice hw (Nat.le_refl i) (Nat.le_refl (i + w))
    rw [Nat.sub_self] at hone
    rw [Nat.add_sub_cancel_left] at hlen
    refine ⟨⟨slice b i (i + w), by rw [hlen]; exact hone⟩ :: us, ?_⟩
    have hslice := slice_slice (b := b) (Nat.le_refl i) (Nat.le_refl (i + w))
    rw [Nat.sub_self, Nat.add_sub_cancel_left] at hslice
    rw [charsOf_char hw hrest hj, hus, List.map_cons]
    unfold Spelled.char
    dsimp only
    rw [hlen, charAt, charAt, Nat.zero_add, hslice]

theorem ascii_text {b : Bytes} (hb : ∀ c ∈ b, c ≤ 0x7F) :
    ValidUtf8 b ∧ charsFrom b 0 = b.map fun c => Char.ofNat c.toNat := by
  obtain ⟨us, hus, hchars⟩ : ∃ us, spelling us = b ∧
      us.map Spelled.char = b.map fun c => Char.ofNat c.toNat := by
    induction b with
    | nil => exact ⟨[], rfl, rfl⟩
    | cons c b ih =>
      obtain ⟨us, hus, hchars⟩ := ih fun c hc => hb c (List.mem_cons_of_mem _ hc)
      refine ⟨.ascii c (hb c List.mem_cons_self) :: us, by rw [spelling_cons, hus]; rfl, ?_⟩
      rw [List.map_cons, List.map_cons, hchars]
      rfl
  obtain ⟨hscan, hread⟩ := charsOf_spelling [] [] us
  rw [hus, hchars] at *
  rw [List.nil_append, List.append_nil, List.length_nil, Nat.zero_add] at hscan hread
  refine ⟨validUtf8_iff.mpr hscan, ?_⟩
  rw [← hread, charsOf, slice, List.drop_zero, Nat.sub_zero, List.take_length]

end Ruse.Core
