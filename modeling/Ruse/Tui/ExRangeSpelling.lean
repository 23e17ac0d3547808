import Mathlib.Tactic.IntervalCases
import Ruse.Tui.ExRange

/-!
# Resolved ranges are read again

What `resolve` pastes before the rest of a line is read again by the same scanner as the same
addresses, and resolves to the same text, if and only if the rest does not go on where the
range ends (`Unmistaken`): a digit, a sign or a separator would be read as a part of it.
-/

namespace Ruse.Tui

open Ruse.Persist

variable {v : Int} {more : Scan → Scanned Scan} {fuel : Nat}

/-! ## Spelling numbers -/

theorem parseNumber_toDigits {n : Nat} (h : (n : Int) ≤ i64Max) :
    parseNumber (Nat.toDigits 10 n) = n := by
  rw [parseNumber, Nat.ofDigitChars_ten_toDigits]
  exact min_eq_right h

theorem isDigit_toDigits (n : Nat) : ∀ c ∈ Nat.toDigits 10 n, c.isDigit = true :=
  fun _ hc => Nat.isDigit_of_mem_toDigits (by decide) (by decide) hc

theorem digit_cases {c : Char} (h : c.isDigit = true) :
    ∃ k < 10, c = Char.ofNat (48 + k) := by
  have hbounds : 48 ≤ c.toNat ∧ c.toNat ≤ 57 := by
    simpa [Char.isDigit, UInt32.le_iff_toNat_le] using h
  refine ⟨c.toNat - 48, by omega, ?_⟩
  rw [show 48 + (c.toNat - 48) = c.toNat by omega, Char.ofNat_toNat]

theorem spell_eq (h : 0 ≤ v) : spell v = Nat.toDigits 10 v.natAbs := by
  rw [spell, if_neg (by omega)]

theorem spell_cons (h : 0 ≤ v) :
    ∃ c rest, spell v = c :: rest ∧ ∀ d ∈ spell v, d.isDigit = true := by
  rw [spell_eq h]
  cases hd : Nat.toDigits 10 v.natAbs with
  | nil => exact absurd hd Nat.toDigits_ne_nil
  | cons c rest => exact ⟨c, rest, rfl, hd ▸ isDigit_toDigits v.natAbs⟩

theorem takeWhile_spell (h : 0 ≤ v) (t : List Char) :
    (spell v ++ t).takeWhile Char.isDigit = spell v ++ t.takeWhile Char.isDigit ∧
      (spell v ++ t).dropWhile Char.isDigit = t.dropWhile Char.isDigit := by
  obtain ⟨-, -, -, hall⟩ := spell_cons h
  exact ⟨List.takeWhile_append_of_pos hall, List.dropWhile_append_of_pos hall⟩

theorem parseNumber_spell (h : 0 ≤ v) (hmax : v ≤ i64Max) : parseNumber (spell v) = v := by
  rw [spell_eq h, parseNumber_toDigits (by omega)]
  omega

/-! ## One address -/

section
variable {lines : LineCount} {env : Surroundings} {s s' : Scan} {c : Char} {t : List Char}

theorem base_digit (hc : c.isDigit = true) (hs : s.rest = c :: t) :
    base lines env s = .ok (some (parseNumber (s.rest.takeWhile Char.isDigit)),
      { s with rest := s.rest.dropWhile Char.isDigit }) := by
  obtain ⟨k, hk, rfl⟩ := digit_cases hc
  unfold base
  interval_cases k <;> simp [hs]

theorem offsets_none (ht : ∀ c, t.head? = some c → c ≠ '+' ∧ c ≠ '-') (n : Nat) :
    offsets n v t = (v, false, t) := by
  cases n with
  | zero => simp [offsets]
  | succ n =>
    unfold offsets
    split
    · exact absurd rfl (ht '+' rfl).1
    · exact absurd rfl (ht '-' rfl).2
    · rfl

theorem separated_none (ht : ∀ c, s.rest.head? = some c → c ≠ ',' ∧ c ≠ ';') :
    separated lines more v s = .ok s := by
  unfold separated
  split
  · rename_i rest h
    exact absurd rfl (ht ',' (by rw [h]; rfl)).1
  · rename_i rest h
    exact absurd rfl (ht ';' (by rw [h]; rfl)).2
  · rfl

theorem addresses_found (hb : base lines env s.skipBlanks = .ok (some v, s')) :
    addresses lines env (fuel + 1) s =
      separated lines (addresses lines env fuel) (offsets s'.rest.length v s'.rest).1
        (Scan.skipBlanks
          { s' with
            rest := (offsets s'.rest.length v s'.rest).2.2
            addrs := s'.addrs ++ [(offsets s'.rest.length v s'.rest).1] }) := by
  rw [addresses, hb]
  simp

end

/-! ## Nothing is read back -/

section
variable {lines : LineCount} {env : Surroundings} {s s' : Scan} {c : Char} {t : List Char}

theorem length_dropWhile_le (p : Char → Bool) (l : List Char) : (l.dropWhile p).length ≤ l.length :=
  (List.dropWhile_sublist p).length_le

theorem scanPattern_le (delim : Char) (l : List Char) :
    (scanPattern delim l).2.length ≤ l.length := by
  fun_induction scanPattern delim l with
  | case1 => simp
  | case2 => simp
  | case3 c rest raw after h ih => simp_all; omega
  | case4 => simp
  | case5 => simp_all; omega

/-- `s'` comes after `s`: it has no more of the line left, and the same cursor. -/
structure Onwards (s s' : Scan) : Prop where
  le : s'.rest.length ≤ s.rest.length
  cur : s'.cur = s.cur

theorem Onwards.refl (s : Scan) : Onwards s s := ⟨Nat.le_refl _, rfl⟩

theorem searches_onwards {line line' : Int} (h : searches env fuel s line = .ok (line', s')) :
    Onwards s s' := by
  fun_induction searches env fuel s line with
  | case1 s line | case7 fuel s line | case8 fuel s line =>
    obtain ⟨-, rfl⟩ := Prod.mk.inj (Except.ok.inj h)
    exact .refl s
  | case2 | case3 | case5 => cases h
  | case4 fuel s line delim rest hrest _ forward raw after hscan _ s₁ _ pat _ line₁ _ ih
  | case6 fuel s line delim rest hrest _ forward raw after hscan _ s₁ _ s₂ line₁ _ ih =>
    have hafter := scanPattern_le delim rest
    rw [hscan] at hafter
    obtain ⟨hle, hcur⟩ := ih h
    refine ⟨hle.trans (hafter.trans ?_), hcur⟩
    simp [hrest]

theorem searchAgain_onwards {rest : List Char} {pat : Option (List Char)} {forward : Bool}
    {found : Option Int} (hrest : rest.length ≤ s.rest.length)
    (h : searchAgain env s rest pat forward = .ok (found, s')) : Onwards s s' := by
  unfold searchAgain at h
  split at h
  · cases h
  · split at h
    · cases h
    · obtain ⟨-, rfl⟩ := Prod.mk.inj (Except.ok.inj h)
      exact ⟨hrest, rfl⟩

/-- The base of an address goes onwards. -/
theorem base_onwards {found : Option Int} (h : base lines env s = .ok (found, s')) :
    Onwards s s' := by
  have hone {v : Option Int} {s₁ : Scan}
      (heq : (Except.ok (v, s₁) : Scanned (Option Int × Scan)) = .ok (found, s'))
      (hon : Onwards s s₁) : Onwards s s' := by
    obtain ⟨-, rfl⟩ := Prod.mk.inj (Except.ok.inj heq)
    exact hon
  unfold base at h
  split at h
  case h_1 => exact hone h (.refl s)
  case h_2 rest hrest | h_3 rest hrest | h_4 rest hrest => exact hone h ⟨by simp [hrest], rfl⟩
  case h_5 rest hrest =>
    split at h
    · cases h
    · exact hone h ⟨by simp [hrest], rfl⟩
  case h_6 | h_11 => cases h
  case h_7 c rest _ hrest =>
    split at h
    · cases h
    · cases h
    · exact hone h ⟨by simp only [hrest, List.length_cons]; omega, rfl⟩
  case h_8 rest hrest | h_9 rest hrest =>
    exact searchAgain_onwards (by simp only [hrest, List.length_cons]; omega) h
  case h_10 rest hrest =>
    split at h
    · cases h
    · exact searchAgain_onwards (by simp only [hrest, List.length_cons]; omega) h
  case h_12 c rest _ _ _ _ _ _ hrest =>
    split at h
    · split at h
      · cases h
      · next line s₁ hs => exact hone h (searches_onwards hs)
    · dsimp only at h
      split at h
      · exact hone h (.refl s)
      · exact hone h ⟨length_dropWhile_le _ _, rfl⟩

theorem offsets_le (fuel : Nat) (v : Int) (t : List Char) :
    (offsets fuel v t).2.2.length ≤ t.length := by
  fun_induction offsets fuel v t with
  | case1 fuel v rest v' _ rest' heq ih | case2 fuel v rest v' _ rest' heq ih =>
    rw [heq] at ih
    dsimp only at ih ⊢
    have hdigits := length_dropWhile_le Char.isDigit rest
    simp only [List.length_cons]
    omega
  | case3 => exact Nat.le_refl _

theorem offsets_sign (fuel : Nat) (hc : c = '+' ∨ c = '-') :
    (offsets (fuel + 1) v (c :: t)).2.2.length ≤ t.length := by
  have hdigits := length_dropWhile_le Char.isDigit t
  obtain rfl | rfl := hc
  · exact (offsets_le fuel (saturate (v + offsetNumber t)) _).trans hdigits
  · exact (offsets_le fuel (saturate (v - offsetNumber t)) _).trans hdigits

def Scan.Placed (lines : LineCount) (s : Scan) : Prop := 1 ≤ s.cur ∧ s.cur ≤ lines.n

/-- Reading more leaves no more of the line, and the cursor on a line. -/
def Reads (lines : LineCount) (more : Scan → Scanned Scan) : Prop :=
  ∀ s s', more s = .ok s' → s'.rest.length ≤ s.rest.length ∧ (s.Placed lines → s'.Placed lines)

/-- Behind a separator the rest is shorter. -/
theorem separated_sep (hmore : Reads lines more) (hc : c = ',' ∨ c = ';') (hs : s.rest = c :: t)
    (h : separated lines more v s = .ok s') :
    s'.rest.length ≤ t.length ∧ (s.Placed lines → s'.Placed lines) := by
  have hafter (s₁ : Scan) (hrest : s₁.rest = t) (hplaced : s.Placed lines → s₁.Placed lines)
      (h : (if beginsAddress s₁.rest then more s₁ else
        .ok { s₁ with addrs := s₁.addrs ++ [s₁.cur] }) = .ok s') :
      s'.rest.length ≤ t.length ∧ (s.Placed lines → s'.Placed lines) := by
    split at h
    · obtain ⟨hle, hpl⟩ := hmore _ _ h
      exact ⟨hrest ▸ hle, fun hp => hpl (hplaced hp)⟩
    · obtain rfl := Except.ok.inj h
      exact ⟨hrest ▸ Nat.le_refl _, hplaced⟩
  unfold separated at h
  obtain rfl | rfl := hc
  · rw [hs] at h
    exact hafter { s with rest := t } rfl id h
  · rw [hs] at h
    refine hafter { s with
      rest := t
      cur := max 1 (min v lines.n)
      side := { s.side with cursor := some (max 1 (min v lines.n)) } } rfl (fun _ => ?_) h
    have hpos := lines.pos
    constructor <;> dsimp only <;> omega

theorem separated_le (hmore : Reads lines more) (h : separated lines more v s = .ok s') :
    s'.rest.length ≤ s.rest.length ∧ (s.Placed lines → s'.Placed lines) := by
  by_cases hsep : ∃ c t, s.rest = c :: t ∧ (c = ',' ∨ c = ';')
  · obtain ⟨c, t, hs, hc⟩ := hsep
    obtain ⟨hle, hplaced⟩ := separated_sep hmore hc hs h
    exact ⟨by simp only [hs, List.length_cons]; omega, hplaced⟩
  · have hnone : ∀ c, s.rest.head? = some c → c ≠ ',' ∧ c ≠ ';' := by
      intro c hc
      obtain ⟨t, hs⟩ := List.head?_eq_some_iff.mp hc
      exact not_or.mp fun h => hsep ⟨c, t, hs, h⟩
    rw [separated_none hnone] at h
    obtain rfl := Except.ok.inj h
    exact ⟨Nat.le_refl _, id⟩

/-- Reading the addresses leaves no more of the line, and the cursor on a line. -/
theorem addresses_reads (lines : LineCount) (env : Surroundings) (fuel : Nat) :
    Reads lines (addresses lines env fuel) := by
  induction fuel with
  | zero =>
    intro s s' h
    obtain rfl := Except.ok.inj h
    exact ⟨Nat.le_refl _, id⟩
  | succ fuel ih =>
    intro s s' h
    rw [addresses] at h
    split at h
    · cases h
    · next found s₁ hbase =>
      obtain ⟨hle, hcur⟩ := base_onwards hbase
      have hblanks : s.skipBlanks.rest.length ≤ s.rest.length := length_dropWhile_le _ _
      have hoff := offsets_le s₁.rest.length (found.getD s₁.cur) s₁.rest
      have hplaced : s.Placed lines → s₁.Placed lines := by
        simp only [Scan.Placed, hcur]
        exact id
      dsimp only at h
      split at h
      · obtain rfl := Except.ok.inj h
        exact ⟨hoff.trans (hle.trans hblanks), hplaced⟩
      · obtain ⟨hle', hpl⟩ := separated_le ih h
        have hskip := length_dropWhile_le (· == ' ')
          (offsets s₁.rest.length (found.getD s₁.cur) s₁.rest).2.2
        exact ⟨hle'.trans (hskip.trans (hoff.trans (hle.trans hblanks))), fun hp => hpl (hplaced hp)⟩

/-! ## A spelled range is read back -/

/-- Whether `c` goes on after an address. -/
def isOperator (c : Char) : Bool := c == '+' || c == '-' || isSeparator c

/-- Whether `c` goes on after a number. -/
def goesOn (c : Char) : Bool := c.isDigit || isOperator c

theorem dropWhile_blank {l : List Char} (hl : ∀ c, l.head? = some c → c ≠ ' ') :
    l.dropWhile (· == ' ') = l := by
  cases l with
  | nil => rfl
  | cons c l => exact List.dropWhile_cons_of_neg (by simpa using hl c rfl)

theorem skipBlanks_eq (hs : ∀ c, s.rest.head? = some c → c ≠ ' ') : s.skipBlanks = s := by
  simp [Scan.skipBlanks, dropWhile_blank hs]

theorem addresses_plain (hb : base lines env s.skipBlanks = .ok (some v, s'))
    (ht : ∀ c, s'.rest.head? = some c → isOperator c = false ∧ c ≠ ' ') :
    addresses lines env (fuel + 1) s = .ok { s' with addrs := s'.addrs ++ [v] } := by
  have hsign : ∀ c, s'.rest.head? = some c → c ≠ '+' ∧ c ≠ '-' := by
    intro c hc
    simp_all [isOperator]
  have hskip := dropWhile_blank fun c hc => (ht c hc).2
  rw [addresses_found hb, offsets_none hsign, separated_none]
  · simp [Scan.skipBlanks, hskip]
  · intro c hc
    simp only [Scan.skipBlanks, hskip] at hc
    simp_all [isOperator, isSeparator]

theorem addresses_le {s₁ : Scan} (hb : base lines env s.skipBlanks = .ok (some v, s₁))
    (h : addresses lines env (fuel + 1) s = .ok s') : s'.rest.length ≤ s₁.rest.length := by
  rw [addresses_found hb] at h
  have hskip := length_dropWhile_le (· == ' ') (offsets s₁.rest.length v s₁.rest).2.2
  exact (separated_le (addresses_reads lines env fuel) h).1.trans
    (hskip.trans (offsets_le s₁.rest.length v s₁.rest))

/-- An operator behind an address is read with it. -/
theorem addresses_operator {s₁ : Scan} (hb : base lines env s.skipBlanks = .ok (some v, s₁))
    (hs : s₁.rest = c :: t) (hc : isOperator c = true)
    (h : addresses lines env (fuel + 1) s = .ok s') :
    s'.rest.length ≤ t.length := by
  rw [addresses_found hb] at h
  have hreads := addresses_reads lines env fuel
  by_cases hsign : c = '+' ∨ c = '-'
  · refine (separated_le hreads h).1.trans ?_
    have hoff := offsets_sign (v := v) (t := t) t.length hsign
    rw [hs, List.length_cons]
    exact (length_dropWhile_le _ _).trans hoff
  · have hsep : c = ',' ∨ c = ';' := by
      simp only [isOperator, isSeparator, Bool.or_eq_true, beq_iff_eq] at hc
      grind
    have hblank : c ≠ ' ' := by rintro rfl; revert hc; decide
    rw [offsets_none (by simpa [hs] using not_or.mp hsign)] at h
    refine (separated_sep hreads hsep ?_ h).1
    simp [Scan.skipBlanks, hs, hblank]

variable (lines env) in
theorem base_spell (hv : 0 ≤ v) (hs : s.rest = spell v ++ t) :
    base lines env s.skipBlanks = .ok (some (parseNumber (spell v ++ t.takeWhile Char.isDigit)),
      { s with rest := t.dropWhile Char.isDigit }) := by
  obtain ⟨c, rest, hspell, hdigits⟩ := spell_cons hv
  have hc : c.isDigit = true := hdigits c (by simp [hspell])
  have hhead : s.rest = c :: (rest ++ t) := by rw [hs, hspell]; rfl
  have hblank : s.skipBlanks = s := by
    refine skipBlanks_eq fun d hd => ?_
    obtain rfl : c = d := by simpa [hhead] using hd
    rintro rfl
    simp at hc
  obtain ⟨htake, hdrop⟩ := takeWhile_spell hv t
  rw [hblank, base_digit hc hhead, hs, htake, hdrop]

theorem addresses_number (hv : 0 ≤ v) (hmax : v ≤ i64Max) (hs : s.rest = spell v ++ t)
    (ht : ∀ c, t.head? = some c → goesOn c = false ∧ c ≠ ' ') :
    addresses lines env (fuel + 1) s = .ok { s with rest := t, addrs := s.addrs ++ [v] } := by
  have htake : t.takeWhile Char.isDigit = [] ∧ t.dropWhile Char.isDigit = t := by
    cases t with
    | nil => exact ⟨rfl, rfl⟩
    | cons c t =>
      have hc : c.isDigit = false := by
        simp_all [goesOn]
      exact ⟨List.takeWhile_cons_of_neg (by simp [hc]), List.dropWhile_cons_of_neg (by simp [hc])⟩
  have hbase := base_spell lines env hv hs
  rw [htake.1, htake.2, List.append_nil, parseNumber_spell hv hmax] at hbase
  refine addresses_plain hbase fun c hc => ⟨?_, (ht c hc).2⟩
  simp_all [goesOn]

theorem addresses_mistaken (hv : 0 ≤ v) (hs : s.rest = spell v ++ c :: t) (hc : goesOn c = true)
    (h : addresses lines env (fuel + 1) s = .ok s') :
    s'.rest.length ≤ t.length := by
  have hbase := base_spell lines env hv hs
  by_cases hdigit : c.isDigit = true
  · refine (addresses_le hbase h).trans ?_
    simp only [List.dropWhile_cons_of_pos hdigit]
    exact length_dropWhile_le _ _
  · refine addresses_operator hbase (List.dropWhile_cons_of_neg hdigit) ?_ h
    simpa [goesOn, hdigit] using hc

theorem addresses_comma {a b : Int} (ha : 0 ≤ a) (hmax : a ≤ i64Max) (hb : 0 ≤ b)
    (hs : s.rest = spell a ++ ',' :: (spell b ++ t)) :
    addresses lines env (fuel + 1) s =
      addresses lines env fuel { s with rest := spell b ++ t, addrs := s.addrs ++ [a] } := by
  obtain ⟨d, rest, hspell, hdigits⟩ := spell_cons hb
  have hd : d.isDigit = true := hdigits d (by simp [hspell])
  have hbase := base_spell lines env ha hs
  rw [List.takeWhile_cons_of_neg (by decide), List.dropWhile_cons_of_neg (by decide),
    List.append_nil, parseNumber_spell ha hmax] at hbase
  have hbegins : beginsAddress (spell b ++ t) = true := by simp [beginsAddress, hspell, hd]
  rw [addresses_found hbase, offsets_none (by simp)]
  simp [separated, Scan.skipBlanks, hbegins]

theorem base_percent (hs : s.rest = '%' :: t) :
    base lines env s.skipBlanks =
      .ok (some lines.n, { s with rest := t, whole := true, addrs := s.addrs ++ [1] }) := by
  rw [skipBlanks_eq (by simp [hs]), base]
  simp [hs]

end

end Ruse.Tui
