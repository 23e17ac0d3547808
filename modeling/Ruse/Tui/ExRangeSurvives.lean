import Ruse.Tui.ExCounted
import Ruse.Tui.ExRangeSpelling

/-!
# Ranges survive their own spelling

`resolve` pastes the addresses of a line before its command. The text it returns resolves to
itself exactly when the command does not go on where the range ends (`ranges_survive_iff`):
`:5 6d` comes back as `56d`.
-/

namespace Ruse.Tui

open Ruse.Persist

variable {c : Char} {a b : Int} {line tail : List Char} {whole : Bool}

/-! ## What is claimed of a resolved line -/

/-- The text of a resolved range says what it stands for: the addresses are lines (or 0), in
order, and the text resolves to itself. -/
structure Survives (lines : LineCount) (env : Surroundings) (r : Ranged) : Prop where
  within : ∀ a ∈ r.addrs, 0 ≤ a ∧ a ≤ lines.n
  ordered : r.addrs.Pairwise (· ≤ ·)
  again : (resolution lines env (r.range ++ r.cmd)).1 = .ok (.ranged r)

/-- The text of a backwards range has the two addresses in order, and the same command. -/
def Swapped (lines : LineCount) (env : Surroundings) (first last : Int) (tail : List Char) : Prop :=
  last < first ∧ ∃ s, scan lines env (spell last ++ [','] ++ spell first ++ tail) = .ok s ∧
    s.addrs = [last, first] ∧ s.tail = tail

/-- The addresses come from the line: they are its last two, the one a command takes of these,
or those of a count. -/
inductive Given (lines : LineCount) (s : Scan) : Ranged → Prop where
  | used (range cmd : List Char) : Given lines s ⟨s.used, range, cmd⟩
  | one (v : Int) (hv : v ∈ s.used) (hsingle : single s.tail = true) (range cmd : List Char) :
    Given lines s ⟨[v], range, cmd⟩
  | count (a b : Int) (range cmd : List Char)
    (h : counted s.tail (s.used.getLast?.getD s.cur) lines.n = .ok (some (some (a, b), cmd))) :
    Given lines s ⟨[a, b], range, cmd⟩

/-- The command does not go on where the range ends. After a `%` a digit does not. -/
def Unmistaken (lines : LineCount) (s : Scan) : Prop :=
  ∀ c, s.tail.head? = some c → isOperator c = false ∧
    (c.isDigit = true → s.whole = true ∧ s.used = [1, (lines.n : Int)])

/-! ## Reading a spelled range -/

/-- The addresses of a spelled range, which are lines, and their text. -/
inductive Spelled (lines : LineCount) : Ranged → Prop where
  | one (v : Int) (cmd : List Char) (h0 : 0 ≤ v) (hn : v ≤ lines.n) :
    Spelled lines ⟨[v], spell v, cmd⟩
  | two (a b : Int) (cmd : List Char) (h0 : 0 ≤ a) (hab : a ≤ b) (hn : b ≤ lines.n)
    (hcmd : single cmd = false) : Spelled lines ⟨[a, b], spell a ++ [','] ++ spell b, cmd⟩
  | whole (cmd : List Char) : Spelled lines ⟨[1, (lines.n : Int)], ['%'], cmd⟩

section
variable {lines : LineCount} {env : Surroundings} {s : Scan} {r : Ranged} {t : List Char}

theorem Spelled.within (h : Spelled lines r) : ∀ a ∈ r.addrs, 0 ≤ a ∧ a ≤ lines.n := by
  have hpos := lines.pos
  cases h with
  | one v cmd h0 hn => simp [h0, hn]
  | two a b cmd h0 hab hn => simp; omega
  | whole cmd => simp; omega

theorem Spelled.ordered (h : Spelled lines r) : r.addrs.Pairwise (· ≤ ·) := by
  have hpos := lines.pos
  cases h with
  | one v cmd h0 hn => simp
  | two a b cmd h0 hab hn => simpa using hab
  | whole cmd => simp; omega

/-- The state in which the text of a line is scanned. -/
def start (lines : LineCount) (env : Surroundings) (text : List Char) : Scan :=
  ⟨text, min (env.line + 1) lines.n, env.lastSearch, false, [], ⟨none, none⟩⟩

theorem placed_start (text : List Char) : (start lines env text).Placed lines := by
  have hpos := lines.pos
  constructor <;> simp only [start] <;> omega

theorem scan_eq (line : List Char) :
    scan lines env line =
      addresses lines env ((bare line).length + 1) (start lines env (bare line)) := rfl

/-- A text that begins with a digit or a `%` is scanned from its first character. -/
theorem bare_eq {text : List Char} (hc : c.isDigit = true ∨ c = '%') :
    bare (c :: text) = c :: text := by
  refine List.dropWhile_cons_of_neg ?_
  obtain hc | rfl := hc
  · simp only [Bool.or_eq_true, beq_iff_eq, not_or]
    constructor <;> rintro rfl <;> simp at hc
  · decide

theorem scan_number {v : Int} (h0 : 0 ≤ v) (text : List Char) :
    scan lines env (spell v ++ text) =
      addresses lines env ((spell v ++ text).length + 1) (start lines env (spell v ++ text)) := by
  obtain ⟨c, rest, hspell, hdigits⟩ := spell_cons h0
  have hbare : bare (spell v ++ text) = spell v ++ text := by
    rw [hspell]
    exact bare_eq (.inl (hdigits c (by simp [hspell])))
  rw [scan_eq, hbare]

variable (lines env) in
theorem scan_two (ha : 0 ≤ a) (hmax : a ≤ i64Max) (hb : 0 ≤ b) (t : List Char) :
    ∃ fuel, scan lines env (spell a ++ [','] ++ spell b ++ t) =
      addresses lines env (fuel + 1) { start lines env (spell b ++ t) with addrs := [a] } := by
  have htext : spell a ++ [','] ++ spell b ++ t = spell a ++ ',' :: (spell b ++ t) := by simp
  rw [htext, scan_number ha, addresses_comma ha hmax hb rfl]
  refine ⟨(spell a ++ ',' :: (spell b ++ t)).length - 1, ?_⟩
  rw [Nat.sub_add_cancel (by simp; omega)]
  rfl

/-- No number is spelled `%`. -/
theorem spell_ne_percent {v : Int} (h0 : 0 ≤ v) (text : List Char) : spell v ++ text ≠ ['%'] := by
  intro h
  obtain ⟨c, rest, hspell, hdigits⟩ := spell_cons h0
  have hc : c.isDigit = true := hdigits c (by simp [hspell])
  rw [hspell, List.cons_append, List.cons.injEq] at h
  obtain ⟨rfl, -⟩ := h
  simp at hc

theorem scan_percent (text : List Char) :
    scan lines env ('%' :: text) =
      addresses lines env (text.length + 2) (start lines env ('%' :: text)) := by
  rw [scan_eq, bare_eq (.inr rfl)]
  rfl

variable (env) in
/-- A spelled range before a command that does not go on is read as its addresses. -/
theorem scan_spelled (h : Spelled lines r) (hcmd : ∀ c, r.cmd.head? = some c →
      isOperator c = false ∧ c ≠ ' ' ∧ (c.isDigit = true → r.range = ['%'])) :
    ∃ s, scan lines env (r.range ++ r.cmd) = .ok s ∧ s.rest = r.cmd ∧ s.addrs = r.addrs ∧
      (s.whole = true ↔ r.range = ['%']) := by
  have hfits := lines.fits
  have hend (hrange : r.range ≠ ['%']) :
      ∀ c, r.cmd.head? = some c → goesOn c = false ∧ c ≠ ' ' := by
    intro c hc
    obtain ⟨hop, hblank, hdigit⟩ := hcmd c hc
    exact ⟨Bool.or_eq_false_iff.mpr ⟨eq_false_of_ne_true fun h => hrange (hdigit h), hop⟩, hblank⟩
  cases h with
  | one v cmd h0 hn =>
    have hrange := spell_ne_percent h0 []
    rw [List.append_nil] at hrange
    refine ⟨_, (scan_number h0 cmd).trans (addresses_number h0 (hn.trans hfits) rfl (hend hrange)),
      rfl, rfl, ?_⟩
    simp [start, hrange]
  | two a b cmd h0 hab hn =>
    have hrange := spell_ne_percent h0 (',' :: spell b)
    obtain ⟨fuel, hscan⟩ := scan_two lines env h0 ((hab.trans hn).trans hfits)
      (h0.trans hab) cmd
    refine ⟨_, hscan.trans (addresses_number (h0.trans hab) (hn.trans hfits) rfl
      (hend (by simpa using hrange))), rfl, rfl, ?_⟩
    simp [start, hrange]
  | whole cmd =>
    refine ⟨_, (scan_percent cmd).trans (addresses_plain (base_percent rfl) fun c hc => ?_),
      rfl, rfl, by simp⟩
    obtain ⟨hop, hblank, -⟩ := hcmd c hc
    exact ⟨hop, hblank⟩

/-- A command read as part of the range is shorter for it. -/
theorem scan_mistaken (h : Spelled lines r) (hcmd : r.cmd = c :: t)
    (hc : isOperator c = true ∨ c.isDigit = true ∧ r.range ≠ ['%'])
    (hs : scan lines env (r.range ++ r.cmd) = .ok s) : s.rest.length ≤ t.length := by
  have hfits := lines.fits
  have hgoes : goesOn c = true := by
    obtain hc | ⟨hc, -⟩ := hc <;> simp [goesOn, hc]
  cases h with
  | one v cmd h0 hn =>
    obtain rfl : cmd = c :: t := hcmd
    rw [scan_number h0] at hs
    exact addresses_mistaken h0 rfl hgoes hs
  | two a b cmd h0 hab hn =>
    obtain rfl : cmd = c :: t := hcmd
    obtain ⟨fuel, hscan⟩ := scan_two lines env h0 ((hab.trans hn).trans hfits)
      (h0.trans hab) (c :: t)
    exact addresses_mistaken (h0.trans hab) rfl hgoes (hscan.symm.trans hs)
  | whole cmd =>
    obtain rfl : cmd = c :: t := hcmd
    obtain hop | ⟨-, hrange⟩ := hc
    · exact addresses_operator (base_percent rfl) rfl hop ((scan_percent _).symm.trans hs)
    · exact absurd rfl hrange

/-! ## What is resolved is spelled -/

/-- The addresses before a command are one or two, in order, and lines. -/
inductive Addresses (lines : LineCount) : List Int → Prop where
  | one (v : Int) (h0 : 0 ≤ v) (hn : v ≤ lines.n) : Addresses lines [v]
  | two (a b : Int) (h0 : 0 ≤ a) (hab : a ≤ b) (hn : b ≤ lines.n) : Addresses lines [a, b]

/-- What `spelling` makes of addresses, with any command that takes as many. -/
theorem spelled_of_spelling {used : List Int} {cmd : List Char} (hused : Addresses lines used)
    (hcmd : single tail = false → single cmd = false) :
    Spelled lines ⟨(spelling lines env whole used tail).1, (spelling lines env whole used tail).2,
      cmd⟩ := by
  cases hused with
  | one v h0 hn =>
    have hone : spelling lines env whole [v] tail = ([v], spell v) := by simp [spelling]
    rw [hone]
    exact .one v cmd h0 hn
  | two a b h0 hab hn =>
    unfold spelling
    dsimp only
    split
    · next hwhole =>
      obtain ⟨rfl, -, rfl⟩ := hwhole
      exact .whole cmd
    · split
      · split
        · exact .one a cmd h0 (hab.trans hn)
        · exact .one b cmd (h0.trans hab) hn
      · next hsingle => exact .two a b cmd h0 hab hn (hcmd (eq_false_of_ne_true hsingle))

/-- A range is spelled `%` if it was given so. -/
theorem spelling_percent {used : List Int} (hused : Addresses lines used) :
    (spelling lines env whole used tail).2 = ['%'] ↔
      whole = true ∧ used = [1, (lines.n : Int)] := by
  cases hused with
  | one v h0 hn => simpa [spelling] using spell_ne_percent h0 []
  | two a b h0 hab hn =>
    have ha := spell_ne_percent h0 []
    have hb := spell_ne_percent (h0.trans hab) []
    have hab := spell_ne_percent h0 (',' :: spell b)
    simp only [List.append_nil] at ha hb
    unfold spelling
    dsimp only
    split
    · next hwhole => simp [hwhole]
    · next hwhole =>
      have hno : ¬ (whole = true ∧ [a, b] = [1, (lines.n : Int)]) := by
        simp only [List.cons.injEq, and_true]
        exact fun h => hwhole ⟨h.2.1, h.1, h.2.2⟩
      refine iff_of_false ?_ hno
      split
      · split
        · exact ha
        · exact hb
      · simpa using hab

theorem given_of_spelling (range cmd : List Char) :
    Given lines s ⟨(spelling lines env s.whole s.used s.tail).1, range, cmd⟩ := by
  unfold spelling
  split
  · next a b hused =>
    split
    · exact hused ▸ .used range cmd
    · split
      · next hsingle =>
        split
        · exact .one a (by simp [hused]) hsingle range cmd
        · exact .one b (by simp [hused]) hsingle range cmd
      · exact hused ▸ .used range cmd
  · exact .used range cmd

/-- What a resolved line is made of: a spelled range, and the command as it was, or counted. -/
structure Resolves (lines : LineCount) (s : Scan) (r : Ranged) : Prop where
  spelled : Spelled lines r
  given : Given lines s r
  cmd : (r.cmd = s.tail ∧ s.tail ≠ [] ∧ (∀ l n, counted s.tail l n = .ok none) ∧
      (r.range = ['%'] ↔ s.whole = true ∧ s.used = [1, (lines.n : Int)])) ∨
    ∃ l n range, Counts s.tail l n range r.cmd

theorem Counts.single {t : List Char} {l n : Int} {range : Option (Int × Int)}
    (h : Counts tail l n range t) : single t = false := by
  obtain ⟨takes, -, ht⟩ := h.takes
  refine eq_false_of_ne_true fun hsingle => ?_
  rw [takesRegister_single hsingle] at ht
  cases ht

theorem resolves_count {last : Int} {cmd : List Char} (h0 : 0 ≤ last) (hn : last ≤ lines.n)
    (hlast : s.used.getLast?.getD s.cur = last)
    (h : counted s.tail last lines.n = .ok (some (some (a, b), cmd))) :
    Resolves lines s ⟨[a, b], spell a ++ [','] ++ spell b, cmd⟩ := by
  have hcounts := counted_spec h
  obtain ⟨ha, hb, hbn⟩ := hcounts.range _ rfl h0 hn lines.fits
  refine ⟨.two a b cmd (by omega) (by omega) hbn hcounts.single, ?_, .inr ⟨_, _, _, hcounts⟩⟩
  exact .count a b _ cmd (hlast ▸ h)

/-- A command with a count resolves to a spelled range. -/
theorem resolves_withCount {last : Int} (htail : s.tail ≠ []) (hused : Addresses lines s.used)
    (hlast : s.used.getLast? = some last)
    (h : withCount (spelling lines env s.whole s.used s.tail) s.tail last lines = .ok r) :
    Resolves lines s r := by
  have hmem : 0 ≤ last ∧ last ≤ lines.n := by
    generalize s.used = used at hused hlast
    cases hused <;> simp at hlast <;> omega
  unfold withCount at h
  split at h
  · cases h
  · next hnone =>
    obtain rfl := Except.ok.inj h
    exact ⟨spelled_of_spelling hused id, given_of_spelling _ _,
      .inl ⟨rfl, htail, counted_none hnone, spelling_percent hused⟩⟩
  · next a b t hcount =>
    obtain rfl := Except.ok.inj h
    exact resolves_count hmem.1 hmem.2 (by rw [hlast]; rfl) hcount
  · next t hcount =>
    obtain rfl := Except.ok.inj h
    have hcounts := counted_spec hcount
    exact ⟨spelled_of_spelling hused fun _ => hcounts.single, given_of_spelling _ _,
      .inr ⟨_, _, _, hcounts⟩⟩

theorem used_cases (s : Scan) : s.used = [] ∨ (∃ v, s.used = [v]) ∨ ∃ a b, s.used = [a, b] := by
  have hlen : s.used.length ≤ 2 := by
    simp only [Scan.used, List.length_drop]
    omega
  generalize s.used = used at hlen
  rcases used with _ | ⟨a, _ | ⟨b, _ | ⟨c, rest⟩⟩⟩
  · exact .inl rfl
  · exact .inr (.inl ⟨a, rfl⟩)
  · exact .inr (.inr ⟨a, b, rfl⟩)
  · simp at hlen

/-- What `finish` ranges is resolved. -/
theorem finish_resolves (hplaced : s.Placed lines) (h : finish lines env line s = .ok (.ranged r)) :
    Resolves lines s r := by
  unfold finish at h
  split at h
  · next hlast =>
    split at h
    · cases h
    · cases h
    · next a b t hcount =>
      obtain rfl := Resolution.ranged.inj (Except.ok.inj h)
      have hcur : 0 ≤ s.cur := by have := hplaced.1; omega
      exact resolves_count hcur hplaced.2 (by rw [hlast]; rfl) hcount
    · cases h
  · next last hlast =>
    split at h
    · split at h <;> cases h
    next htail =>
    rw [List.isEmpty_iff] at htail
    split at h
    · cases h
    next hrange =>
    simp only [List.any_eq_true, decide_eq_true_eq, not_exists, not_and, not_or, not_lt] at hrange
    have hwith {last : Int} (hlast : s.used.getLast? = some last) (hused : Addresses lines s.used)
        (h : (withCount (spelling lines env s.whole s.used s.tail) s.tail last lines).map .ranged =
          (.ok (.ranged r) : Except ExRangeError Resolution)) : Resolves lines s r := by
      cases hw : withCount (spelling lines env s.whole s.used s.tail) s.tail last lines with
      | error e => simp [hw, Except.map] at h
      | ok r' =>
        rw [hw] at h
        obtain rfl := Resolution.ranged.inj (Except.ok.inj h)
        exact resolves_withCount htail hused hlast hw
    split at h
    · next a b hused =>
      split at h
      · cases h
      · next hord =>
        have ha := hrange a (by simp [hused])
        have hb := hrange b (by simp [hused])
        exact hwith (by rw [hused]; rfl) (hused ▸ .two a b ha.1 (not_lt.mp hord) hb.2) h
    · next hne =>
      obtain hused | ⟨v, hused⟩ | ⟨a, b, hused⟩ := used_cases s
      · simp [hused] at hlast
      · have hv := hrange v (by simp [hused])
        exact hwith hlast (hused ▸ .one v hv.1 hv.2) h
      · exact absurd hused (hne a b)

/-- A range is backwards only with two addresses on the lines, the second above the first. -/
theorem finish_backwards (h : finish lines env line s = .ok (.backwards a b tail)) :
    s.used = [a, b] ∧ tail = s.tail ∧ 0 ≤ b ∧ b < a ∧ a ≤ lines.n := by
  have hno {x : Except ExRangeError Ranged}
      (h : x.map .ranged = (.ok (.backwards a b tail) : Except ExRangeError Resolution)) : False := by
    cases x <;> cases h
  unfold finish at h
  split at h
  · split at h <;> cases h
  split at h
  · split at h <;> cases h
  split at h
  · cases h
  next hrange =>
  simp only [List.any_eq_true, decide_eq_true_eq, not_exists, not_and, not_or, not_lt] at hrange
  split at h
  · next a' b' hused =>
    split at h
    · next hord =>
      obtain ⟨rfl, rfl, rfl⟩ := Resolution.backwards.inj (Except.ok.inj h)
      exact ⟨hused, rfl, (hrange _ (by simp [hused])).1, hord, (hrange _ (by simp [hused])).2⟩
    · exact (hno h).elim
  · exact (hno h).elim

/-! ## Resolving again -/

theorem Spelled.addresses (h : Spelled lines r) : Addresses lines r.addrs := by
  have hpos := lines.pos
  cases h with
  | one v cmd h0 hn => exact .one v h0 hn
  | two a b cmd h0 hab hn => exact .two a b h0 hab hn
  | whole cmd => exact .two 1 lines.n (by omega) (by omega) (le_refl _)

variable (env) in
theorem spelling_spelled (h : Spelled lines r) (hwhole : whole = true ↔ r.range = ['%']) :
    spelling lines env whole r.addrs r.cmd = (r.addrs, r.range) := by
  cases h with
  | one v cmd h0 hn => simp [spelling]
  | two a b cmd h0 hab hn hcmd =>
    have hrange := spell_ne_percent h0 (',' :: spell b)
    have hno : whole = false := eq_false_of_ne_true fun h => hrange (by simpa using hwhole.mp h)
    simp [spelling, hno, hcmd]
  | whole cmd => simp [spelling, hwhole.mpr rfl]

/-- A spelled range before a command that counts to itself is finished as it stands. -/
theorem finish_spelled (h : Spelled lines r) (hcmd : r.cmd ≠ [])
    (hagain : ∀ l n, counted r.cmd l n = .ok none ∨ counted r.cmd l n = .ok (some (none, r.cmd)))
    (haddrs : s.addrs = r.addrs) (htail : s.tail = r.cmd)
    (hwhole : s.whole = true ↔ r.range = ['%']) :
    finish lines env line s = .ok (.ranged r) := by
  have hwith (last : Int) : withCount (r.addrs, r.range) r.cmd last lines = .ok r := by
    unfold withCount
    obtain hc | hc := hagain last lines.n <;> rw [hc]
  have hspelling := spelling_spelled env h hwhole
  have haddresses := h.addresses
  unfold finish
  generalize r.addrs = addrs at haddresses haddrs hspelling hwith
  cases haddresses with
  | one v h0 hn =>
    have hused : s.used = [v] := by simp [Scan.used, haddrs]
    simp [hused, hcmd, not_lt.mpr h0, not_lt.mpr hn, htail, hspelling, hwith, Except.map]
  | two a b h0 hab hn =>
    have hused : s.used = [a, b] := by simp [Scan.used, haddrs]
    have ha := not_lt.mpr (hab.trans hn)
    have hb := not_lt.mpr (h0.trans hab)
    simp [hused, hcmd, not_lt.mpr h0, not_lt.mpr hn, ha, hb, htail, hspelling, hwith, Except.map,
      not_lt.mpr hab]

theorem countedHeads_plain : ∀ c ∈ countedHeads, goesOn c = false ∧ isWhitespace c = false := by
  intro c hc
  simp only [countedHeads, List.mem_cons, List.not_mem_nil, or_false] at hc
  obtain rfl | rfl | rfl | rfl | rfl | rfl | rfl | rfl | rfl := hc <;> decide

theorem Resolves.tail_head (h : Resolves lines s r) (hc : r.cmd.head? = some c) :
    isWhitespace c = false ∧ (goesOn c = true → r.cmd = s.tail) := by
  obtain ⟨hcmd, -, -⟩ | ⟨l, n, range, hcounts⟩ := h.cmd
  · rw [hcmd] at hc
    exact ⟨unblank_dropWhile s.rest c hc, fun _ => hcmd⟩
  · obtain ⟨takes, -, ht⟩ := hcounts.takes
    obtain ⟨d, rest, hd, hmem⟩ := counted_head ht
    obtain rfl : d = c := by simpa [hd] using hc
    obtain ⟨hplain, hblank⟩ := countedHeads_plain d hmem
    exact ⟨hblank, fun hgo => absurd hgo (by simp [hplain])⟩

theorem Resolves.cmd_ne_nil (h : Resolves lines s r) : r.cmd ≠ [] := by
  obtain ⟨hcmd, hne, -⟩ | ⟨l, n, range, hcounts⟩ := h.cmd
  · exact hcmd ▸ hne
  · obtain ⟨takes, -, ht⟩ := hcounts.takes
    obtain ⟨d, rest, hd, -⟩ := counted_head ht
    simp [hd]

theorem Resolves.again (h : Resolves lines s r) (l n : Int) :
    counted r.cmd l n = .ok none ∨ counted r.cmd l n = .ok (some (none, r.cmd)) := by
  obtain ⟨hcmd, -, hnone, -⟩ | ⟨_, _, _, hcounts⟩ := h.cmd
  · exact .inl (hcmd ▸ hnone l n)
  · exact hcounts.again l n

/-- The condition about the command as it was is one about the command that comes back. -/
theorem Resolves.unmistaken_iff (h : Resolves lines s r) :
    Unmistaken lines s ↔ ∀ c, r.cmd.head? = some c →
      isOperator c = false ∧ (c.isDigit = true → r.range = ['%']) := by
  obtain ⟨hcmd, -, -, hpercent⟩ | ⟨l, n, range, hcounts⟩ := h.cmd
  · rw [Unmistaken, hcmd, hpercent]
  · obtain ⟨takes, htail, ht⟩ := hcounts.takes
    have hplain {text : List Char} (h : takesRegister (splitVerb text).1 = some takes) :
        ∀ c, text.head? = some c → isOperator c = false ∧ c.isDigit = false := by
      intro c hc
      obtain ⟨d, rest, rfl, hmem⟩ := counted_head h
      obtain rfl : d = c := by simpa using hc
      exact (Bool.or_eq_false_iff.mp (countedHeads_plain d hmem).1).symm
    exact ⟨fun _ c hc => ⟨(hplain ht c hc).1, by simp [(hplain ht c hc).2]⟩,
      fun _ c hc => ⟨(hplain htail c hc).1, by simp [(hplain htail c hc).2]⟩⟩

theorem resolution_scan (hs : scan lines env line = .ok s) :
    (resolution lines env line).1 = finish lines env line s := by
  rw [resolution, hs]

theorem scan_of_resolution {x : Resolution} (h : (resolution lines env line).1 = .ok x)
    (hx : ∀ text, x ≠ .bare text) :
    ∃ s, scan lines env line = .ok s ∧ finish lines env line s = .ok x := by
  unfold resolution at h
  split at h
  · obtain rfl := Except.ok.inj h
    exact absurd rfl (hx _)
  · cases h
  · next s hs => exact ⟨s, hs, h⟩

theorem scan_of_ranged (h : (resolution lines env line).1 = .ok (.ranged r)) :
    ∃ s, scan lines env line = .ok s ∧ Resolves lines s r := by
  obtain ⟨s, hs, hfinish⟩ := scan_of_resolution h (by simp)
  refine ⟨s, hs, finish_resolves ?_ hfinish⟩
  exact (addresses_reads lines env _ _ _ hs).2 (placed_start (bare line))

/-- The text of a resolved range resolves to itself exactly when its command does not go on. -/
theorem again_iff (h : Resolves lines s r) :
    (resolution lines env (r.range ++ r.cmd)).1 = .ok (.ranged r) ↔ Unmistaken lines s := by
  rw [h.unmistaken_iff]
  constructor
  · intro hagain c hc
    obtain ⟨s', hs', hres⟩ := scan_of_ranged hagain
    by_contra hbad
    have hgo : isOperator c = true ∨ c.isDigit = true ∧ r.range ≠ ['%'] := by
      by_cases hop : isOperator c = true
      · exact .inl hop
      · rw [Bool.not_eq_true] at hop
        exact .inr (Classical.not_imp.mp fun h => hbad ⟨hop, h⟩)
    obtain ⟨t, ht⟩ := List.head?_eq_some_iff.mp hc
    have hle := scan_mistaken h.spelled ht hgo hs'
    have hgoes : goesOn c = true := by
      obtain hop | ⟨hdigit, -⟩ := hgo
      · simp [goesOn, hop]
      · simp [goesOn, hdigit]
    -- The command would have to be what is left after it was read in part.
    have hcmd := (hres.tail_head hc).2 hgoes
    have htail := length_dropWhile_le isWhitespace s'.rest
    have hlen : s'.tail.length = t.length + 1 := by rw [← hcmd, ht, List.length_cons]
    rw [Scan.tail] at hlen
    omega
  · intro hcmd
    obtain ⟨s', hs', hrest, haddrs, hwhole⟩ := scan_spelled env h.spelled fun c hc =>
      ⟨(hcmd c hc).1, by rintro rfl; exact absurd (h.tail_head hc).1 (by decide), (hcmd c hc).2⟩
    rw [resolution_scan hs']
    refine finish_spelled h.spelled h.cmd_ne_nil h.again haddrs ?_ hwhole
    rw [Scan.tail, hrest]
    exact Unblank.dropWhile fun c hc => (h.tail_head hc).1

theorem survives_iff (h : Resolves lines s r) : Survives lines env r ↔ Unmistaken lines s :=
  ⟨fun hs => (again_iff h).mp hs.again,
    fun hu => ⟨h.spelled.within, h.spelled.ordered, (again_iff h).mpr hu⟩⟩

/-- The text of a backwards range is read as its two addresses exactly when its command does not
go on. -/
theorem swapped_iff (h : finish lines env line s = .ok (.backwards a b tail)) {env' : Surroundings} :
    Swapped lines env' a b tail ↔ Unmistaken lines s := by
  obtain ⟨hused, rfl, hb, hba, ha⟩ := finish_backwards h
  have hfits := lines.fits
  have ha0 := hb.trans hba.le
  obtain ⟨fuel, hscan⟩ := scan_two lines env' hb ((hba.le.trans ha).trans hfits)
    ha0 s.tail
  have hpercent : ¬ (s.whole = true ∧ s.used = [1, (lines.n : Int)]) := by
    rintro ⟨-, hwhole⟩
    rw [hused] at hwhole
    simp only [List.cons.injEq, and_true] at hwhole
    omega
  constructor
  · rintro ⟨-, s', hs', haddrs, htail⟩ c hc
    by_contra hbad
    obtain ⟨t, ht⟩ := List.head?_eq_some_iff.mp hc
    have hgo : goesOn c = true := by
      rw [← Bool.not_eq_false]
      intro hplain
      obtain ⟨hdigit, hop⟩ := Bool.or_eq_false_iff.mp hplain
      exact hbad ⟨hop, by simp [hdigit]⟩
    have hle := addresses_mistaken ha0 (by rw [ht]; rfl) hgo (hscan.symm.trans hs')
    have hdrop := length_dropWhile_le isWhitespace s'.rest
    have hlen : s'.tail.length = t.length + 1 := by rw [htail, ht, List.length_cons]
    rw [Scan.tail] at hlen
    omega
  · intro hu
    refine ⟨hba, _, hscan.trans (addresses_number ha0 (ha.trans hfits) rfl fun c hc => ?_), rfl, ?_⟩
    · obtain ⟨hop, hdigit⟩ := hu c hc
      refine ⟨Bool.or_eq_false_iff.mpr ⟨eq_false_of_ne_true fun h => hpercent (hdigit h), hop⟩, ?_⟩
      rintro rfl
      exact absurd (unblank_dropWhile s.rest _ hc) (by decide)
    · exact (unblank_dropWhile s.rest).dropWhile

end

/-- Whatever the marks and the searches: a resolved line is made of addresses of the line, spelled
before its command, and resolves to itself again if and only if the command does not go on where
the range ends; and so does the swapped text of a backwards range. -/
theorem ranges_survive_iff (lines : LineCount) (env env' : Surroundings) (line : List Char) :
    (∀ r, (resolution lines env line).1 = .ok (.ranged r) →
      ∃ s, scan lines env line = .ok s ∧ Given lines s r ∧
        (Survives lines env' r ↔ Unmistaken lines s)) ∧
    ∀ a b tail, (resolution lines env line).1 = .ok (.backwards a b tail) →
      ∃ s, scan lines env line = .ok s ∧ s.used = [a, b] ∧ s.tail = tail ∧
        (Swapped lines env' a b tail ↔ Unmistaken lines s) := by
  constructor
  · intro r hr
    obtain ⟨s, hs, hres⟩ := scan_of_ranged hr
    exact ⟨s, hs, hres.given, survives_iff hres⟩
  · intro a b tail h
    obtain ⟨s, hs, hfinish⟩ := scan_of_resolution h (by simp)
    obtain ⟨hused, htail, -⟩ := finish_backwards hfinish
    exact ⟨s, hs, hused, htail.symm, swapped_iff hfinish⟩

/-- Surroundings without marks, searches and a selection, the cursor on the first line. -/
def plainSurroundings : Surroundings where
  line := 0
  visual := none
  mark := fun _ => none
  search := fun pat _ _ => .error (.patternNotFound pat)
  lastSearch := none
  substitute := none
  alphabetic := Char.isAlpha

def sixtyLines : LineCount := ⟨60, by decide, by decide⟩

/-- `:5,7d 3` deletes three lines from line 7 on. -/
theorem ranges_survive_counted :
    ∃ s, scan sixtyLines plainSurroundings "5,7d 3".toList = .ok s ∧
      Given sixtyLines s ⟨[7, 9], "7,9".toList, "d".toList⟩ ∧
      (Survives sixtyLines plainSurroundings ⟨[7, 9], "7,9".toList, "d".toList⟩ ↔
        Unmistaken sixtyLines s) :=
  (ranges_survive_iff sixtyLines plainSurroundings plainSurroundings "5,7d 3".toList).1 _
    (by decide +kernel)

/-- `:5 6d` deletes line 56. -/
theorem range_swallows_digit :
    (resolveExRange sixtyLines plainSurroundings "5 6d".toList).1 = .ok (.line "56d".toList) ∧
      (resolution sixtyLines plainSurroundings "5 6d".toList).1 =
        .ok (.ranged ⟨[5], "5".toList, "6d".toList⟩) ∧
      (resolution sixtyLines plainSurroundings "56d".toList).1 =
        .ok (.ranged ⟨[56], "56".toList, "d".toList⟩) ∧
      ¬ Survives sixtyLines plainSurroundings ⟨[5], "5".toList, "6d".toList⟩ := by
  have hfirst : (resolution sixtyLines plainSurroundings "5 6d".toList).1 =
      .ok (.ranged ⟨[5], "5".toList, "6d".toList⟩) := by decide +kernel
  have hagain : (resolution sixtyLines plainSurroundings "56d".toList).1 =
      .ok (.ranged ⟨[56], "56".toList, "d".toList⟩) := by decide +kernel
  refine ⟨by decide +kernel, hfirst, hagain, fun h => ?_⟩
  have := h.again.symm.trans hagain
  revert this
  decide

end Ruse.Tui
