import Ruse.Core.TextBuf
import Ruse.Lib.Loop

/-!
# Sentences

The model of `findsent` in `crates/core/src/textobj.rs` and of what is built on it: the
`)` and `(` motions and the sentence objects. Each loop of the source is a body that says
when it breaks, run with fuel, and every place the search moves to is checked to lie in
the text: `none` is a place off it, or a loop still going on.

The search may find the sentence it stands on. It then goes one step and counts again, so
what falls is the count first and the text left in its direction next
(`Sent.measure`), whatever way the steps inside one count went (`findsent_total`).
-/

namespace Ruse.Core

open Ruse.Lib

def sentEnd (c : UInt8) : Bool := c == 46 || c == 33 || c == 63

def sentClose (c : UInt8) : Bool := c == 41 || c == 93 || c == 34 || c == 39

/-- The search over its counts: where it is, the counts left, and whether it is over and
how. -/
structure Sent where
  pos : Nat
  count : Nat
  verdict : Option Bool := none

namespace Buf

variable (buf : Buf)

/-- A step's place, if it lies in the text. -/
def checked (m : Nat × StepCode) : Option (Nat × StepCode) :=
  if m.1 ≤ buf.b.length then some m else none

/-- The closure `step`. -/
def sentStep (forward : Bool) (p : Nat) : Option (Nat × StepCode) :=
  buf.checked (if forward then buf.incl p else buf.decl p)

/-- An empty line or a form feed opens a paragraph. -/
def startPs (ls : Nat) : Bool := buf.isNul ls || buf.b.getD ls 0 == 12

/-- The start of the line after the one of `p`. -/
def nextLine (p : Nat) : Option Nat :=
  if lineEnd buf.b p + 1 ≤ buf.b.length then some (lineEnd buf.b p + 1) else none

/-! ## One count -/

def skipNulBody (forward : Bool) (p : Nat) : Option (Nat × Bool) :=
  (buf.sentStep forward p).map fun m => (m.1, m.2 = .edge || buf.gchar m.1 != 0)

/-- Back over blanks and sentence punctuation to the previous ordinary character; the flag
is `found_dot`. -/
def backBody (forward : Bool) (s : Nat × Bool) : Option ((Nat × Bool) × Bool) :=
  let c := buf.gchar s.1
  if !(isWhite c || (c != 0 && (sentEnd c || sentClose c))) then some (s, true)
  else
    (buf.checked (buf.decl s.1)).map fun m =>
      if m.2 = .edge || (buf.lineOfIsEmpty m.1 && forward) then (s, true)
      else if s.2 then (s, true)
      else
        let tc := buf.gchar m.1
        if sentClose c && !(tc != 0 && (sentEnd tc || sentClose tc)) then ((s.1, sentEnd c), true)
        else ((m.1, sentEnd c), false)

/-- Past the closing brackets and quotes. -/
def closeBody (s : Nat × StepCode) : Option ((Nat × StepCode) × Bool) :=
  (buf.checked (buf.inc s.1)).map fun m =>
    (m, m.2 = .edge || buf.gchar m.1 = 0 || !sentClose (buf.gchar m.1))

/-- At a full stop: where the search goes on when it ends a sentence. -/
def sentenceStop (fuel p : Nat) : Option (Option Nat) :=
  if sentEnd (buf.gchar p) then
    (untilBreak buf.closeBody fuel (p, .within)).bind fun s =>
      let tc := buf.gchar s.1
      if s.2 = .edge || isWhite tc || tc = 0 then
        if tc = 0 then (buf.checked (buf.inc s.1)).map fun m => some m.1
        else some (some s.1)
      else some none
  else some none

/-- Find the end of the sentence; the flag says that the edge stopped the search. -/
def endBody (fuel : Nat) (forward : Bool) (startline : Nat) (s : Nat × Bool) :
    Option ((Nat × Bool) × Bool) :=
  let p := s.1
  if buf.gchar p = 0 || (buf.col0 p && buf.startPs p) then
    if !forward && lineStart buf.b p != startline then
      (buf.nextLine p).map fun q => ((q, false), true)
    else some ((p, false), true)
  else
    (buf.sentenceStop fuel p).bind fun stop =>
      match stop with
      | some q => some ((q, false), true)
      | none => (buf.sentStep forward p).map fun m => ((m.1, m.2 = .edge), m.2 = .edge)

/-- The two searches from an ordinary place. -/
def sentenceFrom (fuel : Nat) (forward : Bool) (p : Nat) : Option (Nat × Bool) :=
  (untilBreak (buf.backBody forward) fuel (p, false)).bind fun s =>
    untilBreak (buf.endBody fuel forward (lineStart buf.b s.1)) fuel (s.1, false)

/-- The block `'found` of one count; `none` inside is a search that fails. -/
def nextSent (fuel : Nat) (forward : Bool) (p : Nat) : Option (Option (Nat × Bool)) :=
  if buf.gchar p = 0 then
    (untilBreak (buf.skipNulBody forward) fuel p).bind fun q =>
      if forward then some (some (q, false)) else (buf.sentenceFrom fuel forward q).map some
  else if forward && buf.col0 p && buf.startPs p then
    if buf.isLastLine p then some none else (buf.nextLine p).map fun q => some (q, false)
  else if !forward then
    (buf.checked (buf.decl p)).bind fun m => (buf.sentenceFrom fuel forward m.1).map some
  else (buf.sentenceFrom fuel forward p).map some

def blankBody (p : Nat) : Option (Nat × Bool) :=
  if isWhite (buf.gchar p) then (buf.checked (buf.incl p)).map fun m => (m.1, m.2 = .edge)
  else some (p, true)

/-- One count of `findsent`. -/
def countBody (fuel : Nat) (forward : Bool) (s : Sent) : Option Sent :=
  let count := s.count - 1
  (buf.nextSent fuel forward s.pos).bind fun found =>
    match found with
    | none => some { s with verdict := some false }
    | some (q, edge) =>
      if edge && count > 0 then some { s with verdict := some false }
      else
        (if edge then some q else untilBreak buf.blankBody fuel q).bind fun q =>
          if q = s.pos then
            -- it did not move: a step on, and the same count again
            (buf.sentStep forward q).map fun m =>
              if m.2 = .edge then ⟨m.1, count, some (count = 0)⟩ else ⟨m.1, count + 1, none⟩
          else some ⟨q, count, none⟩

/-- `findsent`: to the start of the `count`-th next or previous sentence, and whether there
is one; a search that fails leaves the place. -/
def findsent (fuel : Nat) (p : Nat) (forward : Bool) (count : Nat) : Option (Nat × Bool) :=
  (loop (fun s : Sent => s.count = 0 || s.verdict.isSome) (buf.countBody fuel forward) fuel
    ⟨p, count, none⟩).map fun s => if s.verdict = some false then (p, false) else (s.pos, true)

/-- `sentence_motion_fails`. -/
def sentenceMotionFails (fuel p : Nat) (forward : Bool) (count : Nat) : Option Bool :=
  (buf.findsent fuel (min p buf.last) forward (max count 1)).map fun r => !r.2

/-- `sentence_motion`: the landing of `)` and `(`. -/
def sentenceMotion (fuel p : Nat) (forward : Bool) (count : Nat) : Option Nat :=
  (buf.findsent fuel (min p buf.last) forward (max count 1)).map fun r => if r.2 then r.1 else p

end Buf

/-! ## Every search ends in the text -/

/-- What is left of the text in the search's direction. -/
def Buf.ahead (buf : Buf) (forward : Bool) (p : Nat) : Nat := if forward then buf.b.length - p else p

/-- The counts left, then the text ahead. -/
def Sent.measure (buf : Buf) (forward : Bool) (s : Sent) : Nat :=
  s.count * (buf.b.length + 1) + buf.ahead forward s.pos

section
variable {buf : Buf} (hg : buf.steps.Documented) (hadv : buf.steps.Advances)
include hg hadv

namespace Buf

omit hg hadv in
theorem ahead_le (forward : Bool) {p : Nat} (hp : p ≤ buf.b.length) :
    buf.ahead forward p ≤ buf.b.length := by
  unfold ahead
  split <;> omega

/-- A step in the search's direction: it stays in the text, and leaves less of it ahead
unless it is at the edge. -/
theorem sentStep_spec (forward : Bool) {p : Nat} (hp : p ≤ buf.b.length) :
    ∃ m, buf.sentStep forward p = some m ∧ m.1 ≤ buf.b.length ∧
      (m.2 ≠ .edge → buf.ahead forward m.1 < buf.ahead forward p) := by
  unfold sentStep ahead
  cases forward with
  | true =>
    obtain ⟨hle, -, hgt⟩ := incl_spec hg hadv hp
    refine ⟨buf.incl p, by simp [checked, hle], hle, fun hne => ?_⟩
    have := hgt hne
    simp only [if_true]
    omega
  | false =>
    obtain ⟨hle, hmove⟩ := decl_spec hg hadv hp
    refine ⟨buf.decl p, by simp [checked, hle], hle, fun hne => ?_⟩
    rcases hmove with ⟨hedge, -⟩ | ⟨-, hlt⟩
    · exact absurd hedge hne
    · simpa using hlt

theorem skipNul_total (forward : Bool) {p fuel : Nat} (hp : p ≤ buf.b.length)
    (hfuel : buf.b.length + 1 < fuel) :
    ∃ q, untilBreak (buf.skipNulBody forward) fuel p = some q ∧ q ≤ buf.b.length := by
  have hahead := ahead_le forward hp
  refine untilBreak_ends (I := (· ≤ buf.b.length)) (μ := buf.ahead forward) ?_ hp (by omega)
  intro p hp
  obtain ⟨m, hm, hle, hless⟩ := sentStep_spec hg hadv forward hp
  refine ⟨m.1, _, by rw [skipNulBody, hm, Option.map_some], fun _ => hle, fun hgo => ⟨hle, hless ?_⟩⟩
  intro hedge
  simp [hedge] at hgo

/-- The walk back returns, within the text. -/
theorem back_total (forward : Bool) {p fuel : Nat} (hp : p ≤ buf.b.length)
    (hfuel : buf.b.length + 1 < fuel) :
    ∃ s, untilBreak (buf.backBody forward) fuel (p, false) = some s ∧ s.1 ≤ buf.b.length := by
  refine untilBreak_ends (I := fun s : Nat × Bool => s.1 ≤ buf.b.length)
    (J := fun s => s.1 ≤ buf.b.length) (μ := Prod.fst) ?_ hp (by dsimp only; omega)
  intro s hs
  obtain ⟨hle, hmove⟩ := decl_spec hg hadv hs
  unfold backBody
  rw [checked, if_pos hle]
  dsimp only
  split
  · exact ⟨s, true, rfl, fun _ => hs, fun hgo => by cases hgo⟩
  · refine ⟨_, _, by rw [Option.map_some], ?_⟩
    split
    · exact ⟨fun _ => hs, fun hgo => by cases hgo⟩
    · rename_i hnot
      split
      · exact ⟨fun _ => hs, fun hgo => by cases hgo⟩
      · split
        · exact ⟨fun _ => hs, fun hgo => by cases hgo⟩
        · refine ⟨fun hstop => (by cases hstop), fun _ => ⟨hle, ?_⟩⟩
          rcases hmove with ⟨hedge, -⟩ | ⟨-, hlt⟩
          · simp [hedge] at hnot
          · exact hlt

theorem close_total {p fuel : Nat} (hp : p ≤ buf.b.length) (hfuel : buf.b.length + 1 < fuel) :
    ∃ s, untilBreak buf.closeBody fuel (p, .within) = some s ∧ s.1 ≤ buf.b.length := by
  refine untilBreak_ends (I := fun s : Nat × StepCode => s.1 ≤ buf.b.length)
    (J := fun s => s.1 ≤ buf.b.length) (μ := fun s => buf.b.length - s.1) ?_ hp
    (by dsimp only; omega)
  intro s hs
  obtain ⟨hle, hmove⟩ := inc_spec hg hadv hs
  unfold closeBody
  rw [checked, if_pos hle]
  refine ⟨_, _, rfl, fun _ => hle, fun hgo => ⟨hle, ?_⟩⟩
  rcases hmove with ⟨hedge, -⟩ | ⟨-, hgt⟩
  · simp [hedge] at hgo
  · omega

theorem sentenceStop_total {p fuel : Nat} (hp : p ≤ buf.b.length)
    (hfuel : buf.b.length + 1 < fuel) :
    ∃ stop, buf.sentenceStop fuel p = some stop ∧ ∀ q, stop = some q → q ≤ buf.b.length := by
  unfold sentenceStop
  split
  · obtain ⟨s, hs, hle⟩ := close_total hg hadv hp hfuel
    rw [hs, Option.bind_some]
    dsimp only
    split
    · split
      · have hin := (inc_spec hg hadv hle).1
        rw [checked, if_pos hin]
        exact ⟨_, rfl, fun q hq => by cases hq; exact hin⟩
      · exact ⟨_, rfl, fun q hq => by cases hq; exact hle⟩
    · exact ⟨_, rfl, fun q hq => by cases hq⟩
  · exact ⟨_, rfl, fun q hq => by cases hq⟩

omit hg hadv in
theorem nextLine_of_earlier {p start : Nat} (hstart : StartsLine buf.b start)
    (hlen : start ≤ buf.b.length) (hp : p < start) :
    ∃ q, buf.nextLine p = some q ∧ q ≤ start := by
  have hle : lineEnd buf.b p + 1 ≤ start := by
    by_contra hgt
    obtain ⟨-, hno⟩ := lineEnd_spec (b := buf.b) (p := p) (by omega)
    rcases hstart with hzero | hnl
    · omega
    · exact hno (start - 1) (by omega) (by omega) hnl
  exact ⟨_, if_pos (Nat.le_trans hle hlen), hle⟩

/-- The search for a sentence's end returns, within the text. -/
theorem findEnd_total (forward : Bool) {p fuel : Nat} (hp : p ≤ buf.b.length)
    (hfuel : buf.b.length + 1 < fuel) :
    ∃ s, untilBreak (buf.endBody fuel forward (lineStart buf.b p)) fuel (p, false) = some s ∧
      s.1 ≤ buf.b.length := by
  have hahead := ahead_le forward hp
  obtain ⟨hstart, -⟩ := lineStart_spec buf.b p
  have hstartle := lineStart_le_length buf.b p
  -- a search back stays at or before the place it started from
  refine untilBreak_ends
    (I := fun s : Nat × Bool => s.1 ≤ buf.b.length ∧ (forward = false → s.1 ≤ p))
    (J := fun s => s.1 ≤ buf.b.length) (μ := fun s => buf.ahead forward s.1) ?_
    ⟨hp, fun _ => Nat.le_refl p⟩ (by dsimp only; omega)
  rintro s ⟨hs, hback⟩
  unfold endBody
  dsimp only
  split
  · split
    · rename_i hearlier
      simp only [Bool.and_eq_true, Bool.not_eq_true', bne_iff_ne, ne_eq] at hearlier
      have hle := hback hearlier.1
      have hlt : s.1 < lineStart buf.b p := by
        by_contra hge
        refine hearlier.2 (lineStart_eq (by omega) hstart fun k hk hks => ?_)
        exact (lineStart_spec buf.b p).2 k hk (by omega)
      obtain ⟨q, hq, hqle⟩ := nextLine_of_earlier hstart hstartle hlt
      exact ⟨(q, false), true, by rw [hq, Option.map_some], fun _ => Nat.le_trans hqle hstartle,
        fun hgo => by cases hgo⟩
    · exact ⟨(s.1, false), true, rfl, fun _ => hs, fun hgo => by cases hgo⟩
  · obtain ⟨stop, hstop, hin⟩ := sentenceStop_total hg hadv hs hfuel
    rw [hstop, Option.bind_some]
    cases stop with
    | some q => exact ⟨(q, false), true, rfl, fun _ => hin q rfl, fun hgo => by cases hgo⟩
    | none =>
      obtain ⟨m, hm, hle, hless⟩ := sentStep_spec hg hadv forward hs
      refine ⟨_, _, by rw [hm, Option.map_some], fun _ => hle, fun hgo => ?_⟩
      have hne : m.2 ≠ .edge := by simpa using hgo
      have hahead' := hless hne
      refine ⟨⟨hle, fun hbwd => ?_⟩, hahead'⟩
      rw [hbwd] at hahead'
      have := hback hbwd
      simp only [ahead, Bool.false_eq_true, if_false] at hahead'
      omega

theorem sentenceFrom_total (forward : Bool) {p fuel : Nat} (hp : p ≤ buf.b.length)
    (hfuel : buf.b.length + 1 < fuel) :
    ∃ r, buf.sentenceFrom fuel forward p = some r ∧ r.1 ≤ buf.b.length := by
  obtain ⟨s, hs, hle⟩ := back_total hg hadv forward hp hfuel
  obtain ⟨r, hr, hle'⟩ := findEnd_total hg hadv forward hle hfuel
  exact ⟨r, by rw [sentenceFrom, hs, Option.bind_some, hr], hle'⟩

omit hg hadv in
theorem nextLine_of_not_last {p : Nat} (h : buf.isLastLine p = false) :
    ∃ q, buf.nextLine p = some q ∧ q ≤ buf.b.length := by
  have hlast := contentEnd_le buf.b
  simp only [isLastLine, ge_iff_le, decide_eq_false_iff_not, Nat.not_le] at h
  rw [last] at h
  have hle : lineEnd buf.b p + 1 ≤ buf.b.length := by omega
  exact ⟨_, if_pos hle, hle⟩

/-- The search for the next sentence returns, and stays within the text. -/
theorem nextSent_total (forward : Bool) {p fuel : Nat} (hp : p ≤ buf.b.length)
    (hfuel : buf.b.length + 1 < fuel) :
    ∃ found, buf.nextSent fuel forward p = some found ∧
      ∀ r, found = some r → r.1 ≤ buf.b.length := by
  have hfrom : ∀ q ≤ buf.b.length, ∃ found, (buf.sentenceFrom fuel forward q).map some = some found ∧
      ∀ r, found = some r → r.1 ≤ buf.b.length := by
    intro q hq
    obtain ⟨r, hr, hle⟩ := sentenceFrom_total hg hadv forward hq hfuel
    exact ⟨some r, by rw [hr, Option.map_some], fun r' hr' => by cases hr'; exact hle⟩
  unfold nextSent
  split
  · obtain ⟨q, hq, hle⟩ := skipNul_total hg hadv forward hp hfuel
    rw [hq, Option.bind_some]
    split
    · exact ⟨_, rfl, fun r hr => by cases hr; exact hle⟩
    · exact hfrom q hle
  · split
    · split
      · exact ⟨_, rfl, fun r hr => by cases hr⟩
      · rename_i hnot
        obtain ⟨q, hq, hle⟩ := nextLine_of_not_last (Bool.eq_false_iff.mpr hnot)
        exact ⟨_, by rw [hq, Option.map_some], fun r hr => by cases hr; exact hle⟩
    · split
      · have hle := (decl_spec hg hadv hp).1
        rw [checked, if_pos hle, Option.bind_some]
        exact hfrom _ hle
      · exact hfrom p hp

theorem blank_total {p fuel : Nat} (hp : p ≤ buf.b.length) (hfuel : buf.b.length + 1 < fuel) :
    ∃ q, untilBreak buf.blankBody fuel p = some q ∧ q ≤ buf.b.length := by
  refine untilBreak_ends (I := (· ≤ buf.b.length)) (μ := fun p => buf.b.length - p) ?_ hp (by omega)
  intro p hp
  obtain ⟨hle, hon, hgt⟩ := incl_spec hg hadv hp
  unfold blankBody
  rw [checked, if_pos hle]
  split
  · refine ⟨_, _, rfl, fun _ => hle, fun hgo => ⟨hle, ?_⟩⟩
    have := hgt (by simpa using hgo)
    omega
  · exact ⟨p, true, rfl, fun _ => hp, fun hgo => by cases hgo⟩

/-! ## All counts -/

/-- One count: a search that goes on has a count less, or the same count and less text
ahead of it. -/
theorem countBody_spec (forward : Bool) {s : Sent} {fuel : Nat} (hs : s.pos ≤ buf.b.length)
    (hcount : s.count ≠ 0) (hfuel : buf.b.length + 1 < fuel) :
    ∃ t, buf.countBody fuel forward s = some t ∧ t.pos ≤ buf.b.length ∧
      (t.verdict = none → Sent.measure buf forward t < Sent.measure buf forward s) := by
  obtain ⟨found, hfound, hin⟩ := nextSent_total hg hadv forward hs hfuel
  -- one count less is worth more than all the text
  have hless : ∀ t : Sent, t.pos ≤ buf.b.length → t.count = s.count - 1 →
      Sent.measure buf forward t < Sent.measure buf forward s := by
    intro t ht hcount'
    have hahead := ahead_le forward ht
    obtain ⟨n, hn⟩ := Nat.exists_eq_succ_of_ne_zero hcount
    simp only [Sent.measure, hcount', hn, Nat.succ_mul, Nat.succ_sub_one]
    omega
  unfold countBody
  rw [hfound, Option.bind_some]
  cases found with
  | none => exact ⟨_, rfl, hs, fun h => by cases h⟩
  | some r =>
    obtain ⟨q, edge⟩ := r
    have hq := hin _ rfl
    dsimp only at hq ⊢
    split
    · exact ⟨_, rfl, hs, fun h => by cases h⟩
    · have hskip : ∃ q', (if edge = true then some q else untilBreak buf.blankBody fuel q) = some q' ∧
          q' ≤ buf.b.length := by
        split
        · exact ⟨q, rfl, hq⟩
        · exact blank_total hg hadv hq hfuel
      obtain ⟨q', hq', hle⟩ := hskip
      rw [hq', Option.bind_some]
      split
      · rename_i hstay
        obtain ⟨m, hm, hmle, hahead⟩ := sentStep_spec hg hadv forward hle
        refine ⟨_, by rw [hm, Option.map_some], ?_⟩
        split
        · exact ⟨hmle, fun h => by cases h⟩
        · rename_i hne
          refine ⟨hmle, fun _ => ?_⟩
          have hlt := hahead hne
          rw [hstay] at hlt
          have hcount' : s.count - 1 + 1 = s.count := by omega
          simp only [Sent.measure, hcount']
          omega
      · exact ⟨_, rfl, hle, fun _ => hless _ hle rfl⟩

/-- `findsent` ends in the text, after as many rounds as there are counts and bytes. -/
theorem findsent_ends (forward : Bool) (count fuel : Nat) {p : Nat} (hp : p ≤ buf.b.length)
    (hfuel : (count + 1) * (buf.b.length + 1) + 1 < fuel) :
    ∃ r, buf.findsent fuel p forward count = some r ∧ r.1 ≤ buf.b.length := by
  have hmul : buf.b.length + 1 ≤ (count + 1) * (buf.b.length + 1) :=
    Nat.le_mul_of_pos_left _ (Nat.succ_pos count)
  have hinner : buf.b.length + 1 < fuel := by omega
  have hstart : Sent.measure buf forward ⟨p, count, none⟩ < fuel := by
    have hahead := ahead_le forward hp
    simp only [Sent.measure]
    rw [Nat.succ_mul] at hfuel
    omega
  have hloop : ∃ t, loop (fun s : Sent => s.count = 0 || s.verdict.isSome)
      (buf.countBody fuel forward) fuel ⟨p, count, none⟩ = some t ∧ _ := loop_ends
    (I := fun s => s.pos ≤ buf.b.length)
    (μ := fun s => if s.verdict.isSome then 0 else Sent.measure buf forward s) ?_ hp
    (by simpa using hstart)
  · obtain ⟨t, ht, -, -, hle⟩ := hloop
    refine ⟨_, by rw [findsent, ht, Option.map_some], ?_⟩
    split
    · exact hp
    · exact hle
  · intro s hs hgo
    simp only [Bool.or_eq_false_iff, decide_eq_false_iff_not] at hgo
    obtain ⟨t, ht, hle, hmeasure⟩ := countBody_spec hg hadv forward hs hgo.1 hinner
    have hnone : s.verdict = none := by simpa using hgo.2
    refine ⟨t, ht, hle, ?_⟩
    cases hv : t.verdict with
    | none => simpa [hnone, hv] using hmeasure hv
    | some v =>
      have hpos : 0 < s.count * (buf.b.length + 1) :=
        Nat.mul_pos (Nat.pos_of_ne_zero hgo.1) (Nat.succ_pos _)
      simp only [hnone, Option.isSome_some, Option.isSome_none, if_true, Bool.false_eq_true, if_false,
        Sent.measure]
      exact Nat.add_pos_left hpos _

end Buf

end

end Ruse.Core
