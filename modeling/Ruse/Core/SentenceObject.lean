import Ruse.Core.Sentence

/-!
# The sentence objects

The model of `current_sent` in `crates/core/src/textobj.rs`, the objects `is` and `as`
under an operator and over a Visual area, on top of `findsent`; as there, `none` is a place
off the text or a loop still going on.

Every one of its loops goes over blanks or counts down, so an object returns on every
buffer, with both its ends in the text (`sentences_return`).
-/

namespace Ruse.Core

open Ruse.Lib

def u32Max : Nat := 2 ^ 32 - 1

namespace Buf

variable (buf : Buf)

def firstBlankBody (p : Nat) : Option (Nat × Bool) :=
  (buf.checked (buf.decl p)).bind fun m =>
    if m.2 = .edge then some (m.1, true)
    else if !isWhite (buf.gchar m.1) then (buf.checked (buf.incl m.1)).map fun m' => (m'.1, true)
    else some (m.1, false)

/-- Vim `find_first_blank`: back to the first of the blanks before `p`. -/
def findFirstBlank (fuel p : Nat) : Option Nat := untilBreak buf.firstBlankBody fuel p

/-- Vim `findsent_forward`: skip `count / 2` sentences and as many blank runs. -/
def findsentForward (fuel : Nat) : (count p : Nat) → (atStartSent : Bool) → Option Nat
  | 0, p, _ => some p
  | count + 1, p, atStartSent => do
    let (p, _) ← buf.findsent fuel p true 1
    let p ← (if atStartSent then buf.findFirstBlank fuel p else some p)
    let (p, _) ← (if count = 0 || atStartSent then buf.checked (buf.decl p) else some (p, .within))
    findsentForward fuel count p !atStartSent

/-- The loops over the blanks before `stop`; the flag is set by a byte that is none. -/
def gapBody (stop : Nat) (s : Nat × Bool) : Option ((Nat × Bool) × Bool) :=
  if s.1 < stop then
    if !isWhite (buf.gchar s.1) then some ((s.1, true), true)
    else (buf.checked (buf.incl s.1)).map fun m => ((m.1, false), false)
  else some ((s.1, false), true)

/-- The loop of `sent_extend` back from the start of the area. -/
def extendBack (fuel : Nat) (around : Bool) : (count cur : Nat) → (atStartSent : Bool) → Option Nat
  | 0, cur, _ => some cur
  | count + 1, cur, atStartSent => do
    let cur ← (if atStartSent then buf.findFirstBlank fuel cur else some cur)
    let (cur, _) ← (if !atStartSent || (!around && !isWhite (buf.gchar cur)) then
        buf.findsent fuel cur false 1
      else some (cur, true))
    extendBack fuel around count cur !atStartSent

/-- Where `sent_extend` starts to go back from. -/
def backStart (fuel cur startPos : Nat) (found : Bool) : Option (Nat × Bool) :=
  if found then do
    let (cur, _) ← buf.findsent fuel cur false 1
    if cur = startPos then some (cur, true)
    else (buf.findsent fuel cur true 1).map fun r => (r.1, false)
  else some (cur, true)

/-- Where it starts to go forward from; `pos` is the place after the area. -/
def forwardStart (fuel cur pos startPos : Nat) : Option (Nat × Bool) :=
  if pos ≠ cur then do
    let (_, found) ← untilBreak (buf.gapBody cur) fuel (pos, false)
    if found then (buf.findsent fuel cur false 1).map fun r => (r.1, true)
    else some (startPos, false)
  else some (cur, true)

/-- `sent_extend`: the cursor of the wider area. -/
def sentExtend (fuel cur pos startPos vis count : Nat) (around : Bool) : Option Nat := do
  let count := if around then min (2 * count) u32Max else count
  if startPos < vis then
    let (pos, _) ← buf.checked (buf.decl pos)
    let (_, found) ← untilBreak (buf.gapBody cur) fuel (pos, false)
    let (cur, atStartSent) ← buf.backStart fuel cur startPos found
    buf.extendBack fuel around count cur atStartSent
  else
    let (pos, _) ← buf.checked (buf.incl pos)
    let (cur, atStartSent) ← buf.forwardStart fuel cur pos startPos
    buf.findsentForward fuel count cur atStartSent

def whiteBody (p : Nat) : Option (Nat × Bool) :=
  if isWhite (buf.gchar p) then (buf.checked (buf.incl p)).map fun m => (m.1, false)
  else some (p, true)

/-- Where the object starts, and where the count goes on from. -/
def objectStart (fuel cursor cur : Nat) (startBlank : Bool) : Option (Nat × Nat) :=
  if startBlank then (buf.findFirstBlank fuel cursor).map fun s => (s, cur)
  else (buf.findsent fuel cur false 1).map fun r => (r.1, r.1)

/-- With the leading blanks in, leave the trailing ones out; with no trailing blanks, take
the leading ones. -/
def trimBlanks (fuel startPos cur : Nat) (startBlank : Bool) : Option (Nat × Nat) :=
  if startBlank then
    (buf.findFirstBlank fuel cur).bind fun cur =>
      if isWhite (buf.gchar cur) then (buf.checked (buf.decl cur)).map fun m => (startPos, m.1)
      else some (startPos, cur)
  else if !isWhite (buf.gchar cur) then (buf.findFirstBlank fuel startPos).map fun s => (s, cur)
  else some (startPos, cur)

/-- The count, held to twice the buffer's length. -/
def sentCount (count : Nat) : Nat :=
  max 1 (min count (min (min (2 * min buf.b.length u32Max) u32Max + 4) u32Max))

/-- `current_sent`: the start, the cursor, and whether the end is included. -/
def currentSent (fuel cursor : Nat) (visual : Option Nat) (count : Nat) (around : Bool) :
    Option (Nat × Nat × Bool) := do
  let count := buf.sentCount count
  let (cur, _) ← buf.findsent fuel cursor true 1
  match visual.filter (· ≠ cursor) with
  | some v => (buf.sentExtend fuel cur cursor cursor v count around).map fun cur => (v, cur, true)
  | none =>
    -- starting on a blank: is it the blank run just before the next sentence?
    let pos ← untilBreak buf.whiteBody fuel cursor
    let startBlank : Bool := pos = cur
    let (startPos, cur) ← buf.objectStart fuel cursor cur startBlank
    let ncount := if around then min (2 * count) u32Max else count - startBlank.toNat
    let cur ← (if ncount > 0 then buf.findsentForward fuel ncount cur true
      else (buf.checked (buf.decl cur)).map Prod.fst)
    let (startPos, cur) ← (if around then buf.trimBlanks fuel startPos cur startBlank
      else some (startPos, cur))
    match visual with
    | some v =>
      if startPos = cur then
        (buf.sentExtend fuel cur pos startPos v count around).map fun cur => (v, cur, true)
      else some (startPos, cur, true)
    | none => (buf.checked (buf.incl cur)).map fun m => (startPos, m.1, decide (m.2 = .edge))

end Buf

/-! ## The objects return -/

section
variable {buf : Buf} (hg : buf.steps.Documented) (hadv : buf.steps.Advances)
include hg hadv

namespace Buf

omit hadv hg in
theorem checked_eq {m : Nat × StepCode} (h : m.1 ≤ buf.b.length) : buf.checked m = some m := if_pos h

/-- The walk to the first blank returns, within the text. -/
theorem findFirstBlank_total (fuel : Nat) {p : Nat} (hp : p ≤ buf.b.length)
    (hfuel : buf.b.length + 1 < fuel) :
    ∃ q, buf.findFirstBlank fuel p = some q ∧ q ≤ buf.b.length := by
  refine untilBreak_ends (I := (· ≤ buf.b.length)) (μ := fun p => p) ?_ hp (by omega)
  intro p hp
  obtain ⟨hle, hmove⟩ := decl_spec hg hadv hp
  unfold firstBlankBody
  rw [checked_eq hle, Option.bind_some]
  split
  · exact ⟨_, true, rfl, fun _ => hle, fun hgo => by cases hgo⟩
  · rename_i hne
    split
    · have hin := (incl_spec hg hadv hle).1
      rw [checked_eq hin]
      exact ⟨_, true, rfl, fun _ => hin, fun hgo => by cases hgo⟩
    · refine ⟨_, false, rfl, fun hstop => (by cases hstop), fun _ => ⟨hle, ?_⟩⟩
      rcases hmove with ⟨hedge, -⟩ | ⟨-, hlt⟩
      · exact absurd hedge hne
      · exact hlt

/-- One `findsent` of an object. -/
theorem findsent_one (forward : Bool) {p fuel : Nat} (hp : p ≤ buf.b.length)
    (hfuel : 2 * (buf.b.length + 1) + 1 < fuel) :
    ∃ q ok, buf.findsent fuel p forward 1 = some (q, ok) ∧ q ≤ buf.b.length := by
  obtain ⟨r, hr, hle⟩ := findsent_ends hg hadv forward 1 fuel hp (by omega)
  exact ⟨r.1, r.2, hr, hle⟩

/-- The walk over whole sentences ahead returns, within the text. -/
theorem findsentForward_total {fuel : Nat} (hfuel : 2 * (buf.b.length + 1) + 1 < fuel) (count : Nat)
    {p : Nat} (hp : p ≤ buf.b.length) (atStartSent : Bool) :
    ∃ q, buf.findsentForward fuel count p atStartSent = some q ∧ q ≤ buf.b.length := by
  induction count generalizing p atStartSent with
  | zero => exact ⟨p, rfl, hp⟩
  | succ count ih =>
    obtain ⟨q, ok, hq, hle⟩ := findsent_one hg hadv true hp hfuel
    have hblank : ∃ q', (if atStartSent = true then buf.findFirstBlank fuel q else some q) = some q' ∧
        q' ≤ buf.b.length := by
      split
      · exact findFirstBlank_total hg hadv fuel hle (by omega)
      · exact ⟨q, rfl, hle⟩
    obtain ⟨q', hq', hle'⟩ := hblank
    have hback : ∃ m, (if (count = 0 || atStartSent) = true then buf.checked (buf.decl q')
        else some (q', StepCode.within)) = some m ∧ m.1 ≤ buf.b.length := by
      split
      · have hin := (decl_spec hg hadv hle').1
        exact ⟨_, checked_eq hin, hin⟩
      · exact ⟨_, rfl, hle'⟩
    obtain ⟨m, hm, hmle⟩ := hback
    obtain ⟨r, hr, hrle⟩ := ih hmle !atStartSent
    refine ⟨r, ?_, hrle⟩
    simp only [findsentForward, hq, hq', hm, hr, Option.bind_eq_bind, Option.bind_some]

theorem gap_total (stop fuel : Nat) {p : Nat} (hp : p ≤ buf.b.length) (hfuel : buf.b.length + 1 < fuel) :
    ∃ s, untilBreak (buf.gapBody stop) fuel (p, false) = some s ∧ s.1 ≤ buf.b.length := by
  refine untilBreak_ends (I := fun s : Nat × Bool => s.1 ≤ buf.b.length)
    (J := fun s => s.1 ≤ buf.b.length) (μ := fun s => buf.b.length - s.1) ?_ hp
    (by dsimp only; omega)
  intro s hs
  unfold gapBody
  split
  · split
    · exact ⟨_, true, rfl, fun _ => hs, fun hgo => by cases hgo⟩
    · rename_i hwhite
      obtain ⟨hle, hgt⟩ := incl_white hg hadv hs (by simpa using hwhite)
      rw [checked_eq hle]
      refine ⟨_, false, rfl, fun hstop => (by cases hstop), fun _ => ⟨hle, ?_⟩⟩
      omega
  · exact ⟨_, true, rfl, fun _ => hs, fun hgo => by cases hgo⟩

theorem white_total (fuel : Nat) {p : Nat} (hp : p ≤ buf.b.length) (hfuel : buf.b.length + 1 < fuel) :
    ∃ q, untilBreak buf.whiteBody fuel p = some q ∧ q ≤ buf.b.length := by
  refine untilBreak_ends (I := (· ≤ buf.b.length)) (μ := fun p => buf.b.length - p) ?_ hp (by omega)
  intro p hp
  unfold whiteBody
  split
  · rename_i hwhite
    obtain ⟨hle, hgt⟩ := incl_white hg hadv hp hwhite
    rw [checked_eq hle]
    exact ⟨_, false, rfl, fun hstop => (by cases hstop), fun _ => ⟨hle, by omega⟩⟩
  · exact ⟨p, true, rfl, fun _ => hp, fun hgo => by cases hgo⟩

/-- Extending the selection back returns, within the text. -/
theorem extendBack_total {fuel : Nat} (hfuel : 2 * (buf.b.length + 1) + 1 < fuel) (around : Bool)
    (count : Nat) {cur : Nat} (hcur : cur ≤ buf.b.length) (atStartSent : Bool) :
    ∃ q, buf.extendBack fuel around count cur atStartSent = some q ∧ q ≤ buf.b.length := by
  induction count generalizing cur atStartSent with
  | zero => exact ⟨cur, rfl, hcur⟩
  | succ count ih =>
    have hblank : ∃ q, (if atStartSent = true then buf.findFirstBlank fuel cur else some cur) = some q ∧
        q ≤ buf.b.length := by
      split
      · exact findFirstBlank_total hg hadv fuel hcur (by omega)
      · exact ⟨cur, rfl, hcur⟩
    obtain ⟨q, hq, hle⟩ := hblank
    have hback : ∃ r, (if (!atStartSent || (!around && !isWhite (buf.gchar q))) = true then
        buf.findsent fuel q false 1 else some (q, true)) = some r ∧ r.1 ≤ buf.b.length := by
      split
      · obtain ⟨q', ok, hq', hle'⟩ := findsent_one hg hadv false hle hfuel
        exact ⟨_, hq', hle'⟩
      · exact ⟨_, rfl, hle⟩
    obtain ⟨r, hr, hrle⟩ := hback
    obtain ⟨t, ht, htle⟩ := ih hrle !atStartSent
    refine ⟨t, ?_, htle⟩
    simp only [extendBack, hq, hr, ht, Option.bind_eq_bind, Option.bind_some]

theorem backStart_total {fuel cur : Nat} (hfuel : 2 * (buf.b.length + 1) + 1 < fuel)
    (hcur : cur ≤ buf.b.length) (startPos : Nat) (found : Bool) :
    ∃ r, buf.backStart fuel cur startPos found = some r ∧ r.1 ≤ buf.b.length := by
  unfold backStart
  split
  · obtain ⟨q, ok, hq, hle⟩ := findsent_one hg hadv false hcur hfuel
    simp only [hq, Option.bind_eq_bind, Option.bind_some]
    split
    · exact ⟨_, rfl, hle⟩
    · obtain ⟨q', ok', hq', hle'⟩ := findsent_one hg hadv true hle hfuel
      exact ⟨_, by rw [hq', Option.map_some], hle'⟩
  · exact ⟨_, rfl, hcur⟩

theorem forwardStart_total {fuel cur pos startPos : Nat}
    (hfuel : 2 * (buf.b.length + 1) + 1 < fuel) (hcur : cur ≤ buf.b.length)
    (hpos : pos ≤ buf.b.length) (hstart : startPos ≤ buf.b.length) :
    ∃ r, buf.forwardStart fuel cur pos startPos = some r ∧ r.1 ≤ buf.b.length := by
  unfold forwardStart
  split
  · obtain ⟨s, hs, -⟩ := gap_total hg hadv cur fuel hpos (by omega)
    simp only [hs, Option.bind_eq_bind, Option.bind_some]
    split
    · obtain ⟨q, ok, hq, hle⟩ := findsent_one hg hadv false hcur hfuel
      exact ⟨_, by rw [hq, Option.map_some], hle⟩
    · exact ⟨_, rfl, hstart⟩
  · exact ⟨_, rfl, hcur⟩

theorem sentExtend_total {fuel cur pos startPos : Nat}
    (hfuel : 2 * (buf.b.length + 1) + 1 < fuel) (hcur : cur ≤ buf.b.length)
    (hpos : pos ≤ buf.b.length) (hstart : startPos ≤ buf.b.length) (vis count : Nat)
    (around : Bool) :
    ∃ q, buf.sentExtend fuel cur pos startPos vis count around = some q ∧ q ≤ buf.b.length := by
  unfold sentExtend
  dsimp only
  split
  · have hle := (decl_spec hg hadv hpos).1
    obtain ⟨s, hs, -⟩ := gap_total hg hadv cur fuel hle (by omega)
    obtain ⟨r, hr, hrle⟩ := backStart_total hg hadv hfuel hcur startPos s.2
    simp only [checked_eq hle, hs, hr, Option.bind_eq_bind, Option.bind_some]
    exact extendBack_total hg hadv hfuel around _ hrle r.2
  · have hle := (incl_spec hg hadv hpos).1
    obtain ⟨r, hr, hrle⟩ := forwardStart_total hg hadv hfuel hcur hle hstart
    simp only [checked_eq hle, hr, Option.bind_eq_bind, Option.bind_some]
    exact findsentForward_total hg hadv hfuel _ hrle r.2

theorem objectStart_total {fuel cursor cur : Nat} (hfuel : 2 * (buf.b.length + 1) + 1 < fuel)
    (hcursor : cursor ≤ buf.b.length) (hcur : cur ≤ buf.b.length) (startBlank : Bool) :
    ∃ r, buf.objectStart fuel cursor cur startBlank = some r ∧
      r.1 ≤ buf.b.length ∧ r.2 ≤ buf.b.length := by
  unfold objectStart
  split
  · obtain ⟨q, hq, hle⟩ := findFirstBlank_total hg hadv fuel hcursor (by omega)
    exact ⟨_, by rw [hq, Option.map_some], hle, hcur⟩
  · obtain ⟨q, ok, hq, hle⟩ := findsent_one hg hadv false hcur hfuel
    exact ⟨_, by rw [hq, Option.map_some], hle, hle⟩

theorem trimBlanks_total {fuel startPos cur : Nat} (hfuel : buf.b.length + 1 < fuel)
    (hstart : startPos ≤ buf.b.length) (hcur : cur ≤ buf.b.length) (startBlank : Bool) :
    ∃ r, buf.trimBlanks fuel startPos cur startBlank = some r ∧
      r.1 ≤ buf.b.length ∧ r.2 ≤ buf.b.length := by
  unfold trimBlanks
  split
  · obtain ⟨q, hq, hle⟩ := findFirstBlank_total hg hadv fuel hcur hfuel
    rw [hq, Option.bind_some]
    split
    · have hin := (decl_spec hg hadv hle).1
      exact ⟨_, by rw [checked_eq hin, Option.map_some], hstart, hin⟩
    · exact ⟨_, rfl, hstart, hle⟩
  · split
    · obtain ⟨q, hq, hle⟩ := findFirstBlank_total hg hadv fuel hstart hfuel
      exact ⟨_, by rw [hq, Option.map_some], hle, hcur⟩
    · exact ⟨_, rfl, hstart, hcur⟩

/-- `current_sent` returns, and both ends of the object lie in the text. -/
theorem currentSent_total {fuel cursor : Nat} (hfuel : 2 * (buf.b.length + 1) + 1 < fuel)
    (hcursor : cursor ≤ buf.b.length) {visual : Option Nat} (hvis : ∀ v, visual = some v → v ≤ buf.b.length)
    (count : Nat) (around : Bool) :
    ∃ r, buf.currentSent fuel cursor visual count around = some r ∧
      r.1 ≤ buf.b.length ∧ r.2.1 ≤ buf.b.length := by
  obtain ⟨cur, ok, hcur, hle⟩ := findsent_one hg hadv true hcursor hfuel
  unfold currentSent
  simp only [hcur, Option.bind_eq_bind, Option.bind_some]
  split
  · rename_i v hv
    obtain ⟨q, hq, hqle⟩ := sentExtend_total hg hadv hfuel hle hcursor hcursor v
      (buf.sentCount count) around
    have hmem := hvis v (Option.filter_eq_some_iff.mp hv).1
    exact ⟨_, by rw [hq, Option.map_some], hmem, hqle⟩
  · obtain ⟨pos, hpos, hposle⟩ := white_total hg hadv fuel hcursor (by omega)
    rw [hpos, Option.bind_some]
    obtain ⟨r, hr, hstart, hcur'⟩ := objectStart_total hg hadv hfuel hcursor hle (decide (pos = cur))
    rw [hr, Option.bind_some]
    generalize (if around = true then min (2 * buf.sentCount count) u32Max
      else buf.sentCount count - (decide (pos = cur)).toNat) = ncount
    have hnext : ∃ q, (if ncount > 0 then buf.findsentForward fuel ncount r.2 true
        else (buf.checked (buf.decl r.2)).map Prod.fst) = some q ∧ q ≤ buf.b.length := by
      split
      · exact findsentForward_total hg hadv hfuel ncount hcur' true
      · have hin := (decl_spec hg hadv hcur').1
        exact ⟨_, by rw [checked_eq hin, Option.map_some], hin⟩
    obtain ⟨q, hq, hqle⟩ := hnext
    rw [hq, Option.bind_some]
    have htrim : ∃ t, (if around = true then buf.trimBlanks fuel r.1 q (decide (pos = cur))
        else some (r.1, q)) = some t ∧ t.1 ≤ buf.b.length ∧ t.2 ≤ buf.b.length := by
      split
      · exact trimBlanks_total hg hadv (by omega) hstart hqle _
      · exact ⟨_, rfl, hstart, hqle⟩
    obtain ⟨t, ht, htstart, htcur⟩ := htrim
    rw [ht, Option.bind_some]
    cases visual with
    | some v =>
      dsimp only
      split
      · obtain ⟨q', hq', hqle'⟩ := sentExtend_total hg hadv hfuel htcur hposle htstart v
          (buf.sentCount count) around
        exact ⟨_, by rw [hq', Option.map_some], hvis v rfl, hqle'⟩
      · exact ⟨_, rfl, htstart, htcur⟩
    | none =>
      have hin := (incl_spec hg hadv htcur).1
      exact ⟨_, by rw [checked_eq hin, Option.map_some], htstart, hin⟩

end Buf

end

/-- The sentence search ends on every text: `findsent` returns from every place, in either
direction and for every count, having moved only through places of the text; the motions
and the objects on it return. -/
theorem sentences_return (g : Segmenter) (hg : g.Documented) (hadv : g.Advances) (b : Bytes) :
    (∀ p ≤ b.length, ∀ forward count, ∀ fuel > (count + 1) * (b.length + 1) + 1, ∃ r,
      (Buf.mk b g).findsent fuel p forward count = some r ∧ r.1 ≤ b.length) ∧
    (∀ p forward count, ∀ fuel > (max count 1 + 1) * (b.length + 1) + 1, ∃ q fails,
      (Buf.mk b g).sentenceMotion fuel p forward count = some q ∧
      (Buf.mk b g).sentenceMotionFails fuel p forward count = some fails ∧ q ≤ max p b.length) ∧
    ∀ cursor ≤ b.length, ∀ visual : Option Nat, (∀ v, visual = some v → v ≤ b.length) →
      ∀ count around, ∀ fuel > 2 * (b.length + 1) + 1, ∃ r,
        (Buf.mk b g).currentSent fuel cursor visual count around = some r ∧
        r.1 ≤ b.length ∧ r.2.1 ≤ b.length := by
  refine ⟨?_, ?_, ?_⟩
  · intro p hp forward count fuel hfuel
    exact Buf.findsent_ends hg hadv forward count fuel hp hfuel
  · intro p forward count fuel hfuel
    have hmin : min p (Buf.mk b g).last ≤ b.length :=
      Nat.le_trans (Nat.min_le_right _ _) (contentEnd_le b)
    obtain ⟨r, hr, hle⟩ := @Buf.findsent_ends ⟨b, g⟩ hg hadv forward (max count 1) fuel _ hmin hfuel
    refine ⟨_, _, by rw [Buf.sentenceMotion, hr, Option.map_some],
      by rw [Buf.sentenceMotionFails, hr, Option.map_some], ?_⟩
    split
    · exact Nat.le_trans hle (Nat.le_max_right _ _)
    · exact Nat.le_max_left _ _
  · intro cursor hcursor visual hvis count around fuel hfuel
    exact @Buf.currentSent_total ⟨b, g⟩ hg hadv fuel cursor hfuel hcursor visual hvis count around

/-- Over characters: from the start of two lines of sentences, with a byte 0 in the first. -/
theorem sentences_return_zero : ∃ r,
    (Buf.mk [65, 0, 46, 32, 66, 46, 10, 67, 46, 10] .eachChar).findsent 40 0 true 2 = some r ∧
      r.1 ≤ 10 :=
  (sentences_return .eachChar Segmenter.eachChar_documented Segmenter.eachChar_advances
    [65, 0, 46, 32, 66, 46, 10, 67, 46, 10]).1 0 (by decide) true 2 40 (by decide)

end Ruse.Core
