import Mathlib.Data.List.Dedup
import Mathlib.Data.List.Sort
import Ruse.Core.Segmentation
import Ruse.Lib.Walk

/-!
# Counted searches

The model of `walk_count`, `landing_key` and `step_char` in
`crates/core/src/editor/search.rs` and of `search_char_landing` in
`crates/core/src/editor/planner.rs`. The matches are a list of spans here; the search places
their landings in order and finds the next one by halves, which is the nearest one where the
keys never go down along the landings.
-/

namespace Ruse.Core

open Ruse.Lib

/-! ## A count of steps -/

/-- The loop of `walk_count` with `left` steps to go, at step `i`. -/
def walkCountFrom {σ : Type*} [DecidableEq σ] (step : σ → Option σ) :
    (left : Nat) → (seen : List (σ × Nat)) → (pos : σ) → (i : Nat) → Option σ
  | 0, _, pos, _ => some pos
  | left + 1, seen, pos, i =>
    match seen.find? (·.1 = pos) with
    | some (_, j) => walkTimes step ((left + 1) % (i - j)) pos
    | none => (step pos).bind fun pos' => walkCountFrom step left ((pos, i) :: seen) pos' (i + 1)

/-- `count` steps, at least one; once a place repeats, modulo the period. -/
def walkCount {σ : Type*} [DecidableEq σ] (start : σ) (count : Nat) (step : σ → Option σ) :
    Option σ :=
  walkCountFrom step (max count 1) [] start 0

/-- The walk that remembers where it was is the plain one: a cycle is only cut short. -/
theorem walkCountFrom_eq {σ : Type*} [DecidableEq σ] {step : σ → Option σ} (left : Nat)
    {seen : List (σ × Nat)} {pos : σ} {i : Nat}
    (hseen : ∀ p ∈ seen, p.2 < i ∧ walkTimes step (i - p.2) p.1 = some pos) :
    walkCountFrom step left seen pos i = walkTimes step left pos := by
  induction left generalizing seen pos i with
  | zero => rfl
  | succ left ih =>
    rw [walkCountFrom]
    split
    · rename_i q j hfind
      have hat : q = pos := by simpa using List.find?_some hfind
      obtain ⟨-, hcycle⟩ := hseen _ (List.mem_of_find?_eq_some hfind)
      rw [hat] at hcycle
      exact (walkTimes_cycle hcycle _).symm
    · rw [walkTimes]
      refine Option.bind_congr fun pos' hstep => ih ?_
      intro p hp
      rcases List.mem_cons.mp hp with rfl | hp
      · exact ⟨Nat.lt_succ_self i, by rw [Nat.add_sub_cancel_left, walkTimes_one, hstep]⟩
      · obtain ⟨hlt, hwalk⟩ := hseen p hp
        refine ⟨Nat.lt_succ_of_lt hlt, ?_⟩
        rw [Nat.succ_sub (Nat.le_of_lt hlt), Nat.succ_eq_add_one, walkTimes_add, hwalk, Option.bind_some,
          walkTimes_one, hstep]

theorem walkCount_eq {σ : Type*} [DecidableEq σ] (start : σ) (count : Nat) (step : σ → Option σ) :
    walkCount start count step = walkTimes step (max count 1) start :=
  walkCountFrom_eq _ (fun _ h => absurd h List.not_mem_nil)

/-! ## Where a match lands -/

section
variable (g : Segmenter) (b : Bytes)

/-- Where a landing is compared: a character back at the end of a line that is not empty. -/
def landingKey (pos : Nat) : Nat :=
  if atNul b pos ∧ 0 < pos ∧ pos ≤ b.length ∧ b[pos - 1]? ≠ some newline then prevGrapheme g b pos
  else pos

/-- The loop of `last_landable`, from `p` down. -/
def lastLandableFrom : (left p : Nat) → Nat
  | 0, _ => 0
  | left + 1, p =>
    if 0 < p then
      let pp := prevGrapheme g b p
      if b[pp]? = some newline then lastLandableFrom left pp else pp
    else 0

/-- The last character of the last line that has one. -/
def lastLandable : Nat := lastLandableFrom g b b.length b.length

/-- Over the newlines from `np` on. -/
def skipNewlines : (left np : Nat) → Nat
  | 0, np => np
  | left + 1, np => if b[np]? = some newline then skipNewlines left (nextBoundary b np) else np

/-- The loop of `step_char` to the right. -/
def stepRight : (n p : Nat) → Nat
  | 0, p => p
  | n + 1, p =>
    let np := skipNewlines b b.length (nextGrapheme g b p)
    if np ≥ b.length then lastLandable g b else stepRight n np

/-- Back over the newlines from `pp` on. -/
def backNewlines : (left pp : Nat) → Nat
  | 0, pp => pp
  | left + 1, pp =>
    if 0 < pp ∧ b[pp]? = some newline then backNewlines left (prevGrapheme g b pp) else pp

/-- The loop of `step_char` to the left. -/
def stepLeft : (n p : Nat) → Nat
  | 0, p => p
  | n + 1, p => if p = 0 then 0 else stepLeft n (backNewlines g b b.length (prevGrapheme g b p))

/-- `n` characters from `pos`, over the ends of lines. -/
def Landing.stepChar (pos : Nat) (n : Int) : Nat :=
  let p := min pos b.length
  if 0 ≤ n then stepRight g b n.toNat p else stepLeft g b n.natAbs p

/-- The offsets of a charwise search; a line offset takes another way. -/
inductive SearchOffset where
  | none
  | start (k : Int)
  | stop (k : Int)
deriving DecidableEq, Repr

/-- Where the cursor lands for a match. -/
def landing (offset : SearchOffset) (span : Nat × Nat) : Nat :=
  match offset with
  | .none => span.1
  | .start k => if k = 0 then span.1 else Landing.stepChar g b span.1 k
  -- from the match's last character
  | .stop k => Landing.stepChar g b (prevGrapheme g b span.2) k

/-- The landings in order, each once. -/
def landings (offset : SearchOffset) (spans : List (Nat × Nat)) : List Nat :=
  (spans.map (landing g b offset)).dedup.insertionSort (· ≤ ·)

/-- One `n`, or `N` where `backward`. -/
def stepLanding (lps : List Nat) (backward : Bool) (pos : Nat) : Nat :=
  let k := landingKey g b pos
  let key i := landingKey g b (lps.getD i 0)
  if backward then
    match partitionPoint (fun i => key i < k) lps.length with
    | 0 => lps.getLastD 0
    | i + 1 => lps.getD i 0
  else lps[partitionPoint (fun i => key i ≤ k) lps.length]?.getD (lps.headD 0)

/-- The landing of the `count`-th match from `origin`, `none` where there is no match. -/
def searchCharLanding (spans : List (Nat × Nat)) (origin count : Nat) (backward : Bool)
    (offset : SearchOffset) : Option Nat :=
  if spans.isEmpty then none
  else walkCount origin count fun pos => some (stepLanding g b (landings g b offset spans) backward pos)

/-! ## The linear rule -/

/-- The nearest landing whose key is past that of the position, or the first or last one. -/
def nearestLanding (lps : List Nat) (backward : Bool) (pos : Nat) : Nat :=
  let k := landingKey g b pos
  if backward then (lps.reverse.find? fun lp => landingKey g b lp < k).getD (lps.getLastD 0)
  else (lps.find? fun lp => k < landingKey g b lp).getD (lps.headD 0)

/-- `count` single searches one after another. -/
def linearLanding (spans : List (Nat × Nat)) (origin count : Nat) (backward : Bool)
    (offset : SearchOffset) : Option Nat :=
  if spans.isEmpty then none
  else walkTimes (fun pos => some (nearestLanding g b (landings g b offset spans) backward pos))
    (max count 1) origin

end

/-! ## Keys along the landings -/

section
variable {g : Segmenter} (hg : g.Documented) (hadv : g.Advances) {b : Bytes}
include hg hadv

/-- A key is on the line of its place, and before it only at the line's end. -/
theorem landingKey_spec {q : Nat} (hq : q ≤ b.length) : landingKey g b q = q ∨
    atNul b q = true ∧ lineStart b q ≤ landingKey g b q ∧ landingKey g b q < q := by
  unfold landingKey
  split
  · rename_i hend
    exact .inr ⟨hend.1, prevGrapheme_line hg hadv hend.2.1 hq hend.2.2.2⟩
  · exact .inl rfl

/-- A key that is below an earlier place has it on its line, inside the line. -/
theorem landingKey_inside {p q : Nat} (hq : q ≤ b.length) (hpq : p < q) (hkey : landingKey g b q < p) :
    landingKey g b p = p ∧ atNul b q = true := by
  rcases landingKey_spec hg hadv hq with hat | ⟨hnul, hstart, -⟩
  · omega
  · refine ⟨?_, hnul⟩
    have hno := (lineStart_spec b q).2 p (by omega) hpq
    unfold landingKey
    rw [if_neg]
    rintro ⟨hp, -⟩
    simp only [atNul, Bool.or_eq_true, decide_eq_true_eq, beq_iff_eq] at hp
    rcases hp with hp | hp
    · omega
    · exact hno hp

theorem landingKey_le {q : Nat} (hq : q ≤ b.length) : landingKey g b q ≤ q := by
  rcases landingKey_spec hg hadv hq with hat | ⟨-, -, hlt⟩
  · exact Nat.le_of_eq hat
  · exact Nat.le_of_lt hlt

theorem lt_landingKey {q r : Nat} (hnul : atNul b q = true) (hqr : q < r) (hr : r ≤ b.length) :
    q < landingKey g b r := by
  rcases landingKey_spec hg hadv hr with hat | ⟨-, hstart, -⟩
  · omega
  · by_contra hle
    have hno := (lineStart_spec b r).2 q (by omega) hqr
    simp only [atNul, Bool.or_eq_true, decide_eq_true_eq, beq_iff_eq] at hnul
    rcases hnul with hq | hq
    · omega
    · exact hno hq

end

/-! ## The step by halves and the linear rule -/

section
variable {g : Segmenter} {b : Bytes} {lps : List Nat} {pos r : Nat}

theorem getD_eq {i : Nat} (hi : i < lps.length) : lps.getD i 0 = lps[i] := by
  rw [List.getD_eq_getElem?_getD, List.getElem?_eq_getElem hi, Option.getD_some]

/-- The landing of a forward search that the number `r` stands for. -/
def forwardAt (lps : List Nat) (r : Nat) : Nat := lps[r]?.getD (lps.headD 0)

/-- The landing of a backward search with the numbers below `r` before it. -/
def backwardAt (lps : List Nat) : Nat → Nat
  | 0 => lps.getLastD 0
  | i + 1 => lps.getD i 0

theorem stepLanding_forward : stepLanding g b lps false pos = forwardAt lps
    (partitionPoint (fun i => landingKey g b (lps.getD i 0) ≤ landingKey g b pos) lps.length) := rfl

theorem stepLanding_backward : stepLanding g b lps true pos = backwardAt lps
    (partitionPoint (fun i => landingKey g b (lps.getD i 0) < landingKey g b pos) lps.length) := by
  simp only [stepLanding, if_true]
  cases partitionPoint (fun i => landingKey g b (lps.getD i 0) < landingKey g b pos) lps.length <;> rfl

/-- The linear rule forward, where no key before number `r` is past the place's. -/
theorem nearestLanding_forward
    (hbelow : ∀ i < r, i < lps.length → landingKey g b (lps.getD i 0) ≤ landingKey g b pos)
    (hat : r < lps.length → landingKey g b pos < landingKey g b (lps.getD r 0)) :
    nearestLanding g b lps false pos = forwardAt lps r := by
  have hfind := find?_eq_at (l := lps) (p := fun lp => landingKey g b pos < landingKey g b lp)
    (r := r) (fun i hi hlt => by
      have := hbelow i hlt hi
      rw [getD_eq hi] at this
      exact decide_eq_false (by omega)) fun hlt => by
      have := hat hlt
      rw [getD_eq hlt] at this
      exact decide_eq_true this
  simp only [nearestLanding, Bool.false_eq_true, if_false, forwardAt, hfind]

/-- And backward, where no key from number `r` on is before the place's. -/
theorem nearestLanding_backward (hle : r ≤ lps.length)
    (habove : ∀ i, r ≤ i → i < lps.length → landingKey g b pos ≤ landingKey g b (lps.getD i 0))
    (hat : 0 < r → landingKey g b (lps.getD (r - 1) 0) < landingKey g b pos) :
    nearestLanding g b lps true pos = backwardAt lps r := by
  have hfind := find?_reverse_eq_before (p := fun lp => landingKey g b lp < landingKey g b pos) hle
    (fun i hi hlt => by
      have := habove i hlt hi
      rw [getD_eq hi] at this
      exact decide_eq_false (by omega)) fun hpos => by
      have := hat hpos
      rw [getD_eq (by omega)] at this
      exact decide_eq_true this
  simp only [nearestLanding, if_true, hfind]
  cases r with
  | zero => rfl
  | succ r => simp [backwardAt, List.getElem?_eq_getElem (Nat.lt_of_succ_le hle)]

/-- A search by halves finds the nearest landing where the keys on one side of the place's are
those of the first landings. -/
theorem forward_of_closed
    (h : ∀ i j, i < j → j < lps.length → landingKey g b (lps.getD j 0) ≤ landingKey g b pos →
      landingKey g b (lps.getD i 0) ≤ landingKey g b pos) :
    stepLanding g b lps false pos = nearestLanding g b lps false pos := by
  have hcut := partitionPoint_cut
    (fun i => decide (landingKey g b (lps.getD i 0) ≤ landingKey g b pos)) lps.length
  obtain ⟨hbelow, habove⟩ := hcut.splits (by simpa only [decide_eq_true_eq] using h)
  rw [stepLanding_forward, ← nearestLanding_forward]
  · exact fun i hi _ => of_decide_eq_true (hbelow i hi)
  · exact fun hlt => Nat.lt_of_not_le (of_decide_eq_false (habove _ (Nat.le_refl _) hlt))

theorem backward_of_closed
    (h : ∀ i j, i < j → j < lps.length → landingKey g b (lps.getD j 0) < landingKey g b pos →
      landingKey g b (lps.getD i 0) < landingKey g b pos) :
    stepLanding g b lps true pos = nearestLanding g b lps true pos := by
  have hcut := partitionPoint_cut
    (fun i => decide (landingKey g b (lps.getD i 0) < landingKey g b pos)) lps.length
  obtain ⟨hbelow, habove⟩ := hcut.splits (by simpa only [decide_eq_true_eq] using h)
  rw [stepLanding_backward, ← nearestLanding_backward hcut.le]
  · exact fun i hi hlt => Nat.le_of_not_lt (of_decide_eq_false (habove i hi hlt))
  · exact fun hpos => of_decide_eq_true (hcut.before hpos)

/-- Where the first of two numbers is not in and the second one is, the halves end at an end of
the range. -/
theorem partitionPoint_two (pred : Nat → Bool) (h : pred 0 = false) :
    partitionPoint pred 2 = 0 ∨ partitionPoint pred 2 = 2 := by
  have hcut := partitionPoint_cut pred 2
  have hle := hcut.le
  have hone : partitionPoint pred 2 ≠ 1 := by
    intro heq
    have := hcut.before (by omega)
    rw [heq, h] at this
    cases this
  omega

/-- Of two candidates the steps land on the nearest. -/
theorem steps_two {x y : Nat} (backward : Bool) :
    stepLanding g b [x, y] backward pos = nearestLanding g b [x, y] backward pos := by
  cases backward with
  | false =>
    by_cases hx : landingKey g b x ≤ landingKey g b pos
    · refine forward_of_closed fun i j hij hj _ => ?_
      obtain rfl : i = 0 := by simp at hj; omega
      exact hx
    · rw [stepLanding_forward, nearestLanding_forward (r := 0) (fun i hi => by omega)
        fun _ => Nat.lt_of_not_le hx]
      rcases partitionPoint_two (fun i => decide (landingKey g b ([x, y].getD i 0) ≤
        landingKey g b pos)) (decide_eq_false hx) with hr | hr <;> rw [show [x, y].length = 2 from rfl, hr]
      rfl
  | true =>
    by_cases hx : landingKey g b x < landingKey g b pos
    · refine backward_of_closed fun i j hij hj _ => ?_
      obtain rfl : i = 0 := by simp at hj; omega
      exact hx
    · by_cases hy : landingKey g b y < landingKey g b pos
      · rw [stepLanding_backward, nearestLanding_backward (r := 2) (Nat.le_refl _)
          (fun i hi hlt => by simp at hlt; omega) fun _ => hy]
        rcases partitionPoint_two (fun i => decide (landingKey g b ([x, y].getD i 0) <
          landingKey g b pos)) (decide_eq_false hx) with hr | hr <;> rw [show [x, y].length = 2 from rfl, hr]
        rfl
      · refine backward_of_closed fun i j hij hj hlt => ?_
        obtain rfl : j = 1 := by simp at hj; omega
        exact absurd hlt hy

/-- Where the keys are past a place from landing `t` on, but for a later landing `j`, no number
the halves can end at is right both forward and backward. -/
theorem dips_differ (pos : Nat) {t j pos' : Nat} (htj : t < j) (hj : j < lps.length)
    (hends : ¬ (t = 0 ∧ j + 1 = lps.length)) (hsorted : lps.Pairwise (· < ·))
    (hfwd : ∀ i < lps.length, landingKey g b (lps.getD i 0) ≤ landingKey g b pos ↔ i < t ∨ i = j)
    (hbwd : ∀ i < lps.length, landingKey g b (lps.getD i 0) < landingKey g b pos' ↔ i < t ∨ i = j) :
    ¬ (stepLanding g b lps false pos = nearestLanding g b lps false pos ∧
      stepLanding g b lps true pos' = nearestLanding g b lps true pos') := by
  rintro ⟨hf, hb⟩
  have hinj {i k : Nat} (hi : i < lps.length) (hk : k < lps.length) (h : lps.getD i 0 = lps.getD k 0) :
      i = k := by
    rw [getD_eq hi, getD_eq hk] at h
    exact (List.Nodup.getElem_inj_iff (hsorted.imp Nat.ne_of_lt)).mp h
  have hsame : partitionPoint (fun i => decide (landingKey g b (lps.getD i 0) ≤ landingKey g b pos))
      lps.length = partitionPoint (fun i => decide (landingKey g b (lps.getD i 0) <
        landingKey g b pos')) lps.length :=
    partitionPoint_congr fun i hi => decide_eq_decide.mpr ((hfwd i hi).trans (hbwd i hi).symm)
  have hcut := partitionPoint_cut
    (fun i => decide (landingKey g b (lps.getD i 0) ≤ landingKey g b pos)) lps.length
  rw [stepLanding_forward, nearestLanding_forward (r := t)
    (fun i hi hlt => (hfwd i hlt).mpr (.inl hi))
    fun hlt => Nat.lt_of_not_le fun hle => by have := (hfwd t hlt).mp hle; omega] at hf
  rw [stepLanding_backward, ← hsame, nearestLanding_backward (r := j + 1) hj
    (fun i hi hlt => Nat.le_of_not_lt fun hlt' => by have := (hbwd i hlt).mp hlt'; omega)
    fun _ => (hbwd j hj).mpr (.inr rfl)] at hb
  generalize partitionPoint (fun i => decide (landingKey g b (lps.getD i 0) ≤ landingKey g b pos))
    lps.length = r at hf hb hcut
  have hle := hcut.le
  -- the halves end before the dip or after it
  have hr : r = t ∨ r = j + 1 := by
    have hbefore : 0 < r → r - 1 < t ∨ r - 1 = j := fun hpos =>
      (hfwd _ (by omega)).mp (of_decide_eq_true (hcut.before hpos))
    have hafter : r < lps.length → ¬ (r < t ∨ r = j) := fun hlt h =>
      of_decide_eq_false (hcut.after hlt) ((hfwd r hlt).mpr h)
    omega
  rcases hr with rfl | rfl
  · cases r with
    | zero =>
      have hlast : lps.getLastD 0 = lps.getD (lps.length - 1) 0 := by
        rw [getD_eq (by omega), List.getLastD_eq_getLast?, List.getLast?_eq_getElem?,
          List.getElem?_eq_getElem (by omega), Option.getD_some]
      rw [backwardAt, backwardAt, hlast] at hb
      have := hinj (by omega) hj hb
      omega
    | succ r =>
      rw [backwardAt, backwardAt] at hb
      have := hinj (by omega) hj hb
      omega
  · have hnext : forwardAt lps t = lps.getD t 0 := by
      rw [forwardAt, getD_eq (by omega), List.getElem?_eq_getElem (by omega), Option.getD_some]
    rw [hnext, forwardAt] at hf
    rcases Nat.lt_or_ge (j + 1) lps.length with hlt | hge
    · rw [List.getElem?_eq_getElem hlt, Option.getD_some, ← getD_eq hlt] at hf
      have := hinj hlt (by omega) hf
      omega
    · rw [List.getElem?_eq_none hge, Option.getD_none, List.headD_eq_getD] at hf
      have := hinj (by omega) (by omega) hf
      omega

end

/-! ## Where the two agree -/

/-- Every key is at every landing before its own, or past it. -/
def KeysKeep (g : Segmenter) (b : Bytes) (lps : List Nat) : Prop :=
  ∀ p ∈ lps, ∀ q ∈ lps, p < q → p ≤ landingKey g b q

instance (g : Segmenter) (b : Bytes) (lps : List Nat) : Decidable (KeysKeep g b lps) :=
  inferInstanceAs (Decidable (∀ p ∈ lps, ∀ q ∈ lps, p < q → p ≤ landingKey g b q))

section
variable {g : Segmenter} (hg : g.Documented) (hadv : g.Advances) {b : Bytes} {lps : List Nat}
include hg hadv

theorem steps_of_keysKeep (hsorted : lps.Pairwise (· < ·)) (hin : ∀ lp ∈ lps, lp ≤ b.length)
    (h : KeysKeep g b lps) (backward : Bool) (pos : Nat) :
    stepLanding g b lps backward pos = nearestLanding g b lps backward pos := by
  have hmono : ∀ i j, i < j → j < lps.length →
      landingKey g b (lps.getD i 0) ≤ landingKey g b (lps.getD j 0) := by
    intro i j hij hj
    rw [getD_eq (by omega), getD_eq hj]
    have hlt : lps[i] < lps[j] := List.pairwise_iff_getElem.mp hsorted i j (by omega) hj hij
    exact Nat.le_trans (landingKey_le hg hadv (hin _ (List.getElem_mem _)))
      (h _ (List.getElem_mem _) _ (List.getElem_mem _) hlt)
  cases backward with
  | false => exact forward_of_closed fun i j hij hj => Nat.le_trans (hmono i j hij hj)
  | true => exact backward_of_closed fun i j hij hj => Nat.lt_of_le_of_lt (hmono i j hij hj)

/-- A landing inside the last cluster of a line, another one at the line's end and a third
anywhere: a single step goes wrong from some place. -/
theorem exists_step_ne (hsorted : lps.Pairwise (· < ·)) (hin : ∀ lp ∈ lps, lp ≤ b.length)
    (h : ¬ KeysKeep g b lps) (hlen : 2 < lps.length) :
    ∃ backward pos, stepLanding g b lps backward pos ≠ nearestLanding g b lps backward pos := by
  simp only [KeysKeep, not_forall, Nat.not_le] at h
  obtain ⟨p, hp, q, hq, hpq, hkey⟩ := h
  obtain ⟨j, hj, rfl⟩ := List.mem_iff_getElem.mp hq
  obtain ⟨i₀, hi₀, rfl⟩ := List.mem_iff_getElem.mp hp
  rw [← getD_eq hj] at hpq hkey
  rw [← getD_eq hi₀] at hpq hkey
  have hlt (i k : Nat) (hik : i < k) (hk : k < lps.length) : lps.getD i 0 < lps.getD k 0 := by
    rw [getD_eq hk, getD_eq (by omega)]
    exact List.pairwise_iff_getElem.mp hsorted i k (by omega) hk hik
  have hlen' (i : Nat) (hi : i < lps.length) : lps.getD i 0 ≤ b.length := by
    rw [getD_eq hi]
    exact hin _ (List.getElem_mem _)
  have hij : i₀ < j := by
    rcases Nat.lt_trichotomy i₀ j with hij | rfl | hji
    · exact hij
    · exact absurd hpq (Nat.lt_irrefl _)
    · have := hlt j i₀ hji hi₀
      omega
  -- the first landing past the key of landing `j`
  have hex : ∃ i, landingKey g b (lps.getD j 0) < lps.getD i 0 := ⟨i₀, hkey⟩
  obtain ⟨t₀, ht₀, hfirst, hmin⟩ : ∃ t₀, t₀ < j ∧ landingKey g b (lps.getD j 0) < lps.getD t₀ 0 ∧
      ∀ i < t₀, lps.getD i 0 ≤ landingKey g b (lps.getD j 0) :=
    ⟨Nat.find hex, Nat.lt_of_le_of_lt (Nat.find_min' hex hkey) hij, Nat.find_spec hex,
      fun i hi => Nat.le_of_not_lt (Nat.find_min hex hi)⟩
  have hfrom (i : Nat) (hi : t₀ ≤ i) (hij : i < j) : lps.getD t₀ 0 ≤ lps.getD i 0 := by
    rcases Nat.lt_or_eq_of_le hi with hlt' | rfl
    · exact Nat.le_of_lt (hlt t₀ i hlt' (by omega))
    · exact Nat.le_refl _
  have hinside (i : Nat) (hi : t₀ ≤ i) (hij : i < j) :
      landingKey g b (lps.getD i 0) = lps.getD i 0 ∧ atNul b (lps.getD j 0) = true :=
    landingKey_inside hg hadv (hlen' j hj) (hlt i j hij hj)
      (Nat.lt_of_lt_of_le hfirst (hfrom i hi hij))
  have hle (i : Nat) (hi : i < lps.length) : landingKey g b (lps.getD i 0) ≤ lps.getD i 0 :=
    landingKey_le hg hadv (hlen' i hi)
  have habove (i : Nat) (hji : j < i) (hi : i < lps.length) :
      lps.getD j 0 < landingKey g b (lps.getD i 0) :=
    lt_landingKey hg hadv (hinside t₀ (Nat.le_refl _) ht₀).2 (hlt j i hji hi) (hlen' i hi)
  -- a key between those of the landings before number `t` and those from it on
  have hsplit {t k : Nat} (ht : t₀ ≤ t) (htj : t < j) (hk : landingKey g b (lps.getD j 0) ≤ k)
      (hkt : k < lps.getD t 0) (hbelow : ∀ i < t, lps.getD i 0 ≤ k) :
      ∀ i < lps.length, landingKey g b (lps.getD i 0) ≤ k ↔ i < t ∨ i = j := by
    intro i hi
    rcases Nat.lt_or_ge i t with hit | hti
    · exact iff_of_true (Nat.le_trans (hle i hi) (hbelow i hit)) (.inl hit)
    · rcases Nat.lt_trichotomy i j with hij | rfl | hji
      · refine iff_of_false (fun h => ?_) (by omega)
        rw [(hinside i (by omega) hij).1] at h
        rcases Nat.lt_or_eq_of_le hti with hlt' | rfl
        · have := hlt t i hlt' hi
          omega
        · omega
      · exact iff_of_true hk (.inr rfl)
      · refine iff_of_false (fun h => ?_) (by omega)
        have := habove i hji hi
        have := hlt t j htj hj
        omega
  have hbwd {t : Nat} (ht : t₀ ≤ t) (htj : t < j) : ∀ i < lps.length,
      landingKey g b (lps.getD i 0) < landingKey g b (lps.getD t 0) ↔ i < t ∨ i = j := by
    intro i hi
    have := hfrom t ht htj
    rw [(hinside t ht htj).1, ← hsplit (k := lps.getD t 0 - 1) ht htj (by omega) (by omega)
      (fun i hit => Nat.le_sub_one_of_lt (hlt i t hit (by omega))) i hi]
    omega
  by_contra hall
  simp only [not_exists, Decidable.not_not] at hall
  by_cases hends : t₀ = 0 ∧ j + 1 = lps.length
  · -- with nothing around the dip, the threshold goes inside it
    have hone : t₀ < t₀ + 1 := Nat.lt_succ_self _
    refine dips_differ (lps.getD t₀ 0) (t := t₀ + 1) (j := j) (by omega) hj (by omega) hsorted
      ?_ (hbwd (Nat.le_succ _) (by omega)) ⟨hall false _, hall true _⟩
    rw [(hinside t₀ (Nat.le_refl _) ht₀).1]
    refine hsplit (Nat.le_succ _) (by omega) (Nat.le_of_lt hfirst) (hlt _ _ hone (by omega)) ?_
    exact fun i hi => by
      rw [show i = t₀ by omega]
  · exact dips_differ _ ht₀ hj hends hsorted
      (hsplit (Nat.le_refl _) ht₀ (Nat.le_refl _) hfirst hmin) (hbwd (Nat.le_refl _) ht₀)
      ⟨hall false _, hall true _⟩

/-- The steps of both kinds are the same exactly where no landing lies between another one and
its key, or there are no three landings. -/
theorem steps_iff (hsorted : lps.Pairwise (· < ·)) (hin : ∀ lp ∈ lps, lp ≤ b.length) :
    (∀ backward pos, stepLanding g b lps backward pos = nearestLanding g b lps backward pos) ↔
      lps.length ≤ 2 ∨ KeysKeep g b lps := by
  constructor
  · intro h
    by_contra hcond
    obtain ⟨hlen, hkeys⟩ := not_or.mp hcond
    obtain ⟨backward, pos, hne⟩ := exists_step_ne hg hadv hsorted hin hkeys (Nat.lt_of_not_le hlen)
    exact hne (h backward pos)
  · rintro (hlen | hkeys) backward pos
    · match lps, hlen with
      | [], _ => cases backward <;> rfl
      | [x], _ =>
        refine steps_of_keysKeep hg hadv hsorted hin (fun p hp q hq hpq => ?_) backward pos
        rw [List.mem_singleton.mp hp, List.mem_singleton.mp hq] at hpq
        omega
      | [x, y], _ => exact steps_two backward
    · exact steps_of_keysKeep hg hadv hsorted hin hkeys backward pos

end

/-! ## Where the landings are -/

section
variable {g : Segmenter} (hg : g.Documented) (b : Bytes)
include hg

theorem lastLandable_le : lastLandable g b ≤ b.length := by
  have hfrom : ∀ left p, lastLandableFrom g b left p ≤ b.length := by
    intro left
    induction left with
    | zero => exact fun p => Nat.zero_le _
    | succ left ih =>
      intro p
      rw [lastLandableFrom]
      split
      · dsimp only
        split
        · exact ih _
        · exact (prevGrapheme_inText hg b p).1
      · exact Nat.zero_le _
  exact hfrom _ _

theorem backNewlines_le (left : Nat) {pp : Nat} (h : pp ≤ b.length) :
    backNewlines g b left pp ≤ b.length := by
  induction left generalizing pp with
  | zero => exact h
  | succ left ih =>
    rw [backNewlines]
    split
    · exact ih (prevGrapheme_inText hg b pp).1
    · exact h

theorem stepRight_le (n : Nat) {p : Nat} (h : p ≤ b.length) : stepRight g b n p ≤ b.length := by
  induction n generalizing p with
  | zero => exact h
  | succ n ih =>
    rw [stepRight]
    split
    · exact lastLandable_le hg b
    · exact ih (by omega)

theorem stepLeft_le (n : Nat) {p : Nat} (h : p ≤ b.length) : stepLeft g b n p ≤ b.length := by
  induction n generalizing p with
  | zero => exact h
  | succ n ih =>
    rw [stepLeft]
    split
    · exact Nat.zero_le _
    · exact ih (backNewlines_le hg b _ (prevGrapheme_inText hg b p).1)

theorem Landing.stepChar_le (pos : Nat) (n : Int) : Landing.stepChar g b pos n ≤ b.length := by
  unfold Landing.stepChar
  split
  · exact stepRight_le hg b _ (Nat.min_le_right _ _)
  · exact stepLeft_le hg b _ (Nat.min_le_right _ _)

theorem landing_le (offset : SearchOffset) {span : Nat × Nat} (h : span.1 ≤ b.length) :
    landing g b offset span ≤ b.length := by
  cases offset with
  | none => exact h
  | start k =>
    rw [landing]
    split
    · exact h
    · exact Landing.stepChar_le hg b _ _
  | stop k => exact Landing.stepChar_le hg b _ _

theorem landings_spec (offset : SearchOffset) {spans : List (Nat × Nat)}
    (h : ∀ span ∈ spans, span.1 ≤ b.length) :
    (landings g b offset spans).Pairwise (· < ·) ∧
      ∀ lp ∈ landings g b offset spans, lp ≤ b.length := by
  constructor
  · have hle := List.pairwise_insertionSort (· ≤ ·) (spans.map (landing g b offset)).dedup
    have hne : (landings g b offset spans).Nodup :=
      (List.perm_insertionSort _ _).nodup_iff.mpr (List.nodup_dedup _)
    exact hle.and hne |>.imp fun ⟨hle, hne⟩ => Nat.lt_of_le_of_ne hle hne
  · intro lp hlp
    rw [landings, List.mem_insertionSort, List.mem_dedup] at hlp
    obtain ⟨span, hspan, rfl⟩ := List.mem_map.mp hlp
    exact landing_le hg b offset (h span hspan)

end

/-! ## Counted searches -/

/-- Whatever the step, `walk_count` takes as many steps as it is told. With the steps of a search
that is the iterated linear rule, for every origin, count and direction, exactly where no landing
lies between another one and its key, or there are no three landings. -/
theorem counted_search_iterates (g : Segmenter) (hg : g.Documented) (hadv : g.Advances) (b : Bytes)
    (spans : List (Nat × Nat)) (hspans : ∀ span ∈ spans, InText b span.1 ∧ InText b span.2)
    (offset : SearchOffset) :
    (∀ {σ : Type} [DecidableEq σ] (start : σ) (count : Nat) (step : σ → Option σ),
      walkCount start count step = walkTimes step (max count 1) start) ∧
    ((∀ origin count backward, searchCharLanding g b spans origin count backward offset =
        linearLanding g b spans origin count backward offset) ↔
      (landings g b offset spans).length ≤ 2 ∨ KeysKeep g b (landings g b offset spans)) := by
  refine ⟨fun start count step => walkCount_eq start count step, ?_⟩
  obtain ⟨hsorted, hin⟩ := landings_spec hg b offset fun span h => (hspans span h).1.1
  rw [← steps_iff hg hadv hsorted hin]
  unfold searchCharLanding linearLanding
  cases spans with
  | nil => exact iff_of_true (fun _ _ _ => rfl) fun backward pos => by cases backward <;> rfl
  | cons span spans =>
    simp only [List.isEmpty_cons, Bool.false_eq_true, if_false, walkCount_eq]
    constructor
    · intro h backward pos
      simpa only [Nat.max_self, walkTimes_one, Option.some.injEq] using h pos 1 backward
    · intro h origin count backward
      simp only [h]

/-- Two letters and the end of the line between them. -/
theorem counted_search_iterates_three :
    searchCharLanding .eachChar [97, 98, 10, 99] [(1, 2), (2, 2), (3, 4)] 0 2 true .none =
      linearLanding .eachChar [97, 98, 10, 99] [(1, 2), (2, 2), (3, 4)] 0 2 true .none := by
  have hspans : ∀ span ∈ [(1, 2), (2, 2), (3, 4)],
      (span.1 ≤ [97, 98, 10, 99].length ∧ isBoundary [97, 98, 10, 99] span.1 = true) ∧
      (span.2 ≤ [97, 98, 10, 99].length ∧ isBoundary [97, 98, 10, 99] span.2 = true) := by decide
  have hin : ∀ span ∈ [(1, 2), (2, 2), (3, 4)],
      InText [97, 98, 10, 99] span.1 ∧ InText [97, 98, 10, 99] span.2 := fun span h =>
    ⟨inText_of_isBoundary (hspans span h).1.1 (hspans span h).1.2,
      inText_of_isBoundary (hspans span h).2.1 (hspans span h).2.2⟩
  exact (counted_search_iterates .eachChar Segmenter.eachChar_documented Segmenter.eachChar_advances
    _ _ hin .none).2.mpr (.inr (by decide +kernel)) 0 2 true

/-- `e` with a combining accent, a newline and an `x`: from the `e` the accent comes next, but
the halves find the line's end before the `e` and go on to the `x`. -/
theorem search_skips_accent :
    searchCharLanding (.wholeText .acute) [101, 0xCC, 0x81, 10, 120] [(1, 3), (3, 3), (4, 5)] 0 1
      false .none = some 4 ∧
    linearLanding (.wholeText .acute) [101, 0xCC, 0x81, 10, 120] [(1, 3), (3, 3), (4, 5)] 0 1
      false .none = some 1 := by
  decide +kernel

end Ruse.Core
