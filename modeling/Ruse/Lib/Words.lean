import Mathlib.Order.Bounds.Basic
import Mathlib.Order.OrderDual

/-!
# Words in a line of cells

Cells are some elements of a linear order, each with a class; class 0 is blank. A word
starts where the class is not the one of the cell before (`Starts`) and ends where it is
not the one of the cell after (`Ends`), which is the same in the other order. Some cells
are stops of their own.

`walk` steps from cell to cell while a condition holds. Two searches are built of walks:

* `seek_spec` — off the run the walk starts in, then over blanks: the next start or stop;
* `skipRun_spec` — over blanks, then over a run: the next end or stop.
-/

namespace Ruse.Lib

/-- Step while `go` holds. A step may say to stop where it leads. Tells whether the walk was
stopped so or had no step left. -/
def walk {α : Type*} (step : α → Option (α × Bool)) (go : α → Bool) :
    (fuel : Nat) → α → Option (α × Bool)
  | 0, _ => none
  | fuel + 1, p =>
    if go p then
      match step p with
      | none => some (p, true)
      | some (q, true) => some (q, true)
      | some (q, false) => walk step go fuel q
    else some (p, false)

/-- Off the run of `p`, then over blanks that are no stops. -/
def seek {α : Type*} (step : α → Option (α × Bool)) (cls : α → Nat) (stopAt : α → Bool)
    (fuel : Nat) (p : α) : Option (α × Bool) := do
  match step p with
  | none => some (p, true)
  | some (q, true) => some (q, true)
  | some (q, false) =>
    let (r, ret) ← if cls p = 0 then some (q, false) else walk step (fun k => cls k == cls p) fuel q
    if ret then some (r, true) else walk step (fun k => cls k == 0 && !stopAt k) fuel r

/-- A walk depends on its steps where it goes on. -/
theorem walk_congr {α : Type*} {step step' : α → Option (α × Bool)} {go : α → Bool}
    (h : ∀ p, go p = true → step p = step' p) (fuel : Nat) (p : α) :
    walk step go fuel p = walk step' go fuel p := by
  induction fuel generalizing p with
  | zero => rfl
  | succ fuel ih =>
    unfold walk
    cases hgo : go p with
    | false => rfl
    | true =>
      rw [if_pos rfl, if_pos rfl, h p hgo]
      cases step' p with
      | none => rfl
      | some m =>
        obtain ⟨q, stop⟩ := m
        cases stop with
        | true => rfl
        | false => exact ih q

section
variable {α : Type*} [LinearOrder α] (C : Set α) (cls : α → Nat)

/-- The cell after `p`. -/
def Next (p q : α) : Prop := IsLeast {i | p < i ∧ i ∈ C} q

/-- The cell before `p`. -/
def Prev (p q : α) : Prop := IsGreatest {i | i < p ∧ i ∈ C} q

/-- A word starts at `p`. -/
structure Starts (p : α) : Prop where
  cell : p ∈ C
  nonblank : cls p ≠ 0
  fresh : ∀ q, Prev C p q → cls q ≠ cls p

/-- A word ends at `p`. -/
structure Ends (p : α) : Prop where
  cell : p ∈ C
  nonblank : cls p ≠ 0
  last : ∀ q, Next C p q → cls q ≠ cls p

theorem starts_dual (C : Set α) (cls : α → Nat) (p : α) :
    @Starts αᵒᵈ _ C cls p ↔ Ends C cls p :=
  ⟨fun h => ⟨h.cell, h.nonblank, h.fresh⟩, fun h => ⟨h.cell, h.nonblank, h.last⟩⟩

theorem ends_dual (C : Set α) (cls : α → Nat) (p : α) :
    @Ends αᵒᵈ _ C cls p ↔ Starts C cls p :=
  ⟨fun h => ⟨h.cell, h.nonblank, h.last⟩, fun h => ⟨h.cell, h.nonblank, h.fresh⟩⟩

variable {C cls}

theorem Next.prev {p q : α} (h : Next C p q) (hp : p ∈ C) : Prev C q p := by
  refine ⟨⟨h.1.1, hp⟩, fun i hi => ?_⟩
  by_contra hlt
  exact absurd (h.2 ⟨not_le.mp hlt, hi.2⟩) (not_le.mpr hi.1)

theorem Prev.next {p q : α} (h : Prev C p q) (hp : p ∈ C) : Next C q p := by
  refine ⟨⟨h.1.1, hp⟩, fun i hi => ?_⟩
  by_contra hlt
  exact absurd (h.2 ⟨not_le.mp hlt, hi.2⟩) (not_le.mpr hi.1)

/-- Steps from cell to cell, up to where only blanks that are no stops are left. -/
structure Stepping (C : Set α) (cls : α → Nat) (stopAt : α → Bool)
    (step : α → Option (α × Bool)) (μ : α → Nat) : Prop where
  some {p q : α} {stop : Bool} : p ∈ C → step p = some (q, stop) →
    stop = false ∧ Next C p q ∧ μ q < μ p
  none {p : α} : p ∈ C → step p = none → ∀ i ∈ C, p < i → cls i = 0 ∧ stopAt i = false

variable {stopAt : α → Bool} {step : α → Option (α × Bool)} {μ : α → Nat}
  (h : Stepping C cls stopAt step μ)
include h

/-- A walk returns the first stop on the way, or the end. -/
theorem walk_spec (go : α → Bool) {fuel : Nat} {p : α} (hp : p ∈ C) (hfuel : μ p < fuel) :
    ∃ r ret, walk step go fuel p = some (r, ret) ∧ (r ∈ C ∧ p ≤ r ∧ μ r ≤ μ p) ∧
      (∀ k ∈ C, p ≤ k → k < r → go k = true ∧ ∃ j, Next C k j ∧ j ≤ r) ∧
      (∀ k ∈ C, p < k → k ≤ r → ∃ j, Prev C k j ∧ p ≤ j) ∧
      (ret = false → go r = false) ∧ (ret = true → go r = true ∧ step r = none) := by
  induction fuel generalizing p with
  | zero => exact absurd hfuel (Nat.not_lt_zero _)
  | succ fuel ih =>
    unfold walk
    have hself : (∀ k ∈ C, p ≤ k → k < p → go k = true ∧ ∃ j, Next C k j ∧ j ≤ p) ∧
        ∀ k ∈ C, p < k → k ≤ p → ∃ j, Prev C k j ∧ p ≤ j :=
      ⟨fun k _ hk hkp => absurd hk (not_le.mpr hkp), fun k _ hk hkp => absurd hk (not_lt.mpr hkp)⟩
    cases hgo : go p with
    | false =>
      exact ⟨p, false, rfl, ⟨hp, le_refl p, le_refl _⟩, hself.1, hself.2, fun _ => hgo, fun hr => by cases hr⟩
    | true =>
      rw [if_pos rfl]
      cases hstep : step p with
      | none =>
        exact ⟨p, true, rfl, ⟨hp, le_refl p, le_refl _⟩, hself.1, hself.2, fun hr => (by cases hr),
          fun _ => ⟨hgo, hstep⟩⟩
      | some m =>
        obtain ⟨q, stop⟩ := m
        obtain ⟨hstop, hnext, hμ⟩ := h.some hp hstep
        rw [hstop]
        obtain ⟨r, ret, hwalk, ⟨hr, hqr, hμr⟩, hover, hback, hend, hedge⟩ := ih hnext.1.2 (by omega)
        refine ⟨r, ret, hwalk, ⟨hr, le_trans (le_of_lt hnext.1.1) hqr, by omega⟩, ?_, ?_, hend, hedge⟩
        · intro k hk hpk hkr
          rcases eq_or_lt_of_le hpk with heq | hlt
          · rw [← heq]
            exact ⟨hgo, q, hnext, hqr⟩
          · exact hover k hk (hnext.2 ⟨hlt, hk⟩) hkr
        · intro k hk hpk hkr
          rcases eq_or_lt_of_le (hnext.2 ⟨hpk, hk⟩) with heq | hlt
          · rw [← heq]
            exact ⟨p, hnext.prev hp, le_refl p⟩
          · obtain ⟨j, hj, hqj⟩ := hback k hk hlt hkr
            exact ⟨j, hj, le_trans (le_of_lt hnext.1.1) hqj⟩

/-- Over blanks that are no stops: where the walk ends there is no start or stop passed. -/
theorem blanks_spec {fuel : Nat} {p r : α} (hr : r ∈ C) (hpr : p < r) (hfuel : μ r < fuel)
    (hstop : ∀ i ∈ C, stopAt i = true → cls i = 0)
    (hbefore : ∀ i ∈ C, p < i → i < r → cls i ≠ 0 ∧ ∃ j, Prev C i j ∧ cls j = cls i)
    (hfresh : ∀ j, Prev C r j → cls j ≠ cls r ∨ cls r = 0) :
    ∃ t ret, walk step (fun k => cls k == 0 && !stopAt k) fuel r = some (t, ret) ∧ t ∈ C ∧
      (ret = false → IsLeast {i | p < i ∧ (Starts C cls i ∨ (i ∈ C ∧ stopAt i = true))} t) ∧
      (ret = true → step t = none ∧ ∀ i, p < i → ¬ (Starts C cls i ∨ (i ∈ C ∧ stopAt i = true))) := by
  obtain ⟨t, ret, hwalk, ⟨ht, hrt, -⟩, hover, hback, hend, hedge⟩ :=
    walk_spec h (fun k => cls k == 0 && !stopAt k) hr hfuel
  simp only [Bool.and_eq_true, beq_iff_eq, Bool.not_eq_true', Bool.and_eq_false_iff,
    beq_eq_false_iff_ne, ne_eq] at hover hend hedge
  have hpassed : ∀ i, p < i → i < t → ¬ (Starts C cls i ∨ (i ∈ C ∧ stopAt i = true)) := by
    intro i hpi hit hor
    have hi : i ∈ C := hor.elim Starts.cell And.left
    rcases lt_or_ge i r with hir | hri
    · obtain ⟨hne, j, hj, heq⟩ := hbefore i hi hpi hir
      rcases hor with hstart | ⟨-, hat⟩
      · exact hstart.fresh j hj heq
      · exact hne (hstop i hi hat)
    · obtain ⟨⟨hzero, hno⟩, -⟩ := hover i hi hri hit
      rcases hor with hstart | ⟨-, hat⟩
      · exact hstart.nonblank hzero
      · rw [hno] at hat
        cases hat
  refine ⟨t, ret, hwalk, ht, ?_, ?_⟩
  · intro hret
    refine ⟨⟨lt_of_lt_of_le hpr hrt, ?_⟩, fun i hi => ?_⟩
    · rcases hend hret with hne | hat
      · refine .inl ⟨ht, hne, fun q hq => ?_⟩
        rcases eq_or_lt_of_le hrt with heq | hlt
        · rw [← heq] at hq hne ⊢
          exact (hfresh q hq).resolve_right hne
        · -- a blank comes before
          obtain ⟨j, hj, hrj⟩ := hback t ht hlt (le_refl t)
          rw [hq.unique hj]
          rw [((hover j hj.1.2 hrj hj.1.1).1).1]
          exact fun heq => hne heq.symm
      · exact .inr ⟨ht, by simpa using hat⟩
    · by_contra hlt
      exact hpassed i hi.1 (not_le.mp hlt) hi.2
  · intro hret
    obtain ⟨⟨hzero, hno⟩, hnone⟩ := hedge hret
    refine ⟨hnone, fun i hpi hor => ?_⟩
    have hi : i ∈ C := hor.elim Starts.cell And.left
    rcases lt_trichotomy i t with hlt | heq | hgt
    · exact hpassed i hpi hlt hor
    · rw [heq] at hor
      rcases hor with hstart | ⟨-, hat⟩
      · exact hstart.nonblank hzero
      · rw [hno] at hat
        cases hat
    · obtain ⟨hzero', hno'⟩ := h.none ht hnone i hi hgt
      rcases hor with hstart | ⟨-, hat⟩
      · exact hstart.nonblank hzero'
      · rw [hno'] at hat
        cases hat

/-- The next start or stop after `p`, or where the steps end when there is none. -/
theorem seek_spec {fuel : Nat} {p : α} (hp : p ∈ C) (hfuel : μ p ≤ fuel)
    (hstop : ∀ i ∈ C, stopAt i = true → cls i = 0) :
    ∃ t ret, seek step cls stopAt fuel p = some (t, ret) ∧ t ∈ C ∧
      (ret = false → IsLeast {i | p < i ∧ (Starts C cls i ∨ (i ∈ C ∧ stopAt i = true))} t) ∧
      (ret = true → step t = none ∧ ∀ i, p < i → ¬ (Starts C cls i ∨ (i ∈ C ∧ stopAt i = true))) := by
  unfold seek
  cases hstep : step p with
  | none =>
    refine ⟨p, true, rfl, hp, fun hr => (by cases hr), fun _ => ⟨hstep, fun i hpi hor => ?_⟩⟩
    have hi : i ∈ C := hor.elim Starts.cell And.left
    obtain ⟨hzero, hno⟩ := h.none hp hstep i hi hpi
    rcases hor with hstart | ⟨-, hat⟩
    · exact hstart.nonblank hzero
    · rw [hno] at hat
      cases hat
  | some m =>
    obtain ⟨q, stop⟩ := m
    obtain ⟨rfl, hnext, hμ⟩ := h.some hp hstep
    have hprev := hnext.prev hp
    dsimp only
    by_cases hzero : cls p = 0
    · rw [if_pos hzero]
      refine blanks_spec h hnext.1.2 hnext.1.1 (show μ q < fuel by omega) hstop (fun i hi hpi hiq => ?_) fun j hj => ?_
      · exact absurd (hnext.2 ⟨hpi, hi⟩) (not_le.mpr hiq)
      · rw [hj.unique hprev, hzero]
        by_cases hq : cls q = 0
        · exact .inr hq
        · exact .inl fun heq => hq heq.symm
    · rw [if_neg hzero]
      obtain ⟨r, ret, hwalk, ⟨hr, hqr, hμr⟩, hover, hback, hend, hedge⟩ :=
        walk_spec h (fun k => cls k == cls p) hnext.1.2 (show μ q < fuel by omega)
      simp only [beq_iff_eq, beq_eq_false_iff_ne, ne_eq] at hover hend hedge
      -- the cell before one of the run is of the run, or `p`
      have hrun : ∀ i ∈ C, p < i → i ≤ r → ∃ j, Prev C i j ∧ cls j = cls p := by
        intro i hi hpi hir
        rcases eq_or_lt_of_le (hnext.2 ⟨hpi, hi⟩) with heq | hlt
        · rw [← heq]
          exact ⟨p, hprev, rfl⟩
        · obtain ⟨j, hj, hqj⟩ := hback i hi hlt hir
          exact ⟨j, hj, (hover j hj.1.2 hqj (lt_of_lt_of_le hj.1.1 hir)).1⟩
      have hbefore : ∀ i ∈ C, p < i → i < r → cls i = cls p := by
        intro i hi hpi hir
        exact (hover i hi (hnext.2 ⟨hpi, hi⟩) hir).1
      rw [hwalk]
      cases ret with
      | true =>
        obtain ⟨hsame, hnone⟩ := hedge rfl
        refine ⟨r, true, rfl, hr, fun hf => (by cases hf), fun _ => ⟨hnone, fun i hpi hor => ?_⟩⟩
        have hi : i ∈ C := hor.elim Starts.cell And.left
        have hcls : i ≤ r → cls i = cls p := fun hir => by
          rcases eq_or_lt_of_le hir with heq | hlt
          · rw [heq, hsame]
          · exact hbefore i hi hpi hlt
        rcases lt_or_ge r i with hgt | hir
        · obtain ⟨hzero', hno⟩ := h.none hr hnone i hi hgt
          rcases hor with hstart | ⟨-, hat⟩
          · exact hstart.nonblank hzero'
          · rw [hno] at hat
            cases hat
        · rcases hor with hstart | ⟨-, hat⟩
          · obtain ⟨j, hj, hj'⟩ := hrun i hi hpi hir
            exact hstart.fresh j hj (by rw [hj', hcls hir])
          · exact hzero (by rw [← hcls hir, hstop i hi hat])
      | false =>
        refine blanks_spec h hr (lt_of_lt_of_le hnext.1.1 hqr) (show μ r < fuel by omega) hstop (fun i hi hpi hir => ?_)
          fun j hj => .inl ?_
        · obtain ⟨j, hj, hj'⟩ := hrun i hi hpi (le_of_lt hir)
          rw [hbefore i hi hpi hir]
          exact ⟨hzero, j, hj, hj'⟩
        · obtain ⟨j', hj', hcls⟩ := hrun r hr (lt_of_lt_of_le hnext.1.1 hqr) (le_refl r)
          rw [hj.unique hj', hcls]
          exact fun heq => hend rfl heq.symm

/-- Over the run of `p`: it ends at the cell before the one reached, or where the steps do. -/
theorem run_spec {fuel : Nat} {p : α} (hp : p ∈ C) (hfuel : μ p < fuel) (hnonblank : cls p ≠ 0) :
    ∃ r ret l, walk step (fun k => cls k == cls p) fuel p = some (r, ret) ∧ r ∈ C ∧
      IsLeast {i | p ≤ i ∧ Ends C cls i} l ∧ (∀ i ∈ C, p ≤ i → i ≤ l → cls i = cls p) ∧
      (ret = false → Next C l r) ∧ (ret = true → r = l ∧ step r = none) := by
  obtain ⟨r, ret, hwalk, ⟨hr, hpr, -⟩, hover, hback, hend, hedge⟩ :=
    walk_spec h (fun k => cls k == cls p) hp hfuel
  simp only [beq_iff_eq, beq_eq_false_iff_ne, ne_eq] at hover hend hedge
  -- before a cell of the run no word ends: the next cell is of the run too
  have hleast : ∀ l ∈ C, p ≤ l → l ≤ r → cls l = cls p → (∀ q, Next C l q → cls q ≠ cls l) →
      IsLeast {i | p ≤ i ∧ Ends C cls i} l := by
    intro l hl hpl hlr hsame hlast
    refine ⟨⟨hpl, hl, by rw [hsame]; exact hnonblank, hlast⟩, fun i hi => ?_⟩
    obtain ⟨hpi, hends⟩ := hi
    by_contra hlt
    have hil := not_le.mp hlt
    obtain ⟨hcls, j, hj, -⟩ := hover i hends.cell hpi (lt_of_lt_of_le hil hlr)
    refine hends.last j hj ?_
    rw [hcls]
    rcases eq_or_lt_of_le (hj.2 ⟨hil, hl⟩) with heq | hjl
    · rw [heq, hsame]
    · exact (hover j hj.1.2 (le_trans hpi (le_of_lt hj.1.1)) (lt_of_lt_of_le hjl hlr)).1
  have hcells : ∀ l, l ≤ r → cls l = cls p → ∀ i ∈ C, p ≤ i → i ≤ l → cls i = cls p := by
    intro l hlr hsame i hi hpi hil
    rcases eq_or_lt_of_le hil with heq | hlt
    · rw [heq, hsame]
    · exact (hover i hi hpi (lt_of_lt_of_le hlt hlr)).1
  cases ret with
  | true =>
    obtain ⟨hsame, hnone⟩ := hedge rfl
    refine ⟨r, true, r, hwalk, hr, hleast r hr hpr (le_refl r) hsame fun q hq => ?_,
      hcells r (le_refl r) hsame, fun hf => (by cases hf), fun _ => ⟨rfl, hnone⟩⟩
    rw [(h.none hr hnone q hq.1.2 hq.1.1).1, hsame]
    exact fun heq => hnonblank heq.symm
  | false =>
    have hne := hend rfl
    have hlt : p < r := lt_of_le_of_ne hpr fun heq => hne (by rw [heq])
    obtain ⟨l, hl, hpl⟩ := hback r hr hlt (le_refl r)
    have hsame := (hover l hl.1.2 hpl hl.1.1).1
    have hnext := hl.next hr
    refine ⟨r, false, l, hwalk, hr, hleast l hl.1.2 hpl (le_of_lt hl.1.1) hsame fun q hq => ?_,
      hcells l (le_of_lt hl.1.1) hsame, fun _ => hnext, fun hf => by cases hf⟩
    rw [hq.unique hnext, hsame]
    exact hne

/-- Over blanks that are no stops, from the cell after `p`, to a run or a stop. -/
theorem skip_spec {fuel : Nat} {p q : α} (hq : Next C p q) (hfuel : μ q < fuel)
    (hstop : ∀ i ∈ C, stopAt i = true → cls i = 0) :
    ∃ r ret, walk step (fun k => cls k == 0 && !stopAt k) fuel q = some (r, ret) ∧ (r ∈ C ∧ p < r ∧ μ r ≤ μ q) ∧
      (∀ i, p < i → i < r → ¬ (Ends C cls i ∨ (i ∈ C ∧ stopAt i = true))) ∧
      (ret = true → step r = none ∧ ∀ i, p < i → ¬ (Ends C cls i ∨ (i ∈ C ∧ stopAt i = true))) ∧
      (ret = false → cls r = 0 → stopAt r = true) ∧ (ret = false → cls r ≠ 0 → stopAt r = false) := by
  obtain ⟨r, ret, hwalk, ⟨hr, hqr, hμ⟩, hover, -, hend, hedge⟩ :=
    walk_spec h (fun k => cls k == 0 && !stopAt k) hq.1.2 hfuel
  simp only [Bool.and_eq_true, beq_iff_eq, Bool.not_eq_true', Bool.and_eq_false_iff,
    beq_eq_false_iff_ne, ne_eq] at hover hend hedge
  have hnot : ∀ i, cls i = 0 ∧ stopAt i = false → ¬ (Ends C cls i ∨ (i ∈ C ∧ stopAt i = true)) := by
    rintro i ⟨hzero, hno⟩ (hends | ⟨-, hat⟩)
    · exact hends.nonblank hzero
    · rw [hno] at hat
      cases hat
  have hpassed : ∀ i, p < i → i < r → ¬ (Ends C cls i ∨ (i ∈ C ∧ stopAt i = true)) := by
    intro i hpi hir hor
    have hi : i ∈ C := hor.elim Ends.cell And.left
    exact hnot i (hover i hi (hq.2 ⟨hpi, hi⟩) hir).1 hor
  refine ⟨r, ret, hwalk, ⟨hr, lt_of_lt_of_le hq.1.1 hqr, hμ⟩, hpassed, ?_, ?_, ?_⟩
  · intro hret
    obtain ⟨hblank, hnone⟩ := hedge hret
    refine ⟨hnone, fun i hpi hor => ?_⟩
    have hi : i ∈ C := hor.elim Ends.cell And.left
    rcases lt_trichotomy i r with hlt | heq | hgt
    · exact hpassed i hpi hlt hor
    · rw [heq] at hor
      exact hnot r hblank hor
    · exact hnot i (h.none hr hnone i hi hgt) hor
  · intro hret hzero
    exact (hend hret).elim (fun hne => absurd hzero hne) fun hat => by simpa using hat
  · intro _ hne
    by_contra hat
    exact hne (hstop r hr (by simpa using hat))

end

/-! ## Backward -/

section
variable {α : Type*} [LinearOrder α] {C : Set α} {cls : α → Nat} {stopAt : α → Bool}
  {step : α → Option (α × Bool)} {μ : α → Nat}

structure SteppingBack (C : Set α) (cls : α → Nat) (stopAt : α → Bool)
    (step : α → Option (α × Bool)) (μ : α → Nat) : Prop where
  some {p q : α} {stop : Bool} : p ∈ C → step p = some (q, stop) →
    stop = false ∧ Prev C p q ∧ μ q < μ p
  none {p : α} : p ∈ C → step p = none → ∀ i ∈ C, i < p → cls i = 0 ∧ stopAt i = false

theorem SteppingBack.dual (h : SteppingBack C cls stopAt step μ) :
    @Stepping αᵒᵈ _ C cls stopAt step μ := ⟨h.some, h.none⟩

variable (h : SteppingBack C cls stopAt step μ)
include h

theorem seek_spec_back {fuel : Nat} {p : α} (hp : p ∈ C) (hfuel : μ p ≤ fuel)
    (hstop : ∀ i ∈ C, stopAt i = true → cls i = 0) :
    ∃ t ret, seek step cls stopAt fuel p = some (t, ret) ∧ t ∈ C ∧
      (ret = false → IsGreatest {i | i < p ∧ (Ends C cls i ∨ (i ∈ C ∧ stopAt i = true))} t) ∧
      (ret = true → step t = none ∧ ∀ i, i < p → ¬ (Ends C cls i ∨ (i ∈ C ∧ stopAt i = true))) := by
  obtain ⟨t, ret, hseek, ht, hfound, hnone⟩ := @seek_spec αᵒᵈ _ C cls stopAt step μ h.dual fuel p hp
    hfuel hstop
  refine ⟨t, ret, hseek, ht, fun hr => ?_, fun hr => ?_⟩
  · obtain ⟨⟨hlt, hat⟩, hmin⟩ := hfound hr
    exact ⟨⟨hlt, hat.imp_left (starts_dual C cls t).mp⟩, fun i hi =>
      hmin ⟨hi.1, hi.2.imp_left (starts_dual C cls i).mpr⟩⟩
  · obtain ⟨hstep, hno⟩ := hnone hr
    exact ⟨hstep, fun i hi hor => hno i hi (hor.imp_left (starts_dual C cls i).mpr)⟩

theorem run_spec_back {fuel : Nat} {p : α} (hp : p ∈ C) (hfuel : μ p < fuel) (hnonblank : cls p ≠ 0) :
    ∃ r ret l, walk step (fun k => cls k == cls p) fuel p = some (r, ret) ∧ r ∈ C ∧
      IsGreatest {i | i ≤ p ∧ Starts C cls i} l ∧ (∀ i ∈ C, i ≤ p → l ≤ i → cls i = cls p) ∧
      (ret = false → Prev C l r) ∧ (ret = true → r = l ∧ step r = none) := by
  obtain ⟨r, ret, l, hwalk, hr, hleast, hcells, hnext, hedge⟩ :=
    @run_spec αᵒᵈ _ C cls stopAt step μ h.dual fuel p hp hfuel hnonblank
  exact ⟨r, ret, l, hwalk, hr, ⟨⟨hleast.1.1, (ends_dual C cls l).mp hleast.1.2⟩, fun i hi =>
    hleast.2 ⟨hi.1, (ends_dual C cls i).mpr hi.2⟩⟩, hcells, hnext, hedge⟩

theorem skip_spec_back {fuel : Nat} {p q : α} (hq : Prev C p q) (hfuel : μ q < fuel)
    (hstop : ∀ i ∈ C, stopAt i = true → cls i = 0) :
    ∃ r ret, walk step (fun k => cls k == 0 && !stopAt k) fuel q = some (r, ret) ∧
      (r ∈ C ∧ r < p ∧ μ r ≤ μ q) ∧
      (∀ i, i < p → r < i → ¬ (Starts C cls i ∨ (i ∈ C ∧ stopAt i = true))) ∧
      (ret = true → step r = none ∧ ∀ i, i < p → ¬ (Starts C cls i ∨ (i ∈ C ∧ stopAt i = true))) ∧
      (ret = false → cls r = 0 → stopAt r = true) ∧ (ret = false → cls r ≠ 0 → stopAt r = false) := by
  obtain ⟨r, ret, hwalk, hr, hpassed, hnone, hzero, hne⟩ :=
    @skip_spec αᵒᵈ _ C cls stopAt step μ h.dual fuel p q hq hfuel hstop
  refine ⟨r, ret, hwalk, hr, fun i hi hri hor => ?_, fun hret => ?_, hzero, hne⟩
  · exact hpassed i hi hri (hor.imp_left (ends_dual C cls i).mpr)
  · obtain ⟨hstep, hno⟩ := hnone hret
    exact ⟨hstep, fun i hi hor => hno i hi (hor.imp_left (ends_dual C cls i).mpr)⟩

end

end Ruse.Lib
