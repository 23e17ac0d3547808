import Mathlib.Data.List.Basic

/-!
# Loops with fuel

A loop that may fail: a step function into `Option`, and a test that ends it. `loop` runs
it with fuel; `Through` relates the states that one run passes.

* `loop_ends` — an invariant and a decreasing measure: the loop ends, in a state it
  passes through, and keeps the invariant;
* `Through.keeps` — an invariant of the steps holds of every state passed;
* `Through.ahead` — a state passed is passed on the way to where the loop ends;
* `untilBreak_ends` — the loop whose body says when it breaks;
* `mapM_some` — the loop over a list.
-/

namespace Ruse.Lib

variable {σ : Type*} (stops : σ → Bool) (step : σ → Option σ)

/-- Step until the test holds; `none` is a failed step, or a loop still going on. -/
def loop : Nat → σ → Option σ
  | 0, _ => none
  | fuel + 1, s => if stops s then some s else (step s).bind (loop fuel)

/-- The loop comes from the first state to the second. -/
inductive Through : σ → σ → Prop
  | refl (s : σ) : Through s s
  | step {s t u : σ} : stops s = false → step s = some t → Through t u → Through s u

variable {stops step}

namespace Through

theorem trans {s t u : σ} (h : Through stops step s t) (h' : Through stops step t u) :
    Through stops step s u := by
  induction h with
  | refl _ => exact h'
  | step hs ht _ ih => exact .step hs ht (ih h')

/-- A predicate every step keeps holds of every state passed. -/
theorem keeps {P : σ → Prop} (hstep : ∀ s t, P s → stops s = false → step s = some t → P t)
    {s u : σ} (h : Through stops step s u) (hs : P s) : P u := by
  induction h with
  | refl _ => exact hs
  | step hgo ht _ ih => exact ih (hstep _ _ hs hgo ht)

/-- The loop goes one way: what it passes comes before where it ends. -/
theorem ahead {s t u : σ} (h : Through stops step s t) (h' : Through stops step s u)
    (hu : stops u = true) : Through stops step t u := by
  induction h with
  | refl _ => exact h'
  | step hgo ht _ ih =>
    cases h' with
    | refl _ =>
      rw [hgo] at hu
      cases hu
    | step _ ht' hrest =>
      rw [ht] at ht'
      cases ht'
      exact ih hrest

end Through

/-- A loop whose steps keep an invariant and make a measure smaller ends. -/
theorem loop_ends {I : σ → Prop} {μ : σ → Nat}
    (hstep : ∀ s, I s → stops s = false → ∃ t, step s = some t ∧ I t ∧ μ t < μ s)
    {s : σ} (h : I s) {fuel : Nat} (hfuel : μ s < fuel) :
    ∃ t, loop stops step fuel s = some t ∧ Through stops step s t ∧ stops t = true ∧ I t := by
  induction fuel generalizing s with
  | zero => exact absurd hfuel (Nat.not_lt_zero _)
  | succ fuel ih =>
    unfold loop
    cases hgo : stops s with
    | true => exact ⟨s, rfl, .refl s, hgo, h⟩
    | false =>
      obtain ⟨t, ht, hI, hlt⟩ := hstep s h hgo
      obtain ⟨u, hu, hthrough, hend, hIu⟩ := ih hI (by omega)
      exact ⟨u, by simpa [ht] using hu, .step hgo ht hthrough, hend, hIu⟩

def untilBreak {α : Type*} (body : α → Option (α × Bool)) (fuel : Nat) (a : α) : Option α :=
  (loop Prod.snd (fun s => body s.1) fuel (a, false)).map Prod.fst

/-- A body that keeps an invariant and makes a measure smaller, or breaks, gets to its
break. -/
theorem untilBreak_ends {α : Type*} {body : α → Option (α × Bool)} {I J : α → Prop} {μ : α → Nat}
    (hbody : ∀ a, I a → ∃ a' brk, body a = some (a', brk) ∧ (brk = true → J a') ∧
      (brk = false → I a' ∧ μ a' < μ a))
    {a : α} (h : I a) {fuel : Nat} (hfuel : μ a + 1 < fuel) :
    ∃ a', untilBreak body fuel a = some a' ∧ J a' := by
  have hloop : ∃ t, loop Prod.snd (fun s : α × Bool => body s.1) fuel (a, false) = some t ∧ _ :=
    loop_ends (I := fun s => (s.2 = true → J s.1) ∧ (s.2 = false → I s.1))
      (μ := fun s => if s.2 then 0 else μ s.1 + 1) ?_ ⟨fun hb => (by cases hb), fun _ => h⟩ hfuel
  · obtain ⟨t, ht, -, hend, hI⟩ := hloop
    exact ⟨t.1, by rw [untilBreak, ht, Option.map_some], hI.1 hend⟩
  · intro s hs hgo
    obtain ⟨a', brk, ha', hJ, hI⟩ := hbody s.1 (hs.2 hgo)
    refine ⟨(a', brk), ha', ⟨hJ, fun hb => (hI hb).1⟩, ?_⟩
    cases brk with
    | true => simp [hgo]
    | false => simpa [hgo] using (hI rfl).2

theorem untilBreak_once {α : Type*} {body : α → Option (α × Bool)} {a a' : α} (h : body a = some (a', true))
    {fuel : Nat} (hfuel : 1 < fuel) : untilBreak body fuel a = some a' := by
  obtain ⟨fuel, rfl⟩ : ∃ n, fuel = n + 2 := ⟨fuel - 2, by omega⟩
  simp [untilBreak, loop, h]

/-- A pass over a list fails nowhere when no element does. -/
theorem mapM_some {α β : Type*} {f : α → Option β} {g : α → β} {l : List α}
    (h : ∀ a ∈ l, f a = some (g a)) : l.mapM f = some (l.map g) := by
  induction l with
  | nil => rfl
  | cons a l ih =>
    rw [List.mapM_cons, h a List.mem_cons_self, ih fun x hx => h x (List.mem_cons_of_mem a hx)]
    rfl

/-- A pass over a list fails when one of its elements does, and only then. -/
theorem mapM_isSome {α β : Type*} {f : α → Option β} (l : List α) :
    (l.mapM f).isSome = true ↔ ∀ a ∈ l, (f a).isSome = true := by
  induction l with
  | nil => simp
  | cons a l ih =>
    rw [List.mapM_cons, List.forall_mem_cons, ← ih]
    cases f a with
    | none => simp
    | some b => cases l.mapM f <;> simp

end Ruse.Lib
