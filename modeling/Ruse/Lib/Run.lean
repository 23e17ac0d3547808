import Mathlib.Data.List.Basic

/-!
# Runs of a deterministic machine

A machine is a step function from a state and an operation to the next state.
`run` folds it over a list of operations, and `moment` is the state a run passed
through after its first `i` operations. Two rules carry a property of one step
over a whole run: `run_invariant` for a predicate, `run_rel` for a reflexive and
transitive relation between the states of two moments.
-/

namespace Ruse.Lib

variable {σ : Type*} {ι : Type*} (step : σ → ι → σ)

/-- The state after the operations `ops`. -/
def run (s : σ) (ops : List ι) : σ := ops.foldl step s

@[simp] theorem run_nil (s : σ) : run step s [] = s := rfl

@[simp] theorem run_cons (s : σ) (op : ι) (ops : List ι) :
    run step s (op :: ops) = run step (step s op) ops := rfl

theorem run_append (s : σ) (ops ops' : List ι) :
    run step s (ops ++ ops') = run step (run step s ops) ops' :=
  List.foldl_append

/-- The state at moment `i` of a run: after its first `i` operations. -/
def moment (s : σ) (ops : List ι) (i : Nat) : σ := run step s (ops.take i)

theorem moment_of_length_le (s : σ) {ops : List ι} {i : Nat} (hi : ops.length ≤ i) :
    moment step s ops i = run step s ops := by
  rw [moment, List.take_of_length_le hi]

theorem moment_later (s : σ) (ops : List ι) {i j : Nat} (hij : i ≤ j) :
    ∃ rest, moment step s ops j = run step (moment step s ops i) rest := by
  have hsplit : ops.take i ++ (ops.take j).drop i = ops.take j := by
    have h := List.take_append_drop i (ops.take j)
    rwa [List.take_take, Nat.min_eq_left hij] at h
  exact ⟨(ops.take j).drop i, by rw [moment, moment, ← run_append, hsplit]⟩

variable {step}

/-- A predicate every step keeps holds after every run. -/
theorem run_invariant {P : σ → Prop} (hstep : ∀ s op, P s → P (step s op))
    {s : σ} (h : P s) (ops : List ι) : P (run step s ops) := by
  induction ops generalizing s with
  | nil => exact h
  | cons op ops ih => exact ih (hstep s op h)

/-- A relation every step from a state in `P` lies in, once it is reflexive and
transitive, relates the ends of every run from such a state. -/
theorem run_rel {P : σ → Prop} {R : σ → σ → Prop}
    (hstep : ∀ s op, P s → P (step s op)) (hrefl : ∀ s, R s s)
    (htrans : ∀ s t u, R s t → R t u → R s u) (hR : ∀ s op, P s → R s (step s op))
    {s : σ} (h : P s) (ops : List ι) : R s (run step s ops) := by
  induction ops generalizing s with
  | nil => exact hrefl s
  | cons op ops ih => exact htrans _ _ _ (hR s op h) (ih (hstep s op h))

end Ruse.Lib
