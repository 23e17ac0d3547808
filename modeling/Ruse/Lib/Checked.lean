import Mathlib.Algebra.Group.Nat.Defs
import Mathlib.Data.List.Range

/-!
# Programs that may fault

A program with run-time checks, of array indices and of machine arithmetic, is an `Option`:
`none` is the fault. `Yields x Q` says that a program does not fault and that what it
computes satisfies `Q`, with a rule for one program after another (`Yields.bind`) and the two
loops of imperative code: up over a range (`yields_upTo`) and down to a bound
(`yields_downWhile`), each with an invariant that speaks of the counter.
-/

namespace Ruse.Lib

universe u

variable {α β σ : Type u} {x : Option α} {f : α → Option β} {Q : α → Prop} {R : β → Prop}

/-- The program does not fault, and what it computes satisfies `Q`. -/
def Yields (x : Option α) (Q : α → Prop) : Prop := ∃ a, x = some a ∧ Q a

namespace Yields

@[simp] theorem some_iff {a : α} : Yields (some a) Q ↔ Q a := by
  simp [Yields]

theorem bind (hx : Yields x Q) (hf : ∀ a, Q a → Yields (f a) R) : Yields (x >>= f) R := by
  obtain ⟨a, rfl, ha⟩ := hx
  exact hf a ha

theorem mono {Q' : α → Prop} (hx : Yields x Q) (hQ : ∀ a, Q a → Q' a) : Yields x Q' := by
  obtain ⟨a, rfl, ha⟩ := hx
  exact ⟨a, rfl, hQ a ha⟩

end Yields

/-! ## Machine arithmetic -/

/-- A number as a word of 16 bits, a fault when it does not fit. -/
def word16 (n : Nat) : Option Nat := if n < 2 ^ 16 then some n else none

/-- A difference, a fault when it is negative. -/
def less (a b : Nat) : Option Nat := if b ≤ a then some (a - b) else none

theorem word16_eq {n : Nat} (h : n < 65536) : word16 n = some n := by
  simp [word16, h]

theorem word16_over {n : Nat} (h : ¬ n < 65536) : word16 n = none := by
  simp [word16, h]

theorem less_eq {a b : Nat} (h : b ≤ a) : less a b = some (a - b) := by
  simp [less, h]

/-! ## Loops -/

/-- `body` for each of `a`, `a + 1`, … below `b`. -/
def upTo (a b : Nat) (body : Nat → σ → Option σ) (s : σ) : Option σ :=
  (List.range' a (b - a)).foldlM (fun s k => body k s) s

/-- `body` for each of `k`, `k - 1`, … that is not below `bound`, the counter a word that may
not go below 0. -/
def downWhile (bound : Nat) (body : Nat → σ → Option σ) : Nat → σ → Option σ
  | 0, s => if bound = 0 then none else some s
  | k + 1, s => if bound ≤ k + 1 then body (k + 1) s >>= downWhile bound body k else some s

variable {body : Nat → σ → Option σ} {I : Nat → σ → Prop} {s : σ} {a b : Nat}

theorem yields_upTo (hab : a ≤ b) (h : I a s)
    (hstep : ∀ k s, a ≤ k → k < b → I k s → Yields (body k s) (I (k + 1))) :
    Yields (upTo a b body s) (I b) := by
  obtain ⟨n, rfl⟩ := Nat.exists_eq_add_of_le hab
  clear hab
  rw [upTo, Nat.add_sub_cancel_left]
  induction n generalizing a s with
  | zero => simpa using h
  | succ n ih =>
    rw [List.range'_succ, List.foldlM_cons]
    refine (hstep a s le_rfl (by omega) h).bind fun s' hs' => ?_
    rw [← Nat.add_assoc, Nat.add_right_comm]
    exact ih hs' fun k s hk hkb hI => hstep k s (by omega) (by omega) hI

@[simp] theorem upTo_one : upTo 0 1 body s = body 0 s := by
  simp [upTo]

theorem yields_upTo_const {J : σ → Prop} (h : J s)
    (hstep : ∀ k s, J s → Yields (body k s) J) : Yields (upTo a b body s) J := by
  by_cases hab : a ≤ b
  · exact yields_upTo (I := fun _ => J) hab h fun k s _ _ => hstep k s
  · rw [upTo, Nat.sub_eq_zero_of_le (by omega)]
    exact ⟨s, rfl, h⟩

theorem yields_downWhile {bound k : Nat} (hbound : 0 < bound) (hk : bound ≤ k + 1) (h : I k s)
    (hstep : ∀ i s, bound ≤ i + 1 → i < k → I (i + 1) s → Yields (body (i + 1) s) (I i)) :
    Yields (downWhile bound body k s) (I (bound - 1)) := by
  induction k generalizing s with
  | zero =>
    have : bound = 1 := by omega
    subst this
    exact ⟨s, rfl, h⟩
  | succ k ih =>
    rw [downWhile]
    split
    · rename_i hle
      refine (hstep k s hle (Nat.lt_succ_self k) h).bind fun s' hs' => ?_
      exact ih hle hs' fun i s hi hik hI => hstep i s hi (by omega) hI
    · have : bound - 1 = k + 1 := by omega
      rw [this]
      exact ⟨s, rfl, h⟩

/-! ## Loops and a change of state they do not see -/

variable {φ : σ → σ}

end Ruse.Lib
