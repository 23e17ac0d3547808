import Mathlib.Data.List.Basic

/-!
# Programs that call a system

A program is a tree of calls: what it does next depends on the answers. `play` runs it on a
system whose answer to the `n`-th call may depend on `n`, so that one system refuses a call
it grants another time; the run is the value, the state it leaves, and every state it passed
through, in order (`Played`). A program that is stopped was stopped at one of those.

`Ensures P I x Q` is a triple with an invariant: from a state in `P` every state the run passes
through is in `I`, and it ends in `Q`.
-/

namespace Ruse.Lib

/-- A program whose calls `i : ι` are answered in `ρ i`. -/
inductive Prog {ι : Type} (ρ : ι → Type) (α : Type) where
  | done (a : α) : Prog ρ α
  | call (i : ι) (k : ρ i → Prog ρ α) : Prog ρ α

namespace Prog

variable {ι : Type} {ρ : ι → Type} {α β : Type}

/-- First one program, then the one its value picks. -/
def andThen : Prog ρ α → (α → Prog ρ β) → Prog ρ β
  | .done a, f => f a
  | .call i k, f => .call i fun r => (k r).andThen f

instance : Monad (Prog ρ) where
  pure := .done
  bind := .andThen

def ask (i : ι) : Prog ρ (ρ i) := .call i .done

/-- Go on with the value of a program that did not fail. -/
def andOk {ε : Type} (x : Prog ρ (Except ε α)) (f : α → Prog ρ (Except ε β)) :
    Prog ρ (Except ε β) :=
  x >>= fun
    | .ok a => f a
    | .error e => pure (.error e)

end Prog

/-- A run: the calls with the state each left, the last state and the value. -/
structure Played (ι σ α : Type) where
  log : List (ι × σ)
  state : σ
  value : α

section
variable {ι σ : Type} {ρ : ι → Type} {α β : Type}
variable (answer : Nat → (i : ι) → σ → ρ i × σ)

/-- The run of a program that has made `n` calls before. -/
def play : Prog ρ α → Nat → σ → Played ι σ α
  | .done a, _, s => ⟨[], s, a⟩
  | .call i k, n, s =>
    let r := answer n i s
    let rest := play (k r.1) (n + 1) r.2
    { rest with log := (i, r.2) :: rest.log }

@[simp] theorem play_pure (a : α) (n : Nat) (s : σ) :
    play answer (pure a : Prog ρ α) n s = ⟨[], s, a⟩ := rfl

@[simp] theorem play_ask (i : ι) (n : Nat) (s : σ) :
    play answer (Prog.ask i) n s = ⟨[(i, (answer n i s).2)], (answer n i s).2, (answer n i s).1⟩ :=
  rfl

theorem play_bind (x : Prog ρ α) (f : α → Prog ρ β) (n : Nat) (s : σ) :
    play answer (x >>= f) n s =
      let p := play answer x n s
      let q := play answer (f p.value) (n + p.log.length) p.state
      ⟨p.log ++ q.log, q.state, q.value⟩ := by
  induction x generalizing n s with
  | done a => rfl
  | call i k ih =>
    have hrest := ih (answer n i s).1 (n + 1) (answer n i s).2
    have hcall : play answer (Prog.call i k >>= f) n s =
        { play answer (k (answer n i s).1 >>= f) (n + 1) (answer n i s).2 with
          log := (i, (answer n i s).2) ::
            (play answer (k (answer n i s).1 >>= f) (n + 1) (answer n i s).2).log } := rfl
    rw [hcall, hrest]
    simp [play, Nat.add_assoc, Nat.add_comm 1]

theorem play_congr {answer answer' : Nat → (i : ι) → σ → ρ i × σ} {n : Nat}
    (h : ∀ k, n ≤ k → ∀ i s, answer k i s = answer' k i s) (x : Prog ρ α) (s : σ) :
    play answer x n s = play answer' x n s := by
  induction x generalizing n s with
  | done a => rfl
  | call i k ih =>
    have hrest := ih (answer n i s).1 (fun j hj => h j (Nat.le_of_succ_le hj)) (answer n i s).2
    rw [play, play, hrest, h n (Nat.le_refl n)]

theorem state_mem (x : Prog ρ α) (n : Nat) (s : σ) :
    (play answer x n s).state = s ∨
      ∃ m ∈ (play answer x n s).log, m.2 = (play answer x n s).state := by
  induction x generalizing n s with
  | done a => exact .inl rfl
  | call i k ih =>
    rw [play]
    rcases ih (answer n i s).1 (n + 1) (answer n i s).2 with hsame | ⟨m, hm, heq⟩
    · exact .inr ⟨_, List.mem_cons_self, hsame.symm⟩
    · exact .inr ⟨m, List.mem_cons_of_mem _ hm, heq⟩

/-- From `P` the program passes through `I` only and ends in `Q`. -/
def Ensures (P I : σ → Prop) (x : Prog ρ α) (Q : α → σ → Prop) : Prop :=
  ∀ n s, P s → (∀ m ∈ (play answer x n s).log, I m.2) ∧
    Q (play answer x n s).value (play answer x n s).state

/-- From `P` the program passes through a state in `B`. -/
def Visits (P : σ → Prop) (x : Prog ρ α) (B : σ → Prop) : Prop :=
  ∀ n s, P s → ∃ m ∈ (play answer x n s).log, B m.2

/-- The end of a program that may fail: a value in `Q` or an error in `E`. -/
def Ending {ε : Type} (Q : α → σ → Prop) (E : ε → σ → Prop) : Except ε α → σ → Prop
  | .ok a, s => Q a s
  | .error e, s => E e s

end

namespace Ensures

variable {ι σ : Type} {ρ : ι → Type} {α β : Type} {answer : Nat → (i : ι) → σ → ρ i × σ}
variable {P P' I I' : σ → Prop} {x : Prog ρ α} {Q Q' : α → σ → Prop}

theorem pure {a : α} (h : ∀ s, P s → Q a s) : Ensures answer P I (Pure.pure a : Prog ρ α) Q :=
  fun _ s hs => ⟨by simp, h s hs⟩

theorem ask {i : ι} {Q : ρ i → σ → Prop}
    (h : ∀ n s, P s → I (answer n i s).2 ∧ Q (answer n i s).1 (answer n i s).2) :
    Ensures answer P I (Prog.ask i) Q := by
  intro n s hs
  obtain ⟨hi, hq⟩ := h n s hs
  exact ⟨by simpa using hi, hq⟩

theorem bind {f : α → Prog ρ β} {R : β → σ → Prop} (hx : Ensures answer P I x Q)
    (hf : ∀ a, Ensures answer (Q a) I (f a) R) : Ensures answer P I (x >>= f) R := by
  intro n s hs
  obtain ⟨hlog, hq⟩ := hx n s hs
  obtain ⟨hlog', hr⟩ := hf _ (n + (play answer x n s).log.length) _ hq
  rw [play_bind]
  refine ⟨fun m hm => ?_, hr⟩
  rcases List.mem_append.mp hm with hm | hm
  · exact hlog m hm
  · exact hlog' m hm

theorem conseq (h : Ensures answer P I x Q) (hp : ∀ s, P' s → P s) (hi : ∀ s, I s → I' s)
    (hq : ∀ a s, Q a s → Q' a s) : Ensures answer P' I' x Q' := by
  intro n s hs
  obtain ⟨hlog, hend⟩ := h n s (hp s hs)
  exact ⟨fun m hm => hi _ (hlog m hm), hq _ _ hend⟩

theorem pre (h : Ensures answer P I x Q) (hp : ∀ s, P' s → P s) : Ensures answer P' I x Q :=
  h.conseq hp (fun _ hi => hi) fun _ _ hq => hq

theorem post (h : Ensures answer P I x Q) (hq : ∀ a s, Q a s → Q' a s) : Ensures answer P I x Q' :=
  h.conseq (fun _ hp => hp) (fun _ hi => hi) hq

section
variable {ε : Type} {Q : α → σ → Prop} {E : ε → σ → Prop}

theorem ok {a : α} (h : ∀ s, P s → Q a s) :
    Ensures answer P I (Pure.pure (.ok a) : Prog ρ (Except ε α)) (Ending Q E) := .pure h

theorem error {e : ε} (h : ∀ s, P s → E e s) :
    Ensures answer P I (Pure.pure (.error e) : Prog ρ (Except ε α)) (Ending Q E) := .pure h

theorem cases {x : Prog ρ (Except ε α)} {f : Except ε α → Prog ρ β} {R : β → σ → Prop}
    (hx : Ensures answer P I x (Ending Q E)) (hok : ∀ a, Ensures answer (Q a) I (f (.ok a)) R)
    (herror : ∀ e, Ensures answer (E e) I (f (.error e)) R) : Ensures answer P I (x >>= f) R := by
  refine hx.bind fun r => ?_
  cases r with
  | ok a => exact hok a
  | error e => exact herror e

theorem andOk {x : Prog ρ (Except ε α)} {f : α → Prog ρ (Except ε β)} {R : β → σ → Prop}
    (hx : Ensures answer P I x (Ending Q E))
    (hf : ∀ a, Ensures answer (Q a) I (f a) (Ending R E)) :
    Ensures answer P I (x.andOk f) (Ending R E) :=
  hx.cases hf fun _ => .error fun _ hs => hs

theorem ending {x : Prog ρ (Except ε α)} {Q' : α → σ → Prop} {E' : ε → σ → Prop}
    (h : Ensures answer P I x (Ending Q E)) (hq : ∀ a s, Q a s → Q' a s)
    (he : ∀ e s, E e s → E' e s) : Ensures answer P I x (Ending Q' E') := by
  refine h.post fun r s hs => ?_
  cases r with
  | ok a => exact hq a s hs
  | error e => exact he e s hs

end

theorem lift {φ : Prop} (h : φ → Ensures answer P I x Q) : Ensures answer (fun s => φ ∧ P s) I x Q :=
  fun n s hs => h hs.1 n s hs.2

end Ensures

namespace Visits

variable {ι σ : Type} {ρ : ι → Type} {α β : Type} {answer : Nat → (i : ι) → σ → ρ i × σ}
variable {P I B : σ → Prop} {x : Prog ρ α} {f : α → Prog ρ β} {Q : α → σ → Prop}

/-- A program that ends in another state than it began in has passed through that one. -/
theorem of_end (h : Ensures answer P I x fun _ s => B s) (hp : ∀ s, P s → ¬ B s) :
    Visits answer P x B := by
  intro n s hs
  have hend := (h n s hs).2
  rcases state_mem answer x n s with hsame | ⟨m, hm, heq⟩
  · exact absurd (hsame ▸ hend) (hp s hs)
  · exact ⟨m, hm, heq ▸ hend⟩

theorem first (h : Visits answer P x B) : Visits answer P (x >>= f) B := by
  intro n s hs
  obtain ⟨m, hm, hb⟩ := h n s hs
  rw [play_bind]
  exact ⟨m, List.mem_append_left _ hm, hb⟩

theorem later (hx : Ensures answer P I x Q) (hf : ∀ a, Visits answer (Q a) (f a) B) :
    Visits answer P (x >>= f) B := by
  intro n s hs
  obtain ⟨m, hm, hb⟩ := hf _ (n + (play answer x n s).log.length) _ (hx n s hs).2
  rw [play_bind]
  exact ⟨m, List.mem_append_right _ hm, hb⟩

theorem lift {φ : Prop} (h : φ → Visits answer P x B) : Visits answer (fun s => φ ∧ P s) x B :=
  fun n s hs => h hs.1 n s hs.2

end Visits

end Ruse.Lib
