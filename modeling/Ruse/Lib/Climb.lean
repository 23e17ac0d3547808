import Mathlib.Data.List.Basic

/-!
# Climbing precedence levels

A climber takes the tokens of an operand off the front of a list and answers the
operand's value, or an error; it evaluates while it reads. A precedence level is
built from the level that binds tighter.

* `chain`, `level` — operands of the next level with the level's operators between
  them, taken from the left;
* `prefixed` — signs before an operand, the innermost first.

A climber that `Consumes` takes at least one token, so a chain of such operands
ends: `chain_op` and `chain_stop` are its two steps.
-/

namespace Ruse.Lib

variable {ε τ α : Type}

abbrev Climber (ε τ α : Type) := List τ → Except ε (α × List τ)

namespace Climber

/-- The climber takes a token or stops with an error. -/
def Consumes (p : Climber ε τ α) : Prop :=
  ∀ ts v rest, p ts = .ok (v, rest) → rest.length < ts.length

/-- The operators of a level from `left` on, each with an operand of the next level. -/
def chain (op : τ → Option (α → α → Except ε α)) (next : Climber ε τ α) (left : α) (ts : List τ) :
    Except ε (α × List τ) :=
  match ts with
  | [] => .ok (left, [])
  | t :: rest =>
    match op t with
    | none => .ok (left, t :: rest)
    | some f =>
      match next rest with
      | .error e => .error e
      | .ok (right, rest') =>
        match f left right with
        | .error e => .error e
        | .ok left' =>
          -- an operand takes a token, so the chain always goes on
          if _h : rest'.length < (t :: rest).length then chain op next left' rest'
          else .ok (left', rest')
termination_by ts.length
decreasing_by exact _h

/-- The operands of `next` and the operators between them. -/
def level (op : τ → Option (α → α → Except ε α)) (next : Climber ε τ α) : Climber ε τ α :=
  fun ts => next ts >>= fun r => chain op next r.1 r.2

/-- Signs, then an operand; the signs apply innermost first. -/
def prefixed (sign : τ → Option (α → Except ε α)) (next : Climber ε τ α) : Climber ε τ α :=
  fun ts => do
    let r ← next (ts.dropWhile fun t => (sign t).isSome)
    let v ← ((ts.takeWhile fun t => (sign t).isSome).filterMap sign).reverse.foldlM
      (fun v f => f v) r.1
    .ok (v, r.2)

theorem bind_eq_ok {β γ : Type} {x : Except ε β} {f : β → Except ε γ} {c : γ}
    (h : x >>= f = .ok c) : ∃ b, x = .ok b ∧ f b = .ok c := by
  cases x with
  | error e => cases h
  | ok b => exact ⟨b, rfl, h⟩

section
variable {op : τ → Option (α → α → Except ε α)} {sign : τ → Option (α → Except ε α)}
  {next : Climber ε τ α}

/-- The chain stops at a token that is no operator of the level. -/
theorem chain_stop {v : α} {ts : List τ} (h : ∀ t ∈ ts.head?, op t = none) :
    chain op next v ts = .ok (v, ts) := by
  unfold chain
  cases ts with
  | nil => rfl
  | cons t rest =>
    dsimp only
    rw [h t rfl]

/-- An operator takes the operand after it, and the chain goes on. -/
theorem chain_op (hnext : Consumes next) {v : α} {t : τ} {rest : List τ} {f : α → α → Except ε α}
    (h : op t = some f) :
    chain op next v (t :: rest) =
      next rest >>= fun r => f v r.1 >>= fun u => chain op next u r.2 := by
  rw [chain, h]
  cases hr : next rest with
  | error e => rfl
  | ok r =>
    obtain ⟨right, rest'⟩ := r
    have hlt := hnext _ _ _ hr
    dsimp only [bind, Except.bind]
    cases f v right with
    | error e => rfl
    | ok u =>
      dsimp only
      rw [dif_pos (by rw [List.length_cons]; omega)]

/-- A chain of operators takes tokens off the input. -/
theorem chain_le (hnext : Consumes next) {v u : α} {ts rest : List τ}
    (h : chain op next v ts = .ok (u, rest)) : rest.length ≤ ts.length := by
  induction hlen : ts.length using Nat.strongRecOn generalizing v ts with
  | ind n ih =>
    cases ts with
    | nil =>
      rw [chain_stop (by simp)] at h
      cases h
      omega
    | cons t ts =>
      rw [List.length_cons] at hlen
      cases ht : op t with
      | none =>
        rw [chain_stop (by simpa using ht)] at h
        cases h
        rw [List.length_cons]
        omega
      | some f =>
        rw [chain_op hnext ht] at h
        obtain ⟨r, hr, h⟩ := bind_eq_ok h
        obtain ⟨w, -, h⟩ := bind_eq_ok h
        have hlt := hnext _ _ _ hr
        have := ih r.2.length (by omega) h rfl
        omega

theorem level_consumes (hnext : Consumes next) : Consumes (level op next) := by
  intro ts v rest h
  obtain ⟨r, hr, h⟩ := bind_eq_ok h
  have := hnext _ _ _ hr
  have := chain_le hnext h
  omega

/-- A prefix sign is applied to what follows it. -/
theorem prefixed_sign {t : τ} {ts : List τ} {f : α → Except ε α} (h : sign t = some f) :
    prefixed sign next (t :: ts) =
      prefixed sign next ts >>= fun r => f r.1 >>= fun v => .ok (v, r.2) := by
  have hsome : (sign t).isSome = true := by rw [h]; rfl
  have htake : (t :: ts).takeWhile (fun t => (sign t).isSome) =
      t :: ts.takeWhile fun t => (sign t).isSome := List.takeWhile_cons_of_pos hsome
  have hdrop : (t :: ts).dropWhile (fun t => (sign t).isSome) =
      ts.dropWhile fun t => (sign t).isSome := List.dropWhile_cons_of_pos hsome
  unfold prefixed
  rw [htake, hdrop, List.filterMap_cons, h]
  cases next (ts.dropWhile fun t => (sign t).isSome) with
  | error e => rfl
  | ok r =>
    dsimp only [bind, Except.bind]
    rw [List.reverse_cons, List.foldlM_append]
    cases List.foldlM (fun v f => f v) r.1
        (List.filterMap sign (ts.takeWhile fun t => (sign t).isSome)).reverse with
    | error e => rfl
    | ok v =>
      dsimp only [List.foldlM, bind, Except.bind]
      cases f v <;> rfl

theorem prefixed_none {ts : List τ} (h : ∀ t ∈ ts.head?, sign t = none) :
    prefixed sign next ts = next ts := by
  have htake : ts.takeWhile (fun t => (sign t).isSome) = [] := by
    cases ts with
    | nil => rfl
    | cons t ts => exact List.takeWhile_cons_of_neg (by simp [h t rfl])
  have hdrop : ts.dropWhile (fun t => (sign t).isSome) = ts := by
    have := List.takeWhile_append_dropWhile (p := fun t => (sign t).isSome) (l := ts)
    rwa [htake, List.nil_append] at this
  unfold prefixed
  rw [htake, hdrop]
  cases next ts <;> rfl

/-- Prefix signs take tokens off the input. -/
theorem prefixed_consumes (hnext : Consumes next) : Consumes (prefixed sign next) := by
  intro ts v rest h
  induction ts generalizing v with
  | nil =>
    rw [prefixed_none (by simp)] at h
    exact hnext _ _ _ h
  | cons t ts ih =>
    cases ht : sign t with
    | none =>
      rw [prefixed_none (by simpa using ht)] at h
      exact hnext _ _ _ h
    | some f =>
      rw [prefixed_sign ht] at h
      obtain ⟨r, hr, h⟩ := bind_eq_ok h
      obtain ⟨w, -, h⟩ := bind_eq_ok h
      cases h
      have := ih r.1 hr
      rw [List.length_cons]
      omega

end

end Climber

end Ruse.Lib
