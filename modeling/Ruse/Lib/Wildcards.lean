import Mathlib.Data.List.Basic
import Mathlib.Logic.Relation

/-!
# Patterns with runs

A pattern is a list of items that stand for one element each, or for a run of any elements
(`Spells`). `Search` is the search with one remembered run: it tries the items as they come, and where
one fails it lets the last run take one more element. Though it never goes back to an earlier run, it
finds a reading where there is one (`search_iff`): `Saved` says that what was read since the last run
is one element for each item, so a later choice of an earlier run could only be made by this one too.
-/

namespace Ruse.Lib

/-! ## Machines that answer -/

section
variable {σ α : Type} {step : σ → σ ⊕ α}

/-- The answer of a machine whose runs all end. -/
def answerOf (step : σ → σ ⊕ α) (ends : WellFounded fun t s => step s = .inl t) (s : σ) : α :=
  match _h : step s with
  | .inl t => answerOf step ends t
  | .inr a => a
termination_by ends.wrap s

variable {ends : WellFounded fun t s => step s = .inl t} {s t : σ} {a : α}

theorem answerOf_inl (h : step s = .inl t) : answerOf step ends s = answerOf step ends t := by
  rw [answerOf]
  split
  · rename_i t' h'
    rw [h] at h'
    cases h'
    rfl
  · rename_i h'
    rw [h] at h'
    cases h'

theorem answerOf_inr (h : step s = .inr a) : answerOf step ends s = a := by
  rw [answerOf]
  split
  · rename_i h'
    rw [h] at h'
    cases h'
  · rename_i h'
    rw [h] at h'
    cases h'
    rfl

/-- What the answer says is told by the last state, if no step changes it. -/
theorem answerOf_iff {step : σ → σ ⊕ Bool} {ends : WellFounded fun t s => step s = .inl t} {s : σ}
    {I G : σ → Prop} (hs : I s) (hnext : ∀ s t, I s → step s = .inl t → I t ∧ (G s ↔ G t))
    (hlast : ∀ s b, I s → step s = .inr b → (G s ↔ b = true)) : answerOf step ends s = true ↔ G s := by
  induction s using ends.induction with
  | _ s ih =>
    cases h : step s with
    | inl t =>
      obtain ⟨ht, hG⟩ := hnext s t hs h
      rw [answerOf_inl h, hG]
      exact ih t h ht
    | inr b =>
      rw [answerOf_inr h]
      exact (hlast s b hs h).symm

theorem answerOf_eq {τ : Type} {step' : τ → τ ⊕ α} {ends' : WellFounded fun t s => step' s = .inl t}
    {f : σ → τ} {I : σ → Prop} (hs : I s) (hnext : ∀ s t, I s → step s = .inl t → I t ∧ step' (f s) = .inl (f t))
    (hlast : ∀ s a, I s → step s = .inr a → step' (f s) = .inr a) :
    answerOf step ends s = answerOf step' ends' (f s) := by
  induction s using ends.induction with
  | _ s ih =>
    cases h : step s with
    | inl t =>
      obtain ⟨ht, hstep⟩ := hnext s t hs h
      rw [answerOf_inl h, answerOf_inl hstep]
      exact ih t h ht
    | inr b => rw [answerOf_inr h, answerOf_inr (hlast s b hs h)]

end

/-! ## The language -/

/-- An item of a pattern: a run of any elements, or one element of a set. -/
inductive Wild (α : Type) where
  | run
  | one (p : α → Bool)

variable {α : Type}

def Wild.isRun : Wild α → Bool
  | .run => true
  | .one _ => false

/-- The text is read by the items, from left to right. -/
def Spells : List (Wild α) → List α → Prop
  | [], text => text = []
  | .run :: items, text => ∃ front back, text = front ++ back ∧ Spells items back
  | .one p :: items, text => ∃ a back, text = a :: back ∧ p a = true ∧ Spells items back

section
variable {items pre : List (Wild α)} {text : List α} {p : α → Bool} {a : α}

theorem spells_run : Spells (.run :: items) text ↔ ∃ k, k ≤ text.length ∧ Spells items (text.drop k) := by
  rw [Spells]
  constructor
  · rintro ⟨front, back, rfl, h⟩
    exact ⟨front.length, by simp, by rwa [List.drop_left]⟩
  · rintro ⟨k, -, h⟩
    exact ⟨text.take k, text.drop k, (List.take_append_drop k text).symm, h⟩

theorem spells_one : Spells (.one p :: items) (a :: text) ↔ p a = true ∧ Spells items text := by
  rw [Spells]
  constructor
  · rintro ⟨a, back, heq, hp, h⟩
    cases heq
    exact ⟨hp, h⟩
  · rintro ⟨hp, h⟩
    exact ⟨a, text, rfl, hp, h⟩

theorem spells_empty : Spells items [] ↔ items.all Wild.isRun = true := by
  induction items with
  | nil => simp [Spells]
  | cons item items ih =>
    cases item with
    | run =>
      rw [spells_run, List.all_cons, Wild.isRun, Bool.true_and, ← ih]
      simp
    | one p => simp [Spells, Wild.isRun]

theorem spells_run_of_drop {k : Nat} (hk : k ≤ text.length) (h : Spells (.run :: items) (text.drop k)) :
    Spells (.run :: items) text := by
  rw [spells_run] at *
  obtain ⟨j, hj, h⟩ := h
  rw [List.length_drop] at hj
  rw [List.drop_drop] at h
  exact ⟨k + j, by omega, h⟩

theorem spells_of_ones (hpre : ∀ item ∈ pre, item.isRun = false) (h : Spells (pre ++ items) text) :
    pre.length ≤ text.length ∧ Spells items (text.drop pre.length) := by
  induction pre generalizing text with
  | nil => exact ⟨Nat.zero_le _, h⟩
  | cons item pre ih =>
    cases item with
    | run => exact absurd (hpre .run List.mem_cons_self) (by simp [Wild.isRun])
    | one p =>
      obtain ⟨a, back, rfl, -, h⟩ := h
      obtain ⟨hlen, h⟩ := ih (fun item hitem => hpre item (List.mem_cons_of_mem _ hitem)) h
      exact ⟨Nat.succ_le_succ hlen, h⟩

end

/-! ## The search -/

/-- The items and the text left, and the items after the last run with the text it was tried at. -/
structure Search (α : Type) where
  items : List (Wild α)
  text : List α
  star : Option (List (Wild α) × List α)

namespace Search

/-- Where an item fails: the last run takes one more element. -/
def again : Option (List (Wild α) × List α) → Search α ⊕ Bool
  | some (items, text) => .inl ⟨items, text.tail, some (items, text.tail)⟩
  | none => .inr false

def step (s : Search α) : Search α ⊕ Bool :=
  match s.text, s.items with
  | [], items => .inr (items.all Wild.isRun)
  | text, .run :: items => .inl ⟨items, text, some (items, text)⟩
  | a :: text, .one p :: items => if p a then .inl ⟨items, text, s.star⟩ else again s.star
  | _ :: _, [] => again s.star

theorem step_one (p : α → Bool) (items : List (Wild α)) (a : α) (text : List α)
    (star : Option (List (Wild α) × List α)) : step ⟨.one p :: items, a :: text, star⟩ =
      if p a then .inl ⟨items, text, star⟩ else again star := rfl

end Search

/-- How far a search has to go: how far the last run can still be moved, then the pattern left. -/
def searchSize {β : Type} (pattern : Nat) (star : Option (β × List α)) (text : List α) : Nat × Nat :=
  (match star with
    | some (_, tried) => max tried.length text.length
    | none => text.length + 1, pattern)

section
variable {β : Type} {star : Option (β × List α)} {text tried : List α} {a : α} {b : β} {n n' : Nat}

theorem searchSize_run (h : n' < n) :
    Prod.Lex (· < ·) (· < ·) (searchSize n' (some (b, text)) text) (searchSize n star text) := by
  have hle : (searchSize n' (some (b, text)) text).1 ≤ (searchSize n star text).1 := by
    cases star with
    | none => exact Nat.le_succ_of_le (by simp [searchSize])
    | some s => exact Nat.le_trans (Nat.le_of_eq (Nat.max_self text.length)) (Nat.le_max_right _ _)
  rcases Nat.lt_or_eq_of_le hle with hlt | heq
  · exact .left _ _ hlt
  · exact Prod.lex_def.mpr (.inr ⟨heq, h⟩)

theorem searchSize_one (h : n' < n) :
    Prod.Lex (· < ·) (· < ·) (searchSize n' star text) (searchSize n star (a :: text)) := by
  have hle : (searchSize n' star text).1 ≤ (searchSize n star (a :: text)).1 := by
    cases star with
    | none => simp [searchSize]
    | some s => simp only [searchSize, List.length_cons]; omega
  rcases Nat.lt_or_eq_of_le hle with hlt | heq
  · exact .left _ _ hlt
  · exact Prod.lex_def.mpr (.inr ⟨heq, h⟩)

theorem searchSize_again : Prod.Lex (· < ·) (· < ·) (searchSize n' (some (b, tried.tail)) tried.tail)
    (searchSize n (some (b, tried)) (a :: text)) := by
  refine .left _ _ ?_
  simp only [List.length_tail, List.length_cons]
  omega

end

namespace Search

/-- The search ends: every step goes on in the text, or to a later start of the star. -/
theorem ends : WellFounded fun t s : Search α => s.step = .inl t := by
  refine Subrelation.wf (fun {t s} h => ?_) (InvImage.wf (fun s : Search α =>
    searchSize s.items.length s.star s.text) (Prod.lex Nat.lt_wfRel Nat.lt_wfRel).wf)
  obtain ⟨items, text, star⟩ := s
  have hagain {a : α} {text : List α} {n : Nat} (h : again star = .inl t) : Prod.Lex (· < ·) (· < ·)
      (searchSize t.items.length t.star t.text) (searchSize n star (a :: text)) := by
    cases star with
    | none => cases h
    | some s =>
      cases h
      exact searchSize_again
  cases text with
  | nil => cases h
  | cons a text =>
    cases items with
    | nil => exact hagain h
    | cons item items =>
      cases item with
      | run =>
        cases h
        exact searchSize_run (Nat.lt_succ_self _)
      | one p =>
        rw [step_one] at h
        split at h
        · cases h
          exact searchSize_one (Nat.lt_succ_self _)
        · exact hagain h

/-- What was read since the last run is one element for each item. -/
def Saved (s : Search α) : Prop :=
  ∀ items text, s.star = some (items, text) → ∃ pre front, items = pre ++ s.items ∧
    text = front ++ s.text ∧ pre.length = front.length ∧ ∀ item ∈ pre, item.isRun = false

/-- There is a reading from here, or one with the last run moved on. -/
def Goal (s : Search α) : Prop :=
  Spells s.items s.text ∨ ∃ items text k, s.star = some (items, text) ∧ 0 < k ∧ k ≤ text.length ∧
    Spells items (text.drop k)

/-- Going back to the star keeps the goal, as the shorter match failed. -/
theorem again_goal {s t : Search α} (hs : s.Saved) (htext : s.text ≠ []) (hfail : ¬ Spells s.items s.text)
    (h : again s.star = .inl t) : t.Saved ∧ (s.Goal ↔ t.Goal) := by
  cases hstar : s.star with
  | none =>
    rw [hstar] at h
    cases h
  | some star =>
    obtain ⟨items, tried⟩ := star
    rw [hstar] at h
    cases h
    obtain ⟨pre, front, -, htried, -, -⟩ := hs items tried hstar
    have htried : tried ≠ [] := by
      rw [htried]
      exact fun h => htext (List.append_eq_nil_iff.mp h).2
    obtain ⟨b, rest, rfl⟩ := List.exists_cons_of_ne_nil htried
    constructor
    · rintro items' text' heq
      cases heq
      exact ⟨[], [], rfl, rfl, rfl, fun _ h => absurd h List.not_mem_nil⟩
    · constructor
      · rintro (h | ⟨items', text', k, heq, hk, hle, h⟩)
        · exact absurd h hfail
        · rw [hstar] at heq
          cases heq
          obtain ⟨j, rfl⟩ : ∃ j, k = j + 1 := ⟨k - 1, by omega⟩
          cases j with
          | zero => exact .inl h
          | succ j => exact .inr ⟨items, rest, j + 1, rfl, Nat.succ_pos j, Nat.le_of_succ_le_succ hle, h⟩
      · rintro (h | ⟨items', text', k, heq, hk, hle, h⟩)
        · exact .inr ⟨items, b :: rest, 1, hstar, Nat.one_pos, Nat.succ_le_succ (Nat.zero_le _), h⟩
        · cases heq
          exact .inr ⟨items, b :: rest, k + 1, hstar, Nat.succ_pos k, Nat.succ_le_succ hle, h⟩

/-- A later choice of the last run could be made by the run that comes now. -/
theorem run_goal {items : List (Wild α)} {text : List α} {star : Option (List (Wild α) × List α)}
    (hs : Saved ⟨.run :: items, text, star⟩) :
    Saved ⟨items, text, some (items, text)⟩ ∧
      (Goal ⟨.run :: items, text, star⟩ ↔ Goal ⟨items, text, some (items, text)⟩) := by
  constructor
  · rintro items' text' heq
    cases heq
    exact ⟨[], [], rfl, rfl, rfl, fun _ h => absurd h List.not_mem_nil⟩
  · have hgoal : Goal ⟨items, text, some (items, text)⟩ ↔ Spells (.run :: items) text := by
      rw [spells_run]
      constructor
      · rintro (h | ⟨items', text', k, heq, hk, hle, h⟩)
        · exact ⟨0, Nat.zero_le _, h⟩
        · cases heq
          exact ⟨k, hle, h⟩
      · rintro ⟨k, hle, h⟩
        cases k with
        | zero => exact .inl h
        | succ k => exact .inr ⟨items, text, k + 1, rfl, Nat.succ_pos k, hle, h⟩
    rw [hgoal]
    constructor
    · rintro (h | ⟨items', tried, k, heq, hk, hle, h⟩)
      · exact h
      · obtain ⟨pre, front, rfl, rfl, hlen, hpre⟩ := hs items' tried heq
        obtain ⟨hlong, h⟩ := spells_of_ones hpre h
        rw [List.length_drop, List.length_append] at hlong
        rw [List.drop_drop, hlen, Nat.add_comm, ← List.drop_drop, List.drop_left] at h
        exact spells_run_of_drop (by dsimp only at hlong h hle; rw [List.length_append] at hle; omega) h
    · exact fun h => .inl h

/-- A step of the search keeps the goal. -/
theorem step_goal {s t : Search α} (hs : s.Saved) (h : s.step = .inl t) : t.Saved ∧ (s.Goal ↔ t.Goal) := by
  obtain ⟨items, text, star⟩ := s
  cases text with
  | nil => cases h
  | cons a text =>
    cases items with
    | nil => exact again_goal hs (List.cons_ne_nil a text) (List.cons_ne_nil a text) h
    | cons item items =>
      cases item with
      | run =>
        cases h
        exact run_goal hs
      | one p =>
        rw [step_one] at h
        split at h
        · rename_i hp
          cases h
          constructor
          · rintro items' tried heq
            obtain ⟨pre, front, rfl, rfl, hlen, hpre⟩ := hs items' tried heq
            refine ⟨pre ++ [.one p], front ++ [a], by simp, by simp, by simp [hlen], ?_⟩
            intro item hitem
            rcases List.mem_append.mp hitem with h | h
            · exact hpre item h
            · rw [List.mem_singleton.mp h]
              rfl
          · exact or_congr (spells_one.trans (and_iff_right hp)) Iff.rfl
        · rename_i hp
          exact again_goal hs (List.cons_ne_nil a text) (fun hread => hp (spells_one.mp hread).1) h

/-- An answer of the search is the goal. -/
theorem step_answer {s : Search α} {b : Bool} (hs : s.Saved) (h : s.step = .inr b) : s.Goal ↔ b = true := by
  obtain ⟨items, text, star⟩ := s
  have hagain (hfail : ¬ Spells items text) (h : again star = .inr b) :
      Goal ⟨items, text, star⟩ ↔ b = true := by
    cases star with
    | some s => cases h
    | none =>
      cases h
      refine iff_of_false ?_ Bool.false_ne_true
      rintro (h | ⟨_, _, _, heq, -⟩)
      · exact hfail h
      · cases heq
  cases text with
  | nil =>
    cases h
    rw [← spells_empty]
    constructor
    · rintro (h | ⟨items', tried, k, heq, hk, hle, h⟩)
      · exact h
      · -- The items before would need as many elements as there were.
        obtain ⟨pre, front, rfl, rfl, hlen, hpre⟩ := hs items' tried heq
        obtain ⟨hlong, -⟩ := spells_of_ones hpre h
        rw [List.length_drop, List.length_append] at hlong
        rw [List.length_append] at hle
        dsimp only [List.length_nil] at hlong hle
        omega
    · exact fun h => .inl h
  | cons a text =>
    cases items with
    | nil => exact hagain (List.cons_ne_nil a text) h
    | cons item items =>
      cases item with
      | run => cases h
      | one p =>
        rw [step_one] at h
        split at h
        · cases h
        · rename_i hp
          exact hagain (fun hread => hp (spells_one.mp hread).1) h

end Search

/-- The search finds a reading exactly where there is one. -/
theorem search_iff (items : List (Wild α)) (text : List α) :
    answerOf Search.step Search.ends ⟨items, text, none⟩ = true ↔ Spells items text := by
  have hsaved : Search.Saved ⟨items, text, none⟩ := fun _ _ h => by cases h
  rw [answerOf_iff hsaved (fun s t hs h => Search.step_goal hs h) fun s b hs h => Search.step_answer hs h]
  constructor
  · rintro (h | ⟨_, _, _, heq, -⟩)
    · exact h
    · cases heq
  · exact fun h => .inl h

end Ruse.Lib
