import Ruse.Core.Edit

/-!
# Edit lists on machine words

A journal file names positions and lengths as 64-bit words, and the functions of
`crates/core/src/edit.rs` add them without a check. Here that arithmetic is
explicit: an operation that overflows, underflows or slices out of range is a
`Fault`, which ends the run.

* `newWord`, `checkBoundsWord` — `EditList::new` and `EditList::check_bounds`,
  comparison by comparison;
* `PairsFit`, `BoundsFit` — when no comparison they make overflows
  (`newWord_ok_iff`, `checkBoundsLoop_cases`).
-/

namespace Ruse.Persist

open Ruse.Core

variable {a b : Nat} {es : List Edit}

/-- How a run can fail outside the program's own error handling. -/
inductive Fault where
  | overflow
  | range
  | endless
deriving DecidableEq, Repr

def wordLimit : Nat := 2 ^ 64

/-- `a + b` on words. -/
def addWord (a b : Nat) : Except Fault Nat :=
  if a + b < wordLimit then .ok (a + b) else .error .overflow

/-- `a - b` on words. -/
def subWord (a b : Nat) : Except Fault Nat :=
  if b ≤ a then .ok (a - b) else .error .overflow

theorem addWord_ok (h : a + b < wordLimit) : addWord a b = .ok (a + b) := if_pos h

theorem addWord_error (h : ¬ a + b < wordLimit) :
    addWord a b = .error .overflow := if_neg h

theorem subWord_ok (h : b ≤ a) : subWord a b = .ok (a - b) := if_pos h

/-! ## Building a list -/

/-- The `windows(2)` loop of `EditList::new`. -/
def firstOverlapWord : List Edit → Except Fault (Option EditError)
  | a :: b :: rest =>
    if b.pos = a.pos then .ok (some (.overlap a.pos b.pos))
    else do
      let stop ← addWord a.pos a.del
      if b.pos < stop then .ok (some (.overlap a.pos b.pos))
      else firstOverlapWord (b :: rest)
  | _ => .ok none

/-- `EditList::new`: the list of `EditList.new`, once the loop is through. -/
def newWord (edits : List Edit) : Except Fault (Except EditError EditList) :=
  (firstOverlapWord (EditList.kept edits)).map fun _ => EditList.new edits

/-- No end the loop of `EditList::new` compares passes the word size. It stops at
the first overlap. -/
def PairsFit : List Edit → Prop
  | a :: b :: rest =>
    b.pos ≠ a.pos → a.endPos < wordLimit ∧ (a.endPos ≤ b.pos → PairsFit (b :: rest))
  | _ => True

/-- The check for overlaps overflows no word exactly where the pairs fit. -/
theorem firstOverlapWord_ok_iff (es : List Edit) :
    (∃ o, firstOverlapWord es = .ok o) ↔ PairsFit es := by
  induction es with
  | nil => exact ⟨fun _ => trivial, fun _ => ⟨none, rfl⟩⟩
  | cons a rest ih =>
    cases rest with
    | nil => exact ⟨fun _ => trivial, fun _ => ⟨none, rfl⟩⟩
    | cons b rest =>
      simp only [firstOverlapWord, PairsFit]
      by_cases hpos : b.pos = a.pos
      · rw [if_pos hpos]
        exact ⟨fun _ hne => absurd hpos hne, fun _ => ⟨_, rfl⟩⟩
      · rw [if_neg hpos]
        by_cases hend : a.endPos < wordLimit
        · rw [addWord_ok hend]
          show (∃ o, (if b.pos < a.endPos then _ else firstOverlapWord (b :: rest)) = .ok o) ↔ _
          by_cases hover : b.pos < a.endPos
          · rw [if_pos hover]
            exact ⟨fun _ _ => ⟨hend, fun hle => absurd hover (Nat.not_lt_of_le hle)⟩,
              fun _ => ⟨_, rfl⟩⟩
          · rw [if_neg hover, ih]
            exact ⟨fun h _ => ⟨hend, fun _ => h⟩, fun h => (h hpos).2 (Nat.le_of_not_lt hover)⟩
        · rw [addWord_error hend]
          exact ⟨fun h => absurd h (by rintro ⟨o, ho⟩; cases ho), fun h => absurd (h hpos).1 hend⟩

/-- A list is built on words exactly when the comparisons fit. -/
theorem newWord_ok_iff (edits : List Edit) :
    newWord edits = .ok (EditList.new edits) ↔ PairsFit (EditList.kept edits) := by
  rw [← firstOverlapWord_ok_iff]
  unfold newWord
  cases firstOverlapWord (EditList.kept edits) with
  | error f =>
    constructor
    · intro h
      cases h
    · rintro ⟨o, ho⟩
      cases ho
  | ok o => exact ⟨fun _ => ⟨o, rfl⟩, fun _ => rfl⟩

theorem newWord_error {edits : List Edit} (h : ¬ PairsFit (EditList.kept edits)) :
    ∃ f, newWord edits = .error f := by
  rw [← firstOverlapWord_ok_iff] at h
  unfold newWord
  cases hf : firstOverlapWord (EditList.kept edits) with
  | error f => exact ⟨f, rfl⟩
  | ok o => exact absurd ⟨o, hf⟩ h

/-- The comparisons of a canonical list of words fit: only its last end is past
every position. -/
theorem pairsFit_edits (hs : es.Pairwise Edit.Before) (hw : ∀ e ∈ es, e.pos < wordLimit) :
    PairsFit es := by
  induction es with
  | nil => trivial
  | cons a rest ih =>
    cases rest with
    | nil => trivial
    | cons b rest =>
      have hab : a.Before b := (List.pairwise_cons.mp hs).1 b List.mem_cons_self
      intro _
      refine ⟨?_, fun _ => ih (List.pairwise_cons.mp hs).2
        (fun e he => hw e (List.mem_cons_of_mem _ he))⟩
      have := hw b (List.mem_cons_of_mem _ List.mem_cons_self)
      have := hab.2
      omega

/-! ## Checking a list against a length -/

/-- The loop of `EditList::check_bounds`. -/
def checkBoundsLoop (len : Nat) : List Edit → Except Fault (Except EditError Unit)
  | [] => .ok (.ok ())
  | e :: es =>
    if e.pos > len then .ok (.error (.outOfRange e.pos e.del len))
    else do
      let stop ← addWord e.pos e.del
      if stop > len then .ok (.error (.outOfRange e.pos e.del len))
      else checkBoundsLoop len es

/-- `EditList::check_bounds`. -/
def checkBoundsWord (l : EditList) (len : Nat) : Except Fault (Except EditError Unit) :=
  checkBoundsLoop len l.edits

/-- No end the loop of `EditList::check_bounds` compares passes the word size. It
stops at the first edit out of range. -/
def BoundsFit (len : Nat) : List Edit → Prop
  | [] => True
  | e :: es => e.pos ≤ len → e.endPos < wordLimit ∧ (e.endPos ≤ len → BoundsFit len es)

/-- The check runs through exactly when the comparisons fit, and then says what
it says of natural numbers. -/
theorem checkBoundsLoop_cases (len : Nat) (es : List Edit) :
    (BoundsFit len es ∧ (∀ e ∈ es, e.endPos ≤ len) ∧ checkBoundsLoop len es = .ok (.ok ())) ∨
    (BoundsFit len es ∧ (¬ ∀ e ∈ es, e.endPos ≤ len) ∧
      ∃ err, checkBoundsLoop len es = .ok (.error err)) ∨
    (¬ BoundsFit len es ∧ ∃ f, checkBoundsLoop len es = .error f) := by
  induction es with
  | nil => exact .inl ⟨trivial, by simp, rfl⟩
  | cons e es ih =>
    have hle := e.pos_le_endPos
    simp only [BoundsFit, checkBoundsLoop, List.forall_mem_cons]
    by_cases hpos : e.pos > len
    · rw [if_pos hpos]
      exact .inr (.inl ⟨fun h => absurd h (by omega), fun h => by omega, _, rfl⟩)
    · rw [if_neg hpos]
      by_cases hend : e.endPos < wordLimit
      · rw [addWord_ok hend]
        show (_ ∧ _ ∧ (if e.endPos > len then _ else checkBoundsLoop len es) = _) ∨
          (_ ∧ _ ∧ ∃ err, (if e.endPos > len then _ else checkBoundsLoop len es) = _) ∨
          (_ ∧ ∃ f, (if e.endPos > len then _ else checkBoundsLoop len es) = _)
        by_cases hout : e.endPos > len
        · rw [if_pos hout]
          exact .inr (.inl ⟨fun _ => ⟨hend, fun h => absurd h (by omega)⟩,
            fun h => by omega, _, rfl⟩)
        · rw [if_neg hout]
          have hin : e.endPos ≤ len := by omega
          rcases ih with ⟨hfit, hall, hrun⟩ | ⟨hfit, hall, hrun⟩ | ⟨hfit, hrun⟩
          · exact .inl ⟨fun _ => ⟨hend, fun _ => hfit⟩, ⟨hin, hall⟩, hrun⟩
          · exact .inr (.inl ⟨fun _ => ⟨hend, fun _ => hfit⟩, fun h => hall h.2, hrun⟩)
          · exact .inr (.inr ⟨fun h => hfit ((h (by omega)).2 hin), hrun⟩)
      · rw [addWord_error hend]
        exact .inr (.inr ⟨fun h => hend (h (by omega)).1, _, rfl⟩)

theorem boundsFit_words {len : Nat} (h : BoundsFit len es) (hin : ∀ e ∈ es, e.endPos ≤ len) :
    ∀ e ∈ es, e.endPos < wordLimit := by
  induction es with
  | nil => simp
  | cons e es ih =>
    have hend := hin e List.mem_cons_self
    have hfit := h (Nat.le_trans e.pos_le_endPos hend)
    intro e' he'
    rcases List.mem_cons.mp he' with rfl | he'
    · exact hfit.1
    · exact ih (hfit.2 hend) (fun e he => hin e (List.mem_cons_of_mem _ he)) e' he'

theorem boundsFit_of_words {len : Nat} (h : ∀ e ∈ es, e.endPos < wordLimit) :
    BoundsFit len es := by
  induction es with
  | nil => trivial
  | cons e es ih =>
    intro _
    exact ⟨h e List.mem_cons_self, fun _ => ih fun e he => h e (List.mem_cons_of_mem _ he)⟩

end Ruse.Persist
