import Ruse.Lib.Forest

/-!
# Folds

The folds of a view: ranges of lines, each closed or open, with its level in the nesting. A
closed fold of two lines or more shows as one row, that of its first line, and hides its
other lines. `closedRange_spec` says which fold a line's closed range is: of the closed
folds that hold the line, the one that holds the others.
-/

namespace Ruse.Tui

open Ruse.Lib

/-- A fold: its first and last line, its level, `1` outermost, and whether it is closed. -/
structure Fold extends Ranked where
  closed : Bool
deriving DecidableEq, Repr

def Fold.contains (f : Fold) (line : Nat) : Bool := f.start ≤ line && line ≤ f.stop

/-- Whether the fold's lines show as one row when it is closed. -/
def showsClosed (f : Fold) : Bool := f.closed && f.start < f.stop

/-- Whether a line is inside a closed fold and not its first line. -/
def hidden (folds : List Fold) (line : Nat) : Bool :=
  folds.any fun f => f.closed && f.start < line && line ≤ f.stop

/-- A range of lines made to hold a fold's. -/
def widen (acc : Option (Nat × Nat)) (f : Fold) : Option (Nat × Nat) :=
  some (acc.elim (f.start, f.stop) fun r => (min r.1 f.start, max r.2 f.stop))

/-- The first and last line of the closed fold that holds a line. -/
def closedRange (folds : List Fold) (line : Nat) : Option (Nat × Nat) :=
  (folds.filter fun f => showsClosed f && f.contains line).foldl widen none

/-- The first line of the closed fold that holds a line, else the line. -/
def snapOut (folds : List Fold) (line : Nat) : Nat :=
  (closedRange folds line).elim line fun r => r.1

/-- The last line of the closed fold that holds a line, else the line. -/
def closedEnd (folds : List Fold) (line : Nat) : Nat :=
  (closedRange folds line).elim line fun r => r.2

/-- The loop of `lineDown`, which stops at the last line. -/
def stepsDown (folds : List Fold) (last : Nat) : Nat → Nat → Nat
  | 0, l => l
  | n + 1, l =>
    let l := closedEnd folds l + 1
    if last ≤ l then l else stepsDown folds last n l

/-- The line `n` lines below, a closed fold counted as one. -/
def lineDown (folds : List Fold) (line n last : Nat) : Option Nat :=
  let l := closedEnd folds line
  if 0 < n ∧ last ≤ l then none
  else if last ≤ l + n then some last
  else some (min (stepsDown folds last n l) last)

/-- The loop of `lineUp`, which stops at the first line. -/
def stepsUp (folds : List Fold) : Nat → Nat → Nat
  | 0, l => l
  | n + 1, l =>
    let l := l - 1
    if l = 0 then l else stepsUp folds n (snapOut folds l)

/-- The line `n` lines above, a closed fold counted as one and entered at its first line. -/
def lineUp (folds : List Fold) (line n : Nat) : Option Nat :=
  if 0 < n ∧ line = 0 then none
  else if line < n then some 0
  else some (stepsUp folds n (snapOut folds line))

/-- The number of hidden lines above a line. -/
def hiddenBefore (folds : List Fold) (line : Nat) : Nat :=
  ((List.range line).filter (hidden folds)).length

/-- The order of pairs by their first part, then by their second. -/
def pairLe (p q : Nat × Nat) : Bool := p.1 < q.1 || (p.1 == q.1 && p.2 ≤ q.2)

/-- The number of hidden lines in `[a, b)`, from the spans the closed folds hide, without
walking the lines. -/
def hiddenBetween (folds : List Fold) (a b : Nat) : Nat :=
  let spans := folds.filter fun f => f.closed && f.start < f.stop
  let spans := spans.map fun f => (max (f.start + 1) a, min (f.stop + 1) b)
  let spans := (spans.filter fun s => s.1 < s.2).mergeSort pairLe
  (spans.foldl sweep (0, a)).1

def visibleRow (folds : List Fold) (line : Nat) : Nat := line - hiddenBefore folds line

/-- Ordered ranges of which every two are disjoint or one holds the other. -/
structure WellNested (folds : List Fold) : Prop where
  ordered : ∀ f ∈ folds, f.start ≤ f.stop
  nests : ∀ f ∈ folds, ∀ g ∈ folds, f.toSpan.Nests g.toSpan

instance (folds : List Fold) : Decidable (WellNested folds) :=
  decidable_of_iff ((∀ f ∈ folds, f.start ≤ f.stop) ∧
      ∀ f ∈ folds, ∀ g ∈ folds, f.toSpan.Nests g.toSpan)
    ⟨fun h => ⟨h.1, h.2⟩, fun h => ⟨h.ordered, h.nests⟩⟩

variable {folds : List Fold} {f : Fold} {line : Nat}

@[simp] theorem Fold.contains_iff : f.contains line = true ↔ f.toSpan.Holds line := by
  simp [Fold.contains, Span.Holds]

@[simp] theorem showsClosed_iff : showsClosed f = true ↔ f.closed = true ∧ f.start < f.stop := by
  simp [showsClosed]

theorem hidden_iff :
    hidden folds line = true ↔ ∃ f ∈ folds, f.closed = true ∧ f.start < line ∧ line ≤ f.stop := by
  simp [hidden, and_assoc]

/-- The end of a closed fold is not above the line. -/
theorem le_closedEnd (folds : List Fold) (line : Nat) : line ≤ closedEnd folds line := by
  have hwiden (fs : List Fold) (hfs : ∀ f ∈ fs, line ≤ f.stop) (acc : Option (Nat × Nat))
      (hacc : line ≤ acc.elim line Prod.snd) :
      line ≤ (fs.foldl widen acc).elim line Prod.snd := by
    induction fs generalizing acc with
    | nil => exact hacc
    | cons f fs ih =>
      refine ih (fun g hg => hfs g (List.mem_cons_of_mem _ hg)) _ ?_
      have := hfs f (by simp)
      cases acc with
      | none => simpa [widen] using this
      | some r =>
        simp only [widen, Option.elim_some]
        omega
  refine hwiden _ ?_ none (by simp)
  intro f hf
  simp only [List.mem_filter, Bool.and_eq_true, Fold.contains_iff] at hf
  exact hf.2.2.2

/-- A range widened by folds inside a span, one of them all of it, is that span. -/
theorem foldl_widen {fs : List Fold} {o : Span} {acc : Option (Nat × Nat)}
    (hfs : ∀ f ∈ fs, f.toSpan.Inside o) (hacc : ∀ r ∈ acc, o.start ≤ r.1 ∧ r.2 ≤ o.stop)
    (ho : acc = some (o.start, o.stop) ∨ ∃ f ∈ fs, f.toSpan = o) :
    fs.foldl widen acc = some (o.start, o.stop) := by
  induction fs generalizing acc with
  | nil =>
    rcases ho with ho | ⟨f, hf, _⟩
    · exact ho
    · simp at hf
  | cons g fs ih =>
    have hg : o.start ≤ g.start ∧ g.stop ≤ o.stop := hfs g (by simp)
    rw [List.foldl_cons]
    refine ih (fun f hf => hfs f (List.mem_cons_of_mem _ hf)) ?_ ?_
    · intro r hr
      cases acc with
      | none =>
        simp only [widen, Option.elim_none, Option.mem_some_iff] at hr
        subst hr
        exact hg
      | some r' =>
        have := hacc r' rfl
        simp only [widen, Option.elim_some, Option.mem_some_iff] at hr
        subst hr
        simp only
        omega
    · rcases ho with ho | ⟨f, hf, hfo⟩
      · left
        subst ho
        simp only [widen, Option.elim_some, Option.some.injEq, Prod.mk.injEq]
        omega
      · rcases List.mem_cons.mp hf with rfl | hf
        · left
          subst hfo
          cases acc with
          | none => simp [widen]
          | some r' =>
            have := hacc r' rfl
            simp only [widen, Option.elim_some, Option.some.injEq, Prod.mk.injEq]
            omega
        · exact .inr ⟨f, hf, hfo⟩

/-- The closed fold that decides what a line shows: it is closed, of two lines or more, holds
the line, and holds every other such fold. -/
structure Outermost (folds : List Fold) (line : Nat) (f : Fold) : Prop where
  mem : f ∈ folds
  closed : f.closed = true
  wide : f.start < f.stop
  holds : f.toSpan.Holds line
  widest : ∀ g ∈ folds, g.closed = true → g.start < g.stop → g.toSpan.Holds line →
    g.toSpan.Inside f.toSpan

/-- The closed range of a line is that of the outermost closed fold that holds it. -/
theorem closedRange_spec (h : WellNested folds) (line : Nat) :
    (closedRange folds line = none ∧
        ∀ f ∈ folds, f.closed = true → f.start < f.stop → ¬ f.toSpan.Holds line) ∨
      ∃ f, closedRange folds line = some (f.start, f.stop) ∧ Outermost folds line f := by
  by_cases hnone : folds.filter (fun f => showsClosed f && f.contains line) = []
  · left
    refine ⟨by simp [closedRange, hnone], ?_⟩
    intro f hf hclosed hwide hholds
    have hmem : f ∈ folds.filter fun f => showsClosed f && f.contains line := by
      simp [List.mem_filter, hf, hclosed, hwide, hholds]
    rw [hnone] at hmem
    simp at hmem
  · right
    have hmem : ∀ f, f ∈ folds.filter (fun f => showsClosed f && f.contains line) ↔
        f ∈ folds ∧ (f.closed = true ∧ f.start < f.stop) ∧ f.toSpan.Holds line := by
      simp [List.mem_filter]
    -- the outermost of the spans is that of a fold of the list
    obtain ⟨o, ho, hall⟩ := Span.exists_outermost (n := line)
      ((folds.filter fun f => showsClosed f && f.contains line).map fun f => f.toSpan)
      (by simpa using hnone)
      (by
        simp only [List.mem_map, forall_exists_index, and_imp, forall_apply_eq_imp_iff₂]
        intro f hf g hg
        exact h.nests f ((hmem f).mp hf).1 g ((hmem g).mp hg).1)
      (by
        simp only [List.mem_map, forall_exists_index, and_imp, forall_apply_eq_imp_iff₂]
        intro f hf
        exact ((hmem f).mp hf).2.2)
    obtain ⟨f, hf, rfl⟩ := List.mem_map.mp ho
    obtain ⟨hfolds, ⟨hclosed, hwide⟩, hholds⟩ := (hmem f).mp hf
    refine ⟨f, ?_, hfolds, hclosed, hwide, hholds, ?_⟩
    · apply foldl_widen
      · intro g hg
        exact hall g.toSpan (List.mem_map_of_mem (f := fun f : Fold => f.toSpan) hg)
      · simp
      · exact .inr ⟨f, hf, rfl⟩
    · intro g hg hgc hgw hgh
      exact hall g.toSpan (List.mem_map_of_mem (f := fun f : Fold => f.toSpan) ((hmem g).mpr ⟨hg, ⟨hgc, hgw⟩, hgh⟩))

end Ruse.Tui
