import Ruse.Tui.Folds
import Mathlib.Data.List.Sort

/-!
# The commands on folds

Opening and closing folds on a line or over a range, deleting the fold of a line, creating
one, and giving a set of folds its nesting back after its lines moved.
-/

namespace Ruse.Tui

open Ruse.Lib

/-! ## The folds of a line -/

/-- The order of the folds of a line, outermost first. -/
def pathLe (f g : Fold) : Bool :=
  f.level < g.level || (f.level == g.level &&
    (f.start < g.start || (f.start == g.start && g.stop ≤ f.stop)))

/-- The indices of the folds that hold a line, outermost first. -/
def path (folds : List Fold) (line : Nat) : List Nat :=
  ((folds.zipIdx.filter fun p => p.1.contains line).mergeSort fun p q => pathLe p.1 q.1).map Prod.snd

/-- Whether fold `j` lies inside fold `i`. -/
def nestedIn (folds : List Fold) (i j : Nat) : Bool :=
  match folds[i]?, folds[j]? with
  | some a, some b => i != j && a.level < b.level && a.start ≤ b.start && b.stop ≤ a.stop
  | _, _ => false

/-- Whether fold `i` is closed. -/
def closedAt (folds : List Fold) (i : Nat) : Bool := (folds[i]?).any Fold.closed

/-- Fold `i` opened or closed. -/
def setClosed (folds : List Fold) (i : Nat) (closed : Bool) : List Fold :=
  folds.modify i fun f => { f with closed }

/-! ## Opening and closing -/

/-- `zo`: the outermost closed fold of the line is opened. -/
def openOne (folds : List Fold) (line : Nat) : Option (List Fold × Bool) :=
  let on := path folds line
  if on = [] then none
  else
    match on.find? (closedAt folds) with
    | some i => some (setClosed folds i false, true)
    | none => some (folds, false)

/-- `zO`: the outermost closed fold of the line is opened with all nested in it. -/
def openRec (folds : List Fold) (line : Nat) : Option (List Fold × Bool) :=
  let on := path folds line
  if on = [] then none
  else
    match on.find? (closedAt folds) with
    | some i =>
      some (folds.mapIdx fun j f =>
        if j = i || nestedIn folds i j then { f with closed := false } else f, true)
    | none => some (folds, false)

/-- `zc`: the innermost open fold of the line above the first closed one is closed. -/
def closeOne (folds : List Fold) (line : Nat) : Option (List Fold × Bool) :=
  let on := path folds line
  if on = [] then none
  else
    match (on.takeWhile fun i => !closedAt folds i).getLast? with
    | some i => some (setClosed folds i true, true)
    | none => some (folds, false)

/-- `zC`: every fold of the line is closed. -/
def closeRec (folds : List Fold) (line : Nat) : Option (List Fold × Bool) :=
  let on := path folds line
  if on = [] then none
  else
    some (on.foldl (fun acc i => (setClosed acc.1 i true, acc.2 || !closedAt acc.1 i))
      (folds, false))

/-- Every closed fold of the line is opened. -/
def openAt (folds : List Fold) (line : Nat) : List Fold × Bool :=
  (folds.map fun f => if f.closed && f.contains line then { f with closed := false } else f,
    folds.any fun f => f.closed && f.contains line)

/-- One line of `opRange`: the folds after it, whether a fold held it, and the line to go on
after. -/
def opLine (folds : List Fold) (line : Nat) (opening recursive : Bool) :
    List Fold × Bool × Nat :=
  let next := if opening && !recursive then closedEnd folds line else line
  let hit :=
    match opening, recursive with
    | true, false => openOne folds line
    | true, true => openRec folds line
    | false, false => closeOne folds line
    | false, true => closeRec folds line
  let folds' := hit.elim folds Prod.fst
  (folds', hit.isSome, if !opening && !recursive then closedEnd folds' line else next)

theorem le_opLine (folds : List Fold) (line : Nat) (opening recursive : Bool) :
    line ≤ (opLine folds line opening recursive).2.2 := by
  simp only [opLine]
  split
  · exact le_closedEnd _ _
  · split
    · exact le_closedEnd _ _
    · exact le_rfl

/-- `:foldopen` and `:foldclose` over the lines `first` to `last`, and whether any fold held
one of them. -/
def opRange (folds : List Fold) (first last : Nat) (opening recursive : Bool) : List Fold × Bool :=
  if first ≤ last then
    let one := opLine folds first opening recursive
    let rest := opRange one.1 (one.2.2 + 1) last opening recursive
    (rest.1, one.2.1 || rest.2)
  else (folds, false)
termination_by last + 1 - first
decreasing_by
  have := le_opLine folds first opening recursive
  omega

/-! ## Deleting -/

/-- The fold a delete acts on: the outermost closed fold of the line, else the innermost. -/
def deleteTarget (folds : List Fold) (line : Nat) : Option Nat :=
  let on := path folds line
  match on.find? fun i => (folds[i]?).any showsClosed with
  | some i => some i
  | none => on.getLast?

/-- `zd`, or `zD` when `recursive`: the target is deleted, and its nested folds go a level up
or are deleted too. -/
def deleteAt (folds : List Fold) (line : Nat) (recursive : Bool) : List Fold × Bool :=
  match deleteTarget folds line with
  | none => (folds, false)
  | some i =>
    (folds.zipIdx.filterMap fun p =>
      if p.2 = i || (recursive && nestedIn folds i p.2) then none
      else if nestedIn folds i p.2 then some { p.1 with level := p.1.level - 1 }
      else some p.1, true)

/-! ## Creating -/

/-- Whether a fold lies within the parent of a new one. -/
def within (parent : Option Fold) (f : Ranked) : Bool :=
  parent.all fun p => p.start ≤ f.start && f.stop ≤ p.stop

/-- The level of a new fold in its parent. -/
def levelIn (parent : Option Fold) : Nat := parent.elim 1 fun p => p.level + 1

/-- The deepest fold that holds the whole range, a level at a time. -/
def parentFrom (folds : List Fold) (start stop : Nat) (parent : Option Fold) : Option Fold :=
  match _h : folds.find? fun f => f.level == levelIn parent && within parent f.toRanked && f.contains start with
  | some f => if stop ≤ f.stop then parentFrom folds start stop (some f) else parent
  | none => parent
termination_by folds.countP fun f => levelIn parent ≤ f.level
decreasing_by
  have hmem := List.mem_of_find?_eq_some _h
  have hlevel : f.level = levelIn parent := by
    have := List.find?_some _h
    simp only [Bool.and_eq_true, beq_iff_eq] at this
    exact this.1.1
  -- the fold found is of the level the next step is past
  rw [List.countP_eq_length_filter, List.countP_eq_length_filter]
  have hfilter : (folds.filter fun g => decide (levelIn (some f) ≤ g.level)) =
      (folds.filter fun g => decide (levelIn parent ≤ g.level)).filter
        fun g => decide (levelIn (some f) ≤ g.level) := by
    rw [List.filter_filter]
    refine List.filter_congr ?_
    intro g _
    simp only [levelIn, Option.elim_some] at hlevel ⊢
    by_cases hg : f.level + 1 ≤ g.level
    · simp only [hg, decide_true, Bool.true_and]
      exact (decide_eq_true (by omega)).symm
    · simp [hg]
  rw [hfilter]
  refine List.length_filter_lt_length_iff_exists.mpr ⟨f, ?_, ?_⟩
  · simp [hmem, hlevel]
  · intro hlt
    have := of_decide_eq_true hlt
    simp only [levelIn, Option.elim_some] at this
    omega

/-- The lines of a new fold: those asked for, and all lines of the folds of its level and
parent that it meets. -/
def takenIn (folds : List Fold) (parent : Option Fold) (start stop : Nat) : Nat × Nat :=
  folds.foldl (fun r f =>
    if f.level == levelIn parent && within parent f.toRanked && start ≤ f.stop && f.start ≤ stop then
      (min r.1 f.start, max r.2 f.stop)
    else r) (start, stop)

/-- Whether a new fold over the lines `r` is put around a fold. -/
def wraps (parent : Option Fold) (r : Nat × Nat) (f : Ranked) : Bool :=
  levelIn parent ≤ f.level && within parent f && r.1 ≤ f.start && f.stop ≤ r.2

/-- A closed fold made over the lines `start` to `stop`: in the deepest fold that holds them
all, around the folds of its level that it meets, which are taken in whole. -/
def insertClosedFold (folds : List Fold) (start stop : Nat) : List Fold :=
  if stop < start then folds
  else
    let parent := parentFrom folds start stop none
    let r := takenIn folds parent start stop
    (folds.map fun f => if wraps parent r f.toRanked then { f with level := f.level + 1 } else f) ++
      [⟨⟨⟨r.1, r.2⟩, levelIn parent⟩, true⟩]

/-! ## The nesting given back -/

/-- The order folds are nested in: by first line, the longer first, then by level. -/
def nestLe (f g : Fold) : Bool :=
  f.start < g.start || (f.start == g.start &&
    (g.stop < f.stop || (f.stop == g.stop && f.level ≤ g.level)))

/-- One fold nested: `st` is the folds kept and, innermost first, those that may hold it. -/
def renestStep (st : List Fold × List Fold) (f : Fold) : List Fold × List Fold :=
  let stack := st.2.dropWhile fun g => g.stop < f.start
  if stack.head?.any fun g => g.stop < f.stop then (st.1, stack)
  else
    let f := { f with level := stack.length + 1 }
    (st.1 ++ [f], f :: stack)

/-- A set of folds nested again: one that only partly overlaps an earlier one is dropped, and
each level is set to the depth. -/
def renest (folds : List Fold) : List Fold :=
  ((folds.mergeSort nestLe).foldl renestStep ([], [])).1

/-- Whether a set of folds passes the walker's checks for a buffer of `lines` lines. -/
def assertInvariants (folds : List Fold) (lines : Nat) (manual : Bool) : Bool :=
  (folds.all fun f => f.start ≤ f.stop && f.stop < max lines 1 && 1 ≤ f.level) &&
  decide (folds.Pairwise fun a b =>
    (a.stop < b.start ∨ b.stop < a.start) ∨
      (a.start ≤ b.start ∧ b.stop ≤ a.stop) ∨ (b.start ≤ a.start ∧ a.stop ≤ b.stop)) &&
  (!manual || renest (folds.mergeSort nestLe) == folds.mergeSort nestLe)

end Ruse.Tui
