import Mathlib.Data.List.Basic

/-!
# Arenas

An arena hands out indices: an item is pushed at the end and keeps its index until its
slot is retired, and no index is given twice.
-/

namespace Ruse.Lib

/-- A list of slots, `none` a retired one. -/
abbrev Arena (α : Type*) := List (Option α)

namespace Arena

variable {α : Type*} (a : Arena α)

/-- The item in slot `i`, if it is live. -/
def get (i : Nat) : Option α := a[i]?.join

/-- Fill or retire slot `i`. -/
def put (i : Nat) (x : Option α) : Arena α := a.set i x

@[simp] theorem put_length (i : Nat) (x : Option α) : (a.put i x).length = a.length :=
  List.length_set

theorem lt_of_get {a : Arena α} {i : Nat} {x : α} (h : a.get i = some x) : i < a.length := by
  by_contra hi
  rw [get, List.getElem?_eq_none (by omega)] at h
  cases h

theorem get_put (i j : Nat) (x : Option α) :
    (a.put i x).get j = if i = j ∧ j < a.length then x else a.get j := by
  rw [get, get, put, List.getElem?_set]
  by_cases hij : i = j
  · subst hij
    by_cases hi : i < a.length
    · simp [hi]
    · simp [hi]
  · simp [hij]

theorem get_put_self {i : Nat} {x : α} (h : a.get i = some x) (y : Option α) :
    (a.put i y).get i = y := by
  rw [get_put, if_pos ⟨rfl, lt_of_get h⟩]

theorem get_put_of_ne {i j : Nat} (h : i ≠ j) (x : Option α) : (a.put i x).get j = a.get j := by
  rw [get_put, if_neg fun hij => h hij.1]

theorem get_push (x : Option α) (j : Nat) :
    get (a ++ [x]) j = if j = a.length then x else a.get j := by
  rw [get, get, List.getElem?_append]
  split
  · rw [if_neg (by omega)]
  · rename_i hj
    by_cases hlast : j = a.length
    · subst hlast
      simp
    · rw [if_neg hlast, List.getElem?_eq_none (by simp; omega), List.getElem?_eq_none (by omega)]

theorem get_map {β : Type*} (f : α → β) (j : Nat) :
    get (a.map (Option.map f)) j = (a.get j).map f := by
  rw [get, get, List.getElem?_map]
  cases a[j]? <;> rfl

theorem get_filter (p : α → Bool) (j : Nat) :
    get (a.map fun x => x.filter p) j = (a.get j).filter p := by
  rw [get, get, List.getElem?_map]
  cases a[j]? <;> rfl

end Arena

end Ruse.Lib
