import Mathlib.Data.List.Basic

/-!
# Writes at distinct places

`modifyAll` changes a list at the keys of some entries, one entry after the other.
Where no entry writes the list is unchanged, and where one does it is changed by that
entry alone once the keys differ.
-/

namespace Ruse.Lib

variable {α β : Type*} (key : β → Nat) (f : β → α → α)

/-- Modify the list at the key of each entry. -/
def modifyAll (l : List α) (ps : List β) : List α := ps.foldl (fun l p => l.modify (key p) (f p)) l

@[simp] theorem modifyAll_cons (l : List α) (p : β) (ps : List β) :
    modifyAll key f l (p :: ps) = modifyAll key f (l.modify (key p) (f p)) ps := rfl

@[simp] theorem length_modifyAll (l : List α) (ps : List β) :
    (modifyAll key f l ps).length = l.length := by
  induction ps generalizing l with
  | nil => rfl
  | cons p ps ih => rw [modifyAll_cons, ih, List.length_modify]

variable {key f}

theorem getElem?_modifyAll_of_not_mem {l : List α} {ps : List β} {i : Nat}
    (h : ∀ p ∈ ps, key p ≠ i) : (modifyAll key f l ps)[i]? = l[i]? := by
  induction ps generalizing l with
  | nil => rfl
  | cons p ps ih =>
    rw [modifyAll_cons, ih fun q hq => h q (List.mem_cons_of_mem _ hq), List.getElem?_modify]
    simp [h p List.mem_cons_self]

theorem getElem?_modifyAll_of_mem {l : List α} {ps : List β} {p : β}
    (hdistinct : ps.Pairwise fun p q => key p ≠ key q) (hp : p ∈ ps) :
    (modifyAll key f l ps)[key p]? = (l[key p]?).map (f p) := by
  induction ps generalizing l with
  | nil => cases hp
  | cons q ps ih =>
    obtain ⟨hhead, htail⟩ := List.pairwise_cons.mp hdistinct
    rw [modifyAll_cons]
    rcases List.mem_cons.mp hp with rfl | hp
    · rw [getElem?_modifyAll_of_not_mem fun r hr => (hhead r hr).symm, List.getElem?_modify]
      simp
    · rw [ih htail hp, List.getElem?_modify]
      simp [hhead p hp]

end Ruse.Lib
