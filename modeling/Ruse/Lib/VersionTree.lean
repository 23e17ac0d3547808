import Mathlib.Data.List.GetD
import Mathlib.Data.List.Induction
import Mathlib.Logic.Relation

/-!
# Version trees

A history in which every version but the root is made from an older one by an
edit. The edges are listed in creation order, `none` for the root and
`some (p, e)` for a version made from version `p` by `e`, so the tree grows by
appending and a version, once made, never changes (`versions_append`).

Moving through the tree is a `Walk` along its edges, out of a version into its
parent or from a parent into a version. When every edge carries an edit for each
direction that takes one end's value to the other's (`Sound`), replaying the
edits of a walk takes the value of its start to the value of its end
(`Walk.replay`): what a version holds does not depend on how it was reached.
`Under` is the order of descent.
-/

namespace Ruse.Lib.VersionTree

variable {α : Type*} {ε : Type*}
variable {a b c n p : Nat} {path : List Nat}

/-! ## The versions of a growing tree -/

/-- The value an edge makes, given the values of the older versions. -/
def value (act : ε → α → α) (root : α) (vals : List α) : Option (Nat × ε) → α
  | none => root
  | some (p, e) => act e (vals.getD p root)

/-- The values of the versions, oldest first. -/
def versions (act : ε → α → α) (root : α) (edges : List (Option (Nat × ε))) : List α :=
  edges.foldl (fun vals edge => vals ++ [value act root vals edge]) []

section
variable (act : ε → α → α) (root : α)

theorem versions_append (edges : List (Option (Nat × ε))) (edge : Option (Nat × ε)) :
    versions act root (edges ++ [edge]) =
      versions act root edges ++ [value act root (versions act root edges) edge] := by
  simp [versions]

@[simp] theorem length_versions (edges : List (Option (Nat × ε))) :
    (versions act root edges).length = edges.length := by
  induction edges using List.reverseRecOn with
  | nil => rfl
  | append_singleton edges edge ih => simp [versions_append, ih]

/-- The version a tree holds at `i`, the root's value past the end. -/
def version (edges : List (Option (Nat × ε))) (i : Nat) : α :=
  (versions act root edges).getD i root

theorem version_append {edges rest : List (Option (Nat × ε))} {i : Nat}
    (hi : i < edges.length) :
    version act root (edges ++ rest) i = version act root edges i := by
  induction rest using List.reverseRecOn with
  | nil => simp
  | append_singleton rest edge ih =>
    rw [← ih, version, version, ← List.append_assoc, versions_append,
      List.getD_append _ _ _ _ (by rw [length_versions, List.length_append]; omega)]

theorem version_last (edges : List (Option (Nat × ε))) (p : Nat) (e : ε) :
    version act root (edges ++ [some (p, e)]) edges.length =
      act e (version act root edges p) := by
  rw [version, versions_append, List.getD_append_right _ _ _ _ (by simp)]
  simp [value, version]

end

/-! ## Walks -/

/-- One step along an edge: out of a version into its parent, or from its parent
into a version. -/
inductive Leg where
  | out (n : Nat)
  | into (n : Nat)

/-- The version whose edge a leg follows. -/
def Leg.edge : Leg → Nat
  | .out n => n
  | .into n => n

variable (parent : Nat → Option Nat)

/-- A walk along the edges of the tree. -/
inductive Walk : Nat → List Leg → Nat → Prop
  | here (n : Nat) : Walk n [] n
  | out {n p m : Nat} {legs : List Leg} : parent n = some p → Walk p legs m →
      Walk n (.out n :: legs) m
  | into {n c m : Nat} {legs : List Leg} : parent c = some n → Walk c legs m →
      Walk n (.into c :: legs) m

variable {parent}

theorem Walk.append {l l' : List Leg} (h : Walk parent a l b) (h' : Walk parent b l' c) :
    Walk parent a (l ++ l') c := by
  induction h with
  | here n => exact h'
  | out hp _ ih => exact .out hp (ih h')
  | into hp _ ih => exact .into hp (ih h')

def Leg.edit (fwd bwd : Nat → ε) : Leg → ε
  | .out n => bwd n
  | .into n => fwd n

/-- Every edge's edits take the value of one end to the value of the other;
`act` answers `none` for a value the edit does not fit. -/
structure Sound (parent : Nat → Option Nat) (fwd bwd : Nat → ε)
    (act : ε → α → Option α) (val : Nat → α) : Prop where
  into : ∀ n p, parent n = some p → act (fwd n) (val p) = some (val n)
  out : ∀ n p, parent n = some p → act (bwd n) (val n) = some (val p)

/-- Apply edits one after the other, stopping at one that does not fit. -/
def replay (act : ε → α → Option α) : List ε → α → Option α
  | [], a => some a
  | e :: es, a => (act e a).bind (replay act es)

theorem replay_append (act : ε → α → Option α) (es es' : List ε) (a : α) :
    replay act (es ++ es') a = (replay act es a).bind (replay act es') := by
  induction es generalizing a with
  | nil => rfl
  | cons e es ih =>
    simp only [List.cons_append, replay]
    cases act e a with
    | none => rfl
    | some b => exact ih b

/-- Replaying a walk takes the value of its start to the value of its end. -/
theorem Walk.replay {fwd bwd : Nat → ε} {act : ε → α → Option α} {val : Nat → α}
    (hs : Sound parent fwd bwd act val) {legs : List Leg} (h : Walk parent a legs b) :
    VersionTree.replay act (legs.map (Leg.edit fwd bwd)) (val a) = some (val b) := by
  induction h with
  | here n => rfl
  | out hp _ ih =>
    rw [List.map_cons, VersionTree.replay, Leg.edit, hs.out _ _ hp, Option.bind_some, ih]
  | into hp _ ih =>
    rw [List.map_cons, VersionTree.replay, Leg.edit, hs.into _ _ hp, Option.bind_some, ih]

/-! ## Descendants -/

variable (parent) in
/-- Version `n` is `c` or descends from it. -/
def Under (c n : Nat) : Prop := Relation.ReflTransGen (fun p m => parent m = some p) c n

namespace Under

theorem refl (n : Nat) : Under parent n n := Relation.ReflTransGen.refl

theorem made (h : Under parent c p) (hp : parent n = some p) : Under parent c n :=
  h.tail hp

theorem trans (h : Under parent a b) (h' : Under parent b c) :
    Under parent a c := Relation.ReflTransGen.trans h h'

/-- A descendant is the version itself or descends through its own parent. -/
theorem last (h : Under parent c n) (hp : parent n = some p) :
    n = c ∨ Under parent c p := by
  rcases Relation.ReflTransGen.cases_tail h with heq | ⟨q, hq, hqn⟩
  · exact .inl heq
  · rw [hp] at hqn
    cases hqn
    exact .inr hq

theorem le (hlt : ∀ m p, parent m = some p → p < m) (h : Under parent c n) :
    c ≤ n := by
  induction h with
  | refl => exact Nat.le_refl _
  | tail _ hp ih => exact Nat.le_of_lt (Nat.lt_of_le_of_lt ih (hlt _ _ hp))

/-- A node lies below one child of a parent at most. -/
theorem child_unique {c' : Nat} (hlt : ∀ m p, parent m = some p → p < m) (hc : parent c = some p)
    (hc' : parent c' = some p) (h : Under parent c n) (h' : Under parent c' n) : c' = c := by
  induction h with
  | refl =>
    rcases h'.last hc with heq | hup
    · exact heq.symm
    · have := hup.le hlt
      have := hlt _ _ hc'
      omega
  | @tail m n hcm hm ih =>
    rcases h'.last hm with rfl | hup
    · -- `c'` would be `p`'s child and a descendant of its sibling
      rw [hm] at hc'
      cases hc'
      have := Under.le hlt hcm
      have := hlt _ _ hc
      omega
    · exact ih hup

end Under

theorem Walk.under (h : Walk parent a (path.map .into) b) :
    Under parent a b := by
  induction path generalizing a with
  | nil =>
    cases h
    exact .refl _
  | cons n rest ih =>
    cases h with
    | into hp hrest => exact (Under.refl a).made hp |>.trans (ih hrest)

/-! ## Paths down -/

section
variable {parent : Nat → Option Nat}

/-- A path down with one version more comes to that version, from its parent. -/
theorem Walk.into_concat :
    Walk parent a ((path ++ [n]).map .into) b ↔
      n = b ∧ ∃ p, Walk parent a (path.map .into) p ∧ parent n = some p := by
  induction path generalizing a with
  | nil =>
    constructor
    · intro h
      cases h with
      | into hp hrest =>
        cases hrest
        exact ⟨rfl, a, .here a, hp⟩
    · rintro ⟨rfl, p, hw, hp⟩
      cases hw
      exact .into hp (.here n)
  | cons m path ih =>
    constructor
    · intro h
      cases h with
      | into hp hrest =>
        obtain ⟨hn, p, hw, hnp⟩ := ih.mp hrest
        exact ⟨hn, p, .into hp hw, hnp⟩
    · rintro ⟨rfl, p, hw, hnp⟩
      cases hw with
      | into hp hrest => exact .into hp (ih.mpr ⟨rfl, p, hrest, hnp⟩)

theorem Walk.back (h : Walk parent a (path.map .into) b) :
    Walk parent b (path.reverse.map .out) a := by
  induction path generalizing a with
  | nil =>
    cases h
    exact .here _
  | cons n path ih =>
    cases h with
    | into hp hrest =>
      rw [List.reverse_cons, List.map_append]
      exact (ih hrest).append (.out hp (.here _))

theorem Walk.under_of_mem (h : Walk parent a (path.map .into) b) (hn : n ∈ path) :
    Under parent n b := by
  induction path generalizing a with
  | nil => cases hn
  | cons m path ih =>
    cases h with
    | into hp hrest =>
      rcases List.mem_cons.mp hn with rfl | hn
      · exact hrest.under
      · exact ih hrest hn

theorem Walk.mem_or_under (h : Walk parent a (path.map .into) b) (hn : Under parent n b) :
    n ∈ path ∨ Under parent n a := by
  induction path using List.reverseRecOn generalizing b with
  | nil =>
    cases h
    exact .inr hn
  | append_singleton path m ih =>
    obtain ⟨rfl, p, hw, hp⟩ := Walk.into_concat.mp h
    rcases hn.last hp with rfl | hup
    · exact .inl (by simp)
    · rcases ih hw hup with hmem | hup
      · exact .inl (List.mem_append_left _ hmem)
      · exact .inr hup

/-- There is one way down from a node to another. -/
theorem Walk.path_unique {path' : List Nat} (hlt : ∀ m p, parent m = some p → p < m)
    (h : Walk parent a (path.map .into) b) (h' : Walk parent a (path'.map .into) b) :
    path = path' := by
  -- no path but the empty one comes back to where it starts
  have hclosed : ∀ {a : Nat} {l : List Nat} {n : Nat},
      ¬ Walk parent a ((n :: l).map .into) a := by
    intro a l n hw
    cases hw with
    | into hp hrest =>
      have := hrest.under.le hlt
      have := hlt _ _ hp
      omega
  induction path using List.reverseRecOn generalizing b path' with
  | nil =>
    cases h
    cases path' with
    | nil => rfl
    | cons n l => exact absurd h' hclosed
  | append_singleton path n ih =>
    obtain ⟨rfl, p, hw, hp⟩ := Walk.into_concat.mp h
    cases hl : path' using List.reverseRecOn with
    | nil =>
      subst hl
      cases h'
      cases path with
      | nil => exact absurd h hclosed
      | cons m l => exact absurd h hclosed
    | append_singleton path'' n' =>
      subst hl
      obtain ⟨rfl, p', hw', hp'⟩ := Walk.into_concat.mp h'
      rw [hp] at hp'
      cases hp'
      rw [ih hw hw']

end

end Ruse.Lib.VersionTree
