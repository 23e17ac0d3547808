import Mathlib.Data.List.DropRight
import Mathlib.Data.List.TakeWhile

/-!
# Margins

A list between two runs of blanks, for any notion of blank. `trim` cuts both margins off, and
every list is its trimmed part between two margins (`exists_margins`). The first element that is
not blank stands behind the left margin (`lead_margins`), which is what tells a margin apart from
blanks that were written in front of it.
-/

namespace Ruse.Lib

variable {α : Type*} {p : α → Bool} {a b l m : List α}

/-- Without the blanks at both ends. -/
def trim (p : α → Bool) (l : List α) : List α := (l.dropWhile p).rdropWhile p

def Blank (p : α → Bool) (l : List α) : Prop := ∀ x ∈ l, p x = true

instance : Decidable (Blank p l) := inferInstanceAs (Decidable (∀ x ∈ l, p x = true))

/-- How many blanks a list begins with. -/
def lead (p : α → Bool) (l : List α) : Nat := (l.takeWhile p).length

structure Trimmed (p : α → Bool) (m : List α) : Prop where
  head : ∀ h : m ≠ [], p (m.head h) = false
  last : ∀ h : m ≠ [], p (m.getLast h) = false

theorem all_eq_true_iff : l.all p = true ↔ Blank p l := List.all_eq_true

@[simp] theorem blank_nil : Blank p [] := fun _ h => absurd h List.not_mem_nil

theorem blank_append : Blank p (a ++ b) ↔ Blank p a ∧ Blank p b := List.forall_mem_append

theorem Blank.sublist (h : Blank p l) (hs : m.Sublist l) : Blank p m :=
  fun x hx => h x (hs.subset hx)

theorem lead_le (l : List α) : lead p l ≤ l.length :=
  (List.takeWhile_sublist p).length_le

/-- Blanks in front of a list that is not blank are counted on top of its own. -/
theorem lead_append (ha : Blank p a) : lead p (a ++ l) = a.length + lead p l := by
  rw [lead, List.takeWhile_append_of_pos ha, List.length_append, lead]

theorem lead_append_right (hl : ¬ Blank p l) : lead p (l ++ b) = lead p l := by
  unfold lead
  induction l with
  | nil => exact absurd blank_nil hl
  | cons x l ih =>
    cases hx : p x with
    | false => simp [hx]
    | true =>
      have htail : ¬ Blank p l := fun h => hl (List.forall_mem_cons.mpr ⟨hx, h⟩)
      simp [hx, ih htail]

theorem lead_lt_iff : lead p l < l.length ↔ ¬ Blank p l := by
  unfold lead
  induction l with
  | nil => simp
  | cons x l ih =>
    cases hx : p x with
    | false => simp [hx, Blank]
    | true =>
      simp only [List.takeWhile_cons, hx, if_true, List.length_cons, Nat.succ_lt_succ_iff, ih]
      simp [Blank, hx]

theorem blank_take_lead (l : List α) : Blank p (l.take (lead p l)) := by
  intro x hx
  rw [lead, ← List.prefix_iff_eq_take.mp (List.takeWhile_prefix p)] at hx
  exact List.mem_takeWhile_imp hx

theorem le_lead (ha : Blank p a) (h : a <+: l) : a.length ≤ lead p l := by
  obtain ⟨r, rfl⟩ := h
  rw [lead_append ha]
  exact Nat.le_add_right _ _

theorem Trimmed.lead_eq (hm : Trimmed p m) : lead p m = 0 := by
  cases m with
  | nil => rfl
  | cons x m => simpa [lead] using hm.head (List.cons_ne_nil x m)

theorem Trimmed.not_blank (hm : Trimmed p m) (hne : m ≠ []) : ¬ Blank p m := by
  intro h
  have hx := hm.head hne
  rw [h _ (List.head_mem hne)] at hx
  exact Bool.noConfusion hx

theorem trimmed_trim (l : List α) : Trimmed p (trim p l) := by
  refine ⟨fun h => ?_, fun h => ?_⟩
  · have hpre : trim p l <+: l.dropWhile p := List.rdropWhile_prefix p _
    have hne : l.dropWhile p ≠ [] := by
      intro hnil
      rw [hnil] at hpre
      exact h (List.prefix_nil.mp hpre)
    rw [hpre.head h]
    exact List.head_dropWhile_not p hne
  · exact Bool.eq_false_iff.mpr (List.rdropWhile_last_not p _ h)

/-- Every list is its trimmed part between two margins. -/
theorem exists_margins (p : α → Bool) (l : List α) :
    ∃ a b, l = a ++ trim p l ++ b ∧ Blank p a ∧ Blank p b := by
  refine ⟨l.takeWhile p, (l.dropWhile p).rtakeWhile p, ?_, fun _ h => List.mem_takeWhile_imp h, ?_⟩
  · rw [List.append_assoc, trim, List.rdropWhile_append_rtakeWhile, List.takeWhile_append_dropWhile]
  · intro x hx
    exact List.mem_rtakeWhile_imp hx

/-- The margins of a list whose middle is trimmed and not empty are cut off exactly. -/
theorem trim_margins (ha : Blank p a) (hm : Trimmed p m) (hne : m ≠ []) (hb : Blank p b) :
    trim p (a ++ m ++ b) = m := by
  obtain ⟨x, xs, rfl⟩ := List.exists_cons_of_ne_nil hne
  have hx : p x = false := hm.head hne
  rw [trim, List.append_assoc, List.dropWhile_append_of_pos ha, List.cons_append,
    List.dropWhile_cons_of_neg (by simp [hx]), ← List.cons_append, List.rdropWhile,
    List.reverse_append, List.dropWhile_append_of_pos fun y hy => hb y (List.mem_reverse.mp hy)]
  exact List.rdropWhile_eq_self_iff.mpr fun h => by simpa using hm.last h

theorem trim_eq_nil_iff : trim p l = [] ↔ Blank p l := by
  refine ⟨fun h => ?_, fun h => ?_⟩
  · obtain ⟨a, b, hl, ha, hb⟩ := exists_margins p l
    rw [hl, h, List.append_nil]
    exact blank_append.mpr ⟨ha, hb⟩
  · simp [trim, List.dropWhile_eq_nil_iff.mpr h]

theorem Trimmed.around (ha : Trimmed p a) (hane : a ≠ []) (hb : Trimmed p b) (hbne : b ≠ []) :
    Trimmed p (a ++ m ++ b) := by
  refine ⟨fun h => ?_, fun h => ?_⟩
  · have hpre : a <+: a ++ m ++ b := ⟨m ++ b, (List.append_assoc a m b).symm⟩
    rw [← hpre.head hane]
    exact ha.head hane
  · rw [List.getLast_append_of_ne_nil h hbne]
    exact hb.last hbne

theorem Trimmed.append (ha : Trimmed p a) (hb : Trimmed p b) : Trimmed p (a ++ b) := by
  by_cases hane : a = []
  · rwa [hane, List.nil_append]
  by_cases hbne : b = []
  · rwa [hbne, List.append_nil]
  · simpa using ha.around (m := []) hane hb hbne

theorem prefix_trim (ha : Blank p a) (hm : Trimmed p m) (l : List α) : m <+: trim p (a ++ m ++ l) := by
  by_cases hne : m = []
  · rw [hne]
    exact List.nil_prefix
  obtain ⟨x, y, hl, -, hy⟩ := exists_margins p l
  by_cases hblank : Blank p l
  · simp only [trim_margins ha hm hne hblank, List.prefix_rfl]
  · have hmid : trim p l ≠ [] := fun h => hblank (trim_eq_nil_iff.mp h)
    have hcut := trim_margins ha (hm.around (m := x) hne (trimmed_trim l) hmid) (by simp [hne]) hy
    have heq : a ++ m ++ l = a ++ (m ++ x ++ trim p l) ++ y :=
      calc a ++ m ++ l = a ++ m ++ (x ++ trim p l ++ y) := congrArg (a ++ m ++ ·) hl
        _ = a ++ (m ++ x ++ trim p l) ++ y := by simp only [List.append_assoc]
    rw [heq, hcut, List.append_assoc]
    exact List.prefix_append _ _

theorem suffix_trim (hb : Blank p b) (hm : Trimmed p m) (l : List α) : m <:+ trim p (l ++ m ++ b) := by
  by_cases hne : m = []
  · rw [hne]
    exact List.nil_suffix
  obtain ⟨x, y, hl, hx, -⟩ := exists_margins p l
  by_cases hblank : Blank p l
  · simp only [trim_margins hblank hm hne hb, List.suffix_rfl]
  · have hmid : trim p l ≠ [] := fun h => hblank (trim_eq_nil_iff.mp h)
    have hcut := trim_margins hx ((trimmed_trim l).around (m := y) hmid hm hne) (by simp [hne]) hb
    have heq : l ++ m ++ b = x ++ (trim p l ++ y ++ m) ++ b :=
      calc l ++ m ++ b = x ++ trim p l ++ y ++ m ++ b := congrArg (· ++ m ++ b) hl
        _ = x ++ (trim p l ++ y ++ m) ++ b := by simp only [List.append_assoc]
    rw [heq, hcut]
    exact List.suffix_append _ _

/-- The first element that is not blank tells where a list begins behind its margin. -/
theorem lead_margins (ha : Blank p a) (hm : Trimmed p m) (hne : m ≠ []) :
    lead p (a ++ m ++ b) = a.length := by
  rw [List.append_assoc, lead_append ha, lead_append_right (hm.not_blank hne), hm.lead_eq, Nat.add_zero]

end Ruse.Lib
