import Mathlib.Algebra.BigOperators.Group.List.Basic
import Mathlib.Data.Nat.Count
import Mathlib.Tactic.Linarith

/-!
# Tiles

A row of tiles, each over a range of positions and a range of columns, laid end to end
(`Tiled`): what a line is to an editor that draws some characters wider than others. Every
column of the row is under one tile (`Tiled.under`), every position too (`Tiled.over`), and
between two marks of the row, the ends of its tiles, the widths add up to the columns
(`Mark.spanWidth`).
-/

namespace Ruse.Lib

/-- Positions `start ≤ · < stop`, drawn over `width` columns from `col` on. -/
structure Tile where
  start : Nat
  stop : Nat
  col : Nat
  width : Nat
deriving DecidableEq, Repr

namespace Tile

def endCol (t : Tile) : Nat := t.col + t.width

def Covers (t : Tile) (c : Nat) : Prop := t.col ≤ c ∧ c < t.endCol

def Holds (t : Tile) (p : Nat) : Prop := t.start ≤ p ∧ p < t.stop

end Tile

/-- Tiles end to end, from position `i` and column `v` to position `j` and column `n`. -/
inductive Tiled : (i v : Nat) → List Tile → (j n : Nat) → Prop
  | nil (i v : Nat) : Tiled i v [] i v
  | cons {i v j n : Nat} {t : Tile} {ts : List Tile} (hstart : t.start = i) (hcol : t.col = v)
      (hstop : i < t.stop) (hwidth : 0 < t.width) (h : Tiled t.stop t.endCol ts j n) :
      Tiled i v (t :: ts) j n

/-- The width of the tiles between two positions. -/
def spanWidth (ts : List Tile) (p q : Nat) : Nat :=
  ((ts.filter fun t => decide (p ≤ t.start ∧ t.stop ≤ q)).map Tile.width).sum

/-- The columns below `n` that lie in `[lo, hi]`. -/
def within (lo hi n : Nat) : Nat := n.count fun c => lo ≤ c ∧ c ≤ hi

theorem within_eq {lo hi : Nat} (h : lo ≤ hi) (n : Nat) : within lo hi n = min n (hi + 1) - lo := by
  induction n with
  | zero => simp [within]
  | succ n ih =>
    rw [within, Nat.count_succ, ← within, ih]
    split <;> omega

theorem spanWidth_append (ts us : List Tile) (p q : Nat) :
    spanWidth (ts ++ us) p q = spanWidth ts p q + spanWidth us p q := by
  simp [spanWidth]

namespace Tiled

variable {ts us : List Tile} {t : Tile} {i v j n k m p c : Nat}

theorem le (h : Tiled i v ts j n) : i ≤ j ∧ v ≤ n := by
  induction h with
  | nil => exact ⟨Nat.le_refl _, Nat.le_refl _⟩
  | cons hstart hcol hstop hwidth _ ih =>
    simp only [Tile.endCol] at ih
    omega

theorem append (h : Tiled i v ts j n) (h' : Tiled j n us k m) : Tiled i v (ts ++ us) k m := by
  induction h with
  | nil => exact h'
  | cons hstart hcol hstop hwidth _ ih => exact .cons hstart hcol hstop hwidth (ih h')

theorem snoc (h : Tiled i v ts t.start t.col) (hstop : t.start < t.stop) (hwidth : 0 < t.width) :
    Tiled i v (ts ++ [t]) t.stop t.endCol :=
  h.append (.cons rfl rfl hstop hwidth (.nil _ _))

theorem inside (h : Tiled i v ts j n) (ht : t ∈ ts) :
    i ≤ t.start ∧ t.start < t.stop ∧ t.stop ≤ j ∧ v ≤ t.col ∧ 0 < t.width ∧ t.endCol ≤ n := by
  induction h with
  | nil => cases ht
  | cons hstart hcol hstop hwidth h ih =>
    have hle := h.le
    rcases List.mem_cons.mp ht with rfl | ht
    · omega
    · have := ih ht
      simp only [Tile.endCol] at *
      omega

/-- The columns of a row are each under one of its tiles. -/
theorem under (h : Tiled i v ts j n) (hv : v ≤ c) (hc : c < n) : ∃! t, t ∈ ts ∧ t.Covers c := by
  induction h with
  | nil => omega
  | @cons i v j n t ts hstart hcol hstop hwidth h ih =>
    by_cases hin : c < t.endCol
    · refine ⟨t, ⟨List.mem_cons_self, by omega, hin⟩, fun u hu => ?_⟩
      rcases List.mem_cons.mp hu.1 with rfl | hmem
      · rfl
      · have := (h.inside hmem).2.2.2.1
        have := hu.2.1
        omega
    · obtain ⟨u, hu, huniq⟩ := ih (by omega) hc
      refine ⟨u, ⟨List.mem_cons_of_mem _ hu.1, hu.2⟩, fun u' hu' => ?_⟩
      rcases List.mem_cons.mp hu'.1 with rfl | hmem
      · exact absurd hu'.2.2 hin
      · exact huniq u' ⟨hmem, hu'.2⟩

theorem apart (h : Tiled i v ts j n) {t u : Tile} (ht : t ∈ ts) (hu : u ∈ ts) :
    t = u ∨ t.endCol ≤ u.col ∨ u.endCol ≤ t.col := by
  induction h with
  | nil => cases ht
  | cons hstart hcol hstop hwidth h ih =>
    rcases List.mem_cons.mp ht with heq | ht
    · rcases List.mem_cons.mp hu with heq' | hu
      · exact .inl (heq.trans heq'.symm)
      · exact .inr (.inl (heq ▸ (h.inside hu).2.2.2.1))
    · rcases List.mem_cons.mp hu with heq | hu
      · exact .inr (.inr (heq ▸ (h.inside ht).2.2.2.1))
      · exact ih ht hu

/-- A search for the first tile that ends past a column finds the tile over it. -/
theorem find_under (h : Tiled i v ts j n) (hv : v ≤ c) :
    (∀ t ∈ ts, t.Covers c → ts.find? (fun t => decide (c < t.endCol)) = some t) ∧
    (n ≤ c → ts.find? (fun t => decide (c < t.endCol)) = none) := by
  induction h with
  | nil => exact ⟨fun t ht => absurd ht List.not_mem_nil, fun _ => rfl⟩
  | @cons i v j n t ts hstart hcol hstop hwidth h ih =>
    have hle := h.le
    rw [List.find?_cons]
    by_cases hin : c < t.endCol
    · rw [decide_eq_true hin]
      refine ⟨fun u hu hcov => ?_, fun hn => by omega⟩
      rcases List.mem_cons.mp hu with rfl | hmem
      · rfl
      · have := (h.inside hmem).2.2.2.1
        have := hcov.1
        omega
    · rw [decide_eq_false hin]
      obtain ⟨hfound, hnone⟩ := ih (by omega)
      refine ⟨fun u hu hcov => ?_, hnone⟩
      rcases List.mem_cons.mp hu with rfl | hmem
      · exact absurd hcov.2 hin
      · exact hfound u hmem hcov

/-- A search for the first tile that ends past a position finds the tile that holds it. -/
theorem find_over (h : Tiled i v ts j n) (hp : i ≤ p) :
    (∀ t ∈ ts, t.Holds p → ts.find? (fun t => decide (p < t.stop)) = some t) ∧
    (j ≤ p → ts.find? (fun t => decide (p < t.stop)) = none) := by
  induction h with
  | nil => exact ⟨fun t ht => absurd ht List.not_mem_nil, fun _ => rfl⟩
  | @cons i v j n t ts hstart hcol hstop hwidth h ih =>
    have hle := h.le
    rw [List.find?_cons]
    by_cases hin : p < t.stop
    · rw [decide_eq_true hin]
      refine ⟨fun u hu hcov => ?_, fun hn => by omega⟩
      rcases List.mem_cons.mp hu with rfl | hmem
      · rfl
      · have := (h.inside hmem).1
        have := hcov.1
        omega
    · rw [decide_eq_false hin]
      obtain ⟨hfound, hnone⟩ := ih (by omega)
      refine ⟨fun u hu hcov => ?_, hnone⟩
      rcases List.mem_cons.mp hu with rfl | hmem
      · exact absurd hcov.2 hin
      · exact hfound u hmem hcov

theorem rest (h : Tiled i v (us ++ ts) j n) (hus : Tiled i v us p c) : Tiled p c ts j n := by
  induction hus with
  | nil => exact h
  | cons hstart hcol hstop hwidth _ ih =>
    cases h with
    | cons _ _ _ _ h => exact ih h

theorem spanWidth_self (h : Tiled i v ts j n) (hp : p ≤ i) (hq : j ≤ k) :
    v + spanWidth ts p k = n := by
  induction h with
  | nil => simp [spanWidth]
  | cons hstart hcol hstop hwidth h ih =>
    have hle := h.le
    have hrest := ih (by omega) hq
    rw [spanWidth, List.filter_cons_of_pos (by simp; omega), List.map_cons, List.sum_cons, ← spanWidth]
    simp only [Tile.endCol] at hrest
    omega

theorem sum_width (h : Tiled i v ts j n) : v + (ts.map Tile.width).sum = n := by
  induction h with
  | nil => rfl
  | cons hstart hcol hstop hwidth _ ih =>
    simp only [List.map_cons, List.sum_cons, Tile.endCol] at ih ⊢
    omega

theorem spanWidth_eq_zero (h : Tiled i v ts j n) (hq : k ≤ i ∨ j ≤ p) : spanWidth ts p k = 0 := by
  rw [spanWidth, List.filter_eq_nil_iff.mpr fun t ht => ?_]
  · rfl
  · have := h.inside ht
    simp
    omega

end Tiled

/-- Position `p` stands at column `c`, between two tiles of the row or at one of its ends. -/
def Mark (i v : Nat) (ts : List Tile) (p c : Nat) : Prop :=
  ∃ us ws, ts = us ++ ws ∧ Tiled i v us p c

namespace Mark

variable {ts : List Tile} {i v j n p q c d : Nat}

theorem le (h : Mark i v ts p c) : i ≤ p := by
  obtain ⟨us, ws, -, hus⟩ := h
  exact hus.le.1

theorem le_stop (hp : Mark i v ts p c) (h : Tiled i v ts j n) : p ≤ j := by
  obtain ⟨us, ws, rfl, hus⟩ := hp
  exact (h.rest hus).le.1

theorem apart (hp : Mark i v ts p c) (h : Tiled i v ts j n) {t : Tile} (ht : t ∈ ts) :
    (t.stop ≤ p ∧ t.endCol ≤ c) ∨ (p ≤ t.start ∧ c ≤ t.col) := by
  obtain ⟨us, ws, rfl, hus⟩ := hp
  rcases List.mem_append.mp ht with ht | ht
  · have := hus.inside ht
    exact .inl ⟨this.2.2.1, this.2.2.2.2.2⟩
  · have := (h.rest hus).inside ht
    exact .inr ⟨this.1, this.2.2.2.1⟩

/-- From one mark to another the widths add up to the columns. -/
theorem spanWidth (hp : Mark i v ts p c) (h : Tiled i v ts j n) (hq : Mark i v ts q d)
    (hpq : p ≤ q) : c + Lib.spanWidth ts p q = d := by
  obtain ⟨us, ws, rfl, hus⟩ := hp
  obtain ⟨us', ws', heq, hus'⟩ := hq
  have hbefore := hus.spanWidth_eq_zero (p := p) (k := q) (.inr (Nat.le_refl _))
  rcases List.append_eq_append_iff.mp heq with ⟨as, rfl, rfl⟩ | ⟨as, rfl, rfl⟩
  · -- the tiles between the marks, and those after them
    have hmid := hus'.rest hus
    have hafter := (h.rest hus).rest hmid
    rw [spanWidth_append, spanWidth_append, hbefore, Nat.zero_add,
      hafter.spanWidth_eq_zero (.inl (Nat.le_refl _))]
    exact hmid.spanWidth_self (Nat.le_refl _) (Nat.le_refl _)
  · have hmid := hus.rest hus'
    have hafter := h.rest hus
    rw [spanWidth_append, hbefore, hafter.spanWidth_eq_zero (.inl ?_)]
    · cases hmid with
      | nil => rfl
      | cons hstart hcol hstop hwidth hrest =>
        have := hrest.le
        omega
    · exact hmid.le.1

end Mark

end Ruse.Lib
