import Ruse.Core.Pos
import Ruse.Lib.Stops

/-!
# Tab stops

The model of `Tabs` and `VarStops` in `crates/core/src/cells.rs`: a stop every `'tabstop'`
columns, or at the widths of `'vartabstop'`, whose last one repeats for ever.

Every function reads off the one interval its column lies in (`Tabs.exists_interval`):
`padding` its distance to the end, `startCol` its start, `intervalWidth` its width.
-/

namespace Ruse.Core

open Ruse.Lib

/-- The widths of `'vartabstop'`; none when the option is unset. -/
structure VarStops where
  stops : List Nat
  positive : ∀ w ∈ stops, 0 < w

namespace VarStops

def none : VarStops := ⟨[], fun _ h => absurd h List.not_mem_nil⟩

/-- `s[s.len() - 1]`. -/
def last (vts : VarStops) : Nat := vts.stops.getLastD 0

end VarStops

/-- The loop the functions below share, over the widths left: the interval `t` of width
`w` that holds `col`, with the stop that ends it, or the sum of all widths. -/
def findStop (col : Nat) : (t tabcol : Nat) → List Nat → Nat × Nat × Option Nat
  | t, tabcol, [] => (t, tabcol, .none)
  | t, tabcol, w :: ws =>
    if tabcol + w > col then (t, tabcol + w, some w) else findStop col (t + 1) (tabcol + w) ws

/-- `tabstop_padding` for `'tabstop'` (or `'softtabstop'`) `ts` and the stops `vts`. -/
def padding (col ts : Nat) (vts : VarStops) : Nat :=
  if vts.stops.isEmpty then
    let ts := if ts = 0 then 8 else ts
    ts - col % ts
  else
    match findStop col 0 0 vts.stops with
    | (_, tabcol, some _) => tabcol - col
    | (_, tabcol, .none) => vts.last - (col - tabcol) % vts.last

/-- `tabstop_start` for `ts` (or `'softtabstop'`) and the stops `vts`. -/
def startCol (col ts : Nat) (vts : VarStops) : Nat :=
  if vts.stops.isEmpty then
    let ts := max ts 1
    col - col % ts
  else
    match findStop col 0 0 vts.stops with
    | (_, tabcol, some w) => tabcol - w
    | (_, tabcol, .none) =>
      let excess := tabcol % vts.last
      col - (col - excess) % vts.last

/-- The tab stops a line is laid out with. -/
structure Tabs where
  ts : Nat
  vts : VarStops
  positive : 0 < ts

namespace Tabs

/-- A stop every `ts` columns. -/
def uniform (ts : Nat) : Tabs where
  ts := if ts = 0 then 1 else ts
  vts := .none
  positive := by split <;> omega

/-- `'tabstop'` `ts` with `'vartabstop'` `vts`. -/
def new (ts : Nat) (vts : VarStops) : Tabs := ⟨max ts 1, vts, by omega⟩

variable (T : Tabs)

/-- The cells a tab starting at column `col` takes. -/
def padding (col : Nat) : Nat := Core.padding col T.ts T.vts

/-- The width of the tab interval holding `col`, or (`left`) the one before it. -/
def intervalWidth (col : Nat) (left : Bool) : Nat :=
  let s := T.vts.stops
  if s.isEmpty then T.ts
  else
    match findStop col 0 0 s with
    | (t, _, some w) =>
      if left ∧ t = 0 then col
      else if left then s.getD (t - 1) 0
      else w
    | (_, _, .none) => T.vts.last

/-- The column the tab interval holding `col` starts at. -/
def startCol (col : Nat) : Nat := Core.startCol col T.ts T.vts

/-- The second loop of `fromto`, over the widths after the first tab: `tabs` tabs taken,
`sp` columns left. -/
def tabLoop (last : Nat) : List Nat → Nat → Nat → Nat × Nat
  | [], tabs, sp => (tabs + sp / last, sp % last)
  | w :: ws, tabs, sp =>
    if sp = 0 then (tabs + sp / last, sp % last)
    else if sp < w then (tabs, sp)
    else tabLoop last ws (tabs + 1) (sp - w)

/-- The tabs and spaces that fill the columns `[from, to)`. -/
def fromto (fromCol toCol : Nat) : Nat × Nat :=
  let spaces := toCol - fromCol
  let s := T.vts.stops
  if s.isEmpty then
    let initspc := T.ts - fromCol % T.ts
    if spaces ≥ initspc then
      (1 + (spaces - initspc) / T.ts, (spaces - initspc) % T.ts)
    else (spaces / T.ts, spaces % T.ts)
  else
    let (t, tabcol, found) := findStop fromCol 0 0 s
    let last := T.vts.last
    let pad := match found with
      | some _ => tabcol - fromCol
      | .none => last - (fromCol - tabcol) % last
    if spaces < pad then (0, spaces)
    else tabLoop last (s.drop (t + 1)) 1 (spaces - pad)

def tabByte : UInt8 := 9

def space : UInt8 := 32

/-- The leading whitespace that spans `cols` columns: tabs, then spaces. -/
def fill (cols : Nat) : Bytes :=
  let (t, s) := T.fromto 0 cols
  List.replicate t tabByte ++ List.replicate s space

/-! ## The stops -/

/-- The width of interval `k`: past the list, its last one. -/
def width (k : Nat) : Nat :=
  if T.vts.stops.isEmpty then T.ts else T.vts.stops.getD k T.vts.last

def IsStop (c : Nat) : Prop := ∃ k, c = stop T.width k

/-- Where a tab at column `c` ends. -/
def tab (c : Nat) : Nat := c + T.padding c

/-- The column after a byte of whitespace at column `c`. -/
def advance (c : Nat) (b : UInt8) : Nat := if b = tabByte then T.tab c else c + 1

variable {T}

theorem last_mem (h : T.vts.stops ≠ []) : T.vts.last ∈ T.vts.stops := by
  rw [VarStops.last, List.getLastD_eq_getLast?, List.getLast?_eq_some_getLast h]
  exact List.getLast_mem h

theorem width_pos (T : Tabs) (k : Nat) : 0 < T.width k := by
  unfold width
  split
  · exact T.positive
  · rename_i hne
    have hne' : T.vts.stops ≠ [] := by simpa using hne
    rw [List.getD_eq_getElem?_getD]
    cases hk : T.vts.stops[k]? with
    | none => exact T.vts.positive _ (last_mem hne')
    | some w => exact T.vts.positive w (List.mem_of_getElem? hk)

theorem width_far (h : T.vts.stops ≠ []) {k : Nat} (hk : T.vts.stops.length ≤ k) :
    T.width k = T.vts.last := by
  rw [width, if_neg (by simpa using h), List.getD_eq_getElem?_getD, List.getElem?_eq_none hk]
  rfl

theorem width_uniform (h : T.vts.stops = []) (k : Nat) : T.width k = T.ts := by
  rw [width, if_pos (by simp [h])]

theorem stop_uniform (h : T.vts.stops = []) (k : Nat) : stop T.width k = k * T.ts := by
  have hadd := @stop_add T.width 0 T.ts (fun k _ => width_uniform h k) k
  simpa [stop] using hadd

/-- What the loop finds from interval `t` on. -/
theorem findStop_spec (hne : T.vts.stops ≠ []) {col : Nat} {ws : List Nat} {t : Nat}
    (hws : T.vts.stops.drop t = ws) (ht : t ≤ T.vts.stops.length) (hcol : stop T.width t ≤ col) :
    (∃ k, findStop col t (stop T.width t) ws = (k, stop T.width (k + 1), some (T.width k)) ∧
      InInterval T.width k col) ∨
    (findStop col t (stop T.width t) ws =
        (T.vts.stops.length, stop T.width T.vts.stops.length, .none) ∧
      stop T.width T.vts.stops.length ≤ col) := by
  induction ws generalizing t with
  | nil =>
    have hlen := List.drop_eq_nil_iff.mp hws
    obtain rfl : t = T.vts.stops.length := by omega
    exact .inr ⟨rfl, hcol⟩
  | cons w ws ih =>
    have hget : T.vts.stops[t]? = some w := by
      rw [← List.head?_drop, hws]
      rfl
    have hw : T.width t = w := by
      rw [width, if_neg (by simpa using hne), List.getD_eq_getElem?_getD, hget]
      rfl
    have hnext : stop T.width t + w = stop T.width (t + 1) := by
      rw [← hw]
      rfl
    unfold findStop
    rw [hnext]
    by_cases hpast : stop T.width (t + 1) > col
    · rw [if_pos hpast]
      exact .inl ⟨t, by rw [hw], hcol, hpast⟩
    · rw [if_neg hpast]
      refine ih ?_ ?_ (by omega)
      · rw [← List.tail_drop, hws]
        rfl
      · exact (List.getElem?_eq_some_iff.mp hget).1

theorem interval_far (hne : T.vts.stops ≠ []) {col : Nat}
    (hcol : stop T.width T.vts.stops.length ≤ col) :
    ∃ j, InInterval T.width (T.vts.stops.length + j) col ∧
      stop T.width (T.vts.stops.length + j) =
        stop T.width T.vts.stops.length + j * T.vts.last ∧
      j = (col - stop T.width T.vts.stops.length) / T.vts.last := by
  have hw (k : Nat) (hk : T.vts.stops.length ≤ k) := width_far hne hk
  exact ⟨_, inInterval_div hw (T.vts.positive _ (last_mem hne)) hcol, stop_add hw _, rfl⟩

/-- The interval a column lies in, and what each function says of it. -/
theorem exists_interval (T : Tabs) (col : Nat) : ∃ k, InInterval T.width k col ∧
    T.padding col = stop T.width (k + 1) - col ∧ T.startCol col = stop T.width k ∧
    T.intervalWidth col false = T.width k := by
  by_cases hne : T.vts.stops = []
  · have hk : InInterval T.width (col / T.ts) col := by
      have h0 := @inInterval_div T.width 0 T.ts (fun k _ => width_uniform hne k) T.positive
        col (Nat.zero_le _)
      simpa [stop] using h0
    have hdiv := Nat.div_add_mod col T.ts
    have hcomm := Nat.mul_comm T.ts (col / T.ts)
    have hpos := T.positive
    refine ⟨col / T.ts, hk, ?_, ?_, ?_⟩
    · rw [padding, Core.padding, if_pos (by simp [hne]), stop_uniform hne, Nat.succ_mul]
      dsimp only
      rw [if_neg (by omega)]
      omega
    · rw [startCol, Core.startCol, if_pos (by simp [hne]), stop_uniform hne]
      dsimp only
      rw [Nat.max_eq_left hpos]
      omega
    · rw [intervalWidth, width_uniform hne]
      exact if_pos (by simp [hne])
  · have hemp : ¬ T.vts.stops.isEmpty = true := by simpa using hne
    rcases @findStop_spec T hne col _ 0 rfl (Nat.zero_le _) (Nat.zero_le _) with
      ⟨k, hfind, hk⟩ | ⟨hfind, hcol⟩
    · have hfind' : findStop col 0 0 T.vts.stops = (k, stop T.width (k + 1), some (T.width k)) :=
        hfind
      refine ⟨k, hk, ?_, ?_, ?_⟩
      · rw [padding, Core.padding, if_neg hemp, hfind']
      · rw [startCol, Core.startCol, if_neg hemp, hfind']
        exact Nat.add_sub_cancel _ _
      · rw [intervalWidth, if_neg hemp, hfind']
        simp
    · have hfind' : findStop col 0 0 T.vts.stops =
          (T.vts.stops.length, stop T.width T.vts.stops.length, .none) := hfind
      obtain ⟨j, hk, hstop, hj⟩ := interval_far hne hcol
      have hlast := T.vts.positive _ (last_mem hne)
      have hwidth := width_far hne (Nat.le_add_right T.vts.stops.length j)
      have hdiv := Nat.div_add_mod (col - stop T.width T.vts.stops.length) T.vts.last
      rw [← hj, Nat.mul_comm] at hdiv
      have hnext : stop T.width (T.vts.stops.length + j + 1) =
          stop T.width (T.vts.stops.length + j) + T.vts.last := by
        rw [← hwidth]
        rfl
      refine ⟨_, hk, ?_, ?_, ?_⟩
      · rw [padding, Core.padding, if_neg hemp, hfind']
        dsimp only
        omega
      · rw [startCol, Core.startCol, if_neg hemp, hfind']
        dsimp only
        -- what is over of the widths before is a multiple of the last one
        have hexcess : (col - stop T.width T.vts.stops.length % T.vts.last) % T.vts.last =
            (col - stop T.width T.vts.stops.length) % T.vts.last := by
          have hsum := Nat.div_add_mod (stop T.width T.vts.stops.length) T.vts.last
          have hsplit : col - stop T.width T.vts.stops.length % T.vts.last =
              col - stop T.width T.vts.stops.length +
                T.vts.last * (stop T.width T.vts.stops.length / T.vts.last) := by omega
          rw [hsplit, Nat.add_mul_mod_self_left]
        rw [hexcess]
        omega
      · rw [intervalWidth, if_neg hemp, hfind', hwidth]

theorem padding_eq {k c : Nat} (h : InInterval T.width k c) :
    T.padding c = stop T.width (k + 1) - c := by
  obtain ⟨j, hj, hpad, -, -⟩ := T.exists_interval c
  rw [hpad, hj.unique T.width_pos h]

theorem tab_eq {k c : Nat} (h : InInterval T.width k c) : T.tab c = stop T.width (k + 1) := by
  have hlt := h.lt_next
  rw [tab, padding_eq h]
  omega

theorem tabs_eq {k c : Nat} (h : InInterval T.width k c) (n : Nat) :
    T.tab^[n + 1] c = stop T.width (k + n + 1) := by
  induction n with
  | zero => exact tab_eq h
  | succ n ih =>
    rw [Function.iterate_succ_apply', ih, tab_eq (inInterval_stop T.width_pos _)]
    rfl

/-! ## Filling columns -/

/-- From the stop `j` on, `tabLoop` takes a tab for each stop up to the last column and
spaces for the rest. -/
theorem tabLoop_spec (hne : T.vts.stops ≠ []) {ws : List Nat} {j : Nat}
    (hws : T.vts.stops.drop j = ws) {toCol : Nat} (hle : stop T.width j ≤ toCol) (tabs : Nat) :
    ∃ m, tabLoop T.vts.last ws tabs (toCol - stop T.width j) =
        (tabs + m, toCol - stop T.width (j + m)) ∧ InInterval T.width (j + m) toCol := by
  have hlast := T.vts.positive _ (last_mem hne)
  induction ws generalizing j tabs with
  | nil =>
    have hlen := List.drop_eq_nil_iff.mp hws
    have hw (k : Nat) (hk : j ≤ k) : T.width k = T.vts.last := width_far hne (hlen.trans hk)
    have hdiv := Nat.div_add_mod (toCol - stop T.width j) T.vts.last
    have hcomm := Nat.mul_comm T.vts.last ((toCol - stop T.width j) / T.vts.last)
    refine ⟨_, ?_, inInterval_div hw hlast hle⟩
    rw [tabLoop, stop_add hw]
    congr 1
    omega
  | cons w ws ih =>
    have hget : T.vts.stops[j]? = some w := by
      rw [← List.head?_drop, hws]
      rfl
    have hw : T.width j = w := by
      rw [width, if_neg (by simpa using hne), List.getD_eq_getElem?_getD, hget]
      rfl
    have hnext : stop T.width (j + 1) = stop T.width j + w := by
      rw [← hw]
      rfl
    have hwpos : 0 < w := T.vts.positive w (List.mem_of_getElem? hget)
    unfold tabLoop
    by_cases hzero : toCol - stop T.width j = 0
    · rw [if_pos hzero]
      refine ⟨0, ?_, hle, ?_⟩
      · simp [hzero]
      · show toCol < stop T.width (j + 1)
        omega
    · rw [if_neg hzero]
      by_cases hfew : toCol - stop T.width j < w
      · rw [if_pos hfew]
        refine ⟨0, rfl, hle, ?_⟩
        show toCol < stop T.width (j + 1)
        omega
      · rw [if_neg hfew]
        have hdrop : T.vts.stops.drop (j + 1) = ws := by
          rw [← List.tail_drop, hws]
          rfl
        obtain ⟨m, hrun, hin⟩ := ih hdrop (by omega) (tabs + 1)
        have hrest : toCol - stop T.width j - w = toCol - stop T.width (j + 1) := by omega
        refine ⟨m + 1, ?_, ?_⟩
        · rw [hrest, hrun, Nat.add_assoc, Nat.add_comm 1 m, Nat.add_assoc j 1 m, Nat.add_comm 1 m]
        · rw [Nat.add_comm m 1, ← Nat.add_assoc]
          exact hin

/-- Tabs up to the last stop that is not past the last column, spaces from there. -/
theorem fromto_spec (T : Tabs) {fromCol toCol k : Nat} (hk : InInterval T.width k fromCol)
    (hle : fromCol ≤ toCol) :
    (toCol < stop T.width (k + 1) ∧ T.fromto fromCol toCol = (0, toCol - fromCol)) ∨
    ∃ m, InInterval T.width (k + 1 + m) toCol ∧
      T.fromto fromCol toCol = (m + 1, toCol - stop T.width (k + 1 + m)) := by
  have hend := hk.lt_next
  have hpad := padding_eq hk
  by_cases hne : T.vts.stops = []
  · have hpos := T.positive
    have hinit : T.ts - fromCol % T.ts = stop T.width (k + 1) - fromCol := by
      rw [← hpad, padding, Core.padding, if_pos (by simp [hne])]
      rw [if_neg (by omega)]
    unfold fromto
    rw [if_pos (by simp [hne]), hinit]
    by_cases hfit : stop T.width (k + 1) ≤ toCol
    · rw [if_pos (by omega)]
      have hw (i : Nat) (_ : k + 1 ≤ i) : T.width i = T.ts := width_uniform hne i
      have hin := inInterval_div hw hpos hfit
      have hdiv := Nat.div_add_mod (toCol - stop T.width (k + 1)) T.ts
      have hcomm := Nat.mul_comm T.ts ((toCol - stop T.width (k + 1)) / T.ts)
      have hleft : toCol - fromCol - (stop T.width (k + 1) - fromCol) =
          toCol - stop T.width (k + 1) := by omega
      refine .inr ⟨_, hin, ?_⟩
      rw [hleft, stop_add hw, Nat.add_comm 1]
      congr 1
      omega
    · rw [if_neg (by omega)]
      have hsmall : toCol - fromCol < T.ts := by omega
      rw [Nat.div_eq_of_lt hsmall, Nat.mod_eq_of_lt hsmall]
      exact .inl ⟨by omega, rfl⟩
  · have hemp : ¬ T.vts.stops.isEmpty = true := by simpa using hne
    have hloop (j : Nat) (hj : j = k) (pad : Nat) (hpad' : pad = stop T.width (k + 1) - fromCol) :
        (toCol < stop T.width (k + 1) ∧
          (if toCol - fromCol < pad then (0, toCol - fromCol)
            else tabLoop T.vts.last (T.vts.stops.drop (j + 1)) 1 (toCol - fromCol - pad)) =
          (0, toCol - fromCol)) ∨
        ∃ m, InInterval T.width (k + 1 + m) toCol ∧
          (if toCol - fromCol < pad then (0, toCol - fromCol)
            else tabLoop T.vts.last (T.vts.stops.drop (j + 1)) 1 (toCol - fromCol - pad)) =
          (m + 1, toCol - stop T.width (k + 1 + m)) := by
      subst hj hpad'
      by_cases hfit : stop T.width (j + 1) ≤ toCol
      · rw [if_neg (by omega)]
        obtain ⟨m, hrun, hin⟩ := tabLoop_spec hne rfl hfit 1
        have hleft : toCol - fromCol - (stop T.width (j + 1) - fromCol) =
            toCol - stop T.width (j + 1) := by omega
        exact .inr ⟨m, hin, by rw [hleft, hrun, Nat.add_comm 1]⟩
      · rw [if_pos (by omega)]
        exact .inl ⟨by omega, rfl⟩
    unfold fromto
    rw [if_neg hemp]
    rw [padding, Core.padding, if_neg hemp] at hpad
    rcases @findStop_spec T hne fromCol _ 0 rfl (Nat.zero_le _) (Nat.zero_le _) with
      ⟨j, hfind, hj⟩ | ⟨hfind, hcol⟩
    · have hfind' : findStop fromCol 0 0 T.vts.stops =
          (j, stop T.width (j + 1), some (T.width j)) := hfind
      rw [hfind'] at hpad ⊢
      exact hloop j (hj.unique T.width_pos hk) _ hpad
    · have hfind' : findStop fromCol 0 0 T.vts.stops =
          (T.vts.stops.length, stop T.width T.vts.stops.length, .none) := hfind
      obtain ⟨i, hi, -, -⟩ := interval_far hne hcol
      -- past the list the widths left are none, as they are after interval `k`
      have hdrop : T.vts.stops.drop (T.vts.stops.length + 1) = T.vts.stops.drop (k + 1) := by
        rw [List.drop_eq_nil_iff.mpr (by omega), List.drop_eq_nil_iff.mpr]
        have := hi.unique T.width_pos hk
        omega
      rw [hfind'] at hpad ⊢
      dsimp only
      rw [hdrop]
      exact hloop k rfl _ hpad

/-- Tabs, then spaces, from one column land on the other, and no more tabs fit. -/
theorem fromto_lands (T : Tabs) (fromCol toCol : Nat) :
    T.tab^[(T.fromto fromCol toCol).1] fromCol + (T.fromto fromCol toCol).2 = max fromCol toCol ∧
    (T.fromto fromCol toCol).2 < T.padding (T.tab^[(T.fromto fromCol toCol).1] fromCol) ∧
    ∀ n, T.tab^[n] fromCol ≤ max fromCol toCol → n ≤ (T.fromto fromCol toCol).1 := by
  obtain ⟨k, hk, -, -, -⟩ := T.exists_interval fromCol
  have hend := hk.lt_next
  have hmono := stop_strictMono T.width_pos
  -- past the first stop after `fromCol` every tab is one stop
  have hfits (n : Nat) (hn : T.tab^[n] fromCol ≤ max fromCol toCol) :
      n = 0 ∨ stop T.width (k + n) ≤ max fromCol toCol := by
    cases n with
    | zero => exact .inl rfl
    | succ n => exact .inr (tabs_eq hk n ▸ hn)
  by_cases hle : fromCol ≤ toCol
  · rw [Nat.max_eq_right hle] at hfits ⊢
    rcases T.fromto_spec hk hle with ⟨hnone, heq⟩ | ⟨m, hm, heq⟩
    · rw [heq]
      refine ⟨?_, ?_, fun n hn => ?_⟩
      · simp only [Function.iterate_zero, id_eq]
        omega
      · simp only [Function.iterate_zero, id_eq, padding_eq hk]
        omega
      · rcases hfits n hn with rfl | hstop
        · exact Nat.le_refl _
        · have := hmono.lt_iff_lt.mp (Nat.lt_of_le_of_lt hstop hnone)
          omega
    · have hstart := hm.start_le
      have hnext := hm.lt_next
      have hat : T.tab^[m + 1] fromCol = stop T.width (k + 1 + m) := by
        rw [tabs_eq hk, Nat.add_right_comm]
      rw [heq]
      rw [hat]
      refine ⟨by omega, ?_, fun n hn => ?_⟩
      · rw [padding_eq (inInterval_stop T.width_pos _)]
        omega
      · rcases hfits n hn with rfl | hstop
        · exact Nat.zero_le _
        · have := hmono.lt_iff_lt.mp (Nat.lt_of_le_of_lt hstop hnext)
          omega
  · have hnone : T.fromto fromCol toCol = T.fromto fromCol fromCol := by
      have hzero : toCol - fromCol = fromCol - fromCol := by omega
      unfold fromto
      rw [hzero]
    rcases T.fromto_spec hk (Nat.le_refl fromCol) with ⟨-, heq⟩ | ⟨m, hm, -⟩
    · rw [Nat.max_eq_left (by omega), hnone, heq] at *
      refine ⟨?_, ?_, fun n hn => ?_⟩
      · simp
      · simp only [Function.iterate_zero, id_eq, padding_eq hk]
        omega
      · rcases hfits n hn with rfl | hstop
        · exact Nat.le_refl _
        · have := hmono.lt_iff_lt.mp (Nat.lt_of_le_of_lt hstop hend)
          omega
    · have hstart := hm.start_le
      have hfar := hmono.monotone (show k + 1 ≤ k + 1 + m by omega)
      omega

theorem foldl_tabs (T : Tabs) (n c : Nat) :
    (List.replicate n tabByte).foldl T.advance c = T.tab^[n] c := by
  induction n generalizing c with
  | zero => rfl
  | succ n ih =>
    rw [List.replicate_succ, List.foldl_cons, ih, advance, if_pos rfl, Function.iterate_succ_apply]

theorem foldl_spaces (T : Tabs) (n c : Nat) :
    (List.replicate n space).foldl T.advance c = c + n := by
  induction n generalizing c with
  | zero => rfl
  | succ n ih =>
    rw [List.replicate_succ, List.foldl_cons, ih, advance, if_neg (by decide)]
    omega

/-- What fills `cols` columns covers them. -/
theorem foldl_fill (T : Tabs) (cols : Nat) : (T.fill cols).foldl T.advance 0 = cols := by
  have hlands := (T.fromto_lands 0 cols).1
  rw [Nat.max_eq_right (Nat.zero_le cols)] at hlands
  unfold fill
  rw [List.foldl_append, foldl_tabs, foldl_spaces, hlands]

/-- The tab stops agree: `fromto` lands on its column (on the first one where there is
nothing to fill) with as many tabs as fit, `startCol` is the stop its interval begins at,
and `fill` covers its columns. -/
theorem tab_stops (T : Tabs) :
    (∀ fromCol toCol,
      T.tab^[(T.fromto fromCol toCol).1] fromCol + (T.fromto fromCol toCol).2 =
        max fromCol toCol ∧
      (T.fromto fromCol toCol).2 < T.padding (T.tab^[(T.fromto fromCol toCol).1] fromCol) ∧
      ∀ n, T.tab^[n] fromCol ≤ max fromCol toCol → n ≤ (T.fromto fromCol toCol).1) ∧
    (∀ c, T.IsStop (T.startCol c) ∧ T.startCol c ≤ c ∧
      T.startCol c + T.intervalWidth c false = c + T.padding c) ∧
    ∀ cols, (T.fill cols).foldl T.advance 0 = cols := by
  refine ⟨T.fromto_lands, fun c => ?_, T.foldl_fill⟩
  obtain ⟨k, hk, hpad, hstart, hwidth⟩ := T.exists_interval c
  have hle := hk.start_le
  have hlt := hk.lt_next
  rw [hstart, hwidth, hpad]
  refine ⟨⟨k, rfl⟩, hle, ?_⟩
  have hnext : stop T.width (k + 1) = stop T.width k + T.width k := rfl
  omega

/-- Stops at 4 and then every 8: from column 2 to 21, tabs to 4, 12 and 20, and a space. -/
example : (Tabs.new 8 ⟨[4, 8], by decide⟩).fromto 2 21 = (3, 1) := by decide

end Tabs

end Ruse.Core
