import Mathlib.Order.Bounds.Basic
import Ruse.Core.Columns

/-!
# Indents

The whitespace an indent is made of, from `crates/core/src/editor/indent.rs`: rebuilt in the
configured style, kept as far as the old one fits and then filled, and what an Insert `<Tab>`
puts before the cursor. Whitespace is measured from a column on by the stops it is laid out
with (`Tabs.advance`).
-/

namespace Ruse.Core

open Ruse.Lib

inductive IndentStyle where
  | space
  | tab
deriving DecidableEq, Repr

structure IndentConfig where
  tabWidth : Nat
  shiftWidth : Nat
  style : IndentStyle
  softTab : Int
  vts : VarStops
  vsts : VarStops
  preserveindent : Bool
  smarttab : Bool

def isBlank (c : UInt8) : Bool := c == Tabs.space || c == Tabs.tabByte

/-- The loop of `indentCols`. -/
def indentLoop (T : Tabs) : Bytes → Nat → Nat → Nat × Nat
  | [], cols, n => (cols, n)
  | c :: line, cols, n =>
    if c = Tabs.space then indentLoop T line (cols + 1) (n + 1)
    else if c = Tabs.tabByte then indentLoop T line (cols + T.padding cols) (n + 1)
    else (cols, n)

/-- The columns of a line's leading whitespace, and its bytes. -/
def indentCols (line : Bytes) (T : Tabs) : Nat × Nat := indentLoop T line 0 0

/-- The loop of `keeping`: the bytes kept, the columns done and those left to do. -/
def keepLoop (T : Tabs) : Bytes → Nat → Nat → Bytes × Nat × Nat
  | [], done, todo => ([], done, todo)
  | c :: old, done, todo =>
    if c = Tabs.tabByte then
      if todo < T.padding done then ([], done, todo)
      else
        let r := keepLoop T old (done + T.padding done) (todo - T.padding done)
        (c :: r.1, r.2)
    else if c = Tabs.space ∧ 0 < todo then
      let r := keepLoop T old (done + 1) (todo - 1)
      (c :: r.1, r.2)
    else ([], done, todo)

/-- The loop of `vcolOf`. -/
def vcolLoop (cells : Cells) (b : Bytes) (le stop : Nat) : (left i v : Nat) → Nat
  | 0, _, v => v
  | left + 1, i, v =>
    if i < stop then
      let (j, w) := cells b i le v
      vcolLoop cells b le stop left j (v + w)
    else v

/-- The display column of `pos` on the line that starts at `start`. -/
def vcolOf (cells : Cells) (b : Bytes) (start pos : Nat) : Nat :=
  let stop := min pos b.length
  vcolLoop cells b (max (lineEnd b start) stop) stop (stop - start) start 0

/-- The start of the blanks that end at `cur`, not before `ls`. -/
def runStart (b : Bytes) (ls : Nat) : Nat → Nat
  | 0 => 0
  | cur + 1 => if ls < cur + 1 ∧ b[cur]?.any isBlank then runStart b ls cur else cur + 1

/-- Tabs from column `v` while they do not pass `want`, and the column after them. -/
def tabsTo (T : Tabs) (want : Nat) : (left v : Nat) → Nat × Nat
  | 0, v => (0, v)
  | left + 1, v =>
    if v + T.padding v ≤ want then
      let r := tabsTo T want left (v + T.padding v)
      (r.1 + 1, r.2)
    else (0, v)

namespace IndentConfig

variable (cfg : IndentConfig)

/-- The tab stops a line is laid out with. -/
def tabs : Tabs := Tabs.new cfg.tabWidth cfg.vts

/-- The effective shiftwidth: when it is `0` the tabstop, or its first variable stop. -/
def shift : Nat := if cfg.shiftWidth = 0 then cfg.tabs.intervalWidth 0 false else cfg.shiftWidth

/-- The effective softtabstop: a negative one is the shiftwidth. -/
def softTabWidth : Nat :=
  if cfg.softTab = 0 then 0 else if cfg.softTab < 0 then cfg.shift else cfg.softTab.toNat

/-- Whether soft tab stops are in use. -/
def softTabsOn : Bool := !cfg.vsts.stops.isEmpty || cfg.softTab != 0

/-- The leading whitespace that spans `cols` columns. -/
def whitespace (cols : Nat) : Bytes :=
  match cfg.style with
  | .space => List.replicate cols Tabs.space
  | .tab => cfg.tabs.fill cols

/-- An indent of `cols` columns that keeps the bytes of `old` as far as they fit. -/
def keeping (old : Bytes) (cols : Nat) : Bytes :=
  let r := keepLoop cfg.tabs old 0 cols
  let (out, done, todo) := (r.1, r.2.1, r.2.2)
  match cfg.style with
  | .tab =>
    let (tabs, spaces) := cfg.tabs.fromto done (done + todo)
    out ++ List.replicate tabs Tabs.tabByte ++ List.replicate spaces Tabs.space
  | .space => out ++ List.replicate todo Tabs.space

/-- The whitespace a changed indent of `cols` columns gets. -/
def rebuilt (old : Bytes) (cols : Nat) : Bytes :=
  if cfg.preserveindent then cfg.keeping old cols else cfg.whitespace cols

/-- Whether `'smarttab'` steps a `<Tab>` at `cur`: all before it on its line is blank. -/
def smart (b : Bytes) (ls cur : Nat) : Bool := cfg.smarttab && (slice b ls cur).all isBlank

/-- Whether the tabstop is not the shiftwidth. -/
def tsNeSw : Bool :=
  match cfg.vts.stops with
  | [] => cfg.tabWidth != cfg.shift
  | [w] => w != cfg.shift
  | _ => true

/-- The `<Tab>` typed at `cur`: where the bytes it replaces start, and what replaces them. -/
def tab (cells : Cells) (b : Bytes) (ls cur : Nat) : Nat × Bytes :=
  let ts := cfg.tabs
  let sw := cfg.shift
  let smart := cfg.smart b ls cur
  if cfg.style ≠ .space ∧ ¬ (smart ∧ cfg.tsNeSw) ∧ ¬ cfg.softTabsOn then (cur, [Tabs.tabByte])
  else
    let vcol := vcolOf cells b ls cur
    let pad :=
      if smart then sw - vcol % sw
      else if cfg.softTabsOn then padding vcol cfg.softTabWidth cfg.vsts
      else ts.padding vcol
    let want := vcol + pad
    if cfg.style = .space then (cur, List.replicate (want - vcol) Tabs.space)
    else
      let from' := runStart b ls cur
      let v := vcolOf cells b ls from'
      let (tabs, v) := tabsTo ts want (want - v) v
      (from', List.replicate tabs Tabs.tabByte ++ List.replicate (want - v) Tabs.space)

/-- The stops that `<Tab>` steps to: the shiftwidth's, the soft ones or the hard ones. -/
def stepsTo (b : Bytes) (ls cur : Nat) : Tabs :=
  if cfg.style ≠ .space ∧ ¬ (cfg.smart b ls cur ∧ cfg.tsNeSw) ∧ ¬ cfg.softTabsOn then cfg.tabs
  else if cfg.smart b ls cur then Tabs.uniform cfg.shift
  else if cfg.softTabsOn then Tabs.new cfg.softTabWidth cfg.vsts
  else cfg.tabs

end IndentConfig

/-! ## Measuring blanks -/

/-- Blanks that span `cols` columns by `indentCols`. -/
structure SpansCols (T : Tabs) (w : Bytes) (cols : Nat) : Prop where
  blank : ∀ c ∈ w, isBlank c
  measure : indentCols w T = (cols, w.length)

section
variable {T : Tabs}

theorem lt_tab (T : Tabs) (c : Nat) : c < T.tab c := by
  obtain ⟨k, hk, -, -, -⟩ := T.exists_interval c
  rw [Tabs.tab_eq hk]
  exact hk.lt_next

theorem isLeast_tab (T : Tabs) (c : Nat) : IsLeast {s | T.IsStop s ∧ c < s} (T.tab c) := by
  obtain ⟨k, hk, -, -, -⟩ := T.exists_interval c
  refine ⟨⟨⟨k + 1, Tabs.tab_eq hk⟩, lt_tab T c⟩, ?_⟩
  rintro s ⟨⟨j, rfl⟩, hj⟩
  rw [Tabs.tab_eq hk]
  have hmono := stop_strictMono T.width_pos
  have hkj := hmono.lt_iff_lt.mp (Nat.lt_of_le_of_lt hk.start_le hj)
  exact hmono.monotone (by omega)

theorem le_foldl_advance (T : Tabs) (w : Bytes) (c : Nat) : c ≤ w.foldl T.advance c := by
  induction w generalizing c with
  | nil => exact Nat.le_refl _
  | cons x w ih =>
    have hstep : c ≤ T.advance c x := by
      have hlt := lt_tab T c
      unfold Tabs.advance
      split <;> omega
    exact hstep.trans (ih _)

theorem indentLoop_blank {w : Bytes} (hw : ∀ c ∈ w, isBlank c) (cols n : Nat) :
    indentLoop T w cols n = (w.foldl T.advance cols, n + w.length) := by
  induction w generalizing cols n with
  | nil => rfl
  | cons c w ih =>
    have hrest := ih fun x hx => hw x (List.mem_cons_of_mem _ hx)
    have hc := hw c List.mem_cons_self
    rw [List.foldl_cons, List.length_cons, indentLoop]
    by_cases hs : c = Tabs.space
    · rw [if_pos hs, hrest, Tabs.advance, if_neg (by simp [hs, Tabs.space, Tabs.tabByte])]
      simp only [Prod.mk.injEq, true_and]
      omega
    · have ht : c = Tabs.tabByte := by simpa [isBlank, hs] using hc
      rw [if_neg hs, if_pos ht, hrest, Tabs.advance, if_pos ht, Tabs.tab]
      simp only [Prod.mk.injEq, true_and]
      omega

theorem spans_of_foldl {w : Bytes} {cols : Nat} (hw : ∀ c ∈ w, isBlank c)
    (h : w.foldl T.advance 0 = cols) : SpansCols T w cols where
  blank := hw
  measure := by rw [indentCols, indentLoop_blank hw, h, Nat.zero_add]

theorem foldl_blanks (T : Tabs) (n m c : Nat) :
    (List.replicate n Tabs.tabByte ++ List.replicate m Tabs.space).foldl T.advance c =
      T.tab^[n] c + m := by
  rw [List.foldl_append, T.foldl_tabs, T.foldl_spaces]

theorem isBlank_blanks (n m : Nat) :
    ∀ c ∈ List.replicate n Tabs.tabByte ++ List.replicate m Tabs.space, isBlank c := by
  intro c hc
  rcases List.mem_append.mp hc with hc | hc
  · simp [List.eq_of_mem_replicate hc, isBlank]
  · simp [List.eq_of_mem_replicate hc, isBlank]

theorem isBlank_spaces (m : Nat) : ∀ c ∈ List.replicate m Tabs.space, isBlank c :=
  isBlank_blanks 0 m

end

/-! ## The kept prefix -/

/-- The first `n` bytes of `old` are blanks that, from column `c`, do not pass `cols`. -/
structure FitsIn (T : Tabs) (cols c : Nat) (old : Bytes) (n : Nat) : Prop where
  le_length : n ≤ old.length
  blank : ∀ x ∈ old.take n, isBlank x
  fits : (old.take n).foldl T.advance c ≤ cols

section
variable {T : Tabs}

theorem fitsIn_zero {cols c : Nat} {old : Bytes} (h : c ≤ cols) : FitsIn T cols c old 0 where
  le_length := Nat.zero_le _
  blank := by simp
  fits := by simpa using h

theorem fitsIn_succ {cols c n : Nat} {x : UInt8} {old : Bytes} :
    FitsIn T cols c (x :: old) (n + 1) ↔ isBlank x ∧ FitsIn T cols (T.advance c x) old n := by
  constructor
  · rintro ⟨hlen, hblank, hfits⟩
    rw [List.take_succ_cons] at hblank hfits
    exact ⟨hblank x List.mem_cons_self, by simpa using hlen,
      fun y hy => hblank y (List.mem_cons_of_mem _ hy), hfits⟩
  · rintro ⟨hx, hlen, hblank, hfits⟩
    refine ⟨by simpa using hlen, ?_, ?_⟩
    · rw [List.take_succ_cons]
      rintro y (_ | ⟨_, hy⟩)
      · exact hx
      · exact hblank y hy
    · rw [List.take_succ_cons]
      exact hfits

/-- What the loop keeps is the longest prefix that fits, and it counts the columns. -/
theorem keepLoop_spec (old : Bytes) (done todo : Nat) :
    ∃ n, IsGreatest {n | FitsIn T (done + todo) done old n} n ∧
      (keepLoop T old done todo).1 = old.take n ∧
      (keepLoop T old done todo).2.1 = (old.take n).foldl T.advance done ∧
      (keepLoop T old done todo).2.1 + (keepLoop T old done todo).2.2 = done + todo := by
  -- where the first byte is not kept, no prefix but the empty one fits
  have hstop (x : UInt8) (rest : Bytes) (c t : Nat)
      (h : isBlank x → c + t < T.advance c x) :
      IsGreatest {n | FitsIn T (c + t) c (x :: rest) n} 0 := by
    refine ⟨fitsIn_zero (by omega), ?_⟩
    rintro (_ | n) hn
    · exact Nat.le_refl 0
    · obtain ⟨hx, hfits⟩ := fitsIn_succ.mp hn
      have hle := (le_foldl_advance T _ _).trans hfits.fits
      have hlt := h hx
      omega
  -- where it is, the prefix grows by it
  have hstep (x : UInt8) (rest : Bytes) (c t n : Nat) (hx : isBlank x)
      (h : IsGreatest {n | FitsIn T (c + t) (T.advance c x) rest n} n) :
      IsGreatest {n | FitsIn T (c + t) c (x :: rest) n} (n + 1) := by
    refine ⟨fitsIn_succ.mpr ⟨hx, h.1⟩, ?_⟩
    rintro (_ | m) hm
    · exact Nat.zero_le _
    · exact Nat.succ_le_succ (h.2 (fitsIn_succ.mp hm).2)
  induction old generalizing done todo with
  | nil =>
    refine ⟨0, ⟨fitsIn_zero (Nat.le_add_right _ _), fun m hm => ?_⟩, rfl, rfl, rfl⟩
    exact hm.le_length
  | cons x old ih =>
    unfold keepLoop
    by_cases htab : x = Tabs.tabByte
    · have hadv : T.advance done x = done + T.padding done := by
        rw [Tabs.advance, if_pos htab, Tabs.tab]
      rw [if_pos htab]
      by_cases hfew : todo < T.padding done
      · rw [if_pos hfew]
        exact ⟨0, hstop x old done todo (fun _ => by omega), rfl, rfl, rfl⟩
      · rw [if_neg hfew]
        obtain ⟨n, hn, hkept, hdone, hsum⟩ :=
          ih (done + T.padding done) (todo - T.padding done)
        have hcols : done + T.padding done + (todo - T.padding done) = done + todo := by omega
        rw [hcols] at hn hsum
        refine ⟨n + 1, hstep x old done todo n (by simp [htab, isBlank]) (hadv ▸ hn), ?_, ?_, hsum⟩
        · rw [List.take_succ_cons]
          exact congrArg (x :: ·) hkept
        · rw [List.take_succ_cons, List.foldl_cons, hadv]
          exact hdone
    · have hadv : T.advance done x = done + 1 := by rw [Tabs.advance, if_neg htab]
      rw [if_neg htab]
      by_cases hspace : x = Tabs.space ∧ 0 < todo
      · rw [if_pos hspace]
        obtain ⟨n, hn, hkept, hdone, hsum⟩ := ih (done + 1) (todo - 1)
        have hcols : done + 1 + (todo - 1) = done + todo := by omega
        rw [hcols] at hn hsum
        refine ⟨n + 1, hstep x old done todo n (by simp [hspace.1, isBlank]) (hadv ▸ hn),
          ?_, ?_, hsum⟩
        · rw [List.take_succ_cons]
          exact congrArg (x :: ·) hkept
        · rw [List.take_succ_cons, List.foldl_cons, hadv]
          exact hdone
      · rw [if_neg hspace]
        refine ⟨0, hstop x old done todo (fun hx => ?_), rfl, rfl, rfl⟩
        have hsp : x = Tabs.space := by simpa [isBlank, htab] using hx
        have hnone : ¬ 0 < todo := fun h => hspace ⟨hsp, h⟩
        omega

end

/-! ## The indents -/

section
variable (cfg : IndentConfig)

theorem spans_whitespace (cols : Nat) : SpansCols cfg.tabs (cfg.whitespace cols) cols := by
  unfold IndentConfig.whitespace
  cases cfg.style with
  | space =>
    refine spans_of_foldl (isBlank_spaces cols) ?_
    rw [Tabs.foldl_spaces, Nat.zero_add]
  | tab =>
    refine spans_of_foldl ?_ (cfg.tabs.foldl_fill cols)
    exact isBlank_blanks _ _

/-- `keeping` keeps a longest prefix and fills up to its columns. -/
theorem keeping_spec (old : Bytes) (cols : Nat) :
    ∃ n, IsGreatest {n | FitsIn cfg.tabs cols 0 old n} n ∧
      old.take n <+: cfg.keeping old cols ∧ SpansCols cfg.tabs (cfg.keeping old cols) cols := by
  obtain ⟨n, hn, hkept, hdone, hsum⟩ := keepLoop_spec (T := cfg.tabs) old 0 cols
  rw [Nat.zero_add] at hn hsum
  refine ⟨n, hn, ?_⟩
  have hblank := hn.1.blank
  unfold IndentConfig.keeping
  dsimp only
  rw [hkept]
  generalize (keepLoop cfg.tabs old 0 cols).2.1 = done at hdone hsum ⊢
  generalize (keepLoop cfg.tabs old 0 cols).2.2 = todo at hsum ⊢
  cases cfg.style with
  | tab =>
    have hland := (cfg.tabs.fromto_lands done (done + todo)).1
    rw [Nat.max_eq_right (Nat.le_add_right done todo), hsum] at hland
    rw [List.append_assoc, hsum]
    refine ⟨List.prefix_append _ _, spans_of_foldl ?_ ?_⟩
    · intro c hc
      rcases List.mem_append.mp hc with hc | hc
      · exact hblank c hc
      · exact isBlank_blanks _ _ c hc
    · rw [List.foldl_append, ← hdone, foldl_blanks]
      exact hland
  | space =>
    refine ⟨List.prefix_append _ _, spans_of_foldl ?_ ?_⟩
    · intro c hc
      rcases List.mem_append.mp hc with hc | hc
      · exact hblank c hc
      · exact isBlank_spaces _ c hc
    · rw [List.foldl_append, ← hdone, Tabs.foldl_spaces]
      exact hsum

theorem spans_rebuilt (old : Bytes) (cols : Nat) :
    SpansCols cfg.tabs (cfg.rebuilt old cols) cols := by
  unfold IndentConfig.rebuilt
  split
  · obtain ⟨n, -, -, hspans⟩ := keeping_spec cfg old cols
    exact hspans
  · exact spans_whitespace cfg cols

end

/-! ## The typed tab -/

/-- The column grows with the position, and with the rounds that are left. -/
theorem vcolLoop_le (cells : Cells) (b : Bytes) (le : Nat) {s t : Nat} (hst : s ≤ t)
    {m n : Nat} (hmn : m ≤ n) (i v : Nat) :
    vcolLoop cells b le s m i v ≤ vcolLoop cells b le t n i v := by
  -- the walk to the nearer byte is the beginning of the walk to the other
  have hgrow (n i v : Nat) : v ≤ vcolLoop cells b le t n i v := by
    induction n generalizing i v with
    | zero => exact Nat.le_refl v
    | succ n ih =>
      unfold vcolLoop
      split
      · exact (Nat.le_add_right _ _).trans (ih _ _)
      · exact Nat.le_refl v
  induction m generalizing n i v with
  | zero => exact hgrow n i v
  | succ m ih =>
    obtain ⟨n, rfl⟩ : ∃ k, n = k + 1 := ⟨n - 1, by omega⟩
    rw [vcolLoop]
    by_cases his : i < s
    · rw [if_pos his, vcolLoop, if_pos (by omega)]
      exact ih (by omega) _ _
    · rw [if_neg his]
      exact hgrow _ i v

theorem vcolOf_le (cells : Cells) {b : Bytes} {ls p q : Nat} (hpq : p ≤ q)
    (hq : q ≤ lineEnd b ls) : vcolOf cells b ls p ≤ vcolOf cells b ls q := by
  unfold vcolOf
  dsimp only
  rw [Nat.max_eq_left (by omega), Nat.max_eq_left (by omega)]
  exact vcolLoop_le cells b _ (by omega) (by omega) ls 0

/-- The run of blanks before `cur`. -/
theorem runStart_spec (b : Bytes) {ls cur : Nat} (h : ls ≤ cur) (hcur : cur ≤ b.length) :
    ls ≤ runStart b ls cur ∧ runStart b ls cur ≤ cur ∧
      (∀ c ∈ slice b (runStart b ls cur) cur, isBlank c) ∧
      (ls < runStart b ls cur → b[runStart b ls cur - 1]?.any isBlank = false) := by
  have hempty (n : Nat) : ∀ c ∈ slice b n n, isBlank c := by simp [slice]
  induction cur with
  | zero => exact ⟨h, Nat.le_refl 0, hempty 0, fun hlt => by simp [runStart] at hlt⟩
  | succ cur ih =>
    unfold runStart
    by_cases hblank : ls < cur + 1 ∧ b[cur]?.any isBlank
    · rw [if_pos hblank]
      obtain ⟨hls, hle, hwhite, hbefore⟩ := ih (by omega) (by omega)
      refine ⟨hls, by omega, ?_, hbefore⟩
      obtain ⟨x, hx, hxwhite⟩ := (Option.any_eq_true _ _).mp hblank.2
      have hlast : slice b cur (cur + 1) = [x] := by
        simp [slice, List.take_one, List.head?_drop, hx]
      intro c hc
      rw [← slice_append_slice hle (Nat.le_succ cur), hlast] at hc
      rcases List.mem_append.mp hc with hc | hc
      · exact hwhite c hc
      · rwa [List.mem_singleton.mp hc]
    · rw [if_neg hblank]
      refine ⟨h, Nat.le_refl _, hempty _, fun hlt => ?_⟩
      simpa using fun hany => hblank ⟨hlt, hany⟩

/-- Tabs up to `want`, as many as fit. -/
theorem tabsTo_spec (T : Tabs) {want left v : Nat} (hv : v ≤ want) (hleft : want - v ≤ left) :
    (tabsTo T want left v).2 = T.tab^[(tabsTo T want left v).1] v ∧
      (tabsTo T want left v).2 ≤ want ∧ want < T.tab (tabsTo T want left v).2 := by
  induction left generalizing v with
  | zero =>
    have hlt := lt_tab T v
    exact ⟨rfl, hv, show want < T.tab v by omega⟩
  | succ left ih =>
    unfold tabsTo
    by_cases hfit : v + T.padding v ≤ want
    · have hlt := lt_tab T v
      unfold Tabs.tab at hlt
      obtain ⟨hcol, hle, hmore⟩ := ih hfit (by omega)
      rw [if_pos hfit]
      refine ⟨?_, hle, hmore⟩
      rw [Function.iterate_succ_apply]
      exact hcol
    · rw [if_neg hfit]
      exact ⟨rfl, hv, Nat.lt_of_not_le hfit⟩

theorem shift_pos (cfg : IndentConfig) : 0 < cfg.shift := by
  unfold IndentConfig.shift
  split
  · obtain ⟨k, -, -, -, hwidth⟩ := cfg.tabs.exists_interval 0
    rw [hwidth]
    exact cfg.tabs.width_pos k
  · omega

/-- The padding of soft tab stops is that of the hard stops they would be. -/
theorem softTab_padding (cfg : IndentConfig) (hon : cfg.softTabsOn) (col : Nat) :
    padding col cfg.softTabWidth cfg.vsts = (Tabs.new cfg.softTabWidth cfg.vsts).padding col := by
  unfold Tabs.padding Tabs.new padding
  by_cases hemp : cfg.vsts.stops.isEmpty
  · have hwidth : 0 < cfg.softTabWidth := by
      have hne : cfg.softTab ≠ 0 := by simpa [IndentConfig.softTabsOn, hemp] using hon
      have hpos := shift_pos cfg
      unfold IndentConfig.softTabWidth
      rw [if_neg hne]
      split <;> omega
    rw [if_pos hemp, if_pos hemp]
    simp only [Nat.max_eq_left hwidth]
  · rw [if_neg hemp, if_neg hemp]

section
variable (cfg : IndentConfig) (cells : Cells) {b : Bytes} {ls cur : Nat}

/-- A typed tab replaces blanks before the cursor by blanks that end on the next stop. -/
theorem tab_spec (hls : ls ≤ cur) (hcur : cur ≤ lineEnd b ls) (hlen : cur ≤ b.length) :
    (ls ≤ (cfg.tab cells b ls cur).1 ∧ (cfg.tab cells b ls cur).1 ≤ cur ∧
      ∀ c ∈ slice b (cfg.tab cells b ls cur).1 cur, isBlank c) ∧
    (∀ c ∈ (cfg.tab cells b ls cur).2, isBlank c) ∧
    (cfg.tab cells b ls cur).2.foldl cfg.tabs.advance
        (vcolOf cells b ls (cfg.tab cells b ls cur).1) =
      (cfg.stepsTo b ls cur).tab (vcolOf cells b ls cur) := by
  have hempty : ∀ c ∈ slice b cur cur, isBlank c := by simp
  unfold IndentConfig.tab IndentConfig.stepsTo
  dsimp only
  by_cases hreal : cfg.style ≠ .space ∧ ¬ (cfg.smart b ls cur ∧ cfg.tsNeSw) ∧ ¬ cfg.softTabsOn
  · rw [if_pos hreal, if_pos hreal]
    refine ⟨⟨hls, Nat.le_refl _, hempty⟩, ?_, ?_⟩
    · exact isBlank_blanks 1 0
    · rfl
  · rw [if_neg hreal, if_neg hreal]
    have hwant : vcolOf cells b ls cur +
        (if cfg.smart b ls cur = true then cfg.shift - vcolOf cells b ls cur % cfg.shift
          else if cfg.softTabsOn = true then
            padding (vcolOf cells b ls cur) cfg.softTabWidth cfg.vsts
          else cfg.tabs.padding (vcolOf cells b ls cur)) =
        (if cfg.smart b ls cur = true then Tabs.uniform cfg.shift
          else if cfg.softTabsOn = true then Tabs.new cfg.softTabWidth cfg.vsts
          else cfg.tabs).tab (vcolOf cells b ls cur) := by
      split
      · have hpos := shift_pos cfg
        have hne : cfg.shift ≠ 0 := by omega
        simp [Tabs.tab, Tabs.padding, Tabs.uniform, padding, VarStops.none, hne]
      · split
        · rename_i hon
          rw [softTab_padding cfg hon, Tabs.tab]
        · rfl
    rw [hwant]
    generalize (if cfg.smart b ls cur = true then Tabs.uniform cfg.shift
      else if cfg.softTabsOn = true then Tabs.new cfg.softTabWidth cfg.vsts
      else cfg.tabs) = U
    have hlt := lt_tab U (vcolOf cells b ls cur)
    by_cases het : cfg.style = .space
    · rw [if_pos het]
      refine ⟨⟨hls, Nat.le_refl _, hempty⟩, isBlank_spaces _, ?_⟩
      rw [Tabs.foldl_spaces]
      exact Nat.add_sub_cancel' hlt.le
    · rw [if_neg het]
      obtain ⟨hstart, hle, hblank, -⟩ := runStart_spec b hls hlen
      have hcol := vcolOf_le cells hle hcur
      obtain ⟨hrun, hfit, -⟩ := tabsTo_spec cfg.tabs (hcol.trans hlt.le) (Nat.le_refl _)
      refine ⟨⟨hstart, hle, hblank⟩, isBlank_blanks _ _, ?_⟩
      rw [foldl_blanks, ← hrun]
      omega

end

/-- Indents are rewritten exactly: the whitespace made for a target of columns is blanks
that measure it, a kept one keeps the longest prefix of the old one that fits, and what a
typed tab puts in place of the blanks before the cursor ends on the next stop. -/
theorem indents_exact (cfg : IndentConfig) :
    (∀ cols, SpansCols cfg.tabs (cfg.whitespace cols) cols) ∧
    (∀ old cols, SpansCols cfg.tabs (cfg.rebuilt old cols) cols ∧
      ∃ n, IsGreatest {n | FitsIn cfg.tabs cols 0 old n} n ∧
        old.take n <+: cfg.keeping old cols ∧ SpansCols cfg.tabs (cfg.keeping old cols) cols) ∧
    ∀ cells b ls cur, ls ≤ cur → cur ≤ lineEnd b ls → cur ≤ b.length →
      ∃ start text, cfg.tab cells b ls cur = (start, text) ∧
        ls ≤ start ∧ start ≤ cur ∧ (∀ c ∈ slice b start cur, isBlank c) ∧
        (∀ c ∈ text, isBlank c) ∧
        IsLeast {s | (cfg.stepsTo b ls cur).IsStop s ∧ vcolOf cells b ls cur < s}
          (text.foldl cfg.tabs.advance (vcolOf cells b ls start)) := by
  refine ⟨spans_whitespace cfg, fun old cols => ?_, ?_⟩
  · exact ⟨spans_rebuilt cfg old cols, keeping_spec cfg old cols⟩
  · intro cells b ls cur hls hcur hlen
    obtain ⟨⟨hstart, hle, hblank⟩, hwhite, hcol⟩ := tab_spec cfg cells hls hcur hlen
    generalize cfg.tab cells b ls cur = r at *
    refine ⟨r.1, r.2, rfl, hstart, hle, hblank, hwhite, ?_⟩
    rw [hcol]
    exact isLeast_tab _ _

/-- Real tabs every 8 columns, soft ones every 4. -/
def softFour : IndentConfig where
  tabWidth := 8
  shiftWidth := 8
  style := .tab
  softTab := 4
  vts := .none
  vsts := .none
  preserveindent := false
  smarttab := false

/-- After `a` and a blank three blanks take the place of the one, up to column 4. -/
theorem indents_exact_soft :
    softFour.tab (fun _ i _ _ => (i + 1, 1)) [97, 32] 0 2 = (1, [32, 32, 32]) ∧
      IsLeast {s | (softFour.stepsTo [97, 32] 0 2).IsStop s ∧
        vcolOf (fun _ i _ _ => (i + 1, 1)) [97, 32] 0 2 < s} 4 := by
  obtain ⟨start, text, htab, -, -, -, -, hleast⟩ := (indents_exact softFour).2.2
    (fun _ i _ _ => (i + 1, 1)) [97, 32] 0 2 (by decide) (by decide) (by decide)
  have hrun : softFour.tab (fun _ i _ _ => (i + 1, 1)) [97, 32] 0 2 = (1, [32, 32, 32]) := by
    decide
  obtain ⟨rfl, rfl⟩ := Prod.mk.inj (htab.symm.trans hrun)
  exact ⟨hrun, hleast⟩

end Ruse.Core
