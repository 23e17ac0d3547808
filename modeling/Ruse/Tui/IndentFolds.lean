import Ruse.Core.Indent
import Ruse.Tui.FoldEdits
import Ruse.Lib.MaximalRuns

/-!
# Folds of `foldmethod=indent`

The folds that follow from the indents of a text, from `apps/tui/src/folds.rs`. Each line has
an effective level; each run of two lines or more that is maximal among those at some depth
or deeper is a fold, once, with the least level of its lines. What a foldlevel hides follows
(`foldlevel_hides`).
-/

namespace Ruse.Tui

open Ruse.Lib Ruse.Core

variable {folds : List Fold}

/-- The indent level of a line: its indent in columns over the `shiftwidth`, rounded down. -/
def lineIndentLevel (line : Bytes) (tabstop : Tabs) (shiftwidth : Nat) : Nat :=
  (indentCols line tabstop).1 / max shiftwidth 1

/-- Whether a line is blank or starts, after its indent, with the `#` of `foldignore`. -/
def isIgnoredLine (line : Bytes) : Bool :=
  match line.find? fun c => c != Tabs.space && c != Tabs.tabByte with
  | none => true
  | some c => c == 0x23

/-- The lines of a text. A last newline ends its last line. -/
def foldLines (text : Bytes) : List Bytes :=
  let lines := text.splitOn newline
  if 1 < lines.length ∧ lines.getLast? = some [] then lines.dropLast else lines

/-- A line's own level, none for an ignored line. -/
def ownLevel (tabstop : Tabs) (shiftwidth : Nat) (line : Bytes) : Option Nat :=
  if isIgnoredLine line then none else some (lineIndentLevel line tabstop shiftwidth)

/-- The effective levels of lines and the level that an ignored line above them gets: the
scan from the last line up. -/
def effective (own : List (Option Nat)) : List Nat × Nat :=
  own.foldr (fun o r => (o.getD r.2 :: r.1, o.getD r.2)) ([], 0)

/-- The inner loop: past the lines at depth `d` or deeper. -/
def passRun (eff : List Nat) (d : Nat) : (left i : Nat) → Nat
  | 0, i => i
  | left + 1, i => if i < eff.length ∧ d ≤ eff.getD i 0 then passRun eff d left (i + 1) else i

/-- The runs of lines at depth `d` or deeper, from line `i` on. -/
def runsAt (eff : List Nat) (d : Nat) : (left i : Nat) → List Span
  | 0, _ => []
  | left + 1, i =>
    if i < eff.length then
      if eff.getD i 0 < d then runsAt eff d left (i + 1)
      else
        let stop := passRun eff d (eff.length - i) i
        ⟨i, stop - 1⟩ :: runsAt eff d left stop
    else []

/-- A run of two lines or more becomes a fold, unless there is one of the same lines. -/
def addRun (eff : List Nat) (d : Nat) (folds : List Fold) (run : Span) : List Fold :=
  if run.start < run.stop then
    let level := ((eff.take (run.stop + 1)).drop run.start).min?.getD d
    if folds.any fun f => f.start == run.start && f.stop == run.stop then folds
    else folds ++ [⟨⟨run, level⟩, false⟩]
  else folds

def computeIndentFolds (text : Bytes) (tabstop : Tabs) (shiftwidth : Nat) : List Fold :=
  let own := (foldLines text).map (ownLevel tabstop shiftwidth)
  let eff := (effective own).1
  let maxEff := eff.max?.getD 0
  (List.range' 1 maxEff).foldl
    (fun folds d => (runsAt eff d eff.length 0).foldl (addRun eff d) folds) []

/-- The `foldlevel` rule: a fold is closed when its level exceeds `foldlevel`. -/
def applyFoldlevel (folds : List Fold) (foldlevel : Nat) : List Fold :=
  folds.map fun f => { f with closed := foldlevel < f.level }

def maxLevel (folds : List Fold) : Nat := (folds.map fun f => f.level).max?.getD 0

/-! ## Effective levels -/

/-- The effective level of a line: the own level of the first line at or below it that is not
ignored. -/
def effectiveLevel (text : Bytes) (tabstop : Tabs) (shiftwidth i : Nat) : Nat :=
  (((foldLines text).drop i).findSome? (ownLevel tabstop shiftwidth)).getD 0

theorem effective_cons (o : Option Nat) (own : List (Option Nat)) :
    effective (o :: own) =
      (o.getD (effective own).2 :: (effective own).1, o.getD (effective own).2) := rfl

theorem effective_next (own : List (Option Nat)) :
    (effective own).2 = (own.findSome? id).getD 0 := by
  induction own with
  | nil => rfl
  | cons o own ih =>
    rw [effective_cons, List.findSome?_cons, ih]
    cases o <;> rfl

theorem effective_getD (own : List (Option Nat)) (i : Nat) :
    (effective own).1.getD i 0 = ((own.drop i).findSome? id).getD 0 := by
  induction own generalizing i with
  | nil => simp [effective]
  | cons o own ih =>
    cases i with
    | zero => exact effective_next (o :: own)
    | succ i => simpa [effective_cons] using ih i

/-- The levels the scan gives the lines of a text are their effective levels. -/
theorem effective_eq (text : Bytes) (tabstop : Tabs) (shiftwidth i : Nat) :
    (effective ((foldLines text).map (ownLevel tabstop shiftwidth))).1.getD i 0 =
      effectiveLevel text tabstop shiftwidth i := by
  rw [effective_getD, ← List.map_drop, List.findSome?_map, Function.id_comp]
  rfl

/-! ## The runs of one depth -/

variable {eff : List Nat} {d i left : Nat} {s run : Span}

theorem lt_length_of_level (hd : 0 < d) (h : d ≤ eff.getD i 0) : i < eff.length := by
  by_contra hle
  rw [List.getD_eq_default _ _ (by omega)] at h
  omega

theorem le_passRun (eff : List Nat) (d left i : Nat) : i ≤ passRun eff d left i := by
  fun_induction passRun eff d left i with
  | case1 => exact le_rfl
  | case2 left i h ih => exact (Nat.le_succ i).trans ih
  | case3 => exact le_rfl

theorem level_of_lt_passRun {n : Nat} (hn : i ≤ n) (hlt : n < passRun eff d left i) :
    d ≤ eff.getD n 0 := by
  fun_induction passRun eff d left i with
  | case1 => omega
  | case2 left i h ih =>
    by_cases hi : i = n
    · exact hi ▸ h.2
    · exact ih (by omega) hlt
  | case3 => omega

theorem level_passRun (hd : 0 < d) (hleft : eff.length ≤ i + left) :
    ¬ d ≤ eff.getD (passRun eff d left i) 0 := by
  fun_induction passRun eff d left i with
  | case1 i =>
    intro h
    have := lt_length_of_level hd h
    omega
  | case2 left i h ih => exact ih (by omega)
  | case3 left i h =>
    intro hi
    exact h ⟨lt_length_of_level hd hi, hi⟩

/-- The run that starts at line `i` ends before the line where the inner loop stops. -/
theorem maximalRun_passRun (hd : 0 < d) (hi : d ≤ eff.getD i 0)
    (hbefore : ∀ n, n + 1 = i → ¬ d ≤ eff.getD n 0) :
    i < passRun eff d (eff.length - i) i ∧
      MaximalRun (fun n => d ≤ eff.getD n 0) ⟨i, passRun eff d (eff.length - i) i - 1⟩ := by
  have hle := le_passRun eff d (eff.length - i) i
  have hstop : ¬ d ≤ eff.getD (passRun eff d (eff.length - i) i) 0 :=
    level_passRun hd (by omega)
  have hlt : i < passRun eff d (eff.length - i) i :=
    lt_of_le_of_ne hle fun heq => hstop (heq ▸ hi)
  refine ⟨hlt, ?_, ?_, hbefore, ?_⟩
  · show i ≤ passRun eff d (eff.length - i) i - 1
    omega
  · intro n hn
    obtain ⟨hin, hle⟩ : i ≤ n ∧ n ≤ passRun eff d (eff.length - i) i - 1 := hn
    have hbelow : n < passRun eff d (eff.length - i) i := by omega
    exact level_of_lt_passRun hin hbelow
  · show ¬ d ≤ eff.getD (passRun eff d (eff.length - i) i - 1 + 1) 0
    rwa [Nat.sub_add_cancel (by omega)]

/-- The outer loop finds the maximal runs from line `i` on, when none is in progress there. -/
theorem mem_runsAt (hd : 0 < d) (hleft : eff.length ≤ i + left)
    (hfresh : ∀ n, n + 1 = i → d ≤ eff.getD i 0 → ¬ d ≤ eff.getD n 0) :
    s ∈ runsAt eff d left i ↔ MaximalRun (fun n => d ≤ eff.getD n 0) s ∧ i ≤ s.start := by
  have hstart (h : MaximalRun (fun n => d ≤ eff.getD n 0) s) : d ≤ eff.getD s.start 0 :=
    h.all _ ⟨le_rfl, h.ordered⟩
  induction left generalizing i with
  | zero =>
    rw [runsAt]
    simp only [List.not_mem_nil, false_iff, not_and]
    intro h hi
    have := lt_length_of_level hd (hstart h)
    omega
  | succ left ih =>
    rw [runsAt]
    split
    · split
      · rename_i hlow
        have hrest : s ∈ runsAt eff d left (i + 1) ↔
            MaximalRun (fun n => d ≤ eff.getD n 0) s ∧ i + 1 ≤ s.start := by
          refine ih (by omega) fun n hn _ => ?_
          rw [Nat.succ_injective hn]
          omega
        rw [hrest]
        refine and_congr_right fun h => ⟨by omega, fun hi => ?_⟩
        have hne : s.start ≠ i := by
          intro heq
          have := hstart h
          rw [heq] at this
          omega
        omega
      · rename_i hdeep
        have hdi : d ≤ eff.getD i 0 := by omega
        obtain ⟨hlt, hrun⟩ := maximalRun_passRun hd hdi fun n hn => hfresh n hn hdi
        have hstop : ¬ d ≤ eff.getD (passRun eff d (eff.length - i) i) 0 :=
          level_passRun hd (by omega)
        have hrest : s ∈ runsAt eff d left (passRun eff d (eff.length - i) i) ↔
            MaximalRun (fun n => d ≤ eff.getD n 0) s ∧
              passRun eff d (eff.length - i) i ≤ s.start :=
          ih (by omega) fun n _ h => absurd h hstop
        simp only [List.mem_cons, hrest]
        constructor
        · rintro (rfl | ⟨h, hi⟩)
          · exact ⟨hrun, le_rfl⟩
          · exact ⟨h, by omega⟩
        · rintro ⟨h, hi⟩
          by_cases hin : s.start < passRun eff d (eff.length - i) i
          · left
            have hs := h.ordered
            exact (hrun.eq_of_share h ⟨by show s.start ≤ _ - 1; omega, hi.trans hs⟩).symm
          · exact .inr ⟨h, by omega⟩
    · simp only [List.not_mem_nil, false_iff, not_and]
      intro h hi
      have := lt_length_of_level hd (hstart h)
      omega

/-! ## The folds collected -/

/-- The level of a run is the least indent in it. -/
theorem isLeast_level (hd : 0 < d) (h : MaximalRun (fun n => d ≤ eff.getD n 0) run) :
    IsLeast ((fun n => eff.getD n 0) '' {n | run.Holds n})
      (((eff.take (run.stop + 1)).drop run.start).min?.getD d) := by
  have hmem (l : Nat) : l ∈ (eff.take (run.stop + 1)).drop run.start ↔
      l ∈ (fun n => eff.getD n 0) '' {n | run.Holds n} := by
    rw [List.mem_iff_getElem?]
    constructor
    · rintro ⟨k, hk⟩
      rw [List.getElem?_drop, List.getElem?_take] at hk
      split at hk
      · rename_i hlt
        exact ⟨run.start + k, ⟨by omega, by omega⟩, by simp [List.getD, hk]⟩
      · cases hk
    · rintro ⟨n, ⟨hstart, hstop⟩, rfl⟩
      have hlen := lt_length_of_level hd (h.all n ⟨hstart, hstop⟩)
      refine ⟨n - run.start, ?_⟩
      rw [List.getElem?_drop, List.getElem?_take, Nat.add_sub_cancel' hstart]
      simp [Nat.lt_succ_of_le hstop, hlen]
  obtain ⟨l, hl⟩ : ∃ l, ((eff.take (run.stop + 1)).drop run.start).min? = some l := by
    rw [← Option.isSome_iff_exists, List.isSome_min?_iff]
    exact List.ne_nil_of_mem ((hmem _).mpr ⟨run.start, ⟨le_rfl, h.ordered⟩, rfl⟩)
  obtain ⟨hin, hleast⟩ := List.min?_eq_some_iff.mp hl
  rw [hl]
  exact ⟨(hmem l).mp hin, fun m hm => hleast m ((hmem m).mpr hm)⟩

/-- Folds of the runs of two lines or more among some, each once, with the least level of
its lines. -/
structure Collected (eff : List Nat) (runs : List Span) (folds : List Fold) : Prop where
  sound : ∀ f ∈ folds, f.toSpan ∈ runs ∧ f.start < f.stop ∧ f.closed = false ∧
    IsLeast ((fun n => eff.getD n 0) '' {n | f.Holds n}) f.level
  nodup : (folds.map fun f => f.toSpan).Nodup
  complete : ∀ s ∈ runs, s.start < s.stop → ∃ f ∈ folds, f.toSpan = s

/-- One more run is collected as a fold of its level, unless it is one already. -/
theorem Collected.addRun {runs : List Span} (h : Collected eff runs folds) (hd : 0 < d)
    (hrun : MaximalRun (fun n => d ≤ eff.getD n 0) run) :
    Collected eff (runs ++ [run]) (addRun eff d folds run) := by
  have hsound : ∀ f ∈ folds, f.toSpan ∈ runs ++ [run] ∧ f.start < f.stop ∧ f.closed = false ∧
      IsLeast ((fun n => eff.getD n 0) '' {n | f.Holds n}) f.level :=
    fun f hf => (h.sound f hf).imp_left (List.mem_append_left _)
  have hold (s) (hs : s ∈ runs ++ [run]) (hlong : s.start < s.stop) :
      (∃ f ∈ folds, f.toSpan = s) ∨ s = run := by
    rcases List.mem_append.mp hs with hs | hs
    · exact .inl (h.complete s hs hlong)
    · exact .inr (List.mem_singleton.mp hs)
  unfold Tui.addRun
  split
  · rename_i hlong
    have hany : (folds.any fun f => f.start == run.start && f.stop == run.stop) = true ↔
        ∃ f ∈ folds, f.toSpan = run := by
      simp [Span.ext_iff]
    split
    · rename_i hhas
      refine ⟨hsound, h.nodup, fun s hs hs' => ?_⟩
      rcases hold s hs hs' with hf | rfl
      · exact hf
      · exact hany.mp hhas
    · rename_i hnew
      rw [hany] at hnew
      refine ⟨?_, ?_, fun s hs hs' => ?_⟩
      · intro f hf
        rcases List.mem_append.mp hf with hf | hf
        · exact hsound f hf
        · rw [List.mem_singleton.mp hf]
          exact ⟨by simp, hlong, rfl, isLeast_level hd hrun⟩
      · simp only [List.map_append, List.map_cons, List.map_nil, List.nodup_append]
        refine ⟨h.nodup, List.nodup_singleton _, ?_⟩
        intro s hs t ht heq
        obtain ⟨f, hf, rfl⟩ := List.mem_map.mp hs
        exact hnew ⟨f, hf, heq.trans (List.mem_singleton.mp ht)⟩
      · rcases hold s hs hs' with ⟨f, hf, heq⟩ | rfl
        · exact ⟨f, List.mem_append_left _ hf, heq⟩
        · exact ⟨_, List.mem_append_right _ (List.mem_singleton_self _), rfl⟩
  · rename_i hshort
    refine ⟨hsound, h.nodup, fun s hs hs' => ?_⟩
    rcases hold s hs hs' with hf | rfl
    · exact hf
    · exact absurd hs' hshort

theorem Collected.foldl_runs {runs : List Span} (h : Collected eff runs folds) (hd : 0 < d)
    {new : List Span} (hnew : ∀ s ∈ new, MaximalRun (fun n => d ≤ eff.getD n 0) s) :
    Collected eff (runs ++ new) (new.foldl (Tui.addRun eff d) folds) := by
  induction new generalizing runs folds with
  | nil => simpa using h
  | cons s new ih =>
    have hs := h.addRun hd (hnew s (by simp))
    simpa using ih hs fun t ht => hnew t (List.mem_cons_of_mem _ ht)

/-- The maximal runs of the depths in a list. -/
def runsOf (eff : List Nat) (depths : List Nat) : List Span :=
  depths.flatMap fun d => runsAt eff d eff.length 0

theorem mem_runsOf {depths : List Nat} (hpos : ∀ d ∈ depths, 0 < d) :
    s ∈ runsOf eff depths ↔
      ∃ d ∈ depths, MaximalRun (fun n => d ≤ eff.getD n 0) s := by
  simp only [runsOf, List.mem_flatMap]
  refine exists_congr fun d => and_congr_right fun hd => ?_
  rw [mem_runsAt (hpos d hd) (by omega) (by omega)]
  simp

theorem collected_runsOf (depths : List Nat) (hpos : ∀ d ∈ depths, 0 < d) :
    Collected eff (runsOf eff depths)
      (depths.foldl (fun folds d => (runsAt eff d eff.length 0).foldl (addRun eff d) folds) []) := by
  induction depths using List.reverseRecOn with
  | nil => exact ⟨by simp, by simp, by simp [runsOf]⟩
  | append_singleton depths d ih =>
    have hd := hpos d (by simp)
    have hih := ih fun e he => hpos e (by simp [he])
    have hnew (s) (hs : s ∈ runsAt eff d eff.length 0) :
        MaximalRun (fun n => d ≤ eff.getD n 0) s :=
      ((mem_runsAt hd (by omega) (by omega)).mp hs).1
    simpa [runsOf] using hih.foldl_runs hd hnew

/-! ## The folds of a text -/

/-- An open fold of two lines or more, maximal at some depth, with the least level of its
lines. -/
structure RunFold (level : Nat → Nat) (f : Fold) : Prop where
  isOpen : f.closed = false
  long : f.start < f.stop
  run : ∃ d, 1 ≤ d ∧ MaximalRun (fun n => d ≤ level n) f.toSpan
  least : IsLeast (level '' {n | f.Holds n}) f.level

namespace RunFold

variable {level : Nat → Nat} {f g : Fold}

theorem level_eq (hf : RunFold level f) (hg : RunFold level g) (heq : g.toSpan = f.toSpan) :
    f.level = g.level := by
  have hleast := hg.least
  rw [heq] at hleast
  exact hf.least.unique hleast

theorem level_lt (hf : RunFold level f) (hg : RunFold level g) (hin : g.Inside f.toSpan)
    (hne : g.toSpan ≠ f.toSpan) : f.level < g.level := by
  obtain ⟨d, -, hrun⟩ := hg.run
  exact hrun.least_lt hin hne hf.least hg.least

/-- Folds of different lines are apart, or one is inside the other and of a larger level. -/
theorem nests (hf : RunFold level f) (hg : RunFold level g) (hne : f.toSpan ≠ g.toSpan) :
    f.Apart g.toSpan ∨ g.Inside f.toSpan ∧ f.level < g.level ∨
      f.Inside g.toSpan ∧ g.level < f.level := by
  obtain ⟨d, -, hd⟩ := hf.run
  obtain ⟨e, -, he⟩ := hg.run
  rcases hd.nests_of_levels he with hapart | hin | hin
  · exact .inl hapart
  · exact .inr (.inr ⟨hin, hg.level_lt hf hin hne⟩)
  · exact .inr (.inl ⟨hin, hf.level_lt hg hin hne.symm⟩)

theorem nestedIn_iff {i j : Nat} (hf : RunFold level f) (hg : RunFold level g)
    (hi : folds[i]? = some f) (hj : folds[j]? = some g) :
    nestedIn folds i j = true ↔ g.Inside f.toSpan ∧ g.toSpan ≠ f.toSpan := by
  simp only [nestedIn, hi, hj, Bool.and_eq_true, bne_iff_ne, decide_eq_true_eq]
  constructor
  · rintro ⟨⟨⟨hij, hlevel⟩, hstart⟩, hstop⟩
    refine ⟨⟨hstart, hstop⟩, fun heq => ?_⟩
    exact hlevel.ne (hf.level_eq hg heq)
  · rintro ⟨hin, hne⟩
    refine ⟨⟨⟨?_, hf.level_lt hg hin hne⟩, hin.1⟩, hin.2⟩
    rintro rfl
    rw [hi, Option.some.injEq] at hj
    exact hne (by rw [hj])

end RunFold

/-- Folds that are the maximal runs of two lines or more at the depths from 1 on, each
once. -/
structure MaximalFolds (level : Nat → Nat) (folds : List Fold) : Prop where
  runs : ∀ f ∈ folds, RunFold level f
  once : ∀ d s, 1 ≤ d → MaximalRun (fun n => d ≤ level n) s → s.start < s.stop →
    folds.countP (fun f => f.toSpan = s) = 1
  nests : folds.Pairwise fun f g => f.toSpan ≠ g.toSpan ∧ (f.Apart g.toSpan ∨
    g.Inside f.toSpan ∧ f.level < g.level ∨ f.Inside g.toSpan ∧ g.level < f.level)
  nestedIn_iff : ∀ i j f g, folds[i]? = some f → folds[j]? = some g →
    (nestedIn folds i j = true ↔ g.Inside f.toSpan ∧ g.toSpan ≠ f.toSpan)

theorem le_max_getD {ls : List Nat} {l : Nat} (h : l ∈ ls) : l ≤ ls.max?.getD 0 := by
  cases hmax : ls.max? with
  | none => simp [List.max?_eq_none_iff.mp hmax] at h
  | some m => exact (List.max?_eq_some_iff.mp hmax).2 l h

theorem depth_le_max (hd : 1 ≤ d) (h : MaximalRun (fun n => d ≤ eff.getD n 0) s) :
    d ≤ eff.max?.getD 0 := by
  have hlevel := h.all s.start ⟨le_rfl, h.ordered⟩
  have hlen := lt_length_of_level hd hlevel
  refine hlevel.trans (le_max_getD ?_)
  rw [List.getD_eq_getElem _ _ hlen]
  exact List.getElem_mem hlen

/-- The folds collected over all levels are the maximal runs. -/
theorem Collected.maximalFolds
    (h : Collected eff (runsOf eff (List.range' 1 (eff.max?.getD 0))) folds) :
    MaximalFolds (fun n => eff.getD n 0) folds := by
  have hpos : ∀ d ∈ List.range' 1 (eff.max?.getD 0), 0 < d := by
    intro d hd
    exact (List.mem_range'_1.mp hd).1
  have hruns : ∀ f ∈ folds, RunFold (fun n => eff.getD n 0) f := by
    intro f hf
    obtain ⟨hmem, hlong, hopen, hleast⟩ := h.sound f hf
    obtain ⟨d, hd, hrun⟩ := (mem_runsOf hpos).mp hmem
    exact ⟨hopen, hlong, ⟨d, hpos d hd, hrun⟩, hleast⟩
  refine ⟨hruns, ?_, ?_, ?_⟩
  · intro d s hd hrun hlong
    have hmem : s ∈ runsOf eff (List.range' 1 (eff.max?.getD 0)) := by
      rw [mem_runsOf hpos]
      exact ⟨d, List.mem_range'_1.mpr ⟨hd, by have := depth_le_max hd hrun; omega⟩, hrun⟩
    obtain ⟨f, hf, rfl⟩ := h.complete s hmem hlong
    have hcount := List.count_eq_one_of_mem h.nodup (List.mem_map_of_mem hf)
    rw [List.count, List.countP_map] at hcount
    rw [← hcount]
    congr 1
  · have hne := List.pairwise_map.mp h.nodup
    refine hne.imp_of_mem fun hf hg hne => ⟨hne, ?_⟩
    exact (hruns _ hf).nests (hruns _ hg) hne
  · intro i j f g hi hj
    exact (hruns f (List.mem_of_getElem? hi)).nestedIn_iff
      (hruns g (List.mem_of_getElem? hj)) hi hj

/-- The folds of a text are the maximal runs of its effective levels. -/
theorem computeIndentFolds_maximal (text : Bytes) (tabstop : Tabs) (shiftwidth : Nat) :
    MaximalFolds (effectiveLevel text tabstop shiftwidth)
      (computeIndentFolds text tabstop shiftwidth) := by
  have hlevel := funext (effective_eq text tabstop shiftwidth)
  rw [← hlevel]
  apply Collected.maximalFolds
  apply collected_runsOf
  intro d hd
  exact (List.mem_range'_1.mp hd).1

/-! ## The `foldlevel` rule -/

theorem applyFoldlevel_maxLevel (folds : List Fold) :
    ∀ f ∈ applyFoldlevel folds (maxLevel folds), f.closed = false := by
  intro f hf
  obtain ⟨g, hg, rfl⟩ := List.mem_map.mp hf
  have hle : g.level ≤ maxLevel folds := le_max_getD (List.mem_map_of_mem hg)
  simpa using hle

theorem effectiveLevel_past (text : Bytes) (tabstop : Tabs) (shiftwidth : Nat) {i : Nat}
    (hi : (foldLines text).length ≤ i) : effectiveLevel text tabstop shiftwidth i = 0 := by
  rw [effectiveLevel, List.drop_eq_nil_of_le hi]
  rfl

/-- A line is hidden exactly if its level and that of the line above are over `foldlevel`. -/
theorem MaximalFolds.hidden_iff {level : Nat → Nat} (h : MaximalFolds level folds)
    (hend : ∀ i, ∃ m, i < m ∧ level m = 0) (foldlevel i : Nat) :
    hidden (applyFoldlevel folds foldlevel) i = true ↔
      0 < i ∧ foldlevel < level (i - 1) ∧ foldlevel < level i := by
  simp only [hidden, applyFoldlevel, List.any_map, List.any_eq_true, Function.comp_apply,
    Bool.and_eq_true, decide_eq_true_eq]
  constructor
  · rintro ⟨f, hf, ⟨hover, hstart⟩, hstop⟩
    have hleast := (h.runs f hf).least.2
    refine ⟨by omega, hover.trans_le (hleast ⟨i - 1, ⟨?_, ?_⟩, rfl⟩),
      hover.trans_le (hleast ⟨i, ⟨hstart.le, hstop⟩, rfl⟩)⟩
    · show f.start ≤ i - 1
      omega
    · show i - 1 ≤ f.stop
      omega
  · rintro ⟨hpos, habove, hline⟩
    obtain ⟨m, hlt, hm⟩ := hend i
    obtain ⟨s, hrun, hs⟩ := MaximalRun.exists_holds (P := fun n => foldlevel + 1 ≤ level n) hline
      ⟨m, hlt, by omega⟩
    -- the line above has the depth too, so the run begins before the line
    have hstart : s.start < i :=
      hs.1.lt_of_ne fun heq => hrun.before (i - 1) (by omega) habove
    have hcount := h.once (foldlevel + 1) s (Nat.le_add_left 1 _) hrun (hstart.trans_le hs.2)
    obtain ⟨f, hf, hspan⟩ := List.countP_pos_iff.mp (hcount ▸ Nat.zero_lt_one)
    obtain rfl : f.toSpan = s := of_decide_eq_true hspan
    obtain ⟨n, hn, heq⟩ := (h.runs f hf).least.1
    have hover : foldlevel + 1 ≤ level n := hrun.all n hn
    exact ⟨f, hf, ⟨by omega, hstart⟩, hs.2⟩

/-- What `foldlevel` hides under `foldmethod=indent`: the lines whose effective level, and that
of the line above, are over it. A larger `foldlevel` hides no more, and the level of the
deepest fold hides nothing. -/
theorem foldlevel_hides (text : Bytes) (tabstop : Tabs) (shiftwidth foldlevel i : Nat) :
    let folds := computeIndentFolds text tabstop shiftwidth
    let level := effectiveLevel text tabstop shiftwidth
    (hidden (applyFoldlevel folds foldlevel) i = true ↔
      0 < i ∧ foldlevel < level (i - 1) ∧ foldlevel < level i) ∧
      (∀ more, foldlevel ≤ more → hidden (applyFoldlevel folds more) i = true →
        hidden (applyFoldlevel folds foldlevel) i = true) ∧
      hidden (applyFoldlevel folds (maxLevel folds)) i = false := by
  have hmax : MaximalFolds (effectiveLevel text tabstop shiftwidth)
      (computeIndentFolds text tabstop shiftwidth) := by
    rw [← funext (effective_eq text tabstop shiftwidth)]
    apply Collected.maximalFolds
    apply collected_runsOf
    intro d hd
    exact (List.mem_range'_1.mp hd).1
  have hiff := hmax.hidden_iff fun i => ⟨max (i + 1) (foldLines text).length, by omega,
    effectiveLevel_past text tabstop shiftwidth (Nat.le_max_right _ _)⟩
  refine ⟨hiff foldlevel i, fun more hle hmore => ?_, ?_⟩
  · obtain ⟨hpos, habove, hline⟩ := (hiff more i).mp hmore
    exact (hiff foldlevel i).mpr ⟨hpos, by omega, by omega⟩
  · rw [hidden, List.any_eq_false]
    intro f hf
    simp [applyFoldlevel_maxLevel _ f hf]

end Ruse.Tui
