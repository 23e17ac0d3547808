import Ruse.Core.SubstituteSpans

/-!
# The `:s` scan line by line

The substitutions of a pattern that cannot match a line break. Every substitution is
`SubCommand.sub` of a span and the text matched in it; `sub_apart` says when two in order
apply together, and `eachLine_spec` carries it over the lines of a range.
-/

namespace Ruse.Core

open Ruse.Lib

/-- The span lies in the text on character boundaries, and leaves the final newline out. -/
structure Substitution.Inside (b : Bytes) (s : Substitution) : Prop where
  start_le : s.start ≤ s.stop
  stop_le : s.stop ≤ finalNewline b
  start_boundary : isBoundary b s.start = true
  stop_boundary : isBoundary b s.stop = true

namespace SubCommand

variable (c : SubCommand)

/-- An empty match is replaced by something. -/
def Fills : Prop := expandReplacement c.maps c.replacement [] ≠ []

instance : Decidable c.Fills := inferInstanceAs (Decidable (_ ≠ _))

/-- The substitution of the span from `h` to `k`. -/
def sub (h k : Nat) (matched : Bytes) (line : Nat) : Substitution :=
  ⟨c.place h, c.place k, written (expandReplacement c.maps c.replacement matched), line⟩

theorem written_eq_nil {r : Bytes} : written r = [] ↔ r = [] := by
  unfold written
  split <;> rename_i hv
  · exact unspell_eq_nil hv
  · exact Iff.rfl

section Spans

variable {c} {h k h' k' line line' : Nat} {matched matched' : Bytes}

theorem push_some (hh : IsCharBoundary c.hay h) (hk : IsCharBoundary c.hay k) (hhk : h ≤ k)
    (hlt : k < c.hay.length) :
    c.push h k (expandReplacement c.maps c.replacement matched) line = some (c.sub h k matched line) := by
  rw [push, (c.place_spec hh (by omega)).1, (c.place_spec hk hlt).1]
  rfl

theorem sub_inside (hh : IsCharBoundary c.hay h) (hk : IsCharBoundary c.hay k) (hhk : h ≤ k)
    (hlt : k < c.hay.length) : (c.sub h k matched line).Inside c.b where
  start_le := c.place_le hh hk hhk hlt
  stop_le := (c.place_inside hk hlt).2
  start_boundary := (c.place_inside hh (by omega)).1
  stop_boundary := (c.place_inside hk hlt).1

theorem sub_filled (hfills : c.Fills) : (c.sub h k matched line).replacement ≠ [] := fun hnil =>
  expandReplacement_ne_nil hfills matched (written_eq_nil.mp hnil)

theorem sub_changes (hfills : c.Fills) : (c.sub h k matched line).edit.Changes := by
  have hne : (c.sub h k matched line).replacement ≠ [] := sub_filled hfills
  exact .inr hne

theorem sub_same (hfills : ¬ c.Fills) : ¬ (c.sub h h [] line).edit.Changes := by
  rintro (hdel | hins)
  · exact hdel (Nat.sub_self _)
  · exact hins (written_eq_nil.mpr (not_not.mp hfills))

/-- Two substitutions in order apply together unless both fill one place. -/
theorem sub_apart (hh : IsCharBoundary c.hay h) (hk : IsCharBoundary c.hay k) (hhk : h ≤ k)
    (hh' : IsCharBoundary c.hay h') (horder : k ≤ h') (hlt : h' < c.hay.length)
    (hempty : h = k → matched = []) :
    (c.sub h k matched line).Apart (c.sub h' k' matched' line') ↔ (c.Fills → h ≠ h') := by
  constructor
  · rintro ⟨-, hstart⟩ hfills rfl
    exact hstart (sub_changes hfills) (sub_changes hfills) rfl
  · intro hne
    refine ⟨c.place_le hk hh' horder hlt, fun hchange _ hstart => ?_⟩
    have heq : h = h' := by
      by_contra hneq
      have := c.place_lt hh hh' (by omega) hlt
      exact absurd hstart (by simp only [sub]; omega)
    have hkh : h = k := by omega
    rw [hempty hkh, ← hkh] at hchange
    exact sub_same (fun hfills => hne hfills heq) hchange

end Spans

/-! ## The matches of a line -/

/-- The matches of a line are found in order, apart, on character boundaries. -/
theorem lineMatches_spec {line : Bytes} (hv : ValidUtf8 line) (hclean : newline ∉ line) :
    ∃ ms, c.lineMatches line = some ms ∧
      (∀ m ∈ ms, m.start ≤ m.stop ∧ IsCharBoundary line m.start ∧ IsCharBoundary line m.stop) ∧
      ms.Pairwise fun m m' => m.stop ≤ m'.start := by
  unfold lineMatches
  split
  · obtain ⟨hits, hrun, hhits⟩ := Regex.scanFrom_ends c.re hv true 0 fun _ => .inl rfl
    have hans (h : Hit) (hh : h ∈ hits) : ∃ at', h.Answers line at' := by
      obtain ⟨-, at', hb, hnext⟩ := hhits.mem h hh
      exact ⟨at', c.re.answers hv hb hnext⟩
    refine ⟨hits.map Hit.rep, hrun, fun m hm => ?_, ?_⟩
    · obtain ⟨hit, hhit, rfl⟩ := List.mem_map.mp hm
      obtain ⟨_, h⟩ := hans hit hhit
      exact ⟨h.stop_le, h.start_boundary, h.stop_boundary⟩
    · refine List.pairwise_map.mpr (hhits.order.imp_of_mem fun {h h'} hh _ hhh => hhh.2.1 ?_)
      obtain ⟨_, hans⟩ := hans h hh
      -- the line is its only line
      rcases (lineEnd_spec hans.whole_boundary.le).1 with hend | hnl
      · rw [hend]
        exact hans.stop_boundary.le
      · exact absurd (List.mem_of_getElem? hnl) hclean
  · cases hfind : c.re.findAt line 0 with
    | none => exact ⟨[], rfl, by simp, .nil⟩
    | some m =>
      obtain ⟨hit, hnext, rfl⟩ := Regex.findAt_spec hfind
      have h := c.re.answers hv (.inl rfl) hnext
      exact ⟨[hit.rep], rfl, by simpa using ⟨h.stop_le, h.start_boundary, h.stop_boundary⟩,
        List.pairwise_singleton _ _⟩

def lineText (i : Nat) : Bytes := slice c.buf.text (startAt c.ls i) (c.stopAt i)

/-- No two matches of the line begin at one place, unless that place stays empty. -/
def LineClear (i : Nat) : Prop :=
  c.Fills → ∀ ms, c.lineMatches (c.lineText i) = some ms →
    ms.Pairwise fun m m' => m.start < m'.start

/-- The substitution of a span between two places. -/
def Within (lo hi : Nat) (s : Substitution) : Prop :=
  ∃ h k matched line, s = c.sub h k matched line ∧ IsCharBoundary c.hay h ∧
    IsCharBoundary c.hay k ∧ lo ≤ h ∧ h ≤ k ∧ k ≤ hi ∧ k < c.hay.length

section Line

variable {c} {i : Nat}

theorem Within.inside {lo hi : Nat} {s : Substitution} (h : c.Within lo hi s) : s.Inside c.b := by
  obtain ⟨_, _, _, _, rfl, hh, hk, -, hhk, -, hlt⟩ := h
  exact sub_inside hh hk hhk hlt

/-- A substitution further down is apart. -/
theorem Within.apart {lo hi lo' hi' : Nat} {s s' : Substitution} (h : c.Within lo hi s)
    (h' : c.Within lo' hi' s') (hlt : hi < lo') : s.Apart s' := by
  obtain ⟨h, k, matched, line, rfl, hh, hk, -, hhk, hkhi, -⟩ := h
  obtain ⟨h', k', matched', line', rfl, hh', hk', hlo', hhk', -, hend⟩ := h'
  have hle := c.place_le hh hk hhk (by omega)
  have hlt := c.place_lt hk hh' (by omega) (by omega)
  refine ⟨Nat.le_of_lt hlt, fun _ _ hstart => ?_⟩
  simp only [sub] at hstart
  omega

/-- A line sliced out of the text and of the hay. -/
theorem lineText_spec (hi : i < c.ls.length) :
    strSlice c.buf.text (startAt c.ls i) (c.stopAt i) = some (c.lineText i) ∧
      ValidUtf8 (c.lineText i) ∧ newline ∉ c.lineText i ∧
      ∀ h, IsCharBoundary (c.lineText i) h →
        IsCharBoundary c.hay (startAt c.ls i + h) ∧ startAt c.ls i + h ≤ c.stopAt i := by
  obtain ⟨hle, -, hlt, -⟩ := c.stopAt_spec hi
  have hl := List.getElem?_eq_getElem hi
  have hstop : c.stopAt i = startAt c.ls i + (c.ls[i]).length := by
    rw [stopAt, startAt_succ hl, Nat.add_sub_cancel]
  have hstart := c.startAt_boundary (Nat.le_of_lt hi)
  have hend := c.stopAt_boundary hi
  have htext : c.lineText i = c.ls[i] := by
    rw [lineText, hstop]
    exact c.text_rows.slice_line hl
  have hslice : slice c.hay (startAt c.ls i) (c.stopAt i) = c.lineText i := by
    rw [htext, hstop]
    exact c.hay_rows.slice_line hl
  refine ⟨strSlice_some hle (c.boundary_text hstart (by omega)) (c.boundary_text hend hlt), ?_, ?_,
    fun h hh => ⟨boundary_of_slice hle hstart hend (by rwa [hslice]), ?_⟩⟩
  · rw [← hslice]
    exact ((c.hay_valid.cut hstart).1.rest (c.hay_valid.cut hend).1 hle).validUtf8 hend.le
  · rw [htext]
    exact c.text_rows.clean _ (List.getElem_mem hi)
  · have := hh.le
    rw [htext] at this
    omega

/-- The substitutions of a line: on the line, in order, and they apply together when the
line is clear. -/
theorem lineSubs_spec (hi : i < c.ls.length) :
    ∃ subs, c.lineSubs ((startAt c.ls i, c.stopAt i), i) = some subs ∧
      (∀ s ∈ subs, c.Within (startAt c.ls i) (c.stopAt i) s) ∧
      subs.Pairwise (fun s s' => s.stop ≤ s'.start) ∧
      (subs.Pairwise Substitution.Apart ↔ c.LineClear i) := by
  obtain ⟨hslice, hv, hclean, hbound⟩ := lineText_spec hi
  obtain ⟨ms, hms, hmem, horder⟩ := c.lineMatches_spec hv hclean
  obtain ⟨-, -, hlt, -⟩ := c.stopAt_spec hi
  let make : Match → Substitution := fun m =>
    c.sub (startAt c.ls i + m.start) (startAt c.ls i + m.stop) (slice (c.lineText i) m.start m.stop) i
  have hrun : c.lineSubs ((startAt c.ls i, c.stopAt i), i) = some (ms.map make) := by
    unfold lineSubs
    rw [hslice]
    dsimp only [bind, Option.bind]
    rw [hms]
    refine mapM_some fun m hm => ?_
    obtain ⟨hle, hstart, hstop⟩ := hmem m hm
    rw [strSlice_some hle hstart hstop]
    exact push_some (hbound _ hstart).1 (hbound _ hstop).1 (by omega) (by have := (hbound _ hstop).2; omega)
  have hapart : ∀ m ∈ ms, ∀ m' ∈ ms, m.stop ≤ m'.start →
      ((make m).Apart (make m') ↔ (c.Fills → m.start < m'.start)) := by
    intro m hm m' hm' hmm
    obtain ⟨hle, hstart, hstop⟩ := hmem m hm
    obtain ⟨-, hstart', -⟩ := hmem m' hm'
    refine (sub_apart (hbound _ hstart).1 (hbound _ hstop).1 (by omega) (hbound _ hstart').1 (by omega)
      (by have := (hbound _ hstart').2; omega) fun heq => ?_).trans ?_
    · rw [show m.start = m.stop by omega, slice_self]
    · exact imp_congr_right fun _ => by omega
  refine ⟨ms.map make, hrun, fun s hs => ?_, ?_, ?_⟩
  · obtain ⟨m, hm, rfl⟩ := List.mem_map.mp hs
    obtain ⟨hle, hstart, hstop⟩ := hmem m hm
    have hend := (hbound _ hstop).2
    exact ⟨_, _, _, _, rfl, (hbound _ hstart).1, (hbound _ hstop).1, by omega, by omega, hend, by omega⟩
  · refine List.pairwise_map.mpr (horder.imp_of_mem fun {m m'} hm hm' hmm => ?_)
    exact c.place_le (hbound _ (hmem m hm).2.2).1 (hbound _ (hmem m' hm').2.1).1 (by omega)
      (by have := (hbound _ (hmem m' hm').2.1).2; omega)
  · rw [List.pairwise_map]
    constructor
    · intro h hfills ms' hms'
      rw [hms] at hms'
      cases hms'
      exact (horder.and h).imp_of_mem fun {m m'} hm hm' hmm =>
        (hapart m hm m' hm' hmm.1).mp hmm.2 hfills
    · intro h
      by_cases hfills : c.Fills
      · exact (horder.and (h hfills ms hms)).imp_of_mem fun {m m'} hm hm' hmm =>
          (hapart m hm m' hm' hmm.1).mpr fun _ => hmm.2
      · exact horder.imp_of_mem fun {m m'} hm hm' hmm =>
          (hapart m hm m' hm' hmm).mpr fun hf => absurd hf hfills

end Line

/-! ## The lines of a range -/

/-- The lines scanned are those of the range, in order. -/
theorem scanned_spec (first last : Nat) :
    (∀ l ∈ c.scanned first last, first ≤ l.2 ∧ l.2 ≤ last ∧ l.2 < c.ls.length ∧
      l = ((startAt c.ls l.2, c.stopAt l.2), l.2)) ∧
    (c.scanned first last).Pairwise fun l l' => l.2 < l'.2 := by
  have hat : ∀ k l, c.lines.zipIdx[k]? = some l →
      l.2 = k ∧ k < c.ls.length ∧ l = ((startAt c.ls l.2, c.stopAt l.2), l.2) := by
    intro k l hl
    rw [List.getElem?_zipIdx, Option.map_eq_some_iff] at hl
    obtain ⟨span, hspan, rfl⟩ := hl
    have hk := (List.getElem?_eq_some_iff.mp hspan).1
    rw [lines_length] at hk
    rw [c.lines_getElem? hk] at hspan
    cases hspan
    simp [hk]
  have hsub : (c.scanned first last).Sublist ((c.lines.zipIdx.take (last + 1)).drop first) :=
    List.takeWhile_sublist _
  refine ⟨fun l hl => ?_, ?_⟩
  · obtain ⟨j, hj⟩ := List.mem_iff_getElem?.mp (hsub.subset hl)
    rw [List.getElem?_drop] at hj
    have hlast : first + j < last + 1 := by
      by_contra hge
      rw [List.getElem?_eq_none (by rw [List.length_take]; omega)] at hj
      cases hj
    rw [List.getElem?_take_of_lt hlast] at hj
    obtain ⟨h2, hlt, heq⟩ := hat _ _ hj
    exact ⟨by omega, by omega, by omega, heq⟩
  · refine List.Pairwise.sublist (hsub.trans ((List.drop_sublist _ _).trans (List.take_sublist _ _))) ?_
    refine List.pairwise_iff_getElem.mpr fun i j hi hj hij => ?_
    have h2 := (hat i _ (List.getElem?_eq_getElem hi)).1
    have h2' := (hat j _ (List.getElem?_eq_getElem hj)).1
    omega

/-- The scan line by line ends: its substitutions lie on the lines of the range, in order,
and they apply together when every line come to is clear. -/
theorem eachLine_spec (first last : Nat) (out : List Substitution) :
    ∃ subs, c.eachLine first last out = some (out ++ subs) ∧
      (∀ s ∈ subs, ∃ i, first ≤ i ∧ i ≤ last ∧ i < c.ls.length ∧
        c.Within (startAt c.ls i) (c.stopAt i) s) ∧
      subs.Pairwise (fun s s' => s.stop ≤ s'.start) ∧
      (subs.Pairwise Substitution.Apart ↔ ∀ l ∈ c.scanned first last, c.LineClear l.2) := by
  obtain ⟨hmem, hascend⟩ := c.scanned_spec first last
  have hline : ∀ l : (Nat × Nat) × Nat, ∃ subs, l ∈ c.scanned first last → c.lineSubs l = some subs ∧
      (∀ s ∈ subs, c.Within (startAt c.ls l.2) (c.stopAt l.2) s) ∧
      subs.Pairwise (fun s s' => s.stop ≤ s'.start) ∧
      (subs.Pairwise Substitution.Apart ↔ c.LineClear l.2) := by
    intro l
    by_cases hl : l ∈ c.scanned first last
    · obtain ⟨-, -, hlt, heq⟩ := hmem l hl
      obtain ⟨subs, hrun, hrest⟩ := lineSubs_spec hlt
      exact ⟨subs, fun _ => ⟨by rw [heq]; exact hrun, hrest⟩⟩
    · exact ⟨[], fun h => absurd h hl⟩
  choose subsOf hsubs using hline
  have hacross : (c.scanned first last).Pairwise fun l l' =>
      ∀ s ∈ subsOf l, ∀ s' ∈ subsOf l', s.Apart s' := by
    refine hascend.imp_of_mem fun {l l'} hl hl' hll s hs s' hs' => ?_
    obtain ⟨-, -, hlt, -⟩ := hmem l hl
    obtain ⟨-, hnext, -, -⟩ := c.stopAt_spec hlt
    have hmono := startAt_mono c.ls (show l.2 + 1 ≤ l'.2 from hll)
    exact ((hsubs l hl).2.1 s hs).apart ((hsubs l' hl').2.1 s' hs') (by omega)
  refine ⟨((c.scanned first last).map subsOf).flatten, ?_, fun s hs => ?_, ?_, ?_⟩
  · rw [eachLine, mapM_some fun l hl => (hsubs l hl).1, Option.map_some]
  · obtain ⟨ss, hss, hs⟩ := List.mem_flatten.mp hs
    obtain ⟨l, hl, rfl⟩ := List.mem_map.mp hss
    obtain ⟨hlo, hhi, hlt, -⟩ := hmem l hl
    exact ⟨l.2, hlo, hhi, hlt, (hsubs l hl).2.1 s hs⟩
  · rw [List.pairwise_flatten, List.pairwise_map]
    refine ⟨fun ss hss => ?_, hacross.imp fun h s hs s' hs' => (h s hs s' hs').1⟩
    obtain ⟨l, hl, rfl⟩ := List.mem_map.mp hss
    exact (hsubs l hl).2.2.1
  · rw [List.pairwise_flatten, List.pairwise_map]
    constructor
    · rintro ⟨hall, -⟩ l hl
      exact (hsubs l hl).2.2.2.mp (hall _ (List.mem_map_of_mem hl))
    · intro h
      refine ⟨fun ss hss => ?_, hacross⟩
      obtain ⟨l, hl, rfl⟩ := List.mem_map.mp hss
      exact (hsubs l hl).2.2.2.mpr (h l hl)

end SubCommand

end Ruse.Core
