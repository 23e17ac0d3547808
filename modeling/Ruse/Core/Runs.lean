import Ruse.Core.ClusterLine

/-!
# Runs of valid text

The cells of a line are those of its maximal runs of whole characters (`IsRun`) and the
bytes between the runs, one cell each. A run ends at a newline, at a byte that is no part
of a character and at the text's ends.

* `exists_run` — every boundary is in a run, an empty one between two such bytes;
* `utf8Run_window` — what `utf8_run` reads around a place of a run is a piece of that run,
  and an edge of it is said to be known only where the run has that edge too.
-/

namespace Ruse.Core

variable {c i j w : Nat}

/-- No character before `s` goes on with the one at `s`. -/
def RunStart (b : Bytes) (s : Nat) : Prop :=
  (0 < s ∧ b[s - 1]? = some newline) ∨ ∀ j w, charLenAt b j = some w → j + w ≠ s

/-- No character at `e` goes on with the one before it. -/
def RunStop (b : Bytes) (e : Nat) : Prop := b[e]? = some newline ∨ charLenAt b e = none

/-- The bytes from `s` to `e` are a maximal run of whole characters of one line. -/
structure IsRun (b : Bytes) (s e : Nat) : Prop where
  scans : Scans b s e
  noNewline : NoNewline b s e
  inside : e ≤ b.length
  start : RunStart b s
  stop : RunStop b e

section
variable {b : Bytes} {pos s e : Nat}

theorem charLenAt_length (b : Bytes) : charLenAt b b.length = none := by
  unfold charLenAt
  rw [List.getElem?_eq_none (Nat.le_refl _)]
  rfl

theorem runStop_of_endsLine (h : EndsLine b e) : RunStop b e := by
  rcases h with heq | hnl
  · right
    rw [heq]
    exact charLenAt_length b
  · exact .inl hnl

theorem runStart_of_startsLine (h : StartsLine b s) : RunStart b s := by
  rcases Nat.eq_zero_or_pos s with hzero | hpos
  · right
    intro j w hw
    have := charLenAt_pos hw
    omega
  · rcases h with hzero | hnl
    · omega
    · exact .inl ⟨hpos, hnl⟩

/-! ## Characters and boundaries -/

theorem le_of_char_over (hc : isBoundary b c = true) (hw : charLenAt b j = some w)
    (hover : c < j + w) : c ≤ j := by
  by_contra hlt
  have hin := insideChar_of_char hw (Nat.lt_of_not_le hlt) hover
  have hle := charLenAt_le hw
  rw [isBoundary, hin] at hc
  simp only [Bool.not_true, Bool.or_false, Bool.or_eq_true, beq_iff_eq] at hc
  omega

theorem isBoundary_of_char (hw : charLenAt b i = some w) : isBoundary b i = true := by
  refine isBoundary_of_not_inside fun hin => ?_
  have hcont := (insideChar_iff.mp hin).2.2.1
  rw [(charLenAt_spec hw).2.2.2.1] at hcont
  cases hcont

/-- Whole characters from a boundary end at one. -/
theorem Scans.boundary (h : Scans b i j) (hi : isBoundary b i = true) :
    isBoundary b j = true := by
  induction h with
  | refl => exact hi
  | @char i w j hw hrest ih =>
    have hlt : i < b.length := by
      have := charLenAt_le hw
      have := charLenAt_pos hw
      omega
    have hnext := isBoundary_unit hi hlt
    rw [unitLen, hw, Option.getD_some] at hnext
    exact ih hnext

theorem Scans.cut_isBoundary {k : Nat} (h : Scans b i j) (hk : isBoundary b k = true) (hik : i ≤ k)
    (hkj : k ≤ j) : Scans b i k ∧ Scans b k j := by
  rcases Nat.lt_or_ge k j with hlt | hge
  · obtain ⟨c, w, hc, hw, hrest, hck, hkc⟩ := h.char_at hik hlt
    have hle := le_of_char_over hk hw hkc
    obtain rfl : k = c := by omega
    exact ⟨hc, .char hw hrest⟩
  · obtain rfl : k = j := by omega
    exact ⟨h, .refl k⟩

theorem Scans.last (h : Scans b i j) (hlt : i < j) :
    ∃ q, Scans b i q ∧ charLenAt b q = some (j - q) ∧ q < j := by
  obtain ⟨c, w, hc, hw, hrest, hcj, hjc⟩ := h.char_at (k := j - 1) (by omega) (by omega)
  have hle := hrest.le
  have hwidth : w = j - c := by omega
  exact ⟨c, hc, by rw [hw, hwidth], by omega⟩

/-! ## Runs -/

/-- A run is no longer back than any whole characters of the line up to a place of it. -/
theorem RunStart.le_of_scans (h : RunStart b s) (hs : Scans b s pos) (hc : Scans b c pos)
    (hno : NoNewline b c pos) : s ≤ c ∧ Scans b s c := by
  have hle : s ≤ c := by
    by_contra hlt
    have hsp := hs.le
    -- then some character ends at `s`
    have hcs : Scans b c s := by
      rcases Nat.lt_or_ge s pos with hin | hat
      · obtain ⟨w, hw, -⟩ := hs.first hin
        exact (hc.cut_isBoundary (isBoundary_of_char hw) (by omega) hsp).1
      · rwa [show s = pos by omega]
    rcases h with ⟨hpos, hnl⟩ | hnone
    · exact hno (s - 1) (by omega) (by omega) hnl
    · obtain ⟨q, -, hw, hqs⟩ := hcs.last (by omega)
      exact hnone q _ hw (by omega)
  refine ⟨hle, ?_⟩
  rcases Nat.lt_or_ge c pos with hin | hat
  · obtain ⟨w, hw, -⟩ := hc.first hin
    exact (hs.cut_isBoundary (isBoundary_of_char hw) hle (by omega)).1
  · have := hc.le
    rwa [show c = pos by omega]

theorem RunStop.le_of_scans (h : RunStop b e) (he : Scans b pos e) (hc : Scans b pos c)
    (hno : NoNewline b pos c) : c ≤ e ∧ Scans b c e := by
  have hle : c ≤ e := by
    by_contra hlt
    obtain ⟨w, hw, -⟩ := (he.rest hc (by omega)).first (by omega)
    rcases h with hnl | hnone
    · exact hno e he.le (by omega) hnl
    · rw [hnone] at hw
      cases hw
  exact ⟨hle, hc.rest he hle⟩

theorem IsRun.cut (h : IsRun b s e) (hb : isBoundary b pos = true) (hs : s ≤ pos) (he : pos ≤ e) :
    Scans b s pos ∧ Scans b pos e :=
  h.scans.cut_isBoundary hb hs he

theorem IsRun.unique {s' e' : Nat} (h : IsRun b s e) (h' : IsRun b s' e')
    (hs : Scans b s pos) (he : Scans b pos e) (hs' : Scans b s' pos) (he' : Scans b pos e') :
    s = s' ∧ e = e' := by
  have hno : NoNewline b s pos := fun k hk hkp => h.noNewline k hk (by have := he.le; omega)
  have hno' : NoNewline b s' pos := fun k hk hkp => h'.noNewline k hk (by have := he'.le; omega)
  have hstop : NoNewline b pos e := fun k hk hke => h.noNewline k (by have := hs.le; omega) hke
  have hstop' : NoNewline b pos e' := fun k hk hke => h'.noNewline k (by have := hs'.le; omega) hke
  have h1 := (h.start.le_of_scans hs hs' hno').1
  have h2 := (h'.start.le_of_scans hs' hs hno).1
  have h3 := (h.stop.le_of_scans he he' hstop').1
  have h4 := (h'.stop.le_of_scans he' he hstop).1
  omega

/-- Every boundary lies in a run of characters, on its line. -/
theorem exists_runStart (hb : isBoundary b pos = true) (hle : pos ≤ b.length) :
    ∃ s, RunStart b s ∧ Scans b s pos ∧ NoNewline b s pos := by
  induction pos using Nat.strong_induction_on with
  | _ pos ih =>
    by_cases hstart : RunStart b pos
    · exact ⟨pos, hstart, .refl pos, fun k hk hkp => by omega⟩
    · simp only [RunStart, not_or, not_forall, not_not] at hstart
      obtain ⟨hnl, j, w, hw, hend⟩ := hstart
      have hpos := charLenAt_pos hw
      obtain ⟨s, hs, hscan, hno⟩ := ih j (by omega) (isBoundary_of_char hw) (by omega)
      refine ⟨s, hs, hscan.trans (.char hw (by rw [hend]; exact .refl pos)), ?_⟩
      intro k hk hkp hat
      rcases Nat.lt_or_ge k j with hbefore | hin
      · exact hno k hk hbefore hat
      · rcases Nat.lt_or_ge 1 w with hlong | hone
        · obtain ⟨hfirst, -, hrest, -⟩ := charLenAt_carried hw hlong
          rcases Nat.lt_or_ge j k with hafter | hfirst'
          · exact hrest k hafter (by omega) hat
          · exact hfirst (by rwa [show j = k by omega])
        · refine hnl ⟨by omega, ?_⟩
          rwa [show pos - 1 = k by omega]

/-- Every boundary is in a run. -/
theorem exists_run (hb : isBoundary b pos = true) (hle : pos ≤ b.length) :
    ∃ s e, IsRun b s e ∧ Scans b s pos ∧ Scans b pos e := by
  obtain ⟨s, hs, hscan, hno⟩ := exists_runStart hb hle
  obtain ⟨hvalid, hbound, hcut⟩ := validUpTo_spec b (lineEnd b pos) pos
  have hend := hbound (le_lineEnd b hle)
  generalize hv : validUpTo b (lineEnd b pos) pos = v at hvalid hend hcut
  have hvlen := Nat.le_trans hend (lineEnd_le_length b pos)
  obtain ⟨hat, hline⟩ := lineEnd_spec hle
  refine ⟨s, v, ⟨hscan.trans hvalid, ?_, hvlen, hs, ?_⟩, hscan, hvalid⟩
  · intro k hk hkv
    rcases Nat.lt_or_ge k pos with h | h
    · exact hno k hk h
    · exact hline k h (by omega)
  · rcases Nat.lt_or_ge v (lineEnd b pos) with hin | hout
    · right
      by_contra hne
      obtain ⟨w, hw⟩ := Option.ne_none_iff_exists'.mp hne
      have hnl : b[v]? ≠ some newline := hline v hvalid.le hin
      have hfit := char_line hw hnl
      have hsame : lineEnd b v = lineEnd b pos :=
        lineEnd_eq (by omega) (lineEnd_le_length b pos) hat fun k hk hkv =>
          hline k (Nat.le_trans hvalid.le hk) hkv
      have := hcut w hw
      omega
    · rw [show v = lineEnd b pos by omega]
      exact runStop_of_endsLine hat

end

/-! ## The window of a run -/

/-- A character cut off at the end is no error. -/
theorem errorLen_of_cut {b : Bytes} {e : Nat} (hw : charLenAt b i = some w) (hie : i < e)
    (hcut : e < i + w) : errorLen b e i = none := by
  have hle := charLenAt_le hw
  unfold charLenAt at hw
  unfold errorLen
  cases hlead : b[i]? with
  | none =>
    rw [hlead] at hw
    cases hw
  | some lead =>
    rw [hlead] at hw
    change (if lead ≤ 0x7F then some 1 else _) = some w at hw
    by_cases hascii : lead ≤ 0x7F
    · rw [if_pos hascii] at hw
      cases hw
      omega
    rw [if_neg hascii] at hw
    rw [Option.bind_some]
    cases hclass : leadClass lead with
    | none =>
      rw [hclass] at hw
      cases hw
    | some cls =>
      obtain ⟨w', lo, hi⟩ := cls
      have hw4 := (leadClass_spec hclass).2.1
      rw [hclass] at hw
      dsimp only [bind, Option.bind] at hw ⊢
      cases hslice : slice b (i + 1) (i + w') with
      | nil =>
        rw [hslice] at hw
        cases hw
      | cons second others =>
        rw [hslice] at hw
        dsimp only at hw
        split at hw
        · rename_i hchar
          cases hw
          obtain ⟨-, hslo, hshi, hrest⟩ := hchar
          have hget : ∀ k, (second :: others)[k]? = if k < w - 1 then b[i + 1 + k]? else none := by
            intro k
            rw [← hslice]
            split
            · rw [slice, List.getElem?_take_of_lt (by omega), List.getElem?_drop]
            · rw [slice, List.getElem?_eq_none]
              simp only [List.length_take, List.length_drop]
              omega
          have hsecond : b.getD (i + 1) 0 = second := by
            have h0 := hget 0
            rw [if_pos (by omega), Nat.add_zero] at h0
            rw [List.getD_eq_getElem?_getD, ← h0]
            rfl
          rw [hsecond]
          by_cases h1 : e ≤ i + 1
          · rw [if_pos h1]
          rw [if_neg h1, if_pos ⟨hslo, hshi⟩]
          by_cases h2 : e ≤ i + 2
          · rw [if_pos h2]
          have hthird : isContinuation (b.getD (i + 2) 0) = true := by
            have h1 := hget 1
            rw [if_pos (by omega), show i + 1 + 1 = i + 2 by omega,
              List.getElem?_eq_getElem (l := b) (by omega)] at h1
            rw [List.getD_eq_getElem?_getD, List.getElem?_eq_getElem (by omega), Option.getD_some]
            exact List.all_eq_true.mp hrest _ (List.mem_of_getElem? h1)
          rw [if_neg h2, hthird]
          simp only [if_true]
          rw [if_pos (by omega)]
        · cases hw

section
variable {b : Bytes} {pos q : Nat}

/-- Past a fault no character ends where the run then starts, nor goes over it. -/
theorem fault_edge {e : Nat} (hc : isBoundary b c = true) (hlt : validUpTo b e c < e) {n : Nat}
    (hn : errorLen b e (validUpTo b e c) = some n) (hw : charLenAt b j = some w)
    (hj : j < validUpTo b e c + n) : j + w ≤ validUpTo b e c := by
  obtain ⟨hscan, -, hcut⟩ := validUpTo_spec b e c
  by_contra hover
  have hlead := (charLenAt_spec hw).2.2.2.1
  have hbad := hscan.boundary hc
  have hle := le_of_char_over hbad hw (by omega)
  rcases Nat.lt_or_eq_of_le hle with hin | hat
  · -- the bytes an error covers begin no character
    have := (errorLen_spec b hlt).1 n hn j hin hj
    rw [hlead] at this
    cases this
  · rw [← hat] at hw
    rw [errorLen_of_cut hw hlt (hcut w hw)] at hn
    cases hn

/-- The loop of `utf8_run` starts at a boundary, and the edges it knows are edges. -/
theorem utf8RunFrom_edges (h : Edge b pos q) {e : Nat} (hqe : q < e) (hpe : pos ≤ e)
    (endKnown : Bool) (hend : endKnown = true → EndsLine b e) (c : Nat)
    (startKnown : Bool) (hcq : c ≤ q) (hc : isBoundary b c = true)
    (hstart : startKnown = true → RunStart b c) :
    ((utf8RunFrom b pos e endKnown c startKnown).startKnown = true →
      RunStart b (utf8RunFrom b pos e endKnown c startKnown).start) ∧
    ((utf8RunFrom b pos e endKnown c startKnown).endKnown = true →
      RunStop b (utf8RunFrom b pos e endKnown c startKnown).stop) := by
  induction c, startKnown using utf8RunFrom.induct b pos e endKnown with
  | case1 c startKnown hall =>
    rw [utf8RunFrom, if_pos hall]
    exact ⟨hstart, fun hknown => runStop_of_endsLine (hend hknown)⟩
  | case2 c startKnown hfault bad hpos =>
    rw [utf8RunFrom, if_neg hfault, if_pos hpos]
    refine ⟨hstart, fun hknown => .inr ?_⟩
    have hcut := (validUpTo_spec b e c).2.2
    have hlt := Nat.lt_of_not_le hfault
    by_contra hne
    obtain ⟨w, hw⟩ := Option.ne_none_iff_exists'.mp hne
    replace hw : charLenAt b (validUpTo b e c) = some w := hw
    have hover := hcut w hw
    rw [errorLen_of_cut hw hlt hover] at hknown
    -- the line ends inside that character
    have hline := hend (by simpa using hknown)
    have hle := charLenAt_le hw
    rcases hline with heq | hnl
    · omega
    · exact (charLenAt_carried hw (by omega)).2.2.1 e hlt hover hnl
  | case3 c startKnown hfault bad hpos ih =>
    rw [utf8RunFrom, if_neg hfault, if_neg hpos]
    have hlt := Nat.lt_of_not_le hfault
    have hnext := h.fault hcq hqe hpe (Nat.lt_of_not_le hpos) hlt
    have hsome : errorLen b e (validUpTo b e c) ≠ none := by
      intro hnone
      rw [hnone, Option.getD_none] at hnext
      omega
    obtain ⟨n, hlen⟩ := Option.ne_none_iff_exists'.mp hsome
    have hpast := errorLen_pos (b := b) hlt
    have hedge : ∀ {j w}, charLenAt b j = some w → j < validUpTo b e c + n → j + w ≤ validUpTo b e c :=
      fun hw hj => fault_edge hc hlt hlen hw hj
    have hto : bad + (errorLen b e bad).getD (e - bad) = validUpTo b e c + n := by
      rw [hlen, Option.getD_some]
    rw [hlen, Option.getD_some] at hnext hpast
    rw [hto] at ih ⊢
    refine ih hnext (isBoundary_of_not_inside fun hin => ?_) fun _ => .inr fun j w hw heq => ?_
    · obtain ⟨-, -, -, j, w, -, hj, -, -, hw, hover⟩ := insideChar_iff.mp hin
      have := hedge hw hj
      omega
    · have := hedge hw (by have := charLenAt_pos hw; omega)
      omega

/-- The window behind the cursor starts at a boundary, at that of the run where it says so. -/
theorem windowStart_edge (h : Edge b pos q) {limit : Nat} (hq : pos ≤ q + limit) :
    isBoundary b (windowStart b pos limit).1 = true ∧
      ((windowStart b pos limit).2 = true → RunStart b (windowStart b pos limit).1) := by
  have hle := h.windowStart_le hq
  unfold windowStart at hle ⊢
  dsimp only at hle ⊢
  split
  · rename_i i hi
    have hnl : b[i]? = some newline := by
      simpa using ((find?_reverse_range' _ _ _ _).mp hi).1
    have hline : StartsLine b (i + 1) := .inr hnl
    exact ⟨isBoundary_lineStart hline, fun _ => runStart_of_startsLine hline⟩
  · rename_i hnone
    rw [hnone] at hle
    split
    · rename_i hzero
      rw [hzero]
      exact ⟨rfl, fun _ => runStart_of_startsLine (.inl rfl)⟩
    · rename_i hlo
      rw [if_neg hlo] at hle
      refine ⟨?_, fun hknown => by cases hknown⟩
      -- the byte after those skipped goes on no character
      refine isBoundary_of_not_inside fun hin => ?_
      have hcont := (insideChar_iff.mp hin).2.2.1
      generalize hskip : (slice b (pos - limit) pos).takeWhile isContinuation = skip at hle hcont
      dsimp only at hle hcont
      rcases Nat.lt_or_eq_of_le hle with hlt | heq
      · have hqpos := h.le
        have hinside := h.inside
        have hget : (slice b (pos - limit) pos)[skip.length]? =
            some (b.getD (pos - limit + skip.length) 0) := by
          rw [slice, List.getElem?_take_of_lt (by omega), List.getElem?_drop,
            List.getD_eq_getElem?_getD, List.getElem?_eq_getElem (by omega), Option.getD_some]
        have hstop : ∀ c, (slice b (pos - limit) pos)[skip.length]? = some c →
            isContinuation c = false := by
          intro c hget
          rw [← hskip] at hget
          by_contra hcon
          rw [Bool.not_eq_false] at hcon
          have hdrop : ((slice b (pos - limit) pos).dropWhile isContinuation)[0]? = some c := by
            rw [← List.takeWhile_append_dropWhile (p := isContinuation)
              (l := slice b (pos - limit) pos), List.getElem?_append_right (by simp)] at hget
            simpa using hget
          have hhead := List.head?_dropWhile_not isContinuation (slice b (pos - limit) pos)
          rw [List.head?_eq_getElem?, hdrop] at hhead
          simp only [hcon] at hhead
          cases hhead
        rw [hstop _ hget] at hcont
        cases hcont
      · rw [heq, h.lead] at hcont
        cases hcont

theorem windowEnd_edge (limit : Nat) (hpos : pos ≤ b.length) :
    (windowEnd b pos limit).2 = true → EndsLine b (windowEnd b pos limit).1 := by
  unfold windowEnd
  dsimp only
  split
  · rename_i i hi
    obtain ⟨hlt, hnl, -⟩ := List.findIdx?_eq_some_iff_getElem.mp hi
    have hget : (slice b pos (min (pos + limit) b.length))[i]? = some newline := by
      rw [List.getElem?_eq_getElem hlt, of_decide_eq_true hnl]
    rw [slice_length (by omega) (Nat.min_le_right _ _)] at hlt
    rw [slice, List.getElem?_take_of_lt (by omega), List.getElem?_drop] at hget
    exact fun _ => .inr hget
  · intro hknown
    left
    simpa using hknown

/-- What `utf8_run` reads around a place of a run is a piece of the run, and the edges it
knows are the run's. -/
theorem utf8Run_window {s e limit : Nat} (hrun : IsRun b s e) (h : Edge b pos q)
    (hs : Scans b s pos) (he : Scans b pos e) (hlimit : 0 < limit) (hq : pos ≤ q + limit) :
    (Scans b s (utf8Run b pos limit).start ∧ Scans b (utf8Run b pos limit).stop e) ∧
    ((utf8Run b pos limit).startKnown = true → (utf8Run b pos limit).start = s) ∧
    ((utf8Run b pos limit).endKnown = true → (utf8Run b pos limit).stop = e) := by
  have hholds := utf8Run_holds h hlimit hq
  obtain ⟨hlow, hhigh⟩ := utf8Run_line h hlimit
  obtain ⟨hpe, hqe⟩ := h.windowEnd_spec hlimit
  obtain ⟨hstart, hknown⟩ := windowStart_edge h hq
  have hends := windowEnd_edge limit h.inside
  obtain ⟨hfirst, hlast⟩ := utf8RunFrom_edges h hqe hpe _ hends _ _
    (h.windowStart_le hq) hstart hknown
  change ((utf8Run b pos limit).startKnown = true → RunStart b (utf8Run b pos limit).start) at hfirst
  change ((utf8Run b pos limit).endKnown = true → RunStop b (utf8Run b pos limit).stop) at hlast
  generalize utf8Run b pos limit = r at hholds hlow hhigh hfirst hlast ⊢
  have hnoStart : NoNewline b r.start pos := fun k hk hkp =>
    (lineStart_spec b pos).2 k (by omega) hkp
  have hnoStop : NoNewline b pos r.stop := fun k hk hkp =>
    (lineEnd_spec h.inside).2 k hk (by omega)
  obtain ⟨hsle, hsscan⟩ := hrun.start.le_of_scans hs hholds.before hnoStart
  obtain ⟨hele, hescan⟩ := hrun.stop.le_of_scans he hholds.after hnoStop
  refine ⟨⟨hsscan, hescan⟩, fun hk => ?_, fun hk => ?_⟩
  · have hno : NoNewline b s pos := fun k hk hkp => hrun.noNewline k hk (by have := he.le; omega)
    have := ((hfirst hk).le_of_scans hholds.before hs hno).1
    omega
  · have hno : NoNewline b pos e := fun k hk hke => hrun.noNewline k (by have := hs.le; omega) hke
    have := ((hlast hk).le_of_scans hholds.after he hno).1
    omega

end

end Ruse.Core
