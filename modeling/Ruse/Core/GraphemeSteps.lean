import Ruse.Core.Graphemes

/-!
# `Steps::next` and `Steps::prev` step by the clusters of the run

Each shortcut of a step decides by one character or a pair of them what the rules decide
with the whole run: an ASCII character is plain, so no rule looks past one. Otherwise the
window decides (`clusterStep_spec`).

`CellBreak` is what the cells of a text are cut at, in a run or not: the boundaries that no
cluster of a run goes over. A step leads to the next of them, or back to the last.
-/

namespace Ruse.Core

open Ruse.Lib

section
variable {b : Bytes} {pos q : Nat}

theorem not_insideChar (h : isBoundary b pos = true) : ¬ insideChar b pos = true := by
  intro hin
  obtain ⟨hpos, hlt, -⟩ := insideChar_iff.mp hin
  rw [isBoundary, hin] at h
  simp only [Bool.not_true, Bool.or_false, Bool.or_eq_true, beq_iff_eq] at h
  omega

/-- The character before a place is where the step back by characters leads. -/
theorem prevBoundary_of_char (hw : charLenAt b q = some (pos - q)) (hq : q < pos) :
    prevBoundary b pos = q ∧ isBoundary b pos = true ∧ pos ≤ b.length := by
  have hle := charLenAt_le hw
  have hbq := isBoundary_of_char hw
  have hnext := isBoundary_unit hbq (by omega)
  rw [unitLen, hw, Option.getD_some, show q + (pos - q) = pos by omega] at hnext
  obtain ⟨hmem, hgreatest⟩ := prevBoundary_greatest (b := b) (p := pos) (by omega) (by omega)
  have hlow := hgreatest ⟨hq, hbq⟩
  have hhigh := le_of_char_over hmem.2 hw (by have := hmem.1; omega)
  exact ⟨by omega, hnext, by omega⟩

end

section
variable {U : UnicodeData} {b : Bytes}

/-- An ASCII byte is a plain character, and LF only where it is a newline. -/
theorem plain_of_ascii {i : Nat} (h : b[i]?.any (· < 0x80) = true) :
    charLenAt b i = some 1 ∧ (U.cls (charAt b i 1)).Plain ∧
      (b[i]? ≠ some newline → (U.cls (charAt b i 1)).cluster ≠ .lf) := by
  obtain ⟨c, hc, hlow⟩ := Option.any_eq_true _ _ |>.mp h
  have hlt := (List.getElem?_eq_some_iff.mp hc).1
  have hascii : c.toNat < 128 := UInt8.lt_iff_toNat_lt.mp (of_decide_eq_true hlow)
  have hchar : charAt b i 1 = Char.ofNat c.toNat := by
    rw [charAt, slice, Nat.add_sub_cancel_left, List.take_one_drop_eq_of_lt_length hlt]
    rw [List.getElem?_eq_getElem hlt] at hc
    cases hc
    rfl
  have hall : ∀ n : Fin 256, n.val < 128 → (Char.ofNat n.val).toNat < 128 ∧
      (Char.ofNat n.val = '\n' → n.val = 10) := by decide +kernel
  obtain ⟨hnat, hnl⟩ := hall c.toFin hascii
  rw [hchar]
  refine ⟨charLenAt_eq_one.mpr ⟨c, hc, UInt8.le_iff_toNat_le.mpr (Nat.le_of_lt_succ hascii)⟩,
    U.ascii _ hnat, fun hne hlf => hne ?_⟩
  rw [hc, Option.some.injEq]
  exact UInt8.toNat_inj.mp (hnl ((U.lf _).mp hlf))

/-! ## One boundary -/

theorem breaks_start {s e : Nat} (h : Scans b s e) : Breaks U b s e s := by
  refine ⟨.refl s, h, ?_⟩
  rw [charsOf_self]
  rfl

theorem breaks_stop {s e : Nat} (h : Scans b s e) : Breaks U b s e e := by
  refine ⟨h, .refl e, ?_⟩
  rw [charsOf_self]
  cases charsOf b s e <;> rfl

/-- Between two characters the rules of the second decide, by what they remember. -/
theorem breaks_between {s e p w d : Nat} (hs : Scans b s p) (hw : charLenAt b p = some w)
    (hd : charLenAt b (p + w) = some d) (he : Scans b (p + w + d) e) (hlen : e ≤ b.length) :
    Breaks U b s e (p + w) ↔
      ((context U.cls (charsOf b s p)).step (U.cls (charAt b p w))).joins
        (U.cls (charAt b (p + w) d)) = false := by
  have hsw : Scans b s (p + w) := hs.trans (.char hw (.refl _))
  have hwe : Scans b (p + w) e := .char hd he
  have hsplit : isBreak U.cls (charsOf b s (p + w)) (charsOf b (p + w) e) =
      !((context U.cls (charsOf b s p)).step (U.cls (charAt b p w))).joins
        (U.cls (charAt b (p + w) d)) := by
    rw [charsOf_append hs (.char hw (.refl _)) (charLenAt_le hw), charsOf_one hw,
      charsOf_char hd he hlen, isBreak_concat]
  constructor
  · rintro ⟨-, -, hbreak⟩
    rwa [hsplit, Bool.not_eq_true'] at hbreak
  · intro hjoin
    exact ⟨hsw, hwe, by rw [hsplit, hjoin]; rfl⟩

/-- Two ASCII characters have a boundary between them; the second is no newline. -/
theorem breaks_ascii {s e p : Nat} (hs : Scans b s p) (he : Scans b (p + 1) e) (hlt : p + 1 < e)
    (hlen : e ≤ b.length) (ha : b[p]?.any (· < 0x80) = true) (hc : b[p + 1]?.any (· < 0x80) = true)
    (hnl : b[p + 1]? ≠ some newline) : Breaks U b s e (p + 1) := by
  obtain ⟨hw, hplain, -⟩ := plain_of_ascii (U := U) ha
  obtain ⟨hd, hplain', hlf⟩ := plain_of_ascii (U := U) hc
  obtain ⟨d, hd', hrest⟩ := he.first hlt
  rw [hd] at hd'
  cases hd'
  rw [breaks_between hs hw hd hrest hlen, Context.joins_plain hplain']
  exact Context.joins_plain_plain hplain hplain' fun hpair => hlf hnl hpair.2

/-- A pair of characters alone decides as the run does when one of them is plain. -/
theorem breaks_pair {s e p w d : Nat} (hs : Scans b s p) (hw : charLenAt b p = some w)
    (hd : charLenAt b (p + w) = some d) (he : Scans b (p + w + d) e) (hlen : e ≤ b.length)
    (hplain : (U.cls (charAt b p w)).Plain ∨ (U.cls (charAt b (p + w) d)).Plain) :
    Breaks U b p (p + w + d) (p + w) ↔ Breaks U b s e (p + w) := by
  rw [breaks_between (.refl p) hw hd (.refl _) (charLenAt_le hd), breaks_between hs hw hd he hlen,
    charsOf_self]
  rcases hplain with hplain | hplain
  · rw [Context.step_plain hplain, ← Context.step_plain hplain (context U.cls (charsOf b s p))]
  · rw [Context.joins_plain hplain (context U.cls (charsOf b s p)), Context.joins_plain hplain]

/-- The boundary at the end of the character at `pos` is the next one. -/
theorem isLeast_char {s e pos w : Nat} (hs : Scans b s pos) (hw : charLenAt b pos = some w)
    (h : Breaks U b s e (pos + w)) : IsLeast {i | pos < i ∧ Breaks U b s e i} (pos + w) := by
  refine ⟨⟨by have := charLenAt_pos hw; omega, h⟩, fun i hi => ?_⟩
  obtain ⟨hlt, hi⟩ := hi
  obtain ⟨w', hw', hrest⟩ := (hs.rest hi.before (Nat.le_of_lt hlt)).first hlt
  rw [hw] at hw'
  cases hw'
  exact hrest.le

/-- The boundary at the start of the character before `pos` is the last one. -/
theorem isGreatest_char {s e pos q : Nat} (hs : Scans b s q) (hw : charLenAt b q = some (pos - q))
    (hq : q < pos) (h : Breaks U b s e q) : IsGreatest {i | i < pos ∧ Breaks U b s e i} q := by
  refine ⟨⟨hq, h⟩, fun i hi => ?_⟩
  obtain ⟨hlt, hi⟩ := hi
  by_contra hgt
  obtain ⟨w', hw', hrest⟩ := (hs.rest hi.before (by omega)).first (by omega)
  rw [hw] at hw'
  cases hw'
  have := hrest.le
  omega

/-- The break a segmenter answers on a slice is the next one of the text. -/
theorem alone_spec {g : Segmenter} (hg : g.Follows U) {forward : Bool} {i j r : Nat}
    (h : Scans b i j) (hj : j ≤ b.length) (hr : g.alone forward (slice b i j) = some r) :
    Adjacent U b i j forward (if forward then i else j) (i + r) := by
  have hle := h.le
  have hlen := slice_length hle hj
  have hus : ∀ before after, isBreak U.cls (([] : List Spelled).map Spelled.char ++ before) after =
      isBreak U.cls (charsOf b i i ++ before) after := fun before after => by
    rw [charsOf_self]
    rfl
  have hvs : ∀ before after, isBreak U.cls before (after ++ ([] : List Spelled).map Spelled.char) =
      isBreak U.cls before (after ++ charsOf b j j) := fun before after => by
    rw [charsOf_self]
    rfl
  have hat : Scans b i (if forward then i else j) ∧ Scans b (if forward then i else j) j := by
    cases forward with
    | true => exact ⟨.refl i, h⟩
    | false => exact ⟨h, .refl j⟩
  obtain ⟨hchunk, hslice, hbreaks⟩ := breaks_iff (.refl i) hat.1 hat.2 (.refl j) hj hus hvs
    (show slice b i j = spelling [] ++ (slice b i j ++ spelling []) by simp)
  have hstart : (spelling []).length = 0 := rfl
  simp only [hstart, Nat.zero_add] at hchunk hslice hbreaks
  unfold Segmenter.alone at hr
  split at hr
  · split at hr
    · rename_i r' hanswer
      cases hr
      rw [← hslice] at hanswer
      have hoffset : (if forward = true then i else j) - i = if forward = true then 0 else
          (slice (slice b i j) 0 (j - i)).length := by
        rw [hslice, hlen]
        cases forward <;> simp
      rw [← hoffset] at hanswer
      rw [show (slice (slice b i j) 0 (j - i)).length = (slice b i j).length by rw [hslice]] at hanswer
      obtain ⟨-, hrj, hadj⟩ := hg.boundary hchunk hanswer
      have hmem := hbreaks (i + r) (Nat.le_add_right _ _) (by omega)
      rw [Nat.add_sub_cancel_left] at hmem
      cases forward with
      | true =>
        obtain ⟨⟨hgt, hbreak⟩, hleast⟩ := hadj
        simp only [if_true, Nat.sub_self] at hgt hleast ⊢
        refine ⟨⟨by omega, hmem.mp hbreak⟩, fun k hk => ?_⟩
        obtain ⟨hik, hk⟩ := hk
        have := hleast ⟨by omega, (hbreaks k hk.before.le hk.after.le).mpr hk⟩
        omega
      | false =>
        obtain ⟨⟨hlt, hbreak⟩, hgreatest⟩ := hadj
        simp only [Bool.false_eq_true, if_false] at hlt hgreatest ⊢
        refine ⟨⟨by omega, hmem.mp hbreak⟩, fun k hk => ?_⟩
        obtain ⟨hkj, hk⟩ := hk
        have hik := hk.before.le
        have := hgreatest ⟨by omega, (hbreaks k hik hk.after.le).mpr hk⟩
        omega
    · cases hr
  · cases hr

end

/-! ## The character before a place -/

section
variable {U : UnicodeData} {b : Bytes} {s e pos q : Nat}

theorem Scans.last_ascii (h : Scans b s q) (hlt : s < q) (ha : b[q - 1]?.any (· < 0x80) = true) :
    Scans b s (q - 1) := by
  obtain ⟨p, hsp, hw, hpq⟩ := h.last hlt
  have hone : charLenAt b (q - 1) = some 1 := by
    obtain ⟨c, hc, hlow⟩ := Option.any_eq_true _ _ |>.mp ha
    exact charLenAt_eq_one.mpr ⟨c, hc, UInt8.le_iff_toNat_le.mpr
      (Nat.le_of_lt_succ (UInt8.lt_iff_toNat_lt.mp (of_decide_eq_true hlow)))⟩
  have hlast : prevBoundary b q = q - 1 :=
    (prevBoundary_of_char (by rw [hone, show q - (q - 1) = 1 by omega]) (by omega)).1
  rw [(prevBoundary_of_char hw hpq).1] at hlast
  rwa [← hlast]

/-- A run that begins at `q` has no character of the line before it. -/
theorem IsRun.start_lt (hrun : IsRun b s e) (hsq : s ≤ q) {p : Nat}
    (hw : charLenAt b p = some (q - p)) (hpq : p < q) (hnl : b[q - 1]? ≠ some newline) : s < q := by
  rcases Nat.eq_or_lt_of_le hsq with heq | hlt
  · exfalso
    rcases hrun.start with ⟨-, hat⟩ | hnone
    · exact hnl (by rwa [← heq])
    · exact hnone p _ hw (by omega)
  · exact hlt

theorem breaks_ascii_before (hrun : IsRun b s e) (hsq : Scans b s q) (hqe : Scans b q e) (hlt : q < e)
    (ha : b[q]?.any (· < 0x80) = true) (hprior : s < q → b[q - 1]?.any (· < 0x80) = true) :
    Breaks U b s e q := by
  rcases Nat.eq_or_lt_of_le hsq.le with heq | hin
  · rw [← heq]
    exact breaks_start hrun.scans
  · have hsp := hsq.last_ascii hin (hprior hin)
    have hq : q = q - 1 + 1 := by omega
    rw [hq] at hqe hlt ha ⊢
    exact breaks_ascii hsp hqe hlt hrun.inside (hprior hin) ha (hrun.noNewline _ (by omega) hlt)

end

/-! ## The steps -/

section
variable {U : UnicodeData} {g : Segmenter} (hg : g.Follows U) {b : Bytes} {s e pos q : Nat}
include hg

/-- `Steps::next` in a run: the next cluster boundary. -/
theorem nextGrapheme_isLeast (hrun : IsRun b s e) (hs : Scans b s pos) (he : Scans b pos e)
    (hlt : pos < e) : IsLeast {i | pos < i ∧ Breaks U b s e i} (nextGrapheme g b pos) := by
  obtain ⟨w, hw, hrest⟩ := he.first hlt
  have hinside := hrun.inside
  have hsp := hs.le
  have hnl : b[pos]? ≠ some newline := hrun.noNewline pos hsp hlt
  have hstop : pos + w = e → Breaks U b s e (pos + w) := fun heq => by
    rw [heq]
    exact breaks_stop hrun.scans
  unfold nextGrapheme
  split
  · -- two ASCII bytes, or the text's last
    rename_i hascii
    obtain ⟨ha, hc⟩ := Bool.and_eq_true_iff.mp hascii
    have hone := (plain_of_ascii (U := U) ha).1
    rw [hw] at hone
    cases hone
    refine isLeast_char hs hw ?_
    rcases Nat.lt_or_eq_of_le hrest.le with hmore | hend
    · rw [List.getElem?_eq_getElem (by omega)] at hc
      refine breaks_ascii hs hrest hmore hinside ha ?_ (hrun.noNewline _ (by omega) hmore)
      rw [List.getElem?_eq_getElem (by omega)]
      exact hc
    · exact hstop hend
  · split
    · rename_i hout
      rcases hout with hge | hat | hin
      · omega
      · exact absurd hat hnl
      · exact absurd hin (not_insideChar (isBoundary_of_char hw))
    · split
      · rename_i hnone
        rw [hw] at hnone
        cases hnone
      · rename_i w' hw'
        rw [hw] at hw'
        cases hw'
        split
        · -- the run ends after the character
          rename_i hends
          refine isLeast_char hs hw (hstop ?_)
          by_contra hne
          obtain ⟨d, hd, -⟩ := hrest.first (Nat.lt_of_le_of_ne hrest.le hne)
          rcases hends with hat | hnone
          · have hle := charLenAt_le hd
            have hpos := charLenAt_pos hd
            simp only [atNul, Bool.or_eq_true, decide_eq_true_eq, beq_iff_eq] at hat
            rcases hat with hlen | hat
            · omega
            · exact hrun.noNewline _ (by omega) (Nat.lt_of_le_of_ne hrest.le hne) hat
          · rw [hd] at hnone
            cases hnone
        · rename_i hgoes
          obtain ⟨d, hd⟩ : ∃ d, charLenAt b (pos + w) = some d :=
            Option.ne_none_iff_exists'.mp fun hnone => hgoes (.inr hnone)
          have hmore : pos + w < e := by
            by_contra hge
            rw [show pos + w = e by have := hrest.le; omega] at hd hgoes
            rcases hrun.stop with hat | hnone
            · exact hgoes (.inl (by simp [atNul, hat]))
            · rw [hnone] at hd
              cases hd
          obtain ⟨d', hd', hafter⟩ := hrest.first hmore
          rw [hd] at hd'
          cases hd'
          have hpair : Scans b pos (pos + w + d) := .char hw (.char hd (.refl _))
          split
          · -- an ASCII character and the next, alone
            rename_i halone
            obtain ⟨rfl, halone⟩ := halone
            simp only [hd, Option.any_some, beq_iff_eq] at halone
            obtain ⟨⟨-, hbreak⟩, -⟩ := alone_spec hg hpair (charLenAt_le hd) halone
            obtain ⟨c, hc, hlow⟩ := charLenAt_eq_one.mp hw
            have ha : b[pos]?.any (· < 0x80) = true := by
              rw [hc, Option.any_some, decide_eq_true_eq]
              exact UInt8.lt_iff_toNat_lt.mpr (Nat.lt_succ_of_le (UInt8.le_iff_toNat_le.mp hlow))
            have hplain := (plain_of_ascii (U := U) ha).2.1
            exact isLeast_char hs hw ((breaks_pair hs hw hd hafter hinside (.inl hplain)).mp hbreak)
          · split
            · -- a character and an ASCII one, alone
              rename_i halone
              obtain ⟨hc, halone⟩ := halone
              obtain ⟨hone, hplain, -⟩ := plain_of_ascii (U := U) hc
              rw [hd] at hone
              cases hone
              obtain ⟨⟨-, hbreak⟩, -⟩ := alone_spec hg hpair (charLenAt_le hd) halone
              exact isLeast_char hs hw ((breaks_pair hs hw hd hafter hinside (.inr hplain)).mp hbreak)
            · have hedge : Edge b pos pos := ⟨(charLenAt_spec hw).2.2.2.1, Nat.le_refl pos, by omega,
                .inl ⟨rfl, by omega, hnl⟩⟩
              exact (clusterStep_spec hg hrun hedge hs he (fun _ : true = true => hlt)
                fun h => by cases h).1

/-- A byte that starts alone by its neighbour's answer is a break of the run. -/
theorem startsAlone_breaks (hrun : IsRun b s e) (hsq : Scans b s q) (hqe : Scans b pos e)
    (hw : charLenAt b q = some (pos - q)) (hq : q < pos) (h : startsAlone g b q pos = true) :
    Breaks U b s e q := by
  have hlen := (prevBoundary_of_char hw hq).2.2
  simp only [startsAlone, Bool.and_eq_true, beq_iff_eq, Bool.not_eq_true'] at h
  obtain ⟨⟨⟨hone, hbol⟩, hsome⟩, halone⟩ := h
  obtain ⟨d, hd⟩ := Option.isSome_iff_exists.mp hsome
  obtain ⟨r, hr, hrq⟩ := Option.any_eq_true _ _ |>.mp halone
  simp only [beq_iff_eq] at hrq
  simp only [atBol, Bool.or_eq_false_iff, beq_eq_false_iff_ne, Bool.and_eq_false_iff,
    decide_eq_false_iff_not] at hbol
  have hqpos := Nat.pos_of_ne_zero hbol.1
  have hnl : b[q - 1]? ≠ some newline := by
    rcases hbol.2 with h | h
    · omega
    · exact h
  have hedge := edge_prevBoundary hqpos (by omega) (not_insideChar (isBoundary_of_char hw)) hnl hd
  have hpq : prevBoundary b q < q := by
    rw [prevBoundary, Nat.min_eq_left (by omega)]
    exact boundaryBelow_lt b hqpos
  generalize hp : prevBoundary b q = p at hr hrq hedge hpq
  have hwp : charLenAt b p = some (q - p) := by
    rcases hedge.char with ⟨heq, -⟩ | ⟨hwp, -⟩
    · omega
    · exact hwp
  have hin := hrun.start_lt hsq.le hwp hpq hnl
  have hsp : Scans b s p := by
    obtain ⟨p', hsp, hwp', hpq'⟩ := hsq.last hin
    rwa [← hp, (prevBoundary_of_char hwp' hpq').1]
  -- both characters from `p` on
  have hat : p + (q - p) = q := by omega
  have hwq : charLenAt b (p + (q - p)) = some 1 := by
    rw [hat, hw, show pos - q = 1 by omega]
  have hend : p + (q - p) + 1 = pos := by omega
  have hpair : Scans b p pos := by
    rw [← hend]
    exact .char hwp (.char hwq (.refl _))
  obtain ⟨⟨-, hbreak⟩, -⟩ := alone_spec hg hpair hlen hr
  have hplain : (U.cls (charAt b (p + (q - p)) 1)).Plain := by
    obtain ⟨c, hc, hlow⟩ := charLenAt_eq_one.mp hwq
    refine (plain_of_ascii ?_).2.1
    rw [hc, Option.any_some, decide_eq_true_eq]
    exact UInt8.lt_iff_toNat_lt.mpr (Nat.lt_succ_of_le (UInt8.le_iff_toNat_le.mp hlow))
  have hdecides := breaks_pair hsp hwp hwq (by rwa [hend]) hrun.inside (.inr hplain)
  rw [hend, hat] at hdecides
  rw [hrq] at hbreak
  exact hdecides.mp hbreak

/-- From a place decided by its own characters, the segmenter's break is the one before `pos`. -/
theorem decided_isGreatest (hrun : IsRun b s e) (hsq : Scans b s q) (hpe : Scans b pos e)
    (hw : charLenAt b q = some (pos - q)) (hq : q < pos) {start k : Nat}
    (hstart : decidedFrom b q = some start) (hk : g.alone false (slice b start pos) = some k) :
    IsGreatest {i | i < pos ∧ Breaks U b s e i} (start + k) := by
  have hlen := (prevBoundary_of_char hw hq).2.2
  have hqp : Scans b q pos := .char hw (by rw [show q + (pos - q) = pos by omega]; exact .refl pos)
  obtain ⟨⟨hkp, hkbreak⟩, hkmax⟩ :=
    alone_spec hg ((decidedFrom_scans hstart).trans hqp) hlen hk
  simp only [Bool.false_eq_true, if_false] at hkp hkmax
  -- no boundary lies inside the last character
  have hlast : ∀ i, Scans b q i → i < pos → i = q := by
    intro i hi hip
    by_contra hne
    obtain ⟨w, hw', hrest⟩ := hi.first (by have := hi.le; omega)
    rw [hw] at hw'
    cases hw'
    have := hrest.le
    omega
  unfold decidedFrom at hstart
  split at hstart
  · -- the run starts at `q`
    rename_i hor
    cases hstart
    have hsq' : s = q := by
      by_contra hne
      have hin := Nat.lt_of_le_of_ne hsq.le hne
      obtain ⟨p, -, hwp, hpq⟩ := hsq.last hin
      rcases hor with hbol | hnone
      · simp only [atBol, Bool.or_eq_true, beq_iff_eq, Bool.and_eq_true, decide_eq_true_eq] at hbol
        rcases hbol with hzero | ⟨-, hnl⟩
        · omega
        · exact hrun.noNewline _ (by omega) (by have := hpe.le; omega) hnl
      · rw [(prevBoundary_of_char hwp hpq).1, hwp] at hnone
        cases hnone
    rw [hlast _ hkbreak.before hkp]
    refine isGreatest_char hsq hw hq ?_
    rw [← hsq']
    exact breaks_start hrun.scans
  · rename_i hnot
    split at hstart
    · rename_i hascii
      cases hstart
      obtain ⟨ha, hor⟩ := hascii
      obtain ⟨hone, hplain, -⟩ := plain_of_ascii (U := U) ha
      have hqpos : 0 < q := by
        by_contra hzero
        exact hnot (.inl (by rw [show q = 0 by omega]; rfl))
      have hnl : b[q - 1]? ≠ some newline := fun hat =>
        hnot (.inl (by simp [atBol, hat, show q ≤ b.length by omega]))
      have hin := hrun.start_lt (p := q - 1) hsq.le (by rw [hone, show q - (q - 1) = 1 by omega])
        (by omega) hnl
      have hsp := hsq.last_ascii hin ha
      have hat : q - 1 + 1 = q := by omega
      have hqe : Scans b q e := hqp.trans hpe
      have hdecides := breaks_pair (U := U) (d := pos - q) hsp hone (by rwa [hat])
        (by rwa [hat, show q + (pos - q) = pos by omega]) hrun.inside (.inl hplain)
      rw [hat, show q + (pos - q) = pos by omega] at hdecides
      rcases Nat.eq_zero_or_pos k with hzero | hpos
      · -- no boundary at `q`, so the one before it
        rw [hzero, Nat.add_zero] at hkmax ⊢
        have hbefore : Breaks U b s e (q - 1) := by
          refine breaks_ascii_before hrun hsp (.char hone (by rwa [hat])) (by have := hpe.le; omega) ha ?_
          intro hlt
          rcases hor with hbol | hprior
          · simp only [atBol, Bool.or_eq_true, beq_iff_eq, Bool.and_eq_true, decide_eq_true_eq] at hbol
            rcases hbol with h | ⟨-, h⟩
            · omega
            · exact absurd h (hrun.noNewline _ (by omega) (by have := hpe.le; omega))
          · rwa [show q - 1 - 1 = q - 2 by omega]
        refine ⟨⟨by omega, hbefore⟩, fun i hi => ?_⟩
        obtain ⟨hip, hi⟩ := hi
        by_contra hgt
        have hqi : i = q := by
          rcases Nat.lt_or_ge q i with hqi | hqi
          · exact hlast i (hsq.rest hi.before (by omega)) hip
          · omega
        rw [hqi] at hi
        have := hkmax ⟨hq, hdecides.mpr hi⟩
        omega
      · have hkq : q - 1 + k = q := by
          refine hlast _ ?_ hkp
          obtain ⟨w, hw', hrest⟩ := hkbreak.before.first (by omega)
          rw [hone] at hw'
          cases hw'
          rwa [hat] at hrest
        rw [hkq] at hkbreak ⊢
        exact isGreatest_char hsq hw hq (hdecides.mp hkbreak)
    · cases hstart

/-- `Steps::prev` in a run: the cluster boundary before. -/
theorem prevGrapheme_isGreatest (hrun : IsRun b s e) (hs : Scans b s pos) (he : Scans b pos e)
    (hlt : s < pos) : IsGreatest {i | i < pos ∧ Breaks U b s e i} (prevGrapheme g b pos) := by
  obtain ⟨q, hsq, hw, hq⟩ := hs.last hlt
  obtain ⟨hprev, hbpos, hlen⟩ := prevBoundary_of_char hw hq
  have hpe := he.le
  have hnl : b[pos - 1]? ≠ some newline := hrun.noNewline _ (by omega) (by omega)
  have hqe : Scans b q e := .char hw (by rwa [show q + (pos - q) = pos by omega])
  have hedge : Edge b pos q := by
    have h := edge_prevBoundary (by omega) hlen (not_insideChar hbpos) hnl (by rw [hprev]; exact hw)
    rwa [hprev] at h
  unfold prevGrapheme
  split
  · -- an ASCII byte after another, or where the line starts
    rename_i hascii
    obtain ⟨hpos, -, ha, hor⟩ := hascii
    have hone : charLenAt b (pos - 1) = some 1 := (plain_of_ascii (U := U) ha).1
    have hq1 : q = pos - 1 := by
      rw [← hprev]
      exact (prevBoundary_of_char (by rw [hone, show pos - (pos - 1) = 1 by omega]) (by omega)).1
    rw [← hq1] at ha ⊢
    refine isGreatest_char hsq hw hq (breaks_ascii_before hrun hsq hqe (by omega) ha fun hin => ?_)
    rcases hor with h | h | h
    · omega
    · rwa [show pos - 2 = q - 1 by omega] at h
    · exact absurd h hnl
  · rw [Nat.min_eq_left hlen]
    dsimp only
    split
    · rename_i hout
      rcases hout with hzero | hat | hin
      · omega
      · exact absurd hat hnl
      · exact absurd hin (not_insideChar hbpos)
    · rw [hprev]
      split
      · rename_i hnone
        rw [hw] at hnone
        cases hnone
      · split
        · rename_i halone
          exact isGreatest_char hsq hw hq (startsAlone_breaks hg hrun hsq he hw hq halone)
        · split
          · rename_i r hr
            obtain ⟨start, hstart, hr⟩ := Option.bind_eq_some_iff.mp hr
            obtain ⟨k, hk, rfl⟩ := Option.map_eq_some_iff.mp hr
            exact decided_isGreatest hg hrun hsq he hw hq hstart hk
          · exact (clusterStep_spec hg hrun hedge hs he (fun h : false = true => by cases h)
              fun _ => hlt).1

end

end Ruse.Core
