import Ruse.Lib.Graphemes
import Ruse.Core.Chars

/-!
# Windowed steps and the clusters of a run

The boundaries of UAX #29 in a run of whole characters (`Breaks`), and what the
segmentation crate promises of its answers (`Segmenter.Follows`): the chunk it is given may
stand in any text of the length it is told, and an answer is right in all of them.

A window of a run is asked about as a chunk of a text that goes on on both sides
(`clusterAsk`). That text is no text of the editor's, but there is one like it whose
boundaries in the chunk are the run's (`exists_standIn`), so the answer is the run's
boundary (`clusterAsk_adjacent`). The window doubles until there is an answer
(`clusterStep_adjacent`, `clusterStep_rounds`).
-/

namespace Ruse.Core

open Ruse.Lib

/-- The tables of the crate, with what the steps' shortcuts use of them: no rule looks
further back than an ASCII character, and CR and LF are the controls that join. -/
structure UnicodeData where
  cls : Char → CharClass
  coherent : ∀ c, (cls c).Coherent
  ascii : ∀ c, c.toNat < 128 → (cls c).Plain
  lf : ∀ c, (cls c).cluster = .lf ↔ c = '\n'
  cr : ∀ c, (cls c).cluster = .cr ↔ c = '\r'

/-- In the whole characters from `s` to `e` there is a cluster boundary at `i`. -/
structure Breaks (U : UnicodeData) (b : Bytes) (s e i : Nat) : Prop where
  before : Scans b s i
  after : Scans b i e
  isBreak : isBreak U.cls (charsOf b s i) (charsOf b i e) = true

/-- `r` is the boundary after `pos`, or the one before it. -/
def Adjacent (U : UnicodeData) (b : Bytes) (s e : Nat) (forward : Bool) (pos r : Nat) : Prop :=
  if forward then IsLeast {i | pos < i ∧ Breaks U b s e i} r
  else IsGreatest {i | i < pos ∧ Breaks U b s e i} r

/-- A stretch of a text, cut out of it at boundaries, with a cursor in it. -/
structure IsChunk (text : Bytes) (start stop offset : Nat) : Prop where
  before : Scans text 0 start
  left : Scans text start offset
  right : Scans text offset stop
  after : Scans text stop text.length

/-- The crate finds the boundaries of UAX #29 under its chunk protocol: what it answers
from a chunk is right for the text, whatever text has the chunk there; it has no answer
where the cursor is at the text's end; and it asks for more only of a text it has not all
of. -/
structure Segmenter.Follows (g : Segmenter) (U : UnicodeData) : Prop where
  boundary {forward : Bool} {offset start stop r : Nat} {text : Bytes} :
    IsChunk text start stop offset →
    g.ask forward offset text.length (slice text start stop) start = .boundary r →
    start ≤ r ∧ r ≤ stop ∧ Adjacent U text 0 text.length forward offset r
  nowhere {forward : Bool} {offset start stop : Nat} {text : Bytes} :
    IsChunk text start stop offset →
    g.ask forward offset text.length (slice text start stop) start = .nowhere →
    offset = if forward then text.length else 0
  incomplete {forward : Bool} {offset start stop : Nat} {text : Bytes} :
    IsChunk text start stop offset →
    g.ask forward offset text.length (slice text start stop) start = .incomplete →
    0 < start ∨ stop < text.length

/-! ## A text like the run -/

section
variable (U : UnicodeData)

theorem isBreak_newlines (n : Nat) (after : List Char) :
    isBreak U.cls (List.replicate n '\n') after = true := by
  cases n with
  | zero => rfl
  | succ n =>
    cases after with
    | nil => rfl
    | cons c after =>
      have hlf : (U.cls '\n').cluster = .lf := (U.lf _).mpr rfl
      rw [List.replicate_succ', isBreak_concat]
      simp [Context.joins, Context.step, hlf, ClusterClass.isControl]

theorem isBreak_cr (before after : List Char) : isBreak U.cls before ('\r' :: after) = true := by
  have hcr : (U.cls '\r').cluster = .cr := (U.cr _).mpr rfl
  rcases List.eq_nil_or_concat before with rfl | ⟨front, a, rfl⟩
  · rfl
  · rw [List.concat_eq_append, isBreak_concat]
    simp [Context.joins, Context.step, hcr, ClusterClass.isControl]

theorem context_eq_start {text : List Char} : context U.cls text = .start ↔ text = [] := by
  constructor
  · intro h
    rcases List.eq_nil_or_concat text with rfl | ⟨front, a, rfl⟩
    · rfl
    · rw [List.concat_eq_append, context_concat] at h
      cases congrArg Context.prev h
  · rintro rfl
    rfl

theorem isBreak_newlines_append (n : Nat) (before after : List Char) :
    isBreak U.cls (List.replicate n '\n' ++ before) after = isBreak U.cls before after := by
  cases before with
  | nil =>
    rw [List.append_nil, isBreak_newlines]
    rfl
  | cons c before =>
    refine isBreak_congr (by simp) ?_ rfl
    exact context_of_isBreak U.coherent (isBreak_newlines U n (c :: before)) (List.cons_ne_nil _ _)
      (List.prefix_refl _)

theorem isBreak_of_context {text text' : List Char} (h : context U.cls text = context U.cls text')
    (before after : List Char) :
    isBreak U.cls (text ++ before) after = isBreak U.cls (text' ++ before) after := by
  refine isBreak_congr ?_ ?_ rfl
  · have hnil : text = [] ↔ text' = [] := by
      rw [← context_eq_start U, h, context_eq_start U]
    rw [List.append_eq_nil_iff, List.append_eq_nil_iff, hnil]
  · rw [context_append, context_append, h]

/-- For a text before the window there is one of a given length that decides as it does. -/
theorem exists_before (text : List Spelled) {n : Nat} (hn : 4 * 270 ≤ n) :
    ∃ us : List Spelled, (spelling us).length = n ∧ ∀ before after,
      isBreak U.cls (us.map Spelled.char ++ before) after =
        isBreak U.cls (text.map Spelled.char ++ before) after := by
  obtain ⟨short, hlen, hctx⟩ : ∃ short : List Spelled, short.length ≤ Fintype.card Context ∧
      context (fun u : Spelled => U.cls u.char) short = context (fun u => U.cls u.char) text :=
    exists_short text
  rw [Context.card] at hlen
  have hbytes := spelling_length_le short
  have hmap : ∀ us : List Spelled, context (fun u : Spelled => U.cls u.char) us =
      context U.cls (us.map Spelled.char) := by
    intro us
    rw [context, context, List.foldl_map]
  rw [hmap, hmap] at hctx
  have hnl : (Spelled.ascii 10 (by decide)).char = '\n' := rfl
  refine ⟨List.replicate (n - (spelling short).length) (.ascii 10 (by decide)) ++ short, ?_, ?_⟩
  · rw [spelling_append, List.length_append, spelling_replicate_ascii]
    omega
  · intro before after
    rw [List.map_append, List.map_replicate, hnl, List.append_assoc, isBreak_newlines_append]
    exact isBreak_of_context U hctx before after

/-- Some text of any length past four breaks off from what is before it as the given one does. -/
theorem exists_after (text : List Spelled) {n : Nat} (hn : 4 < n) :
    ∃ us : List Spelled, (spelling us).length = n ∧ ∀ before after,
      isBreak U.cls before (after ++ us.map Spelled.char) =
        isBreak U.cls before (after ++ text.map Spelled.char) := by
  have hcr : (Spelled.ascii 13 (by decide)).char = '\r' := rfl
  cases text with
  | nil =>
    refine ⟨List.replicate n (.ascii 13 (by decide)), spelling_replicate_ascii n _ _, ?_⟩
    intro before after
    cases after with
    | nil =>
      obtain ⟨m, rfl⟩ := Nat.exists_eq_succ_of_ne_zero (show n ≠ 0 by omega)
      rw [List.nil_append, List.map_replicate, hcr, List.replicate_succ, isBreak_cr]
      cases before <;> rfl
    | cons c after => exact isBreak_congr Iff.rfl rfl rfl
  | cons u text =>
    have hu := u.length_le
    refine ⟨u :: List.replicate (n - u.bytes.length) (.ascii 13 (by decide)), ?_, ?_⟩
    · rw [spelling_cons, List.length_append, spelling_replicate_ascii]
      omega
    · intro before after
      cases after with
      | nil => exact isBreak_congr Iff.rfl rfl rfl
      | cons c after => exact isBreak_congr Iff.rfl rfl rfl

end

/-! ## The window of a run, as a chunk -/

section
variable {U : UnicodeData} {b : Bytes} {s e ws we pos : Nat}

/-- A text with the window in it that decides as the run does has the run's boundaries. -/
theorem breaks_iff (hs : Scans b s ws) (hleft : Scans b ws pos) (hright : Scans b pos we)
    (he : Scans b we e) (hlen : e ≤ b.length) {us vs : List Spelled}
    (hus : ∀ before after, isBreak U.cls (us.map Spelled.char ++ before) after =
      isBreak U.cls (charsOf b s ws ++ before) after)
    (hvs : ∀ before after, isBreak U.cls before (after ++ vs.map Spelled.char) =
      isBreak U.cls before (after ++ charsOf b we e)) {text : Bytes}
    (htext : text = spelling us ++ (slice b ws we ++ spelling vs)) :
    IsChunk text (spelling us).length ((spelling us).length + (we - ws))
      ((spelling us).length + (pos - ws)) ∧
    slice text (spelling us).length ((spelling us).length + (we - ws)) = slice b ws we ∧
    ∀ i, ws ≤ i → i ≤ we →
      (Breaks U text 0 text.length ((spelling us).length + (i - ws)) ↔ Breaks U b s e i) := by
  have hw := hleft.trans hright
  have hwe := he.le
  have hws := hw.le
  have hslice := slice_length hws (Nat.le_trans hwe hlen)
  have htlen : text.length = (spelling us).length + (we - ws) + (spelling vs).length := by
    rw [htext, List.length_append, List.length_append, hslice, Nat.add_assoc]
  have hbyte : ∀ k < we - ws, text[(spelling us).length + k]? = b[ws + k]? := by
    intro k hk
    rw [htext, List.getElem?_append_right (Nat.le_add_right _ _), Nat.add_sub_cancel_left,
      List.getElem?_append_left (by omega), slice, List.getElem?_take_of_lt hk, List.getElem?_drop]
  -- the characters of the text, up to the window and after it
  obtain ⟨hfront, hfrontChars⟩ := charsOf_spelling [] (slice b ws we ++ spelling vs) us
  rw [List.nil_append, ← htext, List.length_nil, Nat.zero_add] at hfront hfrontChars
  obtain ⟨hback, hbackChars⟩ := charsOf_spelling (spelling us ++ slice b ws we) [] vs
  rw [List.append_nil, List.append_assoc, ← htext, List.length_append, hslice, ← htlen]
    at hback hbackChars
  have hle := hright.le
  have hleft' : Scans text (spelling us).length ((spelling us).length + (pos - ws)) :=
    hleft.same fun k hk => hbyte k (by omega)
  have hmid := hleft'.rest (hw.same hbyte) (by omega)
  refine ⟨⟨hfront, hleft', hmid, hback⟩, ?_, ?_⟩
  · rw [slice, Nat.add_sub_cancel_left]
    have := slice_eq_of_getElem? hbyte
    rw [slice, slice, Nat.add_sub_cancel_left, Nat.add_sub_cancel_left] at this
    rw [this, slice]
  · intro i hwi hiw
    have hlow : ∀ k < i - ws, text[(spelling us).length + k]? = b[ws + k]? := fun k hk =>
      hbyte k (by omega)
    have hhigh : ∀ k < we - i, text[(spelling us).length + (i - ws) + k]? = b[i + k]? := by
      intro k hk
      have := hbyte (i - ws + k) (by omega)
      rwa [← Nat.add_assoc, show ws + (i - ws + k) = i + k by omega] at this
    have hlowChars : charsOf text (spelling us).length ((spelling us).length + (i - ws)) = charsOf b ws i :=
      charsOf_same (by omega) hlow
    have hhighChars : charsOf text ((spelling us).length + (i - ws)) ((spelling us).length + (we - ws)) =
        charsOf b i we := charsOf_same (by omega) hhigh
    -- where the window is cut, so are the run and the text
    have hcut : ∀ (hl : Scans b ws i) (hr : Scans b i we),
        (isBreak U.cls (charsOf text 0 ((spelling us).length + (i - ws)))
          (charsOf text ((spelling us).length + (i - ws)) text.length) =
        isBreak U.cls (charsOf b s i) (charsOf b i e)) := by
      intro hl hr
      have hl' := hl.same hlow
      have hr' := hr.same hhigh
      rw [show (spelling us).length + (i - ws) + (we - i) = (spelling us).length + (we - ws) by omega]
        at hr'
      rw [charsOf_append hfront hl' (by omega), charsOf_append hr' hback (Nat.le_refl _),
        charsOf_append hs hl (by omega), charsOf_append hr he hlen, hfrontChars, hbackChars, hlowChars,
        hhighChars, hus, hvs]
    constructor
    · rintro ⟨hbefore, hafter, hbreak⟩
      have hl' := hfront.rest hbefore (Nat.le_add_right _ _)
      have hl : Scans b ws i := by
        have hsame : Scans b ws
            (ws + ((spelling us).length + (i - ws) - (spelling us).length)) :=
          hl'.same fun k hk => (hlow k (by omega)).symm
        rwa [Nat.add_sub_cancel_left, show ws + (i - ws) = i by omega] at hsame
      have hr := hl.rest hw hiw
      rw [hcut hl hr] at hbreak
      exact ⟨hs.trans hl, hr.trans he, hbreak⟩
    · rintro ⟨hbefore, hafter, hbreak⟩
      have hl := hs.rest hbefore hwi
      have hr := hl.rest hw hiw
      have hl' := hl.same hlow
      have hr' := hr.same hhigh
      rw [show (spelling us).length + (i - ws) + (we - i) = (spelling us).length + (we - ws) by omega]
        at hr'
      rw [← hcut hl hr] at hbreak
      exact ⟨hfront.trans hl', hr'.trans hback, hbreak⟩

/-- For every window there is a text as long as `cluster_step` says that decides as the
run does: it goes on past the window where the run's edge is not known. -/
theorem exists_standIn (hs : Scans b s ws) (he : Scans b we e) (hwlen : ws ≤ b.length)
    (hlen : e ≤ b.length)
    {startKnown endKnown : Bool} (hstart : startKnown = true → ws = s) (hend : endKnown = true → we = e) :
    ∃ us vs : List Spelled, (spelling us).length = (if startKnown then 0 else far) ∧
      (spelling vs).length = (if endKnown then 0 else far) ∧
      (∀ before after, isBreak U.cls (us.map Spelled.char ++ before) after =
        isBreak U.cls (charsOf b s ws ++ before) after) ∧
      ∀ before after, isBreak U.cls before (after ++ vs.map Spelled.char) =
        isBreak U.cls before (after ++ charsOf b we e) := by
  have hus : ∃ us : List Spelled, (spelling us).length = (if startKnown then 0 else far) ∧
      ∀ before after, isBreak U.cls (us.map Spelled.char ++ before) after =
        isBreak U.cls (charsOf b s ws ++ before) after := by
    cases startKnown with
    | true =>
      refine ⟨[], rfl, fun before after => ?_⟩
      rw [hstart rfl, charsOf_self]
      rfl
    | false =>
      obtain ⟨text, htext⟩ := exists_spelled hs hwlen
      rw [htext]
      exact exists_before U text (by decide)
  have hvs : ∃ vs : List Spelled, (spelling vs).length = (if endKnown then 0 else far) ∧
      ∀ before after, isBreak U.cls before (after ++ vs.map Spelled.char) =
        isBreak U.cls before (after ++ charsOf b we e) := by
    cases endKnown with
    | true =>
      refine ⟨[], rfl, fun before after => ?_⟩
      rw [hend rfl, charsOf_self]
      rfl
    | false =>
      obtain ⟨text, htext⟩ := exists_spelled he hlen
      rw [htext]
      exact exists_after U text (by decide)
  obtain ⟨us, hulen, hu⟩ := hus
  obtain ⟨vs, hvlen, hv⟩ := hvs
  exact ⟨us, vs, hulen, hvlen, hu, hv⟩

end

/-! ## The step -/

section
variable {U : UnicodeData} {g : Segmenter} (hg : g.Follows U) {b : Bytes} {pos q s e : Nat}
include hg

/-- What a round of `cluster_step` is answered about a place of a run: the run's boundary,
or a request for more where the window does not show the whole run. -/
theorem clusterAsk_spec (hrun : IsRun b s e) (h : Edge b pos q) (hs : Scans b s pos)
    (he : Scans b pos e) {forward : Bool} (hfwd : forward = true → pos < e)
    (hbwd : forward = false → s < pos) {limit : Nat} (hlimit : 0 < limit) (hq : pos ≤ q + limit) :
    (∃ r, clusterAsk g b pos forward limit = .boundary r ∧ Adjacent U b s e forward pos r) ∨
    (clusterAsk g b pos forward limit = .incomplete ∧
      ((utf8Run b pos limit).startKnown && (utf8Run b pos limit).endKnown) = false) := by
  obtain ⟨⟨hbefore, hafter⟩, hstart, hend⟩ := utf8Run_window hrun h hs he hlimit hq
  obtain ⟨hleft, hright⟩ := utf8Run_holds h hlimit hq
  unfold clusterAsk
  generalize utf8Run b pos limit = run at hbefore hafter hstart hend hleft hright ⊢
  obtain ⟨ws, startKnown, we, endKnown⟩ := run
  dsimp only at hbefore hafter hstart hend hleft hright ⊢
  have hwlen : ws ≤ b.length := by
    have := hleft.le
    have := h.inside
    omega
  have hwe := hafter.le
  have hwp := hleft.le
  have hpw := hright.le
  obtain ⟨us, vs, hulen, hvlen, hus, hvs⟩ :=
    exists_standIn (U := U) hbefore hafter hwlen hrun.inside hstart hend
  obtain ⟨hchunk, hslice, hbreaks⟩ := breaks_iff hbefore hleft hright hafter hrun.inside hus hvs rfl
  generalize htext : spelling us ++ (slice b ws we ++ spelling vs) = text at hchunk hslice hbreaks
  have htlen : text.length = (spelling us).length + (slice b ws we).length + (spelling vs).length := by
    rw [← htext, List.length_append, List.length_append, Nat.add_assoc]
  have hwlen' := slice_length (hleft.trans hright).le (Nat.le_trans hwe hrun.inside)
  rw [← hulen, ← hvlen, ← htlen, ← hslice]
  cases hanswer : g.ask forward ((spelling us).length + (pos - ws)) text.length
      (slice text (spelling us).length ((spelling us).length + (we - ws))) (spelling us).length with
  | boundary r =>
    left
    obtain ⟨hlow, hhigh, hadj⟩ := hg.boundary hchunk hanswer
    have hr : (spelling us).length + (ws + (r - (spelling us).length) - ws) = r := by omega
    refine ⟨_, rfl, ?_⟩
    have hmem := hbreaks (ws + (r - (spelling us).length)) (by omega) (by omega)
    rw [hr] at hmem
    cases forward with
    | true =>
      obtain ⟨⟨hgt, hbreak⟩, hleast⟩ := hadj
      refine ⟨⟨by omega, hmem.mp hbreak⟩, fun i hi => ?_⟩
      obtain ⟨hpi, hi⟩ := hi
      by_contra hlt
      have := hleast ⟨by omega, (hbreaks i (by omega) (by omega)).mpr hi⟩
      omega
    | false =>
      obtain ⟨⟨hlt, hbreak⟩, hgreatest⟩ := hadj
      refine ⟨⟨by omega, hmem.mp hbreak⟩, fun i hi => ?_⟩
      obtain ⟨hip, hi⟩ := hi
      by_contra hgt
      have := hgreatest ⟨by omega, (hbreaks i (by omega) (by omega)).mpr hi⟩
      omega
  | nowhere =>
    exfalso
    have hat := hg.nowhere hchunk hanswer
    have hfar : far ≠ 0 := by decide
    cases forward with
    | true =>
      have := hfwd rfl
      simp only [if_true] at hat
      cases endKnown with
      | true =>
        have := hend rfl
        simp only [if_true] at hvlen
        omega
      | false =>
        simp only [Bool.false_eq_true, if_false] at hvlen
        omega
    | false =>
      have := hbwd rfl
      simp only [Bool.false_eq_true, if_false] at hat
      cases startKnown with
      | true =>
        have := hstart rfl
        omega
      | false =>
        simp only [Bool.false_eq_true, if_false] at hulen
        omega
  | incomplete =>
    right
    refine ⟨rfl, ?_⟩
    have hmore := hg.incomplete hchunk hanswer
    cases startKnown with
    | false => rfl
    | true =>
      cases endKnown with
      | false => rfl
      | true =>
        simp only [if_true] at hulen hvlen
        omega

/-- The step ends on the adjacent break, at the first window that knows it. -/
theorem clusterStep_spec (hrun : IsRun b s e) (h : Edge b pos q) (hs : Scans b s pos)
    (he : Scans b pos e) {forward : Bool} (hfwd : forward = true → pos < e)
    (hbwd : forward = false → s < pos) :
    Adjacent U b s e forward pos (clusterStep g b pos forward) ∧
    ∃ n, clusterAsk g b pos forward (stepWindow * 2 ^ n) = .boundary (clusterStep g b pos forward) ∧
      ∀ m < n, clusterAsk g b pos forward (stepWindow * 2 ^ m) = .incomplete ∧
        ((utf8Run b pos (stepWindow * 2 ^ m)).startKnown &&
          (utf8Run b pos (stepWindow * 2 ^ m)).endKnown) = false := by
  have hq : pos ≤ q + stepWindow := by
    rcases h.char with ⟨heq, -, -⟩ | ⟨hw, -⟩
    · omega
    · have := (charLenAt_spec hw).2.1
      simp only [stepWindow]
      omega
  have hlimit : 0 < stepWindow := by decide
  unfold clusterStep
  revert hlimit hq
  generalize stepWindow = limit
  intro hq hlimit
  induction limit using clusterLoop.induct g b pos forward with
  | case1 limit r hr =>
    rw [clusterLoop, hr]
    rcases clusterAsk_spec hg hrun h hs he hfwd hbwd hlimit hq with ⟨r', hr', hadj⟩ | ⟨hmore, -⟩
    · rw [hr] at hr'
      cases hr'
      exact ⟨hadj, 0, by rw [pow_zero, Nat.mul_one, hr], fun m hm => by omega⟩
    · rw [hr] at hmore
      cases hmore
  | case2 limit hr =>
    rcases clusterAsk_spec hg hrun h hs he hfwd hbwd hlimit hq with ⟨r', hr', -⟩ | ⟨hmore, -⟩
    · rw [hr] at hr'
      cases hr'
    · rw [hr] at hmore
      cases hmore
  | case3 limit hr hknown =>
    rcases clusterAsk_spec hg hrun h hs he hfwd hbwd hlimit hq with ⟨r', hr', -⟩ | ⟨-, hnot⟩
    · rw [hr] at hr'
      cases hr'
    · rw [hknown] at hnot
      cases hnot
  | case4 limit hr hknown hmore ih =>
    obtain ⟨hadj, n, hlast, hfirst⟩ := ih (by omega) (by omega)
    rw [clusterLoop, hr]
    rw [if_neg hknown, if_pos hmore]
    have hpow : ∀ m, limit * 2 * 2 ^ m = limit * 2 ^ (m + 1) := fun m => by
      rw [Nat.pow_succ, Nat.mul_assoc, Nat.mul_comm 2]
    refine ⟨hadj, n + 1, by rw [← hpow, hlast], fun m hm => ?_⟩
    cases m with
    | zero =>
      rw [pow_zero, Nat.mul_one]
      exact ⟨hr, Bool.eq_false_iff.mpr hknown⟩
    | succ m =>
      rw [← hpow]
      exact hfirst m (by omega)
  | case5 limit hr hknown hmore =>
    -- the window is the whole text
    obtain ⟨hstart, hend⟩ := @utf8Run_known limit b pos h.inside (by omega)
    rw [hstart, hend] at hknown
    exact absurd rfl hknown

end

end Ruse.Core
