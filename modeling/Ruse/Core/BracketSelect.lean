import Ruse.Core.BracketObject
import Ruse.Core.WordMotions
import Ruse.Lib.Enclosing

/-!
# Bracket objects select balanced pairs

On a text without backslashes `find_bracket` is the search of `Ruse.Lib.Enclosing`
(`findBracket_eq`), so the openers of `current_block` are those of the pairs around the
cursor, the innermost first, and of none when there are fewer (`brackets_select`). With no
opener left open before the cursor the object is about the next ones.
-/

namespace Ruse.Core

open Ruse.Lib

variable {find other : UInt8} {c fuel o p : Nat}

theorem BracketKind.closer_ne_opener (k : BracketKind) : k.closer ≠ k.opener := by
  cases k <;> decide

namespace Buf

variable {buf : Buf}

/-! ## The searches -/

section
variable (hclean : 92 ∉ buf.b)
include hclean

theorem escaped_clean (p : Nat) : buf.escaped p = false := by
  have hnone : (slice buf.b (lineStart buf.b p) p).reverse.takeWhile (· == 92) = [] := by
    rw [List.takeWhile_eq_nil_iff]
    intro hlen h
    have hmem := List.getElem_mem hlen
    rw [show (slice buf.b (lineStart buf.b p) p).reverse[0] = 92 from beq_iff_eq.mp h, List.mem_reverse] at hmem
    exact hclean (List.mem_of_mem_drop (List.mem_of_mem_take hmem))
  rw [escaped, hnone]
  rfl

theorem bracketAt_clean (i depth : Nat) (c : UInt8) :
    buf.bracketAt find other i depth c =
      if c = other then some ((depth + 1) % 2 ^ 32)
      else if c = find then if depth = 0 then none else some (depth - 1)
      else some depth := by
  unfold bracketAt
  rw [escaped_clean hclean]
  by_cases ho : c = other
  · simp [ho]
  · by_cases hf : c = find
    · simp [hf]
    · simp [hf, ho]

/-- The depth never wraps on a text this short. -/
theorem findAhead_eq (i depth : Nat) (hdepth : depth + (buf.b.length - i) < 2 ^ 32) :
    buf.findAhead find other i depth = (closing other find depth (buf.b.drop i)).map (i + ·) := by
  induction i, depth using findAhead.induct buf find other with
  | case1 i depth hlt hfound =>
    rw [findAhead, dif_pos hlt, hfound, List.drop_eq_getElem_cons hlt, closing]
    rw [bracketAt_clean hclean] at hfound
    split at hfound
    · cases hfound
    · rename_i ho
      split at hfound
      · rename_i hf
        split at hfound
        · rename_i hzero
          rw [if_neg ho, if_pos hf, if_pos hzero]
          rfl
        · cases hfound
      · cases hfound
  | case2 i depth hlt depth' hgo ih =>
    rw [findAhead, dif_pos hlt, hgo, List.drop_eq_getElem_cons hlt, closing]
    dsimp only
    have hshift : ∀ r : Option Nat, r.map (i + 1 + ·) = (r.map (· + 1)).map (i + ·) := by
      intro r
      rw [Option.map_map]
      congr 1
      funext q
      simp only [Function.comp_apply]
      omega
    rw [bracketAt_clean hclean] at hgo
    split at hgo
    · rename_i ho
      cases hgo
      rw [Nat.mod_eq_of_lt (by omega)] at ih ⊢
      rw [ih (by omega), if_pos ho, hshift]
    · rename_i ho
      rw [if_neg ho]
      split at hgo
      · rename_i hf
        split at hgo
        · cases hgo
        · rename_i hzero
          cases hgo
          rw [ih (by omega), if_pos hf, if_neg hzero, hshift]
      · rename_i hf
        cases hgo
        rw [ih (by omega), if_neg hf, hshift]
  | case3 i depth hge =>
    rw [findAhead, dif_neg hge, List.drop_eq_nil_of_le (Nat.not_lt.mp hge)]
    rfl

/-- The search back finds what closes the depth in the reversed text. -/
theorem findBack_eq {i : Nat} (hi : i ≤ buf.b.length) (depth : Nat) (hdepth : depth + i < 2 ^ 32) :
    buf.findBack find other i depth =
      (closing other find depth (buf.b.take i).reverse).map (i - 1 - ·) := by
  induction i generalizing depth with
  | zero => rfl
  | succ i ih =>
    have hlt : i < buf.b.length := hi
    have hcons : (buf.b.take (i + 1)).reverse = buf.b.getD i 0 :: (buf.b.take i).reverse := by
      rw [List.take_succ_eq_append_getElem hlt, List.reverse_append, List.getD_eq_getElem?_getD,
        List.getElem?_eq_getElem hlt]
      rfl
    have hshift : ∀ r : Option Nat, (∀ q ∈ r, q < i) →
        r.map (i - 1 - ·) = (r.map (· + 1)).map (i + 1 - 1 - ·) := by
      intro r hr
      cases r with
      | none => rfl
      | some q =>
        simp only [Option.map_some, Option.some.injEq]
        omega
    have hbound : ∀ d, ∀ q ∈ closing other find d (buf.b.take i).reverse, q < i := by
      intro d q hq
      have hlt := (List.getElem?_eq_some_iff.mp (closing_spec hq).1).1
      rw [List.length_reverse, List.length_take] at hlt
      omega
    rw [findBack, bracketAt_clean hclean, hcons, closing]
    by_cases ho : buf.b.getD i 0 = other
    · rw [if_pos ho, if_pos ho, Nat.mod_eq_of_lt (by omega)]
      dsimp only
      rw [ih (by omega) _ (by omega), hshift _ (hbound _)]
    · rw [if_neg ho, if_neg ho]
      by_cases hf : buf.b.getD i 0 = find
      · rw [if_pos hf, if_pos hf]
        by_cases hzero : depth = 0
        · rw [if_pos hzero, if_pos hzero]
          rfl
        · rw [if_neg hzero, if_neg hzero]
          dsimp only
          rw [ih (by omega) _ (by omega), hshift _ (hbound _)]
      · rw [if_neg hf, if_neg hf]
        dsimp only
        rw [ih (by omega) _ (by omega), hshift _ (hbound _)]

variable (hlen : buf.b.length < 2 ^ 32)
include hlen

/-- `find_bracket` is the search for the open bracket before a place, for the one that closes a
bracket, and for the next open one. -/
theorem findBracket_eq (k : BracketKind) {i : Nat} :
    (i ≤ buf.b.length → buf.findBracket i k false false = openerAt k.opener k.closer buf.b i) ∧
    buf.findBracket i k true false = closerAt k.opener k.closer buf.b i ∧
    buf.findBracket i k true true = closerAt k.closer k.opener buf.b i := by
  refine ⟨fun hi => ?_, ?_, ?_⟩
  · exact findBack_eq hclean hi 0 (by omega)
  · exact findAhead_eq hclean (i + 1) 0 (by omega)
  · exact findAhead_eq hclean (i + 1) 0 (by omega)

/-- The openers counted back or ahead are those of the nesting. -/
theorem openers_eq (k : BracketKind) (count : Nat) {cur : Nat} (hcur : cur ≤ buf.b.length) :
    buf.openers k true count cur = outward k.opener k.closer buf.b count cur ∧
    buf.openers k false count cur = openAhead k.opener k.closer buf.b count cur := by
  constructor
  · induction count generalizing cur with
    | zero => rfl
    | succ count ih =>
      rw [openers, if_pos rfl, (findBracket_eq hclean hlen k).1 hcur, outward]
      cases h : openerAt k.opener k.closer buf.b cur with
      | none => rfl
      | some j =>
        have := ((openerAt_eq_some k.closer_ne_opener hcur).mp h).1
        exact ih (by omega)
  · induction count generalizing cur with
    | zero => rfl
    | succ count ih =>
      rw [openers, if_neg Bool.false_ne_true, (findBracket_eq hclean hlen k).2.2, openAhead]
      cases h : closerAt k.closer k.opener buf.b cur with
      | none => rfl
      | some j =>
        have := ((closerAt_eq_some (Ne.symm k.closer_ne_opener)).mp h).2.1
        exact ih (Nat.le_of_lt (List.getElem?_eq_some_iff.mp this).1)

end

/-- The pair an object is about: the `count`-th around, or with no bracket open the `count`-th
ahead. -/
def pairFrom (b : Bytes) (k : BracketKind) (count i : Nat) : Option (Nat × Nat) :=
  (if (openerAt k.opener k.closer b i).isSome then outward k.opener k.closer b count i
    else openAhead k.opener k.closer b count i).bind fun start =>
  (closerAt k.opener k.closer b start).map fun stop => (start, stop)

theorem pairFrom_pair (k : BracketKind) (count i : Nat) {start stop : Nat} (hi : i ≤ buf.b.length)
    (h : pairFrom buf.b k (count + 1) i = some (start, stop)) :
    Pair k.opener k.closer buf.b start stop := by
  obtain ⟨a, ha, hb⟩ := Option.bind_eq_some_iff.mp h
  obtain ⟨b, hb, heq⟩ := Option.map_eq_some_iff.mp hb
  cases heq
  refine (pair_iff k.closer_ne_opener).mpr ⟨?_, hb⟩
  split at ha
  · exact outward_open k.closer_ne_opener count hi ha
  · exact (ahead_open k.closer_ne_opener count ha).1

/-- `current_block` under an operator: the pair found, and for `i(` the text between trimmed. -/
theorem currentBlock_eq (hclean : 92 ∉ buf.b) (hlen : buf.b.length < 2 ^ 32) (k : BracketKind) (count : Nat) {cursor : Nat}
    (hp : buf.blockPos fuel k cursor = some p) (hle : buf.searchFrom k p ≤ buf.b.length)
    (around : Bool) :
    buf.currentBlock fuel cursor none count around k =
      match pairFrom buf.b k (max count 1) (buf.searchFrom k p) with
      | none => some none
      | some (start, stop) =>
        if around then some (some (buf.blockResult false ⟨start, stop, stop, false⟩))
        else (untilBreak (buf.innerBody fuel k none) fuel (some ⟨start, stop, stop, false⟩)).map fun s =>
          s.map (buf.blockResult false) := by
  have hopeners : buf.openers k (buf.findBracket (buf.searchFrom k p) k false false).isSome (max count 1)
      (buf.searchFrom k p) = if (openerAt k.opener k.closer buf.b (buf.searchFrom k p)).isSome then
        outward k.opener k.closer buf.b (max count 1) (buf.searchFrom k p)
      else openAhead k.opener k.closer buf.b (max count 1) (buf.searchFrom k p) := by
    rw [(findBracket_eq hclean hlen k).1 hle]
    obtain ⟨hout, hahead⟩ := openers_eq hclean hlen k (max count 1) hle
    cases (openerAt k.opener k.closer buf.b (buf.searchFrom k p)).isSome with
    | true => exact hout
    | false => exact hahead
  have hpair : ((buf.openers k (buf.findBracket (buf.searchFrom k p) k false false).isSome (max count 1)
      (buf.searchFrom k p)).bind fun start =>
        (buf.findBracket start k true false).map fun stop => (start, stop)) =
      pairFrom buf.b k (max count 1) (buf.searchFrom k p) := by
    congr 1
    funext start
    rw [(findBracket_eq hclean hlen k).2.1]
  unfold currentBlock
  simp only [Option.filter_none, hp, Option.map_some, Option.bind_eq_bind, Option.bind_some, hpair,
    Option.isSome_none, Option.map_none]
  cases pairFrom buf.b k (max count 1) (buf.searchFrom k p) with
  | none => rfl
  | some m =>
    obtain ⟨start, stop⟩ := m
    cases around with
    | true => rfl
    | false =>
      simp only [Bool.false_eq_true, if_false]
      cases untilBreak (buf.innerBody fuel k none) fuel (some ⟨start, stop, stop, false⟩) <;> rfl

/-! ## The pairs around the cursor -/

/-- The pair at `o` and `c` has `p` inside it, or on a bracket. -/
def Encloses (b : Bytes) (k : BracketKind) (p o c : Nat) : Prop :=
  Pair k.opener k.closer b o c ∧ o ≤ p ∧ p ≤ c

/-- It is the `n`-th innermost one. -/
def NthEnclosing (b : Bytes) (k : BracketKind) (p n o c : Nat) : Prop :=
  Encloses b k p o c ∧ {x | o ≤ x ∧ ∃ y, Encloses b k p x y}.ncard = n

theorem last_newline (h : buf.last < buf.b.length) : buf.b[buf.last]? = some newline := by
  rcases WordText.contentEnd_cases buf.b with ⟨heq, -⟩ | ⟨-, hnl⟩
  · rw [last] at h
    omega
  · exact hnl

theorem gchar_eq_opener (k : BracketKind) (p : Nat) : buf.gchar p = k.opener ↔ buf.b[p]? = some k.opener ∧ p < buf.last := by
  have hzero : (0 : UInt8) ≠ k.opener := by cases k <;> decide
  have hnewline : newline ≠ k.opener := by cases k <;> decide
  unfold gchar
  cases hnul : buf.isNul p with
  | true =>
    refine iff_of_false hzero fun h => ?_
    simp only [isNul, ge_iff_le, Bool.or_eq_true, decide_eq_true_eq, beq_iff_eq] at hnul
    rcases hnul with hlast | hnl
    · omega
    · rw [hnl] at h
      exact hnewline (Option.some.inj h.1)
  | false =>
    obtain ⟨hlast, hlt, -⟩ := isNul_false hnul
    rw [if_neg Bool.false_ne_true, List.getD_eq_getElem?_getD, List.getElem?_eq_getElem hlt, Option.getD_some,
      Option.some.injEq]
    exact ⟨fun h => ⟨h, hlast⟩, fun h => h.1⟩

theorem searchFrom_le (k : BracketKind) (hp : p ≤ buf.last) :
    buf.searchFrom k p ≤ buf.b.length := by
  have hlast := contentEnd_le buf.b
  unfold searchFrom last at *
  split
  · rename_i hat
    have := ((gchar_eq_opener k p).mp hat).2
    unfold last at this
    omega
  · omega

/-- A pair is around where the search starts if it has the cursor inside or on a bracket. -/
theorem encloses_iff (k : BracketKind) (hp : p ≤ buf.last) : Encloses buf.b k p o c ↔
    Pair k.opener k.closer buf.b o c ∧ o < buf.searchFrom k p ∧ buf.searchFrom k p ≤ c := by
  unfold Encloses searchFrom
  refine and_congr_right fun hpair => ?_
  by_cases hat : buf.gchar p = k.opener
  · rw [if_pos hat]
    have hopen := ((gchar_eq_opener k p).mp hat).1
    have hne : p ≠ c := by
      rintro rfl
      have hclose := hpair.closes
      rw [hopen] at hclose
      exact k.closer_ne_opener (Option.some.inj hclose).symm
    omega
  · rw [if_neg hat]
    have hne : o ≠ p := by
      rintro rfl
      have hlast : o < buf.last := by
        refine Nat.lt_of_le_of_ne hp fun heq => ?_
        have hlt := (List.getElem?_eq_some_iff.mp hpair.opens).1
        have hnl : buf.b[buf.last]? = some newline := last_newline (by omega)
        rw [← heq, hpair.opens] at hnl
        revert hnl
        cases k <;> decide
      exact hat ((gchar_eq_opener k o).mpr ⟨hpair.opens, hlast⟩)
    omega

theorem nthEnclosing_iff (k : BracketKind) {n : Nat} (hp : p ≤ buf.last) :
    NthEnclosing buf.b k p n o c ↔
      NthAround k.opener k.closer buf.b (buf.searchFrom k p) n o ∧ Pair k.opener k.closer buf.b o c := by
  have hset : {x | o ≤ x ∧ ∃ y, Encloses buf.b k p x y} =
      {x ∈ Around k.opener k.closer buf.b (buf.searchFrom k p) | o ≤ x} := by
    ext x
    simp only [Set.mem_ofPred_eq, encloses_iff k hp, Around]
    exact And.comm
  unfold NthEnclosing NthAround
  rw [hset, encloses_iff k hp]
  constructor
  · rintro ⟨⟨hpair, hlt, hle⟩, hcard⟩
    exact ⟨⟨⟨c, hpair, hlt, hle⟩, hcard⟩, hpair⟩
  · rintro ⟨⟨⟨c', hpair', hlt, hle⟩, hcard⟩, hpair⟩
    rw [hpair'.unique k.closer_ne_opener hpair] at hle
    exact ⟨⟨hpair, hlt, hle⟩, hcard⟩

/-- With a bracket open before the cursor the object is about the pair that many around it. -/
theorem pairFrom_enclosing (k : BracketKind) (count : Nat) (hp : p ≤ buf.last)
    (hopen : openerAt k.opener k.closer buf.b (buf.searchFrom k p) ≠ none) :
    pairFrom buf.b k (count + 1) (buf.searchFrom k p) = some (o, c) ↔
      NthEnclosing buf.b k p (count + 1) o c := by
  have hle := searchFrom_le k hp
  rw [nthEnclosing_iff k hp, pairFrom, if_pos (Option.isSome_iff_ne_none.mpr hopen)]
  rcases outward_nth k.closer_ne_opener count hle with ⟨a, b, ha, hb, hnth, hab⟩ | ⟨hnone, hno⟩
  · rw [ha, Option.bind_some, hb, Option.map_some, Option.some.injEq, Prod.mk.injEq]
    constructor
    · rintro ⟨rfl, rfl⟩
      exact ⟨hnth, hab⟩
    · rintro ⟨hnth', hpair⟩
      obtain rfl := hnth.unique hnth'
      exact ⟨rfl, hab.unique k.closer_ne_opener hpair⟩
  · refine iff_of_false (fun h => ?_) fun h => hno o h.1
    obtain ⟨a, ha, hb⟩ := Option.bind_eq_some_iff.mp h
    obtain ⟨b, hb, -⟩ := Option.map_eq_some_iff.mp hb
    rw [ha, Option.bind_some, hb] at hnone
    cases hnone

theorem not_encloses (k : BracketKind) (hp : p ≤ buf.last)
    (hopen : openerAt k.opener k.closer buf.b (buf.searchFrom k p) = none) (o c : Nat) :
    ¬ Encloses buf.b k p o c := by
  intro h
  obtain ⟨hpair, hlt, hle⟩ := (encloses_iff k hp).mp h
  have hmem : o ∈ Around k.opener k.closer buf.b (buf.searchFrom k p) := ⟨c, hpair, hlt, hle⟩
  rw [openerAt_none k.closer_ne_opener hopen] at hmem
  exact hmem

/-! ## Steps from cell to cell -/

section
variable {U : UnicodeData} (hg : buf.steps.Follows U)

theorem lt_last (hc : c < buf.b.length) (hnl : buf.b[c]? ≠ some newline) : c < buf.last := by
  by_contra hge
  rcases Nat.eq_or_lt_of_le (Nat.not_lt.mp hge) with heq | hlt
  · exact hnl (by rw [← heq]; exact last_newline (by omega))
  · rcases WordText.contentEnd_cases buf.b with ⟨heq, -⟩ | ⟨heq, -⟩
    · rw [last] at hlt
      omega
    · rw [last] at hlt
      omega

include hg

/-- `incl` leads to the next cell, or past it when that is a line's end. -/
theorem incl_cell (hb : isBoundary buf.b p = true) (hno : buf.b[p]? ≠ some newline) (hpc : p < c)
    (hc : CellBreak U buf.b c) (hclt : c < buf.b.length) (hnl : buf.b[c]? ≠ some newline) :
    ∃ q, IsLeast {i | p < i ∧ CellBreak U buf.b i} q ∧ q ≤ c ∧ NoNewline buf.b p q ∧
      (buf.incl p).1 = if buf.b[q]? = some newline then q + 1 else q := by
  have hlast := lt_last hclt hnl
  have hnul : buf.isNul p = false := by
    simp only [isNul, ge_iff_le, Bool.or_eq_false_iff, decide_eq_false_iff_not, beq_eq_false_iff_ne]
    exact ⟨by omega, hno⟩
  have hnext := nextGrapheme_cell hg hb (by omega)
  have hinc : buf.inc p = (nextGrapheme buf.steps buf.b p,
      if buf.isNul (nextGrapheme buf.steps buf.b p) then .onNul else .within) := by
    rw [inc, hnul]
    rfl
  generalize nextGrapheme buf.steps buf.b p = q at hnext hinc
  have hqc : q ≤ c := hnext.2 ⟨hpc, hc⟩
  have hpq := hnext.1.1
  have hnone : NoNewline buf.b p q := by
    intro i hi hiq hat
    rcases Nat.eq_or_lt_of_le hi with rfl | hlt
    · exact hno hat
    · have := hnext.2 ⟨hlt, WordText.cellBreak_newline (t := ⟨buf.b, buf.steps, []⟩) hat⟩
      omega
  refine ⟨q, hnext, hqc, hnone, ?_⟩
  have hqnul : buf.isNul q = true ↔ buf.b[q]? = some newline := by
    simp only [isNul, ge_iff_le, Bool.or_eq_true, decide_eq_true_eq, beq_iff_eq]
    exact or_iff_right (by omega)
  have hcol : buf.col0 q = false := by
    simp only [col0, Bool.or_eq_false_iff, beq_eq_false_iff_ne]
    exact ⟨by omega, hnone (q - 1) (by omega) (by omega)⟩
  rw [incl, hinc]
  by_cases hat : buf.b[q]? = some newline
  · have hinc' : buf.inc q = (q + 1, .crossed) := by
      rw [inc, hqnul.mpr hat]
      have hne : q ≠ c := fun heq => hnl (heq ▸ hat)
      simp only [Bool.not_true, Bool.false_eq_true, if_false]
      rw [if_neg (by omega)]
    rw [if_pos hat]
    simp only [hqnul.mpr hat, if_true, StepCode.overLine, hcol, Bool.not_false, Bool.and_true, hinc']
  · rw [if_neg hat]
    have hfalse : buf.isNul q = false := Bool.eq_false_iff.mpr fun h => hat (hqnul.mp h)
    simp only [hfalse, Bool.false_eq_true, if_false, StepCode.overLine, Bool.false_and]

omit hg in
theorem incl_newline (hat : buf.b[p]? = some newline) (hlt : p < buf.last) : (buf.incl p).1 = p + 1 := by
  have hnul : buf.isNul p = true := by simp [isNul, hat]
  have hinc : buf.inc p = (p + 1, .crossed) := by
    rw [inc, hnul]
    simp only [Bool.not_true, Bool.false_eq_true, if_false]
    rw [if_neg (by omega)]
  have hcol : buf.col0 (p + 1) = true := by simp [col0, hat]
  rw [incl, hinc]
  simp only [hcol, Bool.not_true, Bool.and_false, Bool.false_eq_true, if_false]

/-- A cell of a line. The line break of an empty line counts as one, that of another does not. -/
def LineCell (U : UnicodeData) (b : Bytes) (i : Nat) : Prop :=
  CellBreak U b i ∧ (b[i]? = some newline → lineStart b i = i)

omit hg in
theorem lineStart_col0 (hcol : buf.col0 p = true) : lineStart buf.b p = p := by
  refine lineStart_eq (Nat.le_refl p) ?_ fun k hk hkp => by omega
  simpa [col0, StartsLine] using hcol

omit hg in
/-- The last cell before a place that does not start a line is one of its line. -/
theorem lineCell_greatest {q : Nat} (h : IsGreatest {i | i < q ∧ CellBreak U buf.b i} p)
    (hle : q ≤ buf.b.length) (hcol : buf.col0 q = false) :
    buf.b[p]? ≠ some newline ∧ LineCell U buf.b p := by
  have hlt := h.1.1
  have hno : buf.b[p]? ≠ some newline := by
    intro hat
    have hnext := (cellBreak_succ (U := U) h.1.2.boundary (by omega) (.inl hat)).2
    rcases Nat.eq_or_lt_of_le (Nat.succ_le_of_lt hlt) with heq | hin
    · rw [← heq] at hcol
      simp [col0, hat] at hcol
    · have := h.2 ⟨hin, hnext⟩
      omega
  exact ⟨hno, h.1.2, fun hat => absurd hat hno⟩

/-- `decl` leads back to the next cell of a line; where it crosses a break that is an empty line's. -/
theorem decl_cell (hb : isBoundary buf.b p = true) (hpos : 0 < p) (hle : p ≤ buf.b.length) :
    IsGreatest {i | i < p ∧ LineCell U buf.b i} (buf.decl p).1 ∧
      (buf.col0 p = false → IsGreatest {i | i < p ∧ CellBreak U buf.b i} (buf.decl p).1) ∧
      ((buf.decl p).2 ≠ .within → buf.b[(buf.decl p).1]? = some newline) := by
  have hdec : ∀ q, isBoundary buf.b q = true → 0 < q → q ≤ buf.b.length → buf.col0 q = false →
      buf.dec q = (prevGrapheme buf.steps buf.b q, .within) ∧
        IsGreatest {i | i < q ∧ CellBreak U buf.b i} (prevGrapheme buf.steps buf.b q) := by
    intro q hbq hq hqle hcol
    rw [dec, hcol]
    exact ⟨rfl, prevGrapheme_cell hg hbq hq hqle⟩
  cases hcol : buf.col0 p with
  | false =>
    obtain ⟨hstep, hprev⟩ := hdec p hb hpos hle hcol
    have hdecl : buf.decl p = (prevGrapheme buf.steps buf.b p, .within) := by
      rw [decl, hstep]
      rfl
    rw [hdecl]
    exact ⟨⟨⟨hprev.1.1, (lineCell_greatest hprev hle hcol).2⟩, fun i hi => hprev.2 ⟨hi.1, hi.2.1⟩⟩,
      fun _ => hprev, fun h => absurd rfl h⟩
  | true =>
    have hnl : buf.b[p - 1]? = some newline := by
      simp only [col0, Bool.or_eq_true, beq_iff_eq] at hcol
      exact hcol.resolve_left (by omega)
    have hcell : CellBreak U buf.b (p - 1) := WordText.cellBreak_newline (t := ⟨buf.b, buf.steps, []⟩) hnl
    have hstep : buf.dec p = (p - 1, .crossed) := by
      rw [dec, hcol]
      simp only [Bool.not_true, Bool.false_eq_true, if_false]
      rw [if_neg (by omega)]
    rw [decl, hstep]
    simp only [decide_true, Bool.true_and]
    cases hcol' : buf.col0 (p - 1) with
    | true =>
      simp only [Bool.not_true, Bool.false_eq_true, if_false]
      exact ⟨⟨⟨by omega, hcell, fun _ => lineStart_col0 hcol'⟩, fun i hi => by have := hi.1; omega⟩,
        fun h => (by cases h), fun _ => hnl⟩
    | false =>
      have hpos' : 0 < p - 1 := by
        refine Nat.pos_of_ne_zero fun hzero => ?_
        rw [hzero] at hcol'
        cases hcol'
      obtain ⟨hstep', hprev⟩ := hdec (p - 1) hcell.boundary hpos' (by omega) hcol'
      simp only [Bool.not_false, if_true, hstep']
      have hlt := hprev.1.1
      refine ⟨⟨⟨by omega, (lineCell_greatest hprev (by omega) hcol').2⟩, fun i hi => ?_⟩,
        fun h => (by cases h), fun h => absurd rfl h⟩
      -- the break crossed is not a cell of its line
      have hne : i ≠ p - 1 := by
        rintro rfl
        have hstart := (lineStart_spec buf.b (p - 1)).1
        rw [hi.2.2 hnl] at hstart
        simp only [col0, Bool.or_eq_false_iff, beq_eq_false_iff_ne] at hcol'
        exact hstart.elim hcol'.1 hcol'.2
      have := hi.1
      exact hprev.2 ⟨by omega, hi.2.1⟩

/-! ## The text between -/

omit hg in
theorem inindent_white (h : buf.inindent p 1 = true) : ∀ k, lineStart buf.b p ≤ k → k ≤ p →
    (buf.b[k]?).any isWhite = true := by
  intro k hlow hk
  simp only [inindent, ge_iff_le, decide_eq_true_eq] at h
  have hlt : k - lineStart buf.b p < ((buf.b.drop (lineStart buf.b p)).takeWhile isWhite).length := by omega
  have hpre := (List.takeWhile_prefix isWhite (l := buf.b.drop (lineStart buf.b p))).getElem hlt
  have hwhite := List.mem_takeWhile_imp (List.getElem_mem hlt)
  rw [hpre, List.getElem_drop] at hwhite
  simp only [Nat.add_sub_cancel' hlow] at hwhite
  rw [List.getElem?_eq_getElem]
  exact hwhite

omit hg in
theorem inindent_mono {q : Nat} (h : buf.inindent q 1 = true) (hpq : p ≤ q)
    (hline : lineStart buf.b p = lineStart buf.b q) : buf.inindent p 1 = true := by
  simp only [inindent, ge_iff_le, decide_eq_true_eq] at h ⊢
  rw [hline]
  omega

omit hg in
theorem cellBreak_lineStart (b : Bytes) (p : Nat) : CellBreak U b (lineStart b p) := by
  rcases (lineStart_spec b p).1 with hzero | hnl
  · rw [hzero]
    exact ⟨rfl, Nat.zero_le _, fun s _ _ hs _ => absurd hs (Nat.not_lt_zero s)⟩
  · have hlt := (List.getElem?_eq_some_iff.mp hnl).1
    rcases Nat.eq_zero_or_pos (lineStart b p) with hzero | hpos
    · rw [hzero]
      exact ⟨rfl, Nat.zero_le _, fun s _ _ hs _ => absurd hs (Nat.not_lt_zero s)⟩
    · have hcell := (cellBreak_succ (U := U) (isBoundary_newline hnl) hlt (.inl hnl)).2
      rwa [Nat.sub_add_cancel hpos] at hcell

/-- On the way back over the indent of the closer at `c`: nothing but indents was passed. -/
structure Trimming (U : UnicodeData) (buf : Buf) (c : Nat) (s : Nat × Bool) : Prop where
  cell : LineCell U buf.b s.1
  before : s.1 < c
  indents : ∀ i, LineCell U buf.b i → s.1 < i → i < c → buf.inindent i 1 = true
  next : s.2 = false → buf.col0 c = false ∧ IsGreatest {i | i < c ∧ CellBreak U buf.b i} s.1
  line : s.2 = true → ∀ i, CellBreak U buf.b i → lineStart buf.b c ≤ i → i < c → buf.inindent i 1 = true

omit hg in
/-- A step back from a cell in an indent. -/
theorem Trimming.line_white {s : Nat × Bool} (h : Trimming U buf c s) (hin : buf.inindent s.1 1 = true) :
    ∀ i, CellBreak U buf.b i → lineStart buf.b c ≤ i → i < c → buf.inindent i 1 = true := by
  cases hsol : s.2 with
  | true => exact h.line hsol
  | false =>
    intro i hi hlow hic
    have hprev := (h.next hsol).2
    have hip : i ≤ s.1 := hprev.2 ⟨hic, hi⟩
    obtain ⟨hstart, hno⟩ := lineStart_spec buf.b c
    have hlt := h.before
    have hsame : ∀ j, lineStart buf.b c ≤ j → j < c → lineStart buf.b j = lineStart buf.b c :=
      fun j hj hjc => lineStart_eq hj hstart fun k hk hkj => hno k hk (by omega)
    exact inindent_mono hin hip ((hsame i hlow hic).trans (hsame s.1 (by omega) hlt).symm)

/-- Back over the indent of the closer at `c`, to a cell that is in no indent. -/
theorem trim_spec (hc : CellBreak U buf.b c) (hpos : 0 < c) (hfuel : buf.b.length + 1 < fuel) :
    ∃ s, untilBreak buf.trimBody fuel ((buf.decl c).1, buf.col0 c) = some s ∧ Trimming U buf c s ∧
      (buf.inindent s.1 1 = true → s = (0, true)) := by
  have hlen := hc.inside
  obtain ⟨hlast, hprev, -⟩ := decl_cell hg hc.boundary hpos hlen
  have hlt := hlast.1.1
  refine untilBreak_ends (μ := Prod.fst) (I := Trimming U buf c)
    (J := fun s => Trimming U buf c s ∧ (buf.inindent s.1 1 = true → s = (0, true)))
    ?_ ⟨hlast.1.2, hlt, fun i hi hlow hic => ?_, fun hcol => ⟨hcol, hprev hcol⟩, ?_⟩
    (by dsimp only; omega)
  · rintro ⟨p, sol⟩ h
    unfold trimBody
    cases hin : buf.inindent p 1 with
    | false => exact ⟨_, _, rfl, fun _ => ⟨h, fun h => by rw [hin] at h; cases h⟩, fun h => by cases h⟩
    | true =>
      have hline := h.line_white hin
      rcases Nat.eq_zero_or_pos p with rfl | hp0
      · refine ⟨(0, true), true, ?_, fun _ => ⟨⟨h.cell, h.before, h.indents, fun h => (by cases h), fun _ => hline⟩,
          fun _ => rfl⟩, fun h => by cases h⟩
        simp [decl, dec, col0]
      · have hcell : LineCell U buf.b p := h.cell
        obtain ⟨hback, -, hcross⟩ := decl_cell hg hcell.1.boundary hp0 hcell.1.inside
        have hp' := hback.1.1
        have hkeep : Trimming U buf c ((buf.decl p).1, true) := by
          refine ⟨hback.1.2, Nat.lt_trans hp' h.before, fun i hi hlow hic => ?_, fun h => (by cases h), fun _ => hline⟩
          rcases Nat.lt_trichotomy i p with hip | rfl | hpi
          · have := hback.2 ⟨hip, hi⟩
            dsimp only at hlow
            omega
          · exact hin
          · exact h.indents i hi hpi hic
        refine ⟨_, _, rfl, fun hbrk => ⟨hkeep, fun hin' => ?_⟩, fun _ => ⟨hkeep, hp'⟩⟩
        -- the break of an empty line is no blank
        have hat := hcross (by simpa using hbrk)
        have hwhite := inindent_white hin' _ (lineStart_le _ _) (Nat.le_refl _)
        dsimp only at hwhite
        rw [hat] at hwhite
        cases hwhite
  · have := hlast.2 ⟨hic, hi⟩
    dsimp only at hlow
    omega
  · intro hcol i _ hlow hic
    have := lineStart_col0 hcol
    omega

/-- The first line from which only indents stand before the closer is the one after the cell found. -/
theorem Trimming.least {cur : Nat} (h : Trimming U buf c (cur, true)) (hout : buf.inindent cur 1 = false)
    (hc : CellBreak U buf.b c) (hclt : c < buf.b.length) (hnl : buf.b[c]? ≠ some newline) :
    IsLeast {l | StartsLine buf.b l ∧ ∀ i, LineCell U buf.b i → l ≤ i → i < c → buf.inindent i 1 = true}
      (buf.incl cur).1 ∧ (buf.incl cur).1 ≤ c := by
  obtain ⟨hcell, hbefore, hindents, -, hline⟩ := h
  dsimp only at hcell hbefore hindents hline
  have habove : cur < lineStart buf.b c := by
    by_contra hge
    rw [hline rfl cur hcell.1 (Nat.not_lt.mp hge) hbefore] at hout
    cases hout
  have hlast := lt_last hclt hnl
  obtain ⟨nl, hle, hat, hno, hincl, hnc⟩ : ∃ nl, cur ≤ nl ∧ buf.b[nl]? = some newline ∧
      NoNewline buf.b cur nl ∧ (buf.incl cur).1 = nl + 1 ∧ nl < c := by
    by_cases hat : buf.b[cur]? = some newline
    · exact ⟨cur, Nat.le_refl cur, hat, fun k _ _ => by omega, incl_newline hat (by omega), hbefore⟩
    · obtain ⟨q, hq, hqc, hno, hincl⟩ := incl_cell hg hcell.1.boundary hat hbefore hc hclt hnl
      have hlow := hq.1.1
      have hnl' : buf.b[q]? = some newline := by
        by_contra hqat
        obtain ⟨hstart, hnone⟩ := lineStart_spec buf.b cur
        have hcur := lineStart_le buf.b cur
        have hsame : lineStart buf.b q = lineStart buf.b cur := by
          refine lineStart_eq (by omega) hstart fun k hk hkq => ?_
          rcases Nat.lt_or_ge k cur with hlt | hge
          · exact hnone k hk hlt
          · exact hno k hge hkq
        rcases Nat.eq_or_lt_of_le hqc with rfl | hlt
        · omega
        · have hin := inindent_mono (hindents q ⟨hq.1.2, fun h => absurd h hqat⟩ hlow hlt) (by omega) hsame.symm
          rw [hin] at hout
          cases hout
      rw [if_pos hnl'] at hincl
      refine ⟨q, by omega, hnl', hno, hincl, Nat.lt_of_le_of_ne hqc ?_⟩
      rintro rfl
      exact hnl hnl'
  rw [hincl]
  refine ⟨⟨⟨.inr hat, fun i hi hlow hic => hindents i hi (by omega) hic⟩, fun l ⟨hl, hall⟩ => ?_⟩, hnc⟩
  by_contra hlt
  have hlcur : l ≤ cur := by
    by_contra hgt
    rcases hl with hzero | hl
    · omega
    · exact hno (l - 1) (by omega) (by omega) hl
  rw [hall cur hcell hlcur hbefore] at hout
  cases hout

/-- The text between the brackets, less what is trimmed. It starts at the first cell after the
opener, or on the next line when the opener ends its own. It stops at the closer; with only an
indent before the closer on its line, it stops at the first line from which only indents follow. -/
structure Inner (U : UnicodeData) (buf : Buf) (o c s e : Nat) : Prop where
  inside : o < s ∧ s ≤ c ∧ e ≤ c
  start : ∃ q, IsLeast {i | o < i ∧ CellBreak U buf.b i} q ∧ s = if buf.b[q]? = some newline then q + 1 else q
  whole : (∃ i, CellBreak U buf.b i ∧ lineStart buf.b c ≤ i ∧ i < c ∧ buf.inindent i 1 = false) → e = c
  trimmed : (∀ i, CellBreak U buf.b i → lineStart buf.b c ≤ i → i < c → buf.inindent i 1 = true) →
    IsLeast {l | StartsLine buf.b l ∧ ∀ i, LineCell U buf.b i → l ≤ i → i < c → buf.inindent i 1 = true} e

omit hg in
theorem pair_no_newline {k : BracketKind} (hpair : Pair k.opener k.closer buf.b o c) :
    buf.b[o]? ≠ some newline ∧ buf.b[c]? ≠ some newline := by
  constructor
  · rw [hpair.opens]
    cases k <;> decide
  · rw [hpair.closes]
    cases k <;> decide

/-- Where the text between the brackets starts. -/
theorem incl_opener {k : BracketKind} (hpair : Pair k.opener k.closer buf.b o c)
    (hc : CellBreak U buf.b c) :
    ∃ q, IsLeast {i | o < i ∧ CellBreak U buf.b i} q ∧
      (buf.incl o).1 = (if buf.b[q]? = some newline then q + 1 else q) ∧
      o < (buf.incl o).1 ∧ (buf.incl o).1 ≤ c := by
  obtain ⟨hno, hnl⟩ := pair_no_newline hpair
  have hopen : isBoundary buf.b o = true :=
    isBoundary_of_char (charLenAt_eq_one.mpr ⟨_, hpair.opens, by cases k <;> decide⟩)
  obtain ⟨q, hq, hqc, -, hincl⟩ := incl_cell hg hopen hno hpair.lt hc hpair.lt_length hnl
  have hoq := hq.1.1
  refine ⟨q, hq, hincl, ?_⟩
  rw [hincl]
  split
  · rename_i hat
    have hne : q ≠ c := fun heq => hnl (heq ▸ hat)
    omega
  · omega

/-- With only an indent before the closer on its line, `i(` stops at a line's start. -/
theorem inner_line {k : BracketKind} (hpair : Pair k.opener k.closer buf.b o c)
    (hc : CellBreak U buf.b c) {cur : Nat} (h : Trimming U buf c (cur, true))
    (hend : buf.inindent cur 1 = true → cur = 0) :
    ∃ e, Inner U buf o c (buf.incl o).1 e ∧
      ((buf.incl cur).1 = e ∨ (buf.incl cur).1 ≤ (buf.incl o).1 ∧ e ≤ (buf.incl o).1) := by
  obtain ⟨-, hnl⟩ := pair_no_newline hpair
  obtain ⟨q, hq, hincl, hos, hsc⟩ := incl_opener hg hpair hc
  have hlt : cur < c := h.before
  have hclt := hpair.lt_length
  have hwhole : (∃ i, CellBreak U buf.b i ∧ lineStart buf.b c ≤ i ∧ i < c ∧
      buf.inindent i 1 = false) → False := by
    rintro ⟨i, hi, hlow, hic, hout⟩
    rw [h.line rfl i hi hlow hic] at hout
    cases hout
  cases hin : buf.inindent cur 1 with
  | false =>
    obtain ⟨hleast, hle⟩ := h.least hg hin hc hclt hnl
    exact ⟨(buf.incl cur).1, ⟨⟨hos, hsc, hle⟩, ⟨q, hq, hincl⟩, fun h => (hwhole h).elim,
      fun _ => hleast⟩, .inl rfl⟩
  | true =>
    -- the indent of the first line: nothing is left
    cases hend hin
    refine ⟨0, ⟨⟨hos, hsc, Nat.zero_le _⟩, ⟨q, hq, hincl⟩, fun h => (hwhole h).elim, fun _ =>
      ⟨⟨.inl rfl, fun i hi _ hic => ?_⟩, fun l _ => Nat.zero_le l⟩⟩, .inr ⟨?_, Nat.zero_le _⟩⟩
    · rcases Nat.eq_zero_or_pos i with rfl | hpos
      · exact hin
      · exact h.indents i hi hpos hic
    · have hat : buf.b[0]? ≠ some newline := by
        intro hat
        have hwhite := inindent_white hin 0 (lineStart_le _ _) (Nat.le_refl _)
        rw [hat] at hwhite
        cases hwhite
      obtain ⟨q', hq', -, -, hincl'⟩ := incl_cell hg h.cell.1.boundary hat hlt hc hclt hnl
      have hoq := hq.1.1
      have hle : q' ≤ q := hq'.2 ⟨by omega, hq.1.2⟩
      rcases Nat.eq_or_lt_of_le hle with rfl | hlt'
      · exact Nat.le_of_eq (hincl'.trans hincl.symm)
      · have : (buf.incl 0).1 ≤ q' + 1 := by
          rw [hincl']
          split <;> omega
        have : q ≤ (buf.incl o).1 := by
          rw [hincl]
          split <;> omega
        omega

/-- With more than an indent before the closer on its line, `i(` stops at the closer. -/
theorem inner_whole {k : BracketKind} (hpair : Pair k.opener k.closer buf.b o c)
    (hc : CellBreak U buf.b c) {cur : Nat} (h : Trimming U buf c (cur, false))
    (hout : buf.inindent cur 1 = false) :
    Inner U buf o c (buf.incl o).1 c ∧
      if (buf.incl o).1 ≤ cur then buf.isNul cur = false ∧ nextGrapheme buf.steps buf.b cur = c
      else c ≤ (buf.incl o).1 := by
  obtain ⟨-, hnl⟩ := pair_no_newline hpair
  obtain ⟨q, hq, hincl, hos, hsc⟩ := incl_opener hg hpair hc
  have hlt : cur < c := h.before
  have hclt := hpair.lt_length
  obtain ⟨hcol, hprev⟩ := h.next rfl
  have hline : lineStart buf.b c ≤ cur := by
    refine hprev.2 ⟨Nat.lt_of_le_of_ne (lineStart_le buf.b c) fun heq => ?_, cellBreak_lineStart buf.b c⟩
    have hstart := (lineStart_spec buf.b c).1
    rw [heq] at hstart
    simp only [col0, Bool.or_eq_false_iff, beq_eq_false_iff_ne] at hcol
    exact hstart.elim hcol.1 hcol.2
  refine ⟨⟨⟨hos, hsc, Nat.le_refl c⟩, ⟨q, hq, hincl⟩, fun _ => rfl, fun hall => ?_⟩, ?_⟩
  · rw [hall cur h.cell.1 hline hlt] at hout
    cases hout
  have hno' := (lineCell_greatest hprev hc.inside hcol).1
  split
  · constructor
    · have := lt_last hclt hnl
      simp only [isNul, ge_iff_le, Bool.or_eq_false_iff, decide_eq_false_iff_not, beq_eq_false_iff_ne]
      exact ⟨by omega, hno'⟩
    · refine (nextGrapheme_cell hg hprev.1.2.boundary (by omega)).unique ⟨⟨hlt, hc⟩, fun i hi => ?_⟩
      by_contra hgt
      have := hprev.2 ⟨Nat.not_le.mp hgt, hi.2⟩
      have := hi.1
      omega
  · -- the next cell after the opener is the closer
    rename_i hle
    by_contra hgt
    have hqs : q ≤ (buf.incl o).1 := by
      rw [hincl]
      split <;> omega
    have hqcur := hprev.2 ⟨show q < c by omega, hq.1.2⟩
    have hqat : buf.b[q]? = some newline := by
      by_contra hqat
      rw [if_neg hqat] at hincl
      omega
    rw [if_pos hqat] at hincl
    have hsucc := (cellBreak_succ (U := U) hq.1.2.boundary (by omega) (.inl hqat)).2
    have := hprev.2 ⟨show q + 1 < c by omega, hsucc⟩
    omega

/-- What `i(` makes of a pair whose closer starts a cell. -/
theorem inner_spec {k : BracketKind} (hpair : Pair k.opener k.closer buf.b o c)
    (hc : CellBreak U buf.b c) (hfuel : buf.b.length + 1 < fuel) :
    ∃ r, untilBreak (buf.innerBody fuel k none) fuel (some ⟨o, c, c, false⟩) = some (some r) ∧
      ∃ e, Inner U buf o c r.start e ∧
        ((∃ e', buf.blockResult false r = (r.start, e', false) ∧ (e' = e ∨ e' ≤ r.start ∧ e ≤ r.start)) ∨
          (∃ cur, buf.blockResult false r = (r.start, cur, true) ∧
            buf.isNul cur = false ∧ nextGrapheme buf.steps buf.b cur = e)) := by
  have hoc := hpair.lt
  obtain ⟨-, -, -, hos, -⟩ := incl_opener hg hpair hc
  obtain ⟨⟨cur, sol⟩, htrim, h, hend⟩ := trim_spec hg hc (Nat.zero_lt_of_lt hoc) hfuel
  have hbody : buf.innerBody fuel k none (some ⟨o, c, c, false⟩) =
      some (some ⟨(buf.incl o).1, c, cur, sol⟩, true) := by
    rw [innerBody]
    simp only [htrim, Option.bind_eq_bind, Option.bind_some]
  refine ⟨⟨(buf.incl o).1, c, cur, sol⟩, untilBreak_once hbody (by omega), ?_⟩
  dsimp only at hend ⊢
  cases sol with
  | true =>
    obtain ⟨e, hinner, he⟩ :=
      inner_line hg hpair hc h fun hin => congrArg Prod.fst (hend hin)
    exact ⟨e, hinner, .inl ⟨_, rfl, he⟩⟩
  | false =>
    have hout : buf.inindent cur 1 = false := by
      cases hin : buf.inindent cur 1 with
      | false => rfl
      | true => cases hend hin
    obtain ⟨hinner, hstop⟩ := inner_whole hg hpair hc h hout
    refine ⟨c, hinner, ?_⟩
    by_cases hle : (buf.incl o).1 ≤ cur
    · rw [if_pos hle] at hstop
      refine .inr ⟨cur, ?_, hstop⟩
      simp only [blockResult, Bool.false_eq_true, if_false]
      rw [if_pos hle]
    · rw [if_neg hle] at hstop
      refine .inl ⟨(buf.incl o).1, ?_, .inr ⟨Nat.le_refl _, hstop⟩⟩
      simp only [blockResult, Bool.false_eq_true, if_false]
      rw [if_neg hle]

/-! ## Where the search starts -/

omit hg in
theorem isNul_inindent (h : buf.inindent p 1 = true) :
    isBoundary buf.b p = true ∧ p < buf.last ∧ buf.isNul p = false := by
  have hwhite := inindent_white h p (lineStart_le buf.b p) (Nat.le_refl p)
  obtain ⟨c, hc, hwhite⟩ := (Option.any_eq_true _ _).mp hwhite
  have hlt := (List.getElem?_eq_some_iff.mp hc).1
  have hascii : c ≤ 0x7F ∧ c ≠ newline := by
    simp only [isWhite, Bool.or_eq_true, beq_iff_eq] at hwhite
    rcases hwhite with rfl | rfl
    · decide
    · decide
  have hnl : buf.b[p]? ≠ some newline := by
    rw [hc]
    exact fun heq => hascii.2 (Option.some.inj heq)
  have hlast := lt_last hlt hnl
  refine ⟨isBoundary_of_char (charLenAt_eq_one.mpr ⟨c, hc, hascii.1⟩), hlast, ?_⟩
  simp only [isNul, ge_iff_le, Bool.or_eq_false_iff, decide_eq_false_iff_not, beq_eq_false_iff_ne]
  exact ⟨by omega, hnl⟩

/-- `{` looks from past the leading blanks, the others from the cursor. -/
def LooksFrom (U : UnicodeData) (buf : Buf) (k : BracketKind) (pos p : Nat) : Prop :=
  if k = .brace ∧ buf.inindent pos 1 = true then
    IsLeast {i | pos < i ∧ CellBreak U buf.b i ∧ buf.inindent i 1 = false} p
  else p = pos

/-- `{` looks from past the leading blanks, in a walk that returns. -/
theorem blockPos_spec (k : BracketKind) {pos : Nat} (hpos : pos ≤ buf.last)
    (hfuel : buf.b.length + 1 < fuel) :
    ∃ p, buf.blockPos fuel k pos = some p ∧ p ≤ buf.last ∧ LooksFrom U buf k pos p := by
  have hlen := contentEnd_le buf.b
  by_cases hk : k = .brace
  · have hcell : CellBreak U buf.b buf.last := WordText.cellBreak_contentEnd (t := ⟨buf.b, buf.steps, []⟩)
    rw [blockPos, if_pos hk]
    refine untilBreak_ends (μ := fun p => buf.b.length - p) (J := fun p => p ≤ buf.last ∧ LooksFrom U buf k pos p)
      (I := fun p => p ≤ buf.last ∧ (p = pos ∨ (buf.inindent pos 1 = true ∧ pos < p ∧ CellBreak U buf.b p)) ∧
        ∀ i, CellBreak U buf.b i → pos < i → i < p → buf.inindent i 1 = true)
      ?_ ⟨hpos, .inl rfl, fun i _ hi hip => by omega⟩ (by omega)
    rintro p ⟨hp, hat, hover⟩
    unfold indentBody
    cases hin : buf.inindent p 1 with
    | false =>
      refine ⟨_, _, rfl, fun _ => ⟨hp, ?_⟩, fun h => by cases h⟩
      unfold LooksFrom
      rcases hat with rfl | ⟨hwhite, hlt, hcellp⟩
      · rw [if_neg fun h => by rw [hin] at h; cases h.2]
      · rw [if_pos ⟨hk, hwhite⟩]
        refine ⟨⟨hlt, hcellp, hin⟩, fun i hi => ?_⟩
        obtain ⟨hpi, hi, hno⟩ := hi
        by_contra hgt
        rw [hover i hi hpi (Nat.not_le.mp hgt)] at hno
        cases hno
    | true =>
      obtain ⟨hb, hplast, hnul⟩ := isNul_inindent hin
      have hnext := nextGrapheme_cell hg hb (show p < buf.b.length by unfold last at hplast; omega)
      have hqlast := hnext.2 ⟨hplast, hcell⟩
      have hpq := hnext.1.1
      have hwhite : buf.inindent pos 1 = true := by
        rcases hat with rfl | ⟨hwhite, -⟩
        · exact hin
        · exact hwhite
      have hposq : pos < nextGrapheme buf.steps buf.b p := by
        rcases hat with rfl | ⟨-, hlt, -⟩
        · exact hpq
        · omega
      have hover' : ∀ i, CellBreak U buf.b i → pos < i → i < nextGrapheme buf.steps buf.b p →
          buf.inindent i 1 = true := by
        intro i hi hpi hiq
        rcases Nat.lt_trichotomy i p with hip | rfl | hpi'
        · exact hover i hi hpi hip
        · exact hin
        · have := hnext.2 ⟨hpi', hi⟩
          omega
      have hinc : buf.inc p = (nextGrapheme buf.steps buf.b p,
          if buf.isNul (nextGrapheme buf.steps buf.b p) then .onNul else .within) := by
        rw [inc, hnul]
        rfl
      rw [if_pos rfl, hinc]
      refine ⟨_, _, rfl, fun hbrk => ⟨hqlast, ?_⟩, fun _ =>
        ⟨⟨hqlast, .inr ⟨hwhite, hposq, hnext.1.2⟩, hover'⟩, by unfold last at hplast; omega⟩⟩
      unfold LooksFrom
      rw [if_pos ⟨hk, hwhite⟩]
      refine ⟨⟨hposq, hnext.1.2, ?_⟩, fun i hi => ?_⟩
      · -- a line's end is past its blanks
        by_contra hyes
        rw [(isNul_inindent (by simpa using hyes)).2.2] at hbrk
        simp at hbrk
      · obtain ⟨hpi, hi, hno⟩ := hi
        by_contra hgt
        rw [hover' i hi hpi (Nat.not_le.mp hgt)] at hno
        cases hno
  · rw [blockPos, if_neg hk]
    refine ⟨pos, rfl, hpos, ?_⟩
    rw [LooksFrom, if_neg fun h => hk h.1]

/-- `a(` selects a pair, to the end of the closer's cell. -/
theorem blockRange_around {k : BracketKind} (hpair : Pair k.opener k.closer buf.b o c)
    {cursor count : Nat}
    (hselect : buf.currentBlock fuel (min (min cursor buf.b.length) buf.last) none count true k =
      some (some (o, c, true))) :
    buf.blockRange fuel cursor count true k = some (o, nextGrapheme buf.steps buf.b c, false) := by
  have hclt := hpair.lt_length
  have hoc := hpair.lt
  have hnl : buf.b[c]? ≠ some newline := by
    rw [hpair.closes]
    cases k <;> decide
  have hlast := lt_last hclt hnl
  have hnul : buf.isNul c = false := by
    simp only [isNul, ge_iff_le, Bool.or_eq_false_iff, decide_eq_false_iff_not, beq_eq_false_iff_ne]
    exact ⟨by omega, hnl⟩
  have hb : isBoundary buf.b c = true :=
    isBoundary_of_char (charLenAt_eq_one.mpr ⟨_, hpair.closes, by cases k <;> decide⟩)
  have hgt := (nextGrapheme_cell hg hb hclt).1.1
  rw [blockRange, hselect]
  simp only [Option.map_some, hnul, Bool.not_false, Bool.and_true, if_true, Bool.not_true, Bool.false_and]
  rw [if_neg (by omega)]

/-- `i(` selects the text between the brackets of a pair, trimmed. -/
theorem blockRange_inner {k : BracketKind} (hpair : Pair k.opener k.closer buf.b o c)
    (hc : CellBreak U buf.b c) (hfuel : buf.b.length + 1 < fuel) {cursor count : Nat}
    (hselect : ∀ r, untilBreak (buf.innerBody fuel k none) fuel (some ⟨o, c, c, false⟩) = some (some r) →
      buf.currentBlock fuel (min (min cursor buf.b.length) buf.last) none count false k =
        some (some (buf.blockResult false r))) :
    ∃ s e linewise, Inner U buf o c s e ∧
      buf.blockRange fuel cursor count false k = some (s, max s e, linewise) := by
  obtain ⟨r, hloop, e, hinner, hresult⟩ := inner_spec hg hpair hc hfuel
  have hmap : ∃ e' inclusive, (e' = e ∨ e' ≤ r.start ∧ e ≤ r.start) ∧
      buf.blockRange fuel cursor count false k = some (if e' ≤ r.start then (r.start, r.start, false)
        else (r.start, e', !inclusive && buf.col0 e')) := by
    rw [blockRange, hselect r hloop]
    rcases hresult with ⟨e', hr, he'⟩ | ⟨cur, hr, hnul, hnext⟩
    · refine ⟨e', false, he', ?_⟩
      rw [hr]
      rfl
    · refine ⟨e, true, .inl rfl, ?_⟩
      rw [hr]
      simp only [Option.map_some, hnul, Bool.not_false, Bool.and_true, if_true, hnext]
  obtain ⟨e', inclusive, he', hrange⟩ := hmap
  by_cases hempty : e' ≤ r.start
  · refine ⟨r.start, e, false, hinner, ?_⟩
    rw [hrange, if_pos hempty, Nat.max_eq_left (by omega)]
  · refine ⟨r.start, e, !inclusive && buf.col0 e', hinner, ?_⟩
    rw [hrange, if_neg hempty, Nat.max_eq_right (by omega), show e' = e by omega]

end

end Buf

/-- On a text without backslashes and of less than 4 GiB, the pair a bracket object is about is the
one that many pairs out from the cursor, or there is none; without a bracket left open before the
cursor it is the one that many open brackets ahead. `a(` selects it, to the end of the closer's
cell, and `i(` the text between, trimmed; without a pair the object fails and selects nothing. -/
theorem brackets_select (U : UnicodeData) (buf : Buf) (hg : buf.steps.Follows U) (hclean : 92 ∉ buf.b)
    (hlen : buf.b.length < 2 ^ 32) (k : BracketKind) (cursor count fuel : Nat) (hfuel : buf.b.length + 1 < fuel) :
    let pos := min (min cursor buf.b.length) buf.last
    ∃ p, buf.blockPos fuel k pos = some p ∧ Buf.LooksFrom U buf k pos p ∧
      let opener := openerAt k.opener k.closer buf.b (buf.searchFrom k p)
      let pair := Buf.pairFrom buf.b k (max count 1) (buf.searchFrom k p)
      (opener ≠ none → ∀ o c, pair = some (o, c) ↔ Buf.NthEnclosing buf.b k p (max count 1) o c) ∧
      (opener = none → (∀ o c, ¬ Buf.Encloses buf.b k p o c) ∧
        pair = (openAhead k.opener k.closer buf.b (max count 1) (buf.searchFrom k p)).bind fun o =>
          (closerAt k.opener k.closer buf.b o).map fun c => (o, c)) ∧
      (pair = none → ∀ around, buf.currentBlock fuel pos none count around k = some none ∧
        buf.blockRange fuel cursor count around k = some (pos, pos, false)) ∧
      ∀ o c, pair = some (o, c) → Pair k.opener k.closer buf.b o c ∧
        buf.currentBlock fuel pos none count true k = some (some (o, c, true)) ∧
        buf.blockRange fuel cursor count true k = some (o, nextGrapheme buf.steps buf.b c, false) ∧
        (CellBreak U buf.b c → ∃ s e linewise, Buf.Inner U buf o c s e ∧
          buf.blockRange fuel cursor count false k = some (s, max s e, linewise)) := by
  intro pos
  have hpos : pos ≤ buf.last := Nat.min_le_right _ _
  obtain ⟨p, hp, hple, hlooks⟩ := Buf.blockPos_spec (U := U) hg k hpos hfuel
  obtain ⟨n, hn⟩ : ∃ n, max count 1 = n + 1 := ⟨max count 1 - 1, by omega⟩
  have hle := Buf.searchFrom_le k hple
  have hblock := Buf.currentBlock_eq hclean hlen k count hp hle
  refine ⟨p, hp, hlooks, fun hopen o c => ?_, fun hopen => ⟨?_, ?_⟩, fun hnone around => ?_, fun o c hpair => ?_⟩
  · rw [hn]
    exact Buf.pairFrom_enclosing k n hple hopen
  · exact Buf.not_encloses k hple hopen
  · rw [Buf.pairFrom, hopen]
    rfl
  · have hfails : buf.currentBlock fuel pos none count around k = some none := by
      rw [hblock around, hnone]
    exact ⟨hfails, by rw [Buf.blockRange, hfails]; rfl⟩
  · have hof : Pair k.opener k.closer buf.b o c := by
      rw [hn] at hpair
      exact Buf.pairFrom_pair k n _ hle hpair
    have hselect : buf.currentBlock fuel pos none count true k = some (some (o, c, true)) := by
      rw [hblock true, hpair]
      simp only [if_true, Buf.blockResult, Bool.false_eq_true, if_false]
      rw [if_pos (Nat.le_of_lt hof.lt)]
    refine ⟨hof, hselect, Buf.blockRange_around hg hof hselect, fun hc =>
      Buf.blockRange_inner hg hof hc hfuel fun r hloop => ?_⟩
    rw [hblock false, hpair]
    simp only [Bool.false_eq_true, if_false, hloop]
    rfl

/-- From the inner of two pairs, two pairs out is the outer one. -/
theorem brackets_select_nested :
    Buf.NthEnclosing [102, 40, 97, 32, 40, 98, 41, 41] .paren 5 2 1 7 ∧
    (Buf.mk [102, 40, 97, 32, 40, 98, 41, 41] (.wholeText .acute)).blockRange 12 5 2 true .paren =
      some (1, 8, false) := by
  obtain ⟨p, hp, -, hnth, -, -, hselect⟩ := brackets_select .acute
    ⟨[102, 40, 97, 32, 40, 98, 41, 41], .wholeText .acute⟩ (Segmenter.wholeText_follows _) (by decide)
    (by decide) .paren 5 2 12 (by decide)
  cases hp
  have hpair : Buf.pairFrom [102, 40, 97, 32, 40, 98, 41, 41] .paren 2 5 = some (1, 7) := by decide +kernel
  refine ⟨(hnth (by decide +kernel) 1 7).mp hpair, (hselect 1 7 hpair).2.2.1.trans ?_⟩
  decide +kernel

/-- A cursor in no pair selects the pair ahead; before a brace in the indent it is on that brace;
and an accent on the opener is not between the brackets. -/
theorem brackets_beyond_pairs :
    ((∀ o c, ¬ Buf.Encloses [97, 32, 40, 98, 41] .paren 0 o c) ∧
      (Buf.mk [97, 32, 40, 98, 41] (.wholeText .acute)).blockRange 9 0 1 true .paren = some (2, 5, false)) ∧
    ((∀ o c, ¬ Buf.Encloses [32, 123, 97, 125] .brace 0 o c) ∧
      (Buf.mk [32, 123, 97, 125] (.wholeText .acute)).blockRange 9 0 1 true .brace = some (1, 4, false)) ∧
    (Buf.Encloses [40, 0xCC, 0x81, 120, 41] .paren 3 0 4 ∧
      (Buf.mk [40, 0xCC, 0x81, 120, 41] (.wholeText .acute)).blockRange 9 3 1 false .paren =
        some (3, 4, false)) := by
  refine ⟨⟨?_, by decide +kernel⟩, ⟨?_, by decide +kernel⟩, ⟨?_, by decide, by decide⟩, by decide +kernel⟩
  · rintro o c ⟨hpair, hle, -⟩
    obtain rfl : o = 0 := Nat.le_zero.mp hle
    exact absurd hpair.opens (by decide)
  · rintro o c ⟨hpair, hle, -⟩
    obtain rfl : o = 0 := Nat.le_zero.mp hle
    exact absurd hpair.opens (by decide)
  · exact ⟨by decide, by decide, by decide, .of_forall (by decide +kernel)⟩

end Ruse.Core
