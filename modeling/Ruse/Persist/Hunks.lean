import Ruse.Persist.Myers

/-!
# The hunks are a patch

Whatever the search comes to, the script `unified` works from turns the lines of the disk
text into those of the recovered one (`script_turns`), and a hunk is the part of the
script's entries between two of its steps (`hunkOf_body`). The hunks leave out kept lines
only (`hunkRanges_spread`), so a program that puts each hunk's new lines in the place of
its old ones, and takes all else from the old text, ends with the new one
(`patchFrom_hunks`).
-/

namespace Ruse.Persist.Diff

open Ruse.Core
open Ruse.Lib (SharedHead sharedHead drop_eq_of_reverse)
open Ruse.Lib.Script

variable {p : Nat} {rs : List (Nat × Nat)}

/-! ## The script of two texts -/

theorem flatten_linesOf (b : Bytes) : (linesOf b).flatten = b := by
  induction b with
  | nil => rfl
  | cons c b ih =>
    unfold linesOf
    split
    · rw [List.flatten_cons, ih]
      rfl
    · split
      · rename_i hnil
        rw [hnil] at ih
        rw [← ih]
        rfl
      · rename_i line rest hcons
        rw [hcons, List.flatten_cons] at ih
        rw [List.flatten_cons, List.cons_append, ih]

theorem middle_turns (a b : List Bytes) : Turns (middle a b).1 a b := by
  unfold middle
  split
  · rename_i ops hsome
    split at hsome
    · cases hsome
    · exact (myers_spec hsome).1
  · exact Turns.whole a b

/-- The script turns the disk lines into the recovered ones. -/
theorem script_turns (a b : List Bytes) : Turns (script a b).1 a b := by
  unfold script
  have hhead := sharedHead a b
  generalize ((a.zip b).takeWhile fun p => p.1 == p.2).length = pre at hhead ⊢
  have htail := sharedHead (a.drop pre).reverse (b.drop pre).reverse
  dsimp only
  generalize (((a.drop pre).reverse.zip (b.drop pre).reverse).takeWhile
    fun p => p.1 == p.2).length = suf at htail ⊢
  have hleft := htail.left
  have hright := htail.right
  rw [List.length_reverse, List.length_drop] at hleft hright
  have hpre := hhead.left
  have hpre' := hhead.right
  -- the shared first lines
  have hfirst : Turns (List.replicate pre .keep) (a.take pre) (b.take pre) := by
    have hkeeps := Turns.keeps (a.take pre)
    rw [List.length_take, Nat.min_eq_left hpre] at hkeeps
    rwa [hhead.take_eq (Nat.le_refl pre)] at hkeeps ⊢
  -- the shared last lines
  have hlast : Turns (List.replicate suf .keep) (a.drop (a.length - suf))
      (b.drop (b.length - suf)) := by
    have hkeeps := Turns.keeps (a.drop (a.length - suf))
    rw [List.length_drop, show a.length - (a.length - suf) = suf by omega] at hkeeps
    rwa [← drop_eq_of_reverse (htail.take_eq (Nat.le_refl suf)) hleft hright]
  have hmid := middle_turns ((a.take (a.length - suf)).drop pre) ((b.take (b.length - suf)).drop pre)
  have hall := (hfirst.append hmid).append hlast
  have hsplit {l : List Bytes} (hl : pre ≤ l.length - suf) :
      l.take pre ++ (l.take (l.length - suf)).drop pre ++ l.drop (l.length - suf) = l := by
    have htake : l.take pre = (l.take (l.length - suf)).take pre := by
      rw [List.take_take, Nat.min_eq_left hl]
    rw [htake, List.take_append_drop, List.take_append_drop]
  rwa [hsplit (by omega), hsplit (by omega)] at hall

/-! ## One hunk -/

/-- A step stands, in each list, behind what the steps before it speak of. -/
theorem positions_getD {ops : List Op} {k : Nat} (hk : k < ops.length) (i j : Nat) :
    (positions ops i j).getD k (0, 0) =
      (i + lefts (ops.take k), j + rights (ops.take k)) := by
  induction ops generalizing i j k with
  | nil => exact absurd hk (Nat.not_lt_zero k)
  | cons op ops ih =>
    cases k with
    | zero => cases op <;> rfl
    | succ k =>
      have hk' : k < ops.length := Nat.lt_of_succ_lt_succ hk
      cases op with
      | keep =>
        rw [positions, List.getD_cons_succ, ih hk']
        simp only [List.take_succ_cons, lefts_cons, rights_cons, reduceCtorEq, if_false,
          Prod.mk.injEq]
        omega
      | del =>
        rw [positions, List.getD_cons_succ, ih hk']
        simp only [List.take_succ_cons, lefts_cons, rights_cons, reduceCtorEq, if_false, if_true,
          Prod.mk.injEq]
        omega
      | ins =>
        rw [positions, List.getD_cons_succ, ih hk']
        simp only [List.take_succ_cons, lefts_cons, rights_cons, reduceCtorEq, if_false, if_true,
          Prod.mk.injEq]
        omega

section Hunk

variable {a b : List Bytes} {ops : List Op} {f t : Nat}

/-- The lines of a hunk are the entries of its steps. -/
theorem hunkOf_body (h : Turns ops a b) (ht : t ≤ ops.length) :
    (hunkOf a b ops (f, t)).body = ((entries ops a b).drop f).take (t - f) := by
  refine List.ext_getElem? fun i => ?_
  rw [hunkOf, List.getElem?_map]
  by_cases hi : i < t - f
  · have hlt : f + i < ops.length := by omega
    rw [List.getElem?_range' hi, List.getElem?_take_of_lt hi, List.getElem?_drop, Nat.one_mul,
      Option.map_some, positions_getD hlt]
    obtain ⟨op, hop⟩ : ∃ op, ops[f + i]? = some op := ⟨ops[f + i], List.getElem?_eq_getElem hlt⟩
    obtain ⟨hold, hnew⟩ := h.entry hop
    rw [List.getD_eq_getElem?_getD, hop]
    dsimp only [Option.getD_some]
    rw [Nat.zero_add, Nat.zero_add]
    cases op with
    | keep =>
      obtain ⟨x, hx, hentry⟩ := hold (by simp)
      rw [hentry]
      rw [List.getD_eq_getElem?_getD, hx, Option.getD_some]
    | del =>
      obtain ⟨x, hx, hentry⟩ := hold (by simp)
      rw [hentry]
      rw [List.getD_eq_getElem?_getD, hx, Option.getD_some]
    | ins =>
      obtain ⟨y, hy, hentry⟩ := hnew rfl
      rw [hentry]
      dsimp only
      rw [List.getD_eq_getElem?_getD, hy, Option.getD_some]
  · rw [List.getElem?_eq_none (by rw [List.length_range']; omega),
      List.getElem?_eq_none (by rw [List.length_take]; omega)]
    rfl

theorem hunkOf_counts (a b : List Bytes) (ops : List Op) (f t : Nat) :
    (hunkOf a b ops (f, t)).aCount = lefts ((ops.drop f).take (t - f)) ∧
      (hunkOf a b ops (f, t)).bCount = rights ((ops.drop f).take (t - f)) := by
  constructor
  · refine List.countP_congr fun op _ => ?_
    cases op <;> decide
  · refine List.countP_congr fun op _ => ?_
    cases op <;> decide

theorem hunkOf_starts (a b : List Bytes) (hf : f < ops.length) :
    (hunkOf a b ops (f, t)).aStart = lefts (ops.take f) ∧
      (hunkOf a b ops (f, t)).bStart = rights (ops.take f) := by
  simp only [hunkOf, positions_getD hf, Nat.zero_add, and_self]

/-- The hunk says of both sides what is there: the lines it has of each, changed ones and
context, are the ones its header's range names. -/
structure Hunk.Fits (a b : List Bytes) (h : Hunk) : Prop where
  aCount : (olds h.body).length = h.aCount
  bCount : (news h.body).length = h.bCount
  aLines : (a.drop h.aStart).take h.aCount = olds h.body
  bLines : (b.drop h.bStart).take h.bCount = news h.body

theorem hunkOf_fits (h : Turns ops a b) (hf : f < ops.length) (ht : t ≤ ops.length) :
    (hunkOf a b ops (f, t)).Fits a b := by
  obtain ⟨ha, hb⟩ := hunkOf_counts a b ops f t
  obtain ⟨hai, hbj⟩ := @hunkOf_starts ops f t a b hf
  have hbody := hunkOf_body (f := f) h ht
  refine ⟨?_, ?_, ?_, ?_⟩
  · rw [hbody, ha, length_olds, List.map_take, List.map_drop, h.map_entries]
  · rw [hbody, hb, length_news, List.map_take, List.map_drop, h.map_entries]
  · rw [hbody, ha, hai, h.olds_part]
  · rw [hbody, hb, hbj, h.news_part]

end Hunk

/-! ## All hunks -/

/-- Step `k` of the script, when there is one, keeps. -/
def Keeps (ops : List Op) (k : Nat) : Prop := ∀ op, ops[k]? = some op → op = .keep

/-- Ranges of steps, in order and apart, with every change from `p` on in one of them. -/
inductive Spread (ops : List Op) : Nat → List (Nat × Nat) → Prop
  | nil {p : Nat} : (∀ k, p ≤ k → Keeps ops k) → Spread ops p []
  | cons {p f t : Nat} {rs : List (Nat × Nat)} : p ≤ f → f < t → t ≤ ops.length →
      (∀ k, p ≤ k → k < f → Keeps ops k) → Spread ops t rs → Spread ops p ((f, t) :: rs)

section Ranges

variable {ops : List Op}

/-- The hunk begun at the change `first`, with the change `last` in it and all changes
after `last` still to come. -/
theorem hunkRangesFrom_spread {first last : Nat} {rest : List Nat} (hp : p ≤ first - context)
    (hfirst : first ≤ last) (hlast : last < ops.length)
    (hkeeps : ∀ k, p ≤ k → k < first → Keeps ops k) (hsorted : (last :: rest).Pairwise (· < ·))
    (hin : ∀ k ∈ rest, k < ops.length) (hall : ∀ k, last < k → ¬ Keeps ops k → k ∈ rest) :
    Spread ops p (hunkRangesFrom ops.length first last rest) := by
  induction rest generalizing p first last with
  | nil =>
    refine .cons hp (by omega) (by omega) (fun k hpk hk => hkeeps k hpk (by omega)) (.nil ?_)
    intro k hk op hop
    by_contra hne
    exact absurd (hall k (by omega) fun hkeep => hne (hkeep op hop)) List.not_mem_nil
  | cons e rest ih =>
    obtain ⟨hle, hsorted'⟩ := List.pairwise_cons.mp hsorted
    have hlaste : last < e := hle e List.mem_cons_self
    have he := hin e List.mem_cons_self
    have hin' : ∀ k ∈ rest, k < ops.length := fun k hk => hin k (List.mem_cons_of_mem _ hk)
    have hall' : ∀ k, e < k → ¬ Keeps ops k → k ∈ rest := fun k hk hnot =>
      (List.mem_cons.mp (hall k (by omega) hnot)).resolve_left (by omega)
    -- between two changes next to each other every step keeps
    have hbetween : ∀ k, last < k → k < e → Keeps ops k := by
      intro k hk hke
      by_contra hnot
      rcases List.mem_cons.mp (hall k hk hnot) with rfl | hmem
      · omega
      · have := (List.pairwise_cons.mp hsorted').1 k hmem
        omega
    unfold hunkRangesFrom
    split
    · exact ih hp (by omega) he hkeeps hsorted' hin' hall'
    · rename_i hfar
      unfold context at hp hfar ⊢
      rw [Nat.min_eq_left (by omega)]
      refine .cons hp (by omega) (by omega) (fun k hpk hk => hkeeps k hpk (by omega)) ?_
      refine ih ?_ (Nat.le_refl e) he (fun k hpk hk => hbetween k (by omega) hk) hsorted' hin' hall'
      unfold context
      omega

/-- The steps that change something, as `unified` collects them. -/
def changed (ops : List Op) : List Nat :=
  (List.range ops.length).filter fun k => ops.getD k .keep ≠ .keep

theorem mem_changed {k : Nat} : k ∈ changed ops ↔ ¬ Keeps ops k := by
  unfold changed Keeps
  rw [List.mem_filter, List.mem_range, decide_eq_true_eq, List.getD_eq_getElem?_getD]
  constructor
  · rintro ⟨hk, hne⟩ hkeep
    rw [List.getElem?_eq_getElem hk, Option.getD_some] at hne
    exact hne (hkeep _ (List.getElem?_eq_getElem hk))
  · intro hnot
    push Not at hnot
    obtain ⟨op, hop, hne⟩ := hnot
    rw [hop, Option.getD_some]
    exact ⟨(List.getElem?_eq_some_iff.mp hop).1, hne⟩

theorem changed_sorted (ops : List Op) : (changed ops).Pairwise (· < ·) :=
  List.pairwise_lt_range.filter _

/-- The hunks' ranges leave out kept lines only. -/
theorem hunkRanges_spread (ops : List Op) :
    Spread ops 0 (hunkRanges ops.length (changed ops)) := by
  have hsorted := changed_sorted ops
  have hmem := @mem_changed ops
  have hlt : ∀ k ∈ changed ops, k < ops.length := fun k hk =>
    List.mem_range.mp (List.mem_filter.mp hk).1
  generalize changed ops = cs at hsorted hmem hlt
  cases cs with
  | nil =>
    refine .nil fun k _ => ?_
    by_contra hnot
    exact absurd (hmem.mpr hnot) List.not_mem_nil
  | cons c rest =>
    obtain ⟨hle, -⟩ := List.pairwise_cons.mp hsorted
    refine hunkRangesFrom_spread (Nat.zero_le _) (Nat.le_refl c) (hlt c List.mem_cons_self) ?_
      hsorted (fun k hk => hlt k (List.mem_cons_of_mem _ hk)) ?_
    · intro k _ hk
      by_contra hnot
      rcases List.mem_cons.mp (hmem.mpr hnot) with rfl | hin
      · omega
      · have := hle k hin
        omega
    · intro k hk hnot
      exact (List.mem_cons.mp (hmem.mpr hnot)).resolve_left (by omega)

end Ranges

/-! ## The patch -/

/-- What applying hunks in order makes of the lines of `a` from `pos` on: each hunk's old
lines, which must be there, give way to its new ones. -/
def patchFrom (a : List Bytes) : Nat → List Hunk → Option (List Bytes)
  | pos, [] => some (a.drop pos)
  | pos, h :: hs =>
    if pos ≤ h.aStart ∧ (a.drop h.aStart).take h.aCount = olds h.body then
      (patchFrom a (h.aStart + h.aCount) hs).map fun rest =>
        (a.drop pos).take (h.aStart - pos) ++ news h.body ++ rest
    else none

def patch (a : List Bytes) (hs : List Hunk) : Option (List Bytes) := patchFrom a 0 hs

section Patch

variable {a b : List Bytes} {ops : List Op}

theorem keeps_part (h : Turns ops a b) {n : Nat} (hkeeps : ∀ k, p ≤ k → k < p + n → Keeps ops k) :
    ∀ e ∈ ((entries ops a b).drop p).take n, e.1 = .keep := by
  intro e he
  obtain ⟨i, hi, rfl⟩ := List.mem_iff_getElem.mp he
  rw [List.length_take] at hi
  refine hkeeps (p + i) (by omega) (by omega) _ ?_
  rw [List.getElem_take, List.getElem_drop]
  have hmap := congrArg (·[p + i]?) h.map_entries
  rw [← hmap, List.getElem?_map, List.getElem?_eq_getElem, Option.map_some]

/-- What is from `p` on, up to `f`, up to `t` and after. -/
theorem drop_parts {α : Type*} (l : List α) {f t : Nat} (hpf : p ≤ f) (hft : f ≤ t) :
    l.drop p = (l.drop p).take (f - p) ++ ((l.drop f).take (t - f) ++ l.drop t) := by
  have hfirst := List.take_append_drop (f - p) (l.drop p)
  have hsecond := List.take_append_drop (t - f) (l.drop f)
  rw [List.drop_drop, show p + (f - p) = f by omega] at hfirst
  rw [List.drop_drop, show f + (t - f) = t by omega] at hsecond
  rw [hsecond, hfirst]

theorem changes_hunks (h : Turns ops a b) (hrs : Spread ops p rs) :
    (rs.map (hunkOf a b ops)).flatMap (fun h => changes h.body) =
      changes ((entries ops a b).drop p) := by
  induction hrs with
  | @nil p hkeeps =>
    have hall := keeps_part h (n := (entries ops a b).length) fun k hk _ => hkeeps k hk
    rw [List.take_of_length_le (by rw [List.length_drop]; omega)] at hall
    exact (keeps_entries hall).2.symm
  | @cons p f t rs hpf hft ht hkeeps _ ih =>
    have hgap := keeps_part h (p := p) (n := f - p) fun k hk hkf => hkeeps k hk (by omega)
    rw [List.map_cons, List.flatMap_cons, ih, hunkOf_body h ht,
      drop_parts (entries ops a b) hpf (Nat.le_of_lt hft), changes_append, changes_append,
      (keeps_entries hgap).2, List.nil_append]

/-- The hunks from a step on make of the old lines left the new ones left. -/
theorem patchFrom_hunks (h : Turns ops a b) (hrs : Spread ops p rs) :
    patchFrom a (lefts (ops.take p)) (rs.map (hunkOf a b ops)) =
      some (b.drop (rights (ops.take p))) := by
  induction hrs with
  | @nil p hkeeps =>
    have hall : ∀ op ∈ ops.drop p, op = .keep := by
      intro op hop
      obtain ⟨i, hi⟩ := List.mem_iff_getElem?.mp hop
      rw [List.getElem?_drop] at hi
      exact hkeeps (p + i) (Nat.le_add_right p i) op hi
    have hrest := h
    rw [← List.take_append_drop p ops] at hrest
    rw [List.map_nil, patchFrom, hrest.split.2.eq_of_keeps hall]
  | @cons p f t rs hpf hft ht hkeeps _ ih =>
    have hfits := hunkOf_fits (f := f) (t := t) h (by omega) ht
    obtain ⟨hai, hbj⟩ := @hunkOf_starts ops f t a b (by omega)
    obtain ⟨hna, hnb⟩ := hunkOf_counts a b ops f t
    -- the steps up to `f`, and up to `t`
    have hf : ops.take f = ops.take p ++ (ops.drop p).take (f - p) := by
      rw [← List.take_add, show p + (f - p) = f by omega]
    have ht' : ops.take t = ops.take f ++ (ops.drop f).take (t - f) := by
      rw [← List.take_add, show f + (t - f) = t by omega]
    have hlf : lefts (ops.take f) = lefts (ops.take p) + lefts ((ops.drop p).take (f - p)) := by
      rw [hf, lefts_append]
    have hrf : rights (ops.take f) = rights (ops.take p) + rights ((ops.drop p).take (f - p)) := by
      rw [hf, rights_append]
    have hrt : rights (ops.take t) = rights (ops.take f) + rights ((ops.drop f).take (t - f)) := by
      rw [ht', rights_append]
    -- the lines between the hunks are the same on both sides
    have hgap : (a.drop (lefts (ops.take p))).take (lefts (ops.take f) - lefts (ops.take p)) =
        (b.drop (rights (ops.take p))).take (rights (ops.take f) - rights (ops.take p)) := by
      have hkeep := keeps_part h (p := p) (n := f - p) fun k hk hkf => hkeeps k hk (by omega)
      rw [hlf, hrf, Nat.add_sub_cancel_left, Nat.add_sub_cancel_left, ← h.olds_part, ← h.news_part,
        (keeps_entries hkeep).1]
    have hnew : news (hunkOf a b ops (f, t)).body =
        (b.drop (rights (ops.take f))).take (rights (ops.take t) - rights (ops.take f)) := by
      rw [← hfits.bLines, hbj, hnb, hrt, Nat.add_sub_cancel_left]
    rw [List.map_cons, patchFrom, if_pos ⟨by omega, hfits.aLines⟩, hai, hna, ← lefts_append, ← ht',
      ih, Option.map_some, hgap, hnew, List.append_assoc,
      ← drop_parts b (by omega) (by omega)]

/-- The hunks `unified` shows, as a patch from `a` to `b`. -/
theorem patch_hunks (a b : List Bytes) :
    patch a (hunks a b (script a b).1) = some b ∧
      (hunks a b (script a b).1).flatMap (fun h => changes h.body) =
        changes (entries (script a b).1 a b) := by
  have hturns := script_turns a b
  have hspread := hunkRanges_spread (script a b).1
  exact ⟨patchFrom_hunks hturns hspread, changes_hunks hturns hspread⟩

theorem fits_hunks (h : Turns ops a b) (hrs : Spread ops p rs) :
    ∀ hunk ∈ rs.map (hunkOf a b ops), hunk.Fits a b := by
  induction hrs with
  | nil => exact fun hunk hmem => absurd hmem List.not_mem_nil
  | cons _ hft ht _ _ ih =>
    intro hunk hmem
    rcases List.mem_cons.mp hmem with rfl | hmem
    · exact hunkOf_fits h (by omega) ht
    · exact ih hunk hmem

end Patch

/-! ## The lines shown -/

/-- Lines pushed past the limit are counted and not kept. -/
theorem foldl_push (ls : List Bytes) (o : Out) (h : o.lines.length ≤ maxOutput) :
    (ls.foldl Out.push o).lines = (o.lines ++ ls).take maxOutput ∧
      (ls.foldl Out.push o).cut = o.cut + ((o.lines ++ ls).length - maxOutput) := by
  induction ls generalizing o with
  | nil =>
    rw [List.append_nil, List.take_of_length_le h]
    exact ⟨rfl, by simp [Nat.sub_eq_zero_of_le h]⟩
  | cons l ls ih =>
    rw [List.foldl_cons]
    by_cases hroom : o.lines.length < maxOutput
    · have hpush : o.push l = { o with lines := o.lines ++ [l] } := if_pos hroom
      have hlen : (o.lines ++ [l]).length ≤ maxOutput := by
        rw [List.length_append]
        exact hroom
      have hrest := ih { o with lines := o.lines ++ [l] } hlen
      rw [hpush]
      rwa [show o.lines ++ l :: ls = o.lines ++ [l] ++ ls by simp]
    · have hpush : o.push l = { o with cut := o.cut + 1 } := if_neg hroom
      have hrest := ih { o with cut := o.cut + 1 } h
      rw [hpush]
      -- a full output keeps nothing of either rest
      have hfull {rest : List Bytes} : (o.lines ++ rest).take maxOutput = o.lines.take maxOutput :=
        List.take_append_of_le_length (by omega)
      rw [hfull] at hrest ⊢
      refine ⟨hrest.1, hrest.2.trans ?_⟩
      simp only [List.length_append, List.length_cons]
      omega

/-- The lines shown are the titles and what the hunks are shown as, as far as there is
room; the others are counted. -/
theorem unified_lines (name disk recovered : Bytes) :
    (unified name disk recovered).lines =
        (titles name ++ (hunks (linesOf disk) (linesOf recovered)
          (script (linesOf disk) (linesOf recovered)).1).flatMap render).take maxOutput ∧
      (unified name disk recovered).cut =
        (titles name ++ (hunks (linesOf disk) (linesOf recovered)
          (script (linesOf disk) (linesOf recovered)).1).flatMap render).length - maxOutput := by
  have hroom : (titles name).length ≤ maxOutput := by
    unfold titles maxOutput
    simp
  have hfold := foldl_push ((hunks (linesOf disk) (linesOf recovered)
    (script (linesOf disk) (linesOf recovered)).1).flatMap render) ⟨titles name, 0⟩ hroom
  exact ⟨hfold.1, hfold.2.trans (Nat.zero_add _)⟩

theorem lossyFrom_scans {b : Bytes} {i room : Nat} (h : Scans b i b.length)
    (hroom : b.length - i ≤ room) : lossyFrom b room i = b.drop i := by
  induction room generalizing i with
  | zero => rw [lossyFrom, List.drop_eq_nil_of_le (by omega)]
  | succ room ih =>
    unfold lossyFrom
    split
    · rw [List.drop_eq_nil_of_le (by omega)]
    · cases h with
      | refl => omega
      | @char _ w _ hw hrest =>
        have hpos := charLenAt_pos hw
        rw [hw]
        dsimp only
        rw [ih hrest (by omega), slice, Nat.add_sub_cancel_left, ← List.drop_drop,
          List.take_append_drop]

theorem show'_of_valid {line : Bytes} (h : ValidUtf8 (stripNewline line)) :
    show' line = stripNewline line :=
  lossyFrom_scans (validUtf8_iff.mp h) (by omega)

/-- The search's script turns the lines into each other and keeps a longest common
subsequence. The hunks of two texts, of the search's script or of the whole block's, say
what is there on both sides, have every change once and in order, and are a patch from
the one text to the other; what is shown are the titles and those hunks, the lines past
the output's bound counted. -/
theorem unified_patch :
    (∀ (a b : List Bytes) (ops : List Op), myers a b = some ops →
      Turns ops a b ∧ (kept ops a).Sublist a ∧ (kept ops a).Sublist b ∧
        ∀ s : List Bytes, s.Sublist a → s.Sublist b → s.length ≤ (kept ops a).length) ∧
    (∀ name disk recovered : Bytes, ∃ (ops : List Op) (hs : List Hunk),
      Turns ops (linesOf disk) (linesOf recovered) ∧
      (∀ h ∈ hs, h.Fits (linesOf disk) (linesOf recovered)) ∧
      hs.flatMap (fun h => changes h.body) =
        changes (entries ops (linesOf disk) (linesOf recovered)) ∧
      patch (linesOf disk) hs = some (linesOf recovered) ∧
      (linesOf recovered).flatten = recovered ∧
      (unified name disk recovered).lines =
        (titles name ++ hs.flatMap render).take maxOutput ∧
      (unified name disk recovered).cut =
        (titles name ++ hs.flatMap render).length - maxOutput) ∧
    ∀ line : Bytes, ValidUtf8 (stripNewline line) → show' line = stripNewline line := by
  refine ⟨fun a b ops h => ?_, fun name disk recovered => ?_, fun line => show'_of_valid⟩
  · obtain ⟨hturns, hleast⟩ := myers_spec h
    obtain ⟨ha, hb⟩ := hturns.kept_sublist
    exact ⟨hturns, ha, hb, fun s hs hs' => hturns.kept_longest hleast hs hs'⟩
  · have hturns := script_turns (linesOf disk) (linesOf recovered)
    obtain ⟨hpatch, hchanges⟩ := patch_hunks (linesOf disk) (linesOf recovered)
    obtain ⟨hlines, hcut⟩ := unified_lines name disk recovered
    exact ⟨_, _, hturns, fits_hunks hturns (hunkRanges_spread _), hchanges, hpatch,
      flatten_linesOf recovered, hlines, hcut⟩

/-- Two recovered texts that differ in a byte that is no character are shown alike, so the
lines shown do not always give the recovered text back. -/
theorem unified_lossy :
    ¬ ∃ apply : List Bytes → Bytes → Bytes, ∀ name disk recovered : Bytes,
      apply (unified name disk recovered).lines disk = recovered := by
  rintro ⟨apply, happly⟩
  have halike : (unified [102] [] [0xFF]).lines = (unified [102] [] [0xFE]).lines := by
    decide +kernel
  have hfirst := happly [102] [] [0xFF]
  have hsecond := happly [102] [] [0xFE]
  rw [halike, hsecond] at hfirst
  exact absurd hfirst (by decide)

end Ruse.Persist.Diff
