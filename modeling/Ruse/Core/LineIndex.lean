import Ruse.Core.Document

/-!
# The line index

Where the lines of a text start (`lineStartsOf`), as the newlines of its parts: the
starts a part of the text adds are `breaks`, and the breaks of two parts put together
are theirs (`breaks_append`). From it:

* the starts carried through edits are those of the text they make
  (`carriedLineStarts_eq`);
* a row looked up in the starts is the number of newlines before it
  (`rowIn_lineStartsOf`);
* a start looked up in them is where the scan for it stops
  (`Pos.nthLineStart_eq`), and the two lookups are adjoint (`lines_adjoint`).
-/

namespace Ruse.Core

/-! ## The breaks of a part of a text -/

/-- Where a line starts after a newline of `b`, for a part `b` at offset `off`. -/
def breaks (off : Nat) (b : Bytes) : List Nat :=
  (List.range b.length).filterMap fun i =>
    if b[i]? = some newline then some (off + i + 1) else none

@[simp] theorem breaks_nil (off : Nat) : breaks off [] = [] := rfl

theorem lineStartsOf_eq (text : Bytes) : lineStartsOf text = 0 :: breaks 0 text := by
  simp [lineStartsOf, breaks]

theorem breaks_append (off : Nat) (a b : Bytes) :
    breaks off (a ++ b) = breaks off a ++ breaks (off + a.length) b := by
  unfold breaks
  rw [List.length_append, List.range_add, List.filterMap_append]
  congr 1
  · refine List.filterMap_congr fun i hi => ?_
    rw [List.getElem?_append_left (List.mem_range.mp hi)]
  · rw [List.filterMap_map]
    refine List.filterMap_congr fun i _ => ?_
    simp only [Function.comp_apply]
    rw [List.getElem?_append_right (Nat.le_add_right _ _), Nat.add_sub_cancel_left]
    simp only [Nat.add_assoc]

theorem breaks_cons (off : Nat) (c : UInt8) (b : Bytes) : breaks off (c :: b) =
    if c = newline then (off + 1) :: breaks (off + 1) b else breaks (off + 1) b := by
  have hone : breaks off [c] = if c = newline then [off + 1] else [] := by
    by_cases hc : c = newline
    · simp [breaks, hc]
    · simp [breaks, hc]
  have happ := breaks_append off [c] b
  rw [List.singleton_append, hone] at happ
  rw [happ]
  split <;> rfl

theorem mem_breaks {off s : Nat} {b : Bytes} (h : s ∈ breaks off b) :
    off < s ∧ s ≤ off + b.length := by
  obtain ⟨i, hi, heq⟩ := List.mem_filterMap.mp h
  have hlt := List.mem_range.mp hi
  split at heq
  · cases heq
    omega
  · cases heq

theorem getElem?_of_mem_breaks {off s : Nat} {b : Bytes} (h : s ∈ breaks off b) :
    b[s - off - 1]? = some newline := by
  obtain ⟨i, -, heq⟩ := List.mem_filterMap.mp h
  split at heq
  · rename_i hnl
    cases heq
    rwa [show off + i + 1 - off - 1 = i by omega]
  · cases heq

theorem length_breaks (off : Nat) (b : Bytes) : (breaks off b).length = countNewlines b := by
  induction b generalizing off with
  | nil => rfl
  | cons c b ih =>
    rw [breaks_cons, countNewlines, List.count_cons]
    by_cases hc : c = newline
    · simp [hc, ih, countNewlines]
    · simp [hc, ih, countNewlines]

theorem map_breaks {off off' : Nat} {δ : Int} (hoff : (off' : Int) = off + δ) (b : Bytes) :
    (breaks off b).map (fun (s : Nat) => ((s : Int) + δ).toNat) = breaks off' b := by
  unfold breaks
  rw [List.map_filterMap]
  refine List.filterMap_congr fun i _ => ?_
  split
  · simp only [Option.map_some, Option.some.injEq]
    omega
  · rfl

/-! ## Carrying the starts through edits -/

theorem takeWhile_append_split {p : Nat → Bool} {xs ys : List Nat} (hxs : ∀ x ∈ xs, p x = true)
    (hys : ∀ y ∈ ys, p y = false) :
    (xs ++ ys).takeWhile p = xs ∧ (xs ++ ys).dropWhile p = ys := by
  rw [List.takeWhile_append_of_pos hxs, List.dropWhile_append_of_pos hxs]
  cases ys with
  | nil => simp
  | cons y ys =>
    have hy := hys y List.mem_cons_self
    rw [List.takeWhile_cons_of_neg (by simp [hy]), List.dropWhile_cons_of_neg (by simp [hy])]
    simp

/-- The loop of `carried_line_starts`: from the starts of the old text from `cur` on, the
starts of what the edits make of it, which lies at `off`. -/
theorem carryStarts_breaks {old : Bytes} {cur off : Nat} {δ : Int} {es : List Edit}
    (hoff : (off : Int) = cur + δ) (hs : es.Pairwise Edit.Before) (hcur : ∀ e ∈ es, cur ≤ e.pos)
    (hin : ∀ e ∈ es, e.endPos ≤ old.length) :
    carryStarts (breaks cur (old.drop cur)) δ es = breaks off (EditList.applyFrom old cur es) := by
  induction es generalizing cur off δ with
  | nil => exact map_breaks hoff _
  | cons e es ih =>
    have hce := hcur e List.mem_cons_self
    have hend := hin e List.mem_cons_self
    have hpos := e.pos_le_endPos
    have hhead := List.pairwise_cons.mp hs
    -- the old text from `cur` on: up to the edit, what it deletes, and the rest
    have hparts : breaks cur (old.drop cur) = breaks cur (slice old cur e.pos) ++
        (breaks e.pos (slice old e.pos e.endPos) ++ breaks e.endPos (old.drop e.endPos)) := by
      rw [← slice_append_drop hce, ← slice_append_drop hpos, breaks_append, breaks_append,
        slice_length hce (Nat.le_trans hpos hend), slice_length hpos hend,
        Nat.add_sub_cancel' hce, Nat.add_sub_cancel' hpos]
    have hkept : ∀ s ∈ breaks cur (slice old cur e.pos), decide (s ≤ e.pos) = true := by
      intro s hmem
      have hlen := slice_length hce (Nat.le_trans hpos hend)
      have := mem_breaks hmem
      exact decide_eq_true (by omega)
    have hgone : ∀ s ∈ breaks e.pos (slice old e.pos e.endPos),
        decide (s ≤ e.pos) = false ∧ decide (s ≤ e.endPos) = true := by
      intro s hmem
      have hlen := slice_length hpos hend
      have := mem_breaks hmem
      exact ⟨decide_eq_false (by omega), decide_eq_true (by omega)⟩
    have hafter : ∀ s ∈ breaks e.endPos (old.drop e.endPos),
        decide (s ≤ e.pos) = false ∧ decide (s ≤ e.endPos) = false := by
      intro s hmem
      have := mem_breaks hmem
      exact ⟨decide_eq_false (by omega), decide_eq_false (by omega)⟩
    have htake := (takeWhile_append_split hkept fun s hmem =>
      (List.mem_append.mp hmem).elim (fun h => (hgone s h).1) (fun h => (hafter s h).1)).1
    have hdrop := (takeWhile_append_split (fun s hmem => (hgone s hmem).2)
      fun s hmem => (hafter s hmem).2).2
    have hmoved : ((((e.pos : Int) + δ).toNat + e.ins.length : Nat) : Int) =
        e.endPos + (δ + e.delta) := by
      simp only [Edit.delta, Edit.endPos]
      omega
    have hrest := ih hmoved hhead.2 (fun e' he' => (hhead.1 e' he').2)
      fun e' he' => hin e' (List.mem_cons_of_mem _ he')
    have hpos' : off + (e.pos - cur) = ((e.pos : Int) + δ).toNat := by omega
    unfold carryStarts EditList.applyFrom
    dsimp only
    rw [hparts, htake, List.drop_left, hdrop, hrest, map_breaks hoff, breaks_append, breaks_append,
      List.length_append, slice_length hce (Nat.le_trans hpos hend), ← Nat.add_assoc, hpos']
    rfl

/-- The carried starts are those of the text the edits make. -/
theorem carriedLineStarts_eq {old : Bytes} {edits : EditList} (hin : edits.InBounds old.length) :
    carriedLineStarts (lineStartsOf old) edits = lineStartsOf (edits.applyTo old) := by
  have h := @carryStarts_breaks old 0 0 0 edits.edits (by omega) edits.sorted
    (fun e _ => Nat.zero_le e.pos) hin
  rw [lineStartsOf_eq, lineStartsOf_eq, carriedLineStarts, List.tail_cons, EditList.applyTo, ← h,
    List.drop_zero]

/-! ## Lookups in the starts -/

/-- The row of `p` by the starts of a text of `len` bytes (`Document::line_of`). -/
def rowIn (starts : List Nat) (len p : Nat) : Nat :=
  let p := min p len
  (starts.takeWhile (· ≤ p)).length - 1

/-- Where row `n` starts by the starts of a text of `len` bytes
(`Document::nth_line_start`). -/
def startIn (starts : List Nat) (len n : Nat) : Nat := starts.getD n len

/-- The row looked up in the table is the count of newlines before the place. -/
theorem rowIn_lineStartsOf (text : Bytes) (p : Nat) :
    rowIn (lineStartsOf text) text.length p = lineOf text p := by
  have htake : text.take (min p text.length) = text.take p := by
    rw [List.take_eq_take_min, Nat.min_comm]
    simp
  have hlen : (text.take (min p text.length)).length = min p text.length := by
    rw [List.length_take]
    omega
  have hsplit := breaks_append 0 (text.take (min p text.length)) (text.drop (min p text.length))
  rw [List.take_append_drop, hlen, Nat.zero_add] at hsplit
  have hkept : ∀ s ∈ breaks 0 (text.take (min p text.length)),
      decide (s ≤ min p text.length) = true := by
    intro s hmem
    have := mem_breaks hmem
    exact decide_eq_true (by omega)
  have hafter : ∀ s ∈ breaks (min p text.length) (text.drop (min p text.length)),
      decide (s ≤ min p text.length) = false := by
    intro s hmem
    have := mem_breaks hmem
    exact decide_eq_false (by omega)
  unfold rowIn
  dsimp only
  rw [lineStartsOf_eq, List.takeWhile_cons_of_pos (by simp), hsplit,
    (takeWhile_append_split hkept hafter).1, List.length_cons, Nat.add_sub_cancel, length_breaks, htake]
  rfl

namespace Pos

/-- `bytes.chunks(CHUNK)`. -/
def chunks (b : Bytes) : List Bytes :=
  if b = [] then [] else b.take 512 :: chunks (b.drop 512)
termination_by b.length
decreasing_by
  rename_i hb
  have := List.length_pos_iff.mpr hb
  rw [List.length_drop]
  omega

/-- The walk through one chunk for newline `line`, with `seen` newlines before it: where
the line after it starts in the chunk, or how many newlines were seen. -/
def walkChunk (line : Nat) : Bytes → Nat → Nat → Nat ⊕ Nat
  | [], seen, _ => .inr seen
  | b :: rest, seen, i =>
    if b = newline then
      if seen + 1 = line then .inl (i + 1) else walkChunk line rest (seen + 1) (i + 1)
    else walkChunk line rest seen (i + 1)

/-- The loop over the chunks: one with too few newlines is skipped. -/
def walkChunks (len line : Nat) : List Bytes → Nat → Nat → Nat
  | [], _, _ => len
  | chunk :: rest, k, seen =>
    let n := countNewlines chunk
    if seen + n < line then walkChunks len line rest (k + 1) (seen + n)
    else
      match walkChunk line chunk seen 0 with
      | .inl i => k * 512 + i
      | .inr seen => walkChunks len line rest (k + 1) seen

/-- Where row `line` starts, by a scan of the bytes (`pos::nth_line_start`). -/
def nthLineStart (bytes : Bytes) (line : Nat) : Nat :=
  if line = 0 then 0 else walkChunks bytes.length line (chunks bytes) 0 0

/-- A line start in the chunk is found there. -/
theorem walkChunk_eq {line seen i s : Nat} {chunk : Bytes} (hseen : seen < line)
    (hs : (breaks i chunk)[line - seen - 1]? = some s) : walkChunk line chunk seen i = .inl s := by
  induction chunk generalizing seen i with
  | nil => cases hs
  | cons b rest ih =>
    unfold walkChunk
    rw [breaks_cons] at hs
    split
    · rename_i hb
      rw [if_pos hb] at hs
      split
      · rename_i hline
        rw [show line - seen - 1 = 0 by omega] at hs
        exact congrArg _ (Option.some.inj hs)
      · rename_i hline
        rw [show line - seen - 1 = (line - (seen + 1) - 1) + 1 by omega, List.getElem?_cons_succ] at hs
        exact ih (by omega) hs
    · rename_i hb
      rw [if_neg hb] at hs
      exact ih hseen hs

/-- Only the last chunk is short, so the next one starts a whole chunk on. -/
theorem breaks_next (k : Nat) (b : Bytes) :
    breaks (k * 512 + (b.take 512).length) (b.drop 512) = breaks ((k + 1) * 512) (b.drop 512) := by
  by_cases hlong : b.length ≤ 512
  · rw [List.drop_eq_nil_of_le hlong, breaks_nil, breaks_nil]
  · have hnext : k * 512 + (b.take 512).length = (k + 1) * 512 := by
      rw [List.length_take]
      omega
    rw [hnext]

/-- The walk over the chunks finds the start of a line, or the text's end. -/
theorem walkChunks_eq {len line : Nat} {b : Bytes} {k seen : Nat} (hseen : seen < line) :
    walkChunks len line (chunks b) k seen =
      ((breaks (k * 512) b)[line - seen - 1]?).getD len := by
  induction b using chunks.induct generalizing k seen with
  | case1 =>
    rw [chunks, if_pos rfl]
    rfl
  | case2 b hb ih =>
    have hparts := breaks_append (k * 512) (b.take 512) (b.drop 512)
    rw [List.take_append_drop, breaks_next] at hparts
    have hlen := length_breaks (k * 512) (b.take 512)
    rw [chunks, if_neg hb, walkChunks]
    by_cases hskip : seen + countNewlines (b.take 512) < line
    · rw [if_pos hskip, ih hskip, hparts, List.getElem?_append_right (by omega), hlen,
        show line - seen - 1 - countNewlines (b.take 512) =
          line - (seen + countNewlines (b.take 512)) - 1 by omega]
    · have hlen' := length_breaks 0 (b.take 512)
      have hget := List.getElem?_eq_getElem
        (show line - seen - 1 < (breaks 0 (b.take 512)).length by omega)
      have hmoved := @map_breaks 0 (k * 512) (k * 512 : Nat) (by omega) (b.take 512)
      rw [if_neg hskip, walkChunk_eq hseen hget, hparts, List.getElem?_append_left (by omega),
        ← hmoved, List.getElem?_map, hget]
      simp only [Option.map_some, Option.getD_some]
      omega

theorem nthLineStart_eq (bytes : Bytes) (line : Nat) :
    nthLineStart bytes line = startIn (lineStartsOf bytes) bytes.length line := by
  unfold nthLineStart startIn
  rw [lineStartsOf_eq]
  cases line with
  | zero => rfl
  | succ line =>
    rw [if_neg (Nat.succ_ne_zero line), walkChunks_eq (Nat.succ_pos line), Nat.zero_mul,
      List.getD_cons_succ, List.getD_eq_getElem?_getD]
    rfl

end Pos

/-! ## Rows and starts -/

theorem lineStartsOf_sorted (b : Bytes) : (lineStartsOf b).Pairwise (· < ·) := by
  rw [lineStartsOf_eq, List.pairwise_cons]
  refine ⟨fun s hs => (mem_breaks hs).1, List.pairwise_lt_range.filterMap _ ?_⟩
  intro i j hij s hs s' hs'
  split at hs <;> split at hs' <;> cases hs <;> cases hs'
  omega

/-- An ordered list is split at a value by its index. -/
theorem getElem_le_iff_takeWhile {xs : List Nat} (h : xs.Pairwise (· < ·)) {n p : Nat}
    (hn : n < xs.length) : xs[n] ≤ p ↔ n < (xs.takeWhile (· ≤ p)).length := by
  induction xs generalizing n with
  | nil => cases hn
  | cons x xs ih =>
    obtain ⟨hx, hxs⟩ := List.pairwise_cons.mp h
    rw [List.takeWhile_cons]
    by_cases hp : x ≤ p
    · rw [if_pos (by simpa using hp), List.length_cons]
      cases n with
      | zero => simpa using hp
      | succ n => simpa using ih hxs (Nat.lt_of_succ_lt_succ hn)
    · rw [if_neg (by simpa using hp)]
      have hle : x ≤ (x :: xs)[n] := by
        cases n with
        | zero => exact Nat.le_refl _
        | succ n => exact Nat.le_of_lt (hx _ (List.getElem_mem _))
      simp only [List.length_nil, Nat.not_lt_zero, iff_false]
      omega

/-- `line_of` and `nth_line_start` are adjoint: a line starts at or before a position exactly
if the position is on that line or a later one. So the line of a line's start is the line, and
later lines start later. -/
theorem lines_adjoint (b : Bytes) (n : Nat) (hn : n ≤ countNewlines b) :
    (∀ p ≤ b.length, Pos.nthLineStart b n ≤ p ↔ n ≤ lineOf b p) ∧
      lineOf b (Pos.nthLineStart b n) = n ∧
      ∀ m < n, Pos.nthLineStart b m < Pos.nthLineStart b n := by
  have hlen : (lineStartsOf b).length = countNewlines b + 1 := by
    rw [lineStartsOf_eq, List.length_cons, length_breaks]
  have hstart (n : Nat) (h : n < (lineStartsOf b).length) :
      Pos.nthLineStart b n = (lineStartsOf b)[n] := by
    rw [Pos.nthLineStart_eq, startIn, List.getD_eq_getElem _ _ h]
  have hadj (n p : Nat) (hn : n < (lineStartsOf b).length) (hp : p ≤ b.length) :
      Pos.nthLineStart b n ≤ p ↔ n ≤ lineOf b p := by
    have hpos : 0 < ((lineStartsOf b).takeWhile (· ≤ p)).length := by
      rw [lineStartsOf_eq, List.takeWhile_cons_of_pos (by simp)]
      exact Nat.succ_pos _
    rw [hstart n hn, getElem_le_iff_takeWhile (lineStartsOf_sorted b) hn, ← rowIn_lineStartsOf,
      rowIn, Nat.min_eq_left hp]
    omega
  have hmono (m n : Nat) (hmn : m < n) (hn : n < (lineStartsOf b).length) :
      Pos.nthLineStart b m < Pos.nthLineStart b n := by
    rw [hstart m (by omega), hstart n hn]
    exact List.pairwise_iff_getElem.mp (lineStartsOf_sorted b) m n (by omega) hn hmn
  have hn' : n < (lineStartsOf b).length := by omega
  refine ⟨fun p hp => hadj n p hn' hp, ?_, fun m hm => hmono m n hm hn'⟩
  have hinside : Pos.nthLineStart b n ≤ b.length := by
    rw [hstart n hn']
    have hmem := List.getElem_mem hn'
    generalize (lineStartsOf b)[n] = s at hmem ⊢
    rw [lineStartsOf_eq] at hmem
    rcases List.mem_cons.mp hmem with hzero | hbreak
    · omega
    · have hle := (mem_breaks hbreak).2
      omega
  have hle := (hadj n _ hn' hinside).mp (Nat.le_refl _)
  -- were the start on a later line, that one would start no later
  by_contra hne
  have hlast : lineOf b (Pos.nthLineStart b n) < (lineStartsOf b).length := by
    have hcount : lineOf b (Pos.nthLineStart b n) ≤ countNewlines b :=
      (List.take_sublist _ b).count_le newline
    omega
  have hback := (hadj _ _ hlast hinside).mpr (Nat.le_refl _)
  have hlt := hmono n _ (by omega) hlast
  omega

/-- The second line of `a` and `b` starts on line 1. -/
theorem lines_adjoint_two : lineOf [97, 10, 98] (Pos.nthLineStart [97, 10, 98] 1) = 1 :=
  (lines_adjoint [97, 10, 98] 1 (by decide)).2.1

end Ruse.Core
