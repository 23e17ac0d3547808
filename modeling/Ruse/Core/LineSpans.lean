import Ruse.Core.LineIndex
import Ruse.Core.LineText

/-!
# A text as a list of lines

The line model that the line commands share: a text is its lines (`rows`), each with a
newline after it, except perhaps the last.

* `terminated`, `joinLines` — the text of a list of lines;
* `rows` — the lines of a text, as `split` gives them;
* `lineSpans` — `line_spans` of `editor/substitute.rs`: the byte span of every line.

`Rows` says that a text has given lines; the line starts of a document and the spans
of its lines are read off it.
-/

namespace Ruse.Core

open LineMap (splitLines)

variable {i j : Nat} {l : Bytes}

/-- The lines, each with its newline. -/
def terminated (ls : List Bytes) : Bytes := ls.flatMap fun l => l ++ [newline]

@[simp] theorem terminated_nil : terminated [] = [] := rfl

@[simp] theorem terminated_cons (l : Bytes) (ls : List Bytes) :
    terminated (l :: ls) = l ++ newline :: terminated ls := by
  simp [terminated]

@[simp] theorem terminated_append (ls ls' : List Bytes) :
    terminated (ls ++ ls') = terminated ls ++ terminated ls' := List.flatMap_append

theorem terminated_eq_nil {ls : List Bytes} : terminated ls = [] ↔ ls = [] := by
  cases ls <;> simp

/-- `lines.join(&b'\n')`. -/
def joinLines (ls : List Bytes) : Bytes := [newline].intercalate ls

theorem joinLines_append {ls : List Bytes} (h : ls ≠ []) :
    joinLines ls ++ [newline] = terminated ls := by
  unfold joinLines
  induction ls with
  | nil => exact absurd rfl h
  | cons l ls ih =>
    cases ls with
    | nil => simp [List.intercalate]
    | cons l' ls =>
      have := ih (List.cons_ne_nil _ _)
      rw [terminated_cons, ← this]
      simp [List.intercalate]

theorem joinLines_eq_nil {ls : List Bytes} (hne : ls ≠ []) (h : joinLines ls = []) : ls = [[]] := by
  have htext := joinLines_append hne
  rw [h, List.nil_append] at htext
  cases ls with
  | nil => exact absurd rfl hne
  | cons l ls =>
    rw [terminated_cons] at htext
    cases l with
    | nil =>
      rw [List.nil_append, List.cons.injEq] at htext
      rw [terminated_eq_nil.mp htext.2.symm]
    | cons c l =>
      have := congrArg List.length htext
      simp only [List.length_cons, List.length_append, List.length_nil] at this
      omega

def endsNl (b : Bytes) : Bool := b.getLast? == some newline

/-- The lines of a text without their newlines; the empty text is one empty line. -/
def rows (b : Bytes) : List Bytes := if endsNl b then (splitLines b).dropLast else splitLines b

/-- The text has the lines `ls`, and a final newline when `nl` says so. -/
structure Rows (b : Bytes) (ls : List Bytes) (nl : Bool) : Prop where
  text : b ++ (if nl then [] else [newline]) = terminated ls
  clean : ∀ l ∈ ls, newline ∉ l
  last : nl = false → b ≠ [] → ls.getLast? ≠ some []

theorem splitLines_append (l rest : Bytes) (h : newline ∉ l) :
    splitLines (l ++ newline :: rest) = l :: splitLines rest := by
  unfold splitLines
  rw [List.splitOn_append_cons_self, List.splitOn_eq_singleton h, List.singleton_append]

/-- Splitting gives the lines back, and the empty piece after the last newline. -/
theorem splitLines_terminated {ls : List Bytes} (h : ∀ l ∈ ls, newline ∉ l) :
    splitLines (terminated ls) = ls ++ [[]] := by
  induction ls with
  | nil => rfl
  | cons l ls ih =>
    rw [terminated_cons, splitLines_append l _ (h l List.mem_cons_self),
      ih fun x hx => h x (List.mem_cons_of_mem l hx), List.cons_append]

/-- Every text is lines with a newline after each, but for the last newline. -/
theorem exists_terminated (b : Bytes) :
    ∃ ls, b ++ [newline] = terminated ls ∧ ls ≠ [] ∧ ∀ l ∈ ls, newline ∉ l := by
  induction b with
  | nil => exact ⟨[[]], rfl, List.cons_ne_nil _ _, by simp⟩
  | cons c b ih =>
    obtain ⟨ls, htext, hne, hclean⟩ := ih
    by_cases hc : c = newline
    · refine ⟨[] :: ls, by rw [terminated_cons, ← htext, hc]; rfl, List.cons_ne_nil _ _, ?_⟩
      simpa using hclean
    · cases ls with
      | nil => exact absurd rfl hne
      | cons l ls =>
        refine ⟨(c :: l) :: ls, ?_, List.cons_ne_nil _ _, fun x hx => ?_⟩
        · rw [List.cons_append, htext, terminated_cons, terminated_cons, List.cons_append]
        · rcases List.mem_cons.mp hx with rfl | hx
          · simpa [Ne.symm hc] using hclean l List.mem_cons_self
          · exact hclean x (List.mem_cons_of_mem l hx)

theorem endsNl_append (b : Bytes) : endsNl (b ++ [newline]) = true := by
  simp [endsNl]

/-- The rows of a text are its lines. -/
theorem rows_spec (b : Bytes) : Rows b (rows b) (endsNl b) := by
  obtain ⟨ls, htext, hne, hclean⟩ := exists_terminated b
  have hsplit : splitLines b ++ [[]] = ls ++ [[]] := by
    rw [← splitLines_terminated hclean, ← htext]
    unfold splitLines
    rw [List.splitOn_append_cons_self]
    rfl
  have hls : splitLines b = ls := List.append_cancel_right hsplit
  cases hend : endsNl b with
  | false =>
    have hrows : rows b = ls := by rw [rows, hend, if_neg (by simp), hls]
    rw [hrows]
    refine ⟨htext, hclean, fun _ hb hlast => ?_⟩
    -- an empty last line would be after a final newline
    obtain ⟨front, rfl⟩ : ∃ front, ls = front ++ [[]] := by
      rw [List.getLast?_eq_some_iff] at hlast
      exact hlast
    rw [terminated_append, terminated_cons, terminated_nil, List.nil_append] at htext
    have hb' : b = terminated front := List.append_cancel_right htext
    have hfront : front ≠ [] := by
      rintro rfl
      exact hb hb'
    rw [hb', ← joinLines_append hfront, endsNl_append] at hend
    cases hend
  | true =>
    have hlast : b.getLast? = some newline := by simpa [endsNl] using hend
    obtain ⟨front, hfront⟩ := List.getLast?_eq_some_iff.mp hlast
    have hrows : rows b = ls.dropLast := by rw [rows, hend, if_pos rfl, hls]
    have hsplit' : ls = splitLines front ++ [[]] := by
      rw [← hls, hfront]
      unfold splitLines
      rw [List.splitOn_append_cons_self]
      rfl
    rw [hrows]
    refine ⟨?_, fun l hl => hclean l (List.dropLast_subset ls hl), fun h => by cases h⟩
    rw [hsplit', terminated_append, terminated_cons, terminated_nil, List.nil_append] at htext
    rw [if_pos rfl, List.append_nil, hsplit', List.dropLast_concat]
    exact List.append_cancel_right htext

/-! ## Where the lines start -/

/-- Where line `i` starts. -/
def startAt (ls : List Bytes) (i : Nat) : Nat := (terminated (ls.take i)).length

@[simp] theorem startAt_zero (ls : List Bytes) : startAt ls 0 = 0 := rfl

theorem startAt_succ {ls : List Bytes} (h : ls[i]? = some l) :
    startAt ls (i + 1) = startAt ls i + l.length + 1 := by
  rw [startAt, startAt, List.take_add_one, h, Option.toList_some, terminated_append]
  simp only [terminated_cons, terminated_nil, List.length_append, List.length_cons, List.length_nil]
  omega

theorem startAt_length (ls : List Bytes) : startAt ls ls.length = (terminated ls).length := by
  rw [startAt, List.take_length]

theorem startAt_mono (ls : List Bytes) (h : i ≤ j) : startAt ls i ≤ startAt ls j := by
  obtain ⟨k, rfl⟩ := Nat.exists_eq_add_of_le h
  rw [startAt, startAt, List.take_add, terminated_append, List.length_append]
  exact Nat.le_add_right _ _

theorem startAt_lt (ls : List Bytes) (h : i < j) (hj : j ≤ ls.length) :
    startAt ls i < startAt ls j := by
  have hsucc := startAt_succ (List.getElem?_eq_getElem (show i < ls.length by omega))
  have hmono := startAt_mono ls (show i + 1 ≤ j from h)
  omega

theorem exists_line {ls : List Bytes} {n p : Nat} (hn : n ≤ ls.length) (hp : p < startAt ls n) :
    ∃ i l, i < n ∧ ls[i]? = some l ∧ startAt ls i ≤ p ∧ p ≤ startAt ls i + l.length := by
  induction n with
  | zero => exact absurd hp (Nat.not_lt_zero p)
  | succ n ih =>
    rcases Nat.lt_or_ge p (startAt ls n) with hlt | hge
    · obtain ⟨i, l, hi, hl, hstart, hend⟩ := ih (by omega) hlt
      exact ⟨i, l, by omega, hl, hstart, hend⟩
    · have hl := List.getElem?_eq_getElem (show n < ls.length by omega)
      rw [startAt_succ hl] at hp
      exact ⟨n, _, by omega, hl, hge, by omega⟩

/-- The lines that start at or before a place on line `i`. -/
theorem takeWhile_startAt {ls : List Bytes} {n p : Nat} (hl : ls[i]? = some l) (hn : n ≤ ls.length)
    (hi : i < n) (hstart : startAt ls i ≤ p) (hend : p ≤ startAt ls i + l.length) :
    (((List.range n).map (startAt ls)).takeWhile (· ≤ p)).length = i + 1 := by
  obtain ⟨k, rfl⟩ := Nat.exists_eq_add_of_le (show i + 1 ≤ n from hi)
  have hbefore : ∀ s ∈ (List.range (i + 1)).map (startAt ls), decide (s ≤ p) = true := by
    intro s hs
    obtain ⟨j, hj, rfl⟩ := List.mem_map.mp hs
    have hmono := startAt_mono ls (show j ≤ i by have := List.mem_range.mp hj; omega)
    exact decide_eq_true (by omega)
  have hafter : ∀ s ∈ ((List.range k).map (i + 1 + ·)).map (startAt ls), decide (s ≤ p) = false := by
    intro s hs
    obtain ⟨j, hj, rfl⟩ := List.mem_map.mp hs
    obtain ⟨m, -, rfl⟩ := List.mem_map.mp hj
    have hmono := startAt_mono ls (show i + 1 ≤ i + 1 + m by omega)
    rw [startAt_succ hl] at hmono
    exact decide_eq_false (by omega)
  rw [List.range_add, List.map_append, (takeWhile_append_split hbefore hafter).1, List.length_map,
    List.length_range]

/-- The text around line `i`. -/
theorem terminated_at {ls : List Bytes} (h : ls[i]? = some l) :
    terminated ls = terminated (ls.take i) ++ (l ++ newline :: terminated (ls.drop (i + 1))) := by
  obtain ⟨hlt, hget⟩ := List.getElem?_eq_some_iff.mp h
  have hsplit : ls = ls.take i ++ l :: ls.drop (i + 1) := by
    rw [← hget, ← List.drop_eq_getElem_cons hlt, List.take_append_drop]
  have := congrArg terminated hsplit
  rwa [terminated_append, terminated_cons] at this

namespace Rows

variable {b : Bytes} {ls : List Bytes} {nl : Bool}

theorem length (h : Rows b ls nl) : b.length + (if nl then 0 else 1) = startAt ls ls.length := by
  rw [startAt_length, ← h.text, List.length_append]
  cases nl <;> rfl

theorem getElem? (h : Rows b ls nl) {k : Nat} (hk : k < b.length) : b[k]? = (terminated ls)[k]? := by
  rw [← h.text, List.getElem?_append_left hk]

theorem ne_nil (h : Rows b ls nl) (hb : b ≠ []) : ls ≠ [] := by
  rintro rfl
  have := h.text
  rw [terminated_nil] at this
  exact hb (List.append_eq_nil_iff.mp this).1

/-- A line lies in the text, and what follows it is its newline, or the end. -/
theorem line_le (h : Rows b ls nl) (hi : ls[i]? = some l) :
    startAt ls i + l.length ≤ b.length ∧
      (startAt ls i + l.length < b.length → b[startAt ls i + l.length]? = some newline) := by
  have hlt := (List.getElem?_eq_some_iff.mp hi).1
  have hend := startAt_mono ls (show i + 1 ≤ ls.length from hlt)
  have hlen := h.length
  rw [startAt_succ hi] at hend
  refine ⟨by split at hlen <;> omega, fun hin => ?_⟩
  rw [h.getElem? hin, terminated_at hi, List.getElem?_append_right (by rw [startAt]; omega),
    List.getElem?_append_right (by rw [startAt]; omega), show startAt ls i + l.length -
      (terminated (ls.take i)).length - l.length = 0 by rw [startAt]; omega]
  rfl

theorem line_getElem? (h : Rows b ls nl) (hi : ls[i]? = some l) (hj : j < l.length) :
    b[startAt ls i + j]? = l[j]? := by
  have hle := (h.line_le hi).1
  rw [h.getElem? (by omega), terminated_at hi, List.getElem?_append_right (by rw [startAt]; omega),
    List.getElem?_append_left (by rw [startAt]; omega), show startAt ls i + j -
      (terminated (ls.take i)).length = j by rw [startAt]; omega]

/-- The line that ends with the text is the last, and unterminated. -/
theorem last_line (h : Rows b ls nl) (hi : ls[i]? = some l)
    (hend : startAt ls i + l.length = b.length) : nl = false ∧ i + 1 = ls.length := by
  have hlt := (List.getElem?_eq_some_iff.mp hi).1
  have hmono := startAt_mono ls (show i + 1 ≤ ls.length from hlt)
  have hlen := h.length
  have hsucc := startAt_succ hi
  have hnl : nl = false := by
    cases nl with
    | false => rfl
    | true =>
      rw [if_pos rfl] at hlen
      omega
  refine ⟨hnl, ?_⟩
  by_contra hne
  obtain ⟨l', hl'⟩ : ∃ l', ls[i + 1]? = some l' := by
    rw [List.getElem?_eq_getElem (by omega)]
    exact ⟨_, rfl⟩
  have hmono' := startAt_mono ls (show i + 2 ≤ ls.length by omega)
  rw [startAt_succ hl'] at hmono'
  rw [hnl] at hlen
  simp only [Bool.false_eq_true, if_false] at hlen
  omega

theorem lineEnd (h : Rows b ls nl) (hi : ls[i]? = some l) :
    Ruse.Core.lineEnd b (startAt ls i) = startAt ls i + l.length := by
  obtain ⟨hle, hnl⟩ := h.line_le hi
  refine lineEnd_eq (Nat.le_add_right _ _) hle ?_ fun k hk hkl hnewline => ?_
  · rcases Nat.eq_or_lt_of_le hle with heq | hlt
    · exact .inl heq
    · exact .inr (hnl hlt)
  · obtain ⟨j, rfl⟩ := Nat.exists_eq_add_of_le hk
    rw [h.line_getElem? hi (by omega)] at hnewline
    exact h.clean l (List.mem_of_getElem? hi) (List.mem_of_getElem? hnewline)

theorem slice_line (h : Rows b ls nl) (hi : ls[i]? = some l) :
    slice b (startAt ls i) (startAt ls i + l.length) = l := by
  have hle := (h.line_le hi).1
  refine List.ext_getElem? fun j => ?_
  rcases Nat.lt_or_ge j l.length with hj | hj
  · rw [slice, List.getElem?_take_of_lt (by omega), List.getElem?_drop, h.line_getElem? hi hj]
  · rw [List.getElem?_eq_none hj, List.getElem?_eq_none]
    rw [slice_length (Nat.le_add_right _ _) hle]
    omega

end Rows

/-! ## The spans and the line starts -/

/-- The loop of `line_spans`, at `i` with the line begun at `start`. -/
def lineSpansFrom : Bytes → Nat → Nat → List (Nat × Nat)
  | [], start, i => if start < i then [(start, i)] else []
  | c :: rest, start, i =>
    if c = newline then (start, i) :: lineSpansFrom rest (i + 1) (i + 1)
    else lineSpansFrom rest start (i + 1)

/-- The byte span of every line, at least one; the slot after a final newline is none. -/
def lineSpans (b : Bytes) : List (Nat × Nat) :=
  if lineSpansFrom b 0 0 = [] then [(0, b.length)] else lineSpansFrom b 0 0

/-- The spans of lines laid out from `off` on. -/
def spansAt (off : Nat) : List Bytes → List (Nat × Nat)
  | [] => []
  | l :: ls => (off, off + l.length) :: spansAt (off + l.length + 1) ls

theorem spansAt_length (off : Nat) (ls : List Bytes) : (spansAt off ls).length = ls.length := by
  induction ls generalizing off with
  | nil => rfl
  | cons l ls ih => rw [spansAt, List.length_cons, List.length_cons, ih]

theorem spansAt_append (off : Nat) (ls ls' : List Bytes) :
    spansAt off (ls ++ ls') = spansAt off ls ++ spansAt (off + (terminated ls).length) ls' := by
  induction ls generalizing off with
  | nil => rfl
  | cons l ls ih =>
    rw [List.cons_append, spansAt, ih, spansAt, List.cons_append, terminated_cons, List.length_append,
      List.length_cons]
    congr 3
    omega

theorem spansAt_getElem? (off : Nat) {ls : List Bytes} (h : ls[i]? = some l) :
    (spansAt off ls)[i]? = some (off + startAt ls i, off + startAt ls i + l.length) := by
  induction ls generalizing off i with
  | nil => cases h
  | cons l' ls ih =>
    cases i with
    | zero =>
      cases h
      rfl
    | succ i =>
      have hstart : startAt (l' :: ls) (i + 1) = l'.length + 1 + startAt ls i := by
        simp only [startAt, List.take_succ_cons, terminated_cons, List.length_append,
          List.length_cons]
        omega
      rw [spansAt, List.getElem?_cons_succ, ih _ h, hstart]
      simp only [Nat.add_assoc]

theorem lineSpansFrom_clean (h : newline ∉ l) (rest : Bytes) (start i : Nat) :
    lineSpansFrom (l ++ rest) start i = lineSpansFrom rest start (i + l.length) := by
  induction l generalizing i with
  | nil => rfl
  | cons c l ih =>
    simp only [List.mem_cons, not_or] at h
    obtain ⟨hc, hl⟩ := h
    rw [List.cons_append, lineSpansFrom, if_neg (Ne.symm hc), ih hl, List.length_cons]
    congr 1
    omega

theorem lineSpansFrom_terminated {ls : List Bytes} (h : ∀ l ∈ ls, newline ∉ l) (rest : Bytes)
    (off : Nat) : lineSpansFrom (terminated ls ++ rest) off off =
      spansAt off ls ++ lineSpansFrom rest (off + (terminated ls).length)
        (off + (terminated ls).length) := by
  induction ls generalizing off with
  | nil => rfl
  | cons l ls ih =>
    rw [terminated_cons, List.append_assoc, lineSpansFrom_clean (h l List.mem_cons_self),
      List.cons_append, lineSpansFrom, if_pos rfl, ih fun x hx => h x (List.mem_cons_of_mem l hx),
      spansAt, List.cons_append]
    simp only [List.length_append, List.length_cons]
    congr 3 <;> omega

theorem Rows.unterminated {b : Bytes} {ls : List Bytes} (h : Rows b ls false) :
    ∃ front l, ls = front ++ [l] ∧ b = terminated front ++ l := by
  have htext := h.text
  rw [if_neg (by simp)] at htext
  obtain ⟨front, l, rfl⟩ : ∃ front l, ls = front ++ [l] := by
    rcases List.eq_nil_or_concat ls with rfl | ⟨front, l, hls⟩
    · exact absurd htext (by simp)
    · exact ⟨front, l, by rw [hls, List.concat_eq_append]⟩
  rw [terminated_append, terminated_cons, terminated_nil, ← List.append_assoc] at htext
  exact ⟨front, l, rfl, List.append_cancel_right htext⟩

/-- The spans of a text are those of its lines. -/
theorem Rows.lineSpans {b : Bytes} {ls : List Bytes} {nl : Bool} (h : Rows b ls nl) (hb : b ≠ []) :
    lineSpans b = spansAt 0 ls := by
  have hfrom : lineSpansFrom b 0 0 = spansAt 0 ls := by
    cases nl with
    | true =>
      have htext := h.text
      rw [if_pos rfl, List.append_nil] at htext
      have hspans := lineSpansFrom_terminated h.clean [] 0
      rw [List.append_nil] at hspans
      rw [htext, hspans, lineSpansFrom, if_neg (by omega), List.append_nil]
    | false =>
      obtain ⟨front, l, rfl, rfl⟩ := h.unterminated
      have hl : l ≠ [] := by
        rintro rfl
        exact h.last rfl hb (by simp)
      have hclean := h.clean l (by simp)
      have hpos := List.length_pos_iff.mpr hl
      have hlast := lineSpansFrom_clean hclean [] (0 + (terminated front).length)
        (0 + (terminated front).length)
      rw [List.append_nil] at hlast
      rw [lineSpansFrom_terminated fun x hx => h.clean x (List.mem_append_left _ hx), hlast,
        lineSpansFrom, if_pos (by omega), spansAt_append]
      rfl
  have hne : spansAt 0 ls ≠ [] := by
    have := h.ne_nil hb
    cases ls with
    | nil => exact absurd rfl this
    | cons l ls => exact List.cons_ne_nil _ _
  rw [Ruse.Core.lineSpans, hfrom, if_neg hne]

/-- The breaks of terminated lines are where the lines start. -/
theorem breaks_terminated {ls : List Bytes} (h : ∀ l ∈ ls, newline ∉ l) (off : Nat) :
    breaks off (terminated ls) = (List.range ls.length).map fun i => off + startAt ls (i + 1) := by
  induction ls generalizing off with
  | nil => rfl
  | cons l ls ih =>
    have hclean : breaks off l = [] := by
      rw [breaks, List.filterMap_eq_nil_iff]
      intro i _
      rw [if_neg]
      exact fun hnl => h l List.mem_cons_self (List.mem_of_getElem? hnl)
    have hstart : ∀ i, startAt (l :: ls) (i + 1) = l.length + 1 + startAt ls i := fun i => by
      simp only [startAt, List.take_succ_cons, terminated_cons, List.length_append, List.length_cons]
      omega
    rw [terminated_cons, breaks_append, hclean, List.nil_append, breaks_cons, if_pos rfl,
      ih fun x hx => h x (List.mem_cons_of_mem l hx), List.length_cons, List.range_succ_eq_map,
      List.map_cons, List.map_map, hstart, startAt_zero]
    congr 1
    refine List.map_congr_left fun i _ => ?_
    show off + l.length + 1 + startAt ls (i + 1) = off + startAt (l :: ls) (i + 1 + 1)
    rw [hstart]
    omega

/-- The line starts of a text: its lines', and the slot after a final newline. -/
theorem Rows.lineStartsOf {b : Bytes} {ls : List Bytes} {nl : Bool} (h : Rows b ls nl) :
    lineStartsOf b = (List.range (ls.length + if nl then 1 else 0)).map (startAt ls) := by
  have hbreaks := breaks_terminated h.clean 0
  simp only [Nat.zero_add] at hbreaks
  rw [← h.text, breaks_append] at hbreaks
  have hall : ∀ n, (0 :: (List.range n).map fun i => startAt ls (i + 1)) =
      (List.range (n + 1)).map (startAt ls) := fun n => by
    rw [List.range_succ_eq_map, List.map_cons, List.map_map]
    rfl
  rw [lineStartsOf_eq]
  cases nl with
  | true =>
    rw [if_pos rfl, breaks_nil, List.append_nil] at hbreaks
    rw [hbreaks, hall, if_pos rfl]
  | false =>
    obtain ⟨n, hn⟩ : ∃ n, ls.length = n + 1 := by
      obtain ⟨front, l, rfl, -⟩ := h.unterminated
      exact ⟨front.length, by simp⟩
    rw [if_neg (by simp), hn, List.range_succ, List.map_append, List.map_singleton, breaks_cons,
      if_pos rfl, breaks_nil] at hbreaks
    rw [(List.append_inj' hbreaks rfl).1, hall, if_neg (by simp), hn]

end Ruse.Core
