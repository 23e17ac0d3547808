import Ruse.Core.LineAddr
import Ruse.Core.Pattern
import Ruse.Core.Replacement
import Ruse.Lib.Loop

/-!
# The places of the `:s` scan

What `find_substitutions` reads of its text. The lines of the searched text (`SubCommand.hay`)
are those of the haystack, each with a line break; `lineOf` finds the line of a place. The
places between the characters have their offsets in the buffer (`place`), in the same order,
and those before the last line break keep off the buffer's final newline (`place_inside`).
-/

namespace Ruse.Core

open Ruse.Lib

variable {b : Bytes} {h i j pos : Nat}

/-! ## The scan of `:s`

The model of `find_substitutions` in `editor/substitute.rs`, with its two callers in
`editor/mod.rs`: `substitute_preview`, one call for the whole range, and the substitute
branch of `global_run`, one call for each marked line.

A pattern that cannot match a line break is matched line by line (`eachLine`). For the
others the scan is a machine (`SubScan`, `SubCommand.step`): at a line of the range, or with
a match in hand; `Lib.loop` runs it. `none` is an index or a slice out of range.

The results are in `SubstituteSound`.
-/

/-- `&s[i..j]` of a string. -/
def strSlice (s : Bytes) (i j : Nat) : Option Bytes :=
  if i ≤ j ∧ IsCharBoundary s i ∧ IsCharBoundary s j then some (slice s i j) else none

/-- What a command gives to `find_substitutions`, but for the lines. `breakcheck` says at
which line an interrupt is seen. -/
structure SubCommand where
  b : Bytes
  re : Regex
  maps : CaseMap
  replacement : List Char
  global : Bool
  breakcheck : Nat → Bool

/-- Where the scan of a pattern with line breaks is: before a line, with a match in hand,
or at its end. -/
inductive SubScan.At where
  | line (li : Nat)
  | found (group cur col : Nat) (prevEnd : Option Nat) (m : Match)
  | done
deriving DecidableEq, Repr

structure SubScan where
  at' : SubScan.At
  global : Bool
  consumed : Option Nat
  out : List Substitution
deriving DecidableEq, Repr

namespace SubCommand

variable (c : SubCommand)

def buf : Hay := Hay.new c.b

def lines : List (Nat × Nat) := lineSpans c.buf.text

/-- The text a replacement stands for: a byte that is not UTF-8 is written back as itself. -/
def written (replacement : Bytes) : Bytes :=
  if ValidUtf8 replacement then unspell replacement else replacement

def push (start stop : Nat) (replacement : Bytes) (line : Nat) : Option Substitution := do
  let start ← c.buf.toBuf start
  let stop ← c.buf.toBuf stop
  some ⟨start, stop, written replacement, line⟩

/-! ## Line by line -/

def lineMatches (line : Bytes) : Option (List Match) :=
  if c.global then c.re.findAll line else some (c.re.findAt line 0).toList

def lineSubs (l : (Nat × Nat) × Nat) : Option (List Substitution) := do
  let line ← strSlice c.buf.text l.1.1 l.1.2
  let found ← c.lineMatches line
  found.mapM fun m => do
    let matched ← strSlice line m.start m.stop
    c.push (l.1.1 + m.start) (l.1.1 + m.stop) (expandReplacement c.maps c.replacement matched) l.2

/-- The lines of the range that are come to, with their numbers. -/
def scanned (first last : Nat) : List ((Nat × Nat) × Nat) :=
  ((c.lines.zipIdx.take (last + 1)).drop first).takeWhile fun l => !c.breakcheck l.2

def eachLine (first last : Nat) (out : List Substitution) : Option (List Substitution) :=
  ((c.scanned first last).mapM c.lineSubs).map fun subs => out ++ subs.flatten

/-! ## Across line breaks -/

/-- The text searched: it always ends in a line break. -/
def hay : Bytes := if endsNl c.buf.text then c.buf.text else c.buf.text ++ [newline]

/-- The line that holds the byte `pos`; the number of lines past the last one. -/
def lineOf (pos : Nat) : Nat :=
  if c.hay.length ≤ pos then c.lines.length
  else (c.lines.takeWhile fun l => l.1 ≤ pos).length - 1

/-- The end of the loop's body: break, or look for the next match. -/
def goOn (last : Nat) (s : SubScan) (group cur col : Nat) (prevEnd : Option Nat)
    (stop doAgain : Bool) : Option SubScan :=
  if stop ∨ last < cur ∨ ¬ (s.global ∨ doAgain) then some { s with at' := .line (cur + 1) }
  else
    match c.re.findWholeAt c.hay col with
    | none => some { s with at' := .line (cur + 1) }
    | some (ws, m) => do
      let (_, le) ← c.lines[cur]?
      if ws ≤ le then some { s with at' := .found group cur col prevEnd m }
      else some { s with at' := .line (cur + 1) }

/-- An empty match where the previous one ended does not count. -/
def passedOver (col : Nat) (prevEnd : Option Nat) (m : Match) : Prop :=
  prevEnd = some col ∧ m.start = m.stop ∧ m.stop = col

instance (col : Nat) (prevEnd : Option Nat) (m : Match) : Decidable (passedOver col prevEnd m) :=
  inferInstanceAs (Decidable (_ ∧ _))

def step (last : Nat) (s : SubScan) : Option SubScan :=
  let n := c.hay.length
  match s.at' with
  | .done => none
  | .line li =>
    if last < li then some { s with at' := .done }
    else if c.breakcheck li then some { s with at' := .done }
    else do
      let (ls, le) ← c.lines[li]?
      -- joined into the line above by an earlier match
      if s.consumed.any (ls ≤ ·) then some { s with at' := .line (li + 1) }
      else
        match c.re.findWholeAt c.hay ls with
        | none => some { s with at' := .done }
        | some (ws, m) =>
          if le < ws then some { s with at' := .line (c.lineOf ws) }
          else some { s with at' := .found li li ls none m }
  | .found group cur col prevEnd m =>
    if n ≤ m.start then some { s with at' := .done }
    else do
      let (_, le) ← c.lines[cur]?
      -- a `\zs` after a line break reports a later line
      let cur := if le < m.start then c.lineOf m.start else cur
      if passedOver col prevEnd m then
        let (_, le) ← c.lines[cur]?
        if le ≤ col then c.goOn last s group cur col prevEnd true false
        else do
          let col ← stepChar c.hay col
          c.goOn last s group cur col prevEnd false false
      else do
        let matched ← strSlice c.hay m.start m.stop
        -- a match through the last line break replaces up to it
        let sub ← c.push m.start (max (min m.stop (n - 1)) m.start)
          (expandReplacement c.maps c.replacement matched) group
        let s := { s with out := s.out ++ [sub] }
        let endLine := c.lineOf m.stop
        let stop := decide (n ≤ m.stop)
        if cur < endLine then
          let doAgain := decide (endLine ≤ last)
          let s := { s with consumed := some m.stop, global := s.global && doAgain }
          c.goOn last s group endLine m.stop (some m.stop) stop doAgain
        else c.goOn last s group cur m.stop (some m.stop) stop false

def stops (s : SubScan) : Bool := s.at' = .done

/-- The scan of the lines from `first` on, with what the calls before it left. -/
def start (first : Nat) (st : Option Nat × List Substitution) : SubScan :=
  ⟨.line first, c.global, st.1, st.2⟩

/-- The substitutions of the lines `first..=last`, after those of the calls before; with the
end of the last match that ran past its own line. -/
def findSubstitutions (first last : Nat) (st : Option Nat × List Substitution) :
    Option (Option Nat × List Substitution) :=
  if c.re.multiline then
    (loop stops (c.step last) (3 * c.hay.length + 6) (c.start first st)).map fun s =>
      (s.consumed, s.out)
  else (c.eachLine first last st.2).map fun out => (st.1, out)

/-- `:[range]s`: what it would replace. -/
def substitutePreview (range : SubRange) (cursorLine : Nat) : Option (List Substitution) :=
  let (first, last) := range.resolve c.lines.length cursorLine
  (c.findSubstitutions first last (none, [])).map Prod.snd

/-- `:g/pat/s`: what it replaces on the marked lines. -/
def globalSubstitutions (marked : List Nat) : Option (List Substitution) :=
  (marked.foldlM (fun st li => c.findSubstitutions li li st) (none, [])).map Prod.snd

end SubCommand

/-! ## The buffer -/

/-- Where the final newline is, or the end of a buffer without one. -/
def finalNewline (b : Bytes) : Nat := b.length - if endsNl b then 1 else 0

/-- What is reached by stepping over units is a boundary. -/
theorem Reaches.isBoundary {p : Nat} (h : Reaches b 0 p) : isBoundary b p = true := by
  by_contra hnot
  simp only [Core.isBoundary, Bool.or_eq_true, not_or, Bool.not_eq_true', Bool.not_eq_false] at hnot
  obtain ⟨-, -, -, j, w, -, hjp, hlead, -, hw, hpast⟩ := insideChar_iff.mp hnot.2
  -- the units before `p` come to the character's first byte, and then pass `p`
  have hover : ∀ i q, Reaches b i q → j < q → q < j + w → i ≤ j → False := by
    intro i q hi hjq hqw hij
    induction hi with
    | refl i => omega
    | @unit i q hlt hrest ih =>
      obtain ⟨-, -, -, hle, -⟩ := hrest.split
      rcases Nat.eq_or_lt_of_le hij with rfl | hbefore
      · rw [unitLen, hw, Option.getD_some] at hle
        omega
      refine ih hjq hqw ?_
      by_contra hin
      cases hc : charLenAt b i with
      | none =>
        rw [unitLen, hc, Option.getD_none] at hin
        omega
      | some w' =>
        rw [unitLen, hc, Option.getD_some] at hin
        obtain ⟨-, -, -, -, hcont⟩ := charLenAt_spec hc
        rw [hcont j hbefore (by omega)] at hlead
        cases hlead
  exact hover 0 p h hjp hpast (Nat.zero_le j)

/-- A text that ends in a newline has a hay that does. -/
theorem Hay.new_newline (front : Bytes) :
    ∃ text, (Hay.new (front ++ [newline])).text = text ++ [newline] ∧
      (Hay.new (front ++ [newline])).toHay front.length = text.length ∧
      Reaches (front ++ [newline]) 0 front.length := by
  have hget : (front ++ [newline])[front.length]? = some newline := by simp
  have hchar : charLenAt (front ++ [newline]) front.length = some 1 :=
    charLenAt_eq_one.mpr ⟨newline, hget, by decide⟩
  have hlen : (front ++ [newline]).length = front.length + 1 := by simp
  have hbound : isBoundary (front ++ [newline]) front.length = true := by
    by_contra hnot
    simp only [isBoundary, Bool.or_eq_true, not_or, Bool.not_eq_true', Bool.not_eq_false] at hnot
    obtain ⟨-, -, hcont, -⟩ := insideChar_iff.mp hnot.2
    rw [List.getD_eq_getElem?_getD, hget] at hcont
    cases hcont
  have hreach := reaches_of_boundary hbound (by omega) (Nat.zero_le _)
  obtain ⟨l, hl, htext, -⟩ := Hay.split_at hreach
  have hlast : units (front ++ [newline]) front.length = [front.length] := by
    rw [units_lt (by omega), units_ge]
    rw [unitLen, hchar, Option.getD_some, hlen]
  have hspell : unitSpelling (front ++ [newline]) front.length = [newline] := by
    rw [unitSpelling, hchar]
    exact (slice_append_right front [newline] 1)
  refine ⟨l.flatMap (unitSpelling (front ++ [newline])), ?_, htext, hreach⟩
  rw [(Hay.new_text _).1, hl, List.flatMap_append, hlast, List.flatMap_singleton, hspell]

theorem boundary_of_slice (hij : i ≤ j) (hi : IsCharBoundary b i) (hj : IsCharBoundary b j)
    (hh : IsCharBoundary (slice b i j) h) : IsCharBoundary b (i + h) := by
  have hlen := slice_length hij hj.le
  rcases hh with rfl | rfl | ⟨hlt, hlead⟩
  · exact hi
  · rwa [hlen, Nat.add_sub_cancel' hij]
  · have hle := hj.le
    refine .inr (.inr ⟨by omega, ?_⟩)
    have hget : (slice b i j).getD h 0 = b.getD (i + h) 0 := by
      rw [List.getD_eq_getElem?_getD, List.getD_eq_getElem?_getD, slice,
        List.getElem?_take_of_lt (by omega), List.getElem?_drop]
    rwa [hget] at hlead

theorem Scans.append_right (h : Scans b i j) (t : Bytes) :
    Scans (b ++ t) i j := by
  induction h with
  | refl i => exact .refl i
  | char hw _ ih =>
    have hle := charLenAt_le hw
    exact .char (charLenAt_same hw fun k hk => List.getElem?_append_left (by omega)) ih

theorem strSlice_some {s : Bytes} (hij : i ≤ j) (hi : IsCharBoundary s i) (hj : IsCharBoundary s j) :
    strSlice s i j = some (slice s i j) := if_pos ⟨hij, hi, hj⟩

namespace SubCommand

variable (c : SubCommand)

/-! ## The lines -/

def ls : List Bytes := rows c.buf.text

theorem text_rows : Rows c.buf.text c.ls (endsNl c.buf.text) := rows_spec _

theorem ls_ne_nil : c.ls ≠ [] := by
  cases htext : c.buf.text with
  | nil =>
    rw [ls, htext]
    decide
  | cons x xs => exact c.text_rows.ne_nil (by rw [htext]; exact List.cons_ne_nil x xs)

theorem lines_eq : c.lines = spansAt 0 c.ls := by
  cases htext : c.buf.text with
  | nil =>
    rw [ls, lines, htext]
    decide
  | cons x xs => exact c.text_rows.lineSpans (by rw [htext]; exact List.cons_ne_nil x xs)

theorem lines_length : c.lines.length = c.ls.length := by
  rw [lines_eq, spansAt_length]

theorem hay_eq : c.hay = terminated c.ls := by
  have h := c.text_rows.text
  unfold hay
  split <;> rename_i hend
  · rwa [hend, if_pos rfl, List.append_nil] at h
  · rwa [Bool.not_eq_true _ |>.mp hend, if_neg (by simp)] at h

theorem hay_rows : Rows c.hay c.ls true :=
  ⟨by rw [if_pos rfl, List.append_nil, hay_eq], c.text_rows.clean, fun h => by cases h⟩

theorem hay_length : c.hay.length = startAt c.ls c.ls.length := by
  rw [hay_eq, startAt_length]

/-- Where line `i` ends. -/
def stopAt (i : Nat) : Nat := startAt c.ls (i + 1) - 1

theorem lines_getElem? (hi : i < c.ls.length) :
    c.lines[i]? = some (startAt c.ls i, c.stopAt i) := by
  have hl := List.getElem?_eq_getElem hi
  rw [lines_eq, spansAt_getElem? 0 hl, Nat.zero_add, stopAt, startAt_succ hl, Nat.add_sub_cancel]

/-- A line stops before its line break, and the next line starts after it. -/
theorem stopAt_spec (hi : i < c.ls.length) : startAt c.ls i ≤ c.stopAt i ∧
    c.stopAt i + 1 = startAt c.ls (i + 1) ∧ c.stopAt i < c.hay.length ∧
    c.hay[c.stopAt i]? = some newline := by
  have hl := List.getElem?_eq_getElem hi
  have hend := startAt_mono c.ls (show i + 1 ≤ c.ls.length from hi)
  have hnl := (c.hay_rows.line_le hl).2
  rw [← hay_length] at hend
  rw [stopAt, startAt_succ hl, Nat.add_sub_cancel] at *
  exact ⟨by omega, rfl, by omega, hnl (by omega)⟩

/-- The line of a place in the hay holds it. -/
theorem lineOf_spec (hpos : pos < c.hay.length) : c.lineOf pos < c.ls.length ∧
    startAt c.ls (c.lineOf pos) ≤ pos ∧ pos < startAt c.ls (c.lineOf pos + 1) := by
  rw [hay_length] at hpos
  obtain ⟨i, l, hi, hl, hlo, hhi⟩ := exists_line (Nat.le_refl _) hpos
  have hstarts : c.lines.map Prod.fst = (List.range c.ls.length).map (startAt c.ls) := by
    refine List.ext_getElem? fun k => ?_
    rcases Nat.lt_or_ge k c.ls.length with hk | hk
    · rw [List.getElem?_map, c.lines_getElem? hk, List.getElem?_map, List.getElem?_range hk]
      rfl
    · rw [List.getElem?_eq_none (by simpa [lines_length] using hk),
        List.getElem?_eq_none (by simpa using hk)]
  have hcount : (c.lines.takeWhile fun l => l.1 ≤ pos).length = i + 1 := by
    rw [← takeWhile_startAt hl (Nat.le_refl _) hi hlo hhi, ← hstarts, List.takeWhile_map,
      List.length_map]
    rfl
  have hline : c.lineOf pos = i := by
    rw [lineOf, if_neg (by rw [hay_length]; omega), hcount, Nat.add_sub_cancel]
  rw [hline, startAt_succ hl]
  exact ⟨hi, hlo, by omega⟩

theorem lineOf_end (hpos : c.hay.length ≤ pos) : c.lineOf pos = c.ls.length := by
  rw [lineOf, if_pos hpos, lines_length]

theorem lineOf_eq (hi : i < c.ls.length) (hlo : startAt c.ls i ≤ pos)
    (hhi : pos < startAt c.ls (i + 1)) : c.lineOf pos = i := by
  have hend := startAt_mono c.ls (show i + 1 ≤ c.ls.length from hi)
  have hpos : pos < c.hay.length := by rw [hay_length]; omega
  obtain ⟨hlt, hlo', hhi'⟩ := c.lineOf_spec hpos
  by_contra hne
  rcases Nat.lt_or_gt_of_ne hne with hbelow | habove
  · have := startAt_mono c.ls (show c.lineOf pos + 1 ≤ i from hbelow)
    omega
  · have := startAt_mono c.ls (show i + 1 ≤ c.lineOf pos from habove)
    omega

/-! ## The text searched -/

theorem text_valid : ValidUtf8 c.buf.text := Hay.new_valid c.b

theorem hay_length_text : c.hay.length = c.buf.text.length + if endsNl c.buf.text then 0 else 1 := by
  unfold hay
  split <;> simp

theorem hay_valid : ValidUtf8 c.hay := by
  unfold hay
  split
  · exact c.text_valid
  · rw [validUtf8_iff, List.length_append, List.length_singleton]
    have hchar : charLenAt (c.buf.text ++ [newline]) c.buf.text.length = some 1 :=
      charLenAt_eq_one.mpr ⟨newline, by simp, by decide⟩
    exact ((validUtf8_iff.mp c.text_valid).append_right _).trans (.char hchar (.refl _))

theorem stopAt_boundary (hi : i < c.ls.length) : IsCharBoundary c.hay (c.stopAt i) := by
  obtain ⟨-, -, hlt, hnl⟩ := c.stopAt_spec hi
  exact .inr (.inr ⟨hlt, by rw [List.getD_eq_getElem?_getD, hnl]; rfl⟩)

theorem last_boundary : IsCharBoundary c.hay (c.hay.length - 1) := by
  have hpos := List.length_pos_iff.mpr c.ls_ne_nil
  have hstop := c.stopAt_boundary (i := c.ls.length - 1) (by omega)
  rwa [stopAt, Nat.sub_add_cancel hpos, ← hay_length] at hstop

theorem startAt_boundary (hi : i ≤ c.ls.length) : IsCharBoundary c.hay (startAt c.ls i) := by
  have hle := startAt_mono c.ls hi
  rw [← hay_length] at hle
  refine Regex.boundary_of_startsLine c.hay_valid ?_ hle
  cases i with
  | zero => exact .inl rfl
  | succ j => exact .inr (c.stopAt_spec (show j < c.ls.length by omega)).2.2.2

/-- A boundary of the text searched, but for its end, is one of the haystack. -/
theorem boundary_text (hh : IsCharBoundary c.hay h) (hlt : h < c.hay.length) :
    IsCharBoundary c.buf.text h := by
  have hlen := c.hay_length_text
  unfold hay at hh
  split at hh <;> rename_i hend
  · exact hh
  rw [if_neg hend] at hlen
  rcases hh with hz | hl | ⟨-, hlead⟩
  · exact .inl hz
  · rw [List.length_append, List.length_singleton] at hl
    omega
  · rcases Nat.lt_or_ge h c.buf.text.length with hin | hge
    · rw [List.getD_eq_getElem?_getD, List.getElem?_append_left hin, ← List.getD_eq_getElem?_getD] at hlead
      exact .inr (.inr ⟨hin, hlead⟩)
    · exact .inr (.inl (by omega))

/-! ## Offsets in the buffer -/

/-- The offset in the buffer of a place of the text. -/
def place (h : Nat) : Nat := (c.buf.toBuf h).getD 0

theorem place_spec (hh : IsCharBoundary c.hay h) (hlt : h < c.hay.length) :
    c.buf.toBuf h = some (c.place h) ∧ Reaches c.b 0 (c.place h) ∧ c.buf.toHay (c.place h) = h := by
  obtain ⟨p, hp, hreach, hto⟩ := Hay.toBuf_boundary (c.boundary_text hh hlt)
  have hplace : c.place h = p := by
    rw [place, show c.buf.toBuf h = some p from hp, Option.getD_some]
  rw [hplace]
  exact ⟨hp, hreach, hto⟩

theorem place_le {k : Nat} (hh : IsCharBoundary c.hay h) (hk : IsCharBoundary c.hay k) (hhk : h ≤ k)
    (hlt : k < c.hay.length) : c.place h ≤ c.place k := by
  obtain ⟨-, -, hto⟩ := c.place_spec hh (by omega)
  obtain ⟨-, -, hto'⟩ := c.place_spec hk hlt
  exact Hay.le_of_toHay_le (by rw [hto, hto']; exact hhk)

theorem place_lt {k : Nat} (hh : IsCharBoundary c.hay h) (hk : IsCharBoundary c.hay k) (hhk : h < k)
    (hlt : k < c.hay.length) : c.place h < c.place k := by
  obtain ⟨-, -, hto⟩ := c.place_spec hh (by omega)
  obtain ⟨-, -, hto'⟩ := c.place_spec hk hlt
  rcases Nat.eq_or_lt_of_le (c.place_le hh hk (Nat.le_of_lt hhk) hlt) with heq | hlt
  · rw [heq, hto'] at hto
    omega
  · exact hlt

/-- A place before the last line break is a boundary of the buffer, and not past the final
newline. -/
theorem place_inside (hh : IsCharBoundary c.hay h) (hlt : h < c.hay.length) :
    isBoundary c.b (c.place h) = true ∧ c.place h ≤ finalNewline c.b := by
  obtain ⟨-, hreach, hto⟩ := c.place_spec hh hlt
  refine ⟨hreach.isBoundary, ?_⟩
  have hle := hreach.le_length (Nat.zero_le _)
  unfold finalNewline
  split <;> rename_i hend
  · obtain ⟨front, hfront⟩ : ∃ front, c.b = front ++ [newline] :=
      List.getLast?_eq_some_iff.mp (by simpa [endsNl] using hend)
    obtain ⟨text, htext, hlast, -⟩ := Hay.new_newline front
    have hlen := c.hay_length_text
    rw [buf, hfront, htext, endsNl_append, if_pos rfl, List.length_append] at hlen
    rw [buf, hfront] at hto
    have hfinal : c.place h ≤ front.length := Hay.le_of_toHay_le (by rw [hto, hlast]; simp at hlen; omega)
    rw [hfront, List.length_append, List.length_singleton]
    omega
  · omega

end SubCommand

end Ruse.Core
