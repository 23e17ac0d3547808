import Ruse.Core.LineAddr
import Ruse.Core.SortSafe
import Ruse.Lib.Loop
import Ruse.Lib.StableSort

/-!
# Line commands that rewrite lines

The models of `put_lines`, `read_lines`, `filter_lines` and `sort_lines` of
`editor/mod.rs`. Each takes the buffer apart into lines, splices a range of them, joins
them again and commits the difference as one edit (`LinesEdit.of`); a command without
an edit is `none`.

What the line model says of them is `lineCommands_text`. The final newline is put back
only after a text that is not empty (`newText`), so a result that is one empty line loses
its newline. A sort whose keys are not all read (`KeysFit`) does not return
(`sort_keys_read`).
-/

namespace Ruse.Core

variable {F : Type} {opts : SortOptions} {env : SortEnv F} {re : Option Regex} {seg : List Bytes}

/-! ## The commands -/

/-- The lines of the buffer; an empty one has none. -/
def bufLines (b : Bytes) : List Bytes := if b = [] then [] else rows b

/-- The new text of a buffer: the lines, and a final newline if it had one. -/
def newText (b : Bytes) (lines : List Bytes) : Bytes :=
  let new := joinLines lines
  if endsNl b ∧ new ≠ [] then new ++ [newline] else new

/-- What a line command does: its edit, where the cursor's line starts in the new text,
how many lines it reports, and where an undo leaves the cursor. -/
structure LinesEdit where
  edit : Edit
  lineStart : Nat
  count : Nat
  undoCursor : Option Nat
deriving DecidableEq

def LinesEdit.of (b : Bytes) (lines : List Bytes) (target count : Nat) (undoCursor : Option Nat) :
    LinesEdit :=
  let new := newText b lines
  ⟨Edit.linesChanged b new, min (nthLineStart new target) new.length, count, undoCursor⟩

/-- Put `text` as whole lines after the addressed line, with the cursor on the last of
them or on the first. -/
def insertLines (b : Bytes) (cursorLine : Nat) (addr : LineAddr) (text : Bytes) (onLast : Bool) :
    Option LinesEdit :=
  if text = [] then none
  else
    let insLines := rows text
    if insLines = [] then none
    else
      let lines := bufLines b
      match addr.insertIndex cursorLine lines.length with
      | none => none
      | some ins =>
        let count := insLines.length
        some (.of b (lines.take ins ++ insLines ++ lines.drop ins)
          (if onLast then ins + count - 1 else ins) count none)

def putLines (registers : RegisterStore) (b : Bytes) (cursorLine : Nat) (addr : LineAddr)
    (reg : Option Char) : Option LinesEdit :=
  insertLines b cursorLine addr (registers.get reg).text true

def readLines (b : Bytes) (cursorLine : Nat) (addr : LineAddr) (text : Bytes)
    (cursorOnLast : Bool) : Option LinesEdit :=
  insertLines b cursorLine addr text cursorOnLast

def outLines (text : Bytes) : List Bytes := if text = [] then [] else rows text

/-- The range, inside `nlines` lines. -/
def clampRange (range : SubRange) (b : Bytes) (cursorLine nlines : Nat) : Nat × Nat :=
  let (first, last) := range.resolve (lineSpans b).length cursorLine
  let last := min last (nlines - 1)
  (min first last, last)

def filterLines (b : Bytes) (cursorLine : Nat) (range : SubRange) (text : Bytes) : Option LinesEdit :=
  let lines := bufLines b
  if lines.length = 0 then none
  else
    let (first, last) := clampRange range b cursorLine lines.length
    let spliced := lines.take first ++ outLines text ++ lines.drop (last + 1)
    some (.of b spliced (min first (spliced.length - 1)) (last - first + 1)
      (((lineSpans b)[last]?).map Prod.fst))

/-- Whether `u` takes two lines for equal. -/
def SortsEqual (opts : SortOptions) (a b : Bytes) : Prop :=
  if opts.ignoreCase then a.map asciiLower = b.map asciiLower else a = b

instance (opts : SortOptions) (a b : Bytes) : Decidable (SortsEqual opts a b) :=
  inferInstanceAs (Decidable (if opts.ignoreCase = true then a.map asciiLower = b.map asciiLower
    else a = b))

/-- The sorted lines under `!` and `u`. -/
def arrange (opts : SortOptions) (sorted : List Bytes) : List Bytes :=
  let seg := if opts.reverse then sorted.reverse else sorted
  if opts.unique then seg.destutter fun a b => ¬ SortsEqual opts a b else seg

/-- The range sorted; `none` is a slice inside a character of a key. -/
def sortSegment (env : SortEnv F) (opts : SortOptions) (re : Option Regex) (block : List Bytes) :
    Option (List Bytes) :=
  (block.mapM fun line => (readKey env.floats opts re line).map fun key => (key, line)).map fun keyed =>
    arrange opts ((keyed.mergeSort fun a b => (a.1.compare env b.1).isLE).map Prod.snd)

/-- `sort_lines`; the error is a pattern that does not compile. -/
def sortLines (env : SortEnv F) (opts : SortOptions) (b : Bytes) (cursorLine : Nat)
    (range : SubRange) : Option (Except Unit (Option LinesEdit)) :=
  let lines := bufLines b
  if lines = [] then some (.ok none)
  else
    let (first, last) := clampRange range b cursorLine lines.length
    if first = last then some (.ok none)
    else
      match opts.pattern.map env.compile with
      | some none => some (.error ())
      | re =>
        (sortSegment env opts (re.getD none) ((lines.take (last + 1)).drop first)).map fun seg =>
          .ok (some (.of b (lines.take first ++ seg ++ lines.drop (last + 1)) first
            ((last - first + 1) - seg.length) none))

/-! ## The text a command leaves -/

/-- The edit is accepted and takes `b` to `new`. -/
def Makes (b : Bytes) (e : Edit) (new : Bytes) : Prop :=
  ∃ l, EditList.new [e] = .ok l ∧ l.InBounds b.length ∧ l.applyTo b = new

theorem makes_linesChanged {b new new' : Bytes} : Makes b (Edit.linesChanged b new) new' ↔ new = new' := by
  constructor
  · rintro ⟨l, hl, -, rfl⟩
    exact (linesChanged_applyTo hl).2.symm
  · rintro rfl
    obtain ⟨l, hl⟩ := EditList.new_single (Edit.linesChanged b new)
    obtain ⟨hin, happly⟩ := linesChanged_applyTo hl
    exact ⟨l, hl, hin, happly⟩

theorem newText_eq_terminated {b : Bytes} (hnl : endsNl b = true) (lines : List Bytes) :
    newText b lines = terminated lines ↔ lines ≠ [[]] := by
  unfold newText
  rw [hnl]
  constructor
  · rintro h rfl
    exact absurd h (by decide)
  · intro hne
    by_cases hnil : lines = []
    · subst hnil
      rfl
    · rw [if_pos ⟨rfl, mt (joinLines_eq_nil hnil) hne⟩, joinLines_append hnil]

theorem newText_eq_nil {b : Bytes} : newText b [[]] = [] := by
  unfold newText
  rw [if_neg]
  · rfl
  · rintro ⟨-, h⟩
    exact h rfl

section Terminated

variable {b : Bytes} (hnl : endsNl b = true)
include hnl

theorem ne_nil_of_endsNl : b ≠ [] := by
  rintro rfl
  cases hnl

theorem bufLines_eq : bufLines b = rows b := if_neg (ne_nil_of_endsNl hnl)

theorem terminated_rows : terminated (rows b) = b := by
  have h := (rows_spec b).text'
  rw [hnl, lastBreak, if_pos rfl, List.append_nil] at h
  exact h.symm

theorem rows_length_pos : 0 < (rows b).length :=
  List.length_pos_iff.mpr ((rows_spec b).ne_nil (ne_nil_of_endsNl hnl))

theorem clampRange_eq (range : SubRange) (cursorLine : Nat) :
    clampRange range b cursorLine (bufLines b).length = range.resolve (rows b).length cursorLine := by
  have hspans : (lineSpans b).length = (rows b).length := by
    rw [(rows_spec b).lineSpans (ne_nil_of_endsNl hnl), spansAt_length]
  have hresolve := range.resolve_spec (rows_length_pos hnl) cursorLine
  unfold clampRange
  rw [hspans, bufLines_eq hnl]
  dsimp only
  rw [Nat.min_eq_left (show _ ≤ (rows b).length - 1 by omega), Nat.min_eq_left hresolve.1]

/-- `:put` and `:r` never lose a newline: two lines at least are left. -/
theorem insertLines_text (cursorLine : Nat) (addr : LineAddr) (text : Bytes) (onLast : Bool) :
    match insertLines b cursorLine addr text onLast with
    | none => text = [] ∨ addr.insertIndex cursorLine (rows b).length = none
    | some out => ∃ ins, addr.insertIndex cursorLine (rows b).length = some ins ∧
        Makes b out.edit (terminated ((rows b).take ins ++ rows text ++ (rows b).drop ins)) := by
  unfold insertLines
  rw [bufLines_eq hnl]
  by_cases htext : text = []
  · rw [if_pos htext]
    exact .inl htext
  have hsome := (rows_spec text).ne_nil htext
  rw [if_neg htext, if_neg hsome]
  dsimp only
  cases hins : addr.insertIndex cursorLine (rows b).length with
  | none => exact .inr rfl
  | some ins =>
    refine ⟨ins, rfl, makes_linesChanged.mpr ((newText_eq_terminated hnl _).mpr fun hone => ?_)⟩
    have hlen := congrArg List.length hone
    have hbuf := rows_length_pos hnl
    have hpos := List.length_pos_iff.mpr hsome
    simp only [List.length_append, List.length_take, List.length_drop, List.length_singleton] at hlen
    omega

omit hnl in
theorem outLines_eq_nil {text : Bytes} : outLines text = [] ↔ text = [] := by
  unfold outLines
  by_cases htext : text = []
  · simp [htext]
  · simp [htext, (rows_spec text).ne_nil htext]

omit hnl in
theorem outLines_eq_blank {text : Bytes} : outLines text = [[]] ↔ text = [newline] := by
  constructor
  · intro h
    have htext : text ≠ [] := mt outLines_eq_nil.mpr (by rw [h]; simp)
    rw [outLines, if_neg htext] at h
    have hrows := (rows_spec text).text'
    rw [h] at hrows
    cases hend : endsNl text with
    | true => rwa [hend, lastBreak, if_pos rfl, List.append_nil] at hrows
    | false =>
      rw [hend] at hrows
      exact absurd (List.append_cancel_right hrows) htext
  · rintro rfl
    decide

/-- What of the buffer is outside a range is nothing only for the range of all its lines. -/
theorem outside_eq_nil (first : Nat) {last : Nat} (hl : last < (rows b).length) :
    (rows b).take first ++ (rows b).drop (last + 1) = [] ↔ first = 0 ∧ last + 1 = (rows b).length := by
  have hpos := List.length_pos_iff.mp (rows_length_pos hnl)
  rw [List.append_eq_nil_iff, List.take_eq_nil_iff, List.drop_eq_nil_iff]
  simp only [hpos, or_false]
  omega

/-- A filter loses the newline of a result that is one empty line, and of no other. -/
theorem filterLines_text (cursorLine : Nat) (range : SubRange) (text : Bytes) {first last : Nat}
    (hrange : range.resolve (rows b).length cursorLine = (first, last)) :
    ∃ out, filterLines b cursorLine range text = some out ∧
      (Makes b out.edit
          (terminated ((rows b).take first ++ outLines text ++ (rows b).drop (last + 1))) ↔
        ¬ (first = 0 ∧ last + 1 = (rows b).length ∧ text = [newline] ∨
          text = [] ∧ (rows b).take first ++ (rows b).drop (last + 1) = [[]])) := by
  have hpos := rows_length_pos hnl
  have hresolve := range.resolve_spec hpos cursorLine
  rw [hrange] at hresolve
  have hclamp := clampRange_eq hnl range cursorLine
  rw [hrange, bufLines_eq hnl] at hclamp
  unfold filterLines
  rw [bufLines_eq hnl]
  rw [if_neg (by omega), hclamp]
  refine ⟨_, rfl, makes_linesChanged.trans ((newText_eq_terminated hnl _).trans (not_congr ?_))⟩
  have hout := outside_eq_nil hnl first hresolve.2
  rw [← and_assoc, ← hout, ← outLines_eq_blank, ← outLines_eq_nil]
  generalize (rows b).take first = pre
  generalize (rows b).drop (last + 1) = post
  constructor
  · intro h
    cases hlines : outLines text with
    | nil =>
      rw [hlines, List.append_nil] at h
      exact .inr ⟨rfl, h⟩
    | cons l ls =>
      rw [hlines] at h
      have hlen := congrArg List.length h
      simp only [List.length_append, List.length_cons, List.length_nil] at hlen
      obtain rfl : pre = [] := List.eq_nil_of_length_eq_zero (by omega)
      obtain rfl : post = [] := List.eq_nil_of_length_eq_zero (by omega)
      rw [List.nil_append, List.append_nil] at h
      exact .inl ⟨rfl, h⟩
  · rintro (⟨hnone, hone⟩ | ⟨hnone, hone⟩)
    · obtain ⟨rfl, rfl⟩ := List.append_eq_nil_iff.mp hnone
      rw [hone]
      rfl
    · rw [hnone, List.append_nil, hone]

end Terminated

/-! ## The sort -/

/-- `seg` is `block` sorted stably by the keys, then reversed and rid of equal neighbours
as the options say. -/
def SortedSegment (env : SortEnv F) (opts : SortOptions) (re : Option Regex)
    (block seg : List Bytes) : Prop :=
  ∃ sorted, Ruse.Lib.StablySorted (compareLines env opts re) block sorted ∧ seg = arrange opts sorted

/-- With keys that fit, the segment is the stable sort by the comparison. -/
theorem sortSegment_eq (env : SortEnv F) {opts : SortOptions} {re : Option Regex}
    {block : List Bytes} (hfit : KeysFit opts re block) : sortSegment env opts re block =
      some (arrange opts (block.mergeSort fun a b => (compareLines env opts re a b).isLE)) := by
  let key (line : Bytes) : SortKey := (readKey env.floats opts re line).getD (.text line)
  have hkey : ∀ line ∈ block, readKey env.floats opts re line = some (key line) := by
    intro line hline
    obtain ⟨k, hk⟩ := Option.isSome_iff_exists.mp ((keysFit_iff env.floats opts re block).mp hfit line hline)
    simp only [key, hk, Option.getD_some]
  have hkeyed : (block.mapM fun line => (readKey env.floats opts re line).map fun k => (k, line)) =
      some (block.map fun line => (key line, line)) :=
    Ruse.Lib.mapM_some fun line hline => by rw [hkey line hline, Option.map_some]
  have hsort : ((block.map fun line => (key line, line)).mergeSort
      fun a b => (a.1.compare env b.1).isLE).map Prod.snd =
        block.mergeSort fun a b => (compareLines env opts re a b).isLE := by
    have hmap := List.map_mergeSort (f := fun line => (key line, line)) (l := block)
      (r := fun a b => (compareLines env opts re a b).isLE)
      (s := fun a b => (a.1.compare env b.1).isLE)
      fun a ha b hb => by simp only [compareLines, hkey a ha, hkey b hb]
    rw [← hmap, List.map_map]
    exact List.map_id _
  rw [sortSegment, hkeyed, Option.map_some, hsort]

/-- A block is sorted when its keys are read. -/
theorem sortSegment_isSome (env : SortEnv F) (opts : SortOptions) (re : Option Regex)
    (block : List Bytes) : (sortSegment env opts re block).isSome = true ↔ KeysFit opts re block := by
  rw [sortSegment, Option.isSome_map, Ruse.Lib.mapM_isSome, keysFit_iff env.floats]
  simp only [Option.isSome_map]

theorem sortSegment_spec (env : SortEnv F) {opts : SortOptions} {re : Option Regex}
    {block : List Bytes} (hfit : KeysFit opts re block) :
    ∃ seg, sortSegment env opts re block = some seg ∧ SortedSegment env opts re block seg :=
  ⟨_, sortSegment_eq env hfit, _, Ruse.Lib.stablySorted_mergeSort _ block, rfl⟩

theorem arrange_forward (h : opts.reverse = false) (l : List Bytes) :
    arrange opts l = if opts.unique then l.destutter fun a b => ¬ SortsEqual opts a b else l := by
  unfold arrange
  rw [h]
  rfl

/-- A block sorted forwards is left as it is. -/
theorem sortSegment_again (hforward : opts.reverse = false) {block : List Bytes}
    (hfit : KeysFit opts re block) :
    ∃ seg, sortSegment env opts re block = some seg ∧ sortSegment env opts re seg = some seg := by
  have hsub (l : List Bytes) : (arrange opts l).Sublist l := by
    rw [arrange_forward hforward]
    split
    · exact List.destutter_sublist _ _
    · exact .refl l
  have hsorted := Ruse.Lib.stablySorted_mergeSort (compareLines env opts re) block
  -- the lines that are left have the keys they had
  have hfit' : KeysFit opts re (arrange opts
      (block.mergeSort fun a b => (compareLines env opts re a b).isLE)) :=
    fun hfloat line hline => hfit hfloat line (hsorted.perm.mem_iff.mp ((hsub _).subset hline))
  refine ⟨_, sortSegment_eq env hfit, ?_⟩
  rw [sortSegment_eq env hfit', List.mergeSort_of_pairwise (hsorted.ordered.sublist (hsub _)),
    arrange_forward hforward, arrange_forward hforward]
  split
  · rw [List.destutter_idem]
  · rfl

/-- `:sort` again changes nothing, under all options but `!`, which turns the lines with equal
keys round each time. -/
theorem sort_again (env : SortEnv F) (opts : SortOptions) (re : Option Regex) (block : List Bytes) :
    (∃ seg, sortSegment env { opts with reverse := false } re block = some seg ∧
      sortSegment env { opts with reverse := false } re seg = some seg) ↔ KeysFit opts re block := by
  constructor
  · rintro ⟨seg, hseg, -⟩
    exact (sortSegment_isSome env { opts with reverse := false } re block).mp (by rw [hseg]; rfl)
  · intro hfit
    have hforward : KeysFit { opts with reverse := false } re block := hfit
    exact sortSegment_again rfl hforward

theorem sortsEqual_nil {l : Bytes} : SortsEqual opts [] l ↔ l = [] := by
  unfold SortsEqual
  split
  · rw [List.map_nil, eq_comm, List.map_eq_nil_iff]
  · exact eq_comm

/-- The arranged lines are one empty line when all of them are empty and one is kept. -/
theorem arrange_eq_blank {sorted : List Bytes} :
    arrange opts sorted = [[]] ↔
      sorted ≠ [] ∧ (opts.unique = true ∨ sorted.length = 1) ∧ ∀ l ∈ sorted, l = [] := by
  have key : ∀ seg : List Bytes,
      (if opts.unique then seg.destutter fun a b => ¬ SortsEqual opts a b else seg) = [[]] ↔
        seg ≠ [] ∧ (opts.unique = true ∨ seg.length = 1) ∧ ∀ l ∈ seg, l = [] := by
    intro seg
    cases seg with
    | nil => simp
    | cons a l =>
      by_cases hu : opts.unique = true
      · rw [if_pos hu, List.destutter_cons', Ruse.Lib.destutter'_eq_singleton]
        constructor
        · rintro ⟨rfl, hl⟩
          exact ⟨by simp, .inl hu, by simpa [sortsEqual_nil] using hl⟩
        · rintro ⟨-, -, hall⟩
          obtain rfl := hall a List.mem_cons_self
          exact ⟨rfl, fun x hx => by simp [sortsEqual_nil, hall x (List.mem_cons_of_mem _ hx)]⟩
      · rw [if_neg hu]
        constructor
        · intro h
          rw [h]
          simp
        · rintro ⟨-, hone, hall⟩
          have hlen : l = [] := by simpa [hu] using hone
          rw [hlen, hall a List.mem_cons_self]
  unfold arrange
  rw [key]
  split
  · simp [List.reverse_eq_nil_iff]
  · rfl

theorem arrange_ne_nil {sorted : List Bytes} (h : sorted ≠ []) :
    arrange opts sorted ≠ [] := by
  unfold arrange
  split <;> split <;> simpa [List.destutter_eq_nil] using h

theorem SortedSegment.ne_nil {block : List Bytes} (h : SortedSegment env opts re block seg)
    (hne : block ≠ []) : seg ≠ [] := by
  obtain ⟨sorted, hsorted, rfl⟩ := h
  refine arrange_ne_nil fun hnil => hne ?_
  have := hsorted.perm
  rw [hnil] at this
  exact this.nil_eq.symm

/-- A sorted segment is one empty line when the lines are empty and one is kept. -/
theorem SortedSegment.eq_blank {block : List Bytes} (h : SortedSegment env opts re block seg)
    (hmany : 1 < block.length) :
    seg = [[]] ↔ opts.unique = true ∧ ∀ l ∈ block, l = [] := by
  obtain ⟨sorted, hsorted, rfl⟩ := h
  have hlen := hsorted.perm.length_eq
  rw [arrange_eq_blank]
  constructor
  · rintro ⟨-, hu, hall⟩
    exact ⟨hu.resolve_right (by omega), fun l hl => hall l (hsorted.perm.mem_iff.mpr hl)⟩
  · rintro ⟨hu, hall⟩
    exact ⟨by rw [← List.length_pos_iff]; omega, .inl hu,
      fun l hl => hall l (hsorted.perm.mem_iff.mp hl)⟩

theorem sortedSegment_single (env : SortEnv F) (opts : SortOptions) (re : Option Regex) (l : Bytes) :
    SortedSegment env opts re [l] [l] := by
  have hsorted := Ruse.Lib.stablySorted_mergeSort (compareLines env opts re) [l]
  rw [List.mergeSort_singleton] at hsorted
  refine ⟨[l], hsorted, ?_⟩
  unfold arrange
  split <;> split <;> simp

section Sorting

variable {b : Bytes} (hnl : endsNl b = true) {first last : Nat} (hfl : first ≤ last)
  (hl : last < (rows b).length)
include hnl hfl hl

omit hnl in
theorem block_length : (((rows b).take (last + 1)).drop first).length = last - first + 1 := by
  rw [List.length_drop, List.length_take]
  omega

/-- A sorted range loses its newline when nothing but empty lines is sorted to one. -/
theorem sorted_text (hmany : first ≠ last)
    (hseg : SortedSegment env opts re (((rows b).take (last + 1)).drop first) seg) :
    (∃ seg', SortedSegment env opts re (((rows b).take (last + 1)).drop first) seg' ∧
        Makes b (Edit.linesChanged b (newText b ((rows b).take first ++ seg ++ (rows b).drop (last + 1))))
          (terminated ((rows b).take first ++ seg' ++ (rows b).drop (last + 1)))) ↔
      ¬ (opts.unique = true ∧ first = 0 ∧ last + 1 = (rows b).length ∧ ∀ l ∈ rows b, l = []) := by
  have hlen := block_length hfl hl
  have hblock : ((rows b).take (last + 1)).drop first ≠ [] := by
    rw [← List.length_pos_iff]
    omega
  have hblank := hseg.eq_blank (by omega)
  have hout := outside_eq_nil hnl first hl
  have hone : (rows b).take first ++ seg ++ (rows b).drop (last + 1) = [[]] ↔
      opts.unique = true ∧ first = 0 ∧ last + 1 = (rows b).length ∧ ∀ l ∈ rows b, l = [] := by
    constructor
    · intro h
      have hpos := List.length_pos_iff.mpr (hseg.ne_nil hblock)
      have hsum := congrArg List.length h
      simp only [List.length_append, List.length_singleton] at hsum
      have hpre : (rows b).take first = [] := List.eq_nil_of_length_eq_zero (by omega)
      have hpost : (rows b).drop (last + 1) = [] := List.eq_nil_of_length_eq_zero (by omega)
      obtain ⟨hfirst, hlast⟩ := hout.mp (by rw [hpre, hpost]; rfl)
      rw [hpre, hpost, List.nil_append, List.append_nil] at h
      obtain ⟨hu, hall⟩ := hblank.mp h
      rw [hlast, List.take_length, hfirst, List.drop_zero] at hall
      exact ⟨hu, hfirst, hlast, hall⟩
    · rintro ⟨hu, hfirst, hlast, hall⟩
      obtain ⟨hpre, hpost⟩ := List.append_eq_nil_iff.mp (hout.mpr ⟨hfirst, hlast⟩)
      rw [hpre, hpost, List.nil_append, List.append_nil]
      exact hblank.mpr ⟨hu, by rwa [hlast, List.take_length, hfirst, List.drop_zero]⟩
  constructor
  · rintro ⟨seg', hseg', hmakes⟩ hbad
    -- the text would be that of no line at all
    rw [makes_linesChanged, hone.mpr hbad, newText_eq_nil] at hmakes
    have hnone := terminated_eq_nil.mp hmakes.symm
    exact hseg'.ne_nil hblock (List.append_eq_nil_iff.mp (List.append_eq_nil_iff.mp hnone).1).2
  · intro hgood
    exact ⟨seg, hseg, makes_linesChanged.mpr ((newText_eq_terminated hnl _).mpr (mt hone.mp hgood))⟩

theorem single_text (hone : first = last) (env : SortEnv F) (opts : SortOptions) (re : Option Regex) :
    ∃ seg, SortedSegment env opts re (((rows b).take (last + 1)).drop first) seg ∧
      terminated ((rows b).take first ++ seg ++ (rows b).drop (last + 1)) = b := by
  have hlen := block_length hfl hl
  subst hone
  obtain ⟨l, hl'⟩ : ∃ l, ((rows b).take (first + 1)).drop first = [l] :=
    List.length_eq_one_iff.mp (by omega)
  refine ⟨[l], hl' ▸ sortedSegment_single env opts re l, ?_⟩
  have hsplit : (rows b).take first ++ ((rows b).take (first + 1)).drop first =
      (rows b).take (first + 1) := by
    have := List.take_append_drop first ((rows b).take (first + 1))
    rwa [List.take_take, Nat.min_eq_left (by omega)] at this
  rw [← hl', hsplit, List.take_append_drop, terminated_rows hnl]

end Sorting

/-- What `sort_lines` comes to: one line stays, a pattern does not compile, or the range is
sorted. -/
theorem sortLines_cases {b : Bytes} {cursorLine first last : Nat} {range : SubRange}
    (env : SortEnv F) (opts : SortOptions)
    (hrange : clampRange range b cursorLine (bufLines b).length = (first, last)) :
    (bufLines b = [] ∨ first = last) ∧ sortLines env opts b cursorLine range = some (.ok none) ∨
    (first ≠ last ∧ ∃ p, opts.pattern = some p ∧ env.compile p = none ∧
      sortLines env opts b cursorLine range = some (.error ())) ∨
    first ≠ last ∧ ∃ re, opts.pattern.map env.compile = re.map some ∧
      sortLines env opts b cursorLine range =
        (sortSegment env opts re (((bufLines b).take (last + 1)).drop first)).map fun seg =>
          .ok (some (.of b ((bufLines b).take first ++ seg ++ (bufLines b).drop (last + 1)) first
            ((last - first + 1) - seg.length) none)) := by
  unfold sortLines
  dsimp only
  rw [hrange]
  dsimp only
  split
  · rename_i hnil
    exact .inl ⟨.inl hnil, rfl⟩
  split
  · rename_i hone
    exact .inl ⟨.inr hone, rfl⟩
  rename_i hone
  cases hp : opts.pattern with
  | none => exact .inr (.inr ⟨hone, none, rfl, rfl⟩)
  | some p =>
    rw [Option.map_some]
    cases hc : env.compile p with
    | none => exact .inr (.inl ⟨hone, p, rfl, hc, rfl⟩)
    | some re => exact .inr (.inr ⟨hone, some re, rfl, rfl⟩)

/-- `:sort u` of nothing but empty lines loses their newline; every other sort that returns ends
in one, and one of more than one line returns when its keys are read. -/
theorem sortLines_text {b : Bytes} (hnl : endsNl b = true) (env : SortEnv F) (opts : SortOptions)
    (cursorLine : Nat) (range : SubRange) {first last : Nat}
    (hrange : range.resolve (rows b).length cursorLine = (first, last)) :
    match sortLines env opts b cursorLine range with
    | none => first ≠ last ∧ ∃ re, opts.pattern.map env.compile = re.map some ∧
        ¬ KeysFit opts re (((rows b).take (last + 1)).drop first)
    | some (.error _) => ∃ p, opts.pattern = some p ∧ env.compile p = none
    | some (.ok none) => first = last ∧ ∀ re, ∃ seg,
        SortedSegment env opts re (((rows b).take (last + 1)).drop first) seg ∧
        terminated ((rows b).take first ++ seg ++ (rows b).drop (last + 1)) = b
    | some (.ok (some out)) => first ≠ last ∧ ∃ re, opts.pattern.map env.compile = re.map some ∧
        KeysFit opts re (((rows b).take (last + 1)).drop first) ∧
        ((∃ seg, SortedSegment env opts re (((rows b).take (last + 1)).drop first) seg ∧
          Makes b out.edit
            (terminated ((rows b).take first ++ seg ++ (rows b).drop (last + 1)))) ↔
          ¬ (opts.unique = true ∧ first = 0 ∧ last + 1 = (rows b).length ∧ ∀ l ∈ rows b, l = [])) := by
  have hpos := rows_length_pos hnl
  have hresolve := range.resolve_spec hpos cursorLine
  rw [hrange] at hresolve
  obtain ⟨hfl, hl⟩ := hresolve
  have hclamp := clampRange_eq hnl range cursorLine
  rw [hrange] at hclamp
  obtain ⟨hnone, hsort⟩ | ⟨-, p, hpat, hc, hsort⟩ | ⟨hone, re, hre, hsort⟩ :=
    sortLines_cases env opts hclamp
  · rw [hsort]
    rw [bufLines_eq hnl] at hnone
    have hone := hnone.resolve_left (List.length_pos_iff.mp hpos)
    exact ⟨hone, single_text hnl hfl hl hone env opts⟩
  · rw [hsort]
    exact ⟨p, hpat, hc⟩
  · rw [hsort, bufLines_eq hnl]
    by_cases hfit : KeysFit opts re (((rows b).take (last + 1)).drop first)
    · obtain ⟨seg, hsome, hseg⟩ := sortSegment_spec env hfit
      rw [hsome, Option.map_some]
      exact ⟨hone, re, hre, hfit, sorted_text hnl hfl hl hone hseg⟩
    · rw [Option.not_isSome_iff_eq_none.mp fun h => hfit ((sortSegment_isSome env opts re _).mp h),
        Option.map_none]
      exact ⟨hone, re, hre, hfit⟩

/-- `:put`, `:r`, filters and `:sort` of a buffer that ends in a newline: every line of the
result has its newline, unless a filter or `:sort u` leaves one empty line of the whole
buffer. A sort of more than one line returns exactly when its keys are read. -/
theorem lineCommands_text {b : Bytes} (hnl : endsNl b = true) (cursorLine : Nat) :
    (∀ registers addr reg,
      match putLines registers b cursorLine addr reg with
      | none => (registers.get reg).text = [] ∨ addr.insertIndex cursorLine (rows b).length = none
      | some out => ∃ ins, addr.insertIndex cursorLine (rows b).length = some ins ∧
          Makes b out.edit (terminated
            ((rows b).take ins ++ rows (registers.get reg).text ++ (rows b).drop ins))) ∧
    (∀ addr text onLast,
      match readLines b cursorLine addr text onLast with
      | none => text = [] ∨ addr.insertIndex cursorLine (rows b).length = none
      | some out => ∃ ins, addr.insertIndex cursorLine (rows b).length = some ins ∧
          Makes b out.edit (terminated ((rows b).take ins ++ rows text ++ (rows b).drop ins))) ∧
    ∀ range first last, range.resolve (rows b).length cursorLine = (first, last) →
      (∀ text, ∃ out, filterLines b cursorLine range text = some out ∧
        (Makes b out.edit
            (terminated ((rows b).take first ++ outLines text ++ (rows b).drop (last + 1))) ↔
          ¬ (first = 0 ∧ last + 1 = (rows b).length ∧ text = [newline] ∨
            text = [] ∧ (rows b).take first ++ (rows b).drop (last + 1) = [[]]))) ∧
      ∀ (F : Type) (env : SortEnv F) opts,
        match sortLines env opts b cursorLine range with
        | none => first ≠ last ∧ ∃ re, opts.pattern.map env.compile = re.map some ∧
            ¬ KeysFit opts re (((rows b).take (last + 1)).drop first)
        | some (.error _) => ∃ p, opts.pattern = some p ∧ env.compile p = none
        | some (.ok none) => first = last ∧ ∀ re, ∃ seg,
            SortedSegment env opts re (((rows b).take (last + 1)).drop first) seg ∧
            terminated ((rows b).take first ++ seg ++ (rows b).drop (last + 1)) = b
        | some (.ok (some out)) => first ≠ last ∧ ∃ re, opts.pattern.map env.compile = re.map some ∧
            KeysFit opts re (((rows b).take (last + 1)).drop first) ∧
            ((∃ seg, SortedSegment env opts re (((rows b).take (last + 1)).drop first) seg ∧
              Makes b out.edit
                (terminated ((rows b).take first ++ seg ++ (rows b).drop (last + 1)))) ↔
              ¬ (opts.unique = true ∧ first = 0 ∧ last + 1 = (rows b).length ∧
                ∀ l ∈ rows b, l = [])) :=
  ⟨fun registers addr reg => insertLines_text hnl cursorLine addr (registers.get reg).text true,
    fun addr text onLast => insertLines_text hnl cursorLine addr text onLast,
    fun range _ _ hrange => ⟨fun text => filterLines_text hnl cursorLine range text hrange,
      fun _ env opts => sortLines_text hnl env opts cursorLine range hrange⟩⟩

/-- The line `b` read below the line `a`. -/
theorem lineCommands_text_read : ∃ out, readLines [0x61, 0x0A] 0 .last [0x62] true = some out ∧
    Makes [0x61, 0x0A] out.edit [0x61, 0x0A, 0x62, 0x0A] := by
  have h := (lineCommands_text (b := [0x61, 0x0A]) (by decide) 0).2.1 .last [0x62] true
  obtain ⟨ins, hins, hmakes⟩ := h
  cases hins
  exact ⟨_, rfl, hmakes⟩

/-- A filter of the line `a` that puts out one empty line leaves no line at all. -/
theorem filterLines_blank : ∃ out, filterLines [0x61, 0x0A] 0 .wholeFile [0x0A] = some out ∧
    Makes [0x61, 0x0A] out.edit [] ∧ outLines [0x0A] = [[]] ∧
    ¬ Makes [0x61, 0x0A] out.edit
      (terminated ((rows [0x61, 0x0A]).take 0 ++ outLines [0x0A] ++ (rows [0x61, 0x0A]).drop 1)) := by
  refine ⟨_, rfl, makes_linesChanged.mpr (by decide), by decide, fun h => ?_⟩
  exact absurd (makes_linesChanged.mp h) (by decide)

/-- The numeric keys of `:sort` are read safely, but for a float key whose third byte past its
blanks and sign is inside a character. So `:sort` returns on every buffer, unless its range has
more than one line and one of them has such a key. -/
theorem sort_keys_read (env : SortEnv F) (opts : SortOptions) :
    (∀ kind s, ValidUtf8 s → (ReadsKey env.floats kind s ↔ (kind = .float → WordsFit s))) ∧
    ∀ b cursorLine range first last,
      clampRange range b cursorLine (bufLines b).length = (first, last) →
      ((sortLines env opts b cursorLine range).isSome = true ↔
        (first ≠ last → ∀ re, opts.pattern.map env.compile = re.map some →
          KeysFit opts re (((bufLines b).take (last + 1)).drop first))) := by
  refine ⟨fun kind s hv => readsKey_iff env.floats kind hv, fun b cursorLine range first last h => ?_⟩
  obtain ⟨hnone, hsort⟩ | ⟨-, p, hpat, hc, hsort⟩ | ⟨hone, re, hre, hsort⟩ :=
    sortLines_cases env opts h
  · rw [hsort]
    refine iff_of_true rfl fun hne re _ _ line hline => ?_
    rw [hnone.resolve_right hne] at hline
    exact absurd (List.mem_of_mem_take (List.mem_of_mem_drop hline)) List.not_mem_nil
  · rw [hsort]
    refine iff_of_true rfl fun _ re hre => ?_
    rw [hpat, Option.map_some, hc] at hre
    cases re <;> cases hre
  · rw [hsort, Option.isSome_map, sortSegment_isSome]
    refine ⟨fun hfit _ re' hre' => ?_, fun h => h hone re hre⟩
    obtain rfl : re = re' := Option.map_injective (Option.some_injective _) (hre.symm.trans hre')
    exact hfit

/-- Floats that hold whole numbers, which is all a line of digits needs. -/
def wholeFloats : Floats Int where
  lowest := -2 ^ 1024
  infinity := 2 ^ 1024
  nan := 2 ^ 1024 + 1
  ofNat := Int.ofNat
  neg := Int.neg
  add := Int.add
  mul := Int.mul
  div := Int.tdiv
  exp2 e := 2 ^ e.toNat
  parse t := if t.all isDigit then some (Int.ofNat (t.foldl (fun n c => n * 10 + (c.toNat - 48)) 0)) else none
  parse_zero := rfl
  rank := id

/-- No text is upper case, and no pattern compiles. -/
def plainSort : SortEnv Int := ⟨fun _ => none, wholeFloats, id, fun _ => []⟩

/-- A price before a space is read up to the space, so a buffer of it and one more line is
sorted. -/
theorem sort_keys_read_price :
    ReadsKey wholeFloats .float [32, 49, 48, 32, 0xE2, 0x82, 0xAC] ∧
    (sortLines plainSort ⟨false, .float, false, false, none, false⟩
      [49, 48, 32, 0xE2, 0x82, 0xAC, 10, 57, 10] 0 .wholeFile).isSome = true := by
  obtain ⟨hkey, hsort⟩ := sort_keys_read plainSort ⟨false, .float, false, false, none, false⟩
  refine ⟨(hkey .float _ (by decide +kernel)).mpr fun _ => by decide +kernel,
    (hsort _ 0 .wholeFile 0 1 (by decide +kernel)).mpr fun _ re hre _ line hline base hbase => ?_⟩
  cases re with
  | some re => cases hre
  | none =>
    cases hbase
    have hlines : ∀ line ∈ [[49, 48, 32, 0xE2, 0x82, 0xAC], [57]], WordsFit (spell line) := by
      decide +kernel
    exact hlines line hline

/-- Right after the number the sign is cut: the two lines `10€` and `9€` are not sorted, either
of them alone is left as it is. -/
theorem sort_float_euro :
    ValidUtf8 [49, 48, 0xE2, 0x82, 0xAC] ∧
    firstFloat wholeFloats [49, 48, 0xE2, 0x82, 0xAC] = none ∧
    (sortLines plainSort ⟨false, .float, false, false, none, false⟩
      [49, 48, 0xE2, 0x82, 0xAC, 10, 57, 0xE2, 0x82, 0xAC, 10] 0 .wholeFile).isNone = true ∧
    (sortLines plainSort ⟨false, .float, false, false, none, false⟩
      [49, 48, 0xE2, 0x82, 0xAC, 10] 0 .wholeFile).isSome = true := by
  decide +kernel

end Ruse.Core
