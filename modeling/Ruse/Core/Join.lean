import Ruse.Core.LineRun
import Ruse.Core.Plans
import Ruse.Core.Words

/-!
# Joining lines

The model of `plan_join` in `crates/core/src/editor/planner.rs`: `J` and `gJ`. Every seam is
planned from the old text, where the line before it still has its blanks and its newline; what
the edits make of the text is told line by line (`Seam`). A line that continues a comment loses
its leader with the flag `j` of `'formatoptions'`; `skip_comment` is a parameter, as nothing here
is about it.
-/

namespace Ruse.Core

def isHspace (c : UInt8) : Bool := c == 0x20 || c == 0x09

/-- The first place from `start` on that holds no blank. -/
def hspaceEnd (b : Bytes) (start : Nat) : Nat := start + ((b.drop start).takeWhile isHspace).length

/-- The last two characters, the last one first. -/
def lastTwoChars (s : Bytes) : Option Char × Option Char :=
  let last := if s.isEmpty then none else some (prevBoundary s s.length)
  let before := (last.filter (0 < ·)).map (prevBoundary s)
  (last.bind (cellChar s), before.bind (cellChar s))

/-- The punctuation a join under the flag `B` puts no space around. -/
def eatSpace (c : Char) : Bool :=
  let c := c.toNat
  (0x2000 ≤ c && c ≤ 0x206F) || (0x2e00 ≤ c && c ≤ 0x2e7f) || (0x3000 ≤ c && c ≤ 0x303f) ||
    (0xff01 ≤ c && c ≤ 0xff0f) || (0xff1a ≤ c && c ≤ 0xff20) || (0xff3b ≤ c && c ≤ 0xff40) ||
    (0xff5b ≤ c && c ≤ 0xff65)

structure JoinOptions where
  /-- The flags of `'formatoptions'`. -/
  fo : List Char
  joinspaces : Bool
  /-- `skip_comment` with the parts of `'comments'`: of a line, whether to remove its leader, and
  whether blanks go with it, how much goes and whether the line ends inside a comment. -/
  skipComment : Bytes → Bool → Bool → Nat × Bool

/-- What the loop of `plan_join` carries. -/
structure JoinState where
  /-- Where the lines joined so far end, in the old text. -/
  le : Nat
  /-- Something was on one of them. -/
  sum : Bool
  end1 : Option Char
  end2 : Option Char
  prevWasComment : Bool
  cursor : Nat
  /-- How much shorter the text before `le` has become. -/
  removed : Int

section
variable (opts : JoinOptions) (g : Segmenter) (b : Bytes) (insertSpace : Bool)

/-- The last two characters of a line, where spaces are inserted. -/
def lineEnds (s : Bytes) : Option Char × Option Char :=
  if insertSpace then lastTwoChars s else (none, none)

/-- The spaces put at a seam before the line whose text starts at `content`. -/
def joinSep (s : JoinState) (content nextLe : Nat) : Bytes :=
  if insertSpace ∧ content < nextLe ∧ b[content]? ≠ some 0x29 ∧ s.sum = true ∧ s.end1 ≠ some '\t' then
    let c0 := (cellChar b content).getD '\x00'
    let e1 := s.end1.getD '\x00'
    let narrow (c : Char) : Bool := c.toNat < 0x100
    let mbyteOk := (!opts.fo.contains 'M' || (narrow c0 && narrow e1)) &&
      (!opts.fo.contains 'B' || (narrow c0 && !eatSpace e1) || (narrow e1 && !eatSpace c0))
    if mbyteOk then
      let (e, sep) := if s.end1 = some ' ' then (s.end2, []) else (s.end1, [0x20])
      if opts.joinspaces ∧ (e = some '.' ∨ e = some '?' ∨ e = some '!') then sep ++ [0x20] else sep
    else []
  else []

/-- One round of the loop: the seam before the next line, and on to that line's end. -/
def joinSeam (s : JoinState) : Edit × JoinState :=
  let nextLs := s.le + 1
  let nextLe := lineEnd b nextLs
  let line := slice b nextLs nextLe
  let (skip, comment) :=
    if opts.fo.contains 'j' then
      if s.prevWasComment then opts.skipComment line true insertSpace
      else (0, (opts.skipComment line false insertSpace).2)
    else (0, s.prevWasComment)
  let content := if insertSpace then hspaceEnd b (nextLs + skip) else nextLs + skip
  let sep := joinSep opts b insertSpace s content nextLe
  let delLen := content - s.le
  let (end1, end2) := lineEnds insertSpace (slice b content nextLe)
  let first := nextGrapheme g b (s.le + 1)
  -- onto an empty line the next line's first character is taken along, so that marks stay
  let ontoEmpty := delLen = 1 ∧ sep.isEmpty ∧ s.le = lineStart b s.le
  let e :=
    if ontoEmpty ∧ s.le + 1 < first ∧ b[s.le + 1]? ≠ some newline then
      Edit.replace s.le (first - s.le) (slice b (s.le + 1) first)
    else Edit.replace s.le delLen sep
  (e,
    { le := nextLe
      sum := s.sum || content < nextLe
      end1, end2
      prevWasComment := comment
      cursor := (s.le - s.removed).toNat
      removed := s.removed + delLen - sep.length })

/-- The loop of `plan_join`, with `joins` seams to go: the edits, and the cursor. -/
def joinFrom : (joins : Nat) → JoinState → List Edit × Nat
  | 0, s => ([], s.cursor)
  | joins + 1, s =>
    -- a final newline is no seam
    if s.le + 1 ≥ b.length then ([], s.cursor)
    else
      let (e, s') := joinSeam opts g b insertSpace s
      let (edits, cursor) := joinFrom joins s'
      (e :: edits, cursor)

def joinStart (cur : Nat) : JoinState :=
  let le := lineEnd b cur
  let firstLs := lineStart b cur
  let (end1, end2) := lineEnds insertSpace (slice b firstLs le)
  { le
    sum := firstLs < le
    end1, end2
    prevWasComment :=
      opts.fo.contains 'j' && (opts.skipComment (slice b firstLs le) false insertSpace).2
    cursor := cur
    removed := 0 }

/-- `[count]J`, or `[count]gJ` without spaces. -/
def planJoin (cur count : Nat) (mode : Mode) (hint : GroupHint) : Except EditError Plan :=
  let joins := max count 2 - 1
  let (edits, cursor) := joinFrom opts g b insertSpace joins (joinStart opts b insertSpace cur)
  if edits.isEmpty then .ok (.beep cur mode)
  else (EditList.new edits).map (.edit · cursor mode hint)

end

/-! ## Seams -/

/-- A joined line, and the spaces put before it. -/
structure Seam where
  sep : Bytes
  line : Bytes

namespace Seam

/-- What was there: the newline and the line. -/
def old (s : Seam) : Bytes := newline :: s.line

/-- What is there: the spaces and the line, with spaces without its leading blanks. -/
def new (insertSpace : Bool) (s : Seam) : Bytes :=
  s.sep ++ if insertSpace then s.line.dropWhile isHspace else s.line

/-- What `J` and `gJ` may put at a seam. -/
structure Fair (opts : JoinOptions) (insertSpace : Bool) (s : Seam) : Prop where
  noNewline : newline ∉ s.line
  spaces : s.sep = [] ∨ s.sep = [0x20] ∨ s.sep = [0x20, 0x20]
  joinspaces : opts.joinspaces = false → s.sep.length ≤ 1
  paren : (s.line.dropWhile isHspace).head? = some 0x29 → s.sep = []
  plain : insertSpace = false → s.sep = []

end Seam

/-- What one round does: its edit, the state after it and the seam it makes. -/
structure Round (b : Bytes) (insertSpace : Bool) (s : JoinState) (e : Edit) (s' : JoinState)
    (seam : Seam) : Prop where
  lt : s.le < s'.le
  le : s'.le ≤ b.length
  ends : EndsLine b s'.le
  old : slice b s.le s'.le = seam.old
  pos : e.pos = s.le
  del : 0 < e.del
  within : e.endPos ≤ s'.le
  new : e.ins ++ slice b e.endPos s'.le = seam.new insertSpace
  cursor : s'.cursor = (s.le - s.removed).toNat
  removed : s'.removed = s.removed + seam.old.length - (seam.new insertSpace).length

section
variable {opts : JoinOptions} {g : Segmenter} {b : Bytes} {insertSpace : Bool}

/-- A seam gets no space or one, under `'joinspaces'` up to two. -/
theorem joinSep_spaces (s : JoinState) (content nextLe : Nat) :
    let sep := joinSep opts b insertSpace s content nextLe
    (sep = [] ∨ sep = [0x20] ∨ sep = [0x20, 0x20]) ∧ (opts.joinspaces = false → sep.length ≤ 1) := by
  simp only [joinSep]
  split
  · split
    · by_cases hspace : s.end1 = some ' '
      · simp only [hspace, if_true, List.nil_append]
        split
        · exact ⟨.inr (.inl rfl), fun _ => Nat.le_refl _⟩
        · exact ⟨.inl rfl, fun _ => Nat.zero_le _⟩
      · simp only [hspace, if_false]
        split
        · rename_i hjoin
          exact ⟨.inr (.inr rfl), fun h => by rw [h] at hjoin; exact absurd hjoin.1 (by decide)⟩
        · exact ⟨.inr (.inl rfl), fun _ => Nat.le_refl _⟩
    · exact ⟨.inl rfl, fun _ => Nat.zero_le _⟩
  · exact ⟨.inl rfl, fun _ => Nat.zero_le _⟩

theorem joinSep_paren {s : JoinState} {content nextLe : Nat} (h : b[content]? = some 0x29) :
    joinSep opts b insertSpace s content nextLe = [] := by
  rw [joinSep, if_neg (fun hin => hin.2.2.1 h)]

theorem joinSep_plain (s : JoinState) (content nextLe : Nat) :
    joinSep opts b false s content nextLe = [] := by
  rw [joinSep, if_neg (fun hin => Bool.false_ne_true hin.1)]

/-- The line that starts after `le`, and where its text starts. -/
theorem nextLine_spec {le : Nat} (h : le + 1 < b.length) :
    let nextLe := lineEnd b (le + 1)
    let line := slice b (le + 1) nextLe
    le + 1 ≤ nextLe ∧ nextLe ≤ b.length ∧ EndsLine b nextLe ∧ newline ∉ line ∧
      line.length = nextLe - (le + 1) ∧
      hspaceEnd b (le + 1) ≤ nextLe ∧
      line.dropWhile isHspace = slice b (hspaceEnd b (le + 1)) nextLe := by
  intro nextLe line
  obtain ⟨hends, hno⟩ := lineEnd_spec (Nat.le_of_lt h)
  have hle : le + 1 ≤ nextLe := le_lineEnd b (Nat.le_of_lt h)
  have hlen : nextLe ≤ b.length := lineEnd_le_length b (le + 1)
  have hll : line.length = nextLe - (le + 1) := slice_length hle hlen
  -- the blanks end within the line: what is behind it is no blank
  have hblanks : ((b.drop (le + 1)).takeWhile isHspace).length = (line.takeWhile isHspace).length := by
    rw [← slice_append_drop hle]
    show (List.takeWhile isHspace (line ++ b.drop nextLe)).length = _
    rcases hends with hend | hend
    · have hdrop : b.drop nextLe = [] := List.drop_eq_nil_iff.mpr (Nat.le_of_eq hend.symm)
      rw [hdrop, List.append_nil]
    · obtain ⟨hlt, hget⟩ := List.getElem?_eq_some_iff.mp hend
      have hrest : b.drop nextLe = newline :: b.drop (nextLe + 1) := by
        rw [← hget]
        exact List.drop_eq_getElem_cons hlt
      rw [hrest, List.takeWhile_append]
      split
      · rename_i hall
        have hstop : isHspace newline = false := rfl
        rw [List.takeWhile_cons_of_neg (by rw [hstop]; exact Bool.false_ne_true), List.append_nil]
        exact hall.symm
      · rfl
  have hwhile := (List.takeWhile_sublist (l := line) isHspace).length_le
  refine ⟨hle, hlen, hends, LineSpan.not_mem_slice hno, hll, ?_, ?_⟩
  · rw [hspaceEnd, hblanks]
    omega
  · have hdrop : (line.takeWhile isHspace ++ line.dropWhile isHspace).drop
        (line.takeWhile isHspace).length = line.dropWhile isHspace := List.drop_left
    rw [List.takeWhile_append_dropWhile] at hdrop
    rw [← hdrop, hspaceEnd, hblanks]
    simp only [line, slice, List.drop_take, List.drop_drop]
    congr 1
    omega

variable (hg : g.Documented) (hadv : g.Advances) (hj : 'j' ∉ opts.fo)
include hg hadv hj

/-- One round: a newline and the line after it become the seam's spaces and the line. -/
theorem joinSeam_spec (insertSpace : Bool) {s : JoinState} (h : s.le + 1 < b.length) (hends : EndsLine b s.le) :
    ∃ seam : Seam, seam.Fair opts insertSpace ∧
      Round b insertSpace s (joinSeam opts g b insertSpace s).1 (joinSeam opts g b insertSpace s).2 seam := by
  obtain ⟨hle, hlen, hnext, hnl, hll, hblanks, hdrop⟩ := nextLine_spec h
  have hnewline : b[s.le]? = some newline := by
    rcases hends with hend | hend
    · omega
    · exact hend
  have hj' : opts.fo.contains 'j' = false := by simpa using hj
  -- what is behind the newline and the blanks that go
  set content := if insertSpace then hspaceEnd b (s.le + 1) else s.le + 1 with hcontent
  have hfrom : s.le + 1 ≤ content := by
    rw [hcontent]
    split
    · exact Nat.le_add_right _ _
    · exact Nat.le_refl _
  have hto : content ≤ lineEnd b (s.le + 1) := by
    rw [hcontent]
    split
    · exact hblanks
    · exact hle
  have hrest : slice b content (lineEnd b (s.le + 1)) =
      if insertSpace then (slice b (s.le + 1) (lineEnd b (s.le + 1))).dropWhile isHspace
      else slice b (s.le + 1) (lineEnd b (s.le + 1)) := by
    rw [hcontent]
    split
    · exact hdrop.symm
    · rfl
  set sep := joinSep opts b insertSpace s content (lineEnd b (s.le + 1)) with hsep
  refine ⟨⟨sep, slice b (s.le + 1) (lineEnd b (s.le + 1))⟩, ?_, ?_⟩
  · obtain ⟨hspaces, hjoinspaces⟩ := joinSep_spaces (b := b)
      s content (lineEnd b (s.le + 1))
    refine ⟨hnl, hspaces, hjoinspaces, fun hparen => ?_, fun hplain => ?_⟩
    · cases insertSpace with
      | false => exact hsep.trans (joinSep_plain s _ _)
      | true =>
        rw [if_pos rfl] at hrest
        rw [← hrest, slice, List.head?_take] at hparen
        split at hparen
        · cases hparen
        · rw [List.head?_drop] at hparen
          exact hsep.trans (joinSep_paren hparen)
    · subst hplain
      exact hsep.trans (joinSep_plain s _ _)
  · have hold : slice b s.le (lineEnd b (s.le + 1)) =
        newline :: slice b (s.le + 1) (lineEnd b (s.le + 1)) := by
      have hget : b[s.le] = newline := (List.getElem?_eq_some_iff.mp hnewline).2
      rw [slice, List.drop_eq_getElem_cons (by omega), hget,
        show lineEnd b (s.le + 1) - s.le = lineEnd b (s.le + 1) - (s.le + 1) + 1 by omega,
        List.take_succ_cons]
      rfl
    have hnew : (Seam.new insertSpace ⟨sep, slice b (s.le + 1) (lineEnd b (s.le + 1))⟩) =
        sep ++ slice b content (lineEnd b (s.le + 1)) := by
      rw [hrest]
      rfl
    simp only [joinSeam, hj', Bool.false_eq_true, if_false, Nat.add_zero, ← hcontent, ← hsep]
    refine ⟨Nat.lt_of_lt_of_le (Nat.lt_succ_self _) hle, hlen, hnext, hold, ?_, ?_, ?_, ?_, rfl, ?_⟩
    · split <;> rfl
    · split
      · rename_i hfirst
        exact Nat.sub_pos_of_lt (by omega)
      · exact Nat.sub_pos_of_lt hfrom
    · split
      · rename_i hfirst
        have hline := (nextGrapheme_line hg hadv h hfirst.2.2).2
        show s.le + (nextGrapheme g b (s.le + 1) - s.le) ≤ lineEnd b (s.le + 1)
        omega
      · show s.le + (content - s.le) ≤ lineEnd b (s.le + 1)
        omega
    · split
      · rename_i hfirst
        obtain ⟨⟨hone, hempty, -⟩, hlt, hchar⟩ := hfirst
        have hline := (nextGrapheme_line hg hadv h hchar).2
        have hat : content = s.le + 1 := by omega
        rw [hnew, List.isEmpty_iff.mp hempty, List.nil_append, hat]
        show slice b (s.le + 1) (nextGrapheme g b (s.le + 1)) ++
          slice b (s.le + (nextGrapheme g b (s.le + 1) - s.le)) _ = _
        rw [Nat.add_sub_cancel' (by omega), slice_append_slice (by omega) hline]
      · show sep ++ slice b (s.le + (content - s.le)) _ = _
        rw [hnew, Nat.add_sub_cancel' (by omega)]
    · rw [hnew, List.length_append, slice_length hto hlen, Seam.old, List.length_cons, hll]
      show s.removed + (content - s.le : Nat) - sep.length = _
      omega

end

/-! ## The loop -/

/-- What the loop does from a state on: the lines it joins, what is left behind them, and that
the edits make the one of the other. -/
structure Joins (b : Bytes) (insertSpace : Bool) (joins : Nat) (s : JoinState) (edits : List Edit)
    (cursor : Nat) (seams : List Seam) (after : Bytes) : Prop where
  text : b.drop s.le = seams.flatMap Seam.old ++ after
  tail : after = [] ∨ after.head? = some newline
  count : seams.length ≤ joins
  all : seams.length = joins ∨ after = [] ∨ after = [newline]
  same : edits.length = seams.length
  sorted : edits.Pairwise Edit.Before
  within : ∀ e ∈ edits, s.le ≤ e.pos ∧ 0 < e.del ∧ e.endPos ≤ b.length
  applied : ∀ cur ≤ s.le, EditList.applyFrom b cur edits =
    slice b cur s.le ++ (seams.flatMap (Seam.new insertSpace) ++ after)
  cursor : cursor = if seams = [] then s.cursor
    else (s.le - s.removed).toNat + (seams.dropLast.flatMap (Seam.new insertSpace)).length

theorem EndsLine.drop {b : Bytes} {le : Nat} (h : EndsLine b le) :
    b.drop le = [] ∨ (b.drop le).head? = some newline := by
  rcases h with rfl | h
  · exact .inl List.drop_length
  · exact .inr (by rw [List.head?_drop, h])

section
variable {opts : JoinOptions} {g : Segmenter} {b : Bytes} {insertSpace : Bool}

/-- Nothing is joined: the rest of the text stays. -/
theorem Joins.stop {s : JoinState} {joins : Nat} (hends : EndsLine b s.le)
    (h : joins = 0 ∨ b.length ≤ s.le + 1) :
    Joins b insertSpace joins s [] s.cursor [] (b.drop s.le) where
  text := rfl
  tail := hends.drop
  count := Nat.zero_le _
  all := by
    rcases h with rfl | h
    · exact .inl rfl
    · refine .inr (hends.drop.imp_right fun hhead => ?_)
      obtain ⟨rest, hrest⟩ := List.head?_eq_some_iff.mp hhead
      have hlen := congrArg List.length hrest
      rw [List.length_drop, List.length_cons] at hlen
      rw [hrest, List.length_eq_zero_iff.mp (show rest.length = 0 by omega)]
  same := rfl
  sorted := .nil
  within := fun _ h => absurd h List.not_mem_nil
  applied := fun cur hcur => by
    rw [EditList.applyFrom, List.flatMap_nil, List.nil_append, slice_append_drop hcur]
  cursor := rfl

variable (hg : g.Documented) (hadv : g.Advances) (hj : 'j' ∉ opts.fo)
include hg hadv hj

/-- The loop joins lines up to the count, or to the last line. -/
theorem joinFrom_joins (joins : Nat) {s : JoinState} (hle : s.le ≤ b.length) (hends : EndsLine b s.le)
    (hremoved : s.removed ≤ s.le) :
    ∃ seams after, (∀ seam ∈ seams, Seam.Fair opts insertSpace seam) ∧
      Joins b insertSpace joins s (joinFrom opts g b insertSpace joins s).1
        (joinFrom opts g b insertSpace joins s).2 seams after := by
  induction joins generalizing s with
  | zero => exact ⟨[], b.drop s.le, fun _ h => absurd h List.not_mem_nil, .stop hends (.inl rfl)⟩
  | succ joins ih =>
    rw [joinFrom]
    split
    · rename_i hlast
      exact ⟨[], b.drop s.le, fun _ h => absurd h List.not_mem_nil, .stop hends (.inr hlast)⟩
    · rename_i hmore
      obtain ⟨seam, hfair, hround⟩ :=
        joinSeam_spec hg hadv hj insertSpace (Nat.lt_of_not_le hmore) hends
      rcases hseam : joinSeam opts g b insertSpace s with ⟨e, s'⟩
      replace hround : Round b insertSpace s e s' seam := by rwa [hseam] at hround
      obtain ⟨hlt, hlen, hnext, hold, hpos, hdel, hend, hnew, hcursor, hrem⟩ := hround
      have holdlen := congrArg List.length hold
      rw [slice_length (Nat.le_of_lt hlt) hlen] at holdlen
      obtain ⟨seams, after, hall, hjoins⟩ := ih hlen hnext (by omega)
      refine ⟨seam :: seams, after, List.forall_mem_cons.mpr ⟨hfair, hall⟩, ?_⟩
      have hin : ∀ e' ∈ (joinFrom opts g b insertSpace joins s').1, e.Before e' := by
        intro e' he'
        have hwithin := (hjoins.within e' he').1
        exact ⟨by omega, by omega⟩
      refine ⟨?_, hjoins.tail, Nat.succ_le_succ hjoins.count, ?_, ?_, ?_, ?_, fun cur hcur => ?_, ?_⟩
      · rw [← slice_append_drop (Nat.le_of_lt hlt), hold, hjoins.text, List.flatMap_cons,
          List.append_assoc]
      · exact hjoins.all.imp_left fun h => by rw [List.length_cons, h]
      · rw [List.length_cons, List.length_cons, hjoins.same]
      · exact List.pairwise_cons.mpr ⟨hin, hjoins.sorted⟩
      · refine List.forall_mem_cons.mpr ⟨⟨Nat.le_of_eq hpos.symm, hdel, by omega⟩, fun e' he' => ?_⟩
        obtain ⟨hle', hdel', hend'⟩ := hjoins.within e' he'
        exact ⟨by omega, hdel', hend'⟩
      · rw [EditList.applyFrom, hjoins.applied _ hend, hpos, List.flatMap_cons, ← hnew]
        simp only [List.append_assoc]
      · rw [hjoins.cursor, if_neg (List.cons_ne_nil _ _)]
        by_cases hseams : seams = []
        · rw [if_pos hseams, hseams, hcursor]
          rfl
        · rw [if_neg hseams, List.dropLast_cons_of_ne_nil hseams, List.flatMap_cons,
            List.length_append]
          omega

end

/-! ## What is kept -/

namespace Seam

variable {opts : JoinOptions} {insertSpace : Bool} {s : Seam} {seams : List Seam}

def solid (b : Bytes) : Bytes := b.filter (! isHspace ·)

theorem solid_append (a b : Bytes) : solid (a ++ b) = solid a ++ solid b := List.filter_append _ _

theorem solid_dropWhile (l : Bytes) : solid (l.dropWhile isHspace) = solid l := by
  conv_rhs => rw [← List.takeWhile_append_dropWhile (p := isHspace) (l := l)]
  have hblank : solid (l.takeWhile isHspace) = [] := by
    refine List.filter_eq_nil_iff.mpr fun x hx => ?_
    simp [List.mem_takeWhile_imp hx]
  rw [solid_append, hblank, List.nil_append]

theorem Fair.solid_new (h : Fair opts insertSpace s) : solid (s.new insertSpace) = solid s.line := by
  have hsep : solid s.sep = [] := by
    rcases h.spaces with hs | hs | hs <;> rw [hs] <;> rfl
  rw [new, solid_append, hsep, List.nil_append]
  split
  · exact solid_dropWhile s.line
  · rfl

theorem solid_flatMap (h : ∀ s ∈ seams, Fair opts insertSpace s) :
    solid (seams.flatMap (new insertSpace)) = solid (seams.flatMap line) := by
  induction seams with
  | nil => rfl
  | cons s seams ih =>
    obtain ⟨hs, hall⟩ := List.forall_mem_cons.mp h
    rw [List.flatMap_cons, List.flatMap_cons, solid_append, solid_append, hs.solid_new, ih hall]

theorem flatMap_plain (h : ∀ s ∈ seams, Fair opts false s) :
    seams.flatMap (new false) = seams.flatMap line := by
  refine List.flatMap_congr fun s hs => ?_
  simp [new, (h s hs).plain rfl]

theorem flatMap_noNewline (h : ∀ s ∈ seams, Fair opts insertSpace s) :
    newline ∉ seams.flatMap (new insertSpace) := by
  intro hmem
  obtain ⟨s, hs, hin⟩ := List.mem_flatMap.mp hmem
  have hsolid : newline ∈ solid (s.new insertSpace) := List.mem_filter.mpr ⟨hin, rfl⟩
  rw [(h s hs).solid_new] at hsolid
  exact (h s hs).noNewline (List.mem_of_mem_filter hsolid)

end Seam

theorem length_to_lineEnd (b : Bytes) (cur : Nat) :
    (b.take (lineStart b cur) ++ slice b (lineStart b cur) (lineEnd b cur)).length = lineEnd b cur := by
  obtain ⟨-, -, -, hle, hlen⟩ := lineSpan_at b cur
  rw [List.length_append, List.length_take, slice_length hle hlen]
  omega

namespace Joins

variable {opts : JoinOptions} {b : Bytes} {insertSpace : Bool} {cur joins cursor : Nat}
  {edits : List Edit} {seams : List Seam} {after : Bytes}
  (h : Joins b insertSpace joins (joinStart opts b insertSpace cur) edits cursor seams after)
include h

/-- The text, from the line of the cursor on, in seams. -/
theorem text_eq : b = b.take (lineStart b cur) ++ slice b (lineStart b cur) (lineEnd b cur) ++
    seams.flatMap Seam.old ++ after := by
  rw [List.append_assoc _ _ after, ← h.text, List.append_assoc]
  show b = _ ++ (_ ++ b.drop (lineEnd b cur))
  rw [slice_append_drop (lineSpan_at b cur).le, List.take_append_drop]

theorem applied_eq : EditList.applyFrom b 0 edits = b.take (lineStart b cur) ++
    (slice b (lineStart b cur) (lineEnd b cur) ++ seams.flatMap (Seam.new insertSpace)) ++ after := by
  have hhead : slice b 0 (lineEnd b cur) =
      b.take (lineStart b cur) ++ slice b (lineStart b cur) (lineEnd b cur) := by
    rw [← slice_append_slice (Nat.zero_le (lineStart b cur)) (lineSpan_at b cur).le]
    rfl
  rw [h.applied 0 (Nat.zero_le _)]
  show slice b 0 (lineEnd b cur) ++ _ = _
  rw [hhead]
  simp only [List.append_assoc]

/-- The cursor is left on the last seam. -/
theorem cursor_eq (hsome : seams ≠ []) :
    cursor = (b.take (lineStart b cur) ++ slice b (lineStart b cur) (lineEnd b cur) ++
      seams.dropLast.flatMap (Seam.new insertSpace)).length := by
  rw [h.cursor, if_neg hsome, List.length_append, length_to_lineEnd]
  rfl

theorem edits_nil : edits = [] ↔ seams = [] := by
  rw [← List.length_eq_zero_iff, h.same, List.length_eq_zero_iff]

/-- The edits, as the list the plan is made of. -/
theorem planned : ∃ list : EditList, list.edits = edits ∧ EditList.new edits = .ok list :=
  let list : EditList :=
    ⟨edits, h.sorted, fun e he => .inl (Nat.ne_of_gt (h.within e he).2.1)⟩
  ⟨list, rfl, EditList.new_edits list⟩

end Joins

/-- `J` and `gJ` keep the text: the lines they join, counted from the cursor's, and their seams
are told apart from what is before and behind them, which stays. The cursor is left on the last
seam. -/
theorem join_keeps (opts : JoinOptions) (hj : 'j' ∉ opts.fo) {g : Segmenter} (hg : g.Documented)
    (hadv : g.Advances) (b : Bytes) (insertSpace : Bool) (cur count : Nat) (mode : Mode)
    (hint : GroupHint) :
    ∃ before first seams after,
      b = before ++ first ++ seams.flatMap Seam.old ++ after ∧
      before.length = lineStart b cur ∧ (before ++ first).length = lineEnd b cur ∧
      newline ∉ first ∧ (after = [] ∨ after.head? = some newline) ∧
      seams.length ≤ max count 2 - 1 ∧
      (seams.length = max count 2 - 1 ∨ after = [] ∨ after = [newline]) ∧
      (∀ seam ∈ seams, Seam.Fair opts insertSpace seam) ∧
      if seams = [] then planJoin opts g b insertSpace cur count mode hint = .ok (.beep cur mode)
      else ∃ list cursor,
        planJoin opts g b insertSpace cur count mode hint = .ok (.edit list cursor mode hint) ∧
        list.InBounds b.length ∧
        list.applyTo b = before ++ (first ++ seams.flatMap (Seam.new insertSpace)) ++ after ∧
        newline ∉ first ++ seams.flatMap (Seam.new insertSpace) ∧
        Seam.solid (first ++ seams.flatMap (Seam.new insertSpace)) =
          Seam.solid (first ++ seams.flatMap Seam.line) ∧
        (insertSpace = false → seams.flatMap (Seam.new insertSpace) = seams.flatMap Seam.line) ∧
        cursor = (before ++ first ++ seams.dropLast.flatMap (Seam.new insertSpace)).length ∧
        cursor ≤ (list.applyTo b).length := by
  obtain ⟨-, -, hno, hle, hlen⟩ := lineSpan_at b cur
  obtain ⟨seams, after, hfair, hjoins⟩ := @joinFrom_joins opts g b insertSpace hg hadv hj
    (max count 2 - 1) (joinStart opts b insertSpace cur) hlen (lineSpan_at b cur).ends
    (Int.natCast_nonneg _)
  have hfirst := LineSpan.not_mem_slice hno
  have hbefore : (b.take (lineStart b cur)).length = lineStart b cur := by
    rw [List.length_take]
    omega
  refine ⟨b.take (lineStart b cur), slice b (lineStart b cur) (lineEnd b cur), seams, after,
    hjoins.text_eq, hbefore, length_to_lineEnd b cur, hfirst, hjoins.tail, hjoins.count,
    hjoins.all, hfair, ?_⟩
  unfold planJoin
  split
  · rename_i hnone
    simp [hjoins.edits_nil.mpr hnone]
  · rename_i hsome
    have hedits := mt hjoins.edits_nil.mp hsome
    obtain ⟨list, hlist, hnew⟩ := hjoins.planned
    have happlied := hjoins.applied_eq
    have hcursor := hjoins.cursor_eq hsome
    rw [← hlist] at happlied
    refine ⟨list, _, ?_, ?_, happlied, ?_, ?_, ?_, hcursor, ?_⟩
    · simp only [List.isEmpty_iff, hedits, if_false, hnew]
      rfl
    · intro e he
      rw [hlist] at he
      exact (hjoins.within e he).2.2
    · rw [List.mem_append, not_or]
      exact ⟨hfirst, Seam.flatMap_noNewline hfair⟩
    · rw [Seam.solid_append, Seam.solid_append, Seam.solid_flatMap hfair]
    · rintro rfl
      exact Seam.flatMap_plain hfair
    · have hlast := List.dropLast_append_getLast hsome
      rw [hcursor, show list.applyTo b = _ from happlied]
      conv_rhs => rw [← hlast]
      simp only [List.flatMap_append, List.length_append]
      omega

/-- `a.` and `  b` under `'joinspaces'` become `a.  b`, with the cursor on the seam. -/
theorem join_keeps_sentence :
    ∃ list, planJoin ⟨[], true, fun _ _ _ => (0, false)⟩ .eachChar
        [0x61, 0x2E, 0x0A, 0x20, 0x20, 0x62, 0x0A] true 0 1 .normal .breakBefore =
          .ok (.edit list 2 .normal .breakBefore) ∧ list.InBounds 7 ∧
      list.applyTo [0x61, 0x2E, 0x0A, 0x20, 0x20, 0x62, 0x0A] = [0x61, 0x2E, 0x20, 0x20, 0x62, 0x0A] := by
  obtain ⟨before, first, seams, after, -, -, -, -, -, -, -, -, h⟩ :=
    join_keeps ⟨[], true, fun _ _ _ => (0, false)⟩ (by decide) Segmenter.eachChar_documented
      Segmenter.eachChar_advances [0x61, 0x2E, 0x0A, 0x20, 0x20, 0x62, 0x0A] true 0 1 .normal .breakBefore
  split at h
  · have hbeep := congrArg (fun r => r.toOption.map Plan.isEdit) h
    exact absurd hbeep (by decide)
  · obtain ⟨list, cursor, hplan, hin, -⟩ := h
    let joined (p : Plan) : Bytes × Nat := match p.action with
      | .txn edits _ => (edits.applyTo [0x61, 0x2E, 0x0A, 0x20, 0x20, 0x62, 0x0A], p.cursor)
      | _ => ([], p.cursor)
    have hjoined := congrArg (fun r => r.toOption.map joined) hplan
    obtain ⟨htext, rfl⟩ : list.applyTo _ = [0x61, 0x2E, 0x20, 0x20, 0x62, 0x0A] ∧ cursor = 2 :=
      Prod.mk.inj (Option.some.inj (hjoined.symm.trans (by decide)))
    exact ⟨list, hplan, hin, htext⟩

end Ruse.Core
