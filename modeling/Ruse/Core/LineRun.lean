import Mathlib.Logic.Relation
import Ruse.Core.LineIndex
import Ruse.Core.LinesChanged
import Ruse.Core.VersionedText

/-!
# What a document keeps by lines, over a run

The text of a document, its line index and the line `U` restores are its `Lines`.
Every operation, seen on them, is a sequence of `LinesStep`s (`step_lines`): a change
by edits that fit, a lookup, or something done to the saved line that puts no other
text there than the one saved or a line of the current text (`LineUndo.SavedFrom`).

* `line_index` — the line starts a document carries are those of its text, and so is
  every lookup in them;
* `line_undo` — `U` changes the bytes of one line, and `U` again takes it back.
-/

namespace Ruse.Core

open Ruse.Lib

variable {e n s : Nat} {d : Document}

/-! ## Lines by number -/

theorem startsLine_of_mem {text : Bytes} (h : s ∈ lineStartsOf text) :
    StartsLine text s ∧ s ≤ text.length := by
  rw [lineStartsOf_eq] at h
  rcases List.mem_cons.mp h with rfl | hmem
  · exact ⟨.inl rfl, Nat.zero_le _⟩
  · have hnl := getElem?_of_mem_breaks hmem
    rw [Nat.sub_zero] at hnl
    exact ⟨.inr hnl, by have := mem_breaks hmem; omega⟩

theorem lineStart_of_startsLine {text : Bytes} (h : StartsLine text s) :
    lineStart text s = s :=
  lineStart_eq (Nat.le_refl s) h fun _ hk hlt => absurd hk (Nat.not_le.mpr hlt)

theorem breaks_findIdx? (off : Nat) (b : Bytes) : breaks off b =
    ((b.findIdx? (· == newline)).map fun i =>
      (off + i + 1) :: breaks (off + i + 1) (b.drop (i + 1))).getD [] := by
  induction b generalizing off with
  | nil => rfl
  | cons c b ih =>
    rw [breaks_cons, List.findIdx?_cons]
    by_cases hc : c = newline
    · simp [hc]
    · rw [if_neg hc, ih, if_neg (by simpa using hc)]
      cases b.findIdx? (· == newline) with
      | none => rfl
      | some i =>
        simp only [Option.map_some, Option.getD_some, List.drop_succ_cons]
        rw [show off + 1 + i + 1 = off + (i + 1) + 1 by omega]

/-- The walk to line `n` stops at the `n`-th line start. -/
theorem boundsFrom_eq {text : Bytes} (n : Nat) {start : Nat} :
    boundsFrom text n start = ((start :: breaks start (text.drop start))[n]?).map fun s =>
      (lineStart text s, lineEnd text s) := by
  induction n generalizing start with
  | zero => rfl
  | succ n ih =>
    unfold boundsFrom
    rw [List.getElem?_cons_succ, breaks_findIdx?]
    cases (text.drop start).findIdx? (· == newline) with
    | none => rfl
    | some i =>
      rw [Option.map_some, Option.getD_some, List.drop_drop, ← Nat.add_assoc]
      exact ih

theorem boundsOf_eq (text : Bytes) (n : Nat) :
    boundsOf text n = ((lineStartsOf text)[n]?).map fun s => (s, lineEnd text s) := by
  rw [boundsOf, boundsFrom_eq, List.drop_zero, ← lineStartsOf_eq]
  cases hs : (lineStartsOf text)[n]? with
  | none => rfl
  | some s =>
    have hstart := (startsLine_of_mem (List.mem_of_getElem? hs)).1
    rw [Option.map_some, Option.map_some, lineStart_of_startsLine hstart]

structure LineSpan (text : Bytes) (s e : Nat) : Prop where
  starts : StartsLine text s
  ends : EndsLine text e
  one : NoNewline text s e
  le : s ≤ e
  le_length : e ≤ text.length

theorem lineSpan_of_boundsOf {text : Bytes} (h : boundsOf text n = some (s, e)) :
    LineSpan text s e := by
  rw [boundsOf_eq] at h
  obtain ⟨s', hs, heq⟩ := Option.map_eq_some_iff.mp h
  cases heq
  obtain ⟨hstart, hlen⟩ := startsLine_of_mem (List.mem_of_getElem? hs)
  obtain ⟨hend, hno⟩ := lineEnd_spec hlen
  exact ⟨hstart, hend, hno, le_lineEnd text hlen, lineEnd_le_length text s⟩

/-- The line any position is on, one past the end too. -/
theorem lineSpan_at (text : Bytes) (pos : Nat) :
    LineSpan text (lineStart text pos) (lineEnd text pos) := by
  have hmin : min pos text.length ≤ text.length := Nat.min_le_right _ _
  have hle : lineEnd text (min pos text.length) = lineEnd text pos := by
    simp [lineEnd]
  have hls : lineStart text (min pos text.length) = lineStart text pos := by
    simp [lineStart, List.take_eq_take_min]
  obtain ⟨hstarts, hback⟩ := lineStart_spec text (min pos text.length)
  obtain ⟨hends, hahead⟩ := lineEnd_spec hmin
  have hstart := lineStart_le text (min pos text.length)
  have hend := le_lineEnd text hmin
  rw [hls] at hback hstart hstarts
  rw [hle] at hahead hends hend
  refine ⟨hstarts, hends, fun k hk hlt => ?_, Nat.le_trans hstart hend, lineEnd_le_length text pos⟩
  rcases Nat.lt_or_ge k (min pos text.length) with h | h
  · exact hback k hk h
  · exact hahead k h hlt

theorem LineSpan.not_mem_slice {text : Bytes} (h : NoNewline text s e) :
    newline ∉ slice text s e := by
  intro hmem
  obtain ⟨k, hk⟩ := List.getElem?_of_mem hmem
  have hlt : k < e - s := by
    by_contra hge
    rw [slice, List.getElem?_take_eq_none (by omega)] at hk
    cases hk
  rw [slice, List.getElem?_take_of_lt hlt, List.getElem?_drop] at hk
  exact h (s + k) (Nat.le_add_right _ _) (by omega) hk

/-- Up to a line start only the text before it counts. -/
theorem lineStartsOf_take {text text' : Bytes} (h : (lineStartsOf text)[n]? = some s)
    (htake : text'.take s = text.take s) : (lineStartsOf text')[n]? = some s := by
  have hsplit (b : Bytes) (hlen : s ≤ b.length) :
      lineStartsOf b = (0 :: breaks 0 (b.take s)) ++ breaks s (b.drop s) := by
    have happ := breaks_append 0 (b.take s) (b.drop s)
    rw [List.take_append_drop, List.length_take, Nat.min_eq_left hlen, Nat.zero_add] at happ
    rw [lineStartsOf_eq, happ, List.cons_append]
  have hlen := (startsLine_of_mem (List.mem_of_getElem? h)).2
  have hlen' : s ≤ text'.length := by
    have := congrArg List.length htake
    rw [List.length_take, List.length_take] at this
    omega
  have hn : n < (0 :: breaks 0 (text.take s)).length := by
    by_contra hge
    rw [hsplit text hlen, List.getElem?_append_right (by omega)] at h
    have := mem_breaks (List.mem_of_getElem? h)
    omega
  rw [hsplit text hlen, List.getElem?_append_left hn] at h
  rw [hsplit text' hlen', htake, List.getElem?_append_left hn, h]

/-- A line replaced by text without a newline keeps its number and its start. -/
theorem boundsOf_replaced {text x : Bytes} (h : boundsOf text n = some (s, e)) (hx : newline ∉ x) :
    boundsOf (text.take s ++ x ++ text.drop e) n = some (s, s + x.length) := by
  have hspan := lineSpan_of_boundsOf h
  rw [boundsOf_eq] at h ⊢
  obtain ⟨s', hs, heq⟩ := Option.map_eq_some_iff.mp h
  cases heq
  have htake : (text.take s).length = s := by
    rw [List.length_take]
    have := hspan.le
    have := hspan.le_length
    omega
  have hpre : (text.take s ++ x ++ text.drop (lineEnd text s)).take s = text.take s := by
    rw [List.append_assoc, List.take_append_of_le_length (Nat.le_of_eq htake.symm),
      List.take_take, Nat.min_self]
  rw [lineStartsOf_take hs hpre, Option.map_some]
  have hfront : (text.take s ++ x).length = s + x.length := by rw [List.length_append, htake]
  refine congrArg (fun e => some (s, e)) (lineEnd_eq (Nat.le_add_right _ _) ?_ ?_ ?_)
  · rw [List.length_append, hfront]
    exact Nat.le_add_right _ _
  · rcases hspan.ends with hlast | hnl
    · refine .inl ?_
      rw [List.length_append, hfront, List.length_drop, hlast, Nat.sub_self, Nat.add_zero]
    · refine .inr ?_
      rw [List.getElem?_append_right (Nat.le_of_eq hfront), hfront, Nat.sub_self,
        List.getElem?_drop, Nat.add_zero, hnl]
  · intro k hk hlt hnl
    rw [List.getElem?_append_left (by omega), List.getElem?_append_right (by omega)] at hnl
    exact hx (List.mem_of_getElem? hnl)

/-! ## The saved line -/

namespace LineUndo

/-- What is saved in `u'` is a text saved in `u`, or a line of `text`. -/
def SavedFrom (text : Bytes) (u u' : LineUndo) : Prop :=
  ∀ s', u'.saved = some s' → (∃ s, u.saved = some s ∧ s'.text = s.text) ∨
    ∃ i j, NoNewline text i j ∧ s'.text = slice text i j

theorem SavedFrom.refl (text : Bytes) (u : LineUndo) : SavedFrom text u u :=
  fun s' hs => .inl ⟨s', hs, rfl⟩

theorem SavedFrom.of_none {text : Bytes} {u u' : LineUndo} (h : u'.saved = none) :
    SavedFrom text u u' := fun s' hs => by rw [h] at hs; cases hs

variable (text : Bytes) (u : LineUndo)

theorem prime_savedFrom (cursor : Nat) (arm : Bool) : SavedFrom text u (u.prime cursor arm) :=
  SavedFrom.refl text u

theorem clear_savedFrom (disarm : Bool) : SavedFrom text u (u.clear disarm) :=
  SavedFrom.of_none rfl

theorem follow_saved (list : EditList) {s' : Saved} (h : (u.follow text list).saved = some s') :
    ∃ s, u.saved = some s ∧ s'.text = s.text := by
  unfold follow at h
  split at h
  · exact ⟨s', h, rfl⟩
  · rename_i saved hsaved
    split at h
    · cases h
    · split at h
      · cases h
      · cases h
        exact ⟨saved, hsaved, rfl⟩

theorem saveLine_savedFrom {lo : Nat} (hlo : lo ≤ text.length) (cursor : Option Nat) :
    SavedFrom text u (u.saveLine text lo cursor) := by
  unfold saveLine
  dsimp only
  split
  · exact SavedFrom.refl text u
  · intro s' hs'
    cases hs'
    refine .inr ⟨lineStart text lo, lineEnd text lo, ?_, rfl⟩
    intro k hk hlt hnl
    -- no newline back from the position to the line's start, nor on from it to its end
    by_cases hklo : k < lo
    · exact (lineStart_spec text lo).2 k hk hklo hnl
    · exact (lineEnd_spec hlo).2 k (by omega) hlt hnl

/-- An edit saves the line as it was, or leaves what is saved. -/
theorem onEdit_savedFrom {list : EditList} (hin : list.InBounds text.length) (fresh : Bool) :
    SavedFrom text u (u.onEdit text list fresh) := by
  unfold onEdit
  dsimp only
  split
  · rename_i first last hfirst hlast
    have hlo : first.pos ≤ text.length :=
      Nat.le_trans first.pos_le_endPos (hin first (List.mem_of_head? hfirst))
    split
    · split
      · exact saveLine_savedFrom text { u with cursor := none, armed := false } hlo u.cursor
      · exact SavedFrom.refl text u
    · split
      · exact SavedFrom.refl text u
      · split
        · exact SavedFrom.of_none rfl
        · exact fun s' hs' =>
            .inl (follow_saved text { u with cursor := none, armed := u.armed || fresh } list hs')
  · exact SavedFrom.refl text u

theorem onReapply_savedFrom (list : EditList) : SavedFrom text u (u.onReapply text list) := by
  unfold onReapply
  split
  · exact fun s' hs' => .inl (follow_saved text { u with cursor := none } list hs')
  · exact SavedFrom.refl text u

theorem swap_savedFrom (cursor : Nat) : SavedFrom text u (u.swap text cursor).1 := by
  unfold swap
  split
  · exact SavedFrom.refl text u
  · split
    · exact SavedFrom.of_none rfl
    · rename_i s e hb
      intro s' hs'
      cases hs'
      exact .inr ⟨s, e, (lineSpan_of_boundsOf hb).one, rfl⟩

end LineUndo

/-! ## One operation, seen by lines -/

structure Lines where
  text : Bytes
  lineStarts : Option (List Nat)
  lineStartsBefore : Option (List Nat × EditList)
  lineUndo : LineUndo

namespace Document

def lines (d : Document) : Lines := ⟨d.text, d.lineStarts, d.lineStartsBefore, d.lineUndo⟩

end Document

/-- The line starts a lookup answers. -/
def Lines.starts (c : Lines) : List Nat :=
  c.lineStarts.getD <|
    match c.lineStartsBefore with
    | some (starts, edits) => carriedLineStarts starts edits
    | none => lineStartsOf c.text

inductive LinesStep : Lines → Lines → Prop
  | change {c : Lines} {edits : EditList} {u : LineUndo} : edits.InBounds c.text.length →
      c.lineUndo.SavedFrom c.text u →
      LinesStep c
        ⟨edits.applyTo c.text, none, c.lineStarts.map fun starts => (starts, edits), u⟩
  | lookup (c : Lines) : LinesStep c { c with lineStarts := some c.starts }
  | saved {c : Lines} {u : LineUndo} : c.lineUndo.SavedFrom c.text u →
      LinesStep c { c with lineUndo := u }

/-- Things done one after the other. -/
abbrev LinesSteps : Lines → Lines → Prop := Relation.ReflTransGen LinesStep

namespace Document

theorem commit_lines (d : Document) (txn : Transaction) (track : Bool) (tracked : List Tracked)
    (hin : txn.edits.InBounds d.text.length) :
    LinesStep d.lines (d.commit txn track tracked).1.lines := by
  refine .change (c := d.lines) hin ?_
  show d.lineUndo.SavedFrom d.text (if track then _ else d.lineUndo)
  split
  · exact d.lineUndo.onEdit_savedFrom d.text hin _
  · exact .refl d.text d.lineUndo

/-- An applied transaction takes the lines by steps. -/
theorem applyInner_lines {d' : Document} {txn : Transaction} {track : Bool}
    {tracked tracked' : List Tracked} (h : d.applyInner txn track tracked = .ok (d', tracked')) :
    LinesSteps d.lines d'.lines := by
  unfold applyInner at h
  split at h
  · cases h
  · split at h
    · cases h
    · cases h
    · rename_i hb
      split at h
      · cases h
        exact .refl
      · have hcommit := commit_lines d txn track tracked (EditList.checkBounds_ok_iff.mp hb)
        cases hc : d.commit txn track tracked with
        | mk d₁ t₁ =>
          rw [hc] at h hcommit
          cases h
          exact .single hcommit

@[simp] theorem restoreMarks_lines (d : Document) (group : Nat) (before : List (Option Nat))
    (tracked : List Tracked) : (d.restoreMarks group before tracked).1.lines = d.lines := by
  unfold restoreMarks
  split <;> rfl

/-- A replayed list takes the lines one step. -/
theorem replayOne_lines (step : UndoStep) (r : Replay) (edits : EditList) (i : Nat)
    (hin : edits.InBounds r.doc.text.length) :
    LinesStep r.doc.lines (replayOne step r (edits, i)).doc.lines ∧
      (replayOne step r (edits, i)).doc.text = edits.applyTo r.doc.text := by
  have hlines : (replayOne step r (edits, i)).doc.lines =
      ⟨edits.applyTo r.doc.text, none, r.doc.lineStarts.map fun starts => (starts, edits),
        r.doc.lineUndo.onReapply r.doc.text edits⟩ := by
    unfold replayOne
    dsimp only
    split
    · split
      · rw [restoreMarks_lines]
        rfl
      · rfl
    · rfl
  refine ⟨?_, congrArg Lines.text hlines⟩
  rw [hlines]
  exact .change (c := r.doc.lines) hin (r.doc.lineUndo.onReapply_savedFrom r.doc.text edits)

theorem replayFold_lines (step : UndoStep) (es : List (EditList × Nat)) (r : Replay)
    (hfit : FitsInTurn (es.map Prod.fst) r.doc.text) :
    LinesSteps r.doc.lines (es.foldl (replayOne step) r).doc.lines := by
  induction es generalizing r with
  | nil => exact .refl
  | cons p es ih =>
    obtain ⟨edits, i⟩ := p
    obtain ⟨hin, hrest⟩ := hfit
    obtain ⟨hone, htext⟩ := replayOne_lines step r edits i hin
    exact .head hone (ih _ (by rw [htext]; exact hrest))

theorem replay_lines {root : Bytes} {h : UndoHistory} {step : UndoStep}
    (hv : Versioned root d.inner) (hm : d.undo.Move h step) (cursor : Nat) (tracked : List Tracked) :
    LinesSteps d.lines ({ d with undo := h }.replay step cursor tracked).1.lines := by
  have hreplay := (hm.moved hv.wf).replay hv.sound
  have htext : d.text = d.undo.textOf root d.undo.current := hv.text
  have hfit : FitsInTurn step.edits d.text := by
    rw [htext]
    exact fitsInTurn_of_replay hreplay
  refine replayFold_lines step step.edits.zipIdx
    ⟨{ d with undo := h }, tracked, [], (0, 0), UndoCursor.lineCount d.text, []⟩ ?_
  rwa [List.zipIdx_map_fst]

/-- `U` takes the lines by steps. -/
theorem lineUndoTracked_lines (d : Document) (cursor : Nat) (origin : TransactionOrigin)
    (tracked : List Tracked) :
    LinesSteps d.lines (d.lineUndoTracked cursor origin tracked).1.lines := by
  have hswap := d.lineUndo.swap_savedFrom d.text cursor
  unfold lineUndoTracked
  split
  · rename_i u heq
    rw [heq] at hswap
    exact .single (.saved hswap)
  · rename_i u sw heq
    rw [heq] at hswap
    have hfirst : LinesStep d.lines { d with lineUndo := u }.lines := .saved hswap
    dsimp only
    split
    · exact .single hfirst
    · split
      · exact .single hfirst
      · rename_i happ
        exact .head hfirst (applyInner_lines happ)

theorem reloadTracked_lines (d : Document) (bytes : Bytes) (tracked : List Tracked) :
    LinesSteps d.lines (d.reloadTracked bytes tracked).1.lines := by
  unfold reloadTracked
  split
  · exact .refl
  · dsimp only
    split
    · exact .refl
    · rename_i d' tracked' happ
      have hsteps : LinesSteps d.syncUndo.lines d'.lines := applyInner_lines happ
      exact hsteps

/-- Every operation, seen by lines. -/
theorem step_lines {root : Bytes} (d : Document) (op : Op) (hv : Versioned root d.inner) :
    LinesSteps d.lines (step d op).lines := by
  cases op with
  | apply txn tracked =>
    simp only [step]
    split
    · rename_i happ
      exact applyInner_lines happ
    · exact .refl
  | undo cursor tracked =>
    simp only [step, undoTracked]
    cases hu : d.undo.undo with
    | none => exact .refl
    | some r => exact replay_lines hv (.inl hu) cursor tracked
  | redo cursor tracked =>
    simp only [step, redoTracked]
    cases hr : d.undo.redo with
    | none => exact .refl
    | some r => exact replay_lines hv (.inr (.inl hr)) cursor tracked
  | chronological older cursor tracked =>
    simp only [step, chronologicalTracked]
    cases hc : d.undo.toChronological older with
    | none => exact .refl
    | some r => exact replay_lines hv (.inr (.inr ⟨older, hc⟩)) cursor tracked
  | lineUndo cursor origin tracked => exact lineUndoTracked_lines d cursor origin tracked
  | reload bytes tracked => exact reloadTracked_lines d bytes tracked
  | primeLineUndo cursor newCommand =>
    exact .single (.saved (d.lineUndo.prime_savedFrom d.text cursor newCommand))
  | clearLineUndo disarm => exact .single (.saved (d.lineUndo.clear_savedFrom d.text disarm))
  | lookupLines => exact .single (.lookup d.lines)
  | syncUndo => exact .refl
  | markSaved => exact .refl
  | markUnsaved => exact .refl
  | beginUndoBlock => exact .refl
  | endUndoBlock => exact .refl
  | recordChanges on => exact .refl
  | setChangeLogCap cap => exact .refl
  | drainChanges => exact .refl
  | pinTracked tracked => exact .refl
  | takePinned => exact .refl
  | createAnchor offset bias policy => exact .refl
  | createLineAnchor offset gravity => exact .refl
  | removeAnchor id => exact .refl
  | setModifiable on => exact .refl

theorem run_lines {P : Lines → Prop} (hstep : ∀ a b, LinesStep a b → P a → P b)
    {initial : Bytes} {revision : Nat} (h : P (startingAt initial revision).lines)
    (ops : List Op) : P (run step (startingAt initial revision) ops).lines := by
  have hsteps {a b : Lines} (hab : LinesSteps a b) (ha : P a) : P b := by
    induction hab with
    | refl => exact ha
    | tail _ hone ih => exact hstep _ _ hone ih
  exact (run_invariant (P := fun d : Document => Versioned initial d.inner ∧ P d.lines)
    (fun d op hd => ⟨(step_versioned d op hd.1).1, hsteps (step_lines d op hd.1) hd.2⟩)
    ⟨versioned_startingAt initial revision, h⟩ ops).2

end Document

/-! ## The carried line index -/

/-- The starts kept are those of the text, and the ones kept from before a change those
of the text it was made in. -/
structure Lines.Indexed (c : Lines) : Prop where
  now : ∀ starts, c.lineStarts = some starts → starts = lineStartsOf c.text
  before : ∀ starts edits, c.lineStartsBefore = some (starts, edits) →
    ∃ old, starts = lineStartsOf old ∧ edits.InBounds old.length ∧ c.text = edits.applyTo old

theorem Lines.Indexed.starts {c : Lines} (h : c.Indexed) : c.starts = lineStartsOf c.text := by
  unfold Lines.starts
  cases hnow : c.lineStarts with
  | some starts => exact h.now starts hnow
  | none =>
    cases hbefore : c.lineStartsBefore with
    | none => rfl
    | some p =>
      obtain ⟨old, hstarts, hin, htext⟩ := h.before p.1 p.2 hbefore
      show carriedLineStarts p.1 p.2 = _
      rw [hstarts, htext, carriedLineStarts_eq hin]

theorem LinesStep.indexed {a b : Lines} (h : LinesStep a b) (ha : a.Indexed) : b.Indexed := by
  cases h with
  | @change edits u hin hu =>
    refine ⟨nofun, fun starts edits' hbefore => ?_⟩
    obtain ⟨starts', hnow, heq⟩ := Option.map_eq_some_iff.mp hbefore
    cases heq
    exact ⟨a.text, ha.now starts hnow, hin, rfl⟩
  | lookup =>
    refine ⟨fun starts hnow => ?_, ha.before⟩
    cases hnow
    exact ha.starts
  | saved hu => exact ⟨ha.now, ha.before⟩

namespace Document

/-- The row of `p` (`Document::line_of`). -/
def lineOf (d : Document) (p : Nat) : Nat := rowIn d.lookupLines.2 d.text.length p

/-- Where row `line` starts (`Document::nth_line_start`). -/
def nthLineStart (d : Document) (line : Nat) : Nat := startIn d.lookupLines.2 d.text.length line

/-- After every run, the line starts a document carries are those a scan of its text
finds, and so are the answers looked up in them. -/
theorem line_index (initial : Bytes) (revision : Nat) (ops : List Op) :
    (∀ starts, (run step (startingAt initial revision) ops).lineStarts = some starts →
      starts = lineStartsOf (run step (startingAt initial revision) ops).text) ∧
    (run step (startingAt initial revision) ops).lookupLines.2 =
      lineStartsOf (run step (startingAt initial revision) ops).text ∧
    (∀ p, (run step (startingAt initial revision) ops).lineOf p =
      Core.lineOf (run step (startingAt initial revision) ops).text p) ∧
    ∀ line, (run step (startingAt initial revision) ops).nthLineStart line =
      Pos.nthLineStart (run step (startingAt initial revision) ops).text line := by
  have h : (run step (startingAt initial revision) ops).lines.Indexed :=
    run_lines (fun _ _ hab ha => hab.indexed ha) ⟨nofun, nofun⟩ ops
  have hlookup : (run step (startingAt initial revision) ops).lookupLines.2 =
      lineStartsOf (run step (startingAt initial revision) ops).text := h.starts
  refine ⟨h.now, hlookup, fun p => ?_, fun line => ?_⟩
  · rw [lineOf, hlookup, rowIn_lineStartsOf]
  · rw [nthLineStart, hlookup, Pos.nthLineStart_eq]

/-! ## `U` -/

/-- A transaction at hand that fits is applied, and untracked leaves the saved line. -/
theorem applyInner_fits (d : Document) {txn : Transaction} (tracked : List Tracked)
    (hbase : txn.baseRevision = d.revision) (hin : txn.edits.InBounds d.text.length) :
    ∃ d' tracked', d.applyInner txn false tracked = .ok (d', tracked') ∧
      d'.text = txn.edits.applyTo d.text ∧ d'.lineUndo = d.lineUndo := by
  unfold applyInner
  rw [if_neg (not_not.mpr hbase), EditList.checkBounds_ok_iff.mpr hin]
  by_cases hempty : txn.edits.isEmpty = true
  · refine ⟨d.applyEmpty txn, tracked, by simp only [hempty, if_true], ?_, rfl⟩
    rw [EditList.isEmpty_iff.mp hempty, EditList.applyTo_empty]
    rfl
  · refine ⟨(d.commit txn false tracked).1, (d.commit txn false tracked).2, ?_, rfl, rfl⟩
    simp only [hempty]
    rfl

/-- `U` as its swap plans it. -/
theorem lineUndoTracked_swap {cursor : Nat} {u : LineUndo} {sw : LineUndo.Swap}
    (h : d.lineUndo.swap d.text cursor = (u, some sw)) (origin : TransactionOrigin)
    (tracked : List Tracked) :
    (d.lineUndoTracked cursor origin tracked).1.text =
        d.text.take sw.start ++ sw.text ++ d.text.drop sw.stop ∧
      (d.lineUndoTracked cursor origin tracked).1.lineUndo = u ∧
      (d.lineUndoTracked cursor origin tracked).2.2 =
        some (sw.start + min sw.col sw.text.length) := by
  obtain ⟨hle, hlen⟩ := LineUndo.swap_inBounds h
  obtain ⟨list, hlist⟩ := EditList.new_single (Edit.replace sw.start (sw.stop - sw.start) sw.text)
  have hend : (Edit.replace sw.start (sw.stop - sw.start) sw.text).endPos = sw.stop :=
    Nat.add_sub_cancel' hle
  obtain ⟨d', tracked', happ, htext, hundo⟩ := @applyInner_fits { d with lineUndo := u }
    (((Transaction.new d.revision list origin).withHint .breakBefore).withCursor cursor) tracked
    rfl (EditList.new_single_inBounds hlist (by rw [hend]; exact hlen))
  unfold lineUndoTracked
  rw [h]
  dsimp only
  rw [hlist]
  dsimp only
  rw [happ]
  refine ⟨?_, hundo, rfl⟩
  have hnew := EditList.new_single_applyTo d.text hlist
  rw [hend] at hnew
  exact htext.trans hnew

/-- What `U` does: nothing where no line is saved or the text has no such line, else it
swaps the line of that number with the text saved. -/
theorem lineUndoTracked_cases (d : Document) (cursor : Nat) (origin : TransactionOrigin)
    (tracked : List Tracked) :
    ((∀ saved, d.lineUndo.saved = some saved → boundsOf d.text saved.line = none) ∧
      (d.lineUndoTracked cursor origin tracked).2.2 = none ∧
      (d.lineUndoTracked cursor origin tracked).1.text = d.text ∧
      (d.lineUndoTracked cursor origin tracked).1.lineUndo.saved = none) ∨
    ∃ saved s e, d.lineUndo.saved = some saved ∧
      boundsOf d.text saved.line = some (s, e) ∧
      (d.lineUndoTracked cursor origin tracked).1.text =
        d.text.take s ++ saved.text ++ d.text.drop e ∧
      (d.lineUndoTracked cursor origin tracked).2.2 =
        some (s + min saved.col saved.text.length) ∧
      ∃ col, (d.lineUndoTracked cursor origin tracked).1.lineUndo.saved =
        some ⟨saved.line, slice d.text s e, col⟩ := by
  cases hsaved : d.lineUndo.saved with
  | none =>
    have hswap : d.lineUndo.swap d.text cursor = (d.lineUndo, none) := by
      rw [LineUndo.swap, hsaved]
    refine .inl ⟨nofun, ?_⟩
    unfold lineUndoTracked
    rw [hswap]
    exact ⟨rfl, rfl, hsaved⟩
  | some saved =>
    cases hbounds : boundsOf d.text saved.line with
    | none =>
      have hswap : d.lineUndo.swap d.text cursor = ({ d.lineUndo with saved := none }, none) := by
        rw [LineUndo.swap, hsaved]
        dsimp only
        rw [hbounds]
      refine .inl ⟨fun saved' h => ?_, ?_⟩
      · cases h
        exact hbounds
      · unfold lineUndoTracked
        rw [hswap]
        exact ⟨rfl, rfl, rfl⟩
    | some span =>
      have hswap : d.lineUndo.swap d.text cursor =
          ({ d.lineUndo with
              cursor := none
              saved := some ⟨saved.line, slice d.text span.1 span.2,
                if span.1 ≤ cursor ∧ cursor ≤ span.2 then cursor - span.1 else saved.col⟩ },
            some ⟨span.1, span.2, saved.text, saved.col⟩) := by
        rw [LineUndo.swap, hsaved]
        dsimp only
        rw [hbounds]
      obtain ⟨htext, hundo, hcaret⟩ := lineUndoTracked_swap hswap origin tracked
      exact .inr ⟨saved, span.1, span.2, rfl, hbounds, htext, hcaret, _,
        congrArg LineUndo.saved hundo⟩

theorem LineUndo.savedFrom_plain {text : Bytes} {u u' : LineUndo} (h : u.SavedFrom text u')
    (hu : ∀ s, u.saved = some s → newline ∉ s.text) {s' : Saved} (hs' : u'.saved = some s') :
    newline ∉ s'.text := by
  rcases h s' hs' with ⟨s, hs, heq⟩ | ⟨i, j, hno, heq⟩
  · rw [heq]
    exact hu s hs
  · rw [heq]
    exact LineSpan.not_mem_slice hno

/-- After every run the text `U` would put back has no newline. -/
theorem saved_plain (initial : Bytes) (revision : Nat) (ops : List Op) {s : Saved}
    (hs : (run step (startingAt initial revision) ops).lineUndo.saved = some s) :
    newline ∉ s.text := by
  have h : ∀ s, (run step (startingAt initial revision) ops).lines.lineUndo.saved = some s →
      newline ∉ s.text :=
    @run_lines (fun c => ∀ s, c.lineUndo.saved = some s → newline ∉ s.text)
      (fun a b hab ha s hsb => by
        cases hab with
        | change hin hu => exact LineUndo.savedFrom_plain hu ha hsb
        | lookup => exact ha s hsb
        | saved hu => exact LineUndo.savedFrom_plain hu ha hsb)
      initial revision nofun ops
  exact h s hs

/-- `U` twice. -/
theorem lineUndoTracked_twice (hplain : ∀ s, d.lineUndo.saved = some s → newline ∉ s.text)
    (cursor cursor' : Nat) (origin origin' : TransactionOrigin) (tracked tracked' : List Tracked) :
    ((d.lineUndoTracked cursor origin tracked).1.lineUndoTracked cursor' origin'
      tracked').1.text = d.text := by
  generalize hd' : (d.lineUndoTracked cursor origin tracked).1 = d'
  have hfirst := lineUndoTracked_cases d cursor origin tracked
  have hsecond := lineUndoTracked_cases d' cursor' origin' tracked'
  rw [hd'] at hfirst
  rcases hfirst with ⟨-, -, htext, hnone⟩ | ⟨saved, s, e, hsaved, hbounds, htext, -, col, hsaved'⟩
  · rcases hsecond with ⟨-, -, htext', -⟩ | ⟨saved', s', e', hsome, -⟩
    · rw [htext', htext]
    · rw [hnone] at hsome
      cases hsome
  · have hbounds' := boundsOf_replaced hbounds (hplain saved hsaved)
    rw [← htext] at hbounds'
    rcases hsecond with ⟨hno, -⟩ | ⟨saved'', s'', e'', hsome, hb, htext', -⟩
    · have hb := hno _ hsaved'
      rw [hbounds'] at hb
      cases hb
    · rw [hsaved'] at hsome
      cases hsome
      rw [hbounds'] at hb
      cases hb
      have hspan := lineSpan_of_boundsOf hbounds
      have htake : (d.text.take s).length = s := by
        rw [List.length_take]
        have := hspan.le
        have := hspan.le_length
        omega
      have hfront : (d.text.take s ++ saved.text).length = s + saved.text.length := by
        rw [List.length_append, htake]
      rw [htext', htext, ← hfront, List.drop_left, List.append_assoc (d.text.take s),
        List.take_append_of_le_length (Nat.le_of_eq htake.symm), List.take_take, Nat.min_self,
        List.append_assoc, slice_append_drop hspan.le, List.take_append_drop]

/-- After every run: the text `U` would put back has no newline; `U` leaves the text, or
changes the bytes of one line alone; and `U` after `U` gives the text back. -/
theorem line_undo (initial : Bytes) (revision : Nat) (ops : List Op) :
    let d := run step (startingAt initial revision) ops
    (∀ s, d.lineUndo.saved = some s → newline ∉ s.text) ∧
    ∀ cursor origin tracked,
      let r := d.lineUndoTracked cursor origin tracked
      (r.2.2 = none → r.1.text = d.text) ∧
      (r.2.2 ≠ none → ∃ s e x, LineSpan d.text s e ∧ newline ∉ x ∧
        r.1.text = d.text.take s ++ x ++ d.text.drop e) ∧
      ∀ cursor' origin' tracked',
        (r.1.lineUndoTracked cursor' origin' tracked').1.text = d.text := by
  intro d
  have hplain : ∀ s, d.lineUndo.saved = some s → newline ∉ s.text :=
    fun s hs => saved_plain initial revision ops hs
  refine ⟨hplain, fun cursor origin tracked => ?_⟩
  intro r
  have hcases := lineUndoTracked_cases d cursor origin tracked
  refine ⟨fun hnone => ?_, fun hsome => ?_, fun cursor' origin' tracked' =>
    lineUndoTracked_twice hplain cursor cursor' origin origin' tracked tracked'⟩
  · rcases hcases with ⟨-, -, htext, -⟩ | ⟨saved, s, e, -, -, -, hcaret, -⟩
    · exact htext
    · exact absurd (hcaret.symm.trans hnone) (Option.some_ne_none _)
  · rcases hcases with ⟨-, hnone, -⟩ | ⟨saved, s, e, hsaved, hbounds, htext, -⟩
    · exact absurd hnone hsome
    · exact ⟨s, e, saved.text, lineSpan_of_boundsOf hbounds, hplain saved hsaved, htext⟩

end Document

end Ruse.Core
