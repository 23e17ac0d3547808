import Ruse.Core.ByteRuns
import Ruse.Core.CommitEdit
import Ruse.Core.LineRun
import Ruse.Core.Plans
import Ruse.Lib.Walk

/-!
# Emacs kills, and the yank after them

The model of `EmacsKillLine`, `EmacsKillWord`, `EmacsBackwardKillWord` and `EmacsYank` of
`crates/core/src/editor/planner.rs`, with the word motions of `crates/core/src/motion.rs`. A kill
takes what lies on one side of point and puts it on the same side of what the run before it took
(`Kill`), so that the text before the run is the text now with the kill ring's entry at point
(`Killed`).
-/

namespace Ruse.Core

open Ruse.Lib

/-! ## The word motions -/

/-- A word constituent in fundamental mode. -/
def isEmacsWord (c : UInt8) : Bool :=
  (0x30 ≤ c && c ≤ 0x39) || (0x41 ≤ c && c ≤ 0x5A) || (0x61 ≤ c && c ≤ 0x7A) || 0x80 ≤ c

def emacsWordFwd (b : Bytes) (pos : Nat) : Nat :=
  runEnd isEmacsWord b (runEnd (fun c => !isEmacsWord c) b (min pos b.length))

def emacsWordBack (b : Bytes) (pos : Nat) : Nat :=
  runBegin isEmacsWord b 0 (runBegin (fun c => !isEmacsWord c) b 0 (min pos b.length))

/-- `repeat_step`: up to `n` steps, until one leads nowhere. -/
def repeatStep (f : Nat → Nat) : (n c : Nat) → Nat
  | 0, c => c
  | n + 1, c => if f c = c then c else repeatStep f n (f c)

/-- The end of the word motion forward, counted. -/
def emacsWordEnd (b : Bytes) (cur count : Nat) : Nat :=
  repeatStep (emacsWordFwd b) (max count 1) (min cur b.length)

/-- The start of the word motion backward, counted. -/
def emacsWordStart (b : Bytes) (cur count : Nat) : Nat :=
  repeatStep (emacsWordBack b) (max count 1) (min cur b.length)

/-! ## The commands -/

def captured (b : Bytes) (s e : Nat) (linewise : Bool) : Register :=
  if linewise then .linewise (slice b s e) else .charwise (slice b s e)

section
variable (b : Bytes) (cur : Nat) (mode : Mode) (hint : GroupHint)

def planEmacsKillLine : Plan :=
  let le := lineEnd b cur
  if cur < le then
    .editKill (.one (.delete cur (le - cur))) cur mode hint (captured b cur le false)
  else if le < b.length then
    -- at the line's end the newline goes
    .editKill (.one (.delete le 1)) le mode hint (captured b le (le + 1) false)
  else .nop cur mode

def planEmacsKillWord (count : Nat) : Plan :=
  let s := min cur b.length
  let e := emacsWordEnd b cur count
  if s ≥ e then .nop cur mode
  else .editKill (.one (.delete s (e - s))) s mode hint (captured b s e false)

def planEmacsBackwardKillWord (count : Nat) : Plan :=
  let target := emacsWordStart b cur count
  if target ≥ cur then .nop cur mode
  else
    { Plan.edit (.one (.delete target (cur - target))) target mode hint with
      setRegister := some (.killPrepend (captured b target cur false)) }

end

inductive EmacsKill where
  | killLine
  | killWord (count : Nat)
  | backwardKillWord (count : Nat)

def EmacsKill.plan (k : EmacsKill) (st : EditorState) : Plan :=
  let b := st.doc.text
  let cur := st.view.cursor
  let mode := st.view.mode
  let hint := st.view.groupHint
  match k with
  | .killLine => planEmacsKillLine b cur mode hint
  | .killWord count => planEmacsKillWord b cur mode hint count
  | .backwardKillWord count => planEmacsBackwardKillWord b cur mode hint count

/-- `C-y`. -/
def planEmacsYank (g : Segmenter) (pasteBlock : PasteBlock) (ts : Tabs) (st : EditorState)
    (count : Nat) : Plan :=
  let p := paste g pasteBlock st.doc.text st.view.cursor st.view.mode
    (st.view.registers.get st.view.pendingRegister) false count st.view.caret false true ts
  match p.action with
  | .nop => p
  | _ => { p with setMark := some st.view.cursor }

def killStep (g : Segmenter) (cells : Cells) (st : EditorState) (k : EmacsKill) :
    Option EditorState :=
  (commit g cells st (k.plan st)).map Prod.fst

def EmacsKill.Deletes (st : EditorState) (k : EmacsKill) : Prop := (k.plan st).isEdit = true

/-- The kill takes no newline: `C-k` is not at a line's end, and the words and what is between
them are on one line. -/
def EmacsKill.InLine (st : EditorState) : EmacsKill → Prop
  | .killLine => st.view.cursor ≠ lineEnd st.doc.text st.view.cursor
  | .killWord count =>
    newline ∉ slice st.doc.text st.view.cursor (emacsWordEnd st.doc.text st.view.cursor count)
  | .backwardKillWord count =>
    newline ∉ slice st.doc.text (emacsWordStart st.doc.text st.view.cursor count) st.view.cursor

/-! ## Where the motions end -/

section
variable {b : Bytes} {cur : Nat}

theorem ascii_of_not_isEmacsWord {c : UInt8} (h : isEmacsWord c = false) : c ≤ 0x7F := by
  simp only [isEmacsWord, Bool.or_eq_false_iff, decide_eq_false_iff_not, UInt8.not_le] at h
  have := h.2
  simp only [UInt8.lt_iff_toNat_lt, UInt8.le_iff_toNat_le] at this ⊢
  change c.toNat < 128 at this
  change c.toNat ≤ 127
  omega

theorem repeatStep_induct {P : Nat → Prop} {f : Nat → Nat} (hf : ∀ c, P c → P (f c)) (n : Nat)
    {c : Nat} (h : P c) : P (repeatStep f n c) := by
  induction n generalizing c with
  | zero => exact h
  | succ n ih =>
    rw [repeatStep]
    split
    · exact h
    · exact ih (hf c h)

theorem emacsWordFwd_spec (hb : ValidUtf8 b) (cur : Nat) : min cur b.length ≤ emacsWordFwd b cur ∧
    IsCharBoundary b (emacsWordFwd b cur) := by
  have hgap := le_runEnd (fun c => !isEmacsWord c) b (min cur b.length)
  have hword := le_runEnd isEmacsWord b (runEnd (fun c => !isEmacsWord c) b (min cur b.length))
  have hlen := runEnd_le (p := isEmacsWord) (runEnd_le (p := fun c => !isEmacsWord c)
    (Nat.min_le_right cur b.length))
  refine ⟨Nat.le_trans hgap hword, ?_⟩
  cases hat : b[emacsWordFwd b cur]? with
  | none =>
    rw [List.getElem?_eq_none_iff] at hat
    exact .inr (.inl (Nat.le_antisymm hlen hat))
  | some c => exact (boundary_of_ascii hb hat (ascii_of_not_isEmacsWord (runEnd_stop hat))).1

theorem emacsWordBack_spec (hb : ValidUtf8 b) (cur : Nat) : emacsWordBack b cur ≤ min cur b.length ∧
    IsCharBoundary b (emacsWordBack b cur) := by
  obtain ⟨-, hgap, -⟩ := runBegin_spec (p := fun c => !isEmacsWord c) (Nat.zero_le _)
    (Nat.min_le_right cur b.length)
  obtain ⟨-, hword, -, hstop⟩ := runBegin_spec (p := isEmacsWord) (Nat.zero_le _)
    (Nat.le_trans hgap (Nat.min_le_right cur b.length))
  have hle : emacsWordBack b cur ≤ min cur b.length := Nat.le_trans hword hgap
  refine ⟨hle, ?_⟩
  rcases Nat.eq_zero_or_pos (emacsWordBack b cur) with hzero | hpos
  · exact .inl hzero
  · have hat := List.getElem?_eq_getElem (l := b) (i := emacsWordBack b cur - 1) (by omega)
    have hafter := (boundary_of_ascii hb hat (ascii_of_not_isEmacsWord (hstop hpos _ hat))).2
    rwa [Nat.sub_add_cancel hpos] at hafter

theorem emacsWordEnd_spec (hb : ValidUtf8 b) (hcur : IsCharBoundary b cur) (count : Nat) :
    cur ≤ emacsWordEnd b cur count ∧ IsCharBoundary b (emacsWordEnd b cur count) := by
  have hle := hcur.le
  refine repeatStep_induct (P := fun c => cur ≤ c ∧ IsCharBoundary b c) (fun c hc => ?_) _ ?_
  · obtain ⟨hfwd, hboundary⟩ := emacsWordFwd_spec hb c
    exact ⟨by omega, hboundary⟩
  · rw [Nat.min_eq_left hle]
    exact ⟨Nat.le_refl cur, hcur⟩

theorem emacsWordStart_spec (hb : ValidUtf8 b) (hcur : IsCharBoundary b cur) (count : Nat) :
    emacsWordStart b cur count ≤ cur ∧ IsCharBoundary b (emacsWordStart b cur count) := by
  have hle := hcur.le
  refine repeatStep_induct (P := fun c => c ≤ cur ∧ IsCharBoundary b c) (fun c hc => ?_) _ ?_
  · obtain ⟨hback, hboundary⟩ := emacsWordBack_spec hb c
    exact ⟨by omega, hboundary⟩
  · rw [Nat.min_eq_left hle]
    exact ⟨Nat.le_refl cur, hcur⟩

end

/-! ## One kill -/

/-- The text between two boundaries, one of them point, and the plan that kills it. -/
structure Kill (st : EditorState) (plan : Plan) (back : Bool) (s e : Nat) : Prop where
  lt : s < e
  start : IsCharBoundary st.doc.text s
  stop : IsCharBoundary st.doc.text e
  point : st.view.cursor = if back then e else s
  plan_eq : plan =
    { Plan.edit (.one (.delete s (e - s))) s st.view.mode st.view.groupHint with
      setRegister := some (if back then .killPrepend (.charwise (slice st.doc.text s e))
        else .killAppend (.charwise (slice st.doc.text s e))) }

section
variable {st : EditorState}

/-- `kill-line` deletes up to the line's end, or the newline there. -/
theorem planEmacsKillLine_spec (hb : ValidUtf8 st.doc.text)
    (hcur : IsCharBoundary st.doc.text st.view.cursor) (hdel : EmacsKill.killLine.Deletes st) :
    ∃ s e, Kill st (EmacsKill.killLine.plan st) false s e ∧
      (EmacsKill.killLine.InLine st ↔ newline ∉ slice st.doc.text s e) := by
  have hle := le_lineEnd st.doc.text hcur.le
  obtain ⟨hends, hno⟩ := lineEnd_spec hcur.le
  show ∃ s e, Kill st (planEmacsKillLine ..) false s e ∧
    (st.view.cursor ≠ lineEnd st.doc.text st.view.cursor ↔ _)
  replace hdel : (planEmacsKillLine st.doc.text st.view.cursor st.view.mode
    st.view.groupHint).isEdit = true := hdel
  unfold planEmacsKillLine at hdel ⊢
  by_cases hlt : st.view.cursor < lineEnd st.doc.text st.view.cursor
  · rw [if_pos hlt]
    have hstop := isCharBoundary_of_isBoundary hb (isBoundary_lineEnd hcur.le)
      (lineEnd_le_length st.doc.text st.view.cursor)
    exact ⟨_, _, ⟨hlt, hcur, hstop, rfl, rfl⟩,
      iff_of_true (Nat.ne_of_lt hlt) (LineSpan.not_mem_slice hno)⟩
  · rw [if_neg hlt] at hdel ⊢
    have heq : lineEnd st.doc.text st.view.cursor = st.view.cursor := by omega
    rw [heq] at hends hdel ⊢
    by_cases hend : st.view.cursor < st.doc.text.length
    · rw [if_pos hend]
      have hnl := hends.resolve_left (Nat.ne_of_lt hend)
      have hstop := (boundary_of_ascii hb hnl (by decide)).2
      refine ⟨_, st.view.cursor + 1, ⟨Nat.lt_succ_self _, hcur, hstop, rfl, ?_⟩, ?_⟩
      · rw [Nat.add_sub_cancel_left]
        rfl
      · refine iff_of_false (fun hne => hne rfl) (not_not_intro ?_)
        rw [slice, Nat.add_sub_cancel_left]
        apply List.mem_of_getElem? (i := 0)
        rw [List.getElem?_take_of_lt Nat.one_pos, List.getElem?_drop]
        exact hnl
    · rw [if_neg hend] at hdel
      cases hdel

theorem planEmacsKillWord_spec (hb : ValidUtf8 st.doc.text)
    (hcur : IsCharBoundary st.doc.text st.view.cursor) {count : Nat}
    (hdel : (EmacsKill.killWord count).Deletes st) :
    Kill st ((EmacsKill.killWord count).plan st) false st.view.cursor
      (emacsWordEnd st.doc.text st.view.cursor count) := by
  obtain ⟨-, hstop⟩ := emacsWordEnd_spec hb hcur count
  show Kill st (planEmacsKillWord ..) ..
  replace hdel : (planEmacsKillWord st.doc.text st.view.cursor st.view.mode st.view.groupHint
    count).isEdit = true := hdel
  unfold planEmacsKillWord at hdel ⊢
  dsimp only at hdel ⊢
  rw [Nat.min_eq_left hcur.le] at hdel ⊢
  split at hdel
  · cases hdel
  · rename_i hlt
    rw [if_neg hlt]
    exact ⟨Nat.lt_of_not_le hlt, hcur, hstop, rfl, rfl⟩

theorem planEmacsBackwardKillWord_spec (hb : ValidUtf8 st.doc.text)
    (hcur : IsCharBoundary st.doc.text st.view.cursor) {count : Nat}
    (hdel : (EmacsKill.backwardKillWord count).Deletes st) :
    Kill st ((EmacsKill.backwardKillWord count).plan st) true
      (emacsWordStart st.doc.text st.view.cursor count) st.view.cursor := by
  obtain ⟨-, hstart⟩ := emacsWordStart_spec hb hcur count
  show Kill st (planEmacsBackwardKillWord ..) ..
  replace hdel : (planEmacsBackwardKillWord st.doc.text st.view.cursor st.view.mode
    st.view.groupHint count).isEdit = true := hdel
  unfold planEmacsBackwardKillWord at hdel ⊢
  dsimp only at hdel ⊢
  split at hdel
  · cases hdel
  · rename_i hlt
    rw [if_neg hlt]
    exact ⟨Nat.lt_of_not_le hlt, hstart, hcur, rfl, rfl⟩

/-- A kill that deletes takes the text on one side of point. -/
theorem EmacsKill.kill (hb : ValidUtf8 st.doc.text)
    (hcur : IsCharBoundary st.doc.text st.view.cursor) {k : EmacsKill} (hdel : k.Deletes st) :
    ∃ back s e, Kill st (k.plan st) back s e ∧ (k.InLine st ↔ newline ∉ slice st.doc.text s e) := by
  cases k with
  | killLine =>
    obtain ⟨s, e, hkill, hline⟩ := planEmacsKillLine_spec hb hcur hdel
    exact ⟨false, s, e, hkill, hline⟩
  | killWord count => exact ⟨false, _, _, planEmacsKillWord_spec hb hcur hdel, Iff.rfl⟩
  | backwardKillWord count => exact ⟨true, _, _, planEmacsBackwardKillWord_spec hb hcur hdel, Iff.rfl⟩

end

/-! ## The text without a span -/

section
variable {b : Bytes} {s e : Nat}

theorem IsCharBoundary.isBoundary {i : Nat} (h : IsCharBoundary b i) : isBoundary b i = true := by
  rcases h with rfl | rfl | ⟨-, hlead⟩
  · rfl
  · simp [Core.isBoundary]
  · exact Uncut.isBoundary hlead

theorem cut_out (hb : ValidUtf8 b) (hs : IsCharBoundary b s) (he : IsCharBoundary b e) :
    ValidUtf8 (b.take s ++ b.drop e) ∧ IsCharBoundary (b.take s ++ b.drop e) s := by
  have hlen : (b.take s).length = s := by rw [List.length_take, Nat.min_eq_left hs.le]
  have hfront : Scans (b.take s ++ b.drop e) 0 s := by
    have : Scans (b.take s ++ b.drop e) 0 (0 + (s - 0)) := (hb.cut hs).1.same fun k hk => by
      rw [List.getElem?_append_left (by omega), List.getElem?_take_of_lt (by omega)]
    rwa [Nat.sub_zero, Nat.zero_add] at this
  have hback : Scans (b.take s ++ b.drop e) s (s + (b.length - e)) :=
    (hb.cut he).2.same fun k hk => by
      rw [List.getElem?_append_right (by omega), hlen, Nat.add_sub_cancel_left, List.getElem?_drop]
  have hvalid : ValidUtf8 (b.take s ++ b.drop e) := by
    rw [validUtf8_iff, List.length_append, hlen, List.length_drop]
    exact hfront.trans hback
  exact ⟨hvalid, hvalid.boundary_of_scans (.inl rfl) hfront⟩

end

/-! ## What a run of kills has taken -/

theorem Register.charwise_append {u w : Bytes} (hu : u ≠ []) :
    (Register.charwise u).append (.charwise w) = .charwise (u ++ w) := by
  have hempty : (Register.charwise u).isEmpty = false := by
    simpa [Register.isEmpty, Register.charwise] using hu
  unfold Register.append
  rw [hempty]
  rfl

/-- The run of kills has taken `r`, which is what the kill ring holds. -/
structure KillRing (v : View) (r : Bytes) : Prop where
  pendingRegister : v.pendingRegister = none
  lastWasKill : v.lastWasKill = !r.isEmpty
  unnamed : r ≠ [] → v.registers.unnamed = .charwise r

/-- What a kill of `w` makes of what was taken: it goes in front, or behind. -/
def joinKill (back : Bool) (r w : Bytes) : Bytes := if back then w ++ r else r ++ w

/-- A kill writes the unnamed register with what it joins, before or behind. -/
theorem capture_kill {v : View} {r w : Bytes} (h : KillRing v r) (hw : w ≠ []) {plan : Plan}
    (back : Bool) (hset : plan.setRegister =
      some (if back then .killPrepend (.charwise w) else .killAppend (.charwise w))) :
    (v.capture plan).lastWasKill = true ∧
      (v.capture plan).registers.unnamed = .charwise (joinKill back r w) := by
  obtain ⟨hpending, hkill, hunnamed⟩ := h
  have hwrite (reg : Register) : (v.registers.write none reg).unnamed = reg := rfl
  rcases List.eq_nil_or_concat' r with rfl | hr
  · have hfirst : v.lastWasKill = false := hkill
    cases back <;>
      simp [View.capture, hset, hfirst, hpending, hwrite, joinKill]
  · replace hr : r ≠ [] := by
      obtain ⟨front, c, rfl⟩ := hr
      simp
    have hlast : v.lastWasKill = true := by simpa using hkill.trans (by simpa using hr)
    cases back
    · simp [View.capture, hset, hlast, RegisterStore.killAppend, hunnamed hr,
        Register.charwise_append hr, joinKill]
    · simp [View.capture, hset, hlast, RegisterStore.killPrepend, hunnamed hr,
        Register.charwise_append hw, joinKill]

/-- A run of kills from `text` has taken `r`: the text is what is left around point, with `r` at
point. -/
structure Killed (text : Bytes) (r : Bytes) (st : EditorState) : Prop where
  valid : ValidUtf8 st.doc.text
  point : IsCharBoundary st.doc.text st.view.cursor
  caret : st.view.caret = .betweenChar
  ring : KillRing st.view r
  text_eq : text = st.doc.text.take st.view.cursor ++ r ++ st.doc.text.drop st.view.cursor

section
variable (g : Segmenter) (cells : Cells) {text r : Bytes} {st : EditorState}

theorem take_cut {b : Bytes} {s e : Nat} (hs : s ≤ b.length) :
    (b.take s ++ b.drop e).take s = b.take s ∧ (b.take s ++ b.drop e).drop s = b.drop e := by
  have hlen : (b.take s).length = s := by rw [List.length_take, Nat.min_eq_left hs]
  exact ⟨List.take_left' hlen, List.drop_left' hlen⟩

/-- A kill in a run of kills leaves the rest of the text and adds to the ring. -/
theorem Killed.kill (h : Killed text r st) {plan : Plan} {back : Bool} {s e : Nat}
    (hkill : Kill st plan back s e) :
    ∃ st' effects, commit g cells st plan = some (st', effects) ∧
      Killed text (joinKill back r (slice st.doc.text s e)) st' := by
  obtain ⟨hvalid, -, hcaret, hring, htext⟩ := h
  obtain ⟨hlt, hstart, hstop, hpoint, hplan⟩ := hkill
  have haction : plan.action = .txn (.one (.delete s (e - s))) st.view.groupHint := by
    rw [hplan]
    rfl
  have hat : plan.cursor = s := by
    rw [hplan]
    rfl
  have hle := hstop.le
  have hend : (Edit.delete s (e - s)).endPos = e := by
    show s + (e - s) = e
    omega
  have hw : slice st.doc.text s e ≠ [] := by
    intro hnil
    have := slice_length (Nat.le_of_lt hlt) hle
    rw [hnil, List.length_nil] at this
    omega
  obtain ⟨st', effects, hcommit, hed⟩ := commit_txn g cells haction
    (EditList.one_inBounds (by rw [hend]; exact hle))
  refine ⟨st', effects, hcommit, ?_⟩
  have htext' : st'.doc.text = st.doc.text.take s ++ st.doc.text.drop e := by
    rw [hed.text, EditList.one_applyTo, hend]
    exact congrArg (· ++ _) (List.append_nil _)
  obtain ⟨hvalid', hpoint'⟩ := cut_out hvalid hstart hstop
  rw [← htext'] at hvalid' hpoint'
  have hcursor : st'.view.cursor = s := by
    rw [hed.cursor (.inl hcaret), hat]
    exact snap_of_isBoundary hpoint'.le hpoint'.isBoundary
  obtain ⟨hlast, hunnamed⟩ := capture_kill hring hw back (congrArg Plan.setRegister hplan)
  obtain ⟨htake, hdrop⟩ := take_cut (b := st.doc.text) (e := e) hstart.le
  have hne : joinKill back r (slice st.doc.text s e) ≠ [] := by
    cases back <;> simp [joinKill, hw]
  refine ⟨hvalid', ?_, hed.caret.trans hcaret, ⟨hed.pendingRegister, ?_, fun _ => ?_⟩, ?_⟩
  · rwa [hcursor]
  · rw [hed.lastWasKill]
    exact hlast.trans (by simpa using hne)
  · rw [hed.registers]
    exact hunnamed
  · rw [hcursor, htext', htake, hdrop, htext]
    cases back with
    | true =>
      have hsplit : slice st.doc.text 0 s ++ slice st.doc.text s e = slice st.doc.text 0 e :=
        slice_append_slice (Nat.zero_le s) (Nat.le_of_lt hlt)
      rw [hpoint, if_pos rfl, joinKill, if_pos rfl, ← List.append_assoc]
      exact congrArg (· ++ r ++ _) hsplit.symm
    | false =>
      rw [hpoint, if_neg Bool.false_ne_true, joinKill, if_neg Bool.false_ne_true,
        ← slice_append_drop (b := st.doc.text) (Nat.le_of_lt hlt)]
      simp only [List.append_assoc]

/-- Where every kill of a run deletes, the run goes through, and takes a newline if one of them does. -/
theorem killed_run (ks : List EmacsKill) (h : Killed text r st)
    (hdel : Along (killStep g cells) EmacsKill.Deletes st ks) :
    ∃ st' taken, walkAlong (killStep g cells) st ks = some st' ∧ Killed text taken st' ∧
      (r ≠ [] ∨ ks ≠ [] → taken ≠ []) ∧
      (newline ∉ taken ↔ newline ∉ r ∧ Along (killStep g cells) EmacsKill.InLine st ks) := by
  induction ks generalizing st r with
  | nil =>
    refine ⟨st, r, rfl, h, fun hne => hne.resolve_right (· rfl), ?_⟩
    rw [Along, and_true]
  | cons k ks ih =>
    obtain ⟨back, s, e, hkill, hline⟩ := EmacsKill.kill h.valid h.point hdel.1
    obtain ⟨t, effects, hcommit, ht⟩ := h.kill g cells hkill
    have hstep : killStep g cells st k = some t := congrArg (Option.map Prod.fst) hcommit
    obtain ⟨st', taken, hrun, hkilled, hne, hiff⟩ := ih ht (hdel.2 t hstep)
    have hw : slice st.doc.text s e ≠ [] := by
      intro hnil
      have := slice_length (Nat.le_of_lt hkill.lt) hkill.stop.le
      rw [hnil, List.length_nil] at this
      have := hkill.lt
      omega
    refine ⟨st', taken, ?_, hkilled, fun _ => hne (.inl ?_), ?_⟩
    · rw [walkAlong_cons hstep, hrun]
    · cases back <;> simp [joinKill, hw]
    · rw [hiff, along_cons hstep, hline]
      cases back <;> simp only [joinKill, if_true, Bool.false_eq_true, if_false, List.mem_append,
        not_or] <;> tauto

/-! ## The yank -/

/-- What a yank right after a run of kills leaves. -/
theorem Killed.yank (pasteBlock : PasteBlock) (ts : Tabs) (h : Killed text r st) (hne : r ≠ [])
    (htext : ValidUtf8 text) :
    ∃ st' effects, commit g cells st (planEmacsYank g pasteBlock ts st 1) = some (st', effects) ∧
      st'.doc.text = text ∧ st'.view.mark = some st.view.cursor ∧
      st'.view.cursor = if newline ∈ r then st.view.cursor else st.view.cursor + r.length := by
  obtain ⟨hvalid, hpoint, hcaret, ⟨hpending, -, hunnamed⟩, heq⟩ := h
  let stop := if newline ∈ r then st.view.cursor else st.view.cursor + r.length
  have hplan : planEmacsYank g pasteBlock ts st 1 =
      { Plan.edit (.one (.insert st.view.cursor r)) stop
          (if st.view.mode = .insert then .insert else .normal) .breakBefore with
        setMark := some st.view.cursor } := by
    have hreg : st.view.registers.get st.view.pendingRegister = .charwise r := by
      rw [hpending]
      exact hunnamed hne
    rw [planEmacsYank, hreg, hcaret, paste_before hne]
    rfl
  have haction : (planEmacsYank g pasteBlock ts st 1).action =
      .txn (.one (.insert st.view.cursor r)) .breakBefore := by
    rw [hplan]
    rfl
  obtain ⟨st', effects, hcommit, hed⟩ := commit_txn g cells haction
    (EditList.one_inBounds (by exact hpoint.le))
  have hlen : (st.doc.text.take st.view.cursor).length = st.view.cursor := by
    rw [List.length_take, Nat.min_eq_left hpoint.le]
  have htext' : st'.doc.text = text := by
    rw [hed.text, EditList.one_applyTo, heq]
    rfl
  have hstart : IsCharBoundary text st.view.cursor := by
    have hsame : Scans text 0 (0 + (st.view.cursor - 0)) :=
      (hvalid.cut hpoint).1.same fun k hk => by
        rw [heq, List.append_assoc, List.getElem?_append_left (by omega),
          List.getElem?_take_of_lt (by omega)]
    rw [Nat.sub_zero, Nat.zero_add] at hsame
    exact htext.boundary_of_scans (.inl rfl) hsame
  have hstop : IsCharBoundary text (st.view.cursor + r.length) := by
    have hfront : (st.doc.text.take st.view.cursor ++ r).length = st.view.cursor + r.length := by
      rw [List.length_append, hlen]
    have htotal : text.length = st.view.cursor + r.length + (st.doc.text.length - st.view.cursor) := by
      rw [heq, List.length_append, hfront, List.length_drop]
    rcases Nat.eq_or_lt_of_le hpoint.le with hend | hlt
    · exact .inr (.inl (by omega))
    · obtain ⟨w, hw, -⟩ := hvalid.char_of_boundary hpoint hlt
      refine .inr (.inr ⟨by omega, ?_⟩)
      have hlead := (charLenAt_spec hw).2.2.2.1
      rw [List.getD_eq_getElem?_getD] at hlead ⊢
      rwa [heq, List.getElem?_append_right (by omega), hfront, Nat.sub_self, List.getElem?_drop]
  have hboundary : IsCharBoundary text stop := by
    show IsCharBoundary text (if _ then _ else _)
    split
    · exact hstart
    · exact hstop
  refine ⟨st', effects, hcommit, htext', ?_, ?_⟩
  · rw [hed.mark st.view.cursor (by rw [hplan]), htext', snap_of_isBoundary hstart.le hstart.isBoundary]
  · rw [hed.cursor (.inl hcaret), htext', hplan]
    exact snap_of_isBoundary hboundary.le hboundary.isBoundary

/-- A yank after a run of kills puts the text back and sets the mark at its start; point ends
behind it exactly if no kill of the run took a newline. -/
theorem kills_yanked (pasteBlock : PasteBlock) (ts : Tabs) (ks : List EmacsKill) (hks : ks ≠ [])
    (htext : ValidUtf8 st.doc.text) (hpoint : IsCharBoundary st.doc.text st.view.cursor)
    (hcaret : st.view.caret = .betweenChar) (hpending : st.view.pendingRegister = none)
    (hfirst : st.view.lastWasKill = false)
    (hdel : Along (killStep g cells) EmacsKill.Deletes st ks) :
    ∃ killed yanked effects, walkAlong (killStep g cells) st ks = some killed ∧
      commit g cells killed (planEmacsYank g pasteBlock ts killed 1) = some (yanked, effects) ∧
      yanked.doc.text = st.doc.text ∧ yanked.view.mark = some killed.view.cursor ∧
      (yanked.view.cursor =
          killed.view.cursor + (st.doc.text.length - killed.doc.text.length) ↔
        Along (killStep g cells) EmacsKill.InLine st ks) := by
  have hstart : Killed st.doc.text [] st :=
    ⟨htext, hpoint, hcaret, ⟨hpending, hfirst, fun hne => absurd rfl hne⟩, by simp⟩
  obtain ⟨killed, taken, hrun, hkilled, hne, hiff⟩ := killed_run g cells ks hstart hdel
  replace hne := hne (.inr hks)
  obtain ⟨yanked, effects, hcommit, hback, hmark, hcursor⟩ :=
    hkilled.yank g cells pasteBlock ts hne htext
  refine ⟨killed, yanked, effects, hrun, hcommit, hback, hmark, ?_⟩
  have htotal := congrArg List.length hkilled.text_eq
  simp only [List.length_append, List.length_take, List.length_drop,
    Nat.min_eq_left hkilled.point.le] at htotal
  have hsize : st.doc.text.length - killed.doc.text.length = taken.length := by
    have := hkilled.point.le
    omega
  have hpos : 0 < taken.length := List.length_pos_iff.mpr hne
  have hplain : Along (killStep g cells) EmacsKill.InLine st ks ↔ newline ∉ taken := by
    rw [hiff]
    exact ⟨fun h => ⟨List.not_mem_nil, h⟩, And.right⟩
  rw [hplain, hcursor, hsize]
  split
  · rename_i hnl
    exact iff_of_false (by omega) (not_not_intro hnl)
  · rename_i hnl
    exact iff_of_true rfl hnl

end

/-- `foo` over `bar`, point at the end of the first line. -/
def fooOverBar : EditorState where
  doc := .new [102, 111, 111, 10, 98, 97, 114]
  view := { View.fresh with cursor := 3, caret := .betweenChar }
  origin := .userInput

/-- The word before point and the newline behind it. -/
theorem kills_yanked_fooOverBar :
    let g := Segmenter.eachChar
    let cells : Cells := fun _ i _ _ => (i + 1, 1)
    let pasteBlock : PasteBlock := fun _ cur _ _ _ _ _ => .nop cur .normal
    ∃ killed yanked effects,
      walkAlong (killStep g cells) fooOverBar [.backwardKillWord 1, .killLine] = some killed ∧
      commit g cells killed (planEmacsYank g pasteBlock (.uniform 8) killed 1) =
        some (yanked, effects) ∧
      yanked.doc.text = fooOverBar.doc.text ∧ yanked.view.mark = some killed.view.cursor ∧
      (yanked.view.cursor =
          killed.view.cursor + (fooOverBar.doc.text.length - killed.doc.text.length) ↔
        Along (killStep g cells) EmacsKill.InLine fooOverBar [.backwardKillWord 1, .killLine]) :=
  kills_yanked _ _ _ _ [.backwardKillWord 1, .killLine] (by simp) (by decide +kernel) (by decide) rfl rfl rfl
    ⟨rfl, fun _ h => by cases h; exact ⟨rfl, fun _ _ => trivial⟩⟩

/-- `C-k` at a line's end and `C-y`: the newline is back, and point is before it. -/
theorem kill_newline_yanked :
    let g := Segmenter.eachChar
    let cells : Cells := fun _ i _ _ => (i + 1, 1)
    let pasteBlock : PasteBlock := fun _ cur _ _ _ _ _ => .nop cur .normal
    EmacsKill.killLine.Deletes fooOverBar ∧
      ((walkAlong (killStep g cells) fooOverBar [.killLine]).bind fun killed =>
        (commit g cells killed (planEmacsYank g pasteBlock (.uniform 8) killed 1)).map fun yanked =>
          (killed.view.cursor, killed.doc.text, yanked.1.view.cursor, yanked.1.doc.text)) =
        some (3, [102, 111, 111, 98, 97, 114], 3, [102, 111, 111, 10, 98, 97, 114]) :=
  ⟨rfl, by decide +kernel⟩

end Ruse.Core
