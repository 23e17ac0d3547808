import Ruse.Core.CommitEdit
import Ruse.Core.Indent
import Ruse.Core.Plans
import Ruse.Lib.Walk

/-!
# Replace mode

The model of `ReplaceType`, `VirtualReplaceType` and `ReplaceBackspace` of
`crates/core/src/editor/planner.rs`. A typed character puts what it took on the stack
(`Overwrites`), and `<BS>` takes the character away and puts that back.
-/

namespace Ruse.Core

open Ruse.Lib

/-! ## The bytes of a character

`char::encode_utf8` writes a character as one character of the byte model (`charLenAt_encode`).
-/

/-- The lead bytes of UTF-8, by their value. -/
theorem leadClass_ofNat {n : Nat} (hn : n < 256) : leadClass (UInt8.ofNat n) =
    if 0xC2 ≤ n ∧ n ≤ 0xDF then some (2, 0x80, 0xBF)
    else if n = 0xE0 then some (3, 0xA0, 0xBF)
    else if n = 0xED then some (3, 0x80, 0x9F)
    else if 0xE1 ≤ n ∧ n ≤ 0xEF then some (3, 0x80, 0xBF)
    else if n = 0xF0 then some (4, 0x90, 0xBF)
    else if n = 0xF4 then some (4, 0x80, 0x8F)
    else if 0xF1 ≤ n ∧ n ≤ 0xF3 then some (4, 0x80, 0xBF)
    else none := by
  have hall : ∀ n : Fin 256, leadClass (UInt8.ofNat n) =
      if 0xC2 ≤ n.val ∧ n.val ≤ 0xDF then some (2, 0x80, 0xBF)
      else if n.val = 0xE0 then some (3, 0xA0, 0xBF)
      else if n.val = 0xED then some (3, 0x80, 0x9F)
      else if 0xE1 ≤ n.val ∧ n.val ≤ 0xEF then some (3, 0x80, 0xBF)
      else if n.val = 0xF0 then some (4, 0x90, 0xBF)
      else if n.val = 0xF4 then some (4, 0x80, 0x8F)
      else if 0xF1 ≤ n.val ∧ n.val ≤ 0xF3 then some (4, 0x80, 0xBF)
      else none := by decide +kernel
  exact hall ⟨n, hn⟩

theorem ofNat_range {n : Nat} (lo hi : Nat) (hlo : lo ≤ n) (hhi : n ≤ hi) (hn : hi < 256) :
    UInt8.ofNat lo ≤ UInt8.ofNat n ∧ UInt8.ofNat n ≤ UInt8.ofNat hi := by
  have hmod : ∀ m < 256, (UInt8.ofNat m).toNat = m := fun m hm => Nat.mod_eq_of_lt hm
  rw [UInt8.le_iff_toNat_le, UInt8.le_iff_toNat_le, hmod n (by omega), hmod lo (by omega), hmod hi hn]
  exact ⟨hlo, hhi⟩

theorem isContinuation_tail (n : Nat) : isContinuation (UInt8.ofNat (n % 64 + 128)) = true := by
  obtain ⟨hlo, hhi⟩ := ofNat_range (n := n % 64 + 128) 0x80 0xBF (by omega)
    (by omega) (by omega)
  exact isContinuation_of_range hlo hhi

/-- A lead byte, a second byte in its range and the other bytes it asks for are a character. -/
theorem charLenAt_of_class {lead second lo hi : UInt8} {others : Bytes} {w : Nat}
    (hlead : leadClass lead = some (w, lo, hi)) (hw : w = others.length + 2) (hlo : lo ≤ second)
    (hhi : second ≤ hi) (hothers : others.all isContinuation = true) :
    charLenAt (lead :: second :: others) 0 = some w := by
  have hascii : ¬ lead ≤ 0x7F := by
    intro h
    have hnone : ∀ n : Fin 256, UInt8.ofFin n ≤ 0x7F → leadClass (UInt8.ofFin n) = none := by
      decide +kernel
    have := hnone lead.toFin h
    rw [show UInt8.ofFin lead.toFin = lead from rfl, hlead] at this
    cases this
  have hslice : slice (lead :: second :: others) (0 + 1) (0 + w) = second :: others := by
    rw [slice, hw]
    simp
  change (if lead ≤ 0x7F then some 1 else _) = some w
  rw [if_neg hascii, hlead]
  dsimp only [bind, Option.bind]
  rw [hslice]
  dsimp only
  rw [if_pos]
  · rfl
  · refine ⟨?_, hlo, hhi, hothers⟩
    rw [List.length_cons, List.length_cons]
    omega

/-- A character written in UTF-8 is read as one of its length. -/
theorem charLenAt_encode (c : Char) :
    charLenAt (String.utf8EncodeChar c) 0 = some (String.utf8EncodeChar c).length := by
  have hvalid : c.val.toNat < 0xD800 ∨ 0xDFFF < c.val.toNat ∧ c.val.toNat < 0x110000 := c.valid
  unfold String.utf8EncodeChar
  dsimp only
  generalize c.val.toNat = v at *
  split_ifs with hone htwo hthree
  · rw [List.length_singleton, charLenAt_eq_one]
    exact ⟨_, rfl, (ofNat_range 0 _ (Nat.zero_le v) hone (by decide)).2⟩
  · obtain ⟨hlo, hhi⟩ := ofNat_range (n := v % 64 + 128) 0x80 0xBF (by omega)
      (by omega) (by decide)
    refine charLenAt_of_class ?_ rfl hlo hhi rfl
    rw [leadClass_ofNat (by omega), if_pos (by omega)]
    rfl
  · have hothers : [UInt8.ofNat (v % 64 + 128)].all isContinuation = true := by
      rw [List.all_cons, isContinuation_tail]
      rfl
    have hlead : v / 4096 % 16 + 224 < 256 := by omega
    -- the least and the greatest lead byte bound the second one more
    by_cases hlow : v / 4096 % 16 + 224 = 0xE0
    · obtain ⟨hlo, hhi⟩ := ofNat_range (n := v / 64 % 64 + 128) 0xA0 0xBF (by omega)
        (by omega) (by decide)
      refine charLenAt_of_class ?_ rfl hlo hhi hothers
      rw [leadClass_ofNat hlead, if_neg (by omega), if_pos hlow]
      rfl
    · by_cases hhigh : v / 4096 % 16 + 224 = 0xED
      · obtain ⟨hlo, hhi⟩ := ofNat_range (n := v / 64 % 64 + 128) 0x80 0x9F (by omega)
          (by omega) (by decide)
        refine charLenAt_of_class ?_ rfl hlo hhi hothers
        rw [leadClass_ofNat hlead, if_neg (by omega), if_neg hlow, if_pos hhigh]
        rfl
      · obtain ⟨hlo, hhi⟩ := ofNat_range (n := v / 64 % 64 + 128) 0x80 0xBF (by omega)
          (by omega) (by decide)
        refine charLenAt_of_class ?_ rfl hlo hhi hothers
        rw [leadClass_ofNat hlead, if_neg (by omega), if_neg hlow, if_neg hhigh, if_pos (by omega)]
        rfl
  · have hothers : [UInt8.ofNat (v / 64 % 64 + 128), UInt8.ofNat (v % 64 + 128)].all isContinuation =
        true := by
      rw [List.all_cons, List.all_cons, isContinuation_tail, isContinuation_tail]
      rfl
    have hlead : v / 262144 % 8 + 240 < 256 := by omega
    by_cases hlow : v / 262144 % 8 + 240 = 0xF0
    · obtain ⟨hlo, hhi⟩ := ofNat_range (n := v / 4096 % 64 + 128) 0x90 0xBF (by omega)
        (by omega) (by decide)
      refine charLenAt_of_class ?_ rfl hlo hhi hothers
      rw [leadClass_ofNat hlead, if_neg (by omega), if_neg (by omega), if_neg (by omega),
        if_neg (by omega), if_pos hlow]
      rfl
    · by_cases hhigh : v / 262144 % 8 + 240 = 0xF4
      · obtain ⟨hlo, hhi⟩ := ofNat_range (n := v / 4096 % 64 + 128) 0x80 0x8F (by omega)
          (by omega) (by decide)
        refine charLenAt_of_class ?_ rfl hlo hhi hothers
        rw [leadClass_ofNat hlead, if_neg (by omega), if_neg (by omega), if_neg (by omega),
          if_neg (by omega), if_neg hlow, if_pos hhigh]
        rfl
      · obtain ⟨hlo, hhi⟩ := ofNat_range (n := v / 4096 % 64 + 128) 0x80 0xBF (by omega)
          (by omega) (by decide)
        refine charLenAt_of_class ?_ rfl hlo hhi hothers
        rw [leadClass_ofNat hlead, if_neg (by omega), if_neg (by omega), if_neg (by omega),
          if_neg (by omega), if_neg hlow, if_neg hhigh, if_pos (by omega)]
        rfl

namespace Plan

def replacing (edits : EditList) (cursor : Nat) (mode : Mode) (hint : GroupHint)
    (push : Option (Option Bytes)) (pop : Bool) : Plan :=
  { edit edits cursor mode hint with action := .replaceTxn edits hint push pop }

end Plan

section
variable (g : Segmenter) (cells : Cells) (T : Tabs) (b : Bytes) (cur : Nat) (hint : GroupHint)

def planReplaceType (c : Char) : Plan :=
  let typed := String.utf8EncodeChar c
  let le := lineEnd b cur
  let (edits, push) :=
    if cur < le then
      let nb := nextBoundary b cur
      (EditList.one (.replace cur (nb - cur) typed), some (some (slice b cur nb)))
    else (.one (.insert cur typed), some none)
  .replacing edits (cur + typed.length) .replace hint push false

def planVirtualReplaceType (c : Char) : Plan :=
  let typed := String.utf8EncodeChar c
  let tn := typed.length
  let le := lineEnd b cur
  let (edits, push, cursor) :=
    if cur ≥ le then (EditList.one (.insert cur typed), some none, cur + tn)
    else if b[cur]? = some Tabs.tabByte then
      let ls := lineStart b cur
      let vcol := vcolOf cells b ls cur
      let w := T.padding vcol
      -- before its last column a tab only shrinks
      if w > 1 then (.one (.insert cur typed), some none, cur + tn)
      else (.one (.replace cur 1 typed), some (some [Tabs.tabByte]), cur + tn)
    else
      let nb := nextBoundary b cur
      (.one (.replace cur (nb - cur) typed), some (some (slice b cur nb)), cur + tn)
  .replacing edits cursor .virtualReplace hint push false

def planReplaceBackspace (mode : Mode) (replaceStack : List (Option Bytes)) : Plan :=
  match replaceStack.getLast? with
  | none =>
    let ls := lineStart b cur
    .nop (if cur > ls then prevGrapheme g b cur else cur) mode
  | some entry =>
    let start := prevBoundary b cur
    let edits :=
      match entry with
      | some orig => EditList.one (.replace start (cur - start) orig)
      | none => .one (.delete start (cur - start))
    .replacing edits start mode hint none true

end

inductive ReplaceKey where
  | replaceType (c : Char)
  | virtualReplaceType (c : Char)
  | backspace

def ReplaceKey.Types : ReplaceKey → Prop
  | .backspace => False
  | _ => True

def ReplaceKey.plan (g : Segmenter) (cells : Cells) (T : Tabs) (st : EditorState) :
    ReplaceKey → Plan
  | .replaceType c => planReplaceType st.doc.text st.view.cursor st.view.groupHint c
  | .virtualReplaceType c =>
    planVirtualReplaceType cells T st.doc.text st.view.cursor st.view.groupHint c
  | .backspace =>
    planReplaceBackspace g st.doc.text st.view.cursor st.view.groupHint st.view.mode
      st.view.replaceStack

def replaceStep (g : Segmenter) (cells : Cells) (T : Tabs) (st : EditorState) (k : ReplaceKey) :
    Option EditorState :=
  (commit g cells st (k.plan g cells T st)).map Prod.fst

/-! ## A typed character -/

/-- The plan puts `typed` over `del` bytes at the cursor, and what they were on the stack. -/
structure Overwrites (b : Bytes) (cur : Nat) (typed : Bytes) (plan : Plan) (del : Nat)
    (entry : Option Bytes) : Prop where
  le : cur + del ≤ b.length
  entry_eq : entry.getD [] = slice b cur (cur + del)
  action : ∃ hint, plan.action = .replaceTxn (.one (.replace cur del typed)) hint (some entry) false
  cursor : plan.cursor = cur + typed.length
  mode : plan.mode = .replace ∨ plan.mode = .virtualReplace

section
variable {b : Bytes} {cur : Nat}

theorem overwrites_append {typed : Bytes} (hcur : cur ≤ b.length) {hint : GroupHint} {mode : Mode}
    (hmode : mode = .replace ∨ mode = .virtualReplace) :
    Overwrites b cur typed
      (.replacing (.one (.insert cur typed)) (cur + typed.length) mode hint (some none) false) 0
      none where
  le := hcur
  entry_eq := (slice_self b cur).symm
  action := ⟨hint, rfl⟩
  cursor := rfl
  mode := hmode

theorem overwrites_char {typed : Bytes} {stop : Nat} (hcur : cur ≤ stop) (hstop : stop ≤ b.length)
    {hint : GroupHint} {mode : Mode} (hmode : mode = .replace ∨ mode = .virtualReplace) :
    Overwrites b cur typed
      (.replacing (.one (.replace cur (stop - cur) typed)) (cur + typed.length) mode hint
        (some (some (slice b cur stop))) false) (stop - cur) (some (slice b cur stop)) where
  le := by omega
  entry_eq := by rw [Nat.add_sub_cancel' hcur]; rfl
  action := ⟨hint, rfl⟩
  cursor := rfl
  mode := hmode

theorem planReplaceType_overwrites (hcur : cur ≤ b.length) (hint : GroupHint) (c : Char) :
    ∃ del entry, Overwrites b cur (String.utf8EncodeChar c) (planReplaceType b cur hint c) del entry := by
  unfold planReplaceType
  dsimp only
  by_cases hlt : cur < lineEnd b cur
  · have hlen : cur < b.length := Nat.lt_of_lt_of_le hlt (lineEnd_le_length b cur)
    rw [if_pos hlt]
    exact ⟨_, _, overwrites_char (Nat.le_of_lt (nextBoundary_least hlen).1.1) (nextBoundary_le b cur)
      (.inl rfl)⟩
  · rw [if_neg hlt]
    exact ⟨_, _, overwrites_append hcur (.inl rfl)⟩

/-- A character typed in Virtual Replace overwrites what its columns covered. -/
theorem planVirtualReplaceType_overwrites (cells : Cells) (T : Tabs) (hcur : cur ≤ b.length)
    (hint : GroupHint) (c : Char) :
    ∃ del entry, Overwrites b cur (String.utf8EncodeChar c)
      (planVirtualReplaceType cells T b cur hint c) del entry := by
  unfold planVirtualReplaceType
  dsimp only
  by_cases hend : cur ≥ lineEnd b cur
  · rw [if_pos hend]
    exact ⟨_, _, overwrites_append hcur (.inr rfl)⟩
  · have hlen : cur < b.length := Nat.lt_of_lt_of_le (Nat.lt_of_not_le hend) (lineEnd_le_length b cur)
    rw [if_neg hend]
    by_cases htab : b[cur]? = some Tabs.tabByte
    · rw [if_pos htab]
      split
      · exact ⟨_, _, overwrites_append hcur (.inr rfl)⟩
      · -- the tab is the slice of one byte
        have hslice : slice b cur (cur + 1) = [Tabs.tabByte] := by
          rw [slice, Nat.add_sub_cancel_left, List.take_one, List.head?_drop, htab]
          rfl
        have hover := @overwrites_char b cur (String.utf8EncodeChar c) _ (Nat.le_succ cur) hlen hint _
          (.inr rfl)
        rw [Nat.succ_eq_add_one, hslice, Nat.add_sub_cancel_left] at hover
        exact ⟨_, _, hover⟩
    · rw [if_neg htab]
      exact ⟨_, _, overwrites_char (Nat.le_of_lt (nextBoundary_least hlen).1.1)
        (nextBoundary_le b cur) (.inr rfl)⟩

theorem ReplaceKey.overwrites (g : Segmenter) (cells : Cells) (T : Tabs) {st : EditorState}
    (hcur : st.view.cursor ≤ st.doc.text.length) {k : ReplaceKey} (hk : k.Types) :
    ∃ c del entry, Overwrites st.doc.text st.view.cursor (String.utf8EncodeChar c) (k.plan g cells T st)
      del entry := by
  cases k with
  | replaceType c => exact ⟨c, planReplaceType_overwrites hcur _ c⟩
  | virtualReplaceType c => exact ⟨c, planVirtualReplaceType_overwrites cells T hcur _ c⟩
  | backspace => exact hk.elim

end

/-! ## One character and its backspace -/

/-- `c` stands at `cur`. -/
theorem typed_char (c : Char) {b front rest : Bytes} {cur : Nat} (hfront : front.length = cur)
    (hb : b = front ++ String.utf8EncodeChar c ++ rest) :
    isBoundary b cur = true ∧ isBoundary b (cur + (String.utf8EncodeChar c).length) = true ∧
      prevBoundary b (cur + (String.utf8EncodeChar c).length) = cur := by
  have hchar : charLenAt b cur = some (String.utf8EncodeChar c).length := by
    refine charLenAt_same (charLenAt_encode c) fun k hk => ?_
    rw [hb, List.append_assoc, List.getElem?_append_right (by omega), hfront, Nat.add_sub_cancel_left,
      Nat.zero_add, List.getElem?_append_left hk]
  have hat := isBoundary_of_char hchar
  have hstop := Scans.boundary (.char hchar (.refl _)) hat
  have hpos := charLenAt_pos hchar
  have hle := charLenAt_le hchar
  have hlt : cur < b.length := by omega
  refine ⟨hat, hstop, ?_⟩
  have hnext := nextBoundary_unit hat hlt
  rw [unitLen, hchar, Option.getD_some] at hnext
  rw [← hnext]
  exact prevBoundary_nextBoundary hlt hat

/-- What the keys of a session leave of a state when they undo each other. -/
structure Restored (st st' : EditorState) : Prop where
  text : st'.doc.text = st.doc.text
  cursor : st'.view.cursor = st.view.cursor
  replaceStack : st'.view.replaceStack = st.view.replaceStack
  mode : st'.view.mode = .replace ∨ st'.view.mode = .virtualReplace

/-- The cursor is where `commit` leaves it: in the text, on a boundary. -/
def EditorState.OnBoundary (st : EditorState) : Prop :=
  st.view.cursor ≤ st.doc.text.length ∧ isBoundary st.doc.text st.view.cursor = true

/-- What typing `c` over `del` bytes left: the entry is on the stack and the cursor behind `c`. -/
structure Typed (st : EditorState) (c : Char) (del : Nat) (entry : Option Bytes) (st' : EditorState) :
    Prop where
  text : st'.doc.text = st.doc.text.take st.view.cursor ++ String.utf8EncodeChar c ++
    st.doc.text.drop (st.view.cursor + del)
  cursor : st'.view.cursor = st.view.cursor + (String.utf8EncodeChar c).length
  replaceStack : st'.view.replaceStack = st.view.replaceStack ++ [entry]
  mode : st'.view.mode = .replace ∨ st'.view.mode = .virtualReplace

section
variable (g : Segmenter) (cells : Cells) (T : Tabs) {st : EditorState}

/-- A step of the session: the stack stays, and the cursor is where the plan puts it. -/
theorem replaceStep_eq {k : ReplaceKey} {e : Edit} {hint : GroupHint} {push : Option (Option Bytes)}
    {pop : Bool} (haction : (k.plan g cells T st).action = .replaceTxn (.one e) hint push pop)
    (hmode : (k.plan g cells T st).mode = .replace ∨ (k.plan g cells T st).mode = .virtualReplace)
    (hin : e.endPos ≤ st.doc.text.length) :
    ∃ st', replaceStep g cells T st k = some st' ∧
      st'.doc.text = st.doc.text.take e.pos ++ e.ins ++ st.doc.text.drop e.endPos ∧
      st'.view.cursor = snap st'.doc.text (k.plan g cells T st).cursor ∧
      st'.view.replaceStack =
        (if pop then st.view.replaceStack.dropLast else st.view.replaceStack) ++ push.toList ∧
      (st'.view.mode = .replace ∨ st'.view.mode = .virtualReplace) := by
  obtain ⟨st', effects, hcommit, hed⟩ := commit_replaceTxn g cells haction (EditList.one_inBounds hin)
  have hentry : (k.plan g cells T st).mode.isTextEntry = true := by
    rcases hmode with h | h <;> rw [h] <;> rfl
  refine ⟨st', congrArg (Option.map Prod.fst) hcommit, ?_, hed.cursor (.inr hentry), ?_, ?_⟩
  · rw [hed.text, EditList.one_applyTo]
  · rw [hed.replaceStack, if_neg]
    rintro ⟨hr, hv⟩
    exact hmode.elim hr hv
  · rwa [hed.mode]

theorem replaceStep_type (hcur : st.OnBoundary) {k : ReplaceKey} (hk : k.Types) :
    ∃ st' c del entry, replaceStep g cells T st k = some st' ∧
      entry.getD [] = slice st.doc.text st.view.cursor (st.view.cursor + del) ∧
      Typed st c del entry st' := by
  obtain ⟨c, del, entry, hover⟩ := k.overwrites g cells T hcur.1 hk
  obtain ⟨hint, haction⟩ := hover.action
  obtain ⟨st', hstep, htext, hcursor, hstack, hmode⟩ :=
    replaceStep_eq g cells T haction hover.mode hover.le
  refine ⟨st', c, del, entry, hstep, hover.entry_eq, htext, ?_, hstack, hmode⟩
  have hlen : (st.doc.text.take st.view.cursor).length = st.view.cursor := by
    rw [List.length_take, Nat.min_eq_left hcur.1]
  obtain ⟨-, hstop, -⟩ := typed_char c hlen htext
  rw [hcursor, hover.cursor]
  refine snap_of_isBoundary ?_ hstop
  have hsize := congrArg List.length htext
  simp only [Edit.replace, List.length_append, hlen] at hsize
  omega

theorem Typed.onBoundary (hcur : st.OnBoundary) {st' : EditorState} {c : Char} {del : Nat}
    {entry : Option Bytes} (h : Typed st c del entry st') : st'.OnBoundary := by
  have hlen : (st.doc.text.take st.view.cursor).length = st.view.cursor := by
    rw [List.length_take, Nat.min_eq_left hcur.1]
  obtain ⟨-, hstop, -⟩ := typed_char c hlen h.text
  have hsize := congrArg List.length h.text
  simp only [List.length_append, hlen] at hsize
  unfold EditorState.OnBoundary
  rw [h.cursor]
  exact ⟨by omega, hstop⟩

/-- A backspace puts back what the character typed last replaced. -/
theorem replaceStep_backspace (hcur : st.OnBoundary) {st' u : EditorState} {c : Char} {del : Nat}
    {entry : Option Bytes} (hentry : entry.getD [] = slice st.doc.text st.view.cursor (st.view.cursor + del))
    (h : Typed st c del entry st') (hu : Restored st' u) :
    ∃ st'', replaceStep g cells T u .backspace = some st'' ∧ Restored st st'' := by
  have hlen : (st.doc.text.take st.view.cursor).length = st.view.cursor := by
    rw [List.length_take, Nat.min_eq_left hcur.1]
  have htext := hu.text.trans h.text
  have hcursor := hu.cursor.trans h.cursor
  have hstack := hu.replaceStack.trans h.replaceStack
  obtain ⟨-, -, hprev⟩ := typed_char c hlen htext
  let e : Edit := .replace st.view.cursor (String.utf8EncodeChar c).length (entry.getD [])
  have hplan : ReplaceKey.backspace.plan g cells T u =
      .replacing (.one e) st.view.cursor u.view.mode u.view.groupHint none true := by
    show planReplaceBackspace .. = _
    unfold planReplaceBackspace
    rw [hstack, List.getLast?_append, List.getLast?_singleton, Option.some_or]
    dsimp only
    rw [hcursor, hprev, Nat.add_sub_cancel_left]
    cases entry <;> rfl
  have hsize := congrArg List.length htext
  simp only [List.length_append, hlen] at hsize
  obtain ⟨st'', hstep, htext'', hcursor'', hstack'', hmode''⟩ :=
    replaceStep_eq g cells T (k := .backspace) (e := e) (by rw [hplan]; rfl)
      (by rw [hplan]; exact hu.mode) (show st.view.cursor + (String.utf8EncodeChar c).length ≤ u.doc.text.length by omega)
  have hback : st''.doc.text = st.doc.text := by
    have htake : u.doc.text.take e.pos = st.doc.text.take st.view.cursor := by
      rw [htext, List.append_assoc]
      exact List.take_left' hlen
    have hdrop : u.doc.text.drop e.endPos = st.doc.text.drop (st.view.cursor + del) := by
      rw [htext]
      refine List.drop_left' ?_
      rw [List.length_append, hlen]
      rfl
    calc st''.doc.text = u.doc.text.take e.pos ++ entry.getD [] ++ u.doc.text.drop e.endPos := htext''
      _ = st.doc.text.take st.view.cursor ++ slice st.doc.text st.view.cursor (st.view.cursor + del) ++
          st.doc.text.drop (st.view.cursor + del) := by rw [htake, hdrop, hentry]
      _ = st.doc.text := by
        rw [List.append_assoc, slice_append_drop (Nat.le_add_right _ _), List.take_append_drop]
  refine ⟨st'', hstep, hback, ?_, ?_, hmode''⟩
  · rw [hcursor'', hback, hplan]
    exact snap_of_isBoundary hcur.1 hcur.2
  · rw [hstack'', if_pos rfl, hstack, List.dropLast_concat]
    exact List.append_nil _

/-- As many backspaces as characters were typed bring back the text, the cursor and the stack. -/
theorem replace_backspaces (hcur : st.OnBoundary)
    (hmode : st.view.mode = .replace ∨ st.view.mode = .virtualReplace) (keys : List ReplaceKey)
    (hkeys : ∀ k ∈ keys, k.Types) :
    ∃ st', walkAlong (replaceStep g cells T) st
        (keys ++ List.replicate keys.length .backspace) = some st' ∧ Restored st st' := by
  induction keys generalizing st with
  | nil => exact ⟨st, rfl, rfl, rfl, rfl, hmode⟩
  | cons k keys ih =>
    obtain ⟨t, c, del, entry, hstep, hentry, htyped⟩ :=
      replaceStep_type g cells T hcur (hkeys k List.mem_cons_self)
    obtain ⟨u, hrun, hu⟩ := ih (htyped.onBoundary hcur) htyped.mode
      fun k' hk' => hkeys k' (List.mem_cons_of_mem k hk')
    obtain ⟨st', hback, hst'⟩ := replaceStep_backspace g cells T hcur hentry htyped hu
    refine ⟨st', ?_, hst'⟩
    -- the last backspace is for the first character
    rw [List.length_cons, List.replicate_succ', ← List.append_assoc, List.cons_append,
      walkAlong_append, walkAlong_cons hstep, hrun, Option.bind_some, walkAlong_cons hback]
    rfl

end

/-- A tab before `x`, in Virtual Replace mode. -/
def tabLine : EditorState where
  doc := .new [9, 120]
  view := { View.fresh with mode := .virtualReplace }
  origin := .userInput

/-- The accented letter is a cell of two bytes. -/
theorem replace_backspaces_tabLine :
    let cells : Cells := fun b i _ _ => (if b.getD i 0 = 0xC3 then i + 2 else i + 1, 1)
    ∃ st', walkAlong (replaceStep .eachChar cells (.uniform 8)) tabLine
        [.virtualReplaceType 'é', .virtualReplaceType 'b', .backspace, .backspace] = some st' ∧
      Restored tabLine st' :=
  replace_backspaces _ _ _ ⟨by decide, by decide⟩ (.inr rfl)
    [.virtualReplaceType 'é', .virtualReplaceType 'b']
    (List.forall_mem_cons.mpr ⟨trivial, List.forall_mem_singleton.mpr trivial⟩)

end Ruse.Core
