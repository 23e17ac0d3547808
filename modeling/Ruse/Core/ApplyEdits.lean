import Ruse.Core.Columns
import Ruse.Core.Command
import Ruse.Core.EditsAtOnce

/-!
# A batch of edits

The model of `apply_edits` in `crates/core/src/editor/mod.rs`: the batch a language server
sends, in any order, as one undo group. It is refused whole, before anything is written
(`applyEdits_refused`), or applied at once to the old text; what is taken is a matter of the
batch and the text alone (`Accepts`), and once the tests are passed nothing after them fails
(`applyEdits_accepted`).
-/

namespace Ruse.Core

def maxApplyEdits : Nat := 2 ^ 20

/-- The most bytes of replacement text of one batch: `i32::MAX`. -/
def maxApplyEditBytes : Nat := 2 ^ 31 - 1

/-- The largest `usize`. -/
def usizeMax : Nat := 2 ^ 64 - 1

/-- One edit of a batch: the bytes `start..stop` become the text. -/
structure TextEdit where
  start : Nat
  stop : Nat
  text : Bytes
  valid : ValidUtf8 text

namespace TextEdit

def delete (start stop : Nat) : TextEdit := ⟨start, stop, [], validUtf8_iff.mpr (.refl 0)⟩

def edit (e : TextEdit) : Edit := Edit.replace e.start (e.stop - e.start) e.text

/-- The bytes of replacement text, saturating. -/
def textBytes (edits : List TextEdit) : Nat :=
  (edits.map fun e => e.text.length).foldl (fun n len => min (n + len) usizeMax) 0

end TextEdit

/-- The closure `boundary` of `apply_edits`. -/
def editBoundary (b : Bytes) (p : Nat) : Bool :=
  p == b.length || (decide (p < b.length) && !isContinuation (b.getD p 0))

namespace EditorState

/-- The wanted column the caret sets where it stands. -/
def wantedCol (cells : Cells) (st : EditorState) : Nat :=
  let tabEnd : Bool := match st.view.mode with
    | .normal => st.view.caret = .onChar
    | .visual _ => st.view.anchor.all (· ≤ st.view.cursor)
    | _ => false
  wantedVcol cells st.doc.text st.view.cursor tabEnd

/-- `set_cursor`: into the text, on a boundary. -/
def setCursor (cells : Cells) (st : EditorState) (pos : Nat) : EditorState :=
  let b := st.doc.text
  let st := { st with view := { st.view with cursor := snap b (min pos b.length) } }
  { st with view := { st.view with curswant := st.wantedCol cells } }

/-- `apply_edits`: the state after it, and whether it applied the batch. -/
def applyEdits (cells : Cells) (st : EditorState) (edits : List TextEdit)
    (origin : TransactionOrigin) : EditorState × Bool :=
  let b := st.doc.text
  if edits.isEmpty || decide (edits.length > maxApplyEdits) ||
      decide (TextEdit.textBytes edits > maxApplyEditBytes) ||
      !edits.all fun e =>
        decide (e.start ≤ e.stop) && decide (e.stop ≤ b.length) && editBoundary b e.start &&
          editBoundary b e.stop then
    (st, false)
  else
    match EditList.new (edits.map TextEdit.edit) with
    | .error _ => (st, false)
    | .ok list =>
      let cursor := mapByte list st.view.cursor .after
      let txn := (Transaction.new st.doc.revision list origin).withHint .breakBefore
      match st.applyTxn txn with
      | none => (st, false)
      | some st =>
        let st := { st with view := { st.view with lastWasEdit := true } }
        ((st.setCursor cells (min cursor st.doc.text.length)).settleOffsets, true)

end EditorState

theorem EditorState.settleOffsets_cursor (st : EditorState) :
    st.settleOffsets.view.cursor = snap st.doc.text st.view.cursor := rfl

theorem EditorState.setCursor_doc (cells : Cells) (st : EditorState) (pos : Nat) :
    (st.setCursor cells pos).doc = st.doc := rfl

theorem EditorState.setCursor_cursor (cells : Cells) (st : EditorState) (pos : Nat) :
    (st.setCursor cells pos).view.cursor = snap st.doc.text (min pos st.doc.text.length) := rfl

/-! ## What is accepted -/

/-- No character goes over `p`: the end of the text, or a byte that continues none. -/
def OnBoundary (b : Bytes) (p : Nat) : Prop :=
  p = b.length ∨ (p < b.length ∧ isContinuation (b.getD p 0) = false)

namespace TextEdit

/-- The edit deletes or inserts something. -/
def Changes (e : TextEdit) : Prop := e.start ≠ e.stop ∨ e.text ≠ []

/-- Two edits start at one place, or one starts inside the other. -/
def Overlaps (d e : TextEdit) : Prop :=
  d.start = e.start ∨ (d.start < e.start ∧ e.start < d.stop) ∨ (e.start < d.start ∧ d.start < e.stop)

/-- The edit is in order, in the text and between characters. -/
structure Fits (b : Bytes) (e : TextEdit) : Prop where
  order : e.start ≤ e.stop
  inside : e.stop ≤ b.length
  start : OnBoundary b e.start
  stop : OnBoundary b e.stop

end TextEdit

/-- A batch that `apply_edits` takes. -/
structure Accepts (b : Bytes) (edits : List TextEdit) : Prop where
  nonempty : edits ≠ []
  count : edits.length ≤ maxApplyEdits
  size : (edits.map fun e => e.text.length).sum ≤ maxApplyEditBytes
  fits : ∀ e ∈ edits, e.Fits b
  apart : edits.Pairwise fun d e => d.Changes → e.Changes → ¬ d.Overlaps e

theorem editBoundary_iff {b : Bytes} {p : Nat} : editBoundary b p = true ↔ OnBoundary b p := by
  simp [editBoundary, OnBoundary]

theorem OnBoundary.uncut {b : Bytes} {p : Nat} (h : OnBoundary b p) : Uncut b p := by
  rcases h with rfl | ⟨-, h⟩
  · rw [Uncut, List.getD_eq_default _ _ (Nat.le_refl _)]
    rfl
  · exact h

namespace TextEdit

variable {b : Bytes} {edits : List TextEdit}

theorem textBytes_eq (edits : List TextEdit) :
    textBytes edits = min (edits.map fun e => e.text.length).sum usizeMax := by
  have hfold : ∀ (ns : List Nat) (n : Nat), n ≤ usizeMax →
      ns.foldl (fun n len => min (n + len) usizeMax) n = min (n + ns.sum) usizeMax := by
    intro ns
    induction ns with
    | nil =>
      intro n hn
      simp [hn]
    | cons len ns ih =>
      intro n hn
      rw [List.foldl_cons, ih _ (Nat.min_le_right _ _), List.sum_cons]
      omega
  rw [textBytes, hfold _ 0 (Nat.zero_le _), Nat.zero_add]

theorem changes_edit {e : TextEdit} (h : e.start ≤ e.stop) : e.edit.Changes ↔ e.Changes := by
  have hdel : e.edit.del ≠ 0 ↔ e.start ≠ e.stop := by
    show e.stop - e.start ≠ 0 ↔ _
    omega
  exact or_congr hdel Iff.rfl

theorem apart_edit {d e : TextEdit} (hd : d.start ≤ d.stop) (he : e.start ≤ e.stop) :
    d.edit.Apart e.edit ↔ ¬ d.Overlaps e := by
  simp only [Edit.Apart, Edit.Before, Edit.endPos, edit, Edit.replace, Overlaps]
  omega

/-- Edits that are each in order form a list just where no two of them overlap. -/
theorem new_edits_iff (h : ∀ e ∈ edits, e.start ≤ e.stop) :
    (∃ l, EditList.new (edits.map edit) = .ok l) ↔
      edits.Pairwise fun d e => d.Changes → e.Changes → ¬ d.Overlaps e := by
  rw [EditList.new_ok_iff_apart, List.pairwise_map]
  refine List.Pairwise.iff_of_mem fun {d e} hd he => ?_
  rw [changes_edit (h d hd), changes_edit (h e he), apart_edit (h d hd) (h e he)]

end TextEdit

/-! ## All or nothing -/

theorem Document.applyInner_text {d d' : Document} {txn : Transaction} {track : Bool}
    {tracked tracked' : List Tracked} (h : d.applyInner txn track tracked = .ok (d', tracked')) :
    d'.text = txn.edits.applyTo d.text := by
  unfold applyInner at h
  split at h
  · cases h
  · split at h
    · cases h
    · cases h
    · split at h
      · rename_i hempty
        cases h
        rw [EditList.isEmpty_iff.mp hempty, EditList.applyTo_empty]
        rfl
      · cases h
        rfl

theorem TextEdit.Overlaps.symm {d e : TextEdit} (h : d.Overlaps e) : e.Overlaps d := by
  unfold Overlaps at h ⊢
  omega

theorem Accepts.perm {b : Bytes} {edits edits' : List TextEdit} (h : Accepts b edits)
    (hperm : edits.Perm edits') : Accepts b edits' where
  nonempty := fun hnil => h.nonempty (by rw [hnil] at hperm; exact hperm.eq_nil)
  count := hperm.length_eq ▸ h.count
  size := by
    rw [← (hperm.map fun e => e.text.length).sum_eq]
    exact h.size
  fits := fun e he => h.fits e (hperm.mem_iff.mpr he)
  apart := (hperm.pairwise_iff fun hde he hd hover => hde hd he hover.symm).mp h.apart

namespace EditorState

variable {cells : Cells} {st : EditorState} {edits edits' : List TextEdit} {origin : TransactionOrigin}

theorem applyTxn_inBounds (st : EditorState) (l : EditList) (hint : GroupHint)
    (origin : TransactionOrigin) (hin : l.InBounds st.doc.text.length) :
    ∃ st', st.applyTxn ((Transaction.new st.doc.revision l origin).withHint hint) = some st' ∧
      st'.doc.text = l.applyTo st.doc.text := by
  obtain ⟨d, t, h⟩ := st.doc.applyInner_inBounds true st.view.tracked
    ((Transaction.new st.doc.revision l origin).withHint hint) rfl hin
  refine ⟨{ st with doc := d, view := st.view.untrack t }, ?_, Document.applyInner_text h⟩
  unfold applyTxn Document.applyTracked
  rw [h]

/-- The tests of `apply_edits` before the edits become a list. -/
theorem gate_iff : (edits.isEmpty || decide (edits.length > maxApplyEdits) ||
      decide (TextEdit.textBytes edits > maxApplyEditBytes) ||
      !edits.all fun e =>
        decide (e.start ≤ e.stop) && decide (e.stop ≤ st.doc.text.length) &&
          editBoundary st.doc.text e.start && editBoundary st.doc.text e.stop) = false ↔
    edits ≠ [] ∧ edits.length ≤ maxApplyEdits ∧
      (edits.map fun e => e.text.length).sum ≤ maxApplyEditBytes ∧ ∀ e ∈ edits, e.Fits st.doc.text := by
  have hsize : TextEdit.textBytes edits ≤ maxApplyEditBytes ↔
      (edits.map fun e => e.text.length).sum ≤ maxApplyEditBytes := by
    have hlt : maxApplyEditBytes < usizeMax := by decide
    rw [TextEdit.textBytes_eq]
    omega
  have hfits : ∀ e : TextEdit, (decide (e.start ≤ e.stop) && decide (e.stop ≤ st.doc.text.length) &&
      editBoundary st.doc.text e.start && editBoundary st.doc.text e.stop) = true ↔
      e.Fits st.doc.text := by
    intro e
    rw [Bool.and_eq_true, Bool.and_eq_true, Bool.and_eq_true, decide_eq_true_iff, decide_eq_true_iff,
      editBoundary_iff, editBoundary_iff]
    exact ⟨fun h => ⟨h.1.1.1, h.1.1.2, h.1.2, h.2⟩, fun h => ⟨⟨⟨h.1, h.2⟩, h.3⟩, h.4⟩⟩
  simp only [Bool.or_eq_false_iff, Bool.not_eq_false', List.all_eq_true, hfits, List.isEmpty_eq_false_iff,
    decide_eq_false_iff_not, gt_iff_lt, Nat.not_lt, hsize, and_assoc]

/-- A batch that is not accepted changes nothing. -/
theorem applyEdits_refused (h : ¬ Accepts st.doc.text edits) :
    st.applyEdits cells edits origin = (st, false) := by
  unfold applyEdits
  dsimp only
  split
  · rfl
  · rename_i hgate
    obtain ⟨hne, hcount, hsize, hfits⟩ := gate_iff.mp ((Bool.not_eq_true _).mp hgate)
    cases hnew : EditList.new (edits.map TextEdit.edit) with
    | error e => rfl
    | ok l =>
      have hapart := (TextEdit.new_edits_iff fun e he => (hfits e he).order).mp ⟨l, hnew⟩
      exact absurd ⟨hne, hcount, hsize, hfits, hapart⟩ h

theorem applyEdits_perm (hperm : edits.Perm edits') :
    st.applyEdits cells edits' origin = st.applyEdits cells edits origin := by
  by_cases h : Accepts st.doc.text edits
  · obtain ⟨l, hl⟩ := (TextEdit.new_edits_iff fun e he => (h.fits e he).order).mpr h.apart
    have h' := h.perm hperm
    unfold applyEdits
    dsimp only
    rw [gate_iff.mpr ⟨h.nonempty, h.count, h.size, h.fits⟩,
      gate_iff.mpr ⟨h'.nonempty, h'.count, h'.size, h'.fits⟩, hl, EditList.new_perm (hperm.map _) hl]
  · have h' : ¬ Accepts st.doc.text edits' := fun h' => h (h'.perm hperm.symm)
    rw [applyEdits_refused h, applyEdits_refused h']

variable (cells origin) in
/-- A batch that is accepted is applied at once, and the cursor goes with it. -/
theorem applyEdits_accepted (h : Accepts st.doc.text edits) :
    ∃ l, EditList.new (edits.map TextEdit.edit) = .ok l ∧
      (st.applyEdits cells edits origin).2 = true ∧
      (st.applyEdits cells edits origin).1.doc.text =
        Edit.atOnce (edits.map TextEdit.edit) st.doc.text ∧
      (st.view.cursor ≤ st.doc.text.length → isBoundary st.doc.text st.view.cursor = true →
        (st.applyEdits cells edits origin).1.view.cursor = mapByte l st.view.cursor .after) := by
  obtain ⟨l, hl⟩ := (TextEdit.new_edits_iff fun e he => (h.fits e he).order).mpr h.apart
  have hmem : ∀ e ∈ l.edits, ∃ d ∈ edits, d.edit = e := fun e he =>
    List.mem_map.mp (EditList.mem_kept.mp (EditList.edits_of_new hl ▸ he)).1
  have hend : ∀ d ∈ edits, d.edit.endPos = d.stop := by
    intro d hd
    have := (h.fits d hd).order
    show d.start + (d.stop - d.start) = d.stop
    omega
  have hin : l.InBounds st.doc.text.length := by
    intro e he
    obtain ⟨d, hd, rfl⟩ := hmem e he
    rw [hend d hd]
    exact (h.fits d hd).inside
  obtain ⟨st', htxn, htext⟩ := st.applyTxn_inBounds l .breakBefore origin hin
  have hrun : st.applyEdits cells edits origin =
      ((({ st' with view := { st'.view with lastWasEdit := true } } : EditorState).setCursor cells
        (min (mapByte l st.view.cursor .after) st'.doc.text.length)).settleOffsets, true) := by
    unfold applyEdits
    dsimp only
    rw [gate_iff.mpr ⟨h.nonempty, h.count, h.size, h.fits⟩, if_neg (by decide), hl]
    dsimp only
    rw [htxn]
  refine ⟨l, hl, by rw [hrun], ?_, fun hle hb => ?_⟩
  · rw [hrun]
    exact htext.trans (EditList.applyTo_atOnce hl hin)
  · have hle' : mapByte l st.view.cursor .after ≤ st'.doc.text.length := by
      rw [htext]
      exact mapByteInside_le hin hle .after
    have hboundary : isBoundary st'.doc.text (mapByte l st.view.cursor .after) = true := by
      rw [htext]
      refine isBoundary_mapByte hin (fun e he => ?_) (fun e he => ?_) hb
      · obtain ⟨d, hd, rfl⟩ := hmem e he
        exact d.valid
      · obtain ⟨d, hd, rfl⟩ := hmem e he
        rw [hend d hd]
        exact (h.fits d hd).stop.uncut
    rw [hrun]
    rw [settleOffsets_cursor, setCursor_cursor, setCursor_doc]
    rw [Nat.min_eq_left hle', Nat.min_eq_left hle', snap_of_isBoundary hle' hboundary,
      snap_of_isBoundary hle' hboundary]

end EditorState

/-- The command is atomic: a batch that fails leaves the state as it was; one that is accepted,
and no other, succeeds; the order its edits are given in does not matter; and the text it
leaves is the old one with every edit applied at once, the cursor where its byte went. -/
theorem apply_edits_atomic (cells : Cells) (st : EditorState) (edits : List TextEdit)
    (origin : TransactionOrigin) :
    let r := st.applyEdits cells edits origin
    (r.2 = false → r.1 = st) ∧
    (r.2 = true ↔ Accepts st.doc.text edits) ∧
    (∀ edits', edits.Perm edits' → st.applyEdits cells edits' origin = r) ∧
    (r.2 = true → r.1.doc.text = Edit.atOnce (edits.map TextEdit.edit) st.doc.text ∧
      ∃ l, EditList.new (edits.map TextEdit.edit) = .ok l ∧
        (st.view.cursor ≤ st.doc.text.length → isBoundary st.doc.text st.view.cursor = true →
          r.1.view.cursor = mapByte l st.view.cursor .after)) := by
  intro r
  by_cases h : Accepts st.doc.text edits
  · obtain ⟨l, hl, htrue, htext, hcursor⟩ := EditorState.applyEdits_accepted cells origin h
    refine ⟨fun hfail => ?_, ⟨fun _ => h, fun _ => htrue⟩, fun edits' hperm =>
      EditorState.applyEdits_perm hperm, fun _ => ⟨htext, l, hl, hcursor⟩⟩
    rw [htrue] at hfail
    cases hfail
  · have hrefused : r = (st, false) := EditorState.applyEdits_refused h
    refine ⟨fun _ => by rw [hrefused], ⟨fun htrue => ?_, fun haccepts => absurd haccepts h⟩,
      fun edits' hperm => EditorState.applyEdits_perm hperm, fun htrue => ?_⟩
    · rw [hrefused] at htrue
      cases htrue
    · rw [hrefused] at htrue
      cases htrue

/-- A batch of no edits fails, and an edit that changes nothing may stand inside a deletion. -/
theorem apply_no_edits :
    let st : EditorState := ⟨Document.new [97, 98, 99, 100], View.fresh, .userInput⟩
    let cells : Cells := fun _ i _ _ => (i + 1, 1)
    (¬ ∀ edits : List TextEdit, edits.length ≤ maxApplyEdits →
      (edits.map fun e => e.text.length).sum ≤ maxApplyEditBytes →
      (∀ e ∈ edits, e.Fits st.doc.text) → (edits.Pairwise fun d e => ¬ d.Overlaps e) →
      (st.applyEdits cells edits .userInput).2 = true) ∧
    ¬ ∀ edits : List TextEdit, (st.applyEdits cells edits .userInput).2 = true →
      edits.Pairwise fun d e => ¬ d.Overlaps e := by
  intro st cells
  constructor
  · intro h
    have hempty := h [] (Nat.zero_le _) (Nat.zero_le _) (fun e he => absurd he List.not_mem_nil) .nil
    cases hempty
  · intro h
    have hpair := h [.delete 1 3, .delete 2 2] (by decide +kernel)
    exact List.rel_of_pairwise_cons hpair List.mem_cons_self (.inr (.inl ⟨by decide, by decide⟩))

end Ruse.Core
