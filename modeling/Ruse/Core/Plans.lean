import Ruse.Core.Commit
import Ruse.Core.LinesChanged
import Ruse.Core.Tabs

/-!
# What planners return

The constructors of `crates/core/src/editor/planner.rs` for a `Plan`.
-/

namespace Ruse.Core

namespace EditList

def one (e : Edit) : EditList := (new [e]).toOption.getD .empty

theorem new_one (e : Edit) : new [e] = .ok (one e) := by
  obtain ⟨l, hl⟩ := new_single e
  rw [one, hl]
  rfl

theorem one_inBounds {e : Edit} {len : Nat} (h : e.endPos ≤ len) : (one e).InBounds len :=
  new_single_inBounds (new_one e) h

theorem one_applyTo (e : Edit) (b : Bytes) :
    (one e).applyTo b = b.take e.pos ++ e.ins ++ b.drop e.endPos :=
  new_single_applyTo b (new_one e)

end EditList

/-- The hint of a planned edit: it goes on with the edit before it. -/
def View.groupHint (v : View) : GroupHint := if v.lastWasEdit then .continue' else .breakBefore

namespace Plan

def nop (cursor : Nat) (mode : Mode) : Plan where
  action := .nop
  cursor
  mode
  isEdit := false
  effects := []
  setRegister := none
  setAnchor := none
  setMark := none

def beep (cursor : Nat) (mode : Mode) : Plan := { nop cursor mode with effects := [.beep] }

def edit (edits : EditList) (cursor : Nat) (mode : Mode) (hint : GroupHint) : Plan :=
  { nop cursor mode with action := .txn edits hint, isEdit := true }

/-- An edit that also adds what it removes to the kill ring. -/
def editKill (edits : EditList) (cursor : Nat) (mode : Mode) (hint : GroupHint) (reg : Register) :
    Plan :=
  { edit edits cursor mode hint with setRegister := some (.killAppend reg) }

end Plan

/-! ## Pasting a register

The model of `paste` in `crates/core/src/editor/planner.rs`, which every put goes through. The
put of a block (`paste_block`) is a parameter here.
-/

def Register.isBlockwise (r : Register) : Bool := r.kind == .blockwise

/-- The most bytes a counted put repeats the register to. -/
def maxPutBytes : Nat := 2 ^ 26

/-- `paste_block`, of the text, the cursor, the register, whether after the cursor, how often, with
the rows padded to the block's width, and the tab stops. -/
abbrev PasteBlock := Bytes → Nat → Register → Bool → Nat → Bool → Tabs → Plan

section
variable (g : Segmenter) (pasteBlock : PasteBlock) (b : Bytes) (cur : Nat) (mode : Mode)
  (reg : Register) (after : Bool) (count : Nat) (gravity : CaretGravity) (moveAfter padBlock : Bool)
  (ts : Tabs)

def putCount : Nat := min (max count 1) (max (maxPutBytes / max reg.text.length 1) 1)

def paste : Plan :=
  if reg.isEmpty then .nop cur mode
  else
    let count := putCount reg count
    if reg.isBlockwise then pasteBlock b cur reg after count padBlock ts
    else
      let text := (List.replicate count reg.text).flatten
      let n := text.length
      let endMode := if mode = .insert then Mode.insert else Mode.normal
      let put (pos : Nat) (bytes : Bytes) (cursor : Nat) : Plan :=
        .edit (.one (.insert pos bytes)) cursor endMode .breakBefore
      if reg.isLinewise then
        let fnb := (text.takeWhile fun c => c == 0x20 || c == 0x09).length
        if after then
          let le := lineEnd b cur
          if le < b.length then put (le + 1) text (if moveAfter then le + 1 + n else le + 1 + fnb)
          else
            -- the last line gets the newline the put text gives up
            let bytes := newline :: (if text.getLast? = some newline then text.dropLast else text)
            put le bytes (if moveAfter then le + bytes.length else le + 1 + fnb)
        else
          let ls := lineStart b cur
          put ls text (if moveAfter then ls + n else ls + fnb)
      else
        let multiline := text.contains newline
        let last := if multiline || n == 0 then 1 else n - prevGrapheme g text n
        let tail (stop : Nat) : Nat :=
          match gravity with
          | .betweenChar => stop
          | .onChar => stop - last
        let pos :=
          if after then
            if cur < b.length ∧ b[cur]? ≠ some newline then nextGrapheme g b cur else cur
          else cur
        put pos text (if moveAfter then pos + n else if multiline then pos else tail (pos + n))

end

variable {g : Segmenter} {pasteBlock : PasteBlock} {b : Bytes} {cur : Nat} {mode : Mode} {ts : Tabs}

/-- One put of whole characters before a caret between characters: the caret ends after them, but
for ones with a newline. -/
theorem paste_before {text : Bytes} (htext : text ≠ []) (padBlock : Bool) :
    paste g pasteBlock b cur mode (.charwise text) false 1 .betweenChar false padBlock ts =
      .edit (.one (.insert cur text)) (if newline ∈ text then cur else cur + text.length)
        (if mode = .insert then .insert else .normal) .breakBefore := by
  have hcount : putCount (.charwise text) 1 = 1 := by
    unfold putCount
    omega
  have hempty : (Register.charwise text).isEmpty = false := by
    simpa [Register.isEmpty, Register.charwise] using htext
  have hblock : (Register.charwise text).isBlockwise = false := rfl
  have hline : (Register.charwise text).isLinewise = false := rfl
  have hflat : (List.replicate 1 (Register.charwise text).text).flatten = text :=
    (List.append_nil _)
  unfold paste
  simp only [hempty, hcount, hblock, hline, hflat, Bool.false_eq_true, if_false,
    List.contains_iff_mem]

end Ruse.Core
