import Ruse.Core.CellSteps
import Ruse.Core.TextBuf
import Ruse.Lib.Words

/-!
# Word motions

The model of the word walks of `crates/core/src/motion.rs` (`w`, `b`, `e`, `ge` and their
WORD forms) and of the classes they go by (`charclass.rs`). The classes from U+0080 on are a
table captured from Neovim; the walks are the same whatever it holds, so it is a parameter
(`WordText.classes`).

Vim's walks see every line end in a `NUL` slot, its newline here, or the end of the text;
`vinc` and `vdec` step over that model by cluster.
-/

namespace Ruse.Core

open Ruse.Lib

/-- A run of code points of one class, not the word class. -/
structure ClassRun where
  first : Nat
  last : Nat
  cls : Nat
deriving DecidableEq, Repr

/-- Vim's class of a character: 0 blank, 1 punctuation, 2 word, else emoji or a script. -/
def vimClass (classes : List ClassRun) (c : Char) : Nat :=
  if c.toNat < 0x80 then
    if c = ' ' ∨ c = '\t' ∨ c = '\x00' then 0
    else if c.isAlphanum ∨ c = '_' then 2
    else 1
  else
    match classes.find? fun run => run.first ≤ c.toNat ∧ c.toNat ≤ run.last with
    | some run => run.cls
    | none => 2

/-- The character of the cell at `p`; a byte that is not UTF-8 is the Latin-1 character of
its value. -/
def cellChar (b : Bytes) (p : Nat) : Option Char :=
  match b[p]? with
  | none => none
  | some lead =>
    if lead < 0x80 then some (Char.ofNat lead.toNat)
    else
      match charLenAt b p with
      | some w => some (charAt b p w)
      | none => some (Char.ofNat lead.toNat)

/-- Vim `cls()`: 0 for a blank, a line break and the end of the text, else the class, or 1
for all of them when `big`. -/
def charCls (classes : List ClassRun) (b : Bytes) (p : Nat) (big : Bool) : Nat :=
  match b[p]? with
  | none => 0
  | some lead =>
    let cls :=
      if lead < 0x80 then vimClass classes (Char.ofNat lead.toNat)
      else ((cellChar b p).map (vimClass classes)).getD 2
    if lead = newline then 0
    else if cls = 0 then 0
    else if big then 1
    else cls

/-- The text the walks go over, the crate they step by and the class table. -/
structure WordText where
  b : Bytes
  steps : Segmenter
  classes : List ClassRun

namespace WordText

variable (t : WordText)

/-- Vim `cls()` on the line model: a `NUL` slot is blank. -/
def vcls (p : Nat) (big : Bool) : Nat := if atNul t.b p then 0 else charCls t.classes t.b p big

def onEmptyLine (p : Nat) : Bool := atBol t.b p && atNul t.b p

/-- Vim `inc`: `none` from the last line's `NUL` slot. -/
def vinc (p : Nat) : Option (Nat × StepCode) :=
  if !atNul t.b p then
    let q := nextGrapheme t.steps t.b p
    some (q, if atNul t.b q then .onNul else .within)
  else if p + 1 < t.b.length then some (p + 1, .crossed)
  else none

/-- Vim `dec`: `none` at the start of the text. -/
def vdec (p : Nat) : Option (Nat × StepCode) :=
  if 0 < p ∧ (t.b.length < p ∨ t.b[p - 1]? ≠ some newline) then
    some (prevGrapheme t.steps t.b p, .within)
  else if 0 < p then some (p - 1, .crossed)
  else none

/-- A step of `word_fwd`, which stops over a line end when `eol`. -/
def fwdStep (eol : Bool) (p : Nat) : Option (Nat × Bool) :=
  (t.vinc p).map fun m => (m.1, eol && m.2.overLine)

def backStep (p : Nat) : Option (Nat × Bool) := (t.vdec p).map fun m => (m.1, false)

/-- One word of `word_fwd`, and whether the walk returns there: a step onto or over the last
line's `NUL` slot, or over a line end when `eol`, is the end of the motion. -/
def fwdWord (fuel : Nat) (eol : Bool) (p : Nat) (big : Bool) : Option (Nat × Bool) :=
  match t.vinc p with
  | none => some (p, true)
  | some (q, code) =>
    let crossed := match code with
      | .onNul => decide (t.b.length ≤ q + 1)
      | .crossed => decide (t.b.length ≤ p + 1)
      | _ => false
    if crossed then some (q, true)
    else seek (t.fwdStep eol) (t.vcls · big) t.onEmptyLine fuel p

/-- The loop of `word_fwd` with `left` words to go; `eol` is about the last of them. -/
def fwdWords (fuel : Nat) (big eol : Bool) : (left : Nat) → Nat → Option Nat
  | 0, p => some p
  | left + 1, p =>
    match t.fwdWord fuel (eol && left == 0) p big with
    | none => none
    | some (q, true) => some q
    | some (q, false) => fwdWords fuel big eol left q

/-- Vim `fwd_word` (`w`, `W`), `count` times. -/
def wordFwd (fuel pos : Nat) (big : Bool) (count : Nat) (eol : Bool) : Option Nat :=
  t.fwdWords fuel big eol (max count 1) (min pos t.b.length)

def nextWordStart (fuel pos : Nat) (big : Bool) : Option Nat := t.wordFwd fuel pos big 1 false

/-- Vim `bck_word` (`b`, `B`). -/
def prevWordStart (fuel pos : Nat) (big : Bool) : Option Nat :=
  match t.vdec (min pos t.b.length) with
  | none => some 0
  | some (p, _) => do
    -- over the white space before the word; an empty line is a word of its own
    let (p, ret) ← walk t.backStep (fun k => t.vcls k big == 0 && !t.onEmptyLine k) fuel p
    if ret || t.vcls p big == 0 then some p
    else do
      -- back over the word, then one forward over the overshoot
      let (r, ret) ← walk t.backStep (fun k => t.vcls k big == t.vcls p big) fuel p
      if ret then some r else some ((t.vinc r).elim r Prod.fst)

/-- Vim `bckend_word` (`ge`, `gE`). -/
def prevWordEnd (fuel pos : Nat) (big : Bool) : Option Nat :=
  (seek t.backStep (t.vcls · big) t.onEmptyLine fuel (min pos t.b.length)).map Prod.fst

/-- `word_end_in`: one past the word at the next cluster or after it. -/
def wordEndIn (fuel pos : Nat) (big : Bool) : Option Nat := do
  let step := fun i => some (nextGrapheme t.steps t.b i, false)
  let (i, _) ← walk step (fun i => i < t.b.length && charCls t.classes t.b i big == 0) fuel
    (nextGrapheme t.steps t.b (min pos t.b.length))
  if t.b.length ≤ i then some t.b.length
  else (walk step (fun k => k < t.b.length && charCls t.classes t.b k big == charCls t.classes t.b i big)
    fuel i).map Prod.fst

/-- `e`, `E`: on the last cluster of that word. -/
def nextWordEnd (fuel pos : Nat) (big : Bool) : Option Nat :=
  (t.wordEndIn fuel pos big).map (prevGrapheme t.steps t.b)

end WordText

/-- The motions by words; each has a form for WORDs. -/
inductive WordMotion where
  | wordFwd
  | wordBack
  | wordEnd
  | wordEndBack
deriving DecidableEq, Repr

namespace WordText

variable (t : WordText)

def move (fuel : Nat) (m : WordMotion) (big : Bool) (c : Nat) : Option Nat :=
  match m with
  | .wordFwd => t.nextWordStart fuel c big
  | .wordBack => t.prevWordStart fuel c big
  | .wordEnd => t.nextWordEnd fuel c big
  | .wordEndBack => t.prevWordEnd fuel c big

/-- The loop of `target`: a step that does not move ends it. -/
def moves (fuel : Nat) (m : WordMotion) (big : Bool) : (left : Nat) → Nat → Option Nat
  | 0, c => some c
  | left + 1, c =>
    match t.move fuel m big c with
    | none => none
    | some c' => if c' = c then some c else moves fuel m big left c'

/-- `target` of a motion by words. -/
def target (fuel cursor : Nat) (m : WordMotion) (big : Bool) (count : Nat) : Option Nat :=
  t.moves fuel m big (max count 1) (min cursor t.b.length)

end WordText

end Ruse.Core
