import Ruse.Lib.Checked

/-!
# The screen of a terminal

The cells, the cursor and the scroll region of a terminal's screen, with the operations on
them, from `apps/tui/src/term_grid.rs`. The cells are one array, row after row. Every index
into it and every difference, sum and product of 16-bit numbers is checked, as a build with
overflow checks does: an operation that would panic is `none`.
-/

namespace Ruse.Tui.Term

open Ruse.Lib

inductive Color where
  | reset
  | ansiValue (n : UInt8)
  | rgb (r g b : UInt8)
deriving DecidableEq, Repr

/-- The drawing attributes of a cell. -/
structure CellStyle where
  fg : Color
  bg : Color
  bold : Bool
  underline : Bool
  italic : Bool
  reverse : Bool
deriving DecidableEq, Repr

def CellStyle.default : CellStyle := ⟨.reset, .reset, false, false, false, false⟩

/-- A cell: its text, its style, and whether it is the right half of a wide glyph. -/
structure GridCell where
  text : List Char
  style : CellStyle
  continuation : Bool
deriving DecidableEq, Repr

def GridCell.blank (style : CellStyle) : GridCell := ⟨[], style, false⟩

/-- The part of a terminal that an operation on the cells or the cursor reads and writes. -/
structure Screen where
  rows : Nat
  cols : Nat
  cells : List GridCell
  cx : Nat
  cy : Nat
  style : CellStyle
  scrollTop : Nat
  scrollBottom : Nat
  wrapNext : Bool
deriving DecidableEq, Repr

namespace Screen

def idx (s : Screen) (row col : Nat) : Nat := row * s.cols + col

/-- The cell that is read at an index. -/
def get (row col : Nat) (s : Screen) : Option GridCell := s.cells[s.idx row col]?

def put (row col : Nat) (x : GridCell) (s : Screen) : Option Screen :=
  if s.idx row col < s.cells.length then
    some { s with cells := s.cells.set (s.idx row col) x }
  else none

/-! ## Writing and moving -/

/-- The second half of `writeChar`, for a glyph of two columns. -/
def writeRight (w : Nat) (s : Screen) : Option Screen :=
  if w = 2 then do
    let next ← word16 (s.cx + 1)
    if next < s.cols then s.put s.cy next ⟨[], s.style, true⟩ else some s
  else some s

def writeChar (c : Char) (w : Nat) (s : Screen) : Option Screen :=
  if s.cols ≤ s.cx then some s
  else s.put s.cy s.cx ⟨[c], s.style, false⟩ >>= writeRight w

/-- A combining mark joins the cell left of the cursor. -/
def combine (c : Char) (s : Screen) : Option Screen :=
  if 0 < s.cx then do
    let left ← less s.cx 1
    let x ← s.get s.cy left
    s.put s.cy left { x with text := x.text ++ [c] }
  else some s

/-- The cursor right of a glyph just written: past the last column it stays there and arms the
wrap. -/
def advance (w : Nat) (s : Screen) : Option Screen := do
  let cx ← word16 (s.cx + w)
  if s.cols ≤ cx then do
    let last ← less s.cols 1
    some { s with cx := last, wrapNext := true }
  else some { s with cx := cx }

def carriageReturn (s : Screen) : Screen := { s with cx := 0, wrapNext := false }

def moveTo (row col : Nat) (s : Screen) : Option Screen := do
  let lastRow ← less s.rows 1
  let lastCol ← less s.cols 1
  some { s with cy := min row lastRow, cx := min col lastCol }

def tab (s : Screen) : Option Screen := do
  let next ← word16 ((s.cx / 8 + 1) * 8)
  let last ← less s.cols 1
  some { s with cx := min next last }

/-! ## Rows -/

/-- All cells of row `r` blank, in the current style. -/
def blankRow (r : Nat) (s : Screen) : Option Screen :=
  upTo 0 s.cols (fun c s => s.put r c (.blank s.style)) s

/-- Row `src` copied onto row `dst`. -/
def copyRow (src dst : Nat) (s : Screen) : Option Screen :=
  upTo 0 s.cols (fun c s => s.get src c >>= fun x => s.put dst c x) s

/-- The rows from `top` to `bottom` one row up, and a blank row at `bottom`. -/
def shiftUp (top bottom : Nat) (s : Screen) : Option Screen :=
  upTo top bottom (fun r s => word16 (r + 1) >>= fun next => s.copyRow next r) s >>=
    blankRow bottom

/-- The rows from `top` to `bottom` one row down, and a blank row at `top`. -/
def shiftDown (top bottom : Nat) (s : Screen) : Option Screen :=
  downWhile (top + 1) (fun r s => less r 1 >>= fun src => s.copyRow src r) bottom s >>=
    blankRow top

def scrollRegionDown (n : Nat) (s : Screen) : Option Screen :=
  upTo 0 n (fun _ t => t.shiftDown s.scrollTop s.scrollBottom) s

def reverseIndex (s : Screen) : Option Screen :=
  if s.cy = s.scrollTop then s.scrollRegionDown 1
  else if 0 < s.cy then some { s with cy := s.cy - 1 }
  else some s

/-- The rows of the region from the cursor down, `n` times moved by `shift`. -/
def shiftLines (shift : Nat → Nat → Screen → Option Screen) (n : Nat) (s : Screen) :
    Option Screen :=
  if s.cy < s.scrollTop ∨ s.scrollBottom < s.cy then some s
  else do
    let below ← less s.scrollBottom s.cy
    let below ← word16 (below + 1)
    upTo 0 (min n below) (fun _ t => shift s.cy s.scrollBottom t) s

def insertLines (n : Nat) (s : Screen) : Option Screen := s.shiftLines shiftDown n

def deleteLines (n : Nat) (s : Screen) : Option Screen := s.shiftLines shiftUp n

/-! ## Erasing -/

/-- The cells of a row from column `a`, below column `b`, blank in the current style. -/
def eraseSpan (row a b : Nat) (s : Screen) : Option Screen :=
  upTo a (min b s.cols) (fun col s => s.put row col (.blank s.style)) s

def eraseInLine (mode : Nat) (s : Screen) : Option Screen :=
  match mode with
  | 0 => s.eraseSpan s.cy s.cx s.cols
  | 1 => word16 (s.cx + 1) >>= fun next => s.eraseSpan s.cy 0 next
  | 2 => s.eraseSpan s.cy 0 s.cols
  | _ => some s

/-- The rows from `a`, below `b`, erased. -/
def eraseRows (a b : Nat) (s : Screen) : Option Screen :=
  upTo a b (fun r s => s.eraseSpan r 0 s.cols) s

def eraseInDisplay (mode : Nat) (s : Screen) : Option Screen :=
  match mode with
  | 0 => do
    let t ← s.eraseSpan s.cy s.cx s.cols
    let next ← word16 (s.cy + 1)
    t.eraseRows next s.rows
  | 1 => do
    let t ← s.eraseRows 0 s.cy
    let next ← word16 (s.cx + 1)
    t.eraseSpan s.cy 0 next
  | 2 => s.eraseRows 0 s.rows
  | 3 => s.eraseRows 0 s.rows
  | _ => some s

/-! ## Inserting and deleting in a row -/

def insertChars (n : Nat) (s : Screen) : Option Screen := do
  let width ← less s.cols s.cx
  let n := min n width
  let last ← less s.cols 1
  let first ← word16 (s.cx + n)
  let t ← downWhile first (fun c t => do
    let src ← less c n
    let x ← t.get s.cy src
    t.put s.cy c x) last s
  upTo s.cx first (fun c t => t.put s.cy c (.blank t.style)) t

def deleteChars (n : Nat) (s : Screen) : Option Screen := do
  let width ← less s.cols s.cx
  let n := min n width
  let keep ← less s.cols n
  let t ← upTo s.cx keep (fun c t => do
    let src ← word16 (c + n)
    let x ← t.get s.cy src
    t.put s.cy c x) s
  t.eraseSpan s.cy keep s.cols

end Screen

/-! ## Styles -/

/-- The extended color at the start of some parameters, and how many of them it takes. -/
def extColor (ps : List Nat) : Color × Nat :=
  match ps[1]? with
  | some 5 => (.ansiValue (.ofNat (ps[2]?.getD 0)), min 3 ps.length)
  | some 2 =>
    (.rgb (.ofNat (ps[2]?.getD 0)) (.ofNat (ps[3]?.getD 0)) (.ofNat (ps[4]?.getD 0)),
      min 5 ps.length)
  | _ => (.reset, 1)

/-- A parameter of `applySgr` that stands alone. -/
def sgr (st : CellStyle) (p : Nat) : CellStyle :=
  if p = 0 then .default
  else if p = 1 then { st with bold := true }
  else if p = 3 then { st with italic := true }
  else if p = 4 then { st with underline := true }
  else if p = 7 then { st with reverse := true }
  else if p = 22 then { st with bold := false }
  else if p = 23 then { st with italic := false }
  else if p = 24 then { st with underline := false }
  else if p = 27 then { st with reverse := false }
  else if 30 ≤ p ∧ p ≤ 37 then { st with fg := .ansiValue (.ofNat (p - 30)) }
  else if p = 39 then { st with fg := .reset }
  else if 40 ≤ p ∧ p ≤ 47 then { st with bg := .ansiValue (.ofNat (p - 40)) }
  else if p = 49 then { st with bg := .reset }
  else if 90 ≤ p ∧ p ≤ 97 then { st with fg := .ansiValue (.ofNat (p - 90 + 8)) }
  else if 100 ≤ p ∧ p ≤ 107 then { st with bg := .ansiValue (.ofNat (p - 100 + 8)) }
  else st

/-- The loop of `applySgr`. -/
def sgrLoop (st : CellStyle) : List Nat → CellStyle
  | [] => st
  | p :: ps =>
    if p = 38 then
      let c := extColor (p :: ps)
      sgrLoop { st with fg := c.1 } (ps.drop (c.2 - 1))
    else if p = 48 then
      let c := extColor (p :: ps)
      sgrLoop { st with bg := c.1 } (ps.drop (c.2 - 1))
    else sgrLoop (sgr st p) ps
termination_by ps => ps.length
decreasing_by all_goals simp; try omega

def applySgr (st : CellStyle) (ps : List Nat) : CellStyle :=
  if ps = [] then .default else sgrLoop st ps

end Ruse.Tui.Term
