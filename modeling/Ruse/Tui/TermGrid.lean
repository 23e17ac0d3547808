import Ruse.Tui.TermScreen

/-!
# The grid of a terminal

The grid a terminal's output is drawn on, from `apps/tui/src/term_grid.rs`: its screen, the
stashed main screen while the alternate one is shown, the saved cursor and the scrollback.
The parser calls it with characters to print, control bytes, CSI and ESC sequences
(`Action`); a sequence or a control byte is one control function (`Op`). The width of a
character comes from a table that is not part of the program and is a parameter.
-/

namespace Ruse.Tui.Term

open Ruse.Lib

/-- The main screen's part while the alternate screen is shown. -/
structure AltState where
  cells : List GridCell
  cx : Nat
  cy : Nat
  style : CellStyle
  saved : Option (Nat × Nat)
deriving DecidableEq, Repr

structure Grid extends Screen where
  saved : Option (Nat × Nat)
  alt : Option AltState
  scrollback : List (List GridCell)
  cursorVisible : Bool
  bracketedPaste : Bool
deriving DecidableEq, Repr

def scrollbackMax : Nat := 1000

namespace Grid

/-- A grid of at least one row and one column. -/
def new (rows cols : Nat) : Grid :=
  let rows := max rows 1
  let cols := max cols 1
  { rows := rows, cols := cols, cells := List.replicate (rows * cols) (.blank .default)
    cx := 0, cy := 0, style := .default, scrollTop := 0, scrollBottom := rows - 1
    wrapNext := false, saved := none, alt := none, scrollback := []
    cursorVisible := true, bracketedPaste := false }

/-- An operation on the screen of a grid. -/
def onScreen (f : Screen → Option Screen) (g : Grid) : Option Grid :=
  (f g.toScreen).map fun s => { g with toScreen := s }

/-! ## Scrolling -/

/-- The row `top` goes to the scrollback, which keeps the last rows. -/
def pushRow (top : Nat) (g : Grid) : Option Grid := do
  let row ← (List.range g.cols).mapM fun c => g.get top c
  let scrollback := g.scrollback ++ [row]
  some { g with scrollback := scrollback.drop (scrollback.length - scrollbackMax) }

/-- Whether rows that leave the scroll region go to the scrollback. -/
def keepsRows (g : Grid) : Option Bool := do
  let last ← less g.rows 1
  some (g.scrollTop = 0 ∧ g.scrollBottom = last ∧ g.alt.isNone)

def scrollRegionUp (n : Nat) (g : Grid) : Option Grid := do
  let full ← g.keepsRows
  upTo 0 n (fun _ h => (if full then h.pushRow g.scrollTop else some h) >>=
    onScreen (Screen.shiftUp g.scrollTop g.scrollBottom)) g

def lineFeed (g : Grid) : Option Grid :=
  if g.cy = g.scrollBottom then g.scrollRegionUp 1
  else do
    let next ← word16 (g.cy + 1)
    if next < g.rows then some { g with cy := next } else some g

def carriageReturn (g : Grid) : Grid := { g with toScreen := g.toScreen.carriageReturn }

/-! ## Printing -/

def wrap (g : Grid) : Option Grid :=
  if g.wrapNext then do
    let h ← g.carriageReturn.lineFeed
    some { h with wrapNext := false }
  else some g

/-- A glyph of two columns that does not fit in the last one goes to the next line. -/
def wrapWide (w : Nat) (g : Grid) : Option Grid :=
  if w = 2 then do
    let next ← word16 (g.cx + 1)
    if g.cols ≤ next then g.carriageReturn.lineFeed else some g
  else some g

def print (width : Char → Option Nat) (c : Char) (g : Grid) : Option Grid :=
  let w := (width c).getD 0
  if w = 0 then g.onScreen (Screen.combine c)
  else g.wrap >>= wrapWide w >>= onScreen (Screen.writeChar c w) >>= onScreen (Screen.advance w)

/-! ## The alternate screen -/

def enterAltScreen (g : Grid) : Grid :=
  if g.alt.isSome then g
  else
    { g with
      cells := List.replicate (g.rows * g.cols) (.blank .default)
      alt := some ⟨g.cells, g.cx, g.cy, g.style, g.saved⟩
      cx := 0, cy := 0, style := .default }

def leaveAltScreen (g : Grid) : Option Grid :=
  match g.alt with
  | none => some g
  | some st =>
    onScreen (Screen.moveTo st.cy st.cx)
      { g with cells := st.cells, style := st.style, saved := st.saved, alt := none }

def fullReset (g : Grid) : Option Grid := do
  let last ← less g.rows 1
  some { g with
    alt := none, style := .default, saved := none, cx := 0, cy := 0
    scrollTop := 0, scrollBottom := last, wrapNext := false
    cursorVisible := true, bracketedPaste := false
    cells := g.cells.map fun _ => .blank .default }

/-! ## Resizing -/

/-- The cells of the old grid that the new one still has, the others blank. -/
def remap (old : List GridCell) (oldRows oldCols rows cols : Nat) : Option (List GridCell) :=
  upTo 0 (min rows oldRows) (fun r out =>
    upTo 0 (min cols oldCols) (fun c out =>
      old[r * oldCols + c]? >>= fun x =>
        if r * cols + c < out.length then some (out.set (r * cols + c) x) else none) out)
    (List.replicate (rows * cols) (.blank .default))

def remapAlt (rows cols : Nat) (g : Grid) : Option (Option AltState) :=
  match g.alt with
  | none => some none
  | some st =>
    (remap st.cells g.rows g.cols rows cols).map fun cells => some { st with cells := cells }

def resize (rows cols : Nat) (g : Grid) : Option Grid :=
  let rows := max rows 1
  let cols := max cols 1
  if rows = g.rows ∧ cols = g.cols then some g
  else do
    let cells ← remap g.cells g.rows g.cols rows cols
    let alt ← g.remapAlt rows cols
    let lastCol ← less cols 1
    let lastRow ← less rows 1
    some { g with
      cells := cells, alt := alt, rows := rows, cols := cols
      cx := min g.cx lastCol, cy := min g.cy lastRow
      scrollTop := 0, scrollBottom := lastRow, wrapNext := false }

/-! ## Control functions -/

inductive Op where
  | nothing
  | lineFeed
  | carriageReturn
  | tab
  | backspace
  | reverseIndex
  | save
  | restore
  | reset
  | position (row col : Nat)
  | up (n : Nat)
  | down (n : Nat)
  | right (n : Nat)
  | left (n : Nat)
  | column (n : Nat)
  | row (n : Nat)
  | eraseDisplay (mode : Nat)
  | eraseLine (mode : Nat)
  | insertLines (n : Nat)
  | deleteLines (n : Nat)
  | insertChars (n : Nat)
  | deleteChars (n : Nat)
  | eraseChars (n : Nat)
  | region (top : Nat) (bottom : Option Nat)
  | sgr (ps : List Nat)
  | enterAlt
  | leaveAlt
  | showCursor (on : Bool)
deriving DecidableEq, Repr

/-- `DECSTBM`: a region of at least two lines, and the cursor home. -/
def setRegion (top : Nat) (bottom : Option Nat) (g : Grid) : Option Grid := do
  let top ← less top 1
  let bottom ← less (bottom.getD g.rows) 1
  if top < bottom ∧ bottom < g.rows then
    some { g with scrollTop := top, scrollBottom := bottom, cx := 0, cy := 0 }
  else some g

def restoreCursor (g : Grid) : Option Grid :=
  match g.saved with
  | none => some g
  | some p => g.onScreen (Screen.moveTo p.1 p.2)

/-- What a control function does. Sums with a count saturate. -/
def exec (op : Op) (g : Grid) : Option Grid :=
  match op with
  | .nothing => some g
  | .lineFeed => g.lineFeed
  | .carriageReturn => some g.carriageReturn
  | .tab => g.onScreen Screen.tab
  | .backspace => some { g with cx := g.cx - 1 }
  | .reverseIndex => g.onScreen Screen.reverseIndex
  | .save => some { g with saved := some (g.cy, g.cx) }
  | .restore => g.restoreCursor
  | .reset => g.fullReset
  | .position row col => do
    let row ← less row 1
    let col ← less col 1
    let h ← g.onScreen (Screen.moveTo row col)
    some { h with wrapNext := false }
  | .up n => some { g with cy := g.cy - n }
  | .down n => do
    let last ← less g.rows 1
    some { g with cy := min (min (g.cy + n) 65535) last }
  | .right n => do
    let last ← less g.cols 1
    some { g with cx := min (min (g.cx + n) 65535) last }
  | .left n => some { g with cx := g.cx - n }
  | .column n => do
    let col ← less n 1
    let last ← less g.cols 1
    some { g with cx := min col last }
  | .row n => do
    let row ← less n 1
    let last ← less g.rows 1
    some { g with cy := min row last }
  | .eraseDisplay mode => g.onScreen (Screen.eraseInDisplay mode)
  | .eraseLine mode => g.onScreen (Screen.eraseInLine mode)
  | .insertLines n => g.onScreen (Screen.insertLines n)
  | .deleteLines n => g.onScreen (Screen.deleteLines n)
  | .insertChars n => g.onScreen (Screen.insertChars n)
  | .deleteChars n => g.onScreen (Screen.deleteChars n)
  | .eraseChars n => g.onScreen fun s => s.eraseSpan s.cy s.cx (min (s.cx + n) 65535)
  | .region top bottom => g.setRegion top bottom
  | .sgr ps => some { g with style := applySgr g.style ps }
  | .enterAlt => some g.enterAltScreen
  | .leaveAlt => g.leaveAltScreen
  | .showCursor on => some { g with cursorVisible := on }

/-- The control function of a control byte. -/
def executeOp (byte : UInt8) : Op :=
  match byte with
  | 0x0A => .lineFeed
  | 0x0B => .lineFeed
  | 0x0C => .lineFeed
  | 0x0D => .carriageReturn
  | 0x09 => .tab
  | 0x08 => .backspace
  | _ => .nothing

/-- The control function of `CSI ? h` and `CSI ? l`. -/
def modeOp (first : Nat) (on : Bool) : Op :=
  match first with
  | 1049 => if on then .enterAlt else .leaveAlt
  | 1047 => if on then .enterAlt else .leaveAlt
  | 47 => if on then .enterAlt else .leaveAlt
  | 25 => .showCursor on
  | _ => .nothing

/-- The control function of a CSI sequence, from its parameters, whether it is a private one,
and its final character. -/
def csiOp (ps : List Nat) (isPrivate : Bool) (action : Char) : Op :=
  let first := ps.head?.getD 0
  let n := max first 1
  match action with
  | 'H' => .position (max (ps.head?.getD 1) 1) (max (ps[1]?.getD 1) 1)
  | 'f' => .position (max (ps.head?.getD 1) 1) (max (ps[1]?.getD 1) 1)
  | 'A' => .up n
  | 'B' => .down n
  | 'C' => .right n
  | 'D' => .left n
  | 'G' => .column n
  | 'd' => .row n
  | 'J' => .eraseDisplay first
  | 'K' => .eraseLine first
  | 'L' => .insertLines n
  | 'M' => .deleteLines n
  | '@' => .insertChars n
  | 'P' => .deleteChars n
  | 'X' => .eraseChars n
  | 'r' => .region (max (ps.head?.getD 1) 1) (ps[1]?.filter fun b => b ≠ 0)
  | 'm' => .sgr ps
  | 's' => .save
  | 'u' => .restore
  | 'h' => if isPrivate then modeOp first true else .nothing
  | 'l' => if isPrivate then modeOp first false else .nothing
  | _ => .nothing

/-- The control function of an ESC sequence. -/
def escOp (byte : UInt8) : Op :=
  match byte with
  | 0x4D => .reverseIndex
  | 0x37 => .save
  | 0x38 => .restore
  | 0x63 => .reset
  | _ => .nothing

/-- Mode 2004, which may share a sequence with other modes. -/
def setPaste (ps : List Nat) (isPrivate : Bool) (action : Char) (g : Grid) : Grid :=
  if isPrivate ∧ (action = 'h' ∨ action = 'l') ∧ 2004 ∈ ps then
    { g with bracketedPaste := action = 'h' }
  else g

/-- What the parser and the window call the grid with. -/
inductive Action where
  | print (c : Char)
  | execute (byte : UInt8)
  | csi (params : List (List UInt16)) (intermediates : List UInt8) (action : Char)
  | esc (intermediates : List UInt8) (byte : UInt8)
  | resize (rows cols : UInt16)
deriving DecidableEq, Repr

/-- The parameters of a CSI sequence, with their subparameters. -/
def flat (params : List (List UInt16)) : List Nat := params.flatten.map UInt16.toNat

def isPrivate (intermediates : List UInt8) : Bool := intermediates.head? = some 0x3F

def step (width : Char → Option Nat) (a : Action) (g : Grid) : Option Grid :=
  match a with
  | .print c => g.print width c
  | .execute byte => g.exec (executeOp byte)
  | .csi params inter action =>
    (g.setPaste (flat params) (isPrivate inter) action).exec
      (csiOp (flat params) (isPrivate inter) action)
  | .esc _ byte => g.exec (escOp byte)
  | .resize rows cols => g.resize rows.toNat cols.toNat

def play (width : Char → Option Nat) (as : List Action) (g : Grid) : Option Grid :=
  as.foldlM (fun g a => g.step width a) g

end Grid

end Ruse.Tui.Term
