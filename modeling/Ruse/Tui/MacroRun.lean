import Ruse.Lib.Loop
import Ruse.Lib.Run
import Ruse.Tui.KeyCodec

/-!
# What one typed key replays

A run of the macro layer after one typed key: any operations in any order, on registers with
any contents. A key that is popped was paid for from the budget of the typed key (`Paid`), so
every loop that pops until nothing is left ends (`macro_replay_bounded`).
-/

namespace Ruse.Tui.Keys

open Ruse.Core (Bytes)
open Ruse.Lib (run run_cons run_invariant untilBreak untilBreak_ends)

/-! ## Recording and replaying macros

The model of `MacroState` in `apps/tui/src/keys.rs`: the recording, the two prefixes `q` and
`@`, the queue of keys still to replay and the budget that all the replays of one typed key
draw from. What the session does with a key is its `Step`; the registers stay outside.
-/

/-- `MACRO_KEY_CAP`: the keys one typed key may expand to. -/
def macroKeyCap : Nat := 100000

/-- A modifier that no character shows is held. -/
def isChord (key : KeyEvent) : Bool :=
  key.modifiers.control || key.modifiers.alt || key.modifiers.super || key.modifiers.hyper ||
    key.modifiers.metaKey

/-- The key is the plain character `c`. -/
def isBare (key : KeyEvent) (c : Char) : Bool := key.code == .char c && !isChord key

/-- What the session does with a key. -/
inductive Step where
  | dispatch (key : KeyEvent)
  | consumed
  | store (reg : Char) (bytes : Bytes)
  | replay (reg : Char)
  /-- `@:`, the last command line again. -/
  | repeatEx
  | openCmdWin (kind : Char)
  /-- `@@` before any register was played: E748. -/
  | noPreviousRegister
deriving DecidableEq

/-- Lines of a linewise-Visual `@` still to run: the next, the last and what runs on each. -/
structure LineRun where
  next : Nat
  last : Nat
  bytes : Bytes

structure MacroState where
  /-- The register, in the case it was named with, and the keys so far. -/
  recording : Option (Char × List KeyEvent)
  pendingQ : Bool
  pendingAt : Bool
  lastPlayed : Option Char
  lastRecorded : Option Char
  queue : List KeyEvent
  budget : Nat
  lineRun : Option LineRun

/-- The replay that `suspendReplay` sets aside. -/
structure SuspendedReplay where
  queue : List KeyEvent
  lineRun : Option LineRun

namespace MacroState

def new : MacroState := ⟨none, false, false, none, none, [], 0, none⟩

/-! ## The queue -/

/-- `enqueue_macro`: as many keys of the bytes as the budget has left, and whether those were
all. -/
def enqueueMacro (m : MacroState) (bytes : Bytes) : MacroState × Bool :=
  let keys := decode bytes
  let take := min keys.length m.budget
  ({ m with queue := m.queue ++ keys.take take, budget := m.budget - take }, take == keys.length)

/-- `next_replay` and `pop_replay`. -/
def popReplay (m : MacroState) : Option (KeyEvent × MacroState) :=
  match m.queue with
  | [] => none
  | k :: queue => some (k, { m with queue })

def suspendReplay (m : MacroState) : SuspendedReplay × MacroState :=
  (⟨m.queue, m.lineRun⟩, { m with queue := [], lineRun := none })

def resumeReplay (m : MacroState) (saved : SuspendedReplay) : MacroState :=
  { m with queue := saved.queue ++ m.queue, lineRun := saved.lineRun.or m.lineRun }

def replayPending (m : MacroState) : Bool := !m.queue.isEmpty || m.lineRun.isSome

/-- A command failed: the keys not typed go. -/
def flushReplay (m : MacroState) : MacroState := { m with queue := [] }

def interruptReplay (m : MacroState) : MacroState := { m with queue := [], lineRun := none }

def replay (m : MacroState) (bytes : Bytes) : MacroState × Bool := m.enqueueMacro bytes

def replayLines (m : MacroState) (first last : Nat) (bytes : Bytes) : MacroState :=
  { m with lineRun := some ⟨first, last, bytes⟩ }

/-- Once the queue has drained, the next line: its keys, and an `<Esc>` for what they leave
unfinished. -/
def nextLineRun (m : MacroState) : MacroState × Option Nat :=
  match m.queue, m.lineRun with
  | [], some run =>
    if run.next > run.last then ({ m with lineRun := none }, none)
    else
      let m := { m with lineRun := some { run with next := run.next + 1 } }
      let (m, full) := m.enqueueMacro (run.bytes ++ [0x1b])
      ({ m with lineRun := if full then m.lineRun else none }, some run.next)
  | _, _ => (m, none)

/-! ## A key -/

/-- The recording that a typed `q` stops. -/
def stops (m : MacroState) (key : KeyEvent) (fromReplay qCmd : Bool) :
    Option (Char × List KeyEvent) :=
  if qCmd && !fromReplay && !m.pendingQ && !m.pendingAt && isBare key 'q' then m.recording
  else none

/-- A typed key joins the recording. -/
def capture (m : MacroState) (key : KeyEvent) (fromReplay : Bool) : MacroState :=
  if fromReplay then m
  else { m with recording := m.recording.map fun r => (r.1, r.2 ++ [key]) }

/-- The key after `q`. -/
def nameRecording (m : MacroState) (key : KeyEvent) : MacroState × Step :=
  let m := { m with pendingQ := false }
  match key.code, isChord key with
  | .char c, false =>
    if c.isAlphanum || c == '"' then ({ m with recording := some (c, []) }, .consumed)
    else if c == ':' || c == '/' || c == '?' then (m, .openCmdWin c)
    else (m, .consumed)
  | _, _ => (m, .consumed)

/-- What the key after `@` names. -/
def replayTarget (m : MacroState) (key : KeyEvent) : Option Char :=
  match key.code, isChord key with
  | .char c, false =>
    if c.isAlpha then some c.toLower
    else if c.isDigit || c == '"' || c == ':' then some c
    else if c == '@' then m.lastPlayed
    else none
  | _, _ => none

/-- The key after `@`. -/
def nameReplay (m : MacroState) (key : KeyEvent) : MacroState × Step :=
  let m := { m with pendingAt := false }
  if isBare key '@' && m.lastPlayed.isNone then (m, .noPreviousRegister)
  else
    match m.replayTarget key with
    | some c => ({ m with lastPlayed := some c }, if c = ':' then .repeatEx else .replay c)
    | none => (m, .consumed)

/-- `q`, `@` and `Q` where they are commands; any other key is the engine's. -/
def arm (m : MacroState) (key : KeyEvent) (normal qCmd : Bool) : MacroState × Step :=
  if qCmd && m.recording.isNone && isBare key 'q' then ({ m with pendingQ := true }, .consumed)
  else if normal && isBare key '@' then ({ m with pendingAt := true }, .consumed)
  else if normal && isBare key 'Q' then
    match m.lastRecorded with
    | some c => ({ m with lastPlayed := some c }, .replay c)
    | none => (m, .consumed)
  else (m, .dispatch key)

def stepGated (m : MacroState) (key : KeyEvent) (fromReplay normal qCmd : Bool) :
    MacroState × Step :=
  -- what a typed key replays starts with the whole budget
  let m := if fromReplay then m else { m with budget := macroKeyCap }
  match m.stops key fromReplay qCmd with
  | some (reg, buf) =>
    ({ m with recording := none, lastRecorded := some reg.toLower }, .store reg (encodeAll buf))
  | none =>
    let m := m.capture key fromReplay
    if m.pendingQ then m.nameRecording key
    else if m.pendingAt then m.nameReplay key
    else m.arm key normal qCmd

end MacroState

/-- What the session calls between two typed keys. A key of a replay or of a `:normal` is a
`key` that was not typed. -/
inductive Op where
  | pop
  | key (key : KeyEvent) (normal qCmd : Bool)
  | replay (bytes : Bytes)
  | replayLines (first last : Nat) (bytes : Bytes)
  | nextLineRun
  | suspend
  | resume
  | flush
  | interrupt

/-- The macro layer in the session: with the replays set aside, the innermost first, and the
keys popped since the last typed key. -/
structure World where
  macros : MacroState
  saved : List SuspendedReplay
  popped : Nat

namespace World

/-- After the key `key` was typed: nothing is set aside then. -/
def typed (m : MacroState) (key : KeyEvent) (normal qCmd : Bool) : World :=
  ⟨(m.stepGated key false normal qCmd).1, [], 0⟩

def exec (w : World) : Op → World
  | .pop =>
    match w.macros.popReplay with
    | some (_, macros) => { w with macros, popped := w.popped + 1 }
    | none => w
  | .key key normal qCmd => { w with macros := (w.macros.stepGated key true normal qCmd).1 }
  | .replay bytes => { w with macros := (w.macros.replay bytes).1 }
  | .replayLines first last bytes => { w with macros := w.macros.replayLines first last bytes }
  | .nextLineRun => { w with macros := w.macros.nextLineRun.1 }
  | .suspend =>
    let (saved, macros) := w.macros.suspendReplay
    { w with macros, saved := saved :: w.saved }
  | .resume =>
    match w.saved with
    | [] => w
    | saved :: rest => { w with macros := w.macros.resumeReplay saved, saved := rest }
  | .flush => { w with macros := w.macros.flushReplay }
  | .interrupt => { w with macros := w.macros.interruptReplay }

/-- The keys that may still be popped: those queued, those set aside, and what the budget
buys. -/
def owed (w : World) : Nat :=
  w.macros.queue.length + (w.saved.map (·.queue.length)).sum + w.macros.budget

/-- Every key popped or still to pop was paid for by the typed key. -/
def Paid (w : World) : Prop := w.popped + w.owed ≤ macroKeyCap

/-! ## The budget -/

theorem enqueueMacro_owed (m : MacroState) (bytes : Bytes) :
    (m.enqueueMacro bytes).1.queue.length + (m.enqueueMacro bytes).1.budget =
      m.queue.length + m.budget := by
  simp only [MacroState.enqueueMacro, List.length_append, List.length_take]
  omega

theorem nextLineRun_owed (m : MacroState) :
    m.nextLineRun.1.queue.length + m.nextLineRun.1.budget = m.queue.length + m.budget := by
  unfold MacroState.nextLineRun
  split
  · rename_i run hqueue _
    split
    · rfl
    · have h := enqueueMacro_owed { m with lineRun := some { run with next := run.next + 1 } }
        (run.bytes ++ [0x1b])
      exact h
  · rfl

theorem nameRecording_keeps (m : MacroState) (key : KeyEvent) :
    let m' := (m.nameRecording key).1
    m'.queue = m.queue ∧ m'.lineRun = m.lineRun ∧ m'.budget = m.budget ∧
      (m'.recording = m.recording ∨ ∃ c, m'.recording = some (c, [])) := by
  unfold MacroState.nameRecording
  dsimp only
  split
  · rename_i c _ _
    split
    · exact ⟨rfl, rfl, rfl, .inr ⟨c, rfl⟩⟩
    · split <;> exact ⟨rfl, rfl, rfl, .inl rfl⟩
  · exact ⟨rfl, rfl, rfl, .inl rfl⟩

theorem nameReplay_keeps (m : MacroState) (key : KeyEvent) :
    let m' := (m.nameReplay key).1
    m'.queue = m.queue ∧ m'.lineRun = m.lineRun ∧ m'.budget = m.budget ∧
      m'.recording = m.recording := by
  unfold MacroState.nameReplay
  dsimp only
  split
  · exact ⟨rfl, rfl, rfl, rfl⟩
  · split <;> exact ⟨rfl, rfl, rfl, rfl⟩

theorem arm_keeps (m : MacroState) (key : KeyEvent) (normal qCmd : Bool) :
    let m' := (m.arm key normal qCmd).1
    m'.queue = m.queue ∧ m'.lineRun = m.lineRun ∧ m'.budget = m.budget ∧
      m'.recording = m.recording := by
  unfold MacroState.arm
  split
  · exact ⟨rfl, rfl, rfl, rfl⟩
  split
  · exact ⟨rfl, rfl, rfl, rfl⟩
  split
  · split <;> exact ⟨rfl, rfl, rfl, rfl⟩
  · exact ⟨rfl, rfl, rfl, rfl⟩

/-- A key leaves the queue and the lines as they are, and only a typed one the budget. -/
theorem stepGated_replay (m : MacroState) (key : KeyEvent) (fromReplay normal qCmd : Bool) :
    let m' := (m.stepGated key fromReplay normal qCmd).1
    m'.queue = m.queue ∧ m'.lineRun = m.lineRun ∧
      m'.budget = if fromReplay then m.budget else macroKeyCap := by
  unfold MacroState.stepGated
  dsimp only
  generalize hm₀ : (if fromReplay = true then m else { m with budget := macroKeyCap }) = m₀
  have hstart : m₀.queue = m.queue ∧ m₀.lineRun = m.lineRun ∧
      m₀.budget = if fromReplay then m.budget else macroKeyCap := by
    rw [← hm₀]
    split <;> exact ⟨rfl, rfl, rfl⟩
  rw [← hstart.1, ← hstart.2.1, ← hstart.2.2]
  cases m₀.stops key fromReplay qCmd with
  | some r => exact ⟨rfl, rfl, rfl⟩
  | none =>
    have hcapture : (m₀.capture key fromReplay).queue = m₀.queue ∧
        (m₀.capture key fromReplay).lineRun = m₀.lineRun ∧
        (m₀.capture key fromReplay).budget = m₀.budget := by
      unfold MacroState.capture
      split <;> exact ⟨rfl, rfl, rfl⟩
    dsimp only
    rw [← hcapture.1, ← hcapture.2.1, ← hcapture.2.2]
    split
    · obtain ⟨hqueue, hlines, hbudget, -⟩ := nameRecording_keeps (m₀.capture key fromReplay) key
      exact ⟨hqueue, hlines, hbudget⟩
    · split
      · obtain ⟨hqueue, hlines, hbudget, -⟩ := nameReplay_keeps (m₀.capture key fromReplay) key
        exact ⟨hqueue, hlines, hbudget⟩
      · obtain ⟨hqueue, hlines, hbudget, -⟩ :=
          arm_keeps (m₀.capture key fromReplay) key normal qCmd
        exact ⟨hqueue, hlines, hbudget⟩

theorem stepGated_recording (m : MacroState) (key : KeyEvent) (normal qCmd : Bool) :
    (m.stepGated key true normal qCmd).1.recording = m.recording ∨
      ∃ c, (m.stepGated key true normal qCmd).1.recording = some (c, []) := by
  simp only [MacroState.stepGated, MacroState.stops, MacroState.capture, Bool.not_true,
    Bool.and_false, Bool.false_and, Bool.false_eq_true, if_false, if_true]
  split
  · exact (nameRecording_keeps m key).2.2.2
  · split
    · exact .inl (nameReplay_keeps m key).2.2.2
    · exact .inl (arm_keeps m key normal qCmd).2.2.2

/-- A key is popped only out of what is owed. -/
theorem exec_owed (w : World) (op : Op) :
    (w.exec op).popped + (w.exec op).owed ≤ w.popped + w.owed := by
  unfold owed
  cases op with
  | pop =>
    cases hqueue : w.macros.queue with
    | nil => simp [exec, MacroState.popReplay, hqueue]
    | cons k queue =>
      simp only [exec, MacroState.popReplay, hqueue, List.length_cons]
      omega
  | key key normal qCmd =>
    obtain ⟨hqueue, -, hbudget⟩ := stepGated_replay w.macros key true normal qCmd
    simp [exec, hqueue, hbudget]
  | replay bytes =>
    have howed := enqueueMacro_owed w.macros bytes
    simp only [exec, MacroState.replay]
    omega
  | replayLines first last bytes => exact Nat.le_refl _
  | nextLineRun =>
    have howed := nextLineRun_owed w.macros
    simp only [exec]
    omega
  | suspend =>
    simp only [exec, MacroState.suspendReplay, List.map_cons, List.sum_cons, List.length_nil]
    omega
  | resume =>
    cases hsaved : w.saved with
    | nil => simp [exec, hsaved]
    | cons saved rest =>
      simp only [exec, MacroState.resumeReplay, hsaved, List.map_cons, List.sum_cons,
        List.length_append]
      omega
  | flush =>
    simp only [exec, MacroState.flushReplay, List.length_nil]
    omega
  | interrupt =>
    simp only [exec, MacroState.interruptReplay, List.length_nil]
    omega

theorem exec_paid {w : World} (h : w.Paid) (op : Op) : (w.exec op).Paid :=
  Nat.le_trans (exec_owed w op) h

theorem exec_popped (w : World) (op : Op) : w.popped ≤ (w.exec op).popped := by
  cases op with
  | pop =>
    unfold exec
    dsimp only
    split
    · exact Nat.le_succ _
    · exact Nat.le_refl _
  | resume =>
    unfold exec
    dsimp only
    split <;> exact Nat.le_refl _
  | _ => exact Nat.le_refl _

theorem run_paid {w : World} (h : w.Paid) (ops : List Op) :
    (run exec w ops).Paid ∧ w.popped ≤ (run exec w ops).popped := by
  have hstep : ∀ w' op, Paid w' ∧ w.popped ≤ w'.popped →
      Paid (exec w' op) ∧ w.popped ≤ (exec w' op).popped := fun w' op hw =>
    ⟨exec_paid hw.1 op, Nat.le_trans hw.2 (exec_popped w' op)⟩
  exact run_invariant hstep ⟨h, Nat.le_refl _⟩ ops

/-- A typed key may spend the whole budget, and it is read when no key is queued. -/
theorem typed_paid {m : MacroState} (h : m.queue = []) (key : KeyEvent) (normal qCmd : Bool) :
    (typed m key normal qCmd).Paid := by
  obtain ⟨hqueue, -, hbudget⟩ := stepGated_replay m key false normal qCmd
  simp only [Bool.false_eq_true, if_false] at hbudget
  simp [Paid, owed, typed, hqueue, hbudget, h]

/-! ## The recording -/

/-- The recording is the one after the typed key, or one that was started since and holds no
key. -/
def Untouched (start : Option (Char × List KeyEvent)) (w : World) : Prop :=
  w.macros.recording = start ∨ ∃ c, w.macros.recording = some (c, [])

theorem nextLineRun_recording (m : MacroState) : m.nextLineRun.1.recording = m.recording := by
  unfold MacroState.nextLineRun
  split
  · split
    · rfl
    · rfl
  · rfl

/-- What replays leaves a recording as it is. -/
theorem exec_untouched {start : Option (Char × List KeyEvent)} {w : World}
    (h : w.Untouched start) (op : Op) : (w.exec op).Untouched start := by
  cases op with
  | key key normal qCmd =>
    rcases stepGated_recording w.macros key normal qCmd with hsame | hnew
    · exact h.imp hsame.trans fun ⟨c, hc⟩ => ⟨c, hsame.trans hc⟩
    · exact .inr hnew
  | pop =>
    have hkept : (w.exec .pop).macros.recording = w.macros.recording := by
      cases hqueue : w.macros.queue <;> simp [exec, MacroState.popReplay, hqueue]
    rwa [Untouched, hkept]
  | nextLineRun => rwa [Untouched, exec, nextLineRun_recording]
  | resume =>
    have hkept : (w.exec .resume).macros.recording = w.macros.recording := by
      unfold exec
      dsimp only
      split <;> rfl
    rwa [Untouched, hkept]
  | replay bytes => exact h
  | replayLines first last bytes => exact h
  | suspend => exact h
  | flush => exact h
  | interrupt => exact h

theorem run_untouched (w : World) (ops : List Op) :
    (run exec w ops).Untouched w.macros.recording := by
  have hstep : ∀ w' op, Untouched w.macros.recording w' →
      Untouched w.macros.recording (exec w' op) := fun _ op hw => exec_untouched hw op
  exact run_invariant hstep (.inl rfl) ops

end World

/-! ## The loops that drain a replay -/

/-- What the session calls once a key was popped. The registers, and whatever else decides it,
are in `ρ` and may change. -/
abbrev Reaction (ρ : Type) := ρ → MacroState → KeyEvent → List Op × ρ

section
variable {ρ : Type} (react : Reaction ρ)

/-- One turn of `next_queued` or of the loop of `nested_key`: the next line where the queue is
empty, then the next key. The flag tells that none was left. -/
def turn (s : ρ × World) : (ρ × World) × Bool :=
  let w := s.2.exec .nextLineRun
  match w.macros.queue with
  | [] => ((s.1, w), true)
  | k :: _ =>
    let w := w.exec .pop
    let (ops, r) := react s.1 w.macros k
    ((r, run World.exec w ops), false)

def drain (fuel : Nat) (s : ρ × World) : Option (ρ × World) :=
  untilBreak (fun s => some (turn react s)) fuel s

def linesLeft (m : MacroState) : Nat :=
  match m.lineRun with
  | some r => r.last + 2 - r.next
  | none => 0

variable {react}

/-- A turn pops a key, or runs out of them and takes the next line. -/
theorem turn_spends (react : Reaction ρ) {s : ρ × World} (h : s.2.Paid) :
    (turn react s).1.2.Paid ∧
      ((turn react s).2 = false → s.2.popped < (turn react s).1.2.popped) ∧
      ((turn react s).2 = true → (turn react s).1.2 = s.2.exec .nextLineRun ∧
        (s.2.exec .nextLineRun).macros.queue = []) := by
  have hnext := World.exec_paid h .nextLineRun
  unfold turn
  dsimp only
  split
  · rename_i hqueue
    exact ⟨hnext, fun hf => (by cases hf), fun _ => ⟨rfl, hqueue⟩⟩
  · rename_i k queue hqueue
    have hpop := World.exec_paid hnext .pop
    obtain ⟨hpaid, hle⟩ := World.run_paid hpop
      (react s.1 ((s.2.exec .nextLineRun).exec .pop).macros k).1
    refine ⟨hpaid, fun _ => ?_, fun hf => (by cases hf)⟩
    have hone : ((s.2.exec .nextLineRun).exec .pop).popped = s.2.popped + 1 := by
      simp [World.exec, MacroState.popReplay] at hqueue ⊢
      simp [hqueue]
    dsimp only at hle ⊢
    omega

/-- The loop has popped its last key after at most as many turns as the budget has keys. -/
theorem drain_ends (react : Reaction ρ) {s : ρ × World} (h : s.2.Paid) :
    ∃ s', drain react (macroKeyCap + 2) s = some s' ∧ s'.2.macros.queue = [] ∧ s'.2.Paid := by
  have hbody : ∀ s : ρ × World, s.2.Paid → ∃ s' brk, some (turn react s) = some (s', brk) ∧
      (brk = true → s'.2.macros.queue = [] ∧ s'.2.Paid) ∧
      (brk = false → s'.2.Paid ∧ macroKeyCap - s'.2.popped < macroKeyCap - s.2.popped) := by
    intro s hs
    obtain ⟨hpaid, hpops, hends⟩ := turn_spends react hs
    refine ⟨(turn react s).1, (turn react s).2, rfl, fun hbrk => ?_, fun hgo => ⟨hpaid, ?_⟩⟩
    · obtain ⟨hlast, hqueue⟩ := hends hbrk
      exact ⟨by rw [hlast, hqueue], hpaid⟩
    · have hlt := hpops hgo
      have hle : (turn react s).1.2.popped ≤ macroKeyCap := Nat.le_trans (Nat.le_add_right _ _) hpaid
      omega
  exact untilBreak_ends hbody h (by omega)

theorem nextLineRun_lineRun {m : MacroState} {r : LineRun} (hqueue : m.queue = [])
    (hlines : m.lineRun = some r) : m.nextLineRun.1.lineRun = none ∨
      r.next ≤ r.last ∧ m.nextLineRun.1.lineRun = some { r with next := r.next + 1 } := by
  unfold MacroState.nextLineRun
  rw [hqueue, hlines]
  dsimp only
  by_cases hlast : r.next > r.last
  · rw [if_pos hlast]
    exact .inl rfl
  · rw [if_neg hlast]
    split
    · exact .inr ⟨Nat.le_of_not_lt hlast, rfl⟩
    · exact .inl rfl

/-- Where that queues no key, nothing is left to replay, or one line fewer. -/
theorem nextLineRun_lines {m : MacroState} (hbusy : m.replayPending = true)
    (hend : m.nextLineRun.1.queue = []) :
    m.nextLineRun.1.replayPending = false ∨ linesLeft m.nextLineRun.1 < linesLeft m := by
  cases hqueue : m.queue with
  | cons k queue =>
    rw [show m.nextLineRun = (m, none) by simp [MacroState.nextLineRun, hqueue], hqueue] at hend
    cases hend
  | nil =>
    cases hlines : m.lineRun with
    | none => simp [MacroState.replayPending, hqueue, hlines] at hbusy
    | some r =>
      rcases nextLineRun_lineRun hqueue hlines with hnone | ⟨hle, hnext⟩
      · exact .inl (by simp [MacroState.replayPending, hend, hnone])
      · right
        simp only [linesLeft, hnext, hlines]
        omega

/-- The turns come to an end. -/
theorem exists_idle {s : ρ × World} (h : s.2.Paid) :
    ∃ n, ((fun s => (turn react s).1)^[n] s).2.macros.replayPending = false := by
  induction hk : macroKeyCap - s.2.popped using Nat.strong_induction_on generalizing s with
  | _ k ihk =>
  induction hl : linesLeft s.2.macros using Nat.strong_induction_on generalizing s with
  | _ l ihl =>
  cases hbusy : s.2.macros.replayPending with
  | false => exact ⟨0, hbusy⟩
  | true =>
    obtain ⟨hpaid, hpops, hends⟩ := turn_spends react h
    have hnext : ∃ n, ((fun s => (turn react s).1)^[n] (turn react s).1).2.macros.replayPending
        = false := by
      cases hbrk : (turn react s).2 with
      | false =>
        have hlt := hpops hbrk
        have hle : (turn react s).1.2.popped ≤ macroKeyCap :=
          Nat.le_trans (Nat.le_add_right _ _) hpaid
        exact ihk _ (by omega) hpaid rfl
      | true =>
        obtain ⟨hlast, hqueue⟩ := hends hbrk
        rcases nextLineRun_lines hbusy hqueue with hdone | hfewer
        · exact ⟨0, by rw [← hdone]; exact congrArg (·.macros.replayPending) hlast⟩
        · refine ihl _ ?_ hpaid ?_ rfl
          · rw [← hl, hlast]
            exact hfewer
          · rw [← hk, hlast]
            rfl
    obtain ⟨n, hn⟩ := hnext
    exact ⟨n + 1, hn⟩

end

/-! ## One typed key -/

/-- Whatever the registers hold and whatever is called in which order, one typed key lets at
most `MACRO_KEY_CAP` keys be popped and none of them joins a recording; and the loops that pop
them end, with the queue drained, and go on to nothing left to replay. A typed key is read
when no key is queued, which is how these loops end. -/
theorem macro_replay_bounded (m : MacroState) (hdrained : m.queue = []) (key : KeyEvent)
    (normal qCmd : Bool) :
    let w := World.typed m key normal qCmd
    (∀ ops, (run World.exec w ops).popped ≤ macroKeyCap) ∧
    (∀ ops, (run World.exec w ops).Untouched w.macros.recording) ∧
    ∀ {ρ : Type} (react : Reaction ρ) (r : ρ),
      (∃ r' w', drain react (macroKeyCap + 2) (r, w) = some (r', w') ∧ w'.macros.queue = []) ∧
      ∃ n, ((fun s => (turn react s).1)^[n] (r, w)).2.macros.replayPending = false := by
  intro w
  have hpaid : w.Paid := World.typed_paid hdrained key normal qCmd
  refine ⟨fun ops => ?_, World.run_untouched w, fun react r => ⟨?_, exists_idle hpaid⟩⟩
  · exact Nat.le_trans (Nat.le_add_right _ _) (World.run_paid hpaid ops).1
  · obtain ⟨s, hs, hqueue, -⟩ := drain_ends react (s := (r, w)) hpaid
    exact ⟨s.1, s.2, hs, hqueue⟩

/-- A macro that plays itself, at the second key of `@a`. -/
theorem macro_replay_bounded_self :
    let w := World.typed { MacroState.new with pendingAt := true } (.plain (.char 'a')) true true
    ∃ r' w', drain (fun (bytes : Bytes) _ _ => ([.replay bytes], bytes)) (macroKeyCap + 2)
      ([0x40, 0x61], w) = some (r', w') ∧ w'.macros.queue = [] :=
  ((macro_replay_bounded { MacroState.new with pendingAt := true } rfl (.plain (.char 'a')) true
    true).2.2 (fun bytes _ _ => ([.replay bytes], bytes)) [0x40, 0x61]).1

end Ruse.Tui.Keys
