import Ruse.Core.Document
import Ruse.Core.Register
import Ruse.Core.Utf8

/-!
# A view and its stored positions

The model of the `View` of `crates/core/src/editor/mod.rs`: the cursor, the selection,
the marks, the change list and the jumplist of one window. The document carries a view's
long-lived positions through a change in one flat list (`View.tracked`), which
`View.untrack` reads back. A `Place` names one of them; the two functions agree on the
entry of each in the list (`tracked_at`, `untrack_get`).
-/

namespace Ruse.Core

inductive SelectKind where
  | charwise
  | linewise
  | blockwise
deriving DecidableEq, Repr

inductive Mode where
  | normal
  | insert
  | replace
  | virtualReplace
  | visual (kind : SelectKind)
  | select (kind : SelectKind)
  | terminal
  | terminalNormal
deriving DecidableEq, Repr

/-- The shape of the live selection of a mode that has one. -/
def Mode.selection : Mode → Option SelectKind
  | .visual kind => some kind
  | .select kind => some kind
  | _ => none

/-- Whether the mode is a text-entry session. -/
def Mode.isTextEntry : Mode → Bool
  | .insert => true
  | .replace => true
  | .virtualReplace => true
  | _ => false

/-- Whether the caret rests on characters or between them. -/
inductive CaretGravity where
  | onChar
  | betweenChar
deriving DecidableEq, Repr

/-- A live blockwise insert-replicate session. -/
structure BlockInsert where
  insertStart : Nat
  topLeft : Nat
  topLineStart : Nat
  topLen : Nat
  targetCol : Nat
  rowsBelow : Nat
  append : Bool
  toEol : Bool
  change : Bool
  width : Nat
deriving DecidableEq, Repr

inductive BlockInsertKind where
  | insert
  | append
  | change
deriving DecidableEq, Repr

/-- The size and kind of a committed blockwise insert. -/
structure BlockGeom where
  height : Nat
  width : Nat
  kind : BlockInsertKind
  toEol : Bool
deriving DecidableEq, Repr

/-- The positions a view keeps of one document, and what its commands left behind. -/
@[ext]
structure View where
  cursor : Nat
  mode : Mode
  lastWasEdit : Bool
  lastWasKill : Bool
  registers : RegisterStore
  pendingRegister : Option Char
  anchor : Option Nat
  mark : Option Nat
  lastVisual : Option (Nat × Nat × SelectKind)
  visualOneEnd : Option Char
  replaceStack : List (Option Bytes)
  blockInsert : Option BlockInsert
  lastBlockGeom : Option BlockGeom
  textWidth : Nat
  /-- The sticky column, measured. -/
  curswant : Nat
  caret : CaretGravity
  changes : List Nat
  newChange : Bool
  changeIdx : Nat
  namedMarks : Fin 62 → Option Nat
  lastInsert : Option Nat
  changeStart : Option Nat
  changeEnd : Option Nat
  insertStart : Option Nat
  insstart : Option Nat
  jumps : List Nat
  keepJumps : Bool
  jumpIdx : Nat

/-- The bound of the change list and the jumplist. -/
def maxChanges : Nat := 100

/-- The entries of `View.tracked` before the change list. -/
def trackedFixed : Nat := 67

/-- The slot of mark `c`. -/
def markSlot (c : Char) : Option (Fin 62) :=
  if 'a' ≤ c ∧ c ≤ 'z' then some (Fin.ofNat 62 (c.toNat - 'a'.toNat))
  else if 'A' ≤ c ∧ c ≤ 'Z' then some (Fin.ofNat 62 (26 + c.toNat - 'A'.toNat))
  else if '0' ≤ c ∧ c ≤ '9' then some (Fin.ofNat 62 (52 + c.toNat - '0'.toNat))
  else none

/-- Add the newest entry, dropping the oldest of a full list. -/
def pushBounded (l : List Nat) (p : Nat) : List Nat :=
  let l := l ++ [p]
  if l.length > maxChanges then l.tail else l

namespace View

/-- A fresh view: the cursor at the start, Normal mode, nothing remembered. -/
def fresh : View where
  cursor := 0
  mode := .normal
  lastWasEdit := false
  lastWasKill := false
  registers := .new
  pendingRegister := none
  anchor := none
  mark := none
  lastVisual := none
  visualOneEnd := none
  replaceStack := []
  blockInsert := none
  lastBlockGeom := none
  textWidth := 0
  curswant := 0
  caret := .onChar
  changes := []
  newChange := false
  changeIdx := 0
  namedMarks := fun _ => none
  lastInsert := none
  changeStart := none
  changeEnd := none
  insertStart := none
  insstart := none
  jumps := []
  keepJumps := false
  jumpIdx := 0

/-- Put every stored offset into `b`, on a boundary. -/
def snapOffsets (v : View) (b : Bytes) : View :=
  let into (p : Nat) : Nat := snap b (min p b.length)
  { v with
    changes := v.changes.map into
    namedMarks := fun i => (v.namedMarks i).map into
    lastInsert := v.lastInsert.map into
    lastVisual := v.lastVisual.map fun (a, e, kind) => (into a, into e, kind)
    anchor := v.anchor.map into
    mark := v.mark.map into
    changeStart := v.changeStart.map into
    changeEnd := v.changeEnd.map into
    insertStart := v.insertStart.map into
    insstart := v.insstart.map into
    jumps := v.jumps.map into }

/-- The `n` named marks from slot `lo` on. -/
def marksFrom (v : View) (lo n : Nat) : List (Option Nat) :=
  (((List.finRange 62).drop lo).take n).map v.namedMarks

/-- The long-lived positions, for the document to carry through a change. -/
def tracked (v : View) : List Tracked :=
  (v.marksFrom 0 26).map (fun m => (Tracked.line m .drop).restored) ++
  [(Tracked.line (v.lastVisual.map fun (a, _, _) => a) .keep).restored,
    (Tracked.line (v.lastVisual.map fun (_, e, _) => e) .keep).restored] ++
  (v.marksFrom 26 26).map (fun m => Tracked.line m .keep) ++
  [Tracked.line v.lastInsert .drop, Tracked.line v.changeStart .keep,
    Tracked.line v.changeEnd .keep] ++
  (v.marksFrom 52 10).map (fun m => Tracked.line m .keep) ++
  v.changes.map (fun p => Tracked.line (some p) .keep) ++
  v.jumps.map (fun p => Tracked.line (some p) .keep)

/-- Take back the positions `tracked` gave out. -/
def untrack (v : View) (t : List Tracked) : View :=
  let pos (i : Nat) : Option Nat := t[i]?.bind Tracked.pos
  { v with
    namedMarks := fun i =>
      if i.val < 26 then pos i else if i.val < 52 then pos (i + 2) else pos (i + 5)
    lastVisual :=
      match v.lastVisual, pos 26, pos 27 with
      | some (_, _, kind), some a, some e => some (a, e, kind)
      | kept, _, _ => kept
    lastInsert := pos 54
    changeStart := pos 55
    changeEnd := pos 56
    changes := (List.range v.changes.length).map fun i => (pos (trackedFixed + i)).getD 0
    jumps := (List.range v.jumps.length).map fun i =>
      (pos (trackedFixed + v.changes.length + i)).getD 0 }

/-! ## The lists -/

def setNamedMark (v : View) (c : Char) (pos : Nat) : View :=
  match markSlot c with
  | some i => { v with namedMarks := Function.update v.namedMarks i (some pos) }
  | none => v

/-- Whether a change at `pos` is on another line than the newest entry, or more than
`'textwidth'` columns off. -/
def farFrom (v : View) (b : Bytes) (pos last : Nat) : Bool :=
  let line (p : Nat) : Nat := lineOf b (min p b.length)
  let col (p : Nat) : Nat := min p b.length - lineStart b (min p b.length)
  let cols := if v.textWidth = 0 then 79 else v.textWidth
  line pos != line last || col last + cols < col pos || col pos + cols < col last

/-- Record a change at `pos`. -/
def pushChange (v : View) (b : Bytes) (pos : Nat) (newStep : Bool) : View :=
  if v.keepJumps then v
  else
    let newChange := v.newChange || newStep
    -- a change near the newest entry does not start another
    let add := (newChange || v.changes.isEmpty) && v.changes.getLast?.all (v.farFrom b pos)
    let changes := if add then pushBounded v.changes pos else v.changes
    -- the newest entry moves to `pos` either way
    let changes := if changes.isEmpty then changes else changes.dropLast ++ [pos]
    { v with newChange := newChange && !add, changes, changeIdx := changes.length }

/-- Step along the change list; where to jump, if anywhere. -/
def navChange (v : View) (older : Bool) : View × Option Nat :=
  if v.changes.isEmpty then (v, none)
  else if older then
    if v.changeIdx = 0 then (v, none)
    else ({ v with changeIdx := v.changeIdx - 1 }, v.changes[v.changeIdx - 1]?)
  else if v.changeIdx + 1 ≥ v.changes.length then (v, none)
  else ({ v with changeIdx := v.changeIdx + 1 }, v.changes[v.changeIdx + 1]?)

/-- Record the position a jump left. -/
def pushJump (v : View) (pos : Nat) : View :=
  if v.keepJumps then v
  else
    let jumps := if v.jumps.getLast? ≠ some pos then pushBounded v.jumps pos else v.jumps
    { v with jumps, jumpIdx := jumps.length }

/-- The loop of `clean_jumps` from entry `i` on: an entry is kept when no later one is on
its line, and the walk cursor follows its entry. -/
def cleanLoop (line : Nat → Nat) : (i : Nat) → List Nat → List Nat → Nat → List Nat × Nat
  | _, [], kept, idx => (kept, idx)
  | i, pos :: rest, kept, idx =>
    cleanLoop line (i + 1) rest
      (if (rest.map line).contains (line pos) then kept else kept ++ [pos])
      (if idx = i then kept.length else idx)

/-- Fold the jumps of one line into the newest, and drop the newest when it is on the
cursor's line. -/
def cleanJumps (v : View) (b : Bytes) (now : Nat) : View :=
  let line (p : Nat) : Nat := lineOf b (min p b.length)
  let (kept, idx) := cleanLoop line 0 v.jumps [] v.jumpIdx
  let idx := if idx = v.jumps.length then kept.length else idx
  if idx = kept.length ∧ kept.getLast?.any (fun p => line p == line now) then
    { v with jumps := kept.dropLast, jumpIdx := idx - 1 }
  else { v with jumps := kept, jumpIdx := idx }

/-- Step along the jumplist from `now`; where to jump, if anywhere. -/
def navJump (v : View) (older : Bool) (now : Nat) (b : Bytes) : View × Option Nat :=
  let v := v.cleanJumps b now
  let len := v.jumps.length
  if older then
    if v.jumpIdx = 0 ∨ len = 0 then (v, none)
    else
      let v :=
        if v.jumpIdx = len then
          -- the first move back remembers where it started
          let jumps := pushBounded v.jumps now
          { v with jumps, jumpIdx := jumps.length - 1 }
        else v
      if v.jumpIdx = 0 then (v, none)
      else ({ v with jumpIdx := v.jumpIdx - 1 }, v.jumps[v.jumpIdx - 1]?)
  else if v.jumpIdx + 1 ≥ len then (v, none)
  else ({ v with jumpIdx := v.jumpIdx + 1 }, v.jumps[v.jumpIdx + 1]?)

end View

/-! ## Places -/

/-- One of the positions a view gives out. -/
inductive Place where
  | named (i : Fin 62)
  | visualStart
  | visualEnd
  | lastInsert
  | changeStart
  | changeEnd
  | change (i : Nat)
  | jump (i : Nat)
deriving DecidableEq, Repr

namespace Place

/-- Its entry in the flat list, beside a change list of `n` entries. -/
def index (n : Nat) : Place → Nat
  | named i => if i.val < 26 then i else if i.val < 52 then i + 2 else i + 5
  | visualStart => 26
  | visualEnd => 27
  | lastInsert => 54
  | changeStart => 55
  | changeEnd => 56
  | change i => trackedFixed + i
  | jump i => trackedFixed + n + i

/-- What becomes of it when its line is deleted. -/
def gravity : Place → LineGravity
  | named i => if i.val < 26 then .drop else .keep
  | lastInsert => .drop
  | _ => .keep

def restored : Place → Bool
  | named i => i.val < 26
  | visualStart => true
  | visualEnd => true
  | _ => false

end Place

namespace View

def get (v : View) : Place → Option Nat
  | .named i => v.namedMarks i
  | .visualStart => v.lastVisual.map fun (a, _, _) => a
  | .visualEnd => v.lastVisual.map fun (_, e, _) => e
  | .lastInsert => v.lastInsert
  | .changeStart => v.changeStart
  | .changeEnd => v.changeEnd
  | .change i => v.changes[i]?
  | .jump i => v.jumps[i]?

/-- The places a view has: the lists have one for each entry, and the ends of the last
Visual area need one. -/
def Has (v : View) : Place → Prop
  | .visualStart => v.lastVisual.isSome
  | .visualEnd => v.lastVisual.isSome
  | .change i => i < v.changes.length
  | .jump i => i < v.jumps.length
  | _ => True

/-- What a place is in the flat list. -/
def entry (v : View) (s : Place) : Tracked := ⟨v.get s, .line s.gravity, s.restored⟩

end View

namespace View

theorem marksFrom_getElem? (v : View) {lo n i : Nat} (hi : i < n) (h : lo + i < 62) :
    (v.marksFrom lo n)[i]? = some (v.namedMarks ⟨lo + i, h⟩) := by
  simp [marksFrom, hi, h]

theorem marksFrom_length (v : View) {lo n : Nat} (h : lo + n ≤ 62) :
    (v.marksFrom lo n).length = n := by
  simp only [marksFrom, List.length_map, List.length_take, List.length_drop, List.length_finRange]
  omega

@[simp] theorem tracked_length (v : View) :
    v.tracked.length = trackedFixed + v.changes.length + v.jumps.length := by
  simp only [tracked, List.length_append, List.length_map, List.length_cons, List.length_nil,
    v.marksFrom_length (show 0 + 26 ≤ 62 by decide),
    v.marksFrom_length (show 26 + 26 ≤ 62 by decide),
    v.marksFrom_length (show 52 + 10 ≤ 62 by decide), trackedFixed]

/-- The tracked positions, by their index. -/
theorem tracked_getElem? (v : View) (k : Nat) : v.tracked[k]? =
    if k < 26 then (v.marksFrom 0 26)[k]?.map fun m => (Tracked.line m .drop).restored
    else if k < 28 then
      [(Tracked.line (v.lastVisual.map fun (a, _, _) => a) .keep).restored,
        (Tracked.line (v.lastVisual.map fun (_, e, _) => e) .keep).restored][k - 26]?
    else if k < 54 then (v.marksFrom 26 26)[k - 28]?.map fun m => Tracked.line m .keep
    else if k < 57 then
      [Tracked.line v.lastInsert .drop, Tracked.line v.changeStart .keep,
        Tracked.line v.changeEnd .keep][k - 54]?
    else if k < 67 then (v.marksFrom 52 10)[k - 57]?.map fun m => Tracked.line m .keep
    else if k < 67 + v.changes.length then
      v.changes[k - 67]?.map fun p => Tracked.line (some p) .keep
    else v.jumps[k - (67 + v.changes.length)]?.map fun p => Tracked.line (some p) .keep := by
  simp only [tracked, List.getElem?_append, List.length_append, List.length_map,
    List.length_cons, List.length_nil, v.marksFrom_length (show 0 + 26 ≤ 62 by decide),
    v.marksFrom_length (show 26 + 26 ≤ 62 by decide),
    v.marksFrom_length (show 52 + 10 ≤ 62 by decide), List.getElem?_map]
  split_ifs <;> first | rfl | omega

/-- The flat list holds each place at its entry. -/
theorem tracked_at {v : View} {s : Place} (hs : v.Has s) :
    v.tracked[s.index v.changes.length]? = some (v.entry s) := by
  cases s with
  | named i =>
    rw [tracked_getElem?]
    simp only [Place.index, entry, Place.gravity, Place.restored, get]
    rcases Nat.lt_or_ge i.val 26 with hlower | hlower
    · simp only [hlower, if_true]
      rw [v.marksFrom_getElem? hlower (by omega)]
      simp [Tracked.line, Tracked.restored]
    · simp only [Nat.not_lt.mpr hlower, if_false]
      rcases Nat.lt_or_ge i.val 52 with hupper | hdigit
      · simp only [hupper, if_true]
        rw [if_neg (by omega), if_neg (by omega), if_pos (by omega),
          v.marksFrom_getElem? (by omega) (by omega)]
        simp only [Option.map_some, Tracked.line, decide_false]
        congr 3
        exact Fin.ext (by simp only; omega)
      · simp only [Nat.not_lt.mpr hdigit, if_false]
        rw [if_neg (by omega), if_neg (by omega), if_neg (by omega), if_neg (by omega),
          if_pos (by omega), v.marksFrom_getElem? (by omega) (by omega)]
        simp only [Option.map_some, Tracked.line, decide_false]
        congr 3
        exact Fin.ext (by simp only; omega)
  | change i =>
    have hi : i < v.changes.length := hs
    rw [show Place.index v.changes.length (.change i) = 67 + i from rfl, tracked_getElem?,
      if_neg (by omega), if_neg (by omega), if_neg (by omega), if_neg (by omega),
      if_neg (by omega), if_pos (by omega), Nat.add_sub_cancel_left, List.getElem?_eq_getElem hi]
    simp [entry, get, Place.gravity, Place.restored, Tracked.line, hi]
  | jump i =>
    have hi : i < v.jumps.length := hs
    rw [show Place.index v.changes.length (.jump i) = 67 + v.changes.length + i from rfl,
      tracked_getElem?, if_neg (by omega), if_neg (by omega), if_neg (by omega),
      if_neg (by omega), if_neg (by omega), if_neg (by omega), Nat.add_sub_cancel_left,
      List.getElem?_eq_getElem hi]
    simp [entry, get, Place.gravity, Place.restored, Tracked.line, hi]
  | _ => rfl

@[simp] theorem untrack_changes_length (v : View) (t : List Tracked) :
    (v.untrack t).changes.length = v.changes.length := by
  simp [untrack]

@[simp] theorem untrack_jumps_length (v : View) (t : List Tracked) :
    (v.untrack t).jumps.length = v.jumps.length := by
  simp [untrack]

/-- A list that keeps an entry for each place, a set one for the places that are set
whenever they are there, is read back place by place. -/
theorem untrack_get {v : View} {t : List Tracked} {s : Place} (hs : v.Has s)
    (hvisual : v.lastVisual.isSome → (∃ a, t[26]?.bind Tracked.pos = some a) ∧
      ∃ e, t[27]?.bind Tracked.pos = some e)
    (hlists : ∀ i < v.changes.length + v.jumps.length,
      ∃ p, t[trackedFixed + i]?.bind Tracked.pos = some p) :
    (v.untrack t).get s = t[s.index v.changes.length]?.bind Tracked.pos := by
  cases s with
  | named i =>
    simp only [untrack, get, Place.index]
    split_ifs <;> rfl
  | visualStart =>
    obtain ⟨⟨a, ha⟩, e, he⟩ := hvisual hs
    obtain ⟨⟨_, _, kind⟩, hv⟩ := Option.isSome_iff_exists.mp hs
    simp only [untrack, get, Place.index, hv, ha, he, Option.map_some]
  | visualEnd =>
    obtain ⟨⟨a, ha⟩, e, he⟩ := hvisual hs
    obtain ⟨⟨_, _, kind⟩, hv⟩ := Option.isSome_iff_exists.mp hs
    simp only [untrack, get, Place.index, hv, ha, he, Option.map_some]
  | change i =>
    have hi : i < v.changes.length := hs
    obtain ⟨p, hp⟩ := hlists i (by omega)
    simp only [untrack, get, Place.index, List.getElem?_map, List.getElem?_range hi, Option.map_some]
    rw [hp, Option.getD_some]
  | jump i =>
    have hi : i < v.jumps.length := hs
    obtain ⟨p, hp⟩ := hlists (v.changes.length + i) (by omega)
    simp only [untrack, get, Place.index, List.getElem?_map, List.getElem?_range hi, Option.map_some]
    rw [Nat.add_assoc, hp, Option.getD_some]
  | _ => rfl

/-- A view's positions taken out and put back leave it as it is. -/
theorem untrack_tracked (v : View) : v.untrack v.tracked = v := by
  have hpos : ∀ s, v.Has s → v.tracked[s.index v.changes.length]?.bind Tracked.pos = v.get s :=
    fun s hs => by rw [tracked_at hs]; rfl
  have hsame : ∀ s, v.Has s → (v.untrack v.tracked).get s = v.get s := by
    intro s hs
    rw [untrack_get hs, hpos s hs]
    · intro hv
      obtain ⟨⟨a, e, kind⟩, h⟩ := Option.isSome_iff_exists.mp hv
      refine ⟨⟨a, ?_⟩, e, ?_⟩
      · exact (hpos .visualStart hv).trans (by simp [get, h])
      · exact (hpos .visualEnd hv).trans (by simp [get, h])
    · intro i hi
      rcases Nat.lt_or_ge i v.changes.length with hc | hj
      · exact ⟨v.changes[i], (hpos (.change i) hc).trans (by simp [get, hc])⟩
      · have hj' : i - v.changes.length < v.jumps.length := by omega
        have := hpos (.jump (i - v.changes.length)) hj'
        rw [Place.index, show trackedFixed + v.changes.length + (i - v.changes.length) =
          trackedFixed + i by omega] at this
        exact ⟨v.jumps[i - v.changes.length], this.trans (by simp [get, hj'])⟩
  apply View.ext
  case namedMarks => exact funext fun i => hsame (.named i) trivial
  case lastVisual =>
    cases h : v.lastVisual with
    | none => simp only [untrack, h]
    | some area =>
      have ha := hpos .visualStart (by simp [Has, h])
      have he := hpos .visualEnd (by simp [Has, h])
      simp only [get, h, Option.map_some, Place.index] at ha he
      simp only [untrack, h, ha, he]
  case lastInsert => exact hsame .lastInsert trivial
  case changeStart => exact hsame .changeStart trivial
  case changeEnd => exact hsame .changeEnd trivial
  case changes =>
    refine List.ext_getElem? fun i => ?_
    rcases Nat.lt_or_ge i v.changes.length with h | h
    · exact hsame (.change i) h
    · rw [List.getElem?_eq_none h, List.getElem?_eq_none (by simpa using h)]
  case jumps =>
    refine List.ext_getElem? fun i => ?_
    rcases Nat.lt_or_ge i v.jumps.length with h | h
    · exact hsame (.jump i) h
    · rw [List.getElem?_eq_none h, List.getElem?_eq_none (by simpa using h)]
  all_goals rfl

end View

end Ruse.Core
