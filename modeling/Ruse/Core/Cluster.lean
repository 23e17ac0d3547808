import Ruse.Core.Utf8

/-!
# Steps by grapheme cluster

The model of `Steps::next` and `Steps::prev` of `crates/core/src/motion.rs`. The
segmentation into clusters is the `unicode_segmentation` crate's, a parameter here
(`Segmenter`); the shortcuts around it, the valid run a step reads (`utf8Run`) and the
window that doubles while the crate asks for more (`clusterLoop`) are the source's.
Whatever the crate answers, as long as an answer is a boundary of the chunk it was given
(`Segmenter.Documented`), a step from inside the text stays in it and lands on a
boundary.
-/

namespace Ruse.Core

variable {e i limit : Nat}

/-- The loop of `next_boundary` with `left` bytes to go: the first boundary from `i` on. -/
def boundaryFrom (b : Bytes) : (left i : Nat) → Nat
  | 0, i => i
  | left + 1, i => if isBoundary b i then i else boundaryFrom b left (i + 1)

def nextBoundary (b : Bytes) (pos : Nat) : Nat :=
  let i := min (pos + 1) b.length
  boundaryFrom b (b.length - i) i

/-- Whether `p` is a line's NUL slot: its newline or the end of the text. -/
def atNul (b : Bytes) (p : Nat) : Bool := p ≥ b.length || b[p]? == some newline

/-- Whether `p` starts its line. -/
def atBol (b : Bytes) (p : Nat) : Bool :=
  p == 0 || (p ≤ b.length && b[p - 1]? == some newline)

/-- The bytes one step of a cursor looks at first, either side. -/
def stepWindow : Nat := 16

/-! ## The crate -/

/-- What a `GraphemeCursor` answers: `Ok(Some(_))`, `Ok(None)` or `Err(_)`. -/
inductive Answer where
  | boundary (offset : Nat)
  | nowhere
  | incomplete
deriving DecidableEq, Repr

/-- The `unicode_segmentation` crate: what a new `GraphemeCursor` at `offset` of a text of
`len` bytes answers, given the `chunk` of it that starts at `chunkStart`. -/
structure Segmenter where
  nextBoundary : (offset len : Nat) → (chunk : Bytes) → (chunkStart : Nat) → Answer
  prevBoundary : (offset len : Nat) → (chunk : Bytes) → (chunkStart : Nat) → Answer

namespace Segmenter

def ask (g : Segmenter) (forward : Bool) (offset len : Nat) (chunk : Bytes)
    (chunkStart : Nat) : Answer :=
  if forward then g.nextBoundary offset len chunk chunkStart
  else g.prevBoundary offset len chunk chunkStart

/-- A cursor on a boundary of a valid chunk answers with a boundary of it, if any. -/
def Documented (g : Segmenter) : Prop :=
  ∀ {forward : Bool} {offset len chunkStart r : Nat} {chunk : Bytes},
    ValidUtf8 chunk → chunkStart ≤ offset → IsCharBoundary chunk (offset - chunkStart) →
    g.ask forward offset len chunk chunkStart = .boundary r →
    chunkStart ≤ r ∧ IsCharBoundary chunk (r - chunkStart)

/-- The answer over the whole text `s`, from its start or its end; `none` also where `s`
is no valid text. -/
def alone (g : Segmenter) (forward : Bool) (s : Bytes) : Option Nat :=
  if ValidUtf8 s then
    match g.ask forward (if forward then 0 else s.length) s.length s 0 with
    | .boundary r => some r
    | _ => none
  else none

end Segmenter

/-! ## The valid run around a place -/

/-- `Utf8Error::error_len` of the bytes from `i` on, which begin no whole character before
`e`: `none` where they are one cut short. -/
def errorLen (b : Bytes) (e i : Nat) : Option Nat :=
  match b[i]?.bind leadClass with
  | none => some 1
  | some (_, lo, hi) =>
    if e ≤ i + 1 then none
    else if lo ≤ b.getD (i + 1) 0 ∧ b.getD (i + 1) 0 ≤ hi then
      if e ≤ i + 2 then none
      else if isContinuation (b.getD (i + 2) 0) then if e ≤ i + 3 then none else some 3
      else some 2
    else some 1

/-- Behind its first byte, what `error_len` skips is made of continuation bytes. -/
theorem errorLen_spec (b : Bytes) (hie : i < e) :
    (∀ n, errorLen b e i = some n → ∀ k, i < k → k < i + n →
      isContinuation (b.getD k 0) = true) ∧
    (errorLen b e i = none → ∀ k, i < k → k < e → isContinuation (b.getD k 0) = true) := by
  unfold errorLen
  split
  · refine ⟨?_, ?_⟩
    · intro n hn k hk hkn
      cases hn
      omega
    · intro hn
      cases hn
  · rename_i w lo hi hclass
    obtain ⟨lead, -, hclass⟩ := Option.bind_eq_some_iff.mp hclass
    obtain ⟨-, -, -, hlo, hhi⟩ := leadClass_spec hclass
    have hsecond : lo ≤ b.getD (i + 1) 0 ∧ b.getD (i + 1) 0 ≤ hi →
        isContinuation (b.getD (i + 1) 0) = true := fun h =>
      isContinuation_of_range (UInt8.le_trans hlo h.1) (UInt8.le_trans h.2 hhi)
    have htwo : (lo ≤ b.getD (i + 1) 0 ∧ b.getD (i + 1) 0 ≤ hi) →
        isContinuation (b.getD (i + 2) 0) = true → ∀ k, i < k → k < i + 3 →
        isContinuation (b.getD k 0) = true := by
      intro h h' k hk hki
      rcases Nat.lt_or_ge (i + 1) k with hthird | hfirst
      · rwa [show k = i + 2 by omega]
      · rw [show k = i + 1 by omega]
        exact hsecond h
    by_cases hend : e ≤ i + 1
    · rw [if_pos hend]
      exact ⟨fun n hn => (by cases hn), fun _ k hk hke => by omega⟩
    rw [if_neg hend]
    by_cases hin : lo ≤ b.getD (i + 1) 0 ∧ b.getD (i + 1) 0 ≤ hi
    · rw [if_pos hin]
      have hone : ∀ k, i < k → k < i + 2 → isContinuation (b.getD k 0) = true := by
        intro k hk hki
        rw [show k = i + 1 by omega]
        exact hsecond hin
      by_cases hend' : e ≤ i + 2
      · rw [if_pos hend']
        exact ⟨fun n hn => (by cases hn), fun _ k hk hke => hone k hk (by omega)⟩
      rw [if_neg hend']
      by_cases hcont : isContinuation (b.getD (i + 2) 0) = true
      · rw [if_pos hcont]
        by_cases hend'' : e ≤ i + 3
        · rw [if_pos hend'']
          exact ⟨fun n hn => (by cases hn), fun _ k hk hke => htwo hin hcont k hk (by omega)⟩
        · rw [if_neg hend'']
          refine ⟨fun n hn k hk hkn => ?_, fun hn => by cases hn⟩
          cases hn
          exact htwo hin hcont k hk hkn
      · rw [if_neg hcont]
        refine ⟨fun n hn k hk hkn => ?_, fun hn => by cases hn⟩
        cases hn
        exact hone k hk hkn
    · rw [if_neg hin]
      refine ⟨fun n hn k hk hkn => ?_, fun hn => by cases hn⟩
      cases hn
      omega

theorem errorLen_pos {b : Bytes} (hie : i < e) :
    0 < (errorLen b e i).getD (e - i) := by
  unfold errorLen
  repeat' split
  all_goals simp only [Option.getD_some, Option.getD_none]; omega

/-- A valid run, and whether each end of it is the run's own or where the window stopped. -/
structure Utf8Run where
  start : Nat
  startKnown : Bool
  stop : Nat
  endKnown : Bool
deriving DecidableEq, Repr

/-- The loop of `utf8_run`: a fault before `pos` moves the start past it. -/
def utf8RunFrom (b : Bytes) (pos e : Nat) (endKnown : Bool) (c : Nat) (startKnown : Bool) :
    Utf8Run :=
  if e ≤ validUpTo b e c then ⟨c, startKnown, e, endKnown⟩
  else
    let bad := validUpTo b e c
    let cut := (errorLen b e bad).isNone && !endKnown
    if pos ≤ bad then ⟨c, startKnown, bad, !cut⟩
    else utf8RunFrom b pos e endKnown (bad + (errorLen b e bad).getD (e - bad)) true
termination_by pos - c
decreasing_by
  rename_i hpast hbefore
  have hscan := (scans_validUpTo b e c).le
  have hlen := errorLen_pos (b := b) (Nat.lt_of_not_le hpast)
  omega

/-- Where the window of `limit` bytes either side of `pos` starts, and whether that is the
line's start. A character it cuts is left out. -/
def windowStart (b : Bytes) (pos limit : Nat) : Nat × Bool :=
  let lo := pos - limit
  match (List.range' lo (pos - lo)).reverse.find? fun i => b[i]? == some newline with
  | some i => (i + 1, true)
  | none =>
    if lo = 0 then (lo, true)
    else (lo + ((slice b lo pos).takeWhile isContinuation).length, false)

/-- Where it ends, and whether that is the line's end. -/
def windowEnd (b : Bytes) (pos limit : Nat) : Nat × Bool :=
  let hi := min (pos + limit) b.length
  match (slice b pos hi).findIdx? (· == newline) with
  | some i => (pos + i, true)
  | none => (hi, hi == b.length)

/-- The valid run that holds `pos`, as far as `limit` bytes either side. -/
def utf8Run (b : Bytes) (pos limit : Nat) : Utf8Run :=
  let (c, startKnown) := windowStart b pos limit
  let (e, endKnown) := windowEnd b pos limit
  utf8RunFrom b pos e endKnown c startKnown

/-! ### The run holds its place -/

theorem takeWhile_length_le {α : Type*} {pred : α → Bool} {l : List α} {x : α} (hx : l[i]? = some x)
    (hp : pred x = false) : (l.takeWhile pred).length ≤ i := by
  induction l generalizing i with
  | nil => exact Nat.zero_le _
  | cons a l ih =>
    rw [List.takeWhile_cons]
    split
    · rename_i ha
      cases i with
      | zero =>
        cases hx
        rw [hp] at ha
        cases ha
      | succ i => exact Nat.succ_le_succ (ih hx)
    · exact Nat.zero_le _

/-- The run is whole characters, a boundary of which is at `pos`. -/
structure Utf8Run.Holds (r : Utf8Run) (b : Bytes) (pos : Nat) : Prop where
  before : Scans b r.start pos
  after : Scans b pos r.stop

/-- `q` begins the character before `pos`, or is `pos` itself with a character there. -/
structure Edge (b : Bytes) (pos q : Nat) : Prop where
  lead : isContinuation (b.getD q 0) = false
  le : q ≤ pos
  inside : pos ≤ b.length
  char : (q = pos ∧ pos < b.length ∧ b[pos]? ≠ some newline) ∨
    (charLenAt b q = some (pos - q) ∧ ∀ k, q ≤ k → k < pos → b[k]? ≠ some newline)

section
variable {b : Bytes} {pos q : Nat} (h : Edge b pos q)
include h

theorem Edge.scans : Scans b q pos := by
  rcases h.char with ⟨heq, -, -⟩ | ⟨hw, -⟩
  · rw [heq]
    exact .refl pos
  · refine .char hw ?_
    rw [show q + (pos - q) = pos by have := h.le; omega]
    exact .refl pos

/-- Whole characters from before `q` past `pos` have a boundary at `pos`. -/
theorem Edge.through {c s : Nat} (hs : Scans b c s) (hc : c ≤ q) (hps : pos ≤ s) :
    Scans b c pos ∧ Scans b pos s := by
  have hq := (hs.cut hc (Nat.le_trans h.le hps) fun _ => h.lead).1
  exact ⟨hq.trans h.scans, (hq.trans h.scans).rest hs hps⟩

/-- A fault before `pos` covers no byte of the character at `q`. -/
theorem Edge.fault {c : Nat} (hc : c ≤ q) (hqe : q < e) (hpe : pos ≤ e)
    (hbad : validUpTo b e c < pos) (hlt : validUpTo b e c < e) :
    validUpTo b e c + (errorLen b e (validUpTo b e c)).getD (e - validUpTo b e c) ≤ q := by
  have hbq : validUpTo b e c < q := by
    by_contra hqb
    have hq := ((scans_validUpTo b e c).cut hc (by omega) fun _ => h.lead).1
    have := (hq.trans h.scans).le_validUpTo hpe
    omega
  obtain ⟨hsome, hnone⟩ := errorLen_spec b hlt
  cases hlen : errorLen b e (validUpTo b e c) with
  | none =>
    have := hnone hlen q hbq hqe
    rw [h.lead] at this
    cases this
  | some n =>
    rw [Option.getD_some]
    by_contra hqn
    have := hsome n hlen q hbq (by omega)
    rw [h.lead] at this
    cases this

theorem utf8RunFrom_holds (hqe : q < e) (hpe : pos ≤ e) (endKnown : Bool) (c : Nat)
    (startKnown : Bool) (hc : c ≤ q) : (utf8RunFrom b pos e endKnown c startKnown).Holds b pos := by
  induction c, startKnown using utf8RunFrom.induct b pos e endKnown with
  | case1 c startKnown hall =>
    rw [utf8RunFrom, if_pos hall]
    have hscan := scans_validUpTo b e c
    rw [Nat.le_antisymm (validUpTo_le (by omega)) hall] at hscan
    obtain ⟨hbefore, hafter⟩ := h.through hscan hc hpe
    exact ⟨hbefore, hafter⟩
  | case2 c startKnown hfault bad hpos =>
    rw [utf8RunFrom, if_neg hfault, if_pos hpos]
    obtain ⟨hbefore, hafter⟩ := h.through (scans_validUpTo b e c) hc hpos
    exact ⟨hbefore, hafter⟩
  | case3 c startKnown hfault bad hpos ih =>
    rw [utf8RunFrom, if_neg hfault, if_neg hpos]
    exact ih (h.fault hc hqe hpe (Nat.lt_of_not_le hpos) (Nat.lt_of_not_le hfault))

/-- The window behind the cursor reaches back to the edge of the cluster. -/
theorem Edge.windowStart_le (hlimit : pos ≤ q + limit) :
    (windowStart b pos limit).1 ≤ q := by
  unfold windowStart
  dsimp only
  split
  · rename_i i hi
    obtain ⟨hnl, hlo, hlt, -⟩ := (find?_reverse_range' _ _ _ _).mp hi
    rcases h.char with ⟨heq, -, -⟩ | ⟨-, hno⟩
    · omega
    · by_contra hqi
      exact hno i (by omega) (by omega) (by simpa using hnl)
  · split
    · omega
    · rcases Nat.lt_or_ge q pos with hlt | hge
      · -- the bytes skipped go on a character, the one at `q` does not
        have hq : (slice b (pos - limit) pos)[q - (pos - limit)]? = some (b.getD q 0) := by
          rw [slice, List.getElem?_take_of_lt (by omega), List.getElem?_drop,
            show pos - limit + (q - (pos - limit)) = q by omega, List.getD_eq_getElem?_getD,
            List.getElem?_eq_getElem (by have := h.inside; omega), Option.getD_some]
        have := takeWhile_length_le hq h.lead
        omega
      · have hlen := (List.takeWhile_sublist (l := slice b (pos - limit) pos)
          isContinuation).length_le
        rw [slice_length (by omega) h.inside] at hlen
        omega

/-- The window ahead of the cursor reaches past the edge. -/
theorem Edge.windowEnd_spec (hlimit : 0 < limit) :
    pos ≤ (windowEnd b pos limit).1 ∧ q < (windowEnd b pos limit).1 := by
  have hle := h.le
  have hin := h.inside
  unfold windowEnd
  dsimp only
  split
  · rename_i i hi
    refine ⟨Nat.le_add_right _ _, ?_⟩
    rcases h.char with ⟨-, hlt, hno⟩ | ⟨hw, -⟩
    · -- the byte at `pos` is no newline
      have hne : i ≠ 0 := by
        rintro rfl
        obtain ⟨hi0, hnl, -⟩ := List.findIdx?_eq_some_iff_getElem.mp hi
        refine hno ?_
        have hget : (slice b pos (min (pos + limit) b.length))[0]? = b[pos]? := by
          rw [slice, List.getElem?_take_of_lt (by omega), List.getElem?_drop, Nat.add_zero]
        rw [← hget, List.getElem?_eq_getElem hi0, of_decide_eq_true hnl]
      omega
    · have := charLenAt_pos hw
      omega
  · refine ⟨by omega, ?_⟩
    rcases h.char with ⟨heq, hlt, -⟩ | ⟨hw, -⟩
    · omega
    · have := charLenAt_pos hw
      omega

theorem utf8Run_holds (hlimit : 0 < limit) (hq : pos ≤ q + limit) :
    (utf8Run b pos limit).Holds b pos := by
  obtain ⟨hpe, hqe⟩ := h.windowEnd_spec hlimit
  exact utf8RunFrom_holds h hqe hpe _ _ _ (h.windowStart_le hq)

end

theorem utf8RunFrom_known {b : Bytes} {pos : Nat} (c : Nat) (startKnown : Bool)
    (hs : startKnown = true) : (utf8RunFrom b pos e true c startKnown).startKnown = true ∧
      (utf8RunFrom b pos e true c startKnown).endKnown = true := by
  induction c, startKnown using utf8RunFrom.induct b pos e true with
  | case1 c startKnown hall =>
    rw [utf8RunFrom, if_pos hall]
    exact ⟨hs, rfl⟩
  | case2 c startKnown hfault bad hpos =>
    rw [utf8RunFrom, if_neg hfault, if_pos hpos]
    exact ⟨hs, by simp⟩
  | case3 c startKnown hfault bad hpos ih =>
    rw [utf8RunFrom, if_neg hfault, if_neg hpos]
    exact ih rfl

/-- A window as long as the text knows both ends of the run. -/
theorem utf8Run_known {b : Bytes} {pos : Nat} (hpos : pos ≤ b.length) (hlimit : b.length ≤ limit) :
    (utf8Run b pos limit).startKnown = true ∧ (utf8Run b pos limit).endKnown = true := by
  have hstart : (windowStart b pos limit).2 = true := by
    unfold windowStart
    dsimp only
    split
    · rfl
    · rw [if_pos (by omega)]
  have hend : (windowEnd b pos limit).2 = true := by
    unfold windowEnd
    dsimp only
    split
    · rfl
    · rw [beq_iff_eq]
      omega
  unfold utf8Run
  dsimp only
  rw [hend]
  exact utf8RunFrom_known _ _ hstart

/-! ## A step -/

/-- How far a text is said to go on past a window's edge. -/
def far : Nat := 2 ^ 40

/-- The step by characters, the answer where the crate has none. -/
def charStep (b : Bytes) (pos : Nat) (forward : Bool) : Nat :=
  if forward then nextBoundary b pos else prevBoundary b pos

/-- The question one round of `cluster_step` asks, its answer counted from the start of
the text. -/
def clusterAsk (g : Segmenter) (b : Bytes) (pos : Nat) (forward : Bool) (limit : Nat) : Answer :=
  let run := utf8Run b pos limit
  let base := if run.startKnown then 0 else far
  let chunk := slice b run.start run.stop
  let len := base + chunk.length + if run.endKnown then 0 else far
  match g.ask forward (base + (pos - run.start)) len chunk base with
  | .boundary r => .boundary (run.start + (r - base))
  | answer => answer

/-- The loop of `cluster_step`. Once the window is as long as the text both ends of the
run are known (`utf8Run_known`), so the last branch is not reached. -/
def clusterLoop (g : Segmenter) (b : Bytes) (pos : Nat) (forward : Bool) (limit : Nat) : Nat :=
  match clusterAsk g b pos forward limit with
  | .boundary r => r
  | .nowhere => charStep b pos forward
  | .incomplete =>
    if (utf8Run b pos limit).startKnown && (utf8Run b pos limit).endKnown then
      charStep b pos forward
    else if 0 < limit ∧ limit < b.length then clusterLoop g b pos forward (limit * 2)
    else charStep b pos forward
termination_by b.length - limit

/-- The cluster boundary after (`forward`) or before `pos`. -/
def clusterStep (g : Segmenter) (b : Bytes) (pos : Nat) (forward : Bool) : Nat :=
  clusterLoop g b pos forward stepWindow

/-- `Steps::next`. -/
def nextGrapheme (g : Segmenter) (b : Bytes) (pos : Nat) : Nat :=
  -- two ASCII bytes have a boundary between them
  if b[pos]?.any (· < 0x80) && b[pos + 1]?.all (· < 0x80) then pos + 1
  else if pos ≥ b.length ∨ b[pos]? = some newline ∨ insideChar b pos then nextBoundary b pos
  else
    match charLenAt b pos with
    | none => pos + 1
    | some w =>
      if atNul b (pos + w) ∨ charLenAt b (pos + w) = none then pos + w
      -- the character and the one after it, alone
      else if w = 1 ∧ (charLenAt b (pos + w)).any (fun d =>
          g.alone true (slice b pos (pos + w + d)) == some w) then pos + w
      else if b[pos + w]?.any (· < 0x80) ∧
          g.alone true (slice b pos (pos + w + 1)) = some w then pos + w
      else clusterStep g b pos true

/-- Where the text that alone decides the cluster before `pos` starts, if it is known; `q`
is the character before `pos`. -/
def decidedFrom (b : Bytes) (q : Nat) : Option Nat :=
  if atBol b q ∨ charLenAt b (prevBoundary b q) = none then some q
  else if b[q - 1]?.any (· < 0x80) ∧ (atBol b (q - 1) ∨ b[q - 2]?.any (· < 0x80)) then
    some (q - 1)
  else none

/-- Whether the ASCII character at `q`, up to `pos`, starts a cluster: the pair of it and
the character before it has a boundary there. -/
def startsAlone (g : Segmenter) (b : Bytes) (q pos : Nat) : Bool :=
  let p := prevBoundary b q
  q + 1 == pos && !atBol b q && (charLenAt b p).isSome &&
    (g.alone false (slice b p pos)).any fun r => p + r == q

/-- `Steps::prev`. -/
def prevGrapheme (g : Segmenter) (b : Bytes) (pos : Nat) : Nat :=
  if 0 < pos ∧ pos ≤ b.length ∧ b[pos - 1]?.any (· < 0x80) ∧
      (pos = 1 ∨ b[pos - 2]?.any (· < 0x80) ∨ b[pos - 1]? = some newline) then pos - 1
  else
    let pos := min pos b.length
    if pos = 0 ∨ b[pos - 1]? = some newline ∨ insideChar b pos then prevBoundary b pos
    else
      let q := prevBoundary b pos
      if charLenAt b q = none then q
      else if startsAlone g b q pos then q
      else
        match (decidedFrom b q).bind fun start =>
            (g.alone false (slice b start pos)).map (start + ·) with
        | some r => r
        | none => clusterStep g b pos false

/-! ## Every step lands in the text -/

theorem boundaryFrom_inText {b : Bytes} (left : Nat) (h : i + left = b.length) :
    InText b (boundaryFrom b left i) := by
  induction left generalizing i with
  | zero =>
    rw [boundaryFrom, show i = b.length by omega]
    exact inText_length b
  | succ left ih =>
    rw [boundaryFrom]
    split
    · rename_i hi
      exact inText_of_isBoundary (by omega) hi
    · exact ih (by omega)

theorem nextBoundary_inText (b : Bytes) (pos : Nat) : InText b (nextBoundary b pos) :=
  boundaryFrom_inText _ (by omega)

theorem prevBoundary_inText (b : Bytes) (pos : Nat) : InText b (prevBoundary b pos) :=
  inText_of_isBoundary
    (Nat.le_trans (boundaryBelow_le b _) (Nat.min_le_right _ _)) (isBoundary_boundaryBelow b _)

theorem charStep_inText (b : Bytes) (pos : Nat) (forward : Bool) :
    InText b (charStep b pos forward) := by
  unfold charStep
  split
  · exact nextBoundary_inText b pos
  · exact prevBoundary_inText b pos

/-- Every character a cluster of its own, as it is among ASCII letters. -/
def Segmenter.byChar : Segmenter where
  nextBoundary offset len chunk chunkStart :=
    if offset = len then .nowhere
    else .boundary (chunkStart + charStep chunk (offset - chunkStart) true)
  prevBoundary offset _ chunk chunkStart :=
    if offset = 0 then .nowhere
    else .boundary (chunkStart + charStep chunk (offset - chunkStart) false)

/-- Stepping by bytes obeys the protocol. -/
theorem Segmenter.byChar_documented : byChar.Documented := by
  intro forward offset len chunkStart r chunk hvalid hstart hoffset hanswer
  have hr : r = chunkStart + charStep chunk (offset - chunkStart) forward := by
    cases forward with
    | true =>
      simp only [ask, byChar, if_true] at hanswer
      split at hanswer
      · cases hanswer
      · exact (Answer.boundary.inj hanswer).symm
    | false =>
      simp only [ask, byChar, Bool.false_eq_true, if_false] at hanswer
      split at hanswer
      · cases hanswer
      · exact (Answer.boundary.inj hanswer).symm
  subst hr
  refine ⟨Nat.le_add_right _ _, ?_⟩
  rw [Nat.add_sub_cancel_left]
  exact (charStep_inText chunk _ forward).2 hvalid

/-- A boundary inside a run of UTF-8 is a place in the text. -/
theorem inText_of_run {b : Bytes} {pos k : Nat} {r : Utf8Run} (hr : r.Holds b pos)
    (hpos : InText b pos) (hk : IsCharBoundary (slice b r.start r.stop) k) :
    InText b (r.start + k) := by
  have hstop := hr.after.le_length hpos.1
  have hscan := hr.before.trans hr.after
  have hlen := slice_length hscan.le hstop
  have hle := hk.le
  rcases Nat.lt_or_ge k (r.stop - r.start) with hlt | hge
  · refine inText_of_lead (by omega) ?_
    have hzero : k = 0 → isContinuation (b.getD r.start 0) = false := by
      intro _
      generalize r.start = i at hscan hlt
      cases hscan with
      | refl => omega
      | char hw _ => exact (charLenAt_spec hw).2.2.2.1
    rcases hk with hk | hk | ⟨hkl, hk⟩
    · rw [hk, Nat.add_zero]
      exact hzero hk
    · omega
    · rwa [List.getD_eq_getElem?_getD, slice, List.getElem?_take_of_lt hlt,
        List.getElem?_drop, ← List.getD_eq_getElem?_getD] at hk
  · have := hscan.le
    rw [show r.start + k = r.stop by omega]
    exact hpos.scans hr.after

/-- An answer on a window is a place in the text. -/
theorem clusterAsk_inText {g : Segmenter} (hg : g.Documented) {b : Bytes} {pos q : Nat}
    (h : Edge b pos q) (hpos : InText b pos) {forward : Bool} {r : Nat} (hlimit : 0 < limit)
    (hq : pos ≤ q + limit) (hr : clusterAsk g b pos forward limit = .boundary r) : InText b r := by
  have hrun := utf8Run_holds h hlimit hq
  have hstop := hrun.after.le_length hpos.1
  have hscan := hrun.before.trans hrun.after
  unfold clusterAsk at hr
  dsimp only at hr
  split at hr
  · rename_i offset hanswer
    cases hr
    refine inText_of_run hrun hpos (hg (hscan.validUtf8 hstop) (Nat.le_add_right _ _) ?_ hanswer).2
    rw [Nat.add_sub_cancel_left]
    have hat := hrun.before.slice (e := (utf8Run b pos limit).stop) (Nat.le_refl _) hrun.after.le
    rw [Nat.sub_self] at hat
    exact (hscan.validUtf8 hstop).boundary_of_scans (.inl rfl) hat
  · rename_i hanswer
    rw [hr] at hanswer
    exact absurd rfl (hanswer r)

/-- The loop over the windows stays in the text. -/
theorem clusterLoop_inText {g : Segmenter} (hg : g.Documented) {b : Bytes} {pos q : Nat}
    (h : Edge b pos q) (hpos : InText b pos) (forward : Bool) (limit : Nat) (hlimit : 0 < limit)
    (hq : pos ≤ q + limit) : InText b (clusterLoop g b pos forward limit) := by
  induction limit using clusterLoop.induct g b pos forward with
  | case1 limit r hr =>
    rw [clusterLoop, hr]
    exact clusterAsk_inText hg h hpos hlimit hq hr
  | case2 limit hr =>
    rw [clusterLoop, hr]
    exact charStep_inText b pos forward
  | case3 limit hr hknown =>
    rw [clusterLoop, hr]
    rw [if_pos hknown]
    exact charStep_inText b pos forward
  | case4 limit hr hknown hmore ih =>
    rw [clusterLoop, hr]
    rw [if_neg hknown, if_pos hmore]
    exact ih (by omega) (by omega)
  | case5 limit hr hknown hmore =>
    rw [clusterLoop, hr]
    rw [if_neg hknown, if_neg hmore]
    exact charStep_inText b pos forward

theorem clusterStep_inText {g : Segmenter} (hg : g.Documented) {b : Bytes} {pos q : Nat}
    (h : Edge b pos q) (hpos : InText b pos) (forward : Bool) :
    InText b (clusterStep g b pos forward) := by
  refine clusterLoop_inText hg h hpos forward stepWindow (by decide) ?_
  rcases h.char with ⟨heq, -, -⟩ | ⟨hw, -⟩
  · omega
  · have := (charLenAt_spec hw).2.1
    simp only [stepWindow]
    omega

theorem isBoundary_of_not_inside {b : Bytes} {pos : Nat} (h : ¬ insideChar b pos = true) :
    isBoundary b pos = true := by
  rw [isBoundary, Bool.eq_false_iff.mpr h]
  simp

theorem ascii_of_any {b : Bytes} (h : b[i]?.any (· < 0x80) = true) :
    i < b.length ∧ isContinuation (b.getD i 0) = false := by
  obtain ⟨c, hc, hascii⟩ := Option.any_eq_true _ _ |>.mp h
  have hlt := (List.getElem?_eq_some_iff.mp hc).1
  refine ⟨hlt, ?_⟩
  rw [List.getD_eq_getElem?_getD, hc, Option.getD_some]
  have hlow := UInt8.lt_iff_toNat_lt.mp (of_decide_eq_true hascii)
  exact not_isContinuation_of_ascii (UInt8.le_iff_toNat_le.mpr (Nat.le_of_lt_succ hlow))

/-- The boundary before `pos` begins the character that ends there, if it begins one. -/
theorem edge_prevBoundary {b : Bytes} {pos w : Nat} (hpos : 0 < pos) (hlen : pos ≤ b.length)
    (hin : ¬ insideChar b pos = true) (hnl : b[pos - 1]? ≠ some newline)
    (hw : charLenAt b (prevBoundary b pos) = some w) : Edge b pos (prevBoundary b pos) := by
  have hlt : prevBoundary b pos < pos := by
    unfold prevBoundary
    rw [Nat.min_eq_left hlen]
    exact boundaryBelow_lt b hpos
  generalize hq : prevBoundary b pos = q at hw hlt
  obtain ⟨hwpos, hw4, hwle, hlead, hrest⟩ := charLenAt_spec hw
  -- past `pos` the character would hold it, before it a boundary would be closer
  have hover : q + w ≤ pos := by
    by_contra hgt
    refine hin (insideChar_iff.mpr ⟨hpos, by omega, hrest pos hlt (by omega), q, w, by omega, hlt,
      hlead, fun k hk hkp => hrest k hk (by omega), hw, by omega⟩)
  have hunder : pos ≤ q + w := by
    by_contra hgt
    have hnot : ¬ isBoundary b (q + w) = true := by
      intro hb
      have := le_boundaryBelow hb (Nat.lt_of_not_le hgt)
      rw [← Nat.min_eq_left hlen] at this
      change q + w ≤ prevBoundary b pos at this
      omega
    have hinside : insideChar b (q + w) = true := by
      by_contra hno
      exact hnot (isBoundary_of_not_inside hno)
    obtain ⟨-, -, -, j, w', -, hjw, hjlead, hbetween, hw', hpast⟩ := insideChar_iff.mp hinside
    have hjq : j = q := by
      rcases Nat.lt_trichotomy j q with h | h | h
      · rw [hbetween q h (by omega)] at hlead
        cases hlead
      · exact h
      · rw [hrest j h hjw] at hjlead
        cases hjlead
    rw [hjq, hw] at hw'
    cases hw'
    omega
  have hwidth : pos - q = w := by omega
  refine ⟨hlead, Nat.le_of_lt hlt, hlen, .inr ⟨by rw [hwidth, hw], fun k hk hkp => ?_⟩⟩
  rcases Nat.lt_or_ge 1 w with hlong | hshort
  · obtain ⟨hnot, -, hnots, -⟩ := charLenAt_carried hw hlong
    rcases Nat.lt_or_ge q k with h | h
    · exact hnots k h (by omega)
    · rwa [show k = q by omega]
  · rwa [show k = pos - 1 by omega]

/-- The text that decides the cluster before a place is whole characters up to the one
at `q`. -/
theorem decidedFrom_scans {b : Bytes} {q start : Nat} (h : decidedFrom b q = some start) :
    Scans b start q := by
  unfold decidedFrom at h
  split at h
  · cases h
    exact .refl q
  · rename_i hnot
    split at h
    · rename_i hascii
      cases h
      have hpos : 0 < q := by
        by_contra hzero
        refine hnot (.inl ?_)
        rw [show q = 0 by omega]
        rfl
      obtain ⟨c, hc, hlow⟩ := Option.any_eq_true _ _ |>.mp hascii.1
      have hone : charLenAt b (q - 1) = some 1 := charLenAt_eq_one.mpr ⟨c, hc,
        UInt8.le_iff_toNat_le.mpr
          (Nat.le_of_lt_succ (UInt8.lt_iff_toNat_lt.mp (of_decide_eq_true hlow)))⟩
      refine .char hone ?_
      rw [Nat.sub_add_cancel hpos]
      exact .refl q
    · cases h

theorem alone_boundary {g : Segmenter} (hg : g.Documented) {forward : Bool} {s : Bytes} {r : Nat}
    (h : g.alone forward s = some r) : IsCharBoundary s r := by
  unfold Segmenter.alone at h
  split at h
  · rename_i hs
    split at h
    · rename_i r' hanswer
      cases h
      refine (hg hs (Nat.zero_le _) ?_ hanswer).2
      cases forward with
      | true => exact .inl rfl
      | false => exact .inr (.inl rfl)
    · cases h
  · cases h

/-- `Steps::prev` from anywhere. -/
theorem prevGrapheme_inText {g : Segmenter} (hg : g.Documented) (b : Bytes) (pos : Nat) :
    InText b (prevGrapheme g b pos) := by
  unfold prevGrapheme
  split
  · rename_i hascii
    obtain ⟨-, -, hat, -⟩ := hascii
    obtain ⟨hlt, hlead⟩ := ascii_of_any hat
    exact inText_of_lead hlt hlead
  · generalize hp : min pos b.length = p
    have hlen : p ≤ b.length := by omega
    dsimp only
    split
    · exact prevBoundary_inText b p
    · rename_i hout
      simp only [not_or] at hout
      obtain ⟨hpos, hnl, hin⟩ := hout
      have hq := prevBoundary_inText b p
      split
      · exact hq
      · rename_i hsome
        obtain ⟨w, hw⟩ := Option.ne_none_iff_exists'.mp hsome
        have hedge := edge_prevBoundary (Nat.pos_of_ne_zero hpos) hlen hin hnl hw
        have hat : InText b p := inText_of_isBoundary hlen (isBoundary_of_not_inside hin)
        split
        · exact hq
        · split
          · rename_i r hr
            obtain ⟨start, hstart, hr⟩ := Option.bind_eq_some_iff.mp hr
            obtain ⟨k, hk, rfl⟩ := Option.map_eq_some_iff.mp hr
            exact inText_of_run (r := ⟨start, true, p, true⟩)
              ⟨(decidedFrom_scans hstart).trans hedge.scans, .refl p⟩ hat (alone_boundary hg hk)
          · exact clusterStep_inText hg hedge hat false

end Ruse.Core
