import Ruse.Core.Utf8
import Ruse.Lib.EditGraph

/-!
# The recovery prompt's diff

The model of `apps/tui/src/persist/diff.rs`: the bounded search for a shortest script
(`myers`), its way back (`backtrack`), and the unified diff made of a script
(`unified`). `v` is the array of the furthest `x` on each diagonal, diagonal `k` at
index `k + off`; `trace` keeps the window of it that each round began with.

A string is the bytes of its text.
-/

namespace Ruse.Persist

open Ruse.Core
open Ruse.Lib.Script (Op fromAbove startOn)

structure Diff where
  lines : List Bytes
  /-- Whether the bounded search finished. -/
  minimal : Bool
  /-- Lines not kept because there were too many. -/
  cut : Nat
deriving DecidableEq, Repr

namespace Diff

/-- Lines of context around each change (`CONTEXT`). -/
def context : Nat := 3

/-- The edit distance the minimal search may reach (`MAX_D`). -/
def maxD : Nat := 2000

/-- Comparison steps the minimal search may take (`MAX_WORK`). -/
def maxWork : Nat := 20000000

/-- Lines above which no minimal search is tried (`MAX_LINES`). -/
def maxLines : Nat := 1000000

/-- Output lines kept (`MAX_OUTPUT`). -/
def maxOutput : Nat := 100000

/-- Split into lines, each with its newline, which the last one may lack. -/
def linesOf : Bytes → List Bytes
  | [] => []
  | c :: b =>
    if c = newline then [c] :: linesOf b
    else
      match linesOf b with
      | [] => [[c]]
      | line :: rest => (c :: line) :: rest

/-! ## The search for a shortest script -/

section Search

variable {α : Type*} [DecidableEq α] (a b : List α)

/-- The index of diagonal `k` (`at`). -/
def index (off : Nat) (k : Int) : Nat := (k + off).toNat

/-- `v[at(k)]`. -/
def look (v : List Nat) (off : Nat) (k : Int) : Nat := v.getD (index off k) 0

/-- `v[at(-d - 1)..=at(d + 1)]`. -/
def window (v : List Nat) (off d : Nat) : List Nat :=
  (v.drop (index off (-d - 1))).take (index off (d + 1) + 1 - index off (-d - 1))

/-- How many elements the two lists share from `x` and `y` on: the comparison loop. -/
def snake (x y : Nat) : Nat :=
  (((a.drop x).zip (b.drop y)).takeWhile fun p => p.1 == p.2).length

/-- What a round of the search comes to. -/
inductive Round where
  | gaveUp
  | found
  | next (v : List Nat) (work : Nat)

/-- The round of cost `d`, over the diagonals left. -/
def roundOn (off d : Nat) : List Int → List Nat → Nat → Round
  | [], v, work => .next v work
  | k :: ks, v, work =>
    let x := startOn (look v off) d k
    let y := ((x : Int) - k).toNat
    let s := snake a b x y
    let work := work + s + 1
    if work > maxWork then .gaveUp
    else
      -- an entry is a `u32`
      let v := v.set (index off k) ((x + s) % 2 ^ 32)
      if x + s ≥ a.length ∧ y + s ≥ b.length then .found
      else roundOn off d ks v work

/-- The diagonals of the round of cost `d`: `-d`, `-d + 2` and so on up to `d`. -/
def diagonals (d : Nat) : List Int := (List.range (d + 1)).map fun (i : Nat) => 2 * (i : Int) - d

/-- The rounds from the one of cost `d` on, `left` of them; the trace when one comes to
the end of both lists. -/
def searchFrom (off : Nat) : Nat → Nat → List Nat → Nat → List (List Nat) → Option (List (List Nat))
  | 0, _, _, _, _ => none
  | left + 1, d, v, work, trace =>
    if d > maxD then none
    else
      let trace := trace ++ [window v off d]
      match roundOn a b off d (diagonals d) v work with
      | .gaveUp => none
      | .found => some trace
      | .next v work => searchFrom off left (d + 1) v work trace

end Search

/-! ## The way back -/

/-- The loop that goes back along a diagonal; `x` above `px` bounds its rounds. -/
def keepBack (px py : Int) : Nat → Int → Int → List Op → Int × Int × List Op
  | 0, x, y, ops => (x, y, ops)
  | room + 1, x, y, ops =>
    if x > px ∧ y > py then keepBack px py room (x - 1) (y - 1) (.keep :: ops) else (x, y, ops)

/-- `w[k + d + 1]` of the window `w` of round `d` (`get`). -/
def reread (trace : List (List Nat)) (d : Nat) (k : Int) : Nat :=
  (trace.getD d []).getD (k + d + 1).toNat 0

/-- One round of `backtrack`, back through the window of round `d`. The operations are
in order: the source pushes them from the last and reverses them. -/
def backRound (trace : List (List Nat)) (d : Nat) (p : Int × Int × List Op) :
    Int × Int × List Op :=
  let (x, y, ops) := p
  let k := x - y
  let prevK := if fromAbove (reread trace d) d k then k + 1 else k - 1
  let prevX : Int := reread trace d prevK
  let prevY := prevX - prevK
  let (x, _, ops) := keepBack prevX prevY (x - prevX).toNat x y ops
  -- round 0 is the diagonal from the start alone
  let ops := if d > 0 then (if x = prevX then .ins else .del) :: ops else ops
  (prevX, prevY, ops)

/-- The rounds of `backtrack` below `d`, from the last. -/
def backRounds (trace : List (List Nat)) : Nat → Int × Int × List Op → Int × Int × List Op
  | 0, p => p
  | d + 1, p => backRounds trace d (backRound trace d p)

/-- Walk the trace back from `(n, m)` to `(0, 0)`. -/
def backtrack (trace : List (List Nat)) (n m : Nat) : List Op :=
  let (x, y, ops) := backRounds trace trace.length (n, m, [])
  (keepBack 0 0 x.toNat x y ops).2.2

/-- The shortest edit script from `a` to `b`, or `none` when the bounds stop the
search. -/
def myers {α : Type*} [DecidableEq α] (a b : List α) : Option (List Op) :=
  let (n, m) := (a.length, b.length)
  let max := n + m
  if max = 0 then some []
  else
    let off := max + 1
    (searchFrom a b off (max + 1) 0 (List.replicate (2 * max + 3) 0) 0 []).map fun trace =>
      backtrack trace n m

/-! ## The unified diff -/

def ascii (s : List Char) : Bytes := s.map fun c => UInt8.ofNat c.toNat

def decimal (n : Nat) : Bytes := ascii (Nat.toDigits 10 n)

/-- `-start,count` / `+start,count` of a hunk: `,1` is left out, and an empty side names
the line before it. -/
def range (start count : Nat) : Bytes :=
  if count = 0 then decimal start ++ ascii [',', '0']
  else if count = 1 then decimal (start + 1)
  else decimal (start + 1) ++ ascii [','] ++ decimal count

/-- How many bytes at `i`, where no character is, one U+FFFD stands for: the longest
start of a character there, or one byte. -/
def badLength (b : Bytes) (i : Nat) : Nat :=
  match b[i]?.bind leadClass with
  | none => 1
  | some (w, lo, hi) =>
    match slice b (i + 1) (i + w) with
    | second :: others =>
      if lo ≤ second ∧ second ≤ hi then 2 + (others.takeWhile isContinuation).length else 1
    | [] => 1

def replacement : Bytes := [0xEF, 0xBF, 0xBD]

/-- The bytes from `i` on, with U+FFFD for what is no character. -/
def lossyFrom (b : Bytes) : Nat → Nat → Bytes
  | 0, _ => []
  | room + 1, i =>
    if i ≥ b.length then []
    else
      match charLenAt b i with
      | some w => slice b i (i + w) ++ lossyFrom b room (i + w)
      | none => replacement ++ lossyFrom b room (i + badLength b i)

/-- `String::from_utf8_lossy`. -/
def lossy (b : Bytes) : Bytes := lossyFrom b b.length 0

/-- A line without its newline (`strip_suffix`). -/
def stripNewline (line : Bytes) : Bytes :=
  if line.getLast? = some newline then line.dropLast else line

def show' (line : Bytes) : Bytes := lossy (stripNewline line)

/-- Each operation's position in `a` and in `b`, from `(i, j)`. -/
def positions : List Op → Nat → Nat → List (Nat × Nat)
  | [], _, _ => []
  | .keep :: ops, i, j => (i, j) :: positions ops (i + 1) (j + 1)
  | .del :: ops, i, j => (i, j) :: positions ops (i + 1) j
  | .ins :: ops, i, j => (i, j) :: positions ops i (j + 1)

/-- A hunk: where it starts on each side, from 0, how many lines it has there, and its
lines. -/
structure Hunk where
  aStart : Nat
  aCount : Nat
  bStart : Nat
  bCount : Nat
  body : List (Op × Bytes)
deriving DecidableEq, Repr

/-- The operations `[from, to)` each hunk has: changes no more than `2 * context` kept
lines apart, with `context` lines around. `first` and `last` are the changes at the ends
of the hunk begun. -/
def hunkRangesFrom (len : Nat) : Nat → Nat → List Nat → List (Nat × Nat)
  | first, last, [] => [(first - context, min (last + context + 1) len)]
  | first, last, e :: rest =>
    if e - last ≤ 2 * context + 1 then hunkRangesFrom len first e rest
    else (first - context, min (last + context + 1) len) :: hunkRangesFrom len e e rest

def hunkRanges (len : Nat) : List Nat → List (Nat × Nat)
  | [] => []
  | c :: rest => hunkRangesFrom len c c rest

/-- The hunk of the operations `[from, to)`. -/
def hunkOf (a b : List Bytes) (ops : List Op) (r : Nat × Nat) : Hunk :=
  let pos := positions ops 0 0
  let (ai, bj) := pos.getD r.1 (0, 0)
  let part := (ops.drop r.1).take (r.2 - r.1)
  { aStart := ai
    aCount := part.countP fun op => op = .keep ∨ op = .del
    bStart := bj
    bCount := part.countP fun op => op = .keep ∨ op = .ins
    body := (List.range' r.1 (r.2 - r.1)).map fun k =>
      let (i, j) := pos.getD k (0, 0)
      match ops.getD k .keep with
      | .keep => (.keep, a.getD i [])
      | .del => (.del, a.getD i [])
      | .ins => (.ins, b.getD j []) }

def mark : Op → UInt8
  | .keep => 32
  | .del => 45
  | .ins => 43

/-- `@@ -… +… @@`. -/
def header (h : Hunk) : Bytes :=
  ascii ['@', '@', ' ', '-'] ++ range h.aStart h.aCount ++ ascii [' ', '+'] ++
    range h.bStart h.bCount ++ ascii [' ', '@', '@']

def noNewline : Bytes := ascii "\\ No newline at end of file".toList

def render (h : Hunk) : List Bytes :=
  header h :: h.body.flatMap fun p =>
    (mark p.1 :: show' p.2) :: if p.2.getLast? = some newline then [] else [noNewline]

/-- The output lines, and how many were not kept. -/
structure Out where
  lines : List Bytes
  cut : Nat

def Out.push (o : Out) (s : Bytes) : Out :=
  if o.lines.length < maxOutput then { o with lines := o.lines ++ [s] } else { o with cut := o.cut + 1 }

/-- The script of the lines between the shared ends: the search's, or all lines deleted
and all inserted. The search's answer tells whether it is minimal. -/
def middle (a b : List Bytes) : List Op × Bool :=
  match if a.length + b.length > maxLines then none else myers a b with
  | some ops => (ops, true)
  | none => (List.replicate a.length .del ++ List.replicate b.length .ins, false)

/-- The whole script: the shared first and last lines are kept. -/
def script (a b : List Bytes) : List Op × Bool :=
  let pre := ((a.zip b).takeWhile fun p => p.1 == p.2).length
  let suf :=
    (((a.drop pre).reverse.zip (b.drop pre).reverse).takeWhile fun p => p.1 == p.2).length
  let (mid, minimal) := middle ((a.take (a.length - suf)).drop pre) ((b.take (b.length - suf)).drop pre)
  (List.replicate pre .keep ++ mid ++ List.replicate suf .keep, minimal)

def hunks (a b : List Bytes) (ops : List Op) : List Hunk :=
  (hunkRanges ops.length
    ((List.range ops.length).filter fun k => ops.getD k .keep ≠ .keep)).map (hunkOf a b ops)

/-- The two lines that name the sides. -/
def titles (name : Bytes) : List Bytes :=
  [ascii ['-', '-', '-', ' '] ++ name ++ ascii " (on disk)".toList,
    ascii ['+', '+', '+', ' '] ++ name ++ ascii " (recovered)".toList]

/-- The unified diff from `disk` to `recovered`. -/
def unified (name disk recovered : Bytes) : Diff :=
  let a := linesOf disk
  let b := linesOf recovered
  let (ops, minimal) := script a b
  let out := ((hunks a b ops).flatMap render).foldl Out.push ⟨titles name, 0⟩
  ⟨out.lines, minimal, out.cut⟩

/-- A changed line among others, as GNU `diff -u` shows it. -/
example : (unified (ascii ['f']) (ascii ['1', '\n', '2', '\n', '3', '\n'])
    (ascii ['1', '\n', 'B', '\n', '3'])).lines = titles (ascii ['f']) ++
      [ascii "@@ -1,3 +1,3 @@".toList, ascii " 1".toList, ascii "-2".toList, ascii "-3".toList,
        ascii "+B".toList, ascii "+3".toList, noNewline] := by
  decide +kernel

end Diff

end Ruse.Persist
