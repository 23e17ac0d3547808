import Ruse.Core.AnchorTotal
import Ruse.Core.Hay
import Ruse.Core.Pattern

/-!
# The keys of `:sort`

What `sort_lines` of `editor/mod.rs` makes a line's key of, the text around the pattern's match
(`keyBase`), and how keys compare, as text, as numbers or in locale order (`SortKey.compare`).
The readers of numbers are in `Ruse.Core.SortReaders`.

The pattern engine, floats and the case of a character are parameters (`SortEnv`).
-/

namespace Ruse.Core

/-- How `:sort` compares its keys. -/
inductive SortKind where
  | text
  | locale
  | decimal
  | hex
  | octal
  | binary
  | float
deriving DecidableEq, Repr

structure SortOptions where
  reverse : Bool
  key : SortKind
  unique : Bool
  ignoreCase : Bool
  pattern : Option Bytes
  useMatch : Bool
deriving DecidableEq, Repr

/-- `f64`, as far as a sort uses it. -/
structure Floats (F : Type) where
  lowest : F
  infinity : F
  nan : F
  ofNat : Nat → F
  neg : F → F
  add : F → F → F
  mul : F → F → F
  div : F → F → F
  /-- `2f64.powi` -/
  exp2 : Int → F
  /-- `str::parse` -/
  parse : Bytes → Option F
  parse_zero : parse [48] = some (ofNat 0)
  /-- its place in `f64::total_cmp` -/
  rank : F → Int

/-- What the sort is given: the pattern compiler, floats, a text in lower case, and which of its
characters are upper case. -/
structure SortEnv (F : Type) where
  compile : Bytes → Option Regex
  floats : Floats F
  fold : Bytes → Bytes
  upper : Bytes → List Bool

inductive SortKey where
  | num (n : Option Int)
  | float (rank : Int)
  | text (b : Bytes)
  | locale (s : Bytes)
deriving DecidableEq, Repr

/-! ## Numbers -/

/-- `char::to_digit`. -/
def toDigit (radix : Nat) (c : UInt8) : Option Nat :=
  let c := c.toNat
  let d :=
    if 48 ≤ c ∧ c ≤ 57 then c - 48
    else if 97 ≤ c ∧ c ≤ 122 then c - 87
    else if 65 ≤ c ∧ c ≤ 90 then c - 55
    else radix
  if d < radix then some d else none

def asciiLower (c : UInt8) : UInt8 := if 65 ≤ c ∧ c ≤ 90 then c + 32 else c

def u64Max : Nat := 2 ^ 64 - 1

def addDigit (radix n d : Nat) : Nat := min (min (n * radix) u64Max + d) u64Max

/-- `first_number`: the first number in `s`, saturating. -/
def firstNumber (s : Bytes) (kind : SortKind) : Option Int :=
  let base := match kind with
    | .hex => 16
    | .binary => 2
    | _ => 10
  match s.findIdx? fun c => (toDigit base c).isSome with
  | none => none
  | some i =>
    let negative : Bool := 0 < i ∧ s.getD (i - 1) 0 = 45
    let radix := match kind with
      | .hex => 16
      | .octal => 8
      | .binary => 2
      | _ => 10
    -- `x` and `b` after a zero that a digit follows
    let mark : Option UInt8 := match kind with
      | .hex => some 120
      | .binary => some 98
      | _ => none
    let at' :=
      if mark ≠ none ∧ s.getD i 0 = 48 ∧ (s[i + 1]?).map asciiLower = mark ∧
          ((s[i + 2]?).bind (toDigit radix)).isSome then i + 2
      else i
    let digits := ((s.drop at').takeWhile fun c => (toDigit radix c).isSome).filterMap (toDigit radix)
    let magnitude := digits.foldl (addDigit radix) 0
    some (if negative then max (-(magnitude : Int)) (-2 ^ 63) else min (magnitude : Int) (2 ^ 63 - 1))

/-! ## Keys -/

/-- `locale_cmp`. -/
def localeCmp {F : Type} (env : SortEnv F) (a b : Bytes) : Ordering :=
  (compare (env.fold a) (env.fold b)).then
    ((compare (env.upper a) (env.upper b)).then (compare a b))

def SortKey.compare {F : Type} (env : SortEnv F) : SortKey → SortKey → Ordering
  | .num a, .num b => Ord.compare a b
  | .float a, .float b => Ord.compare a b
  | .text a, .text b => Ord.compare a b
  | .locale a, .locale b => localeCmp env a b
  | _, _ => .eq

/-- The part of the line its key is made of. -/
def keyBase (re : Option Regex) (useMatch : Bool) (line : Bytes) : Option Bytes :=
  match re with
  | none => some line
  | some re =>
    let hay := Hay.new line
    match re.findAt hay.text 0 with
    | none => some []
    | some m =>
      match hay.toBuf m.start, hay.toBuf m.stop with
      | some start, some stop =>
        if useMatch then slice? line start stop else slice? line stop line.length
      | _, _ => none

/-- Every line has a part that is its key. -/
theorem keyBase_total (re : Option Regex) (useMatch : Bool) (line : Bytes) :
    ∃ base, keyBase re useMatch line = some base := by
  unfold keyBase
  cases re with
  | none => exact ⟨line, rfl⟩
  | some re =>
    dsimp only
    cases hm : re.findAt (Hay.new line).text 0 with
    | none => exact ⟨[], rfl⟩
    | some m =>
      obtain ⟨hit, hnext, rfl⟩ := Regex.findAt_spec hm
      have hans := re.answers (Hay.new_valid line) (.inl rfl) hnext
      obtain ⟨start, hstart, hreach, hto⟩ := Hay.toBuf_boundary hans.start_boundary
      obtain ⟨stop, hstop, hreach', hto'⟩ := Hay.toBuf_boundary hans.stop_boundary
      have hle : start ≤ stop := Hay.le_of_toHay_le (by rw [hto, hto']; exact hans.stop_le)
      have hlen := hreach'.le_length (Nat.zero_le _)
      dsimp only
      rw [hstart, hstop]
      dsimp only
      split
      · exact ⟨_, slice?_eq hle hlen⟩
      · exact ⟨_, slice?_eq hlen (Nat.le_refl _)⟩

end Ruse.Core
