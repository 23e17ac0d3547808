import Ruse.Core.Chars
import Ruse.Core.SortKey
import Ruse.Core.SubstituteSpans
import Ruse.Persist.Encoding

/-!
# The readers of numeric `:sort` keys

`first_number`, `first_float` and `strtod_prefix` of `editor/mod.rs`, each index, slice and
checked operation of theirs a step that may fail: `none` is a panic. Beside the value they
give where what they read ends (the code keeps it for some of their branches only).

Floats are a parameter (`Floats`), as are the results of their operations.
-/

namespace Ruse.Core

/-! ## Runs of digits -/

/-- One past the run of such bytes from `i` on. -/
def runEnd (p : UInt8 → Bool) (s : Bytes) (i : Nat) : Nat := i + ((s.drop i).takeWhile p).length

def isDigit (c : UInt8) : Bool := 48 ≤ c && c ≤ 57

def isHexDigit (c : UInt8) : Bool := isDigit c || (97 ≤ c && c ≤ 102) || (65 ≤ c && c ≤ 70)

def isSign (c : UInt8) : Bool := c == 45 || c == 43

/-- Past one sign at `k`. -/
def afterSign (s : Bytes) (k : Nat) : Nat := if (s[k]?).any isSign then k + 1 else k

/-- One past an exponent that `mark` begins at `j`, or `j` when there is none. -/
def expEnd (mark : UInt8 → Bool) (s : Bytes) (j : Nat) : Nat :=
  let start := afterSign s (j + 1)
  if (s[j]?).any mark && start < runEnd isDigit s start then runEnd isDigit s start else j

/-- One past `.` and digits at `j`. -/
def fracEnd (p : UInt8 → Bool) (s : Bytes) (j : Nat) : Nat :=
  if s[j]? = some 46 then runEnd p s (j + 1) else j

/-- One past the digits from `i` on and a fraction. -/
def mantissaEnd (p : UInt8 → Bool) (s : Bytes) (i : Nat) : Nat := fracEnd p s (runEnd p s i)

/-- Whether the mantissa has a digit on either side of its point. -/
def hasDigit (p : UInt8 → Bool) (s : Bytes) (i : Nat) : Bool :=
  i < runEnd p s i || runEnd p s i + 1 < mantissaEnd p s i

/-! ## Checked operations -/

def i32Max : Int := 2 ^ 31 - 1

/-- `-e` on `i32`. -/
def negI32 (e : Int) : Option Int := if -e ≤ i32Max then some (-e) else none

/-- `parse::<i32>` of digits, or the bound. -/
def parseI32 (s : Bytes) : Int :=
  let n := s.foldl (fun n c => n * 10 + (toDigit 10 c).getD 0) 0
  if (n : Int) ≤ i32Max then n else i32Max

/-- `rest[..w.len()].eq_ignore_ascii_case(w)`, when `rest` is long enough. -/
def startsCi (w rest : Bytes) : Option Bool :=
  if w.length ≤ rest.length then
    (strSlice rest 0 w.length).map fun head => head.map asciiLower == w
  else some false

/-! ## `strtod` -/

/-- One past the white space from `i` on. -/
def whiteEnd (s : Bytes) (i : Nat) : Nat :=
  match _h : charLenAt s i with
  | some w => if Persist.isWhitespace (charAt s i w) then whiteEnd s (i + w) else i
  | none => i
termination_by s.length - i
decreasing_by
  have := charLenAt_pos _h
  have := charLenAt_le _h
  omega

/-- The exponent of a hex number whose mantissa ends at `k`, from its mark to `stop`. -/
def hexExponent (t : Bytes) (k stop : Nat) : Option Int :=
  if k < stop then do
    let digits ← strSlice t (afterSign t (k + 1)) stop
    let e := parseI32 digits
    if t[k + 1]? = some 45 then negI32 e else some e
  else some 0

section
variable {F : Type} (fl : Floats F)

def hexValue (c : UInt8) : F := fl.ofNat ((toDigit 16 c).getD 0)

/-- `0x`, digits, a fraction and an exponent, at `i`. -/
def hexFloat (t : Bytes) (i : Nat) (sign : F) : Option (F × Nat) :=
  let j := runEnd isHexDigit t (i + 2)
  let k := mantissaEnd isHexDigit t (i + 2)
  let whole := (slice t (i + 2) j).foldl (fun m c => fl.add (fl.mul m (fl.ofNat 16)) (hexValue fl c))
    (fl.ofNat 0)
  let sixteenth := fl.div (fl.ofNat 1) (fl.ofNat 16)
  let mantissa := ((slice t (j + 1) k).foldl (fun m c =>
    (fl.add m.1 (fl.mul (hexValue fl c) m.2), fl.div m.2 (fl.ofNat 16))) (whole, sixteenth)).1
  if hasDigit isHexDigit t (i + 2) then do
    let stop := expEnd (asciiLower · == 112) t k
    let exp ← hexExponent t k stop
    some (fl.mul (fl.mul sign mantissa) (fl.exp2 exp), stop)
  else
    -- only the `0` parses
    some (fl.mul sign (fl.ofNat 0), i + 1)

/-- Digits, a fraction and an exponent, at `i`. -/
def decimalFloat (t : Bytes) (i : Nat) (sign : F) : Option (F × Nat) :=
  if hasDigit isDigit t i then do
    let stop := expEnd (asciiLower · == 101) t (mantissaEnd isDigit t i)
    let number ← strSlice t i stop
    some (fl.mul sign ((fl.parse number).getD (fl.ofNat 0)), stop)
  else some (fl.ofNat 0, 0)

/-- `strtod_prefix` past the white space. -/
def strtodTrimmed (t : Bytes) : Option (F × Nat) := do
  let i := afterSign t 0
  let sign := if t[0]? = some 45 then fl.neg (fl.ofNat 1) else fl.ofNat 1
  let rest ← strSlice t i t.length
  if ← startsCi [105, 110, 102] rest then some (fl.mul sign fl.infinity, i + 3)
  else if ← startsCi [110, 97, 110] rest then some (fl.nan, i + 3)
  else if t[i]? = some 48 ∧ (t[i + 1]?).any (asciiLower · == 120) then hexFloat fl t i sign
  else decimalFloat fl t i sign

/-- The value of the longest prefix that C's `strtod` accepts. -/
def strtodPrefix (s : Bytes) : Option (F × Nat) :=
  let w := whiteEnd s 0
  (strtodTrimmed fl (s.drop w)).map fun m => (m.1, w + m.2)

/-- Past the blanks and one `+`. -/
def floatText (s : Bytes) : Bytes :=
  let blank : UInt8 → Bool := fun c => c == 32 || c == 9
  match s.dropWhile blank with
  | 43 :: r => r.dropWhile blank
  | t => t

/-- The number at the start of `s`; an empty rest is before every number. -/
def firstFloat (s : Bytes) : Option F :=
  if floatText s = [] then some fl.lowest else (strtodPrefix fl (floatText s)).map Prod.fst

/-- What is looked at for the words `inf` and `nan`. -/
def wordText (s : Bytes) : Bytes :=
  let s := floatText s
  let t := s.drop (whiteEnd s 0)
  t.drop (afterSign t 0)

/-- Three bytes of it are whole characters. -/
def WordsFit (s : Bytes) : Prop := 3 ≤ (wordText s).length → IsCharBoundary (wordText s) 3

instance (s : Bytes) : Decidable (WordsFit s) := inferInstanceAs (Decidable (_ → _))

end

/-! ## `first_number` -/

namespace SortKind

/-- The digits a number may start with. -/
def base : SortKind → Nat
  | .hex => 16
  | .binary => 2
  | _ => 10

def radix : SortKind → Nat
  | .hex => 16
  | .octal => 8
  | .binary => 2
  | _ => 10

/-- The letter of the prefix `0x` or `0b`. -/
def mark : SortKind → Option UInt8
  | .hex => some 120
  | .binary => some 98
  | _ => none

end SortKind

/-- `first_number` with its steps checked. -/
def readNumber (s : Bytes) (kind : SortKind) : Option (Option Int × Nat) :=
  match s.findIdx? fun c => (toDigit kind.base c).isSome with
  | none => some (none, s.length)
  | some i => do
    let negative ← (if 0 < i then (s[i - 1]?).map (· == 45) else some false)
    let zero ← (if kind.mark ≠ none then (s[i]?).map (· == 48) else some false)
    let start := if zero && (s[i + 1]?).map asciiLower == kind.mark &&
      ((s[i + 2]?).bind (toDigit kind.radix)).isSome then i + 2 else i
    let tail ← slice? s start s.length
    let digits := (tail.takeWhile fun c => (toDigit kind.radix c).isSome).filterMap (toDigit kind.radix)
    let magnitude := digits.foldl (addDigit kind.radix) 0
    some (some (if negative then max (-(magnitude : Int)) (-2 ^ 63) else min (magnitude : Int) (2 ^ 63 - 1)),
      max (i + 1) (start + digits.length))

/-! ## Keys -/

/-- The key of a line by the checked readers. -/
def readKey {F : Type} (fl : Floats F) (opts : SortOptions) (re : Option Regex) (line : Bytes) :
    Option SortKey :=
  (keyBase re opts.useMatch line).bind fun base =>
    match opts.key with
    | .float => (firstFloat fl (spell base)).map fun x => .float (fl.rank x)
    | .locale => some (.locale (spell base))
    | .text => some (.text (if opts.ignoreCase then base.map asciiLower else base))
    | kind => (readNumber (spell base) kind).map fun m => .num m.1

end Ruse.Core
