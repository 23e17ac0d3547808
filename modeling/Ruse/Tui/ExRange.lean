import Ruse.Tui.ExCommand

/-!
# Ranges of command lines

The model of `apps/tui/src/app/ex_range.rs` without closed folds: `scan` reads the addresses a
line begins with, `resolve` turns them into numbers and pastes these before the rest of the
line. What it reads of the editor (the cursor's line, marks, searches) is a parameter
(`Surroundings`); so is Unicode's `Alphabetic`.

Positions in the line are what is left of it, and loops have the length of that for fuel.
-/

namespace Ruse.Tui

open Ruse.Persist (isWhitespace)

/-- The number of lines of the buffer. -/
structure LineCount where
  n : Nat
  pos : 0 < n
  fits : (n : Int) ≤ i64Max

structure Surroundings where
  /-- The cursor's line, from 0. -/
  line : Nat
  visual : Option (Int × Int)
  /-- The line of a mark that is set. -/
  mark : Char → Option Int
  search : List Char → Int → Bool → Except ExRangeError Int
  /-- The last search pattern. -/
  lastSearch : Option (List Char)
  /-- The last substitute pattern. -/
  substitute : Option (List Char)
  /-- `char::is_alphabetic`. -/
  alphabetic : Char → Bool

/-- What resolving does besides: the pattern searched for, and where a `;` moved the cursor. -/
structure Side where
  search : Option (List Char × Bool)
  cursor : Option Int
deriving DecidableEq

/-- Why the addresses are not read on. -/
inductive Stop where
  /-- The line is left to the parser. -/
  | unchanged
  | refused (e : ExRangeError)
deriving DecidableEq

/-- The addresses read so far, and what is left of the line. -/
structure Scan where
  rest : List Char
  cur : Int
  lastSearch : Option (List Char)
  whole : Bool
  addrs : List Int
  side : Side
deriving DecidableEq

abbrev Scanned (α : Type) := Except (Stop × Side) α

namespace Scan

def stop {α : Type} (s : Scan) (e : ExRangeError) : Scanned α := .error (.refused e, s.side)

def skipBlanks (s : Scan) : Scan := { s with rest := s.rest.dropWhile (· == ' ') }

end Scan

/-- `scan_pattern`: the text to the next delimiter, and what follows it. -/
def scanPattern (delim : Char) : List Char → List Char × List Char
  | [] => ([], [])
  | '\\' :: [] => (['\\'], [])
  | '\\' :: c :: rest =>
    let (raw, after) := scanPattern delim rest
    ('\\' :: c :: raw, after)
  | c :: rest =>
    if c = delim then ([], rest)
    else
      let (raw, after) := scanPattern delim rest
      (c :: raw, after)

/-- `?` for `\?`. -/
def plainDelimiter : List Char → List Char
  | '\\' :: '?' :: rest => '?' :: plainDelimiter rest
  | c :: rest => c :: plainDelimiter rest
  | [] => []

section
variable (lines : LineCount) (env : Surroundings)

/-- The searches of `/pat/` and `?pat?`, one after the other. -/
def searches : Nat → Scan → Int → Scanned (Int × Scan)
  | 0, s, line => .ok (line, s)
  | fuel + 1, s, line =>
    match s.rest with
    | delim :: rest =>
      if delim = '/' ∨ delim = '?' then
        let forward := decide (delim = '/')
        let (raw, after) := scanPattern delim rest
        let raw := if forward then raw else plainDelimiter raw
        let s := { s with rest := after }
        if raw.isEmpty then
          match s.lastSearch with
          | none => s.stop .noPreviousPattern
          | some pat =>
            match env.search pat line forward with
            | .error e => s.stop e
            | .ok line => searches fuel s line
        else
          let s := { s with lastSearch := some raw, side := { s.side with search := some (raw, forward) } }
          match env.search raw line forward with
          | .error e => s.stop e
          | .ok line => searches fuel s line
      else .ok (line, s)
    | [] => .ok (line, s)

/-- `mark_line`. -/
def markLine (c : Char) : Option (Option Int) :=
  if c = '<' then some (env.visual.map (·.1))
  else if c = '>' then some (env.visual.map (·.2))
  else if c.isAlphanum || c == '[' || c == ']' || c == '.' || c == '\'' || c == '`' then
    some (env.mark c)
  else none

/-- A search for a pattern that was used before. -/
def searchAgain (s : Scan) (rest : List Char) (pat : Option (List Char)) (forward : Bool) :
    Scanned (Option Int × Scan) :=
  match pat with
  | none => s.stop .noPreviousPattern
  | some pat =>
    match env.search pat s.cur forward with
    | .error e => s.stop e
    | .ok line => .ok (some line, { s with rest := rest })

def base (s : Scan) : Scanned (Option Int × Scan) :=
  match s.rest with
  | [] => .ok (none, s)
  | '.' :: rest => .ok (some s.cur, { s with rest := rest })
  | '$' :: rest => .ok (some lines.n, { s with rest := rest })
  | '%' :: rest => .ok (some lines.n, { s with rest := rest, whole := true, addrs := s.addrs ++ [1] })
  | '*' :: rest =>
    match env.visual with
    | none => s.stop .markNotSet
    | some (first, last) => .ok (some last, { s with rest := rest, addrs := s.addrs ++ [first] })
  | ['\''] => .error (.unchanged, s.side)
  | '\'' :: c :: rest =>
    match markLine env c with
    | none => .error (.unchanged, s.side)
    | some none => s.stop .markNotSet
    | some (some line) => .ok (some line, { s with rest := rest })
  | '\\' :: '/' :: rest => searchAgain env s rest s.lastSearch true
  | '\\' :: '?' :: rest => searchAgain env s rest s.lastSearch false
  | '\\' :: '&' :: rest =>
    match env.substitute with
    | none => s.stop .noPreviousSubstitute
    | some pat => searchAgain env s rest (some pat) true
  | '\\' :: _ => .error (.unchanged, s.side)
  | c :: _ =>
    if c = '/' ∨ c = '?' then
      match searches env s.rest.length s s.cur with
      | .error e => .error e
      | .ok (line, s) => .ok (some line, s)
    else
      let digits := s.rest.takeWhile Char.isDigit
      if digits.isEmpty then .ok (none, s)
      else .ok (some (parseNumber digits), { s with rest := s.rest.dropWhile Char.isDigit })

/-- The number of an offset, with what follows. -/
def offsetNumber (rest : List Char) : Int :=
  let digits := rest.takeWhile Char.isDigit
  if digits.isEmpty then 1 else parseNumber digits

/-- The offsets after an address: the line, whether there are any, and what follows. -/
def offsets : Nat → Int → List Char → Int × Bool × List Char
  | fuel + 1, v, '+' :: rest =>
    let (v, _, rest) := offsets fuel (saturate (v + offsetNumber rest)) (rest.dropWhile Char.isDigit)
    (v, true, rest)
  | fuel + 1, v, '-' :: rest =>
    let (v, _, rest) := offsets fuel (saturate (v - offsetNumber rest)) (rest.dropWhile Char.isDigit)
    (v, true, rest)
  | _, v, rest => (v, false, rest)

/-- Whether an address may follow a separator here. -/
def beginsAddress (rest : List Char) : Bool :=
  rest.head?.any fun c => c.isDigit || ".$%*'/?\\+- ".toList.contains c

def isSeparator (c : Char) : Bool := c == ',' || c == ';'

/-- What follows an address: a separator and `more` addresses, or none. -/
def separated (more : Scan → Scanned Scan) (v : Int) (s : Scan) : Scanned Scan :=
  let after (s : Scan) : Scanned Scan :=
    if beginsAddress s.rest then more s else .ok { s with addrs := s.addrs ++ [s.cur] }
  match s.rest with
  | ',' :: rest => after { s with rest := rest }
  | ';' :: rest =>
    let cur := max 1 (min v lines.n)
    after { s with rest := rest, cur := cur, side := { s.side with cursor := some cur } }
  | _ => .ok s

/-- The loop of `resolve` over the addresses. -/
def addresses : Nat → Scan → Scanned Scan
  | 0, s => .ok s
  | fuel + 1, s =>
    match base lines env s.skipBlanks with
    | .error e => .error e
    | .ok (found, s) =>
      let (v, moved, rest) := offsets s.rest.length (found.getD s.cur) s.rest
      let s := { s with rest := rest }
      if !found.isSome && !moved && s.addrs.isEmpty && !(s.rest.head?.any isSeparator) then .ok s
      else separated lines (addresses fuel) v (Scan.skipBlanks { s with addrs := s.addrs ++ [v] })

/-! ## The resolved line -/

/-- The line without the blanks and colons it begins with. -/
def bare (line : List Char) : List Char := line.dropWhile fun c => c == ' ' || c == ':'

/-- The addresses a line begins with. -/
def scan (line : List Char) : Scanned Scan :=
  let rest := bare line
  addresses lines env (rest.length + 1)
    ⟨rest, min (env.line + 1) lines.n, env.lastSearch, false, [], ⟨none, none⟩⟩

/-- The command after the addresses. -/
def Scan.tail (s : Scan) : List Char := s.rest.dropWhile isWhitespace

def Scan.used (s : Scan) : List Int := s.addrs.drop (s.addrs.length - 2)

end

/-- Whether `whole_fold_command` says that the command takes one address. -/
def single (tail : List Char) : Bool :=
  match tail with
  | [] => false
  | c :: _ =>
    let word := tail.takeWhile Char.isAlpha
    !("><&~#!".toList.contains c) && !word.isEmpty && !isSubstituteWord word &&
      (fullCommandName word == some "put" || fullCommandName word == some "read")

def spell (n : Int) : List Char :=
  if n < 0 then '-' :: Nat.toDigits 10 n.natAbs else Nat.toDigits 10 n.natAbs

/-- A resolved range: the addresses, their spelling and the command. -/
structure Ranged where
  addrs : List Int
  range : List Char
  cmd : List Char
deriving DecidableEq

inductive Resolution where
  /-- A line without a range. -/
  | bare (text : List Char)
  | ranged (r : Ranged)
  | goto (line : Int)
  /-- The two addresses, the wrong way round, and the command. -/
  | backwards (first last : Int) (tail : List Char)
deriving DecidableEq

inductive ExRange where
  | line (text : List Char)
  | goto (line : Int)
  | backwards (text : List Char)
deriving DecidableEq

/-- The text a resolution comes back as. -/
def Resolution.toExRange : Resolution → ExRange
  | .bare text => .line text
  | .ranged r => .line (r.range ++ r.cmd)
  | .goto n => .goto n
  | .backwards first last tail => .backwards (spell last ++ [','] ++ spell first ++ tail)

/-- The addresses a command is given, and their spelling. -/
def spelling (lines : LineCount) (env : Surroundings) (whole : Bool) (used : List Int)
    (tail : List Char) : List Int × List Char :=
  match used with
  | [a, b] =>
    if a = 1 ∧ whole ∧ b = lines.n then ([a, b], ['%'])
    else if single tail then
      if tail.head? = some 'p' ∧ (tail.dropWhile env.alphabetic).head? = some '!' then ([a], spell a)
      else ([b], spell b)
    else ([a, b], spell a ++ [','] ++ spell b)
  | _ => (used, (used.map spell).flatten)

/-- The addresses of a count take the place of those before the command. -/
def withCount (range : List Int × List Char) (tail : List Char) (last : Int) (lines : LineCount) :
    Except ExRangeError Ranged :=
  match counted tail last lines.n with
  | .error e => .error e
  | .ok none => .ok ⟨range.1, range.2, tail⟩
  | .ok (some (some (a, b), t)) => .ok ⟨[a, b], spell a ++ [','] ++ spell b, t⟩
  | .ok (some (none, t)) => .ok ⟨range.1, range.2, t⟩

/-- What the addresses of a line make of it. -/
def finish (lines : LineCount) (env : Surroundings) (line : List Char) (s : Scan) :
    Except ExRangeError Resolution :=
  match s.used.getLast? with
  | none =>
    match counted s.tail s.cur lines.n with
    | .error e => .error e
    | .ok none => .ok (.bare (bare line))
    | .ok (some (some (a, b), t)) => .ok (.ranged ⟨[a, b], spell a ++ [','] ++ spell b, t⟩)
    | .ok (some (none, t)) => .ok (.bare t)
  | some last =>
    if s.tail.isEmpty then
      if last < 0 then .error .invalidRange else .ok (.goto (max 1 (min last lines.n)))
    else if s.used.any fun a => decide (a < 0 ∨ lines.n < a) then .error .invalidRange
    else
      match s.used with
      | [a, b] =>
        if b < a then .ok (.backwards a b s.tail)
        else (withCount (spelling lines env s.whole s.used s.tail) s.tail b lines).map .ranged
      | _ => (withCount (spelling lines env s.whole s.used s.tail) s.tail last lines).map .ranged

/-- `resolve`. -/
def resolution (lines : LineCount) (env : Surroundings) (line : List Char) :
    Except ExRangeError Resolution × Side :=
  match scan lines env line with
  | .error (.unchanged, side) => (.ok (.bare (bare line)), side)
  | .error (.refused e, side) => (.error e, side)
  | .ok s => (finish lines env line s, s.side)

def resolveExRange (lines : LineCount) (env : Surroundings) (line : List Char) :
    Except ExRangeError ExRange × Side :=
  let (r, side) := resolution lines env line
  (r.map Resolution.toExRange, side)

end Ruse.Tui
