import Ruse.Core.Utf8
import Ruse.Core.LineIndex

/-!
# The `%` command

The model of `crates/core/src/findmatch.rs`: from the cursor, `%` goes to the other
end of a bracket pair, of a comment, or of a chain of `#if` directives.

* `LineComment` — where a `//` comment, or under `'lisp'` a `;` comment starts;
* `lookAt` — what the cursor is on;
* `directive` — the search along `#if`, `#else`, `#endif`;
* `Mode.move`, `Mode.look` — one step of the bracket and comment search: to the next
  character in its direction, and what that character does;
* `percent` — the command. `none` is a search that did not end, or a count of brackets,
  comments, directives or quotes past `i32Max`.
-/

namespace Ruse.Core.FindMatch

/-- `i32::MAX`. -/
def i32Max : Nat := 2 ^ 31 - 1

def ch (c : Char) : UInt8 := UInt8.ofNat c.toNat

/-- The byte at `i` of `s`, NUL past the end. -/
def byteAt (s : Bytes) (i : Nat) : UInt8 := s.getD i 0

theorem lt_of_byteAt {s : Bytes} {i : Nat} (h : byteAt s i ≠ 0) : i < s.length := by
  by_contra hge
  exact h (by rw [byteAt, List.getD_eq_getElem?_getD, List.getElem?_eq_none (Nat.le_of_not_lt hge),
    Option.getD_none])

def isWhite (c : UInt8) : Bool := c == ch ' ' || c == ch '\t'

def skipwhite (s : Bytes) (i : Nat) : Nat := i + ((s.drop i).takeWhile isWhite).length

/-! ## Strings and comments of a line -/

/-- `strlen` from `i`. -/
def strend (s : Bytes) (i : Nat) : Nat := i + ((s.drop i).takeWhile (· != 0)).length

/-- The quote that closes a string, or where the line ends. -/
def closeQuote (s : Bytes) (p : Nat) : Nat :=
  if _h : byteAt s p = 0 then p
  else if byteAt s p = ch '\\' ∧ byteAt s (p + 1) ≠ 0 then closeQuote s (p + 2)
  else if byteAt s p = ch '"' then p
  else closeQuote s (p + 1)
termination_by s.length - p
decreasing_by
  all_goals
    have hlt := lt_of_byteAt _h
    omega

/-- The quote that closes the raw string with delimiter `d`, or where the line ends. -/
def closeRaw (s d : Bytes) (p : Nat) : Nat :=
  if _h : byteAt s p = 0 then p
  else if byteAt s p = ch ')' ∧ d.isPrefixOf (s.drop (p + 1)) ∧
      byteAt s (p + 1 + d.length) = ch '"' then p + d.length + 1
  else closeRaw s d (p + 1)
termination_by s.length - p
decreasing_by
  have hlt := lt_of_byteAt _h
  omega

/-- The length of the escape after a quote at `p`, as far as its digits go. -/
def literalLen (s : Bytes) (p : Nat) : Nat :=
  if byteAt s (p + 1) = ch '\\' ∧ byteAt s (p + 2) ≠ 0 then
    3 + ((s.drop (p + 2)).takeWhile fun c => ch '0' ≤ c && c ≤ ch '9').length
  else 2

/-- One string or character at `p`: where it ends, and whether another may follow. The
parenthesis of a raw string is looked for up to `limit`. -/
def stringStep (s : Bytes) (limit : Nat → Nat) (p : Nat) : Nat × Bool :=
  if byteAt s p = ch '\'' then
    if byteAt s (p + 1) = 0 then (p, false)
    else
      let i := literalLen s p
      if byteAt s (p + i - 1) ≠ 0 ∧ byteAt s (p + i) = ch '\'' then (p + i + 1, true)
      else (p, false)
  else if byteAt s p = ch '"' then
    let q := closeQuote s (p + 1)
    if byteAt s q = ch '"' then (q + 1, true) else (q, false)
  else if byteAt s p = ch 'R' ∧ byteAt s (p + 1) = ch '"' then
    match (slice s (p + 2) (limit (p + 2))).findIdx? (· == ch '(') with
    | none => (p, false)
    | some off =>
      let q := closeRaw s (slice s (p + 2) (p + 2 + off)) (p + 3)
      if byteAt s q = ch '"' then (q + 1, true) else (q, false)
  else (p, false)

theorem le_closeQuote (s : Bytes) (p : Nat) : p ≤ closeQuote s p := by
  induction p using closeQuote.induct s with
  | case1 p h => rw [closeQuote, dif_pos h]
  | case2 p h hesc ih =>
    rw [closeQuote, dif_neg h, if_pos hesc]
    omega
  | case3 p h hesc hq => rw [closeQuote, dif_neg h, if_neg hesc, if_pos hq]
  | case4 p h hesc hq ih =>
    rw [closeQuote, dif_neg h, if_neg hesc, if_neg hq]
    omega

theorem le_closeRaw (s d : Bytes) (p : Nat) : p ≤ closeRaw s d p := by
  induction p using closeRaw.induct s d with
  | case1 p h => rw [closeRaw, dif_pos h]
  | case2 p h hend =>
    rw [closeRaw, dif_neg h, if_pos hend]
    omega
  | case3 p h hend ih =>
    rw [closeRaw, dif_neg h, if_neg hend]
    omega

/-- A step of the string scan goes on, and stops at the text's end. -/
theorem stringStep_spec (s : Bytes) (limit : Nat → Nat) (p : Nat) :
    p ≤ (stringStep s limit p).1 ∧
      ((stringStep s limit p).2 = true → p < (stringStep s limit p).1 ∧ p < s.length) ∧
      (byteAt s p ≠ 0 → byteAt s (stringStep s limit p).1 = 0 → p < (stringStep s limit p).1) := by
  have hq := le_closeQuote s (p + 1)
  have hr : ∀ d, p + 3 ≤ closeRaw s d (p + 3) := fun d => le_closeRaw s d (p + 3)
  have hlt : ∀ c, c ≠ 0 → byteAt s p = c → p < s.length := fun c hc h => lt_of_byteAt (by rw [h]; exact hc)
  have hself : byteAt s p ≠ 0 → byteAt s p = 0 → p < p := fun h h' => absurd h' h
  unfold stringStep
  split
  · rename_i h
    have := hlt _ (by decide) h
    split
    · exact ⟨Nat.le_refl p, fun h => (by cases h), hself⟩
    dsimp only
    split
    · exact ⟨by dsimp only; omega, fun _ => ⟨by dsimp only; omega, this⟩, fun _ _ => by dsimp only; omega⟩
    · exact ⟨Nat.le_refl p, fun h => (by cases h), hself⟩
  split
  · rename_i h
    have := hlt _ (by decide) h
    dsimp only
    split
    · exact ⟨by dsimp only; omega, fun _ => ⟨by dsimp only; omega, this⟩, fun _ _ => by dsimp only; omega⟩
    · exact ⟨by dsimp only; omega, fun h => (by cases h), fun _ _ => by dsimp only; omega⟩
  split
  · rename_i h
    have := hlt _ (by decide) h.1
    split
    · exact ⟨Nat.le_refl p, fun h => (by cases h), hself⟩
    rename_i off hoff
    have := hr (slice s (p + 2) (p + 2 + off))
    dsimp only
    split
    · exact ⟨by dsimp only; omega, fun _ => ⟨by dsimp only; omega, by assumption⟩, fun _ _ => by dsimp only; omega⟩
    · exact ⟨by dsimp only; omega, fun h => (by cases h), fun _ _ => by dsimp only; omega⟩
  · exact ⟨Nat.le_refl p, fun h => (by cases h), hself⟩

/-- `skip_string`: past the strings and characters at `p`; one that runs to the end of
the line leaves `p` on its last byte. -/
def skipString (s : Bytes) (limit : Nat → Nat) (p : Nat) : Nat :=
  match _h : stringStep s limit p with
  | (q, true) => skipString s limit q
  | (q, false) => if byteAt s q = 0 then q - 1 else q
termination_by s.length - p
decreasing_by
  have hstep := (stringStep_spec s limit p).2.1
  rw [_h] at hstep
  have := hstep rfl
  dsimp only at this
  omega

theorem skipString_go {s : Bytes} {limit : Nat → Nat} {p q : Nat}
    (h : stringStep s limit p = (q, true)) : skipString s limit p = skipString s limit q := by
  rw [skipString]
  split
  · rename_i q' hq
    rw [h] at hq
    cases hq
    rfl
  · rename_i q' hq
    rw [h] at hq
    cases hq

theorem skipString_stop {s : Bytes} {limit : Nat → Nat} {p q : Nat}
    (h : stringStep s limit p = (q, false)) :
    skipString s limit p = if byteAt s q = 0 then q - 1 else q := by
  rw [skipString]
  split
  · rename_i q' hq
    rw [h] at hq
    cases hq
  · rename_i q' hq
    rw [h] at hq
    cases hq
    rfl

/-- Skipping a string goes no further back than one byte. -/
theorem le_skipString (s : Bytes) (limit : Nat → Nat) (p : Nat) :
    p - 1 ≤ skipString s limit p ∧ (byteAt s p ≠ 0 → p ≤ skipString s limit p) := by
  induction p using skipString.induct s limit with
  | case1 p q hstep ih =>
    obtain ⟨-, hgo, -⟩ := stringStep_spec s limit p
    rw [hstep] at hgo
    have hlt := (hgo rfl).1
    rw [skipString_go hstep]
    exact ⟨by omega, fun _ => by omega⟩
  | case2 p q hstep hq =>
    obtain ⟨hle, -, hend⟩ := stringStep_spec s limit p
    rw [hstep] at hle hend
    rw [skipString_stop hstep, if_pos hq]
    exact ⟨by omega, fun hp => by have := hend hp hq; omega⟩
  | case3 p q hstep hq =>
    obtain ⟨hle, -, -⟩ := stringStep_spec s limit p
    rw [hstep] at hle
    rw [skipString_stop hstep, if_neg hq]
    exact ⟨by omega, fun _ => hle⟩

/-- `is_pos_in_string` from `p` on: whether `col` is inside a string. -/
def isPosInString (s : Bytes) (limit : Nat → Nat) (col p : Nat) : Bool :=
  if _h : byteAt s p ≠ 0 ∧ p < col then isPosInString s limit col (skipString s limit p + 1)
  else decide (col < p)
termination_by col - p
decreasing_by
  have := (le_skipString s limit p).2 _h.1
  omega

/-- `check_linecomment`: where the `//` comment starts, from `p` on. -/
def cLineComment (s : Bytes) (p : Nat) : Option Nat :=
  match _h : (slice s p (strend s 0)).findIdx? (· == ch '/') with
  | none => none
  | some off =>
    let i := p + off
    if byteAt s (i + 1) = ch '/' ∧
        (i = 0 ∨ byteAt s (i - 1) ≠ ch '*' ∨ byteAt s (i + 2) ≠ ch '*') ∧
        isPosInString s (strend s) i 0 = false then some i
    else cLineComment s (i + 1)
termination_by s.length - p
decreasing_by
  have hlt := (List.findIdx?_eq_some_iff_getElem.mp _h).1
  rw [slice, List.length_take, List.length_drop] at hlt
  omega

/-- `line_comment` under `'lisp'`: where the `;` comment starts, from `p` on. -/
def lispLineComment (s : Bytes) (inStr : Bool) (p : Nat) : Option Nat :=
  match _h : (s.drop p).findIdx? (fun c => c == ch '"' || c == ch ';') with
  | none => none
  | some off =>
    let i := p + off
    if byteAt s i = ch '"' then
      if inStr then lispLineComment s (byteAt s (i - 1) == ch '\\') (i + 1)
      else lispLineComment s
        (i = 0 ∨ 2 ≤ i ∧ byteAt s (i - 1) ≠ ch '\\' ∧ byteAt s (i - 2) ≠ ch '#') (i + 1)
    else if inStr = false ∧ (i < 2 ∨ byteAt s (i - 1) ≠ ch '\\' ∧ byteAt s (i - 2) ≠ ch '#') ∧
        isPosInString s (fun _ => s.length) i 0 = false then some i
    else lispLineComment s inStr (i + 1)
termination_by s.length - p
decreasing_by
  all_goals
    have hlt := (List.findIdx?_eq_some_iff_getElem.mp _h).1
    rw [List.length_drop] at hlt
    omega

/-- Where the line's comment starts. -/
def checkLinecomment (line : Bytes) (lisp : Bool) : Option Nat :=
  if lisp then lispLineComment line false 0 else cLineComment line 0

/-! ## The lines of the text -/

/-- The lines of `b`: where they start. -/
structure Lines where
  b : Bytes
  starts : List Nat

namespace Lines

/-- A final newline ends the last line; it starts no new one. -/
def new (b : Bytes) : Lines where
  b := b
  starts :=
    if 1 < (lineStartsOf b).length ∧ (lineStartsOf b).getLast? = some b.length then
      (lineStartsOf b).dropLast
    else lineStartsOf b

def count (lines : Lines) : Nat := lines.starts.length

def start (lines : Lines) (l : Nat) : Nat := lines.starts.getD l 0

def line (lines : Lines) (l : Nat) : Bytes :=
  slice lines.b (lines.start l) (lineEnd lines.b (lines.start l))

end Lines

/-- From `c` back over continuation bytes. -/
def backOver (line : Bytes) : Nat → Nat
  | 0 => 0
  | c + 1 => if isContinuation (byteAt line (c + 1)) then backOver line c else c + 1

theorem backOver_le (line : Bytes) (c : Nat) : backOver line c ≤ c := by
  induction c with
  | zero => exact Nat.le_refl 0
  | succ c ih =>
    rw [backOver]
    split <;> omega

/-- Whether the character before `line[col]` is `c`. -/
def checkPrevcol (line : Bytes) (col : Nat) (c : UInt8) : Bool :=
  col ≠ 0 ∧ byteAt line (backOver line (col - 1)) = c

/-- The number of backslashes right before `line[col]`. -/
def backslashes (line : Bytes) (col : Nat) : Nat :=
  if _h : col ≠ 0 ∧ byteAt line (backOver line (col - 1)) = ch '\\' then
    backslashes line (backOver line (col - 1)) + 1
  else 0
termination_by col
decreasing_by
  have := backOver_le line (col - 1)
  omega

def pairs : List (UInt8 × UInt8) := [(ch '(', ch ')'), (ch '{', ch '}'), (ch '[', ch ']')]

/-- The length of the character at `i`, one for an invalid byte. -/
def charLen (s : Bytes) (i : Nat) : Nat := max ((charLenAt s i).getD 1) 1

/-! ## What the cursor is on -/

def ifWord : Bytes := [ch 'i', ch 'f']
def elWord : Bytes := [ch 'e', ch 'l']
def endifWord : Bytes := [ch 'e', ch 'n', ch 'd', ch 'i', ch 'f']

/-- A directive or an end of a comment under the cursor, and where the search starts. -/
structure Target where
  col : Nat
  backwards : Bool
  hash : Bool
  comment : Int

def lookAt (line : Bytes) (col : Nat) : Target :=
  let p := skipwhite line 0
  if byteAt line p = ch '#' ∧ col ≤ p then
    let rest := line.drop (skipwhite line (p + 1))
    ⟨col, false, ifWord.isPrefixOf rest || endifWord.isPrefixOf rest || elWord.isPrefixOf rest, 0⟩
  else if byteAt line col = ch '/' then
    if byteAt line (col + 1) = ch '*' then ⟨col + 1, false, false, 1⟩
    else if 0 < col ∧ byteAt line (col - 1) = ch '*' then ⟨col - 1, true, false, -1⟩
    else ⟨col, false, false, 0⟩
  else if byteAt line col = ch '*' then
    if byteAt line (col + 1) = ch '/' then ⟨col, true, false, -1⟩
    else if 0 < col ∧ byteAt line (col - 1) = ch '/' then ⟨col, false, false, 1⟩
    else ⟨col, false, false, 0⟩
  else ⟨col, false, false, 0⟩

/-- The bracket at or after `col`, and its pair. -/
def bracketFrom (line : Bytes) (col : Nat) : Option (Nat × UInt8 × UInt8) :=
  if _h : byteAt line col = 0 then none
  else
    match pairs.find? fun pair => byteAt line col == pair.1 || byteAt line col == pair.2 with
    | some pair => some (col, pair)
    | none => bracketFrom line (col + charLen line col)
termination_by line.length - col
decreasing_by
  have hlt := lt_of_byteAt _h
  have hpos : 1 ≤ charLen line col := Nat.le_max_right _ _
  omega

/-! ## Directives -/

/-- The next directive of the chain below, over the numbered lines left. -/
def directiveDown : List (Nat × Bytes) → Nat → Option (Option (Nat × Nat))
  | [], _ => some none
  | (l, line) :: below, count =>
    let p := skipwhite line 0
    let rest := line.drop (skipwhite line (p + 1))
    if byteAt line p ≠ ch '#' then directiveDown below count
    else if ifWord.isPrefixOf rest then
      if count < i32Max then directiveDown below (count + 1) else none
    else if elWord.isPrefixOf rest then
      if count = 0 then some (some (l, p)) else directiveDown below count
    else if endifWord.isPrefixOf rest then
      if count = 0 then some (some (l, p)) else directiveDown below (count - 1)
    else directiveDown below count

/-- The `#if` of the chain above. -/
def directiveUp : List (Nat × Bytes) → Nat → Option (Option (Nat × Nat))
  | [], _ => some none
  | (l, line) :: above, count =>
    let p := skipwhite line 0
    let rest := line.drop (skipwhite line (p + 1))
    if byteAt line p ≠ ch '#' then directiveUp above count
    else if ifWord.isPrefixOf rest then
      if count = 0 then some (some (l, p)) else directiveUp above (count - 1)
    else if endifWord.isPrefixOf rest then
      if count < i32Max then directiveUp above (count + 1) else none
    else directiveUp above count

/-- From the directive on line `l` to the next or the first of its chain. -/
def directive (lines : Lines) (l : Nat) : Option (Option (Nat × Nat)) :=
  let line := lines.line l
  let rest := line.drop (skipwhite line (skipwhite line 0 + 1))
  let numbered := fun l => (l, lines.line l)
  if ifWord.isPrefixOf rest || elWord.isPrefixOf rest then
    directiveDown (((List.range lines.count).drop (l + 1)).map numbered) 0
  else if endifWord.isPrefixOf rest then directiveUp ((List.range l).reverse.map numbered) 0
  else some none

/-! ## The search -/

/-- What stays the same during a search; `comment` is 1 forwards, -1 backwards and 0 for
brackets. -/
structure Mode where
  lines : Lines
  lisp : Bool
  backwards : Bool
  comment : Int
  initc : UInt8
  findc : UInt8
  escaped : Nat
  lispcomm : Bool

structure Scan where
  line : Nat
  col : Nat
  doQuotes : Int
  startInQuotes : Option Bool
  inquote : Bool
  count : Nat
  matchPos : Nat × Nat
  commentCol : Option Nat

/-- What looking at a character leads to. -/
inductive Step
  | go (s : Scan)
  | done (r : Option (Nat × Nat))
  /-- A count passes `i32Max`. -/
  | fault

/-- `count += 1`. -/
def Scan.opened (s : Scan) : Step :=
  if s.count < i32Max then .go { s with count := s.count + 1 } else .fault

/-- The quotes of a line: their number less one, and its parity at `mark`. -/
def countQuotes (line : Bytes) (mark i : Nat) (doQuotes atStart : Int) : Int × Int :=
  if i < line.length then
    let atStart := if i = mark then doQuotes % 2 else atStart
    let isQuote : Bool := byteAt line i = ch '"' ∧
      (i = 0 ∨ byteAt line (i - 1) ≠ ch '\'' ∨ byteAt line (i + 1) ≠ ch '\'')
    let escape : Bool := byteAt line i = ch '\\' ∧ i + 1 < line.length
    countQuotes line mark (i + if escape then 2 else 1) (doQuotes + if isQuote then 1 else 0)
      atStart
  else (doQuotes, atStart)
termination_by line.length - i
decreasing_by
  split <;> omega

namespace Mode

/-- The next character in the direction of the search; `none` at the end of it. -/
def move (m : Mode) (s : Scan) : Option Scan :=
  let line := m.lines.line s.line
  if m.backwards then
    if m.lispcomm ∧ ∀ c ∈ s.commentCol, s.col < c then none
    else if s.col = 0 then
      if s.line = 0 then none
      else
        let line := m.lines.line (s.line - 1)
        let commentCol :=
          if m.comment ≠ 0 ∨ m.lisp then checkLinecomment line m.lisp else s.commentCol
        let col := if m.lisp then commentCol.getD line.length else line.length
        some { s with line := s.line - 1, col := col, doQuotes := -1, commentCol := commentCol }
    else some { s with col := backOver line (s.col - 1) }
  else if byteAt line s.col = 0 ∨ (m.lisp ∧ s.commentCol = some s.col) then
    if m.lines.count ≤ s.line + 1 ∨ m.lispcomm then none
    else
      let line := m.lines.line (s.line + 1)
      let commentCol := if m.lisp then checkLinecomment line true else s.commentCol
      some { s with line := s.line + 1, col := 0, doQuotes := -1, commentCol := commentCol }
  else some { s with col := s.col + charLen line s.col }

/-- A character of the search for the other end of a comment. -/
def lookComment (m : Mode) (s : Scan) : Step :=
  let line := m.lines.line s.line
  if 0 < m.comment then
    if byteAt line s.col = ch '*' ∧ byteAt line (s.col + 1) = ch '/' then
      .done (some (s.line, s.col + 1))
    else .go s
  else if s.col = 0 then .go s
  else if byteAt line (s.col - 1) = ch '/' ∧ byteAt line s.col = ch '*' ∧
      (s.col = 1 ∨ byteAt line (s.col - 2) ≠ ch '*') ∧ ∀ c ∈ s.commentCol, s.col < c then
    { s with matchPos := (s.line, s.col - 1) }.opened
  else if byteAt line (s.col - 1) = ch '*' ∧ byteAt line s.col = ch '/' then
    if 0 < s.count then .done (some s.matchPos)
    else if 1 < s.col ∧ byteAt line (s.col - 2) = ch '/' ∧ ∀ c ∈ s.commentCol, s.col ≤ c then
      .done (some (s.line, s.col - 2))
    else .done none
  else .go s

/-- The quotes of the line the scan is on, marked at its column. -/
def lineQuotes (m : Mode) (s : Scan) : Int × Int :=
  countQuotes (m.lines.line s.line) (s.col + if m.backwards then 1 else 0) 0 (-1) (-1)

/-- The quotes of a line just entered; a line with an even number of them has none to
skip, unless it or the line above goes on with a backslash. -/
def quotes (m : Mode) (s : Scan) : Scan :=
  if s.doQuotes ≠ -1 then s
  else
    let line := m.lines.line s.line
    let q := m.lineQuotes s
    if q.1 % 2 ≠ 0 then { s with doQuotes := q.1 % 2 }
    else
      let s := { s with doQuotes := 0, inquote := false }
      let s :=
        if line.getLast? = some (ch '\\') then
          if s.startInQuotes = none then
            { s with doQuotes := 1, inquote := true, startInQuotes := some true }
          else { s with doQuotes := 1, inquote := m.backwards }
        else s
      if 0 < s.line ∧ (m.lines.line (s.line - 1)).getLast? = some (ch '\\') then
        if s.startInQuotes = none then
          { s with
            doQuotes := 1, inquote := q.2 ≠ 0,
            startInQuotes := if q.2 ≠ 0 then some true else none }
        else { s with doQuotes := 1, inquote := s.inquote || !m.backwards }
      else s

/-- Where a character literal at the scan's quote ends, in the direction of the search. -/
def skipLiteral (m : Mode) (s : Scan) : Option Nat :=
  let line := m.lines.line s.line
  if byteAt line s.col ≠ ch '\'' then none
  else if m.backwards then
    if 1 < s.col then
      if byteAt line (s.col - 2) = ch '\'' then some (s.col - 2)
      else if byteAt line (s.col - 2) = ch '\\' ∧ 2 < s.col ∧ byteAt line (s.col - 3) = ch '\'' then
        some (s.col - 3)
      else none
    else none
  else if byteAt line (s.col + 1) ≠ 0 then
    if byteAt line (s.col + 1) = ch '\\' ∧ byteAt line (s.col + 2) ≠ 0 ∧
        byteAt line (s.col + 3) = ch '\'' then some (s.col + 3)
    else if byteAt line (s.col + 2) = ch '\'' then some (s.col + 2)
    else none
  else none

/-- What the character at the scan does. -/
def look (m : Mode) (s : Scan) : Step :=
  if m.comment ≠ 0 then m.lookComment s
  else if s.doQuotes = -1 ∧ i32Max < (m.lineQuotes s).1 then .fault
  else
    let line := m.lines.line s.line
    let s := m.quotes s
    let s := { s with startInQuotes := some (s.startInQuotes.getD false) }
    let c := byteAt line s.col
    if c = 0 then
      if s.col = 0 ∨ byteAt line (s.col - 1) ≠ ch '\\' then
        .go { s with inquote := false, startInQuotes := some false }
      else .go s
    else if c = ch '"' then
      if s.doQuotes ≠ 0 ∧ backslashes line s.col % 2 = 0 then
        .go { s with inquote := !s.inquote, startInQuotes := some false }
      else .go s
    else
      match m.skipLiteral s with
      | some col => .go { s with col := col }
      | none =>
        -- under `'lisp'` a bracket after `#` and a backslash is a character
        if m.lisp ∧ (pairs.any fun pair => c == pair.1 || c == pair.2) ∧ 1 < s.col ∧
            checkPrevcol line s.col (ch '\\') ∧ checkPrevcol line (s.col - 1) (ch '#') then .go s
        else if (s.inquote = false ∨ s.startInQuotes = some true) ∧ (c = m.initc ∨ c = m.findc) ∧
            backslashes line s.col % 2 = m.escaped then
          if c = m.initc then s.opened
          else if s.count = 0 then .done (some (s.line, s.col))
          else .go { s with count := s.count - 1 }
        else .go s

/-- The loop; `none` when `fuel` steps do not end it, or a count passes `i32Max`. -/
def run (m : Mode) : Nat → Scan → Option (Option (Nat × Nat))
  | 0, _ => none
  | fuel + 1, s =>
    match m.move s with
    | none => some (if m.comment < 0 ∧ 0 < s.count then some s.matchPos else none)
    | some s =>
      match m.look s with
      | .go s => m.run fuel s
      | .done r => some r
      | .fault => none

end Mode

/-- The search from `col` of line `lnum`. -/
def search (lines : Lines) (lisp : Bool) (lnum col : Nat) (backwards : Bool) (comment : Int)
    (initc findc : UInt8) (escaped : Nat) : Option (Option (Nat × Nat)) :=
  let line := lines.line lnum
  let commentCol :=
    if (backwards ∧ comment ≠ 0) ∨ lisp then checkLinecomment line lisp else none
  let lispcomm : Bool := lisp ∧ commentCol.any fun c => c < col
  Mode.run ⟨lines, lisp, backwards, comment, initc, findc, escaped, lispcomm⟩
    (lines.b.length + 1) ⟨lnum, col, -1, none, false, 0, (0, 0), commentCol⟩

/-- `find`: the match of what is at `col` of line `lnum`, as a line and a column. -/
def find (lines : Lines) (lnum col : Nat) (lisp : Bool) : Option (Option (Nat × Nat)) :=
  let line := lines.line lnum
  let target := lookAt line col
  if target.hash then directive lines lnum
  else if target.comment ≠ 0 then
    search lines lisp lnum target.col target.backwards target.comment 0 0 0
  else
    -- at the end of the line the character before it counts
    let col := if byteAt line col = 0 ∧ 0 < col then col - 1 else col
    match bracketFrom line col with
    | none => if byteAt line (skipwhite line 0) = ch '#' then directive lines lnum else some none
    | some (col, opening, closing) =>
      let escaped := backslashes line col % 2
      if byteAt line col = opening then search lines lisp lnum col false 0 opening closing escaped
      else search lines lisp lnum col true 0 closing opening escaped

/-- `%` from byte `cursor` of `b`: the byte the match is at; `lisp` is the `'lisp'` flag. -/
def percent (lisp : Bool) (b : Bytes) (cursor : Nat) : Option (Option Nat) :=
  let lines := Lines.new b
  let cur := min cursor b.length
  let lnum := (lines.starts.takeWhile fun s => s ≤ cur).length - 1
  (find lines lnum (cur - lines.start lnum) lisp).map fun r =>
    r.map fun p => lines.start p.1 + p.2

end Ruse.Core.FindMatch
