import Ruse.Lib.Climb
import Ruse.Persist.Encoding

/-!
# The expression register

The model of `crates/core/src/expr.rs`, the calculator behind `"=`: integers and
floats with `+ - * / %`, signs and parentheses, strings and the concatenation
operator. The parser evaluates while it reads, level by level, each level an
instance of `Lib.Climber`.

* `lex` — the tokens of a text;
* `Value`, `arith`, `negate` — the values and their operators;
* `parseConcat`, `eval` — the evaluator.

Floats are a parameter, `FloatOps`: the arithmetic, parsing and printing of `f64`.
-/

namespace Ruse.Core.Expr

open Ruse.Lib

inductive ExprError
  | empty
  | parse (reason : String)
  | type (reason : String)
  | divByZero
  | overflow
  | tooDeep
deriving DecidableEq, Repr

/-- What the evaluator uses of floats; `display` is the `:echo` form. -/
class FloatOps (F : Type) where
  parse : List Char → Option F
  ofInt : Int64 → F
  add : F → F → F
  sub : F → F → F
  mul : F → F → F
  div : F → F → F
  neg : F → F
  isZero : F → Bool
  display : F → List Char

/-! ## The lexer -/

inductive Token (F : Type)
  | int (n : Int64)
  | float (f : F)
  | str (s : List Char)
  | plus
  | minus
  | star
  | slash
  | percent
  | dot
  | lparen
  | rparen

def Token.name {F : Type} : Token F → String
  | .int _ => "Int"
  | .float _ => "Float"
  | .str _ => "Str"
  | .plus => "Plus"
  | .minus => "Minus"
  | .star => "Star"
  | .slash => "Slash"
  | .percent => "Percent"
  | .dot => "Dot"
  | .lparen => "LParen"
  | .rparen => "RParen"

def opToken {F : Type} (c : Char) : Option (Token F) :=
  if c = '+' then some .plus
  else if c = '-' then some .minus
  else if c = '*' then some .star
  else if c = '/' then some .slash
  else if c = '%' then some .percent
  else if c = '.' then some .dot
  else if c = '(' then some .lparen
  else if c = ')' then some .rparen
  else none

def isBlank (c : Char) : Bool := c = ' ' ∨ c = '\t' ∨ c = '\r' ∨ c = '\n'

/-- The debug form of a character that begins no token, read as its first byte. -/
def charDebug (c : Char) : String :=
  let n := ((String.utf8EncodeChar c).headD 0).toNat
  if n = 0 then "'\\0'"
  else if n = 0x5C then "'\\\\'"
  else if n < 0x20 ∨ n = 0x7F then
    "'\\u\x7b" ++ String.ofList (Nat.toDigits 16 n) ++ "\x7d'"
  else "'" ++ String.singleton (Char.ofNat n) ++ "'"

/-- A single-quoted string after its opening quote; a doubled quote is a quote. -/
def lexSingleQuote : List Char → Except ExprError (List Char × List Char)
  | [] => .error (.parse "unterminated single-quoted string")
  | '\'' :: '\'' :: rest => (lexSingleQuote rest).map fun r => ('\'' :: r.1, r.2)
  | '\'' :: rest => .ok ([], rest)
  | c :: rest => (lexSingleQuote rest).map fun r => (c :: r.1, r.2)

/-- The character a backslash and `c` stand for. -/
def unescape (c : Char) : Char :=
  if c = 'n' then '\n' else if c = 't' then '\t' else if c = 'r' then '\r' else c

/-- A double-quoted string after its opening quote. -/
def lexDoubleQuote : List Char → Except ExprError (List Char × List Char)
  | [] => .error (.parse "unterminated double-quoted string")
  | '"' :: rest => .ok ([], rest)
  | '\\' :: esc :: rest => (lexDoubleQuote rest).map fun r => (unescape esc :: r.1, r.2)
  | c :: rest => (lexDoubleQuote rest).map fun r => (c :: r.1, r.2)

/-- A fraction, taken only when a digit follows the dot. -/
def lexFraction : List Char → List Char × List Char
  | '.' :: d :: rest =>
    if d.isDigit then
      ('.' :: (d :: rest).takeWhile Char.isDigit, (d :: rest).dropWhile Char.isDigit)
    else ([], '.' :: d :: rest)
  | cs => ([], cs)

def lexSign : List Char → List Char × List Char
  | c :: rest => if c = '+' ∨ c = '-' then ([c], rest) else ([], c :: rest)
  | [] => ([], [])

/-- An exponent, taken only with a digit. -/
def lexExponent : List Char → List Char × List Char
  | e :: rest =>
    if (e = 'e' ∨ e = 'E') ∧ ((lexSign rest).2.head?.any Char.isDigit) then
      (e :: (lexSign rest).1 ++ (lexSign rest).2.takeWhile Char.isDigit,
        (lexSign rest).2.dropWhile Char.isDigit)
    else ([], e :: rest)
  | [] => ([], [])

section
variable {F : Type} [FloatOps F]

/-- A number that starts on a digit. -/
def lexNumber (cs : List Char) : Except ExprError (Token F × List Char) :=
  let whole := cs.takeWhile Char.isDigit
  let fraction := lexFraction (cs.dropWhile Char.isDigit)
  let exponent := lexExponent fraction.2
  let text := whole ++ fraction.1 ++ exponent.1
  if fraction.1 ≠ [] ∨ exponent.1 ≠ [] then
    match FloatOps.parse text with
    | some f => .ok (.float f, exponent.2)
    | none => .error (.parse ("invalid float \"" ++ String.ofList text ++ "\""))
  else if Nat.ofDigitChars 10 text 0 < 2 ^ 63 then
    .ok (.int (Int64.ofNat (Nat.ofDigitChars 10 text 0)), exponent.2)
  else .error (.parse ("integer \"" ++ String.ofList text ++ "\" out of range"))

/-- One step of the lexer at the character `c`: a token or none, and what is left. -/
def lexStep (c : Char) (rest : List Char) : Except ExprError (Option (Token F) × List Char) :=
  if isBlank c then .ok (none, rest)
  else match opToken c with
  | some t => .ok (some t, rest)
  | none =>
    if c = '\'' then (lexSingleQuote rest).map fun r => (some (.str r.1), r.2)
    else if c = '"' then (lexDoubleQuote rest).map fun r => (some (.str r.1), r.2)
    else if c.isDigit then (lexNumber (c :: rest)).map fun r => (some r.1, r.2)
    else .error (.parse ("unexpected character " ++ charDebug c))

end

theorem map_eq_ok {ε α β : Type} {x : Except ε α} {f : α → β} {b : β} (h : x.map f = .ok b) :
    ∃ a, x = .ok a ∧ f a = b := by
  cases x with
  | error e => cases h
  | ok a =>
    cases h
    exact ⟨a, rfl, rfl⟩

/-- A string in single quotes takes characters off the input, never adds one. -/
theorem lexSingleQuote_le {cs s rest : List Char} (h : lexSingleQuote cs = .ok (s, rest)) :
    rest.length ≤ cs.length := by
  induction cs using lexSingleQuote.induct generalizing s with
  | case1 => cases h
  | case2 cs ih =>
    obtain ⟨r, hr, heq⟩ := map_eq_ok h
    cases heq
    have := ih hr
    simp only [List.length_cons]
    omega
  | case3 cs hne =>
    rw [lexSingleQuote] at h
    · cases h
      simp
    · exact hne
  | case4 c cs hpair hend ih =>
    rw [lexSingleQuote] at h
    · obtain ⟨r, hr, heq⟩ := map_eq_ok h
      cases heq
      have := ih hr
      simp only [List.length_cons]
      omega
    · exact hpair
    · exact hend

/-- A string in double quotes takes characters off the input, never adds one. -/
theorem lexDoubleQuote_le {cs s rest : List Char} (h : lexDoubleQuote cs = .ok (s, rest)) :
    rest.length ≤ cs.length := by
  induction cs using lexDoubleQuote.induct generalizing s with
  | case1 => cases h
  | case2 cs =>
    cases h
    simp
  | case3 esc cs ih =>
    obtain ⟨r, hr, heq⟩ := map_eq_ok h
    cases heq
    have := ih hr
    simp only [List.length_cons]
    omega
  | case4 c cs hend hesc ih =>
    rw [lexDoubleQuote] at h
    · obtain ⟨r, hr, heq⟩ := map_eq_ok h
      cases heq
      have := ih hr
      simp only [List.length_cons]
      omega
    · exact hend
    · exact hesc

theorem dropWhile_le {α : Type} (p : α → Bool) (cs : List α) :
    (cs.dropWhile p).length ≤ cs.length :=
  (List.dropWhile_sublist p).length_le

theorem lexFraction_le (cs : List Char) : (lexFraction cs).2.length ≤ cs.length := by
  unfold lexFraction
  split
  · split
    · have := dropWhile_le Char.isDigit
      grind
    · exact Nat.le_refl _
  · exact Nat.le_refl _

theorem lexSign_le (cs : List Char) : (lexSign cs).2.length ≤ cs.length := by
  unfold lexSign
  split
  · split
    · simp
    · exact Nat.le_refl _
  · exact Nat.le_refl _

theorem lexExponent_le (cs : List Char) : (lexExponent cs).2.length ≤ cs.length := by
  unfold lexExponent
  split
  · rename_i e rest
    split
    · have := dropWhile_le Char.isDigit (lexSign rest).2
      have := lexSign_le rest
      simp only [List.length_cons]
      omega
    · exact Nat.le_refl _
  · exact Nat.le_refl _

section
variable {F : Type} [FloatOps F]

/-- A number takes characters off the input, never adds one. -/
theorem lexNumber_le {c : Char} (hc : c.isDigit = true) {cs rest : List Char} {t : Token F}
    (h : lexNumber (c :: cs) = .ok (t, rest)) : rest.length ≤ cs.length := by
  have hdrop := dropWhile_le Char.isDigit cs
  have hfraction := lexFraction_le ((c :: cs).dropWhile Char.isDigit)
  have hexponent := lexExponent_le (lexFraction ((c :: cs).dropWhile Char.isDigit)).2
  rw [List.dropWhile_cons_of_pos hc] at hfraction hexponent
  unfold lexNumber at h
  rw [List.dropWhile_cons_of_pos hc] at h
  dsimp only at h
  split at h
  · split at h
    · cases h
      omega
    · cases h
  · split at h
    · cases h
      omega
    · cases h

/-- A token takes characters off the input, never adds one. -/
theorem lexStep_le {c : Char} {cs rest : List Char} {t : Option (Token F)}
    (h : lexStep c cs = .ok (t, rest)) : rest.length ≤ cs.length := by
  unfold lexStep at h
  split at h
  · cases h
    exact Nat.le_refl _
  split at h
  · cases h
    exact Nat.le_refl _
  split at h
  · obtain ⟨r, hr, heq⟩ := map_eq_ok h
    cases heq
    exact lexSingleQuote_le hr
  split at h
  · obtain ⟨r, hr, heq⟩ := map_eq_ok h
    cases heq
    exact lexDoubleQuote_le hr
  split at h
  · rename_i hdigit
    obtain ⟨r, hr, heq⟩ := map_eq_ok h
    cases heq
    exact lexNumber_le hdigit hr
  · cases h

def lex (cs : List Char) : Except ExprError (List (Token F)) :=
  match cs with
  | [] => .ok []
  | c :: rest =>
    match _h : lexStep c rest with
    | .error e => .error e
    | .ok (t, rest') => (lex rest').map fun ts => t.toList ++ ts
termination_by cs.length
decreasing_by
  have := lexStep_le _h
  rw [List.length_cons]
  omega

theorem lex_cons {c : Char} {rest rest' : List Char} {t : Option (Token F)}
    (h : lexStep c rest = .ok (t, rest')) :
    lex (c :: rest) = (lex rest').map fun ts => t.toList ++ ts := by
  rw [lex]
  split
  · rename_i e he
    rw [h] at he
    cases he
  · rename_i t' rest'' ht
    rw [h] at ht
    cases ht
    rfl

theorem lex_error {c : Char} {rest : List Char} {e : ExprError}
    (h : lexStep (F := F) c rest = .error e) : lex (F := F) (c :: rest) = .error e := by
  rw [lex]
  split
  · rename_i e' he
    rw [h] at he
    cases he
    rfl
  · rename_i t' rest'' ht
    rw [h] at ht
    cases ht

end

/-! ## Values -/

inductive Value (F : Type)
  | int (i : Int64)
  | float (f : F)
  | str (s : List Char)

/-- The operators of `arith`. -/
inductive Op
  | plus
  | minus
  | star
  | slash
  | percent
deriving DecidableEq, Repr

def Op.char : Op → Char
  | .plus => '+'
  | .minus => '-'
  | .star => '*'
  | .slash => '/'
  | .percent => '%'

/-- Integer `+ - * / %`: wrapping, except for `i64::MIN / -1` and `i64::MIN % -1`. -/
def intArith (a b : Int64) (op : Op) : Except ExprError Int64 :=
  match op with
  | .plus => .ok (a + b)
  | .minus => .ok (a - b)
  | .star => .ok (a * b)
  | .slash =>
    if b = 0 then .error .divByZero
    else if a = Int64.minValue ∧ b = -1 then .error .overflow
    else .ok (a / b)
  | .percent =>
    if b = 0 then .error .divByZero
    else if a = Int64.minValue ∧ b = -1 then .error .overflow
    else .ok (a % b)

section
variable {F : Type} [FloatOps F]

def Value.display : Value F → List Char
  | .int i => (toString i.toInt).toList
  | .float f => FloatOps.display f
  | .str s => s

def floatArith (a b : F) (op : Op) : Except ExprError F :=
  match op with
  | .plus => .ok (FloatOps.add a b)
  | .minus => .ok (FloatOps.sub a b)
  | .star => .ok (FloatOps.mul a b)
  | .slash => if FloatOps.isZero b then .error .divByZero else .ok (FloatOps.div a b)
  | .percent => .error (.type "'%' cannot be used with a float")

/-- The reason of an operator on a string. -/
def needsNumbers (op : Op) : ExprError :=
  .type ("operator '" ++ String.singleton op.char ++
    "' needs numbers (this calculator does not coerce strings)")

def arith (left right : Value F) (op : Op) : Except ExprError (Value F) :=
  match left, right with
  | .int a, .int b => (intArith a b op).map .int
  | .int a, .float b => (floatArith (FloatOps.ofInt a) b op).map .float
  | .float a, .int b => (floatArith a (FloatOps.ofInt b) op).map .float
  | .float a, .float b => (floatArith a b op).map .float
  | _, _ => .error (needsNumbers op)

def negate : Value F → Except ExprError (Value F)
  | .int i => if i = Int64.minValue then .error .overflow else .ok (.int (-i))
  | .float f => .ok (.float (FloatOps.neg f))
  | .str _ => .error (.type "unary '-' needs a number")

/-- Unary plus only asks for a number. -/
def checkNumber : Value F → Except ExprError (Value F)
  | .str _ => .error (.type "unary '+' needs a number")
  | v => .ok v

def concat (left right : Value F) : Except ExprError (Value F) :=
  .ok (.str (left.display ++ right.display))

/-! ## The parser -/

abbrev Parser (F : Type) := Climber ExprError (Token F) (Value F)

def concatOp : Token F → Option (Value F → Value F → Except ExprError (Value F))
  | .dot => some concat
  | _ => none

def additiveOp : Token F → Option (Value F → Value F → Except ExprError (Value F))
  | .plus => some fun l r => arith l r .plus
  | .minus => some fun l r => arith l r .minus
  | _ => none

def termOp : Token F → Option (Value F → Value F → Except ExprError (Value F))
  | .star => some fun l r => arith l r .star
  | .slash => some fun l r => arith l r .slash
  | .percent => some fun l r => arith l r .percent
  | _ => none

def signOp : Token F → Option (Value F → Except ExprError (Value F))
  | .minus => some negate
  | .plus => some checkNumber
  | _ => none

/-- An operand: a literal, or what `inner` reads in parentheses. -/
def parsePrimary (inner : Parser F) : Parser F
  | .int n :: rest => .ok (.int n, rest)
  | .float f :: rest => .ok (.float f, rest)
  | .str s :: rest => .ok (.str s, rest)
  | .lparen :: rest => inner rest >>= fun r =>
    match r.2 with
    | .rparen :: rest' => .ok (r.1, rest')
    | _ => .error (.parse "missing ')'")
  | t :: _ => .error (.parse ("unexpected token " ++ t.name))
  | [] => .error (.parse "unexpected end of expression")

def parseUnary (inner : Parser F) : Parser F := Climber.prefixed signOp (parsePrimary inner)

def parseTerm (inner : Parser F) : Parser F := Climber.level termOp (parseUnary inner)

def parseAdditive (inner : Parser F) : Parser F := Climber.level additiveOp (parseTerm inner)

/-- Parentheses nest less deep than this. -/
def maxDepth : Nat := 1000

/-- What an opening parenthesis leads to when `room` more of them may open inside it. -/
def parseInner : Nat → Parser F
  | 0 => fun _ => .error .tooDeep
  | room + 1 => Climber.level concatOp (parseAdditive (parseInner room))

/-- The whole expression, with no parenthesis open yet. -/
def parseConcat : Parser F := parseInner maxDepth

def eval (F : Type) [FloatOps F] (input : List Char) : Except ExprError (List Char) :=
  if Persist.trim input = [] then .error .empty
  else do
    let tokens ← lex (F := F) input
    let (value, rest) ← parseConcat tokens
    if rest = [] then .ok value.display
    else .error (.parse "trailing input after expression")

end

end Ruse.Core.Expr
