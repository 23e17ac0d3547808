import Ruse.Core.Expr

/-!
# The expression register computes what a tree denotes

`Tree` is the grammar of `Ruse.Core.Expr` without floats; `Tree.text` writes a tree
with the parentheses its levels and left associativity need, and `Tree.denote` is its
value over the integers. Three facts meet in `eval_text`:

* the operators compute what is denoted (`arith_value`, `negate_value`);
* the lexer takes the text apart into the tree's tokens (`lexes_text`);
* each level of the parser reads the tokens of a tree as what it denotes, and goes on
  with the operators after it (`Reads`, `reads_toks`).
-/

namespace Ruse.Core.Expr

open Ruse.Lib

/-! ## Trees and what they denote -/

abbrev I64 := { i : Int // -2 ^ 63 ≤ i ∧ i < 2 ^ 63 }

def wrap (i : Int) : I64 :=
  ⟨i.bmod (2 ^ 64), by
    have hlo := Int.le_bmod (x := i) (m := 2 ^ 64) (by decide)
    have hhi := Int.bmod_lt (x := i) (m := 2 ^ 64) (by decide)
    omega⟩

inductive Denoted
  | num (i : I64)
  | text (s : List Char)

namespace Denoted

def display : Denoted → List Char
  | num i => (toString i.val).toList
  | text s => s

/-- The integer operators: `+ - *` wrap, `/` truncates towards zero and `%` takes the
dividend's sign; a zero divisor and a quotient of 2^63 are errors. -/
def arithInt (op : Op) (a b : I64) : Except ExprError I64 :=
  match op with
  | .plus => .ok (wrap (a.val + b.val))
  | .minus => .ok (wrap (a.val - b.val))
  | .star => .ok (wrap (a.val * b.val))
  | .slash =>
    if b.val = 0 then .error .divByZero
    else if a.val = -2 ^ 63 ∧ b.val = -1 then .error .overflow
    else .ok (wrap (a.val.tdiv b.val))
  | .percent =>
    if b.val = 0 then .error .divByZero
    else if a.val = -2 ^ 63 ∧ b.val = -1 then .error .overflow
    else .ok (wrap (a.val.tmod b.val))

def arith (op : Op) : Denoted → Denoted → Except ExprError Denoted
  | num a, num b => (arithInt op a b).map num
  | _, _ => .error (needsNumbers op)

def neg : Denoted → Except ExprError Denoted
  | num a => if a.val = -2 ^ 63 then .error .overflow else .ok (num (wrap (-a.val)))
  | text _ => .error (.type "unary '-' needs a number")

def pos : Denoted → Except ExprError Denoted
  | num a => .ok (num a)
  | text _ => .error (.type "unary '+' needs a number")

def concat (a b : Denoted) : Except ExprError Denoted := .ok (text (a.display ++ b.display))

/-- The evaluator's form of a denoted value. -/
def value {F : Type} : Denoted → Value F
  | num i => .int (Int64.ofInt i.val)
  | text s => .str s

end Denoted

inductive Quote
  | single
  | double

/-- The expressions of integers and strings. -/
inductive Tree
  | int (n : Fin (2 ^ 63))
  | str (q : Quote) (s : List Char)
  | neg (e : Tree)
  | pos (e : Tree)
  | arith (op : Op) (l r : Tree)
  | concat (l r : Tree)

def Op.prec : Op → Nat
  | .plus => 1
  | .minus => 1
  | _ => 2

namespace Tree

/-- Operands from left to right, then the operator. -/
def denote : Tree → Except ExprError Denoted
  | int n => .ok (.num ⟨n.val, by omega⟩)
  | str _ s => .ok (.text s)
  | neg e => e.denote >>= Denoted.neg
  | pos e => e.denote >>= Denoted.pos
  | arith op l r => l.denote >>= fun a => r.denote >>= fun b => Denoted.arith op a b
  | concat l r => l.denote >>= fun a => r.denote >>= fun b => Denoted.concat a b

/-- The level of a tree: concatenation is the loosest, a literal the tightest. -/
def prec : Tree → Nat
  | int _ => 4
  | str _ _ => 4
  | neg _ => 3
  | pos _ => 3
  | arith op _ _ => op.prec
  | concat _ _ => 0

/-- Parentheses where a tree of level `prec` stands at level `p`. -/
def paren {α : Type} (opening closing : α) (p prec : Nat) (ts : List α) : List α :=
  if prec < p then opening :: (ts ++ [closing]) else ts

/-- How deep parentheses nest in the text of a tree. -/
def nesting : Tree → Nat
  | int _ => 0
  | str _ _ => 0
  | neg e => e.nesting + if e.prec < 3 then 1 else 0
  | pos e => e.nesting + if e.prec < 3 then 1 else 0
  | arith op l r => max (l.nesting + if l.prec < op.prec then 1 else 0)
      (r.nesting + if r.prec < op.prec + 1 then 1 else 0)
  | concat l r => max l.nesting (r.nesting + if r.prec < 1 then 1 else 0)

end Tree

/-- What a character is written as between single quotes. -/
def doubled (c : Char) : List Char := if c = '\'' then ['\'', '\''] else [c]

/-- What a character is written as between double quotes. -/
def escaped (c : Char) : List Char :=
  if c = '"' ∨ c = '\\' then ['\\', c]
  else if c = '\n' then ['\\', 'n']
  else if c = '\t' then ['\\', 't']
  else if c = '\r' then ['\\', 'r']
  else [c]

def quoted : Quote → List Char → List Char
  | .single, s => '\'' :: (s.flatMap doubled ++ ['\''])
  | .double, s => '"' :: (s.flatMap escaped ++ ['"'])

/-- The text of a tree, with the parentheses its levels and left associativity need. -/
def Tree.text : Tree → List Char
  | .int n => Nat.toDigits 10 n.val
  | .str q s => quoted q s
  | .neg e => '-' :: paren '(' ')' 3 e.prec e.text
  | .pos e => '+' :: paren '(' ')' 3 e.prec e.text
  | .arith op l r =>
    paren '(' ')' op.prec l.prec l.text ++ op.char :: paren '(' ')' (op.prec + 1) r.prec r.text
  | .concat l r => paren '(' ')' 0 l.prec l.text ++ ' ' :: '.' :: ' ' :: paren '(' ')' 1 r.prec r.text

def Op.token {F : Type} : Op → Token F
  | .plus => .plus
  | .minus => .minus
  | .star => .star
  | .slash => .slash
  | .percent => .percent

def Tree.toks {F : Type} : Tree → List (Token F)
  | .int n => [.int (Int64.ofInt n.val)]
  | .str _ s => [.str s]
  | .neg e => .minus :: paren .lparen .rparen 3 e.prec e.toks
  | .pos e => .plus :: paren .lparen .rparen 3 e.prec e.toks
  | .arith op l r => paren .lparen .rparen op.prec l.prec l.toks ++
      op.token :: paren .lparen .rparen (op.prec + 1) r.prec r.toks
  | .concat l r => paren .lparen .rparen 0 l.prec l.toks ++
      .dot :: paren .lparen .rparen 1 r.prec r.toks

/-! ## The operators compute what is denoted -/

theorem toInt_ofInt (i : I64) : (Int64.ofInt i.val).toInt = i.val :=
  Int64.toInt_ofInt_of_le i.property.1 i.property.2

section
variable {F : Type} [FloatOps F]

theorem display_value (d : Denoted) : (d.value : Value F).display = d.display := by
  cases d with
  | num i =>
    show (toString (Int64.ofInt i.val).toInt).toList = _
    rw [toInt_ofInt]
    rfl
  | text s => rfl

theorem ofInt_eq_iff (a : I64) (n : Int64) : Int64.ofInt a.val = n ↔ a.val = n.toInt := by
  rw [← Int64.toInt_inj, toInt_ofInt]

/-- The arithmetic of the code on two integers is the checked one. -/
theorem intArith_ofInt (a b : I64) (op : Op) :
    intArith (Int64.ofInt a.val) (Int64.ofInt b.val) op =
      (Denoted.arithInt op a b).map fun i => Int64.ofInt i.val := by
  have hmin : Int64.minValue.toInt = -2 ^ 63 := by decide
  have hone : (-1 : Int64).toInt = -1 := by decide
  have hzero : (0 : Int64).toInt = 0 := by decide
  have hwrap : ∀ (n : Int64) (i : Int), n.toInt = i.bmod (2 ^ 64) → n = Int64.ofInt (wrap i).val := by
    intro n i h
    rw [← Int64.toInt_inj, toInt_ofInt, h]
    rfl
  have ha := toInt_ofInt a
  have hb := toInt_ofInt b
  cases op with
  | plus => exact congrArg _ (hwrap _ _ (by rw [Int64.toInt_add, ha, hb]))
  | minus => exact congrArg _ (hwrap _ _ (by rw [Int64.toInt_sub, ha, hb]))
  | star => exact congrArg _ (hwrap _ _ (by rw [Int64.toInt_mul, ha, hb]))
  | slash =>
    simp only [intArith, Denoted.arithInt, ofInt_eq_iff, hmin, hone, hzero]
    split
    · rfl
    split
    · rfl
    exact congrArg _ (hwrap _ _ (by rw [Int64.toInt_div, ha, hb]))
  | percent =>
    simp only [intArith, Denoted.arithInt, ofInt_eq_iff, hmin, hone, hzero]
    split
    · rfl
    split
    · rfl
    have hmod := Int64.toInt_mod (Int64.ofInt a.val) (Int64.ofInt b.val)
    refine congrArg _ (hwrap _ _ ?_)
    have hlo := Int64.le_toInt (Int64.ofInt a.val % Int64.ofInt b.val)
    have hhi := Int64.toInt_lt (Int64.ofInt a.val % Int64.ofInt b.val)
    have hsame : (Int64.ofInt a.val % Int64.ofInt b.val).toInt.bmod (2 ^ 64) =
        (Int64.ofInt a.val % Int64.ofInt b.val).toInt :=
      Int.bmod_eq_of_le (m := 2 ^ 64) (by omega) (by omega)
    rw [hmod, ha, hb] at hsame
    rw [hmod, ha, hb]
    exact hsame.symm

theorem arith_value (a b : Denoted) (op : Op) :
    arith (a.value : Value F) b.value op = (Denoted.arith op a b).map Denoted.value := by
  cases a with
  | num a =>
    cases b with
    | num b =>
      show (intArith (Int64.ofInt a.val) (Int64.ofInt b.val) op).map Value.int = _
      rw [intArith_ofInt]
      show _ = Except.map Denoted.value ((Denoted.arithInt op a b).map Denoted.num)
      cases Denoted.arithInt op a b <;> rfl
    | text s => rfl
  | text s => cases b <;> rfl

theorem negate_value (a : Denoted) :
    negate (a.value : Value F) = a.neg.map Denoted.value := by
  cases a with
  | num a =>
    have hmin : Int64.minValue.toInt = -2 ^ 63 := by decide
    show (if Int64.ofInt a.val = Int64.minValue then _ else _) = Except.map _ (if _ then _ else _)
    simp only [ofInt_eq_iff, hmin]
    split
    · rfl
    · refine congrArg (fun n => Except.ok (Value.int n)) ?_
      rw [← Int64.toInt_inj, Int64.toInt_neg, toInt_ofInt, toInt_ofInt]
      rfl
  | text s => rfl

omit [FloatOps F] in
theorem checkNumber_value (a : Denoted) :
    checkNumber (a.value : Value F) = a.pos.map Denoted.value := by
  cases a <;> rfl

theorem concat_value (a b : Denoted) :
    concat (a.value : Value F) b.value = (Denoted.concat a b).map Denoted.value := by
  show Except.ok (Value.str (a.value.display ++ b.value.display)) = _
  rw [display_value, display_value]
  rfl

/-! ## The parser reads a tree's tokens -/

/-- The parser at level `p`. -/
def levelParser (inner : Parser F) : Nat → Parser F
  | 0 => Climber.level concatOp (parseAdditive inner)
  | 1 => parseAdditive inner
  | 2 => parseTerm inner
  | _ => parseUnary inner

/-- The operators of level `p`. -/
def opAt : Nat → Token F → Option (Value F → Value F → Except ExprError (Value F))
  | 0 => concatOp
  | 1 => additiveOp
  | 2 => termOp
  | _ => fun _ => none

theorem levelParser_eq (inner : Parser F) {p : Nat} (hp : p < 3) :
    levelParser inner p = Climber.level (opAt p) (levelParser inner (p + 1)) := by
  match p, hp with
  | 0, _ => rfl
  | 1, _ => rfl
  | 2, _ => rfl

omit [FloatOps F] in
/-- A primary takes tokens off the input where the inner parser does. -/
theorem parsePrimary_consumes {inner : Parser F} (h : inner.Consumes) :
    (parsePrimary inner).Consumes := by
  intro ts v rest hr
  unfold parsePrimary at hr
  split at hr
  · cases hr
    exact Nat.lt_succ_self _
  · cases hr
    exact Nat.lt_succ_self _
  · cases hr
    exact Nat.lt_succ_self _
  · rename_i ts
    obtain ⟨r, hr, hclose⟩ := Climber.bind_eq_ok hr
    have := h _ _ _ hr
    split at hclose
    · rename_i rest' heq
      cases hclose
      rw [heq, List.length_cons] at this
      rw [List.length_cons]
      omega
    · cases hclose
  · cases hr
  · cases hr

theorem levelParser_consumes {inner : Parser F} (h : inner.Consumes) (p : Nat) :
    (levelParser inner p).Consumes := by
  have hunary : (parseUnary inner).Consumes :=
    Climber.prefixed_consumes (parsePrimary_consumes h)
  match p with
  | 0 => exact Climber.level_consumes (Climber.level_consumes (Climber.level_consumes hunary))
  | 1 => exact Climber.level_consumes (Climber.level_consumes hunary)
  | 2 => exact Climber.level_consumes hunary
  | _ + 3 => exact hunary

theorem parseInner_consumes (room : Nat) : (parseInner room : Parser F).Consumes := by
  induction room with
  | zero =>
    intro ts v rest h
    cases h
  | succ room ih => exact levelParser_consumes ih 0

/-- No operator tighter than level `p` follows. -/
def Stops (p : Nat) (rest : List (Token F)) : Prop :=
  ∀ q, p < q → ∀ t ∈ rest.head?, opAt q t = none

theorem Stops.mono {p q : Nat} {rest : List (Token F)} (h : Stops p rest) (hpq : p ≤ q) :
    Stops q rest := fun r hr => h r (by omega)

/-- At level `p` the tokens are read as an operand that denotes `d`, and the operators of
the level after it are read on. -/
def Reads (room p : Nat) (ts : List (Token F)) (d : Except ExprError Denoted) : Prop :=
  ∀ rest, Stops p rest → levelParser (parseInner room) p (ts ++ rest) =
    d >>= fun v => Climber.chain (opAt p) (levelParser (parseInner room) (p + 1)) v.value rest

namespace Reads

variable {room p q : Nat} {ts ts' : List (Token F)} {d d' : Except ExprError Denoted}

theorem looser (hp : p < 3) (h : Reads room (p + 1) ts d) : Reads room p ts d := by
  intro rest hrest
  rw [levelParser_eq _ hp, Climber.level, h rest (hrest.mono (Nat.le_succ p))]
  cases d with
  | error e => rfl
  | ok v =>
    show (Climber.chain (opAt (p + 1)) _ v.value rest >>= _) = _
    rw [Climber.chain_stop (hrest (p + 1) (Nat.lt_succ_self p))]
    rfl

theorem of_le (hpq : p ≤ q) (hq : q ≤ 3) (h : Reads room q ts d) : Reads room p ts d := by
  induction hpq using Nat.decreasingInduction with
  | self => exact h
  | of_succ k hk ih => exact looser (by omega) ih

/-- To read at the level of the prefix signs is to parse before any rest. -/
theorem unary_iff : Reads room 3 ts d ↔ ∀ rest,
    parseUnary (parseInner room) (ts ++ rest) = d >>= fun v => .ok (v.value, rest) := by
  have hstops : ∀ rest, Stops (F := F) 3 rest := fun rest q hq t _ => by
    match q, hq with
    | _ + 4, _ => rfl
  have hchain : ∀ rest, (fun v : Denoted => Climber.chain (opAt 3)
      (levelParser (parseInner room) 4) (v.value : Value F) rest) =
        fun v => .ok (v.value, rest) := by
    intro rest
    funext v
    exact Climber.chain_stop fun t _ => rfl
  constructor
  · intro h rest
    have := h rest (hstops rest)
    rwa [hchain] at this
  · intro h rest _
    rw [hchain]
    exact h rest

theorem int (n : I64) : Reads (F := F) room 3 [.int (Int64.ofInt n.val)] (.ok (.num n)) :=
  unary_iff.mpr fun rest => Climber.prefixed_none fun t ht => by
    cases ht
    rfl

theorem str (s : List Char) : Reads (F := F) room 3 [.str s] (.ok (.text s)) :=
  unary_iff.mpr fun rest => Climber.prefixed_none fun t ht => by
    cases ht
    rfl

/-- A parenthesis is read one level deeper. -/
theorem parens (h : Reads room 0 ts d) :
    Reads (room + 1) 3 (.lparen :: (ts ++ [.rparen])) d := by
  refine unary_iff.mpr fun rest => ?_
  have hstops : Stops 0 (Token.rparen :: rest : List (Token F)) := fun q _ t ht => by
    cases ht
    match q with
    | 0 => rfl
    | 1 => rfl
    | 2 => rfl
    | _ + 3 => rfl
  have hinner : parseInner (room + 1) (ts ++ .rparen :: rest) =
      d >>= fun v => .ok (v.value, .rparen :: rest) := by
    have := h (.rparen :: rest) hstops
    rw [show levelParser (parseInner room) 0 = parseInner (room + 1) from rfl] at this
    rw [this]
    cases d with
    | error e => rfl
    | ok v =>
      refine Climber.chain_stop fun t ht => ?_
      cases ht
      rfl
  show parseUnary _ (.lparen :: (ts ++ [.rparen] ++ rest)) = _
  rw [parseUnary, Climber.prefixed_none (fun t ht => by cases ht; rfl), List.append_assoc,
    List.singleton_append]
  show (parseInner (room + 1) (ts ++ .rparen :: rest) >>= _) = _
  rw [hinner]
  cases d <;> rfl

theorem sign {t : Token F} {f : Value F → Except ExprError (Value F)}
    {g : Denoted → Except ExprError Denoted} (ht : signOp t = some f)
    (hg : ∀ v : Denoted, f v.value = (g v).map Denoted.value) (h : Reads room 3 ts d) :
    Reads room 3 (t :: ts) (d >>= g) := by
  refine unary_iff.mpr fun rest => ?_
  rw [List.cons_append, parseUnary, Climber.prefixed_sign ht]
  have := unary_iff.mp h rest
  rw [parseUnary] at this
  rw [this]
  cases d with
  | error e => rfl
  | ok v =>
    show (f v.value >>= fun w => .ok (w, rest)) = (g v >>= fun v => .ok (v.value, rest))
    rw [hg]
    cases g v <;> rfl

/-- A binary operator reads its left operand at its own level, its right one above. -/
theorem binary {t : Token F} {f : Value F → Value F → Except ExprError (Value F)}
    {g : Denoted → Denoted → Except ExprError Denoted} (ht : opAt p t = some f)
    (hstop : Stops p [t]) (hg : ∀ v w : Denoted, f v.value w.value = (g v w).map Denoted.value)
    (hl : Reads room p ts d) (hr : Reads room (p + 1) ts' d') :
    Reads room p (ts ++ t :: ts') (d >>= fun v => d' >>= fun w => g v w) := by
  intro rest hrest
  have hnext := levelParser_consumes (parseInner_consumes (F := F) room) (p + 1)
  rw [List.append_assoc, List.cons_append, 
    hl (t :: (ts' ++ rest)) fun q hq x hx => hstop q hq x hx]
  cases d with
  | error e => rfl
  | ok v =>
    show Climber.chain _ _ v.value (t :: (ts' ++ rest)) = (d' >>= fun w => g v w) >>= _
    rw [Climber.chain_op hnext ht, hr rest (hrest.mono (Nat.le_succ p))]
    cases d' with
    | error e => rfl
    | ok w =>
      show (Climber.chain (opAt (p + 1)) _ w.value rest >>= _) = (g v w >>= _)
      rw [Climber.chain_stop (hrest (p + 1) (Nat.lt_succ_self p))]
      show (f v.value w.value >>= _) = _
      rw [hg]
      cases g v w <;> rfl

end Reads

end

namespace Tree

variable {F : Type} [FloatOps F]

theorem reads_paren {e : Tree} {room p : Nat} (hp : p ≤ 3)
    (h : ∀ room, e.nesting ≤ room → Reads (F := F) room (min e.prec 3) e.toks e.denote)
    (hroom : e.nesting + (if e.prec < p then 1 else 0) ≤ room) :
    Reads (F := F) room p (paren .lparen .rparen p e.prec e.toks) e.denote := by
  unfold paren
  split
  · rename_i hlt
    rw [if_pos hlt] at hroom
    match room, hroom with
    | room + 1, hroom =>
      exact .of_le hp (Nat.le_refl 3) (.parens (.of_le (Nat.zero_le _) (by omega) (h room (by omega))))
  · rename_i hge
    exact .of_le (by omega) (by omega) (h room (by omega))

theorem stops_token {p : Nat} (op : Op) (hp : op.prec ≤ p) : Stops (F := F) p [op.token] := by
  intro q hq t ht
  cases ht
  cases op <;> match q, hq with
    | 0, hq => omega
    | 1, hq => first | rfl | exact absurd hp (by simp only [Op.prec]; omega)
    | 2, hq => first | rfl | exact absurd hp (by simp only [Op.prec]; omega)
    | _ + 3, _ => rfl

/-- The parser reads the tokens of a tree as what the tree denotes. -/
theorem reads_toks (e : Tree) {room : Nat} (h : e.nesting ≤ room) :
    Reads (F := F) room (min e.prec 3) e.toks e.denote := by
  induction e generalizing room with
  | int n => exact .int ⟨n.val, by omega⟩
  | str q s => exact .str s
  | neg e ih =>
    exact .sign rfl negate_value (reads_paren (Nat.le_refl 3) (fun room => ih) h)
  | pos e ih =>
    exact .sign rfl checkNumber_value (reads_paren (Nat.le_refl 3) (fun room => ih) h)
  | arith op l r ihl ihr =>
    have hl : l.nesting + (if l.prec < op.prec then 1 else 0) ≤ room :=
      Nat.le_trans (Nat.le_max_left _ _) h
    have hr : r.nesting + (if r.prec < op.prec + 1 then 1 else 0) ≤ room :=
      Nat.le_trans (Nat.le_max_right _ _) h
    have hprec : op.prec < 3 := by cases op <;> decide
    have hop : opAt op.prec (op.token : Token F) = some fun l r => Expr.arith l r op := by
      cases op <;> rfl
    rw [prec, Nat.min_eq_left (Nat.le_of_lt hprec)]
    exact .binary hop (stops_token op (Nat.le_refl _)) (fun v w => arith_value v w op)
      (reads_paren (by omega) (fun room => ihl) hl) (reads_paren (by omega) (fun room => ihr) hr)
  | concat l r ihl ihr =>
    have hl : l.nesting + (if l.prec < 0 then 1 else 0) ≤ room := Nat.le_trans (Nat.le_max_left _ _) h
    have hr : r.nesting + (if r.prec < 1 then 1 else 0) ≤ room :=
      Nat.le_trans (Nat.le_max_right _ _) h
    have hstop : Stops (F := F) 0 [.dot] := by
      intro q hq t ht
      cases ht
      match q, hq with
      | 1, _ => rfl
      | 2, _ => rfl
      | _ + 3, _ => rfl
    rw [prec, Nat.zero_min]
    exact .binary rfl hstop concat_value (reads_paren (Nat.zero_le 3) (fun room => ihl) hl)
      (reads_paren (by decide) (fun room => ihr) hr)

end Tree

/-! ## The lexer reads a tree's text -/

/-- What follows a literal: nothing, or a character that goes on with none. -/
def EndsLiteral (rest : List Char) : Prop :=
  ∀ c ∈ rest.head?, c ∈ [' ', '+', '-', '*', '/', '%', ')']

section
variable {F : Type} [FloatOps F]

/-- The text is lexed as the tokens, whatever ends a literal after it. -/
def Lexes (cs : List Char) (ts : List (Token F)) : Prop :=
  ∀ rest, EndsLiteral rest → lex (cs ++ rest) = (lex rest).map fun ts' => ts ++ ts'

theorem map_map {ε α β γ : Type} (x : Except ε α) (f : α → β) (g : β → γ) :
    (x.map f).map g = x.map fun a => g (f a) := by
  cases x <;> rfl

theorem lex_op {c : Char} {t : Token F} (hc : isBlank c = false) (ht : opToken c = some t)
    (rest : List Char) : lex (c :: rest) = (lex rest).map fun ts => t :: ts := by
  refine lex_cons (t := some t) ?_
  rw [lexStep, hc, ht]
  rfl

theorem lex_space (rest : List Char) : lex (F := F) (' ' :: rest) = lex rest := by
  have hstep : lexStep (F := F) ' ' rest = .ok (none, rest) := rfl
  rw [lex_cons hstep]
  cases lex (F := F) rest <;> rfl

namespace Lexes

variable {cs cs' : List Char} {ts ts' : List (Token F)}

theorem append (h : Lexes cs ts) (hends : ∀ rest, EndsLiteral (cs' ++ rest)) (h' : Lexes cs' ts') :
    Lexes (cs ++ cs') (ts ++ ts') := by
  intro rest hrest
  rw [List.append_assoc, h _ (hends rest), h' rest hrest, map_map]
  simp only [List.append_assoc]

theorem op {c : Char} {t : Token F} (hc : isBlank c = false) (ht : opToken c = some t)
    (h : Lexes cs ts) : Lexes (c :: cs) (t :: ts) := by
  intro rest hrest
  rw [List.cons_append, lex_op hc ht, h rest hrest, map_map]
  rfl

theorem space (h : Lexes cs ts) : Lexes (' ' :: cs) ts := by
  intro rest hrest
  rw [List.cons_append, lex_space, h rest hrest]

theorem closing : Lexes (F := F) [')'] [.rparen] := fun rest _ => lex_op rfl rfl rest

/-- The digits of a number. -/
theorem int (n : Fin (2 ^ 63)) :
    Lexes (F := F) (Nat.toDigits 10 n.val) [.int (Int64.ofInt n.val)] := by
  intro rest hrest
  have hdigits : ∀ c ∈ Nat.toDigits 10 n.val, c.isDigit = true := fun c hc =>
    Nat.isDigit_of_mem_toDigits (by decide) (by decide) hc
  obtain ⟨c, cs, hcs⟩ := List.exists_cons_of_ne_nil (Nat.toDigits_ne_nil (n := n.val) (b := 10))
  -- nothing after the digits goes on with the number
  have htake : rest.takeWhile Char.isDigit = [] ∧ rest.dropWhile Char.isDigit = rest ∧
      lexFraction rest = ([], rest) ∧ lexExponent rest = ([], rest) := by
    cases rest with
    | nil => exact ⟨rfl, rfl, rfl, rfl⟩
    | cons c rest =>
      have hc := hrest c rfl
      simp only [List.mem_cons, List.not_mem_nil, or_false] at hc
      rcases hc with rfl | rfl | rfl | rfl | rfl | rfl | rfl <;> exact ⟨rfl, rfl, rfl, rfl⟩
  obtain ⟨hnone, hall, hfraction, hexponent⟩ := htake
  have hnumber : lexNumber (F := F) (Nat.toDigits 10 n.val ++ rest) =
      .ok (.int (Int64.ofInt n.val), rest) := by
    unfold lexNumber
    rw [List.takeWhile_append_of_pos hdigits, List.dropWhile_append_of_pos hdigits, hnone, hall,
      hfraction]
    dsimp only
    rw [hexponent, if_neg (by simp), List.append_nil, List.append_nil, List.append_nil,
      Nat.ofDigitChars_ten_toDigits, if_pos n.isLt]
    rfl
  have hdigit : c.isDigit = true := hdigits c (by rw [hcs]; exact List.mem_cons_self)
  have hstep : lexStep (F := F) c (cs ++ rest) = .ok (some (.int (Int64.ofInt n.val)), rest) := by
    have hne : ∀ d : Char, d.isDigit = false → c ≠ d := by
      rintro d hd rfl
      rw [hd] at hdigit
      cases hdigit
    have hblank : isBlank c = false := by
      simp [isBlank, hne ' ' rfl, hne '\t' rfl, hne '\r' rfl, hne '\n' rfl]
    have hop : opToken (F := F) c = none := by
      simp [opToken, hne '+' rfl, hne '-' rfl, hne '*' rfl, hne '/' rfl, hne '%' rfl, hne '.' rfl,
        hne '(' rfl, hne ')' rfl]
    rw [hcs, List.cons_append] at hnumber
    rw [lexStep, hblank, hop]
    simp only [hne '\'' rfl, hne '"' rfl, hdigit, hnumber]
    rfl
  rw [hcs, List.cons_append, lex_cons hstep]
  rfl

theorem single_body {s rest : List Char} (h : ∀ c ∈ rest.head?, c ≠ '\'') :
    lexSingleQuote (s.flatMap doubled ++ '\'' :: rest) = .ok (s, rest) := by
  induction s with
  | nil =>
    rw [List.flatMap_nil, List.nil_append, lexSingleQuote]
    rintro rest' rfl
    exact h '\'' rfl rfl
  | cons c s ih =>
    rw [List.flatMap_cons, List.append_assoc]
    by_cases hc : c = '\''
    · subst hc
      rw [doubled, if_pos rfl, List.cons_append, List.cons_append, List.nil_append, lexSingleQuote, ih]
      rfl
    · rw [doubled, if_neg hc, List.singleton_append, lexSingleQuote, ih]
      · rfl
      · exact fun rest' hq _ => hc hq
      · exact hc

/-- A string written in double quotes, with its escapes, is read back. -/
theorem double_body (s rest : List Char) :
    lexDoubleQuote (s.flatMap escaped ++ '"' :: rest) = .ok (s, rest) := by
  induction s with
  | nil => rfl
  | cons c s ih =>
    -- an escape is read back as the character it was written for
    have hesc : ∀ e, unescape e = c → escaped c = ['\\', e] →
        lexDoubleQuote (escaped c ++ (s.flatMap escaped ++ '"' :: rest)) = .ok (c :: s, rest) := by
      intro e he hc
      rw [hc, List.cons_append, List.cons_append, List.nil_append, lexDoubleQuote, ih, he]
      rfl
    rw [List.flatMap_cons, List.append_assoc]
    by_cases hself : c = '"' ∨ c = '\\'
    · refine hesc c ?_ (by rw [escaped, if_pos hself])
      rcases hself with rfl | rfl <;> rfl
    by_cases hn : c = '\n'
    · subst hn
      exact hesc 'n' rfl rfl
    by_cases ht : c = '\t'
    · subst ht
      exact hesc 't' rfl rfl
    by_cases hr : c = '\r'
    · subst hr
      exact hesc 'r' rfl rfl
    obtain ⟨hquote, hslash⟩ := not_or.mp hself
    rw [escaped, if_neg hself, if_neg hn, if_neg ht, if_neg hr, List.singleton_append,
      lexDoubleQuote, ih]
    · rfl
    · exact hquote
    · exact fun _ _ h _ => hslash h

/-- A quoted string lexes to its token, in either quotes. -/
theorem str (q : Quote) (s : List Char) : Lexes (F := F) (quoted q s) [.str s] := by
  intro rest hrest
  cases q with
  | single =>
    have hbody : lexSingleQuote (s.flatMap doubled ++ '\'' :: rest) = .ok (s, rest) := by
      refine single_body fun c hc => ?_
      rintro rfl
      have := hrest _ hc
      simp at this
    rw [quoted, List.cons_append, List.append_assoc, List.singleton_append]
    refine lex_cons (t := some (.str s)) ?_
    show (lexSingleQuote _).map _ = _
    rw [hbody]
    rfl
  | double =>
    rw [quoted, List.cons_append, List.append_assoc, List.singleton_append]
    refine lex_cons (t := some (.str s)) ?_
    show (lexDoubleQuote _).map _ = _
    rw [double_body]
    rfl

end Lexes

namespace Tree

theorem lexes_paren {e : Tree} (p : Nat) (h : Lexes (F := F) e.text e.toks) :
    Lexes (F := F) (paren '(' ')' p e.prec e.text) (paren .lparen .rparen p e.prec e.toks) := by
  unfold paren
  split
  · refine .op rfl rfl (.append h (fun rest c hc => ?_) .closing)
    cases hc
    simp
  · exact h

omit [FloatOps F] in
theorem op_char (op : Op) : isBlank op.char = false ∧ opToken (F := F) op.char = some op.token ∧
    op.char ∈ [' ', '+', '-', '*', '/', '%', ')'] := by
  cases op <;> exact ⟨rfl, rfl, by decide⟩

/-- The lexer takes the text of a tree apart into its tokens. -/
theorem lexes_text (e : Tree) : Lexes (F := F) e.text e.toks := by
  induction e with
  | int n => exact .int n
  | str q s => exact .str q s
  | neg e ih => exact .op rfl rfl (lexes_paren 3 ih)
  | pos e ih => exact .op rfl rfl (lexes_paren 3 ih)
  | arith op l r ihl ihr =>
    obtain ⟨hblank, hop, hends⟩ := op_char (F := F) op
    refine .append (lexes_paren _ ihl) (fun rest c hc => ?_) (.op hblank hop (lexes_paren _ ihr))
    cases hc
    exact hends
  | concat l r ihl ihr =>
    refine .append (lexes_paren _ ihl) (fun rest c hc => ?_)
      (.space (.op rfl rfl (.space (lexes_paren _ ihr))))
    cases hc
    simp

/-- The written text of an expression is no blank text. -/
theorem trim_text (e : Tree) : Persist.trim e.text ≠ [] := by
  have hmark : ∃ c ∈ e.text, Persist.isWhitespace c = false := by
    cases e with
    | int n =>
      obtain ⟨c, cs, hcs⟩ := List.exists_cons_of_ne_nil (Nat.toDigits_ne_nil (n := n.val) (b := 10))
      have hmem : c ∈ Nat.toDigits 10 n.val := by
        rw [hcs]
        exact List.mem_cons_self
      have hdigit := Nat.isDigit_of_mem_toDigits (by decide) (by decide) hmem
      refine ⟨c, hmem, ?_⟩
      simp only [Char.isDigit, ge_iff_le, Bool.and_eq_true, decide_eq_true_eq,
        UInt32.le_iff_toNat_le] at hdigit
      simp only [Persist.isWhitespace, Char.toNat]
      simp at hdigit ⊢
      omega
    | str q s =>
      cases q with
      | single => exact ⟨'\'', List.mem_cons_self, rfl⟩
      | double => exact ⟨'"', List.mem_cons_self, rfl⟩
    | neg e => exact ⟨'-', List.mem_cons_self, rfl⟩
    | pos e => exact ⟨'+', List.mem_cons_self, rfl⟩
    | arith op l r =>
      refine ⟨op.char, List.mem_append_right _ List.mem_cons_self, ?_⟩
      cases op <;> rfl
    | concat l r => exact ⟨'.', List.mem_append_right _ (by simp), rfl⟩
  obtain ⟨c, hc, hmark⟩ := hmark
  intro htrim
  have hall := List.rdropWhile_eq_nil_iff.mp htrim
  have hnil : e.text.dropWhile Persist.isWhitespace = [] := by
    by_contra hne
    have hhead := List.head_dropWhile_not Persist.isWhitespace hne
    rw [hall _ (List.head_mem hne)] at hhead
    cases hhead
  have := List.dropWhile_eq_nil_iff.mp hnil c hc
  rw [hmark] at this
  cases this

/-- The evaluator computes what the tree denotes, or gives its error. -/
theorem eval_text (e : Tree) (h : e.nesting < maxDepth) :
    eval F e.text = e.denote.map Denoted.display := by
  have hlex : lex (F := F) e.text = .ok e.toks := by
    have := lexes_text (F := F) e [] (fun c hc => by cases hc)
    rw [List.append_nil, lex] at this
    rw [this]
    show Except.ok (e.toks ++ []) = _
    rw [List.append_nil]
  have hparse : parseConcat (F := F) e.toks = e.denote.map fun v => (v.value, []) := by
    have hreads : Reads (F := F) 999 0 e.toks e.denote :=
      .of_le (Nat.zero_le _) (Nat.min_le_right _ _) (reads_toks e (by simp [maxDepth] at h; omega))
    have := hreads [] fun q _ t ht => by cases ht
    rw [List.append_nil] at this
    rw [show parseConcat (F := F) = levelParser (parseInner 999) 0 from rfl, this]
    cases e.denote with
    | error err => rfl
    | ok v => exact Climber.chain_stop fun t ht => by cases ht
  rw [eval, if_neg (trim_text e), hlex]
  show (parseConcat e.toks >>= _) = _
  rw [hparse]
  cases e.denote with
  | error err => rfl
  | ok v =>
    show Except.ok v.value.display = _
    rw [display_value]
    rfl

end Tree

end

/-! ## The floats of the machine -/

def floatOfText (text : List Char) : Float :=
  let fraction := lexFraction (text.dropWhile Char.isDigit)
  let exponent := lexSign ((lexExponent fraction.2).1.drop 1)
  let mantissa := Nat.ofDigitChars 10 (text.takeWhile Char.isDigit ++ fraction.1.drop 1) 0
  let shift : Int := Nat.ofDigitChars 10 exponent.2 0
  let scale := (if exponent.1 = ['-'] then -shift else shift) - (fraction.1.drop 1).length
  if scale < 0 then Float.ofScientific mantissa true scale.natAbs
  else Float.ofScientific mantissa false scale.natAbs

instance : FloatOps Float where
  parse text := some (floatOfText text)
  ofInt := Int64.toFloat
  add := Float.add
  sub := Float.sub
  mul := Float.mul
  div := Float.div
  neg := Float.neg
  isZero f := f == 0
  display f := f.toString.toList

namespace Tree

/-- `(1+2)*3` is 9. -/
theorem eval_text_product : eval Float "(1+2)*3".toList = .ok "9".toList :=
  eval_text (F := Float) (.arith .star (.arith .plus (.int 1) (.int 2)) (.int 3)) (by decide)

/-- A comparison is no expression of this grammar: its sign begins no token. -/
theorem eval_comparison :
    eval Float "1<2".toList = .error (.parse "unexpected character '<'") := by
  have hstep : lexStep (F := Float) '1' ['<', '2'] = .ok (some (.int 1), ['<', '2']) := rfl
  have herror : lexStep (F := Float) '<' ['2'] = .error (.parse "unexpected character '<'") := by
    show Except.error (ExprError.parse ("unexpected character " ++ charDebug '<')) = _
    rw [show charDebug '<' = "'<'" by decide]
    rfl
  rw [show "1<2".toList = ['1', '<', '2'] from rfl, eval, if_neg (by decide), lex_cons hstep,
    lex_error herror]
  rfl

end Tree

end Ruse.Core.Expr
