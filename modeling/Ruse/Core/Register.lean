import Ruse.Core.Edit
import Mathlib.Logic.Function.Basic

/-!
# The register store

The model of the writes of `crates/core/src/register.rs`: the unnamed slot, the
letters `a`–`z`, the yank register `"0`, the delete ring `"1`–`"9`, the small
delete `"-`, and the registers no yank or delete may name. `Op` lists the writes
and `step` performs one.
-/

namespace Ruse.Core

/-- The paste geometry a register carries. -/
inductive RegKind where
  | charwise
  | linewise
  | blockwise
deriving DecidableEq, Repr

/-- A captured span of text and its paste geometry. -/
structure Register where
  text : Bytes
  kind : RegKind
  /-- A block's width in screen cells, else 0. -/
  width : Nat
  /-- The register was written, maybe with nothing. -/
  set : Bool
deriving DecidableEq, Repr

namespace Register

/-- A register that was never written. -/
def default : Register := ⟨[], .charwise, 0, false⟩

def charwise (text : Bytes) : Register := ⟨text, .charwise, 0, true⟩

/-- Whole lines: the text is made to end in a newline. -/
def linewise (text : Bytes) : Register :=
  ⟨if text.getLast? = some newline then text else text ++ [newline], .linewise, 0, true⟩

def isLinewise (r : Register) : Bool := r.kind == .linewise

def isEmpty (r : Register) : Bool := r.text.isEmpty

/-- Append `add` onto `existing`, as an uppercase name does. -/
def append (existing add : Register) : Register :=
  if existing.isEmpty then add
  else
    let bytes :=
      if existing.isLinewise then existing.text ++ add.text
      else if add.isLinewise then existing.text ++ [newline] ++ add.text
      else existing.text ++ add.text
    if existing.isLinewise || add.isLinewise then linewise bytes else charwise bytes

end Register

/-- The register store. `expr` and the four of `special` are set by the frontend
only. -/
structure RegisterStore where
  unnamed : Register
  /-- The letter slot the unnamed register last took its content from. -/
  unnamedFrom : Option (Fin 26)
  named : Fin 26 → Register
  yank0 : Register
  numbered : Fin 9 → Register
  smallDelete : Register
  blackhole : Register
  clipboard : Register
  expr : Register
  special : Register × Register × Register × Register × Register

namespace RegisterStore

/-- A fresh store: every slot empty. -/
def new : RegisterStore where
  unnamed := .default
  unnamedFrom := none
  named := fun _ => .default
  yank0 := .default
  numbered := fun _ => .default
  smallDelete := .default
  blackhole := .default
  clipboard := .default
  expr := .default
  special := (.default, .default, .default, .default, .default)

/-- Whether a yank or delete may name `name`. -/
def isWritable (name : Option Char) : Bool :=
  name.all fun c =>
    c.isAlphanum || c == '"' || c == '-' || c == '_' || c == '#' || c == '+' || c == '*'

def index (name : Char) : Option (Fin 26) :=
  if name.isAlpha then some (Fin.ofNat 26 (name.toLower.toNat - 'a'.toNat)) else none

/-- The ring slot of `'1'`–`'9'`. -/
def digit (name : Char) : Option (Fin 9) :=
  if '1' ≤ name ∧ name ≤ '9' then some (Fin.ofNat 9 (name.toNat - '1'.toNat)) else none

/-- What a letter slot holds after `reg` is written under the name `c`. -/
def lettered (c : Char) (old reg : Register) : Register :=
  if c.isUpper then old.append reg else reg

/-- Write into the named slot and mirror it into the unnamed one. -/
def write (s : RegisterStore) (name : Option Char) (reg : Register) : RegisterStore :=
  if !isWritable name || name == some '_' then s
  else
    let s := { s with unnamedFrom := name.bind index }
    match name with
    | none => { s with unnamed := reg }
    | some c =>
      if c = '"' then { s with unnamed := reg }
      else if c = '0' ∨ c = '#' then { s with yank0 := reg, unnamed := reg }
      else
        match digit c with
        | some i => { s with numbered := Function.update s.numbered i reg, unnamed := reg }
        | none =>
          if c = '-' then { s with smallDelete := reg, unnamed := reg }
          else if c = '+' ∨ c = '*' then { s with clipboard := reg, unnamed := reg }
          else
            match index c with
            | some i =>
              let held := lettered c (s.named i) reg
              { s with named := Function.update s.named i held, unnamed := held }
            | none => s

/-- `rotate_right(1)`. -/
def rotateRight (ring : Fin 9 → Register) : Fin 9 → Register := fun i => ring (i - 1)

/-- Whether a delete of `reg` shifts the ring. -/
def shiftsRing (reg : Register) (ringOne : Bool) : Bool :=
  reg.isLinewise || reg.text.contains newline || ringOne

/-- A delete or change: the named slot first, then the ring, then `"-`. -/
def deleteRing (s : RegisterStore) (name : Option Char) (reg : Register) (ringOne : Bool) :
    RegisterStore :=
  if !isWritable name || name == some '_' then s
  else
    let multiline := reg.isLinewise || reg.text.contains newline
    let small := name.isNone && !multiline
    let s := if name.isSome then s.write name reg else s
    let s :=
      if multiline || ringOne then
        let s := { s with numbered := Function.update (rotateRight s.numbered) 0 reg }
        if !name.any Char.isUpper then { s with unnamed := reg, unnamedFrom := none } else s
      else s
    let s := if small then { s with smallDelete := reg } else s
    if name.isNone then { s with unnamed := reg, unnamedFrom := none } else s

def delete (s : RegisterStore) (name : Option Char) (reg : Register) : RegisterStore :=
  s.deleteRing name reg false

/-- Store a macro: no mirror into the unnamed slot, unless that one took its
content from the slot recorded. -/
def setMacro (s : RegisterStore) (name : Option Char) (reg : Register) : RegisterStore :=
  match name with
  | none => s
  | some c =>
    if c = '"' then { s with yank0 := reg, unnamed := reg, unnamedFrom := none }
    else if c = '0' then { s with yank0 := reg }
    else
      match digit c with
      | some i => { s with numbered := Function.update s.numbered i reg }
      | none =>
        match index c with
        | some i =>
          let held := lettered c (s.named i) reg
          let s := { s with named := Function.update s.named i held }
          if s.unnamedFrom = some i then { s with unnamed := held } else s
        | none => s

/-- A yank: an unregistered one also seeds `"0`. -/
def yank (s : RegisterStore) (name : Option Char) (reg : Register) : RegisterStore :=
  let s := if name.isNone then { s with yank0 := reg } else s
  s.write name reg

/-- Append a killed span onto the unnamed slot. -/
def killAppend (s : RegisterStore) (reg : Register) : RegisterStore :=
  { s with unnamed := s.unnamed.append reg }

/-- Prepend a killed span onto the unnamed slot. -/
def killPrepend (s : RegisterStore) (reg : Register) : RegisterStore :=
  { s with unnamed := reg.append s.unnamed }

/-- Store an evaluated expression: linewise when it ends in a newline. -/
def setExpr (s : RegisterStore) (result : Bytes) : RegisterStore :=
  { s with
    expr := if result.getLast? = some newline then .linewise result else .charwise result }

def get (s : RegisterStore) : Option Char → Register
  | none => s.unnamed
  | some c =>
    let (search, lastEx, inserted, file, alternate) := s.special
    if c = '0' then s.yank0
    else
      match digit c with
      | some i => s.numbered i
      | none =>
        if c = '-' then s.smallDelete
        else if c = '_' then s.blackhole
        else if c = '+' ∨ c = '*' then s.clipboard
        else if c = '=' then s.expr
        else if c = '/' then search
        else if c = ':' then lastEx
        else if c = '.' then inserted
        else if c = '%' then file
        else if c = '#' then alternate
        else if c = '"' then s.unnamed
        else
          match index c with
          | some i => s.named i
          | none => s.blackhole

/-! ## Runs -/

/-- The writes of the store, with their arguments. -/
inductive Op where
  | write (name : Option Char) (reg : Register)
  | yank (name : Option Char) (reg : Register)
  | deleteRing (name : Option Char) (reg : Register) (ringOne : Bool)
  | setMacro (name : Option Char) (reg : Register)
  | killAppend (reg : Register)
  | killPrepend (reg : Register)

def step (s : RegisterStore) : Op → RegisterStore
  | .write name reg => s.write name reg
  | .yank name reg => s.yank name reg
  | .deleteRing name reg ringOne => s.deleteRing name reg ringOne
  | .setMacro name reg => s.setMacro name reg
  | .killAppend reg => s.killAppend reg
  | .killPrepend reg => s.killPrepend reg

end RegisterStore

end Ruse.Core
