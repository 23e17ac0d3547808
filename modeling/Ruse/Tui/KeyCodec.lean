import Ruse.Core.LineText

/-!
# The macro key codec

The model of `apps/tui/src/keys.rs`: `encode` writes a key as the bytes a terminal would
send, or tagged by `0x80`; `decode` reads keys back and skips what it does not know. A
position in the bytes is what is left of them.
-/

namespace Ruse.Tui.Keys

open Ruse.Core (Bytes)

/-! ## Keys -/

inductive KeyCode where
  | backspace | enter | left | right | up | down | home | endKey | pageUp | pageDown
  | tab | backTab | delete | insert | esc | null | capsLock | scrollLock | numLock
  | printScreen | pause | menu | keypadBegin
  | f (n : UInt8)
  | char (c : Char)
  | media (n : Nat)
  | modifier (n : Nat)
deriving DecidableEq

structure KeyModifiers where
  shift : Bool
  control : Bool
  alt : Bool
  super : Bool
  hyper : Bool
  metaKey : Bool
deriving DecidableEq

namespace KeyModifiers

def none : KeyModifiers := ⟨false, false, false, false, false, false⟩

def onlyControl : KeyModifiers := { none with control := true }

def onlyAlt : KeyModifiers := { none with alt := true }

def onlySuper : KeyModifiers := { none with super := true }

def onlyHyper : KeyModifiers := { none with hyper := true }

def onlyMeta : KeyModifiers := { none with metaKey := true }

def union (a b : KeyModifiers) : KeyModifiers where
  shift := a.shift || b.shift
  control := a.control || b.control
  alt := a.alt || b.alt
  super := a.super || b.super
  hyper := a.hyper || b.hyper
  metaKey := a.metaKey || b.metaKey

def inter (a b : KeyModifiers) : KeyModifiers where
  shift := a.shift && b.shift
  control := a.control && b.control
  alt := a.alt && b.alt
  super := a.super && b.super
  hyper := a.hyper && b.hyper
  metaKey := a.metaKey && b.metaKey

def diff (a b : KeyModifiers) : KeyModifiers where
  shift := a.shift && !b.shift
  control := a.control && !b.control
  alt := a.alt && !b.alt
  super := a.super && !b.super
  hyper := a.hyper && !b.hyper
  metaKey := a.metaKey && !b.metaKey

/-- Whether all of `b` are held. -/
def contains (a b : KeyModifiers) : Bool := a.inter b == b

/-- `CARRIED`: the modifiers no plain byte holds. -/
def carried : KeyModifiers := (onlyAlt.union onlySuper).union (onlyHyper.union onlyMeta)

/-- `MOD_BITS`: the modifiers the tag carries, by bit. -/
def modBits : List (KeyModifiers × UInt8) :=
  [(onlyControl, 1), (onlyAlt, 2), (onlySuper, 4), (onlyHyper, 8), (onlyMeta, 16)]

def bits (m : KeyModifiers) : UInt8 :=
  (modBits.filter fun b => m.contains b.1).foldl (fun acc b => acc ||| b.2) 0

/-- The modifiers of bits, added to `m`. -/
def addBits (m : KeyModifiers) (bits : UInt8) : KeyModifiers :=
  modBits.foldl (fun m b => if bits &&& b.2 ≠ 0 then m.union b.1 else m) m

end KeyModifiers

inductive KeyEventKind where
  | press | repeated | released
deriving DecidableEq

structure KeyEvent where
  code : KeyCode
  modifiers : KeyModifiers
  kind : KeyEventKind
  state : UInt8
deriving DecidableEq

namespace KeyEvent

def new (code : KeyCode) (modifiers : KeyModifiers) : KeyEvent := ⟨code, modifiers, .press, 0⟩

def plain (code : KeyCode) : KeyEvent := new code .none

def ctrl (c : Char) : KeyEvent := new (.char c) .onlyControl

end KeyEvent

/-! ## Encoding -/

def modTag : UInt8 := 'm'.toUInt8

def fnTag : UInt8 := 'f'.toUInt8

def specialTags : List (KeyCode × UInt8) :=
  [(.up, 'A'.toUInt8), (.down, 'B'.toUInt8), (.right, 'C'.toUInt8), (.left, 'D'.toUInt8),
    (.home, 'H'.toUInt8), (.endKey, 'F'.toUInt8), (.pageUp, '5'.toUInt8),
    (.pageDown, '6'.toUInt8), (.delete, '3'.toUInt8), (.insert, '2'.toUInt8),
    (.backTab, 'Z'.toUInt8)]

def specialTag (code : KeyCode) : Option UInt8 :=
  (specialTags.find? fun t => t.1 == code).map (·.2)

def specialFromTag (tag : UInt8) : Option KeyCode :=
  (specialTags.find? fun t => t.2 == tag).map (·.1)

/-- The control byte of a character. -/
def controlByte (c : Char) : Option UInt8 :=
  if c.isAlpha then some (c.toLower.toUInt8 - 'a'.toUInt8 + 1)
  else if c = ' ' ∨ c = '@' ∨ c = '2' then some 0x00
  else if c = '[' then some 0x1b
  else if c = '\\' ∨ c = '4' then some 0x1c
  else if c = ']' ∨ c = '5' then some 0x1d
  else if c = '^' ∨ c = '6' then some 0x1e
  else if c = '_' ∨ c = '7' then some 0x1f
  else none

/-- `encode` for a key whose modifiers are at most Ctrl. -/
def plainBytes (key : KeyEvent) : Option Bytes :=
  if key.modifiers.contains .onlyControl then
    match key.code with
    | .char c => (controlByte c).map ([·])
    | _ => none
  else
    match key.code with
    | .char c => some (String.utf8EncodeChar c)
    | .enter => some [0x0d]
    | .tab => some [0x09]
    | .backspace => some [0x7f]
    | .esc => some [0x1b]
    | .f n => some [0x80, fnTag, n]
    | code => (specialTag code).map ([0x80, ·])

/-- Bytes with the modifiers the tag carries. -/
def tagged (extra : KeyModifiers) (bytes : Bytes) : Bytes :=
  if extra = .none then bytes else [0x80, modTag, extra.bits] ++ bytes

def encode (key : KeyEvent) : Option Bytes :=
  let extra := key.modifiers.inter .carried
  let base := key.modifiers.diff .carried
  match plainBytes (.new key.code base) with
  | some bytes => some (tagged extra bytes)
  | none =>
    if base.contains .onlyControl then
      (plainBytes (.new key.code (base.diff .onlyControl))).map
        (tagged (extra.union .onlyControl))
    else none

def encodeAll (keys : List KeyEvent) : Bytes := keys.flatMap fun k => (encode k).getD []

/-! ## Decoding -/

/-- `std::str::from_utf8`, and the first character. -/
def firstChar (bytes : Bytes) : Option Char :=
  (String.fromUTF8? bytes.toByteArray).bind fun s => s.toList.head?

/-- The bytes of a character by its first. -/
def utf8Width (lead : UInt8) : Nat :=
  if lead ≤ 0x7f then 1
  else if 0xc0 ≤ lead ∧ lead ≤ 0xdf then 2
  else if 0xe0 ≤ lead ∧ lead ≤ 0xef then 3
  else if 0xf0 ≤ lead ∧ lead ≤ 0xf7 then 4
  else 1

def controlKey (b : UInt8) : Option KeyEvent :=
  if b = 0x1b then some (.plain .esc)
  else if b = 0x0d then some (.plain .enter)
  else if b = 0x09 then some (.plain .tab)
  else if b = 0x7f then some (.plain .backspace)
  else if 0x01 ≤ b ∧ b ≤ 0x1a then some (.ctrl (Char.ofNat (b - 1 + 'a'.toUInt8).toNat))
  else if b = 0x00 then some (.ctrl ' ')
  else if 0x1c ≤ b ∧ b ≤ 0x1f then some (.ctrl (Char.ofNat (b - 0x1c + '4'.toUInt8).toNat))
  else none

/-- One key from `b` and the bytes after it, and the bytes it took. -/
def decodeOne (b : UInt8) (rest : Bytes) : Option KeyEvent × Nat :=
  match controlKey b with
  | some key => (some key, 1)
  | none =>
    if b = 0x80 then
      match rest with
      | [] => (none, 2)
      | tag :: rest =>
        if tag = fnTag then (rest.head?.map fun n => .plain (.f n), 3)
        else ((specialFromTag tag).map .plain, 2)
    else
      match firstChar ((b :: rest).take (utf8Width b)) with
      | some c => (some (.plain (.char c)), c.utf8Size)
      | none => (none, 1)

/-- A tagged key as `encode` would read it back. -/
def canonical (key : KeyEvent) : KeyEvent :=
  let extra := key.modifiers.inter .carried
  let base := key.modifiers.diff .carried
  if base.contains .onlyControl then
    match plainBytes (.new key.code base) with
    | some (b :: bytes) =>
      match decodeOne b bytes with
      | (some k, _) => { k with modifiers := k.modifiers.union extra }
      | (none, _) => key
    | _ => key
  else key

/-- A key with the modifiers of its tags. -/
def withTags (mods : KeyModifiers) (key : KeyEvent) : KeyEvent :=
  let tagged := { key with modifiers := key.modifiers.union mods }
  if mods = .none then tagged else canonical tagged

/-- The modifiers of the tags before a key, and what follows them. -/
def tags (mods : KeyModifiers) : Bytes → KeyModifiers × Bytes
  | b :: tag :: bits :: rest =>
    if b = 0x80 ∧ tag = modTag then tags (mods.addBits bits) rest
    else (mods, b :: tag :: bits :: rest)
  | [b, tag] => if b = 0x80 ∧ tag = modTag then (mods, []) else (mods, [b, tag])
  | bytes => (mods, bytes)

theorem tags_length_le (mods : KeyModifiers) (bytes : Bytes) :
    (tags mods bytes).2.length ≤ bytes.length := by
  fun_induction tags mods bytes with
  | case1 => simp_all; omega
  | case2 => simp
  | case3 => simp
  | case4 => simp
  | case5 => simp

def decode (bytes : Bytes) : List KeyEvent :=
  match _h : tags .none bytes with
  | (_, []) => []
  | (mods, b :: rest) =>
    let (key, width) := decodeOne b rest
    (key.map (withTags mods)).toList ++ decode (rest.drop (width - 1))
termination_by bytes.length
decreasing_by
  have hle := tags_length_le .none bytes
  rw [_h] at hle
  simp only [List.length_drop, List.length_cons] at hle ⊢
  omega

end Ruse.Tui.Keys
