import Ruse.Core.Anchor
import Ruse.Lib.Fenwick

/-!
# The anchor store

The model of `AnchorStore` in `crates/core/src/anchor.rs`: generation-checked
slots, the order of the live slots by offset, and a Fenwick tree of the shifts
pending at each rank. An edit touches the anchors of the regions it reaches and
adds its delta to every rank past them; inserts and removes only mark the order
stale.

A stored offset is the anchor's offset less the shift pending at its rank, which
may lie below zero; the source keeps it in two's complement, the model in `Int`.
-/

namespace Ruse.Core

open Ruse.Lib

/-- A generation-checked handle into the store. -/
structure AnchorId where
  slot : Nat
  gen : Nat
deriving DecidableEq, Repr

/-- An anchor resolved to a position. -/
structure Resolved where
  offset : Nat
  invalidated : Bool
deriving DecidableEq, Repr

/-- A stored anchor. `rank` is its index in the order, `none` until the next
normalize. -/
structure Anchor where
  offset : Int
  track : Track
  policy : AnchorPolicy
  invalidated : Bool
  rank : Option Nat
deriving DecidableEq, Repr

structure Slot where
  gen : Nat
  anchor : Option Anchor
deriving DecidableEq, Repr

/-- The number of values of the source's `u32` generation counter. -/
def genModulus : Nat := 2 ^ 32

/-! ## The pending shifts -/

/-- A Fenwick tree of pending shifts over anchor ranks. -/
abbrev Shifts := List Int

namespace Shifts

def reset (n : Nat) : Shifts := List.replicate n 0

/-- Add `d` to every rank `≥ r`. -/
def addFrom (t : Shifts) (r : Nat) (d : Int) : Shifts := Fenwick.add t r d

/-- The shift pending at rank `r`. -/
def at' (t : Shifts) (r : Nat) : Int := Fenwick.sum t r

end Shifts

/-- One authoritative per-document anchor store. -/
structure AnchorStore where
  slots : List Slot
  free : List Nat
  /-- Live slot indices by rank, ascending by offset while not `stale`. -/
  order : List Nat
  shift : Shifts
  stale : Bool

/-- One anchor of a touched region after an edit: its new offset, its slot, and
whether the edit lost it. -/
structure MovedAnchor where
  dest : Nat
  slot : Nat
  gone : Bool
deriving DecidableEq, Repr

/-- A touched region in old offsets, both ends included, with its delta. -/
structure Region where
  ws : Nat
  we : Nat
  delta : Int
deriving DecidableEq, Repr

/-- What `apply` plans for one region: the ranks `[lo, hi)` and where their
anchors go, by new offset. -/
structure RegionPlan where
  lo : Nat
  hi : Nat
  moved : List MovedAnchor

/-- Where the anchor `a`, now at `o`, goes through a change, and whether that
loses it. -/
def mapAnchor (a : Anchor) (o : Nat) (m : LineMap) : Nat × Bool :=
  match a.track with
  | .line g =>
    match m.mapOffset o g with
    | some p => (p, false)
    | none => ((m.mapOffset o .keep).getD 0, true)
  | .byte bias =>
    let (p, inside) := mapByteInside m.edits o bias
    (p, inside && a.policy == .invalidate)

/-- The count of leading `r` in `lo..hi` with `pred r`, by bisection. -/
def partitionLoop (pred : Nat → Bool) : Nat → Nat → Nat → Nat
  | 0, lo, _ => lo
  | fuel + 1, lo, hi =>
    if lo < hi then
      let mid := (lo + hi) / 2
      if pred mid then partitionLoop pred fuel (mid + 1) hi
      else partitionLoop pred fuel lo mid
    else lo

/-- The count of leading `r` in `0..n` with `pred r` (a monotone predicate). -/
def partition (n : Nat) (pred : Nat → Bool) : Nat := partitionLoop pred n 0 n

namespace AnchorStore

def new : AnchorStore := ⟨[], [], [], [], false⟩

def insertTracked (s : AnchorStore) (offset : Nat) (track : Track) (policy : AnchorPolicy) :
    AnchorStore × AnchorId :=
  let anchor : Anchor :=
    { offset := offset, track, policy, invalidated := false, rank := none }
  match s.free.getLast? with
  | some slot =>
    ({ s with
        free := s.free.dropLast
        slots := s.slots.modify slot fun sl => { sl with anchor := some anchor }
        stale := true },
      ⟨slot, (s.slots.getD slot ⟨0, none⟩).gen⟩)
  | none =>
    ({ s with slots := s.slots ++ [⟨0, some anchor⟩], stale := true }, ⟨s.slots.length, 0⟩)

def insert (s : AnchorStore) (offset : Nat) (bias : Bias) (policy : AnchorPolicy) :
    AnchorStore × AnchorId := s.insertTracked offset (.byte bias) policy

def insertLine (s : AnchorStore) (offset : Nat) (gravity : LineGravity) :
    AnchorStore × AnchorId := s.insertTracked offset (.line gravity) .clamp

/-- The anchor `id` names, if it is live. -/
def get (s : AnchorStore) (id : AnchorId) : Option Anchor :=
  match s.slots[id.slot]? with
  | some sl => if sl.gen = id.gen then sl.anchor else none
  | none => none

/-- Remove an anchor, freeing its slot. Whether the id was live. -/
def remove (s : AnchorStore) (id : AnchorId) : AnchorStore × Bool :=
  if (s.get id).isSome then
    ({ s with
        slots := s.slots.modify id.slot fun sl =>
          { gen := (sl.gen + 1) % genModulus, anchor := none }
        free := s.free ++ [id.slot]
        stale := true },
      true)
  else (s, false)

/-- The absolute offset of `a`: its stored offset plus the shift pending at its
rank. -/
def offsetOf (s : AnchorStore) (a : Anchor) : Nat :=
  match a.rank with
  | none => a.offset.toNat
  | some r => (a.offset + s.shift.at' r).toNat

/-- Resolve `id`, or `none` if it is not live. -/
def tryResolve (s : AnchorStore) (id : AnchorId) : Option Resolved :=
  (s.get id).map fun a => ⟨s.offsetOf a, a.invalidated⟩

def len (s : AnchorStore) : Nat := s.slots.length - s.free.length

/-- The anchor in a slot; an empty slot, where the source panics, reads as an
anchor at 0. -/
def anchorIn (s : AnchorStore) (slot : Nat) : Anchor :=
  ((s.slots[slot]?).bind Slot.anchor).getD ⟨0, .byte .after, .clamp, false, none⟩

/-- The live slots with their offsets, ascending by both. -/
def ranked (s : AnchorStore) : List (Nat × Nat) :=
  let live := (List.range s.slots.length).filterMap fun i =>
    ((s.slots[i]?).bind Slot.anchor).map fun a => (s.offsetOf a, i)
  live.insertionSort fun a b => a.1 < b.1 ∨ (a.1 = b.1 ∧ a.2 ≤ b.2)

/-- Put the anchor of `slot` at `offset` on rank `r`. -/
def place (slots : List Slot) (slot : Nat) (offset : Int) (r : Nat) (gone : Bool) : List Slot :=
  slots.modify slot fun sl =>
    { sl with
      anchor := sl.anchor.map fun a =>
        { a with offset, rank := some r, invalidated := a.invalidated || gone } }

/-- Rebuild the order: fold every pending shift in and sort once. -/
def normalize (s : AnchorStore) : AnchorStore :=
  let live := s.ranked
  { s with
    slots := (live.zipIdx).foldl (fun slots p => place slots p.1.2 p.1.1 p.2 false) s.slots
    order := live.map Prod.snd
    shift := Shifts.reset live.length
    stale := false }

/-- The absolute offset of the anchor at rank `r`. -/
def atRank (s : AnchorStore) (r : Nat) : Nat :=
  ((s.anchorIn (s.order.getD r 0)).offset + s.shift.at' r).toNat

/-- The lines an edit touches, with one line either side. -/
def editRegion (m : LineMap) (e : Edit) : Region :=
  let ls := lineStart m.old e.pos
  let le := lineEnd m.old e.endPos
  ⟨lineStart m.old (ls - 1), lineEnd m.old (le + 1), e.delta⟩

/-- Append a region, merged with the last one when they meet. -/
def pushRegion (regions : List Region) (r : Region) : List Region :=
  match regions.getLast? with
  | some last =>
    -- regions that touch are one: an anchor between them is mapped once
    if r.ws ≤ last.we then
      regions.dropLast ++ [⟨last.ws, max last.we r.we, last.delta + r.delta⟩]
    else regions ++ [r]
  | none => [r]

/-- The touched regions, left to right. -/
def regions (m : LineMap) : List Region := (m.edits.map (editRegion m)).foldl pushRegion []

/-- Find and map one region's anchors, from the order as it stands. -/
def planRegion (s : AnchorStore) (m : LineMap) (r : Region) : RegionPlan :=
  let n := s.order.length
  let lo := partition n fun k => s.atRank k < r.ws
  let hi := lo + partition (n - lo) fun k => s.atRank (lo + k) ≤ r.we
  let moved := (List.range' lo (hi - lo)).map fun k =>
    let slot := s.order.getD k 0
    let (dest, gone) := mapAnchor (s.anchorIn slot) (s.atRank k) m
    ⟨dest, slot, gone⟩
  ⟨lo, hi, moved.insertionSort fun a b => a.dest ≤ b.dest⟩

/-- Write one moved anchor back at rank `r`, stored less `left` and the shift
pending there. -/
def writeOne (left : Int) (s : AnchorStore) (p : MovedAnchor × Nat) : AnchorStore :=
  let (mv, r) := p
  { s with
    order := s.order.set r mv.slot
    slots := place s.slots mv.slot ((mv.dest : Int) - left - s.shift.at' r) r mv.gone }

/-- Write one region back, `left` being the summed delta of the regions left of
it, and add its delta to every rank past it. -/
def writeRegion (s : AnchorStore) (plan : RegionPlan) (delta left : Int) : AnchorStore :=
  let s := (plan.moved.zipIdx plan.lo).foldl (writeOne left) s
  { s with shift := s.shift.addFrom plan.hi delta }

/-- Write the regions back, right to left. -/
def writeRegions (s : AnchorStore) : List (RegionPlan × Region) → Int → AnchorStore
  | [], _ => s
  | (plan, r) :: rest, left =>
    writeRegion (writeRegions s rest (left + r.delta)) plan r.delta left

/-- The ranks `r - 1` and `r` are out of order. -/
def inverted (s : AnchorStore) (n r : Nat) : Bool :=
  r > 0 && r < n && decide (s.atRank (r - 1) > s.atRank r)

/-- Carry every live anchor across one change from `old` to `new`. -/
def applyChange (s : AnchorStore) (old new : Bytes) (edits : EditList) : AnchorStore :=
  if edits.edits.isEmpty ∨ s.len = 0 then s
  else
    let m : LineMap := ⟨old, new, edits.edits⟩
    let s := if s.stale then s.normalize else s
    let rs := regions m
    let n := s.order.length
    let plans := rs.map (s.planRegion m)
    let s' := s.writeRegions (plans.zip rs) 0
    -- only an edge of a region can come out of order
    if plans.any fun p => s'.inverted n p.lo || s'.inverted n p.hi then
      { s' with stale := true }
    else s'

end AnchorStore

end Ruse.Core
