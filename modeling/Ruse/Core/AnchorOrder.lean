import Ruse.Core.AnchorStore
import Ruse.Lib.Writes

/-!
# The order of the anchors

* `AnchorStore.Ordered` — what holds of the order while it is built: it lists every
  live anchor once, each at its own rank, ascending by offset;
* `Followed` — what there is to know of one anchor, and `AnchorStore.followed` reads
  it off the store;
* `AnchorStore.normalize_ordered` — a rebuild orders a store and moves no anchor.
-/

namespace Ruse.Core

open Ruse.Lib

variable {r slot : Nat} {a : Anchor}

structure Followed where
  pos : Nat
  track : Track
  policy : AnchorPolicy
  lost : Bool
deriving DecidableEq, Repr

/-- A slot with its anchor put on a rank. -/
def Slot.placed (offset : Int) (r : Nat) (gone : Bool) (sl : Slot) : Slot :=
  { sl with
    anchor := sl.anchor.map fun a =>
      { a with offset, rank := some r, invalidated := a.invalidated || gone } }

namespace AnchorStore

def anchorAt (s : AnchorStore) (slot : Nat) : Option Anchor := (s.slots[slot]?).bind Slot.anchor

def followed (s : AnchorStore) (a : Anchor) : Followed :=
  ⟨s.offsetOf a, a.track, a.policy, a.invalidated⟩

/-- The anchor of a slot, as one on its own. -/
def followedAt (s : AnchorStore) (slot : Nat) : Option Followed := (s.anchorAt slot).map s.followed

def genAt (s : AnchorStore) (slot : Nat) : Option Nat := (s.slots[slot]?).map Slot.gen

structure Ordered (s : AnchorStore) : Prop where
  ranks : s.shift.length = s.order.length
  ranked : ∀ r slot, s.order[r]? = some slot →
    ∃ a, s.anchorAt slot = some a ∧ a.rank = some r ∧ 0 ≤ a.offset + s.shift.at' r
  live : ∀ slot a, s.anchorAt slot = some a → ∃ r : Nat, s.order[r]? = some slot
  sorted : ∀ r, r + 1 < s.order.length → s.atRank r ≤ s.atRank (r + 1)

variable {s : AnchorStore}

theorem anchorIn_of_anchorAt (h : s.anchorAt slot = some a) :
    s.anchorIn slot = a := by
  unfold anchorIn
  rw [show (s.slots[slot]?).bind Slot.anchor = some a from h]
  rfl

theorem getD_order (h : s.order[r]? = some slot) : s.order.getD r 0 = slot := by
  rw [List.getD_eq_getElem?_getD, h, Option.getD_some]

theorem atRank_eq (hr : s.order[r]? = some slot) (ha : s.anchorAt slot = some a) :
    s.atRank r = (a.offset + s.shift.at' r).toNat := by
  rw [atRank, getD_order hr, anchorIn_of_anchorAt ha]

namespace Ordered

variable (h : s.Ordered)
include h

theorem rank_unique {r' : Nat} (hr : s.order[r]? = some slot) (hr' : s.order[r']? = some slot) :
    r = r' := by
  obtain ⟨a, ha, hrank, -⟩ := h.ranked r slot hr
  obtain ⟨a', ha', hrank', -⟩ := h.ranked r' slot hr'
  rw [ha] at ha'
  cases ha'
  rw [hrank] at hrank'
  exact Option.some.inj hrank'

theorem offsetOf_eq (hr : s.order[r]? = some slot) (ha : s.anchorAt slot = some a) :
    s.offsetOf a = s.atRank r := by
  obtain ⟨a', ha', hrank, -⟩ := h.ranked r slot hr
  rw [ha] at ha'
  cases ha'
  rw [atRank_eq hr ha, offsetOf, hrank]

theorem atRank_mono {r' : Nat} (hle : r ≤ r') (hlt : r' < s.order.length) :
    s.atRank r ≤ s.atRank r' := by
  induction r', hle using Nat.le_induction with
  | base => exact Nat.le_refl _
  | succ r' _ ih => exact Nat.le_trans (ih (by omega)) (h.sorted r' hlt)

end Ordered

/-! ## The rebuild -/

theorem anchorAt_of_slots {s' : AnchorStore} {f : Slot → Slot}
    (h : s'.slots[slot]? = (s.slots[slot]?).map f) :
    s'.anchorAt slot = (s.slots[slot]?).bind fun sl => (f sl).anchor := by
  rw [anchorAt, h]
  cases s.slots[slot]? <;> rfl

theorem mem_ranked {o : Nat} : (o, slot) ∈ s.ranked ↔
    ∃ a, s.anchorAt slot = some a ∧ s.offsetOf a = o := by
  unfold ranked
  rw [(List.perm_insertionSort _ _).mem_iff, List.mem_filterMap]
  constructor
  · rintro ⟨i, -, hi⟩
    obtain ⟨a, ha, heq⟩ := Option.map_eq_some_iff.mp hi
    cases heq
    exact ⟨a, ha, rfl⟩
  · rintro ⟨a, ha, rfl⟩
    refine ⟨slot, List.mem_range.mpr ?_, ?_⟩
    · obtain ⟨sl, hsl, -⟩ := Option.bind_eq_some_iff.mp ha
      exact (List.getElem?_eq_some_iff.mp hsl).1
    · rw [show (s.slots[slot]?).bind Slot.anchor = some a from ha]
      rfl

theorem ranked_nodup (s : AnchorStore) : (s.ranked.map Prod.snd).Nodup := by
  refine ((List.perm_insertionSort _ _).map Prod.snd).nodup_iff.mpr ?_
  rw [List.map_filterMap]
  refine (List.nodup_range).filterMap fun i j k hi hj => ?_
  have hsnd (n : Nat) (hn : k ∈ (((s.slots[n]?).bind Slot.anchor).map fun a =>
      (s.offsetOf a, n)).map Prod.snd) : n = k := by
    cases hb : (s.slots[n]?).bind Slot.anchor with
    | none =>
      rw [hb] at hn
      cases hn
    | some a =>
      rw [hb] at hn
      cases hn
      rfl
  exact (hsnd i hi).trans (hsnd j hj).symm

theorem ranked_sorted (s : AnchorStore) : s.ranked.Pairwise fun p q => p.1 ≤ q.1 := by
  have htotal : Std.Total fun a b : Nat × Nat => a.1 < b.1 ∨ (a.1 = b.1 ∧ a.2 ≤ b.2) :=
    ⟨fun a b => by omega⟩
  have htrans : IsTrans (Nat × Nat) fun a b => a.1 < b.1 ∨ (a.1 = b.1 ∧ a.2 ≤ b.2) :=
    ⟨fun a b c => by omega⟩
  exact (List.pairwise_insertionSort _ _).imp fun h => by omega

theorem normalize_slots (s : AnchorStore) : s.normalize.slots =
    modifyAll (fun p : (Nat × Nat) × Nat => p.1.2) (fun p => Slot.placed p.1.1 p.2 false) s.slots
      s.ranked.zipIdx := rfl

theorem normalize_slot {o : Nat} (h : s.ranked[r]? = some (o, slot)) :
    s.normalize.slots[slot]? = (s.slots[slot]?).map (Slot.placed o r false) := by
  rw [normalize_slots]
  refine getElem?_modifyAll_of_mem (p := ((o, slot), r)) ?_ (List.mk_mem_zipIdx_iff_getElem?.mpr h)
  have hmap : s.ranked.zipIdx.map (fun p : (Nat × Nat) × Nat => p.1.2) = s.ranked.map Prod.snd := by
    conv_rhs => rw [← List.zipIdx_map_fst 0 s.ranked, List.map_map]
    rfl
  exact List.pairwise_map.mp (hmap ▸ ranked_nodup s)

theorem normalize_other (h : s.anchorAt slot = none) :
    s.normalize.slots[slot]? = s.slots[slot]? := by
  rw [normalize_slots]
  refine getElem?_modifyAll_of_not_mem fun p hp heq => ?_
  have hmem : p.1 ∈ s.ranked := List.mem_of_getElem? (List.mem_zipIdx_iff_getElem?.mp hp)
  obtain ⟨a, ha, -⟩ := mem_ranked.mp (show (p.1.1, p.1.2) ∈ s.ranked from hmem)
  rw [heq, h] at ha
  cases ha

theorem normalize_anchor (h : s.anchorAt slot = some a) :
    ∃ r : Nat, s.normalize.order[r]? = some slot ∧
      s.normalize.anchorAt slot = some { a with offset := s.offsetOf a, rank := some r } := by
  obtain ⟨r, hr⟩ := List.mem_iff_getElem?.mp (mem_ranked.mpr ⟨a, h, rfl⟩)
  refine ⟨r, ?_, ?_⟩
  · show (s.ranked.map Prod.snd)[r]? = _
    rw [List.getElem?_map, hr]
    rfl
  · obtain ⟨sl, hsl, hanchor⟩ := Option.bind_eq_some_iff.mp h
    rw [anchorAt_of_slots (normalize_slot hr), hsl, Option.bind_some, Slot.placed, hanchor,
      Option.map_some, Bool.or_false]

theorem shift_reset (n r : Nat) : (Shifts.reset n).at' r = 0 := Fenwick.sum_replicate n r

/-- A rebuild orders the store. -/
theorem normalize_ordered (s : AnchorStore) : s.normalize.Ordered := by
  have hentry (r slot : Nat) (hr : s.normalize.order[r]? = some slot) :
      ∃ a, s.anchorAt slot = some a ∧ s.ranked[r]? = some (s.offsetOf a, slot) ∧
        s.normalize.anchorAt slot = some { a with offset := s.offsetOf a, rank := some r } := by
    change (s.ranked.map Prod.snd)[r]? = some slot at hr
    rw [List.getElem?_map] at hr
    obtain ⟨⟨o, slot'⟩, hget, heq⟩ := Option.map_eq_some_iff.mp hr
    cases heq
    obtain ⟨a, ha, rfl⟩ := mem_ranked.mp (List.mem_of_getElem? hget)
    obtain ⟨sl, hsl, hanchor⟩ := Option.bind_eq_some_iff.mp ha
    refine ⟨a, ha, hget, ?_⟩
    rw [anchorAt_of_slots (normalize_slot hget), hsl, Option.bind_some, Slot.placed, hanchor,
      Option.map_some, Bool.or_false]
  constructor
  · show (List.replicate s.ranked.length (0 : Int)).length = (s.ranked.map Prod.snd).length
    rw [List.length_replicate, List.length_map]
  · intro r slot hr
    obtain ⟨a, -, -, ha⟩ := hentry r slot hr
    refine ⟨_, ha, rfl, ?_⟩
    show (0 : Int) ≤ s.offsetOf a + (Shifts.reset s.ranked.length).at' r
    rw [shift_reset]
    omega
  · intro slot a ha
    cases hb : s.anchorAt slot with
    | none =>
      rw [anchorAt, normalize_other hb] at ha
      rw [anchorAt, ha] at hb
      cases hb
    | some a' =>
      obtain ⟨r, hr, -⟩ := normalize_anchor hb
      exact ⟨r, hr⟩
  · intro r hlt
    have hat (i : Nat) (hi : i < s.normalize.order.length) :
        ∃ p, s.ranked[i]? = some p ∧ s.normalize.atRank i = p.1 := by
      obtain ⟨a, -, hget, ha⟩ := hentry i _ (List.getElem?_eq_getElem hi)
      refine ⟨_, hget, ?_⟩
      rw [atRank, getD_order (List.getElem?_eq_getElem hi), anchorIn_of_anchorAt ha]
      show ((s.offsetOf a : Int) + (Shifts.reset s.ranked.length).at' i).toNat = s.offsetOf a
      rw [shift_reset]
      omega
    obtain ⟨p, hp, hap⟩ := hat r (by omega)
    obtain ⟨q, hq, haq⟩ := hat (r + 1) hlt
    rw [hap, haq]
    obtain ⟨hr, hpe⟩ := List.getElem?_eq_some_iff.mp hp
    obtain ⟨hr', hqe⟩ := List.getElem?_eq_some_iff.mp hq
    rw [← hpe, ← hqe]
    exact List.pairwise_iff_getElem.mp (ranked_sorted s) r (r + 1) hr hr' (Nat.lt_succ_self r)

/-- Normalizing the order moves no anchor. -/
theorem normalize_followedAt (s : AnchorStore) (slot : Nat) :
    s.normalize.followedAt slot = s.followedAt slot := by
  unfold followedAt
  cases h : s.anchorAt slot with
  | none =>
    have hnone : s.normalize.anchorAt slot = none := by
      rw [anchorAt, normalize_other h]
      exact h
    rw [hnone]
    rfl
  | some a =>
    obtain ⟨r, -, ha⟩ := normalize_anchor h
    have hoffset : s.normalize.offsetOf { a with offset := s.offsetOf a, rank := some r } =
        s.offsetOf a := by
      show ((s.offsetOf a : Int) + (Shifts.reset s.ranked.length).at' r).toNat = s.offsetOf a
      rw [shift_reset]
      omega
    rw [ha, Option.map_some, Option.map_some, followed, hoffset, followed]

theorem normalize_genAt (s : AnchorStore) (slot : Nat) : s.normalize.genAt slot = s.genAt slot := by
  unfold genAt
  cases h : s.anchorAt slot with
  | none => rw [normalize_other h]
  | some a =>
    obtain ⟨r, hr⟩ := List.mem_iff_getElem?.mp (mem_ranked.mpr ⟨a, h, rfl⟩)
    rw [normalize_slot hr, Option.map_map]
    rfl

end AnchorStore

end Ruse.Core
