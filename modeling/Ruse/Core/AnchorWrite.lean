import Ruse.Core.AnchorOrder
import Ruse.Core.AnchorRegions

/-!
# Planning and writing the touched regions

* `AnchorStore.planRegion_planned` — the bisection finds the ranks of a region, and
  the plan holds each of their anchors once, mapped, by new offset;
* `AnchorStore.writeRegions_written` — what the writes leave, by induction on the
  regions from the right: each region's anchors resolve to where they were mapped, and
  the shift at a rank grows by the deltas of the regions left of it.
-/

namespace Ruse.Core

open Ruse.Lib

/-! ## The bisection -/

/-- The bisection finds where a predicate that holds of a prefix stops to hold. -/
theorem partitionLoop_spec {n : Nat} {pred : Nat → Bool}
    (hmono : ∀ i j, i ≤ j → j < n → pred j = true → pred i = true) {fuel lo hi : Nat}
    (hfuel : hi - lo ≤ fuel) (hle : lo ≤ hi) (hhi : hi ≤ n) (hlow : ∀ r < lo, pred r = true)
    (hhigh : ∀ r, hi ≤ r → r < n → pred r = false) :
    partitionLoop pred fuel lo hi ≤ n ∧ (∀ r < partitionLoop pred fuel lo hi, pred r = true) ∧
      ∀ r, partitionLoop pred fuel lo hi ≤ r → r < n → pred r = false := by
  induction fuel generalizing lo hi with
  | zero =>
    rw [show hi = lo by omega] at hhigh hhi
    exact ⟨hhi, hlow, hhigh⟩
  | succ fuel ih =>
    unfold partitionLoop
    split
    · dsimp only
      split
      · rename_i hmid
        refine ih (by omega) (by omega) hhi (fun r hr => ?_) hhigh
        exact hmono r ((lo + hi) / 2) (by omega) (by omega) hmid
      · rename_i hmid
        refine ih (by omega) (by omega) (by omega) hlow fun r hr hrn => ?_
        by_contra htrue
        exact hmid (hmono ((lo + hi) / 2) r hr hrn (Bool.eq_true_of_not_eq_false htrue))
    · rw [show hi = lo by omega] at hhigh hhi
      exact ⟨hhi, hlow, hhigh⟩

theorem lt_partition_iff (n : Nat) (pred : Nat → Bool)
    (hmono : ∀ i j, i ≤ j → j < n → pred j = true → pred i = true) :
    partition n pred ≤ n ∧ ∀ r < n, r < partition n pred ↔ pred r = true := by
  obtain ⟨hle, hlow, hhigh⟩ := partitionLoop_spec hmono (Nat.le_refl (n - 0)) (Nat.zero_le n)
    (Nat.le_refl n) nofun (fun r hr hrn => absurd hr (Nat.not_le.mpr hrn))
  refine ⟨hle, fun r hr => ⟨hlow r, fun hpred => ?_⟩⟩
  by_contra hge
  rw [hhigh r (Nat.not_lt.mp hge) hr] at hpred
  cases hpred

namespace AnchorStore

variable {s : AnchorStore}

/-! ## The plan of a region -/

/-- Where the anchor at rank `k` goes. -/
def movedAt (s : AnchorStore) (m : LineMap) (k : Nat) : MovedAnchor :=
  let dest := mapAnchor (s.anchorIn (s.order.getD k 0)) (s.atRank k) m
  ⟨dest.1, s.order.getD k 0, dest.2⟩

/-- The plan of a region: its ranks by their offsets, and its anchors. -/
structure Planned (s : AnchorStore) (m : LineMap) (rg : Region) (p : RegionPlan) : Prop where
  le : p.lo ≤ p.hi
  hi : p.hi ≤ s.order.length
  lt_lo : ∀ r < s.order.length, r < p.lo ↔ s.atRank r < rg.ws
  lt_hi : ∀ r < s.order.length, r < p.hi ↔ s.atRank r ≤ rg.we
  moved : p.moved.Perm ((List.range' p.lo (p.hi - p.lo)).map (s.movedAt m))
  sorted : p.moved.Pairwise fun a b => a.dest ≤ b.dest

/-- The plan of a region covers the ranks of the anchors that lie in it. -/
theorem planRegion_planned (h : s.Ordered) (m : LineMap) {rg : Region} (hrg : rg.ws ≤ rg.we) :
    s.Planned m rg (s.planRegion m rg) := by
  obtain ⟨hlo, hlolt⟩ := lt_partition_iff s.order.length
    (fun k => decide (s.atRank k < rg.ws)) fun i j hij hj hlt => by
      have := h.atRank_mono hij hj
      have := of_decide_eq_true hlt
      exact decide_eq_true (by omega)
  simp only [decide_eq_true_eq] at hlolt
  have hplo : (s.planRegion m rg).lo =
      partition s.order.length fun k => s.atRank k < rg.ws := rfl
  rw [← hplo] at hlo hlolt
  obtain ⟨hhi, hhilt⟩ := lt_partition_iff (s.order.length - (s.planRegion m rg).lo)
    (fun k => decide (s.atRank ((s.planRegion m rg).lo + k) ≤ rg.we))
    fun i j hij hj hle => by
      have := h.atRank_mono (Nat.add_le_add_left hij (s.planRegion m rg).lo) (by omega)
      have := of_decide_eq_true hle
      exact decide_eq_true (by omega)
  simp only [decide_eq_true_eq] at hhilt
  have hphi : (s.planRegion m rg).hi = (s.planRegion m rg).lo +
      partition (s.order.length - (s.planRegion m rg).lo) fun k =>
        s.atRank ((s.planRegion m rg).lo + k) ≤ rg.we := rfl
  have hmoved : (s.planRegion m rg).moved =
      ((List.range' (s.planRegion m rg).lo ((s.planRegion m rg).hi - (s.planRegion m rg).lo)).map
        (s.movedAt m)).insertionSort fun a b => a.dest ≤ b.dest := rfl
  refine ⟨by omega, by omega, hlolt, fun r hr => ?_, ?_, ?_⟩
  · rcases Nat.lt_or_ge r (s.planRegion m rg).lo with hrlo | hrlo
    · have := (hlolt r hr).mp hrlo
      constructor <;> intro _ <;> omega
    · obtain ⟨k, rfl⟩ := Nat.exists_eq_add_of_le hrlo
      rw [← hhilt k (by omega)]
      omega
  · rw [hmoved]
    exact List.perm_insertionSort _ _
  · rw [hmoved]
    exact List.pairwise_insertionSort _ _

namespace Planned

variable {m : LineMap} {rg : Region} {p : RegionPlan}

theorem length (h : s.Planned m rg p) : p.moved.length = p.hi - p.lo := by
  rw [h.moved.length_eq, List.length_map, List.length_range']

theorem mem (h : s.Planned m rg p) {mv : MovedAnchor} :
    mv ∈ p.moved ↔ ∃ r, p.lo ≤ r ∧ r < p.hi ∧ s.movedAt m r = mv := by
  rw [h.moved.mem_iff, List.mem_map]
  constructor
  · rintro ⟨r, hr, rfl⟩
    obtain ⟨hle, hlt⟩ := List.mem_range'_1.mp hr
    exact ⟨r, hle, by omega, rfl⟩
  · rintro ⟨r, hle, hlt, rfl⟩
    exact ⟨r, List.mem_range'_1.mpr ⟨hle, by omega⟩, rfl⟩

/-- The slot of an anchor of the plan stands at one of its ranks. -/
theorem rank (h : s.Planned m rg p) {mv : MovedAnchor} (hmv : mv ∈ p.moved) :
    ∃ r, p.lo ≤ r ∧ r < p.hi ∧ s.order[r]? = some mv.slot ∧ s.movedAt m r = mv := by
  obtain ⟨r, hle, hlt, rfl⟩ := h.mem.mp hmv
  have hn := h.hi
  refine ⟨r, hle, hlt, ?_, rfl⟩
  show s.order[r]? = some (s.order.getD r 0)
  rw [List.getD_eq_getElem?_getD, List.getElem?_eq_getElem (by omega), Option.getD_some]

theorem slots (hord : s.Ordered) (h : s.Planned m rg p) :
    p.moved.Pairwise fun a b => a.slot ≠ b.slot := by
  have hnodup : ((List.range' p.lo (p.hi - p.lo)).map (s.movedAt m)).Pairwise
      fun a b => a.slot ≠ b.slot := by
    refine List.pairwise_map.mpr ?_
    have hranks : (List.range' p.lo (p.hi - p.lo)).Nodup := List.nodup_range'
    refine List.Pairwise.imp_of_mem (fun {r r'} hr hr' hne heq => hne ?_) hranks
    have hn := h.hi
    have hle := h.le
    obtain ⟨-, hlt⟩ := List.mem_range'_1.mp hr
    obtain ⟨-, hlt'⟩ := List.mem_range'_1.mp hr'
    have hat (i : Nat) (hi : i < s.order.length) :
        s.order[i]? = some (s.movedAt m i).slot := by
      show s.order[i]? = some (s.order.getD i 0)
      rw [List.getD_eq_getElem?_getD, List.getElem?_eq_getElem hi, Option.getD_some]
    exact hord.rank_unique ((hat r (by omega)).trans (congrArg some heq)) (hat r' (by omega))
  exact (h.moved.pairwise_iff fun {a b} hab => Ne.symm hab).mpr hnodup

end Planned

/-! ## The writes -/

/-- The deltas of the regions whose ranks end at or before `r`. -/
def shiftPast (ps : List (RegionPlan × Region)) (r : Nat) : Int :=
  ((ps.filter fun q => q.1.hi ≤ r).map fun q => q.2.delta).sum

theorem shiftPast_cons (q : RegionPlan × Region) (ps : List (RegionPlan × Region)) (r : Nat) :
    shiftPast (q :: ps) r = (if q.1.hi ≤ r then q.2.delta else 0) + shiftPast ps r := by
  by_cases h : q.1.hi ≤ r <;> simp [shiftPast, h]

/-- The plans of some regions, from left to right: their ranks lie apart, and each
holds the anchors of its own ranks. -/
structure Laid (s : AnchorStore) (ps : List (RegionPlan × Region)) : Prop where
  unique : ∀ (r r' slot : Nat), s.order[r]? = some slot → s.order[r']? = some slot → r = r'
  apart : ps.Pairwise fun q q' => q.1.hi ≤ q'.1.lo
  within : ∀ q ∈ ps, q.1.lo ≤ q.1.hi ∧ q.1.hi ≤ s.order.length ∧
    q.1.moved.length = q.1.hi - q.1.lo
  slots : ∀ q ∈ ps, q.1.moved.Pairwise fun a b => a.slot ≠ b.slot
  rank : ∀ q ∈ ps, ∀ mv ∈ q.1.moved, ∃ r, q.1.lo ≤ r ∧ r < q.1.hi ∧ s.order[r]? = some mv.slot

variable {q q' : RegionPlan × Region} {ps : List (RegionPlan × Region)}

theorem Laid.tail (h : s.Laid (q :: ps)) : s.Laid ps where
  unique := h.unique
  apart := (List.pairwise_cons.mp h.apart).2
  within q' hq' := h.within q' (List.mem_cons_of_mem _ hq')
  slots q' hq' := h.slots q' (List.mem_cons_of_mem _ hq')
  rank q' hq' := h.rank q' (List.mem_cons_of_mem _ hq')

theorem Laid.disjoint (h : s.Laid (q :: ps)) (hq' : q' ∈ ps) {mv mv' : MovedAnchor}
    (hmv : mv ∈ q.1.moved) (hmv' : mv' ∈ q'.1.moved) : mv.slot ≠ mv'.slot := by
  intro heq
  obtain ⟨r, -, hlt, hr⟩ := h.rank q List.mem_cons_self mv hmv
  obtain ⟨r', hle, -, hr'⟩ := h.rank q' (List.mem_cons_of_mem _ hq') mv' hmv'
  have hsame := h.unique r r' mv.slot hr (heq ▸ hr')
  have := (List.pairwise_cons.mp h.apart).1 q' hq'
  omega

/-- What writing the plans leaves, `left` being the summed delta of the regions left of
them. -/
structure Written (s : AnchorStore) (ps : List (RegionPlan × Region)) (left : Int)
    (s' : AnchorStore) : Prop where
  free : s'.free = s.free
  stale : s'.stale = s.stale
  slotCount : s'.slots.length = s.slots.length
  orderCount : s'.order.length = s.order.length
  shiftCount : s'.shift.length = s.shift.length
  shift : ∀ r < s.order.length, s'.shift.at' r = s.shift.at' r + shiftPast ps r
  orderOut : ∀ r : Nat, (∀ q ∈ ps, r < q.1.lo ∨ q.1.hi ≤ r) → s'.order[r]? = s.order[r]?
  orderIn : ∀ q ∈ ps, ∀ j mv, q.1.moved[j]? = some mv → s'.order[q.1.lo + j]? = some mv.slot
  slotOut : ∀ slot : Nat, (∀ q ∈ ps, ∀ mv ∈ q.1.moved, mv.slot ≠ slot) →
    s'.slots[slot]? = s.slots[slot]?
  slotIn : ∀ q ∈ ps, ∀ j mv, q.1.moved[j]? = some mv → ∃ offset,
    s'.slots[mv.slot]? = (s.slots[mv.slot]?).map (Slot.placed offset (q.1.lo + j) mv.gone) ∧
      offset + s'.shift.at' (q.1.lo + j) = mv.dest - left

theorem foldl_writeOne (left : Int) (s : AnchorStore) (es : List (MovedAnchor × Nat)) :
    es.foldl (writeOne left) s =
      { s with
        order := modifyAll Prod.snd (fun p _ => p.1.slot) s.order es
        slots := modifyAll (fun p => p.1.slot)
          (fun p => Slot.placed ((p.1.dest : Int) - left - s.shift.at' p.2) p.2 p.1.gone)
          s.slots es } := by
  induction es generalizing s with
  | nil => rfl
  | cons p es ih =>
    rw [List.foldl_cons, ih, modifyAll_cons, modifyAll_cons, ← List.set_eq_modify]
    rfl

theorem writeRegion_eq (s : AnchorStore) (p : RegionPlan) (delta left : Int) :
    s.writeRegion p delta left =
      { s with
        order := modifyAll Prod.snd (fun p _ => p.1.slot) s.order (p.moved.zipIdx p.lo)
        slots := modifyAll (fun p => p.1.slot)
          (fun p => Slot.placed ((p.1.dest : Int) - left - s.shift.at' p.2) p.2 p.1.gone)
          s.slots (p.moved.zipIdx p.lo)
        shift := s.shift.addFrom p.hi delta } := by
  unfold writeRegion
  dsimp only
  rw [foldl_writeOne]

theorem mem_entries {p : RegionPlan} {mv : MovedAnchor} {r : Nat} :
    (mv, r) ∈ p.moved.zipIdx p.lo ↔ p.lo ≤ r ∧ p.moved[r - p.lo]? = some mv :=
  List.mk_mem_zipIdx_iff_le_and_getElem?_sub

/-- What the writes leave: by induction on the regions, the last one written being the
leftmost. -/
theorem writeRegions_written (hshift : s.shift.length = s.order.length) (h : s.Laid ps)
    (left : Int) : s.Written ps left (s.writeRegions ps left) := by
  induction ps generalizing left with
  | nil =>
    exact ⟨rfl, rfl, rfl, rfl, rfl, fun r _ => (Int.add_zero _).symm, fun _ _ => rfl, nofun,
      fun _ _ => rfl, nofun⟩
  | cons q ps ih =>
    obtain ⟨p, rg⟩ := q
    have hrest := ih h.tail (left + rg.delta)
    obtain ⟨hle, hhi, hcount⟩ := h.within (p, rg) List.mem_cons_self
    have hapart := (List.pairwise_cons.mp h.apart).1
    dsimp only at hle hhi hcount hapart
    rw [writeRegions, writeRegion_eq]
    generalize s.writeRegions ps (left + rg.delta) = t at hrest
    -- a rank outside the region, and a slot of no anchor of it, is left alone
    have hother (r : Nat) (hr : r < p.lo ∨ p.hi ≤ r) :
        (modifyAll Prod.snd (fun p _ => p.1.slot) t.order (p.moved.zipIdx p.lo))[r]? =
          t.order[r]? := by
      refine getElem?_modifyAll_of_not_mem fun e he heq => ?_
      obtain ⟨hrlo, hget⟩ := mem_entries.mp he
      have := (List.getElem?_eq_some_iff.mp hget).1
      omega
    have hkept (slot : Nat) (hslot : ∀ mv ∈ p.moved, mv.slot ≠ slot) :
        (modifyAll (fun p => p.1.slot)
          (fun p => Slot.placed ((p.1.dest : Int) - left - t.shift.at' p.2) p.2 p.1.gone)
          t.slots (p.moved.zipIdx p.lo))[slot]? = t.slots[slot]? := by
      refine getElem?_modifyAll_of_not_mem fun e he => ?_
      exact hslot e.1 (List.mem_of_getElem? (mem_entries.mp he).2)
    have hentry {j : Nat} {mv : MovedAnchor} (hmv : p.moved[j]? = some mv) :
        (mv, p.lo + j) ∈ p.moved.zipIdx p.lo :=
      mem_entries.mpr ⟨Nat.le_add_right _ _, by rw [Nat.add_sub_cancel_left]; exact hmv⟩
    have hpast (r : Nat) (hr : r < s.order.length) :
        (t.shift.addFrom p.hi rg.delta).at' r =
          t.shift.at' r + if p.hi ≤ r then rg.delta else 0 :=
      Fenwick.sum_add p.hi rg.delta (by rw [hrest.shiftCount, hshift]; exact hr)
    constructor
    · exact hrest.free
    · exact hrest.stale
    · exact (length_modifyAll _ _ _ _).trans hrest.slotCount
    · exact (length_modifyAll _ _ _ _).trans hrest.orderCount
    · exact (Fenwick.length_add _ _ _).trans hrest.shiftCount
    · intro r hr
      rw [hpast r hr, hrest.shift r hr, shiftPast_cons]
      dsimp only
      omega
    · intro r hr
      rw [hother r (hr (p, rg) List.mem_cons_self)]
      exact hrest.orderOut r fun q hq => hr q (List.mem_cons_of_mem _ hq)
    · intro q hq j mv hmv
      rcases List.mem_cons.mp hq with rfl | hq
      · have hj := (List.getElem?_eq_some_iff.mp hmv).1
        have hdistinct : (p.moved.zipIdx p.lo).Pairwise fun e e' => e.2 ≠ e'.2 := by
          have hnodup : (List.map Prod.snd (p.moved.zipIdx p.lo)).Nodup := by
            rw [List.zipIdx_map_snd]
            exact List.nodup_range'
          exact List.pairwise_map.mp hnodup
        dsimp only at hj ⊢
        rw [getElem?_modifyAll_of_mem hdistinct (hentry hmv),
          List.getElem?_eq_getElem (by rw [hrest.orderCount]; omega)]
        rfl
      · rw [hother _ (.inr (Nat.le_trans (hapart q hq) (Nat.le_add_right _ _)))]
        exact hrest.orderIn q hq j mv hmv
    · intro slot hslot
      rw [hkept slot (hslot (p, rg) List.mem_cons_self)]
      exact hrest.slotOut slot fun q hq => hslot q (List.mem_cons_of_mem _ hq)
    · intro q hq j mv hmv
      have hj := (List.getElem?_eq_some_iff.mp hmv).1
      obtain ⟨hqle, hqhi, hqcount⟩ := h.within q hq
      rcases List.mem_cons.mp hq with rfl | hq
      · have hdistinct : (p.moved.zipIdx p.lo).Pairwise fun e e' => e.1.slot ≠ e'.1.slot := by
          have hslots : (List.map Prod.fst (p.moved.zipIdx p.lo)).Pairwise
              fun a b => a.slot ≠ b.slot := by
            rw [List.zipIdx_map_fst]
            exact h.slots (p, rg) List.mem_cons_self
          exact (List.pairwise_map (f := Prod.fst)).mp hslots
        refine ⟨(mv.dest : Int) - left - t.shift.at' (p.lo + j), ?_, ?_⟩
        · show (modifyAll _ _ t.slots _)[mv.slot]? = _
          rw [getElem?_modifyAll_of_mem hdistinct (hentry hmv), hrest.slotOut mv.slot]
          intro q' hq' mv' hmv' heq
          exact h.disjoint hq' (List.mem_of_getElem? hmv) hmv' heq.symm
        · show _ + (t.shift.addFrom p.hi rg.delta).at' (p.lo + j) = _
          dsimp only at hj hqcount hqhi
          rw [hpast _ (by omega), if_neg (by omega)]
          omega
      · obtain ⟨offset, hslot, hoffset⟩ := hrest.slotIn q hq j mv hmv
        refine ⟨offset, ?_, ?_⟩
        · show (modifyAll _ _ t.slots _)[mv.slot]? = _
          rw [hkept mv.slot fun mv' hmv' => h.disjoint hq hmv' (List.mem_of_getElem? hmv)]
          exact hslot
        · have := hapart q hq
          rw [hpast _ (by omega), if_pos (by omega)]
          omega

end AnchorStore

end Ruse.Core
