import Ruse.Core.AnchorWrite

/-!
# One change carries every anchor

`Followed.follow` is the rule for one anchor on its own. The store follows it for every
anchor at once: those of a touched region are mapped by it, and the rest, which a
change only shifts (`mapAnchor_outside`), take their shift from the tree
(`carried_followedAt`). A change that leaves no rank out of order leaves the order
built (`carried_ordered`).
-/

namespace Ruse.Core

open Ruse.Lib

variable {a : Anchor} {r slot : Nat}

/-- Follow one anchor alone through a change: by byte with its bias, or by line with its
gravity. A deletion around an invalidating anchor loses it, and so does that of the line
of a dropping one, which then goes where a keeping one would. -/
def Followed.follow (f : Followed) (m : LineMap) : Followed :=
  match f.track with
  | .byte bias =>
    { f with
      pos := (mapByteInside m.edits f.pos bias).1
      lost := f.lost || ((mapByteInside m.edits f.pos bias).2 && f.policy == .invalidate) }
  | .line g =>
    match m.mapOffset f.pos g with
    | some p => { f with pos := p }
    | none => { f with pos := (m.mapOffset f.pos .keep).getD 0, lost := true }

/-- The anchor lies in the text, and by line on a character boundary. -/
def Followed.Stands (text : Bytes) (f : Followed) : Prop :=
  f.pos ≤ text.length ∧ ∀ g, f.track = .line g → isBoundary text f.pos = true

namespace AnchorStore

variable {s : AnchorStore} {l : EditList} {old : Bytes}

/-! ## The rule of one anchor -/

theorem follow_followed (s : AnchorStore) (a : Anchor) (m : LineMap) :
    (s.followed a).follow m =
      ⟨(mapAnchor a (s.offsetOf a) m).1, a.track, a.policy,
        a.invalidated || (mapAnchor a (s.offsetOf a) m).2⟩ := by
  unfold Followed.follow mapAnchor followed
  cases a.track with
  | byte bias => rfl
  | line g =>
    dsimp only
    cases m.mapOffset (s.offsetOf a) g with
    | none => simp
    | some p => simp

/-- An anchor that follows edits within the text stands in the new one. -/
theorem follow_stands {f : Followed} (hin : l.InBounds old.length) (hf : f.Stands old) :
    (f.follow ⟨old, l.applyTo old, l.edits⟩).Stands (l.applyTo old) := by
  obtain ⟨hpos, hline⟩ := hf
  unfold Followed.follow
  split
  · rename_i bias hbyte
    refine ⟨mapByteInside_le hin hpos bias, fun g hg => ?_⟩
    rw [hbyte] at hg
    cases hg
  · split
    · rename_i p hp
      obtain ⟨hle, hb⟩ := mapOffset_inside hp
      exact ⟨hle, fun _ _ => hb⟩
    · cases hk : LineMap.mapOffset ⟨old, l.applyTo old, l.edits⟩ f.pos .keep with
      | none => exact ⟨Nat.zero_le _, fun _ _ => rfl⟩
      | some p =>
        obtain ⟨hle, hb⟩ := mapOffset_inside hk
        exact ⟨hle, fun _ _ => hb⟩

/-- An anchor outside the touched regions is only shifted. -/
theorem mapAnchor_outside (hin : l.InBounds old.length) {o : Nat} (ho : o ≤ old.length)
    (hline : ∀ g, a.track = .line g → isBoundary old o = true)
    (hout : ∀ r ∈ regions ⟨old, l.applyTo old, l.edits⟩, r.Outside o) :
    0 ≤ (o : Int) + deltaLeft (regions ⟨old, l.applyTo old, l.edits⟩) o ∧
      mapAnchor a o ⟨old, l.applyTo old, l.edits⟩ =
        (((o : Int) + deltaLeft (regions ⟨old, l.applyTo old, l.edits⟩) o).toNat, false) := by
  obtain ⟨hfar, hdelta⟩ := regions_outside hin hout
  have hroom : (0 : Int) - o ≤ sumDelta (editsBefore l.edits o) :=
    le_sumDelta (l.sorted.sublist (List.takeWhile_sublist _)) (fun e _ => Nat.zero_le e.pos)
      (fun e he => Nat.le_of_lt (endPos_of_editsBefore he)) (Nat.zero_le o)
  refine ⟨by omega, ?_⟩
  unfold mapAnchor
  cases htrack : a.track with
  | line g =>
    dsimp only
    rw [mapOffset_far hin ho hfar (hline g htrack), hdelta]
  | byte bias =>
    have hapart : ∀ e ∈ l.edits, o < e.pos ∨ e.endPos < o := by
      intro e he
      have hcovers := editRegion_covers ⟨old, l.applyTo old, l.edits⟩ (hin e he)
      rcases hfar e he with hlt | hgt
      · exact .inl (by omega)
      · exact .inr (by omega)
    dsimp only
    rw [mapByteInside_far l.sorted hapart, hdelta]
    rfl

/-! ## The change of an ordered store -/

/-- The regions of a change with their plans. -/
def plans (s : AnchorStore) (m : LineMap) : List (RegionPlan × Region) :=
  (regions m).map fun rg => (s.planRegion m rg, rg)

/-- An ordered store with the regions of a change written. -/
def carried (s : AnchorStore) (m : LineMap) : AnchorStore := s.writeRegions (s.plans m) 0

section

variable (h : s.Ordered) (hin : l.InBounds old.length) (new : Bytes)
include h hin

theorem plans_planned {q : RegionPlan × Region} (hq : q ∈ s.plans ⟨old, new, l.edits⟩) :
    q.2 ∈ regions ⟨old, new, l.edits⟩ ∧ s.Planned ⟨old, new, l.edits⟩ q.2 q.1 := by
  obtain ⟨rg, hrg, rfl⟩ := List.mem_map.mp hq
  exact ⟨hrg, planRegion_planned h _ ((regions_merges hin new).proper rg hrg)⟩

/-- The plans of a change lie apart in the order. -/
theorem plans_laid : s.Laid (s.plans ⟨old, new, l.edits⟩) where
  unique r r' slot hr hr' := h.rank_unique hr hr'
  apart := by
    refine List.pairwise_map.mpr ?_
    refine List.Pairwise.imp_of_mem (fun {rg rg'} hrg hrg' hapart => ?_) (regions_merges hin new).apart
    have hp := (plans_planned h hin new (List.mem_map_of_mem hrg)).2
    have hp' := (plans_planned h hin new (List.mem_map_of_mem hrg')).2
    dsimp only at hp hp' ⊢
    by_contra hlt
    have hn := hp.hi
    have hle := (hp.lt_hi _ (by omega)).mp (Nat.not_le.mp hlt)
    have hge := (hp'.lt_lo (s.planRegion ⟨old, new, l.edits⟩ rg').lo (by omega)).not.mp
      (Nat.lt_irrefl _)
    omega
  within q hq := by
    have hp := (plans_planned h hin new hq).2
    exact ⟨hp.le, hp.hi, hp.length⟩
  slots q hq := (plans_planned h hin new hq).2.slots h
  rank q hq mv hmv := by
    obtain ⟨r, hle, hlt, hr, -⟩ := (plans_planned h hin new hq).2.rank hmv
    exact ⟨r, hle, hlt, hr⟩

theorem carried_written :
    s.Written (s.plans ⟨old, new, l.edits⟩) 0 (s.carried ⟨old, new, l.edits⟩) :=
  writeRegions_written h.ranks (plans_laid h hin new) 0

/-- A slot in a planned region goes where its plan says. -/
theorem carried_inside {q : RegionPlan × Region} (hq : q ∈ s.plans ⟨old, new, l.edits⟩)
    (hle : q.1.lo ≤ r) (hlt : r < q.1.hi) :
    ∃ mv, q.1.moved[r - q.1.lo]? = some mv ∧
      (s.carried ⟨old, new, l.edits⟩).order[r]? = some mv.slot ∧
      ∃ a offset, s.anchorAt mv.slot = some a ∧
        mapAnchor a (s.offsetOf a) ⟨old, new, l.edits⟩ = (mv.dest, mv.gone) ∧
        (s.carried ⟨old, new, l.edits⟩).anchorAt mv.slot =
          some { a with offset, rank := some r, invalidated := a.invalidated || mv.gone } ∧
        offset + (s.carried ⟨old, new, l.edits⟩).shift.at' r = mv.dest := by
  have hw := carried_written h hin new
  have hp := (plans_planned h hin new hq).2
  have hcount := hp.length
  obtain ⟨mv, hmv⟩ : ∃ mv, q.1.moved[r - q.1.lo]? = some mv :=
    ⟨_, List.getElem?_eq_getElem (by omega)⟩
  have hadd : q.1.lo + (r - q.1.lo) = r := Nat.add_sub_cancel' hle
  have horder := hw.orderIn q hq _ mv hmv
  obtain ⟨offset, hslot, hoffset⟩ := hw.slotIn q hq _ mv hmv
  rw [hadd] at horder hslot hoffset
  obtain ⟨r₀, -, -, hr₀, hmoved⟩ := hp.rank (List.mem_of_getElem? hmv)
  obtain ⟨a, ha, -, -⟩ := h.ranked r₀ mv.slot hr₀
  obtain ⟨sl, hsl, hanchor⟩ := Option.bind_eq_some_iff.mp ha
  refine ⟨mv, hmv, horder, a, offset, ha, ?_, ?_, by omega⟩
  · rw [h.offsetOf_eq hr₀ ha, ← hmoved]
    show mapAnchor a (s.atRank r₀) _ = mapAnchor (s.anchorIn (s.order.getD r₀ 0)) (s.atRank r₀) _
    rw [getD_order hr₀, anchorIn_of_anchorAt ha]
  · rw [anchorAt_of_slots hslot, hsl, Option.bind_some, Slot.placed, hanchor, Option.map_some]

theorem carried_outside (hout : ∀ q ∈ s.plans ⟨old, new, l.edits⟩, r < q.1.lo ∨ q.1.hi ≤ r)
    (hr : s.order[r]? = some slot) :
    (s.carried ⟨old, new, l.edits⟩).order[r]? = some slot ∧
      (s.carried ⟨old, new, l.edits⟩).slots[slot]? = s.slots[slot]? := by
  have hw := carried_written h hin new
  refine ⟨(hw.orderOut r hout).trans hr, hw.slotOut slot fun q hq mv hmv heq => ?_⟩
  obtain ⟨r', hle, hlt, hr', -⟩ := (plans_planned h hin new hq).2.rank hmv
  have hsame := h.rank_unique hr (heq ▸ hr')
  have := hout q hq
  omega

theorem carried_empty (hnone : s.anchorAt slot = none) :
    (s.carried ⟨old, new, l.edits⟩).slots[slot]? = s.slots[slot]? := by
  refine (carried_written h hin new).slotOut slot fun q hq mv hmv heq => ?_
  obtain ⟨r', -, -, hr', -⟩ := (plans_planned h hin new hq).2.rank hmv
  obtain ⟨a, ha, -⟩ := h.ranked r' mv.slot hr'
  rw [heq, hnone] at ha
  cases ha

theorem carried_genAt (slot : Nat) :
    (s.carried ⟨old, new, l.edits⟩).genAt slot = s.genAt slot := by
  unfold genAt
  by_cases hmoved : ∃ q ∈ s.plans ⟨old, new, l.edits⟩, ∃ mv ∈ q.1.moved, mv.slot = slot
  · obtain ⟨q, hq, mv, hmv, rfl⟩ := hmoved
    obtain ⟨j, hj⟩ := List.mem_iff_getElem?.mp hmv
    obtain ⟨offset, hslot, -⟩ := (carried_written h hin new).slotIn q hq j mv hj
    rw [hslot, Option.map_map]
    rfl
  · rw [(carried_written h hin new).slotOut slot fun q hq mv hmv heq => hmoved ⟨q, hq, mv, hmv, heq⟩]

omit hin in
theorem shiftPast_eq {m : LineMap} (hproper : ∀ rg ∈ regions m, rg.ws ≤ rg.we)
    (hr : r < s.order.length) : shiftPast (s.plans m) r = deltaLeft (regions m) (s.atRank r) := by
  rw [shiftPast, deltaLeft, plans, List.filter_map, List.map_map]
  congr 2
  refine List.filter_congr fun rg hrg => ?_
  have hp := planRegion_planned h m (hproper rg hrg)
  have := hp.lt_hi r hr
  refine decide_eq_decide.mpr ?_
  show (s.planRegion m rg).hi ≤ r ↔ rg.we < s.atRank r
  omega

end

section

variable (h : s.Ordered) (hin : l.InBounds old.length)
  (hstands : ∀ slot f, s.followedAt slot = some f → f.Stands old)
include h hin hstands

/-- A rank outside the touched regions: its anchor is mapped to where its shift takes
it. -/
theorem shifted_outside
    (hout : ∀ q ∈ s.plans ⟨old, l.applyTo old, l.edits⟩, r < q.1.lo ∨ q.1.hi ≤ r)
    (hr : s.order[r]? = some slot) (ha : s.anchorAt slot = some a) :
    mapAnchor a (s.offsetOf a) ⟨old, l.applyTo old, l.edits⟩ =
        ((a.offset + (s.carried ⟨old, l.applyTo old, l.edits⟩).shift.at' r).toNat, false) ∧
      0 ≤ a.offset + (s.carried ⟨old, l.applyTo old, l.edits⟩).shift.at' r := by
  have hlt := (List.getElem?_eq_some_iff.mp hr).1
  have hmerges := regions_merges hin (l.applyTo old)
  obtain ⟨a', ha', -, hnonneg⟩ := h.ranked r slot hr
  rw [ha] at ha'
  cases ha'
  have hat := atRank_eq hr ha
  have hoffset := h.offsetOf_eq hr ha
  obtain ⟨hpos, hline⟩ : s.offsetOf a ≤ old.length ∧
      ∀ g, a.track = .line g → isBoundary old (s.offsetOf a) = true :=
    hstands slot (s.followed a) (by rw [followedAt, ha]; rfl)
  have hregions : ∀ rg ∈ regions ⟨old, l.applyTo old, l.edits⟩, rg.Outside (s.offsetOf a) := by
    intro rg hrg
    have hp := planRegion_planned h ⟨old, l.applyTo old, l.edits⟩ (hmerges.proper rg hrg)
    rw [hoffset]
    rcases hout _ (List.mem_map_of_mem hrg) with hbefore | hpast
    · exact .inl ((hp.lt_lo r hlt).mp hbefore)
    · refine .inr (Nat.not_le.mp fun hle => ?_)
      exact Nat.not_lt.mpr hpast ((hp.lt_hi r hlt).mpr hle)
  obtain ⟨hroom, hmap⟩ := mapAnchor_outside hin hpos hline hregions
  have hshift := (carried_written h hin (l.applyTo old)).shift r hlt
  rw [shiftPast_eq h hmerges.proper hlt, ← hoffset] at hshift
  have hsum : (s.offsetOf a : Int) + deltaLeft (regions ⟨old, l.applyTo old, l.edits⟩)
      (s.offsetOf a) = a.offset + (s.carried ⟨old, l.applyTo old, l.edits⟩).shift.at' r := by
    rw [hshift]
    omega
  rw [hmap, hsum]
  exact ⟨rfl, by omega⟩

/-- Each anchor is where following it alone takes it, on the rank its slot has. -/
theorem carried_anchor (ha : s.anchorAt slot = some a) :
    ∃ a' r, (s.carried ⟨old, l.applyTo old, l.edits⟩).anchorAt slot = some a' ∧
      (s.carried ⟨old, l.applyTo old, l.edits⟩).order[r]? = some slot ∧ a'.rank = some r ∧
      (s.carried ⟨old, l.applyTo old, l.edits⟩).followed a' =
        (s.followed a).follow ⟨old, l.applyTo old, l.edits⟩ := by
  obtain ⟨r, hr⟩ := h.live slot a ha
  rw [follow_followed]
  by_cases hregion : ∃ q ∈ s.plans ⟨old, l.applyTo old, l.edits⟩, q.1.lo ≤ r ∧ r < q.1.hi
  · obtain ⟨q, hq, hle, hlt⟩ := hregion
    have hp := (plans_planned h hin (l.applyTo old) hq).2
    -- the plan moves the anchor to some rank of the region
    have hmv : s.movedAt ⟨old, l.applyTo old, l.edits⟩ r ∈ q.1.moved := hp.mem.mpr ⟨r, hle, hlt, rfl⟩
    obtain ⟨j, hj⟩ := List.mem_iff_getElem?.mp hmv
    have hslot : (s.movedAt ⟨old, l.applyTo old, l.edits⟩ r).slot = slot := getD_order hr
    have hcount := hp.length
    have hjlt := (List.getElem?_eq_some_iff.mp hj).1
    obtain ⟨mv, hget, horder, a', offset, ha', hmap, hanchor, hsum⟩ :=
      carried_inside h hin (l.applyTo old) (r := q.1.lo + j) hq (Nat.le_add_right _ _) (by omega)
    rw [Nat.add_sub_cancel_left, hj] at hget
    cases hget
    rw [hslot] at ha' horder hanchor
    rw [ha] at ha'
    cases ha'
    refine ⟨_, q.1.lo + j, hanchor, horder, rfl, ?_⟩
    rw [hmap, followed, offsetOf]
    dsimp only
    rw [hsum, Int.toNat_natCast]
  · have hout : ∀ q ∈ s.plans ⟨old, l.applyTo old, l.edits⟩, r < q.1.lo ∨ q.1.hi ≤ r := by
      intro q hq
      have hnot : ¬ (q.1.lo ≤ r ∧ r < q.1.hi) := fun hin => hregion ⟨q, hq, hin⟩
      omega
    obtain ⟨horder, hslots⟩ := carried_outside h hin (l.applyTo old) hout hr
    obtain ⟨hmap, -⟩ := shifted_outside h hin hstands hout hr ha
    obtain ⟨a', ha', hrank, -⟩ := h.ranked r slot hr
    rw [ha] at ha'
    cases ha'
    refine ⟨a, r, by rw [anchorAt, hslots]; exact ha, horder, hrank, ?_⟩
    rw [hmap, followed, offsetOf, hrank, Bool.or_false]

theorem carried_followedAt (slot : Nat) :
    (s.carried ⟨old, l.applyTo old, l.edits⟩).followedAt slot =
      (s.followedAt slot).map fun f => f.follow ⟨old, l.applyTo old, l.edits⟩ := by
  unfold followedAt
  cases ha : s.anchorAt slot with
  | none =>
    have hnone : (s.carried ⟨old, l.applyTo old, l.edits⟩).anchorAt slot = none := by
      rw [anchorAt, carried_empty h hin (l.applyTo old) ha]
      exact ha
    rw [hnone]
    rfl
  | some a =>
    obtain ⟨a', r, ha', -, -, hfollow⟩ := carried_anchor h hin hstands ha
    rw [ha', Option.map_some, Option.map_some, Option.map_some, hfollow]

/-- In the carried order each anchor has its rank, and a place at or past 0. -/
theorem carried_rank (hr : (s.carried ⟨old, l.applyTo old, l.edits⟩).order[r]? = some slot) :
    ∃ a, (s.carried ⟨old, l.applyTo old, l.edits⟩).anchorAt slot = some a ∧ a.rank = some r ∧
      0 ≤ a.offset + (s.carried ⟨old, l.applyTo old, l.edits⟩).shift.at' r := by
  by_cases hregion : ∃ q ∈ s.plans ⟨old, l.applyTo old, l.edits⟩, q.1.lo ≤ r ∧ r < q.1.hi
  · obtain ⟨q, hq, hle, hlt⟩ := hregion
    obtain ⟨mv, -, horder, a, offset, -, -, hanchor, hsum⟩ :=
      carried_inside h hin (l.applyTo old) hq hle hlt
    rw [hr] at horder
    cases horder
    exact ⟨_, hanchor, rfl, by dsimp only; omega⟩
  · have hout : ∀ q ∈ s.plans ⟨old, l.applyTo old, l.edits⟩, r < q.1.lo ∨ q.1.hi ≤ r := by
      intro q hq
      have hnot : ¬ (q.1.lo ≤ r ∧ r < q.1.hi) := fun hin => hregion ⟨q, hq, hin⟩
      omega
    rw [(carried_written h hin (l.applyTo old)).orderOut r hout] at hr
    obtain ⟨a, ha, hrank, -⟩ := h.ranked r slot hr
    have hslots := (carried_outside h hin (l.applyTo old) hout hr).2
    exact ⟨a, by rw [anchorAt, hslots]; exact ha, hrank,
      (shifted_outside h hin hstands hout hr ha).2⟩

omit hstands in
/-- Two neighbours are in order unless a region starts or ends between them. -/
theorem carried_sorted (hr : r + 1 < s.order.length)
    (hedge : ∀ q ∈ s.plans ⟨old, l.applyTo old, l.edits⟩, r + 1 ≠ q.1.lo ∧ r + 1 ≠ q.1.hi) :
    (s.carried ⟨old, l.applyTo old, l.edits⟩).atRank r ≤
      (s.carried ⟨old, l.applyTo old, l.edits⟩).atRank (r + 1) := by
  by_cases hregion : ∃ q ∈ s.plans ⟨old, l.applyTo old, l.edits⟩, q.1.lo ≤ r ∧ r < q.1.hi
  · obtain ⟨q, hq, hle, hlt⟩ := hregion
    have hp := (plans_planned h hin (l.applyTo old) hq).2
    have hat (i : Nat) (hi : q.1.lo ≤ i) (hih : i < q.1.hi) :
        ∃ mv, q.1.moved[i - q.1.lo]? = some mv ∧
          (s.carried ⟨old, l.applyTo old, l.edits⟩).atRank i = mv.dest := by
      obtain ⟨mv, hget, horder, a, offset, -, -, hanchor, hsum⟩ :=
        carried_inside h hin (l.applyTo old) hq hi hih
      refine ⟨mv, hget, ?_⟩
      rw [atRank_eq horder hanchor]
      rw [hsum, Int.toNat_natCast]
    have hnext := (hedge q hq).2
    obtain ⟨mv, hget, heq⟩ := hat r hle hlt
    obtain ⟨mv', hget', heq'⟩ := hat (r + 1) (by omega) (by omega)
    obtain ⟨hi, hmv⟩ := List.getElem?_eq_some_iff.mp hget
    obtain ⟨hi', hmv'⟩ := List.getElem?_eq_some_iff.mp hget'
    rw [heq, heq', ← hmv, ← hmv']
    exact List.pairwise_iff_getElem.mp hp.sorted _ _ hi hi' (by omega)
  · have hout : ∀ q ∈ s.plans ⟨old, l.applyTo old, l.edits⟩, r < q.1.lo ∨ q.1.hi ≤ r := by
      intro q hq
      have hnot : ¬ (q.1.lo ≤ r ∧ r < q.1.hi) := fun hin => hregion ⟨q, hq, hin⟩
      omega
    have hout' : ∀ q ∈ s.plans ⟨old, l.applyTo old, l.edits⟩, r + 1 < q.1.lo ∨ q.1.hi ≤ r + 1 := by
      intro q hq
      have := hout q hq
      have := hedge q hq
      omega
    have hw := carried_written h hin (l.applyTo old)
    have hshifted (i : Nat) (hi : i < s.order.length)
        (hout : ∀ q ∈ s.plans ⟨old, l.applyTo old, l.edits⟩, i < q.1.lo ∨ q.1.hi ≤ i) :
        (s.carried ⟨old, l.applyTo old, l.edits⟩).atRank i =
          ((s.atRank i : Int) + shiftPast (s.plans ⟨old, l.applyTo old, l.edits⟩) i).toNat := by
      obtain ⟨a, ha, -, hnonneg⟩ := h.ranked i _ (List.getElem?_eq_getElem hi)
      obtain ⟨horder, hslots⟩ :=
        carried_outside h hin (l.applyTo old) hout (List.getElem?_eq_getElem hi)
      rw [atRank_eq horder (by rw [anchorAt, hslots]; exact ha), hw.shift i hi,
        atRank_eq (List.getElem?_eq_getElem hi) ha]
      omega
    -- no region ends between them, so both take the same shift
    have hpast : shiftPast (s.plans ⟨old, l.applyTo old, l.edits⟩) (r + 1) =
        shiftPast (s.plans ⟨old, l.applyTo old, l.edits⟩) r := by
      unfold shiftPast
      congr 2
      refine List.filter_congr fun q hq => decide_eq_decide.mpr ?_
      have := (hedge q hq).2
      omega
    have hsorted := h.sorted r hr
    rw [hshifted r (by omega) hout, hshifted (r + 1) hr hout', hpast]
    omega

/-- The order stays built unless a rank was found out of order. -/
theorem carried_ordered
    (hsorted : ∀ q ∈ s.plans ⟨old, l.applyTo old, l.edits⟩,
      (s.carried ⟨old, l.applyTo old, l.edits⟩).inverted s.order.length q.1.lo = false ∧
        (s.carried ⟨old, l.applyTo old, l.edits⟩).inverted s.order.length q.1.hi = false) :
    (s.carried ⟨old, l.applyTo old, l.edits⟩).Ordered := by
  have hw := carried_written h hin (l.applyTo old)
  constructor
  · rw [hw.shiftCount, hw.orderCount]
    exact h.ranks
  · exact fun r slot hr => carried_rank h hin hstands hr
  · intro slot a ha
    cases hb : s.anchorAt slot with
    | none =>
      rw [anchorAt, carried_empty h hin (l.applyTo old) hb] at ha
      rw [anchorAt, ha] at hb
      cases hb
    | some a' =>
      obtain ⟨-, r, -, hr, -⟩ := carried_anchor h hin hstands hb
      exact ⟨r, hr⟩
  · intro r hr
    rw [hw.orderCount] at hr
    by_cases hedge : ∀ q ∈ s.plans ⟨old, l.applyTo old, l.edits⟩,
        r + 1 ≠ q.1.lo ∧ r + 1 ≠ q.1.hi
    · exact carried_sorted h hin hr hedge
    · push Not at hedge
      obtain ⟨q, hq, hmeets⟩ := hedge
      have hchecked : (s.carried ⟨old, l.applyTo old, l.edits⟩).inverted s.order.length (r + 1) =
          false := by
        by_cases hlo : r + 1 = q.1.lo
        · rw [hlo]
          exact (hsorted q hq).1
        · rw [hmeets hlo]
          exact (hsorted q hq).2
      simp only [inverted, Nat.add_sub_cancel, Bool.and_eq_false_iff, decide_eq_false_iff_not] at hchecked
      omega

end

end AnchorStore

end Ruse.Core
