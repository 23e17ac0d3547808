import Mathlib.Data.Finset.Card
import Ruse.Core.AnchorChange
import Ruse.Lib.Run

/-!
# The anchor store refines the rule of one anchor

`Marked` runs a store beside the anchors it stands for, each followed alone
(`Followed.follow`). Over every run the two agree on every id, no id is handed out
twice, and the store keeps the rules of `assert_invariants` (`store_refines`).
-/

namespace Ruse.Core

open Ruse.Lib

namespace AnchorStore

variable {s : AnchorStore} {text : Bytes}
variable {slot : Nat} {id : AnchorId}

/-! ## What the calls keep -/

/-- The free list names the empty slots, the order is built unless marked stale, and
every anchor stands in the text. -/
structure Inv (text : Bytes) (s : AnchorStore) : Prop where
  freeOnce : s.free.Nodup
  free : ∀ slot, slot ∈ s.free ↔ slot < s.slots.length ∧ s.anchorAt slot = none
  ordered : s.stale = false → s.Ordered
  stands : ∀ slot f, s.followedAt slot = some f → f.Stands text

theorem new_inv (text : Bytes) : Inv text .new where
  freeOnce := .nil
  free slot := by simp [new]
  ordered _ := ⟨rfl, nofun, nofun, nofun⟩
  stands := nofun

/-- The anchor an id names, on its own. -/
def view (s : AnchorStore) (id : AnchorId) : Option Followed :=
  if s.genAt id.slot = some id.gen then s.followedAt id.slot else none

theorem tryResolve_eq (s : AnchorStore) (id : AnchorId) :
    s.tryResolve id = (s.view id).map fun f => ⟨f.pos, f.lost⟩ := by
  unfold tryResolve get view genAt followedAt anchorAt
  cases s.slots[id.slot]? with
  | none => rfl
  | some sl =>
    by_cases hgen : sl.gen = id.gen
    · simp [hgen, followed, Function.comp_def]
    · simp [hgen]

theorem anchorAt_some {a : Anchor} (h : s.anchorAt slot = some a) :
    slot < s.slots.length := by
  obtain ⟨sl, hsl, -⟩ := Option.bind_eq_some_iff.mp h
  exact (List.getElem?_eq_some_iff.mp hsl).1

/-- The empty slots are those of the free list. -/
theorem Inv.countEmpty (h : Inv text s) :
    (s.slots.filter fun sl => sl.anchor.isNone).length = s.free.length := by
  have hslots : s.slots = (List.range s.slots.length).map fun i => s.slots.getD i ⟨0, none⟩ := by
    refine List.ext_getElem? fun i => ?_
    rw [List.getElem?_map]
    rcases Nat.lt_or_ge i s.slots.length with hi | hi
    · rw [List.getElem?_range hi, Option.map_some, List.getD_eq_getElem?_getD,
        List.getElem?_eq_getElem hi, Option.getD_some]
    · rw [List.getElem?_eq_none hi, List.getElem?_eq_none (by simpa using hi)]
      rfl
  have hperm : s.free.Perm ((List.range s.slots.length).filter fun i =>
      (s.slots.getD i ⟨0, none⟩).anchor.isNone) := by
    refine (List.perm_ext_iff_of_nodup h.freeOnce (List.nodup_range.filter _)).mpr fun i => ?_
    rw [h.free, List.mem_filter, List.mem_range]
    refine and_congr_right fun hi => ?_
    rw [anchorAt, List.getD_eq_getElem?_getD, List.getElem?_eq_getElem hi, Option.bind_some,
      Option.getD_some, Option.isNone_iff_eq_none]
  conv_lhs => rw [hslots]
  rw [List.filter_map, List.length_map, hperm.length_eq]
  rfl

theorem Inv.len_add (h : Inv text s) : s.len + s.free.length = s.slots.length := by
  have hcount := h.countEmpty
  have hle := List.length_filter_le (fun sl : Slot => sl.anchor.isNone) s.slots
  rw [len]
  omega

theorem Inv.len_ne_zero (h : Inv text s) {a : Anchor} (ha : s.anchorAt slot = some a) :
    s.len ≠ 0 := by
  intro hzero
  have hadd := h.len_add
  have hsub : s.free ⊆ (List.range s.slots.length).erase slot := by
    intro i hi
    obtain ⟨hlt, hnone⟩ := (h.free i).mp hi
    refine (List.mem_erase_of_ne ?_).mpr (List.mem_range.mpr hlt)
    rintro rfl
    rw [ha] at hnone
    cases hnone
  have hle := (List.Nodup.subperm h.freeOnce hsub).length_le
  have hslot := anchorAt_some ha
  rw [List.length_erase_of_mem (List.mem_range.mpr hslot), List.length_range] at hle
  omega

/-- Where the order is one, it has as many entries as there are anchors. -/
theorem Inv.order_length (h : Inv text s) (hord : s.Ordered) : s.order.length = s.len := by
  have hnodup : s.order.Nodup := by
    refine List.nodup_iff_injective_get.mpr fun i j hij => Fin.ext ?_
    have hi : s.order[i.1]? = some (s.order.get i) := List.getElem?_eq_getElem i.2
    have hj : s.order[j.1]? = some (s.order.get j) := List.getElem?_eq_getElem j.2
    exact hord.rank_unique hi (hij ▸ hj)
  have hperm : (s.order ++ s.free).Perm (List.range s.slots.length) := by
    refine (List.perm_ext_iff_of_nodup ?_ List.nodup_range).mpr fun i => ?_
    · refine List.nodup_append.mpr ⟨hnodup, h.freeOnce, fun i hi j hj heq => ?_⟩
      obtain ⟨r, hr⟩ := List.mem_iff_getElem?.mp hi
      obtain ⟨a, ha, -⟩ := hord.ranked r i hr
      rw [heq, ((h.free j).mp hj).2] at ha
      cases ha
    · rw [List.mem_append, h.free, List.mem_range]
      constructor
      · rintro (hi | ⟨hlt, -⟩)
        · obtain ⟨r, hr⟩ := List.mem_iff_getElem?.mp hi
          obtain ⟨a, ha, -⟩ := hord.ranked r i hr
          exact anchorAt_some ha
        · exact hlt
      · intro hlt
        cases ha : s.anchorAt i with
        | none => exact .inr ⟨hlt, rfl⟩
        | some a =>
          obtain ⟨r, hr⟩ := hord.live i a ha
          exact .inl (List.mem_of_getElem? hr)
  have hlen := hperm.length_eq
  rw [List.length_append, List.length_range] at hlen
  have := h.len_add
  omega

/-- The rules `assert_invariants` checks against a text of `len` bytes. -/
structure Invariants (s : AnchorStore) (len : Nat) : Prop where
  freeOnce : s.free.Nodup
  freeEmpty : ∀ f ∈ s.free, ∃ sl, s.slots[f]? = some sl ∧ sl.anchor = none
  emptyFree : (s.slots.filter fun sl => sl.anchor.isNone).length = s.free.length
  inside : ∀ sl ∈ s.slots, ∀ a, sl.anchor = some a → s.offsetOf a ≤ len
  orderLength : s.stale = false → s.order.length = s.len
  shiftLength : s.stale = false → s.shift.length = s.order.length
  ranked : s.stale = false → ∀ (r slot : Nat), s.order[r]? = some slot →
    ∃ sl a, s.slots[slot]? = some sl ∧ sl.anchor = some a ∧ a.rank = some r
  sorted : s.stale = false → ∀ r, 0 < r → r < s.order.length → s.atRank (r - 1) ≤ s.atRank r

/-- The invariant of the model gives the checks of `assert_invariants`. -/
theorem Inv.invariants (h : Inv text s) : s.Invariants text.length where
  freeOnce := h.freeOnce
  freeEmpty f hf := by
    obtain ⟨hlt, hnone⟩ := (h.free f).mp hf
    rw [anchorAt, List.getElem?_eq_getElem hlt] at hnone
    exact ⟨_, List.getElem?_eq_getElem hlt, hnone⟩
  emptyFree := h.countEmpty
  inside sl hsl a ha := by
    obtain ⟨slot, hslot⟩ := List.mem_iff_getElem?.mp hsl
    refine (h.stands slot (s.followed a) ?_).1
    rw [followedAt, anchorAt, hslot, Option.bind_some, ha]
    rfl
  orderLength hstale := h.order_length (h.ordered hstale)
  shiftLength hstale := (h.ordered hstale).ranks
  ranked hstale r slot hr := by
    obtain ⟨a, ha, hrank, -⟩ := (h.ordered hstale).ranked r slot hr
    obtain ⟨sl, hsl, hanchor⟩ := Option.bind_eq_some_iff.mp ha
    exact ⟨sl, a, hsl, hanchor, hrank⟩
  sorted hstale r hpos hlt := by
    have h := (h.ordered hstale).sorted (r - 1) (by omega)
    rwa [Nat.sub_add_cancel hpos] at h

/-! ## Inserting and removing -/

theorem same_slot {s' : AnchorStore} (hslot : s'.slots[slot]? = s.slots[slot]?)
    (hshift : s'.shift = s.shift) :
    s'.genAt slot = s.genAt slot ∧ s'.followedAt slot = s.followedAt slot := by
  have hfollowed : s'.followed = s.followed := by
    funext a
    unfold followed offsetOf
    rw [hshift]
  rw [genAt, followedAt, anchorAt, hslot, hfollowed]
  exact ⟨rfl, rfl⟩

/-- An insert gives a slot a new anchor and leaves the others, taking a free slot first. -/
theorem insertTracked_spec (h : Inv text s) (offset : Nat) (track : Track) (policy : AnchorPolicy) :
    let ins := s.insertTracked offset track policy
    s.anchorAt ins.2.slot = none ∧
    (s.genAt ins.2.slot = none ∧ ins.2.gen = 0 ∨ s.genAt ins.2.slot = some ins.2.gen) ∧
    ins.1.genAt ins.2.slot = some ins.2.gen ∧
    ins.1.followedAt ins.2.slot = some ⟨offset, track, policy, false⟩ ∧
    (∀ slot, slot ≠ ins.2.slot → ins.1.genAt slot = s.genAt slot ∧
      ins.1.followedAt slot = s.followedAt slot) ∧
    ins.1.stale = true ∧ (∀ slot, slot ∈ ins.1.free ↔ slot ∈ s.free ∧ slot ≠ ins.2.slot) ∧
    ins.1.free.Nodup ∧ (∀ slot, slot < ins.1.slots.length ↔ slot < s.slots.length ∨
      slot = ins.2.slot) := by
  unfold insertTracked
  dsimp only
  cases hlast : s.free.getLast? with
  | some slot =>
    dsimp only
    have hfree : s.free = s.free.dropLast ++ [slot] := by
      obtain ⟨front, hfront⟩ := List.getLast?_eq_some_iff.mp hlast
      rw [hfront, List.dropLast_concat]
    have hmem : slot ∈ s.free := List.mem_of_getLast? hlast
    obtain ⟨hlt, hnone⟩ := (h.free slot).mp hmem
    have hnodup := h.freeOnce
    rw [hfree] at hnodup
    obtain ⟨hdrop, -, hapart⟩ := List.nodup_append.mp hnodup
    have hget : s.slots[slot]? = some s.slots[slot] := List.getElem?_eq_getElem hlt
    refine ⟨hnone, .inr ?_, ?_, ?_, fun other hne => ?_, rfl, fun other => ?_, hdrop, fun other => ?_⟩
    · rw [genAt, hget, List.getD_eq_getElem?_getD, hget]
      rfl
    · rw [genAt, List.getElem?_modify_eq, hget, List.getD_eq_getElem?_getD, hget]
      rfl
    · rw [followedAt, anchorAt, List.getElem?_modify_eq, hget]
      simp [followed, offsetOf]
    · exact same_slot (List.getElem?_modify_ne _ _ (Ne.symm hne)) rfl
    · conv_rhs => rw [hfree]
      simp only [List.mem_append, List.mem_singleton]
      constructor
      · intro hother
        exact ⟨.inl hother, fun heq => hapart other hother slot List.mem_cons_self heq⟩
      · rintro ⟨hother | heq, hne⟩
        · exact hother
        · exact absurd heq hne
    · rw [List.length_modify]
      constructor
      · exact .inl
      · rintro (hother | rfl)
        · exact hother
        · exact hlt
  | none =>
    dsimp only
    have hnil : s.free = [] := List.getLast?_eq_none_iff.mp hlast
    have hnone : s.slots[s.slots.length]? = none := List.getElem?_eq_none (Nat.le_refl _)
    refine ⟨?_, .inl ⟨?_, rfl⟩, ?_, ?_, fun other hne => ?_, rfl, fun other => ?_, ?_,
      fun other => ?_⟩
    · rw [anchorAt, hnone]
      rfl
    · rw [genAt, hnone]
      rfl
    · rw [genAt, List.getElem?_concat_length]
      rfl
    · rw [followedAt, anchorAt, List.getElem?_concat_length]
      simp [followed, offsetOf]
    · refine same_slot ?_ rfl
      rcases Nat.lt_or_ge other s.slots.length with hlt | hge
      · exact List.getElem?_append_left hlt
      · rw [List.getElem?_eq_none (by simp; omega), List.getElem?_eq_none hge]
    · simp [hnil]
    · rw [hnil]
      exact .nil
    · rw [List.length_append, List.length_singleton]
      omega

theorem followedAt_eq_none : s.followedAt slot = none ↔ s.anchorAt slot = none := by
  rw [followedAt, Option.map_eq_none_iff]

/-- An insert of a position that stands in the text keeps the invariant. -/
theorem insertTracked_inv (h : Inv text s) {offset : Nat} {track : Track} {policy : AnchorPolicy}
    (hf : (⟨offset, track, policy, false⟩ : Followed).Stands text) :
    Inv text (s.insertTracked offset track policy).1 := by
  obtain ⟨hnone, -, -, hnew, hother, hstale, hfree, hnodup, hlen⟩ :=
    insertTracked_spec h offset track policy
  generalize s.insertTracked offset track policy = ins at *
  refine ⟨hnodup, fun slot => ?_, fun hs => ?_, fun slot f hslot => ?_⟩
  · rw [hfree, h.free, hlen]
    by_cases heq : slot = ins.2.slot
    · have hsome : ins.1.anchorAt slot ≠ none := by
        intro hnone'
        rw [← followedAt_eq_none, heq, hnew] at hnone'
        cases hnone'
      constructor
      · exact fun hin => absurd heq hin.2
      · exact fun hin => absurd hin.2 hsome
    · have hsame : ins.1.anchorAt slot = none ↔ s.anchorAt slot = none := by
        rw [← followedAt_eq_none, ← followedAt_eq_none, (hother slot heq).2]
      rw [hsame]
      constructor
      · exact fun hin => ⟨.inl hin.1.1, hin.1.2⟩
      · exact fun hin => ⟨⟨hin.1.resolve_right heq, hin.2⟩, heq⟩
  · rw [hstale] at hs
    cases hs
  · by_cases heq : slot = ins.2.slot
    · rw [heq, hnew] at hslot
      cases hslot
      exact hf
    · rw [(hother slot heq).2] at hslot
      exact h.stands slot f hslot

/-- An insert shows its anchor under the id it returns, and no other change. -/
theorem insertTracked_view (h : Inv text s) (offset : Nat) (track : Track) (policy : AnchorPolicy)
    (id : AnchorId) : (s.insertTracked offset track policy).1.view id =
      if id = (s.insertTracked offset track policy).2 then some ⟨offset, track, policy, false⟩
      else s.view id := by
  obtain ⟨hnone, -, hgen, hnew, hother, -⟩ := insertTracked_spec h offset track policy
  generalize s.insertTracked offset track policy = ins at *
  obtain ⟨slot, gen⟩ := id
  unfold view
  by_cases hslot : slot = ins.2.slot
  · rw [hslot, hgen, hnew, followedAt_eq_none.mpr hnone]
    by_cases heq : ins.2.gen = gen
    · have hid : (⟨ins.2.slot, gen⟩ : AnchorId) = ins.2 := by rw [← heq]
      rw [if_pos (congrArg some heq), if_pos hid]
    · have hid : (⟨ins.2.slot, gen⟩ : AnchorId) ≠ ins.2 := fun h => heq (by rw [← h])
      rw [if_neg (fun h => heq (Option.some.inj h)), if_neg hid]
      split <;> rfl
  · obtain ⟨hg, hf⟩ := hother slot hslot
    have hid : (⟨slot, gen⟩ : AnchorId) ≠ ins.2 := fun h => hslot (by rw [← h])
    rw [if_neg hid, hg, hf]

theorem get_eq_some : (s.get id).isSome = true ↔
    s.genAt id.slot = some id.gen ∧ s.anchorAt id.slot ≠ none := by
  unfold get genAt anchorAt
  cases s.slots[id.slot]? with
  | none => simp
  | some sl =>
    by_cases hgen : sl.gen = id.gen
    · simp [hgen, Option.isSome_iff_ne_none]
    · simp [hgen]

theorem remove_spec (hlive : (s.get id).isSome = true) :
    (s.remove id).1.genAt id.slot = some ((id.gen + 1) % genModulus) ∧
    (s.remove id).1.followedAt id.slot = none ∧
    (∀ slot, slot ≠ id.slot → (s.remove id).1.genAt slot = s.genAt slot ∧
      (s.remove id).1.followedAt slot = s.followedAt slot) ∧
    (s.remove id).1.stale = true ∧ (s.remove id).1.free = s.free ++ [id.slot] ∧
    (s.remove id).1.slots.length = s.slots.length := by
  obtain ⟨hgen, hanchor⟩ := get_eq_some.mp hlive
  obtain ⟨sl, hsl, hslgen⟩ := Option.map_eq_some_iff.mp hgen
  unfold remove
  rw [if_pos hlive]
  refine ⟨?_, ?_, fun slot hne => ?_, rfl, rfl, List.length_modify _ _ _⟩
  · rw [genAt, List.getElem?_modify_eq, hsl, ← hslgen]
    rfl
  · rw [followedAt, anchorAt, List.getElem?_modify_eq, hsl]
    rfl
  · exact same_slot (List.getElem?_modify_ne _ _ (Ne.symm hne)) rfl

theorem remove_of_dead (hdead : ¬ (s.get id).isSome = true) :
    (s.remove id).1 = s := by
  rw [remove, if_neg hdead]

/-- A removal keeps the invariant. -/
theorem remove_inv (h : Inv text s) (id : AnchorId) : Inv text (s.remove id).1 := by
  by_cases hlive : (s.get id).isSome = true
  · obtain ⟨-, hgone, hother, hstale, hfree, hlen⟩ := remove_spec hlive
    obtain ⟨-, hanchor⟩ := get_eq_some.mp hlive
    obtain ⟨a, ha⟩ := Option.ne_none_iff_exists'.mp hanchor
    have hnot : id.slot ∉ s.free := fun hin => hanchor ((h.free id.slot).mp hin).2
    generalize (s.remove id).1 = s' at *
    refine ⟨?_, fun slot => ?_, fun hs => ?_, fun slot f hslot => ?_⟩
    · rw [hfree]
      refine List.nodup_append.mpr ⟨h.freeOnce, List.nodup_singleton _, fun i hi j hj => ?_⟩
      rw [List.mem_singleton.mp hj]
      rintro rfl
      exact hnot hi
    · rw [hfree, List.mem_append, List.mem_singleton, h.free, hlen]
      by_cases heq : slot = id.slot
      · rw [heq, followedAt_eq_none.mp hgone]
        exact ⟨fun _ => ⟨anchorAt_some ha, rfl⟩, fun _ => .inr rfl⟩
      · have hsame : s'.anchorAt slot = none ↔ s.anchorAt slot = none := by
          rw [← followedAt_eq_none, ← followedAt_eq_none, (hother slot heq).2]
        rw [hsame]
        exact ⟨fun hin => hin.resolve_right heq, .inl⟩
    · rw [hstale] at hs
      cases hs
    · by_cases heq : slot = id.slot
      · rw [heq, hgone] at hslot
        cases hslot
      · rw [(hother slot heq).2] at hslot
        exact h.stands slot f hslot
  · rw [remove_of_dead hlive]
    exact h

/-- A removal takes the anchor of that id away and no other. -/
theorem remove_view (s : AnchorStore) (id id' : AnchorId) :
    (s.remove id).1.view id' = if id' = id then none else s.view id' := by
  by_cases hlive : (s.get id).isSome = true
  · obtain ⟨-, hgone, hother, -⟩ := remove_spec hlive
    obtain ⟨hgen, -⟩ := get_eq_some.mp hlive
    obtain ⟨slot, gen⟩ := id'
    unfold view
    by_cases hslot : slot = id.slot
    · have hnone : (if s.genAt id.slot = some gen then s.followedAt id.slot else none) =
          if gen = id.gen then s.followedAt id.slot else none := by
        rw [hgen]
        simp [eq_comm]
      rw [hslot, hgone, hnone, ite_self]
      by_cases heq : gen = id.gen
      · have hid : (⟨id.slot, gen⟩ : AnchorId) = id := by rw [heq]
        rw [if_pos hid]
      · rw [if_neg heq, ite_self]
    · obtain ⟨hg, hf⟩ := hother slot hslot
      have hid : (⟨slot, gen⟩ : AnchorId) ≠ id := fun h => hslot (by rw [← h])
      rw [if_neg hid, hg, hf]
  · rw [remove_of_dead hlive]
    split
    · rename_i heq
      subst heq
      unfold view
      split
      · rename_i hgen
        rw [followedAt_eq_none]
        by_contra hanchor
        exact hlive (get_eq_some.mpr ⟨hgen, hanchor⟩)
      · rfl
    · rfl

/-! ## Changes -/

theorem map_eq_self {α : Type*} {o : Option α} {f : α → α} (h : ∀ x, o = some x → f x = x) :
    o.map f = o := by
  cases o with
  | none => rfl
  | some x => rw [Option.map_some, h x rfl]

theorem follow_nil {f : Followed} {text : Bytes} (hf : f.Stands text) :
    f.follow ⟨text, EditList.empty.applyTo text, []⟩ = f := by
  obtain ⟨hpos, hline⟩ := hf
  unfold Followed.follow
  split
  · rw [mapByteInside_far .nil nofun]
    simp [editsBefore]
  · rename_i g hg
    rw [show LineMap.mapOffset ⟨text, EditList.empty.applyTo text, []⟩ f.pos g =
      some ((f.pos : Int) + sumDelta (editsBefore [] f.pos)).toNat from
        mapOffset_far (l := EditList.empty) nofun hpos nofun (hline g hg) g]
    simp [editsBefore]

theorem plans_zip (s : AnchorStore) (m : LineMap) :
    ((regions m).map (s.planRegion m)).zip (regions m) = s.plans m := by
  have h := List.zip_map' (f := s.planRegion m) (g := id) (l := regions m)
  rwa [List.map_id] at h

/-- A change is planned over the order as it stands or as it is normalized. -/
theorem applyChange_eq (old new : Bytes) {l : EditList} (hedits : l.edits ≠ []) (hlen : s.len ≠ 0) :
    ∃ t stale, (s.applyChange old new l) = { t.carried ⟨old, new, l.edits⟩ with stale } ∧
      (t = s ∧ s.stale = false ∨ t = s.normalize) ∧
      (stale = false → t.stale = false → ∀ q ∈ t.plans ⟨old, new, l.edits⟩,
        (t.carried ⟨old, new, l.edits⟩).inverted t.order.length q.1.lo = false ∧
          (t.carried ⟨old, new, l.edits⟩).inverted t.order.length q.1.hi = false) := by
  have hskip : ¬ (l.edits.isEmpty = true ∨ s.len = 0) := by
    rw [List.isEmpty_iff]
    exact not_or_intro hedits hlen
  refine ⟨if s.stale then s.normalize else s, ?_⟩
  have hbuilt : ((if s.stale then s.normalize else s) = s ∧ s.stale = false) ∨
      (if s.stale then s.normalize else s) = s.normalize := by
    cases s.stale
    · exact .inl ⟨rfl, rfl⟩
    · exact .inr rfl
  unfold applyChange
  rw [if_neg hskip]
  dsimp only
  generalize (if s.stale then s.normalize else s) = t at hbuilt
  rw [plans_zip]
  split
  · exact ⟨true, rfl, hbuilt, nofun⟩
  · rename_i hnone
    refine ⟨(t.carried ⟨old, new, l.edits⟩).stale, rfl, hbuilt, fun _ _ q hq => ?_⟩
    obtain ⟨rg, hrg, rfl⟩ := List.mem_map.mp hq
    have hq' := mt (fun h => List.any_eq_true.mpr ⟨_, List.mem_map_of_mem hrg, h⟩) hnone
    rw [Bool.or_eq_true, not_or, Bool.not_eq_true, Bool.not_eq_true] at hq'
    exact hq'

section

variable {old : Bytes} {l : EditList} (h : Inv old s) (hin : l.InBounds old.length)
include h hin

/-- A change sends every anchor where the rule sends it alone, whatever the order. -/
theorem applyChange_spec :
    (∀ slot, (s.applyChange old (l.applyTo old) l).followedAt slot =
      (s.followedAt slot).map fun f => f.follow ⟨old, l.applyTo old, l.edits⟩) ∧
    (∀ slot, (s.applyChange old (l.applyTo old) l).genAt slot = s.genAt slot) ∧
    (s.applyChange old (l.applyTo old) l).free = s.free ∧
    (s.applyChange old (l.applyTo old) l).slots.length = s.slots.length ∧
    ((s.applyChange old (l.applyTo old) l).stale = false →
      (s.applyChange old (l.applyTo old) l).Ordered) := by
  by_cases hedits : l.edits = []
  · have hempty : l = EditList.empty := EditList.ext' hedits
    have hsame : s.applyChange old (l.applyTo old) l = s := by
      rw [applyChange, if_pos (.inl (by rw [hedits]; rfl))]
    rw [hsame]
    refine ⟨fun slot => (map_eq_self fun f hf => ?_).symm, fun _ => rfl, rfl, rfl, h.ordered⟩
    rw [hempty]
    exact follow_nil (h.stands slot f hf)
  by_cases hlen : s.len = 0
  · have hsame : s.applyChange old (l.applyTo old) l = s := by
      rw [applyChange, if_pos (.inr hlen)]
    rw [hsame]
    refine ⟨fun slot => (map_eq_self fun f hf => ?_).symm, fun _ => rfl, rfl, rfl, h.ordered⟩
    obtain ⟨a, ha, -⟩ := Option.map_eq_some_iff.mp hf
    exact absurd hlen (h.len_ne_zero ha)
  obtain ⟨t, stale, heq, hbuilt, hchecked⟩ := applyChange_eq old (l.applyTo old) hedits hlen
  -- the store the regions are written to is ordered, and stands for the same anchors
  have ht : t.Ordered ∧ (∀ slot, t.followedAt slot = s.followedAt slot) ∧
      (∀ slot, t.genAt slot = s.genAt slot) ∧ t.free = s.free ∧
        t.slots.length = s.slots.length ∧ t.stale = false := by
    rcases hbuilt with ⟨rfl, hstale⟩ | rfl
    · exact ⟨h.ordered hstale, fun _ => rfl, fun _ => rfl, rfl, rfl, hstale⟩
    · refine ⟨normalize_ordered s, normalize_followedAt s, normalize_genAt s, rfl, ?_, rfl⟩
      rw [normalize_slots, length_modifyAll]
  obtain ⟨hord, hfollowed, hgens, hfree, hslots, hbuilt'⟩ := ht
  have hstands : ∀ slot f, t.followedAt slot = some f → f.Stands old :=
    fun slot f hf => h.stands slot f ((hfollowed slot).symm.trans hf)
  have hw := carried_written hord hin (l.applyTo old)
  rw [heq]
  refine ⟨fun slot => ?_, fun slot => ?_, hw.free.trans hfree, hw.slotCount.trans hslots,
    fun hstale => ?_⟩
  · rw [← hfollowed slot]
    exact carried_followedAt hord hin hstands slot
  · rw [← hgens slot]
    exact carried_genAt hord hin (l.applyTo old) slot
  · have hordered := carried_ordered hord hin hstands (hchecked hstale hbuilt')
    exact ⟨hordered.ranks, hordered.ranked, hordered.live, hordered.sorted⟩

theorem applyChange_inv : Inv (l.applyTo old) (s.applyChange old (l.applyTo old) l) := by
  obtain ⟨hfollowed, -, hfree, hslots, hordered⟩ := applyChange_spec h hin
  generalize s.applyChange old (l.applyTo old) l = s' at *
  refine ⟨hfree ▸ h.freeOnce, fun slot => ?_, hordered, fun slot f hf => ?_⟩
  · have hsame : s'.anchorAt slot = none ↔ s.anchorAt slot = none := by
      rw [← followedAt_eq_none, hfollowed, Option.map_eq_none_iff, followedAt_eq_none]
    rw [hfree, h.free, hslots, hsame]
  · rw [hfollowed] at hf
    obtain ⟨f', hf', rfl⟩ := Option.map_eq_some_iff.mp hf
    exact follow_stands hin (h.stands slot f' hf')

theorem applyChange_view (id : AnchorId) : (s.applyChange old (l.applyTo old) l).view id =
    (s.view id).map fun f => f.follow ⟨old, l.applyTo old, l.edits⟩ := by
  obtain ⟨hfollowed, hgens, -⟩ := applyChange_spec h hin
  unfold view
  rw [hgens, hfollowed]
  split <;> rfl

end

end AnchorStore

/-! ## Runs -/

/-- A store, the text, and the anchors the store stands for. -/
structure Marked where
  text : Bytes
  store : AnchorStore
  /-- The ids handed out. -/
  handed : List AnchorId
  /-- Each live anchor, followed alone. -/
  alone : AnchorId → Option Followed

/-- The calls of an anchor store, with their arguments. -/
inductive AnchorOp where
  | insert (offset : Nat) (bias : Bias) (policy : AnchorPolicy)
  | insertLine (offset : Nat) (gravity : LineGravity)
  | remove (id : AnchorId)
  | applyChange (edits : EditList)

namespace Marked

def start (text : Bytes) : Marked := ⟨text, .new, [], fun _ => none⟩

def handOut (s : Marked) (res : AnchorStore × AnchorId) (f : Followed) : Marked :=
  { s with
    store := res.1
    handed := res.2 :: s.handed
    alone := Function.update s.alone res.2 (some f) }

def step (s : Marked) : AnchorOp → Marked
  | .insert offset bias policy =>
    s.handOut (s.store.insert offset bias policy) ⟨offset, .byte bias, policy, false⟩
  | .insertLine offset gravity =>
    s.handOut (s.store.insertLine offset gravity) ⟨offset, .line gravity, .clamp, false⟩
  | .remove id =>
    { s with store := (s.store.remove id).1, alone := Function.update s.alone id none }
  | .applyChange edits =>
    { s with
      text := edits.applyTo s.text
      store := s.store.applyChange s.text (edits.applyTo s.text) edits
      alone := fun id =>
        (s.alone id).map fun f => f.follow ⟨s.text, edits.applyTo s.text, edits.edits⟩ }

/-- An anchor is put inside the text, one by line on a character boundary, and edits are
in bounds. -/
def Allowed (s : Marked) : AnchorOp → Prop
  | .insert offset _ _ => offset ≤ s.text.length
  | .insertLine offset _ => offset ≤ s.text.length ∧ isBoundary s.text offset = true
  | .remove _ => True
  | .applyChange edits => edits.InBounds s.text.length

instance (s : Marked) : (op : AnchorOp) → Decidable (s.Allowed op)
  | .insert offset _ _ => inferInstanceAs (Decidable (offset ≤ s.text.length))
  | .insertLine offset _ =>
    inferInstanceAs (Decidable (offset ≤ s.text.length ∧ isBoundary s.text offset = true))
  | .remove _ => inferInstanceAs (Decidable True)
  | .applyChange edits => inferInstanceAs (Decidable (edits.InBounds s.text.length))

/-- Every call of a run is allowed where it is made. -/
def Permitted : Marked → List AnchorOp → Prop
  | _, [] => True
  | s, op :: ops => s.Allowed op ∧ Permitted (s.step op) ops

/-- Between calls, `n` of them made: the store stands for the anchors followed alone,
and every id handed out is of a generation its slot is past or at. -/
structure Refines (n : Nat) (s : Marked) : Prop where
  inv : AnchorStore.Inv s.text s.store
  alone : ∀ id, s.store.view id = s.alone id
  once : s.handed.Nodup
  gens : ∀ slot g, s.store.genAt slot = some g → g ≤ n
  handed : ∀ id ∈ s.handed, ∃ g, s.store.genAt id.slot = some g ∧
    (id.gen < g ∨ (id.gen = g ∧ s.store.followedAt id.slot ≠ none))

variable {n : Nat} {s : Marked}

/-- Handing an anchor out keeps the store a refinement, with one handing more. -/
theorem handOut_refines (h : Refines n s) {offset : Nat} {track : Track} {policy : AnchorPolicy}
    (hf : (⟨offset, track, policy, false⟩ : Followed).Stands s.text) :
    Refines (n + 1) (s.handOut (s.store.insertTracked offset track policy)
      ⟨offset, track, policy, false⟩) := by
  have hinv := AnchorStore.insertTracked_inv h.inv hf
  have hview := AnchorStore.insertTracked_view h.inv offset track policy
  obtain ⟨hnone, hgen, hgen', hnew, hother, -⟩ :=
    AnchorStore.insertTracked_spec h.inv offset track policy
  generalize s.store.insertTracked offset track policy = ins at *
  -- an id handed out for this slot before is of an earlier generation
  have hpast : ∀ id ∈ s.handed, id.slot = ins.2.slot → id.gen < ins.2.gen := by
    intro id hid hslot
    obtain ⟨g, hg, hlt⟩ := h.handed id hid
    rw [hslot] at hg hlt
    rcases hgen with ⟨hempty, -⟩ | hsame
    · rw [hempty] at hg
      cases hg
    · rw [hsame] at hg
      cases hg
      exact hlt.resolve_right fun hlive => hlive.2 (AnchorStore.followedAt_eq_none.mpr hnone)
  refine ⟨hinv, fun id => ?_, ?_, fun slot g hg => ?_, fun id hid => ?_⟩
  · show ins.1.view id = Function.update s.alone ins.2 _ id
    rw [hview, h.alone, Function.update_apply]
  · refine List.nodup_cons.mpr ⟨fun hmem => ?_, h.once⟩
    exact Nat.lt_irrefl _ (hpast ins.2 hmem rfl)
  · by_cases hslot : slot = ins.2.slot
    · rcases hgen with ⟨-, hzero⟩ | hsame
      · change ins.1.genAt slot = some g at hg
        rw [hslot, hgen'] at hg
        cases hg
        omega
      · change ins.1.genAt slot = some g at hg
        rw [hslot, hgen', ← hsame] at hg
        exact Nat.le_succ_of_le (h.gens _ g hg)
    · change ins.1.genAt slot = some g at hg
      rw [(hother slot hslot).1] at hg
      exact Nat.le_succ_of_le (h.gens slot g hg)
  · rcases List.mem_cons.mp hid with rfl | hid
    · refine ⟨ins.2.gen, hgen', .inr ⟨rfl, ?_⟩⟩
      show ins.1.followedAt ins.2.slot ≠ none
      rw [hnew]
      exact Option.some_ne_none _
    · by_cases hslot : id.slot = ins.2.slot
      · refine ⟨ins.2.gen, ?_, .inl (hpast id hid hslot)⟩
        rw [hslot]
        exact hgen'
      · obtain ⟨g, hg, hlt⟩ := h.handed id hid
        obtain ⟨hsame, hsame'⟩ := hother id.slot hslot
        refine ⟨g, hsame.trans hg, hlt.imp_right fun hlive => ⟨hlive.1, ?_⟩⟩
        show ins.1.followedAt id.slot ≠ none
        rw [hsame']
        exact hlive.2

/-- A removal keeps the store a refinement. -/
theorem remove_refines (h : Refines n s) (hn : n + 1 < genModulus) (id : AnchorId) :
    Refines (n + 1) (s.step (.remove id)) := by
  refine ⟨AnchorStore.remove_inv h.inv id, fun id' => ?_, h.once, fun slot g hg => ?_,
    fun id' hid' => ?_⟩
  · show (s.store.remove id).1.view id' = Function.update s.alone id none id'
    rw [AnchorStore.remove_view, h.alone, Function.update_apply]
  · change (s.store.remove id).1.genAt slot = some g at hg
    by_cases hlive : (s.store.get id).isSome = true
    · obtain ⟨hgone, -, hother, -⟩ := AnchorStore.remove_spec hlive
      have hgen := (AnchorStore.get_eq_some.mp hlive).1
      by_cases hslot : slot = id.slot
      · rw [hslot, hgone] at hg
        cases hg
        have := h.gens _ _ hgen
        rw [Nat.mod_eq_of_lt (by omega)]
        omega
      · rw [(hother slot hslot).1] at hg
        exact Nat.le_succ_of_le (h.gens slot g hg)
    · rw [AnchorStore.remove_of_dead hlive] at hg
      exact Nat.le_succ_of_le (h.gens slot g hg)
  · obtain ⟨g, hg, hlt⟩ := h.handed id' hid'
    show ∃ g, (s.store.remove id).1.genAt id'.slot = some g ∧
      (id'.gen < g ∨ (id'.gen = g ∧ (s.store.remove id).1.followedAt id'.slot ≠ none))
    by_cases hlive : (s.store.get id).isSome = true
    · obtain ⟨hgone, -, hother, -⟩ := AnchorStore.remove_spec hlive
      have hgen := (AnchorStore.get_eq_some.mp hlive).1
      by_cases hslot : id'.slot = id.slot
      · rw [hslot, hgen] at hg
        cases hg
        -- the generation moves past every id of the slot
        have hle := h.gens _ _ hgen
        refine ⟨id.gen + 1, ?_, .inl (by omega)⟩
        rw [hslot, hgone, Nat.mod_eq_of_lt (by omega)]
      · obtain ⟨hsame, hsame'⟩ := hother id'.slot hslot
        exact ⟨g, hsame.trans hg, hlt.imp_right fun hin => ⟨hin.1, by rw [hsame']; exact hin.2⟩⟩
    · rw [AnchorStore.remove_of_dead hlive]
      exact ⟨g, hg, hlt⟩

theorem applyChange_refines (h : Refines n s) {edits : EditList}
    (hin : edits.InBounds s.text.length) : Refines (n + 1) (s.step (.applyChange edits)) := by
  have hview := AnchorStore.applyChange_view h.inv hin
  obtain ⟨hfollowed, hgens, -⟩ := AnchorStore.applyChange_spec h.inv hin
  refine ⟨AnchorStore.applyChange_inv h.inv hin, fun id => ?_, h.once, fun slot g hg => ?_,
    fun id hid => ?_⟩
  · refine (hview id).trans ?_
    rw [h.alone]
    rfl
  · exact Nat.le_succ_of_le (h.gens slot g ((hgens slot).symm.trans hg))
  · obtain ⟨g, hg, hlt⟩ := h.handed id hid
    refine ⟨g, (hgens id.slot).trans hg, hlt.imp_right fun hlive => ⟨hlive.1, fun hnone => ?_⟩⟩
    have hnone' := (hfollowed id.slot).symm.trans hnone
    exact hlive.2 (Option.map_eq_none_iff.mp hnone')

theorem step_refines (h : Refines n s) (hn : n + 1 < genModulus) {op : AnchorOp}
    (hop : s.Allowed op) : Refines (n + 1) (s.step op) := by
  cases op with
  | insert offset bias policy => exact handOut_refines h ⟨hop, nofun⟩
  | insertLine offset gravity => exact handOut_refines h ⟨hop.1, fun _ _ => hop.2⟩
  | remove id => exact remove_refines h hn id
  | applyChange edits => exact applyChange_refines h hop

theorem run_refines (h : Refines n s) {ops : List AnchorOp} (hn : n + ops.length < genModulus)
    (hops : Permitted s ops) : Refines (n + ops.length) (run step s ops) := by
  induction ops generalizing s n with
  | nil => exact h
  | cons op ops ih =>
    rw [List.length_cons] at hn ⊢
    have hrest := ih (step_refines h (by omega) hops.1) (by omega) hops.2
    rw [show n + (ops.length + 1) = n + 1 + ops.length by omega]
    exact hrest

theorem start_refines (text : Bytes) : Refines 0 (start text) where
  inv := AnchorStore.new_inv text
  alone _ := rfl
  once := .nil
  gens := nofun
  handed := nofun

/-- The store refines the one-anchor rules. After any calls, fewer than there are
generations, with anchors put inside the text and edits in bounds: no id is handed out
twice, the store reports of every id the offset and the flag of the anchor followed
alone, or that it is not live, and its structure is sound. -/
theorem store_refines (text : Bytes) (ops : List AnchorOp) (hops : Permitted (start text) ops)
    (hlen : ops.length < genModulus) :
    let s := run step (start text) ops
    s.handed.Nodup ∧
    (∀ id, s.store.tryResolve id = (s.alone id).map fun f => ⟨f.pos, f.lost⟩) ∧
    s.store.Invariants s.text.length := by
  have h := run_refines (start_refines text) (by omega) hops
  refine ⟨h.once, fun id => ?_, h.inv.invariants⟩
  rw [AnchorStore.tryResolve_eq, h.alone]

/-- A mark at the start of the third of six lines, removed by no edit, and text put on
the first. -/
theorem store_refines_third :
    let s := run step (start [97, 10, 98, 10, 99, 10, 100, 10, 101, 10, 102])
      [.insertLine 4 .keep, .applyChange ⟨[Edit.insert 1 [120]], by decide, by decide⟩]
    s.handed.Nodup ∧
    (∀ id, s.store.tryResolve id = (s.alone id).map fun f => ⟨f.pos, f.lost⟩) ∧
    s.store.Invariants s.text.length :=
  store_refines [97, 10, 98, 10, 99, 10, 100, 10, 101, 10, 102]
    [.insertLine 4 .keep, .applyChange ⟨[Edit.insert 1 [120]], by decide, by decide⟩]
    ⟨by decide, by decide, trivial⟩ (by decide)

/-- A byte typed at the end of the last of four lines. -/
def typedLast : EditList := ⟨[Edit.insert 8 [120]], by decide, by decide⟩

/-- A line anchor put inside a character of a line no edit comes near stays there, where
the line rule puts it back on the character's start. -/
theorem store_keeps_inside_char :
    let s := run step (start [195, 169, 10, 98, 10, 99, 10, 100])
      [.insertLine 1 .keep, .applyChange typedLast]
    typedLast.InBounds [195, 169, 10, 98, 10, 99, 10, 100].length ∧
    s.store.tryResolve ⟨0, 0⟩ = some ⟨1, false⟩ ∧
    s.alone ⟨0, 0⟩ = some ⟨0, .line .keep, .clamp, false⟩ := by
  refine ⟨by decide, ?_, ?_⟩
  · decide +kernel
  · decide +kernel

end Marked

end Ruse.Core
