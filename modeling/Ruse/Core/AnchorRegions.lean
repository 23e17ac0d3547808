import Mathlib.Data.List.Induction
import Ruse.Core.AnchorFar

/-!
# The touched regions

`AnchorStore.regions` merges the regions of the edits that meet. The merged regions
lie apart, and a position outside all of them is far from every edit, the deltas of
the regions left of it adding up to those of the edits before it (`regions_outside`).
-/

namespace Ruse.Core

/-- The position is outside the region. -/
def Region.Outside (r : Region) (o : Nat) : Prop := o < r.ws ∨ r.we < o

/-- The summed delta of the regions left of a position. -/
def deltaLeft (rs : List Region) (o : Nat) : Int :=
  ((rs.filter fun r => r.we < o).map Region.delta).sum

theorem deltaLeft_append (rs rs' : List Region) (o : Nat) :
    deltaLeft (rs ++ rs') o = deltaLeft rs o + deltaLeft rs' o := by
  simp [deltaLeft]

theorem deltaLeft_singleton (r : Region) (o : Nat) :
    deltaLeft [r] o = if r.we < o then r.delta else 0 := by
  by_cases h : r.we < o <;> simp [deltaLeft, h]

/-- `merged` is what merging the regions of `pieces` that meet gives. -/
structure Merges (pieces merged : List Region) : Prop where
  apart : merged.Pairwise fun r r' => r.we < r'.ws
  proper : ∀ r ∈ merged, r.ws ≤ r.we
  starts : ∀ r ∈ merged, ∃ p ∈ pieces, r.ws = p.ws
  outside : ∀ o, (∀ r ∈ merged, r.Outside o) →
    (∀ p ∈ pieces, p.Outside o) ∧ deltaLeft merged o = deltaLeft pieces o

namespace Merges

variable {pieces merged : List Region} {p : Region}

/-- A piece past all the merged regions is one of its own. -/
theorem append (h : Merges pieces merged) (hp : p.ws ≤ p.we)
    (hpast : ∀ r ∈ merged, r.we < p.ws) : Merges (pieces ++ [p]) (merged ++ [p]) := by
  constructor
  · refine List.pairwise_append.mpr ⟨h.apart, List.pairwise_singleton _ _, fun r hr p' hp' => ?_⟩
    rw [List.mem_singleton.mp hp']
    exact hpast r hr
  · intro r hr
    rcases List.mem_append.mp hr with hr | hr
    · exact h.proper r hr
    · rw [List.mem_singleton.mp hr]
      exact hp
  · intro r hr
    rcases List.mem_append.mp hr with hr | hr
    · obtain ⟨q, hq, heq⟩ := h.starts r hr
      exact ⟨q, List.mem_append_left _ hq, heq⟩
    · exact ⟨r, List.mem_append_right _ hr, rfl⟩
  · intro o hout
    obtain ⟨hpieces, hdelta⟩ := h.outside o fun r hr => hout r (List.mem_append_left _ hr)
    refine ⟨fun q hq => ?_, by rw [deltaLeft_append, deltaLeft_append, hdelta]⟩
    rcases List.mem_append.mp hq with hq | hq
    · exact hpieces q hq
    · exact hout q (List.mem_append_right _ hq)

/-- A piece that meets the last merged region widens it and adds its delta. -/
theorem extend {front : List Region} {last : Region} (h : Merges pieces (front ++ [last]))
    (hsorted : ∀ q ∈ pieces, q.ws ≤ p.ws) (hp : p.ws ≤ p.we) :
    Merges (pieces ++ [p])
      (front ++ [⟨last.ws, max last.we p.we, last.delta + p.delta⟩]) := by
  have hlast : last ∈ front ++ [last] := List.mem_append_right _ List.mem_cons_self
  have hproper := h.proper last hlast
  obtain ⟨q, hq, hqs⟩ := h.starts last hlast
  have hlp := hsorted q hq
  obtain ⟨hfront, -, hapart⟩ := List.pairwise_append.mp h.apart
  constructor
  · refine List.pairwise_append.mpr ⟨hfront, List.pairwise_singleton _ _, fun r hr p' hp' => ?_⟩
    rw [List.mem_singleton.mp hp']
    exact hapart r hr last List.mem_cons_self
  · intro r hr
    rcases List.mem_append.mp hr with hr | hr
    · exact h.proper r (List.mem_append_left _ hr)
    · rw [List.mem_singleton.mp hr]
      exact Nat.le_trans hproper (Nat.le_max_left _ _)
  · intro r hr
    rcases List.mem_append.mp hr with hr | hr
    · obtain ⟨q', hq', heq⟩ := h.starts r (List.mem_append_left _ hr)
      exact ⟨q', List.mem_append_left _ hq', heq⟩
    · rw [List.mem_singleton.mp hr]
      exact ⟨q, List.mem_append_left _ hq, hqs⟩
  · intro o hout
    have hnew : o < last.ws ∨ max last.we p.we < o :=
      hout _ (List.mem_append_right _ List.mem_cons_self)
    obtain ⟨hpieces, hdelta⟩ := h.outside o fun r hr => by
      rcases List.mem_append.mp hr with hr | hr
      · exact hout r (List.mem_append_left _ hr)
      · rw [List.mem_singleton.mp hr]
        exact hnew.imp id fun h => by omega
    refine ⟨fun q' hq' => ?_, ?_⟩
    · rcases List.mem_append.mp hq' with hq' | hq'
      · exact hpieces q' hq'
      · rw [List.mem_singleton.mp hq']
        exact hnew.imp (fun h => by omega) fun h => by omega
    · rw [deltaLeft_append, deltaLeft_append pieces, ← hdelta, deltaLeft_append,
        deltaLeft_singleton, deltaLeft_singleton, deltaLeft_singleton, Int.add_assoc]
      congr 1
      rcases hnew with hleft | hright
      · rw [if_neg (by dsimp only; omega), if_neg (by omega), if_neg (by omega), Int.add_zero]
      · rw [if_pos hright, if_pos (by omega), if_pos (by omega)]

/-- A region pushed in order of starts is merged. -/
theorem push (h : Merges pieces merged) (hsorted : ∀ q ∈ pieces, q.ws ≤ p.ws) (hp : p.ws ≤ p.we) :
    Merges (pieces ++ [p]) (AnchorStore.pushRegion merged p) := by
  unfold AnchorStore.pushRegion
  rcases List.eq_nil_or_concat merged with rfl | ⟨front, last, rfl⟩
  · exact h.append hp nofun
  · rw [List.concat_eq_append] at h ⊢
    rw [List.getLast?_concat]
    dsimp only
    split
    · rw [List.dropLast_concat]
      exact h.extend hsorted hp
    · rename_i hgap
      refine h.append hp fun r hr => ?_
      rcases List.mem_append.mp hr with hr | hr
      · have := (List.pairwise_append.mp h.apart).2.2 r hr last List.mem_cons_self
        have := h.proper last (List.mem_append_right _ List.mem_cons_self)
        omega
      · rw [List.mem_singleton.mp hr]
        omega

end Merges

theorem merges_foldl {pieces : List Region} (hsorted : pieces.Pairwise fun p q => p.ws ≤ q.ws)
    (hproper : ∀ p ∈ pieces, p.ws ≤ p.we) :
    Merges pieces (pieces.foldl AnchorStore.pushRegion []) := by
  induction pieces using List.reverseRecOn with
  | nil => exact ⟨.nil, nofun, nofun, fun _ _ => ⟨nofun, rfl⟩⟩
  | append_singleton pieces p ih =>
    obtain ⟨hs, -, hlast⟩ := List.pairwise_append.mp hsorted
    rw [List.foldl_append, List.foldl_cons, List.foldl_nil]
    exact (ih hs fun q hq => hproper q (List.mem_append_left _ hq)).push
      (fun q hq => hlast q hq p List.mem_cons_self)
      (hproper p (List.mem_append_right _ List.mem_cons_self))

section

variable {l : EditList} {old : Bytes} (hin : l.InBounds old.length)
include hin

theorem regions_merges (new : Bytes) : Merges (l.edits.map (AnchorStore.editRegion ⟨old, new, l.edits⟩))
    (AnchorStore.regions ⟨old, new, l.edits⟩) := by
  refine merges_foldl ?_ ?_
  · refine List.pairwise_map.mpr (l.sorted.imp fun {e e'} hbefore => ?_)
    refine lineStart_mono old ?_
    have := lineStart_mono old (Nat.le_of_lt hbefore.1)
    show lineStart old e.pos - 1 ≤ lineStart old e'.pos - 1
    omega
  · intro p hp
    obtain ⟨e, he, rfl⟩ := List.mem_map.mp hp
    have h := editRegion_covers ⟨old, new, l.edits⟩ (hin e he)
    have := e.pos_le_endPos
    omega

/-- A position outside the touched regions is far from every edit. -/
theorem regions_outside {new : Bytes} {o : Nat}
    (hout : ∀ r ∈ AnchorStore.regions ⟨old, new, l.edits⟩, r.Outside o) :
    (∀ e ∈ l.edits, Far ⟨old, new, l.edits⟩ o e) ∧
      deltaLeft (AnchorStore.regions ⟨old, new, l.edits⟩) o = sumDelta (editsBefore l.edits o) := by
  obtain ⟨hpieces, hdelta⟩ := (regions_merges hin new).outside o hout
  have hfar : ∀ e ∈ l.edits, Far ⟨old, new, l.edits⟩ o e :=
    fun e he => hpieces _ (List.mem_map_of_mem he)
  refine ⟨hfar, ?_⟩
  have hcovers (e : Edit) (he : e ∈ l.edits) :=
    editRegion_covers ⟨old, new, l.edits⟩ (hin e he)
  have hfilter : l.edits.filter (fun e => (AnchorStore.editRegion ⟨old, new, l.edits⟩ e).we < o) =
      editsBefore l.edits o := by
    refine (congrArg (List.filter _) (editsBefore_append l.edits o)).trans ?_
    rw [List.filter_append, List.filter_eq_self.mpr, List.filter_eq_nil_iff.mpr, List.append_nil]
    · intro e he
      have := le_endPos_of_drop l.sorted he
      have := (hcovers e (List.mem_of_mem_drop he)).2
      simp only [decide_eq_true_eq]
      omega
    · intro e he
      have hmem : e ∈ l.edits := (List.takeWhile_sublist _).mem he
      have hend := endPos_of_editsBefore he
      have hpos := e.pos_le_endPos
      have := (hcovers e hmem).1
      rcases hfar e hmem with hlt | hgt
      · omega
      · exact decide_eq_true hgt
  rw [hdelta, deltaLeft, List.filter_map, List.map_map, sumDelta, ← hfilter]
  rfl

end

end Ruse.Core
