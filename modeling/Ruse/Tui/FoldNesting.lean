import Ruse.Tui.FoldEdits

/-!
# The nesting of manual folds

Every command on manual folds keeps them a forest: every two are disjoint or one is over the
other, and each level is the depth. Opening and closing change no range and no level. A
delete takes its target out of the forest (`deleteAt_eq`). A new fold is put around the
folds of its level that it meets (`insertClosedFold_nested`).
-/

namespace Ruse.Tui

open Ruse.Lib

variable {r : List Fold × Bool}

/-- Folds of which every two are disjoint or one is over the other, each with its depth. -/
def DepthNested (folds : List Fold) : Prop := Forest (folds.map Fold.toRanked)

variable {folds : List Fold} {f g : Fold} {line i j start stop : Nat}

/-! ## Opening and closing -/

/-- What changes no range and no level. -/
def SameRanks (folds folds' : List Fold) : Prop :=
  folds'.map Fold.toRanked = folds.map Fold.toRanked

theorem SameRanks.trans {folds' folds'' : List Fold} (h : SameRanks folds folds')
    (h' : SameRanks folds' folds'') : SameRanks folds folds'' := Eq.trans h' h

theorem SameRanks.nested {folds' : List Fold} (h : SameRanks folds folds') (hn : DepthNested folds) :
    DepthNested folds' := by
  rw [DepthNested, h]
  exact hn

theorem setClosed_same (folds : List Fold) (i : Nat) (closed : Bool) :
    SameRanks folds (setClosed folds i closed) := by
  apply List.ext_getElem?
  intro j
  simp only [setClosed, List.getElem?_map, List.getElem?_modify]
  cases folds[j]? with
  | none => rfl
  | some f =>
    simp only [Option.map_some]
    split <;> rfl

theorem openOne_same (h : openOne folds line = some r) :
    SameRanks folds r.1 := by
  simp only [openOne] at h
  split at h
  · simp at h
  · split at h
    · rw [← Option.some.inj h]
      exact setClosed_same _ _ _
    · rw [← Option.some.inj h]
      rfl

theorem openRec_same (h : openRec folds line = some r) :
    SameRanks folds r.1 := by
  simp only [openRec] at h
  split at h
  · simp at h
  · split at h
    · rw [← Option.some.inj h]
      apply List.ext_getElem?
      intro j
      simp only [List.getElem?_map, List.getElem?_mapIdx]
      cases folds[j]? with
      | none => rfl
      | some f =>
        simp only [Option.map_some]
        split <;> rfl
    · rw [← Option.some.inj h]
      rfl

theorem closeOne_same (h : closeOne folds line = some r) :
    SameRanks folds r.1 := by
  simp only [closeOne] at h
  split at h
  · simp at h
  · split at h
    · rw [← Option.some.inj h]
      exact setClosed_same _ _ _
    · rw [← Option.some.inj h]
      rfl

theorem closeRec_same (h : closeRec folds line = some r) :
    SameRanks folds r.1 := by
  have hfold (on : List Nat) (acc : List Fold × Bool) : SameRanks acc.1
      (on.foldl (fun acc i => (setClosed acc.1 i true, acc.2 || !closedAt acc.1 i)) acc).1 := by
    induction on generalizing acc with
    | nil => rfl
    | cons i on ih => exact (setClosed_same acc.1 i true).trans (ih _)
  simp only [closeRec] at h
  split at h
  · simp at h
  · rw [← Option.some.inj h]
    exact hfold _ (folds, false)

theorem openAt_same (folds : List Fold) (line : Nat) : SameRanks folds (openAt folds line).1 := by
  simp only [SameRanks, openAt, List.map_map]
  apply List.map_congr_left
  intro f _
  simp only [Function.comp_apply]
  split <;> rfl

theorem opLine_same (folds : List Fold) (line : Nat) (opening recursive : Bool) :
    SameRanks folds (opLine folds line opening recursive).1 := by
  have helim {hit : Option (List Fold × Bool)} (h : ∀ r ∈ hit, SameRanks folds r.1) :
      SameRanks folds (hit.elim folds Prod.fst) := by
    cases hit with
    | none => rfl
    | some r => exact h r rfl
  simp only [opLine]
  apply helim
  intro r hr
  cases opening <;> cases recursive
  · exact closeOne_same hr
  · exact closeRec_same hr
  · exact openOne_same hr
  · exact openRec_same hr

theorem opRange_same (folds : List Fold) (first last : Nat) (opening recursive : Bool) :
    SameRanks folds (opRange folds first last opening recursive).1 := by
  fun_induction opRange folds first last opening recursive with
  | case1 folds first hle one rest ih => exact (opLine_same _ _ _ _).trans ih
  | case2 folds first hgt => rfl

/-! ## Deleting -/

theorem mem_path : i ∈ path folds line ↔ ∃ f, folds[i]? = some f ∧ f.contains line = true := by
  simp only [path, List.mem_map, List.mem_mergeSort, List.mem_filter]
  constructor
  · rintro ⟨⟨f, j⟩, ⟨hmem, hcontains⟩, rfl⟩
    exact ⟨f, List.mem_zipIdx_iff_getElem?.mp hmem, hcontains⟩
  · rintro ⟨f, hf, hcontains⟩
    exact ⟨(f, i), ⟨List.mem_zipIdx_iff_getElem?.mpr hf, hcontains⟩, rfl⟩

theorem deleteTarget_spec (h : deleteTarget folds line = some i) :
    ∃ t, folds[i]? = some t ∧ t.contains line = true := by
  refine mem_path.mp ?_
  simp only [deleteTarget] at h
  split at h
  · rename_i hfind
    rw [← Option.some.inj h]
    exact List.mem_of_find?_eq_some hfind
  · exact List.mem_of_getLast? h

theorem DepthNested.inj (h : DepthNested folds) {f g : Fold} (hi : folds[i]? = some f)
    (hj : folds[j]? = some g) (heq : f.toRanked = g.toRanked) : i = j := by
  have hnodup := h.nodup
  have hlt : i < (folds.map Fold.toRanked).length := by
    rw [List.length_map]
    exact (List.getElem?_eq_some_iff.mp hi).1
  refine (List.getElem?_inj hlt hnodup).mp ?_
  simp [hi, hj, heq]

theorem nestedIn_iff (h : DepthNested folds) (hi : folds[i]? = some f) (hj : folds[j]? = some g) :
    nestedIn folds i j = true ↔ f.toRanked.Over g.toRanked := by
  have hf : f.toRanked ∈ folds.map Fold.toRanked := List.mem_map_of_mem (List.mem_of_getElem? hi)
  have hg : g.toRanked ∈ folds.map Fold.toRanked := List.mem_map_of_mem (List.mem_of_getElem? hj)
  rw [h.over_iff hf hg]
  simp only [nestedIn, hi, hj, Bool.and_eq_true, bne_iff_ne, decide_eq_true_eq, Span.Inside]
  constructor
  · rintro ⟨⟨⟨_, hlevel⟩, hstart⟩, hstop⟩
    exact ⟨⟨hstart, hstop⟩, hlevel⟩
  · rintro ⟨⟨hstart, hstop⟩, hlevel⟩
    refine ⟨⟨⟨?_, hlevel⟩, hstart⟩, hstop⟩
    rintro rfl
    rw [hi] at hj
    rw [Option.some.inj hj] at hlevel
    exact Nat.lt_irrefl _ hlevel

/-- A fold after the delete of `t`: those it was over are a level further up. -/
def lowered (t f : Fold) : Fold :=
  if t.toRanked.Over f.toRanked then { f with level := f.level - 1 } else f

/-- A delete takes its target out, and the folds nested in it too when it is recursive. -/
theorem deleteAt_eq (h : DepthNested folds) (hi : deleteTarget folds line = some i)
    (recursive : Bool) : ∃ t ∈ folds, t.contains line = true ∧ folds[i]? = some t ∧
      deleteAt folds line recursive =
        ((folds.filter fun f => f.toRanked ≠ t.toRanked ∧
          ¬ (recursive = true ∧ t.toRanked.Over f.toRanked)).map (lowered t), true) := by
  obtain ⟨t, ht, hcontains⟩ := deleteTarget_spec hi
  refine ⟨t, List.mem_of_getElem? ht, hcontains, ht, ?_⟩
  simp only [deleteAt, hi, Prod.mk.injEq, and_true]
  have hfst : folds = folds.zipIdx.map Prod.fst := (List.zipIdx_map_fst 0 folds).symm
  conv_rhs => rw [hfst]
  rw [← List.filterMap_eq_map, ← List.filterMap_eq_filter, List.filterMap_filterMap,
    List.filterMap_map]
  refine List.filterMap_congr ?_
  rintro ⟨f, j⟩ hmem
  have hf : folds[j]? = some f := List.mem_zipIdx_iff_getElem?.mp hmem
  have hself : j = i ↔ f.toRanked = t.toRanked := by
    constructor
    · rintro rfl
      rw [ht] at hf
      rw [Option.some.inj hf]
    · exact fun heq => h.inj hf ht heq
  have hnested := nestedIn_iff h ht hf
  by_cases hj : f.toRanked = t.toRanked <;> by_cases hov : t.toRanked.Over f.toRanked <;>
    cases recursive <;> simp [hself, hnested, hj, hov, lowered, Option.guard]

/-- Deleting a fold keeps the folds nested. -/
theorem deleteAt_nested (h : DepthNested folds) (line : Nat) (recursive : Bool) :
    DepthNested (deleteAt folds line recursive).1 := by
  cases hi : deleteTarget folds line with
  | none => simpa [deleteAt, hi] using h
  | some i =>
    obtain ⟨t, ht, _, _, heq⟩ := deleteAt_eq h hi recursive
    have htr : t.toRanked ∈ folds.map Fold.toRanked := List.mem_map_of_mem ht
    have hlower (f : Fold) : (lowered t f).toRanked = Forest.raise t.toRanked f.toRanked := by
      unfold lowered Forest.raise
      split <;> rfl
    have hmap : (deleteAt folds line recursive).1.map Fold.toRanked =
        ((folds.map Fold.toRanked).filter fun p => p ≠ t.toRanked ∧
          ¬ (recursive = true ∧ t.toRanked.Over p)).map (Forest.raise t.toRanked) := by
      rw [heq, List.filter_map, List.map_map, List.map_map]
      refine List.map_congr_left fun f _ => hlower f
    unfold DepthNested
    rw [hmap]
    cases recursive with
    | false => simpa using h.lift htr
    | true =>
      -- what is kept is under none of what goes, so no level changes
      have hkeep : Forest ((folds.map Fold.toRanked).filter fun p => p ≠ t.toRanked ∧
          ¬ (true = true ∧ t.toRanked.Over p)) := by
        refine h.filter ?_
        intro p _ q _ hq hpq
        simp only [ne_eq, true_and, decide_eq_true_eq] at hq ⊢
        refine ⟨?_, fun htp => hq.2 (htp.trans hpq)⟩
        rintro rfl
        exact hq.2 hpq
      have hsame : ((folds.map Fold.toRanked).filter fun p => p ≠ t.toRanked ∧
          ¬ (true = true ∧ t.toRanked.Over p)).map (Forest.raise t.toRanked) =
          (folds.map Fold.toRanked).filter fun p => p ≠ t.toRanked ∧
            ¬ (true = true ∧ t.toRanked.Over p) := by
        refine (List.map_congr_left ?_).trans (List.map_id _)
        intro p hp
        have := (List.mem_filter.mp hp).2
        simp only [ne_eq, true_and, decide_eq_true_eq] at this
        simp [Forest.raise, this.2]
      rw [hsame]
      exact hkeep

/-! ## Creating -/

theorem parentFrom_spec (parent : Option Fold)
    (hparent : ∀ p ∈ parent, p ∈ folds ∧ p.start ≤ start ∧ stop ≤ p.stop) :
    ∀ p ∈ parentFrom folds start stop parent, p ∈ folds ∧ p.start ≤ start ∧ stop ≤ p.stop := by
  fun_induction parentFrom folds start stop parent with
  | case1 parent f hfind hle ih =>
    refine ih ?_
    intro p hp
    obtain rfl := Option.mem_some_iff.mp hp
    have hcontains := List.find?_some hfind
    simp only [Bool.and_eq_true, Fold.contains_iff, Span.Holds] at hcontains
    exact ⟨List.mem_of_find?_eq_some hfind, hcontains.2.1, hle⟩
  | case2 parent f hfind hgt => exact hparent
  | case3 parent hfind => exact hparent

/-- Whether a fold is of the level of a new one, in the same parent, and meets its lines. -/
def Meets (parent : Option Fold) (start stop : Nat) (p : Ranked) : Prop :=
  p.level = levelIn parent ∧ within parent p = true ∧ start ≤ p.stop ∧ p.start ≤ stop

/-- The span taken in is the least that holds the lines and the folds it meets. -/
theorem takenIn_spec (folds : List Fold) (parent : Option Fold) (start stop : Nat) :
    ((takenIn folds parent start stop).1 ≤ start ∧ stop ≤ (takenIn folds parent start stop).2) ∧
    (∀ f ∈ folds, Meets parent start stop f.toRanked →
      (takenIn folds parent start stop).1 ≤ f.start ∧
        f.stop ≤ (takenIn folds parent start stop).2) ∧
    ((takenIn folds parent start stop).1 = start ∨ ∃ f ∈ folds,
      Meets parent start stop f.toRanked ∧ (takenIn folds parent start stop).1 = f.start) ∧
    ((takenIn folds parent start stop).2 = stop ∨ ∃ f ∈ folds,
      Meets parent start stop f.toRanked ∧ (takenIn folds parent start stop).2 = f.stop) := by
  have hcond (f : Fold) : (f.level == levelIn parent && within parent f.toRanked &&
      start ≤ f.stop && f.start ≤ stop) = true ↔ Meets parent start stop f.toRanked := by
    simp [Meets, and_assoc]
  unfold takenIn
  -- induction from the last fold back, so that what was taken in is what the hull is of
  induction folds using List.reverseRecOn with
  | nil => simp
  | append_singleton fs f ih =>
    rw [List.foldl_append, List.foldl_cons, List.foldl_nil]
    generalize fs.foldl _ (start, stop) = r at ih ⊢
    obtain ⟨hask, hmet, hstart, hstop⟩ := ih
    have hold {P : Fold → Prop} (h : ∃ g ∈ fs, P g) : ∃ g ∈ fs ++ [f], P g := by
      obtain ⟨g, hg, hP⟩ := h
      exact ⟨g, List.mem_append_left _ hg, hP⟩
    by_cases hf : Meets parent start stop f.toRanked
    · rw [if_pos ((hcond f).mpr hf)]
      refine ⟨⟨by simp only; omega, by simp only; omega⟩, ?_, ?_, ?_⟩
      · intro g hg hgm
        rcases List.mem_append.mp hg with hg | hg
        · have := hmet g hg hgm
          simp only
          omega
        · rw [List.mem_singleton.mp hg]
          simp only
          omega
      · rcases Nat.le_total r.1 f.start with hle | hle
        · simp only [Nat.min_eq_left hle]
          exact hstart.imp_right hold
        · exact .inr ⟨f, by simp, hf, by simp only [Nat.min_eq_right hle]⟩
      · rcases Nat.le_total r.2 f.stop with hle | hle
        · exact .inr ⟨f, by simp, hf, by simp only [Nat.max_eq_right hle]⟩
        · simp only [Nat.max_eq_left hle]
          exact hstop.imp_right hold
    · rw [if_neg fun hc => hf ((hcond f).mp hc)]
      refine ⟨hask, ?_, hstart.imp_right hold, hstop.imp_right hold⟩
      intro g hg hgm
      rcases List.mem_append.mp hg with hg | hg
      · exact hmet g hg hgm
      · rw [List.mem_singleton.mp hg] at hgm
        exact absurd hgm hf

/-- The new fold over the lines taken in. -/
def newRank (folds : List Fold) (parent : Option Fold) (start stop : Nat) : Ranked :=
  ⟨⟨(takenIn folds parent start stop).1, (takenIn folds parent start stop).2⟩, levelIn parent⟩

section Create

variable {parent : Option Fold} (h : DepthNested folds)
  (hparent : ∀ p ∈ parent, p ∈ folds ∧ p.start ≤ start ∧ stop ≤ p.stop)
include h hparent

omit h in
theorem takenIn_parent : ∀ p ∈ parent,
    (newRank folds parent start stop).toSpan.Inside p.toSpan := by
  intro p hp
  obtain ⟨_, _, hstart, hstop⟩ := takenIn_spec folds parent start stop
  obtain ⟨_, hpstart, hpstop⟩ := hparent p hp
  have hmet : ∀ f : Fold, Meets parent start stop f.toRanked → p.start ≤ f.start ∧ f.stop ≤ p.stop := by
    intro f hf
    have := hf.2.1
    simpa [within, Option.mem_def.mp hp] using this
  constructor
  · rcases hstart with heq | ⟨f, _, hf, heq⟩
    · simpa only [newRank, heq] using hpstart
    · simpa only [newRank, heq] using (hmet f hf).1
  · rcases hstop with heq | ⟨f, _, hf, heq⟩
    · simpa only [newRank, heq] using hpstop
    · simpa only [newRank, heq] using (hmet f hf).2

omit hparent in
/-- A fold of the new one's level and parent that it does not meet is apart from all it takes
in. -/
theorem apart_of_not_meets {g : Ranked} (hg : g ∈ folds.map Fold.toRanked)
    (hlevel : g.level = levelIn parent) (hwithin : within parent g = true)
    (hmeet : ¬ Meets parent start stop g) : g.toSpan.Apart (newRank folds parent start stop).toSpan := by
  obtain ⟨hask, _, hstart, hstop⟩ := takenIn_spec folds parent start stop
  have hord := h.ordered g hg
  have hout : g.stop < start ∨ stop < g.start := by
    unfold Meets at hmeet
    simp only [hlevel, hwithin, true_and] at hmeet
    omega
  -- the folds met are of the same level, so they are apart from it too
  have hmet : ∀ m ∈ folds, Meets parent start stop m.toRanked → m.toSpan.Apart g.toSpan := by
    intro m hm hmm
    by_contra hap
    have := h.eq_of_level (List.mem_map_of_mem hm) hg (hmm.1.trans hlevel.symm) hap
    exact hmeet (this ▸ hmm)
  unfold Span.Apart newRank at *
  rcases hout with hout | hout
  · left
    rcases hstart with heq | ⟨m, hm, hmm, heq⟩
    · simp only [heq]
      exact hout
    · have := hmet m hm hmm
      have := hmm.2.2.1
      simp only [heq]
      omega
  · right
    rcases hstop with heq | ⟨m, hm, hmm, heq⟩
    · simp only [heq]
      exact hout
    · have := hmet m hm hmm
      have := hmm.2.2.2
      simp only [heq]
      omega

/-- How each fold stands to a new one: it is taken in, apart from it, or the parent or over
the parent. -/
theorem stand_of_mem {p : Ranked} (hp : p ∈ folds.map Fold.toRanked) :
    (wraps parent (takenIn folds parent start stop) p = true ∧
        p.toSpan.Inside (newRank folds parent start stop).toSpan ∧ levelIn parent ≤ p.level) ∨
      (wraps parent (takenIn folds parent start stop) p = false ∧
        p.toSpan.Apart (newRank folds parent start stop).toSpan) ∨
      (wraps parent (takenIn folds parent start stop) p = false ∧
        ∃ q ∈ parent, p = q.toRanked ∨ p.Over q.toRanked) := by
  have hord := h.ordered p hp
  have hrank : ∀ q ∈ parent, q.toRanked ∈ folds.map Fold.toRanked :=
    fun q hq => List.mem_map_of_mem (hparent q hq).1
  have hwithin (r : Ranked) : within parent r = true ↔ ∀ q ∈ parent, r.toSpan.Inside q.toSpan := by
    cases parent <;> simp [within, Span.Inside]
  have hlevelIn : ∀ q ∈ parent, levelIn parent = q.level + 1 := by
    intro q hq
    simp [levelIn, Option.mem_def.mp hq]
  have hwraps : wraps parent (takenIn folds parent start stop) p = true ↔
      (levelIn parent ≤ p.level ∧ within parent p = true) ∧
        p.toSpan.Inside (newRank folds parent start stop).toSpan := by
    simp [wraps, newRank, Span.Inside, and_assoc]
  by_cases hdeep : levelIn parent ≤ p.level ∧ within parent p = true
  · -- its fold of the new one's level is met or is not
    obtain ⟨g, hg, hglevel, hgp⟩ := h.exists_level (n := levelIn parent) hp
      (by cases parent <;> simp [levelIn]) hdeep.1
    have hpg : p.toSpan.Inside g.toSpan := by
      rcases hgp with rfl | hov
      · exact Span.Inside.refl _
      · exact hov.1
    have hgwithin : within parent g = true := by
      rw [hwithin]
      intro q hq
      have hpq := (hwithin p).mp hdeep.2 q hq
      have hlevel := hlevelIn q hq
      rcases h.cases_of_mem (hrank q hq) hg with heq | hap | hov | hov
      · rw [← heq] at hglevel
        omega
      · unfold Span.Apart Span.Inside at *
        omega
      · exact hov.1
      · have := h.level_lt hg (hrank q hq) hov
        omega
    by_cases hmeet : Meets parent start stop g
    · obtain ⟨f, hf, rfl⟩ := List.mem_map.mp hg
      have hin := (takenIn_spec folds parent start stop).2.1 f hf hmeet
      have hpn : p.toSpan.Inside (newRank folds parent start stop).toSpan := hpg.trans hin
      exact .inl ⟨hwraps.mpr ⟨hdeep, hpn⟩, hpn, hdeep.1⟩
    · right
      left
      have hap := apart_of_not_meets h hg hglevel hgwithin hmeet
      have hpap : p.toSpan.Apart (newRank folds parent start stop).toSpan := by
        unfold Span.Apart Span.Inside at *
        omega
      refine ⟨Bool.eq_false_iff.mpr fun hw => ?_, hpap⟩
      have hin := (hwraps.mp hw).2
      unfold Span.Apart Span.Inside at *
      omega
  · have hw : wraps parent (takenIn folds parent start stop) p = false :=
      Bool.eq_false_iff.mpr fun hw => hdeep (hwraps.mp hw).1
    right
    cases parent with
    | none =>
      have := h.level_pos hp
      exact absurd ⟨by simp only [levelIn, Option.elim_none]; omega, by simp [within]⟩ hdeep
    | some q =>
      have hq := takenIn_parent hparent q rfl
      rcases h.cases_of_mem hp (hrank q rfl) with heq | hap | hov | hov
      · exact .inr ⟨hw, q, rfl, .inl heq⟩
      · left
        refine ⟨hw, ?_⟩
        unfold Span.Apart Span.Inside newRank at *
        omega
      · exact .inr ⟨hw, q, rfl, .inr hov⟩
      · have := h.level_lt (hrank q rfl) hp hov
        exact absurd ⟨by simp only [levelIn, Option.elim_some]; omega,
          (hwithin p).mpr (by simpa using hov.1)⟩ hdeep

/-- Over a new fold are its parent and what is over that. -/
theorem over_new_iff (hle : start ≤ stop) {p : Ranked} (hp : p ∈ folds.map Fold.toRanked) :
    p.Over (newRank folds parent start stop) ↔ ∃ q ∈ parent, p = q.toRanked ∨ p.Over q.toRanked := by
  have hask := (takenIn_spec folds parent start stop).1
  constructor
  · intro hov
    rcases stand_of_mem h hparent hp with ⟨_, hin, hlevel⟩ | ⟨_, hap⟩ | ⟨_, hq⟩
    · simp only [Ranked.over_def, Span.Inside, newRank] at *
      omega
    · simp only [Ranked.over_def, Span.Apart, newRank] at *
      omega
    · exact hq
  · rintro ⟨q, hq, hpq⟩
    have hin := takenIn_parent hparent q hq
    have hlevelIn : levelIn parent = q.level + 1 := by simp [levelIn, Option.mem_def.mp hq]
    have hqn : q.toRanked.Over (newRank folds parent start stop) :=
      ⟨hin, fun _ => by simp only [newRank, hlevelIn]; omega⟩
    rcases hpq with rfl | hov
    · exact hqn
    · exact hov.trans hqn

theorem newRank_depth (hle : start ≤ stop) : levelIn parent =
    (folds.map Fold.toRanked).countP (fun p => p.Over (newRank folds parent start stop)) + 1 := by
  have hcount : (folds.map Fold.toRanked).countP
      (fun p => p.Over (newRank folds parent start stop)) =
      (folds.map Fold.toRanked).countP
        fun p => ∃ q ∈ parent, p = q.toRanked ∨ p.Over q.toRanked := by
    refine List.countP_congr ?_
    intro p hp
    simpa using over_new_iff h hparent hle hp
  rw [hcount]
  cases parent with
  | none => simp [levelIn]
  | some q =>
    have hq : q.toRanked ∈ folds.map Fold.toRanked := List.mem_map_of_mem (hparent q rfl).1
    simp only [levelIn, Option.elim_some, Option.mem_some_iff, exists_eq_left', h.level_eq_countP hq]

end Create

/-- A new fold is put among the folds, which stay nested. -/
theorem insertClosedFold_nested (h : DepthNested folds) (start stop : Nat) :
    DepthNested (insertClosedFold folds start stop) := by
  by_cases hle : start ≤ stop
  · have hparent : ∀ p ∈ parentFrom folds start stop none,
        p ∈ folds ∧ p.start ≤ start ∧ stop ≤ p.stop := parentFrom_spec none (by simp)
    have hask := (takenIn_spec folds (parentFrom folds start stop none) start stop).1
    have hmap : (insertClosedFold folds start stop).map Fold.toRanked =
        (folds.map Fold.toRanked).map (Forest.deepen (wraps (parentFrom folds start stop none)
          (takenIn folds (parentFrom folds start stop none) start stop))) ++
        [newRank folds (parentFrom folds start stop none) start stop] := by
      simp only [insertClosedFold, Nat.not_lt.mpr hle, if_false, List.map_append, List.map_map,
        List.map_cons, List.map_nil]
      congr 1
      refine List.map_congr_left ?_
      intro f _
      simp only [Function.comp_apply, Forest.deepen]
      split <;> rfl
    unfold DepthNested
    rw [hmap]
    refine h.wrap ?_ ?_ (newRank_depth h hparent hle)
    · simp only [newRank]
      omega
    · intro p hp
      rcases stand_of_mem h hparent hp with hin | hap | ⟨hw, hq⟩
      · exact .inr (.inr hin)
      · exact .inl hap
      · exact .inr (.inl ⟨hw, (over_new_iff h hparent hle hp).mpr hq⟩)
  · simpa [insertClosedFold, Nat.lt_of_not_le hle] using h

end Ruse.Tui
