import Ruse.Tui.FoldNesting

/-!
# The nesting given back

`renest` makes a forest of any ranges, and changes nothing of a forest that stands in its
order. So a set of manual folds that is a forest passes the walker's checks.

The loop keeps the folds it has nested and, of them, those that reach the first line of the
fold at hand (`Renesting`).
-/

namespace Ruse.Tui

open Ruse.Lib

variable {folds : List Fold} {f g : Fold}

theorem nestLe_trans (f g h : Fold) : nestLe f g = true → nestLe g h = true →
    nestLe f h = true := by
  simp only [nestLe, Bool.or_eq_true, Bool.and_eq_true, decide_eq_true_eq, beq_iff_eq]
  omega

theorem nestLe_total (f g : Fold) : (nestLe f g || nestLe g f) = true := by
  simp only [nestLe, Bool.or_eq_true, Bool.and_eq_true, decide_eq_true_eq, beq_iff_eq]
  omega

theorem nestLe_start (h : nestLe f g = true) : f.start ≤ g.start := by
  simp only [nestLe, Bool.or_eq_true, Bool.and_eq_true, decide_eq_true_eq, beq_iff_eq] at h
  omega

theorem not_over_of_nestLe (h : nestLe f g = true) : ¬ g.toRanked.Over f.toRanked := by
  simp only [nestLe, Bool.or_eq_true, Bool.and_eq_true, decide_eq_true_eq, beq_iff_eq] at h
  simp only [Ranked.over_def]
  omega

/-- The loop up to line `x`: the folds kept are a forest, and the stack holds those of them
that reach the line, innermost first. -/
structure Renesting (kept stack : List Fold) (x : Nat) : Prop where
  forest : DepthNested kept
  starts : ∀ f ∈ kept, f.start ≤ x
  before : kept.Pairwise fun f g => f.stop < g.start ∨ f.toRanked.Over g.toRanked
  stack : stack = (kept.filter fun f => x ≤ f.stop).reverse

theorem renesting_nil : Renesting [] [] 0 := ⟨Forest.nil, by simp, .nil, rfl⟩

/-- In a list ordered by a key, dropping the smaller ones filters them. -/
theorem dropWhile_eq_filter {α : Type*} {key : α → Nat} {y : Nat} {l : List α}
    (h : l.Pairwise fun a b => key a ≤ key b) :
    l.dropWhile (fun a => key a < y) = l.filter fun a => y ≤ key a := by
  induction l with
  | nil => rfl
  | cons a l ih =>
    obtain ⟨ha, h⟩ := List.pairwise_cons.mp h
    by_cases hlt : key a < y
    · rw [List.dropWhile_cons_of_pos (by simpa using hlt), ih h,
        List.filter_cons_of_neg (by simpa using hlt)]
    · rw [List.dropWhile_cons_of_neg (by simpa using hlt)]
      symm
      rw [List.filter_eq_self]
      intro b hb
      have : key a ≤ key b := by
        rcases List.mem_cons.mp hb with rfl | hb
        · exact le_rfl
        · exact ha b hb
      exact decide_eq_true (by omega)

namespace Renesting

variable {kept stack : List Fold} {x : Nat}

/-- What is left on the stack are the kept folds that reach the next one. -/
theorem stack_at (h : Renesting kept stack x) (hx : x ≤ f.start) :
    stack.dropWhile (fun g => g.stop < f.start) =
      (kept.filter fun g => f.start ≤ g.stop).reverse := by
  have hstops : stack.Pairwise fun a b => a.stop ≤ b.stop := by
    rw [h.stack, List.pairwise_reverse, List.pairwise_filter]
    refine h.before.imp_of_mem ?_
    intro a b _ hb hab ha _
    have := h.starts b hb
    rcases hab with hlt | hov
    · have := of_decide_eq_true ha
      omega
    · exact hov.1.2
  rw [dropWhile_eq_filter hstops, h.stack, ← List.filter_reverse, List.filter_filter]
  rw [← List.filter_reverse]
  refine List.filter_congr ?_
  intro g _
  by_cases hg : f.start ≤ g.stop
  · simp only [hg, decide_true, Bool.true_and]
    exact decide_eq_true (by omega)
  · simp [hg]

theorem mem_stack_at (h : Renesting kept stack x) (hx : x ≤ f.start) :
    g ∈ stack.dropWhile (fun g => g.stop < f.start) ↔ g ∈ kept ∧ f.start ≤ g.stop := by
  rw [h.stack_at hx]
  simp

/-- The fold at hand is left out when a fold kept reaches its first line and not its last. -/
theorem head_iff (h : Renesting kept stack x) (hx : x ≤ f.start) :
    ((stack.dropWhile fun g => g.stop < f.start).head?.any fun g => g.stop < f.stop) = true ↔
      ∃ g ∈ kept, f.start ≤ g.stop ∧ g.stop < f.stop := by
  have hmem := fun g => h.mem_stack_at (g := g) hx
  have hstops : (stack.dropWhile fun g => g.stop < f.start).Pairwise fun a b => a.stop ≤ b.stop := by
    rw [h.stack_at hx, List.pairwise_reverse, List.pairwise_filter]
    refine h.before.imp_of_mem ?_
    intro a b _ hb hab ha _
    have := h.starts b hb
    rcases hab with hlt | hov
    · have := of_decide_eq_true ha
      omega
    · exact hov.1.2
  generalize stack.dropWhile (fun g => decide (g.stop < f.start)) = st at hmem hstops ⊢
  cases st with
  | nil =>
    simp only [List.head?_nil, Option.any_none, Bool.false_eq_true, false_iff]
    rintro ⟨g, hg, hstart, _⟩
    simpa using (hmem g).mpr ⟨hg, hstart⟩
  | cons t st =>
    simp only [List.head?_cons, Option.any_some, decide_eq_true_eq]
    constructor
    · intro hlt
      have ht := (hmem t).mp (by simp)
      exact ⟨t, ht.1, ht.2, hlt⟩
    · rintro ⟨g, hg, hstart, hlt⟩
      rcases List.mem_cons.mp ((hmem g).mpr ⟨hg, hstart⟩) with rfl | hg
      · exact hlt
      · exact ((List.pairwise_cons.mp hstops).1 g hg).trans_lt hlt

/-- What a fold that is kept is after the step. -/
theorem keep (h : Renesting kept stack x) (hx : x ≤ f.start) (hf : f.start ≤ f.stop)
    (hin : ∀ g ∈ kept, f.start ≤ g.stop → f.stop ≤ g.stop)
    (hlevel : f.level = kept.countP (fun g => f.start ≤ g.stop) + 1) :
    Renesting (kept ++ [f])
      (f :: stack.dropWhile fun g => g.stop < f.start) f.start := by
  -- what reaches the first line of the fold is over it, and has a smaller level
  have hover : ∀ g ∈ kept, g.toRanked.Over f.toRanked ↔ f.start ≤ g.stop := by
    intro g hg
    constructor
    · intro hov
      exact hf.trans hov.1.2
    · intro hreach
      have hstart := (h.starts g hg).trans hx
      refine ⟨⟨hstart, hin g hg hreach⟩, fun _ => ?_⟩
      have hgr : g.toRanked ∈ kept.map Fold.toRanked := List.mem_map_of_mem hg
      rw [h.forest.level_eq_countP hgr, hlevel, List.countP_map, Nat.lt_succ_iff]
      refine List.countP_mono_left ?_
      intro p _ hp
      simp only [Function.comp_apply, decide_eq_true_eq] at hp ⊢
      rcases hp with heq | hov
      · have : p.stop = g.stop := congrArg (fun r : Ranked => r.stop) heq
        omega
      · exact hreach.trans hov.1.2
  have hbefore : (kept ++ [f]).Pairwise fun f g => f.stop < g.start ∨ f.toRanked.Over g.toRanked := by
    rw [List.pairwise_append]
    refine ⟨h.before, by simp, ?_⟩
    intro g hg f' hf'
    rw [List.mem_singleton.mp hf', hover g hg]
    omega
  refine ⟨⟨?_, ?_, ?_⟩, ?_, hbefore, ?_⟩
  · intro p hp
    simp only [List.map_append, List.map_cons, List.map_nil, List.mem_append, List.mem_singleton] at hp
    rcases hp with hp | rfl
    · exact h.forest.ordered p hp
    · exact hf
  · rw [List.pairwise_map]
    refine hbefore.imp ?_
    intro a b hab
    exact hab.elim (fun hlt => .inl (.inl hlt)) fun hov => .inr (.inl hov)
  · intro p hp
    rw [List.map_append, List.countP_append, List.map_cons, List.map_nil, List.countP_singleton]
    simp only [List.map_append, List.map_cons, List.map_nil, List.mem_append, List.mem_singleton] at hp
    rcases hp with hp | rfl
    · have hnot : ¬ f.toRanked.Over p := by
        obtain ⟨g, hg, rfl⟩ := List.mem_map.mp hp
        intro hov
        have := h.forest.ordered _ hp
        have hreach := (hover g hg).mpr (hov.1.1.trans this)
        exact hreach.asymm hov
      rw [h.forest.depth p hp]
      simp [hnot]
    · rw [List.countP_map]
      simp only [Ranked.Over.irrefl, decide_false, Bool.false_eq_true, if_false, hlevel,
        Nat.add_zero, Nat.add_right_cancel_iff]
      refine List.countP_congr ?_
      intro g hg
      simpa using (hover g hg).symm
  · intro g hg
    rcases List.mem_append.mp hg with hg | hg
    · exact (h.starts g hg).trans hx
    · rw [List.mem_singleton.mp hg]
  · rw [h.stack_at hx, List.filter_append, List.reverse_append]
    simp [hf]

theorem step (h : Renesting kept stack x) (hx : x ≤ f.start) (hf : f.start ≤ f.stop) :
    Renesting (renestStep (kept, stack) f).1 (renestStep (kept, stack) f).2 f.start := by
  simp only [renestStep]
  split
  · refine ⟨h.forest, fun g hg => (h.starts g hg).trans hx, h.before, h.stack_at hx⟩
  · rename_i hhead
    have hin : ∀ g ∈ kept, f.start ≤ g.stop → f.stop ≤ g.stop := by
      intro g hg hreach
      by_contra hlt
      exact hhead ((h.head_iff hx).mpr ⟨g, hg, hreach, by omega⟩)
    have hlen : (stack.dropWhile fun g => g.stop < f.start).length =
        kept.countP fun g => f.start ≤ g.stop := by
      rw [h.stack_at hx, List.length_reverse, List.countP_eq_length_filter]
    rw [hlen]
    exact h.keep (f := { f with level := kept.countP (fun g => f.start ≤ g.stop) + 1 })
      hx hf hin rfl

theorem run {fs : List Fold} (h : Renesting kept stack x) (hx : ∀ f ∈ fs, x ≤ f.start)
    (hsort : fs.Pairwise fun f g => f.start ≤ g.start) (hf : ∀ f ∈ fs, f.start ≤ f.stop) :
    DepthNested (fs.foldl renestStep (kept, stack)).1 := by
  induction fs generalizing kept stack x with
  | nil => exact h.forest
  | cons f fs ih =>
    obtain ⟨hfirst, hsort⟩ := List.pairwise_cons.mp hsort
    exact ih (h.step (hx f (by simp)) (hf f (by simp))) hfirst hsort
      fun g hg => hf g (List.mem_cons_of_mem _ hg)

end Renesting

theorem sorted_starts (folds : List Fold) :
    (folds.mergeSort nestLe).Pairwise fun f g => f.start ≤ g.start :=
  (List.pairwise_mergeSort nestLe_trans nestLe_total folds).imp nestLe_start

theorem renest_nested (h : ∀ f ∈ folds, f.start ≤ f.stop) : DepthNested (renest folds) := by
  refine renesting_nil.run (fun _ _ => Nat.zero_le _) (sorted_starts folds) ?_
  intro f hf
  exact h f (List.mem_mergeSort.mp hf)

/-! ## A forest in its order -/

/-- A fold of a nested list keeps its depth. -/
theorem renestStep_keep {pre post stack : List Fold} {x : Nat} (h : Renesting pre stack x)
    (hx : ∀ g ∈ f :: post, x ≤ g.start) (hforest : DepthNested (pre ++ f :: post))
    (hsort : (pre ++ f :: post).Pairwise fun f g => nestLe f g = true) :
    (renestStep (pre, stack) f).1 = pre ++ [f] ∧
      Renesting (renestStep (pre, stack) f).1 (renestStep (pre, stack) f).2 f.start := by
  have hmemf : f.toRanked ∈ (pre ++ f :: post).map Fold.toRanked := List.mem_map_of_mem (by simp)
  have hf : f.start ≤ f.stop := hforest.ordered _ hmemf
  have hxf : x ≤ f.start := hx f (by simp)
  obtain ⟨_, hpost, hpre⟩ := List.pairwise_append.mp hsort
  -- of the folds before it those that reach its first line are those over it
  have hover : ∀ g ∈ pre, g.toRanked.Over f.toRanked ↔ f.start ≤ g.stop := by
    intro g hg
    have hmemg : g.toRanked ∈ (pre ++ f :: post).map Fold.toRanked :=
      List.mem_map_of_mem (List.mem_append_left _ hg)
    refine ⟨fun hov => hf.trans hov.1.2, fun hreach => ?_⟩
    have hle := hpre g hg f (by simp)
    rcases hforest.cases_of_mem hmemg hmemf with heq | hap | hov | hov
    · have hnodup := hforest.nodup
      rw [List.map_append, List.nodup_append] at hnodup
      exact absurd heq (hnodup.2.2 _ (List.mem_map_of_mem hg) _ (by simp))
    · have := nestLe_start hle
      unfold Span.Apart at hap
      omega
    · exact hov
    · exact absurd hov (not_over_of_nestLe hle)
  have hlevel : f.level = pre.countP (fun g => f.start ≤ g.stop) + 1 := by
    rw [hforest.depth _ hmemf, List.countP_map, List.countP_append, List.countP_cons]
    have hself : ¬ f.toRanked.Over f.toRanked := Ranked.Over.irrefl _
    have hrest : post.countP ((fun q => decide (q.Over f.toRanked)) ∘ Fold.toRanked) = 0 := by
      rw [List.countP_eq_zero]
      intro g hg
      simpa using not_over_of_nestLe ((List.pairwise_cons.mp hpost).1 g hg)
    rw [hrest]
    simp only [Function.comp_apply, hself, decide_false, Bool.false_eq_true, if_false]
    congr 1
    refine List.countP_congr ?_
    intro g hg
    simpa using hover g hg
  have hhead : ¬ ((stack.dropWhile fun g => g.stop < f.start).head?.any fun g => g.stop < f.stop) = true := by
    rw [h.head_iff hxf]
    rintro ⟨g, hg, hreach, hlt⟩
    have := ((hover g hg).mpr hreach).1.2
    omega
  have hlen : (stack.dropWhile fun g => g.stop < f.start).length =
      pre.countP fun g => f.start ≤ g.stop := by
    rw [h.stack_at hxf, List.length_reverse, List.countP_eq_length_filter]
  refine ⟨?_, h.step hxf hf⟩
  simp only [renestStep, if_neg hhead, hlen, ← hlevel]

/-- Nested folds in order are left as they are. -/
theorem renest_sorted (hforest : DepthNested folds)
    (hsort : folds.Pairwise fun f g => nestLe f g = true) : renest folds = folds := by
  have hrun (pre post stack : List Fold) (x : Nat) (h : Renesting pre stack x)
      (hx : ∀ g ∈ post, x ≤ g.start) (hforest : DepthNested (pre ++ post))
      (hsort : (pre ++ post).Pairwise fun f g => nestLe f g = true) :
      (post.foldl renestStep (pre, stack)).1 = pre ++ post := by
    induction post generalizing pre stack x with
    | nil => simp
    | cons f post ih =>
      obtain ⟨heq, hstep⟩ := renestStep_keep h hx hforest hsort
      have hpost := (List.pairwise_append.mp hsort).2.1
      rw [heq] at hstep
      have hsplit : pre ++ f :: post = pre ++ [f] ++ post := by simp
      rw [List.foldl_cons, show renestStep (pre, stack) f = (pre ++ [f], (renestStep (pre, stack) f).2)
        from Prod.ext heq rfl, hsplit]
      refine ih (pre ++ [f]) _ f.start hstep ?_ (hsplit ▸ hforest) (hsplit ▸ hsort)
      intro g hg
      exact nestLe_start ((List.pairwise_cons.mp hpost).1 g hg)
  rw [renest, List.mergeSort_of_pairwise hsort]
  simpa using hrun [] folds [] 0 renesting_nil (fun _ _ => Nat.zero_le _) hforest hsort

theorem DepthNested.perm {folds' : List Fold} (h : DepthNested folds) (hperm : folds.Perm folds') :
    DepthNested folds' := Forest.perm h (hperm.map _)

theorem assertInvariants_of_nested (h : DepthNested folds) {lines : Nat}
    (hin : ∀ f ∈ folds, f.stop < max lines 1) : assertInvariants folds lines true = true := by
  simp only [assertInvariants, Bool.and_eq_true, Bool.not_true, Bool.false_or, beq_iff_eq,
    decide_eq_true_eq, List.all_eq_true]
  refine ⟨⟨?_, ?_⟩, ?_⟩
  · intro f hf
    have hmem : f.toRanked ∈ folds.map Fold.toRanked := List.mem_map_of_mem hf
    exact ⟨⟨h.ordered _ hmem, hin f hf⟩, h.level_pos hmem⟩
  · refine (List.pairwise_map.mp h.nests).imp ?_
    intro a b hab
    rcases hab with hap | hov | hov
    · exact .inl hap
    · exact .inr (.inl hov.1)
    · exact .inr (.inr hov.1)
  · exact renest_sorted (h.perm (List.mergeSort_perm folds nestLe).symm)
      (List.pairwise_mergeSort nestLe_trans nestLe_total folds)

end Ruse.Tui
