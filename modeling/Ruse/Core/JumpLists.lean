import Ruse.Core.Settle

/-!
# The jumplist and the change list over runs

The operations of `crates/core/src/editor/mod.rs` on the two lists of a view, with changes of
the text between them. What `clean_jumps` keeps is the newest entry of each line (`newest`);
a walk back from the newest end leaves its start on the list as the entry after the one it
goes to (`navJump_back`).
-/

namespace Ruse.Core

open Ruse.Lib
open View (cleanLoop)

/-! ## Runs -/

/-- An operation on the lists of a view, or a change of the text. -/
inductive ListOp where
  | pushJump (pos : Nat)
  | pushChange (pos : Nat) (newStep : Bool)
  | navJump (older : Bool) (now : Nat)
  | navChange (older : Bool)
  | cleanJumps (now : Nat)
  /-- The text becomes `b`, and the positions a change carried through it are `t`. -/
  | edit (t : List Tracked) (b : Bytes)

abbrev ViewOf := View × Bytes

def listStep (s : ViewOf) : ListOp → ViewOf
  | .pushJump pos => (s.1.pushJump pos, s.2)
  | .pushChange pos newStep => (s.1.pushChange s.2 pos newStep, s.2)
  | .navJump older now => ((s.1.navJump older now s.2).1, s.2)
  | .navChange older => ((s.1.navChange older).1, s.2)
  | .cleanJumps now => (s.1.cleanJumps s.2 now, s.2)
  | .edit t b => ((s.1.untrack t).snapOffsets b, b)

/-- Where a step along a list goes, if anywhere. -/
def target (s : ViewOf) : ListOp → Option Nat
  | .navJump older now => (s.1.navJump older now s.2).2
  | .navChange older => (s.1.navChange older).2
  | _ => none

/-- No operation of a run steps along the jumplist. -/
def NoWalk : ViewOf → List ListOp → Prop
  | _, [] => True
  | s, op :: ops =>
    (∀ older now, op = .navJump older now → target s op = none) ∧ NoWalk (listStep s op) ops

/-- The text changes between two steps along the change list. -/
abbrev Changes := List (List Tracked × Bytes)

def edited (s : ViewOf) (es : Changes) : ViewOf :=
  run listStep s (es.map fun e => .edit e.1 e.2)

/-- The entries one goes to by steps along the change list until one goes nowhere, with the
text changed before each. -/
def visited (older : Bool) : ViewOf → List Changes → List Nat
  | _, [] => []
  | s, es :: rest =>
    let s := edited s es
    let next := listStep s (.navChange older)
    if (target s (.navChange older)).isSome then next.1.changeIdx :: visited older next rest else []

/-- The newest entries of their lines. -/
def newest (line : Nat → Nat) : List Nat → List Nat
  | [] => []
  | p :: rest =>
    if (rest.map line).contains (line p) then newest line rest else p :: newest line rest

def lineIn (b : Bytes) (p : Nat) : Nat := lineOf b (min p b.length)

/-! ## What is kept -/

section
variable {line : Nat → Nat}

/-- The newest of a line are those with no other of the line behind. -/
theorem mem_newest {l : List Nat} {p : Nat} :
    p ∈ newest line l ↔ ∃ pre post, l = pre ++ p :: post ∧ ∀ q ∈ post, line q ≠ line p := by
  induction l with
  | nil => simp [newest]
  | cons q rest ih =>
    have hrest (h : p ∈ newest line rest) :
        ∃ pre post, q :: rest = pre ++ p :: post ∧ ∀ q ∈ post, line q ≠ line p := by
      obtain ⟨pre, post, rfl, hpost⟩ := ih.mp h
      exact ⟨q :: pre, post, rfl, hpost⟩
    unfold newest
    by_cases hagain : (rest.map line).contains (line q)
    · rw [if_pos hagain]
      refine ⟨hrest, ?_⟩
      rintro ⟨_ | ⟨q', pre⟩, post, heq, hpost⟩
      · obtain ⟨rfl, rfl⟩ := List.cons.inj heq
        obtain ⟨r, hr, hline⟩ := List.mem_map.mp (List.contains_iff_mem.mp hagain)
        exact absurd hline (hpost r hr)
      · exact ih.mpr ⟨pre, post, (List.cons.inj heq).2, hpost⟩
    · rw [if_neg hagain, List.mem_cons]
      constructor
      · rintro (rfl | h)
        · refine ⟨[], rest, rfl, fun r hr hline => hagain ?_⟩
          exact List.contains_iff_mem.mpr (hline ▸ List.mem_map_of_mem hr)
        · exact hrest h
      · rintro ⟨_ | ⟨q', pre⟩, post, heq, hpost⟩
        · exact .inl (List.cons.inj heq).1.symm
        · exact .inr (ih.mpr ⟨pre, post, (List.cons.inj heq).2, hpost⟩)

theorem newest_sublist (l : List Nat) : (newest line l).Sublist l := by
  induction l with
  | nil => exact .slnil
  | cons p rest ih =>
    unfold newest
    split
    · exact ih.cons p
    · exact ih.cons_cons p

theorem newest_nodup (l : List Nat) : ((newest line l).map line).Nodup := by
  induction l with
  | nil => exact List.nodup_nil
  | cons p rest ih =>
    unfold newest
    split
    · exact ih
    · rename_i hnew
      refine List.nodup_cons.mpr ⟨fun hmem => hnew ?_, ih⟩
      exact List.contains_iff_mem.mpr (((newest_sublist rest).map line).subset hmem)

theorem cleanLoop_kept (l : List Nat) (i : Nat) (kept : List Nat) (idx : Nat) :
    (cleanLoop line i l kept idx).1 = kept ++ newest line l := by
  induction l generalizing i kept idx with
  | nil => exact (List.append_nil kept).symm
  | cons p rest ih =>
    rw [cleanLoop, ih, newest]
    split
    · rfl
    · rw [List.append_assoc, List.singleton_append]

theorem cleanLoop_skip (pre rest : List Nat) (i : Nat) (kept : List Nat) {idx : Nat}
    (hidx : i + pre.length ≤ idx) :
    ∃ kept', kept'.length ≤ kept.length + pre.length ∧
      cleanLoop line i (pre ++ rest) kept idx = cleanLoop line (i + pre.length) rest kept' idx := by
  induction pre generalizing i kept with
  | nil => exact ⟨kept, Nat.le_refl _, rfl⟩
  | cons p pre ih =>
    rw [List.length_cons] at hidx
    rw [List.cons_append, cleanLoop, if_neg (show ¬ idx = i by omega)]
    generalize hk : (if ((pre ++ rest).map line).contains (line p) then kept else kept ++ [p]) = k
    have hlen : k.length ≤ kept.length + 1 := by
      rw [← hk]
      split <;> simp
    obtain ⟨kept', hle, heq⟩ := ih (i + 1) k (by omega)
    refine ⟨kept', by rw [List.length_cons]; omega, heq.trans ?_⟩
    rw [List.length_cons, Nat.add_right_comm, Nat.add_assoc]

theorem cleanLoop_passed (l : List Nat) {i : Nat} (kept : List Nat) {idx : Nat} (h : idx < i) :
    (cleanLoop line i l kept idx).2 = idx := by
  induction l generalizing i kept with
  | nil => rfl
  | cons p rest ih =>
    rw [cleanLoop, if_neg (show ¬ idx = i by omega)]
    exact ih _ (by omega)

theorem cleanLoop_at (pre : List Nat) (p : Nat) (post : List Nat) :
    ∃ kept, kept.length ≤ pre.length ∧
      cleanLoop line 0 (pre ++ p :: post) [] pre.length =
        (kept ++ newest line (p :: post), kept.length) := by
  obtain ⟨kept, hlen, heq⟩ :=
    @cleanLoop_skip line pre (p :: post) 0 [] pre.length (by omega)
  rw [List.length_nil, Nat.zero_add] at hlen
  rw [Nat.zero_add] at heq
  refine ⟨kept, hlen, heq.trans (Prod.ext (cleanLoop_kept _ _ _ _) ?_)⟩
  rw [cleanLoop, if_pos rfl]
  exact cleanLoop_passed post _ (by omega)

theorem cleanLoop_end (l : List Nat) :
    cleanLoop line 0 l [] l.length = (newest line l, l.length) := by
  refine Prod.ext (cleanLoop_kept _ _ _ _) ?_
  obtain ⟨kept, -, heq⟩ := @cleanLoop_skip line l [] 0 [] l.length (by omega)
  rw [List.append_nil] at heq
  rw [heq]
  rfl

theorem newest_ne_nil (p : Nat) (l : List Nat) : newest line (p :: l) ≠ [] := by
  obtain ⟨q, hq⟩ : ∃ q, (p :: l).getLast? = some q := ⟨_, List.getLast?_cons⟩
  obtain ⟨pre, heq⟩ := List.getLast?_eq_some_iff.mp hq
  have hmem : q ∈ newest line (p :: l) := mem_newest.mpr ⟨pre, [], heq, by simp⟩
  exact List.ne_nil_of_mem hmem

end

/-! ## Cleaning -/

section
variable {v : View}

/-- What `clean_jumps` leaves: the newest entry of each line, with the cursor past them less
the one on the cursor's line. -/
theorem cleanJumps_spec (h : v.jumpIdx ≤ v.jumps.length) (b : Bytes) (now : Nat) :
    ((v.cleanJumps b now).jumps = newest (lineIn b) v.jumps ∧
      ((v.cleanJumps b now).jumpIdx = (v.cleanJumps b now).jumps.length →
        ∀ p, (v.cleanJumps b now).jumps.getLast? = some p → lineIn b p ≠ lineIn b now)) ∨
    (v.jumpIdx = v.jumps.length ∧
      ∃ p, newest (lineIn b) v.jumps = (v.cleanJumps b now).jumps ++ [p] ∧
        lineIn b p = lineIn b now) := by
  have hpast : (cleanLoop (lineIn b) 0 v.jumps [] v.jumpIdx).1 = newest (lineIn b) v.jumps ∧
      ((if (cleanLoop (lineIn b) 0 v.jumps [] v.jumpIdx).2 = v.jumps.length then
          (newest (lineIn b) v.jumps).length
        else (cleanLoop (lineIn b) 0 v.jumps [] v.jumpIdx).2) =
          (newest (lineIn b) v.jumps).length → v.jumpIdx = v.jumps.length) := by
    refine ⟨cleanLoop_kept _ _ _ _, fun heq => ?_⟩
    by_contra hne
    obtain ⟨pre, p, post, hl, hpre⟩ :
        ∃ pre p post, v.jumps = pre ++ p :: post ∧ pre.length = v.jumpIdx := by
      have hlt : v.jumpIdx < v.jumps.length := by omega
      refine ⟨v.jumps.take v.jumpIdx, v.jumps[v.jumpIdx], v.jumps.drop (v.jumpIdx + 1), ?_,
        List.length_take_of_le h⟩
      rw [← List.drop_eq_getElem_cons hlt, List.take_append_drop]
    obtain ⟨kept, hlen, hat⟩ := @cleanLoop_at (lineIn b) pre p post
    have hkept := @cleanLoop_kept (lineIn b) v.jumps 0 [] v.jumpIdx
    rw [hl, ← hpre, hat, List.nil_append] at hkept
    rw [hl, ← hpre, hat, ← hkept] at heq
    have hpos := List.length_pos_iff.mpr (@newest_ne_nil (lineIn b) p post)
    simp only [List.length_append, List.length_cons] at heq
    split at heq <;> omega
  obtain ⟨hkept, hpast⟩ := hpast
  generalize hr : cleanLoop (lineIn b) 0 v.jumps [] v.jumpIdx = r at hkept hpast
  have hr' : cleanLoop (fun p => lineOf b (min p b.length)) 0 v.jumps [] v.jumpIdx = r := hr
  unfold View.cleanJumps
  dsimp only
  rw [hr']
  obtain ⟨kept, idx⟩ := r
  dsimp only at hkept hpast ⊢
  subst hkept
  generalize (if idx = v.jumps.length then (newest (lineIn b) v.jumps).length else idx) = idx' at *
  split
  · rename_i hphantom
    obtain ⟨p, hp, hline⟩ := (Option.any_eq_true _ _).mp hphantom.2
    obtain ⟨pre, heq⟩ := List.getLast?_eq_some_iff.mp hp
    refine .inr ⟨hpast hphantom.1, p, ?_, beq_iff_eq.mp hline⟩
    dsimp only
    rw [heq, List.dropLast_concat]
  · rename_i hkeep
    refine .inl ⟨rfl, fun hidx p hp hline => hkeep ⟨hidx, ?_⟩⟩
    exact (Option.any_eq_true _ _).mpr ⟨p, hp, beq_iff_eq.mpr hline⟩

/-- With the cursor past the newest entry, that entry is on another line than the cursor. -/
theorem cleanJumps_end (h : v.jumpIdx ≤ v.jumps.length) {b : Bytes} {now : Nat}
    (hend : (v.cleanJumps b now).jumpIdx = (v.cleanJumps b now).jumps.length) {p : Nat}
    (hp : (v.cleanJumps b now).jumps.getLast? = some p) : lineIn b p ≠ lineIn b now := by
  rcases cleanJumps_spec h b now with ⟨-, hlast⟩ | ⟨-, q, heq, hline⟩
  · exact hlast hend p hp
  · -- the entry dropped was the only one on the line
    obtain ⟨pre, hpre⟩ := List.getLast?_eq_some_iff.mp hp
    have hnodup := @newest_nodup (lineIn b) v.jumps
    rw [heq, hpre] at hnodup
    rw [← hline]
    simp only [List.map_append, List.map_cons, List.map_nil, List.append_assoc] at hnodup
    have hpair := (List.nodup_append.mp hnodup).2.1
    simpa using hpair

theorem cleanJumps_past (h : v.jumpIdx = v.jumps.length) (b : Bytes) (now : Nat) :
    (v.cleanJumps b now).jumpIdx = (v.cleanJumps b now).jumps.length := by
  have hrun : cleanLoop (fun p => lineOf b (min p b.length)) 0 v.jumps [] v.jumpIdx =
      (newest (lineIn b) v.jumps, v.jumps.length) := by
    rw [h]
    exact cleanLoop_end v.jumps
  unfold View.cleanJumps
  dsimp only
  rw [hrun]
  dsimp only
  rw [if_pos rfl]
  split
  · rw [List.length_dropLast]
  · rfl

/-! ## Back and forth -/

theorem pushBounded_two (l : List Nat) (last now : Nat) :
    ∃ pre, pushBounded (l ++ [last]) now = pre ++ [last, now] := by
  unfold pushBounded
  dsimp only
  split
  · rename_i hfull
    cases l with
    | nil => simp [maxChanges] at hfull
    | cons p l => exact ⟨l, by simp⟩
  · exact ⟨l, by simp⟩

/-- The first step back goes to the newest entry there is after cleaning, and saves the place
it starts from after that one. -/
theorem navJump_first (h : v.jumpIdx = v.jumps.length) (b : Bytes) (now : Nat) :
    ((v.cleanJumps b now).jumps = [] ∧ v.navJump true now b = (v.cleanJumps b now, none)) ∨
    ∃ pre p, (v.cleanJumps b now).jumps.getLast? = some p ∧ v.navJump true now b =
      ({ v.cleanJumps b now with jumps := pre ++ [p, now], jumpIdx := pre.length }, some p) := by
  have hend := cleanJumps_past h b now
  unfold View.navJump
  generalize v.cleanJumps b now = w at hend ⊢
  simp only [if_true]
  rcases List.eq_nil_or_concat w.jumps with hnil | ⟨l, p, hl⟩
  · rw [if_pos (.inr (by simp [hnil]))]
    exact .inl ⟨hnil, rfl⟩
  · rw [List.concat_eq_append] at hl
    obtain ⟨pre, hpre⟩ := pushBounded_two l p now
    rw [← hl] at hpre
    have hsome : ¬ (w.jumpIdx = 0 ∨ w.jumps.length = 0) := by simp [hend, hl]
    have hidx : (pre ++ [p, now]).length - 1 = pre.length + 1 := by simp
    rw [if_neg hsome, if_pos hend, hpre, hidx]
    dsimp only
    rw [if_neg (Nat.succ_ne_zero _), Nat.add_sub_cancel]
    refine .inr ⟨pre, p, by simp [hl], ?_⟩
    simp

/-- That entry is on another line than the place saved. -/
theorem navJump_back (h : v.jumpIdx = v.jumps.length) {b : Bytes} {now p : Nat}
    (hgo : (v.navJump true now b).2 = some p) :
    ∃ pre, (v.navJump true now b).1.jumps = pre ++ [p, now] ∧
      (v.navJump true now b).1.jumpIdx = pre.length ∧ lineIn b p ≠ lineIn b now := by
  have hlast := @cleanJumps_end v (by omega) b now (cleanJumps_past h b now)
  rcases navJump_first h b now with ⟨-, hnone⟩ | ⟨pre, q, hq, hback⟩
  · rw [hnone] at hgo
    cases hgo
  · rw [hback] at hgo ⊢
    obtain rfl := Option.some.inj hgo
    exact ⟨pre, rfl, rfl, hlast hq⟩

/-- A step forward after a step back comes to where the cursor was. -/
theorem navJump_forth {b : Bytes} {pre : List Nat} {p now : Nat} (hjumps : v.jumps = pre ++ [p, now])
    (hidx : v.jumpIdx = pre.length) (hline : lineIn b p ≠ lineIn b now) (now' : Nat) :
    (v.navJump false now' b).2 = some now := by
  obtain ⟨kept, hlen, hat⟩ := @cleanLoop_at (lineIn b) pre p [now]
  have hboth : newest (lineIn b) [p, now] = [p, now] := by simp [newest, hline]
  rw [hboth] at hat
  have hat' : cleanLoop (fun p => lineOf b (min p b.length)) 0 v.jumps [] v.jumpIdx =
      (kept ++ [p, now], kept.length) := by
    rw [hjumps, hidx]
    exact hat
  have hclean : (v.cleanJumps b now').jumps = kept ++ [p, now] ∧
      (v.cleanJumps b now').jumpIdx = kept.length := by
    have hlt : ¬ kept.length = (pre ++ [p, now]).length := by
      rw [List.length_append]
      simp only [List.length_cons]
      omega
    have hinside : ¬ kept.length = (kept ++ [p, now]).length := by simp
    unfold View.cleanJumps
    dsimp only
    rw [hat', hjumps]
    dsimp only
    rw [if_neg hlt, if_neg fun h => hinside h.1]
    exact ⟨rfl, rfl⟩
  unfold View.navJump
  generalize v.cleanJumps b now' = w at hclean ⊢
  simp [hclean.1, hclean.2]

/-- A cursor past the newest entry stays there while no step along the list goes anywhere. -/
theorem navJump_stays (h : v.jumpIdx = v.jumps.length) {b : Bytes} {older : Bool} {now : Nat}
    (hstay : (v.navJump older now b).2 = none) :
    (v.navJump older now b).1.jumpIdx = (v.navJump older now b).1.jumps.length := by
  have hend := cleanJumps_past h b now
  cases older with
  | false =>
    unfold View.navJump at hstay ⊢
    generalize v.cleanJumps b now = w at hend hstay ⊢
    simp [hend]
  | true =>
    rcases navJump_first h b now with ⟨-, hnone⟩ | ⟨pre, q, -, hback⟩
    · rw [hnone]
      exact hend
    · rw [hback] at hstay
      cases hstay

end

/-! ## Whole runs -/

theorem bounded_fresh : View.fresh.Bounded :=
  ⟨Nat.zero_le _, Nat.zero_le _, Nat.le_refl _, Nat.le_refl _⟩

theorem edit_lengths (s : ViewOf) (t : List Tracked) (b : Bytes) :
    (listStep s (.edit t b)).1.changes.length = s.1.changes.length ∧
      (listStep s (.edit t b)).1.jumps.length = s.1.jumps.length := by
  simp [listStep, View.snapOffsets, View.untrack]

theorem bounded_listStep (s : ViewOf) (op : ListOp) (h : s.1.Bounded) :
    (listStep s op).1.Bounded := by
  cases op with
  | pushJump pos => exact h.pushJump pos
  | pushChange pos newStep => exact h.pushChange s.2 pos newStep
  | navJump older now => exact h.navJump older now s.2
  | navChange older => exact h.navChange older
  | cleanJumps now => exact h.cleanJumps s.2 now
  | edit t b =>
    obtain ⟨hchanges, hjumps⟩ := edit_lengths s t b
    exact ⟨hchanges ▸ h.changes, hjumps ▸ h.jumps, hchanges ▸ h.changeIdx, hjumps ▸ h.jumpIdx⟩

/-- No operation on the lists changes `keep_jumps`. -/
theorem keepJumps_listStep (s : ViewOf) (op : ListOp) :
    (listStep s op).1.keepJumps = s.1.keepJumps := by
  have hclean (v : View) (b : Bytes) (now : Nat) :
      (v.cleanJumps b now).keepJumps = v.keepJumps := by
    unfold View.cleanJumps
    dsimp only
    split_ifs <;> rfl
  cases op with
  | pushJump pos =>
    simp only [listStep, View.pushJump]
    split <;> rfl
  | pushChange pos newStep =>
    simp only [listStep, View.pushChange]
    split <;> rfl
  | navJump older now =>
    rw [listStep, ← hclean s.1 s.2 now]
    unfold View.navJump
    dsimp only
    split_ifs <;> rfl
  | navChange older =>
    simp only [listStep, View.navChange]
    split_ifs <;> rfl
  | cleanJumps now => exact hclean s.1 s.2 now
  | edit t b => rfl

theorem pushJump_past {v : View} (h : v.keepJumps = false) (pos : Nat) :
    (v.pushJump pos).jumpIdx = (v.pushJump pos).jumps.length := by
  simp [View.pushJump, h]

/-- The index stays past the list while nothing walks it. -/
theorem past_run {s : ViewOf} (h : s.1.jumpIdx = s.1.jumps.length) {ops : List ListOp}
    (hquiet : NoWalk s ops) :
    (run listStep s ops).1.jumpIdx = (run listStep s ops).1.jumps.length := by
  induction ops generalizing s with
  | nil => exact h
  | cons op ops ih =>
    obtain ⟨hop, hrest⟩ := hquiet
    refine ih ?_ hrest
    cases op with
    | pushJump pos =>
      by_cases hkeep : s.1.keepJumps
      · simpa [listStep, View.pushJump, hkeep] using h
      · exact pushJump_past (by simpa using hkeep) pos
    | pushChange pos newStep =>
      simp only [listStep, View.pushChange]
      split <;> exact h
    | navJump older now => exact navJump_stays h (hop older now rfl)
    | navChange older =>
      simp only [listStep, View.navChange]
      split_ifs <;> exact h
    | cleanJumps now => exact cleanJumps_past h s.2 now
    | edit t b => exact h.trans (edit_lengths s t b).2.symm

/-! ## Walking the change list -/

theorem edited_lengths (s : ViewOf) (es : Changes) :
    (edited s es).1.changes.length = s.1.changes.length ∧
      (edited s es).1.changeIdx = s.1.changeIdx := by
  induction es generalizing s with
  | nil => exact ⟨rfl, rfl⟩
  | cons e es ih =>
    obtain ⟨hlen, hidx⟩ := ih (listStep s (.edit e.1 e.2))
    exact ⟨hlen.trans (edit_lengths s e.1 e.2).1, hidx⟩

theorem navChange_spec (v : View) (older : Bool) :
    (v.navChange older).1.changes = v.changes ∧
      ∀ p, (v.navChange older).2 = some p → v.changes[(v.navChange older).1.changeIdx]? = some p := by
  unfold View.navChange
  split_ifs
  all_goals refine ⟨rfl, fun p hp => ?_⟩
  · cases hp
  · cases hp
  · exact hp
  · cases hp
  · exact hp

/-- Walking back visits the changes from the newest to the oldest. -/
theorem visited_older {s : ViewOf} (h : s.1.changeIdx ≤ s.1.changes.length) (ess : List Changes) :
    visited true s ess = (List.range s.1.changeIdx).reverse.take ess.length := by
  induction ess generalizing s with
  | nil => simp [visited]
  | cons es rest ih =>
    obtain ⟨hlen, hidx⟩ := edited_lengths s es
    have hback := @ih (listStep (edited s es) (.navChange true))
    rw [visited]
    generalize edited s es = t at hlen hidx hback ⊢
    rw [← hidx, ← hlen] at h
    rw [← hidx, List.length_cons]
    cases hi : t.1.changeIdx with
    | zero => simp [target, View.navChange, hi]
    | succ i =>
      have hne : t.1.changes ≠ [] := List.ne_nil_of_length_pos (by omega)
      have hlt : i < t.1.changes.length := by omega
      have hnav : t.1.navChange true = ({ t.1 with changeIdx := i }, some t.1.changes[i]) := by
        simp [View.navChange, hi, hne, hlt]
      simp only [listStep, target, hnav] at hback ⊢
      rw [if_pos Option.isSome_some, hback (by omega), List.range_succ, List.reverse_append]
      rfl

/-- Walking forward visits the changes behind the index in order. -/
theorem visited_newer (s : ViewOf) (ess : List Changes) :
    visited false s ess = (List.range' (s.1.changeIdx + 1)
      (s.1.changes.length - (s.1.changeIdx + 1))).take ess.length := by
  induction ess generalizing s with
  | nil => simp [visited]
  | cons es rest ih =>
    obtain ⟨hlen, hidx⟩ := edited_lengths s es
    have hforth := ih (listStep (edited s es) (.navChange false))
    rw [visited]
    generalize edited s es = t at hlen hidx hforth ⊢
    rw [← hidx, ← hlen, List.length_cons]
    by_cases hend : t.1.changeIdx + 1 ≥ t.1.changes.length
    · have hnone : t.1.changes.length - (t.1.changeIdx + 1) = 0 := by omega
      have hnav : (t.1.navChange false).2 = none := by simp [View.navChange, hend]
      simp [target, hnav, hnone]
    · have hne : t.1.changes ≠ [] := List.ne_nil_of_length_pos (by omega)
      have hlt : t.1.changeIdx + 1 < t.1.changes.length := by omega
      have hnav : t.1.navChange false =
          ({ t.1 with changeIdx := t.1.changeIdx + 1 }, some t.1.changes[t.1.changeIdx + 1]) := by
        simp [View.navChange, hne, hend, hlt]
      obtain ⟨n, hn⟩ : ∃ n, t.1.changes.length - (t.1.changeIdx + 1) = n + 1 :=
        ⟨t.1.changes.length - (t.1.changeIdx + 2), by omega⟩
      have hrest : t.1.changes.length - (t.1.changeIdx + 1 + 1) = n := by omega
      simp only [listStep, target, hnav] at hforth ⊢
      rw [if_pos Option.isSome_some, hforth, hn, hrest, List.range'_succ]
      rfl

/-! ## The lists stay consistent -/

/-- `new` is what cleaning leaves of the jumplist of `v`: the newest entry of each line, but
for the line of the cursor where the walk cursor is past the newest entry and that is on it. -/
structure Cleaned (v : View) (b : Bytes) (now : Nat) (new : List Nat) : Prop where
  ordered : new.Sublist v.jumps
  nodup : (new.map (lineIn b)).Nodup
  newest : ∀ p ∈ new, ∃ pre post, v.jumps = pre ++ p :: post ∧
    ∀ q ∈ post, lineIn b q ≠ lineIn b p
  kept : ∀ p ∈ v.jumps, (∃ q ∈ new, lineIn b q = lineIn b p) ∨
    (v.jumpIdx = v.jumps.length ∧ lineIn b p = lineIn b now ∧
      ∃ last, v.jumps.getLast? = some last ∧ lineIn b last = lineIn b now)

theorem getLast?_newest (line : Nat → Nat) (l : List Nat) : (newest line l).getLast? = l.getLast? := by
  induction l with
  | nil => rfl
  | cons r rest ih =>
    rw [newest]
    cases rest with
    | nil => rfl
    | cons r' rest =>
      rw [List.getLast?_cons_cons, ← ih]
      split
      · rfl
      · obtain ⟨q, qs, hq⟩ := List.exists_cons_of_ne_nil (l := newest line (r' :: rest)) fun hnil => by
          rw [hnil] at ih
          cases ih
        rw [hq, List.getLast?_cons_cons]

/-- Every entry has a newest one of its line. -/
theorem exists_newest {line : Nat → Nat} {l : List Nat} {p : Nat} (h : p ∈ l) :
    ∃ q ∈ newest line l, line q = line p := by
  induction l generalizing p with
  | nil => cases h
  | cons r rest ih =>
    have hrest (p : Nat) (hp : p ∈ rest) : ∃ q ∈ newest line (r :: rest), line q = line p := by
      obtain ⟨q, hq, hline⟩ := ih hp
      refine ⟨q, ?_, hline⟩
      unfold newest
      split
      · exact hq
      · exact List.mem_cons_of_mem _ hq
    rcases List.mem_cons.mp h with rfl | hp
    · by_cases hagain : (rest.map line).contains (line p)
      · obtain ⟨q, hq, hline⟩ := List.mem_map.mp (List.contains_iff_mem.mp hagain)
        exact hline ▸ hrest q hq
      · refine ⟨p, ?_, rfl⟩
        rw [newest, if_neg hagain]
        exact List.mem_cons_self
    · exact hrest p hp

/-- Cleaning leaves the newest jump of each line. -/
theorem cleaned_cleanJumps {v : View} (h : v.jumpIdx ≤ v.jumps.length) (b : Bytes) (now : Nat) :
    Cleaned v b now (v.cleanJumps b now).jumps := by
  have hnodup := @newest_nodup (lineIn b) v.jumps
  have hordered := @newest_sublist (lineIn b) v.jumps
  rcases cleanJumps_spec h b now with ⟨heq, -⟩ | ⟨hpast, r, heq, hr⟩
  · rw [heq]
    exact ⟨hordered, hnodup, fun p hp => mem_newest.mp hp, fun p hp => .inl (exists_newest hp)⟩
  · rw [heq] at hnodup hordered
    have hsub := List.sublist_append_left (v.cleanJumps b now).jumps [r]
    refine ⟨hsub.trans hordered, hnodup.sublist (hsub.map _), fun p hp => ?_, fun p hp => ?_⟩
    · exact mem_newest.mp (heq ▸ hsub.subset hp)
    · obtain ⟨q, hq, hline⟩ := @exists_newest (lineIn b) _ _ hp
      rw [heq] at hq
      rcases List.mem_append.mp hq with hq | hq
      · exact .inl ⟨q, hq, hline⟩
      · obtain rfl := List.mem_singleton.mp hq
        refine .inr ⟨hpast, hline.symm.trans hr, q, ?_, hr⟩
        rw [← getLast?_newest (lineIn b), heq, List.getLast?_concat]

/-- The jumplist and the change list stay consistent over every run: they are bounded and
walked inside; the first step back that goes anywhere after a jump is undone by a step forth;
cleaning leaves the newest entry of each line; and steps along the change list visit its
entries one by one, whatever changes of the text come between. -/
theorem lists_consistent (b : Bytes) (ops : List ListOp) :
    (run listStep (View.fresh, b) ops).1.Bounded ∧
    (∀ left quiet now now' p,
      NoWalk (run listStep (View.fresh, b) (ops ++ [.pushJump left])) quiet →
      target (run listStep (View.fresh, b) (ops ++ [.pushJump left] ++ quiet))
        (.navJump true now) = some p →
      target (run listStep (View.fresh, b)
        (ops ++ [.pushJump left] ++ quiet ++ [.navJump true now])) (.navJump false now') =
          some now) ∧
    (∀ now, Cleaned (run listStep (View.fresh, b) ops).1 (run listStep (View.fresh, b) ops).2 now
      (listStep (run listStep (View.fresh, b) ops) (.cleanJumps now)).1.jumps) ∧
    (∀ older p, target (run listStep (View.fresh, b) ops) (.navChange older) = some p →
      (run listStep (View.fresh, b) (ops ++ [.navChange older])).1.changes[
        (run listStep (View.fresh, b) (ops ++ [.navChange older])).1.changeIdx]? = some p) ∧
    ∀ ess, visited true (run listStep (View.fresh, b) ops) ess =
        (List.range (run listStep (View.fresh, b) ops).1.changeIdx).reverse.take ess.length ∧
      visited false (run listStep (View.fresh, b) ops) ess =
        (List.range' ((run listStep (View.fresh, b) ops).1.changeIdx + 1)
          ((run listStep (View.fresh, b) ops).1.changes.length -
            ((run listStep (View.fresh, b) ops).1.changeIdx + 1))).take ess.length := by
  have hbounded := run_invariant (P := fun s : ViewOf => s.1.Bounded) bounded_listStep
    (s := (View.fresh, b)) bounded_fresh ops
  have hkeep := run_invariant (P := fun s : ViewOf => s.1.keepJumps = false)
    (fun s op h => (keepJumps_listStep s op).trans h) (s := (View.fresh, b)) rfl ops
  simp only [run_append, run_cons, run_nil]
  generalize run listStep (View.fresh, b) ops = s at hbounded hkeep ⊢
  refine ⟨hbounded, ?_, ?_, ?_, ?_⟩
  · intro left quiet now now' p hquiet hgo
    have hpast := past_run (s := listStep s (.pushJump left)) (pushJump_past hkeep left) hquiet
    obtain ⟨pre, hjumps, hidx, hline⟩ := navJump_back hpast hgo
    exact navJump_forth hjumps hidx hline now'
  · intro now
    exact cleaned_cleanJumps hbounded.jumpIdx s.2 now
  · intro older p hp
    obtain ⟨hsame, hentry⟩ := navChange_spec s.1 older
    rw [listStep, hsame]
    exact hentry p hp
  · intro ess
    exact ⟨visited_older hbounded.changeIdx ess, visited_newer s ess⟩

/-- A jump away from the first of three lines: back there from the last one, and forth again. -/
theorem lists_consistent_there : target (run listStep (View.fresh, [97, 10, 98, 10, 99])
    ([] ++ [.pushJump 0] ++ [] ++ [.navJump true 4])) (.navJump false 0) = some 4 :=
  (lists_consistent [97, 10, 98, 10, 99] []).2.1 0 [] 4 0 0 trivial (by decide +kernel)

end Ruse.Core
