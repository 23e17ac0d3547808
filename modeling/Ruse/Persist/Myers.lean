import Ruse.Persist.Diff
import Ruse.Lib.SharedHead

/-!
# The search finds a shortest script

The array of a round is what the furthest paths of the edit graph are
(`Ruse.Lib.Script.Rounds`): an entry is read at the diagonals beside the one written, so
a round reads what the round before it left (`roundOn_spec`). The trace keeps what
`backtrack` reads of it (`Searched`), and each step back undoes the last step of the
furthest path it stands at (`backRound_succ`).
-/

namespace Ruse.Persist.Diff

open Ruse.Core
open Ruse.Lib (SharedHead sharedHead)
open Ruse.Lib.Script

/-! ## The array -/

section Array

variable {v : List Nat} {off d : Nat} {k : Int}

theorem index_lt (hlen : v.length = 2 * off + 1) (hk : k ≤ off) : index off k < v.length := by
  unfold index
  omega

theorem look_set (hlen : v.length = 2 * off + 1) (hlo : -(off : Int) ≤ k) (hhi : k ≤ off) (z : Nat)
    {k' : Int} (hlo' : -(off : Int) ≤ k') :
    look (v.set (index off k) z) off k' = if k' = k then z else look v off k' := by
  unfold look
  rw [List.getD_eq_getElem?_getD, List.getD_eq_getElem?_getD, List.getElem?_set]
  by_cases hk : k' = k
  · subst hk
    rw [if_pos rfl, if_pos rfl, if_pos (index_lt hlen hhi), Option.getD_some]
  · have hne : index off k ≠ index off k' := by
      unfold index
      omega
    rw [if_neg hne, if_neg hk]

theorem window_getD (hlen : v.length = 2 * off + 1) (hd : d + 1 ≤ off) (hlo : -(d : Int) - 1 ≤ k)
    (hhi : k ≤ d + 1) : (window v off d).getD (k + d + 1).toNat 0 = look v off k := by
  unfold window look
  have hi : (k + d + 1).toNat < index off (d + 1) + 1 - index off (-d - 1) := by
    unfold index
    omega
  have hsum : index off (-d - 1) + (k + d + 1).toNat = index off k := by
    unfold index
    omega
  rw [List.getD_eq_getElem?_getD, List.getElem?_take_of_lt hi, List.getElem?_drop, hsum,
    List.getD_eq_getElem?_getD]

end Array

/-! ## One round -/

theorem startOn_congr {get get' : Int → Nat} {d k : Int} (hbelow : get (k - 1) = get' (k - 1))
    (habove : get (k + 1) = get' (k + 1)) : startOn get d k = startOn get' d k := by
  unfold startOn fromAbove
  rw [hbelow, habove]

theorem mem_diagonals {d : Nat} {k : Int} : k ∈ diagonals d ↔ OnDiag d k := by
  simp only [diagonals, List.mem_map, List.mem_range, OnDiag]
  constructor
  · rintro ⟨i, hi, rfl⟩
    exact ⟨i, by omega, rfl⟩
  · rintro ⟨i, hi, rfl⟩
    exact ⟨i, by omega, rfl⟩

theorem diagonals_apart (d : Nat) :
    (diagonals d).Pairwise fun k k' => k' ≠ k ∧ k' - 1 ≠ k ∧ k' + 1 ≠ k := by
  unfold diagonals
  rw [List.pairwise_map]
  refine List.pairwise_lt_range.imp fun hlt => ?_
  omega

section Round

variable {α : Type*} [DecidableEq α] {a b : List α}

/-- A snake slides down the diagonal over equal lines. -/
theorem snake_slides (x y : Nat) : Slides a b x y (snake a b x y) := by
  have h := sharedHead (a.drop x) (b.drop y)
  have hleft := h.left
  refine ⟨fun i hi => ?_, fun hagree => ?_⟩
  · have hsame := h.same i hi
    rw [List.getElem?_drop, List.getElem?_drop] at hsame
    have hlt : x + i < a.length := by
      rw [List.length_drop] at hleft
      unfold snake at hi
      omega
    exact ⟨a[x + i], List.getElem?_eq_getElem hlt, by rw [← hsame, List.getElem?_eq_getElem hlt]⟩
  · have hlt := hagree.lt
    obtain ⟨l, hx, hy⟩ := hagree
    refine h.stop ?_ ?_ ?_
    · rw [List.length_drop]
      unfold snake at hlt
      omega
    · rw [List.length_drop]
      unfold snake at hlt
      omega
    · rw [List.getElem?_drop, List.getElem?_drop]
      exact hx.trans hy.symm

omit [DecidableEq α] in
theorem endsAt_congr {get get' : Int → Nat} {d : Nat} {k : Int} {x : Nat}
    (hbelow : get (k - 1) = get' (k - 1)) (habove : get (k + 1) = get' (k + 1))
    (h : EndsAt a b get d k x) : EndsAt a b get' d k x := by
  unfold EndsAt at h ⊢
  rwa [startOn_congr hbelow habove] at h

/-- What a round of the search is asked with: an array long enough, with no entry above
the work done. -/
structure Ready (off : Nat) (v : List Nat) (work : Nat) : Prop where
  length : v.length = 2 * off + 1
  le_work : ∀ k, look v off k ≤ work

/-- A round over diagonals finds the furthest end on each, or one past the corner. -/
theorem roundOn_spec {off d : Nat} {ks : List Int} {v : List Nat} {work : Nat} (hd : d + 1 ≤ off)
    (hv : Ready off v work) (hks : ∀ k ∈ ks, -(d : Int) ≤ k ∧ k ≤ d)
    (hapart : ks.Pairwise fun k k' => k' ≠ k ∧ k' - 1 ≠ k ∧ k' + 1 ≠ k)
    (hle : ∀ k ∈ ks, k ≤ startOn (look v off) d k) :
    (∀ v' work', roundOn a b off d ks v work = .next v' work' →
      Ready off v' work' ∧
      (∀ k ∈ ks, EndsAt a b (look v off) d k (look v' off k) ∧ ¬ Past a b k (look v' off k)) ∧
      ∀ k, -(off : Int) ≤ k → k ∉ ks → look v' off k = look v off k) ∧
    (roundOn a b off d ks v work = .found →
      ∃ k ∈ ks, ∃ x, EndsAt a b (look v off) d k x ∧ Past a b k x) := by
  induction ks generalizing v work with
  | nil =>
    refine ⟨fun v' work' h => ?_, fun h => Round.noConfusion h⟩
    cases h
    exact ⟨hv, fun k hk => absurd hk List.not_mem_nil, fun k _ _ => rfl⟩
  | cons k ks ih =>
    have hk := hks k List.mem_cons_self
    have hkle := hle k List.mem_cons_self
    have hcons := List.pairwise_cons.mp hapart
    unfold roundOn
    dsimp only
    generalize hx : startOn (look v off) d k = x at hkle
    generalize hs : snake a b x ((x : Int) - k).toNat = s
    have hends : EndsAt a b (look v off) d k (x + s) :=
      ⟨s, by rw [hx, ← hs]; exact snake_slides x _, by rw [hx]⟩
    by_cases hwork : work + s + 1 > maxWork
    · rw [if_pos hwork]
      exact ⟨fun _ _ h => Round.noConfusion h, fun h => Round.noConfusion h⟩
    · rw [if_neg hwork]
      -- an entry is no more than the work done, so it fits its word
      have hxwork : x ≤ work + 1 := by
        rw [← hx, startOn]
        split
        · exact Nat.le_succ_of_le (hv.le_work _)
        · exact Nat.succ_le_succ (hv.le_work _)
      have hmod : (x + s) % 2 ^ 32 = x + s := by
        refine Nat.mod_eq_of_lt ?_
        unfold maxWork at hwork
        omega
      rw [hmod]
      by_cases hpast : x + s ≥ a.length ∧ ((x : Int) - k).toNat + s ≥ b.length
      · rw [if_pos hpast]
        refine ⟨fun _ _ h => Round.noConfusion h, fun _ => ?_⟩
        exact ⟨k, List.mem_cons_self, x + s, hends, hpast.1, by push_cast; omega⟩
      · rw [if_neg hpast]
        have hset {k' : Int} (hlo : -(off : Int) ≤ k') :=
          look_set hv.length (show -(off : Int) ≤ k by omega) (show k ≤ off by omega) (x + s) hlo
        have hv' : Ready off (v.set (index off k) (x + s)) (work + s + 1) := by
          refine ⟨by rw [List.length_set, hv.length], fun k' => ?_⟩
          have hk' := hv.le_work k'
          unfold look at hk' ⊢
          rw [List.getD_eq_getElem?_getD] at hk' ⊢
          rw [List.getElem?_set]
          split
          · split
            · simp only [Option.getD_some]
              omega
            · exact Nat.zero_le _
          · omega
        have hkeep {k' : Int} (hk' : k' ∈ ks) :
            look (v.set (index off k) (x + s)) off (k' - 1) = look v off (k' - 1) ∧
              look (v.set (index off k) (x + s)) off (k' + 1) = look v off (k' + 1) := by
          have hb := hks k' (List.mem_cons_of_mem _ hk')
          have hne := hcons.1 k' hk'
          exact ⟨by rw [hset (by omega), if_neg hne.2.1], by rw [hset (by omega), if_neg hne.2.2]⟩
        obtain ⟨hnext, hfound⟩ := ih hv' (fun k' hk' => hks k' (List.mem_cons_of_mem _ hk')) hcons.2
          (fun k' hk' => by
            rw [startOn_congr (hkeep hk').1 (hkeep hk').2]
            exact hle k' (List.mem_cons_of_mem _ hk'))
        refine ⟨fun v' work' h => ?_, fun h => ?_⟩
        · obtain ⟨hready, hin, hout⟩ := hnext v' work' h
          refine ⟨hready, fun k' hk' => ?_, fun k' hlo hk' => ?_⟩
          · rcases List.mem_cons.mp hk' with rfl | hmem
            · have hnot : k' ∉ ks := fun hmem => (hcons.1 k' hmem).1 rfl
              rw [hout k' (by omega) hnot, hset (by omega), if_pos rfl]
              refine ⟨hends, fun hp => hpast ⟨hp.1, ?_⟩⟩
              have := hp.2
              push_cast at this
              omega
            · obtain ⟨hend, hnot⟩ := hin k' hmem
              exact ⟨endsAt_congr (hkeep hmem).1 (hkeep hmem).2 hend, hnot⟩
          · rw [List.mem_cons, not_or] at hk'
            rw [hout k' hlo hk'.2, hset hlo, if_neg hk'.1]
        · obtain ⟨k', hk', x', hend, hp⟩ := hfound h
          exact ⟨k', List.mem_cons_of_mem _ hk', x',
            endsAt_congr (hkeep hk').1 (hkeep hk').2 hend, hp⟩

/-! ## The rounds -/

/-- The windows a trace holds are those of the rounds' arrays. -/
def Windows (trace : List (List Nat)) (hist : Nat → Int → Nat) : Prop :=
  ∀ i < trace.length, ∀ k : Int, -(i : Int) - 1 ≤ k → k ≤ i + 1 →
    reread trace i k = hist i k

/-- The search after `d` rounds. -/
structure Searching (a b : List α) (off d : Nat) (v : List Nat) (work : Nat)
    (trace : List (List Nat)) (hist : Nat → Int → Nat) : Prop where
  ready : Ready off v work
  rounds : Rounds a b d hist
  now : hist d = look v off
  traced : trace.length = d
  windows : Windows trace hist

/-- A trace the search answers with: of rounds that do not come past the ends but for the
last, which does. -/
structure Searched (a b : List α) (trace : List (List Nat)) (d : Nat) (hist : Nat → Int → Nat) :
    Prop where
  rounds : Rounds a b d hist
  traced : trace.length = d + 1
  windows : Windows trace hist
  past : ∃ k x, OnDiag d k ∧ EndsAt a b (hist d) d k x ∧ Past a b k x

/-- One more window is kept of each round. -/
theorem Windows.push {trace : List (List Nat)} {hist : Nat → Int → Nat} (h : Windows trace hist)
    {off d : Nat} {v : List Nat} (hlen : v.length = 2 * off + 1) (hd : d + 1 ≤ off)
    (htrace : trace.length = d) (hnow : hist d = look v off) :
    Windows (trace ++ [window v off d]) hist := by
  intro i hi k hlo hhi
  rw [List.length_append, List.length_singleton, htrace] at hi
  by_cases hid : i = d
  · subst hid
    have hget : (trace ++ [window v off i]).getD i [] = window v off i := by
      rw [List.getD_eq_getElem?_getD, List.getElem?_append_right (Nat.le_of_eq htrace), htrace,
        Nat.sub_self]
      rfl
    rw [reread, hget, hnow]
    exact window_getD hlen hd hlo hhi
  · have hget : (trace ++ [window v off d]).getD i [] = trace.getD i [] := by
      rw [List.getD_eq_getElem?_getD, List.getElem?_append_left (by omega),
        List.getD_eq_getElem?_getD]
    rw [reread, hget]
    exact h i (by omega) k hlo hhi

/-- The search leaves a trace of its rounds, up to one that reached the corner. -/
theorem searchFrom_spec {off left d : Nat} {v : List Nat} {work : Nat}
    {trace trace' : List (List Nat)} {hist : Nat → Int → Nat} (hoff : left + d ≤ off)
    (h : Searching a b off d v work trace hist)
    (hsome : searchFrom a b off left d v work trace = some trace') :
    ∃ d' hist', Searched a b trace' d' hist' := by
  induction left generalizing d v work trace hist with
  | zero => cases hsome
  | succ left ih =>
    unfold searchFrom at hsome
    have hround := roundOn_spec (a := a) (b := b) (show d + 1 ≤ off by omega) h.ready
      (fun k hk => (mem_diagonals.mp hk).bounds) (diagonals_apart d) (fun k hk => by
        have hle := h.rounds.le_startOn (Nat.le_refl d) (mem_diagonals.mp hk)
        rwa [h.now] at hle)
    have hwindows := h.windows.push h.ready.length (show d + 1 ≤ off by omega) h.traced h.now
    split at hsome
    · cases hsome
    · dsimp only at hsome
      split at hsome
      · cases hsome
      · rename_i hfound
        cases hsome
        obtain ⟨k, hk, x, hend, hpast⟩ := hround.2 hfound
        rw [← h.now] at hend
        refine ⟨d, hist, h.rounds, ?_, hwindows, k, x, mem_diagonals.mp hk, hend, hpast⟩
        rw [List.length_append, h.traced, List.length_singleton]
      · rename_i v' work' hnext
        obtain ⟨hready, hin, -⟩ := hround.1 v' work' hnext
        refine @ih (d + 1) v' work' _ (Function.update hist (d + 1) (look v' off)) (by omega)
          ⟨hready, ?_, ?_, ?_, ?_⟩ hsome
        · refine h.rounds.push fun k hk => ?_
          rw [h.now]
          exact hin k (mem_diagonals.mpr hk)
        · exact Function.update_self _ _ _
        · rw [List.length_append, h.traced, List.length_singleton]
        · intro i hi k hlo hhi
          rw [hwindows i hi k hlo hhi, Function.update_of_ne]
          rw [List.length_append, h.traced, List.length_singleton] at hi
          exact Nat.ne_of_lt hi

end Round

/-! ## The way back -/

/-- The walk back keeps the lines of a snake. -/
theorem keepBack_spec {px py : Int} {x₀ y₀ s room : Nat} (hroom : s ≤ room)
    (hstop : (x₀ : Int) ≤ px ∨ (y₀ : Int) ≤ py) (hx : px ≤ x₀) (hy : py ≤ y₀) (ops : List Op) :
    keepBack px py room ((x₀ + s : Nat) : Int) ((y₀ + s : Nat) : Int) ops =
      ((x₀ : Int), (y₀ : Int), List.replicate s .keep ++ ops) := by
  induction s generalizing room ops with
  | zero =>
    cases room with
    | zero => rfl
    | succ room =>
      unfold keepBack
      rw [if_neg (by omega)]
      rfl
  | succ s ih =>
    obtain ⟨room, rfl⟩ : ∃ r, room = r + 1 := ⟨room - 1, by omega⟩
    unfold keepBack
    rw [if_pos (by omega), show ((x₀ + (s + 1) : Nat) : Int) - 1 = ((x₀ + s : Nat) : Int) by omega,
      show ((y₀ + (s + 1) : Nat) : Int) - 1 = ((y₀ + s : Nat) : Int) by omega,
      ih (by omega), List.replicate_succ', List.append_assoc]
    rfl

section Back

variable {α : Type*} {a b : List α}

/-- The walk back stands at the end of a furthest path of cost `d`, with a script for what
is after it. -/
structure Back (a b : List α) (hist : Nat → Int → Nat) (d x y : Nat) (ops : List Op) : Prop where
  diag : OnDiag d ((x : Int) - y)
  ends : EndsAt a b (hist d) d ((x : Int) - y) x
  rest : Turns ops (a.drop x) (b.drop y)
  left : x ≤ a.length
  right : y ≤ b.length

variable {trace : List (List Nat)} {last : Nat} {hist : Nat → Int → Nat} {d x y : Nat}
  {ops : List Op}

/-- What a round of `backtrack` reads is what the search had there. -/
theorem Searched.get (h : Searched a b trace last hist) (hd : d ≤ last) {k : Int}
    (hlo : -(d : Int) - 1 ≤ k) (hhi : k ≤ d + 1) :
    reread trace d k = hist d k :=
  h.windows d (by rw [h.traced]; omega) k hlo hhi

/-- A round of `backtrack`, by the diagonal it came from and the point it goes back to. -/
theorem backRound_eq {get : Int → Nat} (hget : reread trace d = get) {k prevK : Int}
    (hk : (x : Int) - y = k) (hprev : prevK = if fromAbove get d k then k + 1 else k - 1)
    {x₀ y₀ s : Nat} (hx : x = x₀ + s) (hy : y = y₀ + s)
    (hstop : (x₀ : Int) ≤ get prevK ∨ (y₀ : Int) ≤ get prevK - prevK)
    (hlex : (get prevK : Int) ≤ x₀) (hley : (get prevK : Int) - prevK ≤ y₀) :
    backRound trace d ((x : Int), (y : Int), ops) =
      ((get prevK : Int), (get prevK : Int) - prevK,
        if d > 0 then
          (if (x₀ : Int) = get prevK then .ins else .del) :: (List.replicate s .keep ++ ops)
        else List.replicate s .keep ++ ops) := by
  subst hget hk hprev hx hy
  unfold backRound
  dsimp only
  rw [keepBack_spec (by omega) hstop hlex hley]

/-- The walk back through round 0 is all diagonal. -/
theorem backRound_zero (h : Searched a b trace last hist) (hb : Back a b hist 0 x y ops) :
    ∃ ops', backRound trace 0 ((x : Int), (y : Int), ops) = (0, -1, ops') ∧ Turns ops' a b ∧
      cost ops' = cost ops := by
  have hk := Rounds.onDiag_zero hb.diag
  obtain rfl : x = y := by omega
  obtain ⟨s, hs, hx⟩ := hb.ends
  have hstart : startOn (hist 0) (0 : Nat) ((x : Int) - x) = 0 := by
    rw [Int.sub_self]
    exact h.rounds.zero 1
  rw [hstart] at hs hx
  obtain rfl : x = s := by omega
  have hget := h.get (Nat.zero_le last) (show -((0 : Nat) : Int) - 1 ≤ 1 by omega) (by omega)
  rw [h.rounds.zero] at hget
  have hturns : Turns (List.replicate x .keep ++ ops) a b := by
    have hrest := hb.rest
    rw [← Nat.zero_add x] at hrest
    exact Turns.slide (x := 0) (y := 0) (fun i hi => by simpa using hs.agree i hi) hrest
  refine ⟨List.replicate x .keep ++ ops, ?_, hturns, ?_⟩
  · have hround := @backRound_eq trace 0 x x ops (reread trace 0) rfl 0 1 (Int.sub_self _) rfl 0 0 x
      (Nat.zero_add x).symm (Nat.zero_add x).symm (.inl (Int.natCast_nonneg _))
      (by rw [hget]) (by rw [hget]; omega)
    rw [hround, hget]
    rfl
  · rw [cost_append, cost_replicate_keep, Nat.zero_add]

/-- A round back is a step back on the path, to the end of a furthest path of one change
less. -/
theorem backRound_succ (h : Searched a b trace last hist) (hd : d + 1 ≤ last)
    (hb : Back a b hist (d + 1) x y ops) :
    ∃ (x' y' : Nat) (ops' : List Op), backRound trace (d + 1) ((x : Int), (y : Int), ops) =
        ((x' : Int), (y' : Int), ops') ∧ Back a b hist d x' y' ops' ∧
      cost ops' = cost ops + 1 := by
  obtain ⟨s, hs, hx⟩ := hb.ends
  have hdiag := hb.diag
  have hbounds := hdiag.bounds
  have hleft := hb.left
  have hright := hb.right
  have hget {k : Int} (hlo : -((d + 1 : Nat) : Int) - 1 ≤ k) (hhi : k ≤ (d + 1 : Nat) + 1) :=
    h.get hd hlo hhi
  generalize hk : (x : Int) - y = k at hdiag hbounds hs hx
  have hreads : fromAbove (reread trace (d + 1)) ((d + 1 : Nat) : Int) k =
      fromAbove (hist (d + 1)) ((d + 1 : Nat) : Int) k := by
    unfold fromAbove
    rw [hget (by omega) (by omega), hget (by omega) (by omega)]
  -- the diagonal the path came from, and the end of the path of one change less on it
  have hends {k' : Int} (hk' : OnDiag d k') :=
    h.rounds.ends d (Nat.lt_of_succ_le hd) k' hk'
  have hpath {k' : Int} (hk' : OnDiag d k') :=
    (h.rounds.furthest_end (Nat.le_of_succ_le hd) hk' (hends hk')).path
  by_cases hup : fromAbove (hist (d + 1)) ((d + 1 : Nat) : Int) k = true
  · have hstart : startOn (hist (d + 1)) ((d + 1 : Nat) : Int) k = hist (d + 1) (k + 1) := if_pos hup
    rw [hstart] at hs hx
    have hcond := hup
    simp only [fromAbove, Bool.or_eq_true, beq_iff_eq, Bool.and_eq_true, bne_iff_ne, ne_eq,
      decide_eq_true_eq] at hcond
    have hfrom : OnDiag d (k + 1) := hdiag.above (by omega)
    obtain ⟨y', -, hy'⟩ := hpath hfrom
    have hlast := hends hfrom
    have hread := hget (show -((d + 1 : Nat) : Int) - 1 ≤ k + 1 by omega) (by omega)
    generalize hist (d + 1) (k + 1) = x' at hs hx hread hy' hlast
    have hround := @backRound_eq trace (d + 1) x y ops _ rfl k (k + 1) hk
      (by rw [hreads, if_pos hup]) x' (y' + 1) s hx (by omega) (.inl (by rw [hread]))
      (by rw [hread]) (by rw [hread]; omega)
    rw [hread, if_pos (Nat.succ_pos d), if_pos rfl, show (x' : Int) - (k + 1) = y' by omega] at hround
    obtain rfl : y = y' + 1 + s := by omega
    subst hx
    rw [show ((x' : Int) - k).toNat = y' + 1 by omega] at hs
    have hkeeps := Turns.slide hs.agree hb.rest
    have hlt : y' < b.length := by omega
    refine ⟨x', y', _, hround, ⟨?_, ?_, ?_, by omega, by omega⟩, ?_⟩
    · rwa [show (x' : Int) - y' = k + 1 by omega]
    · rwa [show (x' : Int) - y' = k + 1 by omega]
    · rw [List.drop_eq_getElem_cons hlt]
      exact .ins _ hkeeps
    · rw [cost_cons, cost_append, cost_replicate_keep, Nat.zero_add]
      rfl
  · have hstart : startOn (hist (d + 1)) ((d + 1 : Nat) : Int) k = hist (d + 1) (k - 1) + 1 :=
      if_neg hup
    rw [hstart] at hs hx
    have hcond := hup
    simp only [fromAbove, Bool.or_eq_true, beq_iff_eq, Bool.and_eq_true, bne_iff_ne, ne_eq,
      decide_eq_true_eq, not_or] at hcond
    have hfrom : OnDiag d (k - 1) := hdiag.below hcond.1
    obtain ⟨y', -, hy'⟩ := hpath hfrom
    have hlast := hends hfrom
    have hread := hget (show -((d + 1 : Nat) : Int) - 1 ≤ k - 1 by omega) (by omega)
    generalize hist (d + 1) (k - 1) = x' at hs hx hread hy' hlast
    have hround := @backRound_eq trace (d + 1) x y ops _ rfl k (k - 1) hk
      (by rw [hreads, if_neg hup]) (x' + 1) y' s hx (by omega) (.inr (by rw [hread]; omega))
      (by rw [hread]; omega) (by rw [hread]; omega)
    rw [hread, if_pos (Nat.succ_pos d), if_neg (by omega), show (x' : Int) - (k - 1) = y' by omega]
      at hround
    obtain rfl : y = y' + s := by omega
    subst hx
    rw [show ((x' + 1 : Nat) - k).toNat = y' by omega] at hs
    have hkeeps := Turns.slide hs.agree hb.rest
    have hlt : x' < a.length := by omega
    refine ⟨x', y', _, hround, ⟨?_, ?_, ?_, by omega, by omega⟩, ?_⟩
    · rwa [show (x' : Int) - y' = k - 1 by omega]
    · rwa [show (x' : Int) - y' = k - 1 by omega]
    · rw [List.drop_eq_getElem_cons hlt]
      exact .del _ hkeeps
    · rw [cost_cons, cost_append, cost_replicate_keep, Nat.zero_add]
      rfl

theorem backRounds_spec (h : Searched a b trace last hist) (hd : d ≤ last)
    (hb : Back a b hist d x y ops) :
    ∃ ops', backRounds trace (d + 1) ((x : Int), (y : Int), ops) = (0, -1, ops') ∧
      Turns ops' a b ∧ cost ops' = cost ops + d := by
  induction d generalizing x y ops with
  | zero => exact backRound_zero h hb
  | succ d ih =>
    obtain ⟨x', y', ops', hround, hb', hcost⟩ := backRound_succ h hd hb
    obtain ⟨ops'', hrounds, hturns, hcost'⟩ := ih (Nat.le_of_succ_le hd) hb'
    refine ⟨ops'', ?_, hturns, by omega⟩
    rw [backRounds, hround]
    exact hrounds

/-- The way back from the corner spells a script whose cost is that of the last round. -/
theorem backtrack_spec (h : Searched a b trace last hist) :
    Turns (backtrack trace a.length b.length) a b ∧
      cost (backtrack trace a.length b.length) = last := by
  obtain ⟨k, x, hk, hend, hpast⟩ := h.past
  obtain ⟨rfl, rfl⟩ := h.rounds.at_corner hk hend hpast
  have hrest : Turns [] (a.drop a.length) (b.drop b.length) := by
    rw [List.drop_length, List.drop_length]
    exact .nil
  obtain ⟨ops, hrounds, hturns, hcost⟩ :=
    backRounds_spec h (Nat.le_refl last) ⟨hk, hend, hrest, Nat.le_refl _, Nat.le_refl _⟩
  rw [backtrack, h.traced, hrounds]
  exact ⟨hturns, hcost.trans (Nat.zero_add last)⟩

end Back

/-! ## The script -/

section Script

variable {α : Type*} [DecidableEq α] {a b : List α}

omit [DecidableEq α] in
theorem searching_zero (a b : List α) (off : Nat) :
    Searching a b off 0 (List.replicate (2 * off + 1) 0) 0 []
      fun _ => look (List.replicate (2 * off + 1) 0) off where
  ready := by
    refine ⟨List.length_replicate, fun k => ?_⟩
    unfold look
    rw [List.getD_eq_getElem?_getD, List.getElem?_replicate]
    split <;> exact Nat.le_refl 0
  rounds := by
    refine ⟨fun k => ?_, fun d hd => absurd hd (Nat.not_lt_zero d),
      fun d hd => absurd hd (Nat.not_lt_zero d)⟩
    unfold look
    rw [List.getD_eq_getElem?_getD, List.getElem?_replicate]
    split <;> rfl
  now := rfl
  traced := rfl
  windows := fun i hi => absurd hi (Nat.not_lt_zero i)

/-- What the search answers with is a script for the two lists, and none costs less. -/
theorem myers_spec {ops : List Op} (h : myers a b = some ops) :
    Turns ops a b ∧ ∀ ops', Turns ops' a b → cost ops ≤ cost ops' := by
  unfold myers at h
  dsimp only at h
  split at h
  · rename_i hempty
    cases h
    obtain ⟨ha, hb⟩ : a.length = 0 ∧ b.length = 0 := by omega
    rw [List.length_eq_zero_iff.mp ha, List.length_eq_zero_iff.mp hb]
    exact ⟨.nil, fun ops' _ => Nat.zero_le _⟩
  · obtain ⟨trace, hsearch, rfl⟩ := Option.map_eq_some_iff.mp h
    obtain ⟨last, hist, hsearched⟩ := searchFrom_spec (by omega)
      (searching_zero a b (a.length + b.length + 1)) hsearch
    obtain ⟨hturns, hcost⟩ := backtrack_spec hsearched
    refine ⟨hturns, fun ops' hops' => ?_⟩
    rw [hcost]
    exact hsearched.rounds.le_of_path (.of_turns hops')

end Script

end Ruse.Persist.Diff
