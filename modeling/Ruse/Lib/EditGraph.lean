import Ruse.Lib.Script
import Mathlib.Data.List.Basic
import Mathlib.Logic.Function.Basic

/-!
# The edit graph of two lists

Scripts as paths: from `(0, 0)` a deletion goes right, an insertion goes down, and where
the lists agree a kept element goes along a diagonal for free (`Path`). The graph goes
on past the ends of the lists, with no diagonals there.

* a path that leaves the lists' box has spent what it went outside (`Path.clip`);
* a script of cost `d` is a path of cost `d` (`Path.of_turns`);
* the path of cost `d + 1` that goes furthest on a diagonal comes from the furthest ones
  of cost `d` on the diagonals beside it (`Furthest.next`), whichever of the two its
  start is further on.
-/

namespace Ruse.Lib.Script

variable {α : Type*} (a b : List α)
variable {s : Nat} {ops : List Op} {k : Int} {get : Int → Nat}

/-- The lists agree at `(x, y)`. -/
def Agree (x y : Nat) : Prop := ∃ l, a[x]? = some l ∧ b[y]? = some l

/-- A path of cost `d` from `(0, 0)` to `(x, y)`. -/
inductive Path : Nat → Nat → Nat → Prop
  | start : Path 0 0 0
  | right {d x y : Nat} : Path d x y → Path (d + 1) (x + 1) y
  | down {d x y : Nat} : Path d x y → Path (d + 1) x (y + 1)
  | diag {d x y : Nat} : Path d x y → Agree a b x y → Path d (x + 1) (y + 1)

/-- The diagonals a path of cost `d` ends on: `-d`, `-d + 2` and so on up to `d`. -/
def OnDiag (d : Nat) (k : Int) : Prop := ∃ i : Nat, i ≤ d ∧ k = 2 * i - d

variable {a b} {d x y : Nat}

theorem Agree.lt (h : Agree a b x y) : x < a.length ∧ y < b.length := by
  obtain ⟨l, hx, hy⟩ := h
  exact ⟨(List.getElem?_eq_some_iff.mp hx).1, (List.getElem?_eq_some_iff.mp hy).1⟩

theorem getElem?_of_drop {l rest : List α} {z : α} (h : l.drop x = z :: rest) :
    l[x]? = some z ∧ l.drop (x + 1) = rest := by
  constructor
  · rw [← Nat.add_zero x, ← List.getElem?_drop, h]
    rfl
  · rw [← List.drop_drop, h]
    rfl

namespace Path

theorem onDiag (h : Path a b d x y) : OnDiag d ((x : Int) - y) := by
  induction h with
  | start => exact ⟨0, Nat.le_refl 0, by simp⟩
  | right _ ih =>
    obtain ⟨i, hi, hk⟩ := ih
    exact ⟨i + 1, by omega, by push_cast at hk ⊢; omega⟩
  | down _ ih =>
    obtain ⟨i, hi, hk⟩ := ih
    exact ⟨i, by omega, by push_cast at hk ⊢; omega⟩
  | diag _ _ ih =>
    obtain ⟨i, hi, hk⟩ := ih
    exact ⟨i, hi, by push_cast at hk ⊢; omega⟩

/-- A path to a point outside the lists' box passes the nearest point of the box, and has
spent the way from there. -/
theorem clip (h : Path a b d x y) :
    ∃ d', Path a b d' (min x a.length) (min y b.length) ∧
      d' + (x - a.length) + (y - b.length) = d := by
  induction h with
  | start => exact ⟨0, by simpa using Path.start, by simp⟩
  | @right d x y _ ih =>
    obtain ⟨d', hd', hsum⟩ := ih
    -- inside the box the step is one of the clipped path; outside it is spent
    by_cases hx : x < a.length
    · rw [Nat.min_eq_left (Nat.le_of_lt hx)] at hd'
      rw [Nat.min_eq_left hx]
      exact ⟨d' + 1, hd'.right, by omega⟩
    · rw [Nat.min_eq_right (by omega)] at hd'
      rw [Nat.min_eq_right (by omega)]
      exact ⟨d', hd', by omega⟩
  | @down d x y _ ih =>
    obtain ⟨d', hd', hsum⟩ := ih
    by_cases hy : y < b.length
    · rw [Nat.min_eq_left (Nat.le_of_lt hy)] at hd'
      rw [@Nat.min_eq_left (y + 1) _ hy]
      exact ⟨d' + 1, hd'.down, by omega⟩
    · rw [@Nat.min_eq_right y _ (by omega)] at hd'
      rw [@Nat.min_eq_right (y + 1) _ (by omega)]
      exact ⟨d', hd', by omega⟩
  | @diag d x y _ hagree ih =>
    obtain ⟨d', hd', hsum⟩ := ih
    -- the lists agree, so a diagonal never leaves the box
    obtain ⟨hx, hy⟩ := hagree.lt
    rw [Nat.min_eq_left (Nat.le_of_lt hx), Nat.min_eq_left (Nat.le_of_lt hy)] at hd'
    rw [Nat.min_eq_left hx, Nat.min_eq_left hy]
    exact ⟨d', hd'.diag hagree, by omega⟩

theorem corner (h : Path a b d x y) (hx : a.length ≤ x) (hy : b.length ≤ y) :
    ∃ d', Path a b d' a.length b.length ∧ d' + (x - a.length) + (y - b.length) = d := by
  have hclip := h.clip
  rwa [Nat.min_eq_right hx, Nat.min_eq_right hy] at hclip

theorem slide (h : Path a b d x y) (hs : ∀ i < s, Agree a b (x + i) (y + i)) :
    Path a b d (x + s) (y + s) := by
  induction s with
  | zero => exact h
  | succ s ih => exact (ih fun i hi => hs i (by omega)).diag (hs s (by omega))

/-- A path goes on along a script for the rest of the lists. -/
theorem turns {a' b' : List α} (hops : Turns ops a' b') (h : Path a b d x y) (ha : a.drop x = a')
    (hb : b.drop y = b') (hx : x ≤ a.length) (hy : y ≤ b.length) :
    Path a b (d + cost ops) a.length b.length := by
  induction hops generalizing d x y with
  | nil =>
    have hx' := List.drop_eq_nil_iff.mp ha
    have hy' := List.drop_eq_nil_iff.mp hb
    rwa [Nat.le_antisymm hx hx', Nat.le_antisymm hy hy'] at h
  | keep z _ ih =>
    obtain ⟨hgeta, hresta⟩ := getElem?_of_drop ha
    obtain ⟨hgetb, hrestb⟩ := getElem?_of_drop hb
    have hagree : Agree a b x y := ⟨z, hgeta, hgetb⟩
    have hnext := ih (h.diag hagree) hresta hrestb hagree.lt.1 hagree.lt.2
    simpa using hnext
  | del z _ ih =>
    obtain ⟨hget, hrest⟩ := getElem?_of_drop ha
    have hnext := ih h.right hrest hb (List.getElem?_eq_some_iff.mp hget).1 hy
    simpa [Nat.add_assoc, Nat.add_comm 1] using hnext
  | ins z _ ih =>
    obtain ⟨hget, hrest⟩ := getElem?_of_drop hb
    have hnext := ih h.down ha hrest hx (List.getElem?_eq_some_iff.mp hget).1
    simpa [Nat.add_assoc, Nat.add_comm 1] using hnext

/-- A script is a path of its cost. -/
theorem of_turns (h : Turns ops a b) :
    Path a b (cost ops) a.length b.length := by
  have hpath := turns h (.start : Path a b 0 0 0) rfl rfl (Nat.zero_le _) (Nat.zero_le _)
  rwa [Nat.zero_add] at hpath

theorem last (h : Path a b d x y) : ∃ x₀ y₀ s, x = x₀ + s ∧ y = y₀ + s ∧
    (∀ i < s, Agree a b (x₀ + i) (y₀ + i)) ∧
    ((d = 0 ∧ x₀ = 0 ∧ y₀ = 0) ∨
      (∃ d' x', d = d' + 1 ∧ x₀ = x' + 1 ∧ Path a b d' x' y₀) ∨
      ∃ d' y', d = d' + 1 ∧ y₀ = y' + 1 ∧ Path a b d' x₀ y') := by
  induction h with
  | start => exact ⟨0, 0, 0, rfl, rfl, nofun, .inl ⟨rfl, rfl, rfl⟩⟩
  | @right d x y h _ => exact ⟨x + 1, y, 0, rfl, rfl, nofun, .inr (.inl ⟨d, x, rfl, rfl, h⟩)⟩
  | @down d x y h _ => exact ⟨x, y + 1, 0, rfl, rfl, nofun, .inr (.inr ⟨d, y, rfl, rfl, h⟩)⟩
  | @diag d x y _ hagree ih =>
    obtain ⟨x₀, y₀, s, rfl, rfl, hs, hlast⟩ := ih
    refine ⟨x₀, y₀, s + 1, rfl, rfl, fun i hi => ?_, hlast⟩
    by_cases his : i = s
    · rwa [his]
    · exact hs i (by omega)

end Path

theorem Turns.slide (hs : ∀ i < s, Agree a b (x + i) (y + i))
    (h : Turns ops (a.drop (x + s)) (b.drop (y + s))) :
    Turns (List.replicate s .keep ++ ops) (a.drop x) (b.drop y) := by
  induction s generalizing ops with
  | zero => exact h
  | succ s ih =>
    obtain ⟨l, hx, hy⟩ := hs s (Nat.lt_succ_self s)
    have hkeep : Turns (.keep :: ops) (a.drop (x + s)) (b.drop (y + s)) := by
      obtain ⟨hlt, rfl⟩ := List.getElem?_eq_some_iff.mp hx
      obtain ⟨hlt', heq⟩ := List.getElem?_eq_some_iff.mp hy
      rw [List.drop_eq_getElem_cons hlt, List.drop_eq_getElem_cons hlt', heq]
      exact .keep _ h
    have hrest := ih (fun i hi => hs i (by omega)) hkeep
    rwa [List.replicate_succ', List.append_assoc]

/-! ## Furthest paths -/

variable (a b) in
/-- Of the paths of cost `d` to diagonal `k`, the one to `x` goes furthest. -/
structure Furthest (d : Nat) (k : Int) (x : Nat) : Prop where
  path : ∃ y : Nat, Path a b d x y ∧ (x : Int) - y = k
  most : ∀ x' y' : Nat, Path a b d x' y' → (x' : Int) - y' = k → x' ≤ x

variable (a b) in
/-- From `(x, y)` the lists agree for `s` elements and no further. -/
structure Slides (x y s : Nat) : Prop where
  agree : ∀ i < s, Agree a b (x + i) (y + i)
  stop : ¬ Agree a b (x + s) (y + s)

/-- A path that starts its last diagonal no further on than `x` ends no further on than
the diagonal from `x` does. -/
theorem Slides.most {x₀ y₀ s' : Nat} (h : Slides a b x y s) (hle : x₀ ≤ x)
    (hk : (x₀ : Int) - y₀ = x - y) (hs' : ∀ i < s', Agree a b (x₀ + i) (y₀ + i)) :
    x₀ + s' ≤ x + s := by
  by_contra hlt
  have hagree := hs' (x + s - x₀) (by omega)
  rw [show x₀ + (x + s - x₀) = x + s by omega, show y₀ + (x + s - x₀) = y + s by omega] at hagree
  exact h.stop hagree

theorem Furthest.zero (h : Slides a b 0 0 s) : Furthest a b 0 0 s where
  path := by
    have hpath := (Path.start : Path a b 0 0 0).slide h.agree
    rw [Nat.zero_add] at hpath
    exact ⟨s, hpath, by omega⟩
  most := by
    intro x' y' h' hk
    obtain ⟨x₀, y₀, s', rfl, rfl, hs', hlast⟩ := h'.last
    rcases hlast with ⟨-, rfl, rfl⟩ | ⟨d', x', hd, -⟩ | ⟨d', y', hd, -⟩
    · simpa using h.most (Nat.le_refl 0) (by omega) hs'
    · omega
    · omega

/-- Where the furthest path of cost `d` to diagonal `k` starts its last diagonal: below the
furthest of cost `d - 1` on the diagonal above, or right of the one on the diagonal
below. -/
def fromAbove (get : Int → Nat) (d k : Int) : Bool :=
  k == -d || (k != d && decide (get (k - 1) < get (k + 1)))

def startOn (get : Int → Nat) (d k : Int) : Nat :=
  if fromAbove get d k then get (k + 1) else get (k - 1) + 1

theorem OnDiag.above (h : OnDiag (d + 1) k) (hk : k ≠ (d + 1 : Nat)) :
    OnDiag d (k + 1) := by
  obtain ⟨i, hi, hki⟩ := h
  exact ⟨i, by omega, by omega⟩

theorem OnDiag.below (h : OnDiag (d + 1) k) (hk : k ≠ -(d + 1 : Nat)) :
    OnDiag d (k - 1) := by
  obtain ⟨i, hi, hki⟩ := h
  exact ⟨i - 1, by omega, by omega⟩

theorem OnDiag.bounds (h : OnDiag d k) : -(d : Int) ≤ k ∧ k ≤ d := by
  obtain ⟨i, hi, rfl⟩ := h
  omega

/-- Both ways to a diagonal start no further on than `startOn`, and one of them there. -/
theorem Furthest.start (hget : ∀ k, OnDiag d k → Furthest a b d k (get k)) (hk : OnDiag (d + 1) k) :
    (∃ y : Nat, Path a b (d + 1) (startOn get (d + 1 : Nat) k) y ∧
        (startOn get (d + 1 : Nat) k : Int) - y = k) ∧
      (OnDiag d (k + 1) → get (k + 1) ≤ startOn get (d + 1 : Nat) k) ∧
      (OnDiag d (k - 1) → get (k - 1) + 1 ≤ startOn get (d + 1 : Nat) k) := by
  unfold startOn
  -- the two ends of the range of diagonals have one neighbour each
  by_cases hup : fromAbove get (d + 1 : Nat) k = true
  · rw [if_pos hup]
    simp only [fromAbove, Bool.or_eq_true, beq_iff_eq, Bool.and_eq_true, bne_iff_ne, ne_eq,
      decide_eq_true_eq] at hup
    obtain ⟨y', hp, hy'⟩ := (hget _ (hk.above (by omega))).path
    refine ⟨⟨y' + 1, hp.down, by omega⟩, fun _ => Nat.le_refl _, fun hbelow => ?_⟩
    have := hbelow.bounds
    omega
  · rw [if_neg hup]
    simp only [fromAbove, Bool.or_eq_true, beq_iff_eq, Bool.and_eq_true, bne_iff_ne, ne_eq,
      decide_eq_true_eq, not_or, not_and] at hup
    obtain ⟨y', hp, hy'⟩ := (hget _ (hk.below hup.1)).path
    refine ⟨⟨y', hp.right, by push_cast; omega⟩, fun habove => ?_, fun _ => Nat.le_refl _⟩
    have := habove.bounds
    omega

/-- The furthest paths of cost `d + 1`, from those of cost `d`. -/
theorem Furthest.next (hget : ∀ k, OnDiag d k → Furthest a b d k (get k)) (hk : OnDiag (d + 1) k)
    (hx : x = startOn get (d + 1 : Nat) k) (hs : Slides a b x ((x : Int) - k).toNat s) :
    Furthest a b (d + 1) k (x + s) := by
  have hstart := Furthest.start hget hk
  rw [← hx] at hstart
  obtain ⟨⟨y, hpath, hy⟩, habove, hbelow⟩ := hstart
  rw [show ((x : Int) - k).toNat = y by omega] at hs
  refine ⟨⟨y + s, hpath.slide hs.agree, by omega⟩, ?_⟩
  intro x' y' h' hk'
  obtain ⟨x₀, y₀, s', rfl, rfl, hs', hlast⟩ := h'.last
  refine hs.most ?_ (by omega) hs'
  rcases hlast with ⟨hd, -⟩ | ⟨d', x', hd, rfl, hp⟩ | ⟨d', y', hd, rfl, hp⟩
  · omega
  · obtain rfl : d = d' := by omega
    have hdiag := hp.onDiag
    rw [show (x' : Int) - y₀ = k - 1 by omega] at hdiag
    have hmost := (hget _ hdiag).most x' y₀ hp (by omega)
    have := hbelow hdiag
    omega
  · obtain rfl : d = d' := by omega
    have hdiag := hp.onDiag
    rw [show (x₀ : Int) - y' = k + 1 by omega] at hdiag
    have hmost := (hget _ hdiag).most x₀ y' hp (by omega)
    have := habove hdiag
    omega

/-! ## Round after round -/

variable (a b) in
/-- `x` is where the round of cost `d` ends on diagonal `k`, from what the round before
left. -/
def EndsAt (get : Int → Nat) (d : Nat) (k : Int) (x : Nat) : Prop :=
  ∃ s, Slides a b (startOn get d k) ((startOn get d k : Int) - k).toNat s ∧
    x = startOn get d k + s

variable (a b) in
/-- `x` on diagonal `k` is past both ends of the lists. -/
def Past (k : Int) (x : Nat) : Prop := a.length ≤ x ∧ (b.length : Int) ≤ x - k

variable (a b) in
/-- `rounds` rounds, none of which comes past the ends: `hist d` is what the furthest
paths are before the round of cost `d`. -/
structure Rounds (rounds : Nat) (hist : Nat → Int → Nat) : Prop where
  zero : ∀ k, hist 0 k = 0
  ends : ∀ d < rounds, ∀ k, OnDiag d k → EndsAt a b (hist d) d k (hist (d + 1) k)
  before : ∀ d < rounds, ∀ k, OnDiag d k → ¬ Past a b k (hist (d + 1) k)

namespace Rounds

variable {rounds : Nat} {hist : Nat → Int → Nat}

theorem onDiag_zero (h : OnDiag 0 k) : k = 0 := by
  have := h.bounds
  omega

theorem furthest_end (h : Rounds a b rounds hist) (hd : d ≤ rounds) (hk : OnDiag d k)
    (hx : EndsAt a b (hist d) d k x) : Furthest a b d k x := by
  induction d generalizing k x with
  | zero =>
    obtain rfl := onDiag_zero hk
    obtain ⟨s, hs, rfl⟩ := hx
    have hstart : startOn (hist 0) (0 : Nat) 0 = 0 := h.zero 1
    rw [hstart] at hs ⊢
    rw [Nat.zero_add]
    exact .zero hs
  | succ d ih =>
    obtain ⟨s, hs, rfl⟩ := hx
    exact Furthest.next (fun k' hk' => ih (Nat.le_of_succ_le hd) hk' (h.ends d hd k' hk')) hk rfl hs

theorem le_startOn (h : Rounds a b rounds hist) (hd : d ≤ rounds) (hk : OnDiag d k) :
    k ≤ startOn (hist d) d k := by
  cases d with
  | zero =>
    rw [onDiag_zero hk]
    exact Int.natCast_nonneg _
  | succ d =>
    obtain ⟨⟨y, -, hy⟩, -⟩ := Furthest.start
      (fun k' hk' => h.furthest_end (Nat.le_of_succ_le hd) hk' (h.ends d hd k' hk')) hk
    omega

theorem le_of_path (h : Rounds a b rounds hist) (hp : Path a b d a.length b.length) :
    rounds ≤ d := by
  by_contra hlt
  have hd : d < rounds := Nat.lt_of_not_le hlt
  have hdiag := hp.onDiag
  have hend := h.ends d hd _ hdiag
  -- round `d` would have come as far as this path, past both ends
  have hmost := (h.furthest_end (Nat.le_of_lt hd) hdiag hend).most _ _ hp rfl
  exact h.before d hd _ hdiag ⟨hmost, by omega⟩

theorem at_corner (h : Rounds a b rounds hist) (hk : OnDiag rounds k)
    (hx : EndsAt a b (hist rounds) rounds k x) (hpast : Past a b k x) :
    x = a.length ∧ k = (a.length : Int) - b.length := by
  obtain ⟨y, hp, hy⟩ := (h.furthest_end (Nat.le_refl _) hk hx).path
  obtain ⟨hxn, hym⟩ := hpast
  -- had it passed the corner, a shorter path would end there
  obtain ⟨d', hd', hsum⟩ := hp.corner hxn (by omega)
  have := h.le_of_path hd'
  omega

/-- One more round of the search, from the ends of the one before. -/
theorem push (h : Rounds a b d hist)
    (hget : ∀ k, OnDiag d k → EndsAt a b (hist d) d k (get k) ∧ ¬ Past a b k (get k)) :
    Rounds a b (d + 1) (Function.update hist (d + 1) get) := by
  have hold {i : Nat} (hi : i < d + 1) : Function.update hist (d + 1) get i = hist i :=
    Function.update_of_ne (Nat.ne_of_lt hi) get hist
  have hlast : Function.update hist (d + 1) get (d + 1) = get := Function.update_self (d + 1) get hist
  refine ⟨fun k => by rw [hold (Nat.succ_pos d), h.zero], fun i hi k hk => ?_, fun i hi k hk => ?_⟩
  · rw [hold hi]
    by_cases hid : i = d
    · subst hid
      rw [hlast]
      exact (hget k hk).1
    · rw [hold (by omega)]
      exact h.ends i (by omega) k hk
  · by_cases hid : i = d
    · subst hid
      rw [hlast]
      exact (hget k hk).2
    · rw [hold (by omega)]
      exact h.before i (by omega) k hk

end Rounds

end Ruse.Lib.Script
