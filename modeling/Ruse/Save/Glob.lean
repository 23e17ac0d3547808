import Ruse.Core.Pos
import Ruse.Lib.Wildcards

/-!
# File patterns

The model of `glob_match` and `class` in `apps/tui/src/persist/backup.rs`: one loop over the path with
one remembered star. What is left of the pattern and of the path are lists here, and not indices.

The language of a pattern is that of its items (`items`). The loop is the search of `Ruse.Lib.Search`
over them, step for step, until an escape of another byte meets a backslash of the path (`Slips`): the
arm for the escape fails then, and the backslash of the pattern is taken for a byte of its own
(`glob_match_decides`).
-/

namespace Ruse.Save

open Ruse.Core
open Ruse.Lib

/-! ## The loop -/

/-- The loop of `class`, at the `i`-th byte. -/
def classLoop (pat : Bytes) (c : UInt8) (negate : Bool) (start i : Nat) (hit : Bool) : Option (Bool × Nat) :=
  if _h : i < pat.length then
    if pat.getD i 0 = 93 ∧ start < i then some (hit != negate, i + 1)
    else if i + 2 < pat.length ∧ pat.getD (i + 1) 0 = 45 ∧ pat.getD (i + 2) 0 ≠ 93 then
      classLoop pat c negate start (i + 3) (hit || (pat.getD i 0 ≤ c && c ≤ pat.getD (i + 2) 0))
    else classLoop pat c negate start (i + 1) (hit || pat.getD i 0 == c)
  else none
termination_by pat.length - i

/-- A `[...]` class at the start of `pat`: whether it matches, and its length. -/
def «class» (pat : Bytes) (c : UInt8) : Option (Bool × Nat) :=
  let negate := pat[1]? == some 33 || pat[1]? == some 94
  let start := if negate then 2 else 1
  classLoop pat c negate start start false

/-- The pattern left where its first item, which is no star, takes the byte `c`. -/
def takeByte (c : UInt8) : Bytes → Option Bytes
  | [] => none
  | 63 :: pat => some pat
  | 91 :: pat =>
    match «class» (91 :: pat) c with
    | some (hit, len) => if hit then some ((91 :: pat).drop len) else none
    | none => if c = 91 then some pat else none
  | 92 :: b :: pat => if b = c then some pat else if 92 = c then some (b :: pat) else none
  | b :: pat => if b = c then some pat else none

/-- What is left of the pattern and of the path, and the pattern after the last star with what was left
of the path at `mark`. -/
structure Glob where
  pat : Bytes
  path : Bytes
  star : Option (Bytes × Bytes)

def Glob.retry : Option (Bytes × Bytes) → Glob ⊕ Bool
  | some (pat, path) => .inl ⟨pat, path.tail, some (pat, path.tail)⟩
  | none => .inr false

/-- One round of the loop, or the answer. -/
def Glob.step (g : Glob) : Glob ⊕ Bool :=
  match g.path, g.pat with
  | [], pat => .inr (pat.all (· == 42))
  | path, 42 :: pat => .inl ⟨pat, path, some (pat, path)⟩
  | c :: path, pat =>
    match takeByte c pat with
    | some pat => .inl ⟨pat, path, g.star⟩
    | none => Glob.retry g.star

/-! ## The language -/

/-- A class of bytes: some ranges, or all bytes outside them. -/
structure ByteClass where
  negate : Bool
  ranges : List (UInt8 × UInt8)
deriving DecidableEq, Repr

def ByteClass.has (k : ByteClass) (c : UInt8) : Bool :=
  (k.ranges.any fun r => r.1 ≤ c && c ≤ r.2) != k.negate

/-- The ranges up to the closing bracket, which is not the first byte. -/
def classRanges (first : Bool) : Bytes → Option (List (UInt8 × UInt8) × Bytes)
  | [] => none
  | [b] => if b = 93 ∧ first = false then some ([], []) else none
  | [b, b'] => if b = 93 ∧ first = false then some ([], [b']) else
    (classRanges false [b']).map fun r => ((b, b) :: r.1, r.2)
  | b :: b' :: hi :: rest => if b = 93 ∧ first = false then some ([], b' :: hi :: rest)
    else if b' = 45 ∧ hi ≠ 93 then (classRanges false rest).map fun r => ((b, hi) :: r.1, r.2)
    else (classRanges false (b' :: hi :: rest)).map fun r => ((b, b) :: r.1, r.2)

/-- A class after its opening bracket, and what follows the closing one. -/
def byteClass (pat : Bytes) : Option (ByteClass × Bytes) :=
  match pat with
  | 33 :: pat | 94 :: pat => (classRanges true pat).map fun r => (⟨true, r.1⟩, r.2)
  | pat => (classRanges true pat).map fun r => (⟨false, r.1⟩, r.2)

/-- A class read off a pattern leaves the rest of it. -/
theorem classRanges_suffix {first : Bool} {pat rest : Bytes} {ranges : List (UInt8 × UInt8)}
    (h : classRanges first pat = some (ranges, rest)) : rest <:+ pat := by
  fun_induction classRanges first pat generalizing ranges with
  | case1 => cases h
  | case2 first b hclose =>
    cases h
    exact List.nil_suffix
  | case3 => cases h
  | case4 first b b' hclose =>
    cases h
    exact List.suffix_cons b _
  | case5 first b b' hopen ih =>
    obtain ⟨r, hr, heq⟩ := Option.map_eq_some_iff.mp h
    cases heq
    exact (ih hr).trans (List.suffix_cons b _)
  | case6 first b b' hi rest hclose =>
    cases h
    exact List.suffix_cons b _
  | case7 first b b' hi rest' hopen hrange ih =>
    obtain ⟨r, hr, heq⟩ := Option.map_eq_some_iff.mp h
    cases heq
    exact (ih hr).trans (((List.suffix_cons hi _).trans (List.suffix_cons b' _)).trans (List.suffix_cons b _))
  | case8 first b b' hi rest' hopen hrange ih =>
    obtain ⟨r, hr, heq⟩ := Option.map_eq_some_iff.mp h
    cases heq
    exact (ih hr).trans (List.suffix_cons b _)

theorem byteClass_suffix {pat rest : Bytes} {k : ByteClass} (h : byteClass pat = some (k, rest)) :
    rest <:+ pat := by
  unfold byteClass at h
  split at h
  all_goals
    obtain ⟨r, hr, heq⟩ := Option.map_eq_some_iff.mp h
    cases heq
  · exact (classRanges_suffix hr).trans (List.suffix_cons _ _)
  · exact (classRanges_suffix hr).trans (List.suffix_cons _ _)
  · exact classRanges_suffix hr

/-- The items of a pattern, from left to right. -/
def items : Bytes → List (Wild UInt8)
  | [] => []
  | 42 :: pat => .run :: items pat
  | 63 :: pat => .one (fun _ => true) :: items pat
  | 91 :: pat =>
    match _h : byteClass pat with
    | some (k, rest) => .one k.has :: items rest
    | none => .one (· == 91) :: items pat
  | 92 :: b :: pat => .one (· == b) :: items pat
  | b :: pat => .one (· == b) :: items pat
termination_by pat => pat.length
decreasing_by
  all_goals simp only [List.length_cons]
  all_goals try omega
  have hle := (byteClass_suffix _h).length_le
  omega

section
variable {first : Bool} {b hi : UInt8} {rest : Bytes}

theorem classRanges_close (h : b = 93 ∧ first = false) : classRanges first (b :: rest) = some ([], rest) := by
  match rest with
  | [] => rw [classRanges, if_pos h]
  | [_] => rw [classRanges, if_pos h]
  | _ :: _ :: _ => rw [classRanges, if_pos h]

theorem classRanges_range (h : ¬ (b = 93 ∧ first = false)) (hhi : hi ≠ 93) :
    classRanges first (b :: 45 :: hi :: rest) =
      (classRanges false rest).map fun r => ((b, hi) :: r.1, r.2) := by
  rw [classRanges, if_neg h, if_pos ⟨rfl, hhi⟩]

theorem classRanges_byte (h : ¬ (b = 93 ∧ first = false)) (hrest : ∀ hi rest', rest = 45 :: hi :: rest' → hi = 93) :
    classRanges first (b :: rest) = (classRanges false rest).map fun r => ((b, b) :: r.1, r.2) := by
  match rest with
  | [] =>
    have hnone : classRanges first [b] = none := by rw [classRanges, if_neg h]
    rw [hnone]
    rfl
  | [b'] => exact if_neg h
  | b' :: hi :: rest =>
    rw [classRanges, if_neg h, if_neg]
    rintro ⟨rfl, hhi⟩
    exact hhi (hrest hi rest rfl)

end

theorem beq_eq_le (b c : UInt8) : (b == c) = (decide (b ≤ c) && decide (c ≤ b)) := by
  rw [Bool.eq_iff_iff, Bool.and_eq_true, decide_eq_true_eq, decide_eq_true_eq, beq_iff_eq]
  constructor
  · rintro rfl
    exact ⟨UInt8.le_refl b, UInt8.le_refl b⟩
  · exact fun h => UInt8.le_antisymm h.1 h.2

/-- What the loop over a class comes to, from the `i`-th byte on. -/
theorem classLoop_eq (pat : Bytes) (c : UInt8) (negate : Bool) {start i : Nat} (hi : start ≤ i) (hit : Bool) :
    classLoop pat c negate start i hit = (classRanges (decide (i = start)) (pat.drop i)).map fun r =>
      ((hit || r.1.any fun r => r.1 ≤ c && c ≤ r.2) != negate, pat.length - r.2.length) := by
  have hget {j : Nat} (hj : j < pat.length) : pat.drop j = pat.getD j 0 :: pat.drop (j + 1) := by
    rw [List.drop_eq_getElem_cons hj]
    simp [hj]
  have hlater {j : Nat} (hj : start < j) : decide (j = start) = false := decide_eq_false (by omega)
  fun_induction classLoop pat c negate start i hit with
  | case1 i hit h hclose =>
    rw [hget h, hclose.1, classRanges_close ⟨rfl, hlater hclose.2⟩]
    simp
    omega
  | case2 i hit h hopen hrange ih =>
    have hb : ¬ (pat.getD i 0 = 93 ∧ decide (i = start) = false) := by
      rintro ⟨hb, hne⟩
      exact hopen ⟨hb, by have := of_decide_eq_false hne; omega⟩
    rw [ih (by omega), hget h, hget (j := i + 1) (by omega), hget (j := i + 2) (by omega), hrange.2.1,
      classRanges_range hb hrange.2.2, hlater (by omega), Option.map_map]
    congr 1
    funext r
    simp [Bool.or_assoc]
  | case3 i hit h hopen hrange ih =>
    have hb : ¬ (pat.getD i 0 = 93 ∧ decide (i = start) = false) := by
      rintro ⟨hb, hne⟩
      exact hopen ⟨hb, by have := of_decide_eq_false hne; omega⟩
    have hrest : ∀ hi rest', pat.drop (i + 1) = 45 :: hi :: rest' → hi = 93 := by
      intro hi rest' heq
      have hlen := congrArg List.length heq
      simp only [List.length_drop, List.length_cons] at hlen
      rw [hget (j := i + 1) (by omega), hget (j := i + 2) (by omega)] at heq
      obtain ⟨hdash, heq⟩ := List.cons.inj heq
      obtain ⟨rfl, -⟩ := List.cons.inj heq
      by_contra hne
      exact hrange ⟨by omega, hdash, hne⟩
    rw [ih (by omega), hget h, classRanges_byte hb hrest, hlater (by omega), Option.map_map]
    congr 1
    funext r
    simp [Bool.or_assoc, beq_eq_le]
  | case4 i hit h =>
    rw [List.drop_of_length_le (by omega), classRanges]
    rfl

/-- A class says whether the byte is in it, and how long it is. -/
theorem class_eq (pat : Bytes) (c : UInt8) : «class» (91 :: pat) c =
    (byteClass pat).map fun k => (k.1.has c, (91 :: pat).length - k.2.length) := by
  have hloop (negate : Bool) (start : Nat) : classLoop (91 :: pat) c negate start start false =
      (classRanges true ((91 :: pat).drop start)).map fun r =>
        ((ByteClass.has ⟨negate, r.1⟩ c), (91 :: pat).length - r.2.length) := by
    rw [classLoop_eq _ _ _ (Nat.le_refl start), decide_eq_true rfl]
    rfl
  match pat with
  | [] => exact hloop false 1
  | b :: rest =>
    by_cases h33 : b = 33
    · subst h33
      refine (hloop true 2).trans ?_
      rw [byteClass, Option.map_map]
      rfl
    · by_cases h94 : b = 94
      · subst h94
        refine (hloop true 2).trans ?_
        rw [byteClass, Option.map_map]
        rfl
      · have hplain : ((91 :: b :: rest)[1]? == some 33 || (91 :: b :: rest)[1]? == some 94) = false := by
          simp [h33, h94]
        unfold «class» byteClass
        dsimp only
        rw [hplain, if_neg Bool.false_ne_true, hloop]
        split
        · rename_i heq
          cases heq
          exact absurd rfl h33
        · rename_i heq
          cases heq
          exact absurd rfl h94
        · rw [Option.map_map]
          rfl

/-! ## The loop ends -/

/-- A byte taken off a pattern leaves a shorter rest. -/
theorem takeByte_suffix {c : UInt8} {pat rest : Bytes} (h : takeByte c pat = some rest) :
    rest <:+ pat ∧ rest.length < pat.length := by
  have hshort {pat rest : Bytes} (h : ∃ front, front ≠ [] ∧ pat = front ++ rest) :
      rest <:+ pat ∧ rest.length < pat.length := by
    obtain ⟨front, hne, rfl⟩ := h
    have hpos := List.length_pos_iff.mpr hne
    exact ⟨List.suffix_append front rest, by rw [List.length_append]; omega⟩
  unfold takeByte at h
  split at h
  · cases h
  · cases h
    exact hshort ⟨[63], by simp, rfl⟩
  · rename_i pat
    rw [class_eq] at h
    cases hclass : byteClass pat with
    | none =>
      rw [hclass, Option.map_none] at h
      dsimp only at h
      split at h
      · cases h
        exact hshort ⟨[91], by simp, rfl⟩
      · cases h
    | some k =>
      rw [hclass, Option.map_some] at h
      dsimp only at h
      split at h
      · have hsuffix := byteClass_suffix hclass
        have hdrop := List.suffix_iff_eq_drop.mp (hsuffix.trans (List.suffix_cons 91 pat))
        cases h
        rw [← hdrop]
        obtain ⟨front, rfl⟩ := hsuffix
        exact hshort ⟨91 :: front, by simp, rfl⟩
      · cases h
  · rename_i b pat
    split at h
    · cases h
      exact hshort ⟨[92, b], by simp, rfl⟩
    · split at h
      · cases h
        exact hshort ⟨[92], by simp, rfl⟩
      · cases h
  · rename_i b pat _ _ _
    split at h
    · cases h
      exact hshort ⟨[b], by simp, rfl⟩
    · cases h

namespace Glob

theorem step_star (pat : Bytes) (c : UInt8) (path : Bytes) (star : Option (Bytes × Bytes)) :
    step ⟨42 :: pat, c :: path, star⟩ = .inl ⟨pat, c :: path, some (pat, c :: path)⟩ := rfl

theorem step_byte {pat : Bytes} (h : pat.head? ≠ some 42) (c : UInt8) (path : Bytes)
    (star : Option (Bytes × Bytes)) : step ⟨pat, c :: path, star⟩ =
      match takeByte c pat with
      | some pat => .inl ⟨pat, path, star⟩
      | none => retry star := by
  unfold step
  split
  · rename_i hpath
    cases hpath
  · rename_i hpat _
    cases hpat
    exact absurd rfl h
  · rename_i hpath _
    cases hpath
    rfl

/-- The match ends: every step goes on in the pattern, or to a later start of the star. -/
theorem ends : WellFounded fun t g => step g = .inl t := by
  refine Subrelation.wf (fun {t g} h => ?_) (InvImage.wf (fun g : Glob =>
    searchSize g.pat.length g.star g.path) (Prod.lex Nat.lt_wfRel Nat.lt_wfRel).wf)
  obtain ⟨pat, path, star⟩ := g
  cases path with
  | nil => cases h
  | cons c path =>
    by_cases hstar : pat.head? = some 42
    · obtain ⟨pat, rfl⟩ := List.head?_eq_some_iff.mp hstar
      rw [step_star] at h
      cases h
      exact searchSize_run (Nat.lt_succ_self _)
    · rw [step_byte hstar] at h
      split at h
      · rename_i rest htake
        cases h
        exact searchSize_one (takeByte_suffix htake).2
      · cases star with
        | none => cases h
        | some s =>
          cases h
          exact searchSize_again

end Glob

/-- `glob_match`. -/
def globMatch (pat path : Bytes) : Bool := answerOf Glob.step Glob.ends ⟨pat, path, none⟩

/-! ## The loop is the search -/

/-- The escape of another byte has come to a backslash of the path. -/
def Slips (pat : Bytes) (c : UInt8) : Prop := c = 92 ∧ ∃ b rest, pat = 92 :: b :: rest ∧ b ≠ 92

/-- A byte is taken where the pattern's first item spells it. -/
theorem takeByte_items {pat : Bytes} {c : UInt8} (hstar : pat.head? ≠ some 42) (hslip : ¬ Slips pat c) :
    (∃ rest p, takeByte c pat = some rest ∧ items pat = .one p :: items rest ∧ p c = true) ∨
      takeByte c pat = none ∧ (pat = [] ∨ ∃ p rest, items pat = .one p :: rest ∧ p c = false) := by
  have hbyte (b : UInt8) (rest : Bytes) (htake : takeByte c pat = if b = c then some rest else none)
      (hitems : items pat = .one (· == b) :: items rest) :
      (∃ rest p, takeByte c pat = some rest ∧ items pat = .one p :: items rest ∧ p c = true) ∨
        takeByte c pat = none ∧ (pat = [] ∨ ∃ p rest, items pat = .one p :: rest ∧ p c = false) := by
    by_cases hb : b = c
    · exact .inl ⟨rest, _, by rw [htake, if_pos hb], hitems, beq_iff_eq.mpr hb.symm⟩
    · exact .inr ⟨by rw [htake, if_neg hb], .inr ⟨_, _, hitems, beq_eq_false_iff_ne.mpr (Ne.symm hb)⟩⟩
  match pat with
  | [] => exact .inr ⟨rfl, .inl rfl⟩
  | b :: pat =>
    by_cases h42 : b = 42
    · exact absurd (congrArg some h42) hstar
    · by_cases h63 : b = 63
      · subst h63
        exact .inl ⟨pat, _, rfl, by rw [items], rfl⟩
      · by_cases h91 : b = 91
        · subst h91
          have htake : takeByte c (91 :: pat) = match «class» (91 :: pat) c with
            | some (hit, len) => if hit then some ((91 :: pat).drop len) else none
            | none => if c = 91 then some pat else none := rfl
          cases hclass : byteClass pat with
          | none =>
            refine hbyte 91 pat ?_ ?_
            · rw [htake, class_eq, hclass]
              simp only [Option.map_none, eq_comm]
            · rw [items]
              split
              · rename_i h
                rw [hclass] at h
                cases h
              · rfl
          | some k =>
            obtain ⟨k, after⟩ := k
            have hitems : items (91 :: pat) = .one k.has :: items after := by
              rw [items]
              split
              · rename_i h
                rw [hclass] at h
                cases h
                rfl
              · rename_i h
                rw [hclass] at h
                cases h
            have hdrop := List.suffix_iff_eq_drop.mp ((byteClass_suffix hclass).trans (List.suffix_cons 91 pat))
            rw [htake, class_eq, hclass]
            dsimp only [Option.map_some]
            by_cases hhas : k.has c = true
            · exact .inl ⟨after, _, by rw [if_pos hhas, ← hdrop], hitems, hhas⟩
            · exact .inr ⟨by rw [if_neg hhas], .inr ⟨_, _, hitems, by simpa using hhas⟩⟩
        · by_cases h92 : b = 92
          · subst h92
            cases pat with
            | nil =>
              exact hbyte 92 [] rfl (items.eq_6 92 [] h42 h63 h91 fun _ _ _ h => by cases h)
            | cons b pat =>
              refine hbyte b pat ?_ (by rw [items])
              show (if b = c then some pat else if 92 = c then some (b :: pat) else none) = _
              by_cases hbc : b = c
              · rw [if_pos hbc, if_pos hbc]
              · rw [if_neg hbc, if_neg hbc, if_neg]
                rintro rfl
                exact hslip ⟨rfl, b, pat, rfl, hbc⟩
          · refine hbyte b pat ?_ ?_
            · exact takeByte.eq_5 c b pat h63 h91 fun _ _ h => absurd h h92
            · exact items.eq_6 b pat h42 h63 h91 fun _ _ h => absurd h h92

theorem all_star (pat : Bytes) : pat.all (· == 42) = (items pat).all Wild.isRun := by
  cases pat with
  | nil => rw [items]; rfl
  | cons b pat =>
    by_cases hb : b = 42
    · subst hb
      rw [items, List.all_cons, List.all_cons, all_star pat]
      rfl
    · have hhead : (b :: pat).head? ≠ some 42 := fun h => hb (Option.some.inj h)
      obtain ⟨p, rest, hitems⟩ : ∃ p rest, items (b :: pat) = .one p :: rest := by
        rcases takeByte_items hhead (c := 0) (fun h => absurd h.1 (by decide)) with
          ⟨rest, p, -, hitems, -⟩ | ⟨-, hnil | ⟨p, rest, hitems, -⟩⟩
        · exact ⟨p, _, hitems⟩
        · cases hnil
        · exact ⟨p, rest, hitems⟩
      rw [hitems, List.all_cons, List.all_cons, beq_eq_false_iff_ne.mpr hb]
      rfl

namespace Glob

def toSearch (g : Glob) : Search UInt8 := ⟨items g.pat, g.path, g.star.map fun s => (items s.1, s.2)⟩

/-- The loop comes to `t`. -/
def Reaches (g t : Glob) : Prop := Relation.ReflTransGen (fun g t => step g = .inl t) g t

/-- The round in which an escape slips. -/
def Slip (g : Glob) : Prop := ∃ c path, g.path = c :: path ∧ Slips g.pat c

/-- Without a slip the match and the search over items step together. -/
theorem step_toSearch {g : Glob} (hslip : ¬ g.Slip) :
    (∀ t, step g = .inl t → g.toSearch.step = .inl t.toSearch) ∧
      ∀ b, step g = .inr b → g.toSearch.step = .inr b := by
  obtain ⟨pat, path, star⟩ := g
  cases path with
  | nil =>
    refine ⟨fun t h => (by cases h), fun b h => ?_⟩
    cases h
    show Sum.inr ((items pat).all Wild.isRun) = _
    rw [all_star]
  | cons c path =>
    by_cases hstar : pat.head? = some 42
    · obtain ⟨pat, rfl⟩ := List.head?_eq_some_iff.mp hstar
      rw [step_star]
      refine ⟨fun t h => ?_, fun b h => by cases h⟩
      cases h
      show Search.step ⟨items (42 :: pat), c :: path, _⟩ = _
      rw [items]
      rfl
    · have hnoslip : ¬ Slips pat c := fun h => hslip ⟨c, path, rfl, h⟩
      -- Where the item fails, both go back to the star.
      have hfail (hsearch : (toSearch ⟨pat, c :: path, star⟩).step =
          Search.again (star.map fun s => (items s.1, s.2))) :
          (∀ t, retry star = .inl t → (toSearch ⟨pat, c :: path, star⟩).step = .inl t.toSearch) ∧
            ∀ b, retry star = .inr b → (toSearch ⟨pat, c :: path, star⟩).step = .inr b := by
        rw [hsearch]
        cases star with
        | none =>
          refine ⟨fun t h => (by cases h), fun b h => ?_⟩
          cases h
          rfl
        | some s =>
          refine ⟨fun t h => ?_, fun b h => (by cases h)⟩
          cases h
          rfl
      rw [step_byte hstar]
      rcases takeByte_items hstar hnoslip with ⟨rest, p, htake, hitems, hp⟩ | ⟨htake, hnone⟩
      · rw [htake]
        refine ⟨fun t h => ?_, fun b h => by cases h⟩
        cases h
        show Search.step ⟨items pat, c :: path, _⟩ = _
        rw [hitems, Search.step_one, if_pos hp]
        rfl
      · rw [htake]
        refine hfail ?_
        show Search.step ⟨items pat, c :: path, _⟩ = _
        rcases hnone with rfl | ⟨p, rest, hitems, hp⟩
        · rw [items]
          rfl
        · rw [hitems, Search.step_one, hp]
          rfl

theorem answer_toSearch {g : Glob} (h : ∀ t, g.Reaches t → ¬ t.Slip) :
    answerOf step ends g = answerOf Search.step Search.ends g.toSearch := by
  refine answerOf_eq (I := fun g => ∀ t, Reaches g t → ¬ t.Slip) h (fun g t hg hstep => ?_) fun g b hg hstep => ?_
  · exact ⟨fun u hu => hg u (.head hstep hu), (step_toSearch (hg g .refl)).1 t hstep⟩
  · exact (step_toSearch (hg g .refl)).2 b hstep

/-- A round leaves the end of the pattern and of the path, or goes back to the star. -/
theorem step_parts {g t : Glob} (h : step g = .inl t) :
    t.pat <:+ g.pat ∧ t.path <:+ g.path ∧ (t.star = g.star ∨ t.star = some (t.pat, t.path)) ∨
      ∃ s, g.star = some s ∧ t = ⟨s.1, s.2.tail, some (s.1, s.2.tail)⟩ := by
  obtain ⟨pat, path, star⟩ := g
  cases path with
  | nil => cases h
  | cons c path =>
    by_cases hstar : pat.head? = some 42
    · obtain ⟨pat, rfl⟩ := List.head?_eq_some_iff.mp hstar
      rw [step_star] at h
      cases h
      exact .inl ⟨List.suffix_cons 42 pat, List.suffix_refl _, .inr rfl⟩
    · rw [step_byte hstar] at h
      split at h
      · rename_i rest htake
        cases h
        exact .inl ⟨(takeByte_suffix htake).1, List.suffix_cons c path, .inl rfl⟩
      · cases star with
        | none => cases h
        | some s =>
          cases h
          exact .inr ⟨s, rfl, rfl⟩

/-- What holds of the pattern and of the path and of their ends holds in each round. -/
theorem Reaches.parts {A B : Bytes → Prop} (hA : ∀ pat rest, A pat → rest <:+ pat → A rest)
    (hB : ∀ path rest, B path → rest <:+ path → B rest) {pat path : Bytes} (hpat : A pat) (hpath : B path)
    {t : Glob} (h : Reaches ⟨pat, path, none⟩ t) : A t.pat ∧ B t.path := by
  have hall : (A t.pat ∧ B t.path) ∧ ∀ s, t.star = some s → A s.1 ∧ B s.2 := by
    induction h with
    | refl => exact ⟨⟨hpat, hpath⟩, fun s hs => by cases hs⟩
    | tail _ hstep ih =>
      obtain ⟨⟨hpat, hpath⟩, hstar⟩ := ih
      rcases step_parts hstep with ⟨hp, hq, hs⟩ | ⟨s, hs, rfl⟩
      · have ht := And.intro (hA _ _ hpat hp) (hB _ _ hpath hq)
        refine ⟨ht, fun s hsome => ?_⟩
        rcases hs with hsame | hnew
        · exact hstar s (hsame ▸ hsome)
        · rw [hnew] at hsome
          cases hsome
          exact ht
      · have ht := And.intro (hstar s hs).1 (hB _ _ (hstar s hs).2 (List.tail_suffix s.2))
        refine ⟨ht, fun s' hsome => ?_⟩
        cases hsome
        exact ht
  exact hall.1

theorem no_slip_of_path {pat path : Bytes} (h : 92 ∉ path) : ∀ t, Reaches ⟨pat, path, none⟩ t → ¬ t.Slip := by
  rintro t ht ⟨c, rest, hpath, rfl, -⟩
  have hparts := ht.parts (A := fun _ => True) (B := fun path => 92 ∉ path) (fun _ _ _ _ => trivial)
    (fun _ _ h hs hmem => h (hs.mem hmem)) trivial h
  rw [hpath] at hparts
  exact hparts.2 List.mem_cons_self

theorem no_slip_of_pat {pat path : Bytes} (h : 92 ∉ pat) : ∀ t, Reaches ⟨pat, path, none⟩ t → ¬ t.Slip := by
  rintro t ht ⟨c, rest, -, -, b, after, hpat, -⟩
  have hparts := ht.parts (A := fun pat => 92 ∉ pat) (B := fun _ => True)
    (fun _ _ h hs hmem => h (hs.mem hmem)) (fun _ _ _ _ => trivial) h trivial
  rw [hpat] at hparts
  exact hparts.1 List.mem_cons_self

/-- A `?` takes any byte. -/
theorem answer_any (u pat path : Bytes) (star : Option (Bytes × Bytes)) :
    answerOf step ends ⟨List.replicate u.length 63 ++ pat, u ++ path, star⟩ =
      answerOf step ends ⟨pat, path, star⟩ := by
  induction u with
  | nil => rfl
  | cons c u ih => exact (answerOf_inl (step_byte (by simp [List.replicate_succ]) c _ star)).trans ih

end Glob

section
variable {pat path : Bytes}

theorem globMatch_of_no_slip (h : ∀ t, Glob.Reaches ⟨pat, path, none⟩ t → ¬ t.Slip) :
    globMatch pat path = true ↔ Spells (items pat) path := by
  rw [globMatch, Glob.answer_toSearch h]
  exact search_iff (items pat) path

/-- Each path with a backslash is one that some pattern matches and does not mean. -/
theorem exists_slip (h : 92 ∈ path) : ∃ pat, globMatch pat path = true ∧ ¬ Spells (items pat) path := by
  obtain ⟨u, v, rfl⟩ := List.append_of_mem h
  refine ⟨List.replicate u.length 63 ++ [92, 42], ?_, ?_⟩
  · rw [globMatch, Glob.answer_any]
    have hstep : Glob.step ⟨[92, 42], 92 :: v, none⟩ = .inl ⟨[42], v, none⟩ := rfl
    rw [answerOf_inl hstep]
    refine (globMatch_of_no_slip (Glob.no_slip_of_pat (by decide))).mpr ?_
    rw [items, items]
    exact ⟨v, [], (List.append_nil v).symm, rfl⟩
  · have hitems (n : Nat) : items (List.replicate n 63 ++ [92, 42]) =
        List.replicate n (.one fun _ => true) ++ [.one (· == 42)] := by
      induction n with
      | zero =>
        show items [92, 42] = _
        rw [items, items]
        rfl
      | succ n ih =>
        rw [List.replicate_succ, List.cons_append, items, ih]
        rfl
    rw [hitems]
    intro hread
    obtain ⟨-, hlast⟩ := spells_of_ones (fun item hitem => by rw [List.eq_of_mem_replicate hitem]; rfl) hread
    rw [List.length_replicate, List.drop_left, spells_one] at hlast
    exact absurd hlast.1 (by decide)

end

/-- The loop decides the language of the pattern as long as no escape of another byte meets a backslash.
A path has that for every pattern exactly if it has no backslash. -/
theorem glob_match_decides (path : Bytes) :
    (∀ pat, (∀ t, Glob.Reaches ⟨pat, path, none⟩ t → ¬ t.Slip) →
      (globMatch pat path = true ↔ Spells (items pat) path)) ∧
    ((∀ pat, globMatch pat path = true ↔ Spells (items pat) path) ↔ 92 ∉ path) := by
  refine ⟨fun pat h => globMatch_of_no_slip h, fun h hmem => ?_, fun h pat => ?_⟩
  · obtain ⟨pat, htrue, hread⟩ := exists_slip hmem
    exact hread ((h pat).mp htrue)
  · exact globMatch_of_no_slip (Glob.no_slip_of_path h)

/-- The pattern `/*p/*b` matches `/tmp/ab`; each star takes more than it tries first. -/
theorem glob_match_decides_tmp :
    globMatch [47, 42, 112, 47, 42, 98] [47, 116, 109, 112, 47, 97, 98] = true := by
  refine ((glob_match_decides _).2.mpr (by decide) _).mpr ?_
  have hitems : items [47, 42, 112, 47, 42, 98] =
      [.one (· == 47), .run, .one (· == 112), .one (· == 47), .run, .one (· == 98)] := by simp [items]
  rw [hitems, spells_one]
  refine ⟨rfl, [116, 109], [112, 47, 97, 98], rfl, ?_⟩
  rw [spells_one, spells_one]
  exact ⟨rfl, rfl, [97], [98], rfl, spells_one.mpr ⟨rfl, rfl⟩⟩

/-- The pattern `\a` is the byte `a`, and matches the path `\a`. -/
theorem escape_slips : globMatch [92, 97] [92, 97] = true ∧ ¬ Spells (items [92, 97]) [92, 97] := by
  constructor
  · have hslip : Glob.step ⟨[92, 97], [92, 97], none⟩ = .inl ⟨[97], [97], none⟩ := rfl
    have hbyte : Glob.step ⟨[97], [97], none⟩ = .inl ⟨[], [], none⟩ := rfl
    have hend : Glob.step ⟨[], [], none⟩ = .inr true := rfl
    rw [globMatch, answerOf_inl hslip, answerOf_inl hbyte, answerOf_inr hend]
  · simp [items, Spells]

end Ruse.Save
