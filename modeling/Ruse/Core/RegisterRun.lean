import Ruse.Core.Register
import Ruse.Lib.Run

/-!
# Runs of register writes

What each slot holds after a run of writes. `numbered_step` and `Written` say once
what one write can do; from them a ring slot is carried by every write that does
not name it (`ring_carried`), `"0` changes only where it is named, and the unnamed
register equals the letter it was taken from until a kill grows it
(`registers_keep`).
-/

namespace Ruse.Core

open Ruse.Lib

namespace RegisterStore

variable {c : Char} {s : RegisterStore} {op : Op} {j : Nat}

/-! ## One write -/

theorem index_of_digit {i : Fin 9} (h : digit c = some i) : index c = none := by
  unfold digit at h
  split at h
  · rename_i hc
    have hhi : c.val.toNat ≤ 57 := UInt32.le_iff_toNat_le.mp hc.2
    have halpha : c.isAlpha = false := by
      have hdef : c.isAlpha = (decide ('A'.val ≤ c.val ∧ c.val ≤ 'Z'.val) ||
          decide ('a'.val ≤ c.val) && decide (c.val ≤ 'z'.val)) := rfl
      rw [← Bool.not_eq_true, hdef]
      simp only [Bool.or_eq_true, Bool.and_eq_true, decide_eq_true_eq, UInt32.le_iff_toNat_le]
      have hA : 'A'.val.toNat = 65 := rfl
      have ha : 'a'.val.toNat = 97 := rfl
      omega
    rw [index, halpha]
    rfl
  · cases h

/-- Whether no yank or delete may write under `name`. -/
def Ignored (name : Option Char) : Prop := isWritable name = false ∨ name = some '_'

instance (name : Option Char) : Decidable (Ignored name) :=
  inferInstanceAs (Decidable (_ ∨ _))

theorem gate_of_not_ignored {name : Option Char} (h : ¬ Ignored name) :
    (!isWritable name || name == some '_') = false := by
  obtain ⟨hwritable, hblack⟩ := not_or.mp h
  rw [Bool.not_eq_false] at hwritable
  rw [hwritable, beq_eq_false_iff_ne.mpr hblack]
  rfl

/-- What `write` leaves when it writes. -/
inductive Written (s : RegisterStore) (reg : Register) : Option Char → RegisterStore → Prop
  | unnamed {name : Option Char} : name.bind digit = none → name ≠ some '0' → name ≠ some '#' →
      Written s reg name { s with unnamed := reg, unnamedFrom := none }
  | zero {c : Char} : c = '0' ∨ c = '#' →
      Written s reg (some c) { s with yank0 := reg, unnamed := reg, unnamedFrom := none }
  | digit {c : Char} {i : Fin 9} : digit c = some i → c ≠ '0' → c ≠ '#' →
      Written s reg (some c)
        { s with
          numbered := Function.update s.numbered i reg
          unnamed := reg
          unnamedFrom := none }
  | small : Written s reg (some '-')
      { s with smallDelete := reg, unnamed := reg, unnamedFrom := none }
  | clipboard {c : Char} : c = '+' ∨ c = '*' →
      Written s reg (some c) { s with clipboard := reg, unnamed := reg, unnamedFrom := none }
  | letter {c : Char} {i : Fin 26} : index c = some i → RegisterStore.digit c = none →
      c ≠ '0' → c ≠ '#' →
      Written s reg (some c)
        { s with
          named := Function.update s.named i (lettered c (s.named i) reg)
          unnamed := lettered c (s.named i) reg
          unnamedFrom := some i }
  | nothing {c : Char} : RegisterStore.digit c = none → c ≠ '0' → c ≠ '#' →
      Written s reg (some c) { s with unnamedFrom := none }

theorem write_ignored {name : Option Char} {reg : Register} (h : Ignored name) :
    s.write name reg = s := by
  unfold write
  rcases h with h | h
  · rw [h, Bool.not_false, Bool.true_or, if_pos rfl]
  · rw [h, if_pos (by decide)]

/-- A write goes where its name says, and to the unnamed register. -/
theorem write_written {name : Option Char} {reg : Register} (h : ¬ Ignored name) :
    Written s reg name (s.write name reg) := by
  unfold write
  rw [gate_of_not_ignored h, if_neg Bool.false_ne_true]
  cases name with
  | none => exact .unnamed rfl (by decide) (by decide)
  | some c =>
    dsimp only [Option.bind_some]
    split
    · rename_i hc
      subst hc
      exact .unnamed (by decide) (by decide) (by decide)
    · split
      · rename_i hc
        have hindex : index c = none := by rcases hc with rfl | rfl <;> decide
        rw [hindex]
        exact .zero hc
      · rename_i hzero
        have hzero := not_or.mp hzero
        split
        · rename_i i hi
          rw [index_of_digit hi]
          exact .digit hi hzero.1 hzero.2
        · rename_i hdigit
          split
          · rename_i hc
            subst hc
            exact .small
          · split
            · rename_i hc
              have hindex : index c = none := by rcases hc with rfl | rfl <;> decide
              rw [hindex]
              exact .clipboard hc
            · split
              · rename_i i hi
                rw [hi]
                exact .letter hi hdigit hzero.1 hzero.2
              · rename_i hindex
                rw [hindex]
                exact .nothing hdigit hzero.1 hzero.2

/-- The ring slot an operation names. -/
def Op.ringWrite : Op → Option (Fin 9)
  | .write name _ => name.bind digit
  | .yank name _ => name.bind digit
  | .deleteRing name _ _ => name.bind digit
  | .setMacro name _ => name.bind digit
  | .killAppend _ => none
  | .killPrepend _ => none

/-- The register an operation is given. -/
def Op.reg : Op → Register
  | .write _ reg => reg
  | .yank _ reg => reg
  | .deleteRing _ reg _ => reg
  | .setMacro _ reg => reg
  | .killAppend reg => reg
  | .killPrepend reg => reg

/-- Whether an operation is a delete that goes into the ring: of a whole line or
more, or by a motion that always uses `"1`, and not into the black hole. -/
def Op.ringEligible : Op → Bool
  | .deleteRing name reg ringOne =>
    isWritable name && name != some '_' &&
      (reg.isLinewise || reg.text.contains newline || ringOne)
  | _ => false

def writeSlot (ring : Fin 9 → Register) (slot : Option (Fin 9)) (reg : Register) :
    Fin 9 → Register :=
  match slot with
  | some i => Function.update ring i reg
  | none => ring

/-- An ignored name is no digit. -/
theorem digit_of_ignored {name : Option Char} (h : Ignored name) : name.bind digit = none := by
  cases name with
  | none => rfl
  | some c =>
    rw [Option.bind_some, digit, if_neg]
    rintro ⟨hlo, hhi⟩
    rcases h with h | h
    · have hlo : 49 ≤ c.val.toNat := UInt32.le_iff_toNat_le.mp hlo
      have hhi : c.val.toNat ≤ 57 := UInt32.le_iff_toNat_le.mp hhi
      have hnum : c.isAlphanum = true := by
        have hdef : c.isAlphanum =
            (c.isAlpha || decide ('0'.val ≤ c.val) && decide (c.val ≤ '9'.val)) := rfl
        rw [hdef]
        simp only [Bool.or_eq_true, Bool.and_eq_true, decide_eq_true_eq, UInt32.le_iff_toNat_le]
        have h0 : '0'.val.toNat = 48 := rfl
        have h9 : '9'.val.toNat = 57 := rfl
        omega
      rw [isWritable, Option.all_some, hnum] at h
      cases h
    · cases h
      exact absurd hhi (by decide)

theorem Written.numbered {s' : RegisterStore} {name : Option Char} {reg : Register}
    (h : Written s reg name s') :
    s'.numbered = writeSlot s.numbered (name.bind RegisterStore.digit) reg := by
  cases h with
  | unnamed hdigit => rw [hdigit]; rfl
  | zero hc => rcases hc with rfl | rfl <;> rfl
  | digit hi => rw [Option.bind_some, hi]; rfl
  | small => rfl
  | clipboard hc => rcases hc with rfl | rfl <;> rfl
  | letter _ hdigit => rw [Option.bind_some, hdigit]; rfl
  | nothing hdigit => rw [Option.bind_some, hdigit]; rfl

theorem write_numbered (s : RegisterStore) (name : Option Char) (reg : Register) :
    (s.write name reg).numbered = writeSlot s.numbered (name.bind digit) reg := by
  by_cases h : Ignored name
  · rw [write_ignored h, digit_of_ignored h]
    rfl
  · exact (write_written h).numbered

theorem deleteRing_ignored {name : Option Char} {reg : Register} {ringOne : Bool} (h : Ignored name) :
    s.deleteRing name reg ringOne = s := by
  have hgate : (!isWritable name || name == some '_') = true := by
    rcases h with h | h <;> simp [h]
  rw [deleteRing, hgate, if_pos rfl]

theorem deleteRing_none (s : RegisterStore) (reg : Register) (ringOne : Bool) :
    s.deleteRing none reg ringOne =
      { s with
        numbered :=
          if shiftsRing reg ringOne then Function.update (rotateRight s.numbered) 0 reg
          else s.numbered
        smallDelete :=
          if reg.isLinewise || reg.text.contains newline then s.smallDelete else reg
        unnamed := reg
        unnamedFrom := none } := by
  unfold deleteRing shiftsRing
  cases reg.isLinewise || reg.text.contains newline <;> cases ringOne <;> rfl

theorem deleteRing_some {reg : Register} {ringOne : Bool} (h : ¬ Ignored (some c)) :
    s.deleteRing (some c) reg ringOne =
      if shiftsRing reg ringOne then
        { s.write (some c) reg with
          numbered := Function.update (rotateRight (s.write (some c) reg).numbered) 0 reg
          unnamed := if c.isUpper then (s.write (some c) reg).unnamed else reg
          unnamedFrom := if c.isUpper then (s.write (some c) reg).unnamedFrom else none }
      else s.write (some c) reg := by
  unfold deleteRing shiftsRing
  rw [gate_of_not_ignored h, if_neg Bool.false_ne_true]
  cases reg.isLinewise || reg.text.contains newline <;> cases ringOne <;>
    cases hup : c.isUpper <;> simp [hup]

/-- The ring after one operation: the named slot first, then the shift. -/
theorem numbered_step (s : RegisterStore) (op : Op) :
    (step s op).numbered =
      if op.ringEligible then
        Function.update (rotateRight (writeSlot s.numbered op.ringWrite op.reg)) 0 op.reg
      else writeSlot s.numbered op.ringWrite op.reg := by
  cases op with
  | write name reg => exact write_numbered s name reg
  | yank name reg =>
    show ((if name.isNone then { s with yank0 := reg } else s).write name reg).numbered = _
    rw [write_numbered]
    split <;> rfl
  | killAppend reg => rfl
  | killPrepend reg => rfl
  | setMacro name reg =>
    cases name with
    | none => rfl
    | some c =>
      show (setMacro s (some c) reg).numbered = writeSlot s.numbered (digit c) reg
      unfold setMacro
      dsimp only
      split
      · rename_i hc
        subst hc
        rfl
      · split
        · rename_i hc
          subst hc
          rfl
        · cases hdigit : digit c with
          | some i => rfl
          | none =>
            cases index c with
            | none => rfl
            | some i =>
              dsimp only
              split <;> rfl
  | deleteRing name reg ringOne =>
    show (s.deleteRing name reg ringOne).numbered = _
    by_cases h : Ignored name
    · have hring : Op.ringEligible (.deleteRing name reg ringOne) = false := by
        rcases h with h | h <;> simp [Op.ringEligible, h]
      rw [deleteRing_ignored h, hring, if_neg Bool.false_ne_true, Op.ringWrite,
        digit_of_ignored h]
      rfl
    · have hring : Op.ringEligible (.deleteRing name reg ringOne) = shiftsRing reg ringOne := by
        obtain ⟨hwritable, hblack⟩ := not_or.mp h
        rw [Bool.not_eq_false] at hwritable
        simp [Op.ringEligible, hwritable, hblack, shiftsRing]
      rw [hring]
      cases name with
      | none =>
        rw [deleteRing_none]
        rfl
      | some c =>
        rw [deleteRing_some h]
        split
        · show Function.update (rotateRight (s.write (some c) reg).numbered) 0 reg = _
          rw [write_numbered]
          rfl
        · exact write_numbered s (some c) reg

/-! ## The link of the unnamed register -/

/-- The unnamed register equals the letter it was taken from. -/
def Linked (s : RegisterStore) : Prop := ∀ i, s.unnamedFrom = some i → s.unnamed = s.named i

theorem linked_of_none (h : s.unnamedFrom = none) : s.Linked := by
  intro i hi
  rw [h] at hi
  cases hi

theorem Written.linked {s' : RegisterStore} {name : Option Char} {reg : Register}
    (h : Written s reg name s') : s'.Linked := by
  cases h with
  | @letter c i _ _ _ _ =>
    intro j hj
    cases hj
    show lettered c (s.named i) reg = Function.update s.named i _ i
    rw [Function.update_self]
  | unnamed _ _ _ => exact linked_of_none rfl
  | zero _ => exact linked_of_none rfl
  | digit _ _ _ => exact linked_of_none rfl
  | small => exact linked_of_none rfl
  | clipboard _ => exact linked_of_none rfl
  | nothing _ _ _ => exact linked_of_none rfl

theorem write_linked (hs : s.Linked) (name : Option Char) (reg : Register) :
    (s.write name reg).Linked := by
  by_cases h : Ignored name
  · rw [write_ignored h]
    exact hs
  · exact (write_written h).linked

theorem deleteRing_linked (hs : s.Linked) (name : Option Char) (reg : Register) (ringOne : Bool) :
    (s.deleteRing name reg ringOne).Linked := by
  by_cases h : Ignored name
  · rw [deleteRing_ignored h]
    exact hs
  · cases name with
    | none =>
      rw [deleteRing_none]
      exact linked_of_none rfl
    | some c =>
      have hw := write_linked hs (some c) reg
      rw [deleteRing_some h]
      split
      · cases hup : c.isUpper with
        | true => exact hw
        | false => exact linked_of_none rfl
      · exact hw

/-- Setting a macro keeps the unnamed register linked. -/
theorem setMacro_linked (hs : s.Linked) (name : Option Char) (reg : Register) :
    (s.setMacro name reg).Linked := by
  cases name with
  | none => exact hs
  | some c =>
    unfold setMacro
    dsimp only
    split
    · exact linked_of_none rfl
    · split
      · exact hs
      · cases digit c with
        | some i => exact hs
        | none =>
          cases index c with
          | none => exact hs
          | some i =>
            dsimp only
            split
            · rename_i hfrom
              intro j hj
              rw [hfrom] at hj
              cases hj
              show lettered c (s.named i) reg = Function.update s.named i _ i
              rw [Function.update_self]
            · -- the letter recorded is not the one linked
              rename_i hfrom
              intro j hj
              have hji : j ≠ i := fun heq => hfrom (heq ▸ hj)
              exact (hs j hj).trans (Function.update_of_ne hji ..).symm

/-- Whether an operation grows the unnamed register in place. -/
def Op.isKill : Op → Bool
  | .killAppend _ => true
  | .killPrepend _ => true
  | _ => false

theorem step_linked (hs : s.Linked) (op : Op) (hkill : op.isKill → s.unnamedFrom = none) :
    (step s op).Linked := by
  cases op with
  | write name reg => exact write_linked hs name reg
  | yank name reg =>
    refine write_linked ?_ name reg
    split <;> exact hs
  | deleteRing name reg ringOne => exact deleteRing_linked hs name reg ringOne
  | setMacro name reg => exact setMacro_linked hs name reg
  | killAppend reg => exact linked_of_none (hkill rfl)
  | killPrepend reg => exact linked_of_none (hkill rfl)

/-! ## The yank register -/

/-- Whether an operation writes `"0`: an unregistered yank, or a write under a name
that stands for `"0` (`"#` does, and `q"` records into it). -/
def Op.writesZero : Op → Bool
  | .yank name _ => name == none || name == some '0' || name == some '#'
  | .write name _ => name == some '0' || name == some '#'
  | .deleteRing name _ _ => name == some '0' || name == some '#'
  | .setMacro name _ => name == some '0' || name == some '"'
  | _ => false

theorem write_yank0 {name : Option Char} {reg : Register} (h0 : name ≠ some '0')
    (hsharp : name ≠ some '#') : (s.write name reg).yank0 = s.yank0 := by
  by_cases h : Ignored name
  · rw [write_ignored h]
  · have hw : Written s reg name (s.write name reg) := write_written h
    generalize s.write name reg = s' at hw
    cases hw with
    | zero hc =>
      rcases hc with rfl | rfl
      · exact absurd rfl h0
      · exact absurd rfl hsharp
    | unnamed _ _ _ => rfl
    | digit _ _ _ => rfl
    | small => rfl
    | clipboard _ => rfl
    | letter _ _ _ _ => rfl
    | nothing _ _ _ => rfl

/-- Only a yank writes register 0. -/
theorem step_yank0 (h : op.writesZero = false) :
    (step s op).yank0 = s.yank0 := by
  cases op with
  | write name reg =>
    simp only [Op.writesZero, Bool.or_eq_false_iff, beq_eq_false_iff_ne] at h
    exact write_yank0 h.1 h.2
  | yank name reg =>
    simp only [Op.writesZero, Bool.or_eq_false_iff, beq_eq_false_iff_ne] at h
    cases name with
    | none => exact absurd rfl h.1.1
    | some c => exact write_yank0 h.1.2 h.2
  | deleteRing name reg ringOne =>
    simp only [Op.writesZero, Bool.or_eq_false_iff, beq_eq_false_iff_ne] at h
    show (s.deleteRing name reg ringOne).yank0 = s.yank0
    by_cases hig : Ignored name
    · rw [deleteRing_ignored hig]
    · cases name with
      | none => rw [deleteRing_none]
      | some c =>
        rw [deleteRing_some hig]
        split <;> exact write_yank0 h.1 h.2
  | setMacro name reg =>
    simp only [Op.writesZero, Bool.or_eq_false_iff, beq_eq_false_iff_ne] at h
    cases name with
    | none => rfl
    | some c =>
      show (s.setMacro (some c) reg).yank0 = s.yank0
      unfold setMacro
      dsimp only
      rw [if_neg (fun hc => h.2 (by rw [hc])), if_neg (fun hc => h.1 (by rw [hc]))]
      cases digit c with
      | some i => rfl
      | none =>
        cases index c with
        | none => rfl
        | some i =>
          dsimp only
          split <;> rfl
  | killAppend reg => rfl
  | killPrepend reg => rfl

/-! ## Names that take no write -/

/-- The name an operation writes under; a kill has none. -/
def Op.name : Op → Option Char
  | .write name _ => name
  | .yank name _ => name
  | .deleteRing name _ _ => name
  | .setMacro name _ => name
  | .killAppend _ => none
  | .killPrepend _ => none

theorem index_of_ignored (h : Ignored (some c)) : index c = none := by
  rw [index, if_neg]
  intro halpha
  rcases h with h | h
  · have hnum : c.isAlphanum = (c.isAlpha || c.isDigit) := rfl
    rw [isWritable, Option.all_some, hnum, halpha] at h
    cases h
  · cases h
    cases halpha

/-- An operation on an ignored name does nothing. -/
theorem step_ignored (h : Ignored op.name) : step s op = s := by
  cases op with
  | write name reg => exact write_ignored h
  | yank name reg =>
    cases name with
    | none => rcases h with h | h <;> cases h
    | some c => exact write_ignored h
  | deleteRing name reg ringOne => exact deleteRing_ignored h
  | setMacro name reg =>
    cases name with
    | none => rfl
    | some c =>
      have hquote : c ≠ '"' := by
        rintro rfl
        exact (by decide : ¬ Ignored (some '"')) h
      have hzero : c ≠ '0' := by
        rintro rfl
        exact (by decide : ¬ Ignored (some '0')) h
      have hdigit : digit c = none := digit_of_ignored h
      show s.setMacro (some c) reg = s
      unfold setMacro
      dsimp only
      rw [if_neg hquote, if_neg hzero, hdigit]
      rw [index_of_ignored h]
  | killAppend reg => rcases h with h | h <;> cases h
  | killPrepend reg => rcases h with h | h <;> cases h

/-! ## The ring over a run -/

/-- How many deletes of a run went into the ring. -/
def ringDeletes (ops : List Op) : Nat := ops.countP Op.ringEligible

/-- The entry at ring slot `j` is written by name before the run `ops` is over;
every ring delete moves it one slot on. -/
def Overwritten : Nat → List Op → Prop
  | _, [] => False
  | j, op :: ops =>
    op.ringWrite.map Fin.val = some j ∨ Overwritten (j + ringDeletes [op]) ops

instance decidableOverwritten : ∀ j ops, Decidable (Overwritten j ops)
  | _, [] => inferInstanceAs (Decidable False)
  | j, op :: ops =>
    have := decidableOverwritten (j + ringDeletes [op]) ops
    inferInstanceAs (Decidable (_ ∨ _))

/-- What the ring holds at slot `j`. -/
def ring (s : RegisterStore) (j : Nat) : Option Register :=
  if h : j < 9 then some (s.numbered ⟨j, h⟩) else none

theorem ring_eq_some {r : Register} :
    s.ring j = some r ↔ ∃ h : j < 9, s.numbered ⟨j, h⟩ = r := by
  unfold ring
  split
  · rename_i h
    simp [h]
  · rename_i h
    simp [h]

theorem rotateRight_succ (ring : Fin 9 → Register) (h : j + 1 < 9) :
    rotateRight ring ⟨j + 1, h⟩ = ring ⟨j, by omega⟩ := by
  have hpred : (⟨j + 1, h⟩ : Fin 9) - 1 = ⟨j, by omega⟩ := by
    have hone : (1 : Fin 9) ≤ ⟨j + 1, h⟩ := Nat.succ_le_succ (Nat.zero_le j)
    exact Fin.ext (by rw [Fin.sub_val_of_le hone]; rfl)
  rw [rotateRight, hpred]

theorem ringDeletes_cons (op : Op) (ops : List Op) :
    ringDeletes (op :: ops) = ringDeletes [op] + ringDeletes ops := by
  rw [ringDeletes, ringDeletes, ringDeletes, ← List.countP_append]
  rfl

theorem ringDeletes_one (op : Op) : ringDeletes [op] = if op.ringEligible then 1 else 0 := by
  rw [ringDeletes, List.countP_singleton]

theorem writeSlot_of_ne {ring : Fin 9 → Register} {slot : Option (Fin 9)} {reg : Register}
    (h : j < 9) (hne : slot.map Fin.val ≠ some j) :
    writeSlot ring slot reg ⟨j, h⟩ = ring ⟨j, h⟩ := by
  cases slot with
  | none => rfl
  | some i =>
    have hij : (⟨j, h⟩ : Fin 9) ≠ i := by
      rintro rfl
      exact hne rfl
    exact Function.update_of_ne hij ..

/-- The ring after one operation, an entry at `j` after its named write: it is still
at `j`, or one slot on after a ring delete. -/
theorem ring_step (s : RegisterStore) (op : Op) (j : Nat) (h : j + ringDeletes [op] < 9) :
    (step s op).ring (j + ringDeletes [op]) =
      some (writeSlot s.numbered op.ringWrite op.reg ⟨j, by omega⟩) := by
  rw [ring_eq_some]
  refine ⟨h, ?_⟩
  rw [numbered_step]
  -- a ring delete moves every slot on by one, then `"1` is the deleted text
  by_cases he : op.ringEligible
  · have hone : ringDeletes [op] = 1 := by rw [ringDeletes_one, if_pos he]
    simp only [hone] at h ⊢
    rw [if_pos he, Function.update_of_ne (Fin.ne_of_val_ne (Nat.succ_ne_zero j)),
      rotateRight_succ]
  · have hzero : ringDeletes [op] = 0 := by rw [ringDeletes_one, if_neg he]
    simp only [hzero, Nat.add_zero, if_neg he]

/-- Every entry that is not written by name is carried, one slot on for each ring
delete. -/
theorem ring_carried (ops : List Op) {r : Register} (hr : s.ring j = some r)
    (hlt : j + ringDeletes ops < 9) (hover : ¬ Overwritten j ops) :
    (run step s ops).ring (j + ringDeletes ops) = some r := by
  induction ops generalizing s j with
  | nil => exact hr
  | cons op ops ih =>
    rw [ringDeletes_cons] at hlt ⊢
    obtain ⟨hnamed, hrest⟩ := not_or.mp hover
    obtain ⟨hj, hget⟩ := ring_eq_some.mp hr
    have hstep := ring_step s op j (by omega)
    rw [writeSlot_of_ne hj hnamed, hget] at hstep
    rw [← Nat.add_assoc]
    exact ih hstep (by omega) hrest

/-- A ring delete lands in `"1`. -/
theorem ring_delete (s : RegisterStore) (h : op.ringEligible) :
    (step s op).ring 0 = some op.reg := by
  rw [ring_eq_some]
  refine ⟨by decide, ?_⟩
  rw [numbered_step, if_pos h]
  exact Function.update_self ..

/-- A write by name lands in the slot it names, then follows its own ring delete. -/
theorem ring_write (s : RegisterStore) {i : Fin 9} (h : op.ringWrite = some i)
    (hlt : i.val + ringDeletes [op] < 9) :
    (step s op).ring (i.val + ringDeletes [op]) = some op.reg := by
  rw [ring_step s op i.val hlt, h]
  exact congrArg some (Function.update_self ..)

/-! ## The store over a run -/

theorem run_linked (ops : List Op) (hs : s.Linked)
    (hkill : ∀ j op, ops[j]? = some op → op.isKill → (moment step s ops j).unnamedFrom = none) :
    ∀ j, (moment step s ops j).Linked := by
  induction ops generalizing s with
  | nil =>
    intro j
    rw [moment, List.take_nil]
    exact hs
  | cons op ops ih =>
    have hnext : (step s op).Linked := step_linked hs op fun hk => hkill 0 op rfl hk
    intro j
    cases j with
    | zero => exact hs
    | succ j => exact ih hnext (fun j op' hop hk => hkill (j + 1) op' hop hk) j

/-- **The register store over a run of writes** from a fresh store. If every kill
comes while the unnamed register is linked to no letter, then in every state the
unnamed register equals the letter it was taken from. In every run whatever, a
ring-eligible delete stands at the slot that counts the ring-eligible deletes after
it until it is written by name, a register written into the ring by name likewise,
and a slot neither has reached is as it was; `"0` is changed only by an unregistered
yank or under a name that stands for it; and a name that takes no write changes
nothing. -/
theorem registers_keep (ops : List Op) :
    ((∀ j op, ops[j]? = some op → op.isKill →
        (moment step new ops j).unnamedFrom = none) →
      ∀ j, (moment step new ops j).Linked) ∧
    (∀ earlier op later, ops = earlier ++ op :: later → op.ringEligible →
      ringDeletes later < 9 → ¬ Overwritten 0 later →
      (run step new ops).ring (ringDeletes later) = some op.reg) ∧
    (∀ earlier op later i, ops = earlier ++ op :: later → op.ringWrite = some i →
      i.val + ringDeletes [op] + ringDeletes later < 9 →
      ¬ Overwritten (i.val + ringDeletes [op]) later →
      (run step new ops).ring (i.val + ringDeletes [op] + ringDeletes later) = some op.reg) ∧
    (∀ j, j + ringDeletes ops < 9 → ¬ Overwritten j ops →
      (run step new ops).ring (j + ringDeletes ops) = some .default) ∧
    (∀ op, op.writesZero = false →
      (step (run step new ops) op).yank0 = (run step new ops).yank0) ∧
    (∀ op, Ignored op.name → step (run step new ops) op = run step new ops) := by
  refine ⟨run_linked ops (linked_of_none rfl), ?_, ?_, ?_, fun op => step_yank0,
    fun op => step_ignored⟩
  · rintro earlier op later rfl hring hlt hover
    rw [run_append, run_cons]
    have hcarried := ring_carried later (ring_delete (run step new earlier) hring)
      (by rw [Nat.zero_add]; exact hlt) hover
    rwa [Nat.zero_add] at hcarried
  · rintro earlier op later i rfl hwrite hlt hover
    rw [run_append, run_cons]
    exact ring_carried later (ring_write (run step new earlier) hwrite (by omega)) hlt hover
  · intro j hlt hover
    exact ring_carried ops (ring_eq_some.mpr ⟨by omega, rfl⟩) hlt hover

/-- The kill after a yank into `"a`: the unnamed register grows, `"a` does not, and
they stay linked. -/
theorem kill_breaks_link :
    ¬ ∀ ops : List Op, (run step new ops).Linked := by
  intro h
  have hlink := h [.write (some 'a') (.charwise [120]), .killAppend (.charwise [121])]
  have heq := hlink 0 (by decide)
  exact absurd heq (by decide)

/-- Two line deletes with a yank into `"a` and a write of `"1` between them, then a
write under `"/`. -/
theorem registers_keep_ring :
    let ops : List Op :=
      [.deleteRing none (.linewise [97]) false, .yank (some 'a') (.charwise [98]),
        .write (some '1') (.charwise [99]), .deleteRing none (.linewise [100]) false]
    (moment step new ops 2).Linked ∧
    (run step new ops).ring 0 = some (.linewise [100]) ∧
    (run step new ops).ring 1 = some (.charwise [99]) ∧
    (run step new ops).ring 2 = some .default ∧
    (step (run step new ops) (.write (some 'b') (.charwise [101]))).yank0 =
      (run step new ops).yank0 ∧
    step (run step new ops) (.write (some '/') (.charwise [101])) = run step new ops := by
  intro ops
  obtain ⟨hlink, hring, hnamed, hrest, hzero, hignored⟩ := registers_keep ops
  refine ⟨hlink ?_ 2, ?_, ?_, ?_, hzero _ rfl, hignored _ (by decide)⟩
  · intro j op hop hk
    have hj : op ∈ ops := List.mem_of_getElem? hop
    simp only [ops, List.mem_cons, List.not_mem_nil, or_false] at hj
    rcases hj with rfl | rfl | rfl | rfl <;> cases hk
  · exact hring (ops.take 3) _ [] rfl rfl (by decide) id
  · exact hnamed (ops.take 2) _ (ops.drop 3) 0 rfl rfl (by decide) (by decide)
  · exact hrest 0 (by decide) (by decide)

end RegisterStore

end Ruse.Core
