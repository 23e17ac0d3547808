import Mathlib.Data.List.TakeDrop
import Mathlib.Tactic.Linarith

/-!
# Byte readers

A reader takes a value off the front of a byte string or stops with an error. It
`Reads` a byte string as a value when, whatever follows that string, it answers
the value and leaves exactly what follows. An encoder and a reader agree on a
value when the reader reads the encoding as the value, and the rule for a
sequence (`Reads.bind`) takes such facts apart field by field.

A reader fails `Only` with one error when it has no other way to stop.

* `take` — a number of bytes;
* `leBytes`, `readLe` — a natural number in little-endian order;
* `count` — a number of values, one after the other.
-/

namespace Ruse.Lib

variable {ε : Type} {α β : Type}

/-- A reader of values of type `α`. -/
abbrev Reader (ε α : Type) := StateT (List UInt8) (Except ε) α

namespace Reader

def stop (e : ε) : Reader ε α := fun _ => .error e

/-- The next `n` bytes, or `e` when fewer are left. -/
def take (e : ε) (n : Nat) : Reader ε (List UInt8) := fun bs =>
  if n ≤ bs.length then .ok (bs.take n, bs.drop n) else .error e

def rest : Reader ε Nat := fun bs => .ok (bs.length, bs)

/-- The reader answers `a` for `bs` and leaves what follows. -/
def Reads (p : Reader ε α) (bs : List UInt8) (a : α) : Prop :=
  ∀ tail, p (bs ++ tail) = .ok (a, tail)

theorem Reads.pure (a : α) : Reads (pure a : Reader ε α) [] a := fun _ => rfl

/-- Reading in sequence. -/
theorem Reads.bind {p : Reader ε α} {f : α → Reader ε β} {bs bs' : List UInt8} {a : α} {b : β}
    (hp : Reads p bs a) (hf : Reads (f a) bs' b) : Reads (p >>= f) (bs ++ bs') b := by
  intro tail
  show (p (bs ++ bs' ++ tail) >>= fun r => f r.1 r.2) = _
  rw [List.append_assoc, hp]
  exact hf tail

theorem Reads.bind_nil {p : Reader ε α} {f : α → Reader ε β} {bs : List UInt8} {a : α} {b : β}
    (hp : Reads p bs a) (hf : Reads (f a) [] b) : Reads (p >>= f) bs b := by
  have h := hp.bind hf
  rwa [List.append_nil] at h

theorem Reads.nil_bind {p : Reader ε α} {f : α → Reader ε β} {bs : List UInt8} {a : α} {b : β}
    (hp : Reads p [] a) (hf : Reads (f a) bs b) : Reads (p >>= f) bs b := hp.bind hf

theorem Reads.map {p : Reader ε α} {bs : List UInt8} {a : α} (f : α → β) (hp : Reads p bs a) :
    Reads (f <$> p) bs (f a) := by
  intro tail
  show (p (bs ++ tail) >>= fun r => Except.ok (f r.1, r.2)) = _
  rw [hp]
  rfl

theorem Reads.whole {p : Reader ε α} {bs : List UInt8} {a : α} (hp : Reads p bs a) :
    p bs = .ok (a, []) := by
  have h := hp []
  rwa [List.append_nil] at h

theorem reads_take (e : ε) {n : Nat} {bs : List UInt8} (h : bs.length = n) :
    Reads (take e n) bs bs := by
  intro tail
  rw [take, if_pos (by rw [List.length_append]; omega), List.take_left' h, List.drop_left' h]

/-- Readers in sequence succeed where both do. -/
theorem bind_ok_iff {p : Reader ε α} {f : α → Reader ε β} {bs : List UInt8}
    {r : β × List UInt8} :
    (p >>= f) bs = .ok r ↔ ∃ a bs', p bs = .ok (a, bs') ∧ f a bs' = .ok r := by
  change (p bs >>= fun r => f r.1 r.2) = .ok r ↔ _
  cases p bs with
  | error e =>
    constructor
    · intro h
      cases h
    · rintro ⟨a, bs', h, -⟩
      cases h
  | ok s =>
    constructor
    · intro h
      exact ⟨s.1, s.2, rfl, h⟩
    · rintro ⟨a, bs', h, hf⟩
      cases h
      exact hf

/-- A reader in sequence fails where the first does, or the second after it. -/
theorem bind_error_iff {p : Reader ε α} {f : α → Reader ε β} {bs : List UInt8} {e : ε} :
    (p >>= f) bs = .error e ↔
      p bs = .error e ∨ ∃ a bs', p bs = .ok (a, bs') ∧ f a bs' = .error e := by
  change (p bs >>= fun r => f r.1 r.2) = .error e ↔ _
  cases p bs with
  | error e' =>
    constructor
    · intro h
      cases h
      exact .inl rfl
    · rintro (h | ⟨a, bs', h, -⟩)
      · cases h
        rfl
      · cases h
  | ok s =>
    constructor
    · intro h
      exact .inr ⟨s.1, s.2, rfl, h⟩
    · rintro (h | ⟨a, bs', h, hf⟩)
      · cases h
      · cases h
        exact hf

/-! ## How reading fails -/

/-- The reader stops with no error but `e`. -/
def Only (e : ε) (p : Reader ε α) : Prop := ∀ bs e', p bs = .error e' → e' = e

theorem Only.pure (e : ε) (a : α) : Only e (pure a : Reader ε α) := by
  intro bs e' h
  cases h

theorem only_stop (e : ε) : Only e (stop e : Reader ε α) := by
  intro bs e' h
  cases h
  rfl

theorem only_take (e : ε) (n : Nat) : Only e (take e n) := by
  intro bs e' h
  unfold take at h
  split at h
  · cases h
  · cases h
    rfl

theorem Only.bind {e : ε} {p : Reader ε α} {f : α → Reader ε β} (hp : Only e p)
    (hf : ∀ a, Only e (f a)) : Only e (p >>= f) := by
  intro bs e' h
  rcases bind_error_iff.mp h with h | ⟨a, bs', -, h⟩
  · exact hp bs e' h
  · exact hf a bs' e' h

theorem Only.map {e : ε} {p : Reader ε α} (f : α → β) (hp : Only e p) : Only e (f <$> p) :=
  hp.bind fun a => .pure e (f a)

/-! ## Little-endian numbers -/

/-- The `n` bytes of a number, the lowest first. -/
def leBytes : Nat → Nat → List UInt8
  | 0, _ => []
  | n + 1, v => UInt8.ofNat (v % 256) :: leBytes n (v / 256)

/-- The number some bytes spell, the lowest first. -/
def leValue : List UInt8 → Nat
  | [] => 0
  | b :: bs => b.toNat + 256 * leValue bs

@[simp] theorem length_leBytes (n v : Nat) : (leBytes n v).length = n := by
  induction n generalizing v with
  | zero => rfl
  | succ n ih => rw [leBytes, List.length_cons, ih]

theorem leValue_leBytes {n v : Nat} (h : v < 256 ^ n) : leValue (leBytes n v) = v := by
  induction n generalizing v with
  | zero =>
    rw [Nat.pow_zero] at h
    simp only [leBytes, leValue]
    omega
  | succ n ih =>
    rw [Nat.pow_succ] at h
    have hdiv : v / 256 < 256 ^ n := Nat.div_lt_of_lt_mul (by rw [Nat.mul_comm]; exact h)
    have hlow : (UInt8.ofNat (v % 256)).toNat = v % 256 :=
      UInt8.toNat_ofNat_of_lt' (Nat.mod_lt _ (by decide))
    rw [leBytes, leValue, ih hdiv, hlow]
    omega

/-- The number in the next `n` bytes. -/
def readLe (e : ε) (n : Nat) : Reader ε Nat := leValue <$> take e n

theorem reads_le (e : ε) {n v : Nat} (h : v < 256 ^ n) : Reads (readLe e n) (leBytes n v) v := by
  have hread := (reads_take e (length_leBytes n v)).map leValue
  rwa [leValue_leBytes h] at hread

theorem only_readLe (e : ε) (n : Nat) : Only e (readLe e n) := (only_take e n).map leValue

/-! ## Several values -/

/-- `n` values, one after the other. -/
def count (p : Reader ε α) : Nat → Reader ε (List α)
  | 0 => Pure.pure []
  | n + 1 => do
    let a ← p
    let as ← count p n
    return a :: as

theorem reads_count {p : Reader ε α} {enc : α → List UInt8} {as : List α}
    (h : ∀ a ∈ as, Reads p (enc a) a) : Reads (count p as.length) (as.flatMap enc) as := by
  induction as with
  | nil => exact .pure []
  | cons a as ih =>
    rw [List.flatMap_cons, List.length_cons]
    refine (h a List.mem_cons_self).bind ?_
    exact (ih fun b hb => h b (List.mem_cons_of_mem _ hb)).bind_nil (.pure _)

theorem only_count {e : ε} {p : Reader ε α} (h : Only e p) (n : Nat) : Only e (count p n) := by
  induction n with
  | zero => exact .pure e []
  | succ n ih => exact h.bind fun a => ih.bind fun as => .pure e _

end Reader

/-! ## Streams of frames

A stream is read frame by frame until the reader finds its end (`readAll`), which needs a reader
that takes bytes for each frame it answers (`Progress`). Where the reader reads each frame, whatever
follows it, the stream of some frames is read as their values (`readAll_frames`): no frame is lost to
one before it.

`line` reads up to a byte, the end of a line.
-/

namespace Reader

variable {ε α : Type}

/-! ## Lines -/

/-- The bytes up to the first `stop`, and it; at most `limit` of them. -/
def line (stop : UInt8) (limit : Nat) : Reader ε (List UInt8) := fun bs =>
  let n := match (bs.take limit).findIdx? (· == stop) with
    | some i => i + 1
    | none => (bs.take limit).length
  .ok (bs.take n, bs.drop n)

/-- A line is read up to its stop. -/
theorem reads_line {stop : UInt8} {limit : Nat} {l : List UInt8} (hl : stop ∉ l)
    (hlimit : l.length < limit) : Reads (line stop limit : Reader ε _) (l ++ [stop]) (l ++ [stop]) := by
  intro tail
  have hfind : ((l ++ [stop] ++ tail).take limit).findIdx? (· == stop) = some l.length := by
    have hhead : (l ++ [stop] ++ tail).take limit = l ++ stop :: tail.take (limit - (l.length + 1)) := by
      rw [List.append_assoc, List.take_append, List.take_of_length_le (Nat.le_of_lt hlimit),
        show limit - l.length = limit - (l.length + 1) + 1 by omega]
      rfl
    have hnone : l.findIdx? (· == stop) = none := by
      refine List.findIdx?_eq_none_iff.mpr fun c hc => ?_
      rw [beq_eq_false_iff_ne]
      rintro rfl
      exact hl hc
    rw [hhead, List.findIdx?_append, hnone, List.findIdx?_cons]
    simp
  unfold line
  rw [hfind]
  dsimp only
  rw [List.take_left' (by simp), List.drop_left' (by simp)]

/-- What a line takes comes off the front, one byte at least when there is one. -/
theorem line_front (stop : UInt8) {limit : Nat} (hlimit : 0 < limit) (bs : List UInt8) :
    ∃ l rest, (line stop limit : Reader ε _) bs = .ok (l, rest) ∧ bs = l ++ rest ∧ (l = [] → bs = []) := by
  refine ⟨_, _, rfl, (List.take_append_drop _ bs).symm, fun hnil => ?_⟩
  cases bs with
  | nil => rfl
  | cons c bs =>
    obtain ⟨k, rfl⟩ : ∃ k, limit = k + 1 := ⟨limit - 1, by omega⟩
    have hlen := congrArg List.length hnil
    rw [List.length_take, List.length_nil] at hlen
    split at hlen
    · simp at hlen
    · simp at hlen

/-- A line longer than `limit` is cut there. -/
theorem line_long {stop : UInt8} {limit : Nat} {l : List UInt8} (hl : stop ∉ l) (hlen : l.length = limit)
    (tail : List UInt8) : (line stop limit : Reader ε _) (l ++ tail) = .ok (l, tail) := by
  have hhead : (l ++ tail).take limit = l := List.take_left' hlen
  have hnone : l.findIdx? (· == stop) = none := by
    refine List.findIdx?_eq_none_iff.mpr fun c hc => ?_
    rw [beq_eq_false_iff_ne]
    rintro rfl
    exact hl hc
  unfold line
  rw [hhead, hnone]
  dsimp only
  rw [List.take_left, List.drop_left]

/-! ## Reading on to the end -/

/-- Each frame the reader answers takes bytes. -/
def Progress (p : Reader ε (Option α)) : Prop :=
  ∀ bs a rest, p bs = .ok (some a, rest) → rest.length < bs.length

/-- The frames up to the end of the stream or to an error. -/
def readAll (p : Reader ε (Option α)) (hp : Progress p) (bs : List UInt8) : List α × Option ε :=
  match h : p bs with
  | .ok (some a, rest) =>
    have := hp bs a rest h
    let (as, stop) := readAll p hp rest
    (a :: as, stop)
  | .ok (none, _) => ([], none)
  | .error e => ([], some e)
termination_by bs.length

section
variable {p : Reader ε (Option α)} {hp : Progress p} {bs rest : List UInt8} {a : α}

theorem readAll_some (h : p bs = .ok (some a, rest)) :
    readAll p hp bs = (a :: (readAll p hp rest).1, (readAll p hp rest).2) := by
  rw [readAll]
  split
  · rename_i a' rest' h'
    rw [h] at h'
    cases h'
    rfl
  · rename_i h'
    rw [h] at h'
    cases h'
  · rename_i h'
    rw [h] at h'
    cases h'

theorem readAll_none (h : p bs = .ok (none, rest)) : readAll p hp bs = ([], none) := by
  rw [readAll]
  split
  · rename_i h'
    rw [h] at h'
    cases h'
  · rfl
  · rename_i h'
    rw [h] at h'
    cases h'

theorem readAll_error {e : ε} (h : p bs = .error e) : readAll p hp bs = ([], some e) := by
  rw [readAll]
  split
  · rename_i h'
    rw [h] at h'
    cases h'
  · rename_i h'
    rw [h] at h'
    cases h'
  · rename_i e' h'
    rw [h] at h'
    cases h'
    rfl

theorem length_readAll_le (p : Reader ε (Option α)) (hp : Progress p) (bs : List UInt8) :
    (readAll p hp bs).1.length ≤ bs.length := by
  induction hn : bs.length using Nat.strongRecOn generalizing bs with
  | _ n ih =>
    cases h : p bs with
    | error e =>
      rw [readAll_error h]
      exact Nat.zero_le _
    | ok r =>
      obtain ⟨_ | a, rest⟩ := r
      · rw [readAll_none h]
        exact Nat.zero_le _
      · have hlt := hp bs a rest h
        have hrest := ih rest.length (by omega) rest rfl
        rw [readAll_some h, List.length_cons]
        omega

/-- Frames that are read whatever follows them are read one after the other. -/
theorem readAll_frames {ι : Type} {bytes : ι → List UInt8} {value : ι → α} (frames : List ι)
    (hread : ∀ i ∈ frames, Reads p (bytes i) (some (value i))) (hend : p [] = .ok (none, [])) :
    readAll p hp (frames.flatMap bytes) = (frames.map value, none) := by
  induction frames with
  | nil => exact readAll_none hend
  | cons i frames ih =>
    have hfirst := hread i List.mem_cons_self (frames.flatMap bytes)
    rw [List.flatMap_cons, readAll_some hfirst, ih fun j hj => hread j (List.mem_cons_of_mem i hj)]
    rfl

end

end Reader

end Ruse.Lib
