import Mathlib.Data.List.Sort
import Mathlib.Tactic.Linarith

/-!
# Edits and edit lists

The model of `crates/core/src/edit.rs`: one replacement `(pos, del, ins)`, and
the disjoint, position-sorted list of replacements a transaction carries. The
canonical form of a list is a field of `EditList`, so every list of the model
is one the source could have built.

* `EditList.new` — drop the edits that change nothing, sort, reject overlaps;
* `EditList.applyTo` — splice every edit into a buffer;
* `EditList.inverse` — the list that takes the result back
  (`EditList.inverse_applyTo`).

Offsets are natural numbers here. Where the source meets numbers that may not
fit the machine word (a journal file) the checked arithmetic is modelled there.
-/

namespace Ruse.Core

variable {cur i j : Nat} {δ : Int}

abbrev Bytes := List UInt8

def newline : UInt8 := 10

/-- The bytes `b[i..j]` of a range that lies inside the buffer. -/
def slice (b : Bytes) (i j : Nat) : Bytes := (b.drop i).take (j - i)

theorem slice_length {b : Bytes} (hij : i ≤ j) (hj : j ≤ b.length) :
    (slice b i j).length = j - i := by
  simp only [slice, List.length_take, List.length_drop]
  omega

@[simp] theorem slice_self (b : Bytes) (i : Nat) : slice b i i = [] := by
  simp [slice]

theorem slice_append_drop {b : Bytes} (hij : i ≤ j) :
    slice b i j ++ b.drop j = b.drop i := by
  have hdrop : b.drop j = (b.drop i).drop (j - i) := by
    rw [List.drop_drop]
    congr 1
    omega
  rw [slice, hdrop, List.take_append_drop]

theorem slice_append_slice {b : Bytes} {k : Nat} (hij : i ≤ j) (hjk : j ≤ k) :
    slice b i j ++ slice b j k = slice b i k := by
  have hsplit : k - i = (j - i) + (k - j) := by omega
  have hdrop : b.drop j = (b.drop i).drop (j - i) := by
    rw [List.drop_drop, show i + (j - i) = j by omega]
  rw [slice, slice, slice, hsplit, List.take_add, hdrop]

theorem slice_append_right (p b : Bytes) (n : Nat) :
    slice (p ++ b) p.length (p.length + n) = b.take n := by
  simp [slice]

theorem slice_append_left {p q : Bytes} (hj : j ≤ p.length) :
    slice (p ++ q) i j = slice p i j := by
  by_cases hi : i ≤ p.length
  · rw [slice, slice, List.drop_append_of_le_length hi,
      List.take_append_of_le_length (by simp only [List.length_drop]; omega)]
  · have hzero : j - i = 0 := by omega
    rw [slice, slice, hzero, List.take_zero, List.take_zero]

/-- One normalized replacement: delete `del` bytes at `pos`, then insert `ins`
there. -/
structure Edit where
  pos : Nat
  del : Nat
  ins : Bytes
deriving DecidableEq, Repr, Inhabited

namespace Edit

/-- Pure insertion of `bytes` at `pos`. -/
def insert (pos : Nat) (bytes : Bytes) : Edit := ⟨pos, 0, bytes⟩

/-- Pure deletion of `del` bytes at `pos`. -/
def delete (pos : Nat) (del : Nat) : Edit := ⟨pos, del, []⟩

/-- Replace `del` bytes at `pos` with `bytes`. -/
def replace (pos : Nat) (del : Nat) (bytes : Bytes) : Edit := ⟨pos, del, bytes⟩

/-- Signed length change of the document. -/
def delta (e : Edit) : Int := (e.ins.length : Int) - e.del

/-- End of the affected interval (`Edit::end`). -/
def endPos (e : Edit) : Nat := e.pos + e.del

theorem pos_le_endPos (e : Edit) : e.pos ≤ e.endPos := Nat.le_add_right _ _

/-- The edit deletes or inserts something: the filter `EditList::new` retains
by. -/
def Changes (e : Edit) : Prop := e.del ≠ 0 ∨ e.ins ≠ []

instance (e : Edit) : Decidable e.Changes := inferInstanceAs (Decidable (_ ∨ _))

/-- `a` lies before `b`, which may touch it but not share its start. -/
def Before (a b : Edit) : Prop := a.pos < b.pos ∧ a.endPos ≤ b.pos

instance (a b : Edit) : Decidable (a.Before b) := inferInstanceAs (Decidable (_ ∧ _))

theorem Before.trans {a b c : Edit} (hab : a.Before b) (hbc : b.Before c) :
    a.Before c := by
  have := b.pos_le_endPos
  exact ⟨Nat.lt_trans hab.1 hbc.1, by have := hab.2; have := hbc.2; omega⟩

/-- The length of the part after the last newline of a text: what `rposition`
is subtracted by. -/
def tailLength (b : Bytes) : Nat := (b.reverse.takeWhile (· != newline)).length

/-- The shared tail cut forward to the start of a line on both sides: the loop
of `Edit::lines_changed`, with `tail` counted down. -/
def lineTail (old new : Bytes) (head : Nat) : Nat → Nat
  | 0 => 0
  | tail + 1 =>
    let at' := old.length - (tail + 1)
    let nat := new.length - (tail + 1)
    if (at' = head ∨ old[at' - 1]? = some newline) ∧
        (nat = head ∨ new[nat - 1]? = some newline) then tail + 1
    else lineTail old new head tail

/-- The one edit that turns `old` into `new`, leaving the whole lines they share
at the start and the end in place. -/
def linesChanged (old new : Bytes) : Edit :=
  let common := ((old.zip new).takeWhile fun p => p.1 == p.2).length
  let head := common - tailLength (old.take common)
  let room := min (old.length - head) (new.length - head)
  let sameTail :=
    ((((old.drop head).reverse.zip (new.drop head).reverse).take room).takeWhile
      fun p => p.1 == p.2).length
  let tail := lineTail old new head sameTail
  replace head (old.length - tail - head) (slice new head (new.length - tail))

end Edit

/-- Why a set of edits could not form a list, or could not apply to a buffer. -/
inductive EditError where
  | overlap (firstPos secondPos : Nat)
  | outOfRange (pos del len : Nat)
deriving DecidableEq, Repr

/-- A transaction's edit set: disjoint, sorted by position, and free of edits
that change nothing. -/
structure EditList where
  edits : List Edit
  sorted : edits.Pairwise Edit.Before
  changes : ∀ e ∈ edits, e.Changes
deriving DecidableEq, Repr

namespace EditList

@[ext] theorem ext' {a b : EditList} (h : a.edits = b.edits) : a = b := by
  cases a
  cases b
  simpa using h

instance : Inhabited EditList := ⟨⟨[], .nil, by simp⟩⟩

/-- The list without edits (`EditList::default`). -/
def empty : EditList := ⟨[], .nil, by simp⟩

@[simp] theorem edits_empty : empty.edits = [] := rfl

def isEmpty (l : EditList) : Bool := l.edits.isEmpty

theorem isEmpty_iff {l : EditList} : l.isEmpty = true ↔ l = empty := by
  constructor
  · intro h
    exact ext' (by simpa [isEmpty] using h)
  · rintro rfl
    rfl

/-- The first pair of neighbours that share a start or overlap: the
`windows(2)` loop of `EditList::new`. -/
def firstOverlap : List Edit → Option EditError
  | a :: b :: rest =>
    if b.pos = a.pos ∨ b.pos < a.endPos then some (.overlap a.pos b.pos)
    else firstOverlap (b :: rest)
  | _ => none

theorem sorted_of_firstOverlap {es : List Edit} (h : firstOverlap es = none) :
    es.Pairwise Edit.Before := by
  have hchain : es.IsChain Edit.Before := by
    induction es with
    | nil => exact .nil
    | cons a rest ih =>
      cases rest with
      | nil => exact .singleton a
      | cons b rest =>
        simp only [firstOverlap] at h
        split at h
        · cases h
        · rename_i hno
          have := a.pos_le_endPos
          exact .cons_cons ⟨by omega, by omega⟩ (ih h)
  have : IsTrans Edit Edit.Before := ⟨fun _ _ _ => Edit.Before.trans⟩
  exact List.isChain_iff_pairwise.mp hchain

theorem firstOverlap_of_sorted {es : List Edit} (h : es.Pairwise Edit.Before) :
    firstOverlap es = none := by
  induction es with
  | nil => rfl
  | cons a rest ih =>
    cases rest with
    | nil => rfl
    | cons b rest =>
      have hab : a.Before b := (List.pairwise_cons.mp h).1 b List.mem_cons_self
      simp only [firstOverlap]
      rw [if_neg (by have := hab.1; have := hab.2; omega)]
      exact ih (List.pairwise_cons.mp h).2

/-- The edits that change something, sorted by position. `sort_by_key` is stable,
as the insertion sort is. -/
def kept (edits : List Edit) : List Edit :=
  (edits.filter fun e => decide e.Changes).insertionSort fun a b => a.pos ≤ b.pos

/-- Sort by position and reject any overlap. -/
def new (edits : List Edit) : Except EditError EditList :=
  match h : firstOverlap (kept edits) with
  | some e => .error e
  | none => .ok
    { edits := kept edits
      sorted := sorted_of_firstOverlap h
      changes := by
        intro e he
        have he := (List.perm_insertionSort _ _).mem_iff.mp he
        simpa using (List.mem_filter.mp he).2 }

theorem new_single (e : Edit) : ∃ l, new [e] = .ok l := by
  unfold new
  split
  · rename_i err herr
    rw [kept, List.filter_cons, List.filter_nil] at herr
    split at herr <;> cases herr
  · exact ⟨_, rfl⟩

theorem kept_edits (l : EditList) : kept l.edits = l.edits := by
  have hfilter : (l.edits.filter fun e => decide e.Changes) = l.edits :=
    List.filter_eq_self.mpr (fun e he => by simpa using l.changes e he)
  rw [kept, hfilter]
  exact List.Pairwise.insertionSort_eq (l.sorted.imp (fun hab => Nat.le_of_lt hab.1))

theorem new_edits (l : EditList) : new l.edits = .ok l := by
  unfold new
  split
  · rename_i e he
    rw [kept_edits, firstOverlap_of_sorted l.sorted] at he
    cases he
  · simp only [Except.ok.injEq]
    exact ext' (kept_edits l)

/-- Every edit lies within a buffer of `len` bytes. -/
def InBounds (l : EditList) (len : Nat) : Prop := ∀ e ∈ l.edits, e.endPos ≤ len

instance (l : EditList) (len : Nat) : Decidable (l.InBounds len) :=
  inferInstanceAs (Decidable (∀ e ∈ l.edits, e.endPos ≤ len))

theorem new_single_inBounds {e : Edit} {l : EditList} {len : Nat} (h : new [e] = .ok l)
    (he : e.endPos ≤ len) : l.InBounds len := by
  intro e' he'
  unfold new at h
  split at h
  · cases h
  · cases h
    have hmem : e' ∈ [e] :=
      List.mem_of_mem_filter ((List.perm_insertionSort _ _).mem_iff.mp he')
    rwa [List.mem_singleton.mp hmem]

/-- Check every edit lies within a buffer of `len` bytes, naming the first that
does not. -/
def checkBounds (l : EditList) (len : Nat) : Except EditError Unit :=
  match l.edits.find? fun e => e.pos > len || e.endPos > len with
  | some e => .error (.outOfRange e.pos e.del len)
  | none => .ok ()

/-- The bounds check passes exactly for lists within the text. -/
theorem checkBounds_ok_iff {l : EditList} {len : Nat} :
    l.checkBounds len = .ok () ↔ l.InBounds len := by
  unfold checkBounds
  cases hf : l.edits.find? fun e => e.pos > len || e.endPos > len with
  | none =>
    simp only [true_iff]
    intro e he
    have := List.find?_eq_none.mp hf e he
    simp at this
    exact this.2
  | some e =>
    simp only [reduceCtorEq, false_iff]
    intro hin
    have hbad := List.find?_some hf
    have := hin e (List.mem_of_find?_eq_some hf)
    have := e.pos_le_endPos
    simp at hbad
    omega

/-- The walk of `EditList::apply_to`: copy up to each edit, then its insertion,
`cur` being the end of the edits before. -/
def applyFrom (buf : Bytes) : Nat → List Edit → Bytes
  | cur, [] => buf.drop cur
  | cur, e :: es => slice buf cur e.pos ++ e.ins ++ applyFrom buf e.endPos es

/-- Apply the edits to `buf`. -/
def applyTo (l : EditList) (buf : Bytes) : Bytes := applyFrom buf 0 l.edits

@[simp] theorem applyTo_empty (buf : Bytes) : empty.applyTo buf = buf := by
  simp [applyTo, applyFrom]

/-- The edits of the inverse list: `last` is the inverse edit pushed last, and
`δ` the length change of the edits before. A forward edit that touches the one
before inverts to the same position and is merged into `last`. -/
def inverseFrom (buf : Bytes) : Edit → Int → List Edit → List Edit
  | last, _, [] => [last]
  | last, δ, e :: es =>
    let newPos := ((e.pos : Int) + δ).toNat
    let removed := slice buf e.pos e.endPos
    if last.pos = newPos then
      inverseFrom buf ⟨last.pos, last.del + e.ins.length, last.ins ++ removed⟩
        (δ + e.delta) es
    else last :: inverseFrom buf ⟨newPos, e.ins.length, removed⟩ (δ + e.delta) es

/-- The edits of the inverse of `es` against `buf`. -/
def inverseEdits (buf : Bytes) : List Edit → List Edit
  | [] => []
  | e :: es =>
    inverseFrom buf ⟨e.pos, e.ins.length, slice buf e.pos e.endPos⟩ e.delta es

theorem inverseFrom_head (buf : Bytes) (last : Edit) (δ : Int) (es : List Edit) :
    ∃ d ins rest, inverseFrom buf last δ es = ⟨last.pos, d, ins⟩ :: rest := by
  induction es generalizing last δ with
  | nil => exact ⟨last.del, last.ins, [], rfl⟩
  | cons e es ih =>
    simp only [inverseFrom]
    split
    · exact ih ⟨last.pos, _, _⟩ _
    · exact ⟨last.del, last.ins, _, rfl⟩

/-- What the steps of `inverseFrom` keep: the pending edit ends where the next
forward edits begin, in the coordinates of the edited text. -/
structure Pending (last : Edit) (δ : Int) (cur : Nat) (es : List Edit) : Prop where
  ends : (last.endPos : Int) = cur + δ
  above : ∀ e ∈ es, cur ≤ e.pos
  sorted : es.Pairwise Edit.Before

theorem Pending.newPos {last : Edit} {e : Edit} {es : List Edit} (h : Pending last δ cur (e :: es)) :
    ((e.pos : Int) + δ).toNat = last.endPos + (e.pos - cur) := by
  have h1 := h.ends
  have h2 := h.above e List.mem_cons_self
  omega

theorem Pending.merge {last : Edit} {e : Edit} {es : List Edit} (h : Pending last δ cur (e :: es))
    (htouch : last.pos = ((e.pos : Int) + δ).toNat) (ins : Bytes) :
    Pending ⟨last.pos, last.del + e.ins.length, ins⟩ (δ + e.delta) e.endPos es := by
  have hnew := h.newPos
  have hends := h.ends
  have hcur := h.above e List.mem_cons_self
  have hs := List.pairwise_cons.mp h.sorted
  refine ⟨?_, fun e' he' => (hs.1 e' he').2, hs.2⟩
  simp only [Edit.endPos, Edit.delta] at *
  omega

/-- Pushing the inverse of the next forward edit makes it the pending one. -/
theorem Pending.push {last : Edit} {e : Edit} {es : List Edit} (h : Pending last δ cur (e :: es))
    (ins : Bytes) :
    Pending ⟨((e.pos : Int) + δ).toNat, e.ins.length, ins⟩ (δ + e.delta) e.endPos es := by
  have hnew := h.newPos
  have hends := h.ends
  have hcur := h.above e List.mem_cons_self
  have hs := List.pairwise_cons.mp h.sorted
  refine ⟨?_, fun e' he' => (hs.1 e' he').2, hs.2⟩
  rw [hnew]
  simp only [Edit.endPos, Edit.delta] at *
  omega

theorem Pending.first {e : Edit} {es : List Edit}
    (h : (e :: es).Pairwise Edit.Before) (ins : Bytes) :
    Pending ⟨e.pos, e.ins.length, ins⟩ e.delta e.endPos es := by
  have hs := List.pairwise_cons.mp h
  refine ⟨?_, fun e' he' => (hs.1 e' he').2, hs.2⟩
  simp only [Edit.endPos, Edit.delta]
  omega

/-- The edits of an inverse stand in order. -/
theorem inverseFrom_sorted (buf : Bytes) {last : Edit} {es : List Edit} (h : Pending last δ cur es) :
    (inverseFrom buf last δ es).Pairwise Edit.Before := by
  have : IsTrans Edit Edit.Before := ⟨fun _ _ _ => Edit.Before.trans⟩
  induction es generalizing last δ cur with
  | nil => exact List.pairwise_singleton _ _
  | cons e es ih =>
    simp only [inverseFrom]
    split
    · rename_i htouch
      exact ih (h.merge htouch _)
    · rename_i hgap
      have hpush := ih (h.push (slice buf e.pos e.endPos))
      obtain ⟨d, ins, rest, hhead⟩ := inverseFrom_head buf
        ⟨((e.pos : Int) + δ).toNat, e.ins.length, slice buf e.pos e.endPos⟩
        (δ + e.delta) es
      rw [hhead] at hpush ⊢
      refine List.isChain_iff_pairwise.mp
        (.cons_cons ?_ (List.isChain_iff_pairwise.mpr hpush))
      have hnew := h.newPos
      have := last.pos_le_endPos
      exact ⟨by simp only; omega, by simp only; omega⟩

/-- Every edit of an inverse changes something. -/
theorem inverseFrom_changes (buf : Bytes) {last : Edit} (δ : Int) {es : List Edit}
    (hlast : last.Changes) (hes : ∀ e ∈ es, e.Changes)
    (hin : ∀ e ∈ es, e.endPos ≤ buf.length) :
    ∀ e ∈ inverseFrom buf last δ es, e.Changes := by
  induction es generalizing last δ with
  | nil => simpa [inverseFrom] using hlast
  | cons e es ih =>
    have hrest := fun e' he' => hes e' (List.mem_cons_of_mem _ he')
    have hinrest := fun e' he' => hin e' (List.mem_cons_of_mem _ he')
    simp only [inverseFrom]
    split
    · refine ih _ ?_ hrest hinrest
      rcases hlast with hdel | hins
      · exact .inl (by simp only; omega)
      · exact .inr (by simp [hins])
    · intro e' he'
      rcases List.mem_cons.mp he' with rfl | he'
      · exact hlast
      · exact ih _ (inverted_changes (hes e List.mem_cons_self)
          (hin e List.mem_cons_self)) hrest hinrest e' he'
where
  /-- The inverse of one changing edit changes something. -/
  inverted_changes {e : Edit} {p : Nat} (he : e.Changes) (hb : e.endPos ≤ buf.length) :
      Edit.Changes ⟨p, e.ins.length, slice buf e.pos e.endPos⟩ := by
    rcases he with hdel | hins
    · refine .inr (fun hnil => ?_)
      have hlen := slice_length e.pos_le_endPos hb
      simp only at hnil
      rw [hnil] at hlen
      simp only [Edit.endPos, List.length_nil] at hlen
      omega
    · exact .inl (by simpa using hins)

theorem inverseEdits_changes {buf : Bytes} {l : EditList} (hin : l.InBounds buf.length) :
    ∀ e ∈ inverseEdits buf l.edits, e.Changes := by
  cases hes : l.edits with
  | nil => simp [inverseEdits]
  | cons e es =>
    have hch := l.changes
    unfold InBounds at hin
    rw [hes] at hch hin
    exact inverseFrom_changes buf _
      (inverseFrom_changes.inverted_changes buf (hch e List.mem_cons_self)
        (hin e List.mem_cons_self))
      (fun e' he' => hch e' (List.mem_cons_of_mem _ he'))
      (fun e' he' => hin e' (List.mem_cons_of_mem _ he'))

theorem inverseEdits_sorted (buf : Bytes) (l : EditList) :
    (inverseEdits buf l.edits).Pairwise Edit.Before := by
  cases hes : l.edits with
  | nil => exact .nil
  | cons e es =>
    have hs := l.sorted
    rw [hes] at hs
    exact inverseFrom_sorted buf (Pending.first hs _)

/-- The exact inverse of applying `l` to `buf`. The source slices `buf` at every
edit, which panics on a list out of bounds; the model answers the empty list
there. -/
def inverse (l : EditList) (buf : Bytes) : EditList :=
  if h : l.InBounds buf.length then
    ⟨inverseEdits buf l.edits, inverseEdits_sorted buf l, inverseEdits_changes h⟩
  else empty

theorem inverse_edits {l : EditList} {buf : Bytes} (h : l.InBounds buf.length) :
    (l.inverse buf).edits = inverseEdits buf l.edits := by
  rw [inverse, dif_pos h]

/-- What applying the inverse does, by induction on the forward edits: with `p`
the text already made (up to `cur` of the old one), it puts the old text from
`cur` on back after its pending edit. -/
theorem applyFrom_inverseFrom (buf : Bytes) {p : Bytes} {last : Edit} {c : Nat} {es : List Edit}
    (h : Pending last δ cur es) (hp : p.length = last.endPos)
    (hin : ∀ e ∈ es, e.endPos ≤ buf.length) :
    applyFrom (p ++ applyFrom buf cur es) c (inverseFrom buf last δ es) =
      slice p c last.pos ++ last.ins ++ buf.drop cur := by
  induction es generalizing last δ cur c p with
  | nil =>
    have hpos := last.pos_le_endPos
    simp only [inverseFrom, applyFrom]
    rw [slice_append_left (by omega), ← hp, List.drop_left]
  | cons e es ih =>
    have hcur := h.above e List.mem_cons_self
    have hnew := h.newPos
    have hpos := last.pos_le_endPos
    have hend := e.pos_le_endPos
    have hbuf := hin e List.mem_cons_self
    have hinrest := fun e' he' => hin e' (List.mem_cons_of_mem _ he')
    have hkept : (slice buf cur e.pos).length = e.pos - cur :=
      slice_length hcur (by omega)
    -- the text up to the end of `e`'s insertion is the prefix of the rest
    have hmid : p ++ applyFrom buf cur (e :: es) =
        (p ++ slice buf cur e.pos ++ e.ins) ++ applyFrom buf e.endPos es := by
      simp only [applyFrom, List.append_assoc]
    have hmidlen : (p ++ slice buf cur e.pos ++ e.ins).length =
        last.endPos + (e.pos - cur) + e.ins.length := by
      simp only [List.length_append, hp, hkept]
    simp only [inverseFrom]
    split
    · rename_i htouch
      have hcurpos : e.pos = cur := by omega
      have hlastlen : (p ++ slice buf cur e.pos ++ e.ins).length =
          Edit.endPos ⟨last.pos, last.del + e.ins.length,
            last.ins ++ slice buf e.pos e.endPos⟩ := by
        rw [hmidlen]
        simp only [Edit.endPos] at *
        omega
      rw [hmid, ih (h.merge htouch _) hlastlen hinrest]
      simp only [List.append_assoc]
      rw [slice_append_left (by omega), slice_append_drop hend, hcurpos]
    · rename_i hgap
      have hpushlen : (p ++ slice buf cur e.pos ++ e.ins).length =
          Edit.endPos ⟨((e.pos : Int) + δ).toNat, e.ins.length,
            slice buf e.pos e.endPos⟩ := by
        simp only [hmidlen, hnew, Edit.endPos]
      have hgapslice : slice (p ++ slice buf cur e.pos ++ e.ins) last.endPos
          (((e.pos : Int) + δ).toNat) = slice buf cur e.pos := by
        rw [hnew, ← hp, List.append_assoc, slice_append_right, ← hkept, List.take_left]
      rw [applyFrom, slice_append_left (by omega), hmid,
        ih (h.push _) hpushlen hinrest, hgapslice, List.append_assoc (slice buf _ _),
        slice_append_drop hend, slice_append_drop hcur]

/-- Applying the inverse to the edited text restores the buffer. -/
theorem inverse_applyTo {l : EditList} {buf : Bytes} (h : l.InBounds buf.length) :
    (l.inverse buf).applyTo (l.applyTo buf) = buf := by
  unfold applyTo
  rw [inverse_edits h]
  have hs := l.sorted
  unfold InBounds at h
  cases hes : l.edits with
  | nil => simp [inverseEdits, applyFrom]
  | cons e es =>
    rw [hes] at h hs
    have hbuf := h e List.mem_cons_self
    have hend := e.pos_le_endPos
    have hlen : (slice buf 0 e.pos).length = e.pos := by
      rw [slice_length (Nat.zero_le _) (by omega)]
      omega
    have hfirst : (slice buf 0 e.pos ++ e.ins).length =
        Edit.endPos ⟨e.pos, e.ins.length, slice buf e.pos e.endPos⟩ := by
      simp only [List.length_append, hlen, Edit.endPos]
    rw [inverseEdits, applyFrom,
      applyFrom_inverseFrom buf (Pending.first hs _) hfirst
        (fun e' he' => h e' (List.mem_cons_of_mem _ he')),
      slice_append_left (Nat.le_of_eq hlen.symm), List.append_assoc,
      slice_append_drop hend]
    have hhead : slice (slice buf 0 e.pos) 0 e.pos = slice buf 0 e.pos := by
      simp [slice, List.take_take]
    simp only [hhead]
    rw [slice_append_drop (Nat.zero_le _), List.drop_zero]

/-- The edits of an inverse stay in the new text. -/
theorem inverseFrom_inBounds (buf : Bytes) {last : Edit} {n : Nat} {es : List Edit}
    (h : Pending last δ cur es) (hn : n = last.endPos) (hin : ∀ e ∈ es, e.endPos ≤ buf.length) :
    ∀ e ∈ inverseFrom buf last δ es, e.endPos ≤ n + (applyFrom buf cur es).length := by
  induction es generalizing last δ cur n with
  | nil =>
    intro e he
    rw [inverseFrom, List.mem_singleton] at he
    subst he
    omega
  | cons e es ih =>
    have hcur := h.above e List.mem_cons_self
    have hnew := h.newPos
    have hend := e.pos_le_endPos
    have hbuf := hin e List.mem_cons_self
    have hinrest := fun e' he' => hin e' (List.mem_cons_of_mem _ he')
    have hkept : (slice buf cur e.pos).length = e.pos - cur :=
      slice_length hcur (by omega)
    have hlen : (applyFrom buf cur (e :: es)).length =
        (e.pos - cur) + e.ins.length + (applyFrom buf e.endPos es).length := by
      simp only [applyFrom, List.length_append, hkept]
    simp only [inverseFrom]
    split
    · rename_i htouch
      intro e' he'
      have hpos := last.pos_le_endPos
      have := ih (h.merge htouch _) rfl hinrest e' he'
      simp only [Edit.endPos] at this hpos hnew hn ⊢
      simp only [Edit.endPos] at hlen
      omega
    · intro e' he'
      rcases List.mem_cons.mp he' with rfl | he'
      · omega
      · have := ih (h.push _) rfl hinrest e' he'
        simp only [Edit.endPos, hnew] at this hn ⊢
        simp only [Edit.endPos] at hlen
        omega

/-- The inverse of a list within the old text is within the new one. -/
theorem inverse_inBounds {l : EditList} {buf : Bytes} (h : l.InBounds buf.length) :
    (l.inverse buf).InBounds (l.applyTo buf).length := by
  intro e he
  rw [inverse_edits h] at he
  have hs := l.sorted
  unfold InBounds at h
  unfold applyTo
  cases hes : l.edits with
  | nil => simp [hes, inverseEdits] at he
  | cons a es =>
    rw [hes] at h hs he
    have hbuf := h a List.mem_cons_self
    have hend := a.pos_le_endPos
    have := inverseFrom_inBounds buf (Pending.first hs _) rfl
      (fun e' he' => h e' (List.mem_cons_of_mem _ he')) e he
    have hkept : (slice buf 0 a.pos).length = a.pos - 0 :=
      slice_length (Nat.zero_le _) (by omega)
    simp only [applyFrom, List.length_append, hkept]
    simp only [Edit.endPos] at this ⊢
    omega

/-- **Edit lists invert.** An `EditList` is what `new` accepts (`new_edits`). The
inverse of one that is in bounds for `buf` is accepted by `new`, as the list it
is, is in bounds for the edited text, and takes the edited text back to `buf`. -/
theorem inverse_exact (l : EditList) (buf : Bytes)
    (hin : l.checkBounds buf.length = .ok ()) :
    EditList.new (l.inverse buf).edits = .ok (l.inverse buf) ∧
      (l.inverse buf).checkBounds (l.applyTo buf).length = .ok () ∧
      (l.inverse buf).applyTo (l.applyTo buf) = buf := by
  have hbounds : l.InBounds buf.length := checkBounds_ok_iff.mp hin
  refine ⟨?_, ?_, ?_⟩
  · show EditList.new (l.inverse buf).edits = .ok (l.inverse buf)
    exact new_edits (l.inverse buf)
  · exact checkBounds_ok_iff.mpr (inverse_inBounds hbounds)
  · exact inverse_applyTo hbounds

/-- A deletion that meets an insertion, as one list. -/
def deleteThenInsert : EditList :=
  { edits := [Edit.delete 0 2, Edit.insert 2 [120]]
    sorted := by decide
    changes := by decide }

/-- The two touching edits invert to one: `ab` at the start for the `x`. -/
theorem inverse_exact_touching :
    EditList.new (deleteThenInsert.inverse [97, 98, 99]).edits =
        .ok (deleteThenInsert.inverse [97, 98, 99]) ∧
      (deleteThenInsert.inverse [97, 98, 99]).checkBounds
        (deleteThenInsert.applyTo [97, 98, 99]).length = .ok () ∧
      (deleteThenInsert.inverse [97, 98, 99]).applyTo
        (deleteThenInsert.applyTo [97, 98, 99]) = [97, 98, 99] :=
  inverse_exact deleteThenInsert [97, 98, 99] (by decide)

end EditList

end Ruse.Core
