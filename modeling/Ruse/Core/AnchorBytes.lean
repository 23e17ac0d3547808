import Ruse.Core.AnchorFar

/-!
# The byte rule, one edit at a time

`mapByteInside` gives in one pass what the single-edit rule gives edit by edit, each edit
shifted into the frame the ones before it leave (`inTurn`, `mapByteInside_eq`). The
reference for one edit is a text of bytes that keep their identity, cut in two where the
anchor stands (`Stand`): an edit takes bytes from both sides and puts its own on the side
the bias names. An anchor off every edit comes back with the inverse (`anchor_comes_back`).
-/

namespace Ruse.Core

/-- The edit in a frame shifted by `shift`. -/
def Edit.shifted (e : Edit) (shift : Int) : Edit := { e with pos := ((e.pos : Int) + shift).toNat }

/-- The edits one after the other, each in the frame the ones before it leave. -/
def inTurn : List Edit → Int → List Edit
  | [], _ => []
  | e :: es, shift => e.shifted shift :: inTurn es (shift + e.delta)

/-- The single-edit rule for an anchor and whether it sat inside a deletion so far. -/
def mapEdit (bias : Bias) (r : Nat × Bool) (e : Edit) : Nat × Bool :=
  let (n, ins) := mapOne r.1 e.pos e.del e.ins.length bias
  (n, r.2 || ins)

def Edit.splice (e : Edit) (b : Bytes) : Bytes := b.take e.pos ++ e.ins ++ b.drop e.endPos

theorem inTurn_append (es es' : List Edit) (shift : Int) :
    inTurn (es ++ es') shift = inTurn es shift ++ inTurn es' (shift + sumDelta es) := by
  induction es generalizing shift with
  | nil => simp [inTurn]
  | cons e es ih =>
    rw [List.cons_append, inTurn, inTurn, ih, sumDelta_cons, Int.add_assoc, List.cons_append]

/-! ## The single pass -/

/-- How much of an insertion at the anchor goes before it. -/
def Bias.push : Bias → Nat → Nat
  | .before, _ => 0
  | .after, ins => ins

theorem Bias.push_le (bias : Bias) (ins : Nat) : bias.push ins ≤ ins := by
  cases bias
  · exact Nat.zero_le ins
  · exact Nat.le_refl ins

/-- An edit left of an anchor moves it by its length change; one that starts where an anchor
stands is left of it if the anchor goes behind what is put in. -/
theorem mapEdit_left {bias : Bias} {a : Nat} {e : Edit} (h : e.endPos < a + bias.push 1)
    (inside : Bool) : mapEdit bias (a, inside) e = (a - e.del + e.ins.length, inside) := by
  unfold mapEdit mapOne
  dsimp only [Edit.endPos] at h ⊢
  rw [if_neg (by have := bias.push_le 1; omega)]
  split
  · rw [Bool.or_false]
  · cases bias with
    | before => simp only [Bias.push] at h; omega
    | after =>
      simp only [Bias.push] at h
      have hstop : ¬ a < e.pos + e.del := by omega
      simp only [hstop, decide_false, Bool.and_false, Bool.or_false]
      congr 1
      omega

theorem mapEdit_right {bias : Bias} {a : Nat} {e : Edit} (h : a + bias.push 1 ≤ e.pos)
    (inside : Bool) : mapEdit bias (a, inside) e = (a, inside) := by
  unfold mapEdit mapOne
  dsimp only
  split
  · rw [Bool.or_false]
  · cases bias with
    | after => simp only [Bias.push] at h; omega
    | before =>
      simp only [Bias.push] at h
      obtain rfl : a = e.pos := by omega
      rw [if_neg (by omega), decide_eq_false (Nat.lt_irrefl _), Bool.false_and, Bool.or_false]

/-- A position past every edit moves by their sum. -/
theorem foldl_past (bias : Bias) {es : List Edit} {c o : Nat} {shift : Int}
    (hs : es.Pairwise Edit.Before) (hc : ∀ e ∈ es, c ≤ e.pos) (hframe : 0 ≤ (c : Int) + shift)
    (hpast : ∀ e ∈ es, e.endPos < o + bias.push 1) (hco : c ≤ o) (inside : Bool) :
    (inTurn es shift).foldl (mapEdit bias) (((o : Int) + shift).toNat, inside) =
      (((o : Int) + (shift + sumDelta es)).toNat, inside) := by
  induction es generalizing c shift with
  | nil => simp [inTurn]
  | cons e es ih =>
    have hbefore := (List.pairwise_cons.mp hs).1
    have hpos := hc e List.mem_cons_self
    have hend := hpast e List.mem_cons_self
    have hpush := bias.push_le 1
    simp only [Edit.endPos] at hend
    have hmap : mapEdit bias (((o : Int) + shift).toNat, inside) (e.shifted shift) =
        (((o : Int) + (shift + e.delta)).toNat, inside) := by
      rw [mapEdit_left (by simp only [Edit.shifted, Edit.endPos]; omega)]
      simp only [Edit.shifted, Edit.delta]
      congr 1
      omega
    have hframe' : 0 ≤ (e.endPos : Int) + (shift + e.delta) := by
      simp only [Edit.endPos, Edit.delta]
      omega
    have hrest := ih (List.pairwise_cons.mp hs).2 (fun e' he' => (hbefore e' he').2) hframe'
      (fun e' he' => hpast e' (List.mem_cons_of_mem _ he')) (by simp only [Edit.endPos]; omega)
    rw [Int.add_assoc shift] at hrest
    rw [inTurn, List.foldl_cons, hmap, sumDelta_cons, hrest]

theorem foldl_before (bias : Bias) {es : List Edit} {cur : Nat} {shift : Int}
    (hs : es.Pairwise Edit.Before) (hcur : ∀ e ∈ es.head?, cur + bias.push 1 ≤ ((e.pos : Int) + shift).toNat)
    (inside : Bool) : (inTurn es shift).foldl (mapEdit bias) (cur, inside) = (cur, inside) := by
  induction es generalizing shift with
  | nil => rfl
  | cons e es ih =>
    have hbefore := (List.pairwise_cons.mp hs).1
    have hle := hcur e rfl
    rw [inTurn, List.foldl_cons, mapEdit_right hle]
    refine ih (List.pairwise_cons.mp hs).2 fun e' he' => ?_
    have hnext := (hbefore e' (List.mem_of_mem_head? he')).2
    simp only [Edit.endPos] at hnext
    simp only [Edit.delta]
    omega

theorem mapByteLoop_eq (bias : Bias) {es : List Edit} (hs : es.Pairwise Edit.Before) (shift : Int)
    (cur : Nat) (inside : Bool) : mapByteLoop bias es shift cur inside =
      (inTurn es shift).foldl (mapEdit bias) (cur, inside) := by
  induction es generalizing shift cur inside with
  | nil => rfl
  | cons e es ih =>
    unfold mapByteLoop
    dsimp only
    -- the loop stops at the first edit past the anchor; the ones after it lie further right
    by_cases hlt : cur < ((e.pos : Int) + shift).toNat
    · rw [if_pos hlt, foldl_before bias hs]
      intro e' he'
      cases he'
      have := bias.push_le 1
      omega
    · rw [if_neg hlt, ih (List.pairwise_cons.mp hs).2, inTurn, List.foldl_cons]
      rfl

/-- The single pass is the single-edit rule, edit by edit. -/
theorem mapByteInside_eq (edits : EditList) (o : Nat) (bias : Bias) :
    mapByteInside edits.edits o bias =
      (inTurn edits.edits 0).foldl (mapEdit bias) (o, false) := by
  have hsplit := editsBefore_append edits.edits o
  have hsorted := edits.sorted
  rw [hsplit, List.pairwise_append] at hsorted
  conv => rhs; rw [hsplit, inTurn_append, List.foldl_append]
  unfold mapByteInside
  have hframe : 0 ≤ ((0 : Nat) : Int) + 0 := Int.le_refl 0
  have hskip := foldl_past bias hsorted.1 (fun e _ => Nat.zero_le e.pos) hframe
    (fun e he => Nat.lt_of_lt_of_le (endPos_of_editsBefore he) (Nat.le_add_right _ _))
    (Nat.zero_le o) false
  rw [Int.add_zero, Int.toNat_natCast, Int.zero_add] at hskip
  rw [hskip, Int.zero_add, mapByteLoop_eq bias hsorted.2.1]

/-! ## Order -/

/-- `a` is biased no further right than `b`. -/
def Bias.le : Bias → Bias → Prop
  | .after, .before => False
  | _, _ => True

theorem Bias.push_mono {bias bias' : Bias} (h : bias.le bias') (ins : Nat) :
    bias.push ins ≤ bias'.push ins := by
  cases bias
  · exact Nat.zero_le _
  · cases bias'
    · cases h
    · exact Nat.le_refl ins

theorem mapOne_fst (a pos del ins : Nat) (bias : Bias) : (mapOne a pos del ins bias).1 =
    if a < pos then a else if a > pos + del then a - del + ins else pos + bias.push ins := by
  unfold mapOne
  dsimp only
  split
  · rfl
  · split
    · rfl
    · cases bias <;> rfl

/-- One edit keeps the order of two anchors, the left one biased no further right. -/
theorem mapOne_mono {a b : Nat} (hab : a ≤ b) {bias bias' : Bias} (hbias : bias.le bias')
    (pos del ins : Nat) : (mapOne a pos del ins bias).1 ≤ (mapOne b pos del ins bias').1 := by
  have hle := bias.push_le ins
  have hmono := Bias.push_mono hbias ins
  rw [mapOne_fst, mapOne_fst]
  split_ifs <;> omega

theorem foldl_mono {a b : Nat} (hab : a ≤ b) {bias bias' : Bias} (hbias : bias.le bias')
    (es : List Edit) (i j : Bool) :
    (es.foldl (mapEdit bias) (a, i)).1 ≤ (es.foldl (mapEdit bias') (b, j)).1 := by
  induction es generalizing a b i j with
  | nil => exact hab
  | cons e es ih => exact ih (mapOne_mono hab hbias e.pos e.del e.ins.length) _ _

/-- The byte rule keeps the order of anchors of one bias, and at one offset `before` never
lands past `after`; so no range whose start is biased no further right than its end turns
inside out. -/
theorem byte_rule_mono (edits : EditList) {p q : Nat} (hpq : p ≤ q) :
    (∀ bias, mapByte edits p bias ≤ mapByte edits q bias) ∧
    mapByte edits p .before ≤ mapByte edits p .after ∧
    mapByte edits p .before ≤ mapByte edits q .after := by
  have hle (a b : Nat) (hab : a ≤ b) (bias bias' : Bias) (hbias : bias.le bias') :
      mapByte edits a bias ≤ mapByte edits b bias' := by
    unfold mapByte
    rw [mapByteInside_eq, mapByteInside_eq]
    exact foldl_mono hab hbias _ _ _
  refine ⟨fun bias => hle p q hpq bias bias ?_, hle p p (Nat.le_refl p) _ _ trivial,
    hle p q hpq _ _ trivial⟩
  cases bias <;> trivial

/-- Two touching edits, and the offsets inside the first and between them. -/
theorem byte_rule_mono_touching :
    let edits : EditList := ⟨[⟨0, 2, [120]⟩, ⟨2, 1, []⟩], by decide, by decide⟩
    (∀ bias, mapByte edits 1 bias ≤ mapByte edits 2 bias) ∧
      mapByte edits 1 .before ≤ mapByte edits 1 .after ∧
      mapByte edits 1 .before ≤ mapByte edits 2 .after :=
  byte_rule_mono _ (by decide)

/-! ## The reference: bytes that keep their identity -/

/-- A byte, and its offset in the text it came from; an inserted one has none. -/
abbrev Identified := UInt8 × Option Nat

/-- A text cut in two where an anchor stands. -/
structure Stand where
  left : List Identified
  right : List Identified

namespace Stand

/-- An anchor at `o` in a text before any edit. -/
def start (text : Bytes) (o : Nat) : Stand :=
  let bytes := text.zipIdx.map fun p => (p.1, some p.2)
  ⟨bytes.take o, bytes.drop o⟩

def text (s : Stand) : Bytes := (s.left ++ s.right).map Prod.fst

/-- The bytes of both sides an edit deletes go; its own come where it is, and at the
anchor on the side the bias names. -/
def follow (bias : Bias) (s : Stand) (e : Edit) : Stand :=
  let n := s.left.length
  let left := s.left.take e.pos ++ s.left.drop e.endPos
  let right := s.right.take (e.pos - n) ++ s.right.drop (e.endPos - n)
  let ins : List Identified := e.ins.map (·, none)
  if e.pos < left.length ∨ e.pos = left.length ∧ bias = .after then
    ⟨left.take e.pos ++ ins ++ left.drop e.pos, right⟩
  else ⟨left, right.take (e.pos - left.length) ++ ins ++ right.drop (e.pos - left.length)⟩

/-- Every byte of the old text is on its own side of the anchor. -/
structure Apart (s : Stand) (o : Nat) : Prop where
  left : ∀ x k, (x, some k) ∈ s.left → k < o
  right : ∀ x k, (x, some k) ∈ s.right → o ≤ k

theorem start_text (text : Bytes) (o : Nat) : (start text o).text = text := by
  unfold start Stand.text
  rw [List.take_append_drop, List.map_map]
  exact List.zipIdx_map_fst 0 text

theorem start_left_length {text : Bytes} {o : Nat} (ho : o ≤ text.length) :
    (start text o).left.length = o := by
  unfold start
  rw [List.length_take, List.length_map, List.length_zipIdx]
  omega

/-- At the start the bytes before the position are left of it, the others right of it. -/
theorem start_apart (text : Bytes) (o : Nat) : (start text o).Apart o := by
  have hget (i : Nat) : (text.zipIdx.map fun p => (p.1, some p.2))[i]? =
      text[i]?.map fun x => (x, some i) := by
    rw [List.getElem?_map, List.getElem?_zipIdx, Option.map_map]
    cases text[i]? <;> simp
  constructor
  · intro x k hmem
    obtain ⟨i, hi⟩ := List.mem_iff_getElem?.mp hmem
    have hi' : (if i < o then (text.zipIdx.map fun p => (p.1, some p.2))[i]? else none) =
        some (x, some k) := by
      rw [← List.getElem?_take]
      exact hi
    split at hi'
    · rw [hget] at hi'
      obtain ⟨y, -, heq⟩ := Option.map_eq_some_iff.mp hi'
      cases heq
      assumption
    · cases hi'
  · intro x k hmem
    obtain ⟨i, hi⟩ := List.mem_iff_getElem?.mp hmem
    have hi' : (text.zipIdx.map fun p => (p.1, some p.2))[o + i]? = some (x, some k) := by
      rw [← List.getElem?_drop]
      exact hi
    rw [hget] at hi'
    obtain ⟨y, -, heq⟩ := Option.map_eq_some_iff.mp hi'
    cases heq
    exact Nat.le_add_right o i

variable (bias : Bias) (s : Stand) (e : Edit)

/-- An edit moves the place between the two sides as `mapOne` moves a position. -/
theorem follow_left :
    (s.follow bias e).left.length = (mapOne s.left.length e.pos e.del e.ins.length bias).1 := by
  have hlen : (s.left.take e.pos ++ s.left.drop e.endPos).length =
      min e.pos s.left.length + (s.left.length - e.endPos) := by
    rw [List.length_append, List.length_take, List.length_drop]
  simp only [Edit.endPos] at hlen
  rw [mapOne_fst]
  unfold follow
  dsimp only [Edit.endPos]
  -- the inserted bytes go to the left side, or to the right one
  by_cases hside : e.pos < (s.left.take e.pos ++ s.left.drop (e.pos + e.del)).length ∨
      e.pos = (s.left.take e.pos ++ s.left.drop (e.pos + e.del)).length ∧ bias = .after
  · rw [if_pos hside]
    rw [List.length_append, List.length_append, List.length_map, List.length_take,
      List.length_drop, hlen]
    rw [hlen] at hside
    rcases hside with hlt | ⟨heq, rfl⟩
    · split_ifs <;> omega
    · simp only [Bias.push]
      split_ifs <;> omega
  · rw [if_neg hside]
    rw [hlen]
    rw [hlen] at hside
    cases bias with
    | before =>
      simp only [Bias.push]
      split_ifs <;> omega
    | after =>
      simp only [Bias.push]
      split_ifs <;> simp at hside <;> omega

theorem insert_append {α : Type} (left right ins : List α) {pos : Nat} :
    (pos ≤ left.length → left.take pos ++ ins ++ left.drop pos ++ right =
      (left ++ right).take pos ++ ins ++ (left ++ right).drop pos) ∧
    (left.length ≤ pos → left ++ (right.take (pos - left.length) ++ ins ++
        right.drop (pos - left.length)) =
      (left ++ right).take pos ++ ins ++ (left ++ right).drop pos) := by
  constructor
  · intro hpos
    rw [List.take_append_of_le_length hpos, List.drop_append_of_le_length hpos]
    simp only [List.append_assoc]
  · intro hpos
    rw [List.take_append, List.drop_append, List.take_of_length_le hpos,
      List.drop_of_length_le hpos, List.nil_append]
    simp only [List.append_assoc]

theorem delete_append {α : Type} (left right : List α) {pos stop : Nat} (h : pos ≤ stop) :
    left.take pos ++ left.drop stop ++
        (right.take (pos - left.length) ++ right.drop (stop - left.length)) =
      (left ++ right).take pos ++ (left ++ right).drop stop := by
  rw [List.take_append, List.drop_append]
  by_cases hpos : pos ≤ left.length
  · rw [Nat.sub_eq_zero_of_le hpos, List.take_zero]
    simp only [List.append_assoc, List.nil_append]
  · rw [List.drop_of_length_le (show left.length ≤ stop by omega)]
    simp only [List.append_assoc, List.nil_append]

/-- The two sides that follow an edit are the edited text. -/
theorem follow_text (hin : e.pos ≤ s.text.length) :
    (s.follow bias e).text = e.splice s.text := by
  have hdelete := delete_append s.left s.right e.pos_le_endPos
  have hlen : s.text.length = (s.left ++ s.right).length := List.length_map _
  have htake : ((s.left ++ s.right).take e.pos).length = e.pos := by
    rw [List.length_take]
    omega
  unfold follow
  dsimp only
  generalize s.left.take e.pos ++ s.left.drop e.endPos = left at hdelete ⊢
  generalize s.right.take (e.pos - s.left.length) ++
    s.right.drop (e.endPos - s.left.length) = right at hdelete ⊢
  have hins := @insert_append _ left right (e.ins.map fun x => (x, none)) e.pos
  have hwhole : (left ++ right).take e.pos = (s.left ++ s.right).take e.pos ∧
      (left ++ right).drop e.pos = (s.left ++ s.right).drop e.endPos := by
    rw [hdelete]
    exact ⟨List.take_left' htake, List.drop_left' htake⟩
  rw [hwhole.1, hwhole.2] at hins
  have hgoal : ((s.left ++ s.right).take e.pos ++ e.ins.map (fun x => ((x, none) : Identified)) ++
      (s.left ++ s.right).drop e.endPos).map Prod.fst = e.splice s.text := by
    have hid : (e.ins.map (fun x => ((x, none) : Identified))).map Prod.fst = e.ins := by
      rw [List.map_map]
      exact List.map_id _
    rw [List.map_append, List.map_append, List.map_take, List.map_drop, hid]
    rfl
  unfold Stand.text
  split
  · rename_i hside
    rw [hins.1 (by omega)]
    exact hgoal
  · rename_i hside
    rw [hins.2 (by omega)]
    exact hgoal

/-- An edit keeps the two sides apart. -/
theorem follow_apart {o : Nat} (h : s.Apart o) : (s.follow bias e).Apart o := by
  have hkept {l : List Identified} {x : UInt8} {k i j : Nat}
      (hmem : (x, some k) ∈ l.take i ++ l.drop j) : (x, some k) ∈ l :=
    (List.mem_append.mp hmem).elim List.mem_of_mem_take List.mem_of_mem_drop
  have hfresh {l : List Identified} {x : UInt8} {k i : Nat}
      (hmem : (x, some k) ∈ l.take i ++ e.ins.map (fun y => (y, none)) ++ l.drop i) :
      (x, some k) ∈ l := by
    rcases List.mem_append.mp hmem with hmem | hmem
    · rcases List.mem_append.mp hmem with hmem | hmem
      · exact List.mem_of_mem_take hmem
      · obtain ⟨y, -, heq⟩ := List.mem_map.mp hmem
        cases heq
    · exact List.mem_of_mem_drop hmem
  unfold follow
  dsimp only
  split
  · exact ⟨fun x k hmem => h.left x k (hkept (hfresh hmem)), fun x k hmem => h.right x k (hkept hmem)⟩
  · exact ⟨fun x k hmem => h.left x k (hkept hmem), fun x k hmem => h.right x k (hkept (hfresh hmem))⟩

end Stand

/-! ## The whole list -/

/-- The next edit in turn, where `done` is what the edits so far made of the text before
`c`. -/
theorem splice_shifted {text done : Bytes} {e : Edit} {c : Nat} {shift : Int} (hpos : c ≤ e.pos)
    (hend : e.endPos ≤ text.length) (hframe : (done.length : Int) = c + shift) :
    (e.shifted shift).pos ≤ (done ++ text.drop c).length ∧
    (e.shifted shift).splice (done ++ text.drop c) =
      done ++ slice text c e.pos ++ e.ins ++ text.drop e.endPos ∧
    ((done ++ slice text c e.pos ++ e.ins).length : Int) = e.endPos + (shift + e.delta) := by
  have hle := e.pos_le_endPos
  have hshift : ((e.pos : Int) + shift).toNat = done.length + (e.pos - c) := by omega
  have hslice : (done ++ slice text c e.pos).length = done.length + (e.pos - c) := by
    rw [List.length_append, slice_length hpos (hle.trans hend)]
  have hcut : done ++ text.drop c = done ++ slice text c e.pos ++ text.drop e.pos := by
    rw [List.append_assoc, slice_append_drop hpos]
  have hdrop : (done ++ slice text c e.pos ++ text.drop e.pos).drop
      (done.length + (e.pos - c) + e.del) = text.drop e.endPos := by
    rw [← hslice, List.drop_append, List.drop_of_length_le (Nat.le_add_right _ _),
      Nat.add_sub_cancel_left, List.nil_append, List.drop_drop]
    rfl
  refine ⟨?_, ?_, ?_⟩
  · show ((e.pos : Int) + shift).toNat ≤ _
    rw [hshift, List.length_append, List.length_drop]
    omega
  · unfold Edit.splice Edit.shifted Edit.endPos
    rw [hshift, hcut, List.take_left' hslice, hdrop]
    rfl
  · rw [List.length_append, hslice]
    simp only [Edit.endPos, Edit.delta]
    omega

/-- Following the edits in turn makes the text `applyTo` makes, and takes the anchor where
the single-edit rule does. -/
theorem foldl_follow {text : Bytes} {es : List Edit} {done : Bytes} {c o : Nat} {shift : Int}
    (bias : Bias) {s : Stand} (hs : es.Pairwise Edit.Before) (hc : ∀ e ∈ es, c ≤ e.pos)
    (hin : ∀ e ∈ es, e.endPos ≤ text.length) (hframe : (done.length : Int) = c + shift)
    (htext : s.text = done ++ text.drop c) (hapart : s.Apart o) (inside : Bool) :
    ((inTurn es shift).foldl (Stand.follow bias) s).text = done ++ EditList.applyFrom text c es ∧
    ((inTurn es shift).foldl (Stand.follow bias) s).left.length =
      ((inTurn es shift).foldl (mapEdit bias) (s.left.length, inside)).1 ∧
    ((inTurn es shift).foldl (Stand.follow bias) s).Apart o := by
  induction es generalizing done c shift s inside with
  | nil => exact ⟨htext, rfl, hapart⟩
  | cons e es ih =>
    have hbefore := (List.pairwise_cons.mp hs).1
    obtain ⟨hfits, hsplice, hframe'⟩ :=
      splice_shifted (hc e List.mem_cons_self) (hin e List.mem_cons_self) hframe
    have htext' : (s.follow bias (e.shifted shift)).text =
        done ++ slice text c e.pos ++ e.ins ++ text.drop e.endPos := by
      rw [Stand.follow_text bias s _ (by rw [htext]; exact hfits), htext, hsplice]
    obtain ⟨hrun, hlength, hrest⟩ := ih (List.pairwise_cons.mp hs).2
      (fun e' he' => (hbefore e' he').2) (fun e' he' => hin e' (List.mem_cons_of_mem _ he'))
      hframe' htext' (Stand.follow_apart bias s _ hapart)
      (inside || (mapOne s.left.length (e.shifted shift).pos e.del e.ins.length bias).2)
    rw [inTurn, List.foldl_cons, List.foldl_cons]
    refine ⟨?_, ?_, hrest⟩
    · rw [hrun, EditList.applyFrom, List.append_assoc, List.append_assoc, List.append_assoc]
    · rw [hlength, Stand.follow_left]
      rfl

/-- The single pass over an edit list is the single-edit rule, edit by edit; and where the
list is in bounds, its offset is the number of bytes left of an anchor that follows the
bytes themselves, with those of the old text still on their sides. -/
theorem byte_rule_in_turn (edits : EditList) (o : Nat) (bias : Bias) :
    mapByteInside edits.edits o bias =
      (inTurn edits.edits 0).foldl (mapEdit bias) (o, false) ∧
    ∀ text : Bytes, edits.InBounds text.length → o ≤ text.length →
      let stand := (inTurn edits.edits 0).foldl (Stand.follow bias) (.start text o)
      stand.text = edits.applyTo text ∧
        (mapByteInside edits.edits o bias).1 = stand.left.length ∧ stand.Apart o := by
  refine ⟨mapByteInside_eq edits o bias, fun text hin ho => ?_⟩
  obtain ⟨htext, hlength, hapart⟩ := @foldl_follow text _ [] 0 o 0 bias _
    edits.sorted (fun e _ => Nat.zero_le e.pos) hin rfl (Stand.start_text text o)
    (Stand.start_apart text o) false
  rw [Stand.start_left_length ho] at hlength
  exact ⟨htext, by rw [hlength, mapByteInside_eq], hapart⟩

/-! ## There and back -/

/-- The edit keeps off a point between two bytes: it ends before it, or starts at it or after. -/
def Edit.Off (e : Edit) (q : Nat) : Prop := e.endPos < q ∨ q ≤ e.pos

/-- Off the edits a position moves by the sum of those before it, and lies in none. -/
theorem mapByteInside_off (edits : EditList) {o : Nat} {bias : Bias}
    (hoff : ∀ e ∈ edits.edits, e.Off (o + bias.push 1)) :
    mapByteInside edits.edits o bias =
      (((o : Int) + sumDelta (editsBefore edits.edits (o + bias.push 1))).toNat, false) := by
  have hpush := bias.push_le 1
  have hsplit := editsBefore_append edits.edits (o + bias.push 1)
  have hsorted := edits.sorted
  rw [hsplit, List.pairwise_append] at hsorted
  have hroom := le_sumDelta hsorted.1 (fun e _ => Nat.zero_le e.pos)
    (fun e he => show e.endPos ≤ o by have := endPos_of_editsBefore he; omega) (Nat.zero_le o)
  have hpast := foldl_past bias hsorted.1 (fun e _ => Nat.zero_le e.pos)
    (Int.le_refl (((0 : Nat) : Int) + 0)) (fun e he => endPos_of_editsBefore he)
    (Nat.zero_le o) false
  rw [Int.add_zero, Int.toNat_natCast, Int.zero_add] at hpast
  rw [mapByteInside_eq]
  conv => lhs; rw [hsplit, inTurn_append, List.foldl_append, hpast, Int.zero_add]
  refine foldl_before bias hsorted.2.1 (fun e he => ?_) false
  have hmem := List.mem_of_mem_head? he
  have hend := le_endPos_of_drop edits.sorted hmem
  rcases hoff e (List.mem_of_mem_drop hmem) with hlt | hle
  · omega
  · omega

theorem editsBefore_cons {e : Edit} {q : Nat} (h : e.endPos < q) (es : List Edit) :
    editsBefore (e :: es) q = e :: editsBefore es q :=
  List.takeWhile_cons_of_pos (decide_eq_true h)

theorem ahead_of_cons {e : Edit} {es : List Edit} (hs : (e :: es).Pairwise Edit.Before) {q : Nat}
    (h : q ≤ e.pos) : ∀ e' ∈ e :: es, q ≤ e'.pos :=
  List.forall_mem_cons.mpr ⟨h, fun e' he' =>
    (h.trans e.pos_le_endPos).trans ((List.pairwise_cons.mp hs).1 e' he').2⟩

theorem editsBefore_ahead {es : List Edit} {q : Nat} (h : ∀ e ∈ es, q ≤ e.pos) :
    editsBefore es q = [] := by
  cases es with
  | nil => rfl
  | cons e es =>
    have hpos := h e List.mem_cons_self
    have hend := e.pos_le_endPos
    exact List.takeWhile_cons_of_neg (by simp; omega)

namespace EditList

theorem inverseFrom_ahead (buf : Bytes) {last : Edit} {δ : Int} {cur : Nat} {es : List Edit}
    (h : Pending last δ cur es) : ∀ e ∈ inverseFrom buf last δ es, last.pos ≤ e.pos := by
  have hs := inverseFrom_sorted buf h
  obtain ⟨d, ins, rest, hhead⟩ := inverseFrom_head buf last δ es
  rw [hhead] at hs ⊢
  intro e he
  rcases List.mem_cons.mp he with rfl | he
  · exact Nat.le_refl _
  · exact Nat.le_of_lt ((List.pairwise_cons.mp hs).1 e he).1

/-- Where the edits keep off a point, their inverses keep off where it goes, and move it
back. -/
theorem inverseFrom_off {buf : Bytes} {last : Edit} {δ : Int} {cur q : Nat} {es : List Edit}
    (h : Pending last δ cur es) (hcur : cur < q) (hoff : ∀ e ∈ es, e.Off q)
    (hin : ∀ e ∈ es, e.endPos ≤ buf.length) :
    ∃ q' : Nat, (q' : Int) = q + δ + sumDelta (editsBefore es q) ∧ last.endPos < q' ∧
      (∀ e ∈ inverseFrom buf last δ es, e.Off q') ∧
      sumDelta (editsBefore (inverseFrom buf last δ es) q') =
        last.delta - sumDelta (editsBefore es q) := by
  have hends := h.ends
  have hlast := last.pos_le_endPos
  induction es generalizing last δ cur with
  | nil =>
    have hlt : last.endPos < ((q : Int) + δ).toNat := by omega
    refine ⟨((q : Int) + δ).toNat, ?_, hlt, ?_, ?_⟩
    · simp only [editsBefore, List.takeWhile_nil, sumDelta_nil]
      omega
    · exact List.forall_mem_singleton.mpr (.inl hlt)
    · rw [inverseFrom, editsBefore_cons hlt]
      simp [editsBefore]
  | cons e es ih =>
    have hnew := h.newPos
    have hslice := slice_length e.pos_le_endPos (hin e List.mem_cons_self)
    have hrest := fun e' he' => hoff e' (List.mem_cons_of_mem _ he')
    have hinrest := fun e' he' => hin e' (List.mem_cons_of_mem _ he')
    simp only [Edit.endPos] at hends hlast hnew hslice
    rcases hoff e List.mem_cons_self with hleft | hright
    · rw [editsBefore_cons hleft, sumDelta_cons]
      simp only [inverseFrom]
      split
      · rename_i htouch
        have hm := h.merge htouch (last.ins ++ slice buf e.pos e.endPos)
        obtain ⟨q', hq, hlt, hall, hsum⟩ := ih hm hleft hrest hinrest hm.ends (Edit.pos_le_endPos _)
        refine ⟨q', by omega, ?_, hall, ?_⟩
        · simp only [Edit.endPos] at hlt ⊢
          omega
        · rw [hsum]
          simp only [Edit.delta, List.length_append, Edit.endPos, hslice]
          omega
      · have hp := h.push (slice buf e.pos e.endPos)
        obtain ⟨q', hq, hlt, hall, hsum⟩ := ih hp hleft hrest hinrest hp.ends (Edit.pos_le_endPos _)
        have hlt' : last.endPos < q' := by
          simp only [Edit.endPos] at hlt ⊢
          omega
        refine ⟨q', by omega, hlt', List.forall_mem_cons.mpr ⟨.inl hlt', hall⟩, ?_⟩
        rw [editsBefore_cons hlt', sumDelta_cons, hsum]
        simp only [Edit.delta, Edit.endPos, hslice]
        omega
    · -- the point lies between `last` and `e`: nothing from here on is before it
      have hlt : last.endPos < ((q : Int) + δ).toNat := by
        simp only [Edit.endPos]
        omega
      have hinv := fun e' he' => (show ((q : Int) + δ).toNat ≤ ((e.pos : Int) + δ).toNat by
        omega).trans (inverseFrom_ahead buf (h.push (slice buf e.pos e.endPos)) e' he')
      have hpos := h.above e List.mem_cons_self
      rw [editsBefore_ahead (ahead_of_cons h.sorted hright), sumDelta_nil, inverseFrom,
        if_neg (by omega)]
      refine ⟨((q : Int) + δ).toNat, by omega, hlt, ?_, ?_⟩
      · exact List.forall_mem_cons.mpr ⟨.inl hlt, fun e' he' => .inr (hinv e' he')⟩
      · rw [editsBefore_cons hlt, editsBefore_ahead hinv, sumDelta_cons, sumDelta_nil]
        omega

/-- Where a list keeps off a point, its inverse keeps off where the point goes, and takes it
back. -/
theorem inverse_off {l : EditList} {buf : Bytes} (hin : l.InBounds buf.length) {q : Nat}
    (hoff : ∀ e ∈ l.edits, e.Off q) :
    ∃ q' : Nat, (q' : Int) = q + sumDelta (editsBefore l.edits q) ∧ min 1 q ≤ q' ∧
      (∀ e ∈ (l.inverse buf).edits, e.Off q') ∧
      sumDelta (editsBefore (l.inverse buf).edits q') = - sumDelta (editsBefore l.edits q) := by
  rw [inverse_edits hin]
  have hs := l.sorted
  unfold InBounds at hin
  cases hes : l.edits with
  | nil =>
    refine ⟨q, ?_, Nat.min_le_right 1 q, by simp [inverseEdits], by simp [inverseEdits, editsBefore]⟩
    simp [editsBefore]
  | cons e es =>
    rw [hes] at hin hs hoff
    obtain ⟨hbuf, hinrest⟩ := List.forall_mem_cons.mp hin
    obtain ⟨hoffe, hoffrest⟩ := List.forall_mem_cons.mp hoff
    have hslice := slice_length e.pos_le_endPos hbuf
    have hp := Pending.first hs (slice buf e.pos e.endPos)
    rcases hoffe with hleft | hright
    · obtain ⟨q', hq, hlt, hall, hsum⟩ := inverseFrom_off hp hleft hoffrest hinrest
      rw [editsBefore_cons hleft, sumDelta_cons]
      refine ⟨q', by omega, by omega, hall, ?_⟩
      rw [inverseEdits, hsum]
      simp only [Edit.delta, Edit.endPos] at hslice ⊢
      omega
    · have hinv := fun e' he' => hright.trans (inverseFrom_ahead buf hp e' he')
      rw [editsBefore_ahead (ahead_of_cons hs hright), inverseEdits, sumDelta_nil]
      refine ⟨q, by omega, Nat.min_le_right 1 q, fun e' he' => .inr (hinv e' he'), ?_⟩
      rw [editsBefore_ahead hinv]
      rfl

/-- Undo takes an anchor back: one that every edit of a list keeps off, on the side its bias
names, is where it was once the list and then its inverse have moved it. -/
theorem anchor_comes_back (l : EditList) (buf : Bytes) (hin : l.InBounds buf.length) (o : Nat)
    (bias : Bias) (hoff : ∀ e ∈ l.edits, e.Off (o + bias.push 1)) :
    mapByteInside (l.inverse buf).edits (mapByte l o bias) bias = (o, false) := by
  obtain ⟨q', hq, hone, hall, hsum⟩ := inverse_off hin hoff
  have hpush := bias.push_le 1
  have hmap : mapByte l o bias + bias.push 1 = q' := by
    rw [mapByte, mapByteInside_off l hoff]
    omega
  rw [mapByteInside_off _ (by rw [hmap]; exact hall), hmap, hsum]
  congr 1
  omega

/-- An anchor between an insertion and a deletion comes back through the inverse. -/
theorem anchor_comes_back_touching :
    let l : EditList := ⟨[⟨1, 0, [120]⟩, ⟨2, 1, []⟩], by decide, by decide⟩
    mapByteInside (l.inverse [97, 98, 99]).edits (mapByte l 1 .after) .after = (1, false) :=
  anchor_comes_back _ [97, 98, 99] (by decide) 1 .after (by unfold Edit.Off; decide)

end EditList

end Ruse.Core
