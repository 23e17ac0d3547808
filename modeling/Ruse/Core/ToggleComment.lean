import Ruse.Core.Edit
import Ruse.Lib.Margins
import Ruse.Lib.Walk

/-!
# Toggling comments

The model of `toggle_comment` and `uncomment` in `crates/core/src/editor/format.rs`: the lines of
`gc` are wrapped in the parts around the `%s` of `'commentstring'`, or unwrapped where every line
that is not blank is commented. Unwrapping takes the longest run of blanks in front of the left
part, so blanks of the line that look like a left part of blanks only are taken for it
(`toggle_comment_twice`).
-/

namespace Ruse.Core.Comment

open Ruse.Lib

/-- `u8::is_ascii_whitespace`. -/
def ws (c : UInt8) : Bool := c == 32 || c == 9 || c == 10 || c == 12 || c == 13

/-- The parts around the first `%s`. -/
def parts : Bytes → Option (Bytes × Bytes)
  | [] => none
  | c :: rest =>
    if c = 0x25 ∧ rest.head? = some 0x73 then some ([], rest.tail)
    else (parts rest).map fun (left, right) => (c :: left, right)

/-- Blanks, the trimmed left part, anything, the trimmed right part, blanks. -/
def commented (lt rt l : Bytes) : Bool :=
  let body := trim ws l
  lt.length + rt.length ≤ body.length && lt.isPrefixOf body && rt.isSuffixOf body

/-- One line of the first pass: the shortest indent so far, and whether all are commented. -/
def scanLine (lt rt : Bytes) (s : Option Bytes × Bool) (l : Bytes) : Option Bytes × Bool :=
  let w := lead ws l
  if w < l.length then
    (if s.1.all (w < ·.length) then some (l.take w) else s.1, s.2 && commented lt rt l)
  else s

/-- The last place from `bs` on behind which are the right part and blanks. -/
def findEnd (l right : Bytes) (bs : Nat) : Option Nat :=
  searchDown (fun be =>
    if right.isPrefixOf (l.drop be) && (l.drop (be + right.length)).all ws then some be else none)
    bs (l.length + 1 - bs)

/-- `^(%s*)L(.*)R(%s-)$`: where the left part is, and the body, and where the right part ends. -/
def find (l left right : Bytes) : Option (Nat × Nat × Nat × Nat) :=
  searchDown (fun ind =>
    if left.isPrefixOf (l.drop ind) then
      let bs := ind + left.length
      (findEnd l right bs).map fun be => (ind, bs, be, be + right.length)
    else none) 0 (lead ws l + 1)

/-- A line without the exact parts, else without the trimmed ones; else as it is. -/
def uncomment (l left right lt rt : Bytes) : Bytes :=
  match (find l left right).or (find l lt rt) with
  | none => l
  | some (ind, bs, be, te) =>
    let body := slice l bs be
    if body.all ws then body else l.take ind ++ body ++ l.drop te

/-- A line within the parts, behind the indent; a blank one becomes the trimmed parts only. -/
def comment (indent left right lt rt l : Bytes) : Bytes :=
  if l.all ws then indent ++ lt ++ rt
  else indent ++ left ++ l.drop (min indent.length l.length) ++ right

def toggleComment (lines : List Bytes) (cms : Bytes) : Option (List Bytes) :=
  (parts cms).map fun (left, right) =>
    let lt := trim ws left
    let rt := trim ws right
    let (indent, all) := lines.foldl (scanLine lt rt) (none, true)
    if all then lines.map fun l => uncomment l left right lt rt
    else lines.map (comment (indent.getD []) left right lt rt)

/-! ## What is found -/

/-- The pattern `find` looks for, with its four captures. -/
structure Wraps (l left right a body tail : Bytes) : Prop where
  eq : l = a ++ left ++ body ++ right ++ tail
  head : Blank ws a
  tail : Blank ws tail

/-- The captures of the longest indent, and then the longest body. -/
structure Longest (l left right a body tail : Bytes) : Prop extends
    Wraps l left right a body tail where
  indent : ∀ {a' body' tail'}, Wraps l left right a' body' tail' → a'.length ≤ a.length
  body : ∀ {a' body' tail'}, Wraps l left right a' body' tail' → a'.length = a.length →
    body'.length ≤ body.length

section
variable {l left right a body tail : Bytes}

/-- A place `find` accepts. -/
def Fits (l left right : Bytes) (ind be : Nat) : Prop :=
  ind ≤ lead ws l ∧ left <+: l.drop ind ∧ ind + left.length ≤ be ∧ be ≤ l.length ∧
    right <+: l.drop be ∧ Blank ws (l.drop (be + right.length))

theorem Wraps.fits (h : Wraps l left right a body tail) :
    Fits l left right a.length (a.length + left.length + body.length) := by
  have hl := h.eq
  refine ⟨le_lead h.head ?_, ?_, Nat.le_add_right _ _, ?_, ?_, ?_⟩
  · simp [hl]
  · simp [hl]
  · simp only [hl, List.length_append]
    omega
  · rw [hl, ← List.length_append, ← List.length_append, List.append_assoc _ right, List.drop_left]
    exact List.prefix_append _ _
  · rw [hl, ← List.length_append, ← List.length_append, ← List.length_append, List.drop_left]
    exact h.tail

/-- What fits a line wraps the text between in the two markers. -/
theorem Fits.wraps {ind be : Nat} (h : Fits l left right ind be) :
    Wraps l left right (l.take ind) (slice l (ind + left.length) be) (l.drop (be + right.length)) ∧
      (l.take ind).length = ind ∧
      (slice l (ind + left.length) be).length = be - (ind + left.length) := by
  obtain ⟨hind, hleft, hbs, hbe, hright, htail⟩ := h
  refine ⟨⟨?_, (blank_take_lead l).sublist ?_, htail⟩, ?_, ?_⟩
  · obtain ⟨r, hr⟩ := hleft
    obtain ⟨t, ht⟩ := hright
    have hbody : l.drop (ind + left.length) = r := by rw [← List.drop_drop, ← hr, List.drop_left]
    have hlast : l.drop (be + right.length) = t := by rw [← List.drop_drop, ← ht, List.drop_left]
    have hmid : slice l (ind + left.length) be ++ l.drop be = r := by
      have hend : l.drop be = r.drop (be - (ind + left.length)) := by
        rw [← hbody, List.drop_drop, Nat.add_sub_cancel' hbs]
      rw [slice, hbody, hend, List.take_append_drop]
    rw [hlast, List.append_assoc _ right, ht, List.append_assoc _ _ (l.drop be), hmid,
      List.append_assoc, hr, List.take_append_drop]
  · exact (List.take_prefix_take_left hind).sublist
  · have := lead_le (p := ws) l
    rw [List.length_take]
    omega
  · rw [slice, List.length_take, List.length_drop]
    omega

theorem findEnd_eq_some {bs be : Nat} (h : findEnd l right bs = some be) :
    (bs ≤ be ∧ be ≤ l.length ∧ right <+: l.drop be ∧ Blank ws (l.drop (be + right.length))) ∧
      ∀ be', be < be' → be' ≤ l.length → right <+: l.drop be' →
        ¬ Blank ws (l.drop (be' + right.length)) := by
  obtain ⟨k, hlo, hk, hfk, habove⟩ := searchDown_eq_some h
  simp only [Option.ite_none_right_eq_some, Option.some.injEq, Bool.and_eq_true,
    List.isPrefixOf_iff_prefix, all_eq_true_iff] at hfk
  obtain ⟨⟨hright, htail⟩, rfl⟩ := hfk
  refine ⟨⟨hlo, by omega, hright, htail⟩, fun be' hbe' hle hright' htail' => ?_⟩
  have hnone := habove be' hbe' (by omega)
  simp [List.isPrefixOf_iff_prefix.mpr hright', all_eq_true_iff.mpr htail'] at hnone

theorem findEnd_isSome {bs be : Nat} (hbs : bs ≤ be) (hbe : be ≤ l.length)
    (hright : right <+: l.drop be) (htail : Blank ws (l.drop (be + right.length))) :
    ∃ be', findEnd l right bs = some be' := by
  refine Option.ne_none_iff_exists'.mp fun h => ?_
  have hnone := searchDown_eq_none h hbs (show be < bs + (l.length + 1 - bs) by omega)
  simp [List.isPrefixOf_iff_prefix.mpr hright, all_eq_true_iff.mpr htail] at hnone

theorem find_isSome (h : Wraps l left right a body tail) : ∃ m, find l left right = some m := by
  obtain ⟨hind, hleft, hbs, hbe, hright, htail⟩ := h.fits
  refine Option.ne_none_iff_exists'.mp fun hfind => ?_
  have hnone := searchDown_eq_none hfind (Nat.zero_le _) (show a.length < 0 + (lead ws l + 1) by omega)
  obtain ⟨be', hbe'⟩ := findEnd_isSome hbs hbe hright htail
  simp [List.isPrefixOf_iff_prefix.mpr hleft, hbe'] at hnone

/-- Of the spellings of the markers the longest that fits is found. -/
theorem find_longest {ind bs be te : Nat} (h : find l left right = some (ind, bs, be, te)) :
    Longest l left right (l.take ind) (slice l bs be) (l.drop te) := by
  obtain ⟨k, -, hk, hfk, habove⟩ := searchDown_eq_some h
  simp only [Option.ite_none_right_eq_some, Option.map_eq_some_iff, Prod.mk.injEq,
    List.isPrefixOf_iff_prefix] at hfk
  obtain ⟨hleft, be, hend, rfl, rfl, rfl, rfl⟩ := hfk
  obtain ⟨⟨hbs, hbe, hright, htail⟩, hmax⟩ := findEnd_eq_some hend
  obtain ⟨hwraps, hlen, hbody⟩ := Fits.wraps ⟨by omega, hleft, hbs, hbe, hright, htail⟩
  refine ⟨hwraps, fun {a'} _ _ h' => ?_, fun {a' body' _} h' ha' => ?_⟩
  · obtain ⟨hind', hleft', hbs', hbe', hright', htail'⟩ := h'.fits
    rw [hlen]
    by_contra hlt
    have hnone := habove a'.length (by omega) (by omega)
    obtain ⟨be', hfound⟩ := findEnd_isSome hbs' hbe' hright' htail'
    simp [List.isPrefixOf_iff_prefix.mpr hleft', hfound] at hnone
  · obtain ⟨-, -, -, hbe', hright', htail'⟩ := h'.fits
    rw [hlen] at ha'
    rw [ha'] at hbe' hright' htail'
    rw [hbody]
    by_contra hlt
    exact hmax _ (by omega) hbe' hright' htail'

/-- With nothing behind the right part and no longer indent, the captures are the longest ones. -/
theorem Longest.eq_of {a₀ body₀ : Bytes} (h : Longest l left right a body tail)
    (h₀ : Wraps l left right a₀ body₀ [])
    (hmax : ∀ {a' body' tail'}, Wraps l left right a' body' tail' → a'.length ≤ a₀.length) :
    a = a₀ ∧ body = body₀ ∧ tail = [] := by
  have ha : a₀.length = a.length := Nat.le_antisymm (h.indent h₀) (hmax h.toWraps)
  have hbody : body₀.length ≤ body.length := h.body h₀ ha
  have heq := h.eq.symm.trans h₀.eq
  simp only [List.append_assoc, List.append_nil] at heq
  obtain ⟨rfl, hrest⟩ := List.append_inj heq ha.symm
  replace hrest := List.append_cancel_left hrest
  have hlen := congrArg List.length hrest
  simp only [List.length_append] at hlen
  have htail : tail = [] := List.length_eq_zero_iff.mp (by omega)
  rw [htail, List.append_nil] at hrest
  exact ⟨rfl, List.append_cancel_right hrest, htail⟩

/-! ## Uncommenting -/

/-- What is left of a line whose captures are known. -/
def stripped (a body tail : Bytes) : Bytes := if Blank ws body then body else a ++ body ++ tail

/-- A line with either spelling of the markers is stripped of the longest. -/
theorem uncomment_wrapped {lt rt : Bytes}
    (h : Wraps l left right a body tail ∨ Wraps l lt rt a body tail) :
    ∃ a body tail, (Longest l left right a body tail ∨ Longest l lt rt a body tail) ∧
      uncomment l left right lt rt = stripped a body tail := by
  have hsome : ∃ m, (find l left right).or (find l lt rt) = some m := by
    cases hexact : find l left right with
    | some m => exact ⟨m, Option.some_or⟩
    | none =>
      rcases h with h | h
      · obtain ⟨m, hm⟩ := find_isSome h
        exact absurd (hexact.symm.trans hm) (Option.some_ne_none m).symm
      · exact (find_isSome h).imp fun m hm => by rw [hm, Option.none_or]
  obtain ⟨⟨ind, bs, be, te⟩, hm⟩ := hsome
  refine ⟨l.take ind, slice l bs be, l.drop te, ?_, ?_⟩
  · rcases Option.or_eq_some_iff.mp hm with hfind | ⟨-, hfind⟩
    · exact .inl (find_longest hfind)
    · exact .inr (find_longest hfind)
  · simp only [uncomment, hm, stripped, all_eq_true_iff]

theorem uncomment_exact (h : Wraps l left right a body tail) (lt rt : Bytes) :
    ∃ a body tail, Longest l left right a body tail ∧
      uncomment l left right lt rt = stripped a body tail := by
  obtain ⟨⟨ind, bs, be, te⟩, hm⟩ := find_isSome h
  refine ⟨_, _, _, find_longest hm, ?_⟩
  simp only [uncomment, hm, Option.some_or, stripped, all_eq_true_iff]

theorem Wraps.length_indent (h : Wraps l left right a body tail) (hleft : ¬ Blank ws left) :
    a.length + lead ws left = lead ws l := by
  rw [h.eq, List.append_assoc, List.append_assoc, List.append_assoc, lead_append h.head,
    lead_append_right hleft]

/-- A left part of blanks only is found among the blanks the line begins with. -/
theorem Wraps.length_le (h : Wraps l left right a body tail) (hleft : Blank ws left) :
    a.length + left.length ≤ lead ws l := by
  rw [h.eq, List.append_assoc, List.append_assoc, List.append_assoc, lead_append h.head,
    lead_append hleft]
  omega

variable {i rest : Bytes}

/-- A comment put around a text comes off again. -/
theorem uncomment_comment (hi : Blank ws i) (hrest : ¬ Blank ws rest)
    (hleft : left = [] ∨ ¬ Blank ws left) (right lt rt : Bytes) :
    uncomment (i ++ left ++ rest ++ right) left right lt rt = i ++ rest := by
  have hplain : Wraps (i ++ left ++ rest ++ right) left right i rest [] :=
    ⟨by rw [List.append_nil], hi, blank_nil⟩
  obtain ⟨a, body, tail, hlongest, heq⟩ := uncomment_exact hplain lt rt
  rw [heq]
  rcases hleft with rfl | hleft
  · -- with no left part, the rest's own blanks are taken for the indent
    have hlead := blank_take_lead (p := ws) rest
    have hle := lead_le (p := ws) rest
    have hsplit : Wraps (i ++ [] ++ rest ++ right) [] right (i ++ rest.take (lead ws rest))
        (rest.drop (lead ws rest)) [] :=
      ⟨by simp, blank_append.mpr ⟨hi, hlead⟩, blank_nil⟩
    obtain ⟨rfl, rfl, rfl⟩ := hlongest.eq_of hsplit fun h' => by
      have hmax := h'.length_le blank_nil
      rw [List.append_nil, List.append_assoc, lead_append hi, lead_append_right hrest] at hmax
      simp only [List.length_append, List.length_take, List.length_nil] at hmax ⊢
      omega
    have hbody : ¬ Blank ws (rest.drop (lead ws rest)) := by
      intro hblank
      refine hrest ?_
      rw [← List.take_append_drop (lead ws rest) rest]
      exact blank_append.mpr ⟨hlead, hblank⟩
    rw [stripped, if_neg hbody, List.append_nil, List.append_assoc, List.take_append_drop]
  · obtain ⟨rfl, rfl, rfl⟩ := hlongest.eq_of hplain fun h' => by
      have := h'.length_indent hleft
      have := hplain.length_indent hleft
      omega
    rw [stripped, if_neg hrest, List.append_nil]

/-- A line of the markers alone has nothing between them. -/
theorem Longest.body_nil {lt rt : Bytes} (hi : Blank ws i) (hlt : trim ws left = lt)
    (hrt : trim ws right = rt) (hleft : left = [] ∨ ¬ Blank ws left)
    (h : Longest (i ++ lt ++ rt) left right a body tail) : body = [] := by
  have hright : rt.length ≤ right.length := by
    obtain ⟨b, c, hr, -, -⟩ := exists_margins ws right
    rw [hr, hrt]
    simp only [List.length_append]
    omega
  have hlen := congrArg List.length h.eq
  simp only [List.length_append] at hlen
  rcases hleft with rfl | hleft
  · -- with no left part the longest indent takes in all blanks before the right part
    obtain rfl : lt = [] := hlt.symm
    obtain ⟨b, c, hr, hb, -⟩ := exists_margins ws right
    have hrlen := congrArg List.length hr
    rw [hrt] at hrlen
    simp only [List.length_append] at hrlen
    have hline := h.eq
    simp only [List.append_nil] at hline hlen
    have hblank : Blank ws (a ++ body) := by
      have hpre : a ++ body <+: i ++ rt := ⟨right ++ tail, by rw [hline, List.append_assoc _ right]⟩
      refine hi.sublist (List.prefix_of_prefix_length_le hpre (List.prefix_append i rt) ?_).sublist
      simp only [List.length_append, List.length_nil] at hlen ⊢
      omega
    have hwider : Wraps (i ++ [] ++ rt) [] right (a ++ body) [] tail :=
      ⟨by simp [hline], hblank, h.tail⟩
    have hmax := h.indent hwider
    rw [List.length_append] at hmax
    exact List.length_eq_zero_iff.mp (by omega)
  · have hlt' : lt ≠ [] := fun hnil => hleft (trim_eq_nil_iff.mp (hlt.trans hnil))
    obtain ⟨b, c, hl, hb, -⟩ := exists_margins ws left
    rw [hlt] at hl
    have hind := h.length_indent hleft
    rw [lead_margins hi (hlt ▸ trimmed_trim left) hlt', hl,
      lead_margins hb (hlt ▸ trimmed_trim left) hlt'] at hind
    have hllen := congrArg List.length hl
    simp only [List.length_append] at hllen
    exact List.length_eq_zero_iff.mp (by omega)

end

/-! ## The first pass -/

section
variable {lt rt i l : Bytes} {lines : List Bytes}

theorem scanLine_snd (s : Option Bytes × Bool) (l : Bytes) :
    (scanLine lt rt s l).2 = (s.2 && (decide (Blank ws l) || commented lt rt l)) := by
  unfold scanLine
  by_cases hl : Blank ws l
  · simp [lead_lt_iff, hl]
  · simp [lead_lt_iff, hl]

theorem scan_snd (s : Option Bytes × Bool) (lines : List Bytes) :
    (lines.foldl (scanLine lt rt) s).2 =
      (s.2 && lines.all fun l => decide (Blank ws l) || commented lt rt l) := by
  induction lines generalizing s with
  | nil => simp
  | cons l lines ih => rw [List.foldl_cons, ih, scanLine_snd, List.all_cons, Bool.and_assoc]

/-- The scan keeps the indent shared by the lines read. -/
theorem scanLine_fst (lt rt : Bytes) {s : Option Bytes × Bool} (hi : Blank ws i) (hshare : ¬ Blank ws l → i <+: l)
    (hs : ∀ j, s.1 = some j → i <+: j) :
    (∀ j, (scanLine lt rt s l).1 = some j → i <+: j) ∧
      (s.1 = some i ∨ ¬ Blank ws l ∧ l.take (lead ws l) = i → (scanLine lt rt s l).1 = some i) := by
  by_cases hl : Blank ws l
  · have hkeep : scanLine lt rt s l = s := if_neg (fun h => lead_lt_iff.mp h hl)
    rw [hkeep]
    exact ⟨hs, fun h => h.resolve_right fun h => h.1 hl⟩
  · have hpre : i <+: l.take (lead ws l) := by
      rw [List.prefix_iff_eq_take.mp (hshare hl)]
      exact List.take_prefix_take_left (le_lead hi (hshare hl))
    have hfst : (scanLine lt rt s l).1 =
        if s.1.all (lead ws l < ·.length) then some (l.take (lead ws l)) else s.1 := by
      rw [scanLine, if_pos (lead_lt_iff.mpr hl)]
    rw [hfst]
    refine ⟨fun j hj => ?_, fun h => ?_⟩
    · split at hj
      · exact Option.some.inj hj ▸ hpre
      · exact hs j hj
    · split
      · rename_i hshorter
        rcases h with h | ⟨-, h⟩
        · -- no line's indent is shorter than the shared one
          have hle := le_lead hi (hshare hl)
          rw [h] at hshorter
          simp only [Option.all_some, decide_eq_true_eq] at hshorter
          omega
        · rw [h]
      · rename_i hlonger
        rcases h with h | ⟨-, h⟩
        · exact h
        · cases hj : s.1 with
          | none => simp [hj] at hlonger
          | some j =>
            simp only [hj, Option.all_some, decide_eq_true_eq] at hlonger
            have hlen := lead_le (p := ws) l
            rw [(hs j hj).eq_of_length_le (by rw [← h, List.length_take]; omega)]

theorem scan_fst (lt rt : Bytes) {s : Option Bytes × Bool} (hi : Blank ws i)
    (hshare : ∀ l ∈ lines, ¬ Blank ws l → i <+: l) (hs : ∀ j, s.1 = some j → i <+: j)
    (hmem : s.1 = some i ∨ ∃ l ∈ lines, ¬ Blank ws l ∧ l.take (lead ws l) = i) :
    (lines.foldl (scanLine lt rt) s).1 = some i := by
  induction lines generalizing s with
  | nil => simpa using hmem
  | cons l lines ih =>
    obtain ⟨hhead, htail⟩ := List.forall_mem_cons.mp hshare
    obtain ⟨hnext, hseen⟩ := scanLine_fst lt rt hi hhead hs
    rw [List.foldl_cons]
    refine ih htail hnext ?_
    rcases hmem with hmem | ⟨l', hl', hmem⟩
    · exact .inl (hseen (.inl hmem))
    · rcases List.mem_cons.mp hl' with rfl | hl'
      · exact .inl (hseen (.inr hmem))
      · exact .inr ⟨l', hl', hmem⟩

end

/-! ## Twice -/

section
variable {cms left right i l : Bytes} {lines : List Bytes}

/-- Lines of which one has to be commented out, and the shortest indent, which all share. -/
structure Commentable (lt rt i : Bytes) (lines : List Bytes) : Prop where
  indent : ∃ l ∈ lines, ¬ Blank ws l ∧ l.take (lead ws l) = i
  shared : ∀ l ∈ lines, ¬ Blank ws l → i <+: l
  plain : ∃ l ∈ lines, ¬ Blank ws l ∧ commented lt rt l = false

theorem Commentable.blank {lt rt : Bytes} (h : Commentable lt rt i lines) : Blank ws i := by
  obtain ⟨l, -, -, rfl⟩ := h.indent
  exact blank_take_lead l

theorem comment_blank (hl : Blank ws l) (lt rt : Bytes) : comment i left right lt rt l = i ++ lt ++ rt :=
  if_pos (all_eq_true_iff.mpr hl)

theorem comment_append {rest : Bytes} (hl : ¬ Blank ws (i ++ rest)) (lt rt : Bytes) :
    comment i left right lt rt (i ++ rest) = i ++ left ++ rest ++ right := by
  rw [comment, if_neg (fun h => hl (all_eq_true_iff.mp h)), Nat.min_eq_left (by simp), List.drop_left]

/-- A line wrapped in the markers is commented. -/
theorem commented_wrapped (ha : Blank ws i) (rest : Bytes) :
    commented (trim ws left) (trim ws right) (i ++ left ++ rest ++ right) = true := by
  obtain ⟨b, c, hleft, hb, -⟩ := exists_margins ws left
  obtain ⟨d, e, hright, -, he⟩ := exists_margins ws right
  set lt := trim ws left with hlt
  set rt := trim ws right with hrt
  have hltt : Trimmed ws lt := trimmed_trim left
  have hrtt : Trimmed ws rt := trimmed_trim right
  have hib := blank_append.mpr ⟨ha, hb⟩
  have hline : i ++ left ++ rest ++ right = (i ++ b) ++ (lt ++ (c ++ rest ++ d) ++ rt) ++ e := by
    rw [hleft, hright]
    simp
  have hpre : lt <+: trim ws (i ++ left ++ rest ++ right) := by
    have := prefix_trim hib hltt (c ++ rest ++ d ++ rt ++ e)
    rwa [show i ++ b ++ lt ++ (c ++ rest ++ d ++ rt ++ e) = i ++ left ++ rest ++ right by
      rw [hline]; simp] at this
  have hsuf : rt <:+ trim ws (i ++ left ++ rest ++ right) := by
    have := suffix_trim he hrtt (i ++ b ++ lt ++ c ++ rest ++ d)
    rwa [show i ++ b ++ lt ++ c ++ rest ++ d ++ rt ++ e = i ++ left ++ rest ++ right by
      rw [hline]; simp] at this
  have hlen : lt.length + rt.length ≤ (trim ws (i ++ left ++ rest ++ right)).length := by
    by_cases hlne : lt = []
    · simpa [hlne] using hsuf.length_le
    by_cases hrne : rt = []
    · simpa [hrne] using hpre.length_le
    · rw [hline, trim_margins hib (hltt.around hlne hrtt hrne) (by simp [hlne]) he]
      simp only [List.length_append]
      omega
  simp only [commented, Bool.and_eq_true, decide_eq_true_eq, List.isPrefixOf_iff_prefix,
    List.isSuffixOf_iff_suffix]
  exact ⟨⟨hlen, hpre⟩, hsuf⟩

/-- A line commented is recognized as such. -/
theorem commented_comment (hi : Blank ws i) (hpart : ¬ Blank ws left ∨ ¬ Blank ws right)
    (hl : ¬ Blank ws l → i <+: l) :
    commented (trim ws left) (trim ws right) (comment i left right (trim ws left) (trim ws right) l)
      = true := by
  by_cases hblank : Blank ws l
  · have hm : Trimmed ws (trim ws left ++ trim ws right) :=
      (trimmed_trim left).append (trimmed_trim right)
    have hne : trim ws left ++ trim ws right ≠ [] := by
      intro h
      obtain ⟨hlt, hrt⟩ := List.append_eq_nil_iff.mp h
      exact hpart.elim (· (trim_eq_nil_iff.mp hlt)) (· (trim_eq_nil_iff.mp hrt))
    have hcut := trim_margins hi hm hne blank_nil
    rw [List.append_nil] at hcut
    rw [comment_blank hblank, List.append_assoc]
    simp [commented, hcut, List.isPrefixOf_iff_prefix, List.isSuffixOf_iff_suffix]
  · obtain ⟨rest, rfl⟩ := hl hblank
    rw [comment_append hblank]
    exact commented_wrapped hi rest

/-- The first time comments out, the second time uncomments what the first one wrote. -/
theorem toggle_twice (hcms : parts cms = some (left, right))
    (hpart : ¬ Blank ws left ∨ ¬ Blank ws right)
    (h : Commentable (trim ws left) (trim ws right) i lines) :
    (toggleComment lines cms).bind (toggleComment · cms) = some (lines.map fun l =>
      uncomment (comment i left right (trim ws left) (trim ws right) l) left right (trim ws left)
        (trim ws right)) := by
  obtain ⟨l, hl, hblank, hplain⟩ := h.plain
  have hfst := scan_fst (trim ws left) (trim ws right) (s := (none, true)) h.blank h.shared
    (fun j hj => absurd hj (Option.some_ne_none j).symm) (.inr h.indent)
  have hsnd : (lines.foldl (scanLine (trim ws left) (trim ws right)) (none, true)).2 = false := by
    rw [scan_snd, Bool.true_and, List.all_eq_false]
    exact ⟨l, hl, by simp [hblank, hplain]⟩
  have honce : toggleComment lines cms =
      some (lines.map (comment i left right (trim ws left) (trim ws right))) := by
    simp [toggleComment, hcms, hfst, hsnd]
  have hall : ((lines.map (comment i left right (trim ws left) (trim ws right))).foldl
      (scanLine (trim ws left) (trim ws right)) (none, true)).2 = true := by
    rw [scan_snd, Bool.true_and, List.all_eq_true]
    intro m hm
    obtain ⟨l, hl, rfl⟩ := List.mem_map.mp hm
    rw [commented_comment h.blank hpart (h.shared l hl), Bool.or_true]
  rw [honce, Option.bind_some]
  simp [toggleComment, hcms, hall]

/-- Markers without text between are taken off whole. -/
theorem uncomment_blank (hi : Blank ws i) (hleft : left = [] ∨ ¬ Blank ws left) :
    uncomment (i ++ trim ws left ++ trim ws right) left right (trim ws left) (trim ws right) = [] := by
  have htrim (l : Bytes) : trim ws (trim ws l) = trim ws l := by
    by_cases hne : trim ws l = []
    · rw [hne]
      rfl
    · simpa using trim_margins (blank_nil (p := ws)) (trimmed_trim l) hne (blank_nil (p := ws))
  have hplain : Wraps (i ++ trim ws left ++ trim ws right) (trim ws left) (trim ws right) i [] [] :=
    ⟨by simp, hi, blank_nil⟩
  obtain ⟨a, body, tail, hlongest, heq⟩ := uncomment_wrapped (.inr hplain)
  have hbody : body = [] := by
    rcases hlongest with h | h
    · exact h.body_nil hi rfl rfl hleft
    · refine h.body_nil hi (htrim left) (htrim right) ?_
      rcases hleft with rfl | hleft
      · exact .inl rfl
      · exact .inr ((trimmed_trim left).not_blank fun h => hleft (trim_eq_nil_iff.mp h))
  rw [heq, hbody]
  rfl

/-- A blank in front of a line's own copy of the left part comes back behind the left part. -/
theorem uncomment_rotates {z y : UInt8} (hleft : Blank ws left) (hz : ws z = true)
    (hy : ws y = false) (right lt rt : Bytes) :
    uncomment (left ++ (z :: (left ++ [y])) ++ right) left right lt rt = left ++ [z, y] := by
  have hplain : Wraps (left ++ (z :: (left ++ [y])) ++ right) left right (left ++ [z]) [y] [] :=
    ⟨by simp, blank_append.mpr ⟨hleft, by simpa [Blank] using hz⟩, blank_nil⟩
  have hrest : ¬ Blank ws [y] := by simp [Blank, hy]
  obtain ⟨a, body, tail, hlongest, heq⟩ := uncomment_exact hplain lt rt
  obtain ⟨rfl, rfl, rfl⟩ := hlongest.eq_of hplain fun h' => by
    have hle := h'.length_le hleft
    have hlead : lead ws (left ++ (z :: (left ++ [y])) ++ right) = left.length + 1 + left.length := by
      have hblank : Blank ws (left ++ [z] ++ left) := blank_append.mpr
        ⟨blank_append.mpr ⟨hleft, by simpa [Blank] using hz⟩, hleft⟩
      have hline : left ++ (z :: (left ++ [y])) ++ right = left ++ [z] ++ left ++ ([y] ++ right) := by
        simp
      rw [hline, lead_append hblank, lead_append_right hrest]
      simp [lead, hy]
      omega
    rw [List.length_append, List.length_singleton]
    omega
  rw [heq, stripped, if_neg hrest]
  simp

end

/-- `gc` undoes itself, for each `'commentstring'` with a part that is not blank, if and only if
its left part is empty or is not blank either: the lines come back byte for byte and the blank
ones are empty. -/
theorem toggle_comment_twice (cms left right : Bytes) (hcms : parts cms = some (left, right))
    (hpart : ¬ Blank ws left ∨ ¬ Blank ws right) :
    (left = [] ∨ ¬ Blank ws left) ↔
      ∀ lines i, Commentable (trim ws left) (trim ws right) i lines →
        (toggleComment lines cms).bind (toggleComment · cms) =
          some (lines.map fun l => if Blank ws l then [] else l) := by
  constructor
  · intro hleft lines i h
    rw [toggle_twice hcms hpart h]
    refine congrArg some (List.map_congr_left fun l hl => ?_)
    by_cases hblank : Blank ws l
    · rw [comment_blank hblank, uncomment_blank h.blank hleft, if_pos hblank]
    · obtain ⟨rest, rfl⟩ := h.shared l hl hblank
      have hrest : ¬ Blank ws rest := fun hr => hblank (blank_append.mpr ⟨h.blank, hr⟩)
      rw [comment_append hblank, uncomment_comment h.blank hrest hleft, if_neg hblank]
  · intro h
    by_contra hall
    obtain ⟨hne, hleft⟩ := not_or.mp hall
    rw [Decidable.not_not] at hleft
    have hright : ¬ Blank ws right := hpart.resolve_left fun h => h hleft
    have hrne : trim ws right ≠ [] := fun hnil => hright (trim_eq_nil_iff.mp hnil)
    -- a blank the left part does not begin with, and a letter the right part does not end in
    obtain ⟨z, hz, hzl⟩ : ∃ z, ws z = true ∧ z ≠ left.head hne := by
      by_cases hspace : left.head hne = 32
      · exact ⟨9, rfl, by rw [hspace]; decide⟩
      · exact ⟨32, rfl, Ne.symm hspace⟩
    obtain ⟨y, hy, hyr⟩ : ∃ y, ws y = false ∧ y ≠ (trim ws right).getLast hrne := by
      by_cases hletter : (trim ws right).getLast hrne = 0x61
      · exact ⟨0x62, rfl, by rw [hletter]; decide⟩
      · exact ⟨0x61, rfl, Ne.symm hletter⟩
    have hyb : ¬ Blank ws [y] := by simp [Blank, hy]
    have hline : ¬ Blank ws (z :: (left ++ [y])) := by
      simp [Blank, hy]
    have hlines : Commentable (trim ws left) (trim ws right) [] [[y], z :: (left ++ [y])] := by
      refine ⟨⟨[y], by simp, hyb, by simp [lead, hy]⟩, fun l _ _ => List.nil_prefix,
        ⟨[y], by simp, hyb, ?_⟩⟩
      have htrim : trim ws [y] = [y] := by simp [trim, hy]
      have hnot : ¬ trim ws right <:+ [y] := by
        rintro ⟨t, ht⟩
        refine hyr ?_
        have hlast := List.getLast_append_of_ne_nil (l := t) (by simp [hrne]) hrne
        rw [← hlast]
        simp [ht]
      have hno : (trim ws right).isSuffixOf [y] = false :=
        Bool.eq_false_iff.mpr fun h => hnot (List.isSuffixOf_iff_suffix.mp h)
      rw [commented, htrim, hno, Bool.and_false]
    have heq := (h _ _ hlines).symm.trans (toggle_twice hcms hpart hlines)
    simp only [List.map_cons, List.map_nil, Option.some.injEq, List.cons.injEq, and_true] at heq
    have hsecond := heq.2
    rw [if_neg hline, ← List.nil_append (z :: _), comment_append hline, List.nil_append, List.nil_append,
      uncomment_rotates hleft hz hy] at hsecond
    obtain ⟨x, xs, rfl⟩ := List.exists_cons_of_ne_nil hne
    exact hzl (List.cons.inj hsecond).1

/-- `# %s` on a line, a blank one and a deeper one. -/
theorem toggle_comment_twice_hash :
    (toggleComment [[0x20, 0x78], [0x09], [0x20, 0x20, 0x79]] [0x23, 0x20, 0x25, 0x73]).bind
      (toggleComment · [0x23, 0x20, 0x25, 0x73]) = some [[0x20, 0x78], [], [0x20, 0x20, 0x79]] :=
  (toggle_comment_twice [0x23, 0x20, 0x25, 0x73] [0x23, 0x20] [] rfl (.inl (by decide))).mp
    (.inr (by decide)) [[0x20, 0x78], [0x09], [0x20, 0x20, 0x79]] [0x20]
    ⟨by decide, by decide, by decide⟩

/-- With ` %s#` the blanks of a line `TAB SPACE x` come back as `SPACE TAB`. -/
theorem toggle_comment_blank_left :
    parts [0x20, 0x25, 0x73, 0x23] = some ([0x20], [0x23]) ∧ ¬ Blank ws [0x23] ∧
      Commentable (trim ws [0x20]) (trim ws [0x23]) [] [[0x79], [0x09, 0x20, 0x78]] ∧
      (toggleComment [[0x79], [0x09, 0x20, 0x78]] [0x20, 0x25, 0x73, 0x23]).bind
        (toggleComment · [0x20, 0x25, 0x73, 0x23]) = some [[0x79], [0x20, 0x09, 0x78]] :=
  ⟨rfl, by decide, ⟨by decide, by decide, by decide⟩, rfl⟩

end Ruse.Core.Comment
