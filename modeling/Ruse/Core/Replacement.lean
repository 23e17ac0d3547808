import Ruse.Core.Hay

/-!
# The replacement of `:s`

The text helpers of `editor/substitute.rs` around the scan: `expand_replacement` with its
case modifiers, one pending substitution, and `apply_substitutions` of `editor/mod.rs` on
the text.

`subsApply_iff` reads off when the substitutions apply: in order, and no two that change
something at one place. `expandReplacement_nil` compares the replacement of an empty match
with that of any other.
-/

namespace Ruse.Core

/-- `str::chars`, from the byte `i` on. -/
def charsFrom (b : Bytes) (i : Nat) : List Char :=
  match _h : charLenAt b i with
  | some w => Char.ofNat (codePoint (slice b i (i + w))) :: charsFrom b (i + w)
  | none => []
termination_by b.length - i
decreasing_by
  have hle := charLenAt_le _h
  have hpos := charLenAt_pos _h
  omega

/-! ## Expansion -/

/-- The case transform of the replacement expander. -/
inductive Case where
  | upper
  | lower
deriving DecidableEq, Repr

/-- `vim_toupper` and `vim_tolower`: one character to one. -/
structure CaseMap where
  upper : Char → Char
  lower : Char → Char

/-- `\u` and `\l` wait for the next character; `\U` and `\L` hold until `\e`. -/
structure CaseState where
  pending : Option Case := none
  region : Option Case := none
deriving DecidableEq, Repr

/-- What an item of the replacement does: it emits text, or sets a modifier. -/
inductive Piece where
  | text (s : List Char)
  | pending (case : Case)
  | region (case : Option Case)

/-- The item `\c`. -/
def escapePiece (matched : List Char) (c : Char) : Piece :=
  match c with
  | '0' => .text matched
  | 'n' => .text ['\x00']
  | 't' => .text ['\t']
  | 'r' => .text ['\n']
  | 'u' => .pending .upper
  | 'l' => .pending .lower
  | 'U' => .region (some .upper)
  | 'L' => .region (some .lower)
  | 'e' => .region none
  | 'E' => .region none
  -- `\<CR>`, `\&`, `\\` and a digit emit the character itself
  | other => .text [other]

/-- The item `c`, not after a backslash. -/
def plainPiece (matched : List Char) (c : Char) : Piece :=
  match c with
  | '&' => .text matched
  | '\r' => .text ['\n']
  | other => .text [other]

namespace CaseState

/-- The pending case goes to the first character, the region's to the others. -/
def emit (maps : CaseMap) : CaseState → List Char → CaseState × Bytes
  | st, [] => (st, [])
  | st, c :: s =>
    let cased := match st.pending.or st.region with
      | some .upper => maps.upper c
      | some .lower => maps.lower c
      | none => c
    let (st, out) := emit maps { st with pending := none } s
    (st, String.utf8EncodeChar cased ++ out)

def take (maps : CaseMap) (st : CaseState) : Piece → CaseState × Bytes
  | .text s => st.emit maps s
  | .pending case => ({ st with pending := some case }, [])
  | .region case => ({ st with region := case }, [])

end CaseState

/-- The loop of `expand_replacement`. -/
def expandFrom (maps : CaseMap) (matched : List Char) : CaseState → List Char → Bytes
  | _, [] => []
  | st, ['\\'] => (st.emit maps ['\\']).2
  | st, '\\' :: c :: rest =>
    let (st, out) := st.take maps (escapePiece matched c)
    out ++ expandFrom maps matched st rest
  | st, c :: rest =>
    let (st, out) := st.take maps (plainPiece matched c)
    out ++ expandFrom maps matched st rest

/-- The replacement text for a match. -/
def expandReplacement (maps : CaseMap) (replacement : List Char) (matched : Bytes) : Bytes :=
  expandFrom maps (charsFrom matched 0) {} replacement

/-! ## Substitutions -/

/-- One pending substitution: the span, its new bytes, and the line of the match. -/
structure Substitution where
  start : Nat
  stop : Nat
  replacement : Bytes
  line : Nat
deriving DecidableEq, Repr

/-- What a `:s` did. -/
structure SubOutcome where
  replacements : Nat
  lines : Nat
deriving DecidableEq, Repr

def Substitution.edit (s : Substitution) : Edit := .replace s.start (s.stop - s.start) s.replacement

/-- The text after the substitutions; `none` is a failed `expect`. -/
def applySubstitutions (b : Bytes) (subs : List Substitution) : Option (Bytes × SubOutcome) :=
  if subs = [] then some (b, ⟨0, 0⟩)
  else
    match EditList.new (subs.map Substitution.edit) with
    | .ok l =>
      if l.InBounds b.length then
        some (l.applyTo b, ⟨subs.length, (subs.map Substitution.line).dedup.length⟩)
      else none
    | .error _ => none

/-- The substitutions are in order, and they apply. -/
def SubsApply (b : Bytes) (subs : List Substitution) : Prop :=
  subs.Pairwise (fun s s' => s.stop ≤ s'.start) ∧ (applySubstitutions b subs).isSome = true

instance (b : Bytes) (subs : List Substitution) : Decidable (SubsApply b subs) :=
  inferInstanceAs (Decidable (_ ∧ _))

/-! ## Empty replacements -/

namespace CaseState

theorem emit_nil (maps : CaseMap) (st : CaseState) (s : List Char) :
    (st.emit maps s).2 = [] ↔ s = [] := by
  cases s with
  | nil => simp [emit]
  | cons c s => simp [emit]

theorem take_nil (maps : CaseMap) (st : CaseState) (piece : Piece) :
    (st.take maps piece).2 = [] ↔ ∀ s, piece = .text s → s = [] := by
  cases piece with
  | text s => simp [take, emit_nil]
  | pending case => simp [take]
  | region case => simp [take]

end CaseState

/-- An item that emits nothing for some match emits nothing for the empty one. -/
theorem escapePiece_nil {matched s : List Char} {c : Char}
    (h : ∀ s, escapePiece matched c = .text s → s = []) (hs : escapePiece [] c = .text s) :
    s = [] := by
  unfold escapePiece at h hs
  split at hs <;> cases hs
  · rfl
  all_goals simp_all

theorem plainPiece_nil {matched s : List Char} {c : Char}
    (h : ∀ s, plainPiece matched c = .text s → s = []) (hs : plainPiece [] c = .text s) :
    s = [] := by
  unfold plainPiece at h hs
  split at hs <;> cases hs
  · rfl
  all_goals simp_all

/-- A replacement that is empty for some match is empty for the empty one. -/
theorem expandFrom_nil {maps : CaseMap} {matched : List Char} {st : CaseState} {rep : List Char}
    (h : expandFrom maps matched st rep = []) (st' : CaseState) : expandFrom maps [] st' rep = [] := by
  induction st, rep using expandFrom.induct maps matched generalizing st' with
  | case1 st => rfl
  | case2 st =>
    rw [expandFrom, CaseState.emit_nil] at h
    cases h
  | case3 st c rest st₁ out htake ih =>
    rw [expandFrom, htake, List.append_eq_nil_iff] at h
    have hout : (st.take maps (escapePiece matched c)).2 = [] := by rw [htake]; exact h.1
    have hout' : (st'.take maps (escapePiece [] c)).2 = [] :=
      (CaseState.take_nil _ _ _).mpr fun s hs =>
        escapePiece_nil ((CaseState.take_nil _ _ _).mp hout) hs
    rw [expandFrom]
    show (st'.take maps _).2 ++ expandFrom maps [] (st'.take maps _).1 rest = []
    rw [hout', ih h.2, List.append_nil]
  | case4 st c rest hone hmany st₁ out htake ih =>
    rw [expandFrom.eq_4 _ _ _ _ _ hone hmany, htake, List.append_eq_nil_iff] at h
    have hout : (st.take maps (plainPiece matched c)).2 = [] := by rw [htake]; exact h.1
    have hout' : (st'.take maps (plainPiece [] c)).2 = [] :=
      (CaseState.take_nil _ _ _).mpr fun s hs =>
        plainPiece_nil ((CaseState.take_nil _ _ _).mp hout) hs
    rw [expandFrom.eq_4 _ _ _ _ _ hone hmany]
    show (st'.take maps _).2 ++ expandFrom maps [] (st'.take maps _).1 rest = []
    rw [hout', ih h.2, List.append_nil]

theorem expandReplacement_ne_nil {maps : CaseMap} {replacement : List Char}
    (h : expandReplacement maps replacement [] ≠ []) (matched : Bytes) :
    expandReplacement maps replacement matched ≠ [] := by
  intro hnil
  have hchars : charsFrom [] 0 = [] := by
    unfold charsFrom
    split
    · rename_i w hw
      have := charLenAt_le hw
      have := charLenAt_pos hw
      rw [List.length_nil] at *
      omega
    · rfl
  rw [expandReplacement, hchars] at h
  exact h (expandFrom_nil hnil _)

/-- Only an empty text unspells to nothing. -/
theorem unspell_eq_nil {s : Bytes} (hv : ValidUtf8 s) : unspell s = [] ↔ s = [] := by
  constructor
  · intro h
    by_contra hne
    obtain ⟨w, hw, -⟩ := hv.char_of_boundary (.inl rfl) (List.length_pos_iff.mpr hne)
    rw [unspell, unspellFrom_some hw, List.append_eq_nil_iff] at h
    have hpos := charLenAt_pos hw
    have hlen := slice_length (Nat.le_add_right 0 w) (charLenAt_le hw)
    split at h
    · cases h.1
    · rw [h.1, List.length_nil] at hlen
      omega
  · rintro rfl
    have hnone : charLenAt [] 0 = none := by decide
    rw [unspell, unspellFrom]
    split
    · rename_i hw
      rw [hnone] at hw
      cases hw
    · rfl

/-! ## When the substitutions apply -/

/-- Ordered edits form a list exactly when no two that change something share a start. -/
theorem EditList.new_ok_iff {es : List Edit} (horder : es.Pairwise fun a b => a.endPos ≤ b.pos) :
    (∃ l, EditList.new es = .ok l) ↔
      es.Pairwise fun a b => a.Changes → b.Changes → a.pos ≠ b.pos := by
  have hkept : kept es = es.filter fun e => decide e.Changes := by
    refine List.Pairwise.insertionSort_eq ((horder.filter _).imp fun {a b} hab => ?_)
    have := a.pos_le_endPos
    omega
  have hnew : (∃ l, EditList.new es = .ok l) ↔ firstOverlap (kept es) = none := by
    unfold EditList.new
    split
    · rename_i e he
      simp [he]
    · rename_i he
      simp [he]
  rw [hnew, hkept]
  constructor
  · intro h
    have hsorted := List.pairwise_filter.mp (sorted_of_firstOverlap h)
    refine hsorted.imp fun {a b} hab ha hb => ?_
    have := (hab (decide_eq_true ha) (decide_eq_true hb)).1
    omega
  · intro h
    refine firstOverlap_of_sorted (List.pairwise_filter.mpr ?_)
    refine (horder.and h).imp fun {a b} hab ha hb => ?_
    have hne := hab.2 (of_decide_eq_true ha) (of_decide_eq_true hb)
    have := a.pos_le_endPos
    exact ⟨by omega, hab.1⟩

theorem EditList.mem_of_new {es : List Edit} {l : EditList} (h : EditList.new es = .ok l) {e : Edit}
    (he : e ∈ l.edits) : e ∈ es := by
  unfold EditList.new at h
  split at h
  · cases h
  · cases h
    exact List.mem_of_mem_filter ((List.perm_insertionSort _ _).mem_iff.mp he)

/-- `s` ends before `s'` begins, and they do not both change the text at one place. -/
def Substitution.Apart (s s' : Substitution) : Prop :=
  s.stop ≤ s'.start ∧ (s.edit.Changes → s'.edit.Changes → s.start ≠ s'.start)

/-- Substitutions are an edit list exactly where they lie apart. -/
theorem subsApply_iff {b : Bytes} {subs : List Substitution}
    (hin : ∀ s ∈ subs, s.start ≤ s.stop ∧ s.stop ≤ b.length) :
    SubsApply b subs ↔ subs.Pairwise Substitution.Apart := by
  have hend : ∀ s ∈ subs, s.edit.endPos = s.stop := fun s hs => by
    have := (hin s hs).1
    show s.start + (s.stop - s.start) = s.stop
    omega
  have hlist : subs.Pairwise (fun s s' => s.stop ≤ s'.start) →
      ((applySubstitutions b subs).isSome = true ↔
        subs.Pairwise fun s s' => s.edit.Changes → s'.edit.Changes → s.start ≠ s'.start) := by
    intro horder
    have hedits : (subs.map Substitution.edit).Pairwise fun a b => a.endPos ≤ b.pos := by
      refine List.pairwise_map.mpr (horder.imp_of_mem fun {s s'} hs _ hss => ?_)
      rw [hend s hs]
      exact hss
    have hnew := EditList.new_ok_iff hedits
    rw [List.pairwise_map] at hnew
    refine Iff.trans ?_ hnew
    unfold applySubstitutions
    split
    · rename_i hnil
      rw [hnil]
      exact ⟨fun _ => ⟨EditList.empty, rfl⟩, fun _ => rfl⟩
    · cases hl : EditList.new (subs.map Substitution.edit) with
      | error e => simp
      | ok l =>
        have hbounds : l.InBounds b.length := fun e he => by
          obtain ⟨s, hs, rfl⟩ := List.mem_map.mp (EditList.mem_of_new hl he)
          rw [hend s hs]
          exact (hin s hs).2
        simp [hbounds]
  constructor
  · rintro ⟨horder, happly⟩
    exact (horder.and ((hlist horder).mp happly))
  · intro h
    have horder : subs.Pairwise fun s s' => s.stop ≤ s'.start := h.imp And.left
    exact ⟨horder, (hlist horder).mpr (h.imp And.right)⟩

end Ruse.Core
