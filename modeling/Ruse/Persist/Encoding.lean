import Ruse.Core.Pos
import Ruse.Persist.Rj01
import Mathlib.Data.List.DropRight

/-!
# Line endings and the byte-order mark

The model of `apps/tui/src/persist/encoding.rs`: a file's style is detected once
(`detectWith`), stripped for the buffer (`toBuffer`) and restored on a save (`toDisk`).

A newline is bare when no carriage return stands before it. A file is read as `dos` only
without a bare newline (`eolOf_spec`), and then `expandLf` puts back what `foldCrlf` took
(`expand_fold`); the other way round nothing is needed (`fold_expand`).
-/

namespace Ruse.Persist

open Ruse.Core

variable {b : Bytes} {eol : Eol}

def carriage : UInt8 := 13

/-- The DOS end-of-file byte `'endoffile'` stands for. -/
def ctrlZ : UInt8 := 0x1A

def bomBytes : Bytes := [0xEF, 0xBB, 0xBF]

/-! ## The formats of an option value -/

/-- The `'fileformat'` called `name`. -/
def Eol.fromName (name : List Char) : Option Eol :=
  if name = "unix".toList then some .lf
  else if name = "dos".toList then some .crlf
  else if name = "mac".toList then some .cr
  else none

/-- Unicode's `White_Space`. -/
def isWhitespace (c : Char) : Bool :=
  let n := c.toNat
  (9 ≤ n && n ≤ 13) || n == 0x20 || n == 0x85 || n == 0xA0 || n == 0x1680 ||
    (0x2000 ≤ n && n ≤ 0x200A) || n == 0x2028 || n == 0x2029 || n == 0x202F || n == 0x205F ||
    n == 0x3000

/-- `str::trim`. -/
def trim (s : List Char) : List Char := (s.dropWhile isWhitespace).rdropWhile isWhitespace

/-- The formats `'fileformats'` lists. -/
def listed (ffs : List Char) : List Eol :=
  (ffs.splitOn ',').filterMap fun n => Eol.fromName (trim n)

/-! ## Detecting -/

/-- How many `\r\n` there are. -/
def countCrlf (body : Bytes) : Nat :=
  (body.zip body.tail).countP fun p => p.1 == carriage && p.2 == newline

/-- The line ending of `body` under the formats listed. -/
def eolOf (body : Bytes) (formats : List Eol) (default : Eol) : Eol :=
  let crlf := countCrlf body
  let lfTotal := countNewlines body
  let bareLf := lfTotal - crlf
  match formats with
  | [] => default
  | [one] => one
  | first :: rest =>
    let has (e : Eol) : Bool := (first :: rest).contains e
    if has .crlf ∧ crlf > 0 ∧ bareLf = 0 then .crlf
    else if lfTotal > 0 ∧ has .lf then .lf
    else if lfTotal = 0 ∧ has .cr ∧ body.contains carriage then .cr
    else if lfTotal > 0 ∧ has .crlf then .crlf
    else first

namespace FileFormat

/-- The file after a byte-order mark. -/
def bodyOf (raw : Bytes) : Bytes := if bomBytes <+: raw then raw.drop bomBytes.length else raw

/-- The style of the file `raw` under `'fileformats'` `ffs` and `'fileformat'` `default`. -/
def detectWith (raw : Bytes) (ffs : List Char) (default : Eol) : FileFormat :=
  let body := bodyOf raw
  let eol := eolOf body (listed ffs) default
  let eof := eol == .crlf && body.getLast? == some ctrlZ
  -- the Ctrl-Z is no part of the last line
  let body := if eof then body.take (body.length - 1) else body
  let last := if eol = .cr then carriage else newline
  { eol
    bom := decide (bomBytes <+: raw)
    finalNewline := body.isEmpty || body.getLast? == some last
    eof
    binary := false }

/-- The style of the file `raw` under the default `'fileformats'`. -/
def detect (raw : Bytes) : FileFormat := detectWith raw "unix,dos".toList .lf

/-! ## Stripping and restoring -/

/-- Strip the carriage returns that stand before a newline. -/
def foldCrlf : Bytes → Bytes
  | [] => []
  | b :: rest => if b = carriage ∧ rest.head? = some newline then foldCrlf rest else b :: foldCrlf rest

/-- Put a carriage return before every newline. -/
def expandLf : Bytes → Bytes
  | [] => []
  | b :: rest => if b = newline then carriage :: b :: expandLf rest else b :: expandLf rest

/-- The line breaks of a file made newlines. -/
def strip (eol : Eol) (body : Bytes) : Bytes :=
  match eol with
  | .crlf => foldCrlf body
  | .cr => body.map fun b => if b = carriage then newline else b
  | .lf => body

/-- The newlines of a buffer made line breaks. -/
def restore (eol : Eol) (buffer : Bytes) : Bytes :=
  match eol with
  | .crlf => expandLf buffer
  | .cr => buffer.map fun b => if b = newline then carriage else b
  | .lf => buffer

/-- The bytes of the editor for the file `raw`. -/
def toBuffer (f : FileFormat) (raw : Bytes) : Bytes :=
  if f.binary then raw
  else
    let body := if f.bom ∧ bomBytes <+: raw then raw.drop bomBytes.length else raw
    let body := if body.getLast? = some ctrlZ ∧ f.eof then body.dropLast else body
    strip f.eol body

/-- The bytes of the file for the editor's `buffer`. -/
def toDisk (f : FileFormat) (buffer : Bytes) : Bytes :=
  if f.binary then buffer
  else
    let out := if f.bom then bomBytes else []
    let out := out ++ restore f.eol buffer
    if f.eof then out ++ [ctrlZ] else out

/-! ## Bare newlines -/

/-- The newlines of a text after the byte `p` that follow no carriage return. -/
def bare : UInt8 → Bytes → Nat
  | _, [] => 0
  | p, b :: rest => (if b = newline ∧ p ≠ carriage then 1 else 0) + bare b rest

theorem bare_append (p : UInt8) (b c : Bytes) : bare p b ≤ bare p (b ++ c) := by
  induction b generalizing p with
  | nil => exact Nat.zero_le _
  | cons x b ih =>
    have hrest := ih x
    show _ + bare x b ≤ _ + bare x (b ++ c)
    omega

/-- Every newline is bare or the end of a `\r\n`. -/
theorem count_newlines (p : UInt8) (b : Bytes) :
    countNewlines b = ((p :: b).zip b).countP (fun q => q.1 == carriage && q.2 == newline) + bare p b := by
  induction b generalizing p with
  | nil => rfl
  | cons x b ih =>
    have hrest := ih x
    simp only [countNewlines, List.count_cons, List.zip_cons_cons, List.countP_cons, bare] at hrest ⊢
    rw [hrest]
    by_cases hx : x = newline <;> by_cases hp : p = carriage <;> simp [hx, hp] <;> omega

/-- Without more newlines than `\r\n` none is bare. -/
theorem bare_eq_zero (h : countNewlines b - countCrlf b = 0) : bare 0 b = 0 := by
  have hcount := count_newlines 0 b
  have hcrlf : ((0 :: b).zip b).countP (fun q => q.1 == carriage && q.2 == newline) = countCrlf b := by
    cases b with
    | nil => rfl
    | cons x b =>
      rw [countCrlf, List.zip_cons_cons, List.countP_cons]
      rfl
  omega

theorem bare_of_not_mem (p : UInt8) (h : newline ∉ b) : bare p b = 0 := by
  induction b generalizing p with
  | nil => rfl
  | cons x b ih =>
    have hx : x ≠ newline := fun hx => h (hx ▸ List.mem_cons_self)
    rw [bare, ih x fun hb => h (List.mem_cons_of_mem _ hb), if_neg fun hc => hx hc.1]

/-- A text starts with a newline only where it is expanded with a carriage return. -/
theorem expandLf_head (b : Bytes) : (expandLf b).head? ≠ some newline := by
  cases b with
  | nil => exact fun h => by cases h
  | cons x b =>
    unfold expandLf
    split
    · exact fun h => by cases h
    · rename_i hx
      exact fun h => hx (Option.some.inj h)

/-- What a save puts in, a read takes out. -/
theorem fold_expand (b : Bytes) : foldCrlf (expandLf b) = b := by
  induction b with
  | nil => rfl
  | cons x b ih =>
    have hhead := expandLf_head b
    unfold expandLf
    split
    · rename_i hx
      subst hx
      rw [foldCrlf, if_pos ⟨rfl, rfl⟩, foldCrlf, if_neg (fun hc => absurd hc.1 (by decide)), ih]
    · rw [foldCrlf, if_neg fun hc => hhead hc.2, ih]

/-- And the other way round where no newline is bare. -/
theorem expand_fold {p : UInt8} (h : bare p b = 0) :
    expandLf (foldCrlf b) = if p = carriage ∧ b.head? = some newline then carriage :: b else b := by
  induction b generalizing p with
  | nil => simp [foldCrlf, expandLf]
  | cons x b ih =>
    have hrest : bare x b = 0 := by
      rw [bare] at h
      omega
    have hx : x = newline → p = carriage := by
      intro hx
      by_contra hp
      rw [bare, if_pos ⟨hx, hp⟩] at h
      omega
    unfold foldCrlf
    split
    · rename_i hcr
      obtain ⟨rfl, hhead⟩ := hcr
      have hcr : carriage ≠ newline := by decide
      rw [ih hrest, if_pos ⟨rfl, hhead⟩, if_neg fun hc => hcr (Option.some.inj hc.2)]
    · rename_i hkeep
      rw [expandLf, ih hrest, if_neg hkeep]
      by_cases hn : x = newline
      · rw [if_pos hn, if_pos ⟨hx hn, by rw [hn]; rfl⟩]
      · rw [if_neg hn, if_neg fun hc => hn (Option.some.inj hc.2)]

theorem foldCrlf_getLast? (b : Bytes) : (foldCrlf b).getLast? = b.getLast? := by
  induction b with
  | nil => rfl
  | cons x b ih =>
    unfold foldCrlf
    split
    · rename_i hcr
      cases b with
      | nil => cases hcr.2
      | cons y b => rw [ih, List.getLast?_cons_cons]
    · rw [List.getLast?_cons, List.getLast?_cons, ih]

/-! ## The round trips -/

/-- With `unix` listed, a file read as `dos` has no bare newline, and one read as `mac`
has no newline. -/
theorem eolOf_spec {formats : List Eol} (h : Eol.lf ∈ formats) (body : Bytes) (default : Eol) :
    (eolOf body formats default = .crlf → bare 0 body = 0) ∧
    (eolOf body formats default = .cr → newline ∉ body) := by
  have hnone (hzero : ¬ countNewlines body > 0) : newline ∉ body :=
    List.count_eq_zero.mp (Nat.eq_zero_of_not_pos hzero)
  unfold eolOf
  dsimp only
  split
  · cases h
  · cases List.mem_singleton.mp h
    exact ⟨fun hc => Eol.noConfusion hc, fun hc => Eol.noConfusion hc⟩
  · rename_i first rest _
    have hlf : (first :: rest).contains Eol.lf = true := List.contains_iff_mem.mpr h
    split
    · rename_i hcr
      exact ⟨fun _ => bare_eq_zero hcr.2.2, fun hc => Eol.noConfusion hc⟩
    split
    · exact ⟨fun hc => Eol.noConfusion hc, fun hc => Eol.noConfusion hc⟩
    rename_i hfew
    have hzero : newline ∉ body := hnone fun hpos => hfew ⟨hpos, hlf⟩
    split
    · exact ⟨fun hc => Eol.noConfusion hc, fun _ => hzero⟩
    split
    · rename_i hpos
      exact absurd ⟨hpos.1, hlf⟩ hfew
    · exact ⟨fun _ => bare_of_not_mem 0 hzero, fun _ => hzero⟩

theorem restore_strip (hcrlf : eol = .crlf → bare 0 b = 0) (hcr : eol = .cr → newline ∉ b) :
    restore eol (strip eol b) = b := by
  cases eol with
  | lf => rfl
  | crlf =>
    show expandLf (foldCrlf b) = b
    rw [expand_fold (hcrlf rfl), if_neg fun hc => absurd hc.1 (by decide)]
  | cr =>
    have hno := hcr rfl
    show (b.map _).map _ = b
    have hsame (x : UInt8) (hx : x ∈ b) : ((fun b => if b = newline then carriage else b) ∘
        fun b => if b = carriage then newline else b) x = x := by
      have hne : x ≠ newline := fun heq => hno (heq ▸ hx)
      by_cases hc : x = carriage
      · simp [hc]
      · simp [hc, hne]
    rw [List.map_map, List.map_congr_left hsame, List.map_id']

theorem strip_restore (h : eol ≠ .cr) (b : Bytes) : strip eol (restore eol b) = b := by
  cases eol with
  | lf => rfl
  | crlf => exact fold_expand b
  | cr => exact absurd rfl h

/-- Stripping the line ends keeps whether the last line is terminated. -/
theorem strip_ends (hcr : eol = .cr → newline ∉ b) :
    ((strip eol b).isEmpty || (strip eol b).getLast? == some newline) =
      (b.isEmpty || b.getLast? == some (if eol = .cr then carriage else newline)) := by
  have hempty (c : Bytes) : c.isEmpty = c.getLast?.isNone := by
    cases c with
    | nil => rfl
    | cons x c => simp
  cases eol with
  | lf => rfl
  | crlf =>
    rw [hempty, hempty, strip, foldCrlf_getLast?]
    rfl
  | cr =>
    rw [hempty, hempty, strip, List.getLast?_map]
    cases hlast : b.getLast? with
    | none => rfl
    | some x =>
      have hx : x ≠ newline := fun hx => hcr rfl (hx ▸ List.mem_of_getLast? hlast)
      by_cases hc : x = carriage <;> simp [hc, hx]

theorem bom_append_bodyOf (raw : Bytes) :
    (if bomBytes <+: raw then bomBytes else []) ++ bodyOf raw = raw := by
  unfold bodyOf
  split
  · rename_i hbom
    obtain ⟨rest, rfl⟩ := hbom
    rw [List.drop_left]
  · rfl

theorem toBuffer_eq {f : FileFormat} {raw : Bytes} (hbinary : f.binary = false)
    (hbom : f.bom = decide (bomBytes <+: raw)) : toBuffer f raw =
      strip f.eol (if (bodyOf raw).getLast? = some ctrlZ ∧ f.eof then (bodyOf raw).dropLast
        else bodyOf raw) := by
  have hbody : (if f.bom ∧ bomBytes <+: raw then raw.drop bomBytes.length else raw) = bodyOf raw := by
    rw [hbom]
    simp only [decide_eq_true_eq, and_self]
    rfl
  unfold toBuffer
  rw [if_neg (by simp [hbinary])]
  rw [hbody]

/-- What is detected with `unix` listed, unfolded: the file is the mark, the text `b` and
the end-of-file byte, and `b` is restored as it was stripped. -/
theorem detectWith_spec {f : FileFormat} {raw : Bytes} {ffs : List Char} (h : Eol.lf ∈ listed ffs)
    {default : Eol} (hf : f = detectWith raw ffs default) :
    ∃ b, toBuffer f raw = strip f.eol b ∧
      raw = (if f.bom then bomBytes else []) ++ b ++ (if f.eof then [ctrlZ] else []) ∧
      restore f.eol (strip f.eol b) = b ∧
      f.finalNewline = ((strip f.eol b).isEmpty || (strip f.eol b).getLast? == some newline) := by
  have hraw := bom_append_bodyOf raw
  have hbinary : f.binary = false := by rw [hf]; rfl
  have hbom : f.bom = decide (bomBytes <+: raw) := by rw [hf]; rfl
  have heol : f.eol = eolOf (bodyOf raw) (listed ffs) default := by rw [hf]; rfl
  have heof : f.eof = (f.eol == .crlf && (bodyOf raw).getLast? == some ctrlZ) := by rw [hf]; rfl
  have hfinal : f.finalNewline =
      ((if f.eof then (bodyOf raw).take ((bodyOf raw).length - 1) else bodyOf raw).isEmpty ||
        (if f.eof then (bodyOf raw).take ((bodyOf raw).length - 1) else bodyOf raw).getLast? ==
          some (if f.eol = .cr then carriage else newline)) := by rw [hf]; rfl
  obtain ⟨hcrlf, hcr⟩ := eolOf_spec h (bodyOf raw) default
  rw [← heol] at hcrlf hcr
  have hmark : (if f.bom then bomBytes else []) ++ bodyOf raw = raw := by
    rw [hbom]
    simp only [decide_eq_true_eq]
    exact hraw
  rw [toBuffer_eq hbinary hbom, hfinal]
  cases hz : f.eof with
  | false =>
    simp only [Bool.false_eq_true, and_false, if_false]
    refine ⟨bodyOf raw, rfl, ?_, restore_strip hcrlf hcr, (strip_ends hcr).symm⟩
    rw [List.append_nil, hmark]
  | true =>
    -- the end-of-file byte is no text
    rw [hz] at heof
    obtain ⟨hdos, hlast⟩ := Bool.and_eq_true_iff.mp heof.symm
    have hdos' : f.eol = .crlf := eq_of_beq hdos
    have hlast' : (bodyOf raw).getLast? = some ctrlZ := eq_of_beq hlast
    have hcut : (bodyOf raw).dropLast ++ [ctrlZ] = bodyOf raw :=
      List.dropLast_append_getLast? ctrlZ hlast'
    have hbare : bare 0 (bodyOf raw).dropLast = 0 := by
      have hle := bare_append 0 (bodyOf raw).dropLast [ctrlZ]
      rw [hcut, hcrlf hdos'] at hle
      exact Nat.le_zero.mp hle
    have hno : f.eol = .cr → newline ∉ (bodyOf raw).dropLast := by
      intro hc
      rw [hdos'] at hc
      cases hc
    simp only [hlast', and_self, if_true, ← List.dropLast_eq_take]
    refine ⟨(bodyOf raw).dropLast, rfl, ?_, restore_strip (fun _ => hbare) hno, (strip_ends hno).symm⟩
    rw [List.append_assoc, hcut, hmark]

/-- With `unix` listed, or under the default list, an unmodified buffer writes back the
bytes it was read from and has the final newline the format records; and under a format
other than `mac` a buffer that was written reads back as it was. -/
theorem fileFormat_round_trip :
    (∀ (raw : Bytes) (ffs : List Char) (default : Eol), Eol.lf ∈ listed ffs →
      toDisk (detectWith raw ffs default) (toBuffer (detectWith raw ffs default) raw) = raw ∧
      (detectWith raw ffs default).finalNewline =
        ((toBuffer (detectWith raw ffs default) raw).isEmpty ||
          (toBuffer (detectWith raw ffs default) raw).getLast? == some newline)) ∧
    (∀ raw : Bytes, toDisk (detect raw) (toBuffer (detect raw) raw) = raw ∧
      (detect raw).finalNewline =
        ((toBuffer (detect raw) raw).isEmpty || (toBuffer (detect raw) raw).getLast? == some newline)) ∧
    ∀ (f : FileFormat) (buffer : Bytes), f.binary = true ∨ f.eol ≠ .cr →
      toBuffer f (toDisk f buffer) = buffer := by
  have hdetect (raw : Bytes) (ffs : List Char) (default : Eol) (h : Eol.lf ∈ listed ffs) :
      toDisk (detectWith raw ffs default) (toBuffer (detectWith raw ffs default) raw) = raw ∧
      (detectWith raw ffs default).finalNewline =
        ((toBuffer (detectWith raw ffs default) raw).isEmpty ||
          (toBuffer (detectWith raw ffs default) raw).getLast? == some newline) := by
    obtain ⟨b, hbuffer, hraw, hback, hends⟩ := detectWith_spec h (rfl : _ = detectWith raw ffs default)
    have hbinary : ¬ (detectWith raw ffs default).binary = true := Bool.false_ne_true
    refine ⟨?_, by rw [hbuffer]; exact hends⟩
    rw [hbuffer, toDisk, if_neg hbinary, hback]
    conv => rhs; rw [hraw]
    dsimp only
    split
    · rfl
    · rw [List.append_nil]
  refine ⟨hdetect, fun raw => hdetect raw _ .lf (by decide), fun f buffer h => ?_⟩
  cases hbinary : f.binary with
  | true => rw [toBuffer, toDisk, if_pos hbinary, if_pos hbinary]
  | false =>
    have hcr : f.eol ≠ .cr := by
      refine h.resolve_left ?_
      rw [hbinary]
      exact Bool.false_ne_true
    have hbin : ¬ f.binary = true := by
      rw [hbinary]
      exact Bool.false_ne_true
    have hdisk : toDisk f buffer = (if f.bom then bomBytes else []) ++ (restore f.eol buffer ++
        if f.eof then [ctrlZ] else []) := by
      rw [toDisk, if_neg hbin]
      dsimp only
      split
      · rw [List.append_assoc]
      · rw [List.append_nil]
    have hmark : (if f.bom ∧ bomBytes <+: toDisk f buffer then
        (toDisk f buffer).drop bomBytes.length else toDisk f buffer) =
          restore f.eol buffer ++ if f.eof then [ctrlZ] else [] := by
      rw [hdisk]
      by_cases hbom : f.bom = true
      · rw [if_pos hbom, if_pos ⟨hbom, List.prefix_append _ _⟩, List.drop_left]
      · rw [if_neg hbom, if_neg fun hc => hbom hc.1, List.nil_append]
    rw [toBuffer, if_neg hbin]
    dsimp only
    rw [hmark]
    by_cases heof : f.eof = true
    · rw [if_pos heof, List.getLast?_concat, if_pos ⟨rfl, heof⟩, List.dropLast_concat,
        strip_restore hcr]
    · rw [if_neg heof, List.append_nil, if_neg fun hc => heof hc.2, strip_restore hcr]

end FileFormat

end Ruse.Persist
