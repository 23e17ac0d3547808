import Ruse.Core.Chars
import Ruse.Lib.Numerals
import Ruse.Persist.Encoding

/-!
# Frames of a language server

The model of `apps/tui/src/lsp/codec.rs`: a message is a block of header lines, one of which gives
the length of the body, a blank line and the body. `readFrame` reads header lines up to the blank one
and then a body by its length, so it goes on right after the body whatever bytes are in it
(`read_frame_in_sync`), but for a header line of more than 1 KiB, which ends it
(`read_frame_long_header`).

The JSON library is a parameter (`Json`).
-/

namespace Ruse.Tui

open Ruse.Core Ruse.Lib Ruse.Lib.Reader
open Ruse.Persist (trim isWhitespace)

variable {bs l rest : Bytes}

/-- What the framing uses of `serde_json`. The bytes of a value are no more than a `usize` counts. -/
structure Json (Value : Type) where
  toVec : Value → Bytes
  fromSlice : Bytes → Option Value
  null : Value
  toVec_length : ∀ v, (toVec v).length < 2 ^ 64

/-- The kinds of the errors a read ends with. -/
inductive FrameError where
  | invalidData
  | unexpectedEof
deriving DecidableEq, Repr

/-- `MAX_FRAME_BYTES`. -/
def maxFrameBytes : Nat := 64 * 1024 * 1024

/-- `MAX_HEADER_LINE`. -/
def maxHeaderLine : Nat := 1024

/-- `Content-Length:`. -/
def contentLength : Bytes := [67, 111, 110, 116, 101, 110, 116, 45, 76, 101, 110, 103, 116, 104, 58]

def crlf : Bytes := [13, newline]

/-! ## Writing -/

section
variable {Value : Type} (json : Json Value)

/-- `write_message`. -/
def writeMessage (msg : Value) : Bytes :=
  let body := json.toVec msg
  contentLength ++ 32 :: numeral 10 body.length ++ crlf ++ crlf ++ body

/-! ## Reading -/

/-- `str::parse::<usize>`. -/
def parseUsize (s : List Char) : Option Nat :=
  let digits := if s.head? = some '+' then s.tail else s
  if digits ≠ [] ∧ digits.all Char.isDigit then
    let n := Nat.ofDigitChars 10 digits 0
    if n < 2 ^ 64 then some n else none
  else none

def isLineEnd (c : UInt8) : Bool := c == 13 || c == newline

/-- `read_line`: the text of the line must be UTF-8. -/
def readLine : Reader FrameError Bytes := do
  let l ← line newline maxHeaderLine
  if ValidUtf8 l then pure l else stop .invalidData

/-- What a header line makes of the length known so far. -/
def headerLength (len : Option Nat) (trimmed : Bytes) : Option Nat :=
  if contentLength.isPrefixOf trimmed then
    parseUsize (trim (charsFrom (trimmed.drop contentLength.length) 0))
  else len

theorem readLine_front (h : readLine bs = .ok (l, rest)) :
    bs = l ++ rest ∧ (l = [] → bs = []) := by
  obtain ⟨l', rest', hline, hfront⟩ := line_front (ε := FrameError) newline
    (show 0 < maxHeaderLine by decide) bs
  obtain ⟨l'', rest'', h', hok⟩ := bind_ok_iff.mp h
  rw [hline] at h'
  cases h'
  split at hok
  · cases hok
    exact hfront
  · cases hok

/-- The header lines from `bs` on, with the length known before them: the length after the blank
line, or `none` at the end of the stream. -/
def readHeaders (len : Option Nat) (bs : Bytes) : Except FrameError (Option (Option Nat) × Bytes) :=
  match _h : readLine bs with
  | .error e => .error e
  | .ok (l, rest) =>
    if _hnil : l = [] then .ok (none, rest)
    else if l.length = maxHeaderLine ∧ l.getLast? ≠ some newline then .error .invalidData
    else
      let trimmed := l.rdropWhile isLineEnd
      if trimmed = [] then .ok (some len, rest)
      else readHeaders (headerLength len trimmed) rest
termination_by bs.length
decreasing_by
  rw [(readLine_front _h).1, List.length_append]
  have := List.length_pos_of_ne_nil _hnil
  omega

/-- A body of `len` bytes, read or drained. -/
def readBody (len : Nat) : Reader FrameError (Option Value) :=
  if maxFrameBytes < len then fun bs =>
    if bs.length < len then .ok (none, []) else .ok (some json.null, bs.drop len)
  else do
    let body ← take .unexpectedEof len
    pure (some ((json.fromSlice body).getD json.null))

/-- `read_frame`. -/
def readFrame : Reader FrameError (Option Value) := do
  match ← (readHeaders none : Reader FrameError _) with
  | none => pure none
  | some none => pure (some json.null)
  | some (some len) => readBody json len

end

/-! ## Header blocks -/

/-- A line of a header: UTF-8, of at most 1 KiB with the newline it ends with. -/
structure HeaderLine (l : Bytes) : Prop where
  ends : ∃ text, l = text ++ [newline] ∧ newline ∉ text
  valid : ValidUtf8 l
  short : l.length ≤ maxHeaderLine

/-- Some header lines, and the blank line that ends them. -/
structure HeaderBlock where
  lines : List Bytes
  blank : Bytes
  lines_spec : ∀ l ∈ lines, HeaderLine l ∧ l.rdropWhile isLineEnd ≠ []
  blank_spec : HeaderLine blank ∧ blank.rdropWhile isLineEnd = []

namespace HeaderBlock

def bytes (block : HeaderBlock) : Bytes := block.lines.flatten ++ block.blank

/-- The length the last `Content-Length` gives. -/
def length (block : HeaderBlock) : Option Nat :=
  block.lines.foldl (fun len l => headerLength len (l.rdropWhile isLineEnd)) none

end HeaderBlock

theorem reads_readLine (h : HeaderLine l) : Reader.Reads readLine l l := by
  obtain ⟨text, rfl, hnl⟩ := h.ends
  have hshort := h.short
  rw [List.length_append, List.length_singleton] at hshort
  refine (reads_line hnl hshort).bind_nil ?_
  rw [if_pos h.valid]
  exact .pure _

theorem readHeaders_cons (h : HeaderLine l) (hline : l.rdropWhile isLineEnd ≠ []) (len : Option Nat)
    (rest : Bytes) :
    readHeaders len (l ++ rest) = readHeaders (headerLength len (l.rdropWhile isLineEnd)) rest := by
  have hread := reads_readLine h rest
  obtain ⟨text, htext, -⟩ := h.ends
  rw [readHeaders]
  split
  · rename_i h'
    rw [hread] at h'
    cases h'
  · rename_i l' rest' h'
    rw [hread] at h'
    cases h'
    rw [dif_neg (by rw [htext]; simp), if_neg (by rw [htext]; simp)]
    rw [if_neg hline]

theorem readHeaders_blank (h : HeaderLine l) (hblank : l.rdropWhile isLineEnd = [])
    (len : Option Nat) (rest : Bytes) : readHeaders len (l ++ rest) = .ok (some len, rest) := by
  have hread := reads_readLine h rest
  obtain ⟨text, htext, -⟩ := h.ends
  rw [readHeaders]
  split
  · rename_i h'
    rw [hread] at h'
    cases h'
  · rename_i l' rest' h'
    rw [hread] at h'
    cases h'
    rw [dif_neg (by rw [htext]; simp), if_neg (by rw [htext]; simp)]
    rw [if_pos hblank]

theorem reads_headers (block : HeaderBlock) :
    Reader.Reads (readHeaders none : Reader FrameError _) block.bytes (some block.length) := by
  obtain ⟨lines, blank, hlines, hblank⟩ := block
  intro rest
  show readHeaders none (lines.flatten ++ blank ++ rest) = .ok (some (lines.foldl _ none), rest)
  generalize (none : Option Nat) = len
  induction lines generalizing len with
  | nil => exact readHeaders_blank hblank.1 hblank.2 len rest
  | cons l lines ih =>
    obtain ⟨hl, hnot⟩ := hlines l List.mem_cons_self
    rw [List.flatten_cons, List.append_assoc, List.append_assoc, readHeaders_cons hl hnot,
      ← List.append_assoc, List.foldl_cons]
    exact ih (fun l hl => hlines l (List.mem_cons_of_mem _ hl)) _

/-! ## The header of a message -/

theorem digit_spec {c : Char} (h : c.isDigit = true) :
    isWhitespace c = false ∧ c ≠ '+' ∧ 48 ≤ c.toNat ∧ c.toNat ≤ 57 := by
  have hrange : 48 ≤ c.toNat ∧ c.toNat ≤ 57 := by
    unfold Char.isDigit at h
    rw [Bool.and_eq_true, decide_eq_true_eq, decide_eq_true_eq] at h
    exact ⟨UInt32.le_iff_toNat_le.mp h.1, UInt32.le_iff_toNat_le.mp h.2⟩
  refine ⟨?_, ?_, hrange⟩
  · unfold isWhitespace
    simp
    omega
  · rintro rfl
    exact absurd h (by decide)

/-- A number written in digits is parsed back. -/
theorem parseUsize_digits {n : Nat} (hn : n < 2 ^ 64) :
    parseUsize (trim (' ' :: Nat.toDigits 10 n)) = some n := by
  have hdigit : ∀ c ∈ Nat.toDigits 10 n, c.isDigit = true := fun c hc =>
    Nat.isDigit_of_mem_toDigits (by decide) (by decide) hc
  have hne : Nat.toDigits 10 n ≠ [] := Nat.toDigits_ne_nil
  have hvalue : Nat.ofDigitChars 10 (Nat.toDigits 10 n) 0 = n :=
    Nat.ofDigitChars_toDigits (by decide) (by decide)
  generalize Nat.toDigits 10 n = ds at *
  have hfront : (' ' :: ds).dropWhile isWhitespace = ds := by
    rw [List.dropWhile_cons_of_pos (by decide), List.dropWhile_eq_self_iff]
    intro hl
    rw [(digit_spec (hdigit _ (List.getElem_mem hl))).1]
    exact Bool.false_ne_true
  have hback : ds.rdropWhile isWhitespace = ds := by
    rw [List.rdropWhile_eq_self_iff]
    intro hl
    rw [(digit_spec (hdigit _ (List.getLast_mem hl))).1]
    exact Bool.false_ne_true
  have hplus : ds.head? ≠ some '+' := by
    intro hhead
    exact (digit_spec (hdigit _ (List.mem_of_head? hhead))).2.1 rfl
  rw [Persist.trim, hfront, hback]
  unfold parseUsize
  rw [if_neg hplus]
  rw [if_pos ⟨hne, List.all_eq_true.mpr hdigit⟩, hvalue, if_pos hn]

/-- `Content-Length: n` and its line end. -/
def lengthLine (n : Nat) : Bytes := contentLength ++ 32 :: numeral 10 n ++ crlf

theorem numeral_ascii (n : Nat) : ∀ c ∈ numeral 10 n, 48 ≤ c ∧ c ≤ 57 := by
  intro c hc
  obtain ⟨d, hd, rfl⟩ := List.mem_map.mp hc
  obtain ⟨-, -, hlo, hhi⟩ := digit_spec (Nat.isDigit_of_mem_toDigits (by decide) (by decide) hd)
  have hbyte : (d.toNat.toUInt8).toNat = d.toNat := Nat.mod_eq_of_lt (by omega)
  rw [UInt8.le_iff_toNat_le, UInt8.le_iff_toNat_le, hbyte]
  exact ⟨hlo, hhi⟩

theorem rdropWhile_crlf {text : Bytes} {c : UInt8} (hc : isLineEnd c = false) :
    (text ++ [c] ++ crlf).rdropWhile isLineEnd = text ++ [c] := by
  have hsplit : text ++ [c] ++ crlf = text ++ [c] ++ [13] ++ [newline] := by simp [crlf]
  rw [hsplit, List.rdropWhile_concat_pos _ _ _ (by decide), List.rdropWhile_concat_pos _ _ _ (by decide),
    List.rdropWhile_concat_neg _ _ _ (by simp [hc])]

theorem lengthLine_trimmed (n : Nat) :
    (lengthLine n).rdropWhile isLineEnd = contentLength ++ 32 :: numeral 10 n := by
  obtain ⟨ds, c, hds⟩ := List.eq_nil_or_concat (numeral 10 n) |>.resolve_left (numeral_ne_nil 10 n)
  rw [List.concat_eq_append] at hds
  have hc : isLineEnd c = false := by
    obtain ⟨hlo, -⟩ := numeral_ascii n c (by rw [hds]; simp)
    simp only [isLineEnd, Bool.or_eq_false_iff, beq_eq_false_iff_ne]
    constructor <;> (rintro rfl; exact absurd hlo (by decide))
  have hline := @rdropWhile_crlf (contentLength ++ 32 :: ds) c hc
  rw [lengthLine, hds]
  simpa [List.append_assoc] using hline

/-- The header of a body of `n` bytes. -/
def HeaderBlock.ofLength (n : Nat) (hn : n < 2 ^ 64) : HeaderBlock where
  lines := [lengthLine n]
  blank := crlf
  lines_spec := by
    intro l hl
    rw [List.mem_singleton.mp hl]
    have hdigits := numeral_ascii n
    have hlen : (numeral 10 n).length ≤ 20 := (length_numeral_le_iff (by decide) (by decide)).mpr (by omega)
    have all_ascii (l : Bytes) (h : l.all (fun c => decide (c ≤ 0x7F)) = true) :
        ∀ c ∈ l, c ≤ 0x7F := fun c hc => of_decide_eq_true (List.all_eq_true.mp h c hc)
    have hbytes : ∀ c ∈ lengthLine n, c ≤ 0x7F := by
      intro c hc
      simp only [lengthLine, List.append_assoc, List.mem_append, List.mem_cons] at hc
      rcases hc with hc | (rfl | hc) | hc
      · exact all_ascii contentLength (by decide) c hc
      · decide
      · exact UInt8.le_trans (hdigits c hc).2 (by decide)
      · exact all_ascii crlf (by decide) c hc
    refine ⟨⟨⟨contentLength ++ 32 :: numeral 10 n ++ [13], by simp [lengthLine, crlf], ?_⟩,
      (ascii_text hbytes).1, ?_⟩, ?_⟩
    · intro hmem
      simp only [List.append_assoc, List.mem_append, List.mem_cons] at hmem
      rcases hmem with hc | (hc | hc) | hc
      · exact absurd hc (by decide)
      · exact absurd hc (by decide)
      · exact absurd (hdigits _ hc).1 (by decide)
      · exact absurd hc (by decide)
    · simp only [lengthLine, contentLength, crlf, maxHeaderLine, List.length_append, List.length_cons,
        List.length_nil]
      omega
    · rw [lengthLine_trimmed]
      simp
  blank_spec := ⟨⟨⟨[13], rfl, by decide⟩, by decide +kernel, by decide⟩, by decide⟩

/-- A header written with a length has that length. -/
theorem HeaderBlock.ofLength_length {n : Nat} (hn : n < 2 ^ 64) : (ofLength n hn).length = some n := by
  have hchars : charsFrom (32 :: numeral 10 n) 0 = ' ' :: Nat.toDigits 10 n := by
    have hbytes : ∀ c ∈ 32 :: numeral 10 n, c ≤ 0x7F := by
      intro c hc
      rcases List.mem_cons.mp hc with rfl | hc
      · decide
      · exact UInt8.le_trans (numeral_ascii n c hc).2 (by decide)
    rw [(ascii_text hbytes).2, List.map_cons, numeral, List.map_map]
    congr 1
    refine (List.map_congr_left fun c hc => ?_).trans (List.map_id _)
    obtain ⟨-, -, -, hhi⟩ := digit_spec (Nat.isDigit_of_mem_toDigits (by decide) (by decide) hc)
    have hbyte : (c.toNat.toUInt8).toNat = c.toNat := Nat.mod_eq_of_lt (by omega)
    show Char.ofNat (c.toNat.toUInt8).toNat = c
    rw [hbyte, Char.ofNat_toNat]
  have hprefix : contentLength.isPrefixOf (contentLength ++ 32 :: numeral 10 n) = true :=
    List.isPrefixOf_iff_prefix.mpr (List.prefix_append _ _)
  show headerLength none ((lengthLine n).rdropWhile isLineEnd) = some n
  rw [lengthLine_trimmed, headerLength, if_pos hprefix, List.drop_left, hchars, parseUsize_digits hn]

/-! ## Frames in a stream -/

inductive Piece (Value : Type) where
  | message (msg : Value)
  /-- A body under any header that gives its length. -/
  | frame (headers : HeaderBlock) (body : Bytes) (h : headers.length = some body.length)
  /-- A header that gives no length. -/
  | bare (headers : HeaderBlock) (h : headers.length = none)

section
variable {Value : Type} (json : Json Value)

/-- What a body stands for: one over the limit is dropped, and one that is no JSON is `Null`. -/
def bodyValue (body : Bytes) : Value :=
  if maxFrameBytes < body.length then json.null else (json.fromSlice body).getD json.null

namespace Piece

def bytes : Piece Value → Bytes
  | message msg => writeMessage json msg
  | frame headers body _ => headers.bytes ++ body
  | bare headers _ => headers.bytes

def value : Piece Value → Value
  | message msg => if maxFrameBytes < (json.toVec msg).length then json.null else msg
  | frame _ body _ => bodyValue json body
  | bare _ _ => json.null

end Piece

theorem reads_body (body : Bytes) : Reader.Reads (readBody json body.length) body (some (bodyValue json body)) := by
  unfold readBody bodyValue
  split
  · intro rest
    have hlen : ¬ (body ++ rest).length < body.length := by
      rw [List.length_append]
      omega
    show (if _ then _ else _) = _
    rw [if_neg hlen, List.drop_left]
  · exact (reads_take _ rfl).bind_nil (.pure _)

theorem reads_frame {headers : HeaderBlock} {body : Bytes} (h : headers.length = some body.length) :
    Reader.Reads (readFrame json) (headers.bytes ++ body) (some (bodyValue json body)) := by
  refine (reads_headers headers).bind ?_
  rw [h]
  exact reads_body json body

theorem reads_bare {headers : HeaderBlock} (h : headers.length = none) :
    Reader.Reads (readFrame json) headers.bytes (some json.null) := by
  refine (reads_headers headers).bind_nil ?_
  rw [h]
  exact .pure _

theorem writeMessage_bytes (msg : Value) : writeMessage json msg =
    (HeaderBlock.ofLength _ (json.toVec_length msg)).bytes ++ json.toVec msg := by
  simp [writeMessage, HeaderBlock.bytes, HeaderBlock.ofLength, lengthLine, List.append_assoc]

/-- Each piece is read as what it stands for, whatever follows it. -/
theorem Piece.reads (hjson : ∀ v, json.fromSlice (json.toVec v) = some v) (piece : Piece Value) :
    Reader.Reads (readFrame json) (piece.bytes json) (some (piece.value json)) := by
  cases piece with
  | message msg =>
    have hread := reads_frame json (HeaderBlock.ofLength_length (json.toVec_length msg))
    rw [← writeMessage_bytes, bodyValue, hjson] at hread
    exact hread
  | frame headers body h => exact reads_frame json h
  | bare headers h => exact reads_bare json h

/-! ## Any stream -/

/-- Header lines are taken off the front, one at least unless the stream is at its end. -/
theorem readHeaders_front {len : Option Nat} {r : Option (Option Nat)}
    (h : readHeaders len bs = .ok (r, rest)) :
    rest.length ≤ bs.length ∧ (r ≠ none → rest.length < bs.length) := by
  induction hn : bs.length using Nat.strongRecOn generalizing len bs with
  | _ n ih =>
    rw [readHeaders] at h
    split at h
    · cases h
    · rename_i l rest' hline
      have hfront := congrArg List.length (readLine_front hline).1
      rw [List.length_append] at hfront
      split at h
      · cases h
        exact ⟨by omega, fun hne => absurd rfl hne⟩
      · rename_i hnil
        have hpos := List.length_pos_of_ne_nil hnil
        split at h
        · cases h
        · dsimp only at h
          split at h
          · cases h
            exact ⟨by omega, fun _ => by omega⟩
          · have hrest := ih rest'.length (by omega) h rfl
            exact ⟨by omega, fun _ => by omega⟩

/-- Reading a body leaves no more than there was. -/
theorem readBody_front {len : Nat} {r : Option Value} (h : readBody json len bs = .ok (r, rest)) :
    rest.length ≤ bs.length := by
  unfold readBody at h
  split at h
  · change (if _ then _ else _) = _ at h
    split at h
    · cases h
      exact Nat.zero_le _
    · cases h
      rw [List.length_drop]
      omega
  · obtain ⟨body, bs', htake, hok⟩ := bind_ok_iff.mp h
    cases hok
    unfold take at htake
    split at htake
    · cases htake
      rw [List.length_drop]
      omega
    · cases htake

theorem readFrame_progress : Progress (readFrame json) := by
  intro bs v rest h
  obtain ⟨r, bs', hheaders, hok⟩ := bind_ok_iff.mp h
  obtain ⟨hle, hlt⟩ := readHeaders_front hheaders
  match r with
  | none => cases hok
  | some none =>
    cases hok
    exact hlt nofun
  | some (some len) =>
    have hbody := readBody_front json hok
    have := hlt nofun
    omega

/-- At the end of the stream there is no frame. -/
theorem readFrame_nil : readFrame json [] = .ok (none, []) := by
  have hline : readLine [] = .ok ([], []) := by
    have hvalid : ValidUtf8 ([] : Bytes) := validUtf8_iff.mpr (.refl 0)
    show (if ValidUtf8 [] then pure [] else stop .invalidData : Reader FrameError Bytes) [] = _
    rw [if_pos hvalid]
    rfl
  have hend : readHeaders none [] = .ok (none, []) := by
    rw [readHeaders]
    split
    · rename_i h
      rw [hline] at h
      cases h
    · rename_i h
      rw [hline] at h
      cases h
      rw [dif_pos rfl]
  show (readHeaders none [] >>= fun r => _) = _
  rw [hend]
  rfl

/-- Whatever the bodies look like, the reader finds each frame after the one before it: it answers every
message within the limit, `Null` for a body that is no JSON or over the limit and for a header that gives
no length, and then the end. On any stream a value takes a byte, so the reader ends. -/
theorem read_frame_in_sync (hjson : ∀ v, json.fromSlice (json.toVec v) = some v) :
    (∀ pieces : List (Piece Value),
      readAll (readFrame json) (readFrame_progress json) (pieces.flatMap (Piece.bytes json)) =
        (pieces.map (Piece.value json), none)) ∧
    ∀ bs, (∀ v rest, readFrame json bs = .ok (some v, rest) → rest.length < bs.length) ∧
      (readAll (readFrame json) (readFrame_progress json) bs).1.length ≤ bs.length := by
  refine ⟨fun pieces => ?_, fun bs => ⟨fun v rest h => readFrame_progress json bs v rest h, ?_⟩⟩
  · exact readAll_frames pieces (fun piece _ => piece.reads json hjson) (readFrame_nil json)
  · exact length_readAll_le _ _ bs

end

/-- The values `null`, `true` and `false`, and their texts. -/
def Json.literals : Json (Option Bool) where
  toVec v := match v with
    | none => [110, 117, 108, 108]
    | some true => [116, 114, 117, 101]
    | some false => [102, 97, 108, 115, 101]
  fromSlice b :=
    if b = [110, 117, 108, 108] then some none
    else if b = [116, 114, 117, 101] then some (some true)
    else if b = [102, 97, 108, 115, 101] then some (some false)
    else none
  null := none
  toVec_length v := by
    match v with
    | none => decide
    | some true => decide
    | some false => decide

/-- The body `]` between two messages is no JSON. -/
theorem read_frame_in_sync_literals :
    readAll (readFrame .literals) (readFrame_progress .literals)
      ([Piece.message (some true), .frame (.ofLength 1 (by decide)) [93] (HeaderBlock.ofLength_length _),
        .message (some false)].flatMap (Piece.bytes .literals)) =
      ([some true, none, some false], none) := by
  refine (read_frame_in_sync .literals ?_).1 _
  intro v
  match v with
  | none => rfl
  | some true => rfl
  | some false => rfl

/-- A header line of more than 1 KiB ends the reader, with the header given up. -/
theorem read_frame_long_header :
    let header : Bytes := List.replicate 1024 97 ++ crlf ++ crlf
    readFrame Json.literals header = .error .invalidData ∧
      readAll (readFrame .literals) (readFrame_progress .literals)
        (header ++ writeMessage .literals (some true)) = ([], some .invalidData) := by
  intro header
  have hstop (rest : Bytes) : readFrame Json.literals (List.replicate 1024 97 ++ rest) = .error .invalidData := by
    have hline : (line newline maxHeaderLine : Reader FrameError _) (List.replicate 1024 97 ++ rest) =
        .ok (List.replicate 1024 97, rest) :=
      line_long (fun h => absurd (List.eq_of_mem_replicate h) (by decide)) List.length_replicate rest
    have hheaders : readHeaders none (List.replicate 1024 97 ++ rest) = .error .invalidData := by
      rw [readHeaders]
      split
      · rename_i e h
        obtain h | ⟨l, rest', h, hstop⟩ := bind_error_iff.mp h
        · rw [hline] at h
          cases h
        · split at hstop
          · cases hstop
          · cases hstop
            rfl
      · rename_i l rest' h
        obtain ⟨l', rest'', h, hok⟩ := bind_ok_iff.mp h
        rw [hline] at h
        cases h
        split at hok
        · cases hok
          rw [dif_neg (by simp), if_pos]
          exact ⟨List.length_replicate, by rw [List.getLast?_replicate]; decide⟩
        · cases hok
    show (readHeaders none _ >>= fun r => _) = _
    rw [hheaders]
    rfl
  have hheader : header = List.replicate 1024 97 ++ (crlf ++ crlf) := List.append_assoc _ _ _
  refine ⟨by rw [hheader]; exact hstop _, readAll_error ?_⟩
  rw [hheader, List.append_assoc]
  exact hstop _

end Ruse.Tui
