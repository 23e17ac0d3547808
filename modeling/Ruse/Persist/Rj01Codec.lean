import Ruse.Persist.Rj01

/-!
# What the encoder writes, the reader reads

`Record.encode` and `readRecord` agree on every record whose numbers fit their
fields and whose file format the format byte can hold.

* `Frame.of` — the frame at the front of a byte string, without the checks on the
  slices; `readFrame` computes it (`readFrame_eq`);
* `readRecord_encode` — an encoded record is read back, whatever surrounds it;
* `readRecord_torn` — a proper prefix of an encoded record is a torn write.
-/

namespace Ruse.Persist

open Ruse.Core
open Ruse.Lib
open Ruse.Lib.Reader

variable {b bs raw : Bytes} {i j n next pos v : Nat} {r : Record}

/-! ## Frames -/

theorem range_ok (hij : i ≤ j) (hj : j ≤ b.length) :
    range b i j = .ok (slice b i j) := if_pos ⟨hij, hj⟩

theorem slice_slice (b : Bytes) (i j k l : Nat) (hl : i + l ≤ j) :
    slice (slice b i j) k l = slice b (i + k) (i + l) := by
  simp only [slice, List.drop_take, List.take_take, List.drop_drop]
  congr 1
  omega

namespace Frame

/-- The payload length a frame's header names. -/
def payloadLen (rest : Bytes) : Nat := leValue (slice rest 8 12)

/-- The version a frame's header names. -/
def version (rest : Bytes) : Nat := leValue (slice rest 4 6)

/-- The frame at the start of `rest`. -/
def of (rest : Bytes) : Except Stop Frame :=
  let stop := headSize + payloadLen rest
  if rest.length < headSize then .error .torn
  else if slice rest 0 4 ≠ magic then .error .corrupt
  else if crc32c (slice rest 0 12) ≠ leValue (slice rest 12 16) then .error .corrupt
  else if version rest / 256 ≠ schemaMajor then .error (.newerMajor (version rest / 256))
  else if rest.length < stop + trailSize then .error .torn
  else if crc32c (slice rest headSize stop) ≠ leValue (slice rest stop (stop + 4)) ∨
      slice rest (stop + 4) (stop + trailSize) ≠ endMagic then .error .corrupt
  else .ok ⟨leValue (slice rest 6 7), version rest % 256, slice rest headSize stop,
    stop + trailSize⟩

end Frame

/-- No slice of `readFrame` is out of range. -/
theorem readFrame_eq (rest : Bytes) : readFrame rest = (Frame.of rest).mapError Halt.stop := by
  unfold readFrame Frame.of
  by_cases hhead : rest.length < headSize
  · rw [if_pos hhead, if_pos hhead]
    rfl
  · rw [if_neg hhead, if_neg hhead]
    have hlong : headSize ≤ rest.length := Nat.le_of_not_lt hhead
    have hlen : (slice rest 0 headSize).length = 16 := slice_length (by decide) hlong
    have hin (i j : Nat) (hij : i ≤ j) (hj : j ≤ 16) :
        range (slice rest 0 headSize) i j = .ok (slice rest i j) := by
      rw [range_ok hij (by omega), slice_slice _ _ _ _ _ (by rw [headSize]; omega),
        Nat.zero_add, Nat.zero_add]
    rw [range_ok (Nat.zero_le _) hlong]
    show (range (slice rest 0 headSize) 0 4 >>= fun tag => _) = _
    rw [hin 0 4 (by decide) (by decide), hin 0 12 (by decide) (by decide),
      hin 12 16 (by decide) (by decide), hin 4 6 (by decide) (by decide),
      hin 6 7 (by decide) (by decide), hin 8 12 (by decide) (by decide)]
    simp only [bind, Except.bind, Functor.map, Except.map, ← Frame.version.eq_1,
      ← Frame.payloadLen.eq_1]
    split
    · rfl
    split
    · rfl
    split
    · rfl
    split
    · rfl
    rename_i hroom
    have hstop : headSize + Frame.payloadLen rest + trailSize ≤ rest.length :=
      Nat.le_of_not_lt hroom
    have hle : headSize ≤ headSize + Frame.payloadLen rest := Nat.le_add_right _ _
    generalize headSize + Frame.payloadLen rest = stop at hstop hle
    have htrail : (slice rest stop (stop + trailSize)).length = 8 := by
      rw [slice_length (Nat.le_add_right _ _) hstop, Nat.add_sub_cancel_left, trailSize]
    have htin (i j : Nat) (hij : i ≤ j) (hj : j ≤ 8) :
        range (slice rest stop (stop + trailSize)) i j =
          .ok (slice rest (stop + i) (stop + j)) := by
      rw [range_ok hij (by omega), slice_slice _ _ _ _ _ (by rw [trailSize]; omega)]
    rw [range_ok hle (Nat.le_trans (Nat.le_add_right _ _) hstop),
      range_ok (Nat.le_add_right _ _) hstop]
    dsimp only
    rw [htin 0 4 (by decide) (by decide), htin 4 8 (by decide) (by decide)]
    dsimp only
    rw [Nat.add_zero, ← show trailSize = 8 from rfl]
    split <;> rfl

theorem slice_eq {whole a c : Bytes} (h : whole = a ++ b ++ c) (hi : a.length = i)
    (hj : i + b.length = j) : slice whole i j = b := by
  subst h hi hj
  rw [List.append_assoc, slice_append_right, List.take_left]

theorem slice_take (hj : j ≤ n) : slice (b.take n) i j = slice b i j := by
  have h := slice_slice b 0 n i j (by omega)
  rwa [show slice b 0 n = b.take n by simp [slice], Nat.zero_add, Nat.zero_add] at h

namespace Frame

/-- The bytes a frame at the start of `rest` takes. -/
def extent (rest : Bytes) : Nat := headSize + payloadLen rest + trailSize

/-- The frame the header of `rest` describes. -/
def at' (rest : Bytes) : Frame :=
  ⟨leValue (slice rest 6 7), version rest % 256,
    slice rest headSize (headSize + payloadLen rest), extent rest⟩

/-- The header of `rest` is one this version reads. -/
structure Headed (rest : Bytes) : Prop where
  long : headSize ≤ rest.length
  tag : slice rest 0 4 = magic
  crc : crc32c (slice rest 0 12) = leValue (slice rest 12 16)
  major : version rest / 256 = schemaMajor

/-- A whole frame stands at the start of `rest`. -/
structure Intact (rest : Bytes) : Prop extends Headed rest where
  room : extent rest ≤ rest.length
  payloadCrc : crc32c (slice rest headSize (headSize + payloadLen rest)) =
    leValue (slice rest (headSize + payloadLen rest) (headSize + payloadLen rest + 4))
  closing : slice rest (headSize + payloadLen rest + 4) (extent rest) = endMagic

variable {rest : Bytes}

theorem of_eq_ok (h : Intact rest) : of rest = .ok (at' rest) := by
  have hroom : ¬ rest.length < headSize + payloadLen rest + trailSize :=
    Nat.not_lt_of_le h.room
  have hclosing : slice rest (headSize + payloadLen rest + 4)
      (headSize + payloadLen rest + trailSize) = endMagic := h.closing
  simp only [of, Nat.not_lt_of_le h.long, h.tag, h.crc, h.major, hroom, h.payloadCrc, hclosing,
    if_false, ne_eq, not_true_eq_false, or_self]
  rfl

/-- A frame is read only where it is intact. -/
theorem of_ok {fr : Frame} (h : of rest = .ok fr) : Intact rest ∧ fr = at' rest := by
  unfold of at h
  dsimp only at h
  split at h
  · cases h
  split at h
  · cases h
  split at h
  · cases h
  split at h
  · cases h
  split at h
  · cases h
  split at h
  · cases h
  rename_i hlong htag hcrc hmajor hroom hclose
  rw [not_or, not_not, not_not] at hclose
  rw [not_not] at htag hcrc hmajor
  exact ⟨⟨⟨Nat.le_of_not_lt hlong, htag, hcrc, hmajor⟩, Nat.le_of_not_lt hroom, hclose.1, hclose.2⟩,
    (Except.ok.inj h).symm⟩

theorem Headed.take (h : Headed rest) (hn : headSize ≤ n) : Headed (rest.take n) := by
  have h16 : 16 ≤ n := hn
  refine ⟨?_, ?_, ?_, ?_⟩
  · rw [List.length_take]
    exact Nat.le_min.mpr ⟨hn, h.long⟩
  · rw [slice_take (by omega), h.tag]
  · rw [slice_take (by omega), slice_take h16, h.crc]
  · rw [version, slice_take (by omega)]
    exact h.major

theorem payloadLen_take (hn : headSize ≤ n) :
    payloadLen (rest.take n) = payloadLen rest := by
  have h16 : 16 ≤ n := hn
  rw [payloadLen, slice_take (by omega), payloadLen]

/-- A frame depends on its own bytes alone. -/
theorem Intact.congr (h : Intact rest) {rest' : Bytes}
    (hsame : rest'.take (extent rest) = rest.take (extent rest)) :
    Intact rest' ∧ at' rest' = at' rest := by
  have hext : extent rest = headSize + payloadLen rest + trailSize := rfl
  have hhead : headSize = 16 := rfl
  have htrail : trailSize = 8 := rfl
  have hslice (i j : Nat) (hj : j ≤ extent rest) : slice rest' i j = slice rest i j := by
    rw [← slice_take hj, hsame, slice_take hj]
  have hlen : payloadLen rest' = payloadLen rest := by
    rw [payloadLen, hslice _ _ (by omega), payloadLen]
  have hversion : version rest' = version rest := by
    rw [version, hslice _ _ (by omega), version]
  have hextent : extent rest' = extent rest := by rw [extent, hlen, extent]
  have hroom : extent rest ≤ rest'.length := by
    have hcount := congrArg List.length hsame
    have := h.room
    rw [List.length_take, List.length_take] at hcount
    omega
  refine ⟨⟨⟨by omega, ?_, ?_, ?_⟩, by omega, ?_, ?_⟩, ?_⟩
  · rw [hslice _ _ (by omega), h.tag]
  · rw [hslice _ _ (by omega), hslice _ _ (by omega), h.crc]
  · rw [hversion, h.major]
  · rw [hlen, hslice _ _ (by omega), hslice _ _ (by omega), h.payloadCrc]
  · rw [hlen, hextent, hslice _ _ (Nat.le_refl _), h.closing]
  · rw [at', hlen, hversion, hextent, hslice _ _ (by omega), hslice _ _ (by omega), at']

/-- A frame cut short is a torn one. -/
theorem Intact.torn (h : Intact rest) (hn : n < extent rest) :
    of (rest.take n) = .error .torn := by
  unfold of
  by_cases hhead : headSize ≤ n
  · have hcut := h.toHeaded.take hhead
    have hlen : payloadLen (rest.take n) = payloadLen rest := payloadLen_take hhead
    have hroom : (rest.take n).length < headSize + payloadLen rest + trailSize :=
      Nat.lt_of_le_of_lt (List.length_take_le _ _) hn
    rw [if_neg (Nat.not_lt_of_le hcut.long), if_neg (not_not.mpr hcut.tag),
      if_neg (not_not.mpr hcut.crc), if_neg (not_not.mpr hcut.major), hlen, if_pos hroom]
  · have hshort : (rest.take n).length < headSize :=
      Nat.lt_of_le_of_lt (List.length_take_le _ _) (Nat.lt_of_not_le hhead)
    rw [if_pos hshort]

/-- What `frame` writes is a frame, whatever follows. -/
theorem intact_frame {kind : Kind} {payload : Bytes} (h : frame kind payload = .ok bs)
    (post : Bytes) :
    Intact (bs ++ post) ∧ at' (bs ++ post) = ⟨kind.toU8, 0, payload, bs.length⟩ := by
  unfold frame at h
  split at h
  swap
  · cases h
  rename_i hsmall
  have hbs := (Except.ok.inj h).symm
  have hfit : payload.length < 256 ^ 4 := by
    rw [u32Max] at hsmall
    omega
  -- the fields of the twelve bytes the header sum covers
  generalize hhead : frameHead kind payload.length = head at hbs
  have hhlen : head.length = 12 := by
    rw [← hhead]
    rfl
  have hlen (n v : Nat) : (leBytes n v).length = n := length_leBytes n v
  have he : endMagic.length = 4 := rfl
  have hbslen : bs.length = headSize + payload.length + trailSize := by
    rw [hbs]
    simp only [List.length_append, hhlen, putU32, hlen, he, headSize, trailSize]
  have hfields : bs ++ post = magic ++ leBytes 2 schema ++ putU8 kind.toU8 ++ putU8 0 ++
      putU32 payload.length ++ (putU32 (crc32c head) ++ payload ++ putU32 (crc32c payload) ++
        endMagic ++ post) := by
    rw [hbs, ← hhead]
    simp only [frameHead, List.append_assoc]
  have hparts : bs ++ post = head ++ putU32 (crc32c head) ++ payload ++ putU32 (crc32c payload) ++
      endMagic ++ post := by
    rw [hbs]
  have hlong : bs.length ≤ (bs ++ post).length := by
    rw [List.length_append]
    exact Nat.le_add_right _ _
  generalize bs ++ post = whole at hfields hparts hlong
  have htag : slice whole 0 4 = magic :=
    slice_eq (a := []) (by rw [hfields]; simp only [List.append_assoc, List.nil_append]; rfl) rfl rfl
  have hver : slice whole 4 6 = leBytes 2 schema :=
    slice_eq (a := magic) (by rw [hfields]; simp only [List.append_assoc]; rfl) rfl rfl
  have hkind : slice whole 6 7 = putU8 kind.toU8 :=
    slice_eq (a := magic ++ leBytes 2 schema)
      (by rw [hfields]; simp only [List.append_assoc]; rfl) rfl rfl
  have hplen : slice whole 8 12 = putU32 payload.length :=
    slice_eq (a := magic ++ leBytes 2 schema ++ putU8 kind.toU8 ++ putU8 0)
      (by rw [hfields]) rfl rfl
  have hcovered : slice whole 0 12 = head :=
    slice_eq (a := []) (by rw [hparts]; simp only [List.append_assoc, List.nil_append]; rfl) rfl
      (by omega)
  have hcrc : slice whole 12 16 = putU32 (crc32c head) :=
    slice_eq (by rw [hparts]; simp only [List.append_assoc]; rfl) hhlen rfl
  have hpayloadLen : payloadLen whole = payload.length := by
    rw [payloadLen, hplen, putU32, leValue_leBytes hfit]
  have hpayload : slice whole headSize (headSize + payload.length) = payload :=
    slice_eq (a := head ++ putU32 (crc32c head))
      (by rw [hparts]; simp only [List.append_assoc]; rfl)
      (by rw [List.length_append, hhlen, putU32, hlen, headSize]) rfl
  have hpcrc : slice whole (headSize + payload.length) (headSize + payload.length + 4) =
      putU32 (crc32c payload) :=
    slice_eq (a := head ++ putU32 (crc32c head) ++ payload)
      (by rw [hparts]; simp only [List.append_assoc]; rfl)
      (by simp only [List.length_append, hhlen, putU32, hlen, headSize]) rfl
  have hclosing : slice whole (headSize + payload.length + 4)
      (headSize + payload.length + trailSize) = endMagic :=
    slice_eq (a := head ++ putU32 (crc32c head) ++ payload ++ putU32 (crc32c payload))
      (by rw [hparts])
      (by simp only [List.length_append, hhlen, putU32, hlen, headSize]) rfl
  have hversion : version whole = schema := by
    rw [version, hver, leValue_leBytes (by decide)]
  have hextent : extent whole = bs.length := by rw [extent, hpayloadLen, hbslen]
  refine ⟨⟨⟨?_, htag, ?_, by rw [hversion]; rfl⟩, by omega, ?_, ?_⟩, ?_⟩
  · omega
  · rw [hcovered, hcrc, putU32, leValue_leBytes (crc32c_lt _)]
  · rw [hpayloadLen, hpayload, hpcrc, putU32, leValue_leBytes (crc32c_lt _)]
  · rw [hextent, hbslen, hpayloadLen, hclosing]
  · rw [at', hkind, hversion, hpayloadLen, hpayload, hextent, putU8, leValue_leBytes (by
      cases kind <;> decide)]
    rfl

end Frame

/-! ## Payloads -/

/-- The format byte holds the format: `mac`, `'endoffile'` and `'binary'` are not in
it. -/
def FileFormat.Plain (f : FileFormat) : Prop := f.eol ≠ .cr ∧ f.eof = false ∧ f.binary = false

instance (f : FileFormat) : Decidable f.Plain := inferInstanceAs (Decidable (_ ∧ _ ∧ _))

theorem formatFromBits_formatBits {f : FileFormat} (h : f.Plain) :
    formatFromBits (formatBits f) = f := by
  obtain ⟨eol, bom, finalNewline, eof, binary⟩ := f
  obtain ⟨heol, heof, hbinary⟩ := h
  simp only at heol heof hbinary
  subst heof hbinary
  cases eol
  · cases bom <;> cases finalNewline <;> decide
  · cases bom <;> cases finalNewline <;> decide
  · exact absurd rfl heol

theorem formatBits_lt (f : FileFormat) : formatBits f < 256 := by
  unfold formatBits
  split <;> split <;> split <;> decide

/-- Every position and length of a list is a word. -/
def ListSized (l : EditList) : Prop := ∀ e ∈ l.edits, Word e.pos ∧ Word e.del

instance (l : EditList) : Decidable (ListSized l) :=
  inferInstanceAs (Decidable (∀ e ∈ l.edits, e.pos < wordLimit ∧ e.del < wordLimit))

def Base.Sized : Base → Prop
  | .checkpoint => True
  | .disk len _ => Word len

def KindSized : ChangeKind → Prop
  | .fresh node parent => Word node ∧ Word parent
  | .navigate toNode => Word toNode

/-- Every number of a record fits its field, and every format the format byte. -/
def Record.Sized : Record → Prop
  | .header h => h.owner.pid ≤ u32Max ∧ Word h.owner.startMs ∧ h.format.Plain ∧
      Word h.createdMs ∧ h.base.Sized
  | .checkpoint node revision _ => Word node ∧ Word revision
  | .edit e => Word e.meta'.seq ∧ Word e.meta'.timestampMs ∧ Word e.baseRevision ∧
      Word e.resultRevision ∧ KindSized e.kind ∧ ListSized e.forward ∧ ListSized e.inverse
  | .meta' (.savePoint savedNode len _) => Word savedNode ∧ Word len
  | .meta' (.format f) => f.Plain
  | .meta' (.rename _) => True
  | .marker timeMs => Word timeMs
  | .skipped => True

namespace Cursor

theorem reads_u8 (h : v < 256) : Reads u8 (putU8 v) v := reads_le none h

theorem reads_u32 (h : v ≤ u32Max) : Reads u32 (putU32 v) v :=
  reads_le none (by rw [u32Max] at h; omega)

theorem reads_u64 (h : Word v) : Reads u64 (putU64 v) v := reads_le none h

theorem reads_bytes (h : b.length ≤ u32Max) : Reads bytes (putBytes b) b := by
  rw [putBytes, Nat.min_eq_left h]
  exact (reads_u32 h).bind (reads_take none rfl)

theorem reads_sha (s : Sha) : Reads sha s.val s := by
  intro tail
  have hlen : 32 ≤ (s.val ++ tail).length := by
    rw [List.length_append, s.property]
    exact Nat.le_add_right _ _
  simp only [sha, dif_pos hlen, List.take_left' s.property, List.drop_left' s.property]
  rfl

theorem reads_known {α : Type} (a : α) : Reads (known (some a)) [] a := .pure a

theorem reads_edit {e : Edit} (hpos : Word e.pos) (hdel : Word e.del)
    (hins : e.ins.length ≤ u32Max) : Reads edit (putEdit e) e := by
  rw [putEdit, List.append_assoc]
  refine (reads_u64 hpos).bind ?_
  refine (reads_u64 hdel).bind ?_
  exact (reads_bytes hins).bind_nil (.pure _)

theorem length_putEdit (e : Edit) : (putEdit e).length = 20 + e.ins.length := by
  simp only [putEdit, putBytes, putU64, putU32, List.length_append, length_leBytes]
  omega

theorem length_flatMap_putEdit (es : List Edit) :
    20 * es.length ≤ (es.flatMap putEdit).length := by
  induction es with
  | nil => simp
  | cons e es ih =>
    rw [List.flatMap_cons, List.length_append, length_putEdit, List.length_cons]
    omega

theorem length_ins_le {es : List Edit} {e : Edit} (he : e ∈ es) :
    e.ins.length ≤ (es.flatMap putEdit).length := by
  have hsub := (List.sublist_flatten_of_mem (List.mem_map_of_mem (f := putEdit) he)).length_le
  rw [length_putEdit] at hsub
  exact Nat.le_trans (Nat.le_add_left _ _) hsub

theorem reads_edits {es : List Edit} (h : ∀ e ∈ es, Word e.pos ∧ Word e.del)
    (hlen : (es.flatMap putEdit).length ≤ u32Max) :
    Reads edits (putU32 (min es.length u32Max) ++ es.flatMap putEdit) es := by
  have hcount := length_flatMap_putEdit es
  have hn : es.length ≤ u32Max := by omega
  rw [Nat.min_eq_left hn]
  refine (reads_u32 hn).bind ?_
  intro tail
  have hroom : ¬ es.length > (es.flatMap putEdit ++ tail).length / 20 := by
    rw [List.length_append]
    omega
  show (if es.length > (es.flatMap putEdit ++ tail).length / 20 then stop none
    else count edit es.length) (es.flatMap putEdit ++ tail) = _
  rw [if_neg hroom]
  exact reads_count (fun e he => reads_edit (h e he).1 (h e he).2
    (Nat.le_trans (length_ins_le he) hlen)) tail

theorem build_edits {l : EditList} (h : ListSized l) : build l.edits = pure l := by
  have hfit : PairsFit (EditList.kept l.edits) := by
    rw [EditList.kept_edits]
    exact pairsFit_edits l.sorted (fun e he => (h e he).1)
  rw [build, (newWord_ok_iff l.edits).mpr hfit, EditList.new_edits]

theorem reads_list {l : EditList} (h : ListSized l) (hlen : (putList l).length ≤ u32Max) :
    Reads list (putList l) l := by
  refine (reads_edits h ?_).bind_nil ?_
  · rw [putList, List.length_append] at hlen
    omega
  · rw [build_edits h]
    exact .pure l

end Cursor

open Cursor

theorem reads_base {b : Base} (h : b.Sized) : Reads decodeBase (putBase b) b := by
  cases b with
  | checkpoint => exact (reads_u8 (by decide)).bind_nil (.pure _)
  | disk len s =>
    rw [putBase, List.append_assoc]
    refine (reads_u8 (by decide)).bind ?_
    exact (reads_u64 h).bind ((reads_sha s).bind_nil (.pure _))

theorem reads_header {h : Header} (hs : (Record.header h).Sized)
    (hhost : h.owner.host.length ≤ u32Max) (hpath : h.path.length ≤ u32Max) :
    Reads decodeHeader (putU32 h.owner.pid ++ putBytes h.owner.host ++ putU64 h.owner.startMs ++
      putBytes h.path ++ putU8 (formatBits h.format) ++ putU64 h.createdMs ++ putBase h.base) h := by
  obtain ⟨hpid, hstart, hformat, hcreated, hbase⟩ := hs
  simp only [List.append_assoc]
  refine (reads_u32 hpid).bind ?_
  refine (reads_bytes hhost).bind ?_
  refine (reads_u64 hstart).bind ?_
  refine (reads_bytes hpath).bind ?_
  refine (reads_u8 (formatBits_lt _)).bind ?_
  refine (reads_u64 hcreated).bind ?_
  refine (reads_base hbase).bind_nil ?_
  rw [formatFromBits_formatBits hformat]
  exact .pure _

theorem reads_checkpoint {node revision : Nat} {text : Bytes} (hnode : Word node)
    (hrevision : Word revision) (htext : Word text.length) :
    Reads decodeCheckpoint (putU64 node ++ putU64 revision ++ putU64 text.length ++ text)
      (.checkpoint node revision text) := by
  simp only [List.append_assoc]
  refine (reads_u64 hnode).bind ?_
  refine (reads_u64 hrevision).bind ?_
  refine (reads_u64 htext).bind ?_
  exact (reads_take none rfl).bind_nil (.pure _)

theorem reads_kind {k : ChangeKind} (h : KindSized k) : Reads decodeKind (putKind k) k := by
  cases k with
  | fresh node parent =>
    rw [putKind, List.append_assoc]
    refine (reads_u8 (by decide)).bind ?_
    exact (reads_u64 h.1).bind ((reads_u64 h.2).bind_nil (.pure _))
  | navigate toNode =>
    refine (reads_u8 (by decide)).bind ?_
    exact (reads_u64 h).bind_nil (.pure _)

theorem originFrom_originU8 (o : TransactionOrigin) : originFrom (originU8 o) = some o := by
  cases o <;> rfl

theorem hintFrom_hintU8 (h : GroupHint) : hintFrom (hintU8 h) = some h := by
  cases h <;> rfl

/-- The payload of an edit is read back as the edit. -/
theorem reads_editRecord {e : EditRecord} (hs : (Record.edit e).Sized)
    (hforward : (putList e.forward).length ≤ u32Max)
    (hinverse : (putList e.inverse).length ≤ u32Max) :
    Reads decodeEdit (putU64 e.meta'.seq ++ putU64 e.baseRevision ++ putU64 e.resultRevision ++
      putU8 (originU8 e.origin) ++ putU8 (hintU8 e.groupHint) ++ putU64 e.meta'.timestampMs ++
      putKind e.kind ++ putList e.forward ++ putList e.inverse) e := by
  obtain ⟨hseq, htime, hbase, hresult, hkind, hfsized, hisized⟩ := hs
  rw [List.append_assoc _ (putList e.forward)]
  refine Reads.bind (a := fun forward inverse => { e with forward := forward, inverse := inverse })
    ?_ ((reads_list hfsized hforward).bind ((reads_list hisized hinverse).bind_nil (.pure _)))
  simp only [List.append_assoc]
  refine (reads_u64 hseq).bind ?_
  refine (reads_u64 hbase).bind ?_
  refine (reads_u64 hresult).bind ?_
  refine (reads_u8 (by cases e.origin <;> decide)).bind ?_
  rw [originFrom_originU8]
  refine (reads_known _).nil_bind ?_
  refine (reads_u8 (by cases e.groupHint <;> decide)).bind ?_
  rw [hintFrom_hintU8]
  refine (reads_known _).nil_bind ?_
  refine (reads_u64 htime).bind ?_
  exact (reads_kind hkind).bind_nil (.pure _)

/-- The payload of a Meta record is read back. -/
theorem reads_meta {m : Meta} (hs : (Record.meta' m).Sized) (hlen : (putMeta m).length ≤ u32Max) :
    Reads decodeMeta (putMeta m) m := by
  cases m with
  | savePoint savedNode len s =>
    rw [putMeta, List.append_assoc, List.append_assoc]
    refine (reads_u8 (by decide)).bind ?_
    refine (reads_u64 hs.1).bind ?_
    exact (reads_u64 hs.2).bind ((reads_sha s).bind_nil (.pure _))
  | format f =>
    refine (reads_u8 (by decide)).bind ?_
    refine (reads_u8 (formatBits_lt f)).bind_nil ?_
    rw [formatFromBits_formatBits hs]
    exact .pure _
  | rename path =>
    refine (reads_u8 (by decide)).bind ?_
    have hpath : path.length ≤ u32Max := by
      simp only [putMeta, putBytes, List.length_append] at hlen
      omega
    exact (reads_bytes hpath).bind_nil (.pure _)

/-! ## Records -/

/-- What is encoded is a frame around a payload that is read back. -/
theorem exists_payload (hs : r.Sized) (h : r.encode = some (.ok bs)) :
    ∃ kind payload, frame kind payload = .ok bs ∧ Reads (decode kind) payload r := by
  have hsmall {kind : Kind} {payload : Bytes} (hf : frame kind payload = .ok bs) :
      payload.length ≤ u32Max := by
    unfold frame at hf
    split at hf
    · assumption
    · cases hf
  cases r with
  | header hd =>
    have hf : encodeHeader hd = .ok bs := Option.some.inj h
    have hlen := hsmall hf
    simp only [List.length_append, putBytes] at hlen
    exact ⟨.header, _, hf, (reads_header hs (by omega) (by omega)).map _⟩
  | checkpoint node revision text =>
    have hf : encodeCheckpoint node revision text = .ok bs := Option.some.inj h
    have hlen := hsmall hf
    rw [List.length_append, u32Max] at hlen
    have htext : text.length < 2 ^ 64 := by omega
    exact ⟨.checkpoint, _, hf, reads_checkpoint hs.1 hs.2 htext⟩
  | edit e =>
    have hf : encodeEdit e.meta' e.entry = .ok bs := Option.some.inj h
    have hlen := hsmall hf
    simp only [List.length_append, EditRecord.entry] at hlen
    exact ⟨.edit, _, hf, (reads_editRecord hs (by omega) (by omega)).map _⟩
  | meta' m =>
    have hf : encodeMeta m = .ok bs := Option.some.inj h
    exact ⟨.meta', _, hf, (reads_meta hs (hsmall hf)).map _⟩
  | marker timeMs =>
    have hf : encodeMarker timeMs = .ok bs := Option.some.inj h
    exact ⟨.marker, _, hf, (reads_u64 hs).map _⟩
  | skipped => cases h

theorem fromU8_toU8 (k : Kind) : Kind.fromU8 k.toU8 = some k := by
  cases k <;> rfl

/-- An encoded record is read back, with the offset after it, whatever surrounds
it. -/
theorem readRecord_encode (hs : r.Sized) (h : r.encode = some (.ok bs)) (pre post : Bytes) :
    readRecord (pre ++ bs ++ post) pre.length = .ok (r, pre.length + bs.length) := by
  obtain ⟨kind, payload, hframe, hreads⟩ := exists_payload hs h
  obtain ⟨hintact, hat⟩ := Frame.intact_frame hframe post
  have hrest : (pre ++ bs ++ post).drop (min pre.length (pre ++ bs ++ post).length) =
      bs ++ post := by
    rw [List.append_assoc, Nat.min_eq_left (by rw [List.length_append]; omega), List.drop_left]
  have hread : readFrame (bs ++ post) = .ok ⟨kind.toU8, 0, payload, bs.length⟩ := by
    rw [readFrame_eq, Frame.of_eq_ok hintact, hat]
    rfl
  have hrecord : Frame.record ⟨kind.toU8, 0, payload, bs.length⟩ = .ok r := by
    simp only [Frame.record, fromU8_toU8, hreads.whole, true_or, if_true]
  rw [readRecord, hrest, hread]
  show (Frame.record ⟨kind.toU8, 0, payload, bs.length⟩ >>= fun record => _) = _
  rw [hrecord]
  rfl

/-- A proper prefix of an encoded record is a torn write. -/
theorem readRecord_torn (hs : r.Sized) (h : r.encode = some (.ok bs)) (pre : Bytes)
    (hn : n < bs.length) :
    readRecord (pre ++ bs.take n) pre.length = .error (.stop .torn) := by
  obtain ⟨kind, payload, hframe, -⟩ := exists_payload hs h
  obtain ⟨hintact, hat⟩ := Frame.intact_frame hframe []
  rw [List.append_nil] at hintact hat
  have hextent : Frame.extent bs = bs.length := congrArg Frame.size hat
  have hrest : (pre ++ bs.take n).drop (min pre.length (pre ++ bs.take n).length) =
      bs.take n := by
    rw [Nat.min_eq_left (by rw [List.length_append]; omega), List.drop_left]
  rw [readRecord, hrest, readFrame_eq, hintact.torn (by omega)]
  rfl

theorem drop_min (raw : Bytes) (pos : Nat) : raw.drop (min pos raw.length) = raw.drop pos := by
  by_cases hpos : pos ≤ raw.length
  · rw [Nat.min_eq_left hpos]
  · rw [Nat.min_eq_right (by omega), List.drop_length, List.drop_of_length_le (by omega)]

/-- A record is read exactly where its frame is intact and its payload one. -/
theorem readRecord_ok_iff :
    readRecord raw pos = .ok (r, next) ↔
      Frame.Intact (raw.drop pos) ∧ (Frame.at' (raw.drop pos)).record = .ok r ∧
        next = pos + Frame.extent (raw.drop pos) := by
  rw [readRecord, drop_min, readFrame_eq]
  constructor
  · intro h
    cases hof : Frame.of (raw.drop pos) with
    | error s =>
      rw [hof] at h
      cases h
    | ok fr =>
      obtain ⟨hintact, rfl⟩ := Frame.of_ok hof
      rw [hof] at h
      cases hrec : (Frame.at' (raw.drop pos)).record with
      | error e =>
        change ((Frame.at' (raw.drop pos)).record >>= _) = _ at h
        rw [hrec] at h
        cases h
      | ok r' =>
        change ((Frame.at' (raw.drop pos)).record >>= _) = _ at h
        rw [hrec] at h
        cases h
        exact ⟨hintact, rfl, rfl⟩
  · rintro ⟨hintact, hrec, rfl⟩
    rw [Frame.of_eq_ok hintact]
    show ((Frame.at' (raw.drop pos)).record >>= _) = _
    rw [hrec]
    rfl

/-- A record that is read takes at least a header and a trailer, and ends inside the
file. -/
theorem readRecord_bounds (h : readRecord raw pos = .ok (r, next)) :
    pos + 24 ≤ next ∧ next ≤ raw.length := by
  obtain ⟨hintact, -, rfl⟩ := readRecord_ok_iff.mp h
  have hroom := hintact.room
  rw [List.length_drop] at hroom
  simp only [Frame.extent, headSize, trailSize] at hroom ⊢
  omega

theorem readRecord_congr {raw' : Bytes} (h : readRecord raw pos = .ok (r, next))
    (hsame : raw'.take next = raw.take next) :
    readRecord raw' pos = .ok (r, next) := by
  obtain ⟨hintact, hrec, hnext⟩ := readRecord_ok_iff.mp h
  have hrest : (raw'.drop pos).take (Frame.extent (raw.drop pos)) =
      (raw.drop pos).take (Frame.extent (raw.drop pos)) := by
    rw [hnext, List.take_add, List.take_add] at hsame
    exact (List.append_inj' hsame (by
      have hcount := congrArg List.length hsame
      have hroom := hintact.room
      simp only [List.length_append, List.length_take, List.length_drop] at hcount hroom ⊢
      omega)).2
  obtain ⟨hintact', hat⟩ := hintact.congr hrest
  rw [readRecord_ok_iff, hat]
  exact ⟨hintact', hrec, hnext.trans (congrArg (pos + Frame.size ·) hat.symm)⟩

end Ruse.Persist
