import Ruse.Tui.KeyCodec

/-!
# Keys come back from their bytes

The bytes of a key are read back as one key whatever follows them (`Reads`), and a key that
was decoded once is read back as itself (`Settled`).
-/

namespace Ruse.Tui.Keys

open Ruse.Core (Bytes)

variable {bytes p : Bytes} {c : Char} {b tag : UInt8} {k key : KeyEvent} {code : KeyCode}
  {mods : KeyModifiers}

/-! ## UTF-8 -/

theorem toByteArray_encode (cs : List Char) :
    (cs.flatMap String.utf8EncodeChar).toByteArray = (String.ofList cs).toByteArray := by
  rw [String.toByteArray_ofList, List.utf8Encode]

theorem fromUTF8?_ofList (cs : List Char) :
    String.fromUTF8? (String.ofList cs).toByteArray = some (String.ofList cs) := by
  rw [String.fromUTF8?, dif_pos (String.ofList cs).isValidUTF8]
  rfl

theorem firstChar_encode (c : Char) : firstChar (String.utf8EncodeChar c) = some c := by
  have hbytes := toByteArray_encode [c]
  rw [List.flatMap_singleton] at hbytes
  rw [firstChar, hbytes, fromUTF8?_ofList]
  simp

theorem encode_of_firstChar (h : firstChar bytes = some c) :
    ∃ rest, bytes = String.utf8EncodeChar c ++ rest := by
  rw [firstChar, Option.bind_eq_some_iff] at h
  obtain ⟨s, hs, hhead⟩ := h
  obtain ⟨cs, hcs⟩ := List.head?_eq_some_iff.mp hhead
  have hvalid : s.toByteArray = bytes.toByteArray := by
    rw [String.fromUTF8?] at hs
    split at hs
    · rw [← Option.some.inj hs]
      rfl
    · cases hs
  have hlist : s = String.ofList (c :: cs) := by rw [← hcs, String.ofList_toList]
  rw [hlist, ← toByteArray_encode, List.flatMap_cons] at hvalid
  exact ⟨cs.flatMap String.utf8EncodeChar, (List.toByteArray_inj.mp hvalid).symm⟩

theorem utf8Width_ofNat {n : Nat} (h : n < 256) : utf8Width (UInt8.ofNat n) =
    if n ≤ 0x7f then 1
    else if 0xc0 ≤ n ∧ n ≤ 0xdf then 2
    else if 0xe0 ≤ n ∧ n ≤ 0xef then 3
    else if 0xf0 ≤ n ∧ n ≤ 0xf7 then 4
    else 1 := by
  have hn : (UInt8.ofNat n).toNat = n := Nat.mod_eq_of_lt h
  simp only [utf8Width, UInt8.le_iff_toNat_le, hn]
  rfl

/-- The first byte of a character tells its length, and that it is ASCII when alone. -/
theorem lead_spec (c : Char) :
    ∃ b bs, String.utf8EncodeChar c = b :: bs ∧ utf8Width b = c.utf8Size ∧ b ≠ 0x80 ∧
      (c.utf8Size = 1 → bs = [] ∧ b = c.val.toUInt8 ∧ b ≤ 0x7f) := by
  have hlow {n : Nat} (h : n < 256) (hne : n ≠ 0x80) : UInt8.ofNat n ≠ 0x80 := by
    intro heq
    have := congrArg UInt8.toNat heq
    rw [show (UInt8.ofNat n).toNat = n from Nat.mod_eq_of_lt h] at this
    exact hne this
  have hsize := String.length_utf8EncodeChar c
  unfold String.utf8EncodeChar at hsize ⊢
  dsimp only at hsize ⊢
  generalize hv : c.val.toNat = v at hsize ⊢
  split_ifs at hsize ⊢ with h1 h2 h3
  · have hb : v < 256 := by omega
    have htoNat : (UInt8.ofNat v).toNat = v := Nat.mod_eq_of_lt hb
    refine ⟨_, _, rfl, ?_, hlow hb (by omega), fun _ => ⟨rfl, ?_, ?_⟩⟩
    · rw [utf8Width_ofNat hb, if_pos h1]
      exact hsize
    · rw [← UInt8.toNat_inj, htoNat, UInt32.toNat_toUInt8, hv, Nat.mod_eq_of_lt hb]
    · rw [UInt8.le_iff_toNat_le, htoNat]
      exact h1
  · have hb : v / 64 % 32 + 192 < 256 := by omega
    refine ⟨_, _, rfl, ?_, hlow hb (by omega), fun hone => ?_⟩
    · rw [utf8Width_ofNat hb, if_neg (by omega), if_pos (by omega)]
      exact hsize
    · rw [hone] at hsize
      cases hsize
  · have hb : v / 4096 % 16 + 224 < 256 := by omega
    refine ⟨_, _, rfl, ?_, hlow hb (by omega), fun hone => ?_⟩
    · rw [utf8Width_ofNat hb, if_neg (by omega), if_neg (by omega), if_pos (by omega)]
      exact hsize
    · rw [hone] at hsize
      cases hsize
  · have hb : v / 262144 % 8 + 240 < 256 := by omega
    refine ⟨_, _, rfl, ?_, hlow hb (by omega), fun hone => ?_⟩
    · rw [utf8Width_ofNat hb, if_neg (by omega), if_neg (by omega), if_neg (by omega),
        if_pos (by omega)]
      exact hsize
    · rw [hone] at hsize
      cases hsize

theorem controlKey_isSome : controlKey b ≠ none ↔ b ≤ 0x1f ∨ b = 0x7f := by
  unfold controlKey
  simp only [UInt8.le_iff_toNat_le, ← UInt8.toNat_inj, UInt8.reduceToNat]
  split_ifs <;> simp <;> omega

theorem controlKey_ascii (h : controlKey b ≠ none) : utf8Width b = 1 ∧ b ≠ 0x80 := by
  have hle : b ≤ 0x7f := by
    obtain hlow | rfl := controlKey_isSome.mp h
    · exact UInt8.le_trans hlow (by decide)
    · exact UInt8.le_refl _
  refine ⟨by rw [utf8Width, if_pos hle], ?_⟩
  rintro rfl
  exact absurd hle (by decide)

/-! ## Reading one key -/

/-- The bytes are read as the key, and end with it. -/
def Reads (p : Bytes) (k : KeyEvent) : Prop :=
  ∃ b bs, p = b :: bs ∧ (b = 0x80 → ∃ tag, bs.head? = some tag ∧ tag ≠ modTag) ∧
    ∀ rest, decodeOne b (bs ++ rest) = (some k, p.length)

theorem decodeOne_control (h : controlKey b = some k) (rest : Bytes) :
    decodeOne b rest = (some k, 1) := by
  unfold decodeOne
  rw [h]

theorem reads_control (h : controlKey b = some k) : Reads [b] k := by
  have hascii := (controlKey_ascii (b := b) (by simp [h])).2
  refine ⟨b, [], rfl, fun heq => absurd heq hascii, fun rest => ?_⟩
  rw [decodeOne_control h]
  rfl

/-- The bytes of a character read as its key, unless they are a control byte. -/
theorem reads_char (c : Char) : ∃ k, Reads (String.utf8EncodeChar c) k ∧
    ∀ b bs, String.utf8EncodeChar c = b :: bs → controlKey b = none → k = .plain (.char c) := by
  obtain ⟨b, bs, hbytes, hwidth, hlead, hone⟩ := lead_spec c
  have hlen : (b :: bs).length = c.utf8Size := by rw [← hbytes, String.length_utf8EncodeChar]
  cases hkey : controlKey b with
  | some k =>
    obtain ⟨hw, -⟩ := controlKey_ascii (b := b) (by simp [hkey])
    obtain ⟨rfl, -⟩ := hone (hwidth.symm.trans hw)
    refine ⟨k, hbytes ▸ reads_control hkey, fun b' bs' hbytes' hnone => ?_⟩
    obtain ⟨rfl, -⟩ := List.cons.inj (hbytes.symm.trans hbytes')
    rw [hkey] at hnone
    cases hnone
  | none =>
    refine ⟨.plain (.char c), ⟨b, bs, hbytes, fun h => absurd h hlead, fun rest => ?_⟩,
      fun _ _ _ _ => rfl⟩
    have htake : (b :: (bs ++ rest)).take (utf8Width b) = String.utf8EncodeChar c := by
      rw [← List.cons_append, hwidth, ← hlen, List.take_left, hbytes]
    unfold decodeOne
    rw [hkey]
    rw [if_neg hlead, htake, firstChar_encode, hbytes, hlen]

theorem specialTag_plain (h : specialTag code = some tag) :
    tag ≠ modTag ∧ tag ≠ fnTag ∧ specialFromTag tag = some code := by
  have hall : ∀ t ∈ specialTags, t.2 ≠ modTag ∧ t.2 ≠ fnTag ∧ specialFromTag t.2 = some t.1 := by
    decide
  obtain ⟨t, ht, rfl⟩ := Option.map_eq_some_iff.mp h
  obtain rfl : t.1 = code := by simpa using List.find?_some ht
  exact hall t (List.mem_of_find?_eq_some ht)

theorem plainBytes_special (h : specialFromTag tag = some code) :
    plainBytes (.plain code) = some [0x80, tag] := by
  have hall : ∀ t ∈ specialTags, plainBytes (.plain t.1) = some [0x80, t.2] := by decide
  obtain ⟨t, ht, rfl⟩ := Option.map_eq_some_iff.mp h
  obtain rfl : t.2 = tag := by simpa using List.find?_some ht
  exact hall t (List.mem_of_find?_eq_some ht)

theorem reads_special (hmod : tag ≠ modTag) (hfn : tag ≠ fnTag) (h : specialFromTag tag = some code) :
    Reads [0x80, tag] (.plain code) := by
  refine ⟨0x80, [tag], rfl, fun _ => ⟨tag, rfl, hmod⟩, fun rest => ?_⟩
  have hcontrol : controlKey 0x80 = none := by decide
  unfold decodeOne
  rw [hcontrol]
  simp [hfn, h]

theorem reads_fn (n : UInt8) : Reads [0x80, fnTag, n] (.plain (.f n)) := by
  have htag : fnTag ≠ modTag := by decide
  refine ⟨0x80, [fnTag, n], rfl, fun _ => ⟨fnTag, rfl, htag⟩, fun rest => ?_⟩
  have hcontrol : controlKey 0x80 = none := by decide
  unfold decodeOne
  rw [hcontrol]
  simp

/-- A letter with Ctrl is a control byte. -/
theorem letter_byte (h : c.isAlpha = true) :
    c.toLower.toUInt8 - 'a'.toUInt8 + 1 ≤ 0x1f := by
  have hupper : 'Z'.val.toNat = 90 := rfl
  have hfirst : 'A'.val.toNat = 65 := rfl
  have hlower : 'z'.val.toNat = 122 := rfl
  have hzero : 'a'.val.toNat = 97 := rfl
  have hrange : 97 ≤ c.toLower.val.toNat ∧ c.toLower.val.toNat ≤ 122 := by
    delta Char.isAlpha Char.isUpper Char.isLower at h
    delta Char.toLower
    simp only [UInt32.le_iff_toNat_le, ge_iff_le, Bool.or_eq_true, Bool.and_eq_true,
      decide_eq_true_eq] at h ⊢
    split_ifs with hup
    · simp only [UInt32.toNat_add, UInt32.toNat_sub]
      omega
    · omega
  have hsub : 'a'.toUInt8.toNat = 97 := rfl
  have hone : (1 : UInt8).toNat = 1 := rfl
  have htop : (0x1f : UInt8).toNat = 31 := rfl
  have hbyte : c.toLower.toUInt8.toNat = c.toLower.val.toNat % 2 ^ 8 := UInt32.toNat_toUInt8 _
  rw [UInt8.le_iff_toNat_le, UInt8.toNat_add, UInt8.toNat_sub, hsub, hone, htop, hbyte]
  omega

theorem controlByte_le (h : controlByte c = some b) : b ≤ 0x1f := by
  unfold controlByte at h
  split at h
  · next halpha =>
    obtain rfl := Option.some.inj h
    exact letter_byte halpha
  · iterate 6
      split at h
      · obtain rfl := Option.some.inj h
        decide
    cases h

/-- The control bytes that `encode` writes are read. -/
theorem controlByte_key (h : controlByte c = some b) :
    controlKey b ≠ none := controlKey_isSome.mpr (.inl (controlByte_le h))

/-- What a plain key is written as reads as a key. -/
theorem plainBytes_reads (h : plainBytes key = some p) :
    ∃ k, Reads p k := by
  unfold plainBytes at h
  generalize key.code = code at h
  split at h
  · cases code with
    | char c =>
      obtain ⟨b, hb, rfl⟩ := Option.map_eq_some_iff.mp h
      obtain ⟨k, hk⟩ := Option.ne_none_iff_exists'.mp (controlByte_key hb)
      exact ⟨k, reads_control hk⟩
    | _ => cases h
  · cases code with
    | char c =>
      obtain rfl := Option.some.inj h
      obtain ⟨k, hk, -⟩ := reads_char c
      exact ⟨k, hk⟩
    | enter | tab | backspace | esc =>
      obtain rfl := Option.some.inj h
      exact ⟨_, reads_control rfl⟩
    | f n =>
      obtain rfl := Option.some.inj h
      exact ⟨_, reads_fn n⟩
    | _ =>
      obtain ⟨tag, htag, rfl⟩ := Option.map_eq_some_iff.mp h
      obtain ⟨hmod, hfn, hcode⟩ := specialTag_plain htag
      exact ⟨_, reads_special hmod hfn hcode⟩

/-! ## Keys that are settled -/

/-- A key of one character or code, with at most Ctrl, that its plain bytes are read as. -/
structure Settled (k : KeyEvent) : Prop where
  reads : ∃ p, plainBytes k = some p ∧ Reads p k
  modifiers : k.modifiers = .none ∨ k.modifiers = .onlyControl
  press : k.kind = .press
  state : k.state = 0

theorem settled_control (h : controlKey b = some k) : Settled k := by
  have hall : ∀ n : Fin 32, (controlKey (UInt8.ofNat n)).all fun k => decide
      ((∃ b' ∈ (plainBytes k).bind List.head?, plainBytes k = some [b'] ∧ controlKey b' = some k) ∧
        (k.modifiers = .none ∨ k.modifiers = .onlyControl) ∧ k.kind = .press ∧ k.state = 0) := by
    decide +kernel
  obtain hlow | rfl := controlKey_isSome.mp (by simp [h] : controlKey b ≠ none)
  · have hlt : b.toNat < 32 := by
      rw [UInt8.le_iff_toNat_le] at hlow
      exact Nat.lt_succ_of_le hlow
    have hb := hall ⟨b.toNat, hlt⟩
    rw [show UInt8.ofNat b.toNat = b from UInt8.ofNat_toNat, h, Option.all_some,
      decide_eq_true_iff] at hb
    obtain ⟨⟨b', -, hplain, hkey⟩, hmods, hpress, hstate⟩ := hb
    exact ⟨⟨[b'], hplain, reads_control hkey⟩, hmods, hpress, hstate⟩
  · obtain rfl := Option.some.inj h
    exact ⟨⟨[0x7f], rfl, reads_control rfl⟩, .inl rfl, rfl, rfl⟩

theorem settled_plain (hp : plainBytes (.plain code) = some p) (hr : Reads p (.plain code)) :
    Settled (.plain code) where
  reads := ⟨p, hp, hr⟩
  modifiers := .inl rfl
  press := rfl
  state := rfl

theorem settled_char {rest : Bytes} (hnone : controlKey b = none)
    (h : firstChar ((b :: rest).take (utf8Width b)) = some c) : Settled (.plain (.char c)) := by
  obtain ⟨after, hafter⟩ := encode_of_firstChar h
  obtain ⟨k, hk, hself⟩ := reads_char c
  obtain ⟨b', bs, hbytes, -⟩ := lead_spec c
  have hlead : b = b' := by
    have hhead := congrArg List.head? hafter
    rw [hbytes, List.cons_append, List.head?_cons, List.head?_take, if_neg] at hhead
    · exact Option.some.inj hhead
    · intro hzero
      rw [hzero, List.take_zero] at hafter
      simp [hbytes] at hafter
  obtain rfl := hself b' bs hbytes (hlead ▸ hnone)
  exact settled_plain rfl hk

/-- A decoded key is settled: its modifiers are in one place. -/
theorem settled_of_decodeOne {rest : Bytes} {w : Nat} (h : decodeOne b rest = (some k, w)) :
    Settled k := by
  unfold decodeOne at h
  split at h
  · next key hkey =>
    obtain rfl := Option.some.inj (Prod.mk.inj h).1
    exact settled_control hkey
  next hnone =>
  split at h
  · split at h
    · cases h
    next tag rest =>
    split at h
    · obtain ⟨n, -, rfl⟩ := Option.map_eq_some_iff.mp (Prod.mk.inj h).1
      exact settled_plain rfl (reads_fn n)
    · next hfn =>
      obtain ⟨code, hcode, rfl⟩ := Option.map_eq_some_iff.mp (Prod.mk.inj h).1
      have hmod : tag ≠ modTag := by
        rintro rfl
        have hnone : specialFromTag modTag = none := by decide
        rw [hnone] at hcode
        cases hcode
      exact settled_plain (plainBytes_special hcode) (reads_special hmod hfn hcode)
  · split at h
    · next c hc =>
      obtain rfl := Option.some.inj (Prod.mk.inj h).1
      exact settled_char hnone hc
    · cases h

/-! ## A key after its tags -/

theorem addBits_bits {m : KeyModifiers} (h : m.shift = false) :
    KeyModifiers.none.addBits m.bits = m := by
  obtain ⟨shift, control, alt, super, hyper, metaKey⟩ := m
  obtain rfl : shift = false := h
  revert control alt super hyper metaKey
  decide

theorem tags_plain {bs : Bytes} (mods : KeyModifiers) (h : ¬ (b = 0x80 ∧ bs.head? = some modTag)) :
    tags mods (b :: bs) = (mods, b :: bs) := by
  have hstop (tag : UInt8) (rest : Bytes) (hbs : bs = tag :: rest) :
      ¬ (b = 0x80 ∧ tag = modTag) := by
    rw [hbs, List.head?_cons, Option.some.injEq] at h
    exact h
  unfold tags
  split
  · next heq =>
    obtain ⟨rfl, rfl⟩ := List.cons.inj heq
    rw [if_neg (hstop _ _ rfl)]
  · next heq =>
    obtain ⟨rfl, rfl⟩ := List.cons.inj heq
    rw [if_neg (hstop _ _ rfl)]
  · rfl

/-- Bytes that read as a key are decoded to it before any rest. -/
theorem decode_reads (h : Reads p k) {extra : KeyModifiers} (hextra : extra.shift = false)
    (rest : Bytes) :
    decode (tagged extra p ++ rest) = withTags extra k :: decode rest := by
  obtain ⟨b, bs, rfl, hstop, hread⟩ := h
  have hstop' : ¬ (b = 0x80 ∧ (bs ++ rest).head? = some modTag) := by
    rintro ⟨hb, hhead⟩
    obtain ⟨tag, htag, hne⟩ := hstop hb
    rw [List.head?_append, htag] at hhead
    exact hne (Option.some.inj hhead)
  have htags : tags .none (tagged extra (b :: bs) ++ rest) = (extra, b :: (bs ++ rest)) := by
    unfold tagged
    split
    · next hnone =>
      rw [hnone]
      exact tags_plain .none hstop'
    · change (if (0x80 : UInt8) = 0x80 ∧ modTag = modTag then
        tags (KeyModifiers.none.addBits extra.bits) (b :: (bs ++ rest)) else _) = _
      rw [if_pos ⟨rfl, rfl⟩, addBits_bits hextra]
      exact tags_plain extra hstop'
  rw [decode]
  split
  · next heq =>
    rw [htags] at heq
    cases heq
  · next heq =>
    rw [htags] at heq
    cases heq
    rw [hread rest]
    simp

theorem decode_nil : decode [] = [] := by
  rw [decode]
  rfl

/-- Modifiers of the tag alone: neither Shift nor Ctrl. -/
structure Extra (e : KeyModifiers) : Prop where
  shift : e.shift = false
  control : e.control = false

theorem extra_inter (m : KeyModifiers) : Extra (m.inter .carried) :=
  ⟨Bool.and_false _, Bool.and_false _⟩

def AtMostControl (m : KeyModifiers) : Prop := m = .none ∨ m = .onlyControl

section
variable {m e : KeyModifiers}

theorem inter_union (hm : AtMostControl m) (he : Extra e) : (m.union e).inter .carried = e := by
  obtain ⟨shift, control, alt, super, hyper, metaKey⟩ := e
  obtain ⟨rfl, rfl⟩ := he
  obtain rfl | rfl := hm <;> revert alt super hyper metaKey <;> decide

theorem diff_union (hm : AtMostControl m) (he : Extra e) : (m.union e).diff .carried = m := by
  obtain ⟨shift, control, alt, super, hyper, metaKey⟩ := e
  obtain ⟨rfl, rfl⟩ := he
  obtain rfl | rfl := hm <;> revert alt super hyper metaKey <;> decide

theorem exists_union (h : mods.shift = false) :
    ∃ c e, AtMostControl c ∧ Extra e ∧ mods = c.union e := by
  have hsplit : (mods.diff .carried = .none ∨ mods.diff .carried = .onlyControl) ∧
      mods = (mods.diff .carried).union (mods.inter .carried) := by
    obtain ⟨shift, control, alt, super, hyper, metaKey⟩ := mods
    obtain rfl : shift = false := h
    revert control alt super hyper metaKey
    decide
  exact ⟨_, _, hsplit.1, extra_inter mods, hsplit.2⟩

end

theorem decode_encode (h : encode key = some bytes) :
    ∃ k, ∀ rest, decode (bytes ++ rest) = k :: decode rest := by
  have hextra := extra_inter key.modifiers
  unfold encode at h
  dsimp only at h
  split at h
  · next p hp =>
    obtain rfl := Option.some.inj h
    obtain ⟨k, hk⟩ := plainBytes_reads hp
    exact ⟨_, decode_reads hk hextra.shift⟩
  · split at h
    · obtain ⟨p, hp, rfl⟩ := Option.map_eq_some_iff.mp h
      obtain ⟨k, hk⟩ := plainBytes_reads hp
      refine ⟨_, decode_reads hk ?_⟩
      rw [KeyModifiers.union, hextra.shift]
      rfl
    · cases h

/-! ## What is decoded is read back as itself -/

/-- A key that its own bytes are read as, whatever follows. -/
def Canonical (k : KeyEvent) : Prop :=
  ∃ bytes, encode k = some bytes ∧ ∀ rest, decode (bytes ++ rest) = k :: decode rest

theorem Settled.eq_new (h : Settled k) : KeyEvent.new k.code k.modifiers = k := by
  rw [KeyEvent.new, ← h.press, ← h.state]

theorem Settled.encode (h : Settled k) {e : KeyModifiers} (he : Extra e)
    (hp : plainBytes k = some p) :
    encode { k with modifiers := k.modifiers.union e } = some (tagged e p) := by
  unfold Keys.encode
  dsimp only
  rw [inter_union h.modifiers he, diff_union h.modifiers he, h.eq_new, hp]

/-- `canonical` keeps a settled key with the modifiers of the tag. -/
theorem Settled.canonical (h : Settled k) {e : KeyModifiers} (he : Extra e) :
    canonical { k with modifiers := k.modifiers.union e } =
      { k with modifiers := k.modifiers.union e } := by
  obtain ⟨p, hp, b, bs, rfl, -, hread⟩ := h.reads
  have hone := hread []
  rw [List.append_nil] at hone
  unfold Keys.canonical
  dsimp only
  rw [inter_union h.modifiers he, diff_union h.modifiers he, h.eq_new, hp]
  dsimp only
  rw [hone]
  dsimp only
  split <;> rfl

theorem Settled.withTags (h : Settled k) {e : KeyModifiers} (he : Extra e) :
    withTags e k = { k with modifiers := k.modifiers.union e } := by
  unfold Keys.withTags
  dsimp only
  split
  · rfl
  · exact h.canonical he

theorem canonical_extra (h : Settled k) {e : KeyModifiers} (he : Extra e) :
    Canonical { k with modifiers := k.modifiers.union e } := by
  obtain ⟨p, hp, hread⟩ := h.reads
  refine ⟨tagged e p, h.encode he hp, fun rest => ?_⟩
  rw [decode_reads hread he.shift, h.withTags he]

/-- A Ctrl chord without a control byte is tagged, and read back from that. -/
theorem canonical_chord (h : Settled (.plain code)) {e : KeyModifiers} (he : Extra e)
    (hnone : plainBytes (.new code .onlyControl) = none) :
    canonical (.new code (KeyModifiers.onlyControl.union e)) =
        .new code (KeyModifiers.onlyControl.union e) ∧
      Canonical (.new code (KeyModifiers.onlyControl.union e)) := by
  have hcontrol : AtMostControl .onlyControl := .inr rfl
  have hself : canonical (.new code (KeyModifiers.onlyControl.union e)) =
      .new code (KeyModifiers.onlyControl.union e) := by
    unfold canonical
    dsimp only [KeyEvent.new]
    rw [inter_union hcontrol he, diff_union hcontrol he]
    rw [KeyEvent.new] at hnone
    rw [hnone]
    split <;> rfl
  have hshift : (e.union .onlyControl).shift = false := by
    rw [KeyModifiers.union, he.shift]
    rfl
  have hcomm : KeyModifiers.none.union (e.union .onlyControl) = KeyModifiers.onlyControl.union e := by
    simp [KeyModifiers.union, KeyModifiers.none, KeyModifiers.onlyControl, Bool.or_comm]
  have hne : e.union .onlyControl ≠ .none := by
    intro heq
    have := congrArg KeyModifiers.control heq
    simp [KeyModifiers.union, KeyModifiers.onlyControl, KeyModifiers.none] at this
  obtain ⟨p, hp, hread⟩ := h.reads
  refine ⟨hself, tagged (e.union .onlyControl) p, ?_, fun rest => ?_⟩
  · unfold encode
    dsimp only [KeyEvent.new]
    rw [inter_union hcontrol he, diff_union hcontrol he]
    rw [KeyEvent.new] at hnone
    rw [KeyEvent.plain, KeyEvent.new] at hp
    have hplain : KeyModifiers.onlyControl.diff .onlyControl = .none := by decide
    rw [hnone, hplain, hp]
    rfl
  · rw [decode_reads hread hshift, withTags, if_neg hne]
    dsimp only [KeyEvent.plain, KeyEvent.new] at hself ⊢
    rw [hcomm, hself]

theorem canonical_controlByte {e : KeyModifiers} (he : Extra e)
    (hp : plainBytes (.new code .onlyControl) = some p) :
    ∃ k, Settled k ∧ canonical (.new code (KeyModifiers.onlyControl.union e)) =
      { k with modifiers := k.modifiers.union e } := by
  have hcontrol : AtMostControl .onlyControl := .inr rfl
  obtain ⟨k, b, bs, rfl, -, hread⟩ := plainBytes_reads hp
  have hone := hread []
  rw [List.append_nil] at hone
  refine ⟨k, settled_of_decodeOne hone, ?_⟩
  have hcontains : KeyModifiers.onlyControl.contains .onlyControl = true := by decide
  rw [KeyEvent.new] at hp
  unfold canonical
  dsimp only [KeyEvent.new]
  rw [inter_union hcontrol he, diff_union hcontrol he, if_pos hcontains, hp]
  dsimp only
  rw [hone]

/-- A settled key with tags is canonical. -/
theorem canonical_withTags (h : Settled k) (hmods : mods.shift = false) :
    Canonical (withTags mods k) := by
  obtain ⟨c, e, hc, he, rfl⟩ := exists_union hmods
  have hkeep (hsame : k.modifiers.union (c.union e) = k.modifiers.union e) :
      Canonical (withTags (c.union e) k) := by
    unfold withTags
    rw [hsame]
    split
    · exact canonical_extra h he
    · rw [h.canonical he]
      exact canonical_extra h he
  obtain rfl | rfl := hc
  · exact hkeep (by simp [KeyModifiers.union, KeyModifiers.none])
  obtain hm | hm := h.modifiers
  · -- Ctrl comes from the tag: the chord may have a control byte.
    have hk : k = .plain k.code := by
      have := h.eq_new
      rw [hm] at this
      exact this.symm
    have hne : KeyModifiers.onlyControl.union e ≠ .none := by
      intro heq
      have := congrArg KeyModifiers.control heq
      simp [KeyModifiers.union, KeyModifiers.onlyControl, KeyModifiers.none] at this
    have htags : withTags (KeyModifiers.onlyControl.union e) k =
        canonical (.new k.code (KeyModifiers.onlyControl.union e)) := by
      unfold withTags
      rw [if_neg hne, hm, KeyEvent.new, ← h.press, ← h.state]
      simp [KeyModifiers.union, KeyModifiers.none]
    rw [htags]
    cases hp : plainBytes (.new k.code .onlyControl) with
    | none =>
      obtain ⟨hself, hcanonical⟩ := canonical_chord (hk ▸ h) he hp
      rw [hself]
      exact hcanonical
    | some p =>
      obtain ⟨k', hk', heq⟩ := canonical_controlByte he hp
      rw [heq]
      exact canonical_extra hk' he
  · refine hkeep ?_
    rw [hm]
    simp [KeyModifiers.union, KeyModifiers.onlyControl, KeyModifiers.none]

theorem addBits_shift {m : KeyModifiers} (hm : m.shift = false) (bits : UInt8) :
    (m.addBits bits).shift = false := by
  have hbits : ∀ b ∈ KeyModifiers.modBits, b.1.shift = false := by decide
  unfold KeyModifiers.addBits
  generalize KeyModifiers.modBits = l at hbits
  induction l generalizing m with
  | nil => exact hm
  | cons b l ih =>
    rw [List.foldl_cons]
    refine ih ?_ fun b hb => hbits b (List.mem_cons_of_mem _ hb)
    split
    · rw [KeyModifiers.union, hm, hbits b List.mem_cons_self]
      rfl
    · exact hm

theorem tags_shift (h : mods.shift = false) (bytes : Bytes) :
    (tags mods bytes).1.shift = false := by
  fun_induction tags mods bytes with
  | case1 mods b tag bits rest _ ih => exact ih (addBits_shift h bits)
  | _ => exact h

theorem canonical_of_decode (hk : k ∈ decode bytes) :
    Canonical k := by
  fun_induction decode bytes with
  | case1 => cases hk
  | case2 bytes mods b rest htags key width hone ih =>
    rcases List.mem_append.mp hk with hk | hk
    · cases key with
      | none => cases hk
      | some key =>
        obtain rfl : k = withTags mods key := by simpa using hk
        have hshift : (tags .none bytes).1.shift = false := tags_shift rfl bytes
        rw [htags] at hshift
        exact canonical_withTags (settled_of_decodeOne hone) hshift
    · exact ih hk

/-! ## Lists of keys -/

theorem decode_of_encode (h : encode key = some bytes) :
    ∃ k, decode bytes = [k] := by
  obtain ⟨k, hk⟩ := decode_encode h
  have := hk []
  rw [List.append_nil, decode_nil] at this
  exact ⟨k, this⟩

theorem Canonical.decode (h : Canonical k) :
    ∃ bytes, encode k = some bytes ∧ decode bytes = [k] := by
  obtain ⟨bytes, hencode, hread⟩ := h
  have := hread []
  rw [List.append_nil, decode_nil] at this
  exact ⟨bytes, hencode, this⟩

theorem decode_encodeAll (keys : List KeyEvent) :
    decode (encodeAll keys) = keys.flatMap fun k => (encode k).elim [] decode := by
  induction keys with
  | nil => exact decode_nil
  | cons key keys ih =>
    rw [encodeAll, List.flatMap_cons, List.flatMap_cons, ← encodeAll]
    cases h : encode key with
    | none => simpa using ih
    | some bytes =>
      obtain ⟨k, hk⟩ := decode_encode h
      have hself := hk []
      rw [List.append_nil, decode_nil] at hself
      rw [Option.getD_some, Option.elim_some, hk, hself, ih]
      rfl

/-- Keys that are read back from their own bytes come back from those of the list. -/
theorem decode_canonical {keys : List KeyEvent} (h : ∀ k ∈ keys, Canonical k) :
    decode (encodeAll keys) = keys := by
  rw [decode_encodeAll]
  induction keys with
  | nil => rfl
  | cons key keys ih =>
    obtain ⟨bytes, hencode, hdecode⟩ := (h key List.mem_cons_self).decode
    rw [List.flatMap_cons, hencode, Option.elim_some, hdecode,
      ih fun k hk => h k (List.mem_cons_of_mem _ hk)]
    rfl

/-- Decoding, writing and decoding again changes nothing; a list of keys is read key by key, each
that has an encoding as one key; and a key that was decoded is read as itself. -/
theorem macro_codec_retracts (bytes : Bytes) (keys : List KeyEvent) :
    decode (encodeAll (decode bytes)) = decode bytes ∧
    decode (encodeAll keys) = keys.flatMap (fun k => (encode k).elim [] decode) ∧
    (∀ k ∈ keys, encode k = none ∨ ∃ bs k', encode k = some bs ∧ decode bs = [k']) ∧
    ∀ k ∈ decode bytes, ∃ bs, encode k = some bs ∧ decode bs = [k] := by
  refine ⟨decode_canonical fun k hk => canonical_of_decode hk, decode_encodeAll keys,
    fun k _ => ?_, fun k hk => (canonical_of_decode hk).decode⟩
  cases h : encode k with
  | none => exact .inl rfl
  | some bs =>
    obtain ⟨k', hk'⟩ := decode_of_encode h
    exact .inr ⟨bs, k', rfl, hk'⟩

end Ruse.Tui.Keys
