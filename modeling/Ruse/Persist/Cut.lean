import Mathlib.Logic.Relation
import Ruse.Persist.ReplayRun

/-!
# Passes over the front of a file

* `Stops.unique` — a pass ends at one offset;
* `Heeded` — what taking a record, or leaving it out, does to the state;
* `reaches_take`, `reaches_cut` — a pass over the front of a file is one over the file;
* `reaches_takes`, `takes_of_reaches` — a pass over a cut file of encoded records is
  at the end of some of them, which it took one after the other.
-/

namespace Ruse.Persist

open Ruse.Core

variable {sha256 : Bytes → Sha} {disk : Option Bytes} {raw : Bytes} {pos : Nat} {a : Replay}
variable {n : Nat} {post rs : List (Record × Bytes)} {p : Record × Bytes}

/-! ## Passes are deterministic -/

def Moves (sha256 : Bytes → Sha) (disk : Option Bytes) (raw : Bytes) (s t : Nat × Replay) : Prop :=
  ∃ record a', s.1 < raw.length ∧ readRecord raw s.1 = .ok (record, t.1) ∧
    s.2.heed sha256 disk record = (a', true) ∧ t.2 = { a' with lastGood := t.1 }

theorem moves_rightUnique : Relator.RightUnique (Moves sha256 disk raw) := by
  rintro s ⟨next, a⟩ ⟨next', a'⟩ ⟨record, b, -, hread, hheed, ha⟩ ⟨record', b', -, hread', hheed', ha'⟩
  rw [hread] at hread'
  cases hread'
  rw [hheed] at hheed'
  cases hheed'
  simp only at ha ha'
  rw [ha, ha']

theorem moves_of_reaches (h : Reaches sha256 disk raw pos a) :
    Relation.ReflTransGen (Moves sha256 disk raw) (0, Replay.default) (pos, a) := by
  induction h with
  | start => exact .refl
  | next hreach hpos hread hheed ih => exact ih.tail ⟨_, _, hpos, hread, hheed, rfl⟩

theorem Stops.not_moves {a' : Replay} (h : Stops sha256 disk raw pos a a') (t : Nat × Replay) :
    ¬ Moves sha256 disk raw (pos, a) t := by
  rintro ⟨record, b, hpos, hread, hheed, -⟩
  cases h with
  | done hend => exact absurd hpos (Nat.not_lt_of_le hend)
  | newer _ hread' _ =>
    rw [hread'] at hread
    cases hread
  | unread _ hread' _ =>
    rw [hread'] at hread
    cases hread
  | refused _ hread' hheed' =>
    rw [hread'] at hread
    cases hread
    rw [hheed'] at hheed
    cases hheed

/-- A pass ends at one offset. -/
theorem Stops.unique {a' b b' : Replay} {pos' : Nat} (hreach : Reaches sha256 disk raw pos a)
    (hstops : Stops sha256 disk raw pos a a') (hreach' : Reaches sha256 disk raw pos' b)
    (hstops' : Stops sha256 disk raw pos' b b') : pos' = pos ∧ b = a := by
  rcases Relation.ReflTransGen.total_of_right_unique moves_rightUnique
    (moves_of_reaches hreach) (moves_of_reaches hreach') with h | h
  · rcases h.cases_head with heq | ⟨t, hmove, -⟩
    · cases heq
      exact ⟨rfl, rfl⟩
    · exact absurd hmove (hstops.not_moves t)
  · rcases h.cases_head with heq | ⟨t, hmove, -⟩
    · cases heq
      exact ⟨rfl, rfl⟩
    · exact absurd hmove (hstops'.not_moves t)

/-! ## What a record leaves alone -/

/-- The fields only the loop sets, and what it means to be taken or not. -/
structure Heeded (a : Replay) (record : Record) (b : Replay) (taken : Bool) : Prop where
  lastGood : b.lastGood = a.lastGood
  lostTail : b.lostTail = a.lostTail
  header : taken = true → b.header ≠ none
  text : taken = false → b.text = a.text ∧ b.unreplayable = a.unreplayable
  refused : taken = false → b = a ∨ a.header ≠ none ∧ ∃ e, record = .edit e
  /-- An Edit record that is not taken is counted all the same. -/
  counted : taken = false → a.header ≠ none → (∃ e, record = .edit e) →
    b.changes = a.changes + 1

theorem heeded_taken {record : Record} {b : Replay} (hgood : b.lastGood = a.lastGood)
    (htail : b.lostTail = a.lostTail) (hsome : b.header ≠ none) : Heeded a record b true :=
  ⟨hgood, htail, fun _ => hsome, nofun, nofun, nofun⟩

theorem heeded_same {record : Record} (h : a.header = none ∨ ¬ ∃ e, record = .edit e) :
    Heeded a record a false :=
  ⟨rfl, rfl, nofun, fun _ => ⟨rfl, rfl⟩, fun _ => .inl rfl,
    fun _ hsome he => h.elim (absurd · hsome) (absurd he)⟩

theorem heeded_header (a : Replay) (h : Header) :
    Heeded a (.header h) (a.heedHeader sha256 disk h) true := by
  unfold Replay.heedHeader
  cases h.base with
  | checkpoint => exact heeded_taken rfl rfl (Option.some_ne_none h)
  | disk len want =>
    dsimp only
    cases diskMatches sha256 disk len want <;>
      exact heeded_taken rfl rfl (Option.some_ne_none h)

theorem heeded_edit (a : Replay) (e : EditRecord) (hsome : a.header ≠ none) :
    Heeded a (.edit e) (a.heedEdit e).1 (a.heedEdit e).2 := by
  unfold Replay.heedEdit
  dsimp only
  split
  · exact heeded_taken rfl rfl hsome
  · exact ⟨rfl, rfl, nofun, fun _ => ⟨rfl, rfl⟩, fun _ => .inr ⟨hsome, e, rfl⟩, fun _ _ _ => rfl⟩
  · split
    · exact heeded_taken rfl rfl hsome
    · exact ⟨rfl, rfl, nofun, fun _ => ⟨rfl, rfl⟩, fun _ => .inr ⟨hsome, e, rfl⟩,
        fun _ _ _ => rfl⟩

/-- What is heeded of a record, and what it leaves of the state. -/
theorem heeded (sha256 : Bytes → Sha) (disk : Option Bytes) (a : Replay) (record : Record) :
    Heeded a record (a.heed sha256 disk record).1 (a.heed sha256 disk record).2 := by
  unfold Replay.heed
  cases hhd : a.header with
  | none =>
    cases record with
    | header h => exact heeded_header a h
    | _ => exact heeded_same (.inl hhd)
  | some h' =>
    have hsome : a.header ≠ none := by
      rw [hhd]
      exact Option.some_ne_none h'
    cases record with
    | header h => exact heeded_same (.inr (by rintro ⟨e, he⟩; cases he))
    | checkpoint => exact heeded_taken rfl rfl (Option.some_ne_none h')
    | edit e => exact heeded_edit a e hsome
    | meta' m =>
      cases m with
      | rename path =>
        refine heeded_taken rfl rfl ?_
        simp only [acceptMeta, hhd, Option.map_some]
        exact Option.some_ne_none _
      | _ => exact heeded_taken rfl rfl hsome
    | marker => exact heeded_taken rfl rfl (Option.some_ne_none h')
    | skipped => exact heeded_taken rfl rfl hsome

theorem lastGood_of_reaches (h : Reaches sha256 disk raw pos a) : a.lastGood = pos := by
  cases h with
  | start => rfl
  | next => rfl

theorem header_of_reaches (h : Reaches sha256 disk raw pos a) : pos = 0 ∨ a.header ≠ none := by
  cases h with
  | start => exact .inl rfl
  | @next _ _ b a' record _ _ _ hheed =>
    have h := heeded sha256 disk b record
    rw [hheed] at h
    exact .inr (h.header rfl)

/-! ## Passes over the front of a file -/

/-- A pass over the front of a file is one over the file. -/
theorem reaches_take (h : Reaches sha256 disk (raw.take n) pos a) :
    Reaches sha256 disk raw pos a := by
  induction h with
  | start => exact .start
  | @next pos next a a' record _ hpos hread hheed ih =>
    have hbounds := readRecord_bounds hread
    rw [List.length_take] at hpos hbounds
    refine ih.next (by omega) (readRecord_congr hread ?_) hheed
    rw [List.take_take, Nat.min_eq_left (by omega)]

/-- A pass reaches the same offsets of a file cut behind them. -/
theorem reaches_cut (h : Reaches sha256 disk raw pos a) (hn : pos ≤ n) :
    Reaches sha256 disk (raw.take n) pos a := by
  induction h with
  | start => exact .start
  | @next pos next a a' record _ hpos hread hheed ih =>
    have hbounds := readRecord_bounds hread
    refine (ih (by omega)).next ?_ (readRecord_congr hread ?_) hheed
    · rw [List.length_take]
      omega
    · rw [List.take_take, Nat.min_eq_left hn]

/-- The ends that fit the words of a file fit those of a part of it. -/
theorem endsFit_take (h : EndsFit sha256 disk raw) (n : Nat) : EndsFit sha256 disk (raw.take n) := by
  intro pos a hreach hpos
  rw [List.length_take] at hpos
  obtain ⟨hlists, hrecord⟩ := h pos a (reaches_take hreach) (by omega)
  constructor
  · intro fr hframe hkind
    refine hlists fr ?_ hkind
    rw [readFrame_eq] at hframe ⊢
    cases hof : Frame.of ((raw.take n).drop pos) with
    | error s =>
      rw [hof] at hframe
      cases hframe
    | ok fr' =>
      rw [hof] at hframe
      cases hframe
      obtain ⟨hintact, rfl⟩ := Frame.of_ok hof
      have hroom := hintact.room
      have hsame : (raw.drop pos).take (Frame.extent ((raw.take n).drop pos)) =
          ((raw.take n).drop pos).take (Frame.extent ((raw.take n).drop pos)) := by
        rw [List.drop_take, List.length_take] at hroom
        rw [List.drop_take, List.take_take, Nat.min_eq_left (by omega)]
      obtain ⟨hintact', hat⟩ := hintact.congr hsame
      rw [Frame.of_eq_ok hintact', hat]
      rfl
  · intro record next hread
    refine hrecord record next (readRecord_congr hread ?_)
    have hbounds := readRecord_bounds hread
    rw [List.length_take] at hbounds
    rw [List.take_take, Nat.min_eq_left (by omega)]

/-! ## Files of encoded records -/

/-- The bytes of records written one after the other. -/
def file (rs : List (Record × Bytes)) : Bytes := rs.flatMap Prod.snd

/-- Each record stands with what its encoder wrote. -/
def Encoded (rs : List (Record × Bytes)) : Prop :=
  ∀ p ∈ rs, p.1.Sized ∧ p.1.encode = some (.ok p.2)

/-- The pass takes the records one after the other. -/
inductive Takes (sha256 : Bytes → Sha) (disk : Option Bytes) : List (Record × Bytes) → Replay → Prop
  | nil : Takes sha256 disk [] Replay.default
  | snoc {rs : List (Record × Bytes)} {p : Record × Bytes} {a a' : Replay} :
      Takes sha256 disk rs a → a.heed sha256 disk p.1 = (a', true) →
      Takes sha256 disk (rs ++ [p]) { a' with lastGood := (file rs).length + p.2.length }

theorem file_append (rs rs' : List (Record × Bytes)) : file (rs ++ rs') = file rs ++ file rs' :=
  List.flatMap_append

theorem file_cons (p : Record × Bytes) (rs : List (Record × Bytes)) :
    file (p :: rs) = p.2 ++ file rs := List.flatMap_cons

theorem length_file_snoc (rs : List (Record × Bytes)) (p : Record × Bytes) :
    (file (rs ++ [p])).length = (file rs).length + p.2.length := by
  rw [file_append, List.length_append, file_cons, show file [] = [] from rfl, List.append_nil]

theorem readRecord_file (h : Encoded (rs ++ p :: post)) :
    readRecord (file (rs ++ p :: post)) (file rs).length =
      .ok (p.1, (file rs).length + p.2.length) := by
  obtain ⟨hsized, hencode⟩ := h p (by simp)
  rw [file_append, file_cons, ← List.append_assoc]
  exact readRecord_encode hsized hencode (file rs) (file post)

theorem readRecord_before (h : Encoded (rs ++ p :: post)) (hn : (file rs).length + p.2.length ≤ n) :
    readRecord ((file (rs ++ p :: post)).take n) (file rs).length =
      .ok (p.1, (file rs).length + p.2.length) := by
  refine readRecord_congr (readRecord_file h) ?_
  rw [List.take_take, Nat.min_eq_left hn]

theorem readRecord_across (h : Encoded (rs ++ p :: post)) (hle : (file rs).length ≤ n)
    (hn : n < (file rs).length + p.2.length) :
    readRecord ((file (rs ++ p :: post)).take n) (file rs).length = .error (.stop .torn) := by
  obtain ⟨hsized, hencode⟩ := h p (by simp)
  have hcut : (file (rs ++ p :: post)).take n =
      file rs ++ p.2.take (n - (file rs).length) := by
    rw [file_append, file_cons, List.take_append, List.take_of_length_le hle,
      List.take_append_of_le_length (by omega)]
  rw [hcut]
  exact readRecord_torn hsized hencode (file rs) (by omega)

theorem length_pos_of_encoded (h : Encoded rs) (hp : p ∈ rs) : 0 < p.2.length := by
  obtain ⟨hsized, hencode⟩ := h p hp
  have hbounds := readRecord_bounds (readRecord_encode hsized hencode [] [])
  rw [List.length_nil] at hbounds
  omega

/-- Where a pass over a cut file of encoded records stands. -/
theorem takes_of_reaches (h : Encoded rs) (hreach : Reaches sha256 disk ((file rs).take n) pos a) :
    ∃ taken post, rs = taken ++ post ∧ pos = (file taken).length ∧ pos ≤ n ∧
      Takes sha256 disk taken a := by
  induction hreach with
  | start => exact ⟨[], rs, rfl, rfl, Nat.zero_le _, .nil⟩
  | @next pos next a a' record _ hpos hread hheed ih =>
    obtain ⟨taken, post, rfl, rfl, hle, htakes⟩ := ih
    cases post with
    | nil =>
      rw [List.append_nil, List.length_take] at hpos
      omega
    | cons p post =>
      -- the next record is whole before the cut, or the cut goes through it
      by_cases hn : (file taken).length + p.2.length ≤ n
      · rw [readRecord_before h hn] at hread
        cases hread
        refine ⟨taken ++ [p], post, by simp, (length_file_snoc taken p).symm, hn, ?_⟩
        exact htakes.snoc hheed
      · rw [readRecord_across h hle (by omega)] at hread
        cases hread

/-- A pass comes to the end of the records it takes. -/
theorem reaches_takes {taken : List (Record × Bytes)} (h : Encoded (taken ++ post))
    (htakes : Takes sha256 disk taken a) (hn : (file taken).length ≤ n) :
    Reaches sha256 disk ((file (taken ++ post)).take n) (file taken).length a := by
  induction htakes generalizing post with
  | nil => exact .start
  | @snoc taken p a a' htakes hheed ih =>
    rw [List.append_assoc, List.singleton_append] at h ⊢
    rw [length_file_snoc] at hn ⊢
    have hpos := length_pos_of_encoded h (p := p) (by simp)
    refine (ih h (by omega)).next ?_ (readRecord_before h hn) hheed
    rw [List.length_take, file_append, file_cons]
    simp only [List.length_append]
    omega

end Ruse.Persist
