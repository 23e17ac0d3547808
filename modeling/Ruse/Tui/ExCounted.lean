import Ruse.Tui.ExRange

/-!
# Counted commands are canonical

`counted` rewrites a command with a count. What it writes takes no count any more, and is
left as it is when it is read again (`counted_again`).
-/

namespace Ruse.Tui

open Ruse.Persist

variable {a args rest t tail verb : List Char} {c : Char} {line2 nlines : Int}
  {range : Option (Int × Int)}

/-! ## Command words -/

theorem fullCommandName_abbreviates {word : List Char} {name : String}
    (h : fullCommandName word = some name) : word <+: name.toList := by
  rw [fullCommandName, Option.or_eq_some_iff] at h
  obtain h | ⟨-, h⟩ := h
  · have := List.find?_some h
    rw [beq_iff_eq] at this
    exact this ▸ List.prefix_refl _
  · simp only [lookup, Option.map_eq_some_iff] at h
    obtain ⟨c, hc, rfl⟩ := h
    have := List.find?_some hc
    simp only [Bool.and_eq_true, decide_eq_true_eq] at this
    exact List.isPrefixOf_iff_prefix.mp this.2

theorem fullCommandName_nil : fullCommandName [] = none := by decide

theorem head_of_fullCommandName {word : List Char} {name : String}
    (h : fullCommandName word = some name) : word.head? = name.toList.head? := by
  obtain ⟨rest, hrest⟩ := fullCommandName_abbreviates h
  cases word with
  | nil => simp [fullCommandName_nil] at h
  | cons c word => simp [← hrest]

/-- A print command is `#`, or begins as its name does. -/
theorem head_of_prints (h : prints verb = true) :
    verb.head? ∈ ['#', 'l', 'n'].map some ∨
      verb.head? = some 'p' ∧ fullCommandName verb = some "print" := by
  simp only [prints, Bool.or_eq_true, beq_iff_eq] at h
  obtain ((rfl | h) | h) | h := h
  · simp
  · exact .inr ⟨head_of_fullCommandName h, h⟩
  · left; simp [head_of_fullCommandName h]
  · left; simp [head_of_fullCommandName h]

/-- A command that takes a register is `:delete` or `:yank`. -/
theorem head_of_register (h : takesRegister verb = some true) :
    verb.head? = some 'd' ∨ verb.head? = some 'y' := by
  unfold takesRegister at h
  split at h
  · next hmem => revert verb; decide
  · split at h
    · next hflags =>
      simp only [deletePrintFlags, Bool.and_eq_true, Bool.not_eq_true'] at hflags
      obtain ⟨⟨⟨-, hne⟩, hpre⟩, -⟩ := hflags
      obtain ⟨rest, hrest⟩ := List.isPrefixOf_iff_prefix.mp hpre
      left
      cases verb with
      | nil => simp at hne
      | cons c verb =>
        cases verb with
        | nil => simp at hne
        | cons d verb =>
          rw [List.dropLast_cons_cons] at hrest
          simp at hrest ⊢
          exact hrest.1
    · split at h
      · cases h
      · split at h <;> cases h

theorem not_prints_of_register (h : takesRegister verb = some true) :
    prints verb = false := by
  rw [← Bool.not_eq_true]
  intro hp
  obtain hhead | hhead := head_of_register h <;> obtain hp | ⟨hp, -⟩ := head_of_prints hp <;>
    simp [hhead] at hp

/-- The verbs that take a register begin with one of these letters, but for `print`. -/
theorem head_of_takesRegister {takes : Bool} (h : takesRegister verb = some takes) :
    verb.head? ∈ ['d', 'y', 'j', '>', '<', '#', 'l', 'n'].map some ∨
      verb.head? = some 'p' ∧ fullCommandName verb = some "print" := by
  cases takes with
  | true => left; obtain h | h := head_of_register h <;> simp [h]
  | false =>
    unfold takesRegister at h
    split at h
    · cases h
    · split at h
      · cases h
      · split at h
        · next hmem =>
          left
          have hall : ∀ v ∈ joinVerbs, v.head? = some 'j' := by decide
          simp [hall verb hmem]
        · split at h
          · next hlast =>
            obtain h | h | h := hlast
            · left; simp [h]
            · left; simp [h]
            · obtain h | h := head_of_prints h
              · left
                simp only [List.map_cons, List.map_nil, List.mem_cons, List.not_mem_nil] at h ⊢
                grind
              · exact .inr h
          · cases h

/-! ## Verbs -/

/-- The verb of a command that is not a shift and not `#` is its word, and a `!` if it has one. -/
theorem splitVerb_word (h : ∀ c, tail.head? = some c → c ≠ '>' ∧ c ≠ '<' ∧ c ≠ '#') :
    (∃ rest, tail = tail.takeWhile Char.isAlpha ++ '!' :: rest ∧
      splitVerb tail = (tail.takeWhile Char.isAlpha ++ ['!'], rest)) ∨
    (tail.dropWhile Char.isAlpha).head? ≠ some '!' ∧
      splitVerb tail = (tail.takeWhile Char.isAlpha, tail.dropWhile Char.isAlpha) := by
  unfold splitVerb
  split
  · exact absurd rfl (h '>' rfl).1
  · exact absurd rfl (h '<' rfl).2.1
  · exact absurd rfl (h '#' rfl).2.2
  · dsimp only
    split
    · next rest hrest =>
      left
      refine ⟨rest, ?_, rfl⟩
      rw [← hrest, List.takeWhile_append_dropWhile]
    · next rest hrest =>
      right
      refine ⟨fun hbang => ?_, rfl⟩
      obtain ⟨t, ht⟩ := List.head?_eq_some_iff.mp hbang
      exact hrest t ht

/-- A single letter is no verb with a register. -/
theorem takesRegister_single (h : single tail = true) :
    takesRegister (splitVerb tail).1 = none := by
  cases tail with
  | nil => cases h
  | cons c rest =>
    simp only [single, Bool.and_eq_true, Bool.not_eq_true', Bool.or_eq_true, beq_iff_eq] at h
    obtain ⟨⟨⟨hc, -⟩, -⟩, hname⟩ := h
    set word := (c :: rest).takeWhile Char.isAlpha with hw
    have hhead : word.head? = some 'p' ∨ word.head? = some 'r' := by
      obtain h | h := hname
      · exact .inl (head_of_fullCommandName h)
      · exact .inr (head_of_fullCommandName h)
    have hspecial : ∀ d, (c :: rest).head? = some d → d ≠ '>' ∧ d ≠ '<' ∧ d ≠ '#' := by
      intro d hd
      obtain rfl : c = d := by simpa using hd
      refine ⟨?_, ?_, ?_⟩ <;> rintro rfl <;> revert hc <;> decide
    cases hreg : takesRegister (splitVerb (c :: rest)).1 with
    | none => rfl
    | some takes =>
      obtain ⟨_, -, hsplit⟩ | ⟨-, hsplit⟩ := splitVerb_word hspecial
      · rw [hsplit] at hreg
        have hverb : (word ++ ['!']).head? = word.head? := by
          obtain hhead | hhead := hhead <;> simp [hhead]
        obtain h | ⟨-, h⟩ := head_of_takesRegister hreg
        · rw [← hw, hverb] at h
          obtain hhead | hhead := hhead <;> simp [hhead] at h
        · have hbang : '!' ∈ "print".toList :=
            (fullCommandName_abbreviates h).subset (by simp)
          exact absurd hbang (by decide)
      · rw [hsplit] at hreg
        obtain h | ⟨-, h⟩ := head_of_takesRegister hreg
        · rw [← hw] at h
          obtain hhead | hhead := hhead <;> simp [hhead] at h
        · rw [← hw] at h
          simp [h] at hname

theorem takeWhile_again {p : Char → Bool} (hr : ∀ c, rest.head? = some c → p c = false)
    (l : List Char) :
    (l.takeWhile p ++ rest).takeWhile p = l.takeWhile p ∧
      (l.takeWhile p ++ rest).dropWhile p = rest := by
  have hall : ∀ c ∈ l.takeWhile p, p c = true := fun c hc => List.mem_takeWhile_imp hc
  rw [List.takeWhile_append_of_pos hall, List.dropWhile_append_of_pos hall]
  cases rest with
  | nil => simp
  | cons c rest => simp [hr c rfl]

/-- A word is split off again before a `!` or a blank. -/
theorem splitVerb_of_word (tail : List Char) (hr : ∀ c, rest.head? = some c → c = ' ') :
    splitVerb (tail.takeWhile Char.isAlpha ++ rest) = (tail.takeWhile Char.isAlpha, rest) ∧
      splitVerb (tail.takeWhile Char.isAlpha ++ '!' :: rest) =
        (tail.takeWhile Char.isAlpha ++ ['!'], rest) := by
  have hspecial {r : List Char} (hr : ∀ c, r.head? = some c → c = '!' ∨ c = ' ') :
      ∀ c, (tail.takeWhile Char.isAlpha ++ r).head? = some c → c ≠ '>' ∧ c ≠ '<' ∧ c ≠ '#' := by
    intro c hc
    rw [List.head?_append, Option.or_eq_some_iff] at hc
    obtain hc | ⟨-, hc⟩ := hc
    · have halpha := List.mem_takeWhile_imp (List.mem_of_head? hc)
      refine ⟨?_, ?_, ?_⟩ <;> rintro rfl <;> simp at halpha
    · obtain rfl | rfl := hr c hc <;> decide
  constructor
  · obtain ⟨htake, hdrop⟩ := @takeWhile_again rest Char.isAlpha
      (fun c hc => hr c hc ▸ by decide) tail
    obtain ⟨r, heq, -⟩ | ⟨-, hsplit⟩ := splitVerb_word (hspecial fun c hc => .inr (hr c hc))
    · rw [htake, List.append_cancel_left_eq] at heq
      cases hr '!' (by rw [heq]; rfl)
    · rw [hsplit, htake, hdrop]
  · obtain ⟨htake, hdrop⟩ := @takeWhile_again ('!' :: rest) Char.isAlpha
      (by simp) tail
    obtain ⟨r, heq, hsplit⟩ | ⟨hne, -⟩ := splitVerb_word (hspecial (r := '!' :: rest) (by simp))
    · rw [htake, List.append_cancel_left_eq, List.cons.injEq] at heq
      rw [hsplit, htake, heq.2]
    · simp [hdrop] at hne

theorem splitVerb_shift {d : Char} (hd : d = '>' ∨ d = '<') (htail : tail.head? = some d)
    (h : splitVerb tail = (verb, args)) (hr : ∀ c, rest.head? = some c → c = ' ') :
    splitVerb (verb ++ rest) = (verb, rest) := by
  obtain ⟨l, rfl⟩ := List.head?_eq_some_iff.mp htail
  have hrest : ∀ c, rest.head? = some c → (c == d) = false := by
    intro c hc
    obtain rfl := hr c hc
    obtain rfl | rfl := hd <;> decide
  obtain ⟨htake, hdrop⟩ := takeWhile_again hrest (d :: l)
  have hverb : verb = (d :: l).takeWhile (· == d) := by
    obtain rfl | rfl := hd <;> exact (Prod.mk.inj h).1.symm
  have hcons : (d :: l).takeWhile (· == d) = d :: l.takeWhile (· == d) := by simp
  rw [← hverb] at htake hdrop hcons
  rw [hcons] at htake hdrop ⊢
  obtain rfl | rfl := hd <;> exact Prod.ext htake hdrop

/-- A verb before a blank is split off again. -/
theorem splitVerb_again (h : splitVerb tail = (verb, args))
    (hr : ∀ c, rest.head? = some c → c = ' ') : splitVerb (verb ++ rest) = (verb, rest) := by
  by_cases hgt : tail.head? = some '>'
  · exact splitVerb_shift (.inl rfl) hgt h hr
  by_cases hlt : tail.head? = some '<'
  · exact splitVerb_shift (.inr rfl) hlt h hr
  by_cases hhash : tail.head? = some '#'
  · obtain ⟨l, rfl⟩ := List.head?_eq_some_iff.mp hhash
    obtain ⟨rfl, -⟩ := Prod.mk.inj h
    rfl
  have hword := splitVerb_of_word tail hr
  obtain ⟨_, -, hsplit⟩ | ⟨-, hsplit⟩ := @splitVerb_word tail (by
    intro c hc
    refine ⟨?_, ?_, ?_⟩ <;> rintro rfl <;> contradiction)
  · obtain ⟨rfl, -⟩ := Prod.mk.inj (hsplit.symm.trans h)
    rw [List.append_assoc]
    exact hword.2
  · obtain ⟨rfl, -⟩ := Prod.mk.inj (hsplit.symm.trans h)
    exact hword.1

/-! ## Canonical arguments -/

/-- A text that does not begin with a blank. -/
def Unblank (a : List Char) : Prop := ∀ c, a.head? = some c → isWhitespace c = false

theorem Unblank.before {b : List Char} (h : Unblank b) (hab : a <+: b) : Unblank a := by
  intro c hc
  obtain ⟨rest, rfl⟩ := hab
  exact h c (by simp [hc])

theorem unblank_dropWhile (l : List Char) : Unblank (l.dropWhile isWhitespace) := by
  intro c hc
  have := List.head?_dropWhile_not isWhitespace l
  rw [hc] at this
  simpa using this

theorem Unblank.dropWhile (h : Unblank a) : a.dropWhile isWhitespace = a := by
  cases a with
  | nil => rfl
  | cons c a => exact List.dropWhile_cons_of_neg (by simp [h c rfl])

theorem unblank_trim (l : List Char) : Unblank (trim l) :=
  (unblank_dropWhile l).before (List.rdropWhile_prefix isWhitespace _)

/-- What a canonical command has after its verb: nothing, a register or flags. -/
inductive Arguments (verb : List Char) : Bool → List Char → Prop where
  | nothing (takes : Bool) : Arguments verb takes []
  | register (c : Char) (hc : isRegister c = true) : Arguments verb true [' ', c]
  | flags (fs : List Char) (hp : prints verb = true) (hne : fs ≠ [])
    (hall : ∀ c ∈ fs, isFlag c = true) (hhead : Unblank fs)
    (hlast : fs.rdropWhile isWhitespace = fs) : Arguments verb false (' ' :: fs)

theorem Arguments.head {takes : Bool} (h : Arguments verb takes rest) :
    ∀ c, rest.head? = some c → c = ' ' := by
  cases h <;> simp

theorem arguments_flags {takes : Bool} (ht : takesRegister verb = some takes) (ha : Unblank a)
    (hne : (splitFlags (prints verb) a).1 ≠ []) :
    Arguments verb takes (' ' :: (splitFlags (prints verb) a).1) := by
  unfold splitFlags at hne ⊢
  split at hne
  · next hp =>
    have htakes : takes = false := by
      rw [← Bool.not_eq_true]
      rintro rfl
      simp [not_prints_of_register ht] at hp
    subst htakes
    have hpre := List.rdropWhile_prefix isWhitespace (a.takeWhile isFlag)
    rw [if_pos hp]
    exact .flags _ hp hne (fun c hc => List.mem_takeWhile_imp (hpre.subset hc))
      (ha.before (hpre.trans (List.takeWhile_prefix _))) (List.rdropWhile_idempotent _ _)
  · exact absurd rfl hne

theorem register_plain (h : isRegister c = true) : isWhitespace c = false ∧ c ≠ '"' := by
  simp only [isRegister, Bool.or_eq_true, beq_iff_eq] at h
  obtain ((((h | rfl) | rfl) | rfl) | rfl) | rfl := h
  · have hbounds : 65 ≤ c.toNat ∧ c.toNat ≤ 90 ∨ 97 ≤ c.toNat ∧ c.toNat ≤ 122 := by
      delta Char.isAlpha Char.isUpper Char.isLower at h
      simpa [UInt32.le_iff_toNat_le] using h
    constructor
    · simp only [isWhitespace, Bool.or_eq_false_iff, Bool.and_eq_false_iff, decide_eq_false_iff_not,
        beq_eq_false_iff_ne]
      omega
    · rintro rfl
      simp at h
  all_goals decide

theorem flag_plain (h : isFlag c = true) : c.isDigit = false ∧ c ≠ '"' := by
  simp only [isFlag, Bool.or_eq_true, beq_iff_eq] at h
  obtain (((rfl | rfl) | rfl) | rfl) | rfl := h <;> decide

/-- Canonical arguments are counted to themselves, or not at all. -/
theorem counted_arguments {takes : Bool} {l n : Int} (hsplit : splitVerb tail = (verb, args))
    (ht : takesRegister verb = some takes) (h : Arguments verb takes rest) :
    counted (verb ++ rest) l n = .ok none ∨
      counted (verb ++ rest) l n = .ok (some (none, verb ++ rest)) := by
  unfold counted
  rw [splitVerb_again hsplit h.head]
  dsimp only
  rw [ht]
  cases h with
  | nothing => left; rfl
  | register c hc =>
    right
    obtain ⟨hblank, hquote⟩ := register_plain hc
    have hp := not_prints_of_register ht
    have hfree : trim (commentFree [' ', c]) = [c] := by
      have hspace : isWhitespace ' ' = true := by decide
      simp [commentFree, hquote, trim, hspace, hblank, List.rdropWhile_singleton]
    simp [hfree, splitRegister, hc, splitCount, hp, splitFlags, canonical]
  | flags fs hp hne hall hhead hlast =>
    right
    have hfree : trim (commentFree (' ' :: fs)) = fs := by
      have hspace : isWhitespace ' ' = true := by decide
      have hquote : (' ' :: fs).takeWhile (· != '"') = ' ' :: fs := by
        refine List.takeWhile_eq_self_iff.mpr fun c hc => ?_
        obtain rfl | hc := List.mem_cons.mp hc
        · decide
        · simpa using (flag_plain (hall c hc)).2
      rw [commentFree, hquote, trim, List.dropWhile_cons_of_pos hspace, hhead.dropWhile, hlast]
    have hreg : splitRegister false fs = (none, fs) := by cases fs <;> simp [splitRegister]
    have hdigits : fs.takeWhile Char.isDigit = [] := by
      cases fs with
      | nil => rfl
      | cons c fs =>
        exact List.takeWhile_cons_of_neg (by simp [(flag_plain (hall c List.mem_cons_self)).1])
    have htake : fs.takeWhile isFlag = fs := List.takeWhile_eq_self_iff.mpr hall
    have hdrop : fs.dropWhile isFlag = [] := List.dropWhile_eq_nil_iff.mpr hall
    simp [hfree, hne, hreg, splitCount, hdigits, splitFlags, hp, htake, hdrop, hlast, canonical]

/-! ## Counting -/

/-- The range of a count begins at `line2` and stays in the buffer. -/
def CountRange (line2 nlines : Int) (range : Int × Int) : Prop :=
  range.1 = line2 ∧ line2 ≤ range.2 ∧ range.2 ≤ nlines

theorem splitCount_spec {count : Option Int} (ha : Unblank a) (h : splitCount a = .ok (count, rest)) :
    Unblank rest ∧ ∀ n, count = some n → 1 ≤ n := by
  unfold splitCount at h
  dsimp only at h
  split at h
  · obtain ⟨rfl, rfl⟩ := Prod.mk.inj (Except.ok.inj h)
    exact ⟨ha, by simp⟩
  · split at h
    · cases h
    · next hzero =>
      obtain ⟨rfl, rfl⟩ := Prod.mk.inj (Except.ok.inj h)
      refine ⟨unblank_dropWhile _, fun n hn => ?_⟩
      obtain rfl := Option.some.inj hn
      have hnonneg : 0 ≤ parseNumber (a.takeWhile Char.isDigit) := by
        rw [parseNumber, i64Max]
        omega
      omega

theorem unblank_splitRegister {takes : Bool} (ha : Unblank a) :
    Unblank (splitRegister takes a).2 := by
  unfold splitRegister
  split
  · split
    · exact unblank_dropWhile _
    · exact ha
  · simp [Unblank]

theorem register_spec {takes : Bool} (h : (splitRegister takes a).1 = some c) :
    takes = true ∧ isRegister c = true := by
  unfold splitRegister at h
  split at h
  · split at h
    · next hreg =>
      obtain rfl := Option.some.inj h
      simpa using hreg
    · cases h
  · cases h

theorem canonical_spec {takes : Bool} {reg : Option Char} (ht : takesRegister verb = some takes)
    (hreg : ∀ c, reg = some c → takes = true ∧ isRegister c = true) (ha : Unblank a) :
    ∃ rest, Arguments verb takes rest ∧
      canonical verb reg (splitFlags (prints verb) a).1 = verb ++ rest := by
  cases reg with
  | some c =>
    obtain ⟨rfl, hc⟩ := hreg c rfl
    refine ⟨[' ', c], .register c hc, ?_⟩
    simp [splitFlags, not_prints_of_register ht, canonical]
  | none =>
    by_cases hne : (splitFlags (prints verb) a).1 = []
    · exact ⟨[], .nothing takes, by simp [canonical, hne]⟩
    · exact ⟨_, arguments_flags ht ha hne, by simp [canonical, hne]⟩

/-- What a counted command comes back as: its verb with canonical arguments, after a range
that begins at `line2`. -/
structure Counts (tail : List Char) (line2 nlines : Int) (range : Option (Int × Int))
    (t : List Char) : Prop where
  verb : ∃ verb args takes rest, splitVerb tail = (verb, args) ∧ takesRegister verb = some takes ∧
    Arguments verb takes rest ∧ t = verb ++ rest
  range : ∀ r, range = some r → 0 ≤ line2 → line2 ≤ nlines → nlines ≤ i64Max →
    CountRange line2 nlines r

/-- A counted command comes back with canonical arguments, over a range from `line2`. -/
theorem counted_spec (h : counted tail line2 nlines = .ok (some (range, t))) :
    Counts tail line2 nlines range t := by
  unfold counted at h
  generalize hsplit : splitVerb tail = split at h
  obtain ⟨verb, args⟩ := split
  dsimp only at h
  split at h
  · cases h
  next takes ht =>
  split at h
  · split at h
    · cases h
    · obtain ⟨rfl, rfl⟩ := Prod.mk.inj (Option.some.inj (Except.ok.inj h))
      exact ⟨⟨verb, args, takes, [], hsplit, ht, .nothing takes, by simp⟩, by simp⟩
  split at h
  · cases h
  next count a hcount =>
  obtain ⟨hblank, hpos⟩ := splitCount_spec (unblank_splitRegister (unblank_trim _)) hcount
  split at h
  next hempty =>
    obtain ⟨rfl, rfl⟩ := Prod.mk.inj (Option.some.inj (Except.ok.inj h))
    obtain ⟨rest, harguments, ht'⟩ := canonical_spec ht (fun c hc => register_spec hc) hblank
    refine ⟨⟨verb, args, takes, rest, hsplit, ht, harguments, ht'⟩, fun r hr h0 hle hmax => ?_⟩
    obtain ⟨k, hk, rfl⟩ := Option.map_eq_some_iff.mp hr
    have hk := hpos k hk
    refine ⟨rfl, ?_, min_le_right _ _⟩
    rw [saturate]
    simp only [le_min_iff, le_max_iff]
    omega
  · cases h

/-! ## Counting again -/

theorem splitVerb_append (tail : List Char) :
    (splitVerb tail).1 ++ (splitVerb tail).2 = tail := by
  unfold splitVerb
  split
  · exact List.takeWhile_append_dropWhile
  · exact List.takeWhile_append_dropWhile
  · rfl
  · have hword : tail.takeWhile Char.isAlpha ++ tail.dropWhile Char.isAlpha = tail :=
      List.takeWhile_append_dropWhile
    split
    · next rest hrest =>
      rw [hrest] at hword
      simpa using hword
    · exact hword

/-- The letters and signs that counted commands begin with. -/
def countedHeads : List Char := ['d', 'y', 'j', '>', '<', '#', 'l', 'n', 'p']

theorem counted_head {takes : Bool} (h : takesRegister (splitVerb tail).1 = some takes) :
    ∃ c rest, tail = c :: rest ∧ c ∈ countedHeads := by
  have hverb : ∃ c ∈ countedHeads, (splitVerb tail).1.head? = some c := by
    obtain h | ⟨h, -⟩ := head_of_takesRegister h
    · obtain ⟨c, hc, heq⟩ := List.mem_map.mp h
      exact ⟨c, List.mem_append_left ['p'] hc, heq.symm⟩
    · exact ⟨'p', by decide, h⟩
  obtain ⟨c, hc, hhead⟩ := hverb
  obtain ⟨l, hl⟩ := List.head?_eq_some_iff.mp hhead
  refine ⟨c, l ++ (splitVerb tail).2, ?_, hc⟩
  rw [← List.cons_append, ← hl, splitVerb_append]

theorem Counts.again (h : Counts tail line2 nlines range t) (l n : Int) :
    counted t l n = .ok none ∨ counted t l n = .ok (some (none, t)) := by
  obtain ⟨verb, args, takes, rest, hsplit, ht, harguments, rfl⟩ := h.verb
  exact counted_arguments hsplit ht harguments

theorem Counts.takes (h : Counts tail line2 nlines range t) :
    ∃ takes, takesRegister (splitVerb tail).1 = some takes ∧
      takesRegister (splitVerb t).1 = some takes := by
  obtain ⟨verb, args, takes, rest, hsplit, ht, harguments, rfl⟩ := h.verb
  rw [hsplit, splitVerb_again hsplit harguments.head]
  exact ⟨takes, ht, ht⟩

theorem counted_none (h : counted tail line2 nlines = .ok none) (l n : Int) :
    counted tail l n = .ok none := by
  unfold counted at h ⊢
  generalize splitVerb tail = split at h ⊢
  dsimp only at h ⊢
  cases ht : takesRegister split.1 with
  | none => rfl
  | some takes =>
    rw [ht] at h
    dsimp only at h ⊢
    split at h
    · next ha => rw [if_pos ha, ← h]
    · split at h
      · cases h
      · split at h <;> cases h

end Ruse.Tui
