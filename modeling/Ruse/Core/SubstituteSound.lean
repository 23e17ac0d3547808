import Ruse.Core.SubstituteScan

/-!
# `:s` is sound

The substitutions that `:s` and `:g` collect lie inside the text, on character boundaries
and off the final newline, whatever the engine answers. They apply together unless the scan
comes to one of two states: an empty match followed by another one at its place (`Doubled`),
or, in `:g`, a line scanned although an earlier line's match has replaced what it finds
(`Rescanned`).

`Ok` is the invariant of a scan that meets neither, `Fresh` the one of a single command,
which never scans a line twice.
-/

namespace Ruse.Core

open Ruse.Lib

namespace SubCommand

variable (c : SubCommand)
variable {p : Match × Nat} {col group : Nat} {m : Match}

/-! ## The states that go wrong -/

/-- The match in hand is empty, and the next one begins at its place. -/
def Doubled (last : Nat) (s : SubScan) : Prop :=
  ∃ t p p', c.step last s = some t ∧ c.pushed s = some p ∧ c.pushed t = some p' ∧
    p'.1.start = p.1.start

/-- The first match of the line begins before the end of a substitution made already, or at
the place of one that fills it. -/
def Rescanned (last : Nat) (s : SubScan) : Prop :=
  ∃ li t p, s.at' = .line li ∧ c.step last s = some t ∧ c.pushed t = some p ∧
    ∃ sub ∈ s.out, c.place p.1.start < sub.stop ∨ c.place p.1.start = sub.start ∧ c.Fills

/-- The call meets no empty match that is filled and followed by another one at its place. -/
def NoneDoubled (first last : Nat) (st : Option Nat × List Substitution) : Prop :=
  if c.re.multiline then
    c.Fills → ∀ s, Through stops (c.step last) (c.start first st) s → ¬ c.Doubled last s
  else ∀ l ∈ c.scanned first last, c.LineClear l.2

/-- The call scans no line whose first match is replaced already. -/
def NoneRescanned (first last : Nat) (st : Option Nat × List Substitution) : Prop :=
  c.re.multiline = true → ∀ s, Through stops (c.step last) (c.start first st) s →
    ¬ c.Rescanned last s

/-- Every call of a `:g` on the marked lines meets neither. -/
def CallsClear : List Nat → Option Nat × List Substitution → Prop
  | [], _ => True
  | li :: rest, st => (c.NoneDoubled li li st ∧ c.NoneRescanned li li st) ∧
    ∀ st', c.findSubstitutions li li st = some st' → CallsClear rest st'

/-! ## The substitutions made -/

section Scan

variable {c} {s t : SubScan} {last : Nat}

theorem pushed_spec (h : c.pushed s = some p) :
    ∃ cur col prevEnd, s.at' = .found p.2 cur col prevEnd p.1 ∧ p.1.start < c.hay.length ∧
      ¬ passedOver col prevEnd p.1 := by
  unfold pushed at h
  split at h
  · rename_i hs
    split at h
    · rename_i hcond
      cases h
      exact ⟨_, _, _, hs, hcond⟩
    · cases h
  · cases h

theorem Made.inside {consumed : Option Nat} {sub : Substitution} (h : c.Made consumed sub) :
    sub.Inside c.b := by
  obtain ⟨_, _, _, _, rfl, hh, hk, hhk, hlt, -⟩ := h
  exact sub_inside hh hk hhk hlt

/-- What holds of a scan that meets no bad state: its substitutions apply together, and the
match in hand is ahead of them. -/
structure Ok (c : SubCommand) (s : SubScan) : Prop where
  apart : s.out.Pairwise Substitution.Apart
  ahead : ∀ p, c.pushed s = some p → ∀ sub ∈ s.out,
    sub.stop ≤ c.place p.1.start ∧ (sub.start = c.place p.1.start → ¬ sub.edit.Changes)
  behind : ∀ group cur col e m, s.at' = .found group cur col (some e) m →
    ∀ sub ∈ s.out, sub.stop ≤ c.place col

/-- The first match of a line lies behind what was pushed, unless lines are scanned again. -/
theorem finds_ahead {li : Nat} (hinv : c.Inv s) (hs : s.at' = .line li) (hli : li < c.ls.length)
    (hopen : ∀ e, s.consumed = some e → e < startAt c.ls li) (hstep : c.step last s = some t)
    (hclear : ¬ c.Rescanned last s) (hp : c.pushed t = some p) {sub : Substitution}
    (hsub : sub ∈ s.out) :
    sub.stop ≤ c.place p.1.start ∧ (sub.start = c.place p.1.start → ¬ sub.edit.Changes) := by
  have hnot : ¬ (c.place p.1.start < sub.stop ∨ c.place p.1.start = sub.start ∧ c.Fills) :=
    fun h => hclear ⟨li, t, p, hs, hstep, hp, sub, hsub, h⟩
  have hstop : sub.stop ≤ c.place p.1.start := Nat.le_of_not_lt fun h => hnot (.inl h)
  refine ⟨hstop, fun hstart => ?_⟩
  have hfills : ¬ c.Fills := fun h => hnot (.inr ⟨hstart.symm, h⟩)
  obtain ⟨h, k, matched, line, rfl, hh, hk, hhk, hlt, hempty⟩ := hinv.made sub hsub
  simp only [SubCommand.sub] at hstop hstart
  have hkh : h = k := by
    by_contra hne
    have := c.place_lt hh hk (by omega) hlt
    omega
  have hclosed : ¬ c.Closed s.consumed := by
    rintro ⟨e, he, hend⟩
    have := hopen e he
    have := startAt_mono c.ls (Nat.le_of_lt hli)
    rw [← hay_length] at this
    omega
  rw [(hempty hkh).resolve_right hclosed, ← hkh]
  exact sub_same hfills

theorem pushes_behind (hm : c.Found col m) (hin : m.stop < c.hay.length)
    (hout : t.out = s.out ++ [c.subOf m group])
    (hbefore : ∀ sub ∈ s.out, sub.stop ≤ c.place m.start) :
    ∀ sub ∈ t.out, sub.stop ≤ c.place m.stop := by
  intro sub hsub
  rw [hout] at hsub
  rcases List.mem_append.mp hsub with hsub | hsub
  · exact Nat.le_trans (hbefore sub hsub)
      (c.place_le hm.start_boundary hm.stop_boundary hm.start_le hin)
  · have hclamp : min m.stop (c.hay.length - 1) = m.stop := by omega
    rw [List.mem_singleton.mp hsub, subOf, hclamp]
    exact Nat.le_refl _

theorem pushed_of_found {cur : Nat} {prevEnd : Option Nat}
    (hs : s.at' = .found group cur col prevEnd m) (hlt : m.start < c.hay.length)
    (hover : ¬ passedOver col prevEnd m) : c.pushed s = some (m, group) := by
  rw [pushed, hs]
  exact if_pos ⟨hlt, hover⟩

/-- The next match of the line lies behind those pushed, unless one is doubled. -/
theorem pushes_ahead {cur : Nat} {prevEnd : Option Nat} (hinv : c.Inv s)
    (hs : s.at' = .found group cur col prevEnd m) (hlt : m.start < c.hay.length)
    (hover : ¬ passedOver col prevEnd m) (hin : m.stop < c.hay.length)
    (hout : t.out = s.out ++ [c.subOf m group]) (hstep : c.step last s = some t)
    (hclear : c.Fills → ¬ c.Doubled last s) (hok : Ok c s) (hp : c.pushed t = some p)
    (hm' : c.Found m.stop p.1) :
    ∀ sub ∈ t.out, sub.stop ≤ c.place p.1.start ∧ (sub.start = c.place p.1.start → ¬ sub.edit.Changes) := by
  obtain ⟨-, hm, -⟩ := hinv.hand _ _ _ _ _ hs
  have hstart := hm.start_le
  have hasked := hm'.asked
  have hlt' : p.1.start < c.hay.length := by
    obtain ⟨_, _, _, _, hlt', _⟩ := pushed_spec hp
    exact hlt'
  have hpush := pushed_of_found hs hlt hover
  have hle := c.place_le hm.start_boundary hm.stop_boundary hstart hin
  have hle' := c.place_le hm.stop_boundary hm'.start_boundary hasked hlt'
  intro sub hsub
  have hbehind := pushes_behind hm hin hout (fun s' hs' => (hok.ahead _ hpush s' hs').1) sub hsub
  refine ⟨by omega, fun hst => ?_⟩
  rw [hout] at hsub
  rcases List.mem_append.mp hsub with hsub | hsub
  · obtain ⟨hstop, hsame⟩ := hok.ahead _ hpush sub hsub
    have hin' := (hinv.made sub hsub).inside.start_le
    dsimp only at hstop hsame
    exact hsame (by omega)
  · have hclamp : min m.stop (c.hay.length - 1) = m.stop := by omega
    rw [List.mem_singleton.mp hsub, subOf, hclamp] at hst ⊢
    -- the two matches begin at one place, so the first is empty
    have heq : m.start = p.1.start := by
      by_contra hne
      have := c.place_lt hm.start_boundary hm'.start_boundary (by omega) hlt'
      simp only [SubCommand.sub] at hst
      omega
    have hempty : m.stop = m.start := by omega
    rw [hempty, slice_self]
    exact sub_same fun hfills => hclear hfills ⟨t, _, p, hstep, hpush, hp, heq.symm⟩

/-- A move outside the two faults keeps the substitutions apart. -/
theorem Move.ok (h : c.Move s t) (hinv : c.Inv s) (hstep : c.step last s = some t)
    (hclear : (c.Fills → ¬ c.Doubled last s) ∧ ¬ c.Rescanned last s) (hok : Ok c s) : Ok c t := by
  have hinv' := h.inv hinv
  refine ⟨?_, fun p hp => ?_, ?_⟩
  · rw [h.out]
    cases hp : c.pushed s with
    | none => simpa using hok.apart
    | some p =>
      refine List.pairwise_append.mpr ⟨hok.apart, List.pairwise_singleton _ _, fun sub hsub s' hs' => ?_⟩
      rw [Option.map_some, Option.toList_some, List.mem_singleton] at hs'
      rw [hs']
      obtain ⟨hstop, hsame⟩ := hok.ahead p hp sub hsub
      exact ⟨hstop, fun hchange _ hst => hsame hst hchange⟩
  · obtain ⟨cur', col', prev', ht', hlt', -⟩ := pushed_spec hp
    cases h with
    | ends _ ht => rw [ht] at ht'; cases ht'
    | skips _ ht => rw [ht] at ht'; cases ht'
    | finds hs ht hli hm hopen hout =>
      rw [hout]
      exact fun sub hsub => finds_ahead hinv hs hli hopen hstep hclear.2 hp hsub
    | @passes group cur col prevEnd m hs hover ht hout =>
      rcases ht with ht | ⟨next, m', ht, hnext, hon, hm⟩
      · rw [ht] at ht'
        cases ht'
      rw [ht] at ht'
      cases ht'
      obtain ⟨hon₀, -, -⟩ := hinv.hand _ _ _ _ _ hs
      have hasked := hm.asked
      have hlt := c.place_lt hon₀.boundary hm.start_boundary (by omega) hlt'
      intro sub hsub
      rw [hout] at hsub
      rw [hover.1] at hs
      have hstop := hok.behind _ _ _ _ _ hs sub hsub
      have := (hinv.made sub hsub).inside.start_le
      exact ⟨by omega, fun hst => by omega⟩
    | pushes hs hlt hover ht hout =>
      rcases ht with ht | ⟨m', hin, hm, ht⟩
      · rw [ht] at ht'
        cases ht'
      rw [ht] at ht'
      cases ht'
      exact pushes_ahead hinv hs hlt hover hin hout hstep hclear.1 hok hp hm
  · intro group cur col e m ht' sub hsub
    cases h with
    | ends _ ht => rw [ht] at ht'; cases ht'
    | skips _ ht => rw [ht] at ht'; cases ht'
    | finds _ ht => rw [ht] at ht'; cases ht'
    | passes hs hover ht hout =>
      rcases ht with ht | ⟨next, m', ht, hnext, hon, -⟩
      · rw [ht] at ht'
        cases ht'
      rw [ht] at ht'
      cases ht'
      obtain ⟨hon₀, -, -⟩ := hinv.hand _ _ _ _ _ hs
      have hlt := c.place_lt hon₀.boundary hon.boundary hnext hon.lt
      rw [hout] at hsub
      have := hok.behind _ _ _ _ _ hs sub hsub
      omega
    | pushes hs hlt hover ht hout =>
      rcases ht with ht | ⟨m', hin, -, ht⟩
      · rw [ht] at ht'
        cases ht'
      rw [ht] at ht'
      cases ht'
      exact pushes_behind (hinv.hand _ _ _ _ _ hs).2.1 hin hout
        (fun s' hs' => (hok.ahead _ (pushed_of_found hs hlt hover) s' hs').1) sub hsub

end Scan

/-! ## A run of the scan -/

section Run

variable {c} {s t u : SubScan} {first last : Nat} {st : Option Nat × List Substitution}

theorem move_of_step (hlast : last < c.ls.length) (hinv : c.Inv s) (hgo : stops s = false)
    (hstep : c.step last s = some t) : c.Move s t := by
  obtain ⟨t', hstep', hmove⟩ := step_moves hlast hinv hgo
  rw [hstep] at hstep'
  cases hstep'
  exact hmove

theorem through_inv (hlast : last < c.ls.length) (hinv : c.Inv s)
    (h : Through stops (c.step last) s u) : c.Inv u ∧ s.out <+: u.out := by
  refine h.keeps (P := fun t => c.Inv t ∧ s.out <+: t.out) (fun t t' ht hgo hstep => ?_)
    ⟨hinv, List.prefix_rfl⟩
  have hmove := move_of_step hlast ht.1 hgo hstep
  exact ⟨hmove.inv ht.1, ht.2.trans ⟨_, hmove.out.symm⟩⟩

theorem start_inv (first : Nat) (hmade : ∀ sub ∈ st.2, c.Made st.1 sub) : c.Inv (c.start first st) :=
  ⟨hmade, fun _ _ _ _ _ h => by cases h⟩

theorem scan_ends (first : Nat) (hlast : last < c.ls.length) (hmade : ∀ sub ∈ st.2, c.Made st.1 sub)
    (hmulti : c.re.multiline = true) :
    ∃ s, c.findSubstitutions first last st = some (s.consumed, s.out) ∧
      Through stops (c.step last) (c.start first st) s ∧ stops s = true ∧ c.Inv s := by
  have hfuel : c.left (c.start first st) < 3 * c.hay.length + 6 := by
    unfold left start
    dsimp only
    split <;> omega
  obtain ⟨s, hrun, hthrough, hend, hinv⟩ := loop_ends (I := c.Inv) (μ := c.left)
    (fun s hs hgo => by
      obtain ⟨t, hstep, hmove⟩ := step_moves hlast hs hgo
      exact ⟨t, hstep, hmove.inv hs, hmove.left hs hgo⟩) (start_inv first hmade) hfuel
  exact ⟨s, by rw [findSubstitutions, if_pos hmulti, hrun, Option.map_some], hthrough, hend, hinv⟩

theorem two_pushed (hlast : last < c.ls.length) (hinv : c.Inv u) (hgo : stops u = false)
    (hstep : c.step last u = some t) (hp : c.pushed t = some p)
    (h : Through stops (c.step last) u s) (hend : stops s = true) :
    (u.out ++ ((c.pushed u).map fun p => c.subOf p.1 p.2).toList) ++ [c.subOf p.1 p.2] <+: s.out := by
  have hmove := move_of_step hlast hinv hgo hstep
  have hinv' := hmove.inv hinv
  have hgo' : stops t = false := by
    obtain ⟨_, _, _, ht, -⟩ := pushed_spec hp
    rw [stops, ht]
    rfl
  obtain ⟨v, hstep', hmove'⟩ := step_moves hlast hinv' hgo'
  have hv := (Through.step hgo hstep (.step hgo' hstep' (.refl v))).ahead h hend
  have hout := hmove'.out
  rw [hp, hmove.out] at hout
  have := (through_inv hlast (hmove'.inv hinv') hv).2
  rwa [hout] at this

/-- The substitutions of a scan apply together exactly when those before it do and it comes
to no bad state. -/
theorem scan_applies (hlast : last < c.ls.length) (hmade : ∀ sub ∈ st.2, c.Made st.1 sub)
    (h : Through stops (c.step last) (c.start first st) s) (hend : stops s = true) :
    s.out.Pairwise Substitution.Apart ↔ st.2.Pairwise Substitution.Apart ∧
      ∀ u, Through stops (c.step last) (c.start first st) u →
        (c.Fills → ¬ c.Doubled last u) ∧ ¬ c.Rescanned last u := by
  have hinv₀ := start_inv first hmade
  constructor
  · intro hall
    refine ⟨hall.sublist (through_inv hlast hinv₀ h).2.sublist, fun u hu => ?_⟩
    have hinv := (through_inv hlast hinv₀ hu).1
    have hto := hu.ahead h hend
    refine ⟨?_, ?_⟩
    · rintro hfills ⟨t, p, p', hstep, hp, hp', hsame⟩
      have hgo : stops u = false := by
        obtain ⟨_, _, _, hat, -⟩ := pushed_spec hp
        rw [stops, hat]
        rfl
      have hpair := hall.sublist (two_pushed hlast hinv hgo hstep hp' hto hend).sublist
      rw [hp, Option.map_some, Option.toList_some] at hpair
      have hapart := (List.pairwise_append.mp hpair).2.2 _ (List.mem_append_right _
        List.mem_cons_self) _ List.mem_cons_self
      exact hapart.2 (sub_changes hfills) (sub_changes hfills) (by simp only [subOf, SubCommand.sub, hsame])
    · rintro ⟨li, t, p, hat, hstep, hp, sub, hsub, hbad⟩
      have hgo : stops u = false := by
        rw [stops, hat]
        rfl
      have hpair := hall.sublist (two_pushed hlast hinv hgo hstep hp hto hend).sublist
      have hapart := (List.pairwise_append.mp hpair).2.2 _ (List.mem_append_left _ hsub) _
        List.mem_cons_self
      rcases hbad with hlt | ⟨hstart, hfills⟩
      · exact absurd hapart.1 (Nat.not_le_of_lt hlt)
      · obtain ⟨_, _, _, _, rfl, -⟩ := hinv.made sub hsub
        exact hapart.2 (sub_changes hfills) (sub_changes hfills) hstart.symm
  · rintro ⟨hbefore, hclear⟩
    have hok₀ : Ok c (c.start first st) :=
      ⟨hbefore, fun p hp => (by cases hp), fun _ _ _ _ _ h => by cases h⟩
    have hall := h.keeps (P := fun u => Through stops (c.step last) (c.start first st) u ∧ c.Inv u ∧ Ok c u)
      (fun u t hpast hgo hstep => by
        obtain ⟨hu, hinv, hok⟩ := hpast
        have hmove := move_of_step hlast hinv hgo hstep
        exact ⟨hu.trans (.step hgo hstep (.refl t)), hmove.inv hinv,
          hmove.ok hinv hstep (hclear u hu) hok⟩) ⟨.refl _, hinv₀, hok₀⟩
    exact hall.2.2.apart

/-! ## One command -/

/-- What holds of the scan of a single command: everything made lies above. -/
structure Fresh (c : SubCommand) (s : SubScan) : Prop where
  ordered : s.out.Pairwise fun sub sub' => sub.stop ≤ sub'.start
  line : ∀ li, s.at' = .line li → li < c.ls.length → ∀ sub ∈ s.out, sub.stop < c.place (startAt c.ls li)
  found : ∀ group cur col prevEnd m, s.at' = .found group cur col prevEnd m →
    ∀ sub ∈ s.out, sub.stop ≤ c.place col

theorem above_line {li : Nat} (hcol : IsCharBoundary c.hay col) (hli : li < c.ls.length)
    (hlt : col < startAt c.ls li) {subs : List Substitution}
    (h : ∀ sub ∈ subs, sub.stop ≤ c.place col) :
    ∀ sub ∈ subs, sub.stop < c.place (startAt c.ls li) := by
  intro sub hsub
  have hstart := startAt_lt c.ls hli (Nat.le_refl _)
  rw [← hay_length] at hstart
  have := c.place_lt hcol (c.startAt_boundary (Nat.le_of_lt hli)) hlt hstart
  have := h sub hsub
  omega

/-- A move keeps the lines still to scan fresh. -/
theorem Move.fresh (h : c.Move s t) (hinv : c.Inv s) (hfresh : Fresh c s) : Fresh c t := by
  cases h with
  | ends hs ht hout =>
    exact ⟨by rw [hout]; exact hfresh.ordered, fun _ hl => (by rw [ht] at hl; cases hl),
      fun _ _ _ _ _ hf => by rw [ht] at hf; cases hf⟩
  | skips hs ht hlt hli hout =>
    refine ⟨by rw [hout]; exact hfresh.ordered, fun lj hl hlj => ?_,
      fun _ _ _ _ _ hf => by rw [ht] at hf; cases hf⟩
    rw [ht] at hl
    cases hl
    rw [hout]
    exact above_line (c.startAt_boundary (Nat.le_of_lt hli)) hlj (startAt_lt c.ls hlt (Nat.le_of_lt hlj))
      fun sub hsub => Nat.le_of_lt (hfresh.line _ hs hli sub hsub)
  | finds hs ht hli hm hopen hout =>
    refine ⟨by rw [hout]; exact hfresh.ordered, fun _ hl => (by rw [ht] at hl; cases hl),
      fun _ _ _ _ _ hf => ?_⟩
    rw [ht] at hf
    cases hf
    rw [hout]
    exact fun sub hsub => Nat.le_of_lt (hfresh.line _ hs hli sub hsub)
  | @passes group cur col prevEnd m hs hover ht hout =>
    obtain ⟨hon, -, -⟩ := hinv.hand _ _ _ _ _ hs
    obtain ⟨-, hnext, -, -⟩ := c.stopAt_spec hon.line
    have hbehind := hfresh.found _ _ _ _ _ hs
    refine ⟨by rw [hout]; exact hfresh.ordered, fun _ hl hlj => ?_, fun _ _ _ _ _ hf => ?_⟩
    · rcases ht with ht | ⟨_, _, ht, -⟩ <;> rw [ht] at hl <;> cases hl
      rw [hout]
      exact above_line hon.boundary hlj (by have := hon.le_stop; omega) hbehind
    · rcases ht with ht | ⟨next, m', ht, hcol, hon', -⟩ <;> rw [ht] at hf <;> cases hf
      rw [hout]
      exact fun sub hsub => Nat.le_trans (hbehind sub hsub)
        (c.place_le hon.boundary hon'.boundary (Nat.le_of_lt hcol) hon'.lt)
  | @pushes group cur col prevEnd m hs hlt hover ht hout =>
    obtain ⟨hon, hm, -⟩ := hinv.hand _ _ _ _ _ hs
    have hbefore : ∀ sub ∈ s.out, sub.stop ≤ c.place m.start := fun sub hsub =>
      Nat.le_trans (hfresh.found _ _ _ _ _ hs sub hsub)
        (c.place_le hon.boundary hm.start_boundary hm.asked hlt)
    refine ⟨?_, fun _ hl hlj => ?_, fun _ _ _ _ _ hf => ?_⟩
    · rw [hout]
      refine List.pairwise_append.mpr ⟨hfresh.ordered, List.pairwise_singleton _ _, fun sub hsub s' hs' => ?_⟩
      rw [List.mem_singleton.mp hs']
      exact hbefore sub hsub
    · rcases ht with ht | ⟨_, _, -, ht⟩ <;> rw [ht] at hl <;> cases hl
      have hin : m.stop < c.hay.length := by
        by_contra hge
        rw [c.lineOf_end (Nat.le_of_not_lt hge)] at hlj
        omega
      exact above_line hm.stop_boundary hlj (c.lineOf_spec hin).2.2
        (pushes_behind hm hin hout hbefore)
    · rcases ht with ht | ⟨_, hin, -, ht⟩ <;> rw [ht] at hf <;> cases hf
      exact pushes_behind hm hin hout hbefore

theorem fresh_through (hlast : last < c.ls.length)
    (h : Through stops (c.step last) (c.start first (none, [])) u) : c.Inv u ∧ Fresh c u := by
  refine h.keeps (P := fun u => c.Inv u ∧ Fresh c u) (fun s t hpast hgo hstep => ?_)
    ⟨start_inv first fun _ h => absurd h List.not_mem_nil, .nil,
      fun _ _ _ _ h => absurd h List.not_mem_nil, fun _ _ _ _ _ h => by cases h⟩
  obtain ⟨hinv, hfresh⟩ := hpast
  have hmove := move_of_step hlast hinv hgo hstep
  exact ⟨hmove.inv hinv, hmove.fresh hinv hfresh⟩

/-- Where the lines are fresh none is scanned again. -/
theorem Fresh.not_rescanned (hlast : last < c.ls.length) (hinv : c.Inv s) (hfresh : Fresh c s) :
    ¬ c.Rescanned last s := by
  rintro ⟨li, t, p, hat, hstep, hp, sub, hsub, hbad⟩
  have hgo : stops s = false := by
    rw [stops, hat]
    rfl
  obtain ⟨_, _, _, ht', hlt, -⟩ := pushed_spec hp
  cases move_of_step hlast hinv hgo hstep with
  | ends _ ht => rw [ht] at ht'; cases ht'
  | skips _ ht => rw [ht] at ht'; cases ht'
  | finds hs ht hli hm =>
    rw [hat] at hs
    cases hs
    rw [ht] at ht'
    cases ht'
    have habove := hfresh.line _ hat hli sub hsub
    have hle := c.place_le (c.startAt_boundary (Nat.le_of_lt hli)) hm.start_boundary hm.asked hlt
    have := (hinv.made sub hsub).inside.start_le
    rcases hbad with hbad | ⟨hbad, -⟩ <;> omega
  | passes hs => rw [hat] at hs; cases hs
  | pushes hs => rw [hat] at hs; cases hs

end Run

/-! ## The calls of a command -/

section Calls

variable {c} {first last : Nat} {st : Option Nat × List Substitution}

/-- Substitutions inside the text apply together exactly when they are apart. -/
theorem subsApply_of_inside {subs : List Substitution} (h : ∀ s ∈ subs, s.Inside c.b) :
    SubsApply c.b subs ↔ subs.Pairwise Substitution.Apart :=
  subsApply_iff fun s hs => ⟨(h s hs).start_le,
    Nat.le_trans (h s hs).stop_le (Nat.sub_le _ _)⟩

/-- `:g` with a pattern that can match a line break. -/
theorem global_multi (hmulti : c.re.multiline = true) (marked : List Nat)
    (st : Option Nat × List Substitution)
    (hin : ∀ li ∈ marked, li < c.ls.length) (hmade : ∀ sub ∈ st.2, c.Made st.1 sub) :
    ∃ st', marked.foldlM (fun st li => c.findSubstitutions li li st) st = some st' ∧
      (∀ sub ∈ st'.2, c.Made st'.1 sub) ∧
      (st'.2.Pairwise Substitution.Apart ↔
        st.2.Pairwise Substitution.Apart ∧ c.CallsClear marked st) := by
  induction marked generalizing st with
  | nil => exact ⟨st, rfl, hmade, (and_iff_left trivial).symm⟩
  | cons li rest ih =>
    have hli := hin li List.mem_cons_self
    obtain ⟨s, hrun, hthrough, hend, hinv⟩ := scan_ends li hli hmade hmulti
    obtain ⟨st', hfold, hmade', happly⟩ :=
      ih (s.consumed, s.out) (fun lj hlj => hin lj (List.mem_cons_of_mem li hlj)) hinv.made
    refine ⟨st', by rw [List.foldlM_cons, hrun]; exact hfold, hmade', happly.trans ?_⟩
    rw [scan_applies hli hmade hthrough hend, CallsClear, NoneDoubled, if_pos hmulti, NoneRescanned, hrun]
    constructor
    · rintro ⟨⟨hbefore, hclear⟩, hrest⟩
      refine ⟨hbefore, ⟨fun hfills u hu => (hclear u hu).1 hfills, fun _ u hu => (hclear u hu).2⟩,
        fun st₁ hst₁ => ?_⟩
      cases hst₁
      exact hrest
    · rintro ⟨hbefore, ⟨hdoubled, hrescanned⟩, hrest⟩
      exact ⟨⟨hbefore, fun u hu => ⟨fun hfills => hdoubled hfills u hu, hrescanned hmulti u hu⟩⟩,
        hrest _ rfl⟩

/-- `:g` with a pattern matched line by line. -/
theorem global_lines (hmulti : ¬ c.re.multiline = true) (marked : List Nat)
    (st : Option Nat × List Substitution)
    (hascend : marked.Pairwise (· < ·)) (hin : ∀ li ∈ marked, li < c.ls.length)
    (hbefore : ∀ sub ∈ st.2, ∃ lo hi, c.Within lo hi sub ∧ ∀ li ∈ marked, hi < startAt c.ls li) :
    ∃ st', marked.foldlM (fun st li => c.findSubstitutions li li st) st = some st' ∧
      (∀ sub ∈ st'.2, ∃ lo hi, c.Within lo hi sub) ∧
      (st'.2.Pairwise Substitution.Apart ↔
        st.2.Pairwise Substitution.Apart ∧ c.CallsClear marked st) := by
  induction marked generalizing st with
  | nil =>
    refine ⟨st, rfl, fun sub hsub => ?_, (and_iff_left trivial).symm⟩
    obtain ⟨lo, hi, hw, -⟩ := hbefore sub hsub
    exact ⟨lo, hi, hw⟩
  | cons li rest ih =>
    have hli := hin li List.mem_cons_self
    obtain ⟨hbelow, hascend⟩ := List.pairwise_cons.mp hascend
    obtain ⟨subs, hrun, hon, -, hclear⟩ := c.eachLine_spec li li st.2
    have hon' : ∀ sub ∈ subs, c.Within (startAt c.ls li) (c.stopAt li) sub := fun sub hsub => by
      obtain ⟨i, hlo, hhi, -, hw⟩ := hon sub hsub
      rwa [show i = li by omega] at hw
    have hfind : c.findSubstitutions li li st = some (st.1, st.2 ++ subs) := by
      rw [findSubstitutions, if_neg hmulti, hrun, Option.map_some]
    obtain ⟨st', hfold, hmade', happly⟩ := ih (st.1, st.2 ++ subs) hascend
      (fun lj hlj => hin lj (List.mem_cons_of_mem li hlj)) fun sub hsub => by
        rcases List.mem_append.mp hsub with hsub | hsub
        · obtain ⟨lo, hi, hw, hlt⟩ := hbefore sub hsub
          exact ⟨lo, hi, hw, fun lj hlj => hlt lj (List.mem_cons_of_mem li hlj)⟩
        · refine ⟨_, _, hon' sub hsub, fun lj hlj => ?_⟩
          obtain ⟨-, hnext, -, -⟩ := c.stopAt_spec hli
          have := startAt_mono c.ls (show li + 1 ≤ lj from hbelow lj hlj)
          omega
    refine ⟨st', by rw [List.foldlM_cons, hfind]; exact hfold, hmade', happly.trans ?_⟩
    have hacross : ∀ sub ∈ st.2, ∀ sub' ∈ subs, sub.Apart sub' := fun sub hsub sub' hsub' => by
      obtain ⟨lo, hi, hw, hlt⟩ := hbefore sub hsub
      exact hw.apart (hon' sub' hsub') (hlt li List.mem_cons_self)
    rw [CallsClear, NoneDoubled, if_neg hmulti, ← hclear, hfind, List.pairwise_append]
    constructor
    · rintro ⟨⟨hall, hsubs, -⟩, hrest⟩
      refine ⟨hall, ⟨hsubs, fun h => absurd h hmulti⟩, fun st₁ hst₁ => ?_⟩
      cases hst₁
      exact hrest
    · rintro ⟨hall, ⟨hsubs, -⟩, hrest⟩
      exact ⟨⟨hall, hsubs, hacross⟩, hrest _ rfl⟩

/-- The substitutions of `:s`. -/
theorem substitutePreview_spec (range : SubRange) (cursorLine : Nat) :
    ∃ subs, c.substitutePreview range cursorLine = some subs ∧ (∀ s ∈ subs, s.Inside c.b) ∧
      subs.Pairwise (fun s s' => s.stop ≤ s'.start) ∧
      (SubsApply c.b subs ↔ c.NoneDoubled (range.resolve c.lines.length cursorLine).1
        (range.resolve c.lines.length cursorLine).2 (none, [])) := by
  have hpos := List.length_pos_iff.mpr c.ls_ne_nil
  have hlast := (range.resolve_spec hpos cursorLine).2
  rw [← lines_length] at hlast
  unfold substitutePreview
  generalize range.resolve c.lines.length cursorLine = r at hlast ⊢
  obtain ⟨first, last⟩ := r
  dsimp only at hlast ⊢
  rw [lines_length] at hlast
  by_cases hmulti : c.re.multiline = true
  · have hmade : ∀ sub ∈ ((none, []) : Option Nat × List Substitution).2, c.Made none sub :=
      fun _ h => absurd h List.not_mem_nil
    obtain ⟨s, hrun, hthrough, hend, hinv⟩ := scan_ends first hlast hmade hmulti
    have hinside : ∀ sub ∈ s.out, sub.Inside c.b := fun sub hsub => (hinv.made sub hsub).inside
    refine ⟨s.out, by rw [hrun, Option.map_some], hinside, (fresh_through hlast hthrough).2.ordered, ?_⟩
    rw [subsApply_of_inside hinside, scan_applies hlast hmade hthrough hend, NoneDoubled, if_pos hmulti]
    constructor
    · exact fun h hfills u hu => (h.2 u hu).1 hfills
    · refine fun h => ⟨.nil, fun u hu => ⟨fun hfills => h hfills u hu, ?_⟩⟩
      obtain ⟨hinv', hfresh⟩ := fresh_through hlast hu
      exact hfresh.not_rescanned hlast hinv'
  · obtain ⟨subs, hrun, hon, horder, hclear⟩ := c.eachLine_spec first last []
    have hinside : ∀ s ∈ subs, s.Inside c.b := fun s hs => by
      obtain ⟨_, -, -, -, hw⟩ := hon s hs
      exact hw.inside
    refine ⟨subs, ?_, hinside, horder, ?_⟩
    · rw [findSubstitutions, if_neg hmulti, hrun]
      rfl
    · rw [subsApply_of_inside hinside, hclear, NoneDoubled, if_neg hmulti]

end Calls

/-- The scan of `:s` and the scans of `:g` end without a slice or an index out of range. Their
substitutions lie inside the text, on character boundaries, and off the final newline. Those
of `:s` are in order, and apply when the scan comes to no empty match that is filled and
followed by another one at its place; those of `:g` are in order and apply when besides that
no call scans a line whose first match is replaced already. -/
theorem substitutions_sound (c : SubCommand) :
    (∀ (range : SubRange) (cursorLine : Nat), ∃ subs,
      c.substitutePreview range cursorLine = some subs ∧ (∀ s ∈ subs, s.Inside c.b) ∧
      subs.Pairwise (fun s s' => s.stop ≤ s'.start) ∧
      (SubsApply c.b subs ↔ c.NoneDoubled (range.resolve c.lines.length cursorLine).1
        (range.resolve c.lines.length cursorLine).2 (none, []))) ∧
    (∀ marked : List Nat, marked.Pairwise (· < ·) → (∀ li ∈ marked, li < c.lines.length) → ∃ subs,
      c.globalSubstitutions marked = some subs ∧ (∀ s ∈ subs, s.Inside c.b) ∧
      (SubsApply c.b subs ↔ c.CallsClear marked (none, []))) := by
  refine ⟨substitutePreview_spec, fun marked hascend hin => ?_⟩
  rw [lines_length] at hin
  by_cases hmulti : c.re.multiline = true
  · obtain ⟨st, hrun, hmade, happly⟩ := global_multi hmulti marked (none, []) hin
      fun _ h => absurd h List.not_mem_nil
    have hinside : ∀ s ∈ st.2, s.Inside c.b := fun s hs => (hmade s hs).inside
    refine ⟨st.2, by rw [globalSubstitutions, hrun, Option.map_some], hinside, ?_⟩
    rw [subsApply_of_inside hinside, happly]
    exact and_iff_right .nil
  · obtain ⟨st, hrun, hmade, happly⟩ := global_lines hmulti marked (none, []) hascend hin
      fun _ h => absurd h List.not_mem_nil
    have hinside : ∀ s ∈ st.2, s.Inside c.b := fun s hs => by
      obtain ⟨_, _, hw⟩ := hmade s hs
      exact hw.inside
    refine ⟨st.2, by rw [globalSubstitutions, hrun, Option.map_some], hinside, ?_⟩
    rw [subsApply_of_inside hinside, happly]
    exact and_iff_right .nil

/-- The pattern `\(a\n\)\+\zsb` on "a\na\nb": the match of each line is reported on the last. -/
def lastLine : Regex where
  multiline := true
  next hay at' :=
    if hay = [0x61, 0x0A, 0x61, 0x0A, 0x62, 0x0A] then
      if at' = 0 then some ⟨(0, 5), ⟨4, 5⟩⟩
      else if at' ≤ 2 then some ⟨(2, 5), ⟨4, 5⟩⟩
      else none
    else none
  answers := by
    intro hay at' hit _ _ h
    split at h
    · rename_i heq
      subst heq
      split at h
      · cases h
        exact ⟨by omega, by decide, by decide, by decide, by decide, by decide⟩
      · split at h
        · cases h
          exact ⟨by omega, by decide, by decide, by decide, by decide, by decide⟩
        · cases h
    · cases h

/-- `:g/a/s//X/` with that pattern. -/
theorem substitutions_sound_marked :
    ∃ subs, (⟨[0x61, 0x0A, 0x61, 0x0A, 0x62, 0x0A], lastLine, ⟨id, id⟩, ['X'], false, fun _ => false⟩ :
        SubCommand).globalSubstitutions [0, 1] = some subs ∧
      ∀ s ∈ subs, s.Inside [0x61, 0x0A, 0x61, 0x0A, 0x62, 0x0A] := by
  obtain ⟨subs, hrun, hinside, -⟩ := (substitutions_sound
    ⟨[0x61, 0x0A, 0x61, 0x0A, 0x62, 0x0A], lastLine, ⟨id, id⟩, ['X'], false, fun _ => false⟩).2
    [0, 1] (by decide) (by decide +kernel)
  exact ⟨subs, hrun, hinside⟩

/-- The pattern `aa\zs\|b` on "aab": an empty match before the `b`, and the `b`. -/
def emptyBefore : Regex where
  multiline := false
  next hay at' :=
    if hay = [0x61, 0x61, 0x62] then
      if at' = 0 then some ⟨(0, 2), ⟨2, 2⟩⟩
      else if at' ≤ 2 then some ⟨(2, 3), ⟨2, 3⟩⟩
      else none
    else none
  answers := by
    intro hay at' hit _ _ h
    split at h
    · rename_i heq
      subst heq
      split at h
      · cases h
        exact ⟨by omega, by decide, by decide, by decide, by decide, by decide⟩
      · split at h
        · cases h
          exact ⟨by omega, by decide, by decide, by decide, by decide, by decide⟩
        · cases h
    · cases h

/-- `:%s//X/g` with that pattern fills the place twice, and so does `:g` with the pattern
reported on the last line: neither list of substitutions applies. -/
theorem substitutions_clash :
    (∃ subs, (⟨[0x61, 0x61, 0x62, 0x0A], emptyBefore, ⟨id, id⟩, ['X'], true, fun _ => false⟩ :
        SubCommand).substitutePreview .wholeFile 0 = some subs ∧
      applySubstitutions [0x61, 0x61, 0x62, 0x0A] subs = none) ∧
    (∃ subs, (⟨[0x61, 0x0A, 0x61, 0x0A, 0x62, 0x0A], lastLine, ⟨id, id⟩, ['X'], false,
        fun _ => false⟩ : SubCommand).globalSubstitutions [0, 1] = some subs ∧
      applySubstitutions [0x61, 0x0A, 0x61, 0x0A, 0x62, 0x0A] subs = none) :=
  ⟨⟨[⟨2, 2, [0x58], 0⟩, ⟨2, 3, [0x58], 0⟩], by decide +kernel, by decide +kernel⟩,
    ⟨[⟨4, 5, [0x58], 0⟩, ⟨4, 5, [0x58], 1⟩], by decide +kernel, by decide +kernel⟩⟩

end SubCommand

end Ruse.Core
