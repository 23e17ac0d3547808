import Ruse.Core.SubstituteLines

/-!
# The `:s` scan across line breaks

What a step of the machine does (`Move`, `step_moves`), and what follows for a run: its
places stay on the lines (`Inv`), it ends (`left`), and its substitutions apply together
exactly when it passes only clear states (`Clear`, `scan_spec`). Two things go wrong: an
empty match is followed by another one at its place (`Doubled`), and a line is scanned whose
text an earlier line's match has replaced (`Rescanned`).
-/

namespace Ruse.Core

open Ruse.Lib

namespace SubCommand

variable (c : SubCommand)
variable {col cur : Nat} {m : Match}

/-- A match that answers a search from `col` on. -/
structure Found (col : Nat) (m : Match) : Prop where
  asked : col ≤ m.start
  start_le : m.start ≤ m.stop
  start_boundary : IsCharBoundary c.hay m.start
  stop_boundary : IsCharBoundary c.hay m.stop

/-- The place is on line `cur`, between characters. -/
structure OnLine (cur col : Nat) : Prop where
  line : cur < c.ls.length
  start_le : startAt c.ls cur ≤ col
  le_stop : col ≤ c.stopAt cur
  boundary : IsCharBoundary c.hay col

/-- The substitution of a match: one through the last line break leaves the break. -/
def subOf (m : Match) (group : Nat) : Substitution :=
  c.sub m.start (min m.stop (c.hay.length - 1)) (slice c.hay m.start m.stop) group

/-- The match in hand that the next step substitutes, with its line. -/
def pushed (s : SubScan) : Option (Match × Nat) :=
  match s.at' with
  | .found group _ col prevEnd m =>
    if m.start < c.hay.length ∧ ¬ passedOver col prevEnd m then some (m, group) else none
  | _ => none

inductive Move (s t : SubScan) : Prop
  | ends (hs : c.pushed s = none) (ht : t.at' = .done) (hout : t.out = s.out)
      (hconsumed : t.consumed = s.consumed)
  | skips {li lj : Nat} (hs : s.at' = .line li) (ht : t.at' = .line lj) (hlt : li < lj)
      (hli : li < c.ls.length) (hout : t.out = s.out) (hconsumed : t.consumed = s.consumed)
  | finds {li : Nat} {m : Match} (hs : s.at' = .line li)
      (ht : t.at' = .found li li (startAt c.ls li) none m) (hli : li < c.ls.length)
      (hm : c.Found (startAt c.ls li) m) (hopen : ∀ e, s.consumed = some e → e < startAt c.ls li)
      (hout : t.out = s.out) (hconsumed : t.consumed = s.consumed)
  | passes {group cur col : Nat} {prevEnd : Option Nat} {m : Match}
      (hs : s.at' = .found group cur col prevEnd m) (hover : passedOver col prevEnd m)
      (ht : t.at' = .line (cur + 1) ∨ ∃ col' m', t.at' = .found group cur col' prevEnd m' ∧
        col < col' ∧ c.OnLine cur col' ∧ c.Found col' m')
      (hout : t.out = s.out) (hconsumed : t.consumed = s.consumed)
  | pushes {group cur col : Nat} {prevEnd : Option Nat} {m : Match}
      (hs : s.at' = .found group cur col prevEnd m) (hlt : m.start < c.hay.length)
      (hover : ¬ passedOver col prevEnd m)
      (ht : t.at' = .line (c.lineOf m.stop + 1) ∨ ∃ m', m.stop < c.hay.length ∧ c.Found m.stop m' ∧
        t.at' = .found group (c.lineOf m.stop) m.stop (some m.stop) m')
      (hout : t.out = s.out ++ [c.subOf m group])
      (hconsumed : t.consumed = some m.stop ∨ t.consumed = s.consumed ∧ m.stop < c.hay.length)

/-- The end of the last match that ran past its line is past the text. -/
def Closed (consumed : Option Nat) : Prop := ∃ e, consumed = some e ∧ c.hay.length ≤ e

/-- A substitution of the scan; only one through the last line break replaces no byte by the
text of a match that is not empty. -/
def Made (consumed : Option Nat) (s : Substitution) : Prop :=
  ∃ h k matched line, s = c.sub h k matched line ∧ IsCharBoundary c.hay h ∧
    IsCharBoundary c.hay k ∧ h ≤ k ∧ k < c.hay.length ∧ (h = k → matched = [] ∨ c.Closed consumed)

/-- What holds of every state of the scan. -/
structure Inv (s : SubScan) : Prop where
  made : ∀ sub ∈ s.out, c.Made s.consumed sub
  hand : ∀ group cur col prevEnd m, s.at' = .found group cur col prevEnd m →
    c.OnLine cur col ∧ c.Found col m ∧ ¬ c.Closed s.consumed

def left (s : SubScan) : Nat :=
  match s.at' with
  | .done => 0
  | .line li => if li < c.ls.length then 3 * (c.hay.length - startAt c.ls li) + 4 else 1
  | .found _ _ col prevEnd _ =>
    3 * (c.hay.length - col) + 2 + if prevEnd = some col then 0 else 1

/-! ## One step -/

section Step

variable {c} {s t : SubScan} {last : Nat}

theorem found_of_findWholeAt {ws : Nat} (hcol : IsCharBoundary c.hay col)
    (h : c.re.findWholeAt c.hay col = some (ws, m)) : c.Found col m := by
  obtain ⟨hit, hnext, -, rfl, -⟩ := Regex.findWholeAt_spec h
  have hans := c.re.answers c.hay_valid hcol hnext
  have hasked := hans.asked
  have hstart := hans.start_le
  exact ⟨by omega, hans.stop_le, hans.start_boundary, hans.stop_boundary⟩

theorem onLine_lineOf {pos : Nat} (hpos : IsCharBoundary c.hay pos) (hlt : pos < c.hay.length) :
    c.OnLine (c.lineOf pos) pos := by
  obtain ⟨hline, hlo, hhi⟩ := c.lineOf_spec hlt
  exact ⟨hline, hlo, Nat.le_sub_one_of_lt hhi, hpos⟩

theorem OnLine.lt (h : c.OnLine cur col) : col < c.hay.length := by
  have hstop := (c.stopAt_spec h.line).2.2.1
  have := h.le_stop
  omega

theorem OnLine.lineOf (h : c.OnLine cur col) : c.lineOf col = cur := by
  have hnext := (c.stopAt_spec h.line).2.1
  have := h.le_stop
  exact c.lineOf_eq h.line h.start_le (by omega)

theorem OnLine.stepChar (h : c.OnLine cur col) (hlt : col < c.stopAt cur) :
    ∃ next, stepChar c.hay col = some next ∧ col < next ∧ c.OnLine cur next := by
  obtain ⟨next, hstep, hnext, hb⟩ := Regex.stepChar_spec c.hay_valid h.boundary h.lt
  refine ⟨next, hstep, hnext, h.line, by have := h.start_le; omega, ?_, hb⟩
  have hscan := (c.hay_valid.cut h.boundary).1.rest (c.hay_valid.cut (c.stopAt_boundary h.line)).1
    (Nat.le_of_lt hlt)
  rw [Core.stepChar, if_pos h.boundary] at hstep
  generalize c.stopAt cur = le at hscan hlt
  cases hscan with
  | refl => omega
  | char hw hrest =>
    rw [hw, Option.getD_some] at hstep
    cases hstep
    exact hrest.le

/-- What follows a match: the same line, or the next to scan. -/
theorem goOn_spec (last : Nat) (s : SubScan) (group cur col : Nat) (prevEnd : Option Nat)
    (stop doAgain : Bool) (hon : stop = false → c.OnLine cur col) :
    ∃ at', c.goOn last s group cur col prevEnd stop doAgain = some { s with at' := at' } ∧
      (at' = .line (cur + 1) ∨ ∃ m, stop = false ∧ at' = .found group cur col prevEnd m ∧
        c.Found col m) := by
  unfold goOn
  split
  · exact ⟨_, rfl, .inl rfl⟩
  rename_i hgo
  have hstop : stop = false := by
    by_contra hne
    exact hgo (.inl (by simpa using hne))
  have hon := hon hstop
  cases hfind : c.re.findWholeAt c.hay col with
  | none => exact ⟨_, rfl, .inl rfl⟩
  | some answer =>
    obtain ⟨ws, m⟩ := answer
    dsimp only
    rw [c.lines_getElem? hon.line]
    dsimp only [bind, Option.bind]
    split
    · exact ⟨_, rfl, .inr ⟨m, hstop, rfl, found_of_findWholeAt hon.boundary hfind⟩⟩
    · exact ⟨_, rfl, .inl rfl⟩

/-- At the start of a line the scan makes a move. -/
theorem line_moves (hlast : last < c.ls.length) {li : Nat} (hs : s.at' = .line li) :
    ∃ t, c.step last s = some t ∧ c.Move s t := by
  have hnone : c.pushed s = none := by rw [pushed, hs]
  unfold step
  rw [hs]
  dsimp only
  split
  · exact ⟨_, rfl, .ends hnone rfl rfl rfl⟩
  split
  · exact ⟨_, rfl, .ends hnone rfl rfl rfl⟩
  have hli : li < c.ls.length := by omega
  obtain ⟨-, hnext, -, -⟩ := c.stopAt_spec hli
  rw [c.lines_getElem? hli]
  dsimp only [bind, Option.bind]
  split
  · exact ⟨_, rfl, .skips hs rfl (Nat.lt_succ_self li) hli rfl rfl⟩
  rename_i hopen
  cases hfind : c.re.findWholeAt c.hay (startAt c.ls li) with
  | none => exact ⟨_, rfl, .ends hnone rfl rfl rfl⟩
  | some answer =>
    obtain ⟨ws, m⟩ := answer
    dsimp only
    split
    · rename_i hfar
      refine ⟨_, rfl, .skips hs rfl ?_ hli rfl rfl⟩
      rcases Nat.lt_or_ge ws c.hay.length with hlt | hge
      · by_contra hback
        obtain ⟨-, -, hhi⟩ := c.lineOf_spec hlt
        have := startAt_mono c.ls (show c.lineOf ws + 1 ≤ li + 1 by omega)
        omega
      · rwa [c.lineOf_end hge]
    · refine ⟨_, rfl, .finds hs rfl hli ?_ (fun e he => ?_) rfl rfl⟩
      · exact found_of_findWholeAt (c.startAt_boundary (Nat.le_of_lt hli)) hfind
      · rw [he] at hopen
        simpa using hopen

theorem line_of_start (hon : c.OnLine cur col) (hm : c.Found col m) :
    (if c.stopAt cur < m.start then c.lineOf m.start else cur) = c.lineOf m.start := by
  split
  · rfl
  obtain ⟨-, hnext, -, -⟩ := c.stopAt_spec hon.line
  have := hon.start_le
  have := hm.asked
  exact (c.lineOf_eq hon.line (by omega) (by omega)).symm

/-- An empty match where the last one stopped is passed over by a move. -/
theorem found_passes {group : Nat} {prevEnd : Option Nat}
    (hs : s.at' = .found group cur col prevEnd m) (hon : c.OnLine cur col) (hm : c.Found col m)
    (hover : passedOver col prevEnd m) :
    ∃ t, c.step last s = some t ∧ c.Move s t := by
  have hcol : m.start = col := hover.2.1.trans hover.2.2
  have hlt := hon.lt
  unfold step
  rw [hs]
  dsimp only
  rw [if_neg (by omega), c.lines_getElem? hon.line]
  dsimp only [bind, Option.bind]
  rw [line_of_start hon hm, hcol, hon.lineOf, if_pos hover, c.lines_getElem? hon.line]
  dsimp only
  split
  · obtain ⟨at', hgo, hat⟩ := goOn_spec last s group cur col prevEnd true false
      (fun h : true = false => show c.OnLine cur col by cases h)
    rcases hat with rfl | ⟨_, hfalse, -⟩
    · exact ⟨_, hgo, .passes hs hover (.inl rfl) rfl rfl⟩
    · cases hfalse
  · rename_i hin
    obtain ⟨next, hstep, hnext, hon'⟩ := hon.stepChar (Nat.lt_of_not_le hin)
    rw [hstep]
    obtain ⟨at', hgo, hat⟩ := goOn_spec last s group cur next prevEnd false false fun _ => hon'
    rcases hat with rfl | ⟨m', -, rfl, hm'⟩
    · exact ⟨_, hgo, .passes hs hover (.inl rfl) rfl rfl⟩
    · exact ⟨_, hgo, .passes hs hover (.inr ⟨next, m', rfl, hnext, hon', hm'⟩) rfl rfl⟩

/-- The span substituted begins where the match does, and ends at a boundary before the last
line break. -/
theorem Found.clamp (hm : c.Found col m) (hlt : m.start < c.hay.length) :
    IsCharBoundary c.hay (min m.stop (c.hay.length - 1)) ∧
      m.start ≤ min m.stop (c.hay.length - 1) ∧ min m.stop (c.hay.length - 1) < c.hay.length := by
  have hstart := hm.start_le
  refine ⟨?_, by omega, by omega⟩
  rcases Nat.le_total m.stop (c.hay.length - 1) with hle | hge
  · rw [Nat.min_eq_left hle]
    exact hm.stop_boundary
  · rw [Nat.min_eq_right hge]
    exact c.last_boundary

/-- A match that counts is pushed by a move. -/
theorem found_pushes {group : Nat} {prevEnd : Option Nat}
    (hs : s.at' = .found group cur col prevEnd m) (hon : c.OnLine cur col) (hm : c.Found col m)
    (hlt : m.start < c.hay.length) (hover : ¬ passedOver col prevEnd m) :
    ∃ t, c.step last s = some t ∧ c.Move s t := by
  unfold step
  rw [hs]
  dsimp only
  rw [if_neg (by omega), c.lines_getElem? hon.line]
  dsimp only [bind, Option.bind]
  obtain ⟨hkb, hle, hkn⟩ := hm.clamp hlt
  rw [line_of_start hon hm, if_neg hover, strSlice_some hm.start_le hm.start_boundary hm.stop_boundary]
  dsimp only
  rw [Nat.max_eq_left hle, push_some hm.start_boundary hkb hle hkn]
  dsimp only
  have hend : ∀ doAgain sc, sc.out = s.out ++ [c.subOf m group] →
      (sc.consumed = some m.stop ∨ sc.consumed = s.consumed ∧ m.stop < c.hay.length) →
      ∃ t, c.goOn last sc group (c.lineOf m.stop) m.stop (some m.stop)
        (decide (c.hay.length ≤ m.stop)) doAgain = some t ∧ c.Move s t := by
    intro doAgain sc hout hconsumed
    obtain ⟨at', hgo, hat⟩ := goOn_spec last sc group (c.lineOf m.stop) m.stop (some m.stop)
      (decide (c.hay.length ≤ m.stop)) doAgain
      fun h => onLine_lineOf hm.stop_boundary (Nat.lt_of_not_le (of_decide_eq_false h))
    rcases hat with rfl | ⟨m', hstop, rfl, hm'⟩
    · exact ⟨_, hgo, .pushes hs hlt hover (.inl rfl) hout hconsumed⟩
    · exact ⟨_, hgo, .pushes hs hlt hover
        (.inr ⟨m', Nat.lt_of_not_le (of_decide_eq_false hstop), hm', rfl⟩) hout hconsumed⟩
  split
  · exact hend _ _ rfl (.inl rfl)
  · rename_i hsame
    obtain ⟨hline, hlo, hhi⟩ := c.lineOf_spec hlt
    have hin : m.stop < c.hay.length := by
      by_contra hge
      rw [c.lineOf_end (Nat.le_of_not_lt hge)] at hsame
      omega
    have heq : c.lineOf m.start = c.lineOf m.stop := by
      obtain ⟨-, hlo', hhi'⟩ := c.lineOf_spec hin
      by_contra hne
      have := startAt_mono c.ls (show c.lineOf m.stop + 1 ≤ c.lineOf m.start by omega)
      omega
    rw [heq]
    exact hend _ _ rfl (.inr ⟨rfl, hin⟩)

/-- Every step of the scan is a move. -/
theorem step_moves (hlast : last < c.ls.length) (hinv : c.Inv s) (hgo : stops s = false) :
    ∃ t, c.step last s = some t ∧ c.Move s t := by
  cases hs : s.at' with
  | done =>
    rw [stops, hs] at hgo
    cases hgo
  | line li => exact line_moves hlast hs
  | found group cur col prevEnd m =>
    obtain ⟨hon, hm, -⟩ := hinv.hand _ _ _ _ _ hs
    rcases Nat.lt_or_ge m.start c.hay.length with hlt | hge
    · by_cases hover : passedOver col prevEnd m
      · exact found_passes hs hon hm hover
      · exact found_pushes hs hon hm hlt hover
    · refine ⟨{ s with at' := .done }, ?_, .ends ?_ rfl rfl rfl⟩
      · unfold step
        rw [hs]
        exact if_pos hge
      · rw [pushed, hs]
        exact if_neg (by omega)

namespace Move

/-- A step appends the substitution of the match it pushes, and nothing else. -/
theorem out (h : c.Move s t) :
    t.out = s.out ++ ((c.pushed s).map fun p => c.subOf p.1 p.2).toList := by
  cases h with
  | ends hs ht hout => rw [hs, hout, Option.map_none, Option.toList_none, List.append_nil]
  | skips hs ht hlt hli hout => simp [pushed, hs, hout]
  | finds hs ht hli hm hopen hout => simp [pushed, hs, hout]
  | passes hs hover ht hout => simp [pushed, hs, hout, hover]
  | pushes hs hlt hover ht hout => simp [pushed, hs, hout, hlt, hover]

/-- A move keeps the invariant of the scan. -/
theorem inv (h : c.Move s t) (hinv : c.Inv s) : c.Inv t := by
  cases h with
  | ends hs ht hout hconsumed =>
    exact ⟨by rw [hout, hconsumed]; exact hinv.made, fun _ _ _ _ _ hf => by rw [ht] at hf; cases hf⟩
  | skips hs ht hlt hli hout hconsumed =>
    exact ⟨by rw [hout, hconsumed]; exact hinv.made, fun _ _ _ _ _ hf => by rw [ht] at hf; cases hf⟩
  | @finds li m hs ht hli hm hopen hout hconsumed =>
    refine ⟨by rw [hout, hconsumed]; exact hinv.made, fun _ _ _ _ _ hf => ?_⟩
    rw [ht] at hf
    cases hf
    obtain ⟨hle, -, hlt, -⟩ := c.stopAt_spec hli
    refine ⟨⟨hli, Nat.le_refl _, hle, c.startAt_boundary (Nat.le_of_lt hli)⟩, hm, ?_⟩
    rintro ⟨e, he, hend⟩
    rw [hconsumed] at he
    have := hopen e he
    omega
  | passes hs hover ht hout hconsumed =>
    refine ⟨by rw [hout, hconsumed]; exact hinv.made, fun _ _ _ _ _ hf => ?_⟩
    obtain ⟨-, -, hopen⟩ := hinv.hand _ _ _ _ _ hs
    rcases ht with ht | ⟨col', m', ht, -, hon', hm'⟩
    · rw [ht] at hf
      cases hf
    · rw [ht] at hf
      cases hf
      exact ⟨hon', hm', by rwa [hconsumed]⟩
  | @pushes group cur col prevEnd m hs hlt hover ht hout hconsumed =>
    obtain ⟨hon, hm, hopen⟩ := hinv.hand _ _ _ _ _ hs
    refine ⟨fun sub hsub => ?_, fun _ _ _ _ _ hf => ?_⟩
    · rw [hout] at hsub
      rcases List.mem_append.mp hsub with hsub | hsub
      · obtain ⟨h, k, matched, line, heq, hh, hk, hhk, hkn, hempty⟩ := hinv.made sub hsub
        exact ⟨h, k, matched, line, heq, hh, hk, hhk, hkn, fun h => .inl
          ((hempty h).resolve_right hopen)⟩
      · obtain ⟨hkb, hle, hkn⟩ := hm.clamp hlt
        refine ⟨_, _, _, _, List.mem_singleton.mp hsub, hm.start_boundary, hkb, hle, hkn, fun hempty => ?_⟩
        -- an empty span is an empty match, or one cut short before the last line break
        rcases Nat.lt_or_ge m.stop c.hay.length with hin | hpast
        · exact .inl (by rw [show m.stop = m.start by omega, slice_self])
        · exact .inr ⟨m.stop, hconsumed.resolve_right fun h => by omega, hpast⟩
    · rcases ht with ht | ⟨m', hin, hm', ht⟩
      · rw [ht] at hf
        cases hf
      · rw [ht] at hf
        cases hf
        refine ⟨onLine_lineOf hm.stop_boundary hin, hm', ?_⟩
        rintro ⟨e, he, hend⟩
        rcases hconsumed with hc | ⟨hc, -⟩
        · rw [hc] at he
          cases he
          omega
        · rw [hc] at he
          exact hopen ⟨e, he, hend⟩

/-- Every step leaves less to do. -/
theorem left (h : c.Move s t) (hinv : c.Inv s) (hgo : stops s = false) : c.left t < c.left s := by
  have hbelow : ∀ li col, (li < c.ls.length → col < startAt c.ls li) → col < c.hay.length →
      (if li < c.ls.length then 3 * (c.hay.length - startAt c.ls li) + 4 else 1) <
        3 * (c.hay.length - col) + 2 := by
    intro li col hcol hlt
    split <;> rename_i hli
    · have := hcol hli
      have := startAt_mono c.ls (Nat.le_of_lt hli)
      rw [← hay_length] at this
      omega
    · omega
  cases h with
  | ends hs ht =>
    simp only [SubCommand.left, ht]
    cases hat : s.at' with
    | done =>
      rw [stops, hat] at hgo
      cases hgo
    | line li => dsimp only; split <;> omega
    | found => dsimp only; omega
  | @skips li lj hs ht hlt hli =>
    have hlen := startAt_lt c.ls hli (Nat.le_refl _)
    rw [← hay_length] at hlen
    have := hbelow lj (startAt c.ls li) (fun hlj => startAt_lt c.ls hlt (Nat.le_of_lt hlj)) hlen
    simp only [SubCommand.left, hs, ht, if_pos hli]
    omega
  | @finds li m hs ht hli =>
    simp only [SubCommand.left, hs, ht, if_pos hli]
    simp
  | @passes group cur col prevEnd m hs hover ht =>
    obtain ⟨hon, -, -⟩ := hinv.hand _ _ _ _ _ hs
    have hlt := hon.lt
    obtain ⟨-, hnext, -, -⟩ := c.stopAt_spec hon.line
    have := hon.le_stop
    rcases ht with ht | ⟨col', m', ht, hcol, hon', -⟩
    · have := hbelow (cur + 1) col (fun _ => by omega) hlt
      simp only [SubCommand.left, hs, ht]
      omega
    · have := hon'.lt
      simp only [SubCommand.left, hs, ht]
      split <;> split <;> omega
  | @pushes group cur col prevEnd m hs hlt hover ht =>
    obtain ⟨hon, hm, -⟩ := hinv.hand _ _ _ _ _ hs
    have hcol := hon.lt
    have hasked := hm.asked
    have hstart := hm.start_le
    rcases ht with ht | ⟨m', hin, -, ht⟩
    · have := hbelow (c.lineOf m.stop + 1) col (fun hli => ?_) hcol
      · simp only [SubCommand.left, hs, ht]
        omega
      · have hin : m.stop < c.hay.length := by
          by_contra hge
          rw [c.lineOf_end (Nat.le_of_not_lt hge)] at hli
          omega
        have := (c.lineOf_spec hin).2.2
        omega
    · -- an empty match that counts is where no match stopped before
      have hless : prevEnd = some col → col < m.stop := fun hprev => by
        by_contra hge
        exact hover ⟨hprev, by omega, by omega⟩
      simp only [SubCommand.left, hs, ht, if_true]
      split
      · have := hless ‹_›
        omega
      · omega

end Move

end Step

end SubCommand

end Ruse.Core
