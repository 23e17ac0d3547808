import Ruse.Core.Utf8

/-!
# The match scan

The model of `Regex::scan_lines` in `crates/core/src/pattern.rs`, behind `find_all`
and, without `substitute`, `search_all`. The engine is a parameter: whatever the pattern, `Regex.next`
answers a match from the place it is asked for on, with its whole span and the
span `\zs` and `\ze` report (`Hit.Answers`).

* `Regex.scanLine` — the inner loop, over one line;
* `Regex.scanLines` — the outer loop, line by line.

`none` is a loop that did not end or a slice off the text; `scanLines_ends` shows
that neither happens, and in which order the matches come out.
-/

namespace Ruse.Core

structure Match where
  start : Nat
  stop : Nat
deriving DecidableEq, Repr

/-- A candidate match: the whole span, before `\zs` and `\ze`, and the reported one. -/
structure Hit where
  whole : Nat × Nat
  rep : Match
deriving DecidableEq, Repr

/-- The hit answers a search from `at'` on: it begins there or later, reports no byte before
its whole match, and its places are between the characters of the text. -/
structure Hit.Answers (hay : Bytes) (at' : Nat) (hit : Hit) : Prop where
  asked : at' ≤ hit.whole.1
  start_le : hit.whole.1 ≤ hit.rep.start
  stop_le : hit.rep.start ≤ hit.rep.stop
  whole_boundary : IsCharBoundary hay hit.whole.1
  start_boundary : IsCharBoundary hay hit.rep.start
  stop_boundary : IsCharBoundary hay hit.rep.stop

/-- A compiled pattern: whether it can match a line break, and the engine's next match. -/
structure Regex where
  multiline : Bool
  next : Bytes → Nat → Option Hit
  answers : ∀ {hay : Bytes} {at' : Nat} {hit : Hit}, ValidUtf8 hay → IsCharBoundary hay at' →
    next hay at' = some hit → hit.Answers hay at'

/-- Is the hit the empty slot after a final newline? -/
def phantomLine (hay : Bytes) (hit : Hit) : Bool :=
  !hay.isEmpty && hit.whole.1 == hay.length && hay.getLast? == some newline

/-- The place one character on; `none` when `at'` is no place to slice at. -/
def stepChar (hay : Bytes) (at' : Nat) : Option Nat :=
  if IsCharBoundary hay at' then some (at' + (charLenAt hay at').getD 1) else none

/-- Where the line that starts at `ls` ends; `none` when `hay[ls..]` is no slice. -/
def lineEndFrom (hay : Bytes) (ls : Nat) : Option Nat :=
  if IsCharBoundary hay ls then some (lineEnd hay ls) else none

/-- Where the line of `at'` starts; `none` when `hay[..at']` is no slice. -/
def lineStartTo (hay : Bytes) (at' : Nat) : Option Nat :=
  if IsCharBoundary hay at' then some (lineStart hay at') else none

namespace Regex

/-- The first match from `at'` on, with where its whole match starts. -/
def findWholeAt (re : Regex) (hay : Bytes) (at' : Nat) : Option (Nat × Match) :=
  match re.next hay at' with
  | none => none
  | some hit => if phantomLine hay hit then none else some (hit.whole.1, hit.rep)

def findAt (re : Regex) (hay : Bytes) (at' : Nat) : Option Match :=
  (re.findWholeAt hay at').map Prod.snd

theorem findWholeAt_spec {re : Regex} {hay : Bytes} {at' ws : Nat} {m : Match}
    (h : re.findWholeAt hay at' = some (ws, m)) :
    ∃ hit, re.next hay at' = some hit ∧ hit.whole.1 = ws ∧ hit.rep = m ∧
      phantomLine hay hit = false := by
  unfold findWholeAt at h
  cases hnext : re.next hay at' with
  | none =>
    rw [hnext] at h
    cases h
  | some hit =>
    rw [hnext] at h
    dsimp only at h
    split at h
    · cases h
    · rename_i hreal
      cases h
      exact ⟨hit, rfl, rfl, rfl, by simpa using hreal⟩

theorem findAt_spec {re : Regex} {hay : Bytes} {at' : Nat} {m : Match}
    (h : re.findAt hay at' = some m) : ∃ hit, re.next hay at' = some hit ∧ hit.rep = m := by
  obtain ⟨⟨ws, m'⟩, hwhole, rfl⟩ := Option.map_eq_some_iff.mp h
  obtain ⟨hit, hnext, -, hrep, -⟩ := findWholeAt_spec hwhole
  exact ⟨hit, hnext, hrep⟩

/-- The scan of the line that ends at `le`, from `col` on: the matches it pushes, and
where the next line to scan begins (`none` when there is no match further down). -/
def scanLine (re : Regex) (hay : Bytes) (substitute : Bool) (le : Nat) :
    Nat → Nat → Option Nat → Option (List Match × Option Nat)
  | 0, _, _ => none
  | fuel + 1, col, prevEnd =>
    match re.next hay col with
    | none => some ([], none)
    | some hit =>
      if phantomLine hay hit then some ([], none)
      else if le < hit.whole.1 then
        -- the leftmost match starts on a later line: no line before it has one
        (lineStartTo hay hit.whole.1).map fun next => ([], some next)
      else
        let m := hit.rep
        if substitute ∧ prevEnd = some col ∧ m.start = m.stop ∧ m.stop = col then
          -- an empty match where the previous one ended does not count
          if le ≤ col then some ([], some (le + 1))
          else do
            let col ← stepChar hay col
            if le ≤ col ∧ !re.multiline then some ([], some (le + 1))
            else scanLine re hay substitute le fuel col prevEnd
        else if le < m.stop then some ([m], some (le + 1))
        else if substitute then
          if le ≤ m.stop ∧ !re.multiline then some ([m], some (le + 1))
          else do
            let (ms, next) ← scanLine re hay substitute le fuel m.stop (some m.stop)
            some (m :: ms, next)
        else if m.start = m.stop then
          if le ≤ m.stop then some ([m], some (le + 1))
          else do
            let col ← stepChar hay m.stop
            let (ms, next) ← scanLine re hay substitute le fuel col prevEnd
            some (m :: ms, next)
        else do
          let (ms, next) ← scanLine re hay substitute le fuel m.stop prevEnd
          some (m :: ms, next)

/-- The lines from `ls` on; the slot after a final newline is no line. -/
def scanFrom (re : Regex) (hay : Bytes) (substitute : Bool) (ls : Nat) : Option (List Match) :=
  if ls < hay.length ∨ ls = hay.length ∧ ¬ (0 < hay.length ∧ hay.getLast? = some newline) then
    match (lineEndFrom hay ls).bind fun le =>
      re.scanLine hay substitute le (2 * hay.length + 2) ls none with
    | none => none
    | some (ms, none) => some ms
    | some (ms, some next) =>
      if next ≤ ls then some ms
      else (scanFrom re hay substitute next).map fun rest => ms ++ rest
  else some []
termination_by hay.length + 1 - ls

def scanLines (re : Regex) (hay : Bytes) (substitute : Bool) : Option (List Match) :=
  re.scanFrom hay substitute 0

/-- Every match `:s///g` replaces. -/
def findAll (re : Regex) (hay : Bytes) : Option (List Match) := re.scanLines hay true

/-! ## One line -/

theorem boundary_of_startsLine {hay : Bytes} (hv : ValidUtf8 hay) {s : Nat} (h : StartsLine hay s)
    (hs : s ≤ hay.length) : IsCharBoundary hay s := by
  rcases h with rfl | hnl
  · exact .inl rfl
  rcases Nat.eq_zero_or_pos s with rfl | hpos
  · exact .inl rfl
  have hlt := (List.getElem?_eq_some_iff.mp hnl).1
  have hget : hay.getD (s - 1) 0 = newline := by
    rw [List.getD_eq_getElem?_getD, hnl, Option.getD_some]
  have hbefore : IsCharBoundary hay (s - 1) := .inr (.inr ⟨hlt, by rw [hget]; rfl⟩)
  have hchar : charLenAt hay (s - 1) = some 1 := charLenAt_eq_one.mpr ⟨_, hnl, by decide⟩
  have := hv.boundary_of_scans hbefore (.char hchar (.refl _))
  rwa [Nat.sub_add_cancel hpos] at this

theorem stepChar_spec {hay : Bytes} (hv : ValidUtf8 hay) {at' : Nat} (h : IsCharBoundary hay at')
    (hlt : at' < hay.length) :
    ∃ next, stepChar hay at' = some next ∧ at' < next ∧ IsCharBoundary hay next := by
  obtain ⟨w, hw, hrest⟩ := hv.char_of_boundary h hlt
  refine ⟨at' + w, by rw [stepChar, if_pos h, hw, Option.getD_some], ?_,
    hv.boundary_of_scans h (.char hw (.refl _))⟩
  have := charLenAt_pos hw
  omega

/-- The hits of one line: each begins on the line, none before the last one stops, and none
after one that stops below the line. -/
structure LineHits (re : Regex) (hay : Bytes) (col le : Nat) (hits : List Hit) : Prop where
  mem : ∀ h ∈ hits, col ≤ h.whole.1 ∧ h.whole.1 ≤ le ∧
    ∃ at', IsCharBoundary hay at' ∧ re.next hay at' = some h
  order : hits.Pairwise fun h h' =>
    h.whole.1 ≤ h'.whole.1 ∧ h.rep.stop ≤ h'.rep.start ∧ h.rep.stop ≤ le

namespace LineHits

variable {re : Regex} {hay : Bytes} {col col' le : Nat} {hit : Hit} {hits : List Hit}

theorem nil : LineHits re hay col le [] := ⟨fun _ hh => absurd hh List.not_mem_nil, .nil⟩

theorem mono (h : LineHits re hay col' le hits) (hc : col ≤ col') : LineHits re hay col le hits :=
  ⟨fun x hx => by
    obtain ⟨hlo, hrest⟩ := h.mem x hx
    exact ⟨Nat.le_trans hc hlo, hrest⟩, h.order⟩

/-- A hit goes before the hits of a scan that goes on where it stops, or later. -/
theorem cons (hv : ValidUtf8 hay) (hcol : IsCharBoundary hay col) (hnext : re.next hay col = some hit)
    (hle : hit.whole.1 ≤ le) (h : LineHits re hay col' le hits) (hc : hit.rep.stop ≤ col')
    (hon : hit.rep.stop ≤ le ∨ hits = []) : LineHits re hay col le (hit :: hits) := by
  have hans := re.answers hv hcol hnext
  have hstart := hans.start_le
  have hstop := hans.stop_le
  refine ⟨fun x hx => ?_, List.pairwise_cons.mpr ⟨fun x hx => ?_, h.order⟩⟩
  · rcases List.mem_cons.mp hx with rfl | hx
    · exact ⟨hans.asked, hle, col, hcol, hnext⟩
    · have hasked := hans.asked
      obtain ⟨hlo, hrest⟩ := h.mem x hx
      exact ⟨by omega, hrest⟩
  · obtain ⟨hlo, -, at', hb, hx'⟩ := h.mem x hx
    have := (re.answers hv hb hx').start_le
    exact ⟨by omega, by omega, hon.resolve_right (List.ne_nil_of_mem hx)⟩

end LineHits

theorem LineHits.single {re : Regex} {hay : Bytes} {col le : Nat} {hit : Hit} (hv : ValidUtf8 hay)
    (hcol : IsCharBoundary hay col) (hnext : re.next hay col = some hit) (hle : hit.whole.1 ≤ le) :
    LineHits re hay col le [hit] :=
  .cons hv hcol hnext hle .nil (Nat.le_refl _) (.inr rfl)

/-- How much a scan of the line from `col` on can still do. -/
def scanLeft (le col : Nat) (prevEnd : Option Nat) : Nat :=
  2 * (le - col) + if prevEnd = some col then 0 else 1

theorem scanLeft_le (le col : Nat) (prevEnd : Option Nat) :
    scanLeft le col prevEnd ≤ 2 * (le - col) + 1 := by
  unfold scanLeft
  split <;> omega

theorem le_scanLeft (le col : Nat) (prevEnd : Option Nat) :
    2 * (le - col) ≤ scanLeft le col prevEnd := Nat.le_add_right _ _

/-- A place behind a line's end is on a line that starts behind it. -/
theorem lt_lineStart_of_endsLine {hay : Bytes} {le at' : Nat} (hend : EndsLine hay le)
    (hlt : le < at') (hin : at' ≤ hay.length) : le < lineStart hay at' := by
  by_contra hge
  rcases hend with hend | hnl
  · omega
  · exact (lineStart_spec hay at').2 le (by omega) hlt hnl

theorem boundary_below {hay : Bytes} (hv : ValidUtf8 hay) {le : Nat} (hend : EndsLine hay le)
    (hin : le + 1 ≤ hay.length) : IsCharBoundary hay (le + 1) := by
  refine boundary_of_startsLine hv (.inr ?_) hin
  rcases hend with hend | hnl
  · omega
  · exact hnl

/-- The outcome of a scan of a line: matches that begin on it, and a place below it to go on
from. -/
def LineScan (re : Regex) (hay : Bytes) (col le : Nat) (scan : Option (List Match × Option Nat)) :
    Prop :=
  ∃ hits next, scan = some (hits.map Hit.rep, next) ∧ LineHits re hay col le hits ∧
    ∀ ls, next = some ls → le < ls ∧ (ls ≤ hay.length → IsCharBoundary hay ls)

namespace LineScan

variable {re : Regex} {hay : Bytes} {col col' le : Nat} {hit : Hit} {hits : List Hit}
  {scan : Option (List Match × Option Nat)}

theorem stop : LineScan re hay col le (some ([], none)) :=
  ⟨[], none, rfl, .nil, fun ls hls => by cases hls⟩

theorem goesOn {ls : Nat} (hlt : le < ls) (hb : ls ≤ hay.length → IsCharBoundary hay ls)
    (h : LineHits re hay col le hits) :
    LineScan re hay col le (some (hits.map Hit.rep, some ls)) :=
  ⟨hits, some ls, rfl, h, fun ls' hls => by cases hls; exact ⟨hlt, hb⟩⟩

/-- The scan of the line is over, and goes on at the next one. -/
theorem below (hv : ValidUtf8 hay) (hend : EndsLine hay le) (h : LineHits re hay col le hits) :
    LineScan re hay col le (some (hits.map Hit.rep, some (le + 1))) :=
  goesOn (Nat.lt_succ_self le) (boundary_below hv hend) h

theorem mono (h : LineScan re hay col' le scan) (hc : col ≤ col') : LineScan re hay col le scan := by
  obtain ⟨hits, next, hrun, hhits, hls⟩ := h
  exact ⟨hits, next, hrun, hhits.mono hc, hls⟩

/-- A match that stops on the line goes before what the scan finds behind it. -/
theorem cons (hv : ValidUtf8 hay) (hcol : IsCharBoundary hay col) (hnext : re.next hay col = some hit)
    (hle : hit.whole.1 ≤ le) (hin : hit.rep.stop ≤ le) (hc : hit.rep.stop ≤ col')
    (h : LineScan re hay col' le scan) :
    LineScan re hay col le (scan.bind fun (ms, next) => some (hit.rep :: ms, next)) := by
  obtain ⟨hits, next, rfl, hhits, hls⟩ := h
  exact ⟨hit :: hits, next, rfl, .cons hv hcol hnext hle hhits hc (.inl hin), hls⟩

end LineScan

/-- A scan of a line returns, with matches that begin on it, and goes on below it. -/
theorem scanLine_spec (re : Regex) {hay : Bytes} (hv : ValidUtf8 hay) (substitute : Bool) {le : Nat}
    (hle : le ≤ hay.length) (hend : EndsLine hay le) {fuel col : Nat} {prevEnd : Option Nat}
    (hcol : IsCharBoundary hay col) (hfuel : scanLeft le col prevEnd < fuel) :
    LineScan re hay col le (re.scanLine hay substitute le fuel col prevEnd) := by
  induction fuel generalizing col prevEnd with
  | zero => omega
  | succ fuel ih =>
    unfold scanLine
    cases hnext : re.next hay col with
    | none => exact .stop
    | some hit =>
      have hans := re.answers hv hcol hnext
      have hasked := hans.asked
      have hstart := hans.start_le
      have hstop := hans.stop_le
      dsimp only
      split
      · exact .stop
      split
      · rename_i hlater
        rw [lineStartTo, if_pos hans.whole_boundary, Option.map_some]
        exact .goesOn (lt_lineStart_of_endsLine hend hlater hans.whole_boundary.le)
          (boundary_of_startsLine hv (lineStart_spec hay hit.whole.1).1) .nil
      · rename_i hon
        have hon' : hit.whole.1 ≤ le := Nat.le_of_not_lt hon
        have hleft := le_scanLeft le col prevEnd
        have hlast : LineScan re hay col le (some ([hit.rep], some (le + 1))) :=
          .below hv hend (.single hv hcol hnext hon')
        split
        · split
          · exact .below hv hend .nil
          obtain ⟨col', hstep, hlt, hb⟩ := stepChar_spec hv hcol (by omega)
          have hless : scanLeft le col' prevEnd < fuel := by
            have := scanLeft_le le col' prevEnd
            omega
          rw [hstep]
          dsimp only [bind, Option.bind]
          split
          · exact .below hv hend .nil
          · exact (ih hb hless).mono (Nat.le_of_lt hlt)
        rename_i hskip
        split
        · exact hlast
        rename_i hover
        have hin : hit.rep.stop ≤ le := Nat.le_of_not_lt hover
        split
        · rename_i hsub
          split
          · exact hlast
          -- an empty match that counts is where no match stopped before
          have hless : scanLeft le hit.rep.stop (some hit.rep.stop) < fuel := by
            rw [scanLeft, if_pos rfl]
            rcases Nat.lt_or_ge col hit.rep.stop with hgt | hge
            · omega
            · have hne : ¬ prevEnd = some col := fun h => hskip ⟨hsub, h, by omega, by omega⟩
              rw [scanLeft, if_neg hne] at hfuel
              omega
          exact (ih hans.stop_boundary hless).cons hv hcol hnext hon' hin (Nat.le_refl _)
        split
        · split
          · exact hlast
          obtain ⟨col', hstep, hlt, hb⟩ := stepChar_spec hv hans.stop_boundary (by omega)
          have hless : scanLeft le col' prevEnd < fuel := by
            have := scanLeft_le le col' prevEnd
            omega
          rw [hstep]
          exact (ih hb hless).cons hv hcol hnext hon' hin (Nat.le_of_lt hlt)
        · have hless : scanLeft le hit.rep.stop prevEnd < fuel := by
            have := scanLeft_le le hit.rep.stop prevEnd
            omega
          exact (ih hans.stop_boundary hless).cons hv hcol hnext hon' hin (Nat.le_refl _)

/-! ## Line by line -/

/-- The matches from a line on: they begin there or below, in the order of their whole
matches, one that stops on the line it begins on stops before the later ones start, and one
that runs past it is the last to begin on it. -/
structure TextHits (re : Regex) (hay : Bytes) (ls : Nat) (hits : List Hit) : Prop where
  mem : ∀ h ∈ hits, ls ≤ h.whole.1 ∧ ∃ at', IsCharBoundary hay at' ∧ re.next hay at' = some h
  order : hits.Pairwise fun h h' => h.whole.1 ≤ h'.whole.1 ∧
    (h.rep.stop ≤ lineEnd hay h.whole.1 → h.rep.stop ≤ h'.rep.start) ∧
    (lineEnd hay h.whole.1 < h.rep.stop → lineEnd hay h.whole.1 < h'.whole.1)

/-- A hit of the line that starts at `ls` has the end of that line. -/
theorem LineHits.lineEnd_eq {re : Regex} {hay : Bytes} {ls : Nat} {hits : List Hit} {h : Hit}
    (hhits : LineHits re hay ls (lineEnd hay ls) hits) (hls : ls ≤ hay.length) (hh : h ∈ hits) :
    lineEnd hay h.whole.1 = lineEnd hay ls := by
  obtain ⟨hlo, hon, -⟩ := hhits.mem h hh
  obtain ⟨hends, hno⟩ := lineEnd_spec hls
  exact Ruse.Core.lineEnd_eq hon (lineEnd_le_length hay ls) hends fun k hk hkl => hno k (by omega) hkl

/-- The hits of a line are hits of the text. -/
theorem LineHits.text {re : Regex} {hay : Bytes} {ls : Nat} {hits : List Hit}
    (h : LineHits re hay ls (lineEnd hay ls) hits) (hls : ls ≤ hay.length) :
    TextHits re hay ls hits := by
  refine ⟨fun x hx => ⟨(h.mem x hx).1, (h.mem x hx).2.2⟩, h.order.imp_of_mem fun hx _ hxy => ?_⟩
  rw [h.lineEnd_eq hls hx]
  exact ⟨hxy.1, fun _ => hxy.2.1, fun hover => absurd hxy.2.2 (by omega)⟩

theorem LineHits.append {re : Regex} {hay : Bytes} (hv : ValidUtf8 hay) {ls next : Nat}
    {hits below : List Hit} (hls : ls ≤ hay.length)
    (h : LineHits re hay ls (lineEnd hay ls) hits) (hbelow : TextHits re hay next below)
    (hnext : lineEnd hay ls < next) : TextHits re hay ls (hits ++ below) := by
  have htext := h.text hls
  have hle := le_lineEnd hay hls
  refine ⟨fun x hx => ?_, List.pairwise_append.mpr ⟨htext.order, hbelow.order, fun x hx y hy => ?_⟩⟩
  · rcases List.mem_append.mp hx with hx | hx
    · exact htext.mem x hx
    · obtain ⟨hlo, hrest⟩ := hbelow.mem x hx
      exact ⟨by omega, hrest⟩
  · obtain ⟨hlo, hon, -⟩ := h.mem x hx
    obtain ⟨hlo', at', hb, hy'⟩ := hbelow.mem y hy
    have hstart := (re.answers hv hb hy').start_le
    -- the line of the match is the line scanned
    rw [h.lineEnd_eq hls hx]
    exact ⟨by omega, fun hstop => by omega, fun _ => by omega⟩

section
variable {re : Regex} {hay : Bytes} {substitute : Bool} {ls next : Nat} {ms : List Match}
variable (hline : ls < hay.length ∨ ls = hay.length ∧ ¬ (0 < hay.length ∧ hay.getLast? = some newline))

include hline

theorem scanFrom_last (h : ((lineEndFrom hay ls).bind fun le =>
    re.scanLine hay substitute le (2 * hay.length + 2) ls none) = some (ms, none)) :
    re.scanFrom hay substitute ls = some ms := by
  rw [scanFrom, if_pos hline, h]

theorem scanFrom_below (h : ((lineEndFrom hay ls).bind fun le =>
    re.scanLine hay substitute le (2 * hay.length + 2) ls none) = some (ms, some next))
    (hnext : ls < next) : re.scanFrom hay substitute ls =
      (re.scanFrom hay substitute next).map fun rest => ms ++ rest := by
  rw [scanFrom, if_pos hline, h]
  exact if_neg (Nat.not_le_of_lt hnext)

end

/-- The scan returns from any line on, with matches in text order. -/
theorem scanFrom_ends (re : Regex) {hay : Bytes} (hv : ValidUtf8 hay) (substitute : Bool) (ls : Nat)
    (hls : ls ≤ hay.length → IsCharBoundary hay ls) :
    ∃ hits, re.scanFrom hay substitute ls = some (hits.map Hit.rep) ∧ TextHits re hay ls hits := by
  induction h : hay.length + 1 - ls using Nat.strongRecOn generalizing ls with
  | ind left ih =>
    by_cases hline : ls < hay.length ∨
        ls = hay.length ∧ ¬ (0 < hay.length ∧ hay.getLast? = some newline)
    · have hlen : ls ≤ hay.length := by omega
      have hle := lineEnd_le_length hay ls
      have hge := le_lineEnd hay hlen
      have hfuel : scanLeft (lineEnd hay ls) ls none < 2 * hay.length + 2 := by
        have := scanLeft_le (lineEnd hay ls) ls none
        omega
      have hend : lineEndFrom hay ls = some (lineEnd hay ls) := if_pos (hls hlen)
      obtain ⟨hits, next, hrun, hhits, hnext⟩ := scanLine_spec re hv substitute hle
        (lineEnd_spec hlen).1 (hls hlen) hfuel
      cases next with
      | none => exact ⟨hits, scanFrom_last hline (by rw [hend, Option.bind_some, hrun]), hhits.text hlen⟩
      | some next =>
        obtain ⟨hlt, hb⟩ := hnext next rfl
        obtain ⟨below, hrest, hbelow⟩ := ih (hay.length + 1 - next) (by omega) next hb rfl
        rw [scanFrom_below hline (by rw [hend, Option.bind_some, hrun]) (by omega), hrest,
          Option.map_some]
        exact ⟨hits ++ below, by rw [List.map_append], hhits.append hv hlen hbelow hlt⟩
    · exact ⟨[], by rw [scanFrom, if_neg hline]; rfl, fun x hx => absurd hx List.not_mem_nil, .nil⟩

/-- The scan of a text ends: its matches are answers of the engine, in the order of their
whole matches, and each of them stops before the later ones start, unless it runs past
the line it begins on. Those after one that does begin on later lines. -/
theorem scanLines_ends (re : Regex) {hay : Bytes} (hv : ValidUtf8 hay) (substitute : Bool) :
    ∃ hits : List Hit, re.scanLines hay substitute = some (hits.map Hit.rep) ∧
      (∀ h ∈ hits, ∃ at', re.next hay at' = some h ∧ h.Answers hay at') ∧
      hits.Pairwise fun h h' => h.whole.1 ≤ h'.whole.1 ∧
        (h.rep.stop ≤ lineEnd hay h.whole.1 → h.rep.stop ≤ h'.rep.start) ∧
        (lineEnd hay h.whole.1 < h.rep.stop → lineEnd hay h.whole.1 < h'.whole.1) := by
  obtain ⟨hits, hrun, hhits⟩ := scanFrom_ends re hv substitute 0 fun _ => .inl rfl
  refine ⟨hits, hrun, fun h hh => ?_, hhits.order⟩
  obtain ⟨-, at', hb, hnext⟩ := hhits.mem h hh
  exact ⟨at', hnext, re.answers hv hb hnext⟩

/-- The pattern `a\n\n\zsb\|\nb` on "a\n\nb": a match of `b`, and one of the newline before
it. -/
def lineBreaks : Regex where
  multiline := true
  next hay at' :=
    if hay = [0x61, 0x0A, 0x0A, 0x62] then
      if at' = 0 then some ⟨(0, 4), ⟨3, 4⟩⟩
      else if at' ≤ 2 then some ⟨(2, 4), ⟨2, 4⟩⟩
      else none
    else none
  answers := by
    intro hay at' hit _ _ h
    split at h
    · rename_i heq
      subst heq
      split at h
      · cases h
        exact ⟨by omega, by decide, by decide, by decide, by decide, by decide⟩
      · split at h
        · cases h
          exact ⟨by omega, by decide, by decide, by decide, by decide, by decide⟩
        · cases h
    · cases h

/-- A match that runs on to a later line is followed by the matches of the lines it covers:
the starts go back, and the two overlap. -/
theorem scanLines_overlap :
    ∃ out, lineBreaks.scanLines [0x61, 0x0A, 0x0A, 0x62] true = some out ∧
      ¬ out.Pairwise (fun m m' => m.start ≤ m'.start) ∧
      ¬ out.Pairwise (fun m m' => m.stop ≤ m'.start ∨ m'.stop ≤ m.start) := by
  have hthird : lineBreaks.scanFrom [0x61, 0x0A, 0x0A, 0x62] true 3 = some [] :=
    scanFrom_last (by decide) (by decide)
  have hsecond : lineBreaks.scanFrom [0x61, 0x0A, 0x0A, 0x62] true 2 = some [⟨2, 4⟩] := by
    rw [scanFrom_below (by decide) (show _ = some ([⟨2, 4⟩], some 3) by decide) (by decide), hthird]
    rfl
  refine ⟨[⟨3, 4⟩, ⟨2, 4⟩], ?_, by decide, by decide⟩
  rw [scanLines, scanFrom_below (by decide) (show _ = some ([⟨3, 4⟩], some 2) by decide) (by decide),
    hsecond]
  rfl

/-- The scan of that text, by the general rule: the match after one that runs past its line
begins below it. -/
theorem scanLines_ends_lineBreaks :
    ∃ hits : List Hit, lineBreaks.scanLines [0x61, 0x0A, 0x0A, 0x62] true =
        some (hits.map Hit.rep) ∧
      hits.Pairwise fun h h' => h.whole.1 ≤ h'.whole.1 ∧
        (lineEnd [0x61, 0x0A, 0x0A, 0x62] h.whole.1 < h.rep.stop →
          lineEnd [0x61, 0x0A, 0x0A, 0x62] h.whole.1 < h'.whole.1) := by
  have hvalid : ValidUtf8 [0x61, 0x0A, 0x0A, 0x62] := validUtf8_iff.mpr
    (.char (w := 1) (by decide) (.char (w := 1) (by decide) (.char (w := 1) (by decide)
      (.char (w := 1) (by decide) (.refl 4)))))
  obtain ⟨hits, hrun, -, horder⟩ := scanLines_ends lineBreaks hvalid true
  exact ⟨hits, hrun, horder.imp fun h => ⟨h.1, h.2.2⟩⟩

end Regex

end Ruse.Core
