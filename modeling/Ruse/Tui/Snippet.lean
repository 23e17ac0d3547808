import Mathlib.Data.List.Basic
import Mathlib.Data.Nat.Digits.Defs

/-!
# Expanding snippets

The model of `apps/tui/src/lsp/snippet.rs`. The parser renders while it reads: the text so far and
the tabstops with the place each was met at. A default is parsed by the parser itself, up to the
brace that closes it; seen from the text alone that is a machine that counts the open braces
(`run`), and the two agree (`run_eq_parse`).

The place of the parser is what is left of the body; loops have the length of that for fuel.
-/

namespace Ruse.Tui.Snippet

/-- The result of `expand`: the text, and the cursor as a byte offset in it. -/
structure Expansion where
  text : List Char
  cursor : Nat
deriving DecidableEq, Repr

/-- `String::len`. -/
def byteLen (s : List Char) : Nat := (s.map Char.utf8Size).sum

/-- Unicode's tables behind `char::is_alphabetic` and `char::is_alphanumeric`. -/
structure CharTables where
  alphabetic : Char → Bool
  alphanumeric : Char → Bool
  alphanumeric_of_alphabetic : ∀ c, alphabetic c = true → alphanumeric c = true
  ascii : ∀ c, c.toNat < 0x80 → alphabetic c = c.isAlpha ∧ alphanumeric c = c.isAlphanum

/-- The tables of a text of ASCII letters. -/
def CharTables.asciiOnly : CharTables where
  alphabetic := Char.isAlpha
  alphanumeric := Char.isAlphanum
  alphanumeric_of_alphabetic c h := by simp [Char.isAlphanum, h]
  ascii _ _ := ⟨rfl, rfl⟩

structure Parser where
  /-- What is left of the body. -/
  rest : List Char
  out : List Char
  /-- The number of each tabstop and the offset in `out` it starts at. -/
  tabs : List (Nat × Nat)
deriving DecidableEq, Repr

/-! ## Readers -/

/-- `u32::MAX`, which stands for no number. -/
def u32Max : Nat := 2 ^ 32 - 1

def pushDigit (n : Nat) (d : Char) : Nat := min (min (n * 10) u32Max + (d.toNat - '0'.toNat)) u32Max

/-- `read_number`: the number, and what follows it. -/
def readNumber (cs : List Char) : Nat × List Char :=
  let ds := cs.takeWhile Char.isDigit
  (if ds.isEmpty then u32Max else ds.foldl pushDigit 0, cs.dropWhile Char.isDigit)

/-- `read_choice_first`: the first choice, and what follows it. -/
def readChoiceFirst : List Char → List Char × List Char
  | [] => ([], [])
  | '\\' :: [] => ([], [])
  | '\\' :: e :: cs => let r := readChoiceFirst cs; (e :: r.1, r.2)
  | c :: cs =>
    if c = ',' ∨ c = '|' then ([], c :: cs)
    else let r := readChoiceFirst cs; (c :: r.1, r.2)

/-- `skip_to_choice_end`: what follows the next bar. -/
def skipToChoiceEnd : List Char → List Char
  | [] => []
  | c :: cs => if c = '|' then cs else skipToChoiceEnd cs

def consume (want : Char) (p : Parser) : Parser :=
  match p.rest with
  | c :: cs => if c = want then { p with rest := cs } else p
  | [] => p

namespace Parser

def push (p : Parser) (cs : List Char) : Parser := { p with out := p.out ++ cs }

def tabstop (p : Parser) (n : Nat) : Parser := { p with tabs := p.tabs ++ [(n, byteLen p.out)] }

end Parser

/-- The characters of a `$variable` after its first. -/
def isIdent (tables : CharTables) (c : Char) : Bool := tables.alphanumeric c || c == '_'

/-! ## The parser -/

section
variable (tables : CharTables)

def parseEscape (p : Parser) : Parser :=
  match p.rest with
  | e :: cs =>
    if e = '$' ∨ e = '}' ∨ e = '\\' then { p with rest := cs, out := p.out ++ [e] }
    else { p with rest := cs, out := p.out ++ ['\\', e] }
  | [] => p.push ['\\']

/-- `parse_braced`, past the brace; `inner` parses a default. -/
def parseBraced (inner : Parser → Parser) (p : Parser) : Parser :=
  let (n, rest) := readNumber p.rest
  if n ≠ u32Max then
    match rest with
    | ':' :: cs => consume '}' (inner ({ p with rest := cs }.tabstop n))
    | '|' :: cs =>
      let (first, cs) := readChoiceFirst cs
      consume '}' (({ p with rest := skipToChoiceEnd cs }.tabstop n).push first)
    | cs => consume '}' ({ p with rest := cs }.tabstop n)
  else
    match rest.dropWhile fun c => c != '}' && c != ':' with
    | ':' :: cs => consume '}' (inner { p with rest := cs })
    | cs => consume '}' { p with rest := cs }

/-- `parse_dollar`, past the dollar. -/
def parseDollar (inner : Parser → Parser) (p : Parser) : Parser :=
  match p.rest with
  | [] => p.push ['$']
  | c :: cs =>
    if c = '{' then parseBraced inner { p with rest := cs }
    else if c.isDigit then
      let (n, rest) := readNumber (c :: cs)
      { p with rest }.tabstop n
    else if tables.alphabetic c || c == '_' then
      { p with rest := (c :: cs).dropWhile (isIdent tables) }
    else p.push ['$']

/-- `parse`: up to the end, or when nested up to the brace that closes. -/
def parse : (fuel : Nat) → (nested : Bool) → Parser → Parser
  | 0, _, p => p
  | fuel + 1, nested, p =>
    match p.rest with
    | [] => p
    | c :: cs =>
      if c = '}' ∧ nested = true then p
      else if c = '\\' then parse fuel nested (parseEscape { p with rest := cs })
      else if c = '$' then
        parse fuel nested (parseDollar tables (fun q => parse fuel true q) { p with rest := cs })
      else parse fuel nested { p with rest := cs, out := p.out ++ [c] }

/-- `Iterator::min_by_key` of the tabstop's number: the first of the least. -/
def minStop : List (Nat × Nat) → Option (Nat × Nat)
  | [] => none
  | t :: ts =>
    match minStop ts with
    | none => some t
    | some u => if t.1 ≤ u.1 then some t else some u

def pickCursor (tabs : List (Nat × Nat)) (stop : Nat) : Nat :=
  (((minStop (tabs.filter fun t => 1 ≤ t.1 && t.1 != u32Max)).or
    (tabs.find? fun t => t.1 == 0)).map Prod.snd).getD stop

def expand (body : List Char) : Expansion :=
  let p := parse tables body.length false ⟨body, [], []⟩
  ⟨p.out, pickCursor p.tabs (byteLen p.out)⟩

end

/-! ## One element -/

section
variable (tables : CharTables)

/-- What `parse_braced` reads itself, and whether a default follows. -/
def openBraced (p : Parser) : Bool × Parser :=
  let (n, rest) := readNumber p.rest
  if n ≠ u32Max then
    match rest with
    | ':' :: cs => (true, { p with rest := cs }.tabstop n)
    | '|' :: cs =>
      let (first, cs) := readChoiceFirst cs
      (false, consume '}' (({ p with rest := skipToChoiceEnd cs }.tabstop n).push first))
    | cs => (false, consume '}' ({ p with rest := cs }.tabstop n))
  else
    match rest.dropWhile fun c => c != '}' && c != ':' with
    | ':' :: cs => (true, { p with rest := cs })
    | cs => (false, consume '}' { p with rest := cs })

def openDollar (p : Parser) : Bool × Parser :=
  match p.rest with
  | [] => (false, p.push ['$'])
  | c :: cs =>
    if c = '{' then openBraced { p with rest := cs }
    else if c.isDigit then
      let (n, rest) := readNumber (c :: cs)
      (false, { p with rest }.tabstop n)
    else if tables.alphabetic c || c == '_' then
      (false, { p with rest := (c :: cs).dropWhile (isIdent tables) })
    else (false, p.push ['$'])

/-- The element that begins with `c`, up to where its default begins. -/
def element (c : Char) (p : Parser) : Bool × Parser :=
  if c = '\\' then (false, parseEscape p)
  else if c = '$' then openDollar tables p
  else (false, p.push [c])

/-- What is done after an element that opened a default. -/
def close (inner : Parser → Parser) (e : Bool × Parser) : Parser :=
  if e.1 then consume '}' (inner e.2) else e.2

theorem parseBraced_eq (inner : Parser → Parser) (p : Parser) :
    parseBraced inner p = close inner (openBraced p) := by
  unfold parseBraced openBraced
  generalize readNumber p.rest = r
  dsimp only
  split
  · split <;> rfl
  · split <;> rfl

theorem parseDollar_eq (inner : Parser → Parser) (p : Parser) :
    parseDollar tables inner p = close inner (openDollar tables p) := by
  unfold parseDollar openDollar
  split
  · rfl
  · split_ifs
    · exact parseBraced_eq inner _
    · rfl
    · rfl
    · rfl

theorem parse_element (fuel : Nat) {nested : Bool} {p : Parser} {c : Char} {cs : List Char}
    (hrest : p.rest = c :: cs) (hc : ¬ (c = '}' ∧ nested = true)) :
    parse tables (fuel + 1) nested p =
      parse tables fuel nested (close (parse tables fuel true) (element tables c { p with rest := cs })) := by
  rw [parse, hrest]
  dsimp only
  rw [if_neg hc, element]
  split_ifs
  · rfl
  · rw [parseDollar_eq]
  · rfl

/-! ## What an element takes -/

theorem length_consume (want : Char) (p : Parser) : (consume want p).rest.length ≤ p.rest.length := by
  unfold consume
  split
  · rename_i c cs hrest
    split
    · rw [hrest]
      exact Nat.le_succ _
    · exact Nat.le_refl _
  · exact Nat.le_refl _

theorem length_readNumber (cs : List Char) : (readNumber cs).2.length ≤ cs.length :=
  (List.dropWhile_sublist _).length_le

theorem length_readChoiceFirst (cs : List Char) : (readChoiceFirst cs).2.length ≤ cs.length := by
  fun_induction readChoiceFirst cs with
  | case1 => exact Nat.le_refl _
  | case2 => exact Nat.zero_le _
  | case3 e cs r ih => exact Nat.le_trans ih (by simp only [List.length_cons]; omega)
  | case4 c cs => exact Nat.le_refl _
  | case5 c cs _ _ _ r ih => exact Nat.le_trans ih (Nat.le_succ _)

theorem length_skipToChoiceEnd (cs : List Char) : (skipToChoiceEnd cs).length ≤ cs.length := by
  induction cs with
  | nil => exact Nat.le_refl _
  | cons c cs ih =>
    rw [skipToChoiceEnd, List.length_cons]
    split
    · exact Nat.le_succ _
    · omega

/-- An open brace takes characters off the input, never adds one. -/
theorem length_openBraced (p : Parser) : (openBraced p).2.rest.length ≤ p.rest.length := by
  have hnumber := length_readNumber p.rest
  unfold openBraced
  generalize readNumber p.rest = r at *
  obtain ⟨n, rest⟩ := r
  dsimp only at hnumber ⊢
  split
  · split
    · exact Nat.le_trans (Nat.le_succ _) hnumber
    · rename_i cs
      rw [List.length_cons] at hnumber
      have hfirst := length_readChoiceFirst cs
      have hskip := length_skipToChoiceEnd (readChoiceFirst cs).2
      refine Nat.le_trans (length_consume _ _) ?_
      show (skipToChoiceEnd (readChoiceFirst cs).2).length ≤ _
      omega
    · exact Nat.le_trans (length_consume _ _) hnumber
  · have hdrop := (List.dropWhile_sublist (l := rest) fun c => c != '}' && c != ':').length_le
    split
    · rename_i cs heq
      rw [heq, List.length_cons] at hdrop
      show cs.length ≤ _
      omega
    · exact Nat.le_trans (length_consume _ _) (Nat.le_trans hdrop hnumber)

theorem length_openDollar (p : Parser) : (openDollar tables p).2.rest.length ≤ p.rest.length := by
  unfold openDollar
  split
  · exact Nat.le_refl _
  · rename_i c cs hrest
    rw [hrest, List.length_cons]
    split_ifs
    · exact Nat.le_trans (length_openBraced _) (Nat.le_succ _)
    · exact length_readNumber (c :: cs)
    · exact (List.dropWhile_sublist (l := c :: cs) _).length_le
    · show p.rest.length ≤ _
      rw [hrest, List.length_cons]

theorem length_element (c : Char) (p : Parser) : (element tables c p).2.rest.length ≤ p.rest.length := by
  unfold element
  split_ifs
  · unfold parseEscape
    split
    · rename_i e cs hrest
      rw [hrest, List.length_cons]
      split <;> exact Nat.le_succ _
    · exact Nat.le_refl _
  · exact length_openDollar tables p
  · exact Nat.le_refl _

/-! ## Counting braces -/

/-- The parser seen from the text: `depth` defaults are open. -/
def run (depth : Nat) (p : Parser) : Parser :=
  match _h : p.rest with
  | [] => p
  | c :: cs =>
    if c = '}' ∧ 0 < depth then run (depth - 1) { p with rest := cs }
    else
      let e := element tables c { p with rest := cs }
      run (if e.1 then depth + 1 else depth) e.2
termination_by p.rest.length
decreasing_by
  · rw [_h]
    exact Nat.lt_succ_self _
  · rw [_h]
    exact Nat.lt_succ_of_le (length_element tables c _)

theorem run_nil (depth : Nat) {p : Parser} (h : p.rest = []) : run tables depth p = p := by
  rw [run]
  split
  · rfl
  · rename_i heq
    rw [h] at heq
    cases heq

theorem run_close (depth : Nat) {p : Parser} {cs : List Char} (h : p.rest = '}' :: cs) :
    run tables (depth + 1) p = run tables depth { p with rest := cs } := by
  rw [run]
  split
  · rename_i heq
    rw [h] at heq
    cases heq
  · rename_i c' cs' heq
    rw [h] at heq
    cases heq
    rw [if_pos ⟨rfl, Nat.succ_pos _⟩]
    rfl

theorem run_element (depth : Nat) {p : Parser} {c : Char} {cs : List Char} (h : p.rest = c :: cs)
    (hc : ¬ (c = '}' ∧ 0 < depth)) : run tables depth p =
      run tables (if (element tables c { p with rest := cs }).1 then depth + 1 else depth)
        (element tables c { p with rest := cs }).2 := by
  rw [run]
  split
  · rename_i heq
    rw [h] at heq
    cases heq
  · rename_i c' cs' heq
    rw [h] at heq
    cases heq
    rw [if_neg hc]

/-- A nested call of the parser is the machine down to the brace that closes. -/
theorem run_nested (fuel : Nat) {p : Parser} (hfuel : p.rest.length ≤ fuel) (depth : Nat) :
    (parse tables fuel true p).rest.length ≤ p.rest.length ∧
      run tables (depth + 1) p = run tables depth (consume '}' (parse tables fuel true p)) := by
  induction fuel generalizing p depth with
  | zero =>
    have hnil : p.rest = [] := List.length_eq_zero_iff.mp (Nat.le_zero.mp hfuel)
    have hconsume : consume '}' p = p := by rw [consume, hnil]
    rw [parse, hconsume, run_nil tables _ hnil, run_nil tables _ hnil]
    exact ⟨Nat.le_refl _, rfl⟩
  | succ fuel ih =>
    cases hrest : p.rest with
    | nil =>
      have hparse : parse tables (fuel + 1) true p = p := by rw [parse, hrest]
      have hconsume : consume '}' p = p := by rw [consume, hrest]
      rw [hparse, hconsume, run_nil tables _ hrest, run_nil tables _ hrest, hrest]
      exact ⟨Nat.le_refl _, rfl⟩
    | cons c cs =>
      rw [hrest, List.length_cons] at hfuel
      by_cases hclose : c = '}'
      · subst hclose
        have hparse : parse tables (fuel + 1) true p = p := by
          rw [parse, hrest]
          exact if_pos ⟨rfl, rfl⟩
        have hconsume : consume '}' p = { p with rest := cs } := by
          rw [consume, hrest]
          exact if_pos rfl
        rw [hparse, hconsume, run_close tables depth hrest, hrest]
        exact ⟨Nat.le_refl _, rfl⟩
      · have hlen := length_element tables c { p with rest := cs }
        rw [parse_element tables fuel hrest (fun h => hclose h.1),
          run_element tables (depth + 1) hrest (fun h => hclose h.1)]
        generalize element tables c { p with rest := cs } = e at hlen ⊢
        obtain ⟨opened, q⟩ := e
        change q.rest.length ≤ cs.length at hlen
        cases opened with
        | false =>
          obtain ⟨hle, hrun⟩ := ih (p := q) (by omega) depth
          exact ⟨by rw [List.length_cons]; exact Nat.le_trans hle (by omega), hrun⟩
        | true =>
          -- the default first, then what follows its brace
          obtain ⟨hle, hrun⟩ := ih (p := q) (by omega) (depth + 1)
          have hconsume := length_consume '}' (parse tables fuel true q)
          obtain ⟨hle', hrun'⟩ := ih (p := consume '}' (parse tables fuel true q)) (by omega) depth
          refine ⟨?_, hrun.trans hrun'⟩
          rw [List.length_cons]
          exact Nat.le_trans hle' (by omega)

/-- With enough fuel the parser is the machine. -/
theorem run_eq_parse (fuel : Nat) {p : Parser} (hfuel : p.rest.length ≤ fuel) :
    parse tables fuel false p = run tables 0 p := by
  induction fuel generalizing p with
  | zero =>
    rw [parse, run_nil tables 0 (List.length_eq_zero_iff.mp (Nat.le_zero.mp hfuel))]
  | succ fuel ih =>
    cases hrest : p.rest with
    | nil => rw [run_nil tables 0 hrest, parse, hrest]
    | cons c cs =>
      rw [hrest, List.length_cons] at hfuel
      have hlen := length_element tables c { p with rest := cs }
      rw [parse_element tables fuel hrest (fun h => Bool.false_ne_true h.2),
        run_element tables 0 hrest (fun h => Nat.lt_irrefl 0 h.2)]
      generalize element tables c { p with rest := cs } = e at hlen ⊢
      obtain ⟨opened, q⟩ := e
      change q.rest.length ≤ cs.length at hlen
      cases opened with
      | false => exact ih (p := q) (by omega)
      | true =>
        obtain ⟨hle, hrun⟩ := run_nested tables fuel (p := q) (by omega) 0
        have hconsume := length_consume '}' (parse tables fuel true q)
        refine (ih (p := consume '}' (parse tables fuel true q)) (by omega)).trans ?_
        exact hrun.symm

theorem expand_eq_run (body : List Char) : expand tables body =
    ⟨(run tables 0 ⟨body, [], []⟩).out, pickCursor (run tables 0 ⟨body, [], []⟩).tabs
      (byteLen (run tables 0 ⟨body, [], []⟩).out)⟩ := by
  rw [expand, run_eq_parse tables body.length (Nat.le_refl _)]

end

/-! ## The cursor -/

/-- The offset `k` is between two characters of `s`. -/
def OnChar (s : List Char) (k : Nat) : Prop := ∃ front rest, s = front ++ rest ∧ k = byteLen front

theorem OnChar.append {s : List Char} {k : Nat} (h : OnChar s k) (w : List Char) :
    OnChar (s ++ w) k := by
  obtain ⟨front, rest, rfl, hk⟩ := h
  exact ⟨front, rest ++ w, List.append_assoc _ _ _, hk⟩

theorem onChar_end (s : List Char) : OnChar s (byteLen s) := ⟨s, [], (List.append_nil s).symm, rfl⟩

/-- Every tabstop is between two characters of the text so far. -/
def Placed (p : Parser) : Prop := ∀ t ∈ p.tabs, OnChar p.out t.2

section
variable {p : Parser}

theorem Placed.append (h : Placed p) (rest w : List Char) :
    Placed { p with rest, out := p.out ++ w } := fun t ht => (h t ht).append w

theorem Placed.tabstop (h : Placed p) (n : Nat) : Placed (p.tabstop n) := by
  intro t ht
  rcases List.mem_append.mp ht with ht | ht
  · exact h t ht
  · rw [List.mem_singleton.mp ht]
    exact onChar_end p.out

theorem Placed.consume (h : Placed p) (want : Char) : Placed (consume want p) := by
  unfold Snippet.consume
  split
  · split
    · exact h
    · exact h
  · exact h

theorem Placed.openBraced (h : Placed p) : Placed (openBraced p).2 := by
  unfold Snippet.openBraced
  generalize readNumber p.rest = r
  obtain ⟨n, rest⟩ := r
  dsimp only
  split
  · split
    · exact Placed.tabstop (p := { p with rest := _ }) h n
    · rename_i cs
      refine Placed.consume ?_ '}'
      exact (Placed.tabstop (p := { p with rest := skipToChoiceEnd (readChoiceFirst cs).2 }) h n).append _ _
    · refine Placed.consume ?_ '}'
      exact Placed.tabstop (p := { p with rest }) h n
  · split
    · exact h
    · refine Placed.consume ?_ '}'
      exact h

theorem Placed.openDollar (tables : CharTables) (h : Placed p) : Placed (openDollar tables p).2 := by
  unfold Snippet.openDollar
  split
  · exact h.append _ _
  · split_ifs
    · exact Placed.openBraced (p := { p with rest := _ }) h
    · exact Placed.tabstop (p := { p with rest := _ }) h _
    · exact h
    · exact h.append _ _

theorem Placed.element (tables : CharTables) (h : Placed p) (c : Char) :
    Placed (element tables c p).2 := by
  unfold Snippet.element
  split_ifs
  · unfold parseEscape
    split
    · split
      · exact h.append _ _
      · exact h.append _ _
    · exact h.append _ _
  · exact h.openDollar tables
  · exact h.append _ _

theorem Placed.run (tables : CharTables) (depth : Nat) (h : Placed p) : Placed (run tables depth p) := by
  induction depth, p using run.induct tables with
  | case1 depth p hrest =>
    rw [run_nil tables depth hrest]
    exact h
  | case2 depth p c cs hrest hclose ih =>
    obtain ⟨rfl, hdepth⟩ := hclose
    obtain ⟨d, rfl⟩ := Nat.exists_eq_add_of_lt hdepth
    rw [Nat.zero_add] at ih ⊢
    rw [run_close tables d hrest]
    exact ih h
  | case3 depth p c cs hrest hclose e ih =>
    rw [run_element tables depth hrest hclose]
    exact ih (Placed.element (p := { p with rest := cs }) tables h c)

end

theorem minStop_eq_none {ts : List (Nat × Nat)} (h : minStop ts = none) : ts = [] := by
  cases ts with
  | nil => rfl
  | cons t ts =>
    rw [minStop] at h
    split at h
    · cases h
    · split at h <;> cases h

/-- The first of the lowest tabstops is found. -/
theorem minStop_spec {ts : List (Nat × Nat)} {u : Nat × Nat} (h : minStop ts = some u) :
    ∃ before after, ts = before ++ u :: after ∧ (∀ t ∈ before, u.1 < t.1) ∧
      ∀ t ∈ after, u.1 ≤ t.1 := by
  induction ts generalizing u with
  | nil => cases h
  | cons t ts ih =>
    rw [minStop] at h
    cases hmin : minStop ts with
    | none =>
      rw [hmin] at h
      cases h
      exact ⟨[], [], by rw [minStop_eq_none hmin]; rfl, by simp, by simp⟩
    | some v =>
      rw [hmin] at h
      obtain ⟨before, after, rfl, hbefore, hafter⟩ := ih hmin
      dsimp only at h
      split at h
      · rename_i hle
        cases h
        refine ⟨[], _, rfl, by simp, fun x hx => ?_⟩
        rcases List.mem_append.mp hx with hx | hx
        · exact Nat.le_trans hle (Nat.le_of_lt (hbefore x hx))
        · rcases List.mem_cons.mp hx with rfl | hx
          · exact hle
          · exact Nat.le_trans hle (hafter x hx)
      · rename_i hlt
        cases h
        refine ⟨t :: before, after, rfl, fun x hx => ?_, hafter⟩
        rcases List.mem_cons.mp hx with rfl | hx
        · omega
        · exact hbefore x hx

/-- The offset a snippet's cursor goes to: the first of the lowest positive tabstops, or the first
`$0`, or the end. -/
def Chosen (stops : List (Nat × Nat)) (stop c : Nat) : Prop :=
  (∃ before n after, stops = before ++ (n, c) :: after ∧ 1 ≤ n ∧
    (∀ t ∈ before, 1 ≤ t.1 → n < t.1) ∧ ∀ t ∈ after, 1 ≤ t.1 → n ≤ t.1) ∨
  ((∀ t ∈ stops, t.1 = 0) ∧ ((∃ after, stops = (0, c) :: after) ∨ stops = [] ∧ c = stop))

/-- The cursor picked is the one that `Chosen` says. -/
theorem pickCursor_chosen {tabs : List (Nat × Nat)} (h : ∀ t ∈ tabs, t.1 < u32Max) (stop : Nat) :
    Chosen tabs stop (pickCursor tabs stop) := by
  have hkeep : ∀ t ∈ tabs, (1 ≤ t.1 && t.1 != u32Max) = true ↔ 1 ≤ t.1 := by
    intro t ht
    have := h t ht
    simp only [Bool.and_eq_true, decide_eq_true_eq, bne_iff_ne, ne_eq, and_iff_left_iff_imp]
    omega
  unfold pickCursor
  cases hmin : minStop (tabs.filter fun t => 1 ≤ t.1 && t.1 != u32Max) with
  | some u =>
    left
    obtain ⟨before, after, hsplit, hbefore, hafter⟩ := minStop_spec hmin
    obtain ⟨front, back, rfl, hfront, hback⟩ := List.filter_eq_append_iff.mp hsplit
    obtain ⟨skipped, after', rfl, hskip, hu, hafter'⟩ := List.filter_eq_cons_iff.mp hback
    refine ⟨front ++ skipped, u.1, after', by simp, ?_, fun t ht hpos => ?_, fun t ht hpos => ?_⟩
    · exact (hkeep u (by simp)).mp hu
    · rcases List.mem_append.mp ht with ht | ht
      · refine hbefore t ?_
        rw [← hfront, List.mem_filter]
        exact ⟨ht, (hkeep t (by simp [ht])).mpr hpos⟩
      · exact absurd ((hkeep t (by simp [ht])).mpr hpos) (hskip t ht)
    · refine hafter t ?_
      rw [← hafter', List.mem_filter]
      exact ⟨ht, (hkeep t (by simp [ht])).mpr hpos⟩
  | none =>
    right
    have hzero : ∀ t ∈ tabs, t.1 = 0 := by
      intro t ht
      by_contra hne
      exact (List.filter_eq_nil_iff.mp (minStop_eq_none hmin)) t ht ((hkeep t ht).mpr (by omega))
    refine ⟨hzero, ?_⟩
    rw [Option.none_or]
    cases tabs with
    | nil => exact .inr ⟨rfl, rfl⟩
    | cons t ts =>
      have ht := hzero t List.mem_cons_self
      obtain ⟨n, off⟩ := t
      subst ht
      exact .inl ⟨ts, rfl⟩

theorem pickCursor_mem (tabs : List (Nat × Nat)) (stop : Nat) :
    pickCursor tabs stop = stop ∨ ∃ t ∈ tabs, pickCursor tabs stop = t.2 := by
  unfold pickCursor
  cases hmin : minStop (tabs.filter fun t => 1 ≤ t.1 && t.1 != u32Max) with
  | some u =>
    obtain ⟨before, after, hsplit, -⟩ := minStop_spec hmin
    have hu : u ∈ tabs.filter fun t => 1 ≤ t.1 && t.1 != u32Max := by
      rw [hsplit]
      simp
    exact .inr ⟨u, List.mem_of_mem_filter hu, rfl⟩
  | none =>
    rw [Option.none_or]
    cases hfind : tabs.find? fun t => t.1 == 0 with
    | none => exact .inl rfl
    | some u => exact .inr ⟨u, List.mem_of_find?_eq_some hfind, rfl⟩

theorem expand_onChar (tables : CharTables) (body : List Char) :
    OnChar (expand tables body).text (expand tables body).cursor := by
  have hplaced : Placed (run tables 0 ⟨body, [], []⟩) :=
    Placed.run tables 0 (fun t ht => absurd ht List.not_mem_nil)
  rw [expand_eq_run]
  generalize run tables 0 ⟨body, [], []⟩ = p at hplaced
  rcases pickCursor_mem p.tabs (byteLen p.out) with hstop | ⟨t, ht, heq⟩
  · rw [hstop]
    exact onChar_end p.out
  · rw [heq]
    exact hplaced t ht

end Ruse.Tui.Snippet
