import Ruse.Tui.ExRangeSpelling
import Ruse.Tui.Snippet

/-!
# Snippets as trees

A snippet of the grammar is a tree (`Tree`). What it stands for is read off the tree: the text with
the defaults in it, and where the tabstops begin. `expand` of the tree written out gives that
(`run_plain`), but for choices with a bar in an option after the first: the bar is taken for the one
that ends the choice, and what follows it comes out as text (`run_grows`).
-/

namespace Ruse.Tui.Snippet

variable {cs name r s : List Char} {n : Nat} {c : Char}

/-! ## Trees -/

/-- A snippet: its first element and the rest. -/
inductive Tree where
  | nil
  | text (c : Char) (rest : Tree)
  /-- `$n` or `${n}`. -/
  | tabstop (n : Nat) (braced : Bool) (rest : Tree)
  /-- `${n:body}`. -/
  | placeholder (n : Nat) (body rest : Tree)
  /-- `${n|first,…|}`. -/
  | choice (n : Nat) (first : List Char) (others : List (List Char)) (rest : Tree)
  /-- `$name` or `${name}`. -/
  | var (name : List Char) (braced : Bool) (rest : Tree)
  /-- `${name:body}`. -/
  | varDefault (name : List Char) (body rest : Tree)

/-- The characters a backslash makes plain. -/
def isSyntax (c : Char) : Bool := c == '$' || c == '}' || c == '\\'

/-- The characters a backslash makes plain in a choice. -/
def isChoiceSyntax (c : Char) : Bool := isSyntax c || c == ',' || c == '|'

def escape (special : Char → Bool) (c : Char) : List Char := if special c then ['\\', c] else [c]

def escapeAll (special : Char → Bool) (s : List Char) : List Char := s.flatMap (escape special)

/-- The options of a choice after its first. -/
def renderOthers (others : List (List Char)) : List Char :=
  others.flatMap fun o => ',' :: escapeAll isChoiceSyntax o

namespace Tree

/-- The body that is written for the tree. -/
def render : Tree → List Char
  | nil => []
  | text c rest => escape isSyntax c ++ rest.render
  | tabstop n false rest => '$' :: (Nat.toDigits 10 n ++ rest.render)
  | tabstop n true rest => '$' :: '{' :: (Nat.toDigits 10 n ++ '}' :: rest.render)
  | placeholder n body rest =>
    '$' :: '{' :: (Nat.toDigits 10 n ++ ':' :: (body.render ++ '}' :: rest.render))
  | choice n first others rest =>
    '$' :: '{' :: (Nat.toDigits 10 n ++
      '|' :: (escapeAll isChoiceSyntax first ++ (renderOthers others ++ '|' :: '}' :: rest.render)))
  | var name false rest => '$' :: (name ++ rest.render)
  | var name true rest => '$' :: '{' :: (name ++ '}' :: rest.render)
  | varDefault name body rest => '$' :: '{' :: (name ++ ':' :: (body.render ++ '}' :: rest.render))

def plain : Tree → List Char
  | nil => []
  | text c rest => c :: rest.plain
  | tabstop _ _ rest => rest.plain
  | placeholder _ body rest => body.plain ++ rest.plain
  | choice _ first _ rest => first ++ rest.plain
  | var _ _ rest => rest.plain
  | varDefault _ body rest => body.plain ++ rest.plain

/-- The tabstops and where each begins, of a tree whose text begins at `off`. -/
def stops (off : Nat) : Tree → List (Nat × Nat)
  | nil => []
  | text c rest => rest.stops (off + c.utf8Size)
  | tabstop n _ rest => (n, off) :: rest.stops off
  | placeholder n body rest => (n, off) :: (body.stops off ++ rest.stops (off + byteLen body.plain))
  | choice n first _ rest => (n, off) :: rest.stops (off + byteLen first)
  | var _ _ rest => rest.stops off
  | varDefault _ body rest => body.stops off ++ rest.stops (off + byteLen body.plain)

end Tree

/-- No character of `p` begins `cs`. -/
def Breaks (p : Char → Bool) (cs : List Char) : Prop := ∀ c ∈ cs.head?, p c = false

def IsName (tables : CharTables) (name : List Char) : Prop :=
  ∃ c cs, name = c :: cs ∧ (tables.alphabetic c || c == '_') = true ∧
    ∀ d ∈ cs, isIdent tables d = true

namespace Tree

/-- The numbers are ones the parser can tell from no number, and what follows a number or a name
without braces does not go on with it. -/
def Wf (tables : CharTables) : Tree → Prop
  | nil => True
  | text _ rest => rest.Wf tables
  | tabstop n braced rest =>
    n < u32Max ∧ (braced = false → Breaks Char.isDigit rest.render) ∧ rest.Wf tables
  | placeholder n body rest => n < u32Max ∧ body.Wf tables ∧ rest.Wf tables
  | choice n _ _ rest => n < u32Max ∧ rest.Wf tables
  | var name braced rest =>
    IsName tables name ∧ (braced = false → Breaks (isIdent tables) rest.render) ∧ rest.Wf tables
  | varDefault name body rest => IsName tables name ∧ body.Wf tables ∧ rest.Wf tables

/-- No option of a choice after its first has a bar. -/
def PlainBars : Tree → Prop
  | nil => True
  | text _ rest => rest.PlainBars
  | tabstop _ _ rest => rest.PlainBars
  | placeholder _ body rest => body.PlainBars ∧ rest.PlainBars
  | choice _ _ others rest => (∀ o ∈ others, '|' ∉ o) ∧ rest.PlainBars
  | var _ _ rest => rest.PlainBars
  | varDefault _ body rest => body.PlainBars ∧ rest.PlainBars

end Tree

/-- The expansion is what the tree stands for. -/
def Denotes (t : Tree) (e : Expansion) : Prop :=
  e.text = t.plain ∧ Chosen (t.stops 0) (byteLen t.plain) e.cursor

/-! ## Readers on what was written -/

theorem Breaks.append {p : Char → Bool} {tail : List Char} (h : Breaks p cs)
    (htail : Breaks p tail) : Breaks p (cs ++ tail) := by
  cases cs with
  | nil => exact htail
  | cons c cs => exact h

theorem takeWhile_breaks {p : Char → Bool} (hcs : ∀ c ∈ cs, p c = true)
    (hr : Breaks p r) : (cs ++ r).takeWhile p = cs ∧ (cs ++ r).dropWhile p = r := by
  rw [List.takeWhile_append_of_pos hcs, List.dropWhile_append_of_pos hcs]
  cases r with
  | nil => exact ⟨List.append_nil cs, rfl⟩
  | cons c r =>
    have hc := hr c rfl
    rw [List.takeWhile_cons, List.dropWhile_cons, hc]
    exact ⟨List.append_nil cs, rfl⟩

theorem foldl_pushDigit (ds : List Char) (n : Nat) :
    ds.foldl pushDigit (min n u32Max) = min (Nat.ofDigitChars 10 ds n) u32Max := by
  induction ds generalizing n with
  | nil => rw [List.foldl_nil, Nat.ofDigitChars_nil]
  | cons d ds ih =>
    have hdigit : pushDigit (min n u32Max) d = min (10 * n + (d.toNat - '0'.toNat)) u32Max := by
      have hmax : u32Max = 4294967295 := rfl
      unfold pushDigit
      rw [hmax]
      omega
    rw [List.foldl_cons, hdigit, ih, Nat.ofDigitChars_cons]

theorem readNumber_toDigits (hn : n < u32Max) (hr : Breaks Char.isDigit r) :
    readNumber (Nat.toDigits 10 n ++ r) = (n, r) := by
  obtain ⟨htake, hdrop⟩ := takeWhile_breaks (isDigit_toDigits n) hr
  have hne : (Nat.toDigits 10 n).isEmpty = false := by simp [Nat.toDigits_ne_nil]
  have hvalue := foldl_pushDigit (Nat.toDigits 10 n) 0
  rw [Nat.zero_min, Nat.ofDigitChars_ten_toDigits, min_eq_left (Nat.le_of_lt hn)] at hvalue
  unfold readNumber
  dsimp only
  rw [htake, hdrop, hne, hvalue]
  rfl

theorem readNumber_none (hc : c.isDigit = false) :
    readNumber (c :: cs) = (u32Max, c :: cs) := by
  rw [readNumber, List.takeWhile_cons, List.dropWhile_cons, hc]
  rfl

theorem readChoiceFirst_escapeAll (o : List Char) (hc : c = ',' ∨ c = '|') (r : List Char) :
    readChoiceFirst (escapeAll isChoiceSyntax o ++ c :: r) = (o, c :: r) := by
  induction o with
  | nil =>
    rcases hc with rfl | rfl <;> rfl
  | cons d o ih =>
    show readChoiceFirst (escape isChoiceSyntax d ++ escapeAll isChoiceSyntax o ++ c :: r) = _
    rw [List.append_assoc, escape]
    by_cases hd : isChoiceSyntax d = true
    · rw [if_pos hd]
      show readChoiceFirst ('\\' :: d :: (escapeAll isChoiceSyntax o ++ c :: r)) = _
      rw [readChoiceFirst, ih]
    · rw [if_neg hd]
      simp only [isChoiceSyntax, isSyntax, Bool.or_eq_true, beq_iff_eq, not_or] at hd
      show readChoiceFirst (d :: (escapeAll isChoiceSyntax o ++ c :: r)) = _
      rw [readChoiceFirst.eq_4 d _ (fun h _ => hd.1.1.2 h) (fun e cs h _ => hd.1.1.2 h),
        if_neg (by simp [hd.1.2, hd.2]), ih]

/-! ## Escaped text -/

/-- Text whose dollars, braces and backslashes are behind a backslash. -/
inductive Escaped : List Char → Prop
  | nil : Escaped []
  | plain {c : Char} {cs : List Char} : isSyntax c = false → Escaped cs → Escaped (c :: cs)
  | escaped {c : Char} {cs : List Char} : Escaped cs → Escaped ('\\' :: c :: cs)

theorem Escaped.append {ds : List Char} (h : Escaped cs) (h' : Escaped ds) : Escaped (cs ++ ds) := by
  induction h with
  | nil => exact h'
  | plain hc _ ih => exact .plain hc ih
  | escaped _ ih => exact .escaped ih

theorem escaped_escapeAll (o : List Char) : Escaped (escapeAll isChoiceSyntax o) := by
  induction o with
  | nil => exact .nil
  | cons d o ih =>
    show Escaped (escape isChoiceSyntax d ++ escapeAll isChoiceSyntax o)
    rw [escape]
    by_cases hd : isChoiceSyntax d = true
    · rw [if_pos hd]
      exact .escaped ih
    · rw [if_neg hd]
      simp only [isChoiceSyntax, Bool.or_eq_true, not_or, Bool.not_eq_true] at hd
      exact .plain hd.1.1 ih

theorem escaped_renderOthers (others : List (List Char)) : Escaped (renderOthers others) := by
  induction others with
  | nil => exact .nil
  | cons o others ih =>
    exact .append (.plain rfl (escaped_escapeAll o)) ih

theorem mem_escapeAll {o : List Char} : '|' ∈ escapeAll isChoiceSyntax o ↔ '|' ∈ o := by
  simp only [escapeAll, List.mem_flatMap]
  constructor
  · rintro ⟨c, hc, hmem⟩
    rw [escape] at hmem
    split at hmem
    · rcases List.mem_cons.mp hmem with h | h
      · cases h
      · rwa [← List.mem_singleton.mp h] at hc
    · rwa [← List.mem_singleton.mp hmem] at hc
  · intro h
    exact ⟨'|', h, by decide⟩

theorem mem_renderOthers {others : List (List Char)} :
    '|' ∈ renderOthers others ↔ ∃ o ∈ others, '|' ∈ o := by
  simp only [renderOthers, List.mem_flatMap, List.mem_cons, mem_escapeAll]
  constructor
  · rintro ⟨o, ho, h⟩
    exact ⟨o, ho, h.resolve_left (by decide)⟩
  · rintro ⟨o, ho, h⟩
    exact ⟨o, ho, .inr h⟩

theorem skipToChoiceEnd_of_not_mem (h : '|' ∉ s) (r : List Char) :
    skipToChoiceEnd (s ++ '|' :: r) = r := by
  induction s with
  | nil => rfl
  | cons c s ih =>
    rw [List.mem_cons, not_or] at h
    rw [List.cons_append, skipToChoiceEnd, if_neg (fun hc => h.1 hc.symm), ih h.2]

/-- A bar in escaped text ends the choice. -/
theorem skipToChoiceEnd_of_mem (hs : Escaped s) (h : '|' ∈ s) (r : List Char) :
    ∃ w, Escaped w ∧ skipToChoiceEnd (s ++ r) = w ++ r := by
  induction hs with
  | nil => exact absurd h List.not_mem_nil
  | @plain c cs hc hcs ih =>
    rw [List.cons_append, skipToChoiceEnd]
    by_cases hbar : c = '|'
    · rw [if_pos hbar]
      exact ⟨cs, hcs, rfl⟩
    · rw [if_neg hbar]
      exact ih ((List.mem_cons.mp h).resolve_left fun heq => hbar heq.symm)
  | @escaped c cs hcs ih =>
    rw [List.cons_append, List.cons_append, skipToChoiceEnd, if_neg (by decide), skipToChoiceEnd]
    by_cases hbar : c = '|'
    · rw [if_pos hbar]
      exact ⟨cs, hcs, rfl⟩
    · rw [if_neg hbar]
      refine ih ?_
      rcases List.mem_cons.mp h with h | h
      · cases h
      · exact (List.mem_cons.mp h).resolve_left fun heq => hbar heq.symm

/-! ## Elements of the body -/

section
variable (tables : CharTables) (depth : Nat) (out : List Char) (tabs : List (Nat × Nat))

theorem run_char (hc : isSyntax c = false) (r : List Char) :
    run tables depth ⟨c :: r, out, tabs⟩ = run tables depth ⟨r, out ++ [c], tabs⟩ := by
  simp only [isSyntax, Bool.or_eq_false_iff, beq_eq_false_iff_ne] at hc
  rw [run_element tables depth rfl (fun h => hc.1.2 h.1), element, if_neg hc.2, if_neg hc.1.1]
  rfl

theorem run_backslash (e : Char) (r : List Char) : run tables depth ⟨'\\' :: e :: r, out, tabs⟩ =
    run tables depth ⟨r, out ++ (if isSyntax e then [e] else ['\\', e]), tabs⟩ := by
  rw [run_element tables depth rfl (fun h => absurd h.1 (by decide)), element, if_pos rfl]
  show run tables depth (parseEscape ⟨e :: r, out, tabs⟩) = _
  simp only [parseEscape, isSyntax, Bool.or_eq_true, beq_iff_eq, or_assoc]
  split <;> rfl

theorem run_escape (c : Char) (r : List Char) :
    run tables depth ⟨escape isSyntax c ++ r, out, tabs⟩ = run tables depth ⟨r, out ++ [c], tabs⟩ := by
  rw [escape]
  by_cases hc : isSyntax c = true
  · rw [if_pos hc]
    show run tables depth ⟨'\\' :: c :: r, out, tabs⟩ = _
    rw [run_backslash, if_pos hc]
  · rw [if_neg hc]
    exact run_char tables depth out tabs (Bool.eq_false_iff.mpr hc) r

theorem run_escaped {w : List Char} (hw : Escaped w) (r : List Char) :
    ∃ w', run tables depth ⟨w ++ r, out, tabs⟩ = run tables depth ⟨r, out ++ w', tabs⟩ := by
  induction hw generalizing out with
  | nil => exact ⟨[], by rw [List.append_nil]; rfl⟩
  | @plain c cs hc _ ih =>
    obtain ⟨w', hw'⟩ := ih (out ++ [c])
    exact ⟨[c] ++ w', by rw [List.cons_append, run_char tables depth out tabs hc, hw',
      List.append_assoc]⟩
  | @escaped c cs _ ih =>
    obtain ⟨w', hw'⟩ := ih (out ++ (if isSyntax c then [c] else ['\\', c]))
    exact ⟨(if isSyntax c then [c] else ['\\', c]) ++ w', by
      rw [List.cons_append, List.cons_append, run_backslash, hw', List.append_assoc]⟩

theorem run_dollar (r : List Char) : run tables depth ⟨'$' :: r, out, tabs⟩ =
    run tables (if (openDollar tables ⟨r, out, tabs⟩).1 then depth + 1 else depth)
      (openDollar tables ⟨r, out, tabs⟩).2 := by
  have helement (p : Parser) : element tables '$' p = openDollar tables p := rfl
  rw [run_element tables depth rfl (fun h => absurd h.1 (by decide)), helement]

theorem run_brace (r : List Char) : run tables depth ⟨'$' :: '{' :: r, out, tabs⟩ =
    run tables (if (openBraced ⟨r, out, tabs⟩).1 then depth + 1 else depth)
      (openBraced ⟨r, out, tabs⟩).2 := by
  have hopen : openDollar tables ⟨'{' :: r, out, tabs⟩ = openBraced ⟨r, out, tabs⟩ := rfl
  rw [run_dollar, hopen]

/-- A plain tabstop is noted where it stands. -/
theorem run_tabstop (hn : n < u32Max) (hr : Breaks Char.isDigit r) :
    run tables depth ⟨'$' :: (Nat.toDigits 10 n ++ r), out, tabs⟩ =
      run tables depth ⟨r, out, tabs ++ [(n, byteLen out)]⟩ := by
  have hread := readNumber_toDigits hn hr
  have hopen : openDollar tables ⟨Nat.toDigits 10 n ++ r, out, tabs⟩ =
      (false, ⟨r, out, tabs ++ [(n, byteLen out)]⟩) := by
    cases hd : Nat.toDigits 10 n with
    | nil => exact absurd hd Nat.toDigits_ne_nil
    | cons c cs =>
      have hc : c.isDigit = true := isDigit_toDigits n c (by rw [hd]; exact List.mem_cons_self)
      have hbrace : c ≠ '{' := by
        rintro rfl
        cases hc
      rw [hd, List.cons_append] at hread
      rw [List.cons_append]
      unfold openDollar
      dsimp only
      rw [if_neg hbrace, if_pos hc, hread]
      rfl
  rw [run_dollar, hopen]
  rfl

theorem run_braced_tabstop (hn : n < u32Max) (r : List Char) :
    run tables depth ⟨'$' :: '{' :: (Nat.toDigits 10 n ++ '}' :: r), out, tabs⟩ =
      run tables depth ⟨r, out, tabs ++ [(n, byteLen out)]⟩ := by
  have hopen : openBraced ⟨Nat.toDigits 10 n ++ '}' :: r, out, tabs⟩ =
      (false, ⟨r, out, tabs ++ [(n, byteLen out)]⟩) := by
    unfold openBraced
    rw [readNumber_toDigits hn (r := '}' :: r) (fun c hc => by cases hc; rfl)]
    dsimp only
    rw [if_pos (Nat.ne_of_lt hn)]
    rfl
  rw [run_brace, hopen]
  rfl

theorem run_placeholder (hn : n < u32Max) (r : List Char) :
    run tables depth ⟨'$' :: '{' :: (Nat.toDigits 10 n ++ ':' :: r), out, tabs⟩ =
      run tables (depth + 1) ⟨r, out, tabs ++ [(n, byteLen out)]⟩ := by
  have hopen : openBraced ⟨Nat.toDigits 10 n ++ ':' :: r, out, tabs⟩ =
      (true, ⟨r, out, tabs ++ [(n, byteLen out)]⟩) := by
    unfold openBraced
    rw [readNumber_toDigits hn (r := ':' :: r) (fun c hc => by cases hc; rfl)]
    dsimp only
    rw [if_pos (Nat.ne_of_lt hn)]
    rfl
  rw [run_brace, hopen]
  rfl

theorem openBraced_bar {p : Parser} (hread : readNumber p.rest = (n, '|' :: s))
    (hn : n ≠ u32Max) : openBraced p =
      (false, consume '}' (({ p with rest := skipToChoiceEnd (readChoiceFirst s).2 }.tabstop n).push
        (readChoiceFirst s).1)) := by
  unfold openBraced
  rw [hread]
  exact if_pos hn

/-- A choice comes out as its first option, and the machine goes on behind the next bar. -/
theorem run_choice (hn : n < u32Max) (first : List Char) (others : List (List Char))
    (r : List Char) :
    run tables depth ⟨'$' :: '{' :: (Nat.toDigits 10 n ++
        '|' :: (escapeAll isChoiceSyntax first ++ (renderOthers others ++ '|' :: '}' :: r))), out, tabs⟩ =
      run tables depth (consume '}' ⟨skipToChoiceEnd (renderOthers others ++ '|' :: '}' :: r),
        out ++ first, tabs ++ [(n, byteLen out)]⟩) := by
  have hfirst : readChoiceFirst (escapeAll isChoiceSyntax first ++
      (renderOthers others ++ '|' :: '}' :: r)) = (first, renderOthers others ++ '|' :: '}' :: r) := by
    cases others with
    | nil => exact readChoiceFirst_escapeAll first (.inr rfl) ('}' :: r)
    | cons o others =>
      show readChoiceFirst (_ ++ ((',' :: escapeAll isChoiceSyntax o ++ renderOthers others) ++ _)) = _
      rw [List.cons_append, List.cons_append]
      exact readChoiceFirst_escapeAll first (.inl rfl) _
  have hopen : openBraced ⟨Nat.toDigits 10 n ++
        '|' :: (escapeAll isChoiceSyntax first ++ (renderOthers others ++ '|' :: '}' :: r)), out, tabs⟩ =
      (false, consume '}' ⟨skipToChoiceEnd (renderOthers others ++ '|' :: '}' :: r), out ++ first,
        tabs ++ [(n, byteLen out)]⟩) := by
    rw [openBraced_bar (readNumber_toDigits hn (fun c hc => by cases hc; rfl)) (Nat.ne_of_lt hn),
      hfirst]
    rfl
  rw [run_brace, hopen]
  rfl

variable {tables}

theorem ident_of_isName (h : IsName tables name) :
    ∀ c ∈ name, isIdent tables c = true := by
  obtain ⟨c, cs, rfl, hc, hcs⟩ := h
  intro d hd
  rcases List.mem_cons.mp hd with rfl | hd
  · rw [isIdent, Bool.or_eq_true]
    rw [Bool.or_eq_true] at hc
    exact hc.imp (tables.alphanumeric_of_alphabetic d) id
  · exact hcs d hd

theorem not_ident (hc : c.toNat < 0x80) (h : (c.isAlphanum || c == '_') = false) :
    isIdent tables c = false := by
  rw [isIdent, (tables.ascii c hc).2]
  exact h

/-- A name in braces is no number, and ends at the brace or the colon. -/
theorem openBraced_name (h : IsName tables name) (hc : c = '}' ∨ c = ':')
    (r : List Char) : readNumber (name ++ c :: r) = (u32Max, name ++ c :: r) ∧
      ((name ++ c :: r).dropWhile fun d => d != '}' && d != ':') = c :: r := by
  have hident := ident_of_isName h
  constructor
  · obtain ⟨d, ds, rfl, hd, -⟩ := h
    refine readNumber_none ?_
    by_contra hdigit
    rw [Bool.not_eq_false] at hdigit
    obtain ⟨k, hk, rfl⟩ := digit_cases hdigit
    have hlt : (Char.ofNat (48 + k)).toNat < 0x80 := by
      interval_cases k <;> decide
    rw [(tables.ascii _ hlt).1] at hd
    interval_cases k <;> cases hd
  · have hall : ∀ d ∈ name, (d != '}' && d != ':') = true := by
      intro d hd
      have hid := hident d hd
      simp only [Bool.and_eq_true, bne_iff_ne, ne_eq]
      refine ⟨?_, ?_⟩
      · rintro rfl
        rw [not_ident (by decide) (by decide)] at hid
        cases hid
      · rintro rfl
        rw [not_ident (by decide) (by decide)] at hid
        cases hid
    refine (takeWhile_breaks hall ?_).2
    intro d hd
    cases hd
    rcases hc with rfl | rfl <;> rfl

/-- A plain variable is left out. -/
theorem run_var (h : IsName tables name)
    (hr : Breaks (isIdent tables) r) :
    run tables depth ⟨'$' :: (name ++ r), out, tabs⟩ = run tables depth ⟨r, out, tabs⟩ := by
  obtain ⟨-, hdrop⟩ := takeWhile_breaks (ident_of_isName h) hr
  have hopen : openDollar tables ⟨name ++ r, out, tabs⟩ = (false, ⟨r, out, tabs⟩) := by
    obtain ⟨hnumber, -⟩ := openBraced_name h (.inl rfl) r
    obtain ⟨c, cs, rfl, hc, -⟩ := h
    have hbrace : c ≠ '{' := by
      rintro rfl
      rw [(tables.ascii '{' (by decide)).1] at hc
      cases hc
    have hdigit : c.isDigit = false := by
      by_contra hdigit
      rw [Bool.not_eq_false] at hdigit
      rw [List.cons_append, readNumber, List.dropWhile_cons, if_pos hdigit] at hnumber
      have hlen := congrArg (fun x => x.2.length) hnumber
      have hle := (List.dropWhile_sublist (l := cs ++ '}' :: r) Char.isDigit).length_le
      dsimp only at hlen
      rw [List.length_cons] at hlen
      omega
    rw [List.cons_append] at hdrop ⊢
    unfold openDollar
    dsimp only
    rw [if_neg hbrace, if_neg (by rw [hdigit]; exact Bool.false_ne_true), if_pos hc, hdrop]
  rw [run_dollar, hopen]
  rfl

theorem run_braced_var (h : IsName tables name) (r : List Char) :
    run tables depth ⟨'$' :: '{' :: (name ++ '}' :: r), out, tabs⟩ =
      run tables depth ⟨r, out, tabs⟩ := by
  obtain ⟨hnumber, hdrop⟩ := openBraced_name h (.inl rfl) r
  have hopen : openBraced ⟨name ++ '}' :: r, out, tabs⟩ = (false, ⟨r, out, tabs⟩) := by
    unfold openBraced
    rw [hnumber]
    dsimp only
    rw [if_neg (fun hne => hne rfl), hdrop]
    rfl
  rw [run_brace, hopen]
  rfl

theorem run_varDefault (h : IsName tables name) (r : List Char) :
    run tables depth ⟨'$' :: '{' :: (name ++ ':' :: r), out, tabs⟩ =
      run tables (depth + 1) ⟨r, out, tabs⟩ := by
  obtain ⟨hnumber, hdrop⟩ := openBraced_name h (.inr rfl) r
  have hopen : openBraced ⟨name ++ ':' :: r, out, tabs⟩ = (true, ⟨r, out, tabs⟩) := by
    unfold openBraced
    rw [hnumber]
    dsimp only
    rw [if_neg (fun hne => hne rfl), hdrop]
    rfl
  rw [run_brace, hopen]
  rfl

end

/-! ## Trees written out -/

theorem byteLen_append (s t : List Char) : byteLen (s ++ t) = byteLen s + byteLen t := by
  simp [byteLen]

/-- What comes after a tree: nothing, or the brace that closes a default. -/
def Closes (tail : List Char) : Prop := tail = [] ∨ ∃ u, tail = '}' :: u

theorem Closes.breaks {tail : List Char} (h : Closes tail) {p : Char → Bool} (hp : p '}' = false) :
    Breaks p tail := by
  rcases h with rfl | ⟨u, rfl⟩
  · intro c hc
    cases hc
  · intro c hc
    cases hc
    exact hp

section
variable {tables : CharTables} {tail : List Char} (depth : Nat) (out : List Char)
  (tabs : List (Nat × Nat))

theorem run_tree_tabstop {braced : Bool} {rest : Tree}
    (hwf : (Tree.tabstop n braced rest).Wf tables) (htail : Closes tail) :
    run tables depth ⟨(Tree.tabstop n braced rest).render ++ tail, out, tabs⟩ =
      run tables depth ⟨rest.render ++ tail, out, tabs ++ [(n, byteLen out)]⟩ := by
  obtain ⟨hn, hbreaks, -⟩ := hwf
  cases braced with
  | false =>
    show run tables depth ⟨'$' :: (Nat.toDigits 10 n ++ rest.render ++ tail), out, tabs⟩ = _
    rw [List.append_assoc]
    exact run_tabstop tables depth out tabs hn ((hbreaks rfl).append (htail.breaks (by decide)))
  | true =>
    show run tables depth ⟨'$' :: '{' :: (Nat.toDigits 10 n ++ '}' :: rest.render ++ tail), out, tabs⟩ = _
    rw [List.append_assoc]
    exact run_braced_tabstop tables depth out tabs hn (rest.render ++ tail)

theorem run_tree_placeholder {body rest : Tree} (hn : n < u32Max) :
    run tables depth ⟨(Tree.placeholder n body rest).render ++ tail, out, tabs⟩ =
      run tables (depth + 1)
        ⟨body.render ++ '}' :: (rest.render ++ tail), out, tabs ++ [(n, byteLen out)]⟩ := by
  show run tables depth ⟨'$' :: '{' :: (Nat.toDigits 10 n ++
    ':' :: (body.render ++ '}' :: rest.render) ++ tail), out, tabs⟩ = _
  rw [List.append_assoc, List.cons_append, List.append_assoc, List.cons_append]
  exact run_placeholder tables depth out tabs hn _

theorem run_tree_choice {first : List Char} {others : List (List Char)} {rest : Tree}
    (hn : n < u32Max) :
    run tables depth ⟨(Tree.choice n first others rest).render ++ tail, out, tabs⟩ =
      run tables depth (consume '}'
        ⟨skipToChoiceEnd (renderOthers others ++ '|' :: '}' :: (rest.render ++ tail)),
          out ++ first, tabs ++ [(n, byteLen out)]⟩) := by
  show run tables depth ⟨'$' :: '{' :: (Nat.toDigits 10 n ++ '|' :: (escapeAll isChoiceSyntax first ++
    (renderOthers others ++ '|' :: '}' :: rest.render)) ++ tail), out, tabs⟩ = _
  rw [List.append_assoc, List.cons_append, List.append_assoc, List.append_assoc, List.cons_append,
    List.cons_append]
  exact run_choice tables depth out tabs hn first others _

theorem run_tree_var {braced : Bool} {rest : Tree}
    (hwf : (Tree.var name braced rest).Wf tables) (htail : Closes tail) :
    run tables depth ⟨(Tree.var name braced rest).render ++ tail, out, tabs⟩ =
      run tables depth ⟨rest.render ++ tail, out, tabs⟩ := by
  obtain ⟨hname, hbreaks, -⟩ := hwf
  cases braced with
  | false =>
    show run tables depth ⟨'$' :: (name ++ rest.render ++ tail), out, tabs⟩ = _
    rw [List.append_assoc]
    exact run_var depth out tabs hname
      ((hbreaks rfl).append (htail.breaks (not_ident (by decide) (by decide))))
  | true =>
    show run tables depth ⟨'$' :: '{' :: (name ++ '}' :: rest.render ++ tail), out, tabs⟩ = _
    rw [List.append_assoc]
    exact run_braced_var depth out tabs hname (rest.render ++ tail)

theorem run_tree_varDefault {body rest : Tree} (hname : IsName tables name) :
    run tables depth ⟨(Tree.varDefault name body rest).render ++ tail, out, tabs⟩ =
      run tables (depth + 1) ⟨body.render ++ '}' :: (rest.render ++ tail), out, tabs⟩ := by
  show run tables depth ⟨'$' :: '{' :: (name ++ ':' :: (body.render ++ '}' :: rest.render) ++ tail), out,
    tabs⟩ = _
  rw [List.append_assoc, List.cons_append, List.append_assoc, List.cons_append]
  exact run_varDefault depth out tabs hname _

end

section
variable {tables : CharTables} {t : Tree} {tail : List Char}

/-- The machine reads a tree without bars in later options as what it stands for. -/
theorem run_plain (hwf : t.Wf tables) (hbars : t.PlainBars) (htail : Closes tail) (depth : Nat)
    (out : List Char) (tabs : List (Nat × Nat)) :
    run tables depth ⟨t.render ++ tail, out, tabs⟩ =
      run tables depth ⟨tail, out ++ t.plain, tabs ++ t.stops (byteLen out)⟩ := by
  induction t generalizing tail depth out tabs with
  | nil => simp only [Tree.render, Tree.plain, Tree.stops, List.nil_append, List.append_nil]
  | text c rest ih =>
    show run tables depth ⟨escape isSyntax c ++ rest.render ++ tail, out, tabs⟩ = _
    have hlen : byteLen (out ++ [c]) = byteLen out + c.utf8Size := by
      rw [byteLen_append]
      rfl
    rw [List.append_assoc, run_escape, ih hwf hbars htail, hlen, List.append_assoc]
    rfl
  | tabstop n braced rest ih =>
    rw [run_tree_tabstop depth out tabs hwf htail, ih hwf.2.2 hbars htail, List.append_assoc]
    rfl
  | placeholder n body rest ihbody ihrest =>
    obtain ⟨hn, hbody, hrest⟩ := hwf
    rw [run_tree_placeholder depth out tabs hn, ihbody hbody hbars.1 (.inr ⟨_, rfl⟩), run_close _ _ rfl,
      ihrest hrest hbars.2 htail, byteLen_append, List.append_assoc, List.append_assoc,
      List.append_assoc]
    rfl
  | choice n first others rest ih =>
    have hnone : '|' ∉ renderOthers others := by
      rw [mem_renderOthers]
      rintro ⟨o, ho, hbar⟩
      exact hbars.1 o ho hbar
    rw [run_tree_choice depth out tabs hwf.1, skipToChoiceEnd_of_not_mem hnone]
    show run tables depth ⟨rest.render ++ tail, out ++ first, tabs ++ [(n, byteLen out)]⟩ = _
    rw [ih hwf.2 hbars.2 htail, byteLen_append, List.append_assoc, List.append_assoc]
    rfl
  | var name braced rest ih =>
    rw [run_tree_var depth out tabs hwf htail, ih hwf.2.2 hbars htail]
    rfl
  | varDefault name body rest ihbody ihrest =>
    obtain ⟨hname, hbody, hrest⟩ := hwf
    rw [run_tree_varDefault depth out tabs hname, ihbody hbody hbars.1 (.inr ⟨_, rfl⟩),
      run_close _ _ rfl, ihrest hrest hbars.2 htail, byteLen_append, List.append_assoc,
      List.append_assoc]
    rfl

theorem run_brace_or_text (depth : Nat) (r out : List Char) (tabs : List (Nat × Nat)) :
    ∃ depth' out', run tables depth ⟨'}' :: r, out, tabs⟩ = run tables depth' ⟨r, out', tabs⟩ ∧
      out.length ≤ out'.length := by
  cases depth with
  | succ depth => exact ⟨depth, out, run_close tables depth rfl, Nat.le_refl _⟩
  | zero =>
    refine ⟨0, out ++ ['}'], ?_, by simp⟩
    rw [run_element tables 0 rfl (fun h => Nat.lt_irrefl 0 h.2)]
    rfl

/-- Past a bar in a later option, what is left of the choice comes out as text, its last bar too. -/
theorem run_leak {w : List Char} (hw : Escaped w) (depth : Nat) (r out : List Char)
    (tabs : List (Nat × Nat)) : ∃ depth' out',
      run tables depth (consume '}' ⟨w ++ '|' :: '}' :: r, out, tabs⟩) =
        run tables depth' ⟨r, out', tabs⟩ ∧ out.length < out'.length := by
  have hconsume : consume '}' ⟨w ++ '|' :: '}' :: r, out, tabs⟩ = ⟨w ++ '|' :: '}' :: r, out, tabs⟩ := by
    cases hw with
    | nil => rfl
    | @plain c cs hc _ =>
      refine if_neg ?_
      rintro rfl
      cases hc
    | escaped => rfl
  obtain ⟨w', hw'⟩ := run_escaped tables depth out tabs hw ('|' :: '}' :: r)
  obtain ⟨depth', out', hclose, hlen⟩ := run_brace_or_text depth r
    (out ++ w' ++ ['|']) tabs
  refine ⟨depth', out', ?_, ?_⟩
  · rw [hconsume, hw', run_char tables depth _ _ (by decide), hclose]
  · simp only [List.length_append, List.length_singleton] at hlen
    omega

/-- From the tree's text at least `plain` comes out before `tail` is reached, and more unless
`bars`. -/
def Grows (tables : CharTables) (render tail plain : List Char) (bars : Prop) : Prop :=
  ∀ (depth : Nat) (out : List Char) (tabs : List (Nat × Nat)), ∃ depth' out' tabs',
    run tables depth ⟨render ++ tail, out, tabs⟩ = run tables depth' ⟨tail, out', tabs'⟩ ∧
      out.length + plain.length ≤ out'.length ∧
      (¬ bars → out.length + plain.length < out'.length)

/-- A body in braces and what follows it grow one after the other. -/
theorem Grows.nested {body rest : Tree}
    (hbody : Grows tables body.render ('}' :: (rest.render ++ tail)) body.plain body.PlainBars)
    (hrest : Grows tables rest.render tail rest.plain rest.PlainBars) :
    Grows tables (body.render ++ '}' :: rest.render) tail (body.plain ++ rest.plain)
      (body.PlainBars ∧ rest.PlainBars) := by
  intro depth out tabs
  obtain ⟨depth₁, out₁, tabs₁, hrun₁, hle₁, hlt₁⟩ := hbody depth out tabs
  obtain ⟨depth₂, out₂, hrun₂, hle₂⟩ := run_brace_or_text depth₁
    (rest.render ++ tail) out₁ tabs₁
  obtain ⟨depth₃, out₃, tabs₃, hrun₃, hle₃, hlt₃⟩ := hrest depth₂ out₂ tabs₁
  refine ⟨depth₃, out₃, tabs₃, ?_, ?_, fun hbars => ?_⟩
  · rw [List.append_assoc, List.cons_append, hrun₁, hrun₂, hrun₃]
  · rw [List.length_append]
    omega
  · rw [List.length_append]
    by_cases hb : body.PlainBars
    · have := hlt₃ fun hr => hbars ⟨hb, hr⟩
      omega
    · have := hlt₁ hb
      omega

/-- Of every tree at least the text it stands for comes out, and more where a later option of a
choice has a bar. -/
theorem run_grows (hwf : t.Wf tables) (htail : Closes tail) :
    Grows tables t.render tail t.plain t.PlainBars := by
  induction t generalizing tail with
  | nil => exact fun depth out tabs => ⟨depth, out, tabs, rfl, Nat.le_refl _, fun h => absurd trivial h⟩
  | text c rest ih =>
    intro depth out tabs
    obtain ⟨depth', out', tabs', hrun, hle, hlt⟩ := ih hwf htail depth (out ++ [c]) tabs
    rw [List.length_append, List.length_singleton] at hle hlt
    refine ⟨depth', out', tabs', ?_, ?_, fun hbars => ?_⟩
    · show run tables depth ⟨escape isSyntax c ++ rest.render ++ tail, out, tabs⟩ = _
      rw [List.append_assoc, run_escape, hrun]
    · show out.length + (rest.plain.length + 1) ≤ _
      omega
    · have := hlt hbars
      show out.length + (rest.plain.length + 1) < _
      omega
  | tabstop n braced rest ih =>
    intro depth out tabs
    rw [run_tree_tabstop depth out tabs hwf htail]
    exact ih hwf.2.2 htail depth out _
  | placeholder n body rest ihbody ihrest =>
    intro depth out tabs
    rw [run_tree_placeholder depth out tabs hwf.1, ← List.cons_append, ← List.append_assoc]
    exact (ihbody hwf.2.1 (.inr ⟨_, rfl⟩)).nested (ihrest hwf.2.2 htail) (depth + 1) out _
  | choice n first others rest ih =>
    intro depth out tabs
    rw [run_tree_choice depth out tabs hwf.1]
    by_cases hbar : '|' ∈ renderOthers others
    · obtain ⟨w, hw, hskip⟩ := skipToChoiceEnd_of_mem (escaped_renderOthers others) hbar
        ('|' :: '}' :: (rest.render ++ tail))
      obtain ⟨depth₁, out₁, hleak, hmore⟩ := run_leak hw depth
        (rest.render ++ tail) (out ++ first) (tabs ++ [(n, byteLen out)])
      obtain ⟨depth', out', tabs', hrun, hle, -⟩ := ih hwf.2 htail depth₁ out₁
        (tabs ++ [(n, byteLen out)])
      rw [hskip, hleak]
      rw [List.length_append] at hmore
      have hlt : out.length + (first ++ rest.plain).length < out'.length := by
        rw [List.length_append]
        omega
      exact ⟨depth', out', tabs', hrun, Nat.le_of_lt hlt, fun _ => hlt⟩
    · rw [skipToChoiceEnd_of_not_mem hbar]
      obtain ⟨depth', out', tabs', hrun, hle, hlt⟩ := ih hwf.2 htail depth (out ++ first)
        (tabs ++ [(n, byteLen out)])
      rw [List.length_append] at hle hlt
      have hplain : ∀ o ∈ others, '|' ∉ o := by
        intro o ho hmem
        exact hbar (mem_renderOthers.mpr ⟨o, ho, hmem⟩)
      refine ⟨depth', out', tabs', hrun, ?_, fun hbars => ?_⟩
      · show out.length + (first ++ rest.plain).length ≤ _
        rw [List.length_append]
        omega
      · have := hlt fun hr => hbars ⟨hplain, hr⟩
        show out.length + (first ++ rest.plain).length < _
        rw [List.length_append]
        omega
  | var name braced rest ih =>
    intro depth out tabs
    rw [run_tree_var depth out tabs hwf htail]
    exact ih hwf.2.2 htail depth out tabs
  | varDefault name body rest ihbody ihrest =>
    intro depth out tabs
    rw [run_tree_varDefault depth out tabs hwf.1, ← List.cons_append, ← List.append_assoc]
    exact (ihbody hwf.2.1 (.inr ⟨_, rfl⟩)).nested (ihrest hwf.2.2 htail) (depth + 1) out tabs

theorem Tree.stops_lt (hwf : t.Wf tables) (off : Nat) : ∀ s ∈ t.stops off, s.1 < u32Max := by
  induction t generalizing off with
  | nil => exact fun s hs => absurd hs List.not_mem_nil
  | text c rest ih => exact ih hwf _
  | tabstop n braced rest ih => exact List.forall_mem_cons.mpr ⟨hwf.1, ih hwf.2.2 off⟩
  | placeholder n body rest ihbody ihrest =>
    exact List.forall_mem_cons.mpr ⟨hwf.1,
      List.forall_mem_append.mpr ⟨ihbody hwf.2.1 _, ihrest hwf.2.2 _⟩⟩
  | choice n first others rest ih => exact List.forall_mem_cons.mpr ⟨hwf.1, ih hwf.2 _⟩
  | var name braced rest ih => exact ih hwf.2.2 off
  | varDefault name body rest ihbody ihrest =>
    exact List.forall_mem_append.mpr ⟨ihbody hwf.2.1 _, ihrest hwf.2.2 _⟩

end

/-- The expansion of a snippet is what it stands for exactly if no option of a choice after its
first has a bar; of every body at all the cursor is between two characters of the text. -/
theorem expand_denotes (tables : CharTables) (t : Tree) (hwf : t.Wf tables) :
    (Denotes t (expand tables t.render) ↔ t.PlainBars) ∧
      ∀ body, OnChar (expand tables body).text (expand tables body).cursor := by
  refine ⟨⟨fun hdenotes => ?_, fun hbars => ?_⟩, expand_onChar tables⟩
  · by_contra hbars
    obtain ⟨depth, out, tabs, hrun, -, hlt⟩ := run_grows hwf (.inl rfl) 0 [] []
    rw [List.append_nil, run_nil tables depth rfl] at hrun
    have htext := hdenotes.1
    rw [expand_eq_run, hrun] at htext
    have := hlt hbars
    rw [show out = t.plain from htext, List.length_nil] at this
    omega
  · have hrun := run_plain hwf hbars (.inl rfl) 0 [] []
    rw [List.append_nil, run_nil tables 0 (p := ⟨[], _, _⟩) rfl] at hrun
    rw [expand_eq_run, hrun]
    exact ⟨rfl, pickCursor_chosen (t.stops_lt hwf 0) _⟩

/-- `${1|a,b\,|}` expands to its first choice. -/
theorem expand_denotes_choice :
    (Denotes (.choice 1 ['a'] [['b', ',']] .nil)
        (expand .asciiOnly (Tree.choice 1 ['a'] [['b', ',']] .nil).render) ↔
      (Tree.choice 1 ['a'] [['b', ',']] .nil).PlainBars) ∧
      ∀ body, OnChar (expand .asciiOnly body).text (expand .asciiOnly body).cursor :=
  expand_denotes .asciiOnly (.choice 1 ['a'] [['b', ',']] .nil) ⟨by decide, trivial⟩

/-- `${1|a,b\|c|}` is the choice of `a` and `b|c`, and expands to more than `a`. -/
theorem expand_choice_bar :
    (Tree.choice 1 ['a'] [['b', '|', 'c']] .nil).Wf .asciiOnly ∧
      (Tree.choice 1 ['a'] [['b', '|', 'c']] .nil).render =
        ['$', '{', '1', '|', 'a', ',', 'b', '\\', '|', 'c', '|', '}'] ∧
      expand .asciiOnly (Tree.choice 1 ['a'] [['b', '|', 'c']] .nil).render =
        ⟨['a', 'c', '|', '}'], 0⟩ ∧
      ¬ Denotes (.choice 1 ['a'] [['b', '|', 'c']] .nil)
        (expand .asciiOnly (Tree.choice 1 ['a'] [['b', '|', 'c']] .nil).render) := by
  have hexpand : expand .asciiOnly (Tree.choice 1 ['a'] [['b', '|', 'c']] .nil).render =
      ⟨['a', 'c', '|', '}'], 0⟩ := by decide +kernel
  refine ⟨⟨by decide, trivial⟩, by decide +kernel, hexpand, fun h => ?_⟩
  have htext := h.1
  rw [hexpand] at htext
  cases htext

end Ruse.Tui.Snippet
