import Mathlib.Computability.DFA
import Mathlib.Data.Fintype.Prod
import Mathlib.Data.Fintype.Option

/-!
# Extended grapheme clusters

The boundary rules GB1 to GB999 of UAX #29 over characters of any kind, given the classes
the rules read (`CharClass`). What a rule looks back at is a state of a finite machine
(`Context`), so whether there is a boundary before a character is decided by the state
and the character (`Context.joins`, `isBreak`).

* `Context.fresh` — no rule looks back past a boundary: a text goes on from a boundary as
  from its start;
* `exists_short` — a long text before a place decides there what some short text does.
-/

namespace Ruse.Lib

/-- `Grapheme_Cluster_Break`. -/
inductive ClusterClass where
  | cr | lf | control | extend | zwj | regional | prepend | spacing | l | v | t | lv | lvt | other
deriving DecidableEq, Repr

/-- `Indic_Conjunct_Break`. -/
inductive ConjunctClass where
  | none | consonant | extend | linker
deriving DecidableEq, Repr

/-- What the rules read of a character; `pict` is `Extended_Pictographic`. -/
structure CharClass where
  cluster : ClusterClass
  conjunct : ConjunctClass := .none
  pict : Bool := false
deriving DecidableEq, Repr

instance : Fintype ClusterClass where
  elems := {.cr, .lf, .control, .extend, .zwj, .regional, .prepend, .spacing, .l, .v, .t, .lv,
    .lvt, .other}
  complete c := by cases c <;> simp

namespace ClusterClass

/-- GB4 and GB5: a boundary on both sides. -/
def isControl : ClusterClass → Bool
  | cr | lf | control => true
  | _ => false

/-- GB9 and GB9a: no boundary before. -/
def extends' : ClusterClass → Bool
  | extend | zwj | spacing => true
  | _ => false

/-- GB6, GB7 and GB8: a Hangul syllable goes on. -/
def syllable : ClusterClass → ClusterClass → Bool
  | l, l | l, v | l, lv | l, lvt => true
  | lv, v | lv, t | v, v | v, t => true
  | lvt, t | t, t => true
  | _, _ => false

theorem joins_nothing (a : ClusterClass) {c : ClusterClass} (h : c = other ∨ c.isControl = true) :
    a.syllable c = false ∧ c.extends' = false := by
  rcases h with rfl | h
  · cases a <;> exact ⟨rfl, rfl⟩
  · cases c <;> first | exact absurd h Bool.false_ne_true | exact ⟨by cases a <;> rfl, rfl⟩

end ClusterClass

/-- The classes go together as the Unicode data has them: what extends a conjunct extends
a cluster, and a consonant or a pictograph is in no class of its own. -/
structure CharClass.Coherent (c : CharClass) : Prop where
  conjunct : c.conjunct = .extend ∨ c.conjunct = .linker → c.cluster = .extend ∨ c.cluster = .zwj
  consonant : c.conjunct = .consonant → c.cluster = .other
  pict : c.pict = true → c.cluster = .other

/-- A character no rule looks back at but for GB3 to GB5 and GB9b. -/
structure CharClass.Plain (c : CharClass) : Prop where
  cluster : c.cluster = .other ∨ c.cluster.isControl = true
  conjunct : c.conjunct = .none
  pict : c.pict = false

/-- How far a conjunct of GB9c has got: a consonant, and a linker after it. -/
inductive ConjunctState where
  | none | consonant | linked
deriving DecidableEq, Repr

instance : Fintype ConjunctState where
  elems := {.none, .consonant, .linked}
  complete c := by cases c <;> simp

/-- How far an emoji sequence of GB11 has got: a pictograph, and a joiner after it. -/
inductive EmojiState where
  | none | pict | joined
deriving DecidableEq, Repr

instance : Fintype EmojiState where
  elems := {.none, .pict, .joined}
  complete c := by cases c <;> simp

/-- What the rules remember of the text before a place. -/
structure Context where
  prev : Option ClusterClass
  conjunct : ConjunctState
  emoji : EmojiState
  oddRegional : Bool
deriving DecidableEq, Repr

namespace Context

def parts : Option ClusterClass × ConjunctState × EmojiState × Bool ≃ Context where
  toFun p := ⟨p.1, p.2.1, p.2.2.1, p.2.2.2⟩
  invFun s := (s.prev, s.conjunct, s.emoji, s.oddRegional)
  left_inv _ := rfl
  right_inv _ := rfl

instance : Fintype Context := .ofEquiv _ parts

theorem card : Fintype.card Context = 270 := by
  have hcluster : Fintype.card ClusterClass = 14 := rfl
  have hconjunct : Fintype.card ConjunctState = 3 := rfl
  have hemoji : Fintype.card EmojiState = 3 := rfl
  rw [Fintype.ofEquiv_card parts, Fintype.card_prod, Fintype.card_prod, Fintype.card_prod,
    Fintype.card_option, Fintype.card_bool, hcluster, hconjunct, hemoji]

def start : Context := ⟨none, .none, .none, false⟩

/-- The text goes on with a character. -/
def step (s : Context) (c : CharClass) : Context where
  prev := some c.cluster
  conjunct := match c.conjunct, s.conjunct with
    | .consonant, _ => .consonant
    | .linker, .consonant | .linker, .linked => .linked
    | .extend, st => st
    | _, _ => .none
  emoji := match c.pict, c.cluster, s.emoji with
    | true, _, _ => .pict
    | false, .extend, .pict => .pict
    | false, .zwj, .pict => .joined
    | _, _, _ => .none
  oddRegional := c.cluster = .regional && !s.oddRegional

/-- Whether there is no boundary before `c`. -/
def joins (s : Context) (c : CharClass) : Bool :=
  match s.prev with
  | none => false
  | some a =>
    if a = .cr ∧ c.cluster = .lf then true
    else if a.isControl || c.cluster.isControl then false
    else a.syllable c.cluster || c.cluster.extends' || a = .prepend ||
      (s.conjunct = .linked && c.conjunct = .consonant) || (s.emoji = .joined && c.pict) ||
      (s.oddRegional && c.cluster = .regional)

theorem step_plain {c : CharClass} (h : c.Plain) (s : Context) : s.step c = start.step c := by
  obtain ⟨hcluster, hconjunct, hpict⟩ := h
  obtain ⟨cluster, conjunct, pict⟩ := c
  cases hconjunct
  cases hpict
  rcases hcluster with hother | hcontrol
  · cases hother
    rfl
  · cases cluster <;> first | rfl | cases hcontrol

theorem joins_plain {a c : CharClass} (h : c.Plain) (s : Context) :
    (s.step a).joins c = (start.step a).joins c := by
  obtain ⟨hcluster, hconjunct, hpict⟩ := h
  have hregional : c.cluster ≠ .regional := by
    rintro hreg
    rw [hreg] at hcluster
    rcases hcluster with h | h <;> cases h
  simp [joins, step, hconjunct, hpict, hregional]

theorem joins_plain_plain {a c : CharClass} (ha : a.Plain) (hc : c.Plain)
    (hpair : ¬ (a.cluster = .cr ∧ c.cluster = .lf)) : (start.step a).joins c = false := by
  have hacls : a.cluster ≠ .regional ∧ a.cluster ≠ .prepend := by
    constructor <;> (intro heq; rcases ha.cluster with h | h <;> rw [heq] at h <;> cases h)
  have hends := a.cluster.joins_nothing hc.cluster
  simp [joins, step, start, hpair, hends, hacls, ha.conjunct, hc.conjunct, hc.pict]

/-- No rule looks back past a boundary. -/
theorem fresh {a c : CharClass} (ha : a.Coherent) (hc : c.Coherent) (s : Context)
    (h : (s.step a).joins c = false) : (s.step a).step c = start.step c := by
  -- an extending character at a boundary comes after a control, which leaves nothing behind
  have hcontrol : c.cluster.extends' = true → a.cluster.isControl = true := by
    intro hext
    by_contra hnot
    have hself : c.cluster.isControl = false := by
      cases hcl : c.cluster <;> simp_all [ClusterClass.extends', ClusterClass.isControl]
    have hcr : ¬ (a.cluster = .cr ∧ c.cluster = .lf) := by
      rintro ⟨-, hlf⟩
      simp [hlf, ClusterClass.extends'] at hext
    simp [joins, step, hcr, hnot, hself, hext] at h
  have hplain : a.cluster.isControl = true → a.Plain := by
    intro hctl
    refine ⟨.inr hctl, ?_, ?_⟩
    · cases hconj : a.conjunct with
      | none => rfl
      | consonant =>
        have := ha.consonant hconj
        simp [this, ClusterClass.isControl] at hctl
      | extend =>
        rcases ha.conjunct (.inl hconj) with h | h <;> simp [h, ClusterClass.isControl] at hctl
      | linker =>
        rcases ha.conjunct (.inr hconj) with h | h <;> simp [h, ClusterClass.isControl] at hctl
    · by_contra hp
      have := ha.pict (by simpa using hp)
      simp [this, ClusterClass.isControl] at hctl
  by_cases hext : c.cluster.extends' = true
  · -- after a plain control the state has no memory
    have hctl := hcontrol hext
    have hpl := hplain hctl
    have hstart : start.step a = { start with prev := some a.cluster } := by
      have hregional : a.cluster ≠ .regional := by
        intro hreg
        simp [hreg, ClusterClass.isControl] at hctl
      simp [step, start, hpl.conjunct, hpl.pict, hregional]
    rw [step_plain hpl, hstart]
    rfl
  · have hnext : c.cluster ≠ .extend ∧ c.cluster ≠ .zwj := by
      constructor <;> (intro heq; simp [heq, ClusterClass.extends'] at hext)
    have hconj : c.conjunct ≠ .extend ∧ c.conjunct ≠ .linker := by
      constructor
      · intro heq
        rcases hc.conjunct (.inl heq) with h' | h'
        · exact hnext.1 h'
        · exact hnext.2 h'
      · intro heq
        rcases hc.conjunct (.inr heq) with h' | h'
        · exact hnext.1 h'
        · exact hnext.2 h'
    have hodd : c.cluster = .regional → (s.step a).oddRegional = false := by
      intro hreg
      by_contra hodd
      rw [Bool.not_eq_false] at hodd
      have hprev : a.cluster = .regional := by
        simp only [step, Bool.and_eq_true, decide_eq_true_eq] at hodd
        exact hodd.1
      have hjoin : (s.step a).joins c = true := by
        simp only [joins, hodd, hreg]
        simp [step, hprev, ClusterClass.isControl]
      rw [hjoin] at h
      cases h
    generalize s.step a = u at hodd
    obtain ⟨cluster, conjunct, pict⟩ := c
    obtain ⟨prev, conj, emoji, odd⟩ := u
    simp only [step, start, Context.mk.injEq, true_and]
    refine ⟨?_, ?_, ?_⟩
    · cases conjunct <;> simp_all
    · cases pict <;> cases cluster <;> simp_all
    · cases odd with
      | false => rfl
      | true =>
        have : cluster ≠ .regional := fun hreg => by cases hodd hreg
        simp [this]

end Context

/-! ## Texts -/

section
variable {α : Type*} (cls : α → CharClass)

/-- What the rules remember of a text. -/
def context (text : List α) : Context := text.foldl (fun s a => s.step (cls a)) .start

/-- Whether there is a boundary between two parts of a text. -/
def isBreak (before after : List α) : Bool :=
  match before, after with
  | [], _ => true
  | _, [] => true
  | _, a :: _ => !(context cls before).joins (cls a)

variable {cls}

theorem context_append (text text' : List α) :
    context cls (text ++ text') = text'.foldl (fun s a => s.step (cls a)) (context cls text) := by
  rw [context, List.foldl_append]
  rfl

theorem context_concat (text : List α) (a : α) :
    context cls (text ++ [a]) = (context cls text).step (cls a) := by
  rw [context_append]
  rfl

theorem isBreak_concat (front : List α) (a c : α) (rest : List α) :
    isBreak cls (front ++ [a]) (c :: rest) = !((context cls front).step (cls a)).joins (cls c) := by
  rw [← context_concat]
  cases front <;> rfl

/-- The parts decide alike when the rules remember the same and the same comes next. -/
theorem isBreak_congr {before before' after after' : List α} (hb : before = [] ↔ before' = [])
    (hctx : context cls before = context cls before') (ha : after.head? = after'.head?) :
    isBreak cls before after = isBreak cls before' after' := by
  cases before with
  | nil =>
    rw [hb.mp rfl]
    rfl
  | cons x xs =>
    cases before' with
    | nil => exact absurd (hb.mpr rfl) (List.cons_ne_nil _ _)
    | cons y ys =>
      cases after with
      | nil =>
        cases after' with
        | nil => rfl
        | cons b bs => cases ha
      | cons a as =>
        cases after' with
        | nil => cases ha
        | cons b bs =>
          cases ha
          simp only [isBreak, hctx]

theorem context_of_isBreak (hcls : ∀ a, (cls a).Coherent) {before after : List α}
    (h : isBreak cls before after = true) {rest : List α} (hrest : rest ≠ []) (hpre : rest <+: after) :
    context cls (before ++ rest) = context cls rest := by
  obtain ⟨more, rfl⟩ := hpre
  cases rest with
  | nil => exact absurd rfl hrest
  | cons c rest =>
    rcases List.eq_nil_or_concat before with rfl | ⟨front, a, rfl⟩
    · rfl
    · rw [List.concat_eq_append, List.cons_append, isBreak_concat, Bool.not_eq_true'] at h
      have hfresh := Context.fresh (hcls a) (hcls c) _ h
      rw [List.concat_eq_append, context_append, context_concat, List.foldl_cons, hfresh]
      rfl

/-- Some short text is remembered as a long one is. -/
theorem exists_short (text : List α) : ∃ short : List α,
    short.length ≤ Fintype.card Context ∧ context cls short = context cls text := by
  let M : DFA α Context := ⟨fun s a => s.step (cls a), .start, ∅⟩
  induction hlen : text.length using Nat.strong_induction_on generalizing text with
  | _ n ih =>
    rcases Nat.le_total text.length (Fintype.card Context) with hshort | hlong
    · exact ⟨text, hshort, rfl⟩
    · -- the machine goes round a loop, which can be left out
      obtain ⟨q, a, b, c, rfl, -, hb, ha, -, hc⟩ := M.evalFrom_split (s := M.start) hlong rfl
      have hpos := List.length_pos_iff.mpr hb
      simp only [List.length_append] at hlen
      obtain ⟨short, hle, heq⟩ := ih (a ++ c).length (by rw [List.length_append]; omega) (a ++ c) rfl
      refine ⟨short, hle, heq.trans ?_⟩
      change M.evalFrom M.start (a ++ c) = M.evalFrom M.start (a ++ b ++ c)
      rw [DFA.evalFrom_of_append, ha, hc]

end

end Ruse.Lib
