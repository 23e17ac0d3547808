import Mathlib.Data.List.Basic
import Mathlib.Data.List.Count

/-!
# Edit scripts

A script says of each element of two lists whether it is kept, deleted from the first
or inserted from the second (`Turns`). Its cost is the number of deletions and
insertions, and what it keeps is a common subsequence: a script of least cost keeps a
longest one (`Turns.kept_longest`).

`entries` puts each step of a script with its element. A list is what the entries have
of it (`Turns.olds_entries`, `Turns.news_entries`), and a part of the entries is the
script of the parts of the lists it speaks of (`Turns.olds_part`, `Turns.news_part`).
-/

namespace Ruse.Lib.Script

variable {α : Type*}

/-- What a script does with the next element. -/
inductive Op where
  | keep
  | del
  | ins
deriving DecidableEq, Repr

/-- The script turns the first list into the second. -/
inductive Turns : List Op → List α → List α → Prop
  | nil : Turns [] [] []
  | keep {ops : List Op} {a b : List α} (x : α) :
      Turns ops a b → Turns (.keep :: ops) (x :: a) (x :: b)
  | del {ops : List Op} {a b : List α} (x : α) : Turns ops a b → Turns (.del :: ops) (x :: a) b
  | ins {ops : List Op} {a b : List α} (x : α) : Turns ops a b → Turns (.ins :: ops) a (x :: b)

def cost (ops : List Op) : Nat := ops.countP (· ≠ .keep)

/-- How many elements of the first list a script speaks of. -/
def lefts (ops : List Op) : Nat := ops.countP (· ≠ .ins)

/-- How many elements of the second list a script speaks of. -/
def rights (ops : List Op) : Nat := ops.countP (· ≠ .del)

/-- The elements of the first list a script keeps. -/
def kept : List Op → List α → List α
  | .keep :: ops, x :: a => x :: kept ops a
  | .del :: ops, _ :: a => kept ops a
  | .ins :: ops, a => kept ops a
  | _, _ => []

@[simp] theorem cost_cons (op : Op) (ops : List Op) :
    cost (op :: ops) = cost ops + if op = .keep then 0 else 1 := by
  cases op <;> simp [cost]

@[simp] theorem lefts_cons (op : Op) (ops : List Op) :
    lefts (op :: ops) = lefts ops + if op = .ins then 0 else 1 := by
  cases op <;> simp [lefts]

@[simp] theorem rights_cons (op : Op) (ops : List Op) :
    rights (op :: ops) = rights ops + if op = .del then 0 else 1 := by
  cases op <;> simp [rights]

theorem cost_append (ops ops' : List Op) : cost (ops ++ ops') = cost ops + cost ops' :=
  List.countP_append

@[simp] theorem lefts_append (ops ops' : List Op) : lefts (ops ++ ops') = lefts ops + lefts ops' :=
  List.countP_append

@[simp] theorem rights_append (ops ops' : List Op) :
    rights (ops ++ ops') = rights ops + rights ops' :=
  List.countP_append

theorem cost_replicate_keep (n : Nat) : cost (List.replicate n .keep) = 0 := by
  simp [cost]

namespace Turns

variable {ops ops' : List Op} {a a' b b' : List α}

theorem kept_sublist (h : Turns ops a b) : (kept ops a).Sublist a ∧ (kept ops a).Sublist b := by
  induction h with
  | nil => exact ⟨.slnil, .slnil⟩
  | keep x _ ih => exact ⟨ih.1.cons_cons x, ih.2.cons_cons x⟩
  | del x _ ih => exact ⟨ih.1.cons x, ih.2⟩
  | ins x _ ih =>
    exact ⟨ih.1, ih.2.cons x⟩

theorem length_kept (h : Turns ops a b) :
    a.length + b.length = 2 * (kept ops a).length + cost ops := by
  induction h with
  | nil => rfl
  | keep x _ ih =>
    simp only [kept, List.length_cons, cost_cons, if_true]
    omega
  | del x _ ih =>
    simp only [kept, List.length_cons, cost_cons]
    simp only [reduceCtorEq, if_false]
    omega
  | ins x _ ih =>
    unfold kept
    simp only [List.length_cons, cost_cons, reduceCtorEq, if_false]
    omega

theorem append (h : Turns ops a b) (h' : Turns ops' a' b') :
    Turns (ops ++ ops') (a ++ a') (b ++ b') := by
  induction h with
  | nil => exact h'
  | keep x _ ih => exact .keep x ih
  | del x _ ih => exact .del x ih
  | ins x _ ih => exact .ins x ih

/-- A script in two parts turns the parts of the one list into those of the other. -/
theorem split (h : Turns (ops ++ ops') a b) :
    Turns ops (a.take (lefts ops)) (b.take (rights ops)) ∧
      Turns ops' (a.drop (lefts ops)) (b.drop (rights ops)) := by
  induction ops generalizing a b with
  | nil => exact ⟨.nil, h⟩
  | cons op ops ih =>
    cases h with
    | keep x h =>
      obtain ⟨h₁, h₂⟩ := ih h
      simp only [lefts_cons, rights_cons, reduceCtorEq, if_false, List.take_succ_cons,
        List.drop_succ_cons]
      exact ⟨.keep x h₁, h₂⟩
    | del x h =>
      obtain ⟨h₁, h₂⟩ := ih h
      simp only [lefts_cons, rights_cons, reduceCtorEq, if_false, if_true, Nat.add_zero,
        List.take_succ_cons, List.drop_succ_cons]
      exact ⟨.del x h₁, h₂⟩
    | ins x h =>
      obtain ⟨h₁, h₂⟩ := ih h
      simp only [lefts_cons, rights_cons, reduceCtorEq, if_false, if_true, Nat.add_zero,
        List.take_succ_cons, List.drop_succ_cons]
      exact ⟨.ins x h₁, h₂⟩

theorem keeps (a : List α) : Turns (List.replicate a.length .keep) a a := by
  induction a with
  | nil => exact .nil
  | cons x a ih => exact .keep x ih

theorem eq_of_keeps (h : Turns ops a b) (hops : ∀ op ∈ ops, op = .keep) : a = b := by
  induction h with
  | nil => rfl
  | keep x _ ih => rw [ih fun op hop => hops op (List.mem_cons_of_mem _ hop)]
  | del x _ _ => exact absurd (hops _ List.mem_cons_self) (by simp)
  | ins x _ _ => exact absurd (hops _ List.mem_cons_self) (by simp)

theorem dels (a : List α) : Turns (List.replicate a.length .del) a [] := by
  induction a with
  | nil => exact .nil
  | cons x a ih => exact .del x ih

theorem inss (b : List α) : Turns (List.replicate b.length .ins) [] b := by
  induction b with
  | nil => exact .nil
  | cons x b ih => exact .ins x ih

theorem whole (a b : List α) :
    Turns (List.replicate a.length .del ++ List.replicate b.length .ins) a b := by
  have h := (dels a).append (inss b)
  rwa [List.append_nil, List.nil_append] at h

end Turns

/-- A common subsequence is what some script keeps, all else being changes. -/
theorem exists_turns {s a b : List α} (ha : s.Sublist a) (hb : s.Sublist b) :
    ∃ ops, Turns ops a b ∧ a.length + b.length = 2 * s.length + cost ops := by
  induction ha generalizing b with
  | slnil =>
    refine ⟨List.replicate b.length .ins, Turns.inss b, ?_⟩
    simp [cost, List.countP_replicate]
  | cons x _ ih =>
    obtain ⟨ops, hops, hlen⟩ := ih hb
    refine ⟨.del :: ops, .del x hops, ?_⟩
    simp only [List.length_cons, cost_cons, reduceCtorEq, if_false]
    omega
  | @cons_cons s a x _ ih =>
    -- the common element is in `b` after some others, which are inserted
    generalize hs : x :: s = s' at hb
    induction hb with
    | slnil => cases hs
    | cons y _ ihb =>
      obtain ⟨ops, hops, hlen⟩ := ihb hs
      refine ⟨.ins :: ops, .ins y hops, ?_⟩
      simp only [List.length_cons, cost_cons, reduceCtorEq, if_false] at hlen ⊢
      omega
    | cons_cons y hsub _ =>
      cases hs
      obtain ⟨ops, hops, hlen⟩ := ih hsub
      refine ⟨.keep :: ops, .keep x hops, ?_⟩
      simp only [List.length_cons, cost_cons, if_true]
      omega

/-- A script of least cost keeps a longest common subsequence. -/
theorem Turns.kept_longest {ops : List Op} {a b s : List α} (h : Turns ops a b)
    (hleast : ∀ ops', Turns ops' a b → cost ops ≤ cost ops') (ha : s.Sublist a)
    (hb : s.Sublist b) : s.length ≤ (kept ops a).length := by
  obtain ⟨ops', hops', hlen'⟩ := exists_turns ha hb
  have hle := hleast ops' hops'
  have hlen := h.length_kept
  omega

/-! ## The entries of a script -/

/-- Each step of a script with the element it is about. -/
def entries : List Op → List α → List α → List (Op × α)
  | .keep :: ops, x :: a, _ :: b => (.keep, x) :: entries ops a b
  | .del :: ops, x :: a, b => (.del, x) :: entries ops a b
  | .ins :: ops, a, y :: b => (.ins, y) :: entries ops a b
  | _, _, _ => []

/-- What some entries have of the first list. -/
def olds (es : List (Op × α)) : List α := (es.filter fun e => e.1 ≠ .ins).map Prod.snd

/-- What some entries have of the second list. -/
def news (es : List (Op × α)) : List α := (es.filter fun e => e.1 ≠ .del).map Prod.snd

/-- The deletions and insertions among some entries. -/
def changes (es : List (Op × α)) : List (Op × α) := es.filter fun e => e.1 ≠ .keep

section Parts

variable {es es' : List (Op × α)}

@[simp] theorem olds_append : olds (es ++ es') = olds es ++ olds es' := by
  simp [olds]

@[simp] theorem news_append : news (es ++ es') = news es ++ news es' := by
  simp [news]

@[simp] theorem changes_append : changes (es ++ es') = changes es ++ changes es' := by
  simp [changes]

theorem length_olds (es : List (Op × α)) : (olds es).length = lefts (es.map Prod.fst) := by
  rw [olds, List.length_map, lefts, List.countP_map, List.countP_eq_length_filter]
  rfl

theorem length_news (es : List (Op × α)) : (news es).length = rights (es.map Prod.fst) := by
  rw [news, List.length_map, rights, List.countP_map, List.countP_eq_length_filter]
  rfl

theorem keeps_entries (h : ∀ e ∈ es, e.1 = .keep) : news es = olds es ∧ changes es = [] := by
  induction es with
  | nil => exact ⟨rfl, rfl⟩
  | cons e es ih =>
    obtain ⟨hnews, hchanges⟩ := ih fun e' he' => h e' (List.mem_cons_of_mem _ he')
    have he := h e List.mem_cons_self
    constructor
    · simpa [news, olds, he] using hnews
    · simpa [changes, he] using hchanges

end Parts

namespace Turns

variable {ops : List Op} {a b : List α}

theorem map_entries (h : Turns ops a b) : (entries ops a b).map Prod.fst = ops := by
  induction h with
  | nil => rfl
  | keep x _ ih => simp [entries, ih]
  | del x _ ih => simp [entries, ih]
  | ins x _ ih => simp [entries, ih]

theorem olds_entries (h : Turns ops a b) : olds (entries ops a b) = a := by
  induction h with
  | nil => rfl
  | keep x _ ih => simpa [entries, olds] using ih
  | del x _ ih => simpa [entries, olds] using ih
  | ins x _ ih => simpa [entries, olds] using ih

theorem news_entries (h : Turns ops a b) : news (entries ops a b) = b := by
  induction h with
  | nil => rfl
  | keep x _ ih => simpa [entries, news] using ih
  | del x _ ih => simpa [entries, news] using ih
  | ins x _ ih => simpa [entries, news] using ih

/-- The entry of a step is about the element its list has where the steps before it
come to. -/
theorem entry (h : Turns ops a b) {k : Nat} {op : Op} (hop : ops[k]? = some op) :
    (op ≠ .ins → ∃ x, a[lefts (ops.take k)]? = some x ∧ (entries ops a b)[k]? = some (op, x)) ∧
      (op = .ins → ∃ y, b[rights (ops.take k)]? = some y ∧
        (entries ops a b)[k]? = some (op, y)) := by
  induction h generalizing k with
  | nil => cases hop
  | keep x _ ih =>
    cases k with
    | zero =>
      cases hop
      exact ⟨fun _ => ⟨x, rfl, rfl⟩, fun h => by cases h⟩
    | succ k => simpa [entries] using ih hop
  | del x _ ih =>
    cases k with
    | zero =>
      cases hop
      exact ⟨fun _ => ⟨x, rfl, rfl⟩, fun h => by cases h⟩
    | succ k => simpa [entries] using ih hop
  | ins x _ ih =>
    cases k with
    | zero =>
      cases hop
      exact ⟨fun h => absurd rfl h, fun _ => ⟨x, rfl, rfl⟩⟩
    | succ k => simpa [entries] using ih hop

/-- A part of the entries has the part of the first list its steps speak of. -/
theorem olds_part (h : Turns ops a b) (f n : Nat) :
    olds (((entries ops a b).drop f).take n) =
      (a.drop (lefts (ops.take f))).take (lefts ((ops.drop f).take n)) := by
  have hops := h.map_entries
  have hall := h.olds_entries
  generalize entries ops a b = es at hops hall
  subst hops
  rw [← List.take_append_drop f es, ← List.take_append_drop n (es.drop f), olds_append,
    olds_append] at hall
  rw [← List.map_take, ← List.map_drop, ← List.map_take, ← length_olds, ← length_olds, ← hall,
    List.drop_left, List.take_left]

/-- A part of the entries has the part of the second list its steps speak of. -/
theorem news_part (h : Turns ops a b) (f n : Nat) :
    news (((entries ops a b).drop f).take n) =
      (b.drop (rights (ops.take f))).take (rights ((ops.drop f).take n)) := by
  have hops := h.map_entries
  have hall := h.news_entries
  generalize entries ops a b = es at hops hall
  subst hops
  rw [← List.take_append_drop f es, ← List.take_append_drop n (es.drop f), news_append,
    news_append] at hall
  rw [← List.map_take, ← List.map_drop, ← List.map_take, ← length_news, ← length_news, ← hall,
    List.drop_left, List.take_left]

end Turns

end Ruse.Lib.Script
