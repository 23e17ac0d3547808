import Mathlib.Data.List.Basic
import Mathlib.Tactic.Cases

/-!
# Keymap layers

The model of `crates/core/src/keymap.rs`: an ordered stack of binding layers,
consulted highest rank first. The order and the uniqueness of ranks and ids are
fields of `LayerStack`, so every stack is one that `push` could have built
(`LayerStack.push`).

* `LayerStack.resolve` — the walk of one key down the stack;
* `LayerStack.keyFor` — the reverse: the key shown for a value;
* `LayerStack.collapse` — the stack as one layer.

A collapsed stack answers every key as the stack does, the empty stack apart
(`collapse_outcome_iff`); the key shown for a value runs it exactly when nothing
above its first binding gets in the way (`keyFor_runs_iff`). Layers may be pushed in
any order (`push_order`), and `conflicts` names all that hides one (`conflicts_clear`).
-/

namespace Ruse.Core.Keymap

variable {K V : Type*}

/-- What a layer does with a key it does not bind. -/
inductive UnmatchedKey where
  | ignore
  | abort
  | insert
  | append
  | overwrite
  | replaceSelection
  | forward
  | translate
deriving DecidableEq, Repr

inductive KeymapError where
  | duplicateRank (rank : Nat) (existing incoming : String)
  | duplicateId (id : String)
deriving DecidableEq, Repr

/-- One keymap layer: its bindings in the order they were bound, whether it
seals resolution, and its policy for the other keys. -/
structure Layer (K V : Type*) where
  id : String
  rank : Nat
  isSealed : Bool
  unmatched : UnmatchedKey
  bindings : List (K × V)

namespace Layer

/-- The value a key has in this layer: its first binding. -/
def get [BEq K] (l : Layer K V) (key : K) : Option V :=
  (l.bindings.find? fun b => b.1 == key).map Prod.snd

theorem get_eq_none [DecidableEq K] {l : Layer K V} {key : K} :
    l.get key = none ↔ ∀ b ∈ l.bindings, b.1 ≠ key := by
  rw [get, Option.map_eq_none_iff, List.find?_eq_none]
  simp

/-- The key bound to `value` in this layer: its first binding. -/
def keyFor [BEq V] (l : Layer K V) (value : V) : Option K :=
  (l.bindings.find? fun b => b.2 == value).map Prod.fst

/-- The loop of `duplicate_keys` over the bindings left. -/
def repeated [DecidableEq K] : List K → List (K × V) → List K
  | out, [] => out
  | out, (k, _) :: rest =>
    repeated (if (rest.any fun b => b.1 == k) && !out.contains k then out ++ [k] else out) rest

/-- Every key bound more than once in this layer, once each. -/
def duplicateKeys [DecidableEq K] (l : Layer K V) : List K := repeated [] l.bindings

/-- No key is repeated exactly where all keys differ. -/
theorem repeated_eq_nil [DecidableEq K] {out : List K} {bs : List (K × V)} :
    repeated out bs = [] ↔ out = [] ∧ (bs.map Prod.fst).Nodup := by
  induction bs generalizing out with
  | nil => simp [repeated]
  | cons b rest ih =>
    obtain ⟨k, v⟩ := b
    rw [repeated, ih, List.map_cons, List.nodup_cons]
    by_cases hagain : ∃ b ∈ rest, b.1 = k
    · have hmem : k ∈ rest.map Prod.fst := List.mem_map.mpr hagain
      have hany : (rest.any fun b => b.1 == k) = true :=
        List.any_eq_true.mpr (hagain.imp fun b hb => ⟨hb.1, beq_iff_eq.mpr hb.2⟩)
      rw [hany, Bool.true_and]
      refine ⟨fun h => absurd h.1 ?_, fun h => absurd hmem h.2.1⟩
      split
      · exact List.append_ne_nil_of_right_ne_nil _ (List.cons_ne_nil _ _)
      · rename_i hin
        rintro rfl
        exact hin rfl
    · have hany : (rest.any fun b => b.1 == k) = false := by
        rw [List.any_eq_false]
        exact fun b hb heq => hagain ⟨b, hb, beq_iff_eq.mp heq⟩
      have hmem : k ∉ rest.map Prod.fst := fun h => hagain (List.mem_map.mp h)
      simp only [hany, Bool.false_and, Bool.false_eq_true, if_false, hmem, not_false_eq_true,
        true_and]

theorem get_of_nodup [DecidableEq K] {l : Layer K V} (h : (l.bindings.map Prod.fst).Nodup)
    {b : K × V} (hb : b ∈ l.bindings) : l.get b.1 = some b.2 := by
  obtain ⟨pre, post, hsplit⟩ := List.append_of_mem hb
  rw [hsplit, List.map_append, List.map_cons, List.nodup_append] at h
  refine Option.map_eq_some_iff.mpr ⟨b, List.find?_eq_some_iff_append.mpr
    ⟨beq_self_eq_true _, pre, post, hsplit, fun c hc => ?_⟩, rfl⟩
  simpa using h.2.2 _ (List.mem_map_of_mem hc) _ List.mem_cons_self

end Layer

/-- The outcome of resolving one key against a stack. -/
inductive Resolved (V : Type*) where
  | bound (layer : String) (value : V)
  /-- No layer bound it; `layer` is the last one consulted. -/
  | unmatched (layer : String) (policy : UnmatchedKey)
  | noLayer
deriving DecidableEq, Repr

/-- The bound value or the policy, without the layer's name; nothing when no
layer was consulted. -/
def Resolved.outcome : Resolved V → Option (V ⊕ UnmatchedKey)
  | .bound _ value => some (.inl value)
  | .unmatched _ policy => some (.inr policy)
  | .noLayer => none

/-- An ordered stack of layers, highest rank first. -/
structure LayerStack (K V : Type*) where
  layers : List (Layer K V)
  sorted : layers.Pairwise fun a b => b.rank < a.rank
  ids : layers.Pairwise fun a b => a.id ≠ b.id

namespace LayerStack

def new : LayerStack K V := ⟨[], .nil, .nil⟩

def single (l : Layer K V) : LayerStack K V :=
  ⟨[l], List.pairwise_singleton _ _, List.pairwise_singleton _ _⟩

/-- The layers with `layer` put before the first one of a lower rank. -/
def insertByRank (layer : Layer K V) : List (Layer K V) → List (Layer K V)
  | [] => [layer]
  | l :: rest => if l.rank < layer.rank then layer :: l :: rest else l :: insertByRank layer rest

theorem mem_insertByRank {layer l : Layer K V} {layers : List (Layer K V)} :
    l ∈ insertByRank layer layers ↔ l = layer ∨ l ∈ layers := by
  induction layers with
  | nil => simp [insertByRank]
  | cons a rest ih =>
    rw [insertByRank]
    split
    · exact List.mem_cons
    · rw [List.mem_cons, ih, List.mem_cons]
      exact or_left_comm

/-- A layer goes to the place of its rank. -/
theorem insertByRank_sorted {layer : Layer K V} {layers : List (Layer K V)}
    (h : layers.Pairwise fun a b => b.rank < a.rank) (hne : ∀ l ∈ layers, l.rank ≠ layer.rank) :
    (insertByRank layer layers).Pairwise fun a b => b.rank < a.rank := by
  induction layers with
  | nil => exact List.pairwise_singleton _ _
  | cons a rest ih =>
    obtain ⟨hhead, hrest⟩ := List.pairwise_cons.mp h
    rw [insertByRank]
    split
    · rename_i hlt
      refine List.pairwise_cons.mpr ⟨fun b hb => ?_, h⟩
      rcases List.mem_cons.mp hb with rfl | hb
      · exact hlt
      · exact Nat.lt_trans (hhead b hb) hlt
    · rename_i hge
      have ha := hne a List.mem_cons_self
      refine List.pairwise_cons.mpr
        ⟨fun b hb => ?_, ih hrest fun l hl => hne l (List.mem_cons_of_mem _ hl)⟩
      rcases mem_insertByRank.mp hb with rfl | hb
      · omega
      · exact hhead b hb

theorem insertByRank_ids {layer : Layer K V} {layers : List (Layer K V)}
    (h : layers.Pairwise fun a b => a.id ≠ b.id) (hne : ∀ l ∈ layers, l.id ≠ layer.id) :
    (insertByRank layer layers).Pairwise fun a b => a.id ≠ b.id := by
  induction layers with
  | nil => exact List.pairwise_singleton _ _
  | cons a rest ih =>
    obtain ⟨hhead, hrest⟩ := List.pairwise_cons.mp h
    rw [insertByRank]
    split
    · exact List.pairwise_cons.mpr ⟨fun b hb => (hne b hb).symm, h⟩
    · refine List.pairwise_cons.mpr
        ⟨fun b hb => ?_, ih hrest fun l hl => hne l (List.mem_cons_of_mem _ hl)⟩
      rcases mem_insertByRank.mp hb with rfl | hb
      · exact hne a List.mem_cons_self
      · exact hhead b hb

/-- Add a layer: a rank or an id already taken is a definition error. -/
def push (s : LayerStack K V) (layer : Layer K V) : Except KeymapError (LayerStack K V) :=
  match hrank : s.layers.find? fun l => l.rank == layer.rank with
  | some other => .error (.duplicateRank layer.rank other.id layer.id)
  | none =>
    if hid : s.layers.any fun l => l.id == layer.id then .error (.duplicateId layer.id)
    else .ok
      { layers := insertByRank layer s.layers
        sorted := insertByRank_sorted s.sorted fun l hl => by
          simpa using List.find?_eq_none.mp hrank l hl
        ids := insertByRank_ids s.ids fun l hl heq =>
          hid (List.any_eq_true.mpr ⟨l, hl, beq_iff_eq.mpr heq⟩) }

/-! ## Building a stack -/

theorem insertByRank_perm (layer : Layer K V) (layers : List (Layer K V)) :
    (insertByRank layer layers).Perm (layer :: layers) := by
  induction layers with
  | nil => exact .refl _
  | cons l rest ih =>
    rw [insertByRank]
    split
    · exact .refl _
    · exact (ih.cons l).trans (.swap layer l rest)

theorem eq_of_perm {s t : LayerStack K V} (h : s.layers.Perm t.layers) : s = t := by
  have heq : s.layers = t.layers :=
    h.eq_of_pairwise (fun _ _ _ _ hab hba => absurd hab (Nat.lt_asymm hba)) s.sorted t.sorted
  cases s
  cases t
  congr

theorem push_perm {s t : LayerStack K V} {layer : Layer K V} (h : s.push layer = .ok t) :
    t.layers.Perm (layer :: s.layers) := by
  unfold push at h
  split at h
  · cases h
  · split at h
    · cases h
    · cases h
      exact insertByRank_perm layer s.layers

/-- The layers' ranks and ids are apart. -/
def Apart (a b : Layer K V) : Prop := a.rank ≠ b.rank ∧ a.id ≠ b.id

theorem push_isOk (s : LayerStack K V) {layer : Layer K V}
    (h : ∀ l ∈ s.layers, Apart layer l) : ∃ t, s.push layer = .ok t := by
  unfold push
  split
  · rename_i other hfind
    have hrank : other.rank = layer.rank := by simpa using List.find?_some hfind
    exact absurd hrank.symm (h other (List.mem_of_find?_eq_some hfind)).1
  · split
    · rename_i hid
      obtain ⟨l, hl, heq⟩ := List.any_eq_true.mp hid
      exact absurd (beq_iff_eq.mp heq).symm (h l hl).2
    · exact ⟨_, rfl⟩

/-- Push the layers one after the other, up to the first that is refused. -/
def pushAll (s : LayerStack K V) : List (Layer K V) → Except KeymapError (LayerStack K V)
  | [] => .ok s
  | l :: ls => do (← s.push l).pushAll ls

theorem apart_layers (s : LayerStack K V) : s.layers.Pairwise Apart :=
  s.sorted.imp₂ (fun _ _ hrank hid => ⟨Nat.ne_of_gt hrank, hid⟩) s.ids

/-- A stack takes all the layers exactly where it ends up with them all. -/
theorem pushAll_iff (ls : List (Layer K V)) (s t : LayerStack K V) :
    s.pushAll ls = .ok t ↔ t.layers.Perm (ls ++ s.layers) := by
  induction ls generalizing s with
  | nil =>
    rw [pushAll, List.nil_append]
    exact ⟨fun h => by cases h; exact .refl _, fun h => congrArg _ (eq_of_perm h.symm)⟩
  | cons l ls ih =>
    have hmove : (ls ++ l :: s.layers).Perm (l :: ls ++ s.layers) := List.perm_middle
    rw [pushAll]
    constructor
    · intro h
      cases hpush : s.push l with
      | error e => rw [hpush] at h; cases h
      | ok s' =>
        rw [hpush] at h
        exact (((ih s').mp h).trans ((push_perm hpush).append_left ls)).trans hmove
    · intro h
      -- the ranks and ids of `t` are apart, so the push cannot be refused
      have happart := t.apart_layers.perm h fun hab => ⟨hab.1.symm, hab.2.symm⟩
      obtain ⟨s', hpush⟩ := s.push_isOk fun a ha =>
        List.rel_of_pairwise_cons happart (List.mem_append_right ls ha)
      rw [hpush]
      exact (ih s').mpr (h.trans (((push_perm hpush).append_left ls).trans hmove).symm)

theorem pushAll_isOk {ls : List (Layer K V)} (s : LayerStack K V)
    (h : (ls ++ s.layers).Pairwise Apart) : ∃ t, s.pushAll ls = .ok t := by
  induction ls generalizing s with
  | nil => exact ⟨s, rfl⟩
  | cons l ls ih =>
    obtain ⟨s', hpush⟩ := s.push_isOk fun a ha =>
      List.rel_of_pairwise_cons h (List.mem_append_right ls ha)
    rw [pushAll, hpush]
    apply ih
    have hmove := ((push_perm hpush).append_left ls).trans List.perm_middle
    exact h.perm hmove.symm fun hab => ⟨hab.1.symm, hab.2.symm⟩

/-- Layers pushed in any order give the one stack of them, and are refused exactly when two
share a rank or an id: the order of resolution is declared, not decided by insertion. -/
theorem push_order (ls : List (Layer K V)) :
    (∀ t, new.pushAll ls = .ok t ↔ t.layers.Perm ls) ∧
      ((∃ t, new.pushAll ls = .ok t) ↔ ls.Pairwise Apart) ∧
      ∀ ls', ls'.Perm ls → (new.pushAll ls').toOption = (new.pushAll ls).toOption := by
  have hall (ls : List (Layer K V)) (t : LayerStack K V) :
      new.pushAll ls = .ok t ↔ t.layers.Perm ls := by
    rw [pushAll_iff]
    simp [new]
  refine ⟨hall ls, ⟨?_, fun h => ?_⟩, fun ls' hperm => ?_⟩
  · rintro ⟨t, ht⟩
    exact t.apart_layers.perm ((hall ls t).mp ht) fun hab => ⟨hab.1.symm, hab.2.symm⟩
  · apply pushAll_isOk
    simpa [new] using h
  · apply Option.ext
    intro t
    have hback (e : Except KeymapError (LayerStack K V)) : e.toOption = some t ↔ e = .ok t := by
      cases e <;> simp [Except.toOption]
    rw [hback, hback, hall, hall]
    exact ⟨fun h => h.trans hperm, fun h => h.trans hperm.symm⟩

/-! ## Resolution -/

/-- The walk of `resolve` over the layers left, `last` being the one consulted
before them. -/
def resolveFrom [BEq K] (key : K) : Option (Layer K V) → List (Layer K V) → Resolved V
  | some last, [] => .unmatched last.id last.unmatched
  | none, [] => .noLayer
  | _, l :: rest =>
    match l.get key with
    | some value => .bound l.id value
    | none =>
      if l.isSealed then .unmatched l.id l.unmatched else resolveFrom key (some l) rest

/-- Resolve one key: highest rank first, until a layer binds it or seals the
walk. -/
def resolve [BEq K] (s : LayerStack K V) (key : K) : Resolved V := resolveFrom key none s.layers

/-- The key bound to `value` anywhere in the stack, highest rank first. -/
def keyFor [BEq V] (s : LayerStack K V) (value : V) : Option K :=
  s.layers.findSome? fun l => l.keyFor value

/-! ## Collapse -/

/-- The layer that ends the walk of a key no layer binds: the first sealed one,
else the last. -/
def terminal (layers : List (Layer K V)) : Option (Layer K V) :=
  (layers.find? Layer.isSealed).or layers.getLast?

/-- The bindings of the layers a walk can reach, in resolution order. -/
def reachable : List (Layer K V) → List (K × V)
  | [] => []
  | l :: rest => l.bindings ++ if l.isSealed then [] else reachable rest

def collapse (s : LayerStack K V) (id : String) : Layer K V :=
  match terminal s.layers with
  | some l =>
    { id, rank := s.layers.head?.elim l.rank Layer.rank, isSealed := true,
      unmatched := l.unmatched, bindings := reachable s.layers }
  | none =>
    { id, rank := 0, isSealed := true, unmatched := .ignore, bindings := reachable s.layers }

/-- What a walk over `layers` finds: the first reachable binding of the key, else
the policy of the layer that ends the walk. -/
theorem resolveFrom_outcome [BEq K] (key : K) (layers : List (Layer K V)) :
    ∀ last, (resolveFrom key last layers).outcome =
      match (reachable layers).find? fun b => b.1 == key with
      | some b => some (.inl b.2)
      | none => ((terminal layers).or last).map fun l => .inr l.unmatched := by
  induction layers with
  | nil => rintro (_ | last) <;> rfl
  | cons l rest ih =>
    intro last
    rw [resolveFrom, reachable, List.find?_append, Layer.get]
    cases hget : l.bindings.find? fun b => b.1 == key with
    | some b => rfl
    | none =>
      by_cases hsealed : l.isSealed = true
      · simp [hsealed, terminal, Resolved.outcome]
      · have hlast : (terminal (l :: rest)).or last = (terminal rest).or (some l) := by
          rw [terminal, terminal, List.find?_cons, Bool.eq_false_iff.mpr hsealed,
            List.getLast?_cons]
          cases rest.find? Layer.isSealed <;> cases rest.getLast? <;> rfl
        simp only [hsealed, Option.map_none, Option.none_or, if_false, ih (some l), hlast,
          Bool.false_eq_true]

/-- The collapsed layer resolves a key as the stack does exactly when the stack has
a layer: the empty stack has no policy, its collapse ignores the key. -/
theorem collapse_outcome_iff [BEq K] (s : LayerStack K V) (id : String) (key : K) :
    ((single (s.collapse id)).resolve key).outcome = (s.resolve key).outcome ↔ s.layers ≠ [] := by
  have hone (l : Layer K V) (hl : l.isSealed = true) : reachable [l] = l.bindings := by
    simp [reachable, hl]
  rw [resolve, resolve, resolveFrom_outcome, resolveFrom_outcome, Option.or_none, Option.or_none]
  constructor
  · rintro h hempty
    simp [single, collapse, hempty, terminal, reachable] at h
  · intro hne
    obtain ⟨l, hl⟩ : ∃ l, terminal s.layers = some l := by
      rw [terminal]
      cases s.layers.find? Layer.isSealed with
      | some l => exact ⟨l, rfl⟩
      | none => exact ⟨_, List.getLast?_eq_some_getLast hne⟩
    have hcollapse : s.collapse id =
        { id, rank := s.layers.head?.elim l.rank Layer.rank, isSealed := true,
          unmatched := l.unmatched, bindings := reachable s.layers } := by
      rw [collapse, hl]
    rw [single, hcollapse, hone _ rfl, hl]
    rfl

/-- An empty stack collapsed ignores the key that it has no layer for. -/
theorem collapse_new_ignores :
    ((single ((new : LayerStack Char String).collapse "select")).resolve 'h').outcome ≠
      ((new : LayerStack Char String).resolve 'h').outcome := by
  decide

/-! ## The reverse -/

/-- A walk that some layer above stops: it never reaches the layers below. -/
theorem resolveFrom_stopped [BEq K] {key : K} {above : List (Layer K V)} (below : List (Layer K V))
    (h : ∃ a ∈ above, a.isSealed = true ∨ a.get key ≠ none) (last : Option (Layer K V)) :
    (∃ a ∈ above, ∃ value, a.get key = some value ∧
      resolveFrom key last (above ++ below) = .bound a.id value) ∨
    ∃ id policy, resolveFrom key last (above ++ below) = .unmatched id policy := by
  induction above generalizing last with
  | nil => obtain ⟨a, ha, -⟩ := h; exact absurd ha List.not_mem_nil
  | cons l rest ih =>
    rw [List.cons_append, resolveFrom]
    cases hget : l.get key with
    | some value => exact .inl ⟨l, List.mem_cons_self, value, hget, rfl⟩
    | none =>
      by_cases hsealed : l.isSealed = true
      · exact .inr ⟨l.id, l.unmatched, if_pos hsealed⟩
      · have hrest : ∃ a ∈ rest, a.isSealed = true ∨ a.get key ≠ none := by
          obtain ⟨a, ha, hstop⟩ := h
          rcases List.mem_cons.mp ha with rfl | ha
          · exact absurd hstop (by simp [hsealed, hget])
          · exact ⟨a, ha, hstop⟩
        simp only [if_neg hsealed]
        rcases ih hrest (some l) with ⟨a, ha, hbound⟩ | hun
        · exact .inl ⟨a, List.mem_cons_of_mem _ ha, hbound⟩
        · exact .inr hun

theorem resolveFrom_through [BEq K] (key : K) {above : List (Layer K V)} (below : List (Layer K V))
    (h : ∀ a ∈ above, a.isSealed = false ∧ a.get key = none)
    (last : Option (Layer K V)) :
    ∃ last', resolveFrom key last (above ++ below) = resolveFrom key last' below := by
  induction above generalizing last with
  | nil => exact ⟨last, rfl⟩
  | cons l rest ih =>
    obtain ⟨hsealed, hget⟩ := h l List.mem_cons_self
    rw [List.cons_append, resolveFrom, hget]
    simp only [hsealed, Bool.false_eq_true, if_false]
    exact ih (fun a ha => h a (List.mem_cons_of_mem _ ha)) (some l)

/-- The layers and bindings around the first binding of `value`: `l` is the first
layer that binds it, `(key, value)` the first such binding. -/
structure FirstBinding (s : LayerStack K V) (value : V) (above : List (Layer K V))
    (l : Layer K V) (below : List (Layer K V)) (pre : List (K × V)) (key : K)
    (post : List (K × V)) : Prop where
  layers : s.layers = above ++ l :: below
  bindings : l.bindings = pre ++ (key, value) :: post
  above_binds : ∀ a ∈ above, ∀ b ∈ a.bindings, b.2 ≠ value
  pre_binds : ∀ b ∈ pre, b.2 ≠ value

/-- Nothing is in the way of the first binding of `value`: no layer above it is
sealed, and its key is not bound above it, in a higher layer or earlier in its
own. -/
def Unobstructed (s : LayerStack K V) (value : V) : Prop :=
  ∀ above l below pre key post, s.FirstBinding value above l below pre key post →
    (∀ a ∈ above, a.isSealed = false ∧ ∀ b ∈ a.bindings, b.1 ≠ key) ∧ ∀ b ∈ pre, b.1 ≠ key

/-- The key found for a value is the first binding of it, top layer first. -/
theorem keyFor_eq_some [DecidableEq V] {s : LayerStack K V} {value : V} {key : K} :
    s.keyFor value = some key ↔
      ∃ above l below pre post, s.FirstBinding value above l below pre key post := by
  constructor
  · intro h
    obtain ⟨above, l, below, hlayers, hl, habove⟩ := List.findSome?_eq_some_iff.mp h
    obtain ⟨b, hb, rfl⟩ := Option.map_eq_some_iff.mp hl
    obtain ⟨heq, pre, post, hbindings, hpre⟩ := List.find?_eq_some_iff_append.mp hb
    obtain ⟨k, v⟩ := b
    obtain rfl : v = value := beq_iff_eq.mp heq
    refine ⟨above, l, below, pre, post, hlayers, hbindings, fun a ha b hb hval => ?_,
      fun b hb => ?_⟩
    · have hnone := Option.map_eq_none_iff.mp (habove a ha)
      exact absurd (beq_iff_eq.mpr hval) (List.find?_eq_none.mp hnone b hb)
    · simpa using hpre b hb
  · rintro ⟨above, l, below, pre, post, h⟩
    refine List.findSome?_eq_some_iff.mpr ⟨above, l, below, h.layers, ?_, fun a ha => ?_⟩
    · refine Option.map_eq_some_iff.mpr ⟨(key, value), ?_, rfl⟩
      exact List.find?_eq_some_iff_append.mpr
        ⟨beq_self_eq_true _, pre, post, h.bindings, fun b hb => by simpa using h.pre_binds b hb⟩
    · refine Option.map_eq_none_iff.mpr (List.find?_eq_none.mpr fun b hb => ?_)
      simpa using h.above_binds a ha b hb

/-- The key shown for a value resolves to it exactly when nothing is in the way of
its first binding. -/
theorem keyFor_runs_iff [DecidableEq K] [DecidableEq V] (s : LayerStack K V) (value : V) :
    (∀ key, s.keyFor value = some key → ∃ layer, s.resolve key = .bound layer value) ↔
      s.Unobstructed value := by
  constructor
  · intro h above l below pre key post hfirst
    obtain ⟨layer, hres⟩ := h key (keyFor_eq_some.mpr ⟨above, l, below, pre, post, hfirst⟩)
    rw [resolve, hfirst.layers] at hres
    have hthrough : ∀ a ∈ above, a.isSealed = false ∧ a.get key = none := by
      by_contra hstop
      have hstop' : ∃ a ∈ above, a.isSealed = true ∨ a.get key ≠ none := by
        by_contra hno
        refine hstop fun a ha => ⟨?_, ?_⟩
        · exact Bool.eq_false_iff.mpr fun hs => hno ⟨a, ha, .inl hs⟩
        · exact not_not.mp fun hg => hno ⟨a, ha, .inr hg⟩
      -- A layer above that stops the walk binds the key to another value, or nothing.
      rcases resolveFrom_stopped (l :: below) hstop' none with ⟨a, ha, v, hget, hbound⟩ | hun
      · rw [hbound] at hres
        obtain ⟨-, rfl⟩ := Resolved.bound.inj hres
        obtain ⟨b, hb, rfl⟩ := Option.map_eq_some_iff.mp hget
        exact hfirst.above_binds a ha b (List.mem_of_find?_eq_some hb) rfl
      · obtain ⟨id, policy, hun⟩ := hun
        rw [hun] at hres
        cases hres
    refine ⟨fun a ha => ⟨(hthrough a ha).1, Layer.get_eq_none.mp (hthrough a ha).2⟩,
      fun b hb hkey => ?_⟩
    obtain ⟨last, hgo⟩ := resolveFrom_through key (l :: below) hthrough none
    rw [hgo, resolveFrom, Layer.get, hfirst.bindings, List.find?_append] at hres
    -- An earlier binding of the key in the same layer is found first.
    obtain ⟨c, hc⟩ : ∃ c, pre.find? (fun b => b.1 == key) = some c :=
      Option.isSome_iff_exists.mp (List.find?_isSome.mpr ⟨b, hb, beq_iff_eq.mpr hkey⟩)
    rw [hc] at hres
    obtain ⟨-, hval⟩ := Resolved.bound.inj hres
    exact hfirst.pre_binds c (List.mem_of_find?_eq_some hc) hval
  · intro h key hkey
    obtain ⟨above, l, below, pre, post, hfirst⟩ := keyFor_eq_some.mp hkey
    obtain ⟨habove, hpre⟩ := h above l below pre key post hfirst
    obtain ⟨last, hgo⟩ := resolveFrom_through key (l :: below)
      (fun a ha => ⟨(habove a ha).1, Layer.get_eq_none.mpr (habove a ha).2⟩) none
    have hnone : pre.find? (fun b => b.1 == key) = none :=
      List.find?_eq_none.mpr fun b hb => by simpa using hpre b hb
    refine ⟨l.id, ?_⟩
    rw [resolve, hfirst.layers, hgo, resolveFrom, Layer.get, hfirst.bindings, List.find?_append,
      hnone]
    simp

/-- `x` is bound in both layers: the lower one's value is shown with a key that runs
the higher one's. -/
def shadowed : LayerStack Char String where
  layers :=
    [⟨"hi", 20, false, .ignore, [('x', "hi-x")]⟩, ⟨"lo", 10, true, .ignore, [('x', "lo-x")]⟩]
  sorted := by simp
  ids := by simp

/-- The lower layer's value is looked up to a key that gives the upper one's. -/
theorem keyFor_shadowed :
    shadowed.keyFor "lo-x" = some 'x' ∧ shadowed.resolve 'x' = .bound "hi" "hi-x" := by
  decide

/-! ## The static check -/

/-- The second loop of `conflicts`: the prefix keys of the layers left that a layer `above`
binds to another value. -/
def hiddenPrefixes [DecidableEq K] (debug : K → String) (opens : V → Bool) :
    List (Layer K V) → List (Layer K V) → List String
  | _, [] => []
  | above, l :: rest =>
    (l.bindings.flatMap fun b =>
      if opens b.2 then
        above.filterMap fun a =>
          if (a.get b.1).any fun w => !opens w then
            some s!"{l.id}: prefix {debug b.1} is shadowed by a plain binding in {a.id}"
          else none
      else []) ++ hiddenPrefixes debug opens (above ++ [l]) rest

/-- One line for each problem of a stack; `opens` says that a value opens a sub-map, `debug`
shows a key. -/
def conflicts [DecidableEq K] (s : LayerStack K V) (debug : K → String) (opens : V → Bool) :
    List String :=
  (s.layers.flatMap fun l => l.duplicateKeys.map fun k => s!"{l.id}: {debug k} is bound twice") ++
    hiddenPrefixes debug opens [] s.layers

/-- With no hidden prefix, a prefix is shadowed by prefixes only. -/
theorem hiddenPrefixes_nil [DecidableEq K] {debug : K → String} {opens : V → Bool}
    {above layers : List (Layer K V)} (h : hiddenPrefixes debug opens above layers = [])
    {pre post : List (Layer K V)} {l : Layer K V} (hsplit : layers = pre ++ l :: post)
    {b : K × V} (hb : b ∈ l.bindings) (hopens : opens b.2 = true) {a : Layer K V}
    (ha : a ∈ above ++ pre) {w : V} (hget : a.get b.1 = some w) : opens w = true := by
  induction layers generalizing above pre with
  | nil => simp at hsplit
  | cons l' rest ih =>
    obtain ⟨hhead, hrest⟩ := List.append_eq_nil_iff.mp h
    cases pre with
    | nil =>
      obtain ⟨rfl, rfl⟩ := List.cons.inj hsplit
      have hnone := List.flatMap_eq_nil_iff.mp hhead b hb
      rw [if_pos hopens, List.filterMap_eq_nil_iff] at hnone
      rw [List.append_nil] at ha
      simpa [hget] using hnone a ha
    | cons c pre =>
      obtain ⟨rfl, rfl⟩ := List.cons.inj hsplit
      exact ih hrest rfl (by simpa using ha)

/-- What a stack without conflicts guarantees: every binding of a layer is the one the layer
resolves its key to, and a key that some layer makes a prefix never runs a plain command. -/
theorem conflicts_clear [DecidableEq K] (s : LayerStack K V) (debug : K → String)
    (opens : V → Bool) (h : s.conflicts debug opens = []) :
    ∀ l ∈ s.layers, ∀ b ∈ l.bindings, l.get b.1 = some b.2 ∧
      (opens b.2 = true → ∀ layer w, s.resolve b.1 = .bound layer w → opens w = true) := by
  obtain ⟨htwice, hhidden⟩ := List.append_eq_nil_iff.mp h
  intro l hl b hb
  have hget : l.get b.1 = some b.2 := by
    apply Layer.get_of_nodup _ hb
    have hnil := List.map_eq_nil_iff.mp (List.flatMap_eq_nil_iff.mp htwice l hl)
    exact (Layer.repeated_eq_nil.mp hnil).2
  refine ⟨hget, fun hopens layer w hres => ?_⟩
  obtain ⟨above, below, hsplit⟩ := List.append_of_mem hl
  rw [resolve, hsplit] at hres
  by_cases hstop : ∃ a ∈ above, a.isSealed = true ∨ a.get b.1 ≠ none
  · rcases resolveFrom_stopped (l :: below) hstop none with ⟨a, ha, v, hv, hbound⟩ | ⟨_, _, hun⟩
    · rw [hbound] at hres
      obtain ⟨-, rfl⟩ := Resolved.bound.inj hres
      exact hiddenPrefixes_nil hhidden hsplit hb hopens ha hv
    · rw [hun] at hres
      cases hres
  · obtain ⟨last, hgo⟩ := resolveFrom_through b.1 (l :: below) (fun a ha => ⟨
      Bool.eq_false_iff.mpr fun hs => hstop ⟨a, ha, .inl hs⟩,
      not_not.mp fun hg => hstop ⟨a, ha, .inr hg⟩⟩) none
    rw [hgo, resolveFrom, hget] at hres
    obtain ⟨-, rfl⟩ := Resolved.bound.inj hres
    exact hopens

/-- A prefix `g` in both layers, and a plain `x` below a plain `x`. -/
def opening : LayerStack Char String where
  layers :=
    [⟨"hi", 20, false, .ignore, [('g', "+hi"), ('x', "hi-x")]⟩,
      ⟨"lo", 10, true, .ignore, [('g', "+lo"), ('x', "lo-x")]⟩]
  sorted := by simp
  ids := by simp

/-- Two layers that open prefixes on `g`: the key resolves to one of them. -/
theorem conflicts_clear_shadowed :
    let opens : String → Bool := fun v => v == "+hi" || v == "+lo"
    opening.conflicts toString opens = [] ∧
      (∀ l ∈ opening.layers, ∀ b ∈ l.bindings, l.get b.1 = some b.2) ∧
      ∀ layer w, opening.resolve 'g' = .bound layer w → opens w = true := by
  intro opens
  have hnone : opening.conflicts toString opens = [] := by decide
  have hclear := conflicts_clear opening toString opens hnone
  refine ⟨hnone, fun l hl b hb => (hclear l hl b hb).1, fun layer w hres => ?_⟩
  exact (hclear _ (List.mem_cons_of_mem _ List.mem_cons_self) _ List.mem_cons_self).2 (by decide) layer w hres

end LayerStack

end Ruse.Core.Keymap
