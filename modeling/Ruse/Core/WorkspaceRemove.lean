import Ruse.Core.WorkspaceSound

/-!
# Cycling and removing buffers

A step keeps the buffers it is not about and gives no id twice (`Stepped`). Removing a
buffer first gives every window that shows it a view of another buffer (`repoint_all`),
and then retires the buffer and its views (`Repointed.retired`).
-/

namespace Ruse.Core

open Ruse.Lib

namespace Workspace

variable {ws ws' : Workspace} {id : Nat} {buf : Buffer}

/-- One step from `ws` to `ws'`: the buffers it is not about keep their document, and no
id that was given is given again. -/
structure Stepped (ws ws' : Workspace) (touched : Nat → Prop) : Prop where
  sound : ws'.Sound
  grows : ws.docs.length ≤ ws'.docs.length
  retired : ∀ id ≤ ws.docs.length, ws.document id = none → ws'.document id = none
  kept : ∀ id buf, ws.document id = some buf → ¬ touched id → ws'.document id = some buf

theorem Steady.stepped (h : Steady ws ws') (touched : Nat → Prop) :
    Stepped ws ws' touched where
  sound := h.sound
  grows := Nat.le_of_eq (congrArg List.length h.docs).symm
  retired := fun id _ hid => (document_congr h.docs id).trans hid
  kept := fun id _ hid _ => (document_congr h.docs id).trans hid

/-! ## Cycling -/

/-- Cycling buffers leaves the documents alone. -/
theorem cycleBuffer_steady (h : ws.Sound) (forward : Bool) :
    ∃ ws', ws.cycleBuffer forward = some ws' ∧ Steady ws ws' := by
  obtain ⟨vid, r, buf, -, -, -, -, hfocused⟩ := h.focused
  unfold cycleBuffer
  dsimp only
  split
  · exact ⟨_, rfl, .refl h⟩
  rw [hfocused, Option.bind_some]
  cases hpos : (ws.bufferOrder.filter ws.docIsLive).idxOf? r.doc with
  | none => exact ⟨_, rfl, .refl h⟩
  | some pos =>
    dsimp only
    have hnext : (if forward = true then (pos + 1) % (ws.bufferOrder.filter ws.docIsLive).length
        else (pos + (ws.bufferOrder.filter ws.docIsLive).length - 1) %
          (ws.bufferOrder.filter ws.docIsLive).length) <
        (ws.bufferOrder.filter ws.docIsLive).length := by
      split
      · exact Nat.mod_lt _ (by omega)
      · exact Nat.mod_lt _ (by omega)
    rw [List.getElem?_eq_getElem hnext, Option.bind_some]
    obtain ⟨out, hout, hsteady⟩ := focusBuffer_steady h _
    exact ⟨out.1, by rw [hout, Option.map_some], hsteady⟩

/-! ## Removing a buffer -/

theorem replacementOf_live {r : Nat} (h : ws.replacementOf id = some r) :
    r ≠ id ∧ ∃ buf, ws.document r = some buf := by
  have hlive (hr : (r != id && ws.docIsLive r) = true) : r ≠ id ∧ ∃ buf, ws.document r = some buf := by
    rw [Bool.and_eq_true, bne_iff_ne] at hr
    exact ⟨hr.1, Option.isSome_iff_exists.mp hr.2⟩
  rcases Option.or_eq_some_iff.mp h with halt | ⟨-, hfind⟩
  · exact hlive (Option.filter_eq_some_iff.mp halt).2
  · obtain ⟨p, -, hp⟩ := Option.bind_eq_some_iff.mp hfind
    have hkept := List.find?_some hp
    exact hlive hkept

/-- The first `k` windows show no view of buffer `id`. -/
structure Repointed (ws : Workspace) (id k : Nat) (ws' : Workspace) : Prop where
  steady : Steady ws ws'
  rest : ws' = { ws with views := ws'.views, windows := ws'.windows }
  length : ws'.windows.length = ws.windows.length
  away : ∀ i < k, ∀ vid, ws'.windows[i]? = some vid → ∀ r, ws'.views.get vid = some r → r.doc ≠ id

/-- One more window is pointed away from the removed buffer. -/
theorem repoint_next {rep k : Nat} (hrep : ws.document rep = some buf) (hne : rep ≠ id)
    (hk : k < ws.windows.length) (h : Repointed ws id k ws') :
    ∃ ws'', repoint id rep ws' k = some ws'' ∧ Repointed ws id (k + 1) ws'' := by
  have hsound := h.steady.sound
  have hk' : k < ws'.windows.length := h.length ▸ hk
  have hrep' : ws'.document rep = some buf := (document_congr h.steady.docs rep).trans hrep
  obtain ⟨r, hr⟩ := hsound.windows _ (List.getElem_mem hk')
  unfold repoint
  rw [List.getElem?_eq_getElem hk', Option.bind_some, if_pos (Arena.lt_of_get hr), hr]
  by_cases hdoc : r.doc = id
  · rw [if_pos (by simp [hdoc])]
    have hpush := pushView_sound hsound hrep'
    have hnew : ws'.views.length ∉ ws'.windows := fun hin => by
      obtain ⟨r', hr'⟩ := hsound.windows _ hin
      exact Nat.lt_irrefl _ (Arena.lt_of_get hr')
    have hget := pushView_get ws' rep
    refine ⟨_, rfl, ⟨?_, h.steady.docs, fun hp => ?_⟩, ?_, ?_, ?_⟩
    · refine hpush.with_windows ?_ (hsound.apart.set hnew) ?_
      · intro vid hvid
        rcases List.mem_or_eq_of_mem_set hvid with hold | rfl
        · exact hpush.windows vid hold
        · exact ⟨_, (hget ws'.views.length).trans (if_pos rfl)⟩
      · rw [List.length_set]
        exact hsound.focus
    · exact pushView_inPlace (h.steady.inPlace hp) rep
    · rw [h.rest]
    · exact List.length_set.trans h.length
    · intro i hi vid hvid r' hr'
      have hvid' : (ws'.windows.set k ws'.views.length)[i]? = some vid := hvid
      replace hr' : (ws'.pushView rep).1.views.get vid = some r' := hr'
      rw [List.getElem?_set] at hvid'
      split at hvid'
      · cases hvid'
        rw [hget, if_pos rfl] at hr'
        cases hr'
        exact hne
      · rename_i hik
        rw [hget] at hr'
        split at hr'
        · cases hr'
          exact hne
        · exact h.away i (by omega) vid hvid' r' hr'
  · rw [if_neg (by simp [hdoc])]
    refine ⟨ws', rfl, { h with away := ?_ }⟩
    intro i hi vid hvid r' hr'
    by_cases hik : i = k
    · subst hik
      rw [List.getElem?_eq_getElem hk'] at hvid
      cases hvid
      rw [hr] at hr'
      cases hr'
      exact hdoc
    · exact h.away i (by omega) vid hvid r' hr'

/-- After the last window none shows the buffer. -/
theorem repoint_all (h : ws.Sound) {rep : Nat} (hrep : ws.document rep = some buf) (hne : rep ≠ id)
    {k : Nat} (hk : k ≤ ws.windows.length) :
    ∃ ws', (List.range k).foldlM (repoint id rep) ws = some ws' ∧ Repointed ws id k ws' := by
  induction k with
  | zero => exact ⟨ws, rfl, .refl h, rfl, rfl, fun i hi => absurd hi (Nat.not_lt_zero i)⟩
  | succ k ih =>
    obtain ⟨ws1, hrun, hspec⟩ := ih (by omega)
    obtain ⟨ws2, hstep, hspec2⟩ := repoint_next hrep hne hk hspec
    refine ⟨ws2, ?_, hspec2⟩
    rw [List.range_succ, List.foldlM_append, hrun]
    show [k].foldlM (repoint id rep) ws1 = some ws2
    rw [List.foldlM_cons, hstep]
    rfl

/-- Buffer `id` and its views retired, once no window shows one of them. -/
theorem Repointed.retired (hid : ws.document id = some buf)
    (h : Repointed ws id ws.windows.length ws') :
    let gone : Workspace :=
      { ws' with
        views := ws'.views.map fun v => v.filter (·.doc != id)
        docs := ws'.docs.put (id - 1) none
        names := ws'.names.set (id - 1) none
        bufferOrder := ws'.bufferOrder.filter (· != id)
        alt := if ws'.alt = some id then none else ws'.alt }
    Stepped ws gone (· = id) ∧ (ws.InPlace → gone.InPlace) := by
  intro gone
  have hsound := h.steady.sound
  have hid' : ws'.document id = some buf := (document_congr h.steady.docs id).trans hid
  have hdoc (j : Nat) : gone.document j = if j = id then none else ws'.document j :=
    document_put hid' rfl j
  have hlive (j : Nat) (b : Buffer) : gone.document j = some b ↔ j ≠ id ∧ ws'.document j = some b := by
    rw [hdoc]
    split
    · exact ⟨nofun, fun hc => absurd ‹_› hc.1⟩
    · exact ⟨fun hb => ⟨‹_›, hb⟩, And.right⟩
  have hview (vid : Nat) (r : Resident) :
      gone.views.get vid = some r ↔ ws'.views.get vid = some r ∧ r.doc ≠ id := by
    show Arena.get (ws'.views.map fun v => v.filter (·.doc != id)) vid = some r ↔ _
    rw [Arena.get_filter, Option.filter_eq_some_iff, bne_iff_ne]
  have hslot (i : Nat) (b : Buffer) (hb : gone.docs.get i = some b) : ws'.docs.get i = some b := by
    have hb' : (ws'.docs.put (id - 1) none).get i = some b := hb
    rw [Arena.get_put] at hb'
    split at hb'
    · cases hb'
    · exact hb'
  refine ⟨⟨?_, ?_, ?_, ?_⟩, ?_⟩
  · refine { names := ?_, ids := ?_, shows := ?_, bounded := ?_, windows := ?_, apart := hsound.apart,
             focus := hsound.focus, once := hsound.once.filter _, lists := ?_, alt := ?_,
             pins := hsound.pins, unpinned := ?_, store := ?_ }
    · show (ws'.names.set (id - 1) none).length = (ws'.docs.put (id - 1) none).length
      rw [List.length_set, Arena.put_length, hsound.names]
    · exact fun i b hb => hsound.ids i b (hslot i b hb)
    · intro vid r hr
      obtain ⟨hr', hne⟩ := (hview vid r).mp hr
      obtain ⟨b, hb⟩ := hsound.shows vid r hr'
      exact ⟨b, (hlive r.doc b).mpr ⟨hne, hb⟩⟩
    · exact fun vid r hr => hsound.bounded vid r ((hview vid r).mp hr).1
    · intro vid hvid
      obtain ⟨r, hr⟩ := hsound.windows vid hvid
      obtain ⟨i, hi⟩ := List.mem_iff_getElem?.mp hvid
      have hlt : i < ws.windows.length := h.length ▸ (List.getElem?_eq_some_iff.mp hi).1
      exact ⟨r, (hview vid r).mpr ⟨hr, h.away i hlt vid hi r hr⟩⟩
    · intro j
      show j ∈ ws'.bufferOrder.filter (· != id) ↔ _
      rw [List.mem_filter, hsound.lists, bne_iff_ne]
      constructor
      · rintro ⟨⟨b, hb⟩, hne⟩
        exact ⟨b, (hlive j b).mpr ⟨hne, hb⟩⟩
      · rintro ⟨b, hb⟩
        obtain ⟨hne, hb'⟩ := (hlive j b).mp hb
        exact ⟨⟨b, hb'⟩, hne⟩
    · intro j hj
      have hj' : (if ws'.alt = some id then none else ws'.alt) = some j := hj
      split at hj'
      · cases hj'
      · rename_i hne
        obtain ⟨b, hb⟩ := hsound.alt j hj'
        exact ⟨b, (hlive j b).mpr ⟨fun heq => hne (heq ▸ hj'), hb⟩⟩
    · exact fun i b hb => hsound.unpinned i b (hslot i b hb)
    · exact fun vid r hr => hsound.store vid r ((hview vid r).mp hr).1
  · show ws.docs.length ≤ (ws'.docs.put (id - 1) none).length
    rw [Arena.put_length, h.steady.docs]
  · intro j hj hnone
    rw [hdoc]
    split
    · rfl
    · exact (document_congr h.steady.docs j).trans hnone
  · exact fun j b hb hne => (hlive j b).mpr ⟨hne, (document_congr h.steady.docs j).trans hb⟩
  · intro hplace vid r b hr hb
    exact h.steady.inPlace hplace vid r b ((hview vid r).mp hr).1 ((hlive r.doc b).mp hb).2

theorem addBuffer_stepped (h : ws.Sound) (bytes : Bytes) (name : Option String)
    (touched : Nat → Prop) : Stepped ws (ws.addBuffer bytes name).1 touched where
  sound := addBuffer_sound h bytes name
  grows := by
    show ws.docs.length ≤ (ws.docs ++ [some _]).length
    rw [List.length_append]
    exact Nat.le_add_right _ _
  retired := by
    intro id hle hnone
    rw [addBuffer_document, if_neg (by omega), hnone]
  kept := fun _ _ hid _ => addBuffer_kept bytes name hid

theorem Stepped.trans {a b c : Workspace} {touched : Nat → Prop} (h : Stepped a b touched)
    (h' : Stepped b c touched) : Stepped a c touched where
  sound := h'.sound
  grows := h.grows.trans h'.grows
  retired := fun id hle hnone => h'.retired id (hle.trans h.grows) (h.retired id hle hnone)
  kept := fun id buf hid hne => h'.kept id buf (h.kept id buf hid hne) hne

/-- The buffer the windows are left on: one there is, or a scratch buffer made for it. -/
theorem removeBuffer_cases (h : ws.Sound) (hid : ws.document id = some buf) :
    ∃ mid ws', (mid = ws ∨ mid = (ws.addBuffer [] none).1) ∧
      Repointed mid id mid.windows.length ws' ∧
      ws.removeBuffer id = some
        ({ ws' with
          views := ws'.views.map fun v => v.filter (·.doc != id)
          docs := ws'.docs.put (id - 1) none
          names := ws'.names.set (id - 1) none
          bufferOrder := ws'.bufferOrder.filter (· != id)
          alt := if ws'.alt = some id then none else ws'.alt }, true) := by
  unfold removeBuffer
  rw [docIsLive, hid]
  dsimp only [Option.isSome_some, Bool.not_true]
  rw [if_neg (by simp)]
  cases hrep : ws.replacementOf id with
  | some rep =>
    obtain ⟨hne, other, hother⟩ := replacementOf_live hrep
    obtain ⟨ws', hrun, hspec⟩ := repoint_all h hother hne (Nat.le_refl _)
    refine ⟨ws, ws', .inl rfl, hspec, ?_⟩
    dsimp only
    rw [hrun, Option.map_some]
  | none =>
    -- the last buffer is replaced by a scratch one
    have hnew : (ws.addBuffer [] none).1.document (ws.docs.length + 1) =
        some ⟨ws.docs.length + 1, (Document.new []).markSaved⟩ := by
      rw [addBuffer_document, if_pos rfl]
    have hne : ws.docs.length + 1 ≠ id := by
      have := document_le hid
      omega
    obtain ⟨ws', hrun, hspec⟩ := repoint_all (addBuffer_sound h [] none) hnew hne (Nat.le_refl _)
    refine ⟨_, ws', .inr rfl, hspec, ?_⟩
    show ((List.range (ws.addBuffer [] none).1.windows.length).foldlM
      (repoint id (ws.docs.length + 1)) (ws.addBuffer [] none).1).map _ = _
    rw [hrun, Option.map_some]

theorem removeBuffer_stepped (h : ws.Sound) (id : Nat) :
    ∃ r, ws.removeBuffer id = some r ∧ Stepped ws r.1 (· = id) ∧ (ws.InPlace → r.1.InPlace) := by
  cases hid : ws.document id with
  | none =>
    unfold removeBuffer
    rw [docIsLive, hid]
    exact ⟨_, rfl, (Steady.refl h).stepped _, fun hp => hp⟩
  | some buf =>
    obtain ⟨mid, ws', rfl | rfl, hspec, hrun⟩ := removeBuffer_cases h hid
    · exact ⟨_, hrun, hspec.retired hid⟩
    · obtain ⟨hstep, hplace⟩ := hspec.retired (addBuffer_kept [] none hid)
      exact ⟨_, hrun, (addBuffer_stepped h [] none _).trans hstep,
        fun hp => hplace (addBuffer_inPlace h hp [] none)⟩

end Workspace

end Ruse.Core
