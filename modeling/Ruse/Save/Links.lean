import Ruse.Save.Files

/-!
# The way a path leads

A path leads along symbolic links, in one way only (`FileSystem.after_end`), and what it reads
is at the end of that way. So a change of the file system that leaves the way alone leaves what
the path reads (`Undisturbed.reads_iff`).
-/

namespace Ruse.Save

open Ruse.Core

variable {i n : Nat} {q r : Path}

namespace FileSystem

variable (fs : FileSystem)
/-- `q` lies on the way of `p`. -/
def OnWay (p q : Path) : Prop := ∃ n, fs.after n p = some q

variable {fs}

theorem after_symlink {p : Path} {dest : Bytes → Path} (h : fs.node p = some (.symlink dest))
    (n : Nat) : fs.after (n + 1) p = fs.after n (dest p.dir) := by
  rw [after, h]

theorem after_succ {p : Path} (h : fs.after (n + 1) p = some q) :
    ∃ dest, fs.node p = some (.symlink dest) ∧ fs.after n (dest p.dir) = some q := by
  rw [after] at h
  split at h
  · rename_i dest hp
    exact ⟨dest, hp, h⟩
  · cases h

theorem after_trans {m : Nat} {p : Path} (hm : fs.after m p = some q) (hn : fs.after n q = some r) :
    fs.after (m + n) p = some r := by
  induction m generalizing p with
  | zero =>
    obtain rfl : p = q := by simpa [after] using hm
    rwa [Nat.zero_add]
  | succ m ih =>
    obtain ⟨dest, hp, hrest⟩ := after_succ hm
    rw [Nat.succ_add, after_symlink hp]
    exact ih hrest

theorem OnWay.refl (fs : FileSystem) (p : Path) : fs.OnWay p p := ⟨0, rfl⟩

theorem OnWay.trans {p : Path} (h : fs.OnWay p q) (h' : fs.OnWay q r) : fs.OnWay p r := by
  obtain ⟨m, hm⟩ := h
  obtain ⟨n, hn⟩ := h'
  exact ⟨m + n, after_trans hm hn⟩

/-- Every place on a way that ends lies before its end. -/
theorem after_end {k : Nat} {p : Path} (hk : fs.after k p = some q)
    (hq : ∀ dest, fs.node q ≠ some (.symlink dest)) (hn : fs.after n p = some r) :
    n ≤ k ∧ fs.after (k - n) r = some q := by
  induction n generalizing k p with
  | zero =>
    obtain rfl : p = r := by simpa [after] using hn
    exact ⟨Nat.zero_le k, hk⟩
  | succ n ih =>
    obtain ⟨dest, hp, hrest⟩ := after_succ hn
    cases k with
    | zero =>
      obtain rfl : p = q := by simpa [after] using hk
      exact absurd hp (hq dest)
    | succ k =>
      rw [after_symlink hp] at hk
      obtain ⟨hle, hend⟩ := ih hk hrest
      exact ⟨Nat.succ_le_succ hle, by rwa [Nat.succ_sub_succ]⟩

theorem not_symlink_of_file (h : fs.node q = some (.file i)) :
    ∀ dest, fs.node q ≠ some (.symlink dest) := by
  intro dest hd
  rw [h] at hd
  cases hd

theorem not_symlink_of_none (h : fs.node q = none) :
    ∀ dest, fs.node q ≠ some (.symlink dest) := by
  intro dest hd
  rw [h] at hd
  cases hd

theorem end_unique {p : Path} (hq : fs.OnWay p q) (hr : fs.OnWay p r)
    (hqe : ∀ dest, fs.node q ≠ some (.symlink dest))
    (hre : ∀ dest, fs.node r ≠ some (.symlink dest)) : q = r := by
  obtain ⟨k, hk⟩ := hq
  obtain ⟨n, hn⟩ := hr
  obtain ⟨hle, hend⟩ := after_end hk hqe hn
  obtain ⟨hge, -⟩ := after_end hn hre hk
  obtain rfl : k = n := by omega
  rw [hk] at hn
  exact Option.some.inj hn

theorem not_reads {p : Path} (h : fs.OnWay p q) (hq : fs.node q = none) (b : Bytes) :
    ¬ fs.Reads p b := by
  rintro ⟨n, r, i, hn, hr, -⟩
  obtain rfl := end_unique h ⟨n, hn⟩ (not_symlink_of_none hq) (not_symlink_of_file hr)
  rw [hq] at hr
  cases hr

theorem Reads.of_onWay {p : Path} (h : fs.OnWay p q) (hq : fs.node q = some (.file i)) :
    fs.Reads p (fs.data i) := by
  obtain ⟨n, hn⟩ := h
  exact ⟨n, q, i, hn, hq, rfl⟩

theorem follow_ok {p : Path} {node : Node} (h : fs.follow n p = .ok (q, node)) :
    fs.OnWay p q ∧ fs.node q = some node ∧ ∀ dest, fs.node q ≠ some (.symlink dest) := by
  induction n generalizing p with
  | zero => cases h
  | succ n ih =>
    rw [follow] at h
    split at h
    · rename_i dest hp
      obtain ⟨⟨k, hk⟩, hq, hend⟩ := ih h
      exact ⟨⟨k + 1, by rwa [after_symlink hp]⟩, hq, hend⟩
    · rename_i hnot hp
      cases h
      refine ⟨.refl fs _, hp, fun dest hd => ?_⟩
      rw [hp] at hd
      exact hnot dest (Option.some.inj hd)
    · cases h

theorem fileAt_ok {p : Path} (h : fs.fileAt p = .ok i) :
    ∃ q, fs.OnWay p q ∧ fs.node q = some (.file i) := by
  unfold fileAt at h
  split at h
  · rename_i q j hf
    obtain rfl : j = i := by simpa using h
    obtain ⟨hway, hq, -⟩ := follow_ok hf
    exact ⟨q, hway, hq⟩
  all_goals cases h

end FileSystem

/-- The way of `p` in `fs` is as it was, and so is the file at its end. -/
def Undisturbed (fs : FileSystem) (p : Path) (m : FileSystem) : Prop :=
  ∀ t, fs.OnWay p t → m.node t = fs.node t ∧
    ∀ i, fs.node t = some (.file i) → m.data i = fs.data i

namespace Undisturbed

variable {fs m : FileSystem} {p : Path}

theorem refl (fs : FileSystem) (p : Path) : Undisturbed fs p fs := fun _ _ => ⟨rfl, fun _ _ => rfl⟩

theorem after_eq (h : Undisturbed fs p m) (hq : fs.OnWay p q) (n : Nat) :
    m.after n q = fs.after n q := by
  induction n generalizing q with
  | zero => rfl
  | succ n ih =>
    have hnode := (h q hq).1
    rw [FileSystem.after, FileSystem.after, hnode]
    split
    · rename_i dest hd
      exact ih (hq.trans ⟨1, by rw [FileSystem.after_symlink hd, FileSystem.after]⟩)
    · rfl

theorem onWay_iff (h : Undisturbed fs p m) (hq : fs.OnWay p q) :
    m.OnWay q r ↔ fs.OnWay q r := by
  simp only [FileSystem.OnWay, h.after_eq hq]

/-- What the path reads is what it read. -/
theorem reads_iff (h : Undisturbed fs p m) (b : Bytes) : m.Reads p b ↔ fs.Reads p b := by
  have hafter := fun n => h.after_eq (.refl fs p) n
  constructor
  · rintro ⟨n, q, i, hn, hq, rfl⟩
    rw [hafter] at hn
    obtain ⟨hnode, hdata⟩ := h q ⟨n, hn⟩
    rw [hnode] at hq
    exact ⟨n, q, i, hn, hq, (hdata i hq).symm⟩
  · rintro ⟨n, q, i, hn, hq, rfl⟩
    obtain ⟨hnode, hdata⟩ := h q ⟨n, hn⟩
    exact ⟨n, q, i, (hafter n).trans hn, hnode.trans hq, hdata i hq⟩

end Undisturbed

/-- A way that only ends elsewhere still leads to `q`: the links before it are as they were. -/
theorem onWay_of_links {fs m : FileSystem} {p : Path} (h : fs.OnWay p q)
    (hlinks : ∀ t dest, fs.OnWay p t → t ≠ q → fs.node t = some (.symlink dest) → m.node t = some (.symlink dest)) :
    m.OnWay p q := by
  obtain ⟨n, hn⟩ := h
  induction n generalizing p with
  | zero =>
    obtain rfl : p = q := by simpa [FileSystem.after] using hn
    exact .refl m p
  | succ n ih =>
    obtain ⟨dest, hp, hrest⟩ := FileSystem.after_succ hn
    by_cases hpq : p = q
    · exact hpq ▸ .refl m p
    · have hstep : fs.OnWay p (dest p.dir) := ⟨1, by rw [FileSystem.after_symlink hp, FileSystem.after]⟩
      have hm := hlinks p dest (.refl fs p) hpq hp
      have hon := ih (fun t d ht => hlinks t d (hstep.trans ht)) hrest
      exact FileSystem.OnWay.trans ⟨1, by rw [FileSystem.after_symlink hm, FileSystem.after]⟩ hon

end Ruse.Save
