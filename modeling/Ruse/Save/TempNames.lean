import Ruse.Save.SaveTruth

/-!
# A target named like its own temp file

The other direction: where the sweep of a target removes the file the path reads, or its temp
file is what a dangling link leads to, there are outcomes under which the save does not tell
the truth. Both need a name made for it: the sweep of `target` looks for `.<name>.ruse-tmp-`
names, with `<name>` cut off after 225 bytes, so that 226 dots before the tag are a target
that is one of its own temp files.
-/

namespace Ruse.Save

open Ruse.Core
open Ruse.Lib
open Calls

/-! ## The runs of a save -/

def saved (process : Process) (fs : FileSystem) (path : Path) (bytes : Bytes) (opts : Opts)
    (os : Outcomes) : Played Call FileSystem (Except SaveError Written) :=
  play (FileSystem.answer os) (writeWith process path bytes opts) 0 fs

structure Truthful (fs : FileSystem) (path : Path) (bytes : Bytes) (os : Outcomes)
    (run : Played Call FileSystem (Except SaveError Written)) : Prop where
  /-- Until the file is opened to be overwritten, the target has its old text or the new bytes. -/
  moments : ∀ m ∈ run.log, m.2.opened = fs.opened →
    (∀ b, m.2.Reads path b ↔ fs.Reads path b) ∨ m.2.Reads path bytes
  ok : ∀ written, run.value = .ok written → run.state.Reads path bytes
  untouched : ∀ err, run.value = .error (.untouched err) →
    ∀ b, run.state.Reads path b ↔ fs.Reads path b
  notDurable : ∀ p err, run.value = .error (.notDurable p err) → run.state.Reads path bytes
  /-- A save that fails before the rename leaves no new name, if it may remove its own. -/
  names : ∀ e, run.value = .error e → (∀ dir err, e ≠ .notDurable (.dir dir) err) →
    (∀ n p, fs.node p = none → (os n (.removeFile p)).err = none) →
    ∀ p, fs.node p = none → run.state.node p = none

theorem Clear.truthful {process : Process} {fs : FileSystem} {path : Path} {opts : Opts}
    (h : Clear process fs path) (hback : opts.backup = none) (bytes : Bytes) (os : Outcomes) :
    Truthful fs path bytes os (saved process fs path bytes opts os) := by
  obtain ⟨hlog, hend⟩ := @ensures_writeWith process fs path bytes opts os hback h 0 fs rfl
  unfold saved
  generalize play (FileSystem.answer os) (writeWith process path bytes opts) 0 fs = run at hlog hend
  obtain ⟨log, state, value⟩ := run
  refine ⟨hlog, fun w hw => ?_, fun err he => ?_, fun p err he => ?_, fun e he => ?_⟩
  all_goals dsimp only at *
  · rw [hw] at hend
    exact hend
  · rw [he] at hend
    exact hend.untouched err rfl
  · rw [he] at hend
    exact hend.notDurable p err rfl
  · rw [he] at hend
    exact hend.names

/-! ## Outcomes that lead there -/

def Outcome.fine : Outcome := ⟨none, 0, false, ⟨1, 0, 0, 0⟩, []⟩

def Outcome.failing : Outcome := ⟨some .other, 0, false, ⟨1, 0, 0, 0⟩, []⟩

/-- The links are followed to `t`, and `q` is found beside it. -/
def sweepOutcome (t q : Path) : Call → Outcome
  | .symlinkMetadata p => if p = t ∧ t ≠ q then .failing else .fine
  | .readDir _ => { Outcome.fine with names := [q.name] }
  | _ => .fine

/-- The links are followed to `t`, whose temp file is created, and nothing else is done. -/
def tempOutcome (t q : Path) (rand : Nat) : Call → Outcome
  | .symlinkMetadata p => if p = t ∧ t ≠ q then .failing else .fine
  | .readLink _ => .fine
  | .random => { Outcome.fine with count := rand }
  | .createNew _ => .fine
  | _ => .failing

/-- The first call fails where it would break the link. -/
def afterFirst (opts : Opts) (calm : Call → Outcome) : Outcomes := fun n c =>
  if n = 0 ∧ opts.breakSymlink then .failing else calm c

section
variable {fs : FileSystem} {calm : Call → Outcome} {t q : Path}

theorem ensures_isKind_calm (p : Path) (kind : Kind) :
    Ensures (FileSystem.answer fun _ => calm) (· = fs) (fun _ => True) (isKind p kind)
      fun yes s => s = fs ∧
        (yes = true ↔ (calm (.symlinkMetadata p)).err = none ∧ fs.kindOf p = .ok kind) := by
  refine .bind (Q := fun r s => s = fs ∧ r = (calm (.symlinkMetadata p)).asks (fs.kindOf p))
    (.ask fun n s hs => ⟨trivial, hs, by rw [hs]; rfl⟩) fun r => ?_
  have hiff : r = (calm (.symlinkMetadata p)).asks (fs.kindOf p) →
      (r = .ok kind ↔ (calm (.symlinkMetadata p)).err = none ∧ fs.kindOf p = .ok kind) := by
    rintro rfl
    unfold Outcome.asks
    cases (calm (.symlinkMetadata p)).err <;> simp
  cases r with
  | ok k => exact .pure fun s hs => ⟨hs.1, by rw [← hiff hs.2]; simp⟩
  | error e => exact .pure fun s hs => ⟨hs.1, by rw [← hiff hs.2]; simp⟩

/-- The links are followed to the first place that is `t`. -/
theorem ensures_resolve_calm
    (hmeta : ∀ p, (calm (.symlinkMetadata p)).err = if p = t ∧ t ≠ q then some .other else none)
    (hread : ∀ p, (calm (.readLink p)).err = none)
    (hq : t = q → ∀ dest, fs.node t ≠ some (.symlink dest)) {j fuel : Nat} (hj : j < fuel)
    {p : Path} (hp : fs.after j p = some t) (hfirst : ∀ k < j, fs.after k p ≠ some t) :
    Ensures (FileSystem.answer fun _ => calm) (· = fs) (fun _ => True)
      (resolveWriteTarget fuel p) fun r s => r = .ok t ∧ s = fs := by
  induction j generalizing fuel p with
  | zero =>
    obtain ⟨fuel, rfl⟩ : ∃ n, fuel = n + 1 := ⟨fuel - 1, by omega⟩
    obtain rfl : p = t := by simpa [FileSystem.after] using hp
    refine .bind (ensures_isKind_calm p .symlink) fun isLink => ?_
    cases isLink with
    | false => exact .pure fun s hs => ⟨rfl, hs.1⟩
    | true =>
      refine fun n s hs => absurd (hs.2.mp rfl) fun h => ?_
      obtain ⟨herr, hkind⟩ := h
      by_cases htq : p = q
      · unfold FileSystem.kindOf at hkind
        cases hnode : fs.node p with
        | none => simp [hnode] at hkind
        | some node =>
          cases node with
          | symlink dest => exact hq htq dest hnode
          | _ => simp [hnode, Node.kind] at hkind
      · rw [hmeta, if_pos ⟨rfl, htq⟩] at herr
        cases herr
  | succ j ih =>
    obtain ⟨fuel, rfl⟩ : ∃ n, fuel = n + 1 := ⟨fuel - 1, by omega⟩
    obtain ⟨dest, hnode, hrest⟩ := FileSystem.after_succ hp
    have hne : p ≠ t := fun heq => hfirst 0 (Nat.succ_pos j) (by rw [heq]; rfl)
    refine .bind (ensures_isKind_calm p .symlink) fun isLink => ?_
    cases isLink with
    | false =>
      refine fun n s hs => absurd (hs.2.mpr ⟨?_, ?_⟩) (by simp)
      · rw [hmeta, if_neg fun h => hne h.1]
      · simp [FileSystem.kindOf, hnode, Node.kind]
    | true =>
      refine .bind (Q := fun r s => r = .ok (dest p.dir) ∧ s = fs) (.ask fun n s hs => ?_)
        fun r => .lift fun hr => ?_
      · refine ⟨trivial, ?_, hs.1⟩
        simp [FileSystem.answer, Outcome.asks, hread, FileSystem.readLink, hs.1, hnode]
      · subst hr
        refine ih (by omega) hrest fun k hk heq => hfirst (k + 1) (by omega) ?_
        rw [FileSystem.after_symlink hnode]
        exact heq

/-- The sweep lists `q` alone, and removes it. -/
theorem ensures_sweep_calm {process : Process} {i pid : Nat} (hswept : process.swept t = false)
    (hdir : q.dir = t.dir) (hq : fs.node q = some (.file i))
    (hpid : tempWriter q.name (tempPrefix t) = some pid) (hmine : pid ≠ process.pid)
    (hzero : pid ≠ 0) :
    Ensures (FileSystem.answer fun _ => sweepOutcome t q) (· = fs) (fun _ => True)
      (sweepStaleTemps process t) fun _ s => s = fs.remove q := by
  have hname : t.withFileName q.name = q := by rw [Path.withFileName, ← hdir]
  have hfine : t = q → (sweepOutcome t q (.symlinkMetadata q)).err = none := by
    rintro rfl
    simp [sweepOutcome, Outcome.fine]
  have hfound : (sweepOutcome t q (.symlinkMetadata q)).err = none ∧ fs.kindOf q = .ok .file := by
    refine ⟨?_, by simp [FileSystem.kindOf, hq, Node.kind]⟩
    by_cases htq : t = q
    · exact hfine htq
    · simp [sweepOutcome, Ne.symm htq, Outcome.fine]
  unfold sweepStaleTemps
  rw [hswept]
  refine .bind (Q := fun r s => r = .ok [q.name] ∧ s = fs) (.ask fun n s hs => ?_) fun r =>
    .lift fun hr => ?_
  · refine ⟨trivial, ?_, hs⟩
    have hthere : (fs.node ⟨t.dir, q.name⟩).isSome := by
      rw [← hdir, hq]
      rfl
    simp [FileSystem.answer, Outcome.asks, sweepOutcome, Outcome.fine, FileSystem.listed, hs, hthere]
  · subst hr
    refine .bind (Q := fun _ s => s = fs.remove q) ?_ fun _ => .pure fun s hs => hs
    unfold sweepName
    rw [hpid, hname]
    refine .bind (ensures_isKind_calm q .file) fun isFile => .pre (.lift fun hyes => ?_)
      fun s hs => ⟨hs.2.mpr hfound, hs.1⟩
    rw [if_pos ⟨hmine, hyes⟩]
    have halive : Ensures (FileSystem.answer fun _ => sweepOutcome t q) (· = fs) (fun _ => True)
        (isAlive pid) fun yes s => yes = false ∧ s = fs := by
      unfold isAlive
      split
      · exact .pure fun s hs => ⟨rfl, hs⟩
      · refine .ask fun n s hs => ⟨trivial, ?_, hs⟩
        simp [FileSystem.answer, hzero, sweepOutcome, Outcome.fine]
    refine halive.bind fun yes => .lift fun hno => ?_
    subst hno
    refine ensures_attempt (fun s _ => ⟨trivial, trivial⟩) (fun s hs => by rw [hs]) ?_
    intro n s hs hfail
    obtain ⟨e, he⟩ := hfail rfl
    simp [FileSystem.unlink, hs, hq] at he

theorem not_oldOrNew_remove {path : Path} {i : Nat} (hway : fs.OnWay path q)
    (hq : fs.node q = some (.file i)) (bytes : Bytes) : ¬ OldOrNew fs path bytes (fs.remove q) := by
  have hm : (fs.remove q).OnWay path q := onWay_of_links hway fun t dest _ hne hd => by
    simpa [FileSystem.remove, FileSystem.put, hne] using hd
  have hnone := FileSystem.not_reads hm (by simp [FileSystem.remove, FileSystem.put])
  rintro (hold | hnew)
  · exact hnone _ ((hold _).mpr (.of_onWay hway hq))
  · exact hnone _ hnew

end

/-! ## The runs that go wrong -/

section
variable {process : Process} {fs : FileSystem} {path t q : Path} {bytes : Bytes} {opts : Opts}

/-- The save once the link is not to be broken. -/
def followed (process : Process) (path : Path) (bytes : Bytes) (opts : Opts) :
    Calls (Except SaveError Written) := do
  match ← resolveWriteTarget maxSymlinkHops path with
  | .error e => pure (.error (.untouched e))
  | .ok target => saveAt process path target false bytes opts

/-- After its first call a save goes on as any other. -/
theorem saved_afterFirst (process : Process) (fs : FileSystem) (path : Path) (bytes : Bytes)
    (opts : Opts) (calm : Call → Outcome) :
    ∃ n log, saved process fs path bytes opts (afterFirst opts calm) =
      let rest := play (FileSystem.answer fun _ => calm) (followed process path bytes opts) n fs
      ⟨log ++ rest.log, rest.state, rest.value⟩ := by
  have hrest : followed process path bytes opts = (do
      match ← (if false then pure (.ok path) else resolveWriteTarget maxSymlinkHops path) with
      | .error e => pure (.error (.untouched e))
      | .ok target => saveAt process path target false bytes opts) := rfl
  have hcalm (n : Nat) (hn : n ≠ 0 ∨ opts.breakSymlink = false) :
      play (FileSystem.answer (afterFirst opts calm)) (followed process path bytes opts) n fs =
        play (FileSystem.answer fun _ => calm) (followed process path bytes opts) n fs := by
    refine play_congr (fun k hk i s => ?_) _ _
    have hsame : afterFirst opts calm k = calm := by
      funext c
      refine if_neg fun h => ?_
      rcases hn with hn | hn
      · omega
      · simp [hn] at h
    cases i <;> simp only [FileSystem.answer, hsame]
  unfold saved writeWith
  cases hbreak : opts.breakSymlink with
  | false =>
    refine ⟨0, [], ?_⟩
    rw [← hcalm 0 (.inr hbreak), hrest]
    rfl
  | true =>
    refine ⟨1, [(.symlinkMetadata path, fs)], ?_⟩
    rw [← hcalm 1 (.inl (by decide)), hrest, if_pos rfl, play_bind]
    have hfirst : play (FileSystem.answer (afterFirst opts calm)) (isKind path .symlink) 0 fs =
        ⟨[(.symlinkMetadata path, fs)], fs, false⟩ := by
      unfold isKind
      rw [play_bind]
      simp [play_ask, FileSystem.answer, afterFirst, hbreak, Outcome.asks, Outcome.failing]
    rw [hfirst]
    rfl

theorem FileSystem.after_first {n : Nat} (h : fs.after n path = some t) :
    ∃ j ≤ n, fs.after j path = some t ∧ ∀ k < j, fs.after k path ≠ some t := by
  have hex : ∃ j, fs.after j path = some t := ⟨n, h⟩
  exact ⟨Nat.find hex, Nat.find_min' hex h, Nat.find_spec hex, fun k hk => Nat.find_min hex hk⟩

/-- The sweep of a place the links lead to takes away what the path reads. -/
theorem not_truthful_of_sweep {n : Nat} (hn : n < maxSymlinkHops) (ht : fs.after n path = some t)
    (h : ¬ SweepClear process fs t) (bytes : Bytes) (opts : Opts) :
    ∃ os, ¬ Truthful fs path bytes os (saved process fs path bytes opts os) := by
  unfold SweepClear at h
  push Not at h
  obtain ⟨hswept, q, i, hway, hq, hdir, pid, hpid, hmine, hzero⟩ := h
  obtain ⟨j, hj, hafter, hfirst⟩ := FileSystem.after_first ht
  have hresolve := @ensures_resolve_calm fs (sweepOutcome t q) t q
    (fun p => by unfold sweepOutcome; dsimp only; split <;> rfl) (fun p => rfl)
    (fun heq => heq ▸ FileSystem.not_symlink_of_file hq) j maxSymlinkHops (by omega) path hafter
    hfirst
  have hsweep := ensures_sweep_calm hswept hdir hq hpid hmine hzero
  have hgone : fs ≠ fs.remove q := fun heq => by
    have hnone : (fs.remove q).node q = none := by simp [FileSystem.remove, FileSystem.put]
    rw [← heq, hq] at hnone
    cases hnone
  have hvisits : Visits (FileSystem.answer fun _ => sweepOutcome t q) (· = fs)
      (followed process path bytes opts) (· = fs.remove q) := by
    refine .later hresolve fun r => .lift fun hr => ?_
    subst hr
    exact .first (.of_end hsweep fun s hs => hs ▸ hgone)
  obtain ⟨k, log, hsaved⟩ := saved_afterFirst process fs path bytes opts (sweepOutcome t q)
  obtain ⟨m, hm, hremoved⟩ := hvisits k fs rfl
  refine ⟨afterFirst opts (sweepOutcome t q), fun htrue => ?_⟩
  refine not_oldOrNew_remove (FileSystem.OnWay.trans ⟨n, ht⟩ hway) hq bytes ?_
  rw [← hremoved]
  refine htrue.moments m ?_ (by rw [hremoved]; rfl)
  rw [hsaved]
  exact List.mem_append_right _ hm

/-- An empty new file is left at `q`. -/
structure LeftEmpty (fs : FileSystem) (q : Path) (s : FileSystem) : Prop where
  node : s.node q = some (.file fs.next)
  data : s.data fs.next = []
  rest : ∀ p ≠ q, s.node p = fs.node p

/-- The temp file of a place the links lead to is created at the end of the links. -/
theorem ensures_temp_calm {rand : Nat} (hrand : rand < 2 ^ 32) (hq : fs.node q = none)
    (htemp : q = tempPath process t rand) :
    Ensures (FileSystem.answer fun _ => tempOutcome t q rand) (· = fs) (fun _ => True)
      (replace process t bytes none opts.fsync) fun r s =>
        r = .error (.fail (.untouched .other)) ∧ LeftEmpty fs q s := by
  have hcreated : Ensures (FileSystem.answer fun _ => tempOutcome t q rand) (· = fs)
      (fun _ => True) (createTemp process t tempAttempts none) fun r s =>
        r = .ok (q, fs.next) ∧ s = fs.create q := by
    refine .bind (Q := fun r s => r = rand ∧ s = fs) (.ask fun n s hs => ?_) fun r =>
      .lift fun hr => ?_
    · refine ⟨trivial, ?_, hs⟩
      simpa [FileSystem.answer, tempOutcome] using hrand
    · subst hr
      refine .bind (Q := fun r s => r = .ok fs.next ∧ s = fs.create q) (.ask fun n s hs => ?_)
        fun r => .lift fun hr => ?_
      · simp [FileSystem.answer, ← htemp, hs, FileSystem.createNew, hq, tempOutcome, Outcome.fine,
          Outcome.does, Outcome.asks]
      · subst hr
        exact .pure fun s hs => ⟨by rw [htemp], hs⟩
  have hfill : Ensures (FileSystem.answer fun _ => tempOutcome t q rand) (· = fs.create q)
      (fun _ => True) (fillTemp fs.next t bytes none opts.fsync) (Ending (fun _ _ => False)
        fun e s => e = .fail (.untouched .other) ∧ s = (fs.create q).setData fs.next []) := by
    refine .andOk (Q := fun _ _ => False) (.cases (Q := fun _ _ => False)
      (E := fun e s => e = .other ∧ s = (fs.create q).setData fs.next [])
      (.ask fun n s hs => ⟨trivial, ?_⟩) (fun _ => .ok fun s hs => hs)
      fun e => .error fun s hs => ⟨by rw [hs.1], hs.2⟩) fun _ n s hs => hs.elim
    simp [FileSystem.answer, hs, tempOutcome, Outcome.failing, Outcome.writes, Ending,
      FileSystem.write, FileSystem.create]
  refine hcreated.bind fun r => .lift fun hr => ?_
  subst hr
  refine .cases (Q := fun _ _ => False)
    (E := fun e s => e = .fail (.untouched .other) ∧ s = (fs.create q).setData fs.next [])
    (.andOk hfill fun _ n s hs => hs.elim) (fun _ n s hs => hs.elim) fun e => .lift fun he => ?_
  subst he
  have hdrop : Ensures (FileSystem.answer fun _ => tempOutcome t q rand)
      (· = (fs.create q).setData fs.next []) (fun _ => True) (attempt q)
      fun _ s => s = (fs.create q).setData fs.next [] :=
    .bind (.ask fun n s hs => ⟨trivial, hs⟩) fun _ => .pure fun s hs => hs
  refine hdrop.bind fun _ => .pure fun s hs => ?_
  subst hs
  refine ⟨rfl, ⟨?_, ?_, fun p hp => ?_⟩⟩
  · simp [FileSystem.setData, FileSystem.create]
  · simp [FileSystem.setData]
  · simp [FileSystem.setData, FileSystem.create, hp]

/-- Where that temp file is created the save says that it left the target alone, which is not so. -/
theorem not_truthful_of_temp {n : Nat} (hn : n < maxSymlinkHops) (ht : fs.after n path = some t)
    (h : ¬ TempClear process fs t) (bytes : Bytes) (opts : Opts) (hback : opts.backup = none) :
    ∃ os, ¬ Truthful fs path bytes os (saved process fs path bytes opts os) := by
  unfold TempClear at h
  push Not at h
  obtain ⟨q, hway, hq, rand, hrand, htemp⟩ := h
  obtain ⟨j, hj, hafter, hfirst⟩ := FileSystem.after_first ht
  have hresolve := @ensures_resolve_calm fs (tempOutcome t q rand) t q
    (fun p => by unfold tempOutcome; dsimp only; split <;> rfl) (fun p => rfl)
    (fun heq => heq ▸ FileSystem.not_symlink_of_none hq) j maxSymlinkHops (by omega) path hafter
    hfirst
  have hend : Ensures (FileSystem.answer fun _ => tempOutcome t q rand) (· = fs) (fun _ => True)
      (followed process path bytes opts) fun r s =>
        r = .error (.untouched .other) ∧ LeftEmpty fs q s := by
    refine hresolve.bind fun r => .lift fun hr => ?_
    subst hr
    have hsweep : Ensures (FileSystem.answer fun _ => tempOutcome t q rand) (· = fs)
        (fun _ => True) (sweepStaleTemps process t) fun _ s => s = fs := by
      unfold sweepStaleTemps
      split
      · exact .pure fun s hs => hs
      · refine .bind (Q := fun r s => r = .error .other ∧ s = fs)
          (.ask fun n s hs => ⟨trivial, rfl, hs⟩) fun r => .lift fun hr => ?_
        subst hr
        exact .pure fun s hs => hs
    refine hsweep.bind fun _ => .bind (Q := fun r s => r = .error .other ∧ s = fs)
      (.ask fun n s hs => ⟨trivial, rfl, hs⟩) fun r => .lift fun hr => ?_
    subst hr
    unfold copyMethod backupFirst
    rw [hback]
    refine .bind (Q := fun w s => w = true ∧ s = fs) (.pure fun s hs => ⟨rfl, hs⟩) fun w =>
      .lift fun hw => ?_
    subst hw
    refine .bind (Q := fun _ s => s = fs) (.pure fun s hs => hs) fun _ =>
      .bind (Q := fun r s => r = .ok .none ∧ s = fs) (.pure fun s hs => ⟨rfl, hs⟩) fun r =>
        .lift fun hr => ?_
    subst hr
    refine .bind (Q := fun r s => r = .ok (.error (.untouched .other), .none) ∧ LeftEmpty fs q s)
      ?_ fun r => .lift fun hr => ?_
    · refine (ensures_temp_calm hrand hq htemp).bind fun r => .lift fun hr => ?_
      subst hr
      exact .pure fun s hs => ⟨rfl, hs⟩
    · subst hr
      exact .pure fun s hs => ⟨rfl, hs⟩
  obtain ⟨k, log, hsaved⟩ := saved_afterFirst process fs path bytes opts (tempOutcome t q rand)
  obtain ⟨-, hvalue, hleft⟩ := hend k fs rfl
  refine ⟨afterFirst opts (tempOutcome t q rand), fun htrue => ?_⟩
  have hon : fs.OnWay path q := FileSystem.OnWay.trans ⟨n, ht⟩ hway
  have hreads : (play (FileSystem.answer fun _ => tempOutcome t q rand)
      (followed process path bytes opts) k fs).state.Reads path [] := by
    refine hleft.data ▸ .of_onWay (onWay_of_links hon fun p dest _ hne hd => ?_) hleft.node
    rw [hleft.rest p hne]
    exact hd
  have htold := (htrue.untouched .other (by rw [hsaved]; exact hvalue) []).mp
    (by rw [hsaved]; exact hreads)
  exact FileSystem.not_reads hon hq [] htold

end

/-- A save without backups tells the truth whatever its calls come to, if and only if nothing the
links lead to is one of its target's own temp files. -/
theorem save_truthful_iff (process : Process) (fs : FileSystem) (path : Path) (bytes : Bytes)
    (opts : Opts) :
    (∀ os, Truthful fs path bytes os
        (saved process fs path bytes { opts with backup := none } os)) ↔
      Clear process fs path := by
  constructor
  · intro h
    refine ⟨fun n hn t ht => ?_, fun n hn t ht => ?_⟩
    · by_contra hsweep
      obtain ⟨os, hos⟩ := not_truthful_of_sweep hn ht hsweep bytes { opts with backup := none }
      exact hos (h os)
    · by_contra htemp
      obtain ⟨os, hos⟩ := not_truthful_of_temp hn ht htemp bytes { opts with backup := none } rfl
      exact hos (h os)
  · exact fun h os => h.truthful rfl bytes os

def FileSystem.empty : FileSystem := ⟨fun _ => none, fun _ => [], 0, [], fun _ _ h => by cases h⟩

/-- 226 dots and `.ruse-tmp-99999-deadbeef`. -/
def dotted : Path :=
  ⟨[], List.replicate 226 46 ++ tempTag ++ [57, 57, 57, 57, 57, 45] ++
    [100, 101, 97, 100, 98, 101, 101, 102]⟩

/-- A file of that name is swept as its own temp file: a save that stops then has lost it. -/
theorem save_sweeps_target :
    ¬ ∀ (process : Process) (fs : FileSystem) (path : Path) (bytes : Bytes) (opts : Opts)
        (os : Outcomes), opts.backup = none →
      Truthful fs path bytes os (saved process fs path bytes opts os) := by
  intro h
  have hclear : ¬ SweepClear ⟨1, 0, fun _ => false, fun _ => false, Path.name, fun dir _ => dir,
      fun _ p => (p.dir, false)⟩ ((FileSystem.empty.create dotted).setData 0 [104, 105]) dotted := by
    intro hclear
    have hnode : ((FileSystem.empty.create dotted).setData 0 [104, 105]).node dotted =
        some (.file 0) := by simp [FileSystem.setData, FileSystem.create, FileSystem.empty]
    have hwriter : tempWriter dotted.name (tempPrefix dotted) = some 99999 := by decide +kernel
    rcases hclear rfl dotted 0 (.refl _ _) hnode rfl 99999 hwriter with hmine | hzero
    · exact absurd hmine (by decide)
    · exact absurd hzero (by decide)
  have hafter : ((FileSystem.empty.create dotted).setData 0 [104, 105]).after 0 dotted =
      some dotted := rfl
  obtain ⟨os, hos⟩ := not_truthful_of_sweep (by decide) hafter hclear [110]
    ⟨false, .auto, false, false, true, none⟩
  exact hos (h _ _ _ _ _ os rfl)

end Ruse.Save
