import Ruse.Save.Atomic
import Ruse.Save.Links

/-!
# What a save says is so

Over every outcome of its calls: on the rename path the target reads its old text or the new
bytes at every moment, and what the save reports agrees with what it leaves. The step lemmas
say what each function of the save makes of a file system whose way to the target is
undisturbed (`Still`), whose temp file is being filled (`Filling`) or whose target holds the
new bytes.
-/

namespace Ruse.Save

open Ruse.Core
open Ruse.Lib
open Calls

variable {o : Outcome} {next : FileSystem} {p : Path} {existing : Option Metadata}

/-! ## Single calls -/

section
variable {α : Type} {os : Outcomes} {P I : FileSystem → Prop}

theorem Outcome.asks_ok {r : Except IoError α} {a : α} (h : o.asks r = .ok a) :
    r = .ok a := by
  unfold Outcome.asks at h
  split at h
  · cases h
  · exact h

/-- A call that changes the file system fails without a change, or does what it is for. -/
theorem Outcome.does_ending {fs : FileSystem} {r : Except IoError (α × FileSystem)}
    {Q : α → FileSystem → Prop} {E : IoError → FileSystem → Prop} (hI : I fs)
    (hE : ∀ e, (o.err = none → r = .error e) → E e fs)
    (hQ : ∀ a next, r = .ok (a, next) → I next ∧ Q a next) :
    I (o.does fs r).2 ∧ Ending Q E (o.does fs r).1 (o.does fs r).2 := by
  unfold Outcome.does Outcome.asks
  cases he : o.err with
  | some e => exact ⟨hI, hE e fun h => by rw [he] at h; cases h⟩
  | none =>
    cases hr : r with
    | error e => exact ⟨hI, hE e fun _ => hr⟩
    | ok next => exact hQ next.1 next.2 hr

theorem Outcome.asks_ending {fs : FileSystem} {r : Except IoError α} {Q : α → FileSystem → Prop}
    {E : IoError → FileSystem → Prop} (hE : ∀ e, E e fs) (hQ : ∀ a, r = .ok a → Q a fs) :
    Ending Q E (o.asks r) fs := by
  cases h : o.asks r with
  | error e => exact hE e
  | ok a => exact hQ a (Outcome.asks_ok h)

theorem ensures_quiet {c : Call} (hquiet : ∀ n s, (FileSystem.answer os n c s).2 = s)
    (hi : ∀ s, P s → I s) :
    Ensures (FileSystem.answer os) P I (Prog.ask c) fun _ s => P s := by
  refine .ask fun n s hs => ?_
  rw [hquiet]
  exact ⟨hi s hs, hs⟩

/-- A program that keeps `P` keeps it however it ends. -/
theorem ensures_either {x : Calls (Except IoError α)}
    (h : Ensures (FileSystem.answer os) P I x fun _ s => P s) :
    Ensures (FileSystem.answer os) P I x (Ending (fun _ => P) fun _ => P) := by
  refine h.post fun r s hs => ?_
  cases r <;> exact hs

theorem ensures_isKind (hi : ∀ s, P s → I s) (p : Path) (kind : Kind) :
    Ensures (FileSystem.answer os) P I (isKind p kind) fun yes s =>
      P s ∧ (yes = true → s.kindOf p = .ok kind) := by
  refine .cases (Q := fun k s => P s ∧ s.kindOf p = .ok k) (E := fun _ => P) ?_ (fun k => ?_) ?_
  · exact .ask fun n s hs => ⟨hi s hs, Outcome.asks_ending (fun _ => hs) fun k hk => ⟨hs, hk⟩⟩
  · refine .pure fun s hs => ⟨hs.1, fun hk => ?_⟩
    rw [← beq_iff_eq.mp hk]
    exact hs.2
  · exact fun e => .pure fun s hs => ⟨hs, fun hk => by cases hk⟩

/-- What `unlink` does. -/
theorem unlink_ok {fs : FileSystem} (h : fs.unlink p = .ok next) :
    next = fs.remove p := by
  unfold FileSystem.unlink at h
  split at h
  · cases h
  · exact (Except.ok.inj h).symm
  · cases h

/-- A removal that is attempted removes the name, or the system refused. -/
theorem ensures_attempt {Q : FileSystem → Prop} (hi : ∀ s, P s → I s ∧ I (s.remove p))
    (hgone : ∀ s, P s → Q (s.remove p))
    (hstays : ∀ n s, P s → ((os n (.removeFile p)).err = none → ∃ e, s.unlink p = .error e) → Q s) :
    Ensures (FileSystem.answer os) P I (attempt p) fun _ s => Q s := by
  refine .cases (Q := fun _ => Q) (E := fun _ => Q) (.ask fun n s hs => ?_)
    (fun _ => .pure fun s hs => hs) fun _ => .pure fun s hs => hs
  refine Outcome.does_ending (hi s hs).1 (fun e he => hstays n s hs fun hnone => ?_) ?_
  · have herr := he hnone
    cases hu : s.unlink p with
    | error e' => exact ⟨e', rfl⟩
    | ok next => simp [hu, Except.map] at herr
  · intro u next hr
    cases hu : s.unlink p with
    | error e => simp [hu, Except.map] at hr
    | ok next' =>
      obtain rfl : next' = next := by simpa [hu, Except.map] using hr
      rw [unlink_ok hu]
      exact ⟨(hi s hs).2, hgone s hs⟩

end

/-! ## The states of a save -/

section
variable (fs : FileSystem) (path : Path) (bytes : Bytes) (os : Outcomes)

/-- The old text, or exactly the new bytes. -/
def OldOrNew (m : FileSystem) : Prop := (∀ b, m.Reads path b ↔ fs.Reads path b) ∨ m.Reads path bytes

/-- The promise for every moment before the file is opened to be overwritten. -/
def Moment (m : FileSystem) : Prop := m.opened = fs.opened → OldOrNew fs path bytes m

/-- Every removal of a name that was not there at first is granted. -/
def Grants : Prop := ∀ n p, fs.node p = none → (os n (.removeFile p)).err = none

/-- Nothing has happened to the target. -/
structure Still (m : FileSystem) : Prop where
  way : Undisturbed fs path m
  next : fs.next ≤ m.next
  opened : m.opened = fs.opened
  names : Grants fs os → ∀ p, fs.node p = none → m.node p = none

/-- Nor while the temp file `tmp` holds `d`. -/
structure Filling (tmp : Path) (i : Nat) (d : Bytes) (m : FileSystem) : Prop where
  way : Undisturbed fs path m
  temp : m.node tmp = some (.file i)
  data : m.data i = d
  fresh : fs.next ≤ i
  next : i < m.next
  opened : m.opened = fs.opened
  names : Grants fs os → ∀ p, p ≠ tmp → fs.node p = none → m.node p = none

structure Saved (m : FileSystem) : Prop where
  reads : m.Reads path bytes
  opened : m.opened = fs.opened

end

section
variable {fs m : FileSystem} {path tmp : Path} {bytes d : Bytes} {os : Outcomes} {i : Nat}

theorem Still.refl (fs : FileSystem) (path : Path) (os : Outcomes) : Still fs path os fs where
  way := .refl fs path
  next := Nat.le_refl _
  opened := rfl
  names _ _ hp := hp

theorem Still.moment (h : Still fs path os m) : Moment fs path bytes m :=
  fun _ => .inl h.way.reads_iff

theorem Filling.moment (h : Filling fs path os tmp i d m) : Moment fs path bytes m :=
  fun _ => .inl h.way.reads_iff

theorem Saved.moment (h : Saved fs path bytes m) : Moment fs path bytes m :=
  fun _ => .inr h.reads

theorem Filling.off_way (h : Filling fs path os tmp i d m) : ¬ fs.OnWay path tmp := by
  intro hway
  have hnode := (h.way tmp hway).1
  rw [h.temp] at hnode
  have hlt := fs.fresh tmp i hnode.symm
  have hle := h.fresh
  omega

theorem Still.remove (h : Still fs path os m) (hp : ¬ fs.OnWay path p) :
    Still fs path os (m.remove p) where
  way t ht := by
    have hne : t ≠ p := fun heq => hp (heq ▸ ht)
    obtain ⟨hnode, hdata⟩ := h.way t ht
    exact ⟨by simpa [FileSystem.remove, FileSystem.put, hne] using hnode, hdata⟩
  next := h.next
  opened := h.opened
  names hg q hq := by
    by_cases hqp : q = p
    · simp [FileSystem.remove, FileSystem.put, hqp]
    · simpa [FileSystem.remove, FileSystem.put, hqp] using h.names hg q hq

theorem Filling.remove (h : Filling fs path os tmp i d m) :
    Still fs path os (m.remove tmp) where
  way t ht := by
    have hne : t ≠ tmp := fun heq => h.off_way (heq ▸ ht)
    obtain ⟨hnode, hdata⟩ := h.way t ht
    exact ⟨by simpa [FileSystem.remove, FileSystem.put, hne] using hnode, hdata⟩
  next := h.fresh.trans h.next.le
  opened := h.opened
  names hg q hq := by
    by_cases hqp : q = tmp
    · simp [FileSystem.remove, FileSystem.put, hqp]
    · simpa [FileSystem.remove, FileSystem.put, hqp] using h.names hg q hqp hq

theorem Still.create (h : Still fs path os m) (htmp : ¬ fs.OnWay path tmp) :
    Filling fs path os tmp m.next [] (m.create tmp) where
  way t ht := by
    have hne : t ≠ tmp := fun heq => htmp (heq ▸ ht)
    obtain ⟨hnode, hdata⟩ := h.way t ht
    refine ⟨by simpa [FileSystem.create, hne] using hnode, fun j hj => ?_⟩
    have hlt := fs.fresh t j hj
    have hnext := h.next
    have hj' : j ≠ m.next := by omega
    simpa [FileSystem.create, hj'] using hdata j hj
  temp := by simp [FileSystem.create]
  data := by simp [FileSystem.create]
  fresh := h.next
  next := Nat.lt_succ_self _
  opened := h.opened
  names hg q hq hnone := by simpa [FileSystem.create, hq] using h.names hg q hnone

theorem Filling.setData (h : Filling fs path os tmp i d m) (d' : Bytes) :
    Filling fs path os tmp i d' (m.setData i d') where
  way t ht := by
    obtain ⟨hnode, hdata⟩ := h.way t ht
    refine ⟨hnode, fun j hj => ?_⟩
    have hlt := fs.fresh t j hj
    have hfresh := h.fresh
    have hj' : j ≠ i := by omega
    simpa [FileSystem.setData, hj'] using hdata j hj
  temp := h.temp
  data := by simp [FileSystem.setData]
  fresh := h.fresh
  next := h.next
  opened := h.opened
  names := h.names

/-- The rename puts the new bytes where the path leads. -/
theorem Filling.rename (h : Filling fs path os tmp i bytes m) {target : Path}
    (htarget : fs.OnWay path target) (hr : m.rename tmp target = .ok next) :
    Saved fs path bytes next := by
  have htmp : target ≠ tmp := fun heq => h.off_way (heq ▸ htarget)
  unfold FileSystem.rename at hr
  split at hr
  · cases hr
  · rename_i node hnode
    rw [h.temp] at hnode
    obtain rfl := Option.some.inj hnode
    split_ifs at hr with hdir hsame
    · -- were both names of one file, the target would be the temp
      obtain ⟨old, hold, hsame⟩ := (Option.any_eq_true _ _).mp hsame
      cases old with
      | file j =>
        obtain rfl : i = j := by simpa [FileSystem.sameFile] using hsame
        rw [(h.way target htarget).1] at hold
        have hlt := fs.fresh target i hold
        have hle := h.fresh
        omega
      | symlink dest => cases hsame
      | dir => cases hsame
      | special => cases hsame
    · have heq := Except.ok.inj hr
      have hnew : next.node target = some (.file i) := by
        simp [← heq, FileSystem.remove, FileSystem.put, htmp]
      have hsame (t : Path) (hne : t ≠ target) (hnt : t ≠ tmp) : next.node t = m.node t := by
        simp [← heq, FileSystem.remove, FileSystem.put, hne, hnt]
      have hway : next.OnWay path target := onWay_of_links htarget fun t dest ht hne hd => by
        have hnt : t ≠ tmp := fun heq => h.off_way (heq ▸ ht)
        rw [hsame t hne hnt]
        exact ((h.way t ht).1).trans hd
      have hreads := FileSystem.Reads.of_onWay hway hnew
      have hdata : next.data i = bytes := by
        rw [← heq]
        exact h.data
      exact ⟨hdata ▸ hreads, heq ▸ h.opened⟩

end

/-! ## When the temp names are out of the way -/

/-- The sweep of `target` removes no file the path reads. -/
def SweepClear (process : Process) (fs : FileSystem) (target : Path) : Prop :=
  process.swept target = false → ∀ q i, fs.OnWay target q → fs.node q = some (.file i) →
    q.dir = target.dir → ∀ pid, tempWriter q.name (tempPrefix target) = some pid →
      pid = process.pid ∨ pid = 0

/-- No temp file of `target` is what a dangling way ends at. -/
def TempClear (process : Process) (fs : FileSystem) (target : Path) : Prop :=
  ∀ q, fs.OnWay target q → fs.node q = none → ∀ rand < 2 ^ 32, q ≠ tempPath process target rand

section
variable {process : Process} {fs : FileSystem} {path target : Path} {bytes : Bytes}
variable {os : Outcomes}

theorem onWay_target {q : Path} (htarget : fs.OnWay path target) (hq : fs.OnWay path q)
    (hend : ∀ dest, fs.node q ≠ some (.symlink dest)) : fs.OnWay target q := by
  obtain ⟨k, hk⟩ := hq
  obtain ⟨n, hn⟩ := htarget
  exact ⟨k - n, (FileSystem.after_end hk hend hn).2⟩

/-- Sweeping one name leaves the file of the path as it was. -/
theorem ensures_sweepName (htarget : fs.OnWay path target) (hclear : SweepClear process fs target)
    (hswept : process.swept target = false) (name : Bytes) :
    Ensures (FileSystem.answer os) (Still fs path os) (Moment fs path bytes)
      (sweepName process target name) fun _ => Still fs path os := by
  unfold sweepName
  cases hwriter : tempWriter name (tempPrefix target) with
  | none => exact .pure fun s hs => hs
  | some pid =>
    refine .bind (ensures_isKind (fun s hs => hs.moment) _ _) fun isFile => ?_
    by_cases hmine : pid ≠ process.pid ∧ isFile
    · rw [if_pos hmine]
      -- process 0 is always there
      have halive : Ensures (FileSystem.answer os)
          (fun s => Still fs path os s ∧ (isFile = true →
            s.kindOf (target.withFileName name) = .ok .file)) (Moment fs path bytes)
          (if 2 ^ 31 ≤ pid then pure false else alive pid) fun yes s =>
            Still fs path os s ∧ s.kindOf (target.withFileName name) = .ok .file ∧
              (yes = false → pid ≠ 0) := by
        split
        · rename_i hbig
          refine .pure fun s hs => ⟨hs.1, hs.2 hmine.2, fun _ => ?_⟩
          omega
        · refine .ask fun n s hs => ⟨hs.1.moment, hs.1, hs.2 hmine.2, fun hno hzero => ?_⟩
          simp [FileSystem.answer, hzero] at hno
      refine halive.bind fun yes => ?_
      cases yes with
      | true => exact .pure fun s hs => hs.1
      | false =>
        have hoff (s : FileSystem) (hs : Still fs path os s ∧
            s.kindOf (target.withFileName name) = .ok .file ∧ (false = false → pid ≠ 0)) :
            ¬ fs.OnWay path (target.withFileName name) := by
          intro hway
          obtain ⟨hstill, hkind, hpid⟩ := hs
          rw [FileSystem.kindOf, (hstill.way _ hway).1] at hkind
          cases hnode : fs.node (target.withFileName name) with
          | none => rw [hnode] at hkind; cases hkind
          | some node =>
            cases node with
            | file i =>
              have hq := onWay_target htarget hway (FileSystem.not_symlink_of_file hnode)
              rcases hclear hswept _ i hq hnode rfl pid hwriter with rfl | hzero
              · exact hmine.1 rfl
              · exact hpid rfl hzero
            | symlink dest => rw [hnode] at hkind; cases hkind
            | dir => rw [hnode] at hkind; cases hkind
            | special => rw [hnode] at hkind; cases hkind
        refine ensures_attempt (fun s hs => ?_) (fun s hs => hs.1.remove (hoff s hs))
          fun n s hs _ => hs.1
        exact ⟨hs.1.moment, (hs.1.remove (hoff s hs)).moment⟩
    · rw [if_neg hmine]
      exact .pure fun s hs => hs.1

theorem ensures_sweep (htarget : fs.OnWay path target) (hclear : SweepClear process fs target) :
    Ensures (FileSystem.answer os) (Still fs path os) (Moment fs path bytes)
      (sweepStaleTemps process target) fun _ => Still fs path os := by
  unfold sweepStaleTemps
  cases hswept : process.swept target with
  | true => exact .pure fun s hs => hs
  | false =>
    refine .bind (ensures_quiet (fun _ _ => rfl) fun s hs => hs.moment) fun r => ?_
    cases r with
    | error e => exact .pure fun s hs => hs
    | ok names =>
      induction names with
      | nil => exact .pure fun s hs => hs
      | cons name names ih =>
        exact .bind (ensures_sweepName htarget hclear hswept name) fun _ => ih

/-- Resolving the target changes nothing, and follows the links. -/
theorem ensures_resolve (n : Nat) (p : Path) :
    Ensures (FileSystem.answer os) (· = fs) (Moment fs path bytes) (resolveWriteTarget n p)
      (Ending (fun t s => s = fs ∧ ∃ k < n, fs.after k p = some t) fun _ s => s = fs) := by
  have hmoment (s : FileSystem) (hs : s = fs) : Moment fs path bytes s :=
    fun _ => .inl fun b => by rw [hs]
  induction n generalizing p with
  | zero => exact .error fun s hs => hs
  | succ n ih =>
    refine .bind (ensures_isKind hmoment p .symlink) fun isLink => ?_
    cases isLink with
    | false => exact .ok fun s hs => ⟨hs.1, 0, Nat.succ_pos n, rfl⟩
    | true =>
      refine .andOk (Q := fun q s => fs.readLink p = .ok q ∧ s = fs) ?_ fun q => ?_
      · refine .ask fun k s hs => ⟨hmoment s hs.1, Outcome.asks_ending (fun _ => hs.1) ?_⟩
        intro q hq
        rw [hs.1] at hq
        exact ⟨hq, hs.1⟩
      · refine .lift fun hread => (ih q).ending (fun t s hs => ?_) fun _ _ hs => hs
        obtain ⟨hs, k, hk, hafter⟩ := hs
        refine ⟨hs, k + 1, Nat.succ_lt_succ hk, ?_⟩
        unfold FileSystem.readLink at hread
        split at hread
        · rename_i dest hp
          rw [FileSystem.after_symlink hp, Except.ok.inj hread]
          exact hafter
        all_goals cases hread

theorem createNew_ok {m : FileSystem} {i : Nat} (h : m.createNew p = .ok (i, next)) :
    m.node p = none ∧ i = m.next ∧ next = m.create p := by
  unfold FileSystem.createNew at h
  split at h
  · cases h
  · rename_i hnone
    obtain ⟨hi, hnext⟩ := Prod.mk.inj (Except.ok.inj h)
    exact ⟨hnone, hi.symm, hnext.symm⟩

/-- Creating a temporary file leaves the file of the path as it was. -/
theorem ensures_createTemp (htarget : fs.OnWay path target) (hclear : TempClear process fs target)
    (n : Nat) (last : Option IoError) :
    Ensures (FileSystem.answer os) (Still fs path os) (Moment fs path bytes)
      (createTemp process target n last)
      (Ending (fun t => Filling fs path os t.1 t.2 []) fun _ => Still fs path os) := by
  induction n generalizing last with
  | zero => exact .error fun s hs => hs
  | succ n ih =>
    refine .bind (Q := fun rand s => rand < 2 ^ 32 ∧ Still fs path os s) ?_ fun rand => ?_
    · exact .ask fun k s hs => ⟨hs.moment, Nat.mod_lt _ (by decide), hs⟩
    · refine .lift fun hrand => ?_
      refine .cases (Q := fun i => Filling fs path os (tempPath process target rand) i [])
        (E := fun _ => Still fs path os) (.ask fun k s hs => ?_) (fun i => ?_) fun e => ?_
      · refine Outcome.does_ending hs.moment (fun _ _ => hs) fun i next hr => ?_
        obtain ⟨hnone, rfl, rfl⟩ := createNew_ok hr
        have hoff : ¬ fs.OnWay path (tempPath process target rand) := by
          intro hway
          rw [(hs.way _ hway).1] at hnone
          have hq := onWay_target htarget hway (FileSystem.not_symlink_of_none hnone)
          exact hclear _ hq hnone rand hrand rfl
        exact ⟨(hs.create hoff).moment, hs.create hoff⟩
      · exact .ok fun s hs => hs
      · cases e with
        | alreadyExists => exact ih _
        | _ => exact .error fun s hs => hs

end

/-! ## The rename path -/

section
variable {fs : FileSystem} {path target tmp : Path} {bytes : Bytes} {os : Outcomes} {i : Nat}
variable {P I : FileSystem → Prop}

/-- What the rename path fails with before the rename. -/
def Attempt.Early (existing : Option Metadata) (a : Attempt) : Prop :=
  (a = .inPlace ∧ existing.isSome) ∨ ∃ err, a = .fail (.untouched err)

theorem ensures_untouched {α : Type} {x : Calls (Except IoError α)} {Q : α → FileSystem → Prop}
    {E : FileSystem → Prop} (h : Ensures (FileSystem.answer os) P I x (Ending Q fun _ => E)) :
    Ensures (FileSystem.answer os) P I (untouched x)
      (Ending Q fun e s => e.Early existing ∧ E s) :=
  h.cases (fun _ => .ok fun _ hs => hs) fun e => .error fun _ hs => ⟨.inr ⟨e, rfl⟩, hs⟩

theorem ensures_sameOwner (hi : ∀ s, P s → I s) (m : Metadata) :
    Ensures (FileSystem.answer os) P I (sameOwner i m) (Ending (fun _ => P) fun _ => P) := by
  refine .andOk (ensures_either (ensures_quiet (fun _ _ => rfl) hi)) fun t => ?_
  split
  · exact .ok fun s hs => hs
  · exact .cases (ensures_either (ensures_quiet (fun _ _ => rfl) hi)) (fun _ => .ok fun s hs => hs)
      fun _ => .ok fun s hs => hs

theorem ensures_carryOver (hi : ∀ s, P s → I s) (m : Metadata) :
    Ensures (FileSystem.answer os) P I (carryOver i target m)
      (Ending (fun _ => P) fun e s => e.Early (some m) ∧ P s) := by
  refine .andOk (ensures_untouched (ensures_sameOwner hi m)) fun same => ?_
  split
  · exact .error fun s hs => ⟨.inl ⟨rfl, rfl⟩, hs⟩
  · refine .andOk (ensures_untouched (ensures_either (ensures_quiet (fun _ _ => rfl) hi))) fun _ => ?_
    exact .cases (ensures_either (ensures_quiet (fun _ _ => rfl) hi)) (fun _ => .ok fun s hs => hs)
      fun _ => .error fun s hs => ⟨.inl ⟨rfl, rfl⟩, hs⟩

/-- The temporary file is filled, or left in part where a call failed. -/
theorem ensures_fillTemp (existing : Option Metadata) (sync : Bool) :
    Ensures (FileSystem.answer os) (Filling fs path os tmp i []) (Moment fs path bytes)
      (fillTemp i target bytes existing sync)
      (Ending (fun _ => Filling fs path os tmp i bytes) fun e s =>
        e.Early existing ∧ ∃ d, Filling fs path os tmp i d s) := by
  have hi (s : FileSystem) (hs : Filling fs path os tmp i bytes s) : Moment fs path bytes s :=
    hs.moment
  refine .andOk (Q := fun _ => Filling fs path os tmp i bytes) ?_ fun _ =>
    .andOk (Q := fun _ => Filling fs path os tmp i bytes) ?_ fun _ => ?_
  · refine ensures_untouched (E := fun s => ∃ d, Filling fs path os tmp i d s)
      (.ask fun n s hs => ?_)
    have hwritten (k : Nat) : Filling fs path os tmp i (bytes.take k) (s.write i bytes k) := by
      have hdata := hs.setData (bytes.take k)
      rwa [FileSystem.write, hs.data, List.drop_nil, List.append_nil]
    simp only [FileSystem.answer, Outcome.writes]
    split
    · exact ⟨(hwritten _).moment, _, hwritten _⟩
    · have hall := hwritten bytes.length
      rw [List.take_length] at hall
      exact ⟨hall.moment, hall⟩
  · cases existing with
    | none => exact .ok fun s hs => hs
    | some m => exact (ensures_carryOver hi m).ending (fun _ _ hs => hs) fun e s hs => ⟨hs.1, bytes, hs.2⟩
  · split
    · exact (ensures_untouched (ensures_either (ensures_quiet (fun _ _ => rfl) hi))).ending (fun _ _ hs => hs)
        fun e s hs => ⟨hs.1, bytes, hs.2⟩
    · exact .ok fun s hs => hs

theorem ensures_dropTemp :
    Ensures (FileSystem.answer os) (fun s => ∃ d, Filling fs path os tmp i d s)
      (Moment fs path bytes) (attempt tmp) fun _ => Still fs path os := by
  refine ensures_attempt (fun s hs => ?_) (fun s hs => ?_) fun n s hs hfail => ?_
  · obtain ⟨d, hs⟩ := hs
    exact ⟨hs.moment, hs.remove.moment⟩
  · obtain ⟨d, hs⟩ := hs
    exact hs.remove
  · obtain ⟨d, hs⟩ := hs
    refine ⟨hs.way, hs.fresh.trans hs.next.le, hs.opened, fun hg p hp => ?_⟩
    by_cases hpt : p = tmp
    · -- a name that was not there at first is removed when asked
      subst hpt
      obtain ⟨e, he⟩ := hfail (hg n p hp)
      simp [FileSystem.unlink, hs.temp] at he
    · exact hs.names hg p hpt hp

theorem ensures_syncDirectory (hi : ∀ s, P s → I s) (dir : Bytes) :
    Ensures (FileSystem.answer os) P I (syncDirectory dir)
      (Ending (fun _ => P) fun e s => (∃ err, e = .notDurable (.dir dir) err) ∧ P s) := by
  refine .cases (.andOk (ensures_either (ensures_quiet (fun _ _ => rfl) hi)) fun _ =>
    ensures_either (ensures_quiet (fun _ _ => rfl) hi)) (fun _ => .ok fun s hs => hs) fun e => ?_
  dsimp only
  split
  · exact .ok fun s hs => hs
  · exact .error fun s hs => ⟨⟨e, rfl⟩, hs⟩

inductive Stopped (fs : FileSystem) (path : Path) (bytes : Bytes) (os : Outcomes)
    (existing : Option Metadata) : Attempt → FileSystem → Prop
  | early {a : Attempt} {s : FileSystem} : a.Early existing → Still fs path os s →
      Stopped fs path bytes os existing a s
  | notDurable {dir : Bytes} {err : IoError} {s : FileSystem} : Saved fs path bytes s →
      Stopped fs path bytes os existing (.fail (.notDurable (.dir dir) err)) s

/-- Replacing saves the file, or stops with the old one in place. -/
theorem ensures_replace {process : Process} (htarget : fs.OnWay path target)
    (hclear : TempClear process fs target) (existing : Option Metadata) (sync : Bool) :
    Ensures (FileSystem.answer os) (Still fs path os) (Moment fs path bytes)
      (replace process target bytes existing sync)
      (Ending (fun _ => Saved fs path bytes) (Stopped fs path bytes os existing)) := by
  refine .cases (ensures_createTemp htarget hclear _ _) (fun t => ?_) fun e => ?_
  · obtain ⟨tmp, i⟩ := t
    have hrename : Ensures (FileSystem.answer os) (Filling fs path os tmp i bytes)
        (Moment fs path bytes) (untouched (rename tmp target))
        (Ending (fun _ => Saved fs path bytes) fun e s =>
          e.Early existing ∧ ∃ d, Filling fs path os tmp i d s) := by
      refine ensures_untouched (.ask fun n s hs => ?_)
      refine Outcome.does_ending hs.moment (fun _ _ => ⟨bytes, hs⟩) fun u next hr => ?_
      cases hren : s.rename tmp target with
      | error e => simp [hren, Except.map] at hr
      | ok next' =>
        obtain rfl : next' = next := by simpa [hren, Except.map] using hr
        have hsaved := hs.rename htarget hren
        exact ⟨hsaved.moment, hsaved⟩
    refine .cases (.andOk (ensures_fillTemp existing sync) fun _ => hrename) (fun _ => ?_) fun e => ?_
    · dsimp only
      split
      · exact .ok fun s hs => hs
      · refine .cases (ensures_syncDirectory (fun s hs => hs.moment) _) (fun _ => .ok fun s hs => hs)
          fun e => .error fun s hs => ?_
        obtain ⟨⟨err, rfl⟩, hs⟩ := hs
        exact .notDurable hs
    · refine .lift fun hearly => ?_
      exact .bind ensures_dropTemp fun _ => .error fun s hs => .early hearly hs
  · dsimp only
    split
    · rename_i hdir
      exact .error fun s hs => .early (.inl ⟨rfl, hdir.1⟩) hs
    · exact .error fun s hs => .early (.inr ⟨e, rfl⟩) hs

end

/-! ## The write in place -/

section
variable {fs m : FileSystem} {path target : Path} {bytes : Bytes} {os : Outcomes} {i : Nat}

/-- The file the path leads to is open to be overwritten. -/
structure Opened (fs : FileSystem) (path : Path) (os : Outcomes) (i : Nat) (m : FileSystem) :
    Prop where
  way : ∀ t, fs.OnWay path t → m.node t = fs.node t
  last : ∃ q, fs.OnWay path q ∧ fs.node q = some (.file i)
  opened : m.opened = i :: fs.opened
  names : Grants fs os → ∀ p, fs.node p = none → m.node p = none

theorem Opened.moment (h : Opened fs path os i m) : Moment fs path bytes m := by
  intro hsame
  rw [h.opened] at hsame
  exact absurd (congrArg List.length hsame) (by simp)

/-- The path reads what is in that file. -/
theorem Opened.reads (h : Opened fs path os i m) : m.Reads path (m.data i) := by
  obtain ⟨q, hway, hq⟩ := h.last
  refine .of_onWay (onWay_of_links hway fun t dest ht _ hd => ?_) ((h.way q hway).trans hq)
  exact (h.way t ht).trans hd

theorem Opened.setData (h : Opened fs path os i m) (d : Bytes) :
    Opened fs path os i (m.setData i d) := ⟨h.way, h.last, h.opened, h.names⟩

theorem Still.open (h : Still fs path os m) (htarget : fs.OnWay path target) {j : Nat}
    (hj : m.fileAt target = .ok j) :
    Opened fs path os j { m with opened := j :: m.opened } := by
  obtain ⟨q, hway, hq⟩ := FileSystem.fileAt_ok hj
  have hfs := (h.way.onWay_iff htarget).mp hway
  have hon := htarget.trans hfs
  refine ⟨fun t ht => (h.way t ht).1, ⟨q, hon, ?_⟩, congrArg (j :: ·) h.opened, h.names⟩
  rw [← (h.way q hon).1]
  exact hq

theorem ensures_openWrite (htarget : fs.OnWay path target) :
    Ensures (FileSystem.answer os) (Still fs path os) (Moment fs path bytes) (openWrite target)
      (Ending (Opened fs path os) fun _ => Still fs path os) := by
  refine .ask fun n s hs => Outcome.does_ending hs.moment (fun _ _ => hs) fun j next hr => ?_
  cases hf : s.fileAt target with
  | error e => simp [hf, Except.map] at hr
  | ok i =>
    have heq : (i, ({ s with opened := i :: s.opened } : FileSystem)) = (j, next) := by
      simpa [hf, Except.map] using hr
    obtain ⟨rfl, rfl⟩ := Prod.mk.inj heq
    exact ⟨(hs.open htarget hf).moment, hs.open htarget hf⟩

theorem ensures_openInPlace (htarget : fs.OnWay path target) (md : Metadata) (force : Bool) :
    Ensures (FileSystem.answer os) (Still fs path os) (Moment fs path bytes)
      (openInPlace target md force)
      (Ending (fun r => Opened fs path os r.1) fun _ => Still fs path os) := by
  have hi (s : FileSystem) (hs : Still fs path os s) : Moment fs path bytes s := hs.moment
  refine .cases (ensures_openWrite htarget) (fun j => .ok fun s hs => hs) fun e => ?_
  dsimp only
  split
  · refine .cases (ensures_either (ensures_quiet (fun _ _ => rfl) hi)) (fun _ => ?_) fun _ =>
      .error fun s hs => hs
    refine .cases (ensures_openWrite htarget) (fun j => .ok fun s hs => hs) fun e => ?_
    refine .bind (Q := fun _ => Still fs path os) ?_ fun _ => .error fun s hs => hs
    exact .bind (ensures_quiet (fun _ _ => rfl) hi) fun _ => .pure fun s hs => hs
  · exact .error fun s hs => hs

/-- Overwriting leaves all the bytes, or what was written of them. -/
theorem ensures_overwrite :
    Ensures (FileSystem.answer os) (Opened fs path os i) (Moment fs path bytes)
      (overwrite i bytes)
      (Ending (fun _ s => Opened fs path os i s ∧ s.data i = bytes) fun _ => Opened fs path os i) := by
  refine .andOk (Q := fun _ s => Opened fs path os i s ∧ s.data i =
    bytes ++ (s.data i).drop bytes.length) (.ask fun n s hs => ?_) fun _ => .ask fun n s hs => ?_
  · simp only [FileSystem.answer, Outcome.writes]
    split
    · exact ⟨(hs.setData _).moment, hs.setData _⟩
    · refine ⟨(hs.setData _).moment, hs.setData _, ?_⟩
      simp [FileSystem.write, FileSystem.setData]
  · refine Outcome.does_ending hs.1.moment (fun _ _ => hs.1) fun u next hr => ?_
    obtain ⟨-, rfl⟩ := Prod.mk.inj (Except.ok.inj hr)
    refine ⟨(hs.1.setData _).moment, hs.1.setData _, ?_⟩
    have hlen : bytes.length ≤ (s.data i).length := by
      rw [hs.2]
      simp
    have htake : (s.data i).take bytes.length = bytes := by
      rw [hs.2]
      simp
    simp [FileSystem.setLen, FileSystem.setData, htake, Nat.sub_eq_zero_of_le hlen]

end

/-! ## What is reported -/

section
variable (fs : FileSystem) (path : Path) (bytes : Bytes) (os : Outcomes)

/-- An error agrees with the state the save leaves. -/
structure ErrorTold (e : SaveError) (s : FileSystem) : Prop where
  untouched : ∀ err, e = .untouched err → ∀ b, s.Reads path b ↔ fs.Reads path b
  notDurable : ∀ p err, e = .notDurable p err → s.Reads path bytes
  names : (∀ dir err, e ≠ .notDurable (.dir dir) err) → Grants fs os →
    ∀ p, fs.node p = none → s.node p = none

abbrev Told {α : Type} : Except SaveError α → FileSystem → Prop :=
  Ending (fun _ s => s.Reads path bytes) (ErrorTold fs path bytes os)

end

section
variable {fs m : FileSystem} {path target : Path} {bytes : Bytes} {os : Outcomes} {i : Nat}

theorem Still.told (h : Still fs path os m) {e : SaveError} (he : ∀ p err, e ≠ .notDurable p err) :
    ErrorTold fs path bytes os e m where
  untouched _ _ := h.way.reads_iff
  notDurable p err heq := absurd heq (he p err)
  names _ := h.names

theorem Saved.told (h : Saved fs path bytes m) (dir : Bytes) (err : IoError) :
    ErrorTold fs path bytes os (.notDurable (.dir dir) err) m where
  untouched _ heq := by cases heq
  notDurable _ _ _ := h.reads
  names hne := absurd rfl (hne dir err)

theorem Opened.told_partly (h : Opened fs path os i m) (p : Path) (err : IoError) :
    ErrorTold fs path bytes os (.partly p err) m where
  untouched _ heq := by cases heq
  notDurable _ _ heq := by cases heq
  names _ := h.names

theorem Opened.told_notDurable (h : Opened fs path os i m) (hdata : m.data i = bytes) (p : Path)
    (err : IoError) : ErrorTold fs path bytes os (.notDurable (.file p) err) m where
  untouched _ heq := by cases heq
  notDurable _ _ _ := hdata ▸ h.reads
  names _ := h.names

theorem Stopped.told {e : SaveError} (h : Stopped fs path bytes os existing (.fail e) m) :
    ErrorTold fs path bytes os e m := by
  cases h with
  | early hearly hs =>
    rcases hearly with ⟨heq, -⟩ | ⟨err, heq⟩
    · cases heq
    · cases heq
      exact hs.told fun p err h => by cases h
  | notDurable hs => exact hs.told _ _

theorem Stopped.inPlace (h : Stopped fs path bytes os existing .inPlace m) :
    existing.isSome ∧ Still fs path os m := by
  cases h with
  | early hearly hs =>
    rcases hearly with ⟨-, hsome⟩ | ⟨err, heq⟩
    · exact ⟨hsome, hs⟩
    · cases heq

theorem ensures_restore {P I : FileSystem → Prop} (hi : ∀ s, P s → I s) (md : Metadata)
    (restore : Bool) :
    Ensures (FileSystem.answer os) P I (restoreMode target md restore) fun _ => P := by
  unfold restoreMode
  split
  · exact .bind (ensures_quiet (fun _ _ => rfl) hi) fun _ => .pure fun s hs => hs
  · exact .pure fun s hs => hs

/-- Writing in place tells the truth about the file. -/
theorem ensures_inPlaceWrite (htarget : fs.OnWay path target) (md : Metadata) (force sync : Bool) :
    Ensures (FileSystem.answer os) (Still fs path os) (Moment fs path bytes)
      (inPlaceWrite target bytes md force sync) (Told fs path bytes os) := by
  refine .cases (ensures_openInPlace htarget md force) (fun r => ?_) fun e =>
    .error fun s hs => hs.told fun p err h => by cases h
  obtain ⟨i, restore⟩ := r
  have hi (s : FileSystem) (hs : Opened fs path os i s ∧ s.data i = bytes) :
      Moment fs path bytes s := hs.1.moment
  refine .cases ensures_overwrite (fun _ => ?_) fun e => ?_
  · have hsync : Ensures (FileSystem.answer os)
        (fun s => Opened fs path os i s ∧ s.data i = bytes) (Moment fs path bytes)
        (if (Except.ok () : Except IoError Unit).toOption.isSome ∧ sync then syncAll i
          else pure (.ok ())) (Ending (fun _ s => Opened fs path os i s ∧ s.data i = bytes)
            fun _ s => Opened fs path os i s ∧ s.data i = bytes) := by
      split
      · exact ensures_either (ensures_quiet (fun _ _ => rfl) hi)
      · exact .ok fun s hs => hs
    refine hsync.cases (fun _ => .bind (ensures_restore hi md restore) fun _ => .ok fun s hs => ?_)
      fun e => .bind (ensures_restore hi md restore) fun _ => .error fun s hs => ?_
    · exact hs.2 ▸ hs.1.reads
    · exact hs.1.told_notDurable hs.2 _ _
  · have hi' (s : FileSystem) (hs : Opened fs path os i s) : Moment fs path bytes s := hs.moment
    refine .bind (Q := fun _ => Opened fs path os i) (.pure fun s hs => hs) fun synced => ?_
    exact .bind (ensures_restore hi' md restore) fun _ => .error fun s hs => hs.told_partly _ _

end

/-! ## The save -/

section
variable {process : Process} {fs : FileSystem} {path target : Path} {bytes : Bytes} {opts : Opts}
variable {os : Outcomes}

/-- Carrying out a write without a backup tells the truth about the file. -/
theorem ensures_carryOut (hback : opts.backup = none) (htarget : fs.OnWay path target)
    (hclear : TempClear process fs target) (existing : Option Metadata) (inPlace : Bool) :
    Ensures (FileSystem.answer os) (Still fs path os) (Moment fs path bytes)
      (carryOut process opts target bytes existing inPlace .none)
      (Ending (fun done s => done.2 = .none ∧ Told fs path bytes os done.1 s) fun _ _ => False) := by
  have hplace (md : Metadata) : Ensures (FileSystem.answer os) (Still fs path os)
      (Moment fs path bytes) (do
        let result ← inPlaceWrite target bytes md opts.force opts.fsync
        pure (.ok (result, Made.none)) : Calls (Except SaveError (Except SaveError Method × Made)))
      (Ending (fun done s => done.2 = .none ∧ Told fs path bytes os done.1 s) fun _ _ => False) :=
    .bind (ensures_inPlaceWrite htarget md _ _) fun result => .ok fun s hs => ⟨rfl, hs⟩
  cases existing with
  | none =>
    refine .cases (ensures_replace htarget hclear none _) (fun synced => ?_) fun e => ?_
    · cases synced <;> exact .ok fun s hs => ⟨rfl, hs.reads⟩
    · cases e with
      | inPlace => exact .ok fun s hs => by cases hs.inPlace.1
      | fail e => exact .ok fun s hs => ⟨rfl, hs.told⟩
  | some md =>
    unfold carryOut
    dsimp only
    split
    · exact hplace md
    · refine .cases (ensures_replace htarget hclear (some md) _) (fun synced => ?_) fun e => ?_
      · cases synced <;> exact .ok fun s hs => ⟨rfl, hs.reads⟩
      · cases e with
        | inPlace =>
          have hlate : makeBackup process opts target .none true = pure (.ok .none) := by
            rw [makeBackup, hback]
          rw [hlate]
          exact (hplace md).pre fun s hs => hs.inPlace.2
        | fail e => exact .ok fun s hs => ⟨rfl, hs.told⟩

/-- Saving at a target tells the truth about the file. -/
theorem ensures_saveAt (hback : opts.backup = none) (htarget : fs.OnWay path target)
    (hsweep : SweepClear process fs target) (htemp : TempClear process fs target) (link : Bool) :
    Ensures (FileSystem.answer os) (Still fs path os) (Moment fs path bytes)
      (saveAt process path target link bytes opts) (Told fs path bytes os) := by
  have hi (s : FileSystem) (hs : Still fs path os s) : Moment fs path bytes s := hs.moment
  have hstill (s : FileSystem) (hs : Still fs path os s) : Still fs path os s := hs
  refine .bind (ensures_sweep htarget hsweep) fun _ => .bind (ensures_quiet (fun _ _ => rfl) hi)
    fun r => ?_
  dsimp only
  generalize r.toOption = existing
  split
  · exact .error fun s hs => hs.told fun p err h => by cases h
  · have haccess : Ensures (FileSystem.answer os) (Still fs path os) (Moment fs path bytes)
        (if existing.isSome && !opts.force then access target else pure true)
        fun _ => Still fs path os := by
      split
      · exact ensures_quiet (fun _ _ => rfl) hi
      · exact .pure hstill
    refine haccess.bind fun writable => ?_
    split
    · exact .error fun s hs => hs.told fun p err h => by cases h
    · have hcopy : copyMethod process opts target existing = pure opts.copy := by
        unfold copyMethod
        rw [hback]
        cases existing <;> rfl
      have hfirst (inPlace : Bool) :
          backupFirst process opts target existing inPlace = pure (.ok .none) := by
        unfold backupFirst
        rw [hback]
        cases existing <;> rfl
      rw [hcopy]
      refine .bind (Q := fun _ => Still fs path os) (.pure hstill) fun copy => ?_
      rw [hfirst]
      refine .cases (Q := fun made s => made = .none ∧ Still fs path os s) (E := fun _ _ => False)
        (.ok fun s hs => ⟨rfl, hs⟩) (fun made => ?_) fun e => .error fun s hs => hs.elim
      refine .lift fun hmade => ?_
      subst hmade
      refine .cases (ensures_carryOut hback htarget htemp existing _) (fun done => ?_) fun e =>
        .error fun s hs => hs.elim
      obtain ⟨result, made⟩ := done
      refine .lift fun hmade => ?_
      subst hmade
      cases result with
      | ok method => exact .ok fun s hs => hs
      | error e => exact .error fun s hs => hs

/-- Wherever the path may lead, nothing of the target's looks like one of its temp files. -/
structure Clear (process : Process) (fs : FileSystem) (path : Path) : Prop where
  sweep : ∀ n < maxSymlinkHops, ∀ t, fs.after n path = some t → SweepClear process fs t
  temp : ∀ n < maxSymlinkHops, ∀ t, fs.after n path = some t → TempClear process fs t

/-- A save without a backup tells the truth about the file at every call. -/
theorem ensures_writeWith (hback : opts.backup = none) (hclear : Clear process fs path) :
    Ensures (FileSystem.answer os) (· = fs) (Moment fs path bytes)
      (writeWith process path bytes opts) (Told fs path bytes os) := by
  have hi (s : FileSystem) (hs : s = fs) : Moment fs path bytes s := fun _ => .inl fun b => by rw [hs]
  have hlink : Ensures (FileSystem.answer os) (· = fs) (Moment fs path bytes)
      (if opts.breakSymlink then isKind path .symlink else pure false) fun _ s => s = fs := by
    split
    · exact (ensures_isKind hi path .symlink).post fun _ s hs => hs.1
    · exact .pure fun s hs => hs
  have htarget (link : Bool) : Ensures (FileSystem.answer os) (· = fs) (Moment fs path bytes)
      (if link then pure (.ok path) else resolveWriteTarget maxSymlinkHops path)
      (Ending (fun t s => (∃ k < maxSymlinkHops, fs.after k path = some t) ∧ s = fs)
        fun _ s => s = fs) := by
    split
    · exact .ok fun s hs => ⟨⟨0, by decide, rfl⟩, hs⟩
    · exact (ensures_resolve _ path).ending (fun t s hs => ⟨hs.2, hs.1⟩) fun e s hs => hs
  refine hlink.bind fun link => (htarget link).cases (fun t => ?_) fun e => .error fun s hs => ?_
  · refine .lift fun hway => ?_
    obtain ⟨k, hk, hafter⟩ := hway
    refine (ensures_saveAt hback ⟨k, hafter⟩ (hclear.sweep k hk t hafter)
      (hclear.temp k hk t hafter) link).pre fun s hs => ?_
    exact hs ▸ .refl fs path os
  · rw [hs]
    exact (Still.refl fs path os).told fun p err h => by cases h

end

end Ruse.Save
