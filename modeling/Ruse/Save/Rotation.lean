import Mathlib.Data.List.Dedup
import Ruse.Lib.Numerals
import Ruse.Lib.Ranks
import Ruse.Save.TempNames

/-!
# Numbered backups in rotation

What `emacs_place` does to the numbered backups there are, on a directory whose files are `names`
(`Lists`). `Rotates` says that none is lost: the new number is above all others and the versions that
go lie between the `kept_old` lowest and the `kept_new` highest ones.

The numbers are read from the names (`versionOf`) and the names of the doomed versions printed from the
numbers again, so this depends on the names (`rotates_iff`): no number may be the largest word or past
it, and a version that goes has to be the only one of its number and to have no zeros before it.
-/

namespace Ruse.Save

open Ruse.Core
open Ruse.Lib
open Calls

/-! ## Names and numbers -/

theorem isDigit_iff (c : UInt8) : isDigit c = isDigitOf 10 c := by
  revert c
  have h : ∀ n : Fin 256, isDigit (UInt8.ofFin n) = isDigitOf 10 (UInt8.ofFin n) := by decide +kernel
  exact fun c => h c.toFin

theorem number_eq {ds : Bytes} (hds : ds.all isDigit) : number ds = numeralValue 10 ds := by
  have hstep (n : Nat) (ds : Bytes) (hds : ds.all isDigit) :
      ds.foldl (fun n b => 10 * n + (b.toNat - 48)) n =
        ds.foldl (fun n c => n * 10 + (digitValue c).getD 0) n := by
    induction ds generalizing n with
    | nil => rfl
    | cons c ds ih =>
      rw [List.all_cons, Bool.and_eq_true] at hds
      rw [List.foldl_cons, List.foldl_cons, ih _ hds.2]
      have hc : digitValue c = some (c.toNat - 48) := by
        have hd := hds.1
        rw [isDigit, Bool.and_eq_true, decide_eq_true_eq, decide_eq_true_eq] at hd
        rw [digitValue, if_pos hd]
      rw [hc, Option.getD_some, Nat.mul_comm]
  exact hstep 0 ds hds

theorem all_isDigit_decimal (n : Nat) : (decimal n).all isDigit := by
  rw [List.all_eq_true]
  intro c hc
  rw [isDigit_iff]
  exact isDigitOf_numeral (by decide) (by decide) n c hc

theorem number_decimal (n : Nat) : number (decimal n) = n :=
  (number_eq (all_isDigit_decimal n)).trans (numeralValue_numeral (by decide) (by decide) n)

/-- The number of a `<base>.~N~` name, of any length. -/
def backupNumber (base name : Bytes) : Option Nat :=
  let tail := base ++ [46, 126]
  let digits := (name.drop tail.length).dropLast
  if tail.isPrefixOf name ∧ (name.drop tail.length).getLast? = some 126 ∧ digits ≠ [] ∧
      digits.all isDigit then some (number digits)
  else none

/-- A number that is no word is none to `numbered`. -/
theorem versionOf_eq_some {base name : Bytes} {n : Nat} :
    versionOf base name = some n ↔ backupNumber base name = some n ∧ n < 2 ^ 64 := by
  unfold versionOf backupNumber
  dsimp only
  constructor
  · intro h
    split at h
    · rename_i hname
      cases h
      exact ⟨if_pos ⟨hname.1, hname.2.1, hname.2.2.1, hname.2.2.2.1⟩, hname.2.2.2.2⟩
    · cases h
  · rintro ⟨h, hlt⟩
    split at h
    · rename_i hname
      cases h
      exact if_pos ⟨hname.1, hname.2.1, hname.2.2.1, hname.2.2.2, hlt⟩
    · cases h

theorem backupNumber_versionName (base : Bytes) (n : Nat) :
    backupNumber base (versionName base n) = some n := by
  have hdrop : (versionName base n).drop (base ++ [46, 126]).length = decimal n ++ [126] := by
    rw [versionName, List.append_assoc]
    exact List.drop_left
  have hdigits : decimal n ≠ [] := numeral_ne_nil 10 n
  unfold backupNumber
  dsimp only
  rw [hdrop, List.dropLast_concat, if_pos, number_decimal]
  refine ⟨?_, List.getLast?_concat, hdigits, all_isDigit_decimal n⟩
  rw [List.isPrefixOf_iff_prefix, versionName, List.append_assoc]
  exact List.prefix_append _ _

theorem versionName_injective (base : Bytes) : Function.Injective (versionName base) := by
  intro n n' h
  have hn := backupNumber_versionName base n
  rw [h, backupNumber_versionName] at hn
  exact (Option.some.inj hn).symm

/-! ## Which files go -/

/-- Of the paths `ps` some that are regular files are gone. -/
def Removed (fs fs' : FileSystem) (ps : List Path) : Prop :=
  ∀ q, fs'.node q = fs.node q ∨ fs'.node q = none ∧ q ∈ ps ∧ ∃ i, fs.node q = some (.file i)

theorem Removed.trans {fs fs' fs'' : FileSystem} {ps qs : List Path} (h : Removed fs fs' ps)
    (h' : Removed fs' fs'' qs) : Removed fs fs'' (ps ++ qs) := by
  intro q
  rcases h' q with heq | ⟨hnone, hmem, i, hi⟩
  · rcases h q with heq' | ⟨hnone, hmem, hfile⟩
    · exact .inl (heq.trans heq')
    · exact .inr ⟨heq.trans hnone, List.mem_append_left _ hmem, hfile⟩
  · rcases h q with heq' | ⟨hnone', -, -⟩
    · exact .inr ⟨hnone, List.mem_append_right _ hmem, i, heq' ▸ hi⟩
    · rw [hnone'] at hi
      cases hi

/-- The system refuses no removal, and says what there is. -/
def RemovesAll (os : Outcomes) : Prop :=
  ∀ n p, (os n (.symlinkMetadata p)).err = none ∧ (os n (.removeFile p)).err = none

section
variable {os : Outcomes} {n : Nat} {fs : FileSystem}

theorem attempt_state (p : Path) : (play (FileSystem.answer os) (attempt p) n fs).state =
    ((os n (.removeFile p)).does fs ((fs.unlink p).map fun next => ((), next))).2 := rfl

theorem play_isKind (p : Path) (kind : Kind) : play (FileSystem.answer os) (isKind p kind) n fs =
    ⟨[(.symlinkMetadata p, fs)], fs, decide ((os n (.symlinkMetadata p)).asks (fs.kindOf p) = .ok kind)⟩ := by
  unfold isKind
  rw [play_bind, play_ask]
  dsimp only [FileSystem.answer]
  cases (os n (.symlinkMetadata p)).asks (fs.kindOf p) with
  | error e => rfl
  | ok k => simp [beq_eq_decide]

theorem deleteVersion_state (p : Path) : (play (FileSystem.answer os) (deleteVersion p) n fs).state =
    if (os n (.symlinkMetadata p)).asks (fs.kindOf p) = .ok .file then
      (play (FileSystem.answer os) (attempt p) (n + 1) fs).state
    else fs := by
  unfold deleteVersion
  rw [play_bind, play_isKind]
  by_cases hkind : (os n (.symlinkMetadata p)).asks (fs.kindOf p) = .ok .file
  · rw [if_pos hkind]
    simp only [hkind, decide_true, if_true]
    rfl
  · rw [if_neg hkind]
    simp only [hkind, decide_false]
    rfl

/-- A deletion removes that version at most. -/
theorem deleteVersion_removed (os : Outcomes) (n : Nat) (fs : FileSystem) (p : Path) :
    Removed fs (play (FileSystem.answer os) (deleteVersion p) n fs).state [p] := by
  rw [deleteVersion_state]
  split
  · rename_i hkind
    have hfile : ∃ i, fs.node p = some (.file i) := by
      unfold Outcome.asks FileSystem.kindOf at hkind
      split at hkind
      · cases hkind
      · split at hkind
        · rename_i node hnode
          cases node with
          | file i => exact ⟨i, hnode⟩
          | _ => cases hkind
        · cases hkind
    obtain ⟨i, hi⟩ := hfile
    rw [attempt_state]
    intro q
    unfold Outcome.does Outcome.asks FileSystem.unlink
    rw [hi]
    split
    · exact .inl rfl
    · rename_i h
      split at h
      · cases h
      · cases h
        by_cases hq : q = p
        · subst hq
          exact .inr ⟨by simp [FileSystem.remove, FileSystem.put], List.mem_singleton_self _, i, hi⟩
        · exact .inl (by simp [FileSystem.remove, FileSystem.put, hq])
  · exact fun q => .inl rfl

theorem deleteVersion_gone (hg : RemovesAll os) {p : Path} {i : Nat} (hi : fs.node p = some (.file i)) :
    (play (FileSystem.answer os) (deleteVersion p) n fs).state.node p = none := by
  have hkind : (os n (.symlinkMetadata p)).asks (fs.kindOf p) = .ok .file := by
    rw [Outcome.asks, (hg n p).1, FileSystem.kindOf, hi]
    rfl
  rw [deleteVersion_state, if_pos hkind, attempt_state, Outcome.does, Outcome.asks, (hg (n + 1) p).2,
    FileSystem.unlink, hi]
  simp [Except.map, FileSystem.remove, FileSystem.put]

theorem deleteVersions_removed (os : Outcomes) (n : Nat) (fs : FileSystem) (dir base : Bytes) (doomed : List Nat) :
    Removed fs (play (FileSystem.answer os) (deleteVersions dir base doomed) n fs).state
      (doomed.map fun d => ⟨dir, versionName base d⟩) := by
  induction doomed generalizing n fs with
  | nil => exact fun q => .inl rfl
  | cons d doomed ih =>
    rw [deleteVersions, play_bind]
    exact (deleteVersion_removed os n fs _).trans (ih _ _)

/-- The versions doomed are gone where removals succeed. -/
theorem deleteVersions_gone (hg : RemovesAll os) {dir base : Bytes} {doomed : List Nat} {d i : Nat}
    (hd : d ∈ doomed) (hi : fs.node ⟨dir, versionName base d⟩ = some (.file i)) :
    (play (FileSystem.answer os) (deleteVersions dir base doomed) n fs).state.node
      ⟨dir, versionName base d⟩ = none := by
  induction doomed generalizing n fs with
  | nil => cases hd
  | cons d' doomed ih =>
    rw [deleteVersions, play_bind]
    -- A file that is gone does not come back.
    have hlater (fs' : FileSystem) (n' : Nat) (hnone : fs'.node ⟨dir, versionName base d⟩ = none) :
        (play (FileSystem.answer os) (deleteVersions dir base doomed) n' fs').state.node
          ⟨dir, versionName base d⟩ = none := by
      rcases deleteVersions_removed os n' fs' dir base doomed ⟨dir, versionName base d⟩ with heq | ⟨hgone, -⟩
      · exact heq.trans hnone
      · exact hgone
    by_cases hsame : d = d'
    · subst hsame
      exact hlater _ _ (deleteVersion_gone hg hi)
    · rcases deleteVersion_removed os n fs ⟨dir, versionName base d'⟩ ⟨dir, versionName base d⟩ with heq | ⟨hgone, -⟩
      · exact ih ((List.mem_cons.mp hd).resolve_left hsame) (heq.trans hi)
      · exact hlater _ _ hgone

end

/-! ## The directory -/

/-- Where the backups of `target` go, and the name they are made of. -/
def backupDir (process : Process) (e : Emacs) (target : Path) : Bytes :=
  (process.emacsDir e.alist target).1

def backupBase (process : Process) (e : Emacs) (target : Path) : Bytes :=
  if (process.emacsDir e.alist target).2 then mangled (process.absolute target) 33 (some 33)
  else target.name

/-- The numbers of the numbered backups, as their names give them. -/
def backupNumbers (base : Bytes) (names : List Bytes) : List Nat := names.filterMap (backupNumber base)

/-- What `numbered` reads of them, ascending. -/
def versionsOf (base : Bytes) (names : List Bytes) : List Nat :=
  (names.filterMap (versionOf base)).mergeSort (· ≤ ·)

/-- The names there are in the directory. -/
structure Holds (fs : FileSystem) (dir : Bytes) (names : List Bytes) : Prop where
  nodup : names.Nodup
  mem_iff : ∀ name, name ∈ names ↔ (fs.node ⟨dir, name⟩).isSome

/-- The system makes the directory and lists it in full, in any order. -/
def Lists (os : Outcomes) (dir : Bytes) (names : List Bytes) : Prop :=
  ∀ n, (os n (.makeDir dir)).err = none ∧ (os n (.readDir dir)).err = none ∧
    (os n (.readDir dir)).names.Perm names

/-- Whether the next backup is a numbered one. -/
def Numbered (e : Emacs) (base : Bytes) (names : List Bytes) : Prop :=
  e.versionControl = .always ∨ e.versionControl = .existing ∧ ∃ name ∈ names, (versionOf base name).isSome

theorem versionsOf_sorted (base : Bytes) (names : List Bytes) : (versionsOf base names).Pairwise (· ≤ ·) :=
  List.pairwise_mergeSort' (· ≤ ·) _

theorem versionsOf_perm {names names' : List Bytes} (h : names.Perm names') (base : Bytes) :
    versionsOf base names = versionsOf base names' := by
  refine List.Perm.eq_of_pairwise (fun a b _ _ => Nat.le_antisymm) (versionsOf_sorted base names)
    (versionsOf_sorted base names') ?_
  exact ((List.mergeSort_perm _ _).trans (h.filterMap _)).trans (List.mergeSort_perm _ _).symm

section
variable {process : Process} {e : Emacs} {target : Path} {fs : FileSystem} {names : List Bytes}
variable {os : Outcomes} {n : Nat} {dir base : Bytes}

theorem listed_perm (hholds : Holds fs dir names) (hlists : Lists os dir names) :
    (fs.listed dir (os n (.readDir dir)).names).Perm names := by
  have hall : fs.listed dir (os n (.readDir dir)).names = (os n (.readDir dir)).names := by
    rw [FileSystem.listed, List.filter_eq_self]
    intro name hname
    exact (hholds.mem_iff name).mp ((hlists n).2.2.mem_iff.mp hname)
  rw [hall]
  exact (hlists n).2.2

theorem play_numbered (n : Nat) (base : Bytes) (hholds : Holds fs dir names) (hlists : Lists os dir names) :
    (play (FileSystem.answer os) (numbered dir base) n fs).value = versionsOf base names ∧
      (play (FileSystem.answer os) (numbered dir base) n fs).state = fs := by
  have hperm := listed_perm (n := n) hholds hlists
  have hanswer : FileSystem.answer os n (.readDir dir) fs =
      (.ok (fs.listed dir (os n (.readDir dir)).names), fs) := by
    rw [FileSystem.answer, Outcome.asks, (hlists n).2.1]
  unfold numbered
  rw [play_bind, play_ask]
  rw [hanswer]
  exact ⟨versionsOf_perm hperm base, rfl⟩

def nextVersion (base : Bytes) (names : List Bytes) : Nat :=
  ((versionsOf base names).getLastD 0 + 1) % 2 ^ 64

def doomedVersions (e : Emacs) (base : Bytes) (names : List Bytes) : List Nat :=
  if e.deleteOld = .yes then
    ((versionsOf base names).drop e.keptOld).take
      ((versionsOf base names).length + 1 - (e.keptOld + e.keptNew) % 2 ^ 64)
  else []

theorem versionsOf_isEmpty : (versionsOf base names).isEmpty = true ↔
    ¬ ∃ name ∈ names, (versionOf base name).isSome := by
  rw [List.isEmpty_iff, ← List.length_eq_zero_iff, versionsOf, List.length_mergeSort,
    List.length_eq_zero_iff, List.filterMap_eq_nil_iff]
  constructor
  · rintro h ⟨name, hname, hsome⟩
    rw [h name hname] at hsome
    cases hsome
  · intro h name hname
    exact Option.not_isSome_iff_eq_none.mp fun hsome => h ⟨name, hname, hsome⟩

/-- What follows once the versions are known. -/
def placeAfter (e : Emacs) (dir base : Bytes) (versions : List Nat) : Calls (Except IoError (Path × Nat)) :=
  let numberedNow := match e.versionControl with
    | .always => true
    | .existing => !versions.isEmpty
    | .never => false
  if numberedNow then do
    let next := (versions.getLastD 0 + 1) % 2 ^ 64
    let excess := versions.length + 1 - (e.keptOld + e.keptNew) % 2 ^ 64
    let doomed := if e.deleteOld = .yes then (versions.drop e.keptOld).take excess else []
    let kept := if e.deleteOld = .ask then excess else 0
    deleteVersions dir base doomed
    pure (.ok (⟨dir, versionName base next⟩, kept))
  else pure (.ok (⟨dir, base ++ [126]⟩, 0))

theorem emacsPlace_eq : emacsPlace process e target =
    (makeDir (backupDir process e target)).andOk fun _ =>
      numbered (backupDir process e target) (backupBase process e target) >>=
        placeAfter e (backupDir process e target) (backupBase process e target) := rfl

/-- The place for a numbered backup is chosen by the versions listed. -/
theorem play_emacsPlace (hholds : Holds fs (backupDir process e target) names)
    (hlists : Lists os (backupDir process e target) names) :
    ∃ m, (play (FileSystem.answer os) (emacsPlace process e target) n fs).value =
        (play (FileSystem.answer os) (placeAfter e (backupDir process e target) (backupBase process e target)
          (versionsOf (backupBase process e target) names)) m fs).value ∧
      (play (FileSystem.answer os) (emacsPlace process e target) n fs).state =
        (play (FileSystem.answer os) (placeAfter e (backupDir process e target) (backupBase process e target)
          (versionsOf (backupBase process e target) names)) m fs).state := by
  rw [emacsPlace_eq]
  generalize backupDir process e target = dir at *
  generalize backupBase process e target = base
  have hanswer : FileSystem.answer os n (.makeDir dir) fs = (.ok (), fs) := by
    rw [FileSystem.answer, Outcome.asks, (hlists n).1]
  obtain ⟨hversions, hsame⟩ := play_numbered (n + 1) base hholds hlists
  unfold Prog.andOk
  rw [play_bind, play_ask]
  rw [hanswer]
  dsimp only [List.length_singleton]
  rw [play_bind]
  dsimp only
  rw [hversions, hsame]
  exact ⟨_, rfl, rfl⟩

/-- With numbered backups the next version is made, and the excess ones deleted. -/
theorem play_emacsPlace_numbered (hholds : Holds fs (backupDir process e target) names)
    (hlists : Lists os (backupDir process e target) names)
    (hnum : Numbered e (backupBase process e target) names) :
    ∃ m kept, (play (FileSystem.answer os) (emacsPlace process e target) n fs).value =
        .ok (⟨backupDir process e target, versionName (backupBase process e target)
          (nextVersion (backupBase process e target) names)⟩, kept) ∧
      (play (FileSystem.answer os) (emacsPlace process e target) n fs).state =
        (play (FileSystem.answer os) (deleteVersions (backupDir process e target)
          (backupBase process e target) (doomedVersions e (backupBase process e target) names)) m fs).state := by
  obtain ⟨m, hvalue, hstate⟩ := play_emacsPlace (n := n) hholds hlists
  rw [hvalue, hstate]
  generalize backupBase process e target = base at *
  have hnow : (match e.versionControl with
      | .always => true
      | .existing => !(versionsOf base names).isEmpty
      | .never => false) = true := by
    rcases hnum with h | ⟨h, hsome⟩
    · rw [h]
    · rw [h]
      have hfull := mt versionsOf_isEmpty.mp (not_not_intro hsome)
      simpa using hfull
  unfold placeAfter
  rw [if_pos hnow, play_bind]
  exact ⟨m, _, rfl, rfl⟩

/-- Without numbered backups the plain name is used and nothing is deleted. -/
theorem play_emacsPlace_plain (hholds : Holds fs (backupDir process e target) names)
    (hlists : Lists os (backupDir process e target) names)
    (hnum : ¬ Numbered e (backupBase process e target) names) :
    (play (FileSystem.answer os) (emacsPlace process e target) n fs).value =
        .ok (⟨backupDir process e target, backupBase process e target ++ [126]⟩, 0) ∧
      (play (FileSystem.answer os) (emacsPlace process e target) n fs).state = fs := by
  obtain ⟨m, hvalue, hstate⟩ := play_emacsPlace (n := n) hholds hlists
  rw [hvalue, hstate]
  generalize backupBase process e target = base at *
  have hnow : (match e.versionControl with
      | .always => true
      | .existing => !(versionsOf base names).isEmpty
      | .never => false) = false := by
    cases hcontrol : e.versionControl with
    | always => exact absurd (.inl hcontrol) hnum
    | never => rfl
    | existing =>
      have hnone : (versionsOf base names).isEmpty = true :=
        versionsOf_isEmpty.mpr fun hsome => hnum (.inr ⟨hcontrol, hsome⟩)
      rw [hnone]
      rfl
  unfold placeAfter
  rw [hnow]
  exact ⟨rfl, rfl⟩

end

/-! ## What rotation keeps -/

/-- The numbered backups that are there still. -/
def remaining (fs : FileSystem) (dir base : Bytes) (names : List Bytes) : List Bytes :=
  names.filter fun name => (backupNumber base name).isSome && (fs.node ⟨dir, name⟩).isSome

/-- One backup of `target`: its number is above those there are, and what goes is numbered backups
that are none of the `kept_old` lowest nor, counting the new one, of the `kept_new` highest. -/
structure Rotated (e : Emacs) (dir base : Bytes) (names : List Bytes) (fs : FileSystem)
    (run : Played Call FileSystem (Except IoError (Path × Nat))) : Prop where
  fresh : ∃ next kept, run.value = .ok (⟨dir, versionName base next⟩, kept) ∧ next < 2 ^ 64 ∧
    (∀ m ∈ backupNumbers base names, m < next) ∧ versionName base next ∉ names
  removed : ∀ q, run.state.node q ≠ fs.node q → run.state.node q = none ∧ q.dir = dir ∧
    ∃ m, backupNumber base q.name = some m ∧ e.keptOld ≤ (backupNumbers base names).countP (· < m) ∧
      e.keptNew ≤ (backupNumbers base names).countP (m < ·) + 1

/-- No numbered backup is lost, whatever the system answers; the deletions leave `kept_old` and
`kept_new` of them, where they are granted. -/
def Rotates (process : Process) (e : Emacs) (target : Path) (fs : FileSystem) (names : List Bytes) : Prop :=
  ∀ os n, Lists os (backupDir process e target) names →
    let dir := backupDir process e target
    let base := backupBase process e target
    let run := play (FileSystem.answer os) (emacsPlace process e target) n fs
    Rotated e dir base names fs run ∧ (e.deleteOld = .yes → RemovesAll os →
      (remaining run.state dir base names).length + 1 ≤ e.keptOld + e.keptNew)

/-- The names that rotate: numbers below the largest word, and under `delete-old-versions` each version
between the oldest and the newest kept ones is a file of its own number, spelled without zeros before it. -/
structure Rotatable (e : Emacs) (fs : FileSystem) (dir base : Bytes) (names : List Bytes) : Prop where
  words : ∀ m ∈ backupNumbers base names, m + 1 < 2 ^ 64
  excess : e.deleteOld = .yes → e.keptOld + e.keptNew ≤ (backupNumbers base names).length →
    0 < e.keptNew ∧ ∀ m ∈ backupNumbers base names,
      e.keptOld < (backupNumbers base names).countP (· ≤ m) →
      e.keptNew ≤ (backupNumbers base names).countP (m ≤ ·) →
      (backupNumbers base names).count m = 1 ∧ ∃ i, fs.node ⟨dir, versionName base m⟩ = some (.file i)

section
variable {e : Emacs} {fs : FileSystem} {dir base : Bytes} {names : List Bytes}

theorem versionsOf_perm_numbers (hwords : ∀ m ∈ backupNumbers base names, m + 1 < 2 ^ 64) :
    (versionsOf base names).Perm (backupNumbers base names) := by
  have hsame : names.filterMap (versionOf base) = backupNumbers base names := by
    refine List.filterMap_congr fun name hname => ?_
    cases hnumber : backupNumber base name with
    | none =>
      rw [Option.eq_none_iff_forall_ne_some]
      intro m hm
      rw [(versionOf_eq_some.mp hm).1] at hnumber
      cases hnumber
    | some m =>
      have hlt := hwords m (List.mem_filterMap.mpr ⟨name, hname, hnumber⟩)
      exact versionOf_eq_some.mpr ⟨hnumber, by omega⟩
  rw [← hsame]
  exact List.mergeSort_perm _ _

theorem le_getLastD {ns : List Nat} (hs : ns.Pairwise (· ≤ ·)) {m : Nat} (hm : m ∈ ns) :
    m ≤ ns.getLastD 0 := by
  obtain ⟨front, last, rfl⟩ : ∃ front last, ns = front ++ [last] := by
    rcases List.eq_nil_or_concat ns with rfl | ⟨front, last, h⟩
    · cases hm
    · exact ⟨front, last, by rw [h, List.concat_eq_append]⟩
  rw [List.getLastD_concat]
  rcases List.mem_append.mp hm with h | h
  · exact (List.pairwise_append.mp hs).2.2 m h last (List.mem_singleton_self _)
  · exact (List.mem_singleton.mp h).le

theorem lt_nextVersion (hwords : ∀ m ∈ backupNumbers base names, m + 1 < 2 ^ 64) :
    nextVersion base names < 2 ^ 64 ∧ ∀ m ∈ backupNumbers base names, m < nextVersion base names := by
  have hperm := versionsOf_perm_numbers hwords
  refine ⟨Nat.mod_lt _ (by decide), fun m hm => ?_⟩
  have hle := le_getLastD (versionsOf_sorted base names) (hperm.mem_iff.mpr hm)
  have hlast : (versionsOf base names).getLastD 0 + 1 < 2 ^ 64 := by
    rcases List.eq_nil_or_concat (versionsOf base names) with h | ⟨front, last, h⟩
    · rw [h]
      decide
    · rw [List.concat_eq_append] at h
      rw [h, List.getLastD_concat]
      exact hwords last (hperm.mem_iff.mp (by rw [h]; simp))
  rw [nextVersion, Nat.mod_eq_of_lt hlast]
  omega

/-- The doomed are the versions in excess between the oldest and newest kept. -/
theorem mem_doomedVersions (hcounts : e.keptOld + e.keptNew < 2 ^ 64)
    (hwords : ∀ m ∈ backupNumbers base names, m + 1 < 2 ^ 64) (hyes : e.deleteOld = .yes)
    (hexcess : e.keptOld + e.keptNew ≤ (backupNumbers base names).length) {m : Nat} :
    m ∈ doomedVersions e base names ↔ m ∈ backupNumbers base names ∧
      e.keptOld < (backupNumbers base names).countP (· ≤ m) ∧
      e.keptNew ≤ (backupNumbers base names).countP (m ≤ ·) := by
  have hperm := versionsOf_perm_numbers hwords
  have hsorted := versionsOf_sorted base names
  have hlen := hperm.length_eq
  have hranks := length_eq_ranks' (backupNumbers base names) m
  rw [doomedVersions, if_pos hyes, Nat.mod_eq_of_lt hcounts]
  constructor
  · intro hm
    have hmem := hperm.mem_iff.mp (List.mem_of_mem_drop (List.mem_of_mem_take hm))
    have h := (mem_middle_iff hsorted (hperm.mem_iff.mpr hmem) (by omega)).mp hm
    rw [hperm.countP_eq, hperm.countP_eq] at h
    exact ⟨hmem, h.1, by omega⟩
  · rintro ⟨hmem, hold, hnew⟩
    refine (mem_middle_iff hsorted (hperm.mem_iff.mpr hmem) (by omega)).mpr ?_
    rw [hperm.countP_eq, hperm.countP_eq]
    exact ⟨hold, by omega⟩

theorem exists_excess (hcounts : e.keptOld + e.keptNew < 2 ^ 64)
    (hwords : ∀ m ∈ backupNumbers base names, m + 1 < 2 ^ 64) {d : Nat} (hd : d ∈ doomedVersions e base names) :
    e.deleteOld = .yes ∧ e.keptOld + e.keptNew ≤ (backupNumbers base names).length := by
  have hlen := (versionsOf_perm_numbers hwords).length_eq
  rw [doomedVersions, Nat.mod_eq_of_lt hcounts] at hd
  split at hd
  · rename_i hyes
    refine ⟨hyes, ?_⟩
    by_contra hlt
    rw [show (versionsOf base names).length + 1 - (e.keptOld + e.keptNew) = 0 by omega] at hd
    exact List.not_mem_nil hd
  · cases hd

theorem length_backupNumbers : (backupNumbers base names).length =
    (names.filter fun name => (backupNumber base name).isSome).length := by
  rw [backupNumbers, List.length_filterMap_eq_countP, List.countP_eq_length_filter]

theorem length_remaining_le (fs : FileSystem) (dir base : Bytes) (names : List Bytes) :
    (remaining fs dir base names).length ≤ (backupNumbers base names).length := by
  rw [length_backupNumbers, remaining, ← List.countP_eq_length_filter, ← List.countP_eq_length_filter]
  refine List.countP_mono_left fun name _ h => ?_
  exact (Bool.and_eq_true _ _ ▸ h).1

/-- Each version gone is one fewer that remains. -/
theorem length_remaining_add_le (fs : FileSystem) (dir : Bytes) (hnodup : names.Nodup) {ds : List Nat} (hds : ds.Nodup)
    (hgone : ∀ d ∈ ds, versionName base d ∈ names ∧ fs.node ⟨dir, versionName base d⟩ = none) :
    (remaining fs dir base names).length + ds.length ≤ (backupNumbers base names).length := by
  have hall : (remaining fs dir base names ++ ds.map (versionName base)).Nodup := by
    rw [List.nodup_append]
    refine ⟨hnodup.filter _, hds.map (versionName_injective base), ?_⟩
    rintro name hname _ hmap rfl
    obtain ⟨d, hd, rfl⟩ := List.mem_map.mp hmap
    have hthere := (List.mem_filter.mp hname).2
    rw [(hgone d hd).2, Bool.and_eq_true] at hthere
    cases hthere.2
  have hsub : remaining fs dir base names ++ ds.map (versionName base) ⊆
      names.filter fun name => (backupNumber base name).isSome := by
    intro name hname
    rcases List.mem_append.mp hname with h | h
    · obtain ⟨hmem, h⟩ := List.mem_filter.mp h
      exact List.mem_filter.mpr ⟨hmem, (Bool.and_eq_true _ _ ▸ h).1⟩
    · obtain ⟨d, hd, rfl⟩ := List.mem_map.mp h
      refine List.mem_filter.mpr ⟨(hgone d hd).1, ?_⟩
      rw [backupNumber_versionName]
      rfl
  have hle := (List.subperm_of_subset hall hsub).length_le
  rwa [List.length_append, List.length_map, ← length_backupNumbers] at hle

/-- What does not remain was removed. -/
theorem length_backupNumbers_le {fs' : FileSystem} (hholds : Holds fs dir names) {ds : List Nat}
    (hremoved : Removed fs fs' (ds.map fun d => ⟨dir, versionName base d⟩)) :
    (backupNumbers base names).length ≤ (remaining fs' dir base names).length +
      (ds.dedup.filter fun d => decide (fs'.node ⟨dir, versionName base d⟩ = none ∧
        (fs.node ⟨dir, versionName base d⟩).isSome)).length := by
  have hsub : (names.filter fun name => (backupNumber base name).isSome) ⊆
      remaining fs' dir base names ++ (ds.dedup.filter fun d =>
        decide (fs'.node ⟨dir, versionName base d⟩ = none ∧
          (fs.node ⟨dir, versionName base d⟩).isSome)).map (versionName base) := by
    intro name hname
    obtain ⟨hmem, hnumber⟩ := List.mem_filter.mp hname
    have hsome := (hholds.mem_iff name).mp hmem
    rw [List.mem_append]
    rcases hremoved ⟨dir, name⟩ with hsame | ⟨hnone, hdoomed, -⟩
    · refine .inl (List.mem_filter.mpr ⟨hmem, ?_⟩)
      rw [hsame, hnumber, hsome]
      rfl
    · obtain ⟨d, hd, heq⟩ := List.mem_map.mp hdoomed
      cases heq
      refine .inr (List.mem_map.mpr ⟨d, List.mem_filter.mpr ⟨List.mem_dedup.mpr hd, ?_⟩, rfl⟩)
      exact decide_eq_true ⟨hnone, hsome⟩
  have hle := (hholds.nodup.filter _).length_le_of_subset hsub
  rwa [List.length_append, List.length_map, ← length_backupNumbers] at hle

end

section
variable {process : Process} {e : Emacs} {target : Path} {fs : FileSystem} {names : List Bytes}

/-- Names that are rotatable are rotated. -/
theorem rotates_of_rotatable (hholds : Holds fs (backupDir process e target) names)
    (hcounts : e.keptOld + e.keptNew < 2 ^ 64) (hnum : Numbered e (backupBase process e target) names)
    (h : Rotatable e fs (backupDir process e target) (backupBase process e target) names) :
    Rotates process e target fs names := by
  intro os n hlists
  obtain ⟨m, kept, hvalue, hstate⟩ := play_emacsPlace_numbered (n := n) hholds hlists hnum
  generalize play (FileSystem.answer os) (emacsPlace process e target) n fs = run at *
  generalize backupDir process e target = dir at *
  generalize backupBase process e target = base at *
  have hperm := versionsOf_perm_numbers h.words
  have hremoved := deleteVersions_removed os m fs dir base (doomedVersions e base names)
  rw [← hstate] at hremoved
  -- A doomed version is the only one of its number, and a file.
  have hdoomed {d : Nat} (hd : d ∈ doomedVersions e base names) :
      (backupNumbers base names).count d = 1 ∧ (∃ i, fs.node ⟨dir, versionName base d⟩ = some (.file i)) ∧
        e.keptOld ≤ (backupNumbers base names).countP (· < d) ∧
        e.keptNew ≤ (backupNumbers base names).countP (d < ·) + 1 := by
    obtain ⟨hyes, hexcess⟩ := exists_excess hcounts h.words hd
    obtain ⟨hmem, hold, hnew⟩ := (mem_doomedVersions hcounts h.words hyes hexcess).mp hd
    obtain ⟨hone, hfile⟩ := (h.excess hyes hexcess).2 d hmem hold hnew
    have hle := countP_le_eq (backupNumbers base names) d
    have hranks := length_eq_ranks (backupNumbers base names) d
    have hranks' := length_eq_ranks' (backupNumbers base names) d
    exact ⟨hone, hfile, by omega, by omega⟩
  obtain ⟨hword, hlt⟩ := lt_nextVersion h.words
  refine ⟨⟨⟨_, kept, hvalue, hword, hlt, fun hmem => ?_⟩, fun q hq => ?_⟩, fun hyes hgranted => ?_⟩
  · have hnumber := backupNumber_versionName base (nextVersion base names)
    exact absurd (hlt _ (List.mem_filterMap.mpr ⟨_, hmem, hnumber⟩)) (Nat.lt_irrefl _)
  · obtain ⟨hnone, hmem, -⟩ := (hremoved q).resolve_left hq
    obtain ⟨d, hd, rfl⟩ := List.mem_map.mp hmem
    obtain ⟨-, -, hold, hnew⟩ := hdoomed hd
    exact ⟨hnone, rfl, d, backupNumber_versionName base d, hold, hnew⟩
  · by_cases hexcess : e.keptOld + e.keptNew ≤ (backupNumbers base names).length
    · have hlen := hperm.length_eq
      have hnew := (h.excess hyes hexcess).1
      have hnodup : (doomedVersions e base names).Nodup := by
        rw [List.nodup_iff_count_le_one]
        intro d
        by_cases hd : d ∈ doomedVersions e base names
        · have hsub : (doomedVersions e base names).Sublist (versionsOf base names) := by
            rw [doomedVersions, if_pos hyes]
            exact (List.take_sublist _ _).trans (List.drop_sublist _ _)
          calc (doomedVersions e base names).count d
              ≤ (versionsOf base names).count d := hsub.count_le d
            _ = (backupNumbers base names).count d := hperm.count_eq d
            _ ≤ 1 := (hdoomed hd).1.le
        · rw [List.count_eq_zero_of_not_mem hd]
          exact Nat.zero_le 1
      have hle := length_remaining_add_le run.state dir hholds.nodup hnodup fun d hd => by
        obtain ⟨i, hi⟩ := (hdoomed hd).2.1
        refine ⟨(hholds.mem_iff _).mpr (by rw [hi]; rfl), ?_⟩
        rw [hstate]
        exact deleteVersions_gone hgranted hd hi
      have hcount : (doomedVersions e base names).length =
          (versionsOf base names).length + 1 - (e.keptOld + e.keptNew) := by
        rw [doomedVersions, if_pos hyes, Nat.mod_eq_of_lt hcounts, List.length_take, List.length_drop]
        omega
      omega
    · have hle := length_remaining_le run.state dir base names
      omega

/-- The system grants every call and lists `names`. -/
def Outcomes.granting (names : List Bytes) : Outcomes := fun _ _ => { Outcome.fine with names }

/-- Names that are rotated are rotatable: a version that is no file of its number is not deleted.
-/
theorem rotatable_of_rotates (hholds : Holds fs (backupDir process e target) names)
    (hcounts : e.keptOld + e.keptNew < 2 ^ 64) (hnum : Numbered e (backupBase process e target) names)
    (h : Rotates process e target fs names) :
    Rotatable e fs (backupDir process e target) (backupBase process e target) names := by
  have hlists : Lists (.granting names) (backupDir process e target) names := fun n => ⟨rfl, rfl, .refl _⟩
  obtain ⟨m, kept, hvalue, hstate⟩ := play_emacsPlace_numbered (n := 0) hholds hlists hnum
  obtain ⟨hrotated, hbounded⟩ := h (.granting names) 0 hlists
  generalize play (FileSystem.answer (.granting names)) (emacsPlace process e target) 0 fs = run at *
  generalize backupDir process e target = dir at *
  generalize backupBase process e target = base at *
  have hwords : ∀ m ∈ backupNumbers base names, m + 1 < 2 ^ 64 := by
    obtain ⟨next, kept', -, hnext, hlt, -⟩ := hrotated.fresh
    intro m hm
    have hm := hlt m hm
    omega
  refine ⟨hwords, fun hyes hexcess => ?_⟩
  have hperm := versionsOf_perm_numbers hwords
  have hlen := hperm.length_eq
  have hbounded := hbounded hyes fun n p => ⟨rfl, rfl⟩
  have hremoved := deleteVersions_removed (.granting names) m fs dir base
    (doomedVersions e base names)
  rw [← hstate] at hremoved
  -- As many versions are gone as are doomed, so each of them is there once and is a file.
  have hgone := length_backupNumbers_le hholds hremoved
  have hfilter := List.length_filter_le (fun d => decide (run.state.node ⟨dir, versionName base d⟩ = none ∧
    (fs.node ⟨dir, versionName base d⟩).isSome)) (doomedVersions e base names).dedup
  have hdedup := (List.dedup_sublist (doomedVersions e base names)).length_le
  have hcount : (doomedVersions e base names).length =
      min ((versionsOf base names).length + 1 - (e.keptOld + e.keptNew))
        ((versionsOf base names).length - e.keptOld) := by
    rw [doomedVersions, if_pos hyes, Nat.mod_eq_of_lt hcounts, List.length_take, List.length_drop]
  have hnew : 0 < e.keptNew := by omega
  have hnodup : (doomedVersions e base names).Nodup := by
    have hsame := (List.dedup_sublist (doomedVersions e base names)).eq_of_length (by omega)
    rw [← hsame]
    exact List.nodup_dedup _
  have hfiles := List.length_filter_eq_length_iff.mp (Nat.le_antisymm hfilter (by omega))
  refine ⟨hnew, fun d hmem hold hnew => ?_⟩
  have hd := (mem_doomedVersions hcounts hwords hyes hexcess).mpr ⟨hmem, hold, hnew⟩
  obtain ⟨hnone, hsome⟩ := of_decide_eq_true (hfiles d (List.mem_dedup.mpr hd))
  have hchanged : run.state.node ⟨dir, versionName base d⟩ ≠ fs.node ⟨dir, versionName base d⟩ := by
    rw [hnone]
    intro heq
    rw [← heq] at hsome
    cases hsome
  obtain ⟨-, -, i, hi⟩ := (hremoved ⟨dir, versionName base d⟩).resolve_left hchanged
  obtain ⟨-, -, d', hd', hlo, hhi⟩ := hrotated.removed _ hchanged
  obtain rfl : d = d' := Option.some.inj ((backupNumber_versionName base d).symm.trans hd')
  refine ⟨?_, i, hi⟩
  have hranks := length_eq_ranks (backupNumbers base names) d
  rw [doomedVersions, if_pos hyes, Nat.mod_eq_of_lt hcounts] at hnodup
  rw [← hperm.count_eq]
  refine count_eq_one_of_middle (versionsOf_sorted base names) (hperm.mem_iff.mpr hmem) hnodup ?_ ?_
  · rwa [hperm.countP_eq]
  · rw [hperm.countP_eq]
    omega

/-- No numbered backup is lost exactly where the names are `Rotatable`. Without a numbered backup to make,
nothing goes. -/
theorem rotates_iff (hholds : Holds fs (backupDir process e target) names)
    (hcounts : e.keptOld + e.keptNew < 2 ^ 64) :
    (Numbered e (backupBase process e target) names → (Rotates process e target fs names ↔
      Rotatable e fs (backupDir process e target) (backupBase process e target) names)) ∧
    (¬ Numbered e (backupBase process e target) names → ∀ os n,
      Lists os (backupDir process e target) names →
        (play (FileSystem.answer os) (emacsPlace process e target) n fs).value =
          .ok (⟨backupDir process e target, backupBase process e target ++ [126]⟩, 0) ∧
        (play (FileSystem.answer os) (emacsPlace process e target) n fs).state = fs) :=
  ⟨fun hnum => ⟨rotatable_of_rotates hholds hcounts hnum, rotates_of_rotatable hholds hcounts hnum⟩,
    fun hnum _ _ hlists => play_emacsPlace_plain hholds hlists hnum⟩

end

def lone : Process :=
  ⟨1, 0, fun _ => false, fun _ => false, Path.name, fun _ p => p.dir, fun _ p => (p.dir, false)⟩

def note : Path := ⟨[], [110, 111, 116, 101]⟩

/-- The numbered backups `ns` of `note`. -/
def noteBackups (ns : List Nat) : FileSystem :=
  ns.foldr (fun n fs => fs.create ⟨[], versionName note.name n⟩) .empty

theorem noteBackups_node (ns : List Nat) (p : Path) :
    (∃ i, (noteBackups ns).node p = some (.file i)) ∧ (∃ n ∈ ns, p = ⟨[], versionName note.name n⟩) ∨
      (noteBackups ns).node p = none ∧ ∀ n ∈ ns, p ≠ ⟨[], versionName note.name n⟩ := by
  induction ns with
  | nil => exact .inr ⟨rfl, fun n hn => absurd hn List.not_mem_nil⟩
  | cons n ns ih =>
    have hnode : (noteBackups (n :: ns)).node p = if p = ⟨[], versionName note.name n⟩ then
        some (.file (noteBackups ns).next) else (noteBackups ns).node p := Function.update_apply _ _ _ _
    rw [hnode]
    split
    · rename_i hp
      exact .inl ⟨⟨_, rfl⟩, n, List.mem_cons_self, hp⟩
    · rename_i hp
      rcases ih with ⟨hfile, k, hk, heq⟩ | ⟨hnone, hall⟩
      · exact .inl ⟨hfile, k, List.mem_cons_of_mem _ hk, heq⟩
      · exact .inr ⟨hnone, List.forall_mem_cons.mpr ⟨hp, hall⟩⟩

theorem noteBackups_holds {ns : List Nat} (hns : ns.Nodup) :
    Holds (noteBackups ns) [] (ns.map (versionName note.name)) where
  nodup := hns.map (versionName_injective _)
  mem_iff name := by
    rw [List.mem_map]
    rcases noteBackups_node ns ⟨[], name⟩ with ⟨⟨i, hi⟩, n, hn, heq⟩ | ⟨hnone, hall⟩
    · cases heq
      simp only [hi, Option.isSome_some, iff_true]
      exact ⟨n, hn, rfl⟩
    · simp only [hnone, Option.isSome_none, Bool.false_eq_true, iff_false]
      rintro ⟨n, hn, rfl⟩
      exact hall n hn rfl

theorem backupNumbers_map (base : Bytes) (ns : List Nat) :
    backupNumbers base (ns.map (versionName base)) = ns := by
  rw [backupNumbers, List.filterMap_map]
  refine Eq.trans (List.filterMap_congr fun n _ => ?_) List.filterMap_some
  exact backupNumber_versionName base n

/-- `version-control` and `delete-old-versions` are `t`, and one old and one new version are kept. -/
def keepOneEach : Emacs := ⟨[], .always, 1, 1, .yes, ⟨false, false, false, none⟩⟩

/-- The versions 2 and 3 go, 1 and the new one stay. -/
theorem rotates_iff_note : Rotates lone keepOneEach note (noteBackups [1, 2, 3])
    ([1, 2, 3].map (versionName note.name)) := by
  refine ((rotates_iff (noteBackups_holds (by decide)) (by decide)).1 (.inl rfl)).mpr ?_
  have hnumbers := backupNumbers_map note.name [1, 2, 3]
  change Rotatable _ _ [] note.name _
  refine ⟨?_, fun _ _ => ⟨by decide, ?_⟩⟩
  · rw [hnumbers]
    decide
  · rw [hnumbers]
    intro m hm _ _
    have hone : ∀ k ∈ [1, 2, 3], [1, 2, 3].count k = 1 := by decide
    refine ⟨hone m hm, ?_⟩
    rcases noteBackups_node [1, 2, 3] ⟨[], versionName note.name m⟩ with ⟨hfile, -⟩ | ⟨-, hall⟩
    · exact hfile
    · exact absurd rfl (hall m hm)

/-- After the largest version the numbers begin anew. -/
theorem largest_version_wraps :
    let names := [versionName note.name (2 ^ 64 - 1)]
    (∃ kept, (play (FileSystem.answer (.granting names)) (emacsPlace lone keepOneEach note) 0
        (noteBackups [2 ^ 64 - 1])).value = .ok (⟨[], versionName note.name 0⟩, kept)) ∧
      ¬ Rotates lone keepOneEach note (noteBackups [2 ^ 64 - 1]) names := by
  intro names
  have hholds : Holds (noteBackups [2 ^ 64 - 1]) (backupDir lone keepOneEach note) names :=
    noteBackups_holds (List.nodup_singleton (2 ^ 64 - 1))
  have hnumbers : backupNumbers note.name names = [2 ^ 64 - 1] := backupNumbers_map note.name [2 ^ 64 - 1]
  have hversion : versionOf note.name (versionName note.name (2 ^ 64 - 1)) = some (2 ^ 64 - 1) :=
    versionOf_eq_some.mpr ⟨backupNumber_versionName _ _, by decide⟩
  have hversions : versionsOf note.name names = [2 ^ 64 - 1] := by
    rw [versionsOf, List.filterMap_cons_some hversion, List.filterMap_nil, List.mergeSort_singleton]
  have hnext : nextVersion note.name names = 0 := by
    rw [nextVersion, hversions]
    rfl
  have hlists : Lists (.granting names) (backupDir lone keepOneEach note) names :=
    fun n => ⟨rfl, rfl, .refl _⟩
  have hnum : Numbered keepOneEach (backupBase lone keepOneEach note) names := .inl rfl
  obtain ⟨m, kept, hvalue, -⟩ := play_emacsPlace_numbered (n := 0) hholds hlists hnum
  refine ⟨⟨kept, hvalue.trans ?_⟩, fun hrotates => ?_⟩
  · show Except.ok (Path.mk [] (versionName note.name (nextVersion note.name names)), kept) = _
    rw [hnext]
  · have hwords := (rotatable_of_rotates hholds (by decide) (.inl rfl) hrotates).words (2 ^ 64 - 1)
    have hmem : 2 ^ 64 - 1 ∈ backupNumbers note.name names := by
      rw [hnumbers]
      exact List.mem_singleton_self _
    exact absurd (hwords hmem) (by decide)

end Ruse.Save
