import Ruse.Save.Files

/-!
# Backups

The model of `apps/tui/src/persist/backup.rs`: which backups a write makes and where
(`Policy`), how the text of a file is put aside (`preserve`: a hard link, else a copy), and
what happens to a write backup afterwards (`Made.finish`).

What the process reads of its surroundings is a parameter (`Process`), and whether a file is
exempt, which depends on patterns and canonical paths, an answer. A directory that has to be
made adds no file.
-/

namespace Ruse.Save

open Ruse.Core
open Ruse.Lib
open Calls

/-! ## The policy -/

inductive VersionControl where
  | existing
  | always
  | never
deriving DecidableEq

inductive DeleteOld where
  | yes
  | ask
  | never
deriving DecidableEq

/-- The `backup-by-copying*` settings. -/
structure Copying where
  always : Bool
  whenLinked : Bool
  whenMismatch : Bool
  whenPrivilegedMismatch : Option Nat

structure Emacs where
  /-- `backup-directory-alist`. -/
  alist : List (Bytes × Bytes)
  versionControl : VersionControl
  keptOld : Nat
  keptNew : Nat
  deleteOld : DeleteOld
  copying : Copying

inductive Rules where
  /-- The entries of `'backupdir'`, and `'backupext'`. -/
  | vim (dirs : List Bytes) (ext : Bytes)
  | emacs (e : Emacs)

structure Policy where
  keep : Bool
  write : Bool
  oncePerVisit : Bool
  patchmode : Bytes
  rules : Rules

/-- The process that saves, and what it reads of its surroundings. -/
structure Process where
  pid : Nat
  euid : Nat
  /-- The targets whose stale temps it has swept. -/
  swept : Path → Bool
  /-- The targets a visit has backed up. -/
  backedUp : Path → Bool
  /-- The bytes of a path made absolute. -/
  absolute : Path → Bytes
  /-- Where an entry of `'backupdir'` leads for a target. -/
  vimDir : Bytes → Path → Bytes
  /-- The directory of the first entry of `backup-directory-alist` that matches, and whether it
  is absolute; else the directory of the target. -/
  emacsDir : List (Bytes × Bytes) → Path → Bytes × Bool

namespace Copying

/-- Whether the save that makes the backup writes the file in place. -/
def inPlace (c : Copying) (me : Nat) (m : Metadata) : Bool :=
  c.always || (c.whenLinked && decide (1 < m.nlink)) || (c.whenMismatch && m.uid != me) ||
    c.whenPrivilegedMismatch.any fun n => decide (m.uid ≤ n)

end Copying

/-! ## Single calls -/

def isKind (p : Path) (kind : Kind) : Calls Bool := do
  match ← symlinkMetadata p with
  | .ok k => pure (k == kind)
  | .error _ => pure false

/-- A call whose failure is of no matter. -/
def attempt (p : Path) : Calls Unit := do
  let _ ← removeFile p
  pure ()

/-! ## What is wanted -/

def patchPath (target : Path) (patchmode : Bytes) : Path :=
  target.withFileName (target.name ++ patchmode)

namespace Policy

variable (policy : Policy)

def emacs : Option Emacs :=
  match policy.rules with
  | .emacs e => some e
  | .vim _ _ => none

/-- Whether `'patchmode'` still has to keep the oldest version. -/
def patchWanted (target : Path) : Calls Bool :=
  if (policy.keep || policy.write) && !policy.patchmode.isEmpty then do
    match ← symlinkMetadata (patchPath target policy.patchmode) with
    | .ok _ => pure false
    | .error _ => pure true
  else pure false

/-- Whether a write of `target` makes a backup now. -/
def wanted (process : Process) (target : Path) (inPlace : Bool) : Calls Bool := do
  let want ← (if policy.keep || (policy.write && inPlace) then pure true
    else policy.patchWanted target)
  if want then
    let skipped ← skipped target
    pure (!skipped && !(policy.oncePerVisit && process.backedUp target))
  else pure false

end Policy

/-! ## Putting a text aside -/

/-- The body of `copy_file` once the new file is open. -/
def copyInto (src : Path) (out mode : Nat) : Calls (Except IoError Unit) :=
  (openRead src).andOk fun input =>
  (copyBytes input out).andOk fun _ =>
  (fchmod out mode).andOk fun _ =>
  syncAll out

/-- Copy `src` to a new file. -/
def copyFile (src dst : Path) : Calls (Except IoError Unit) :=
  (metadata src).andOk fun m =>
  (createNew dst).andOk fun out => do
    match ← copyInto src out m.mode with
    | .ok () => pure (.ok ())
    | .error e =>
      attempt dst
      pure (.error e)

/-- The end of `preserve`: a hard link, unless a copy is asked for or it fails. -/
def linkOrCopy (src dst : Path) (copy : Bool) : Calls (Except IoError Unit) :=
  if copy then copyFile src dst
  else do
    match ← hardLink src dst with
    | .ok () => pure (.ok ())
    | .error _ => copyFile src dst

/-- Put the current text of `src` at `dst`, in place of a regular file there. -/
def preserve (src dst : Path) (copy : Bool) : Calls (Except IoError Unit) := do
  match ← symlinkMetadata dst with
  | .ok .file => (removeFile dst).andOk fun _ => linkOrCopy src dst copy
  | .ok _ => pure (.error .alreadyExists)
  | .error _ => linkOrCopy src dst copy

/-! ## Where -/

def mangled (absolute : Bytes) (sep : UInt8) (double : Option UInt8) : Bytes :=
  absolute.flatMap fun b => if b = 47 then [sep] else if double = some b then [b, b] else [b]

/-- One entry of `'backupdir'`: the directory and the base name. -/
def vimDir (process : Process) (entry : Bytes) (target : Path) : Calls (Except IoError Path) :=
  let mangle := decide (2 < entry.length) && [47, 47].isSuffixOf entry
  let dir := process.vimDir entry target
  (makeDir dir).andOk fun _ =>
  pure (.ok ⟨dir, if mangle then mangled (process.absolute target) 37 none else target.name⟩)

/-- The places of the entries, and the error of the last one that failed. -/
def vimPlaces (process : Process) (ext : Bytes) (target : Path) :
    List Bytes → Calls (List Path × Option IoError)
  | [] => pure ([], none)
  | entry :: dirs => do
    let place ← vimDir process entry target
    let (places, last) ← vimPlaces process ext target dirs
    match place with
    | .ok p => pure (p.withFileName (p.name ++ ext) :: places, last)
    | .error e => pure (places, last.or (some e))

def decimal (n : Nat) : Bytes := (Nat.toDigits 10 n).map fun c => c.toNat.toUInt8

def isDigit (b : UInt8) : Bool := 48 ≤ b && b ≤ 57

def number (digits : Bytes) : Nat := digits.foldl (fun n b => 10 * n + (b.toNat - 48)) 0

/-- `<base>.~<n>~`. -/
def versionName (base : Bytes) (n : Nat) : Bytes := base ++ [46, 126] ++ decimal n ++ [126]

/-- The number of a `<base>.~N~` name. -/
def versionOf (base name : Bytes) : Option Nat :=
  let tail := base ++ [46, 126]
  let digits := (name.drop tail.length).dropLast
  if tail.isPrefixOf name ∧ (name.drop tail.length).getLast? = some 126 ∧ digits ≠ [] ∧
      digits.all isDigit ∧ number digits < 2 ^ 64 then some (number digits)
  else none

/-- The version numbers in `dir`, ascending. -/
def numbered (dir base : Bytes) : Calls (List Nat) := do
  match ← readDir dir with
  | .ok names => pure ((names.filterMap (versionOf base)).mergeSort (· ≤ ·))
  | .error _ => pure []

/-- Delete a version, if it is a regular file. -/
def deleteVersion (p : Path) : Calls Unit := do
  if ← isKind p .file then attempt p else pure ()

def deleteVersions (dir base : Bytes) : List Nat → Calls Unit
  | [] => pure ()
  | n :: doomed => do
    deleteVersion ⟨dir, versionName base n⟩
    deleteVersions dir base doomed

/-- The Emacs backup name of `target`, and how many excess versions were kept. -/
def emacsPlace (process : Process) (e : Emacs) (target : Path) :
    Calls (Except IoError (Path × Nat)) :=
  let (dir, whole) := process.emacsDir e.alist target
  let base := if whole then mangled (process.absolute target) 33 (some 33) else target.name
  (makeDir dir).andOk fun _ => do
    let versions ← numbered dir base
    let numberedNow := match e.versionControl with
      | .always => true
      | .existing => !versions.isEmpty
      | .never => false
    if numberedNow then do
      -- a build that checks for overflow stops where one of the sums wraps
      let next := (versions.getLastD 0 + 1) % 2 ^ 64
      let excess := versions.length + 1 - (e.keptOld + e.keptNew) % 2 ^ 64
      let doomed := if e.deleteOld = .yes then (versions.drop e.keptOld).take excess else []
      let kept := if e.deleteOld = .ask then excess else 0
      deleteVersions dir base doomed
      pure (.ok (⟨dir, versionName base next⟩, kept))
    else pure (.ok (⟨dir, base ++ [126]⟩, 0))

/-- Where the backup of `target` may go, in order. -/
def place (process : Process) (policy : Policy) (target : Path) :
    Calls (Except IoError (List Path × Nat)) :=
  match policy.rules with
  | .vim dirs ext => do
    let (places, last) ← vimPlaces process ext target dirs
    match places, last with
    | [], some e => pure (.error e)
    | _, _ => pure (.ok (places, 0))
  | .emacs e => (emacsPlace process e target).andOk fun p => pure (.ok ([p.1], p.2))

/-! ## Making them -/

structure Made where
  backup : Option Path
  temporary : Bool
  excess : Nat

def Made.none : Made := ⟨.none, false, 0⟩

structure BackupError where
  copying : Bool
  err : IoError

/-- The first place that takes the backup; else the last error. -/
def firstPlace (target : Path) (copy : Bool) :
    List Path → Option IoError → Calls (Except IoError Path)
  | [], last => pure (.error (last.getD .other))
  | p :: places, _ => do
    match ← preserve target p copy with
    | .ok () => pure (.ok p)
    | .error e => firstPlace target copy places (some e)

/-- Keep the oldest version for `'patchmode'`, where it still has to be and can be. -/
def makePatch (policy : Policy) (target : Path) (inPlace : Bool) : Calls Unit := do
  if ← policy.patchWanted target then do
    let _ ← preserve target (patchPath target policy.patchmode) inPlace
    pure ()
  else pure ()

def makeKept (process : Process) (policy : Policy) (target : Path) (inPlace : Bool) :
    Calls (Except BackupError Made) := do
  match ← place process policy target with
  | .error e => pure (.error ⟨inPlace, e⟩)
  | .ok (places, excess) =>
    match ← firstPlace target inPlace places .none with
    | .error e => pure (.error ⟨inPlace, e⟩)
    | .ok p => pure (.ok ⟨some p, !policy.keep, excess⟩)

/-- Make the backups a write of the existing file `target` needs. -/
def make (process : Process) (policy : Policy) (target : Path) (inPlace : Bool) :
    Calls (Except BackupError Made) := do
  if ← policy.wanted process target inPlace then do
    makePatch policy target inPlace
    if policy.keep || (policy.write && inPlace) then makeKept process policy target inPlace
    else pure (.ok .none)
  else pure (.ok .none)

/-- `'patchmode'` for a file that did not exist. -/
def patchNew (policy : Policy) (target : Path) : Calls Unit :=
  if (policy.keep || policy.write) && !policy.patchmode.isEmpty then do
    if ← skipped target then pure ()
    else do
      let _ ← createNew (patchPath target policy.patchmode)
      pure ()
  else pure ()

/-- After the write: a write backup goes, or is kept and named. -/
def Made.finish (made : Made) (written : Bool) : Calls (Option Path) :=
  match made.backup with
  | .none => pure .none
  | some p =>
    if !made.temporary then pure .none
    else if written then do
      attempt p
      pure .none
    else pure (some p)

end Ruse.Save
