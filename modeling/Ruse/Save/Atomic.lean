import Ruse.Save.Backup

/-!
# Saving a file

The model of `apps/tui/src/persist/atomic.rs`: a save replaces the file by renaming a filled
temp file over it (`replace`), or writes it in place (`inPlaceWrite`) where a rename would
lose its identity; `writeWith` picks the way, makes the backups and says what came of it.

The modes, owners and extended attributes of files are the system's: a call that sets them
is only granted or not.
-/

namespace Ruse.Save

open Ruse.Core
open Ruse.Lib
open Calls

/-! ## Results -/

inductive Method where
  | renamed
  | renamedDirSyncUnsupported
  | inPlace
deriving DecidableEq

inductive Place where
  | file (p : Path)
  | dir (dir : Bytes)

inductive SaveError where
  | readOnly (p : Path)
  | notRegular (p : Path)
  | untouched (err : IoError)
  /-- `Partial`. -/
  | partly (p : Path) (err : IoError)
  | notDurable (p : Place) (err : IoError)
  | backup (e : BackupError)
  | kept (err : SaveError) (note : Path)
  /-- The `unreachable!` of `write_with`. -/
  | unreachable

structure Written where
  method : Method
  backup : Option Path
  excess : Nat

inductive Attempt where
  | inPlace
  | fail (e : SaveError)

inductive Copy where
  | auto
  | yes
  | no
deriving DecidableEq

structure Opts where
  force : Bool
  copy : Copy
  breakSymlink : Bool
  breakHardlink : Bool
  fsync : Bool
  backup : Option Policy

/-! ## The target -/

def maxSymlinkHops : Nat := 40

/-- Follow `p` through symbolic links to the file a write should replace. -/
def resolveWriteTarget : Nat → Path → Calls (Except IoError Path)
  | 0, _ => pure (.error .other)
  | n + 1, p => do
    if ← isKind p .symlink then (readLink p).andOk (resolveWriteTarget n)
    else pure (.ok p)

/-! ## Temp files -/

def nameMax : Nat := 255

/-- `.ruse-tmp-`. -/
def tempTag : Bytes := [46, 114, 117, 115, 101, 45, 116, 109, 112, 45]

def tempRandLen : Nat := 8

def tempPidLen : Nat := 11

def tempAttempts : Nat := 16

/-- `.<name>.ruse-tmp-`, `<name>` shortened. -/
def tempPrefix (target : Path) : Bytes :=
  [46] ++ target.name.take (nameMax - 1 - tempTag.length - tempPidLen - tempRandLen) ++ tempTag

/-- The lower case hex digits of `n`, `len` of them at least. -/
def hex (len n : Nat) : Bytes :=
  let digits := (Nat.toDigits 16 n).map fun c => c.toNat.toUInt8
  List.replicate (len - digits.length) 48 ++ digits

def tempPath (process : Process) (target : Path) (rand : Nat) : Path :=
  target.withFileName
    (tempPrefix target ++ decimal process.pid ++ [45] ++ hex tempRandLen rand)

def isHex (b : UInt8) : Bool := isDigit b || (97 ≤ b && b ≤ 102)

/-- The writer's pid in a temp name. -/
def tempWriter (name start : Bytes) : Option Nat :=
  let rest := name.drop start.length
  let dash := rest.findIdx (· == 45)
  let pid := rest.take dash
  let rand := rest.drop (dash + 1)
  if start.isPrefixOf name ∧ dash < rest.length ∧ pid ≠ [] ∧ pid.length < tempPidLen ∧
      pid.all isDigit ∧ rand.length = tempRandLen ∧ rand.all isHex ∧ number pid < 2 ^ 32 then
    some (number pid)
  else none

/-- `journal::alive`: a number that is no `pid_t` is of no process. -/
def isAlive (pid : Nat) : Calls Bool := if 2 ^ 31 ≤ pid then pure false else alive pid

/-- Remove the file `name` beside `target` if it is a temp of a writer that is gone. -/
def sweepName (process : Process) (target : Path) (name : Bytes) : Calls Unit :=
  match tempWriter name (tempPrefix target) with
  | none => pure ()
  | some pid => do
    let isFile ← isKind (target.withFileName name) .file
    if pid ≠ process.pid ∧ isFile then do
      if ← isAlive pid then pure () else attempt (target.withFileName name)
    else pure ()

/-- The loop of `sweep_stale_temps` over the names of a listing. -/
def sweepNames (process : Process) (target : Path) : List Bytes → Calls Unit
  | [] => pure ()
  | name :: names => do
    sweepName process target name
    sweepNames process target names

/-- Remove the temp files a crashed save of `target` left beside it. -/
def sweepStaleTemps (process : Process) (target : Path) : Calls Unit :=
  if process.swept target then pure ()
  else do
    match ← readDir target.dir with
    | .ok names => sweepNames process target names
    | .error _ => pure ()

/-- A fresh temp next to `target`, and its file. -/
def createTemp (process : Process) (target : Path) :
    Nat → Option IoError → Calls (Except IoError (Path × Nat))
  | 0, last => pure (.error (last.getD .other))
  | n + 1, _ => do
    let rand ← random
    let tmp := tempPath process target rand
    match ← createNew tmp with
    | .ok i => pure (.ok (tmp, i))
    | .error .alreadyExists => createTemp process target n (some .alreadyExists)
    | .error e => pure (.error e)

/-! ## The rename path -/

/-- Give the temp the original's owner; `false` where that is not permitted. -/
def sameOwner (i : Nat) (m : Metadata) : Calls (Except IoError Bool) :=
  (fstat i).andOk fun t =>
    if t.uid = m.uid ∧ t.gid = m.gid then pure (.ok true)
    else do
      match ← fchown i m.uid m.gid with
      | .ok () => pure (.ok true)
      | .error _ => pure (.ok false)

/-- A failure of the rename path before the rename. -/
def untouched {α : Type} (x : Calls (Except IoError α)) : Calls (Except Attempt α) := do
  match ← x with
  | .ok a => pure (.ok a)
  | .error e => pure (.error (.fail (.untouched e)))

/-- Carry the original's owner, mode and extended attributes over. -/
def carryOver (i : Nat) (target : Path) (m : Metadata) : Calls (Except Attempt Unit) :=
  (untouched (sameOwner i m)).andOk fun same =>
    if !same then pure (.error .inPlace)
    else (untouched (fchmod i m.mode)).andOk fun _ => do
      match ← copyXattrs target i with
      | .ok () => pure (.ok ())
      | .error _ => pure (.error .inPlace)

/-- Write the bytes, carry the original's attributes over, and sync. -/
def fillTemp (i : Nat) (target : Path) (bytes : Bytes) (existing : Option Metadata)
    (sync : Bool) : Calls (Except Attempt Unit) :=
  (untouched (writeAll i bytes)).andOk fun _ =>
  (match existing with
    | some m => carryOver i target m
    | none => pure (.ok ())).andOk fun _ =>
  if sync then untouched (syncAll i) else pure (.ok ())

def dirSyncUnsupported (e : IoError) : Bool :=
  e == .invalid || e == .notSupported || e == .isDirectory

/-- Sync `dir`; `false` where the file system does not support it. -/
def syncDirectory (dir : Bytes) : Calls (Except SaveError Bool) := do
  let synced ← (openDir dir).andOk fun _ => syncDir dir
  match synced with
  | .ok () => pure (.ok true)
  | .error e =>
    if dirSyncUnsupported e then pure (.ok false)
    else pure (.error (.notDurable (.dir dir) e))

/-- Rename a filled temp over `target`; `false` where its directory cannot be synced. -/
def replace (process : Process) (target : Path) (bytes : Bytes) (existing : Option Metadata)
    (sync : Bool) : Calls (Except Attempt Bool) := do
  match ← createTemp process target tempAttempts none with
  | .error e =>
    -- the directory is not writable: the file itself may still be
    if existing.isSome ∧ (e = .permissionDenied ∨ e = .readOnlyFilesystem) then
      pure (.error .inPlace)
    else pure (.error (.fail (.untouched e)))
  | .ok (tmp, i) =>
    match ← (fillTemp i target bytes existing sync).andOk fun _ => untouched (rename tmp target) with
    | .error e =>
      attempt tmp
      pure (.error e)
    | .ok () =>
      if !sync then pure (.ok true)
      else do
        match ← syncDirectory target.dir with
        | .ok synced => pure (.ok synced)
        | .error e => pure (.error (.fail e))

/-! ## The write in place -/

/-- Set the mode back, as far as that is permitted. -/
def restoreMode (target : Path) (m : Metadata) (restore : Bool) : Calls Unit :=
  if restore then do
    let _ ← setPermissions target m.mode
    pure ()
  else pure ()

/-- Open `target` to be overwritten; a forced write gives its owner the permission first.
With the file comes whether the mode has to be restored. -/
def openInPlace (target : Path) (m : Metadata) (force : Bool) :
    Calls (Except IoError (Nat × Bool)) := do
  match ← openWrite target with
  | .ok i => pure (.ok (i, false))
  | .error e =>
    if force ∧ e = .permissionDenied then
      match ← setPermissions target (m.mode ||| 128) with
      | .error _ => pure (.error e)
      | .ok () =>
        match ← openWrite target with
        | .ok i => pure (.ok (i, true))
        | .error e =>
          restoreMode target m true
          pure (.error e)
    else pure (.error e)

/-- Overwrite the file and cut it off. -/
def overwrite (i : Nat) (bytes : Bytes) : Calls (Except IoError Unit) :=
  (writeAll i bytes).andOk fun _ => setLen i bytes.length

def inPlaceWrite (target : Path) (bytes : Bytes) (m : Metadata) (force sync : Bool) :
    Calls (Except SaveError Method) := do
  match ← openInPlace target m force with
  | .error e => pure (.error (.untouched e))
  | .ok (i, restore) =>
    let written ← overwrite i bytes
    let synced ← (if written.toOption.isSome ∧ sync then syncAll i else pure (.ok ()))
    restoreMode target m restore
    match written, synced with
    | .error e, _ => pure (.error (.partly target e))
    | .ok (), .error e => pure (.error (.notDurable (.file target) e))
    | .ok (), .ok () => pure (.ok .inPlace)

/-! ## The save -/

/-- The `make` of `write_with`: a backup that cannot be made stops the write, unless forced. -/
def makeBackup (process : Process) (opts : Opts) (target : Path) (made : Made)
    (inPlace : Bool) : Calls (Except SaveError Made) :=
  match opts.backup with
  | none => pure (.ok made)
  | some policy => do
    match ← make process policy target inPlace with
    | .ok made => pure (.ok made)
    | .error e => if opts.force then pure (.ok made) else pure (.error (.backup e))

/-- The backups made before the write. -/
def backupFirst (process : Process) (opts : Opts) (target : Path) (existing : Option Metadata)
    (inPlace : Bool) : Calls (Except SaveError Made) :=
  match existing, opts.backup with
  | some _, some _ => makeBackup process opts target .none inPlace
  | none, some policy => do
    patchNew policy target
    pure (.ok .none)
  | _, none => pure (.ok .none)

/-- The method `'backupcopy'` and the Emacs rules ask for. -/
def copyMethod (process : Process) (opts : Opts) (target : Path) (existing : Option Metadata) :
    Calls Copy :=
  match existing, opts.backup with
  | some m, some policy =>
    match policy.emacs with
    | some e => do
      if ← policy.wanted process target false then
        pure (if e.copying.inPlace process.euid m then .yes else .no)
      else pure opts.copy
    | none => pure opts.copy
  | _, _ => pure opts.copy

/-- Whether the write means to be in place. -/
def meansInPlace (opts : Opts) (copy : Copy) (link : Bool) (existing : Option Metadata) : Bool :=
  !link && existing.any fun m =>
    let linked := decide (1 < m.nlink)
    match copy with
    | .yes => !(opts.breakHardlink && linked)
    | .no => false
    | .auto => linked && !opts.breakHardlink

/-- Write the file, with the backups made by then; a rename may become a write in place, and
its backup is then made late. -/
def carryOut (process : Process) (opts : Opts) (target : Path) (bytes : Bytes)
    (existing : Option Metadata) (inPlace : Bool) (made : Made) :
    Calls (Except SaveError (Except SaveError Method × Made)) :=
  match existing with
  | none => do
    match ← replace process target bytes none opts.fsync with
    | .ok true => pure (.ok (.ok .renamed, made))
    | .ok false => pure (.ok (.ok .renamedDirSyncUnsupported, made))
    | .error (.fail e) => pure (.ok (.error e, made))
    | .error .inPlace => pure (.ok (.error .unreachable, made))
  | some m =>
    if inPlace then do
      let result ← inPlaceWrite target bytes m opts.force opts.fsync
      pure (.ok (result, made))
    else do
      match ← replace process target bytes (some m) opts.fsync with
      | .ok true => pure (.ok (.ok .renamed, made))
      | .ok false => pure (.ok (.ok .renamedDirSyncUnsupported, made))
      | .error (.fail e) => pure (.ok (.error e, made))
      | .error .inPlace =>
        (if made.backup.isNone then makeBackup process opts target made true
          else pure (.ok made)).andOk fun made => do
        let result ← inPlaceWrite target bytes m opts.force opts.fsync
        pure (.ok (result, made))

/-- What the save says, once the write backup is removed or kept. -/
def report (result : Except SaveError Method) (made : Made) : Calls (Except SaveError Written) := do
  let note ← made.finish result.toOption.isSome
  match result with
  | .ok method =>
    match made.backup with
    | none => pure (.ok ⟨method, none, made.excess⟩)
    | some p => do
      -- `Path::exists`
      let there ← metadata p
      pure (.ok ⟨method, if there.toOption.isSome then some p else none, made.excess⟩)
  | .error e =>
    match note with
    | some p => pure (.error (.kept e p))
    | none => pure (.error e)

/-- Save the file at `target`, which the path `path` led to. -/
def saveAt (process : Process) (path target : Path) (link : Bool) (bytes : Bytes) (opts : Opts) :
    Calls (Except SaveError Written) := do
  sweepStaleTemps process target
  let existing := (← metadata target).toOption
  if existing.any (·.kind != .file) then pure (.error (.notRegular target))
  else
    let writable ← (if existing.isSome && !opts.force then access target else pure true)
    if !writable then pure (.error (.readOnly path))
    else
      let copy ← copyMethod process opts target existing
      let inPlace := meansInPlace opts copy link existing
      (backupFirst process opts target existing inPlace).andOk fun made =>
      (carryOut process opts target bytes existing inPlace made).andOk fun done =>
      report done.1 done.2

def writeWith (process : Process) (path : Path) (bytes : Bytes) (opts : Opts) :
    Calls (Except SaveError Written) := do
  let link ← (if opts.breakSymlink then isKind path .symlink else pure false)
  match ← (if link then pure (.ok path) else resolveWriteTarget maxSymlinkHops path) with
  | .error e => pure (.error (.untouched e))
  | .ok target => saveAt process path target link bytes opts

end Ruse.Save
