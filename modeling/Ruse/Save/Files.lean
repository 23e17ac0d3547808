import Mathlib.Logic.Function.Basic
import Ruse.Core.Edit
import Ruse.Lib.Calls

/-!
# A file system whose calls may fail

What a save needs of a file system: names in directories, the files and symbolic links they
name, and the bytes of each file, which has as many names as there are links to it. A
directory is what a path's directory part leads to, so that two spellings of it are one.

Every call is answered under an `Outcome` the program cannot know: the error it fails with,
if any, and what the model leaves to the system (the attributes of a file, the order of a
listing, how much of a failed write arrived). A failed call changes nothing, but for a write.
-/

namespace Ruse.Save

open Ruse.Core
open Ruse.Lib

/-- The errors the save tells apart. -/
inductive IoError where
  | notFound
  | permissionDenied
  | readOnlyFilesystem
  | alreadyExists
  /-- `EINVAL`. -/
  | invalid
  /-- `ENOTSUP` or `EOPNOTSUPP`. -/
  | notSupported
  /-- `EISDIR`. -/
  | isDirectory
  | other
deriving DecidableEq, Repr

structure Path where
  dir : Bytes
  name : Bytes
deriving DecidableEq

/-- `Path::with_file_name`. -/
def Path.withFileName (p : Path) (name : Bytes) : Path := ⟨p.dir, name⟩

inductive Node where
  | file (ino : Nat)
  /-- A symbolic link, with where it leads from the directory it is in. -/
  | symlink (dest : Bytes → Path)
  | dir
  /-- A FIFO, a socket or a device. -/
  | special

inductive Kind where
  | file
  | symlink
  | dir
  | special
deriving DecidableEq, Repr

def Node.kind : Node → Kind
  | .file _ => .file
  | .symlink _ => .symlink
  | .dir => .dir
  | .special => .special

/-- The names, the bytes of the files, and which were opened to be overwritten. -/
structure FileSystem where
  node : Path → Option Node
  data : Nat → Bytes
  /-- The number of the next new file. -/
  next : Nat
  /-- The files opened to be overwritten, the last one first. -/
  opened : List Nat
  fresh : ∀ p i, node p = some (.file i) → i < next

/-- The attributes the model does not keep. -/
structure Attrs where
  nlink : Nat
  uid : Nat
  gid : Nat
  mode : Nat
deriving DecidableEq

/-- `fs::Metadata`. -/
structure Metadata extends Attrs where
  kind : Kind

/-! ## What the calls do -/

namespace FileSystem

variable (fs : FileSystem)

/-- The path `n` symbolic links on from `p`. -/
def after : Nat → Path → Option Path
  | 0, p => some p
  | n + 1, p =>
    match fs.node p with
    | some (.symlink dest) => after n (dest p.dir)
    | _ => none

/-- Where at most `n` symbolic links lead. -/
def follow : Nat → Path → Except IoError (Path × Node)
  | 0, _ => .error .other
  | n + 1, p =>
    match fs.node p with
    | some (.symlink dest) => follow n (dest p.dir)
    | some node => .ok (p, node)
    | none => .error .notFound

/-- The links the system follows before it gives up. -/
def maxLinks : Nat := 41

/-- The bytes at the end of the links `p` leads along. -/
def Reads (p : Path) (b : Bytes) : Prop :=
  ∃ n q i, fs.after n p = some q ∧ fs.node q = some (.file i) ∧ fs.data i = b

def kindOf (p : Path) : Except IoError Kind :=
  match fs.node p with
  | some node => .ok node.kind
  | none => .error .notFound

def readLink (p : Path) : Except IoError Path :=
  match fs.node p with
  | some (.symlink dest) => .ok (dest p.dir)
  | some _ => .error .invalid
  | none => .error .notFound

/-- The names of `names` there are in the directory. -/
def listed (dir : Bytes) (names : List Bytes) : List Bytes :=
  names.filter fun name => (fs.node ⟨dir, name⟩).isSome

def fileAt (p : Path) : Except IoError Nat :=
  match fs.follow maxLinks p with
  | .ok (_, .file i) => .ok i
  | .ok (_, .dir) => .error .isDirectory
  | .ok _ => .error .other
  | .error e => .error e

/-- With `p` standing for `node`, which is no new file. -/
def put (p : Path) (node : Option Node) (h : ∀ i, node = some (.file i) → i < fs.next) :
    FileSystem where
  node := Function.update fs.node p node
  data := fs.data
  next := fs.next
  opened := fs.opened
  fresh q i hq := by
    by_cases hqp : q = p
    · subst hqp
      exact h i (by simpa using hq)
    · exact fs.fresh q i (by simpa [hqp] using hq)

/-- With the bytes `b` in file `i`. -/
def setData (i : Nat) (b : Bytes) : FileSystem :=
  { fs with data := Function.update fs.data i b }

def remove (p : Path) : FileSystem := fs.put p none (by simp)

/-- `unlink`. -/
def unlink (p : Path) : Except IoError FileSystem :=
  match fs.node p with
  | some .dir => .error .isDirectory
  | some _ => .ok (fs.remove p)
  | none => .error .notFound

/-- A new empty file at `p`. -/
def create (p : Path) : FileSystem where
  node := Function.update fs.node p (some (.file fs.next))
  data := Function.update fs.data fs.next []
  next := fs.next + 1
  opened := fs.opened
  fresh q i hq := by
    by_cases hqp : q = p
    · subst hqp
      have heq : fs.next = i := by simpa using hq
      omega
    · have hlt := fs.fresh q i (by simpa [hqp] using hq)
      omega

/-- `O_CREAT | O_EXCL`. -/
def createNew (p : Path) : Except IoError (Nat × FileSystem) :=
  match fs.node p with
  | some _ => .error .alreadyExists
  | none => .ok (fs.next, fs.create p)

/-- The first `n` of the bytes `b` written over the beginning of file `i`. -/
def write (i : Nat) (b : Bytes) (n : Nat) : FileSystem :=
  fs.setData i (b.take n ++ (fs.data i).drop (min n b.length))

/-- `ftruncate`. -/
def setLen (i n : Nat) : FileSystem :=
  fs.setData i ((fs.data i).take n ++ List.replicate (n - (fs.data i).length) 0)

def sameFile : Node → Node → Bool
  | .file i, .file j => i == j
  | _, _ => false

/-- `rename`: nothing happens where both names are of one file. -/
def rename (p q : Path) : Except IoError FileSystem :=
  match h : fs.node p with
  | none => .error .notFound
  | some node =>
    if (fs.node q).any (·.kind == .dir) then .error .isDirectory
    else if (fs.node q).any (sameFile node) then .ok fs
    else .ok ((fs.put q (some node) fun i hi => fs.fresh p i (by rw [h, hi])).remove p)

/-- `link`, which does not follow a symbolic link. -/
def link (p q : Path) : Except IoError FileSystem :=
  match h : fs.node p with
  | none => .error .notFound
  | some .dir => .error .permissionDenied
  | some node =>
    if (fs.node q).isSome then .error .alreadyExists
    else .ok (fs.put q (some node) fun i hi => fs.fresh p i (by rw [h, hi]))

end FileSystem

/-! ## The calls and their answers -/

/-- A call. A file that is open is named by its number. -/
inductive Call where
  | symlinkMetadata (p : Path)
  | readLink (p : Path)
  | metadata (p : Path)
  | access (p : Path)
  | readDir (dir : Bytes)
  /-- `kill(pid, 0)`. -/
  | alive (pid : Nat)
  | random
  /-- Whether a path is exempt from backups. -/
  | skipped (p : Path)
  | removeFile (p : Path)
  | createNew (p : Path)
  | openWrite (p : Path)
  | openRead (p : Path)
  | writeAll (i : Nat) (b : Bytes)
  /-- `io::copy`. -/
  | copyBytes (src dst : Nat)
  | setLen (i n : Nat)
  | fstat (i : Nat)
  | fchown (i uid gid : Nat)
  | fchmod (i mode : Nat)
  | setPermissions (p : Path) (mode : Nat)
  | copyXattrs (p : Path) (i : Nat)
  | syncAll (i : Nat)
  | openDir (dir : Bytes)
  | syncDir (dir : Bytes)
  | makeDir (dir : Bytes)
  | rename (p q : Path)
  | hardLink (p q : Path)

@[reducible] def Call.Answer : Call → Type
  | .symlinkMetadata _ => Except IoError Kind
  | .readLink _ => Except IoError Path
  | .metadata _ => Except IoError Metadata
  | .access _ => Bool
  | .readDir _ => Except IoError (List Bytes)
  | .alive _ => Bool
  | .random => Nat
  | .skipped _ => Bool
  | .createNew _ => Except IoError Nat
  | .openWrite _ => Except IoError Nat
  | .openRead _ => Except IoError Nat
  | .fstat _ => Except IoError Attrs
  | _ => Except IoError Unit

/-- What the system does in one call. -/
structure Outcome where
  /-- The error the call fails with. -/
  err : Option IoError
  /-- The bytes of a failed write that arrived; a random number. -/
  count : Nat
  /-- The answer to a question. -/
  yes : Bool
  attrs : Attrs
  /-- A listing. -/
  names : List Bytes

/-- The outcome of the `n`-th call of a save. -/
abbrev Outcomes := Nat → Call → Outcome

namespace Outcome

variable {α : Type} (o : Outcome)

def asks (r : Except IoError α) : Except IoError α :=
  match o.err with
  | some e => .error e
  | none => r

/-- A call that changes the file system. -/
def does (fs : FileSystem) (r : Except IoError (α × FileSystem)) :
    Except IoError α × FileSystem :=
  match o.asks r with
  | .error e => (.error e, fs)
  | .ok (a, next) => (.ok a, next)

def writes (fs : FileSystem) (i : Nat) (b : Bytes) : Except IoError Unit × FileSystem :=
  match o.err with
  | some e => (.error e, fs.write i b o.count)
  | none => (.ok (), fs.write i b b.length)

end Outcome

def FileSystem.answer (os : Outcomes) (n : Nat) : (c : Call) → FileSystem → c.Answer × FileSystem
  | .symlinkMetadata p, fs => ((os n (.symlinkMetadata p)).asks (fs.kindOf p), fs)
  | .readLink p, fs => ((os n (.readLink p)).asks (fs.readLink p), fs)
  | .metadata p, fs =>
    let o := os n (.metadata p)
    (o.asks ((fs.follow maxLinks p).map fun q => ⟨o.attrs, q.2.kind⟩), fs)
  | .access p, fs => ((os n (.access p)).yes, fs)
  | .readDir dir, fs =>
    let o := os n (.readDir dir)
    (o.asks (.ok (fs.listed dir o.names)), fs)
  -- process 0 is the caller's own group
  | .alive pid, fs => (pid == 0 || (os n (.alive pid)).yes, fs)
  | .random, fs => ((os n .random).count % 2 ^ 32, fs)
  | .skipped p, fs => ((os n (.skipped p)).yes, fs)
  | .removeFile p, fs => (os n (.removeFile p)).does fs ((fs.unlink p).map fun next => ((), next))
  | .createNew p, fs => (os n (.createNew p)).does fs (fs.createNew p)
  | .openWrite p, fs =>
    (os n (.openWrite p)).does fs
      ((fs.fileAt p).map fun i => (i, { fs with opened := i :: fs.opened }))
  | .openRead p, fs => ((os n (.openRead p)).asks (fs.fileAt p), fs)
  | .writeAll i b, fs => (os n (.writeAll i b)).writes fs i b
  | .copyBytes src dst, fs => (os n (.copyBytes src dst)).writes fs dst (fs.data src)
  | .setLen i len, fs => (os n (.setLen i len)).does fs (.ok ((), fs.setLen i len))
  | .fstat i, fs =>
    let o := os n (.fstat i)
    (o.asks (.ok o.attrs), fs)
  | .fchown i uid gid, fs => ((os n (.fchown i uid gid)).asks (.ok ()), fs)
  | .fchmod i mode, fs => ((os n (.fchmod i mode)).asks (.ok ()), fs)
  | .setPermissions p mode, fs => ((os n (.setPermissions p mode)).asks (.ok ()), fs)
  | .copyXattrs p i, fs => ((os n (.copyXattrs p i)).asks (.ok ()), fs)
  | .syncAll i, fs => ((os n (.syncAll i)).asks (.ok ()), fs)
  | .openDir dir, fs => ((os n (.openDir dir)).asks (.ok ()), fs)
  | .syncDir dir, fs => ((os n (.syncDir dir)).asks (.ok ()), fs)
  | .makeDir dir, fs => ((os n (.makeDir dir)).asks (.ok ()), fs)
  | .rename p q, fs => (os n (.rename p q)).does fs ((fs.rename p q).map fun next => ((), next))
  | .hardLink p q, fs => (os n (.hardLink p q)).does fs ((fs.link p q).map fun next => ((), next))

/-- A program that makes calls of the file system. -/
abbrev Calls (α : Type) := Prog Call.Answer α

namespace Calls

abbrev symlinkMetadata (p : Path) : Calls (Except IoError Kind) := Prog.ask (Call.symlinkMetadata p)
abbrev readLink (p : Path) : Calls (Except IoError Path) := Prog.ask (Call.readLink p)
abbrev metadata (p : Path) : Calls (Except IoError Metadata) := Prog.ask (Call.metadata p)
abbrev access (p : Path) : Calls Bool := Prog.ask (Call.access p)
abbrev readDir (dir : Bytes) : Calls (Except IoError (List Bytes)) := Prog.ask (Call.readDir dir)
abbrev alive (pid : Nat) : Calls Bool := Prog.ask (Call.alive pid)
abbrev random : Calls Nat := Prog.ask Call.random
abbrev skipped (p : Path) : Calls Bool := Prog.ask (Call.skipped p)
abbrev createNew (p : Path) : Calls (Except IoError Nat) := Prog.ask (Call.createNew p)
abbrev openWrite (p : Path) : Calls (Except IoError Nat) := Prog.ask (Call.openWrite p)
abbrev openRead (p : Path) : Calls (Except IoError Nat) := Prog.ask (Call.openRead p)
abbrev fstat (i : Nat) : Calls (Except IoError Attrs) := Prog.ask (Call.fstat i)
abbrev removeFile (p : Path) : Calls (Except IoError Unit) := Prog.ask (Call.removeFile p)
abbrev writeAll (i : Nat) (b : Bytes) : Calls (Except IoError Unit) := Prog.ask (Call.writeAll i b)
abbrev copyBytes (src dst : Nat) : Calls (Except IoError Unit) := Prog.ask (Call.copyBytes src dst)
abbrev setLen (i n : Nat) : Calls (Except IoError Unit) := Prog.ask (Call.setLen i n)
abbrev fchown (i uid gid : Nat) : Calls (Except IoError Unit) := Prog.ask (Call.fchown i uid gid)
abbrev fchmod (i mode : Nat) : Calls (Except IoError Unit) := Prog.ask (Call.fchmod i mode)
abbrev setPermissions (p : Path) (mode : Nat) : Calls (Except IoError Unit) :=
  Prog.ask (Call.setPermissions p mode)
abbrev copyXattrs (p : Path) (i : Nat) : Calls (Except IoError Unit) := Prog.ask (Call.copyXattrs p i)
abbrev syncAll (i : Nat) : Calls (Except IoError Unit) := Prog.ask (Call.syncAll i)
abbrev openDir (dir : Bytes) : Calls (Except IoError Unit) := Prog.ask (Call.openDir dir)
abbrev syncDir (dir : Bytes) : Calls (Except IoError Unit) := Prog.ask (Call.syncDir dir)
abbrev makeDir (dir : Bytes) : Calls (Except IoError Unit) := Prog.ask (Call.makeDir dir)
abbrev rename (p q : Path) : Calls (Except IoError Unit) := Prog.ask (Call.rename p q)
abbrev hardLink (p q : Path) : Calls (Except IoError Unit) := Prog.ask (Call.hardLink p q)

end Calls

end Ruse.Save
