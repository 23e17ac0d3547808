import Mathlib.Data.List.Induction
import Mathlib.Data.List.Nodup
import Ruse.Core.Pos
import Ruse.Lib.Numerals
import Ruse.Lib.Reader

/-!
# What a trust record binds

The model of `ruse_dir_snapshot` in `apps/tui/src/trust.rs`: the hash of everything below `.ruse/`,
and the bytes of its `config.toml`. A directory is the list of what it holds, in the order in which it
is listed (`Entry`); the walk over the tree keeps the directories it has still to list on a stack.

The stream that is hashed is the records of the files and links in the order of their paths
(`ruseDirSnapshot_eq`), and it spells one list of them only (`records_injective`), so two trees have
one hash exactly when they have the same files and links with the same contents (`trust_binds`).
SHA-256 is a parameter.
-/

namespace Ruse.Tui

open Ruse.Core Ruse.Lib Ruse.Lib.Reader Function

/-! ## Trees -/

/-- The name of a file in its directory. -/
structure FileName where
  bytes : Bytes
  ne_nil : bytes ≠ []
  noSlash : 47 ∉ bytes
  noNul : 0 ∉ bytes

theorem FileName.ext {n n' : FileName} (h : n.bytes = n'.bytes) : n = n' := by
  cases n
  cases n'
  cases h
  rfl

instance : DecidableEq FileName := fun n n' =>
  decidable_of_iff (n.bytes = n'.bytes) ⟨FileName.ext, congrArg _⟩

/-- What a name in a directory stands for; a directory in the order it is listed. -/
inductive Entry where
  | file (bytes : Bytes)
  | link (target : Bytes)
  | dir (children : List (FileName × Entry))
  /-- A FIFO, a socket or a device. -/
  | special

/-- A regular file, or a symbolic link with its target. -/
structure Leaf where
  isLink : Bool
  bytes : Bytes
deriving DecidableEq, Repr

/-! ## The walk -/

inductive HashError where
  | tooManyEntries
  | tooLarge
deriving DecidableEq, Repr

/-- `MAX_HASH_ENTRIES`. -/
def maxHashEntries : Nat := 10000

/-- `MAX_HASH_BYTES`. -/
def maxHashBytes : Nat := 64 * 2 ^ 20

/-- The path of a name below `rel`. -/
def joinPath (rel name : Bytes) : Bytes := if rel = [] then name else rel ++ 47 :: name

/-- The directories still to list, the next one first, and the files and links found. -/
structure Listing where
  dirs : List (List (FileName × Entry) × Bytes)
  entries : List (Bytes × Leaf)

/-- What one name adds to a listing. -/
def Listing.add (st : Listing) (path : Bytes) : Entry → Listing
  | .dir children => { st with dirs := (children, path) :: st.dirs }
  | .file bytes => { st with entries := st.entries ++ [(path, ⟨false, bytes⟩)] }
  | .link target => { st with entries := st.entries ++ [(path, ⟨true, target⟩)] }
  | .special => st

/-- The names of the directory at `rel`. -/
def listDir (rel : Bytes) : List (FileName × Entry) → Listing → Except HashError Listing
  | [], st => .ok st
  | (name, entry) :: rest, st =>
    let st := st.add (joinPath rel name.bytes) entry
    if maxHashEntries < st.entries.length + st.dirs.length then .error .tooManyEntries
    else listDir rel rest st

mutual
def Entry.dirCount : Entry → Nat
  | .dir children => 1 + dirCounts children
  | _ => 0

def dirCounts : List (FileName × Entry) → Nat
  | [] => 0
  | (_, entry) :: rest => entry.dirCount + dirCounts rest
end

/-- The directories there are still to list. -/
def Listing.pending (st : Listing) : Nat := (st.dirs.map fun d => 1 + dirCounts d.1).sum

theorem Listing.pending_add (st : Listing) (path : Bytes) (entry : Entry) :
    (st.add path entry).pending = entry.dirCount + st.pending := by
  cases entry <;> simp [add, pending, Entry.dirCount]

theorem listDir_pending {rel : Bytes} {children : List (FileName × Entry)} {st st' : Listing}
    (h : listDir rel children st = .ok st') : st'.pending = dirCounts children + st.pending := by
  induction children generalizing st with
  | nil =>
    cases h
    exact (Nat.zero_add _).symm
  | cons child rest ih =>
    rw [listDir] at h
    split at h
    · cases h
    · rw [ih h, st.pending_add, dirCounts]
      omega

def walkDirs (st : Listing) : Except HashError (List (Bytes × Leaf)) :=
  match _h : st.dirs with
  | [] => .ok st.entries
  | (children, rel) :: dirs =>
    match _hlist : listDir rel children { st with dirs } with
    | .error e => .error e
    | .ok st' => walkDirs st'
termination_by st.pending
decreasing_by
  rw [listDir_pending _hlist, Listing.pending, Listing.pending, _h, List.map_cons, List.sum_cons]
  dsimp only
  omega

/-! ## The hash -/

/-- `read_bounded`. -/
def readBounded (bytes : Bytes) (limit : Nat) : Except HashError Bytes :=
  if limit < bytes.length then .error .tooLarge else .ok bytes

/-- The bytes of a number, the highest first. -/
def beBytes (n v : Nat) : Bytes := (leBytes n v).reverse

/-- What one entry adds to the stream. -/
def record (path : Bytes) (leaf : Leaf) : Bytes :=
  (if leaf.isLink then 76 else 70) :: path ++ 0 :: beBytes 8 leaf.bytes.length ++ leaf.bytes

/-- `config.toml`. -/
def configName : Bytes := [99, 111, 110, 102, 105, 103, 46, 116, 111, 109, 108]

/-- The stream so far, its bytes of content, and the configuration. -/
structure Hashing where
  stream : Bytes
  total : Nat
  config : Option Bytes

/-- One round of the loop over the entries. -/
def Hashing.entry (st : Hashing) (path : Bytes) (leaf : Leaf) : Except HashError Hashing := do
  let bytes ← if leaf.isLink then pure leaf.bytes else readBounded leaf.bytes (maxHashBytes - st.total)
  let total := st.total + bytes.length
  if maxHashBytes < total then .error .tooLarge
  else pure {
    stream := st.stream ++ record path ⟨leaf.isLink, bytes⟩
    total
    config := if !leaf.isLink && path == configName then some bytes else st.config }

def hashEntries : List (Bytes × Leaf) → Hashing → Except HashError Hashing
  | [], st => .ok st
  | (path, leaf) :: rest, st => do hashEntries rest (← st.entry path leaf)

/-- `ruse-trust-v1\0`. -/
def trustTag : Bytes := [114, 117, 115, 101, 45, 116, 114, 117, 115, 116, 45, 118, 49, 0]

/-- `sha256:`. -/
def shaPrefix : Bytes := [115, 104, 97, 50, 53, 54, 58]

/-- Two hexadecimal digits for each byte. -/
def hex (bytes : Bytes) : Bytes :=
  bytes.flatMap fun b => [digitByte (b.toNat / 16), digitByte (b.toNat % 16)]

structure RuseSnapshot where
  hash : Bytes
  config : Option Bytes
deriving DecidableEq, Repr

/-- The files and links below what `.ruse` stands for. -/
def listEntries : Option Entry → Except HashError (List (Bytes × Leaf))
  | some (.dir children) => walkDirs ⟨[(children, [])], []⟩
  | _ => .ok []

/-- `ruse_dir_snapshot`, of what `.ruse` stands for. The paths differ, so the tuples that are sorted
are in the order of their paths. -/
def ruseDirSnapshot (sha256 : Bytes → Bytes) (base : Option Entry) : Except HashError RuseSnapshot := do
  let entries ← listEntries base
  let entries := entries.mergeSort fun e e' => decide (e.1 ≤ e'.1)
  let st ← hashEntries entries ⟨trustTag, 0, none⟩
  pure ⟨shaPrefix ++ hex (sha256 st.stream), st.config⟩

/-! ## Paths -/

/-- The bytes of a path, its names joined by slashes. -/
def pathBytes (path : List FileName) : Bytes := path.foldl (fun rel name => joinPath rel name.bytes) []

@[simp] theorem pathBytes_concat (path : List FileName) (name : FileName) :
    pathBytes (path ++ [name]) = joinPath (pathBytes path) name.bytes := by
  rw [pathBytes, List.foldl_append]
  rfl

theorem joinPath_ne_nil (rel : Bytes) (name : FileName) : joinPath rel name.bytes ≠ [] := by
  unfold joinPath
  split
  · exact name.ne_nil
  · simp

theorem pathBytes_eq_nil {path : List FileName} : pathBytes path = [] ↔ path = [] := by
  constructor
  · intro h
    rcases List.eq_nil_or_concat path with rfl | ⟨front, name, rfl⟩
    · rfl
    · rw [List.concat_eq_append, pathBytes_concat] at h
      exact absurd h (joinPath_ne_nil _ _)
  · rintro rfl
    rfl

/-- Two lists are cut at their first `stop` alike. -/
theorem append_stop_inj {stop : UInt8} {xs ys ts us : Bytes} (hxs : stop ∉ xs) (hys : stop ∉ ys)
    (h : xs ++ stop :: ts = ys ++ stop :: us) : xs = ys ∧ ts = us := by
  induction xs generalizing ys with
  | nil =>
    cases ys with
    | nil => exact ⟨rfl, (List.cons.inj h).2⟩
    | cons y ys =>
      obtain ⟨rfl, -⟩ := List.cons.inj h
      exact absurd List.mem_cons_self hys
  | cons x xs ih =>
    cases ys with
    | nil =>
      obtain ⟨rfl, -⟩ := List.cons.inj h
      exact absurd List.mem_cons_self hxs
    | cons y ys =>
      obtain ⟨rfl, hrest⟩ := List.cons.inj h
      obtain ⟨rfl, hts⟩ := ih (fun hx => hxs (List.mem_cons_of_mem _ hx))
        (fun hy => hys (List.mem_cons_of_mem _ hy)) hrest
      exact ⟨rfl, hts⟩

theorem joinPath_injective {rel rel' : Bytes} {name name' : FileName}
    (h : joinPath rel name.bytes = joinPath rel' name'.bytes) : rel = rel' ∧ name = name' := by
  unfold joinPath at h
  split at h
  · rename_i hrel
    split at h
    · rename_i hrel'
      exact ⟨hrel.trans hrel'.symm, FileName.ext h⟩
    · exact absurd (h ▸ by simp : (47 : UInt8) ∈ name.bytes) name.noSlash
  · split at h
    · exact absurd (h ▸ by simp : (47 : UInt8) ∈ name'.bytes) name'.noSlash
    · have hback := congrArg List.reverse h
      simp only [List.reverse_append, List.reverse_cons, List.append_assoc, List.singleton_append] at hback
      obtain ⟨hname, hrel⟩ := append_stop_inj (by simpa using name.noSlash)
        (by simpa using name'.noSlash) hback
      exact ⟨List.reverse_injective hrel, FileName.ext (List.reverse_injective hname)⟩

theorem pathBytes_injective {path path' : List FileName} (h : pathBytes path = pathBytes path') :
    path = path' := by
  induction path using List.reverseRecOn generalizing path' with
  | nil => exact (pathBytes_eq_nil.mp h.symm).symm
  | append_singleton front name ih =>
    rcases List.eq_nil_or_concat path' with rfl | ⟨front', name', rfl⟩
    · exact pathBytes_eq_nil.mp h
    · rw [List.concat_eq_append] at *
      rw [pathBytes_concat, pathBytes_concat] at h
      obtain ⟨hrel, rfl⟩ := joinPath_injective h
      rw [ih hrel]

theorem pathBytes_noNul (path : List FileName) : 0 ∉ pathBytes path := by
  induction path using List.reverseRecOn with
  | nil => exact List.not_mem_nil
  | append_singleton front name ih =>
    rw [pathBytes_concat, joinPath]
    split
    · exact name.noNul
    · rw [List.mem_append, List.mem_cons]
      rintro (h | h | h)
      · exact ih h
      · exact absurd h (by decide)
      · exact name.noNul h

/-! ## What a tree holds -/

/-- The file or link at a path of the tree. -/
def Entry.get? : Entry → List FileName → Option Leaf
  | .file bytes, [] => some ⟨false, bytes⟩
  | .link target, [] => some ⟨true, target⟩
  | .dir children, name :: path => (children.lookup name).bind fun entry => entry.get? path
  | _, _ => none

mutual
/-- No directory has two names that are equal. -/
def Entry.Wf : Entry → Prop
  | .dir children => (children.map Prod.fst).Nodup ∧ WfBelow children
  | _ => True

def WfBelow : List (FileName × Entry) → Prop
  | [] => True
  | (_, entry) :: rest => entry.Wf ∧ WfBelow rest
end

mutual
/-- The files and links of a tree that is at `rel`. -/
def Entry.leaves (rel : Bytes) : Entry → List (Bytes × Leaf)
  | .file bytes => [(rel, ⟨false, bytes⟩)]
  | .link target => [(rel, ⟨true, target⟩)]
  | .dir children => leavesBelow rel children
  | .special => []

def leavesBelow (rel : Bytes) : List (FileName × Entry) → List (Bytes × Leaf)
  | [] => []
  | (name, entry) :: rest => entry.leaves (joinPath rel name.bytes) ++ leavesBelow rel rest
end

mutual
/-- The leaves of an entry are what its paths lead to. -/
theorem Entry.mem_leaves (path : List FileName) (p : Bytes) (leaf : Leaf) :
    (entry : Entry) → entry.Wf → ((p, leaf) ∈ entry.leaves (pathBytes path) ↔
      ∃ below, p = pathBytes (path ++ below) ∧ entry.get? below = some leaf)
  | .file bytes, _ => by
    constructor
    · intro h
      obtain ⟨rfl, rfl⟩ := Prod.ext_iff.mp (List.mem_singleton.mp h)
      exact ⟨[], by rw [List.append_nil], rfl⟩
    · rintro ⟨_ | ⟨name, below⟩, hp, hget⟩
      · cases hget
        rw [hp, List.append_nil]
        exact List.mem_singleton_self _
      · cases hget
  | .link target, _ => by
    constructor
    · intro h
      obtain ⟨rfl, rfl⟩ := Prod.ext_iff.mp (List.mem_singleton.mp h)
      exact ⟨[], by rw [List.append_nil], rfl⟩
    · rintro ⟨_ | ⟨name, below⟩, hp, hget⟩
      · cases hget
        rw [hp, List.append_nil]
        exact List.mem_singleton_self _
      · cases hget
  | .dir children, hwf => by
    rw [Entry.leaves, mem_leavesBelow path p leaf children hwf.1 hwf.2]
    constructor
    · rintro ⟨name, below, hp, hget⟩
      exact ⟨name :: below, hp, hget⟩
    · rintro ⟨_ | ⟨name, below⟩, hp, hget⟩
      · cases hget
      · exact ⟨name, below, hp, hget⟩
  | .special, _ => by
    constructor
    · intro h
      cases h
    · rintro ⟨_ | ⟨name, below⟩, hp, hget⟩
      · cases hget
      · cases hget

/-- The leaves below a directory are what the paths from it lead to. -/
theorem mem_leavesBelow (path : List FileName) (p : Bytes) (leaf : Leaf) :
    (children : List (FileName × Entry)) → (children.map Prod.fst).Nodup → WfBelow children →
      ((p, leaf) ∈ leavesBelow (pathBytes path) children ↔ ∃ name below,
        p = pathBytes (path ++ name :: below) ∧
          ((children.lookup name).bind fun entry => entry.get? below) = some leaf)
  | [], _, _ => by
    constructor
    · intro h
      cases h
    · rintro ⟨name, below, -, hget⟩
      cases hget
  | (name, entry) :: rest, hnodup, hwf => by
    rw [List.map_cons, List.nodup_cons] at hnodup
    rw [leavesBelow, List.mem_append, ← pathBytes_concat, Entry.mem_leaves _ p leaf entry hwf.1,
      mem_leavesBelow path p leaf rest hnodup.2 hwf.2]
    constructor
    · rintro (⟨below, hp, hget⟩ | ⟨name', below, hp, hget⟩)
      · refine ⟨name, below, by rw [hp, List.append_assoc]; rfl, ?_⟩
        rw [List.lookup_cons, beq_self_eq_true]
        exact hget
      · have hne : (name' == name) = false := by
          rw [beq_eq_false_iff_ne]
          rintro rfl
          obtain ⟨entry', hlook, -⟩ := Option.bind_eq_some_iff.mp hget
          obtain ⟨front, back, rfl, -⟩ := List.lookup_eq_some_iff.mp hlook
          exact hnodup.1 (by simp)
        refine ⟨name', below, hp, ?_⟩
        rw [List.lookup_cons, hne]
        exact hget
    · rintro ⟨name', below, hp, hget⟩
      rw [List.lookup_cons] at hget
      split at hget
      · rename_i heq
        obtain rfl := eq_of_beq heq
        exact .inl ⟨below, by rw [hp, List.append_assoc]; rfl, hget⟩
      · exact .inr ⟨name', below, hp, hget⟩
end

mutual
theorem Entry.nodup_leaves (path : List FileName) :
    (entry : Entry) → entry.Wf → ((entry.leaves (pathBytes path)).map Prod.fst).Nodup
  | .file _, _ => List.nodup_singleton _
  | .link _, _ => List.nodup_singleton _
  | .dir children, hwf => nodup_leavesBelow path children hwf.1 hwf.2
  | .special, _ => List.nodup_nil

/-- No two leaves have the same path. -/
theorem nodup_leavesBelow (path : List FileName) :
    (children : List (FileName × Entry)) → (children.map Prod.fst).Nodup → WfBelow children →
      ((leavesBelow (pathBytes path) children).map Prod.fst).Nodup
  | [], _, _ => List.nodup_nil
  | (name, entry) :: rest, hnodup, hwf => by
    rw [List.map_cons, List.nodup_cons] at hnodup
    rw [leavesBelow, ← pathBytes_concat, List.map_append, List.nodup_append]
    refine ⟨Entry.nodup_leaves _ entry hwf.1, nodup_leavesBelow path rest hnodup.2 hwf.2, ?_⟩
    intro p hp p' hp' heq
    obtain ⟨⟨p, leaf⟩, hmem, rfl⟩ := List.mem_map.mp hp
    obtain ⟨⟨p', leaf'⟩, hmem', rfl⟩ := List.mem_map.mp hp'
    obtain ⟨below, hp, -⟩ := (Entry.mem_leaves _ p leaf entry hwf.1).mp hmem
    obtain ⟨name', below', hp', hget⟩ := (mem_leavesBelow path p' leaf' rest hnodup.2 hwf.2).mp hmem'
    -- The paths below two names differ in the name.
    have hpath := pathBytes_injective (hp.symm.trans (heq.trans hp'))
    rw [List.append_assoc, List.append_cancel_left_eq] at hpath
    obtain ⟨rfl, -⟩ := List.cons.inj hpath
    obtain ⟨entry', hlook, -⟩ := Option.bind_eq_some_iff.mp hget
    obtain ⟨front, back, rfl, -⟩ := List.lookup_eq_some_iff.mp hlook
    exact hnodup.1 (by simp)
end

/-- The file or link at a path below `.ruse`. -/
def contents : Option Entry → List FileName → Option Leaf
  | some (.dir children), path => (Entry.dir children).get? path
  | _, _ => none

/-- The files and links below `.ruse`. -/
def found : Option Entry → List (Bytes × Leaf)
  | some (.dir children) => leavesBelow [] children
  | _ => []

section
variable {base : Option Entry} (hwf : ∀ entry ∈ base, entry.Wf)
include hwf

theorem mem_found (path : List FileName) {leaf : Leaf} :
    (pathBytes path, leaf) ∈ found base ↔ contents base path = some leaf := by
  unfold found contents
  split
  · rename_i children
    refine Iff.trans (Entry.mem_leaves [] _ leaf (.dir children) (hwf _ rfl)) ?_
    constructor
    · rintro ⟨below, hp, hget⟩
      rwa [pathBytes_injective hp, List.nil_append]
    · intro hget
      exact ⟨path, rfl, hget⟩
  · simp

theorem exists_path {p : Bytes} {leaf : Leaf} (h : (p, leaf) ∈ found base) : ∃ path, p = pathBytes path := by
  unfold found at h
  split at h
  · rename_i children
    obtain ⟨below, hp, -⟩ := (Entry.mem_leaves [] _ leaf (.dir children) (hwf _ rfl)).mp h
    exact ⟨below, hp⟩
  · cases h

theorem nodup_found : ((found base).map Prod.fst).Nodup := by
  unfold found
  split
  · rename_i children
    exact Entry.nodup_leaves [] (.dir children) (hwf _ rfl)
  · exact List.nodup_nil

end

/-! ## The walk finds them all -/

/-- What a listing has found and has still to find. -/
def Listing.found (st : Listing) : List (Bytes × Leaf) :=
  st.entries ++ st.dirs.flatMap fun d => leavesBelow d.2 d.1

theorem Listing.found_add (st : Listing) (path : Bytes) (entry : Entry) :
    (st.add path entry).found.Perm (entry.leaves path ++ st.found) := by
  cases entry with
  | file bytes =>
    rw [Listing.add, found, List.append_assoc]
    exact List.perm_append_comm_assoc _ _ _
  | link target =>
    rw [Listing.add, found, List.append_assoc]
    exact List.perm_append_comm_assoc _ _ _
  | dir children =>
    rw [Listing.add, found, List.flatMap_cons, Entry.leaves]
    exact List.perm_append_comm_assoc _ _ _
  | special => exact .refl _

theorem listDir_found {rel : Bytes} {children : List (FileName × Entry)} {st st' : Listing}
    (h : listDir rel children st = .ok st') : st'.found.Perm (leavesBelow rel children ++ st.found) := by
  induction children generalizing st with
  | nil =>
    cases h
    exact .refl _
  | cons child rest ih =>
    obtain ⟨name, entry⟩ := child
    rw [listDir] at h
    split at h
    · cases h
    · refine (ih h).trans ?_
      rw [leavesBelow, List.append_assoc]
      refine ((st.found_add _ entry).append_left _).trans ?_
      exact List.perm_append_comm_assoc _ _ _

/-- A directory of few enough entries is listed. -/
theorem listDir_ok (rel : Bytes) (children : List (FileName × Entry)) (st : Listing)
    (h : (leavesBelow rel children).length + dirCounts children + st.found.length + st.pending ≤
      maxHashEntries) : ∃ st', listDir rel children st = .ok st' := by
  induction children generalizing st with
  | nil => exact ⟨st, rfl⟩
  | cons child rest ih =>
    obtain ⟨name, entry⟩ := child
    have hfound := (st.found_add (joinPath rel name.bytes) entry).length_eq
    have hpending := st.pending_add (joinPath rel name.bytes) entry
    rw [leavesBelow, dirCounts, List.length_append] at h
    rw [List.length_append] at hfound
    have hcount (st : Listing) : st.entries.length + st.dirs.length ≤ st.found.length + st.pending := by
      have hdirs : st.dirs.length ≤ st.pending := by
        rw [Listing.pending]
        induction st.dirs with
        | nil => exact Nat.le_refl 0
        | cons d dirs ih => simp only [List.map_cons, List.sum_cons, List.length_cons]; omega
      rw [Listing.found, List.length_append]
      omega
    have hle := hcount (st.add (joinPath rel name.bytes) entry)
    rw [listDir, if_neg (by omega)]
    exact ih _ (by omega)

theorem Listing.found_pop {st : Listing} {children : List (FileName × Entry)} {rel : Bytes}
    {dirs : List (List (FileName × Entry) × Bytes)} (h : st.dirs = (children, rel) :: dirs) :
    st.found.Perm (leavesBelow rel children ++ Listing.found { st with dirs }) := by
  rw [found, found, h, List.flatMap_cons]
  exact List.perm_append_comm_assoc _ _ _

theorem walkDirs_found {st : Listing} {entries : List (Bytes × Leaf)} (h : walkDirs st = .ok entries) :
    entries.Perm st.found := by
  fun_induction walkDirs st with
  | case1 st hdirs =>
    cases h
    rw [Listing.found, hdirs, List.flatMap_nil, List.append_nil]
  | case2 st children rel dirs hdirs e hlist => cases h
  | case3 st children rel dirs hdirs st' hlist ih =>
    exact ((ih h).trans (listDir_found hlist)).trans (Listing.found_pop hdirs).symm

/-- A walk of few enough entries is done. -/
theorem walkDirs_ok {st : Listing} (h : st.found.length + st.pending ≤ maxHashEntries + 1) :
    ∃ entries, walkDirs st = .ok entries := by
  fun_induction walkDirs st with
  | case1 st hdirs => exact ⟨st.entries, rfl⟩
  | case2 st children rel dirs hdirs e hlist =>
    have hpop := (Listing.found_pop hdirs).length_eq
    rw [List.length_append] at hpop
    rw [Listing.pending, hdirs, List.map_cons, List.sum_cons] at h
    obtain ⟨st', hst'⟩ := listDir_ok rel children { st with dirs } (by
      rw [Listing.pending]
      dsimp only at h ⊢
      omega)
    rw [hst'] at hlist
    cases hlist
  | case3 st children rel dirs hdirs st' hlist ih =>
    apply ih
    have hpop := (Listing.found_pop hdirs).length_eq
    have hlen := (listDir_found hlist).length_eq
    rw [List.length_append] at hpop hlen
    rw [listDir_pending hlist]
    rw [Listing.pending, hdirs, List.map_cons, List.sum_cons] at h
    rw [Listing.pending]
    dsimp only at h ⊢
    omega

/-! ## The stream -/

theorem beBytes_injective {n v v' : Nat} (hv : v < 256 ^ n) (hv' : v' < 256 ^ n)
    (h : beBytes n v = beBytes n v') : v = v' := by
  have hle := List.reverse_injective h
  calc v = leValue (leBytes n v) := (leValue_leBytes hv).symm
    _ = leValue (leBytes n v') := by rw [hle]
    _ = v' := leValue_leBytes hv'

/-- What a stream can hold: the path without a NUL and contents of a length in 64 bits. -/
def Recordable (e : Bytes × Leaf) : Prop := 0 ∉ e.1 ∧ e.2.bytes.length < 256 ^ 8

theorem record_inj {e e' : Bytes × Leaf} {ts us : Bytes} (he : Recordable e) (he' : Recordable e')
    (h : record e.1 e.2 ++ ts = record e'.1 e'.2 ++ us) : e = e' ∧ ts = us := by
  obtain ⟨p, isLink, bytes⟩ := e
  obtain ⟨p', isLink', bytes'⟩ := e'
  obtain ⟨hp, hbytes⟩ : 0 ∉ p ∧ bytes.length < 256 ^ 8 := he
  obtain ⟨hp', hbytes'⟩ : 0 ∉ p' ∧ bytes'.length < 256 ^ 8 := he'
  simp only [record, List.cons_append, List.append_assoc] at h
  obtain ⟨hkind, hpath⟩ := List.cons.inj h
  obtain ⟨rfl, hlength⟩ := append_stop_inj hp hp' hpath
  obtain ⟨hlen, hrest⟩ := List.append_inj hlength (by simp [beBytes])
  obtain ⟨rfl, rfl⟩ := List.append_inj hrest (beBytes_injective hbytes hbytes' hlen)
  have hlink : isLink = isLink' := by
    cases isLink <;> cases isLink' <;> simp at hkind ⊢
  rw [hlink]
  exact ⟨rfl, rfl⟩

theorem records_injective {es es' : List (Bytes × Leaf)} (hes : ∀ e ∈ es, Recordable e)
    (hes' : ∀ e ∈ es', Recordable e)
    (h : (es.flatMap fun e => record e.1 e.2) = es'.flatMap fun e => record e.1 e.2) : es = es' := by
  induction es generalizing es' with
  | nil =>
    cases es' with
    | nil => rfl
    | cons e' es' => exact absurd h.symm (by simp [record])
  | cons e es ih =>
    cases es' with
    | nil => exact absurd h (by simp [record])
    | cons e' es' =>
      rw [List.flatMap_cons, List.flatMap_cons] at h
      obtain ⟨rfl, hrest⟩ := record_inj (hes e List.mem_cons_self) (hes' e' List.mem_cons_self) h
      rw [ih (fun x hx => hes x (List.mem_cons_of_mem _ hx))
        (fun x hx => hes' x (List.mem_cons_of_mem _ hx)) hrest]

/-- Two hashes of one spelling are one. -/
theorem hex_injective : Injective hex := by
  intro bs bs' h
  induction bs generalizing bs' with
  | nil =>
    cases bs' with
    | nil => rfl
    | cons b' bs' => exact absurd h.symm (by simp [hex])
  | cons b bs ih =>
    cases bs' with
    | nil => exact absurd h (by simp [hex])
    | cons b' bs' =>
      rw [hex, hex, List.flatMap_cons, List.flatMap_cons] at h
      obtain ⟨hdigits, hrest⟩ := List.append_inj h rfl
      have hdigit {d d' : Nat} (hd : d < 16) (hd' : d' < 16) (h : digitByte d = digitByte d') : d = d' := by
        have hv := congrArg digitValue h
        rw [digitValue_digitByte hd, digitValue_digitByte hd'] at hv
        exact Option.some.inj hv
      have hb := b.toNat_lt
      have hb' := b'.toNat_lt
      obtain ⟨hhigh, hlow⟩ := List.cons.inj hdigits
      have hhigh := hdigit (by omega) (by omega) hhigh
      have hlow := hdigit (by omega) (by omega) (List.cons.inj hlow).1
      rw [UInt8.toNat.inj (a := b) (b := b') (by omega), ih hrest]

/-! ## The loop over the entries -/

/-- One entry goes into the stream as it is, and `config.toml` is kept. -/
theorem Hashing.entry_ok {st st' : Hashing} {path : Bytes} {leaf : Leaf} (h : st.entry path leaf = .ok st') :
    leaf.bytes.length ≤ maxHashBytes ∧ st' = {
      stream := st.stream ++ record path leaf
      total := st.total + leaf.bytes.length
      config := if !leaf.isLink && path == configName then some leaf.bytes else st.config } := by
  obtain ⟨isLink, bytes⟩ := leaf
  cases isLink with
  | true =>
    simp only [entry, if_pos, pure, Except.pure, bind, Except.bind] at h
    split at h
    · cases h
    · cases h
      exact ⟨by dsimp only; omega, rfl⟩
  | false =>
    simp only [entry, readBounded, pure, Except.pure, bind, Except.bind, Bool.false_eq_true, if_false] at h
    split at h
    · cases h
    · rename_i read hread
      split at hread
      · cases hread
      · cases hread
        split at h
        · cases h
        · cases h
          exact ⟨by dsimp only; omega, rfl⟩

theorem Hashing.exists_entry (st : Hashing) (path : Bytes) (leaf : Leaf)
    (h : st.total + leaf.bytes.length ≤ maxHashBytes) :
    ∃ st', st.entry path leaf = .ok st' ∧ st'.total = st.total + leaf.bytes.length := by
  obtain ⟨isLink, bytes⟩ := leaf
  cases isLink with
  | true =>
    simp only [entry, if_pos, pure, Except.pure, bind, Except.bind]
    rw [if_neg (Nat.not_lt.mpr h)]
    exact ⟨_, rfl, rfl⟩
  | false =>
    simp only [entry, readBounded, pure, Except.pure, bind, Except.bind, Bool.false_eq_true, if_false]
    rw [if_neg (by dsimp only at h; omega)]
    dsimp only
    rw [if_neg (Nat.not_lt.mpr h)]
    exact ⟨_, rfl, rfl⟩

/-- Hashing the entries streams the record of each, all below the size limit. -/
theorem hashEntries_ok {es : List (Bytes × Leaf)} {st st' : Hashing} (h : hashEntries es st = .ok st') :
    (∀ e ∈ es, e.2.bytes.length ≤ maxHashBytes) ∧
      st'.stream = st.stream ++ es.flatMap fun e => record e.1 e.2 := by
  induction es generalizing st with
  | nil =>
    cases h
    exact ⟨by simp, (List.append_nil _).symm⟩
  | cons e es ih =>
    obtain ⟨path, leaf⟩ := e
    cases hentry : st.entry path leaf with
    | error err =>
      rw [hashEntries, hentry] at h
      cases h
    | ok next =>
      rw [hashEntries, hentry] at h
      obtain ⟨hlen, rfl⟩ := Hashing.entry_ok hentry
      obtain ⟨hrest, hstream⟩ := ih h
      refine ⟨List.forall_mem_cons.mpr ⟨hlen, hrest⟩, ?_⟩
      rw [hstream, List.flatMap_cons, List.append_assoc]

theorem exists_hashEntries (es : List (Bytes × Leaf)) (st : Hashing)
    (h : st.total + (es.map fun e => e.2.bytes.length).sum ≤ maxHashBytes) :
    ∃ st', hashEntries es st = .ok st' := by
  induction es generalizing st with
  | nil => exact ⟨st, rfl⟩
  | cons e es ih =>
    obtain ⟨path, leaf⟩ := e
    rw [List.map_cons, List.sum_cons] at h
    obtain ⟨next, hnext, htotal⟩ := st.exists_entry path leaf (by dsimp only at h; omega)
    obtain ⟨st', hst'⟩ := ih next (by rw [htotal]; dsimp only at h; omega)
    refine ⟨st', ?_⟩
    rw [hashEntries, hnext]
    exact hst'

/-- The configuration is that of the one file `config.toml`. -/
theorem hashEntries_config {es : List (Bytes × Leaf)} {st st' : Hashing} (h : hashEntries es st = .ok st')
    (hnodup : (es.map Prod.fst).Nodup) (bytes : Bytes) :
    st'.config = some bytes ↔ (configName, ⟨false, bytes⟩) ∈ es ∨
      st.config = some bytes ∧ ∀ b, (configName, ⟨false, b⟩) ∉ es := by
  induction es generalizing st with
  | nil =>
    cases h
    simp
  | cons e es ih =>
    obtain ⟨path, leaf⟩ := e
    rw [List.map_cons, List.nodup_cons] at hnodup
    cases hentry : st.entry path leaf with
    | error err =>
      rw [hashEntries, hentry] at h
      cases h
    | ok next =>
      rw [hashEntries, hentry] at h
      obtain ⟨-, rfl⟩ := Hashing.entry_ok hentry
      rw [ih h hnodup.2]
      by_cases hconfig : path = configName ∧ leaf.isLink = false
      · obtain ⟨rfl, hlink⟩ := hconfig
        obtain ⟨isLink, content⟩ := leaf
        cases hlink
        have hnone (b : Bytes) : (configName, (⟨false, b⟩ : Leaf)) ∉ es := fun hmem =>
          hnodup.1 (List.mem_map.mpr ⟨_, hmem, rfl⟩)
        simp [hnone, eq_comm]
      · have hkeep : (!leaf.isLink && path == configName) = false := by
          rw [Bool.and_eq_false_iff]
          by_cases hlink : leaf.isLink = true
          · exact .inl (by rw [hlink]; rfl)
          · exact .inr (beq_eq_false_iff_ne.mpr fun hp => hconfig ⟨hp, by simpa using hlink⟩)
        have hother (b : Bytes) : (configName, (⟨false, b⟩ : Leaf)) ≠ (path, leaf) := by
          intro heq
          obtain ⟨rfl, rfl⟩ := Prod.ext_iff.mp heq
          exact hconfig ⟨rfl, rfl⟩
        simp [hkeep, hother]

/-! ## The snapshot -/

/-- What a snapshot says of a tree: its entries in the order of their paths, hashed. -/
structure Hashed (sha256 : Bytes → Bytes) (base : Option Entry) (s : RuseSnapshot)
    (entries : List (Bytes × Leaf)) : Prop where
  perm : entries.Perm (found base)
  sorted : entries.Pairwise fun e e' => e.1 ≤ e'.1
  bounded : ∀ e ∈ entries, e.2.bytes.length ≤ maxHashBytes
  hash : s.hash = shaPrefix ++ hex (sha256 (trustTag ++ entries.flatMap fun e => record e.1 e.2))
  config : ∀ bytes, s.config = some bytes ↔ (configName, ⟨false, bytes⟩) ∈ entries

theorem Hashed.recordable {sha256 : Bytes → Bytes} {base : Option Entry} {s : RuseSnapshot}
    {entries : List (Bytes × Leaf)} (hs : Hashed sha256 base s entries) (hwf : ∀ entry ∈ base, entry.Wf) :
    ∀ e ∈ entries, Recordable e := by
  rintro ⟨p, leaf⟩ he
  obtain ⟨path, rfl⟩ := exists_path hwf (hs.perm.mem_iff.mp he)
  exact ⟨pathBytes_noNul path, (hs.bounded _ he).trans_lt (by decide)⟩

section
variable {sha256 : Bytes → Bytes} {base : Option Entry}

theorem sort_sorted (entries : List (Bytes × Leaf)) :
    (entries.mergeSort fun e e' => decide (e.1 ≤ e'.1)).Pairwise fun e e' => e.1 ≤ e'.1 := by
  have hsort := @List.pairwise_mergeSort (Bytes × Leaf) (fun e e' => decide (e.1 ≤ e'.1))
    (fun a b c hab hbc => by
      rw [decide_eq_true_eq] at *
      exact List.le_trans hab hbc)
    (fun a b => by
      rw [Bool.or_eq_true, decide_eq_true_eq, decide_eq_true_eq]
      exact List.le_total a.1 b.1) entries
  exact hsort.imp fun h => of_decide_eq_true h

theorem listEntries_found {listed : List (Bytes × Leaf)} (h : listEntries base = .ok listed) :
    listed.Perm (found base) := by
  unfold listEntries at h
  unfold found
  split at h
  · simpa [Listing.found] using walkDirs_found h
  · cases h
    exact .refl _

/-- A snapshot is the hash of the entries below the directory. -/
theorem ruseDirSnapshot_eq {s : RuseSnapshot} (hwf : ∀ entry ∈ base, entry.Wf)
    (h : ruseDirSnapshot sha256 base = .ok s) : ∃ entries, Hashed sha256 base s entries := by
  unfold ruseDirSnapshot at h
  cases hlist : listEntries base with
  | error e =>
    rw [hlist] at h
    cases h
  | ok listed =>
    rw [hlist] at h
    simp only [bind, Except.bind] at h
    have hperm := (List.mergeSort_perm listed fun e e' => decide (e.1 ≤ e'.1)).trans (listEntries_found hlist)
    cases hhash : hashEntries (listed.mergeSort fun e e' => decide (e.1 ≤ e'.1)) ⟨trustTag, 0, none⟩ with
    | error e =>
      rw [hhash] at h
      cases h
    | ok st =>
      rw [hhash] at h
      cases h
      obtain ⟨hbounded, hstream⟩ := hashEntries_ok hhash
      have hnodup := (hperm.map Prod.fst).nodup_iff.mpr (nodup_found hwf)
      refine ⟨_, hperm, sort_sorted listed, hbounded, ?_, fun bytes => ?_⟩
      · rw [hstream]
      · rw [hashEntries_config hhash hnodup]
        simp

/-- The directories below `.ruse`. -/
def dirsBelow : Option Entry → Nat
  | some (.dir children) => dirCounts children
  | _ => 0

def Fits (base : Option Entry) : Prop :=
  (found base).length + dirsBelow base ≤ maxHashEntries ∧
    ((found base).map fun e => e.2.bytes.length).sum ≤ maxHashBytes

/-- A directory that fits has a snapshot. -/
theorem exists_snapshot (hfits : Fits base) : ∃ s, ruseDirSnapshot sha256 base = .ok s := by
  obtain ⟨hentries, hbytes⟩ := hfits
  obtain ⟨listed, hlist⟩ : ∃ listed, listEntries base = .ok listed := by
    unfold listEntries
    split
    · rename_i children
      apply walkDirs_ok
      simp only [found, dirsBelow] at hentries
      simp only [Listing.found, Listing.pending, List.nil_append, List.flatMap_cons, List.flatMap_nil,
        List.append_nil, List.map_cons, List.map_nil, List.sum_cons, List.sum_nil]
      omega
    · exact ⟨[], rfl⟩
  have hperm := (List.mergeSort_perm listed fun e e' => decide (e.1 ≤ e'.1)).trans (listEntries_found hlist)
  have hsum := (hperm.map fun e => e.2.bytes.length).sum_nat
  obtain ⟨st, hst⟩ := exists_hashEntries (listed.mergeSort fun e e' => decide (e.1 ≤ e'.1))
    ⟨trustTag, 0, none⟩ (by
      rw [hsum]
      exact (Nat.zero_add _).trans_le hbytes)
  refine ⟨⟨shaPrefix ++ hex (sha256 st.stream), st.config⟩, ?_⟩
  unfold ruseDirSnapshot
  rw [hlist]
  simp only [bind, Except.bind]
  rw [hst]
  rfl

theorem eq_of_sorted {es es' : List (Bytes × Leaf)} (hnodup : (es.map Prod.fst).Nodup) (hperm : es.Perm es')
    (hes : es.Pairwise fun e e' => e.1 ≤ e'.1) (hes' : es'.Pairwise fun e e' => e.1 ≤ e'.1) : es = es' := by
  refine List.Perm.eq_of_pairwise (fun a b ha hb hab hba => ?_) hes hes' hperm
  have hpath : a.1 = b.1 := List.le_antisymm hab hba
  exact List.inj_on_of_nodup_map hnodup ha (hperm.mem_iff.mpr hb) hpath

end

/-- The file `config.toml` at the top. -/
def configFile : FileName := ⟨configName, by decide, by decide, by decide⟩

/-- Where SHA-256 is injective, two trees have one hash exactly if they have the same files and links
with the same contents, in whatever order their directories are listed. The configuration is what was
hashed for `config.toml`. -/
theorem trust_binds {sha256 : Bytes → Bytes} (hsha : Injective sha256) {base base' : Option Entry}
    (hwf : ∀ entry ∈ base, entry.Wf) (hwf' : ∀ entry ∈ base', entry.Wf) :
    (Fits base → ∃ s, ruseDirSnapshot sha256 base = .ok s) ∧
    ∀ s s', ruseDirSnapshot sha256 base = .ok s → ruseDirSnapshot sha256 base' = .ok s' →
      (s.hash = s'.hash ↔ ∀ path, contents base path = contents base' path) ∧
      (∃ entries, Hashed sha256 base s entries) ∧
      ∀ bytes, s.config = some bytes ↔ contents base [configFile] = some ⟨false, bytes⟩ := by
  refine ⟨exists_snapshot, fun s s' h h' => ?_⟩
  obtain ⟨entries, hs⟩ := ruseDirSnapshot_eq hwf h
  obtain ⟨entries', hs'⟩ := ruseDirSnapshot_eq hwf' h'
  refine ⟨⟨fun heq => ?_, fun hsame => ?_⟩, ⟨entries, hs⟩, fun bytes => ?_⟩
  · rw [hs.hash, hs'.hash] at heq
    have hstream := List.append_cancel_left (hsha (hex_injective (List.append_cancel_left heq)))
    obtain rfl := records_injective (hs.recordable hwf) (hs'.recordable hwf') hstream
    intro path
    refine Option.ext fun leaf => ?_
    rw [← mem_found hwf, ← mem_found hwf', ← hs.perm.mem_iff, hs'.perm.mem_iff]
  · have hmem (e : Bytes × Leaf) : e ∈ found base ↔ e ∈ found base' := by
      constructor
      · intro he
        obtain ⟨path, hpath⟩ := exists_path hwf he
        obtain ⟨p, leaf⟩ := e
        obtain rfl : p = pathBytes path := hpath
        rw [mem_found hwf', ← hsame, ← mem_found hwf]
        exact he
      · intro he
        obtain ⟨path, hpath⟩ := exists_path hwf' he
        obtain ⟨p, leaf⟩ := e
        obtain rfl : p = pathBytes path := hpath
        rw [mem_found hwf, hsame, ← mem_found hwf']
        exact he
    have hfound := (List.perm_ext_iff_of_nodup (List.Nodup.of_map _ (nodup_found hwf))
      (List.Nodup.of_map _ (nodup_found hwf'))).mpr hmem
    have hnodup := (hs.perm.map Prod.fst).nodup_iff.mpr (nodup_found hwf)
    obtain rfl := eq_of_sorted hnodup ((hs.perm.trans hfound).trans hs'.perm.symm) hs.sorted hs'.sorted
    rw [hs.hash, hs'.hash]
  · rw [hs.config, hs.perm.mem_iff]
    exact mem_found hwf [configFile]

/-- A function that knows one digest, and keeps all else apart from it. -/
def knownDigest (stream digest : Bytes) (bytes : Bytes) : Bytes :=
  if bytes = stream then digest else List.replicate (digest.length + 1) 0 ++ bytes

theorem knownDigest_injective (stream digest : Bytes) : Injective (knownDigest stream digest) := by
  intro bs bs' h
  unfold knownDigest at h
  split at h
  · split at h
    · simp_all
    · have hlen := congrArg List.length h
      rw [List.length_append, List.length_replicate] at hlen
      omega
  · split at h
    · have hlen := congrArg List.length h
      rw [List.length_append, List.length_replicate] at hlen
      omega
    · exact List.append_cancel_left h

/-- `config.toml` and a link `l`, listed in both orders. -/
theorem trust_binds_listed :
    let sha256 := knownDigest
      (trustTag ++ record configName ⟨false, [120]⟩ ++ record [108] ⟨true, [121]⟩)
      [225, 98, 140, 32, 111, 35, 230, 214, 103, 232, 25, 251, 162, 134, 124, 25, 182, 108, 224,
       220, 204, 232, 57, 90, 22, 224, 30, 143, 219, 27, 68, 217]
    let link : FileName := ⟨[108], by decide, by decide, by decide⟩
    let base := some (.dir [(configFile, .file [120]), (link, .link [121])])
    let base' := some (.dir [(link, .link [121]), (configFile, .file [120])])
    ∃ s s', ruseDirSnapshot sha256 base = .ok s ∧ ruseDirSnapshot sha256 base' = .ok s' ∧
      s.hash = s'.hash ∧ s.config = some [120] := by
  intro sha256 link base base'
  have hsha : Injective sha256 := knownDigest_injective _ _
  have hwf : ∀ entry ∈ base, entry.Wf := by
    intro entry hentry
    obtain rfl := Option.some.inj hentry
    exact ⟨by decide, trivial, trivial, trivial⟩
  have hwf' : ∀ entry ∈ base', entry.Wf := by
    intro entry hentry
    obtain rfl := Option.some.inj hentry
    exact ⟨by decide, trivial, trivial, trivial⟩
  obtain ⟨s, hs⟩ := (trust_binds hsha hwf hwf').1 ⟨by decide, by decide⟩
  obtain ⟨s', hs'⟩ := (trust_binds hsha hwf' hwf).1 ⟨by decide, by decide⟩
  obtain ⟨hhash, -, hconfig⟩ := (trust_binds hsha hwf hwf').2 s s' hs hs'
  refine ⟨s, s', hs, hs', hhash.mpr fun path => ?_, (hconfig [120]).mpr rfl⟩
  cases path with
  | nil => rfl
  | cons name path =>
    by_cases hconfigName : name = configFile
    · subst hconfigName
      rfl
    · by_cases hlink : name = link
      · subst hlink
        rfl
      · simp [base, base', contents, Entry.get?, List.lookup_cons, beq_eq_false_iff_ne.mpr hconfigName,
          beq_eq_false_iff_ne.mpr hlink]

end Ruse.Tui
