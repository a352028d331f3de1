import Mathlib.Algebra.Group.Nat.Defs
import SystemsProjects.CallOutcomes

/-!
# The state of the virtual file system

Open files, vnodes in memory and the table of ramfs inodes, with the operations of
`fs/vnode.c` that every call is built from. One ramfs is mounted, so a vnode is given by
its inode number and `vfs_root_vn` by 0. A vnode is on the list of vnodes in use while its
reference count is positive; the fields of a vnode that has been freed are kept, which is
what a stale pointer still reads. ramfs has no page operations, so `vn_nrespages` is 0
throughout.

A call stops with `panic` at a failed assertion or an access to what is not there, and with
a fault of its own kind where it calls a missing vnode operation, gives a null pointer to
`vput`, reads an output that was never set or overruns a buffer. The
fields `held` and `late` are not in the source: they note which vnode references the call
itself has taken and whether it used a vnode that it no longer holds. `opened` and `closed`
note which vnode each file got and which was put when it was freed.
-/
namespace SystemsProjects.VfsState
open Function CallOutcomes

abbrev Name := List Char

inductive VfsErrno where
  | ebadf
  | eexist
  | einval
  | eisdir
  | emfile
  | enametoolong
  | enoent
  | enospc
  | enotdir
  | enotempty
  deriving DecidableEq, Repr

/-- A return value: a number, or the negative of an error number. -/
inductive Ret where
  | val (n : ℤ)
  | err (e : VfsErrno)
  deriving DecidableEq, Repr

def Ret.failed : Ret → Bool
  | .val _ => false
  | .err _ => true

inductive VfsFault where
  | nullOp
  | nullVput
  | unsetRead
  | overrun
  | panic
  deriving DecidableEq, Repr

/-- An entry of a directory; the entry is free when the name is empty. -/
structure Dirent where
  rdIno : ℕ
  rdName : Name
  deriving DecidableEq, Repr

/-- `rf_mode` with what `rf_mem` holds for it. -/
inductive RamfsNode where
  | data (page : ℕ → UInt8)
  | dir (entries : List Dirent)
  | chr (devid : ℕ)
  | blk (devid : ℕ)

/-- The type bits of `vn_mode`, which also decide `vn_ops`. -/
inductive VnodeKind where
  | reg
  | dir
  | chr
  | blk
  deriving DecidableEq, Repr

def RamfsNode.kind : RamfsNode → VnodeKind
  | .data _ => .reg
  | .dir _ => .dir
  | .chr _ => .chr
  | .blk _ => .blk

structure Inode where
  rfSize : ℤ
  rfLinkcount : ℤ
  rfNode : RamfsNode

structure Vnode where
  vnRefcount : ℕ
  vnMode : VnodeKind
  vnLen : ℤ
  deriving DecidableEq, Repr

structure File where
  fPos : ℤ
  fMode : ℕ
  fRefcount : ℕ
  fVnode : Option ℕ
  deriving DecidableEq, Repr

/-- The part of a process that the file system reads. -/
structure VProc where
  pFiles : List (Option ℕ)
  pCwd : Option ℕ
  deriving DecidableEq, Repr

/-- Processes are given by their place in `procs` and files by a number of their own. -/
structure VState where
  procs : List VProc
  files : ℕ → Option File
  nextFile : ℕ
  vnodes : ℕ → Option Vnode
  inodes : ℕ → Option Inode
  memory : Bool
  held : List ℕ
  late : Bool
  opened : List (ℕ × ℕ)
  closed : List (ℕ × ℕ)

structure Halt where
  fault : VfsFault
  late : Bool
  deriving DecidableEq, Repr

abbrev Vfs (α : Type) := Call VState Halt α

def NFILES : ℕ := 32
def NAME_LEN : ℕ := 28
def MAXPATHLEN : ℕ := 1024
def PAGE_SIZE : ℕ := 4096
def RAMFS_MAX_FILES : ℕ := 64
def RAMFS_MAX_DIRENT : ℕ := 128
def direntSize : ℕ := 32

/-- The sum of two `int` values as the machine computes it. -/
def addInt (a b : ℤ) : ℤ := (a+b).bmod (2^32)

def stop (e : VfsFault) {α : Type} : Vfs α := fun s => .error ⟨e, s.late⟩

/-- Reads an output parameter; `none` stands for one that was never set. -/
def readOut {α : Type} : Option α → Vfs α
  | some a => pure a
  | none => stop .unsetRead

def VState.setInode (s : VState) (i : ℕ) (x : Option Inode) : VState :=
  { s with inodes := update s.inodes i x }

def VState.setVnode (s : VState) (v : ℕ) (x : Vnode) : VState :=
  { s with vnodes := update s.vnodes v (some x) }

def VState.setFile (s : VState) (f : ℕ) (x : Option File) : VState :=
  { s with files := update s.files f x }

/-- The number of references to the vnode of an inode. -/
def VState.refs (s : VState) (v : ℕ) : ℕ := ((s.vnodes v).map Vnode.vnRefcount).getD 0

theorem VState.refs_setVnode_self (s : VState) (v : ℕ) (x : Vnode) :
    (s.setVnode v x).refs v = x.vnRefcount := by simp [VState.refs, VState.setVnode]

theorem VState.refs_setVnode_of_ne (s : VState) {v w : ℕ} (x : Vnode) (h : w ≠ v) :
    (s.setVnode v x).refs w = s.refs w := by simp [VState.refs, VState.setVnode, h]

/-- The call uses a vnode through a pointer of its own. -/
def touch (v : ℕ) : Vfs Unit := fun s =>
  .ok ((), { s with late := s.late || !s.held.contains v })

def vnodeAt (v : ℕ) : Vfs Vnode := fun s =>
  match s.vnodes v with
  | some vn => .ok (vn, s)
  | none => stop .panic s

/-- `vn->vn_mode` through a pointer that the call got from a lookup. -/
def vnMode (v : ℕ) : Vfs VnodeKind := do
  touch v
  let vn ← vnodeAt v
  return vn.vnMode

/-- A call through `vn_ops` of an operation that only directories have. -/
def dirOp (v : ℕ) : Vfs Unit := do
  let k ← vnMode v
  if k = .dir then pure () else stop .nullOp

def vref (v : ℕ) : Vfs Unit := fun s =>
  match s.vnodes v with
  | some vn =>
    if 0 < vn.vnRefcount then
      .ok ((), s.setVnode v { vn with vnRefcount := vn.vnRefcount+1 })
    else stop .panic s
  | none => stop .panic s

/-- `ramfs_read_vnode` on a new vnode. -/
def ramfsReadVnode (s : VState) (v : ℕ) (inode : Inode) : VState :=
  (s.setInode v (some { inode with rfLinkcount := inode.rfLinkcount+1 })).setVnode v
    ⟨1, inode.rfNode.kind, inode.rfSize⟩

/-- `vget`, with the new reference noted as the call's own. -/
def vget (v : ℕ) : Vfs Unit := fun s =>
  if 0 < s.refs v then
    match s.vnodes v with
    | some vn =>
      .ok ((), { s.setVnode v { vn with vnRefcount := vn.vnRefcount+1 } with
        held := v :: s.held })
    | none => stop .panic s
  else
    match s.inodes v with
    | some inode => .ok ((), { ramfsReadVnode s v inode with held := v :: s.held })
    | none => stop .panic s

/-- `ramfs_delete_vnode`. -/
def ramfsDeleteVnode (s : VState) (v : ℕ) (inode : Inode) : VState :=
  if inode.rfLinkcount-1 = 0 then s.setInode v none
  else s.setInode v (some { inode with rfLinkcount := inode.rfLinkcount-1 })

/-- `vput` of a reference that is not the call's own. -/
def dropRef (v : ℕ) : Vfs Unit := fun s =>
  match s.vnodes v with
  | none => stop .panic s
  | some vn =>
    if vn.vnRefcount = 0 then stop .panic s
    else if 1 < vn.vnRefcount then
      .ok ((), s.setVnode v { vn with vnRefcount := vn.vnRefcount-1 })
    else
      match s.inodes v with
      | none => stop .panic s
      | some inode =>
        .ok ((), (ramfsDeleteVnode s v inode).setVnode v { vn with vnRefcount := 0 })

/-- The reference is no longer the call's own. -/
def release (v : ℕ) : Vfs Unit := fun s => .ok ((), { s with held := s.held.erase v })

/-- `vput` of a reference that the call has taken; `none` is a null pointer. -/
def vput : Option ℕ → Vfs Unit
  | none => stop .nullVput
  | some v => do
    touch v
    dropRef v
    release v

/-- A new call begins with no references of its own. -/
def VState.enter (s : VState) : VState := { s with held := [], late := false }

end SystemsProjects.VfsState
