import SystemsProjects.VfsState

/-!
# The operations of ramfs

`fs/ramfs/ramfs.c` over the table of inodes: lookup, creation and removal of names, reading
and writing of the one page of a regular file. Names are lists of characters, so
`name_match` is equality; a stored name is cut to `NAME_LEN - 1` characters as
`strncpy` does it. An inode needs memory for itself and its page, and whether the allocators
have any is the field `memory` of the state.
-/
namespace SystemsProjects.RamfsOperations
open VfsState

def inodeAt (i : ℕ) : Vfs Inode := fun s =>
  match s.inodes i with
  | some inode => .ok (inode, s)
  | none => stop .panic s

/-- `VNODE_TO_DIRENT`. -/
def dirents (d : ℕ) : Vfs (List Dirent) := fun s =>
  match s.inodes d with
  | some ⟨_, _, .dir l⟩ => .ok (l, s)
  | _ => stop .panic s

def putInode (i : ℕ) (x : Option Inode) : Vfs Unit := fun s => .ok ((), s.setInode i x)

def emptyDir : List Dirent := List.replicate RAMFS_MAX_DIRENT ⟨0, []⟩

/-- `ramfs_alloc_inode`; the error is `ENOSPC` in every case. -/
def ramfsAllocInode (node : RamfsNode) : Vfs (Option ℕ) := fun s =>
  match (List.range RAMFS_MAX_FILES).find? fun i => (s.inodes i).isNone with
  | some i => if s.memory then .ok (some i, s.setInode i (some ⟨0, 1, node⟩)) else .ok (none, s)
  | none => .ok (none, s)

def ramfsLookup (d : ℕ) (name : Name) (result : Option ℕ) : Vfs (Ret × Option ℕ) := do
  let l ← dirents d
  match l.find? fun e => e.rdName = name with
  | some e => do
    vget e.rdIno
    return (.val 0, some e.rdIno)
  | none => return (.err .enoent, result)

/-- The start that `ramfs_create`, `ramfs_mknod`, `ramfs_mkdir` and `ramfs_link` share: the
name is not there yet, and the first free entry is taken. -/
def nameSlot (d : ℕ) (name : Name) : Vfs (Option ℕ) := do
  let r ← ramfsLookup d name none
  if r.1 = .val 0 then stop .panic
  else do
    let l ← dirents d
    return l.findIdx? fun e => e.rdName = []

/-- Fills entry `i` of a directory. -/
def setEntry (d i : ℕ) (name : Name) (ino : ℕ) : Vfs Unit := fun s =>
  match s.inodes d with
  | some ⟨size, links, .dir l⟩ =>
    .ok ((), s.setInode d (some ⟨size+direntSize, links,
      .dir (l.set i ⟨ino, name.take (NAME_LEN-1)⟩)⟩))
  | _ => stop .panic s

/-- Frees the first entry of a directory that has the name. -/
def clearEntry (d : ℕ) (name : Name) : Vfs Unit := fun s =>
  match s.inodes d with
  | some ⟨size, links, .dir l⟩ =>
    .ok ((), s.setInode d (some ⟨size-direntSize, links,
      .dir (l.modify (l.findIdx fun e => e.rdName = name) fun e => { e with rdName := [] })⟩))
  | _ => stop .panic s

def addLinks (v : ℕ) (n : ℤ) : Vfs Unit := do
  let inode ← inodeAt v
  putInode v (some { inode with rfLinkcount := inode.rfLinkcount+n })

def ramfsCreate (d : ℕ) (name : Name) (result : Option ℕ) : Vfs (Ret × Option ℕ) := do
  let slot ← nameSlot d name
  match slot with
  | none => return (.err .enospc, result)
  | some i => do
    let ino ← ramfsAllocInode (.data fun _ => 0)
    match ino with
    | none => return (.err .enospc, result)
    | some ino => do
      vget ino
      setEntry d i name ino
      return (.val 0, some ino)

def isChr (mode : ℕ) : Bool := mode &&& 0xFF00 == 0x0100

def isBlk (mode : ℕ) : Bool := mode &&& 0xFF00 == 0x0400

def ramfsMknod (d : ℕ) (name : Name) (mode devid : ℕ) : Vfs Ret := do
  let slot ← nameSlot d name
  match slot with
  | none => return .err .enospc
  | some i =>
    if isChr mode || isBlk mode then do
      let ino ← ramfsAllocInode (if isChr mode then .chr devid else .blk devid)
      match ino with
      | none => return .err .enospc
      | some ino => do
        setEntry d i name ino
        return .val 0
    else stop .panic

/-- `.` and `..` of a new directory. -/
def dots (ino d : ℕ) : List Dirent := (emptyDir.set 0 ⟨ino, ['.']⟩).set 1 ⟨d, ['.', '.']⟩

def ramfsMkdir (d : ℕ) (name : Name) : Vfs Ret := do
  let slot ← nameSlot d name
  match slot with
  | none => return .err .enospc
  | some i => do
    let ino ← ramfsAllocInode (.dir emptyDir)
    match ino with
    | none => return .err .enospc
    | some ino => do
      setEntry d i name ino
      let inode ← inodeAt ino
      putInode ino (some { inode with rfSize := 2*direntSize, rfNode := .dir (dots ino d) })
      return .val 0

def ramfsLink (oldvnode d : ℕ) (name : Name) : Vfs Ret := do
  let slot ← nameSlot d name
  match slot with
  | none => return .err .enospc
  | some i => do
    setEntry d i name oldvnode
    addLinks oldvnode 1
    return .val 0

def ramfsUnlink (d : ℕ) (name : Name) : Vfs Ret := do
  let r ← ramfsLookup d name none
  if r.1 = .val 0 then do
    let vn ← readOut r.2
    let k ← vnMode vn
    if k = .dir then stop .panic
    else do
      clearEntry d name
      addLinks vn (-1)
      vput (some vn)
      return .val 0
  else stop .panic

/-- An entry that keeps a directory from being removed. -/
def Dirent.named (e : Dirent) : Bool :=
  e.rdName ≠ [] && e.rdName ≠ ['.'] && e.rdName ≠ ['.', '.']

def ramfsRmdir (d : ℕ) (name : Name) : Vfs Ret := do
  if name = ['.'] ∨ name = ['.', '.'] then stop .panic
  else do
    let r ← ramfsLookup d name none
    if r.1 = .val 0 then do
      let vn ← readOut r.2
      let k ← vnMode vn
      if k = .dir then do
        let l ← dirents vn
        if l.any Dirent.named then do
          vput (some vn)
          return .err .enotempty
        else do
          clearEntry d name
          addLinks vn (-1)
          vput (some vn)
          return .val 0
      else do
        vput (some vn)
        return .err .enotdir
    else return r.1

/-- `(off_t)count`. -/
def offT (count : ℕ) : ℤ := (count : ℤ).bmod (2^32)

def ramfsRead (v : ℕ) (offset : ℤ) (count : ℕ) : Vfs (ℤ × List UInt8) := do
  let inode ← inodeAt v
  match inode.rfNode with
  | .data page =>
    let ret := max 0 (min (offT count) (inode.rfSize-offset))
    return (ret, (List.range ret.toNat).map fun i : ℕ => page (offset+i).toNat)
  | _ => stop .panic

/-- The page after `memcpy` of the first `ret` bytes of `buf` to `offset`. -/
def copyIn (page : ℕ → UInt8) (offset ret : ℤ) (buf : List UInt8) : ℕ → UInt8 :=
  fun i => if offset ≤ i ∧ (i : ℤ) < offset+ret then buf.getD ((i : ℤ)-offset).toNat 0 else page i

def ramfsWrite (v : ℕ) (offset : ℤ) (buf : List UInt8) : Vfs ℤ := do
  let inode ← inodeAt v
  let vn ← vnodeAt v
  match inode.rfNode with
  | .data page =>
    let ret := min (offT buf.length) (PAGE_SIZE-offset)
    -- a negative number of bytes is a huge one for `memcpy`
    if ret < 0 then stop .overrun
    else if vn.vnLen ≠ inode.rfSize then stop .panic
    else do
      let len := max vn.vnLen (offset+ret)
      putInode v (some { inode with rfSize := len, rfNode := .data (copyIn page offset ret buf) })
      fun s => .ok (ret, s.setVnode v { vn with vnLen := len })
  | _ => stop .panic

/-- `ramfs_readdir`: how far to move on, and the entry that was found. -/
def ramfsReaddir (d : ℕ) (offset : ℤ) : Vfs (ℤ × Option Dirent) := do
  let l ← dirents d
  if offset%direntSize = 0 then
    let rest := l.drop (offset/direntSize).toNat
    match rest.findIdx? fun e => e.rdName ≠ [] with
    | some k => return (direntSize*(k+1), rest[k]?)
    | none => return (0, none)
  else stop .panic

/-- The fields of `struct stat` that `ramfs_stat` sets; the others are 0. -/
structure Stat where
  stMode : VnodeKind
  stIno : ℕ
  stRdev : ℕ
  stNlink : ℤ
  stSize : ℤ
  stBlksize : ℕ
  stBlocks : ℕ
  deriving DecidableEq, Repr

/-- `ramfs_stat`, which `special_file_stat` also ends in. -/
def ramfsStat (v : ℕ) : Vfs Stat := do
  let k ← vnMode v
  let inode ← inodeAt v
  let rdev := match inode.rfNode with
    | .chr devid => devid
    | .blk devid => devid
    | _ => 0
  return ⟨k, v, rdev, inode.rfLinkcount-1, inode.rfSize, PAGE_SIZE, 1⟩

end SystemsProjects.RamfsOperations
