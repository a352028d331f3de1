import SystemsProjects.PathCalls

/-!
# Open files and file descriptors

`fs/file.c`, `fs/open.c` and the calls of `fs/vfs_syscall.c` that take a descriptor, with
the part of `do_fork` that copies the descriptors and the working directory. A file gets a
new number each time one is allocated. What a character device answers to a read or a
write is an argument of the call, `none` when it has no driver; block devices have neither
operation. A kernel thread runs until it blocks and no call on ramfs does, so a call is one
step of the system.
-/
namespace SystemsProjects.FileCalls
open VfsState RamfsOperations PathCalls

def fileAt (f : ℕ) : Vfs File := fun s =>
  match s.files f with
  | some x => .ok (x, s)
  | none => stop .panic s

def putFile (f : ℕ) (x : Option File) : Vfs Unit := fun s => .ok ((), s.setFile f x)

def fref (f : ℕ) : Vfs Unit := do
  let x ← fileAt f
  if x.fMode < 8 ∧ -1 ≤ x.fPos ∧ (x.fRefcount = 0 ∨ x.fVnode.isSome) then
    putFile f (some { x with fRefcount := x.fRefcount+1 })
  else stop .panic

/-- `slab_obj_alloc` and `memset` of `fget(-1)`. -/
def newFile : Vfs (Option ℕ) := fun s =>
  if s.memory then
    .ok (some s.nextFile,
      { s.setFile s.nextFile (some ⟨0, 0, 0, none⟩) with nextFile := s.nextFile+1 })
  else .ok (none, s)

/-- The file in a slot of the descriptor table. -/
def slotAt (cur : ℕ) (fd : ℤ) : Vfs (Option ℕ) := do
  if fd < 0 ∨ (NFILES : ℤ) ≤ fd then return none
  else do
    let p ← procAt cur
    return p.pFiles.getD fd.toNat none

def fget (cur : ℕ) (fd : ℤ) : Vfs (Option ℕ) := do
  let f ← if fd = -1 then newFile else slotAt cur fd
  match f with
  | none => return none
  | some f => do
    fref f
    return some f

theorem fget_eq (cur : ℕ) (fd : ℤ) : fget cur fd =
    (if fd = -1 then newFile else slotAt cur fd) >>= fun f => f.elim (pure none) fun f => do
      fref f
      return some f := by
  unfold fget
  split <;> exact bind_congr fun f => by cases f <;> rfl

def putVnodeOf (f : ℕ) : Option ℕ → Vfs Unit
  | none => pure ()
  | some v => do
    dropRef v
    fun s => .ok ((), { s with closed := (f, v) :: s.closed })

def fput (f : ℕ) : Vfs Unit := do
  let x ← fileAt f
  if x.fMode < 8 ∧ -1 ≤ x.fPos ∧ 0 < x.fRefcount ∧ (x.fRefcount = 1 ∨ x.fVnode.isSome) then
    if x.fRefcount = 1 then do
      putVnodeOf f x.fVnode
      putFile f none
    else putFile f (some { x with fRefcount := x.fRefcount-1 })
  else stop .panic

def setSlot (cur fd : ℕ) (x : Option ℕ) : Vfs Unit := fun s =>
  .ok ((), { s with
    procs := s.procs.modify cur fun p => { p with pFiles := p.pFiles.set fd x } })

def getEmptyFd (p : VProc) : Option ℕ := p.pFiles.findIdx? Option.isNone

/-- `FMODE_READ`, `FMODE_WRITE` or both. -/
def openMode (rOrW : ℕ) : ℕ := rOrW+1

/-- The end of `do_open` when it goes well; the reference now belongs to the file. -/
def finishOpen (f v fmode : ℕ) (append : Bool) : Vfs Unit := do
  let x ← fileAt f
  putFile f (some { x with fMode := if append then fmode ||| 4 else fmode, fVnode := some v })
  release v
  fun s => .ok ((), { s with opened := (f, v) :: s.opened })

/-- The ends of `do_open` that give the vnode back. -/
def abandonOpen (cur fd f v : ℕ) : Vfs Unit := do
  fput f
  vput (some v)
  setSlot cur fd none

def doOpen (cur : ℕ) (filename : List Char) (oflags : ℕ) : Vfs Ret := do
  let p ← procAt cur
  match getEmptyFd p with
  | none => return .err .emfile
  | some fd => do
    let f ← fget cur (-1)
    match f with
    | none => do
      -- the null pointer is stored, and used at the end whatever the path gives
      let _ ← openNamev cur filename (oflags &&& 0x700) none
      stop .panic
    | some f => do
      setSlot cur fd (some f)
      let r ← openNamev cur filename (oflags &&& 0x700) none
      if r.1.failed then do
        fput f
        setSlot cur fd none
        return r.1
      else do
        let resVnode ← readOut r.2
        let rOrW := oflags &&& 3
        let append := oflags &&& 0x700 == 0x400
        if rOrW = 3 then do
          abandonOpen cur fd f resVnode
          return .err .einval
        else if rOrW = 0 then do
          finishOpen f resVnode (openMode rOrW) append
          return .val fd
        else do
          let k ← vnMode resVnode
          if k = .dir then do
            abandonOpen cur fd f resVnode
            return .err .eisdir
          else do
            finishOpen f resVnode (openMode rOrW) append
            return .val fd

def doClose (cur : ℕ) (fd : ℤ) : Vfs Ret := do
  if fd < 0 ∨ (NFILES : ℤ) ≤ fd then return .err .ebadf
  else do
    let temp ← fget cur fd
    match temp with
    | none => return .err .ebadf
    | some f => do
      fput f
      setSlot cur fd.toNat none
      fput f
      return .val 0

def doDup (cur : ℕ) (fd : ℤ) : Vfs Ret := do
  if fd < 0 ∨ (NFILES : ℤ) ≤ fd then return .err .ebadf
  else do
    let temp ← fget cur fd
    match temp with
    | none => return .err .ebadf
    | some f => do
      let p ← procAt cur
      match getEmptyFd p with
      | none => do
        fput f
        return .err .emfile
      | some newFd => do
        setSlot cur newFd (some f)
        return .val newFd

/-- `do_dup2` makes the new descriptor free, or gives the reference back that it already
has. -/
def freeTarget (cur : ℕ) (ofd nfd : ℤ) (f : ℕ) : Vfs Unit := do
  if ofd = nfd then fput f
  else do
    let used ← slotAt cur nfd
    if used = none then pure ()
    else do
      let _ ← doClose cur nfd
      pure ()

def doDup2 (cur : ℕ) (ofd nfd : ℤ) : Vfs Ret := do
  if ofd < 0 ∨ (NFILES : ℤ) ≤ ofd then return .err .ebadf
  else if nfd < 0 ∨ (NFILES : ℤ) ≤ nfd then return .err .ebadf
  else do
    let oldf ← fget cur ofd
    match oldf with
    | none => return .err .ebadf
    | some f => do
      freeTarget cur ofd nfd f
      setSlot cur nfd.toNat (some f)
      return .val nfd

/-- `vn->vn_ops->read` of the vnode of a file; a device answers with a number. -/
def vnRead (v : ℕ) (pos : ℤ) (nbytes : ℕ) (device : Option ℤ) : Vfs (ℤ × List UInt8) := do
  let vn ← vnodeAt v
  match vn.vnMode with
  | .reg => ramfsRead v pos nbytes
  | .chr =>
    match device with
    | some n => return (n, [])
    | none => stop .panic
  | _ => stop .nullOp

def vnWrite (v : ℕ) (pos : ℤ) (buf : List UInt8) (device : Option ℤ) : Vfs ℤ := do
  let vn ← vnodeAt v
  match vn.vnMode with
  | .reg => ramfsWrite v pos buf
  | .chr =>
    match device with
    | some n => return n
    | none => stop .panic
  | _ => stop .nullOp

/-- `f->f_vnode` where it is followed. -/
def vnodeOf (x : File) : Vfs ℕ :=
  match x.fVnode with
  | some v => pure v
  | none => stop .panic

/-- The new position that `do_lseek` computes. -/
def seekTo (x : File) (offset : ℤ) : ℕ → Vfs ℤ
  | 0 => return offset
  | 1 => return addInt x.fPos offset
  | _ => do
    let v ← vnodeOf x
    let vn ← vnodeAt v
    return addInt vn.vnLen offset

/-- `do_lseek`; `SEEK_SET`, `SEEK_CUR` and `SEEK_END` are 0, 1 and 2. -/
def doLseek (cur : ℕ) (fd offset : ℤ) (whence : ℕ) : Vfs Ret := do
  if 2 < whence then return .err .einval
  else if fd < 0 ∨ (NFILES : ℤ) ≤ fd then return .err .ebadf
  else do
    let f ← fget cur fd
    match f with
    | none => return .err .ebadf
    | some f => do
      let x ← fileAt f
      let modifyVal ← seekTo x offset whence
      if modifyVal < 0 then do
        fput f
        return .err .einval
      else do
        putFile f (some { x with fPos := modifyVal })
        fput f
        return .val modifyVal

def doRead (cur : ℕ) (fd : ℤ) (nbytes : ℕ) (device : Option ℤ) : Vfs (Ret × List UInt8) := do
  let temp ← fget cur fd
  match temp with
  | none => return (.err .ebadf, [])
  | some f => do
    let x ← fileAt f
    if x.fMode &&& 1 ≠ 1 then do
      fput f
      return (.err .ebadf, [])
    else do
      let v ← vnodeOf x
      let vn ← vnodeAt v
      if vn.vnMode = .dir then do
        fput f
        return (.err .eisdir, [])
      else do
        let r ← vnRead v x.fPos nbytes device
        let _ ← doLseek cur fd r.1 1
        fput f
        return (.val r.1, r.2)

/-- `do_write` goes to the end of a file that was opened for appending. -/
def seekToAppend (cur : ℕ) (fd : ℤ) (x : File) : Vfs Unit :=
  if x.fMode &&& 4 = 4 then do
    let _ ← doLseek cur fd 0 2
    pure ()
  else pure ()

def doWrite (cur : ℕ) (fd : ℤ) (buf : List UInt8) (device : Option ℤ) : Vfs Ret := do
  let temp ← fget cur fd
  match temp with
  | none => return .err .ebadf
  | some f => do
    let x ← fileAt f
    if x.fMode &&& 2 ≠ 2 then do
      fput f
      return .err .ebadf
    else do
      seekToAppend cur fd x
      let x ← fileAt f
      let v ← vnodeOf x
      let n ← vnWrite v x.fPos buf device
      let vn ← vnodeAt v
      if vn.vnMode = .chr ∨ vn.vnMode = .blk ∨ (vn.vnMode = .reg ∧ x.fPos ≤ vn.vnLen) then do
        let _ ← doLseek cur fd n 1
        fput f
        return .val n
      else stop .panic

/-- `sizeof(dirent_t)`. -/
def direntT : ℤ := 40

def doGetdent (cur : ℕ) (fd : ℤ) : Vfs (Ret × Option Dirent) := do
  if fd < 0 ∨ (NFILES : ℤ) ≤ fd then return (.err .ebadf, none)
  else do
    let f ← fget cur fd
    match f with
    | none => return (.err .ebadf, none)
    | some f => do
      let x ← fileAt f
      let v ← vnodeOf x
      let vn ← vnodeAt v
      if vn.vnMode ≠ .dir then do
        fput f
        return (.err .enotdir, none)
      else do
        let r ← ramfsReaddir v x.fPos
        if 0 < r.1 then do
          putFile f (some { x with fPos := addInt x.fPos r.1 })
          fput f
          return (.val direntT, r.2)
        else do
          fput f
          return (.val 0, none)

/-- The loop of `do_fork` over the descriptors. -/
def frefAll : List (Option ℕ) → Vfs Unit
  | [] => pure ()
  | none :: l => frefAll l
  | some f :: l => do
    fref f
    frefAll l

def addProc (p : VProc) : Vfs Unit := fun s => .ok ((), { s with procs := s.procs ++ [p] })

/-- The files and the working directory of the child in `do_fork`. -/
def doFork (cur : ℕ) : Vfs Unit := do
  let p ← procAt cur
  frefAll p.pFiles
  match p.pCwd with
  | none => stop .panic
  | some v => do
    vref v
    addProc p

/-- A process from `proc_create`, which has no files and no working directory until the
code that made it sets one to the root. -/
def newProc (atRoot : Bool) : Vfs Unit := do
  if atRoot then do
    vref 0
    addProc ⟨List.replicate NFILES none, some 0⟩
  else addProc ⟨List.replicate NFILES none, none⟩

end SystemsProjects.FileCalls
