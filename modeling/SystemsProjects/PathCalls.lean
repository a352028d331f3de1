import SystemsProjects.RamfsOperations

/-!
# Path resolution and the calls that take a path

`fs/namev.c` and the calls of `fs/vfs_syscall.c` that name a file by a path. An output
parameter that the callee may leave unset is an `Option`, and reading it while it is unset
stops the call. The process that makes the call is given by its place in the table.
-/
namespace SystemsProjects.PathCalls
open VfsState RamfsOperations

def procAt (cur : ℕ) : Vfs VProc := fun s =>
  match s.procs[cur]? with
  | some p => .ok (p, s)
  | none => stop .panic s

def lookup (dir : ℕ) (name : Name) (result : Option ℕ) : Vfs (Ret × Option ℕ) := do
  let k ← vnMode dir
  if k ≠ .dir then return (.err .enotdir, result)
  else if NAME_LEN < name.length then return (.err .enametoolong, result)
  else if name = [] then do
    vget dir
    return (.val 0, some dir)
  else ramfsLookup dir name result

/-- What `dir_namev` leaves: its return value and the outputs that it set. -/
structure Namev where
  ret : Ret
  name : Option Name
  resVnode : Option ℕ
  deriving DecidableEq, Repr

/-- The components before the last slash, and what follows it. -/
def components : List Char → List Name × Name
  | [] => ([], [])
  | c :: cs =>
    if c = '/' then ([] :: (components cs).1, (components cs).2)
    else match components cs with
      | ([], last) => ([], c :: last)
      | (n :: ns, last) => ((c :: n) :: ns, last)

/-- The loop of `dir_namev` from `dir`, over the components before the last slash. -/
def namevLoop (last : Name) : List Name → ℕ → Option ℕ → Vfs Namev
  | [], dir, _ => return ⟨.val 0, some last, some dir⟩
  | start :: rest, dir, resVnode => do
    let r ← lookup dir start resVnode
    if r.1.failed then do
      vput (some dir)
      return ⟨r.1, none, r.2⟩
    else do
      vput (some dir)
      let next ← readOut r.2
      namevLoop last rest next r.2

def startDir (p : VProc) (pathname : List Char) (base : Option ℕ) : Option ℕ :=
  if pathname.head? = some '/' then some 0 else base.or p.pCwd

/-- The path without the slash that makes it absolute. -/
def relative (pathname : List Char) : List Char :=
  if pathname.head? = some '/' then pathname.tail else pathname

def dirNamev (cur : ℕ) (pathname : List Char) (base : Option ℕ) : Vfs Namev := do
  if pathname = [] then return ⟨.err .einval, none, none⟩
  else do
    let p ← procAt cur
    match startDir p pathname base with
    | none => stop .panic
    | some dir => do
      vget dir
      if MAXPATHLEN < (relative pathname).length then stop .overrun
      else
        namevLoop (components (relative pathname)).2 (components (relative pathname)).1 dir
          (if pathname.head? = some '/' then some 0 else none)

def O_CREAT : ℕ := 0x100

def openNamev (cur : ℕ) (pathname : List Char) (flag : ℕ) (base : Option ℕ) :
    Vfs (Ret × Option ℕ) := do
  let out ← dirNamev cur pathname base
  if out.ret.failed then return (out.ret, none)
  else do
    let dir ← readOut out.resVnode
    let name ← readOut out.name
    let r ← lookup dir name none
    if r.1 = .err .enoent ∧ flag &&& O_CREAT = O_CREAT then do
      dirOp dir
      let r ← ramfsCreate dir name r.2
      vput (some dir)
      return r
    else do
      vput (some dir)
      return r

def doMknod (cur : ℕ) (path : List Char) (mode devid : ℕ) : Vfs Ret := do
  if !isChr mode && !isBlk mode then return .err .einval
  else do
    let out ← dirNamev cur path none
    if out.ret = .err .enametoolong ∨ out.ret = .err .einval then return out.ret
    else do
      let rest ← readOut out.resVnode
      let k ← vnMode rest
      if k ≠ .dir then do
        vput (some rest)
        return .err .enotdir
      else do
        let name ← readOut out.name
        let r ← lookup rest name none
        if r.1 ≠ .err .enoent then do
          vput r.2
          vput (some rest)
          return .err .eexist
        else do
          dirOp rest
          let made ← ramfsMknod rest name mode devid
          vput (some rest)
          return made

def doMkdir (cur : ℕ) (path : List Char) : Vfs Ret := do
  let out ← dirNamev cur path none
  let name ← readOut out.name
  if NAME_LEN < name.length then do
    let rest ← readOut out.resVnode
    vput (some rest)
    return .err .enametoolong
  else if out.ret.failed then return out.ret
  else do
    let rest ← readOut out.resVnode
    let k ← vnMode rest
    if k ≠ .dir then do
      vput (some rest)
      return .err .enotdir
    else do
      -- the reference is dropped here, and `rest` is still used below
      vput (some rest)
      let r ← lookup rest name none
      if r.1 = .val 0 then do
        vput r.2
        return .err .eexist
      else do
        dirOp rest
        ramfsMkdir rest name

def doRmdir (cur : ℕ) (path : List Char) : Vfs Ret := do
  let out ← dirNamev cur path none
  if out.ret.failed then return out.ret
  else do
    let rest ← readOut out.resVnode
    let name ← readOut out.name
    if name = ['.'] then do
      vput (some rest)
      return .err .einval
    else if name = ['.', '.'] then do
      vput (some rest)
      return .err .enotempty
    else do
      let k ← vnMode rest
      if k ≠ .dir then do
        vput (some rest)
        return .err .enotdir
      else do
        dirOp rest
        let rem ← ramfsRmdir rest name
        vput (some rest)
        return rem

def doUnlink (cur : ℕ) (path : List Char) : Vfs Ret := do
  let out ← dirNamev cur path none
  if out.ret.failed then return out.ret
  else do
    let rest ← readOut out.resVnode
    let k ← vnMode rest
    if k ≠ .dir then do
      vput (some rest)
      return .err .enotdir
    else do
      let name ← readOut out.name
      let r ← lookup rest name none
      if r.1.failed then do
        vput (some rest)
        return r.1
      else do
        let result ← readOut r.2
        let k ← vnMode result
        if k = .dir then do
          vput (some rest)
          vput (some result)
          return .err .eisdir
        else do
          dirOp rest
          let rem ← ramfsUnlink rest name
          vput (some rest)
          vput (some result)
          return rem

def doLink (cur : ℕ) (source target : List Char) : Vfs Ret := do
  if NAME_LEN < source.length ∨ NAME_LEN < target.length then return .err .enametoolong
  else do
    let src ← openNamev cur source 0 none
    if src.1.failed then return src.1
    else do
      let resVnode ← readOut src.2
      let k ← vnMode resVnode
      if k = .dir then do
        vput (some resVnode)
        return .err .eisdir
      else do
        let out ← dirNamev cur target none
        if out.ret.failed then do
          vput (some resVnode)
          return out.ret
        else do
          let resVnode2 ← readOut out.resVnode
          let name ← readOut out.name
          let r ← lookup resVnode2 name none
          if r.1 = .val 0 then do
            -- the source is put twice and the vnode that was found is not put
            vput (some resVnode)
            vput (some resVnode2)
            vput (some resVnode)
            return .err .eexist
          else do
            dirOp resVnode2
            let err3 ← ramfsLink resVnode resVnode2 name
            vput (some resVnode2)
            vput (some resVnode)
            return err3

def doRename (cur : ℕ) (oldname newname : List Char) : Vfs Ret := do
  let retVal ← doLink cur oldname newname
  if retVal.failed then return retVal
  else doUnlink cur oldname

def setCwd (cur v : ℕ) : Vfs Unit := fun s =>
  .ok ((), { s with procs := s.procs.modify cur fun p => { p with pCwd := some v } })

def doChdir (cur : ℕ) (path : List Char) : Vfs Ret := do
  if MAXPATHLEN < path.length then return .err .enametoolong
  else do
    let p ← procAt cur
    let r ← openNamev cur path 0 p.pCwd
    if r.1.failed then return r.1
    else do
      let newcwd ← readOut r.2
      let k ← vnMode newcwd
      if k ≠ .dir then do
        vput (some newcwd)
        return .err .enotdir
      else
        match p.pCwd with
        | none => stop .nullVput
        | some old => do
          dropRef old
          setCwd cur newcwd
          vref newcwd
          vput (some newcwd)
          return .val 0

def doStat (cur : ℕ) (path : List Char) : Vfs (Ret × Option Stat) := do
  if MAXPATHLEN < path.length then return (.err .enametoolong, none)
  else do
    let r ← openNamev cur path 0 none
    if r.1.failed then return (r.1, none)
    else do
      let vnode ← readOut r.2
      let buf ← ramfsStat vnode
      vput (some vnode)
      return (.val 0, some buf)

end SystemsProjects.PathCalls
