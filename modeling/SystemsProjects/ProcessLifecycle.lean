import SystemsProjects.TablePages
import SystemsProjects.FileCalls

/-!
# The life of a process

`do_fork`, `proc_cleanup` and `do_waitpid` over the address spaces, the open files and the
process structures together, with a ledger of what has been allocated and not freed. Areas are
allocated and freed as they are put on the lists of maps and taken off, and page tables as they
come and go in the directories, so their numbers follow the address spaces; processes, threads,
stacks, maps and directories are entered where the functions allocate and free them.

`proc_create` makes a map for the child, which `do_fork` replaces by the copy of the parent's.
`proc_cleanup` closes files up to the first free descriptor. A process that is asleep in
`do_waitpid` is not looked at further.
-/
namespace SystemsProjects.ProcessLifecycle

open Function CallOutcomes VfsState FileCalls VmState AddressSpaces AreaMaps TablePages

/-- What has been allocated and not freed, by kind. -/
structure Ledger where
  procs : ℤ
  kthreads : ℤ
  kstacks : ℤ
  vmmaps : ℤ
  vmareas : ℤ
  ptPages : ℤ
  deriving DecidableEq, Repr

/-- Address spaces, files and working directories are kept apart, by process. -/
structure Proc where
  pPproc : ℕ
  pChildren : List ℕ
  pDead : Bool
  pThreads : List ℕ
  deriving DecidableEq, Repr

structure Kernel where
  vm : Vm
  vfs : VState
  procs : ℕ → Option Proc
  nextThread : ℕ
  live : Ledger

inductive KernelFault where
  | memory (e : Fault)
  | files (e : Halt)
  | kassert
  | noProcess
  deriving DecidableEq, Repr

abbrev Sys (α : Type) := Call Kernel KernelFault α

/-- The number of areas on the lists of all maps. -/
def areaCount (s : Vm) : ℕ := ∑ p ∈ Finset.range s.nextPid, (areas s p).length

/-- The number of page tables in all directories. -/
def tableCount (s : Vm) : ℕ := ∑ p ∈ Finset.range s.nextPid, tables (table s p)

/-- The address spaces after a call, with the areas and the tables that it allocated and freed. -/
def charge (k : Kernel) (vm : Vm) : Kernel :=
  { k with
    vm := vm
    live := { k.live with
      vmareas := k.live.vmareas + areaCount vm - areaCount k.vm
      ptPages := k.live.ptPages + tableCount vm - tableCount k.vm } }

def onMemory {α : Type} (m : Vm → Kern (α×Vm)) : Sys α := fun k =>
  match m k.vm with
  | .ok (a, vm) => .ok (a, charge k vm)
  | .error e => .error (.memory e)

def onFiles {α : Type} (m : Vfs α) : Sys α := fun k =>
  match m k.vfs with
  | .ok (a, vfs) => .ok (a, { k with vfs := vfs })
  | .error e => .error (.files e)

def account (f : Ledger → Ledger) : Sys Unit := fun k => .ok ((), { k with live := f k.live })

def kassert (c : Kernel → Bool) : Sys Unit := fun k =>
  if c k then .ok ((), k) else .error .kassert

def procAt (p : ℕ) : Sys Proc := fun k =>
  match k.procs p with
  | some r => .ok (r, k)
  | none => .error .noProcess

def setProc (p : ℕ) (r : Option Proc) : Sys Unit := fun k =>
  .ok ((), { k with procs := update k.procs p r })

/-- `proc_create`, up to the address space and the files: the process, its directory and its
map. -/
def procCreate (cur child : ℕ) : Sys Unit := do
  let r ← procAt cur
  setProc child (some ⟨cur, [], false, []⟩)
  setProc cur (some { r with pChildren := r.pChildren ++ [child] })
  account fun l => { l with procs := l.procs+1, ptPages := l.ptPages+2, vmmaps := l.vmmaps+1 }

/-- `kthread_clone`, with a stack for the new thread. -/
def kthreadClone : Sys ℕ := fun k =>
  .ok (k.nextThread, { k with
    nextThread := k.nextThread+1
    live := { k.live with kthreads := k.live.kthreads+1, kstacks := k.live.kstacks+1 } })

def getPid : Sys ℕ := fun k => .ok (k.vm.nextPid, k)

/-- `do_fork`; the copy of the map is one more map. -/
def doFork (cur : ℕ) : Sys ℕ := do
  let child ← getPid
  procCreate cur child
  let _ ← onMemory fun s => VmSystemCalls.doFork s cur
  account fun l => { l with vmmaps := l.vmmaps+1 }
  let t ← kthreadClone
  let r ← procAt child
  setProc child (some { r with pThreads := r.pThreads ++ [t] })
  onFiles (FileCalls.doFork cur)
  return child

/-- The loop of `proc_cleanup` over the descriptors from `fd` on. It ends at the first free one;
past the end of the table, where `do_close` refuses what the loop finds, it has no effect. -/
def closeFiles (cur : ℕ) : ℕ → ℕ → Vfs Unit
  | _, 0 => pure ()
  | fd, n+1 => do
    match ← slotAt cur fd with
    | none => pure ()
    | some _ => do
      let _ ← doClose cur fd
      closeFiles cur (fd+1) n

/-- The working directory is put, and remains in the structure. -/
def putCwd (cur : ℕ) : Vfs Unit := do
  let p ← PathCalls.procAt cur
  match p.pCwd with
  | none => pure ()
  | some v => dropRef v

/-- A process becomes a child of the first process. -/
def adopt (c : ℕ) : Sys Unit := do
  let rc ← procAt c
  setProc c (some { rc with pPproc := 1 })
  let init ← procAt 1
  setProc 1 (some { init with pChildren := init.pChildren ++ [c] })

def reparent (cur : ℕ) : Sys Unit := do
  let r ← procAt cur
  r.pChildren.forM adopt
  setProc cur (some { r with pChildren := [] })

def destroyMap (cur : ℕ) : Sys Unit := do
  onMemory fun s => (vmmapDestroy s cur).map fun t => ((), t)
  account fun l => { l with vmmaps := l.vmmaps-1 }

def procCleanup (cur : ℕ) : Sys Unit := do
  kassert fun k => (k.procs 1).isSome && decide (1 ≤ cur)
  destroyMap cur
  onFiles (closeFiles cur 0 NFILES)
  onFiles (putCwd cur)
  if cur ≠ 1 then reparent cur else pure ()
  let r ← procAt cur
  setProc cur (some { r with pDead := true })

/-- `kthread_destroy`. -/
def kthreadDestroy (_ : ℕ) : Sys Unit :=
  account fun l => { l with kstacks := l.kstacks-1, kthreads := l.kthreads-1 }

/-- The directory of a process and the process itself are freed. -/
def freeProc (p : ℕ) : Sys Unit := fun k =>
  .ok ((), { k with
    vm := { k.vm with procs := update k.vm.procs p none }
    procs := update k.procs p none
    live := { k.live with
      ptPages := k.live.ptPages - ptDestroyPagedir (table k.vm p)
      procs := k.live.procs-1 } })

/-- What `do_waitpid` does with a child that has exited. -/
def reap (cur c : ℕ) : Sys Unit := do
  let rc ← procAt c
  rc.pThreads.forM kthreadDestroy
  let r ← procAt cur
  setProc cur (some { r with pChildren := r.pChildren.erase c })
  freeProc c

/-- How `do_waitpid` ends, or that it goes to sleep. -/
inductive Waited where
  | echild
  | asleep
  | reaped (c : ℕ)
  deriving DecidableEq, Repr

def isDead (k : Kernel) (c : ℕ) : Bool := (k.procs c).any Proc.pDead

def findChild (l : List ℕ) (test : Kernel → ℕ → Bool) : Sys (Option ℕ) := fun k =>
  .ok (l.find? (test k), k)

def doWaitpid (cur : ℕ) (pid : ℤ) : Sys Waited := do
  let r ← procAt cur
  if r.pChildren = [] then return .echild
  else if pid = -1 then do
    match ← findChild r.pChildren isDead with
    | none => return .asleep
    | some c => do
      reap cur c
      return .reaped c
  else if 0 < pid then do
    match ← findChild r.pChildren fun _ c => decide ((c : ℤ) = pid) with
    | none => return .echild
    | some c => do
      let rc ← procAt c
      if rc.pDead then do
        reap cur c
        return .reaped c
      else return .asleep
  else return .echild

def Faulted (p : ℕ) (k k' : Kernel) : Prop :=
  ∃ vaddr write exec vm,
    VmSystemCalls.handlePagefault k.vm p vaddr write exec = .ok (.resumed, vm) ∧ k' = charge k vm

end SystemsProjects.ProcessLifecycle
