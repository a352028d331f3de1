import SystemsProjects.ExitWaiting

/-!
# The process tree

Processes are found by the address of their structure, which `slab_obj_alloc` chooses and
`slab_obj_free` gives back for use by a later process. Every process has a pointer to its
parent, a list of its children and an entry in `_proc_list`. `_proc_getid` searches for a
number from `next_pid` on, around the end of the numbers, and fails if all are taken.

`none` as a result of a function stands for a failed assertion or for an access to a
structure that has been freed. The reparenting in `proc_cleanup` and the mark that the
process is dead come without a chance for other processes to run in between, so that they
are one step. A process that sleeps in `do_waitpid` has no other thread; it may be woken at
any time and then looks at its children, or at the child that it waits for, again.
-/
namespace SystemsProjects.ProcessTree

open Function ExitWaiting

/-- `PROC_MAX_COUNT`. -/
def procMaxCount : ℕ := 65536

structure Proc where
  pPid : ℤ
  pState : PState
  pPproc : Option ℕ
  pChildren : List ℕ
  deriving DecidableEq, Repr

/-- What a process asleep in `do_waitpid` waits for. -/
inductive Waiting where
  | anyChild
  | child (p : ℕ)
  deriving DecidableEq, Repr

structure ProcState where
  procs : ℕ → Option Proc
  procList : List ℕ
  nextPid : ℕ
  procInitproc : Option ℕ
  waits : ℕ → Option Waiting

namespace ProcState

def modify (s : ProcState) (a : ℕ) (f : Proc → Proc) : Option ProcState :=
  (s.procs a).map fun P => { s with procs := update s.procs a (some (f P)) }

def usedPid (s : ProcState) (pid : ℕ) : Bool :=
  s.procList.any fun a => (s.procs a).any fun P => decide (P.pPid = Int.ofNat pid)

end ProcState

/-- The rounds of `_proc_getid` from `pid` on. -/
def pidFrom (s : ProcState) : ℕ → ℕ → Option ℕ
  | 0, _ => none
  | rounds+1, pid =>
    if s.usedPid pid then
      if (pid+1)%procMaxCount = s.nextPid then none
      else pidFrom s rounds ((pid+1)%procMaxCount)
    else some pid

/-- `_proc_getid`; `none` stands for -1. -/
def procGetid (s : ProcState) : Option ℕ := pidFrom s procMaxCount s.nextPid

/-- `proc_create` with the current process and the address of the new structure. The numbers
0 and 1 are `PID_IDLE` and `PID_INIT`. -/
def procCreate (s : ProcState) (curproc : Option ℕ) (addr : ℕ) : Option ProcState :=
  let processId := procGetid s
  let pid : ℤ := processId.elim (-1) Int.ofNat
  if (s.procs addr).isSome = true ∨ (pid = 0 ∧ s.procList ≠ []) ∨
      (pid = 1 ∧ (curproc.bind s.procs).map Proc.pPid ≠ some 0) then none
  else
    let pproc := if 0 < pid then curproc else none
    let s1 := { s with
      procs := update s.procs addr (some ⟨pid, .running, pproc, []⟩)
      procList := s.procList++[addr]
      nextPid := processId.elim s.nextPid fun pid => (pid+1)%procMaxCount
      procInitproc := if pid = 1 then some addr else s.procInitproc }
    match pproc with
    | none => some s1
    | some q => s1.modify q fun Q => { Q with pChildren := Q.pChildren++[addr] }

/-- The loop of `proc_cleanup` over the children, which gives each of them to init. -/
def reparent (curproc init : ℕ) : List ℕ → ProcState → Option ProcState
  | [], s => some s
  | child :: rest, s => do
    let s1 ← s.modify child fun P => { P with pPproc := some init }
    let s2 ← s1.modify curproc fun P => { P with pChildren := P.pChildren.erase child }
    let s3 ← s2.modify init fun P => { P with pChildren := P.pChildren++[child] }
    reparent curproc init rest s3

def procCleanup (s : ProcState) (curproc : ℕ) : Option ProcState := do
  let P ← s.procs curproc
  let init ← s.procInitproc
  if P.pPid < 1 ∨ P.pPproc = none then none
  else do
    let s1 ← (if P.pPid ≠ 1 then reparent curproc init P.pChildren s else some s)
    s1.modify curproc fun P => { P with pState := .dead }

/-- The end of `do_waitpid` for a dead child. -/
def reap (s : ProcState) (curproc p : ℕ) : Option ProcState :=
  (s.modify curproc fun P => { P with pChildren := P.pChildren.erase p }).map fun s1 =>
    { s1 with
      procs := update s1.procs p none
      procList := s1.procList.erase p
      waits := update s1.waits curproc none }

def sleep (s : ProcState) (curproc : ℕ) (w : Waiting) : ProcState :=
  { s with waits := update s.waits curproc (some w) }

/-- The first child for which a test succeeds. -/
def firstChild (s : ProcState) (test : Proc → Bool) : List ℕ → Option (Option ℕ)
  | [] => some none
  | c :: rest => do
    let P ← s.procs c
    if test P then return some c else firstChild s test rest

def waitAny (s : ProcState) (curproc : ℕ) : Option ProcState := do
  let P ← s.procs curproc
  match ← firstChild s (·.pState = .dead) P.pChildren with
  | some p => reap s curproc p
  | none => return sleep s curproc .anyChild

def waitChild (s : ProcState) (curproc p : ℕ) : Option ProcState := do
  let P ← s.procs p
  if P.pState = .dead then reap s curproc p else return sleep s curproc (.child p)

/-- `do_waitpid` up to its return or to the first time that it sleeps. -/
def doWaitpid (s : ProcState) (curproc : ℕ) (pid : ℤ) : Option ProcState := do
  let P ← s.procs curproc
  if P.pChildren = [] then return s
  else if pid = -1 then waitAny s curproc
  else if 0 < pid then do
    match ← firstChild s (·.pPid = pid) P.pChildren with
    | some p => waitChild s curproc p
    | none => return s
  else return s

def resume (s : ProcState) (curproc : ℕ) : Option ProcState :=
  match s.waits curproc with
  | none => none
  | some .anyChild => waitAny s curproc
  | some (.child p) => waitChild s curproc p

inductive ProcEvent where
  | create (curproc addr : ℕ)
  | exit (curproc : ℕ)
  | waitpid (curproc : ℕ) (pid : ℤ)
  | resume (curproc : ℕ)
  deriving DecidableEq, Repr

def isRunning (s : ProcState) (a : ℕ) : Bool := (s.procs a).any fun P => P.pState = .running

def active (s : ProcState) (a : ℕ) : Bool := isRunning s a && s.waits a = none

/-- What the current process does. The init process exits only without children. -/
def stepProcs (s : ProcState) : ProcEvent → Option ProcState
  | .create cur addr => if active s cur then procCreate s (some cur) addr else none
  | .exit cur =>
    if active s cur ∧ (s.procs cur).all fun P => P.pPid = 1 → P.pChildren = [] then
      procCleanup s cur
    else none
  | .waitpid cur pid => if active s cur then doWaitpid s cur pid else none
  | .resume cur => if isRunning s cur then resume s cur else none

def ProcSteps (s : ProcState) (e : ProcEvent) (s' : ProcState) : Prop := stepProcs s e = some s'

def noProcs : ProcState := ⟨fun _ => none, [], 0, none, fun _ => none⟩

/-- The creation of the idle process, when there is no current process. -/
def bootProcs (idle : ℕ) : Option ProcState := procCreate noProcs none idle

end SystemsProjects.ProcessTree
