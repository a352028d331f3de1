import SystemsProjects.FileCalls
import SystemsProjects.GuardedRuns

/-!
# Runs of file system calls

Any process makes any call with any arguments, one call after the other. A call that stops
ends the run.
-/
namespace SystemsProjects.VfsCalls
open CallOutcomes VfsState RamfsOperations PathCalls FileCalls

inductive VfsCall where
  | mknod (path : List Char) (mode devid : ℕ)
  | mkdir (path : List Char)
  | rmdir (path : List Char)
  | unlink (path : List Char)
  | link (source target : List Char)
  | rename (oldname newname : List Char)
  | chdir (path : List Char)
  | stat (path : List Char)
  | openFile (filename : List Char) (oflags : ℕ)
  | close (fd : ℤ)
  | dup (fd : ℤ)
  | dup2 (ofd nfd : ℤ)
  | read (fd : ℤ) (nbytes : ℕ) (device : Option ℤ)
  | write (fd : ℤ) (buf : List UInt8) (device : Option ℤ)
  | lseek (fd offset : ℤ) (whence : ℕ)
  | getdent (fd : ℤ)
  | fork
  | spawn (atRoot : Bool)
  | memory (left : Bool)
  deriving DecidableEq, Repr

/-- What a call gives back: its return value and what it copied out. -/
structure Reply where
  ret : Ret
  bytes : List UInt8
  entry : Option Dirent
  stat : Option Stat
  deriving DecidableEq, Repr

def answer (r : Ret) : Reply := ⟨r, [], none, none⟩

/-- A call by process `cur`. The last two change what the file system runs on: a process
appears, or the allocators run out of memory or have some again. -/
def perform (cur : ℕ) : VfsCall → Vfs Reply
  | .mknod path mode devid => answer <$> doMknod cur path mode devid
  | .mkdir path => answer <$> doMkdir cur path
  | .rmdir path => answer <$> doRmdir cur path
  | .unlink path => answer <$> doUnlink cur path
  | .link source target => answer <$> doLink cur source target
  | .rename oldname newname => answer <$> doRename cur oldname newname
  | .chdir path => answer <$> doChdir cur path
  | .stat path => (fun r => ⟨r.1, [], none, r.2⟩) <$> doStat cur path
  | .openFile filename oflags => answer <$> doOpen cur filename oflags
  | .close fd => answer <$> doClose cur fd
  | .dup fd => answer <$> doDup cur fd
  | .dup2 ofd nfd => answer <$> doDup2 cur ofd nfd
  | .read fd nbytes device => (fun r => ⟨r.1, r.2, none, none⟩) <$> doRead cur fd nbytes device
  | .write fd buf device => answer <$> doWrite cur fd buf device
  | .lseek fd offset whence => answer <$> doLseek cur fd offset whence
  | .getdent fd => (fun r => ⟨r.1, [], r.2, none⟩) <$> doGetdent cur fd
  | .fork => (fun _ => answer (.val 0)) <$> doFork cur
  | .spawn atRoot => (fun _ => answer (.val 0)) <$> newProc atRoot
  | .memory left => fun s => .ok (answer (.val 0), { s with memory := left })

def VfsStep (s : VState) (e : ℕ × VfsCall) (t : VState) : Prop :=
  ∃ r, perform e.1 e.2 s.enter = .ok (r, t)

def vfsNext (s : VState) (e : ℕ × VfsCall) : Option VState :=
  match perform e.1 e.2 s.enter with
  | .ok (_, t) => some t
  | .error _ => none

theorem vfsStep_of_next (s : VState) (e : ℕ × VfsCall) (t : VState)
    (h : vfsNext s e = some t) : VfsStep s e t := by
  unfold vfsNext at h
  split at h
  · cases h
    exact ⟨_, by assumption⟩
  · cases h

theorem VfsStep.of_ends {s t : VState} {e : ℕ × VfsCall} {E : Halt → Prop}
    {I : VState → Prop} (h : VfsStep s e t)
    (hc : Ends (perform e.1 e.2 s.enter) E fun _ u => I u) : I t := by
  obtain ⟨r, hr⟩ := h
  exact hc.of_ok hr

/-- `ramfs_mount`, and a first process that works in the root. -/
def booted : VState where
  procs := [⟨List.replicate NFILES none, some 0⟩]
  files _ := none
  nextFile := 0
  vnodes := Function.update (fun _ => none) 0 (some ⟨2, .dir, 2*direntSize⟩)
  inodes := Function.update (fun _ => none) 0 (some ⟨2*direntSize, 2, .dir (dots 0 0)⟩)
  memory := true
  held := []
  late := false
  opened := []
  closed := []

end SystemsProjects.VfsCalls
