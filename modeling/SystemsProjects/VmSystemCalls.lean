import SystemsProjects.AddressSpaces
import SystemsProjects.GuardedRuns

/-!
# Faults, system calls and runs of the virtual memory system

Page faults, `do_fork`, `do_mmap`, `do_munmap`, `do_brk` and the copies of the kernel
into user memory, together with what the processor does on a load or a store and
what the pageout daemon does to a page. Arguments of system calls are machine
words. An event is one call that runs to its end; a call that fails an assertion or
follows a wrong pointer has no event.
-/
namespace SystemsProjects.VmSystemCalls

open Function PageTables VmState MemoryObjects AddressSpaces

/-- `PAGE_ALIGN_UP`, which takes `NULL` to `NULL`. -/
def pageAlignUp (x : ℕ) : ℕ := (sub32 x 1 / pageSize * pageSize + pageSize) % word

/-- The page of an area's object that shows at a page of the address space. -/
def pagenum (a : Vmarea) (vfn : ℕ) : ℕ := vfn - a.vmaStart + a.vmaOff

/-- What becomes of the process that caused a fault. -/
inductive Resume where
  | resumed
  | killed
  deriving DecidableEq, Repr

/-- `do_exit`, as far as the address space goes. -/
def doExit (s : Vm) (p : ℕ) : Kern (Resume × Vm) := do
  let s ← vmmapDestroy s p
  return (.killed, s)

def permitted (a : Vmarea) (write exec : Bool) : Bool :=
  (!write || hasFlag a.vmaProt protWrite) && (!exec || hasFlag a.vmaProt protExec) &&
    hasFlag a.vmaProt protRead

def handlePagefaultWith (ac : Accesses) (exit : Vm → ℕ → Kern (Resume × Vm)) (s : Vm)
    (p vaddr : ℕ) (write exec : Bool) : Kern (Resume × Vm) := do
  let l ← ac.walk s p
  let vfn := vaddr/pageSize
  match vmmapLookup l vfn with
  | none => exit s p
  | some a =>
    if vfn = 0 ∨ ¬permitted a write exec then exit s p
    else do
      let o ← need .nullMmobj a.vmaObj
      let (res, s) ← lookuppage s o (pagenum a vfn) write
      match res with
      | .error _ => exit s p
      | .ok pf => do
        let s := if write then pframeDirty s o (pagenum a vfn) else s
        let r ← getProc s p
        let pd ← need (.kassert .ptMap) (ptMap r.pPagedir vfn ⟨pf.pfAddr, write⟩)
        return (.resumed, setPagedir s p r pd)

def handlePagefault (s : Vm) (p vaddr : ℕ) (write exec : Bool) : Kern (Resume × Vm) :=
  handlePagefaultWith (plain true) doExit s p vaddr write exec

/-- The frame that a load or a store of user code reaches, if the process survives the
fault that the access may cause. -/
def userAccess (s : Vm) (p vaddr : ℕ) (write : Bool) : Kern (Option ℕ × Vm) := do
  let r ← getProc s p
  match (ptEntry r.pPagedir (vaddr/pageSize)).filter fun e => !write || e.pteWrite with
  | some e => return (some e.pteFrame, s)
  | none => do
    let (res, s) ← handlePagefault s p vaddr write false
    match res with
    | .killed => return (none, s)
    | .resumed => do
      let r ← getProc s p
      let e ← need .stalePointer (ptEntry r.pPagedir (vaddr/pageSize))
      return (some e.pteFrame, s)

def userLoad (s : Vm) (p vaddr : ℕ) : Kern (Option UInt8 × Vm) := do
  let (f, s) ← userAccess s p vaddr false
  return (f.map fun f => s.mem f (vaddr%pageSize), s)

def userStore (s : Vm) (p vaddr : ℕ) (b : UInt8) : Kern Vm := do
  let (f, s) ← userAccess s p vaddr true
  match f with
  | none => return s
  | some f => return s.setMem f (update (s.mem f) (vaddr%pageSize) b)

/-- One pair of areas in the loop of `do_fork`: the area of the child and its model. -/
def forkAreaWith (ac : Accesses) (p child : ℕ) (s : Vm) (ca : Vmarea × Vmarea) : Kern Vm :=
  let (c, a) := ca
  if a.vmaStart = c.vmaStart then
    if hasFlag c.vmaFlags mapShared then do
      let o ← need .nullMmobj a.vmaObj
      let s ← editAreas s child (editArea c.vmaId fun b => { b with vmaObj := some o })
      let s ← mmobjRef s o
      ac.link s o (child, c.vmaId)
    else if hasFlag c.vmaFlags mapPrivate then do
      let old ← need .nullMmobj a.vmaObj
      let ob ← getObj s old
      match ob.mmoUn with
      | .vmas _ => .error .wildPointer
      | .bottomObj b => do
        let (shadowChild, s) := shadowCreate s old b
        let (shadowParent, s) := shadowCreate s old b
        let s ← editAreas s p (editArea a.vmaId fun b => { b with vmaObj := some shadowParent })
        let s ← editAreas s child
          (editArea c.vmaId fun b => { b with vmaObj := some shadowChild })
        let s ← ac.link s b (child, c.vmaId)
        refChain s old
    else return s
  else return s

def forkArea (p child : ℕ) (s : Vm) (ca : Vmarea × Vmarea) : Kern Vm :=
  forkAreaWith (plain true) p child s ca

/-- The child's map is a copy, made after `proc_create` has given the child a map of its
own, and no process is entered in it. -/
def doForkWith (ac : Accesses) (s : Vm) (p : ℕ) : Kern (ℕ × Vm) := do
  let r ← getProc s p
  let l ← ac.walk s p
  let child := s.nextPid
  let (areas, nextVma) := vmmapClone s.nextVma l
  let s := { s.setProc child { r with
      pVmmap := some ⟨areas, none⟩, pPagedir := ptCreatePagedir } with
    nextPid := child+1, nextVma := nextVma }
  let s ← (areas.zip l).foldlM (forkAreaWith ac p child) s
  let s ← unmapRange s p userLow userHigh
  return (child, s)

def doFork (s : Vm) (p : ℕ) : Kern (ℕ × Vm) := doForkWith (plain true) s p

def editProc (s : Vm) (p : ℕ) (f : Proc → Proc) : Kern Vm := do
  let r ← getProc s p
  return s.setProc p (f r)

/-- The page above the last one below an address. -/
def breakVfn (addr : ℕ) : ℕ := pageAlignUp addr / pageSize

/-- The pages of the growing heap are cleared. -/
def clearPage (o : ℕ) (s : Vm) (n : ℕ) : Kern Vm := do
  let (pf, s) ← pframeGet s o n
  return s.setMem pf.pfAddr zeroPage

def growHeap (s : Vm) (p : ℕ) (a : Vmarea) (ovfn nvfn addr : ℕ) : Kern Vm := do
  let o ← need .nullMmobj a.vmaObj
  let s ← ((List.range (nvfn-ovfn)).map (pagenum a ovfn + ·)).foldlM (clearPage o) s
  let s ← editAreas s p (editArea a.vmaId fun b => { b with vmaEnd := nvfn })
  editProc s p fun r => { r with pBrk := addr }

def shrinkHeap (s : Vm) (p : ℕ) (a : Vmarea) (ovfn nvfn addr : ℕ) : Kern Vm := do
  let s ← editAreas s p (editArea a.vmaId fun b => { b with vmaEnd := nvfn })
  let s ← unmapRange s p nvfn ovfn
  editProc s p fun r => { r with pBrk := addr }

/-- The area below the break is used before the test for `NULL`. -/
def doBrk (s : Vm) (p : ℕ) (addr : UInt32) : Kern (Except Errno ℕ × Vm) := do
  let r ← getProc s p
  let map ← getMap r
  let ovfn := breakVfn r.pBrk
  let nvfn := breakVfn addr.toNat
  let a ← need .nullVmarea (vmmapLookup map.vmmList (sub32 ovfn 1))
  if addr = 0 then return (.ok r.pBrk, s)
  else if addr.toNat < r.pStartBrk ∨ userMemHigh < addr.toNat then return (.error .enomem, s)
  else if ovfn < nvfn then do
    let empty ← vmmapIsRangeEmpty map.vmmList ovfn (nvfn-ovfn)
    if ¬empty then return (.error .enomem, s)
    else do
      let s ← growHeap s p a ovfn nvfn addr.toNat
      return (.ok addr.toNat, s)
  else if nvfn < ovfn then do
    let s ← shrinkHeap s p a ovfn nvfn addr.toNat
    return (.ok addr.toNat, s)
  else do
    let s ← editProc s p fun r => { r with pBrk := addr.toNat }
    return (.ok addr.toNat, s)

/-- `fget` for the descriptors that `do_mmap` lets through. -/
def fget (r : Proc) (fd : Int) : Option File :=
  if fd < 0 ∨ 32 ≤ fd then none else r.pFiles fd.toNat

/-- The checks of `do_mmap` on a file and its mode. -/
def fileArg (r : Proc) (addr prot flags off : ℕ) (fd : Int) : Except Errno VnodeMmap :=
  match fget r fd with
  | none => .error .ebadf
  | some f =>
    if (hasFlag flags mapShared ∧ hasFlag prot protWrite ∧ ¬(f.fRead ∧ f.fWrite)) ∨
        (hasFlag flags mapPrivate ∧ ¬f.fRead) then .error .eacces
    else if off % pageSize ≠ 0 ∨ addr % pageSize ≠ 0 then .error .einval
    else if hasFlag prot protWrite ∧ f.fAppend then .error .eacces
    else .ok f.fMmap

/-- The first checks of `do_mmap`; the protection and, for anonymous memory, the offset
are not among them. -/
def mmapArgsOk (addr len flags : ℕ) : Prop :=
  0 < len ∧ len ≤ userMemHigh-userMemLow ∧
    (addr = 0 → ¬hasFlag flags mapFixed) ∧
    (addr ≠ 0 → userMemLow ≤ addr ∧ addr ≤ userMemHigh) ∧
    ¬(hasFlag flags mapShared ∧ hasFlag flags mapPrivate) ∧
    (hasFlag flags mapShared ∨ hasFlag flags mapPrivate)

instance (addr len flags : ℕ) : Decidable (mmapArgsOk addr len flags) :=
  inferInstanceAs (Decidable (_ ∧ _ ∧ _ ∧ _ ∧ _ ∧ _))

def mmapFile (r : Proc) (addr prot flags off : ℕ) (fd : Int) :
    Except Errno (Option VnodeMmap) :=
  if hasFlag flags mapAnon then .ok none
  else (fileArg r addr prot flags off fd).map some

/-- The number of pages that hold `len` bytes. -/
def lenPages (len : ℕ) : ℕ := (len-1+pageSize)%word/pageSize

/-- The first page of a fixed mapping; `0` leaves the choice to `vmmap_map`. -/
def mmapLopage (addr flags : ℕ) : ℕ := if hasFlag flags mapFixed then addr/pageSize else 0

def doMmap (s : Vm) (p : ℕ) (addr len prot flags : UInt32) (fd : Int) (off : UInt32) :
    Kern (Except Errno ℕ × Vm) := do
  let r ← getProc s p
  if ¬mmapArgsOk addr.toNat len.toNat flags.toNat then return (.error .einval, s)
  else match mmapFile r addr.toNat prot.toNat flags.toNat off.toNat fd with
    | .error e => return (.error e, s)
    | .ok file => do
      let (res, s) ← vmmapMap s p file (mmapLopage addr.toNat flags.toNat) (lenPages len.toNat)
        prot.toNat flags.toNat off.toNat .hilo
      match res with
      | .error e => return (.error e, s)
      | .ok a => return (.ok (a.vmaStart*pageSize % word), s)

/-- The sum of address and length is a machine word. -/
def munmapArgsOk (addr len : ℕ) : Prop :=
  addr % pageSize = 0 ∧ 0 < len ∧ len ≤ userMemHigh-userMemLow ∧
    userMemLow ≤ addr ∧ (addr+len)%word ≤ userMemHigh

instance (addr len : ℕ) : Decidable (munmapArgsOk addr len) :=
  inferInstanceAs (Decidable (_ ∧ _ ∧ _ ∧ _ ∧ _))

def doMunmap (s : Vm) (p : ℕ) (addr len : UInt32) : Kern (Except Errno Unit × Vm) :=
  if ¬munmapArgsOk addr.toNat len.toNat then return (.error .einval, s)
  else do
    let s ← vmmapRemove s p (addr.toNat/pageSize) (lenPages len.toNat)
    return (.ok (), s)

def addrPerm (l : List Vmarea) (vaddr : ℕ) (perm : ℕ) : Bool :=
  match vmmapLookup l (vaddr/pageSize) with
  | none => false
  | some a => [protRead, protWrite, protExec].all fun m => !hasFlag perm m || hasFlag a.vmaProt m

def rangePerm (l : List Vmarea) (avaddr len perm : ℕ) : Bool :=
  (List.range len).all fun i => addrPerm l ((avaddr+i)%word) perm

/-- The bytes `buf` put into a page from `offset` on. -/
def blit (c : Page) (offset : ℕ) (buf : List UInt8) : Page :=
  fun i => if offset ≤ i then buf.getD (i-offset) (c i) else c i

/-- The first round of the loop copies all the bytes at once into the first page, and goes
on only if they do not fit, when the copy has left the frame; if they fit, it ends the loop
before the page is marked dirty. -/
def vmmapWrite (s : Vm) (p vaddr : ℕ) (buf : List UInt8) : Kern (Except Errno Unit × Vm) := do
  let r ← getProc s p
  let map ← getMap r
  if buf = [] then return (.ok (), s)
  else match vmmapLookup map.vmmList (vaddr/pageSize) with
    | none => return (.error .efault, s)
    | some a => do
      let startvfn := vaddr/pageSize
      let offset := vaddr%pageSize
      let startpage := a.vmaOff + (startvfn-a.vmaStart)
      let endpage := (sub32 (startpage + (vaddr+buf.length)%word/pageSize) startvfn +
        if buf.length%pageSize = 0 then 0 else 1) % word
      if endpage ≤ startpage then return (.ok (), s)
      else do
        let o ← need .nullMmobj a.vmaObj
        let (res, s) ← lookuppage s o startpage true
        match res with
        | .error e => return (.error e, s)
        | .ok pf =>
          if offset + buf.length ≤ pageSize then
            return (.ok (), s.setMem pf.pfAddr (blit (s.mem pf.pfAddr) offset buf))
          else .error .overrun

def copyToUser (s : Vm) (p vaddr : ℕ) (buf : List UInt8) : Kern (Except Errno Unit × Vm) := do
  let r ← getProc s p
  let map ← getMap r
  if ¬rangePerm map.vmmList vaddr buf.length protWrite then return (.error .efault, s)
  else vmmapWrite s p vaddr buf

/-- The pages that `pageoutd_run` frees: not pinned and clean. -/
def reclaimable (s : Vm) (o n : ℕ) : Bool :=
  (pframeGetResident s o n).any fun pf => pf.pfPincount = 0 && !pf.pfDirty

/-- `proc_create`, as far as the address space goes. -/
def procCreate (s : Vm) : Vm :=
  { s.setProc s.nextPid ⟨some ⟨[], some s.nextPid⟩, ptCreatePagedir, 0, 0, fun _ => none⟩ with
    nextPid := s.nextPid+1 }

/-- The object of a vnode comes into being, with the references its other users hold. -/
def vnodeCreate (s : Vm) (refs : ℕ) : Vm :=
  { s.setObj s.nextObj (some ⟨.vnode, refs, 0, [], .vmas [], none⟩) with
    nextObj := s.nextObj+1 }

/-- Calls that run to their end, with what the caller observes of a load. `execed` is the
end of loading a program, which sets the break, and `opened` enters a file in the table of
a process. -/
inductive VmEvent where
  | created
  | vnodeCreated (refs : ℕ)
  | opened (p fd : ℕ) (f : File)
  | execed (p brk : ℕ)
  | mapped (p : ℕ) (file : Option VnodeMmap) (lopage npages prot flags off : ℕ) (dir : Dir)
  | removed (p lopage npages : ℕ)
  | destroyed (p : ℕ)
  | forked (p : ℕ)
  | faulted (p vaddr : ℕ) (write exec : Bool)
  | loaded (p vaddr : ℕ) (b : Option UInt8)
  | stored (p vaddr : ℕ) (b : UInt8)
  | mmapped (p : ℕ) (addr len prot flags : UInt32) (fd : Int) (off : UInt32)
  | munmapped (p : ℕ) (addr len : UInt32)
  | brked (p : ℕ) (addr : UInt32)
  | written (p vaddr : ℕ) (buf : List UInt8)
  | copied (p vaddr : ℕ) (buf : List UInt8)
  | reclaimed (o n : ℕ)

/-- The result of a call and the state after it. -/
def Returns {α : Type} (x : Kern (α × Vm)) (t : Vm) : Prop := ∃ a, x = .ok (a, t)

def VmStep (s : Vm) : VmEvent → Vm → Prop
  | .created, t => t = procCreate s
  | .vnodeCreated refs, t => t = vnodeCreate s refs
  | .opened p fd f, t =>
    editProc s p (fun r => { r with pFiles := update r.pFiles fd (some f) }) = .ok t
  | .execed p brk, t =>
    editProc s p (fun r => { r with pBrk := brk, pStartBrk := brk }) = .ok t
  | .mapped p file lopage npages prot flags off dir, t =>
    Returns (vmmapMap s p file lopage npages prot flags off dir) t
  | .removed p lopage npages, t => vmmapRemove s p lopage npages = .ok t
  | .destroyed p, t => vmmapDestroy s p = .ok t
  | .forked p, t => Returns (doFork s p) t
  | .faulted p vaddr write exec, t => Returns (handlePagefault s p vaddr write exec) t
  | .loaded p vaddr b, t => userLoad s p vaddr = .ok (b, t)
  | .stored p vaddr b, t => userStore s p vaddr b = .ok t
  | .mmapped p addr len prot flags fd off, t =>
    Returns (doMmap s p addr len prot flags fd off) t
  | .munmapped p addr len, t => Returns (doMunmap s p addr len) t
  | .brked p addr, t => Returns (doBrk s p addr) t
  | .written p vaddr buf, t => Returns (vmmapWrite s p vaddr buf) t
  | .copied p vaddr buf, t => Returns (copyToUser s p vaddr buf) t
  | .reclaimed o n, t => reclaimable s o n ∧ pframeFree (mmobjPut 2) s o n = .ok t

/-- The step that an event stands for, as a function. -/
def stepVm (s : Vm) : VmEvent → Kern Vm
  | .created => return procCreate s
  | .vnodeCreated refs => return vnodeCreate s refs
  | .opened p fd f =>
    editProc s p fun r => { r with pFiles := update r.pFiles fd (some f) }
  | .execed p brk => editProc s p fun r => { r with pBrk := brk, pStartBrk := brk }
  | .mapped p file lopage npages prot flags off dir =>
    (vmmapMap s p file lopage npages prot flags off dir).map Prod.snd
  | .removed p lopage npages => vmmapRemove s p lopage npages
  | .destroyed p => vmmapDestroy s p
  | .forked p => (doFork s p).map Prod.snd
  | .faulted p vaddr write exec => (handlePagefault s p vaddr write exec).map Prod.snd
  | .loaded p vaddr b => do
    let r ← userLoad s p vaddr
    if r.1 = b then return r.2 else .error .depth
  | .stored p vaddr b => userStore s p vaddr b
  | .mmapped p addr len prot flags fd off =>
    (doMmap s p addr len prot flags fd off).map Prod.snd
  | .munmapped p addr len => (doMunmap s p addr len).map Prod.snd
  | .brked p addr => (doBrk s p addr).map Prod.snd
  | .written p vaddr buf => (vmmapWrite s p vaddr buf).map Prod.snd
  | .copied p vaddr buf => (copyToUser s p vaddr buf).map Prod.snd
  | .reclaimed o n =>
    if reclaimable s o n then pframeFree (mmobjPut 2) s o n else .error .depth

theorem returns_iff {α : Type} {x : Kern (α × Vm)} {t : Vm} :
    Returns x t ↔ x.map Prod.snd = .ok t := by
  constructor
  · rintro ⟨a, rfl⟩
    rfl
  · intro h
    cases x with
    | error e => cases h
    | ok r =>
      obtain rfl := Except.ok.inj h
      exact ⟨r.1, rfl⟩

theorem vmStep_iff {s t : Vm} {e : VmEvent} : VmStep s e t ↔ stepVm s e = .ok t := by
  cases e with
  | created | vnodeCreated =>
    exact ⟨fun h => congrArg Except.ok h.symm, fun h => (Except.ok.inj h).symm⟩
  | opened | execed | removed | destroyed | stored => exact Iff.rfl
  | mapped | forked | faulted | mmapped | munmapped | brked | written | copied =>
    exact returns_iff
  | loaded p vaddr b =>
    simp only [VmStep, stepVm, bind_eq_ok]
    constructor
    · exact fun h => ⟨_, h, if_pos rfl⟩
    · rintro ⟨⟨b', t'⟩, hl, h⟩
      split_ifs at h with hb
      obtain rfl := Except.ok.inj h
      exact hb ▸ hl
  | reclaimed o n =>
    simp only [VmStep, stepVm]
    split_ifs with hr
    · exact and_iff_right hr
    · exact ⟨fun h => absurd h.1 hr, nofun⟩

/-- The execution of a list of events, as far as they meet a condition. -/
def execVm (good : Vm → VmEvent → Prop) [∀ s e, Decidable (good s e)] (s : Vm)
    (es : List VmEvent) : Option Vm :=
  GuardedRuns.exec (fun s e => (stepVm s e).toOption) good s es

theorem exists_run_vm (good : Vm → VmEvent → Prop) [∀ s e, Decidable (good s e)] (s : Vm)
    (es : List VmEvent) {P : Vm → Prop} [DecidablePred P]
    (h : (execVm good s es).any (fun t => decide (P t)) = true) :
    ∃ t, GuardedRuns.Run VmStep good s es t ∧ P t := by
  refine GuardedRuns.exists_run (fun s e t ht => vmStep_iff.mpr ?_) h
  cases hs : stepVm s e with
  | error x => simp [hs, Except.toOption] at ht
  | ok t' => simpa [hs, Except.toOption] using ht

/-- No process, object or area yet; files may have any contents. -/
def bootVm (vnLen : ℕ → ℕ) (vnData : ℕ → ℕ → Page) : Vm :=
  ⟨fun _ => none, fun _ => none, fun _ => zeroPage, vnLen, vnData, 0, 0, 0, 0⟩

def blankVm : Vm := bootVm (fun _ => 0) fun _ _ => zeroPage

end SystemsProjects.VmSystemCalls
