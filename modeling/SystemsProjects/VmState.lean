import SystemsProjects.PageTables

/-!
# The state of the virtual memory system

Processes have a map of areas and a page directory; areas refer to memory objects;
memory objects own resident pages, which are frames of physical memory. A private
area refers to a shadow object, which refers to the object it shadows and so on
down to a bottom object, anonymous or backed by a file.

Addresses of structures are numbers, handed out in increasing order and never
again, so that a pointer to freed memory shows as a number without a structure.
What would crash the kernel or leave the model is a `Fault`: a failed assertion,
the use of `NULL`, of a stale or of a wrong pointer, a copy past the end of a
frame, or the release of a file by its last user, which is up to the file system.
Allocations succeed. The map of a process is kept with the process, which is the
owner that `vma_vmmap` and `curproc->p_vmmap` name.
-/
namespace SystemsProjects.VmState

open Function PageTables

/-- `PAGE_SIZE`. -/
def pageSize : ℕ := 4096

def word : ℕ := 2^32

def userMemLow : ℕ := 0x00400000

def userMemHigh : ℕ := 0xc0000000

def sub32 (a b : ℕ) : ℕ := (a+(word-b%word))%word

/-- The contents of a page; the offsets below `pageSize` are used. -/
abbrev Page := ℕ → UInt8

def zeroPage : Page := fun _ => 0

def protRead : ℕ := 1

def protWrite : ℕ := 2

def protExec : ℕ := 4

def mapShared : ℕ := 1

def mapPrivate : ℕ := 2

def mapFixed : ℕ := 4

def mapAnon : ℕ := 8

/-- `x & mask`, as a condition. -/
def hasFlag (x mask : ℕ) : Bool := (x &&& mask) != 0

/-- The assertions that occur in the modelled functions, by function. -/
inductive Site where
  | vmmapMap
  | vmmapIsRangeEmpty
  | ptMap
  | ptUnmap
  | ptUnmapRange
  | mmobjRef
  | mmobjPut
  | pframeFree
  | fillpage
  | pframeDirty
  | vnodePut
  deriving DecidableEq, Repr

inductive Fault where
  | kassert (site : Site)
  | nullVmarea
  | nullMmobj
  | nullVnodeOp
  | stalePointer
  | wildPointer
  | overrun
  | vnodeInactive
  | depth
  deriving DecidableEq, Repr

/-- Error numbers that the modelled functions return; `other` is one chosen by a file
system, or a value that is taken for one. -/
inductive Errno where
  | einval
  | enomem
  | ebadf
  | eacces
  | efault
  | other (e : ℕ)
  deriving DecidableEq, Repr

/-- A page is busy only inside a function that is modelled in one step, so there is no
flag for it. -/
structure Pframe where
  pfPagenum : ℕ
  pfAddr : ℕ
  pfDirty : Bool
  pfPincount : ℕ
  deriving DecidableEq, Repr

inductive MmobjOps where
  | anon
  | shadow
  | vnode
  deriving DecidableEq, Repr

/-- The union of `struct mmobj`: the list of areas over a bottom object, given by process
and area, or the bottom object of a shadow object. -/
inductive MmobjUn where
  | vmas (l : List (ℕ × ℕ))
  | bottomObj (o : ℕ)
  deriving DecidableEq, Repr

structure Mmobj where
  mmoOps : MmobjOps
  mmoRefcount : ℕ
  mmoNrespages : ℕ
  mmoRespages : List Pframe
  mmoUn : MmobjUn
  mmoShadowed : Option ℕ
  deriving DecidableEq, Repr

/-- `vmaFreed` is a ghost: the structure has been given back to its allocator. -/
structure Vmarea where
  vmaId : ℕ
  vmaStart : ℕ
  vmaEnd : ℕ
  vmaOff : ℕ
  vmaProt : ℕ
  vmaFlags : ℕ
  vmaObj : Option ℕ
  vmaFreed : Bool
  deriving DecidableEq, Repr

structure Vmmap where
  vmmList : List Vmarea
  vmmProc : Option ℕ
  deriving DecidableEq, Repr

/-- What the `mmap` operation of a vnode does: it is not there, it fails, or it gives the
object of the file. -/
inductive VnodeMmap where
  | null
  | fails (e : ℕ)
  | gives (o : ℕ)
  deriving DecidableEq, Repr

structure File where
  fRead : Bool
  fWrite : Bool
  fAppend : Bool
  fMmap : VnodeMmap
  deriving DecidableEq, Repr

/-- The map is `none` once `vmmap_destroy` has freed it. -/
structure Proc where
  pVmmap : Option Vmmap
  pPagedir : Pagedir
  pBrk : ℕ
  pStartBrk : ℕ
  pFiles : ℕ → Option File

/-- The length and the contents of the files are given by `vnLen` and `vnData`, by vnode
object. -/
@[ext] structure Vm where
  procs : ℕ → Option Proc
  objs : ℕ → Option Mmobj
  mem : ℕ → Page
  vnLen : ℕ → ℕ
  vnData : ℕ → ℕ → Page
  nextPid : ℕ
  nextObj : ℕ
  nextFrame : ℕ
  nextVma : ℕ

abbrev Kern := Except Fault

variable {α β : Type}

@[simp] theorem ok_bind (a : α) (f : α → Kern β) : ((Except.ok a : Kern α) >>= f) = f a := rfl

@[simp] theorem error_bind (e : Fault) (f : α → Kern β) :
    ((Except.error e : Kern α) >>= f) = .error e := rfl

@[simp] theorem pure_eq_ok (a : α) : (pure a : Kern α) = .ok a := rfl

theorem ok_inj {a a' : α} {b b' : β} (h : (.ok (a, b) : Kern (α × β)) = .ok (a', b')) :
    a = a' ∧ b = b' := Prod.mk.inj (Except.ok.inj h)

/-- `KASSERT`. -/
def kassert (c : Prop) [Decidable c] (site : Site) : Kern Unit :=
  if c then .ok () else .error (.kassert site)

theorem kassert_of {c : Prop} [Decidable c] (h : c) (site : Site) :
    kassert c site = .ok () := if_pos h

/-- The value of an `Option`, or the given fault. -/
def need {α : Type} (e : Fault) : Option α → Kern α
  | none => .error e
  | some a => .ok a

@[simp] theorem need_some (e : Fault) (a : α) : need e (some a) = .ok a := rfl

theorem need_eq_ok {e : Fault} {x : Option α} {a : α} : need e x = .ok a ↔ x = some a := by
  cases x <;> simp [need]

theorem bind_eq_ok {x : Kern α} {f : α → Kern β} {b : β} :
    (x >>= f) = .ok b ↔ ∃ a, x = .ok a ∧ f a = .ok b := by
  cases x <;> simp

/-- A loop runs to its end if every round does, and keeps what every round keeps, given
what is left of the list. -/
theorem foldlM_total {f : β → α → Kern β} (I : List α → β → Prop)
    (hf : ∀ a l b, I (a :: l) b → ∃ b', f b a = .ok b' ∧ I l b') (l : List α) (b : β) (hb : I l b) :
    ∃ b', l.foldlM f b = .ok b' ∧ I [] b' := by
  induction l generalizing b with
  | nil => exact ⟨b, rfl, hb⟩
  | cons a l ih =>
    obtain ⟨b1, hf1, h1⟩ := hf a l b hb
    obtain ⟨b2, hf2, h2⟩ := ih b1 h1
    exact ⟨b2, by rw [List.foldlM_cons, hf1, ok_bind, hf2], h2⟩

/-- What every round keeps, given what is left of the list, holds at the end of a loop. -/
theorem foldlM_rule {f : β → α → Kern β} (I : List α → β → Prop)
    (hf : ∀ a l b b', I (a :: l) b → f b a = .ok b' → I l b') (l : List α) (b b' : β) (hb : I l b)
    (h : l.foldlM f b = .ok b') : I [] b' := by
  induction l generalizing b with
  | nil =>
    obtain rfl := Except.ok.inj h
    exact hb
  | cons a l ih =>
    rw [List.foldlM_cons, bind_eq_ok] at h
    obtain ⟨b1, h1, h2⟩ := h
    exact ih b1 (hf a l b b1 hb h1) h2

theorem foldlM_congr {f g : β → α → Kern β} (I : List α → β → Prop)
    (hf : ∀ a l b, I (a :: l) b → f b a = g b a ∧ ∀ b', g b a = .ok b' → I l b') (l : List α)
    (b : β) (hb : I l b) : l.foldlM f b = l.foldlM g b := by
  induction l generalizing b with
  | nil => rfl
  | cons a l ih =>
    obtain ⟨heq, hkeep⟩ := hf a l b hb
    rw [List.foldlM_cons, List.foldlM_cons, heq]
    cases hg : g b a with
    | error e => rfl
    | ok b' => exact ih b' (hkeep b' hg)

namespace Vm

def setObj (s : Vm) (o : ℕ) (r : Option Mmobj) : Vm :=
  { s with objs := update s.objs o r }

def setProc (s : Vm) (p : ℕ) (r : Proc) : Vm :=
  { s with procs := update s.procs p (some r) }

def setProcs (s : Vm) (f : ℕ → Option Proc) : Vm :=
  { s with procs := f }

@[simp] theorem setProcs_self (s : Vm) : s.setProcs s.procs = s := rfl

@[simp] theorem setProcs_setProcs (s : Vm) (f f' : ℕ → Option Proc) :
    (s.setProcs f).setProcs f' = s.setProcs f' := rfl

def setMem (s : Vm) (f : ℕ) (c : Page) : Vm :=
  { s with mem := update s.mem f c }

end Vm

end SystemsProjects.VmState
