import Mathlib.Algebra.Order.Ring.Int
import SystemsProjects.FileReferences

/-!
# What the calls on descriptors are made of

A call on a descriptor changes the position or the count of a file, gives the vnode of a
file back with its last reference, fills a slot or writes to a page. A condition on the
state that each of these keeps is kept by the calls, and by the creation of processes.
-/
namespace SystemsProjects.DescriptorCalls
open Function CallOutcomes VfsState RamfsOperations PathCalls FileCalls VfsFrames FileReferences

/-- The state after `ret` bytes of a buffer were written to the page of a regular file. -/
def written (s : VState) (v : ℕ) (inode : Inode) (vn : Vnode) (page : ℕ → UInt8) (pos ret : ℤ)
    (buf : List UInt8) : VState :=
  (s.setInode v (some { inode with
    rfSize := max vn.vnLen (pos+ret)
    rfNode := .data (copyIn page pos ret buf) })).setVnode v
      { vn with vnLen := max vn.vnLen (pos+ret) }

theorem ramfsWrite_spec (s : VState) (v : ℕ) (pos : ℤ) (buf : List UInt8) :
    Gives (ramfsWrite v pos buf s) fun ret t =>
      ret = min (offT buf.length) (PAGE_SIZE-pos) ∧ 0 ≤ ret ∧
      ∃ inode vn page, s.inodes v = some inode ∧ s.vnodes v = some vn ∧
        inode.rfNode = .data page ∧ vn.vnLen = inode.rfSize ∧
        t = written s v inode vn page pos ret buf := by
  unfold ramfsWrite
  cases hi : s.inodes v with
  | none =>
    rw [bind_error (by simp [inodeAt, hi, stop] : inodeAt v s = .error ⟨.panic, s.late⟩)]
    trivial
  | some inode =>
    rw [bind_ok (by simp [inodeAt, hi] : inodeAt v s = .ok (inode, s))]
    cases hv : s.vnodes v with
    | none =>
      rw [bind_error (by simp [vnodeAt, hv, stop] : vnodeAt v s = .error ⟨.panic, s.late⟩)]
      trivial
    | some vn =>
      rw [bind_ok (by simp [vnodeAt, hv] : vnodeAt v s = .ok (vn, s))]
      cases hn : inode.rfNode with
      | data page =>
        dsimp only
        split_ifs with hneg hlen
        · trivial
        · trivial
        · exact ⟨rfl, not_lt.mp hneg, inode, vn, page, rfl, rfl, hn, not_not.mp hlen, rfl⟩
      | dir _ => trivial
      | chr _ => trivial
      | blk _ => trivial

/-- The condition `I` is kept by the parts that descriptor calls are made of. -/
structure DescriptorRules (I : VState → Prop) : Prop where
  file : ∀ {s : VState} {f : ℕ} {x y : File}, I s → s.files f = some x → Turned s x y →
    I (s.setFile f (some y))
  fresh : ∀ {s : VState}, I s →
    I { s.setFile s.nextFile (some ⟨0, 0, 0, none⟩) with nextFile := s.nextFile+1 }
  empty : ∀ {s : VState} {f : ℕ} {x : File}, I s → s.files f = some x → x.fVnode = none →
    I (s.setFile f none)
  last : ∀ {s : VState} {f v : ℕ} {x : File}, I s → s.files f = some x → x.fVnode = some v →
    Gives (dropRef v s) fun _ t =>
      I (({ t with closed := (f, v) :: t.closed } : VState).setFile f none)
  slot : ∀ {s : VState} (cur fd : ℕ) (x : Option ℕ), I s → I (withSlot s cur fd x)
  write : ∀ (v : ℕ) (pos : ℤ) (buf : List UInt8), Keeps I (ramfsWrite v pos buf)
  process : ∀ {s : VState} {v : ℕ} (p : VProc), I s → p.pCwd = some v →
    Gives (vref v s) fun _ t => I { t with procs := t.procs ++ [p] }
  daemon : ∀ {s : VState} (p : VProc), I s → p.pCwd = none →
    I { s with procs := s.procs ++ [p] }

variable {I : VState → Prop} {s : VState} (R : DescriptorRules I)

include R

theorem keeps_fref (f : ℕ) : Keeps I (fref f) := by
  intro s hs
  refine (fileAt_spec f s).bind ?_
  rintro x _ ⟨rfl, hx⟩
  split
  · exact R.file hs hx (.counted _)
  · trivial

theorem keeps_fput (f : ℕ) : Keeps I (fput f) := by
  intro s hs
  refine (fileAt_spec f s).bind ?_
  rintro x _ ⟨rfl, hx⟩
  split
  · split
    · cases hv : x.fVnode with
      | none => exact R.empty hs hx hv
      | some v =>
        apply Ends.bind (Q := fun _ t => I (t.setFile f none))
        · exact (R.last hs hx hv).bind fun _ t ht => ends_ok ht
        · intro _ t ht
          exact ends_ok ht
    · exact R.file hs hx (.counted _)
  · trivial

theorem keeps_fget (cur : ℕ) (fd : ℤ) : Keeps I (fget cur fd) := by
  have hrest : ∀ f : Option ℕ, Keeps I (f.elim (pure none) fun f => do
        fref f
        return some f : Vfs (Option ℕ)) := by
    intro f
    cases f with
    | none => exact keeps_pure _
    | some f => exact (keeps_fref R f).ret
  rw [fget_eq]
  split
  · refine Guards.bind (fun s hs => ?_) hrest
    unfold newFile
    split
    · exact R.fresh hs
    · exact hs
  · exact (keeps_slotAt I cur fd).bind hrest

theorem keeps_setSlot (cur fd : ℕ) (x : Option ℕ) : Keeps I (setSlot cur fd x) :=
  fun _ hs => R.slot cur fd x hs

theorem DescriptorRules.files : FileRules fun _ => I where
  fref f h := keeps_fref R f _ h
  fput h := keeps_fput R _ _ h
  file h hx hy _ := R.file h hx hy
  write _ := R.write
  freed {_ s} h := by
    have hgone := R.empty (R.fresh h) (update_self ..) rfl
    simp only [VState.setFile, opening, update_idem] at hgone ⊢
    exact hgone

theorem keeps_doClose (cur : ℕ) (fd : ℤ) : Keeps I (doClose cur fd) := by
  refine keeps_ite (keeps_pure _) ((keeps_fget R cur fd).bind fun f => ?_)
  cases f with
  | none => exact keeps_pure _
  | some f =>
    exact (keeps_fput R f).bind fun _ => (keeps_setSlot R cur _ none).bind fun _ =>
      (keeps_fput R f).ret

theorem keeps_doDup (cur : ℕ) (fd : ℤ) : Keeps I (doDup cur fd) := by
  refine keeps_ite (keeps_pure _) ((keeps_fget R cur fd).bind fun f => ?_)
  cases f with
  | none => exact keeps_pure _
  | some f =>
    refine (keeps_procAt I cur).bind fun p => ?_
    split
    · exact (keeps_fput R f).ret
    · exact (keeps_setSlot R cur _ _).ret

theorem keeps_doDup2 (cur : ℕ) (ofd nfd : ℤ) : Keeps I (doDup2 cur ofd nfd) := by
  refine keeps_ite (keeps_pure _) (keeps_ite (keeps_pure _) ?_)
  refine (keeps_fget R cur ofd).bind fun f => ?_
  cases f with
  | none => exact keeps_pure _
  | some f =>
    refine Guards.bind (keeps_ite (keeps_fput R f) ?_) fun _ => ?_
    · refine (keeps_slotAt I cur nfd).bind fun used => keeps_ite (keeps_pure _) ?_
      exact (keeps_doClose R cur nfd).ret
    · exact (keeps_setSlot R cur _ _).ret

theorem keeps_frefAll (l : List (Option ℕ)) : Keeps I (frefAll l) := by
  induction l with
  | nil => exact keeps_pure _
  | cons x l ih =>
    cases x with
    | none => exact ih
    | some f => exact (keeps_fref R f).bind fun _ => ih

theorem keeps_doFork (cur : ℕ) : Keeps I (doFork cur) := by
  refine (keeps_procAt I cur).bind fun p => (keeps_frefAll R p.pFiles).bind fun _ => ?_
  cases hv : p.pCwd with
  | none => exact keeps_stop _ _ _
  | some v => exact fun s hs => (R.process p hs hv).bind fun _ _ ht => ht

theorem keeps_newProc (atRoot : Bool) : Keeps I (newProc atRoot) := by
  refine keeps_ite ?_ ?_
  · exact fun s hs => (R.process _ hs rfl).bind fun _ _ ht => ht
  · exact fun s hs => R.daemon _ hs rfl

omit R

/-! ### All calls -/

/-- The condition `I` is kept by everything that calls are made of, a link apart. -/
structure CallRules (I : VState → Prop) : Prop
    extends VnodeRules (fun _ => True) I, DescriptorRules I where
  vref : ∀ v, Keeps I (vref v)
  cwd : ∀ cur v, Keeps I (setCwd cur v)
  finish : ∀ {s : VState} {f v m : ℕ} {x : File}, I s → s.files f = some x →
    x.fVnode = none → x.fPos = 0 → m < 8 →
    I { s.setFile f (some { x with fMode := m, fVnode := some v }) with
      held := s.held.erase v, opened := (f, v)::s.opened }
  enter : ∀ {s : VState}, I s → I s.enter
  memory : ∀ {s : VState} (left : Bool), I s → I { s with memory := left }

variable (C : CallRules I)

include C

theorem CallRules.doOpen (cur : ℕ) (filename : List Char) (oflags : ℕ) :
    Keeps I (doOpen cur filename oflags) := by
  intro s hs
  have R := C.toVnodeRules
  have D := C.toDescriptorRules
  refine (doOpen_ends cur filename oflags s).imp ?_
  rintro r u (⟨-, rfl, -⟩ | ⟨fd, q, t, -, hm, hq, hsame, hend⟩)
  · exact hs
  have hnew : I (reserved s cur fd) :=
    D.slot cur fd _ ((keeps_fget D cur (-1) s hs).of_ok ((fget_new cur s).trans (if_pos hm)))
  have ht : I t := (R.openNamev cur filename _ none _ hnew).of_ok hq
  have hfile : t.files s.nextFile = some ⟨0, 0, 1, none⟩ := (opening_of_same hsame).file
  have hgone : ∀ {t : VState}, I t → t.files s.nextFile = some ⟨0, 0, 1, none⟩ →
      I (t.setFile s.nextFile none) := fun ht hf => D.empty ht hf rfl
  cases hend with
  | unresolved _ => exact D.slot cur fd none (hgone ht hfile)
  | invalid _ _ _ hput =>
    exact D.slot cur fd none ((R.vput _ _ (hgone ht hfile)).of_ok hput)
  | @directory v t' w _ _ hk hput =>
    have hf : t'.files = t.files := (((sameFiles_rules t).vnMode v t (.refl t)).of_ok hk).files
    have ht' : I t' := (R.vnMode v t ht).of_ok hk
    exact D.slot cur fd none ((R.vput _ _ (hgone ht' (hf ▸ hfile))).of_ok hput)
  | @opened v t' _ _ h3 ht' =>
    have hmode : fileMode oflags < 8 := by
      have hle : oflags &&& 3 ≤ 3 := Nat.and_le_right
      have hlt : ∀ m < 4, ∀ b : Bool, (if b then m ||| 4 else m) < 8 := by decide
      exact hlt (openMode (oflags &&& 3)) (by unfold openMode; omega) _
    have hboth : I t' ∧ t'.files s.nextFile = some ⟨0, 0, 1, none⟩ := by
      rcases ht' with rfl | ⟨k, hk⟩
      · exact ⟨ht, hfile⟩
      · have hf := (((sameFiles_rules t).vnMode v t (.refl t)).of_ok hk).files
        exact ⟨(R.vnMode v t ht).of_ok hk, hf ▸ hfile⟩
    exact C.finish hboth.1 hboth.2 rfl rfl hmode

theorem CallRules.perform (hs : I s) (cur : ℕ)
    (hlink : ∀ source target, Gives (doLink cur source target s.enter)
      fun _ t => I t) (c : VfsCalls.VfsCall) :
    Gives (VfsCalls.perform cur c s.enter) fun _ t => I t := by
  have R := C.toVnodeRules
  have D := C.toDescriptorRules
  have he : I s.enter := C.enter hs
  cases c with
  | mknod path mode devid => exact (R.doMknod cur path mode devid _ he).wrap
  | mkdir path => exact (R.doMkdir cur path _ he).wrap
  | rmdir path => exact (R.doRmdir cur path _ he).wrap
  | unlink path => exact (R.doUnlink cur path _ he).wrap
  | link source target => exact (hlink source target).wrap
  | rename oldname newname =>
    refine Ends.map ((hlink oldname newname).bind fun r t ht => ?_) fun _ _ ht => ht
    split
    · exact ends_pure ht
    · exact R.doUnlink cur oldname t ht
  | chdir path => exact (R.doChdir cur path C.cwd C.vref _ he).wrap
  | stat path => exact (R.doStat cur path _ he).wrap
  | openFile filename oflags => exact (C.doOpen cur filename oflags _ he).wrap
  | close fd => exact (keeps_doClose D cur fd _ he).wrap
  | dup fd => exact (keeps_doDup D cur fd _ he).wrap
  | dup2 ofd nfd => exact (keeps_doDup2 D cur ofd nfd _ he).wrap
  | read fd nbytes device => exact (D.files.doRead [] cur fd nbytes device _ he).wrap
  | write fd buf device => exact (D.files.doWrite [] cur fd buf device _ he).wrap
  | lseek fd offset whence => exact (D.files.doLseek [] cur fd offset whence _ he).wrap
  | getdent fd => exact (D.files.doGetdent [] cur fd _ he).wrap
  | fork => exact (keeps_doFork D cur _ he).wrap
  | spawn atRoot => exact (keeps_newProc D atRoot _ he).wrap
  | memory left => exact C.memory left he

end SystemsProjects.DescriptorCalls
