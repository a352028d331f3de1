import SystemsProjects.FileReferences
import SystemsProjects.MapFailures

/-!
# The references of `do_mmap` to files

`do_mmap` takes a reference to the file of its descriptor with `fget` and has to give it back with
`fput` on every way out. It runs on the open files and on the memory of the processes; what
`vmmap_map` does to the memory is a parameter, so that every outcome of it is covered. One way out
does not give the reference back: the one for an offset or an address that is not aligned.
-/
namespace SystemsProjects.MappedFiles

open Function CallOutcomes VfsState FileCalls FileReferences VmState VmSystemCalls

abbrev Mm (α : Type) := Call (VState×Vm) (Halt⊕Fault) α

def onFiles {α : Type} (m : Vfs α) : Mm α := fun (s, v) =>
  match m s with
  | .ok (a, t) => .ok (a, t, v)
  | .error e => .error (.inl e)

def onMemory {α : Type} (m : Vm → Kern (α×Vm)) : Mm α := fun (s, v) =>
  match m v with
  | .ok (a, w) => .ok (a, s, w)
  | .error e => .error (.inr e)

/-- The arguments of `vmmap_map` in `do_mmap`: the vnode, the first page, the number of pages, the
protection, the flags and the offset. -/
abbrev MapArea := Option ℕ → ℕ → ℕ → ℕ → ℕ → ℕ → Vm → Kern (Except Errno Vmarea×Vm)

def FMODE_READ : ℕ := 1
def FMODE_WRITE : ℕ := 2
def FMODE_APPEND : ℕ := 4

/-- The mode of a file does not allow the mapping. -/
def modeForbids (mode prot flags : ℕ) : Prop :=
  (hasFlag flags mapShared ∧ hasFlag prot protWrite ∧
    mode &&& (FMODE_READ+FMODE_WRITE) ≠ FMODE_READ+FMODE_WRITE) ∨
  (hasFlag flags mapPrivate ∧ ¬hasFlag mode FMODE_READ)

instance (mode prot flags : ℕ) : Decidable (modeForbids mode prot flags) :=
  inferInstanceAs (Decidable (_ ∨ _))

/-- The checks of `do_mmap` on a file. The file and its vnode are returned with a reference to the
file; if the offset or the address is not aligned, the reference is kept although the call
fails. -/
def mmapFile (cur addr prot flags off : ℕ) (fd : ℤ) : Mm (Except Errno (ℕ×Option ℕ)) := do
  if fd < 0 ∨ (NFILES : ℤ) < fd then return .error .ebadf
  else match ← onFiles (FileCalls.fget cur fd) with
    | none => return .error .ebadf
    | some f => do
      let x ← onFiles (fileAt f)
      if modeForbids x.fMode prot flags then do
        onFiles (fput f)
        return .error .eacces
      else if off%pageSize ≠ 0 ∨ addr%pageSize ≠ 0 then return .error .einval
      else if hasFlag prot protWrite ∧ hasFlag x.fMode FMODE_APPEND then do
        onFiles (fput f)
        return .error .eacces
      else return .ok (f, x.fVnode)

def areaAddr (res : Except Errno Vmarea) : Except Errno ℕ :=
  res.map fun a => a.vmaStart*pageSize%word

def doMmap (mapArea : MapArea) (cur : ℕ) (addr len prot flags : UInt32) (fd : ℤ) (off : UInt32) :
    Mm (Except Errno ℕ) := do
  if ¬mmapArgsOk addr.toNat len.toNat flags.toNat then return .error .einval
  else if hasFlag flags.toNat mapAnon then do
    let res ← onMemory (mapArea none (mmapLopage addr.toNat flags.toNat) (lenPages len.toNat)
      prot.toNat flags.toNat off.toNat)
    return areaAddr res
  else match ← mmapFile cur addr.toNat prot.toNat flags.toNat off.toNat fd with
    | .error e => return .error e
    | .ok (f, vn) => do
      let res ← onMemory (mapArea vn (mmapLopage addr.toNat flags.toNat) (lenPages len.toNat)
        prot.toNat flags.toNat off.toNat)
      onFiles (fput f)
      return areaAddr res

/-- The descriptor is that of a file whose mode allows the mapping, but the offset or the address
is not aligned. -/
def OpenUnaligned (s : VState) (cur addr prot flags off : ℕ) (fd : ℤ) : Prop :=
  (off%pageSize ≠ 0 ∨ addr%pageSize ≠ 0) ∧ ∃ f x, slotAt cur fd s = .ok (some f, s) ∧
    s.files f = some x ∧ ¬modeForbids x.fMode prot flags

/-- A file has one more reference, or all of them are as before. -/
def Taken (s : VState) : Option ℕ → VState → Prop
  | none, t => t = s
  | some f, t => ∃ x, s.files f = some x ∧
    t = s.setFile f (some { x with fRefcount := x.fRefcount+1 })

variable {r : Option ℕ} {u : VState×Vm}

section References

variable {α : Type} {s t : VState} {m m' : Vm} {cur f : ℕ} {x : VfsState.File} {fd : ℤ}

theorem onFiles_eq_ok {c : Vfs α} {a : α} :
    onFiles c (s, m) = .ok (a, u) ↔ c s = .ok (a, u.1) ∧ u.2 = m := by
  obtain ⟨t, m'⟩ := u
  unfold onFiles
  cases hc : c s with
  | error e => simp [hc]
  | ok r =>
    obtain ⟨b, t'⟩ := r
    simp only [hc, Except.ok.injEq, Prod.mk.injEq]
    tauto

theorem onMemory_eq_ok {c : Vm → Kern (α×Vm)} {a : α} :
    onMemory c (s, m) = .ok (a, u) ↔ c m = .ok (a, u.2) ∧ u.1 = s := by
  obtain ⟨t, m'⟩ := u
  unfold onMemory
  cases hc : c m with
  | error e => simp [hc]
  | ok r =>
    obtain ⟨b, t'⟩ := r
    simp only [hc, Except.ok.injEq, Prod.mk.injEq]
    tauto

theorem slotAt_state (h : slotAt cur fd s = .ok (r, t)) : t = s := by
  unfold slotAt at h
  split_ifs at h
  · exact (outcome_inj h).2.symm
  · obtain ⟨p, u, hp, h⟩ := run_bind_eq_ok.mp h
    rw [← (outcome_inj h).2, ((procAt_spec cur s).of_ok hp).1]

theorem fref_eq_ok (h : fref f s = .ok ((), t)) : ∃ x, s.files f = some x ∧
    t = s.setFile f (some { x with fRefcount := x.fRefcount+1 }) := by
  unfold fref at h
  rw [run_bind_eq_ok] at h
  obtain ⟨x, w, hfile, h⟩ := h
  obtain ⟨rfl, hx⟩ := (fileAt_spec f s).of_ok hfile
  split_ifs at h with hc
  · exact ⟨x, hx, (outcome_inj h).2.symm⟩
  · cases h

theorem fget_eq_ok (hfd : ¬fd < 0) (h : FileCalls.fget cur fd s = .ok (r, t)) :
    slotAt cur fd s = .ok (r, s) ∧
      ((r = none ∧ t = s) ∨ ∃ f, r = some f ∧ fref f s = .ok ((), t)) := by
  unfold FileCalls.fget at h
  rw [if_neg (by omega), run_bind_eq_ok] at h
  obtain ⟨slot, u, hslot, h⟩ := h
  obtain rfl := slotAt_state hslot
  cases slot with
  | none =>
    obtain ⟨rfl, rfl⟩ := outcome_inj h
    exact ⟨hslot, .inl ⟨rfl, rfl⟩⟩
  | some f =>
    rw [run_bind_eq_ok] at h
    obtain ⟨_, v, hv, h⟩ := h
    obtain ⟨rfl, rfl⟩ := outcome_inj h
    exact ⟨hslot, .inr ⟨f, rfl, hv⟩⟩

theorem fput_fget (hx : s.files f = some x) (hpos : 0 < x.fRefcount)
    (h : fput f (s.setFile f (some { x with fRefcount := x.fRefcount+1 })) = .ok ((), t)) :
    t = s := by
  unfold fput at h
  rw [run_bind_eq_ok] at h
  obtain ⟨y, u, hfile, h⟩ := h
  obtain ⟨rfl, hy⟩ := (fileAt_spec f _).of_ok hfile
  have hself : (s.setFile f (some { x with fRefcount := x.fRefcount+1 })).files f =
      some { x with fRefcount := x.fRefcount+1 } := update_self _ _ _
  rw [hself, Option.some.injEq] at hy
  subst hy
  split_ifs at h with hc hone
  · dsimp only at hone
    omega
  · obtain rfl := (outcome_inj h).2
    rw [setFile_setFile]
    exact setFile_self hx
  · cases h

/-- Unless the reference to a file is returned or kept, the files are as before. -/
theorem mmapFile_eq_ok {addr prot flags off : ℕ} {r : Except Errno (ℕ×Option ℕ)}
    (hopen : ∀ f x, s.files f = some x → 0 < x.fRefcount)
    (h : mmapFile cur addr prot flags off fd (s, m) = .ok (r, u)) :
    u.2 = m ∧ ((¬OpenUnaligned s cur addr prot flags off fd ∧
        Taken s (r.toOption.map Prod.fst) u.1) ∨
      OpenUnaligned s cur addr prot flags off fd ∧ r = .error .einval ∧
        ∃ f, Taken s (some f) u.1) := by
  -- a descriptor leads to one file
  have hfile {f : ℕ} {x : VfsState.File} (hslot : slotAt cur fd s = .ok (some f, s))
      (hx : s.files f = some x) (hopen : OpenUnaligned s cur addr prot flags off fd) :
      (off%pageSize ≠ 0 ∨ addr%pageSize ≠ 0) ∧ ¬modeForbids x.fMode prot flags := by
    obtain ⟨hoff, g, y, hg, hy, hmode⟩ := hopen
    obtain rfl := Option.some.inj (outcome_inj (hslot.symm.trans hg)).1
    obtain rfl := Option.some.inj (hx.symm.trans hy)
    exact ⟨hoff, hmode⟩
  unfold mmapFile at h
  by_cases hfd : fd < 0 ∨ (NFILES : ℤ) < fd
  · rw [if_pos hfd] at h
    obtain ⟨rfl, rfl⟩ := outcome_inj h
    refine ⟨rfl, .inl ⟨?_, rfl⟩⟩
    rintro ⟨-, f, x, hslot, -⟩
    rw [slotAt, if_pos (by omega)] at hslot
    cases (outcome_inj hslot).1
  · rw [if_neg hfd, run_bind_eq_ok] at h
    obtain ⟨slot, u1, hu1, h⟩ := h
    obtain ⟨s1, m1⟩ := u1
    obtain ⟨hget, hm1⟩ := onFiles_eq_ok.mp hu1
    dsimp only at hget hm1
    obtain rfl := hm1.symm
    obtain ⟨hslot, ⟨rfl, rfl⟩ | ⟨f, rfl, hf⟩⟩ := fget_eq_ok (fun hlt => hfd (.inl hlt)) hget
    · obtain ⟨rfl, rfl⟩ := outcome_inj h
      refine ⟨rfl, .inl ⟨?_, rfl⟩⟩
      rintro ⟨-, f, x, hf, -⟩
      cases (outcome_inj (hslot.symm.trans hf)).1
    · obtain ⟨x, hx, rfl⟩ := fref_eq_ok hf
      dsimp only at h
      rw [run_bind_eq_ok] at h
      obtain ⟨y, u2, hu2, h⟩ := h
      obtain ⟨s2, m2⟩ := u2
      obtain ⟨hread, hm2⟩ := onFiles_eq_ok.mp hu2
      dsimp only at hread hm2
      obtain rfl := hm2.symm
      obtain ⟨rfl, hy⟩ := (fileAt_spec f _).of_ok hread
      obtain rfl : { x with fRefcount := x.fRefcount+1 } = y := by
        simpa [VState.setFile] using hy
      -- the two ways out with an error take the reference back
      have hput : ∀ {e : Errno}, (do
          onFiles (fput f) return .error e : Mm (Except Errno (ℕ×Option ℕ)))
            (s.setFile f (some { x with fRefcount := x.fRefcount+1 }), m) = .ok (r, u) →
          u.2 = m ∧ u.1 = s ∧ r = .error e := by
        intro e h
        rw [run_bind_eq_ok] at h
        obtain ⟨_, u3, hu3, h⟩ := h
        obtain ⟨rfl, rfl⟩ := outcome_inj h
        obtain ⟨hput, hm3⟩ := onFiles_eq_ok.mp hu3
        exact ⟨hm3, fput_fget hx (hopen f x hx) hput, rfl⟩
      split_ifs at h with hmode hoff happend
      · obtain ⟨hm, hs, rfl⟩ := hput h
        exact ⟨hm, .inl ⟨fun hc => (hfile hslot hx hc).2 hmode, hs⟩⟩
      · obtain ⟨rfl, rfl⟩ := outcome_inj h
        exact ⟨rfl, .inr ⟨⟨hoff, f, x, hslot, hx, hmode⟩, rfl, f, x, hx, rfl⟩⟩
      · obtain ⟨hm, hs, rfl⟩ := hput h
        exact ⟨hm, .inl ⟨fun hc => hoff (hfile hslot hx hc).1, hs⟩⟩
      · obtain ⟨rfl, rfl⟩ := outcome_inj h
        exact ⟨rfl, .inl ⟨fun hc => hoff (hfile hslot hx hc).1, x, hx, rfl⟩⟩

/-- The references to the open files are the same after `do_mmap` as before, whatever `vmmap_map`
does to the memory, exactly if the call does not come to an offset or an address that is not
aligned with a file in hand. -/
theorem doMmap_files {mapArea : MapArea} {addr len prot flags off : UInt32}
    {r : Except Errno ℕ} (hopen : ∀ f x, s.files f = some x → 0 < x.fRefcount)
    (h : doMmap mapArea cur addr len prot flags fd off (s, m) = .ok (r, t, m')) :
    (∀ f, (t.files f).map VfsState.File.fRefcount = (s.files f).map VfsState.File.fRefcount) ↔
      ¬(mmapArgsOk addr.toNat len.toNat flags.toNat ∧ ¬hasFlag flags.toNat mapAnon ∧
        OpenUnaligned s cur addr.toNat prot.toNat flags.toNat off.toNat fd) := by
  have hsame (hts : t = s) (f : ℕ) : (t.files f).map VfsState.File.fRefcount =
      (s.files f).map VfsState.File.fRefcount := by rw [hts]
  unfold doMmap at h
  by_cases hargs : ¬mmapArgsOk addr.toNat len.toNat flags.toNat
  · rw [if_pos hargs] at h
    exact iff_of_true (hsame (Prod.mk.inj (outcome_inj h).2).1.symm) fun hc => hargs hc.1
  rw [if_neg hargs] at h
  by_cases hanon : hasFlag flags.toNat mapAnon
  · rw [if_pos hanon, run_bind_eq_ok] at h
    obtain ⟨res, u1, hu1, h⟩ := h
    obtain ⟨-, rfl⟩ := outcome_inj h
    exact iff_of_true (hsame (onMemory_eq_ok.mp hu1).2) fun hc => hc.2.1 hanon
  rw [if_neg hanon, run_bind_eq_ok] at h
  obtain ⟨res, u1, hu1, h⟩ := h
  obtain ⟨s1, m1⟩ := u1
  obtain ⟨hm1, ⟨hno, hres⟩ | ⟨hyes, rfl, f, x, hx, htaken⟩⟩ := mmapFile_eq_ok hopen hu1
  · refine iff_of_true (hsame ?_) fun hc => hno hc.2.2
    dsimp only at hm1 hres
    subst hm1
    cases res with
    | error e =>
      obtain ⟨-, hu⟩ := outcome_inj h
      rw [← (Prod.mk.inj hu).1]
      exact hres
    | ok fv =>
      obtain ⟨f, vn⟩ := fv
      obtain ⟨x, hx, rfl⟩ := hres
      dsimp only at h
      rw [run_bind_eq_ok] at h
      obtain ⟨res, u2, hu2, h⟩ := h
      obtain ⟨s2, m2⟩ := u2
      obtain ⟨-, hs2⟩ := onMemory_eq_ok.mp hu2
      dsimp only at hs2
      subst hs2
      rw [run_bind_eq_ok] at h
      obtain ⟨_, u3, hu3, h⟩ := h
      obtain ⟨hput, -⟩ := onFiles_eq_ok.mp hu3
      obtain ⟨-, rfl⟩ := outcome_inj h
      exact fput_fget hx (hopen f x hx) hput
  · refine iff_of_false (fun hc => ?_) fun hc => hc ⟨not_not.mp hargs, hanon, hyes⟩
    have hf := hc f
    rw [← (Prod.mk.inj (outcome_inj h).2).1, show s1 = _ from htaken] at hf
    simp [VState.setFile, hx] at hf

end References

/-- A process with one file that is open for reading. -/
def oneFile : VState where
  procs := [⟨some 0::List.replicate 31 none, some 0⟩]
  files := update (fun _ => none) 0 (some ⟨0, FMODE_READ, 1, some 1⟩)
  nextFile := 1
  vnodes := update (update (fun _ => none) 0 (some ⟨1, .dir, 0⟩)) 1
    (some ⟨1, .reg, 4096⟩)
  inodes _ := none
  memory := true
  held := []
  late := false
  opened := []
  closed := []

/-- The file is mapped at a page that the kernel chooses, but the mapping fails. -/
theorem doMmap_files_failed : ∃ r t m,
    doMmap (fun _ _ _ _ _ _ m => .ok (.error .enomem, m)) 0 0 4096 1 2 0 0 (oneFile, blankVm) =
      .ok (r, t, m) ∧ r = .error .enomem ∧
    (t.files 0).map VfsState.File.fRefcount = (oneFile.files 0).map VfsState.File.fRefcount := by
  have hopen : ∀ f x, oneFile.files f = some x → 0 < x.fRefcount := by
    intro f x hx
    by_cases hf : f = 0
    · subst hf
      rw [← Option.some.inj hx]
      decide
    · simp [oneFile, hf] at hx
  have hrun : doMmap (fun _ _ _ _ _ _ m => .ok (.error .enomem, m)) 0 0 4096 1 2 0 0
      (oneFile, blankVm) = .ok (.error .enomem, _, _) := rfl
  refine ⟨_, _, _, hrun, rfl, (doMmap_files hopen hrun).mpr ?_ 0⟩
  exact fun hc => hc.2.2.1.elim (fun hoff => hoff rfl) fun haddr => haddr rfl

/-- The offset 1 is not aligned, and the call returns with a second reference to the file. -/
theorem unaligned_offset_keeps_reference : ∃ r t m,
    doMmap (fun _ _ _ _ _ _ m => .ok (.error .enomem, m)) 0 0 4096 1 2 0 1 (oneFile, blankVm) =
      .ok (r, t, m) ∧ r = .error .einval ∧ (oneFile.files 0).map VfsState.File.fRefcount = some 1 ∧
    (t.files 0).map VfsState.File.fRefcount = some 2 := by
  refine ⟨.error .einval, _, _, rfl, rfl, rfl, ?_⟩
  decide +kernel

end SystemsProjects.MappedFiles
