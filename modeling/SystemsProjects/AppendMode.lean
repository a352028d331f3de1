import SystemsProjects.OpenDescriptors

/-!
# Files that were opened for appending

`do_open` marks a file for appending when `O_APPEND` is the only one of `O_CREAT`, `O_TRUNC` and
`O_APPEND` in the flags. The mark and the vnode of a file do not change as long as it is open, so
each write through any descriptor of the file starts at the length that the file has then. With
`O_CREAT` or `O_TRUNC` beside it, `O_APPEND` is lost.
-/
namespace SystemsProjects.AppendMode
open CallOutcomes VfsState FileCalls VfsCalls VfsFrames
open FileReferences DescriptorCalls KeptInodes FileConditions OpenDescriptors GuardedRuns

variable {s t u : VState} {cur f v : ℕ} {fd : ℤ}

/-- The file with number `f` keeps the mode and the vnode that it was opened with. -/
theorem opened_file_rules (f mode v : ℕ) :
    FileRules (f+1) fun g x => g = f → x.fMode = mode ∧ x.fVnode = some v where
  turned _ h hy hg := by
    rw [hy.fMode, hy.fVnode]
    exact h hg
  fresh hle hg := by omega
  finish h hnone _ _ hg := by
    rw [hnone] at h
    cases (h hg).2

/-- What `do_open` returns with: a slot with a new file. -/
structure OpenedAs (cur oflags v : ℕ) (s u : VState) (fd : ℤ) : Prop where
  slot : SlotIs u cur fd.toNat (some s.nextFile)
  file : u.files s.nextFile = some ⟨0, fileMode oflags, 1, some v⟩
  number : u.nextFile = s.nextFile+1

theorem doOpen_opened {filename : List Char} {oflags : ℕ}
    (h : doOpen cur filename oflags s = .ok (.val fd, u)) : ∃ v, OpenedAs cur oflags v s u fd := by
  rcases (doOpen_ends cur filename oflags s).of_ok h with
    ⟨hret, -⟩ | ⟨n, q, t, hs, -, -, hsame, hend⟩
  · cases hret
  generalize hr : Ret.val fd = r at hend
  cases hend with
  | unresolved hfail =>
    rw [← hr] at hfail
    cases hfail
  | invalid _ _ _ _ => cases hr
  | directory _ _ _ _ => cases hr
  | @opened v t' _ _ _ ht' =>
    obtain rfl := Ret.val.inj hr
    have hsame' : SameFiles (reserved s cur n) t' := by
      rcases ht' with rfl | ⟨k, hk⟩
      · exact hsame
      · exact ((sameFiles_rules _).vnMode v t hsame).of_ok hk
    exact ⟨v, (slotIs_withSlot (s := opening s) hs).congr hsame'.procs, Function.update_self ..,
      hsame'.nextFile⟩

theorem fileMode_append {oflags : ℕ} (h : oflags &&& 0x700 = 0x400) :
    fileMode oflags &&& 4 = 4 := by
  rw [fileMode, if_pos (beq_iff_eq.mpr h), Nat.and_or_distrib_right]
  apply Nat.eq_of_testBit_eq
  intro i
  simp

/-- A file is opened with `O_APPEND`, and neither `O_CREAT` nor `O_TRUNC`. After any calls of any
processes, a write through any descriptor of the file starts at the length of the file. -/
theorem append_starts_at_end {filename : List Char} {oflags : ℕ}
    {good : VState → ℕ × VfsCall → Prop} {es : List (ℕ × VfsCall)} {cur' : ℕ} {fd' : ℤ}
    (hs : Kept s) (happend : oflags &&& 0x700 = 0x400)
    (hopen : doOpen cur filename oflags s = .ok (.val fd, u))
    (hf : SlotIs u cur fd.toNat (some f)) (hrun : Run VfsStep good u es t) (ht : Ready t)
    (hr : 0 ≤ fd' ∧ fd' < NFILES) (hslot : SlotIs t cur' fd'.toNat (some f)) :
    ∃ x v vn inode, Opened t cur' fd' f x v vn ∧ Backed t v vn inode ∧
      (u.files f).bind File.fVnode = some v ∧
      (x.fMode &&& 2 = 2 → vn.vnMode = .reg → ∀ buf device,
        doWrite cur' fd' buf device t = writeFrom cur' fd' f v vn.vnLen buf device
          (t.setFile f (some (writing x vn.vnLen))) ∧
        (buf.length < 2^31 → ∃ page, inode.rfNode = .data page ∧
          doWrite cur' fd' buf device t = .ok (.val (writeCount vn.vnLen buf),
            (written t v inode vn page vn.vnLen (writeCount vn.vnLen buf) buf).setFile f
              (some { x with fPos := vn.vnLen+writeCount vn.vnLen buf })))) := by
  obtain ⟨v, ho⟩ := doOpen_opened hopen
  obtain rfl : f = s.nextFile := Option.some.inj (hf.unique ho.slot)
  have hu : Kept u := (kept_calls.doOpen cur filename oflags s hs).of_ok hopen
  have heach : Each (s.nextFile+1)
      (fun g x => g = s.nextFile → x.fMode = fileMode oflags ∧ x.fVnode = some v) u := by
    refine ⟨ho.number.ge, fun g x hx hg => ?_⟩
    subst hg
    obtain rfl := Option.some.inj (ho.file.symm.trans hx)
    exact ⟨rfl, rfl⟩
  have hkept := (opened_file_rules s.nextFile (fileMode oflags) v).run ⟨hu, heach⟩ hrun
  obtain ⟨x, w, vn, inode, hx, hi⟩ := ht.opened hr hslot
  obtain ⟨hmode, hv⟩ := hkept.2.files _ x hx.file rfl
  obtain rfl := Option.some.inj (hx.vnode.symm.trans hv)
  have hstart : writeStart x vn = vn.vnLen := by
    rw [writeStart, if_pos]
    rw [hmode]
    exact fileMode_append happend
  refine ⟨x, w, vn, inode, hx, hi, by rw [ho.file]; rfl, fun hwrite hreg buf device => ?_⟩
  obtain ⟨page, hpage, hlen, hsize⟩ := hi.page hreg
  have hpagesize : (PAGE_SIZE : ℤ) = 4096 := rfl
  refine ⟨hstart ▸ doWrite_from hx hwrite (by omega) buf device, fun hcount => ⟨page, hpage, ?_⟩⟩
  obtain ⟨h0, -⟩ := @writeCount_bounds buf (writeStart x vn) hcount (by omega)
  have heq := doWrite_eq hx hwrite hreg hi.found hpage hlen hsize device h0
  rwa [hstart] at heq

theorem slotIs_of_get {slot : Option ℕ} {n : ℕ}
    (h : (s.procs[cur]?.bind fun p => p.pFiles[n]?) = some slot) : SlotIs s cur n slot := by
  obtain ⟨p, hp, hslot⟩ := Option.bind_eq_some_iff.mp h
  exact ⟨p, hp, hslot⟩

/-- A file of two bytes is opened a second time for appending; before the write there, the new
descriptor is moved to the beginning and the first one writes a third byte. -/
theorem append_after_seek : ∃ s u t, Kept s ∧
    doOpen 0 ['f'] 0x401 s = .ok (.val 1, u) ∧ SlotIs u 0 1 (some 1) ∧
    Run VfsStep (fun s e => VnodeBalance.FairCall s.enter e.1 e.2) u
      [(0, .lseek 1 0 0), (0, .write 0 [3] none)] t ∧ Ready t ∧ SlotIs t 0 1 (some 1) ∧
    ∃ x v vn inode, Opened t 0 1 1 x v vn ∧ Backed t v vn inode ∧
      (u.files 1).bind File.fVnode = some v ∧
      (x.fMode &&& 2 = 2 → vn.vnMode = .reg → ∀ buf device,
        doWrite 0 1 buf device t = writeFrom 0 1 1 v vn.vnLen buf device
          (t.setFile 1 (some (writing x vn.vnLen))) ∧
        (buf.length < 2^31 → ∃ page, inode.rfNode = .data page ∧
          doWrite 0 1 buf device t = .ok (.val (writeCount vn.vnLen buf),
            (written t v inode vn page vn.vnLen (writeCount vn.vnLen buf) buf).setFile 1
              (some { x with fPos := vn.vnLen+writeCount vn.vnLen buf })))) := by
  obtain ⟨s, hrun, hq⟩ := exists_run_vfs (fun s e => VnodeBalance.FairCall s.enter e.1 e.2)
    [(0, .openFile ['f'] 0x102), (0, .write 0 [1, 2] none)]
    (P := fun s => ∃ u, doOpen 0 ['f'] 0x401 s.enter = .ok (.val 1, u) ∧
      (u.procs[0]?.bind fun p => p.pFiles[1]?) = some (some 1) ∧
      (exec vfsNext (fun s e => VnodeBalance.FairCall s.enter e.1 e.2) u
        [(0, .lseek 1 0 0), (0, .write 0 [3] none)]).any
          fun t => decide ((t.procs[0]?.bind fun p => p.pFiles[1]?) = some (some 1)))
    (by decide +kernel)
  obtain ⟨u, hopen, hslot, hq⟩ := hq
  obtain ⟨t, hrun', hslot'⟩ := exists_run vfsStep_of_next hq
  have hstep : VfsStep s (0, .openFile ['f'] 0x401) u := ⟨_, map_ok hopen⟩
  have hkept : Kept s.enter := kept_calls.enter (kept_booted.run hrun)
  have hfair : VnodeBalance.FairCall s.enter 0 (.openFile ['f'] 0x401) :=
    show VnodeReferences.Fits ['f'] by decide
  have hready : Ready t := ready_booted.run (hrun.append (.next hfair hstep hrun'))
  have hend := slotIs_of_get hslot'
  exact ⟨_, u, t, hkept, hopen, slotIs_of_get hslot, hrun', hready, hend,
    append_starts_at_end hkept (by decide) hopen (slotIs_of_get hslot) hrun' hready
      (show (0 : ℤ) ≤ 1 ∧ (1 : ℤ) < NFILES by decide) hend⟩

/-- With `O_CREAT` beside `O_APPEND`, a write after a seek to the beginning overwrites the first
byte of a file of two. -/
theorem creation_loses_append : ∃ t, Run VfsStep (fun _ _ => True) booted
      [(0, .openFile ['f'] 0x501), (0, .write 0 [1, 2] none), (0, .lseek 0 0 0),
        (0, .write 0 [9] none)] t ∧
    ∃ inode page, t.inodes 1 = some inode ∧ inode.rfNode = .data page ∧ inode.rfSize = 2 ∧
      page 0 = 9 ∧ page 1 = 2 := by
  refine (exists_run_vfs _ _
    (P := fun t => (t.inodes 1).any fun x => x.rfNode.casesOn (motive := fun _ => Bool)
      (fun page => decide (x.rfSize = 2 ∧ page 0 = 9 ∧ page 1 = 2)) (fun _ => false)
      (fun _ => false) fun _ => false) (by decide +kernel)).imp fun t h => ⟨h.1, ?_⟩
  obtain ⟨⟨size, links, node⟩, hi, hq⟩ := (Option.any_eq_true _ _).mp h.2
  cases node with
  | data page => exact ⟨_, page, hi, rfl, of_decide_eq_true hq⟩
  | _ => cases hq

end SystemsProjects.AppendMode
