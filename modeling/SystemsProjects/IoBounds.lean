import SystemsProjects.OpenDescriptors

/-!
# The bounds of reading and writing

A ramfs file is one page. `do_lseek` puts the position anywhere up to the largest `int`, and
`ramfs_write` does not look whether it lies behind the page or whether the number of bytes is
negative as an `off_t`. `ramfs_readdir` asserts that the position is the place of an entry.
-/
namespace SystemsProjects.IoBounds
open CallOutcomes VfsState RamfsOperations FileCalls VfsCalls
open FileReferences KeptInodes OpenDescriptors PathCallSafety
open GuardedRuns

variable {s t : VState} {cur f v : ℕ} {fd : ℤ} {x : File} {vn : Vnode} {inode : Inode}

def onFile (s : VState) (cur : ℕ) (fd : ℤ) : Option (File × Vnode) :=
  if fd < 0 then none
  else do
    let p ← s.procs[cur]?
    let f ← p.pFiles.getD fd.toNat none
    let x ← s.files f
    let v ← x.fVnode
    let vn ← s.vnodes v
    return (x, vn)

theorem onFile_eq (h : Opened s cur fd f x v vn) : onFile s cur fd = some (x, vn) := by
  obtain ⟨p, hp, hf⟩ := h.slot
  have hget : p.pFiles.getD fd.toNat none = some f := by
    rw [List.getD_eq_getElem?_getD, hf]
    rfl
  unfold onFile
  rw [if_neg (by have := h.range; omega), hp]
  simp only [Option.bind_eq_bind, Option.bind_some, hget, h.file, h.vnode, h.used]
  rfl

/-- The bytes from `pos` on, if there are any, lie in the page. -/
def Within (pos k : ℤ) : Prop := k = 0 ∨ 0 ≤ pos ∧ pos+k ≤ PAGE_SIZE

/-- The calls of which the bounds are known: reads and writes of regular files, writes inside the
page, and steps through a directory from entry to entry. -/
def InBounds (s : VState) (cur : ℕ) : VfsCall → Prop
  | .lseek _ _ _ => True
  | .read fd _ _ => ∀ q ∈ onFile s cur fd, q.1.fMode &&& 1 = 1 →
    q.2.vnMode = .reg ∨ q.2.vnMode = .dir
  | .write fd buf _ => ∀ q ∈ onFile s cur fd, q.1.fMode &&& 2 = 2 →
    q.2.vnMode = .reg ∧ buf.length < 2^31 ∧ writeStart q.1 q.2 ≤ PAGE_SIZE
  | .getdent fd => ∀ q ∈ onFile s cur fd, q.2.vnMode = .dir → q.1.fPos%direntSize = 0
  | _ => False

/-- A number that a call returns is at most what was asked for, and the bytes are in the page. -/
def Sensible (s t : VState) (cur : ℕ) (r : Ret) : VfsCall → Prop
  | .lseek _ _ _ => ∀ k, r = .val k → 0 ≤ k
  | .read fd nbytes _ => ∀ k, r = .val k → 0 ≤ k ∧ k ≤ nbytes ∧
    ∃ q ∈ onFile s cur fd, Within q.1.fPos k
  | .write fd buf _ => ∀ k, r = .val k → 0 ≤ k ∧ k ≤ buf.length ∧
    ∃ q ∈ onFile s cur fd, Within (writeStart q.1 q.2) k
  | .getdent fd => ∀ k, r = .val k → (k = 0 ∨ k = direntT) ∧
    ∃ q ∈ onFile s cur fd, ∃ q' ∈ onFile t cur fd, Within q.1.fPos (q'.1.fPos-q.1.fPos)
  | _ => False

def Returns (s : VState) (cur : ℕ) (c : VfsCall) : Prop :=
  ∃ r t, perform cur c s = .ok (r, t) ∧ Sensible s t cur r.ret c

theorem lseek_returns (h : Ready s) (hcur : cur < s.procs.length) (offset : ℤ) (whence : ℕ) :
    Returns s cur (.lseek fd offset whence) := by
  rcases h.descriptor hcur fd with hslot | ⟨f, x, v, vn, inode, ho, -⟩
  · obtain ⟨e, hrun⟩ := doLseek_closed hslot offset whence
    exact ⟨_, _, map_ok hrun, fun _ hk => nomatch hk⟩
  by_cases hw : whence ≤ 2
  · refine ⟨_, _, map_ok (doLseek_eq ho offset hw), fun k hk => ?_⟩
    dsimp only [answer] at hk
    split at hk
    · cases hk
    · obtain rfl := Ret.val.inj hk
      omega
  · have hrun : doLseek cur fd offset whence s = .ok (.err .einval, s) := by
      rw [doLseek, if_pos (by omega)]
      rfl
    exact ⟨_, _, map_ok hrun, fun _ hk => nomatch hk⟩

theorem offT_le (n : ℕ) : offT n ≤ n := by
  unfold offT
  rw [Int.bmod_def]
  split <;> omega

theorem readCount_le (inode : Inode) (pos : ℤ) (nbytes : ℕ) :
    0 ≤ readCount inode pos nbytes ∧ readCount inode pos nbytes ≤ nbytes ∧
      (readCount inode pos nbytes = 0 ∨ pos+readCount inode pos nbytes ≤ inode.rfSize) := by
  have := offT_le nbytes
  unfold readCount
  omega

theorem read_returns (h : Ready s) (hcur : cur < s.procs.length) (nbytes : ℕ) (device : Option ℤ)
    (hb : InBounds s cur (.read fd nbytes device)) : Returns s cur (.read fd nbytes device) := by
  rcases h.descriptor hcur fd with hslot | ⟨f, x, v, vn, inode, ho, hi⟩
  · obtain ⟨n, hrun⟩ := doRead_closed hslot (h.files.numbered _ le_rfl) nbytes device
    exact ⟨_, _, map_ok hrun, fun _ hk => nomatch hk⟩
  by_cases hread : x.fMode &&& 1 = 1
  · rcases hb _ (onFile_eq ho) hread with hreg | hdir
    · obtain ⟨page, hpage, -, -, hsize⟩ := hi.page hreg
      refine ⟨_, _, map_ok (doRead_eq ho hread hreg hi.found hpage nbytes device), ?_⟩
      rintro k hk
      obtain rfl := Ret.val.inj hk
      obtain ⟨h0, hle, hin⟩ := readCount_le inode x.fPos nbytes
      exact ⟨h0, hle, _, onFile_eq ho, hin.imp_right fun hin => ⟨ho.pos, hin.trans hsize⟩⟩
    · exact ⟨_, _, map_ok (doRead_dir ho nbytes device hread hdir), fun _ hk => nomatch hk⟩
  · exact ⟨_, _, map_ok (doRead_refused ho nbytes device hread), fun _ hk => nomatch hk⟩

theorem write_returns (h : Ready s) (hcur : cur < s.procs.length) (buf : List UInt8)
    (device : Option ℤ) (hb : InBounds s cur (.write fd buf device)) :
    Returns s cur (.write fd buf device) := by
  rcases h.descriptor hcur fd with hslot | ⟨f, x, v, vn, inode, ho, hi⟩
  · obtain ⟨n, hrun⟩ := doWrite_closed hslot (h.files.numbered _ le_rfl) buf device
    exact ⟨_, _, map_ok hrun, fun _ hk => nomatch hk⟩
  by_cases hwrite : x.fMode &&& 2 = 2
  · obtain ⟨hreg, hlen, hstart⟩ : vn.vnMode = .reg ∧ buf.length < 2^31 ∧
        writeStart x vn ≤ PAGE_SIZE := hb _ (onFile_eq ho) hwrite
    obtain ⟨h0, hle, hend⟩ := writeCount_bounds hlen hstart
    obtain ⟨page, hpage, hsame, hsize⟩ := hi.page hreg
    have hstart0 : 0 ≤ writeStart x vn := by
      unfold writeStart
      split
      · rw [hsame]
        exact hsize.1
      · exact ho.pos
    refine ⟨_, _, map_ok (doWrite_eq ho hwrite hreg hi.found hpage hsame hsize device h0), ?_⟩
    rintro k hk
    obtain rfl := Ret.val.inj hk
    exact ⟨h0, hle, _, onFile_eq ho, .inr ⟨hstart0, hend⟩⟩
  · exact ⟨_, _, map_ok (doWrite_refused ho buf device hwrite), fun _ hk => nomatch hk⟩

theorem getdent_returns (h : Ready s) (hcur : cur < s.procs.length)
    (hb : InBounds s cur (.getdent fd)) : Returns s cur (.getdent fd) := by
  rcases h.descriptor hcur fd with hslot | ⟨f, x, v, vn, ⟨size, links, node⟩, ho, hi⟩
  · exact ⟨_, _, map_ok (doGetdent_closed hslot), fun _ hk => by cases hk⟩
  by_cases hdir : vn.vnMode = .dir
  · have hkind : node.kind = .dir := hi.mode.symm.trans hdir
    have halign := hb _ (onFile_eq ho) hdir
    cases node with
    | dir es =>
      have hlen : es.length = RAMFS_MAX_DIRENT := hi.ok
      have hrun := doGetdent_eq ho hdir hi.found hlen halign
      split at hrun
      next k hk =>
        have hle := passed_le hlen ho.pos halign hk
        have hpass : (0 : ℤ) ≤ direntSize*(k+1) :=
          Int.mul_nonneg (Int.natCast_nonneg _) (by omega)
        have hpos : 0 ≤ x.fPos+direntSize*(k+1) := Int.add_nonneg ho.pos hpass
        refine ⟨_, _, map_ok hrun, ?_⟩
        rintro n hn
        refine ⟨.inr (Ret.val.inj hn).symm, _, onFile_eq ho, _,
          onFile_eq (ho.set rfl hpos ho.count rfl), .inr ⟨ho.pos, ?_⟩⟩
        dsimp only
        omega
      next hk =>
        refine ⟨_, _, map_ok hrun, ?_⟩
        rintro n hn
        exact ⟨.inl (Ret.val.inj hn).symm, _, onFile_eq ho, _, onFile_eq ho, .inl (sub_self _)⟩
    | _ => simp [RamfsNode.kind] at hkind
  · exact ⟨_, _, map_ok (doGetdent_refused ho hdir), fun _ hk => by cases hk⟩

theorem io_returns (h : Ready s) (hcur : cur < s.procs.length) {c : VfsCall}
    (hb : InBounds s cur c) : Returns s cur c := by
  cases c with
  | lseek fd offset whence => exact lseek_returns h hcur offset whence
  | read fd nbytes device => exact read_returns h hcur nbytes device hb
  | write fd buf device => exact write_returns h hcur buf device hb
  | getdent fd => exact getdent_returns h hcur hb
  | _ => exact absurd hb id

/-! ### Whole runs -/

/-- The call is made by a process and is inside the bounds. -/
def Bounded (s : VState) (e : ℕ × VfsCall) : Prop :=
  e.1 < s.procs.length ∧ InBounds s e.1 e.2

instance (s : VState) (cur : ℕ) : ∀ c, Decidable (InBounds s cur c) := fun c => by
  rcases c with _ | _ <;> unfold InBounds <;> infer_instance

instance (s : VState) (e : ℕ × VfsCall) : Decidable (Bounded s e) :=
  inferInstanceAs (Decidable (_ ∧ _))

theorem InBounds.fair {c : VfsCall} (h : InBounds s cur c) :
    VnodeBalance.FairCall s.enter cur c := by
  cases c with
  | lseek => trivial
  | read => trivial
  | write => trivial
  | getdent => trivial
  | _ => exact absurd h id

/-- In a run of such calls every one returns: no assertion fails, the bytes that are read or
written and the entries that are looked at lie in the page, and the number that is returned is at
most the one that was asked for. The size of a regular file stays inside the page. -/
theorem io_calls_in_bounds {es : List (ℕ × VfsCall)} {e : ℕ × VfsCall} (hs : Ready s)
    (hrun : Run VfsStep Bounded s es t) (he : Bounded t e) :
    (∃ r u, perform e.1 e.2 t.enter = .ok (r, u) ∧ Sensible t u e.1 r.ret e.2) ∧
    ∀ v inode page, t.inodes v = some inode → inode.rfNode = .data page →
      0 ≤ inode.rfSize ∧ inode.rfSize ≤ PAGE_SIZE := by
  have ht : Ready t := hrun.invariant (fun _ _ _ hg hstep hi => hi.step hg.2.fair hstep) hs
  refine ⟨io_returns ht.enter he.1 (c := e.2) he.2, ?_⟩
  · intro v inode page hi hpage
    have hok := ht.kept.inodes v inode hi
    rw [InodeOk, hpage] at hok
    exact ⟨hok.1, hok.2.1⟩

/-- A file and the root are opened; the file is written behind a gap and read back, and the
entries of the root are listed. -/
theorem bounds_after_gap : ∃ s t, Ready s ∧ Run VfsStep Bounded s
      [(0, .lseek 0 4094 0), (0, .write 0 [1, 2, 3] none), (0, .lseek 0 0 0), (0, .getdent 1),
        (0, .getdent 1)] t ∧
    (∃ r u, perform 0 (.read 0 5000 none) t.enter = .ok (r, u) ∧
      Sensible t u 0 r.ret (.read 0 5000 none)) ∧
    ∀ v inode page, t.inodes v = some inode → inode.rfNode = .data page →
      0 ≤ inode.rfSize ∧ inode.rfSize ≤ PAGE_SIZE := by
  obtain ⟨s, hrun, hq⟩ := exists_run_vfs (fun s e => VnodeBalance.FairCall s.enter e.1 e.2)
    [(0, .openFile ['f'] 0x102), (0, .openFile ['/'] 0)]
    (P := fun s => (exec vfsNext Bounded s [(0, .lseek 0 4094 0), (0, .write 0 [1, 2, 3] none),
      (0, .lseek 0 0 0), (0, .getdent 1), (0, .getdent 1)]).any
        fun t => decide (Bounded t (0, .read 0 5000 none))) (by decide +kernel)
  obtain ⟨t, hrun', hlast⟩ := exists_run vfsStep_of_next hq
  have hs := ready_booted.run hrun
  exact ⟨s, t, hs, hrun', io_calls_in_bounds hs hrun' hlast⟩

/-- A write behind the page, where the number of bytes to copy is negative, and a look at a
directory from a place between two entries. -/
theorem positions_out_of_bounds : (∃ t, Run VfsStep (fun _ _ => True) booted
        [(0, .openFile ['f'] 0x102), (0, .lseek 0 4097 0)] t ∧
      faultOf (perform 0 (.write 0 [1] none) t.enter) = some .overrun) ∧
    ∃ t, Run VfsStep (fun _ _ => True) booted [(0, .openFile ['/'] 0), (0, .lseek 0 1 0)] t ∧
      faultOf (perform 0 (.getdent 0) t.enter) = some .panic :=
  ⟨exists_run_vfs _ _ (by decide +kernel), exists_run_vfs _ _ (by decide +kernel)⟩

/-! ### Reading back -/

variable {buf : List UInt8} {pos n : ℤ}

theorem copyIn_read (page : ℕ → UInt8) (hpos : 0 ≤ pos) (hn : n ≤ buf.length) :
    ((List.range n.toNat).map fun i : ℕ => copyIn page pos n buf (pos+i).toNat) =
      buf.take n.toNat := by
  refine List.ext_getElem (by simp; omega) fun i hi _ => ?_
  have hlt : i < n.toNat := by simpa using hi
  have hat : (((pos+i).toNat : ℤ)-pos).toNat = i := by omega
  simp only [List.getElem_map, List.getElem_range, List.getElem_take, copyIn]
  rw [if_pos (by omega), hat, List.getD_eq_getElem?_getD, List.getElem?_eq_getElem (by omega),
    Option.getD_some]

theorem readCount_written {len : ℤ} (h0 : 0 ≤ writeCount pos buf) (hlen : len ≤ PAGE_SIZE)
    (hsize : inode.rfSize = max len (pos+writeCount pos buf)) :
    readCount inode pos buf.length = writeCount pos buf := by
  unfold readCount
  rw [hsize]
  unfold writeCount at *
  omega

/-- What `do_write` writes to a regular file is what `do_read` gets there, through any descriptor
of the file in any process. -/
theorem written_is_read {es : List (ℕ × VfsCall)} {cur' f' : ℕ} {fd' : ℤ} {x' : File}
    (hrun : Run VfsStep (fun s e => VnodeBalance.FairCall s.enter e.1 e.2) booted es s)
    (h : Opened s cur fd f x v vn) (h' : Opened s cur' fd' f' x' v vn) (hreg : vn.vnMode = .reg)
    (hwrite : x.fMode &&& 2 = 2) (hread : x'.fMode &&& 1 = 1) (hlen : buf.length < 2^31)
    (hpos : writeStart x vn ≤ PAGE_SIZE) (device : Option ℤ) :
    ∃ n t u w, doWrite cur fd buf device s = .ok (.val n, t) ∧
      doLseek cur' fd' (writeStart x vn) 0 t = .ok (.val (writeStart x vn), u) ∧
      doRead cur' fd' buf.length device u = .ok ((.val n, buf.take n.toNat), w) := by
  obtain ⟨x₁, v₁, vn₁, inode, h₁, hb⟩ := (ready_booted.run hrun).opened h.range h.slot
  obtain rfl := Option.some.inj (h₁.file.symm.trans h.file)
  obtain rfl := Option.some.inj (h₁.vnode.symm.trans h.vnode)
  obtain rfl := Option.some.inj (h₁.used.symm.trans h.used)
  obtain ⟨page, hpage, hvn, hsize⟩ := hb.page hreg
  obtain ⟨h0, hle, -⟩ := writeCount_bounds hlen hpos
  have hw := doWrite_eq h hwrite hreg hb.found hpage hvn hsize device h0
  have hstart : 0 ≤ writeStart x₁ vn₁ := by
    have := h.pos
    unfold writeStart
    split <;> omega
  generalize writeStart x₁ vn₁ = p at *
  have hopen := h'.written inode page p (writeCount p buf) buf
  -- the other descriptor has the same file, or one that has not changed
  obtain ⟨y, hy, hmode⟩ : ∃ y, Opened (VState.setFile _ f
      (some { x₁ with fPos := p+writeCount p buf })) cur' fd' f' y v₁ _ ∧ y.fMode = x'.fMode := by
    by_cases hf : f' = f
    · subst hf
      obtain rfl := Option.some.inj (h.file.symm.trans h'.file)
      exact ⟨_, hopen.set rfl (by dsimp only; omega) h.count rfl, rfl⟩
    · exact ⟨x', { hopen with file := (Function.update_of_ne hf ..).trans hopen.file }, rfl⟩
  have hseek := doLseek_eq hy p (Nat.zero_le 2)
  have hy' := hy.sought p
  rw [seekTarget, if_neg (not_lt.mpr hstart), sought_of_nonneg y hstart] at hseek
  rw [sought_of_nonneg y hstart] at hy'
  have hr := doRead_eq hy' (hmode ▸ hread) hreg (Function.update_self ..) rfl buf.length device
  dsimp only at hr
  rw [readCount_written h0 (hvn ▸ hsize.2) rfl, copyIn_read page hstart hle] at hr
  exact ⟨_, _, _, _, hw, hseek, hr⟩

theorem written_is_read_created : ∃ s x vn n t u w, Run VfsStep (fun s e =>
      VnodeBalance.FairCall s.enter e.1 e.2) booted
        [(0, .openFile ['f'] 0x102), (0, .write 0 [1] none)] s ∧
    doWrite 0 0 [2, 3] none s = .ok (.val n, t) ∧
    doLseek 0 0 (writeStart x vn) 0 t = .ok (.val (writeStart x vn), u) ∧
    doRead 0 0 2 none u = .ok ((.val n, List.take n.toNat [2, 3]), w) := by
  obtain ⟨s, hrun, ⟨p, hp, hslot⟩, hon⟩ := exists_run_vfs
    (fun s e => VnodeBalance.FairCall s.enter e.1 e.2)
    [(0, .openFile ['f'] 0x102), (0, .write 0 [1] none)]
    (P := fun s => (∃ p ∈ s.procs[0]?, p.pFiles[0]? = some (some 0)) ∧
      ∀ y ∈ onFile s 0 0, y.2.vnMode = .reg ∧ y.1.fMode = 3 ∧ writeStart y.1 y.2 ≤ PAGE_SIZE)
    (by decide +kernel)
  obtain ⟨x, v, vn, -, h, -⟩ :=
    (ready_booted.run hrun).opened (show (0 : ℤ) ≤ 0 ∧ (0 : ℤ) < NFILES by decide) ⟨p, hp, hslot⟩
  obtain ⟨hreg, hmode, hpos⟩ := hon _ (onFile_eq h)
  obtain ⟨n, t, u, w, hw⟩ := written_is_read hrun h h hreg (by rw [hmode]; rfl)
    (by rw [hmode]; rfl) (show [(2 : UInt8), 3].length < 2^31 by decide) hpos none
  exact ⟨s, x, vn, n, t, u, w, hrun, hw⟩

end SystemsProjects.IoBounds
