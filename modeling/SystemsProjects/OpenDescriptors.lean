import SystemsProjects.FileConditions

/-!
# Calls on open files

What `do_lseek`, `do_read`, `do_write` and `do_getdent` do on a descriptor whose file and vnode
are in order: the result, the new position and the new page, and nothing else. A call on a
descriptor that is not open returns `-EBADF`.
-/
namespace SystemsProjects.OpenDescriptors
open Function CallOutcomes VfsState RamfsOperations PathCalls FileCalls VfsCalls List
open FileReferences DescriptorCalls VnodeBalance KeptInodes FileConditions GuardedRuns

variable {s t : VState} {cur f v : ℕ} {fd : ℤ} {x y : File} {vn : Vnode}

/-- Descriptor `fd` of process `cur` is open on file `f` of the vnode `v`. -/
structure Opened (s : VState) (cur : ℕ) (fd : ℤ) (f : ℕ) (x : File) (v : ℕ) (vn : Vnode) :
    Prop where
  range : 0 ≤ fd ∧ fd < NFILES
  slot : SlotIs s cur fd.toNat (some f)
  file : s.files f = some x
  mode : x.fMode < 8
  pos : 0 ≤ x.fPos
  count : 0 < x.fRefcount
  vnode : x.fVnode = some v
  used : s.vnodes v = some vn

theorem Opened.set (h : Opened s cur fd f x v vn) (hmode : y.fMode = x.fMode) (hpos : 0 ≤ y.fPos)
    (hcount : 0 < y.fRefcount) (hvnode : y.fVnode = x.fVnode) :
    Opened (s.setFile f (some y)) cur fd f y v vn where
  range := h.range
  slot := h.slot
  file := update_self ..
  mode := hmode ▸ h.mode
  pos := hpos
  count := hcount
  vnode := hvnode.trans h.vnode
  used := h.used

theorem Opened.written (h : Opened s cur fd f x v vn) (inode : Inode) (page : ℕ → UInt8)
    (pos ret : ℤ) (buf : List UInt8) :
    Opened (written s v inode vn page pos ret buf) cur fd f x v
      { vn with vnLen := max vn.vnLen (pos+ret) } :=
  { h with used := update_self .. }

theorem vnodeAt_eq (h : s.vnodes v = some vn) : vnodeAt v s = .ok (vn, s) := by
  unfold vnodeAt
  rw [h]

theorem inodeAt_eq {inode : Inode} (h : s.inodes v = some inode) :
    inodeAt v s = .ok (inode, s) := by
  unfold inodeAt
  rw [h]

theorem slotAt_eq {slot : Option ℕ} (hr : 0 ≤ fd ∧ fd < NFILES)
    (h : SlotIs s cur fd.toNat slot) : slotAt cur fd s = .ok (slot, s) := by
  obtain ⟨p, hp, hslot⟩ := h
  have hproc : procAt cur s = .ok (p, s) := by rw [procAt, hp]
  unfold slotAt
  rw [if_neg (by omega), bind_ok hproc, getD_eq_getElem?_getD, hslot]
  rfl

/-- The file with the reference that a call takes. -/
def taken (x : File) : File := { x with fRefcount := x.fRefcount+1 }

theorem fget_eq (h : Opened s cur fd f x v vn) :
    fget cur fd s = .ok (some f, s.setFile f (some (taken x))) := by
  have hok : x.fMode < 8 ∧ -1 ≤ x.fPos ∧ (x.fRefcount = 0 ∨ x.fVnode.isSome) :=
    ⟨h.mode, by have := h.pos; omega, .inr (by rw [h.vnode]; rfl)⟩
  have hfref : fref f s = .ok ((), s.setFile f (some (taken x))) := by
    rw [fref, bind_ok (fileAt_eq h.file), if_pos hok]
    rfl
  unfold fget
  rw [if_neg (by have := h.range; omega), bind_ok (slotAt_eq h.range h.slot)]
  dsimp only
  rw [bind_ok hfref]
  rfl

theorem fput_taken (h : Opened s cur fd f x v vn) :
    fput f (s.setFile f (some (taken x))) = .ok ((), s) := by
  have hfile : (s.setFile f (some (taken x))).files f = some (taken x) := update_self ..
  have hok : (taken x).fMode < 8 ∧ -1 ≤ (taken x).fPos ∧ 0 < (taken x).fRefcount ∧
      ((taken x).fRefcount = 1 ∨ (taken x).fVnode.isSome) :=
    ⟨h.mode, by have := h.pos; change -1 ≤ x.fPos; omega, Nat.succ_pos _,
      .inr (by change x.fVnode.isSome; rw [h.vnode]; rfl)⟩
  rw [fput, bind_ok (fileAt_eq hfile), if_pos hok,
    if_neg (by have := h.count; change x.fRefcount+1 ≠ 1; omega)]
  change Except.ok ((), (s.setFile f (some (taken x))).setFile f (some x)) = _
  rw [setFile_setFile, setFile_self h.file]

theorem Opened.taken (h : Opened s cur fd f x v vn) :
    Opened (s.setFile f (some (taken x))) cur fd f (taken x) v vn :=
  h.set rfl h.pos (Nat.succ_pos _) rfl

/-! ### Seeking -/

/-- Where `do_lseek` goes. -/
def seekTarget (x : File) (vn : Vnode) (offset : ℤ) : ℕ → ℤ
  | 0 => offset
  | 1 => addInt x.fPos offset
  | _ => addInt vn.vnLen offset

/-- The file moves, unless the position would be negative. -/
def sought (x : File) (n : ℤ) : File := if n < 0 then x else { x with fPos := n }

theorem sought_of_nonneg {n : ℤ} (x : File) (h : 0 ≤ n) : sought x n = { x with fPos := n } :=
  if_neg (not_lt.mpr h)

theorem sought_taken (x : File) (n : ℤ) : sought (taken x) n = taken (sought x n) := by
  unfold sought
  split <;> rfl

section

variable (h : Opened s cur fd f x v vn)
include h

theorem Opened.sought (n : ℤ) :
    Opened (s.setFile f (some (sought x n))) cur fd f (sought x n) v vn := by
  unfold OpenDescriptors.sought
  split
  · exact h.set rfl h.pos h.count rfl
  next hn => exact h.set rfl (not_lt.mp hn) h.count rfl

theorem fput_sought (n : ℤ) : fput f (s.setFile f (some (sought (taken x) n))) =
      .ok ((), s.setFile f (some (sought x n))) := by
  have hput := fput_taken (h.sought n)
  rwa [setFile_setFile, ← sought_taken] at hput

theorem vnodeOf_eq (u : VState) : vnodeOf x u = .ok (v, u) := by
  unfold vnodeOf
  rw [h.vnode]
  rfl

theorem seekTo_eq (offset : ℤ) (whence : ℕ) :
    seekTo x offset whence s = .ok (seekTarget x vn offset whence, s) := by
  match whence with
  | 0 => rfl
  | 1 => rfl
  | _+2 =>
    change (do
      let v ← vnodeOf x
      let vn ← vnodeAt v
      return addInt vn.vnLen offset : Vfs ℤ) s = _
    rw [bind_ok (vnodeOf_eq h s), bind_ok (vnodeAt_eq h.used)]
    rfl

theorem doLseek_eq (offset : ℤ) {whence : ℕ} (hw : whence ≤ 2) : doLseek cur fd offset whence s =
      .ok (if seekTarget x vn offset whence < 0 then .err .einval
        else .val (seekTarget x vn offset whence),
        s.setFile f (some (sought x (seekTarget x vn offset whence)))) := by
  have htarget : seekTarget (taken x) vn offset whence = seekTarget x vn offset whence := by
    unfold seekTarget
    split <;> rfl
  have hput := fput_sought h (seekTarget x vn offset whence)
  unfold doLseek
  rw [if_neg (by omega), if_neg (by have := h.range; omega), bind_ok (fget_eq h)]
  dsimp only
  rw [bind_ok (fileAt_eq h.taken.file), bind_ok (seekTo_eq h.taken offset whence), htarget]
  by_cases hn : seekTarget x vn offset whence < 0
  · rw [sought, if_pos hn] at hput
    rw [if_pos hn, if_pos hn, bind_ok hput]
    rfl
  · rw [sought, if_neg hn] at hput
    rw [if_neg hn, if_neg hn, bind_ok (rfl : putFile f _ _ = .ok ((), _)), setFile_setFile,
      bind_ok hput]
    rfl

end

theorem addInt_zero {n : ℤ} (h0 : 0 ≤ n) (h1 : n < 2^31) : addInt n 0 = n := by
  unfold addInt
  rw [add_zero, Int.bmod_eq_of_le (by omega) (by omega)]

theorem addInt_eq {a b : ℤ} (h0 : 0 ≤ a+b) (h1 : a+b < 2^31) : addInt a b = a+b := by
  unfold addInt
  rw [Int.bmod_eq_of_le (by omega) (by omega)]

/-! ### Reading and writing -/

variable {buf : List UInt8} {pos : ℤ}

section Regular

variable {inode : Inode} {page : ℕ → UInt8}

/-- The number of bytes that `ramfs_read` finds. -/
def readCount (inode : Inode) (pos : ℤ) (nbytes : ℕ) : ℤ :=
  max 0 (min (offT nbytes) (inode.rfSize-pos))

/-- Where `do_write` starts. -/
def writeStart (x : File) (vn : Vnode) : ℤ := if x.fMode &&& 4 = 4 then vn.vnLen else x.fPos

/-- The number of bytes that `ramfs_write` stores. -/
def writeCount (pos : ℤ) (buf : List UInt8) : ℤ := min (offT buf.length) (PAGE_SIZE-pos)

theorem ramfsRead_eq (hi : s.inodes v = some inode) (hpage : inode.rfNode = .data page) (pos : ℤ)
    (nbytes : ℕ) : ramfsRead v pos nbytes s =
      .ok ((readCount inode pos nbytes, (range (readCount inode pos nbytes).toNat).map
        fun i : ℕ => page (pos+i).toNat), s) := by
  rw [ramfsRead, bind_ok (inodeAt_eq hi), hpage]
  rfl

theorem vnRead_eq (hvn : s.vnodes v = some vn) (hkind : vn.vnMode = .reg) (pos : ℤ) (nbytes : ℕ)
    (device : Option ℤ) : vnRead v pos nbytes device s = ramfsRead v pos nbytes s := by
  unfold vnRead
  rw [bind_ok (vnodeAt_eq hvn), hkind]

/-- `do_read` comes to the operation of the vnode with a reference to the file. -/
theorem doRead_reaches (h : Opened s cur fd f x v vn) (hread : x.fMode &&& 1 = 1)
    (hkind : vn.vnMode ≠ .dir) (nbytes : ℕ) (device : Option ℤ) :
    doRead cur fd nbytes device s = (do
      let r ← vnRead v x.fPos nbytes device
      let _ ← doLseek cur fd r.1 1
      fput f
      return (Ret.val r.1, r.2)) (s.setFile f (some (taken x))) := by
  have ht := h.taken
  have hmode : (taken x).fMode &&& 1 = 1 := hread
  unfold doRead
  rw [bind_ok (fget_eq h)]
  dsimp only
  rw [bind_ok (fileAt_eq ht.file), if_neg (not_not.mpr hmode), bind_ok (vnodeOf_eq ht _),
    bind_ok (vnodeAt_eq ht.used), if_neg hkind]
  rfl

theorem doRead_from (h : Opened s cur fd f x v vn) (hread : x.fMode &&& 1 = 1)
    (hkind : vn.vnMode ≠ .dir) {nbytes : ℕ} {device : Option ℤ} {r : ℤ × List UInt8}
    (hr : vnRead v x.fPos nbytes device (s.setFile f (some (taken x))) =
      .ok (r, s.setFile f (some (taken x)))) :
    doRead cur fd nbytes device s =
      .ok ((.val r.1, r.2), s.setFile f (some (sought x (addInt x.fPos r.1)))) := by
  have hseek := doLseek_eq h.taken r.1 (by decide : 1 ≤ 2)
  rw [setFile_setFile] at hseek
  rw [doRead_reaches h hread hkind, bind_ok hr, bind_ok hseek, bind_ok (fput_sought h _)]
  rfl

theorem doRead_eq (h : Opened s cur fd f x v vn) (hread : x.fMode &&& 1 = 1)
    (hkind : vn.vnMode = .reg) (hi : s.inodes v = some inode) (hpage : inode.rfNode = .data page)
    (nbytes : ℕ) (device : Option ℤ) :
    doRead cur fd nbytes device s =
      .ok ((.val (readCount inode x.fPos nbytes),
          (range (readCount inode x.fPos nbytes).toNat).map fun i : ℕ =>
            page (x.fPos+i).toNat),
        s.setFile f (some (sought x (addInt x.fPos (readCount inode x.fPos nbytes))))) := by
  have hvn := vnRead_eq h.taken.used hkind x.fPos nbytes device
  have hram := ramfsRead_eq (s := s.setFile f (some (taken x))) hi hpage x.fPos nbytes
  exact doRead_from h hread (by rw [hkind]; decide) (hvn.trans hram)

theorem ramfsWrite_eq (hi : s.inodes v = some inode) (hpage : inode.rfNode = .data page)
    (hvn : s.vnodes v = some vn) (hlen : vn.vnLen = inode.rfSize) (hcount : 0 ≤ writeCount pos buf)
    : ramfsWrite v pos buf s =
      .ok (writeCount pos buf, written s v inode vn page pos (writeCount pos buf) buf) := by
  rw [ramfsWrite, bind_ok (inodeAt_eq hi), bind_ok (vnodeAt_eq hvn), hpage]
  dsimp only
  rw [if_neg (show ¬min (offT buf.length) (PAGE_SIZE-pos) < 0 from not_lt.mpr hcount),
    if_neg (not_not.mpr hlen)]
  rfl

theorem vnWrite_eq (hvn : s.vnodes v = some vn) (hkind : vn.vnMode = .reg) (pos : ℤ)
    (buf : List UInt8) (device : Option ℤ) :
    vnWrite v pos buf device s = ramfsWrite v pos buf s := by
  unfold vnWrite
  rw [bind_ok (vnodeAt_eq hvn), hkind]

theorem seekToAppend_eq (h : Opened s cur fd f x v vn) (hlen : 0 ≤ vn.vnLen ∧ vn.vnLen < 2^31) :
    seekToAppend cur fd x s =
      .ok ((), s.setFile f (some { x with fPos := writeStart x vn })) := by
  unfold seekToAppend writeStart
  split
  · have hseek := doLseek_eq h 0 (le_refl 2)
    rw [show seekTarget x vn 0 2 = vn.vnLen from addInt_zero hlen.1 hlen.2,
      sought_of_nonneg x hlen.1] at hseek
    rw [bind_ok hseek]
    rfl
  · rw [setFile_self h.file]
    rfl

theorem writeCount_bounds (hlen : buf.length < 2^31) (hpos : pos ≤ PAGE_SIZE) :
    0 ≤ writeCount pos buf ∧ writeCount pos buf ≤ buf.length ∧
      pos+writeCount pos buf ≤ PAGE_SIZE := by
  have hoff : offT buf.length = buf.length := Int.bmod_eq_of_le (by omega) (by omega)
  unfold writeCount
  rw [hoff]
  omega

/-- `do_write` from the call of the vnode's operation on. -/
def writeFrom (cur : ℕ) (fd : ℤ) (f v : ℕ) (pos : ℤ) (buf : List UInt8) (device : Option ℤ) :
    Vfs Ret := do
  let n ← vnWrite v pos buf device
  let vn ← vnodeAt v
  if vn.vnMode = .chr ∨ vn.vnMode = .blk ∨ (vn.vnMode = .reg ∧ pos ≤ vn.vnLen) then do
    let _ ← doLseek cur fd n 1
    fput f
    return .val n
  else stop .panic

/-- The file with the reference and the position from which the call writes. -/
def writing (x : File) (pos : ℤ) : File := taken { x with fPos := pos }

theorem doWrite_from (h : Opened s cur fd f x v vn) (hwrite : x.fMode &&& 2 = 2)
    (hlen : 0 ≤ vn.vnLen ∧ vn.vnLen < 2^31) (buf : List UInt8) (device : Option ℤ) :
    doWrite cur fd buf device s = writeFrom cur fd f v (writeStart x vn) buf device
      (s.setFile f (some (writing x (writeStart x vn)))) := by
  have ht := h.taken
  have hmode : (taken x).fMode &&& 2 = 2 := hwrite
  have happend := seekToAppend_eq ht hlen
  rw [setFile_setFile] at happend
  have hfile : (s.setFile f (some (writing x (writeStart x vn)))).files f =
      some (writing x (writeStart x vn)) := update_self ..
  have hvnode : ∀ u, vnodeOf (writing x (writeStart x vn)) u = .ok (v, u) := by
    intro u
    unfold vnodeOf
    rw [show (writing x (writeStart x vn)).fVnode = some v from h.vnode]
    rfl
  unfold doWrite
  rw [bind_ok (fget_eq h)]
  dsimp only
  rw [bind_ok (fileAt_eq ht.file), if_neg (not_not.mpr hmode), bind_ok happend]
  change (fileAt f >>= _) (s.setFile f (some (writing x (writeStart x vn)))) = _
  rw [bind_ok (fileAt_eq hfile), bind_ok (hvnode _)]
  rfl

/-- `do_write` on a regular file, when the position lies inside the page and the number of bytes
is not negative as an `off_t`. -/
theorem doWrite_eq (h : Opened s cur fd f x v vn) (hwrite : x.fMode &&& 2 = 2)
    (hkind : vn.vnMode = .reg) (hi : s.inodes v = some inode) (hpage : inode.rfNode = .data page)
    (hlen : vn.vnLen = inode.rfSize) (hsize : 0 ≤ inode.rfSize ∧ inode.rfSize ≤ PAGE_SIZE)
    (device : Option ℤ) (hcount : 0 ≤ writeCount (writeStart x vn) buf) :
    doWrite cur fd buf device s =
      .ok (.val (writeCount (writeStart x vn) buf),
        (written s v inode vn page (writeStart x vn) (writeCount (writeStart x vn) buf) buf).setFile
          f (some { x with fPos := writeStart x vn+writeCount (writeStart x vn) buf })) := by
  have hpagesize : (PAGE_SIZE : ℤ) = 4096 := rfl
  have hstart : 0 ≤ writeStart x vn := by
    unfold writeStart
    split
    · omega
    · exact h.pos
  rw [doWrite_from h hwrite (by omega)]
  generalize writeStart x vn = p at *
  generalize hn : writeCount p buf = n at *
  have hend : p+n ≤ PAGE_SIZE := by
    rw [← hn, writeCount]
    omega
  have hopen : Opened (s.setFile f (some { x with fPos := p })) cur fd f
      { x with fPos := p } v vn :=
    h.set rfl hstart h.count rfl
  have hu : Opened (s.setFile f (some (writing x p))) cur fd f (writing x p) v vn :=
    h.set rfl hstart (Nat.succ_pos _) rfl
  -- the bytes are stored while the call has its own reference to the file
  have hram := ramfsWrite_eq (s := s.setFile f (some (writing x p))) hi hpage h.used hlen
    (hn ▸ hcount)
  rw [hn] at hram
  have hvn := vnWrite_eq hu.used hkind p buf device
  have hw := hu.written inode page p n buf
  have hadd : addInt p n = p+n := addInt_eq (by omega) (by omega)
  have hfile : ∀ a b, (written (s.setFile f a) v inode vn page p n buf).setFile f b =
      (written s v inode vn page p n buf).setFile f b := fun a b =>
    setFile_setFile (written s v inode vn page p n buf) f a b
  have hseek := doLseek_eq hw n (by decide : 1 ≤ 2)
  change doLseek cur fd n 1 _ = .ok (if addInt p n < 0 then _ else .val (addInt p n),
    VState.setFile _ f (some (sought _ (addInt p n)))) at hseek
  rw [hadd, hfile] at hseek
  have hput := fput_sought (hopen.written inode page p n buf) (p+n)
  rw [hfile, hfile, sought_of_nonneg { x with fPos := p } (by omega)] at hput
  change fput f (VState.setFile _ f (some (sought (writing x p) (p+n)))) = _ at hput
  unfold writeFrom
  rw [bind_ok (hvn.trans hram), bind_ok (vnodeAt_eq hw.used),
    if_pos (.inr (.inr ⟨hkind, by dsimp only; omega⟩)), bind_ok hseek, bind_ok hput]
  rfl

end Regular

/-! ### Refusals -/

theorem doRead_refused (h : Opened s cur fd f x v vn) (nbytes : ℕ) (device : Option ℤ)
    (hread : x.fMode &&& 1 ≠ 1) :
    doRead cur fd nbytes device s = .ok ((.err .ebadf, []), s) := by
  have hmode : (taken x).fMode &&& 1 ≠ 1 := hread
  unfold doRead
  rw [bind_ok (fget_eq h)]
  dsimp only
  rw [bind_ok (fileAt_eq h.taken.file), if_pos hmode, bind_ok (fput_taken h)]
  rfl

theorem doRead_dir (h : Opened s cur fd f x v vn) (nbytes : ℕ) (device : Option ℤ)
    (hread : x.fMode &&& 1 = 1) (hkind : vn.vnMode = .dir) :
    doRead cur fd nbytes device s = .ok ((.err .eisdir, []), s) := by
  have hmode : (taken x).fMode &&& 1 = 1 := hread
  unfold doRead
  rw [bind_ok (fget_eq h)]
  dsimp only
  rw [bind_ok (fileAt_eq h.taken.file), if_neg (not_not.mpr hmode), bind_ok (vnodeOf_eq h.taken _),
    bind_ok (vnodeAt_eq h.taken.used), if_pos hkind, bind_ok (fput_taken h)]
  rfl

theorem doWrite_refused (h : Opened s cur fd f x v vn) (buf : List UInt8) (device : Option ℤ)
    (hwrite : x.fMode &&& 2 ≠ 2) : doWrite cur fd buf device s = .ok (.err .ebadf, s) := by
  have hmode : (taken x).fMode &&& 2 ≠ 2 := hwrite
  unfold doWrite
  rw [bind_ok (fget_eq h)]
  dsimp only
  rw [bind_ok (fileAt_eq h.taken.file), if_pos hmode, bind_ok (fput_taken h)]
  rfl

theorem doGetdent_refused (h : Opened s cur fd f x v vn) (hkind : vn.vnMode ≠ .dir) :
    doGetdent cur fd s = .ok ((.err .enotdir, none), s) := by
  unfold doGetdent
  rw [if_neg (by have := h.range; omega), bind_ok (fget_eq h)]
  dsimp only
  rw [bind_ok (fileAt_eq h.taken.file), bind_ok (vnodeOf_eq h.taken _),
    bind_ok (vnodeAt_eq h.taken.used), if_pos hkind, bind_ok (fput_taken h)]
  rfl

variable {es : List Dirent}

/-- What `ramfs_readdir` finds from a position that is the place of an entry. -/
theorem ramfsReaddir_eq {size links : ℤ} (hi : s.inodes v = some ⟨size, links, .dir es⟩)
    (halign : pos%direntSize = 0) :
    ramfsReaddir v pos s = .ok
      (match (es.drop (pos/direntSize).toNat).findIdx? fun e => e.rdName ≠ [] with
        | some k => (direntSize*(k+1), (es.drop (pos/direntSize).toNat)[k]?)
        | none => (0, none), s) := by
  have hdir : dirents v s = .ok (es, s) := by
    unfold dirents
    rw [hi]
  rw [ramfsReaddir, bind_ok hdir, if_pos halign]
  cases (es.drop (pos/direntSize).toNat).findIdx? (fun e => e.rdName ≠ []) <;> rfl

theorem ramfsReaddir_passed {r : ℤ × Option Dirent} (h : ramfsReaddir v pos s = .ok (r, t))
    (hpos : 0 < r.1) :
    ∃ size links es k, s.inodes v = some ⟨size, links, .dir es⟩ ∧ pos%direntSize = 0 ∧
      (es.drop (pos/direntSize).toNat).findIdx? (fun e => e.rdName ≠ []) = some k ∧
      r.1 = direntSize*(k+1) := by
  obtain ⟨es, u, hes, hrest⟩ := run_bind_eq_ok.mp h
  unfold dirents at hes
  split at hes
  next size links es' hi =>
    obtain ⟨rfl, rfl⟩ := outcome_inj hes
    by_cases halign : pos%direntSize = 0
    · rw [ramfsReaddir_eq hi halign] at h
      obtain rfl := (outcome_inj h).1
      split at hpos
      next k hk => exact ⟨size, links, es', k, hi, halign, hk, rfl⟩
      · exact absurd hpos (lt_irrefl _)
    · rw [if_neg halign] at hrest
      cases hrest
  · cases hes

theorem passed_le (hlen : es.length = RAMFS_MAX_DIRENT) (hpos : 0 ≤ pos)
    (halign : pos%direntSize = 0) {k : ℕ}
    (hk : (es.drop (pos/direntSize).toNat).findIdx? (fun e => e.rdName ≠ []) = some k) :
    pos+direntSize*(k+1) ≤ PAGE_SIZE := by
  obtain ⟨hlt, -⟩ := findIdx?_eq_some_iff_getElem.mp hk
  rw [length_drop, hlen] at hlt
  unfold RAMFS_MAX_DIRENT direntSize at *
  unfold PAGE_SIZE
  omega

theorem doGetdent_eq (h : Opened s cur fd f x v vn) (hkind : vn.vnMode = .dir) {size links : ℤ}
    (hi : s.inodes v = some ⟨size, links, .dir es⟩) (hlen : es.length = RAMFS_MAX_DIRENT)
    (halign : x.fPos%direntSize = 0) :
    doGetdent cur fd s =
      match (es.drop (x.fPos/direntSize).toNat).findIdx? fun e => e.rdName ≠ [] with
      | some k => .ok ((.val direntT, (es.drop (x.fPos/direntSize).toNat)[k]?),
          s.setFile f (some { x with fPos := x.fPos+direntSize*(k+1) }))
      | none => .ok ((.val 0, none), s) := by
  have hread := ramfsReaddir_eq (s := s.setFile f (some (taken x))) hi halign
  have hpos := h.pos
  have hpage : (PAGE_SIZE : ℤ) = 4096 := rfl
  unfold doGetdent
  rw [if_neg (by have := h.range; omega), bind_ok (fget_eq h)]
  dsimp only
  rw [bind_ok (fileAt_eq h.taken.file), bind_ok (vnodeOf_eq h.taken _),
    bind_ok (vnodeAt_eq h.taken.used), if_neg (not_not.mpr hkind),
    show (taken x).fPos = x.fPos from rfl, bind_ok hread]
  split
  next k hk =>
    have hle := passed_le hlen hpos halign hk
    have hpass : (0 : ℤ) < direntSize*(k+1) := by
      rw [show (direntSize : ℤ) = 32 from rfl]
      omega
    have hadd : addInt x.fPos (direntSize*(k+1)) = x.fPos+direntSize*(k+1) :=
      addInt_eq (by omega) (by omega)
    have hput := fput_sought h (x.fPos+direntSize*(k+1))
    rw [sought_of_nonneg _ (by omega), sought_of_nonneg _ (by omega)] at hput
    rw [if_pos hpass, bind_ok (rfl : putFile f _ _ = .ok ((), _)), setFile_setFile, hadd,
      bind_ok hput]
    rfl
  next hk =>
    rw [if_neg (lt_irrefl _), bind_ok (fput_taken h)]
    rfl

/-! ### Descriptors that are not open -/

theorem fget_closed (hfd : fd ≠ -1) (hslot : slotAt cur fd s = .ok (none, s)) :
    fget cur fd s = .ok (none, s) := by
  unfold fget
  rw [if_neg hfd, bind_ok hslot]
  rfl

theorem doLseek_closed (hslot : slotAt cur fd s = .ok (none, s)) (offset : ℤ) (whence : ℕ) :
    ∃ e, doLseek cur fd offset whence s = .ok (.err e, s) := by
  unfold doLseek
  split_ifs
  · exact ⟨_, rfl⟩
  · exact ⟨_, rfl⟩
  · rw [bind_ok (fget_closed (by omega) hslot)]
    exact ⟨_, rfl⟩

theorem doGetdent_closed (hslot : slotAt cur fd s = .ok (none, s)) :
    doGetdent cur fd s = .ok ((.err .ebadf, none), s) := by
  unfold doGetdent
  split_ifs
  · rfl
  · rw [bind_ok (fget_closed (by omega) hslot)]
    rfl

/-- A file that is allocated and freed again leaves nothing but its number. -/
theorem opening_freed (hn : s.files s.nextFile = none) :
    (opening s).setFile s.nextFile none = { s with nextFile := s.nextFile+1 } := by
  unfold opening VState.setFile
  simp only [update_idem]
  rw [← hn, update_eq_self]

/-- `do_read` of a descriptor that is not open; -1 gets a file of its own for a moment. -/
theorem doRead_closed (hslot : slotAt cur fd s = .ok (none, s)) (hn : s.files s.nextFile = none)
    (nbytes : ℕ) (device : Option ℤ) : ∃ n,
      doRead cur fd nbytes device s = .ok ((.err .ebadf, []), { s with nextFile := n }) := by
  unfold doRead
  by_cases hfd : fd = -1
  · subst hfd
    by_cases hm : s.memory
    · rw [bind_ok ((fget_new cur s).trans (if_pos hm))]
      dsimp only
      rw [bind_ok (fileAt_eq (opening_file s)), if_pos (by decide),
        bind_ok (fput_opening (opening_file s) (by decide) (by decide) rfl rfl), opening_freed hn]
      exact ⟨_, rfl⟩
    · rw [bind_ok ((fget_new cur s).trans (if_neg hm))]
      exact ⟨_, rfl⟩
  · rw [bind_ok (fget_closed hfd hslot)]
    exact ⟨_, rfl⟩

theorem doWrite_closed (hslot : slotAt cur fd s = .ok (none, s)) (hn : s.files s.nextFile = none)
    (buf : List UInt8) (device : Option ℤ) : ∃ n,
      doWrite cur fd buf device s = .ok (.err .ebadf, { s with nextFile := n }) := by
  unfold doWrite
  by_cases hfd : fd = -1
  · subst hfd
    by_cases hm : s.memory
    · rw [bind_ok ((fget_new cur s).trans (if_pos hm))]
      dsimp only
      rw [bind_ok (fileAt_eq (opening_file s)), if_pos (by decide),
        bind_ok (fput_opening (opening_file s) (by decide) (by decide) rfl rfl), opening_freed hn]
      exact ⟨_, rfl⟩
    · rw [bind_ok ((fget_new cur s).trans (if_neg hm))]
      exact ⟨_, rfl⟩
  · rw [bind_ok (fget_closed hfd hslot)]
    exact ⟨_, rfl⟩

/-! ### States in which every descriptor can be used -/

/-- Vnodes, inodes, files and the counts of references are in order. -/
structure Ready (s : VState) : Prop where
  kept : Kept s
  files : FilesOk [] s
  usable : ∀ f x, s.files f = some x → x.fMode < 8 ∧ 0 ≤ x.fPos
  counts : ∀ v, s.refs v = users s v

theorem Ready.balanced (h : Ready s) : Balanced [] s.enter where
  late := rfl
  held := rfl
  numbered := h.files.numbered
  counts v := by
    rw [count_nil, Nat.add_zero]
    exact h.counts v

theorem Ready.used (h : Ready s) (hx : s.files f = some x) (hv : x.fVnode = some v) :
    0 < s.refs v := by
  have hmem : f ∈ range s.nextFile := mem_range.mpr (h.balanced.lt_next hx)
  have hpos : 0 < fileUsers s v := by
    refine countP_pos_iff.mpr ⟨f, hmem, ?_⟩
    rw [decide_eq_true_eq, fileVnode, hx]
    exact hv
  rw [h.counts v, users]
  omega

structure Backed (s : VState) (v : ℕ) (vn : Vnode) (inode : Inode) : Prop where
  found : s.inodes v = some inode
  mode : vn.vnMode = inode.rfNode.kind
  len : vn.vnMode = .reg → vn.vnLen = inode.rfSize
  ok : InodeOk inode

theorem Backed.page {inode : Inode} (h : Backed s v vn inode) (hreg : vn.vnMode = .reg) :
    ∃ page, inode.rfNode = .data page ∧ vn.vnLen = inode.rfSize ∧
      0 ≤ inode.rfSize ∧ inode.rfSize ≤ PAGE_SIZE := by
  have hkind : inode.rfNode.kind = .reg := h.mode.symm.trans hreg
  have hok := h.ok
  unfold InodeOk at hok
  cases hnode : inode.rfNode with
  | data page =>
    rw [hnode] at hok
    exact ⟨page, rfl, h.len hreg, hok.1, hok.2.1⟩
  | _ => simp [hnode, RamfsNode.kind] at hkind

theorem Ready.opened (h : Ready s) (hr : 0 ≤ fd ∧ fd < NFILES)
    (hslot : SlotIs s cur fd.toNat (some f)) :
    ∃ x v vn inode, Opened s cur fd f x v vn ∧ Backed s v vn inode := by
  have hpos : 0 < slots s f := by
    obtain ⟨p, hp, hf⟩ := hslot
    rw [slots, count_pos_iff, mem_flatMap]
    exact ⟨p, mem_of_getElem? hp, mem_of_getElem? hf⟩
  obtain ⟨x, hx⟩ := Option.isSome_iff_exists.mp ((h.files.present f).mpr (by omega))
  obtain ⟨v, hv, -⟩ := h.files.valued f x hx
  obtain ⟨inode, vn, hi, hvn, hmode, hlen⟩ := h.kept.stored.inUse v (h.used hx hv)
  have hcount := h.files.counted f x hx
  obtain ⟨hmode', hfpos⟩ := h.usable f x hx
  exact ⟨x, v, vn, inode, ⟨hr, hslot, hx, hmode', hfpos, by omega, hv, hvn⟩,
    ⟨hi, hmode, hlen, h.kept.inodes v inode hi⟩⟩

theorem Ready.descriptor (h : Ready s) (hcur : cur < s.procs.length) (fd : ℤ) :
    slotAt cur fd s = .ok (none, s) ∨
    ∃ f x v vn inode, Opened s cur fd f x v vn ∧ Backed s v vn inode := by
  by_cases hr : 0 ≤ fd ∧ fd < NFILES
  · have hp := getElem?_eq_getElem hcur
    have hlen := h.files.sized _ (getElem_mem hcur)
    have hslot := getElem?_eq_getElem (show fd.toNat < s.procs[cur].pFiles.length by omega)
    cases hfile : s.procs[cur].pFiles[fd.toNat] with
    | none => exact .inl (slotAt_eq hr ⟨_, hp, hslot.trans (congrArg some hfile)⟩)
    | some f => exact .inr ⟨f, h.opened hr ⟨_, hp, hslot.trans (congrArg some hfile)⟩⟩
  · refine .inl ?_
    unfold slotAt
    rw [if_pos (by omega)]
    rfl

theorem Ready.enter (h : Ready s) : Ready s.enter where
  kept := h.kept.congr rfl rfl
  files := h.files.enter
  usable := h.usable
  counts := h.counts

theorem usable_rules : FileRules 0 fun _ x => x.fMode < 8 ∧ 0 ≤ x.fPos where
  turned := by
    intro s _ x y hs hx hy
    refine ⟨hy.fMode ▸ hx.1, ?_⟩
    cases hy with
    | counted n => exact hx.2
    | sought hn => exact hn
    | @passed v r hread hpos =>
      obtain ⟨size, links, es, k, hi, halign, hk, hr⟩ := ramfsReaddir_passed hread hpos
      have hle := passed_le (hs.inodes v _ hi) hx.2 halign hk
      have hpage : (PAGE_SIZE : ℤ) = 4096 := rfl
      rw [hr] at hpos ⊢
      dsimp only
      rw [addInt_eq (by omega) (by omega)]
      omega
  fresh _ := ⟨by decide, le_rfl⟩
  finish _ _ hp hm := ⟨hm, hp.ge⟩

theorem Ready.step {e : ℕ × VfsCall} (h : Ready s) (hfair : FairCall s.enter e.1 e.2)
    (hstep : VfsStep s e t) : Ready t where
  kept := h.kept.step hstep
  files := h.files.step hstep
  usable := (usable_rules.step ⟨h.kept, Nat.zero_le _, h.usable⟩ hstep).2.files
  counts v := by
    have hb := (hstep.of_ends (perform_balanced h.balanced e.2 hfair)).counts v
    rwa [count_nil, Nat.add_zero] at hb

theorem Ready.run {es : List (ℕ × VfsCall)} (h : Ready s)
    (hrun : Run VfsStep (fun s e => FairCall s.enter e.1 e.2) s es t) : Ready t :=
  hrun.invariant (fun _ _ _ hg hstep hi => hi.step hg hstep) h

theorem ready_booted : Ready booted where
  kept := kept_booted
  files := unopened_booted.filesOk
  usable _ _ hx := nomatch hx
  counts v := by
    have hb := balanced_booted.counts v
    rwa [count_nil, Nat.add_zero] at hb

/-- At any time an open descriptor leads to a file with references and to a vnode whose inode is
there, with its type and its length. -/
theorem descriptor_leads_to_inode {es : List (ℕ × VfsCall)}
    (hrun : Run VfsStep (fun s e => FairCall s.enter e.1 e.2) booted es s)
    (hr : 0 ≤ fd ∧ fd < NFILES) (hslot : SlotIs s cur fd.toNat (some f)) :
    ∃ x v vn inode, Opened s cur fd f x v vn ∧ Backed s v vn inode :=
  (ready_booted.run hrun).opened hr hslot

theorem unlinked_descriptor : ∃ s, Run VfsStep (fun s e => FairCall s.enter e.1 e.2) booted
      [(0, .openFile ['f'] 0x102), (0, .unlink ['f'])] s ∧
    ∃ x v vn inode, Opened s 0 0 0 x v vn ∧ Backed s v vn inode := by
  obtain ⟨s, hrun, p, hp, hslot⟩ := exists_run_vfs
    (fun s e => FairCall s.enter e.1 e.2) [(0, .openFile ['f'] 0x102), (0, .unlink ['f'])]
    (P := fun s => ∃ p ∈ s.procs[0]?, p.pFiles[0]? = some (some 0)) (by decide +kernel)
  exact ⟨s, hrun, descriptor_leads_to_inode hrun (by decide) ⟨p, hp, hslot⟩⟩

end SystemsProjects.OpenDescriptors
