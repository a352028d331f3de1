import SystemsProjects.FileCalls

/-!
# What calls on vnodes leave alone

A call that takes a path is made of a few operations on vnodes and directories. A condition on
the state that each of these keeps is kept by the calls. So is one that depends on nothing but
the descriptor tables and the files: resolving a path, reading and writing work on vnodes and
inodes only.
-/
namespace SystemsProjects.VfsFrames
open CallOutcomes VfsState RamfsOperations PathCalls FileCalls

/-- The fault `e` is one that a call may stop with. -/
class Allows (E : Halt → Prop) (e : VfsFault) : Prop where
  stops : ∀ late, E ⟨e, late⟩

instance (e : VfsFault) : Allows (fun _ => True) e := ⟨fun _ => trivial⟩

variable {E : Halt → Prop}

/-- So is an overrun of the buffer of `dir_namev` if the path does not fit into it. -/
class AllowsPath (E : Halt → Prop) (path : List Char) : Prop where
  stops : MAXPATHLEN < (relative path).length → Allows E .overrun

instance [Allows E .overrun] (path : List Char) : AllowsPath E path := ⟨fun _ => inferInstance⟩

theorem keeps_stop (I : VState → Prop) (e : VfsFault) (α : Type) [Allows E e] :
    Guards E I (stop e : Vfs α) := fun _ _ => Allows.stops _

theorem readOut_some {α : Type} (a : α) (s : VState) : readOut (some a) s = .ok (a, s) := rfl

theorem relative_le (path : List Char) : (relative path).length ≤ path.length := by
  unfold relative
  split
  · simp
  · exact Nat.le_refl _

theorem keeps_readOut [Allows E .unsetRead] (I : VState → Prop) {α : Type} (x : Option α) :
    Guards E I (readOut x) := by
  cases x with
  | none => exact keeps_stop I _ _
  | some a => exact keeps_pure a

section Reads

variable [Allows E .panic]

theorem keeps_vnodeAt (I : VState → Prop) (v : ℕ) : Guards E I (vnodeAt v) := by
  intro t h
  unfold vnodeAt
  split
  · exact h
  · exact keeps_stop I _ _ t h

theorem keeps_procAt (I : VState → Prop) (cur : ℕ) : Guards E I (procAt cur) := by
  intro t h
  unfold procAt
  split
  · exact h
  · exact keeps_stop I _ _ t h

theorem keeps_inodeAt (I : VState → Prop) (i : ℕ) : Guards E I (inodeAt i) := by
  intro t h
  unfold inodeAt
  split
  · exact h
  · exact keeps_stop I _ _ t h

theorem keeps_dirents (I : VState → Prop) (d : ℕ) : Guards E I (dirents d) := by
  intro t h
  unfold dirents
  split
  · exact h
  · exact keeps_stop I _ _ t h

end Reads

/-! ### Calls that take a path -/

/-- The condition `I` is kept by the operations that path calls are made of. -/
structure VnodeRules (E : Halt → Prop) (I : VState → Prop) : Prop where
  touch : ∀ v, Guards E I (touch v)
  vget : ∀ v, Guards E I (vget v)
  dropRef : ∀ v, Guards E I (dropRef v)
  release : ∀ v, Guards E I (release v)
  create : ∀ d name result, Guards E I (ramfsCreate d name result)
  mknod : ∀ d name mode devid, Guards E I (ramfsMknod d name mode devid)
  mkdir : ∀ d name, Guards E I (ramfsMkdir d name)
  unlink : ∀ d name, Guards E I (ramfsUnlink d name)
  rmdir : ∀ d name, Guards E I (ramfsRmdir d name)

theorem vput_keeps {I : VState → Prop} [Allows E .nullVput] (htouch : ∀ v, Guards E I (touch v))
    (hdrop : ∀ v, Guards E I (dropRef v)) (hrelease : ∀ v, Guards E I (release v))
    (v : Option ℕ) : Guards E I (vput v) := by
  cases v with
  | none => exact keeps_stop _ _ _
  | some v => exact (htouch v).bind fun _ => (hdrop v).bind fun _ => hrelease v

section Lookups

variable {I : VState → Prop} [Allows E .panic]

theorem vnMode_keeps (htouch : ∀ v, Guards E I (touch v)) (v : ℕ) : Guards E I (vnMode v) :=
  (htouch v).bind fun _ => (keeps_vnodeAt _ v).ret

theorem ramfsLookup_keeps (hget : ∀ v, Guards E I (vget v)) (d : ℕ) (name : Name)
    (result : Option ℕ) : Guards E I (ramfsLookup d name result) := by
  refine (keeps_dirents _ d).bind fun l => ?_
  split
  · exact (hget _).ret
  · exact keeps_pure _

theorem nameSlot_keeps (hget : ∀ v, Guards E I (vget v)) (d : ℕ) (name : Name) :
    Guards E I (nameSlot d name) :=
  (ramfsLookup_keeps hget d name none).bind fun _ =>
    keeps_ite (keeps_stop _ _ _) ((keeps_dirents _ d).ret)

section Removals

variable [Allows E .unsetRead] (htouch : ∀ v, Guards E I (touch v))
  (hget : ∀ v, Guards E I (vget v)) (hput : ∀ v, Guards E I (vput v))
  (hlinks : ∀ v n, Guards E I (addLinks v n)) (d : ℕ) (name : Name)
  (hclear : Guards E I (clearEntry d name))

include htouch hget hput hlinks hclear

theorem ramfsUnlink_keeps : Guards E I (ramfsUnlink d name) := by
  refine (ramfsLookup_keeps hget d name none).bind fun r => keeps_ite ?_ (keeps_stop _ _ _)
  refine (keeps_readOut _ _).bind fun vn => (vnMode_keeps htouch vn).bind fun k => ?_
  refine keeps_ite (keeps_stop _ _ _) (hclear.bind fun _ => ?_)
  exact (hlinks _ _).bind fun _ => (hput _).ret

theorem ramfsRmdir_keeps : Guards E I (ramfsRmdir d name) := by
  refine keeps_ite (keeps_stop _ _ _) ((ramfsLookup_keeps hget d name none).bind fun r => ?_)
  refine keeps_ite ((keeps_readOut _ _).bind fun vn => ?_) (keeps_pure _)
  refine (vnMode_keeps htouch vn).bind fun k => keeps_ite ?_ ?_
  · refine (keeps_dirents _ vn).bind fun l => keeps_ite ?_ ?_
    · exact (hput _).ret
    · exact hclear.bind fun _ => (hlinks _ _).bind fun _ => (hput _).ret
  · exact (hput _).ret

end Removals

end Lookups

section PathCalls

variable {I : VState → Prop} (R : VnodeRules E I)

include R

theorem VnodeRules.vput [Allows E .nullVput] (v : Option ℕ) : Guards E I (vput v) :=
  vput_keeps R.touch R.dropRef R.release v

variable [Allows E .panic]

theorem VnodeRules.vnMode (v : ℕ) : Guards E I (vnMode v) := vnMode_keeps R.touch v

theorem VnodeRules.dirOp [Allows E .nullOp] (v : ℕ) : Guards E I (dirOp v) :=
  (R.vnMode v).bind fun _ => keeps_ite (keeps_pure _) (keeps_stop _ _ _)

theorem VnodeRules.ramfsStat (v : ℕ) : Guards E I (ramfsStat v) :=
  (R.vnMode v).bind fun _ => (keeps_inodeAt _ v).ret

theorem VnodeRules.lookup (d : ℕ) (name : Name) (result : Option ℕ) :
    Guards E I (lookup d name result) :=
  (R.vnMode d).bind fun _ => keeps_ite (keeps_pure _) <| keeps_ite (keeps_pure _) <|
    keeps_ite ((R.vget d).ret) (ramfsLookup_keeps R.vget d name result)

variable [Allows E .nullVput] [Allows E .unsetRead]

theorem VnodeRules.namevLoop (last : Name) (l : List Name) (dir : ℕ) (resVnode : Option ℕ) :
    Guards E I (namevLoop last l dir resVnode) := by
  induction l generalizing dir resVnode with
  | nil => exact keeps_pure _
  | cons start rest ih =>
    refine (R.lookup dir start resVnode).bind fun r => keeps_ite ?_ ?_
    · exact (R.vput _).ret
    · exact (R.vput _).bind fun _ => (keeps_readOut _ _).bind fun next => ih next _

variable (cur : ℕ) (path : List Char) [AllowsPath E path]

theorem VnodeRules.dirNamev (base : Option ℕ) : Guards E I (dirNamev cur path base) := by
  refine keeps_ite (keeps_pure _) ((keeps_procAt _ cur).bind fun p => ?_)
  split
  · exact keeps_stop _ _ _
  refine (R.vget _).bind fun _ => ?_
  split
  next hlong =>
    have := AllowsPath.stops (E := E) hlong
    exact keeps_stop _ _ _
  · exact R.namevLoop _ _ _ _

variable [Allows E .nullOp]

theorem VnodeRules.openNamev (flag : ℕ) (base : Option ℕ) :
    Guards E I (openNamev cur path flag base) := by
  refine (R.dirNamev cur path base).bind fun out => keeps_ite (keeps_pure _) ?_
  refine (keeps_readOut _ _).bind fun dir => (keeps_readOut _ _).bind fun name => ?_
  refine (R.lookup dir name none).bind fun r => keeps_ite ?_ ?_
  · exact (R.dirOp dir).bind fun _ => (R.create dir name r.2).bind fun _ =>
      (R.vput _).ret
  · exact (R.vput _).ret

theorem VnodeRules.doMknod (mode devid : ℕ) :
    Guards E I (doMknod cur path mode devid) := by
  refine keeps_ite (keeps_pure _) ((R.dirNamev cur path none).bind fun out => ?_)
  refine keeps_ite (keeps_pure _) ((keeps_readOut _ _).bind fun rest => ?_)
  refine (R.vnMode rest).bind fun k => keeps_ite ?_ ?_
  · exact (R.vput _).ret
  refine (keeps_readOut _ _).bind fun name => (R.lookup rest name none).bind fun r => ?_
  refine keeps_ite ?_ ?_
  · exact (R.vput _).bind fun _ => (R.vput _).ret
  · exact (R.dirOp rest).bind fun _ => (R.mknod rest name mode devid).bind fun _ =>
      (R.vput _).ret

theorem VnodeRules.doMkdir : Guards E I (doMkdir cur path) := by
  refine (R.dirNamev cur path none).bind fun out => (keeps_readOut _ _).bind fun name => ?_
  refine keeps_ite ?_ (keeps_ite (keeps_pure _) ?_)
  · exact (keeps_readOut _ _).bind fun rest => (R.vput _).ret
  refine (keeps_readOut _ _).bind fun rest => (R.vnMode rest).bind fun k => ?_
  refine keeps_ite ((R.vput _).ret) ((R.vput _).bind fun _ => ?_)
  refine (R.lookup rest name none).bind fun r => keeps_ite ?_ ?_
  · exact (R.vput _).ret
  · exact (R.dirOp rest).bind fun _ => R.mkdir rest name

theorem VnodeRules.doRmdir : Guards E I (doRmdir cur path) := by
  refine (R.dirNamev cur path none).bind fun out => keeps_ite (keeps_pure _) ?_
  refine (keeps_readOut _ _).bind fun rest => (keeps_readOut _ _).bind fun name => ?_
  refine keeps_ite ((R.vput _).ret) ?_
  refine keeps_ite ((R.vput _).ret) ?_
  refine (R.vnMode rest).bind fun k => keeps_ite ?_ ?_
  · exact (R.vput _).ret
  · exact (R.dirOp rest).bind fun _ => (R.rmdir rest name).bind fun _ =>
      (R.vput _).ret

theorem VnodeRules.doUnlink : Guards E I (doUnlink cur path) := by
  refine (R.dirNamev cur path none).bind fun out => keeps_ite (keeps_pure _) ?_
  refine (keeps_readOut _ _).bind fun rest => (R.vnMode rest).bind fun k => ?_
  refine keeps_ite ((R.vput _).ret) ?_
  refine (keeps_readOut _ _).bind fun name => (R.lookup rest name none).bind fun r => ?_
  refine keeps_ite ((R.vput _).ret) ?_
  refine (keeps_readOut _ _).bind fun result => (R.vnMode result).bind fun k => ?_
  refine keeps_ite ?_ ?_
  · exact (R.vput _).bind fun _ => (R.vput _).ret
  · exact (R.dirOp rest).bind fun _ => (R.unlink rest name).bind fun _ =>
      (R.vput _).bind fun _ => (R.vput _).ret

theorem VnodeRules.doStat : Guards E I (doStat cur path) := by
  refine keeps_ite (keeps_pure _) ((R.openNamev cur path 0 none).bind fun r => ?_)
  refine keeps_ite (keeps_pure _) ((keeps_readOut _ _).bind fun vnode => ?_)
  exact (R.ramfsStat vnode).bind fun _ => (R.vput _).ret

theorem VnodeRules.doChdir (hcwd : ∀ cur v, Guards E I (setCwd cur v))
    (hvref : ∀ v, Guards E I (vref v)) : Guards E I (doChdir cur path) := by
  refine keeps_ite (keeps_pure _) ((keeps_procAt _ cur).bind fun p => ?_)
  refine (R.openNamev cur path 0 p.pCwd).bind fun r => keeps_ite (keeps_pure _) ?_
  refine (keeps_readOut _ _).bind fun v => (R.vnMode v).bind fun k => keeps_ite ?_ ?_
  · exact (R.vput _).ret
  cases p.pCwd with
  | none => exact keeps_stop _ _ _
  | some old =>
    exact (R.dropRef old).bind fun _ => (hcwd cur v).bind fun _ => (hvref v).bind fun _ =>
      (R.vput _).ret

omit [AllowsPath E path] in
theorem VnodeRules.doLink [Allows E .overrun]
    (hlink : ∀ old d name, Guards E I (ramfsLink old d name)) (source target : List Char) :
    Guards E I (doLink cur source target) := by
  refine keeps_ite (keeps_pure _) ((R.openNamev cur source 0 none).bind fun src => ?_)
  refine keeps_ite (keeps_pure _) ((keeps_readOut _ _).bind fun resVnode => ?_)
  refine (R.vnMode resVnode).bind fun k => keeps_ite ?_ ?_
  · exact (R.vput _).ret
  refine (R.dirNamev cur target none).bind fun out => keeps_ite ?_ ?_
  · exact (R.vput _).ret
  refine (keeps_readOut _ _).bind fun resVnode2 => (keeps_readOut _ _).bind fun name => ?_
  refine (R.lookup resVnode2 name none).bind fun r => keeps_ite ?_ ?_
  · exact (R.vput _).bind fun _ => (R.vput _).bind fun _ => (R.vput _).ret
  · exact (R.dirOp resVnode2).bind fun _ => (hlink _ _ _).bind fun _ =>
      (R.vput _).bind fun _ => (R.vput _).ret

omit [AllowsPath E path] in
theorem VnodeRules.doRename [Allows E .overrun]
    (hlink : ∀ old d name, Guards E I (ramfsLink old d name)) (oldname newname : List Char) :
    Guards E I (doRename cur oldname newname) :=
  (R.doLink cur hlink oldname newname).bind fun _ =>
    keeps_ite (keeps_pure _) (R.doUnlink cur oldname)

end PathCalls

/-! ### The files stay the same -/

/-- The descriptor tables and the files are the same. -/
structure SameFiles (s t : VState) : Prop where
  procs : t.procs = s.procs
  files : t.files = s.files
  nextFile : t.nextFile = s.nextFile
  memory : t.memory = s.memory
  opened : t.opened = s.opened
  closed : t.closed = s.closed

theorem SameFiles.refl (s : VState) : SameFiles s s := ⟨rfl, rfl, rfl, rfl, rfl, rfl⟩

variable {s : VState}

theorem SameFiles.trans {t u : VState} (h : SameFiles s t) (h' : SameFiles t u) :
    SameFiles s u :=
  ⟨h'.procs.trans h.procs, h'.files.trans h.files, h'.nextFile.trans h.nextFile,
    h'.memory.trans h.memory, h'.opened.trans h.opened, h'.closed.trans h.closed⟩

/-- The condition `I` depends on nothing but the files. -/
class OfFiles (I : VState → Prop) : Prop where
  same : ∀ {s t : VState}, SameFiles s t → I s → I t

instance : OfFiles (SameFiles s) := ⟨fun ht h => h.trans ht⟩

instance : OfFiles fun _ => True := ⟨fun _ _ => trivial⟩

variable {I : VState → Prop} [OfFiles I]

theorem of_eq {t u : VState} (h : I t) (hp : u.procs = t.procs) (hf : u.files = t.files)
    (hn : u.nextFile = t.nextFile) (hm : u.memory = t.memory) (ho : u.opened = t.opened)
    (hc : u.closed = t.closed) : I u := OfFiles.same ⟨hp, hf, hn, hm, ho, hc⟩ h

theorem keeps_touch (v : ℕ) : Guards E I (touch v) := fun _ h =>
  of_eq h rfl rfl rfl rfl rfl rfl

theorem keeps_release (v : ℕ) : Guards E I (release v) := fun _ h =>
  of_eq h rfl rfl rfl rfl rfl rfl

theorem keeps_putInode (i : ℕ) (x : Option Inode) : Guards E I (putInode i x) :=
  fun _ h => of_eq h rfl rfl rfl rfl rfl rfl

theorem keeps_ramfsAllocInode (node : RamfsNode) : Guards E I (ramfsAllocInode node) := by
  intro t h
  unfold ramfsAllocInode
  split
  · split
    · exact of_eq h rfl rfl rfl rfl rfl rfl
    · exact h
  · exact h

variable [Allows E .panic]

theorem keeps_vref (v : ℕ) : Guards E I (vref v) := by
  intro t h
  unfold vref
  split
  · split
    · exact of_eq h rfl rfl rfl rfl rfl rfl
    · exact keeps_stop _ _ _ t h
  · exact keeps_stop _ _ _ t h

theorem keeps_vget (v : ℕ) : Guards E I (vget v) := by
  intro t h
  unfold vget
  split
  · split
    · exact of_eq h rfl rfl rfl rfl rfl rfl
    · exact keeps_stop _ _ _ t h
  · split
    · exact of_eq h rfl rfl rfl rfl rfl rfl
    · exact keeps_stop _ _ _ t h

theorem ramfsDeleteVnode_same (t : VState) (v : ℕ) (inode : Inode) :
    SameFiles t (ramfsDeleteVnode t v inode) := by
  unfold ramfsDeleteVnode
  split
  · exact ⟨rfl, rfl, rfl, rfl, rfl, rfl⟩
  · exact ⟨rfl, rfl, rfl, rfl, rfl, rfl⟩

theorem keeps_dropRef (v : ℕ) : Guards E I (dropRef v) := by
  intro t h
  unfold dropRef
  split
  · exact keeps_stop _ _ _ t h
  · split
    · exact keeps_stop _ _ _ t h
    · split
      · exact of_eq h rfl rfl rfl rfl rfl rfl
      · split
        · exact keeps_stop _ _ _ t h
        · have hd := ramfsDeleteVnode_same t v
          exact of_eq h (hd _).procs (hd _).files (hd _).nextFile (hd _).memory (hd _).opened
            (hd _).closed

theorem keeps_setEntry (d i : ℕ) (name : Name) (ino : ℕ) :
    Guards E I (setEntry d i name ino) := by
  intro t h
  unfold setEntry
  split
  · exact of_eq h rfl rfl rfl rfl rfl rfl
  · exact keeps_stop _ _ _ t h

theorem keeps_ramfsCreate (d : ℕ) (name : Name) (result : Option ℕ) :
    Guards E I (ramfsCreate d name result) := by
  refine (nameSlot_keeps keeps_vget d name).found (keeps_pure _) fun i => ?_
  refine (keeps_ramfsAllocInode _).found (keeps_pure _) fun ino => ?_
  exact (keeps_vget ino).bind fun _ => (keeps_setEntry _ _ _ _).ret

theorem keeps_clearEntry (d : ℕ) (name : Name) : Guards E I (clearEntry d name) := by
  intro t h
  unfold clearEntry
  split
  · exact of_eq h rfl rfl rfl rfl rfl rfl
  · exact keeps_stop _ _ _ t h

theorem keeps_addLinks (v : ℕ) (n : ℤ) : Guards E I (addLinks v n) :=
  (keeps_inodeAt _ v).bind fun _ => keeps_putInode _ _

theorem keeps_ramfsMknod (d : ℕ) (name : Name) (mode devid : ℕ) :
    Guards E I (ramfsMknod d name mode devid) := by
  refine (nameSlot_keeps keeps_vget d name).found (keeps_pure _) fun i => ?_
  refine keeps_ite ((keeps_ramfsAllocInode _).found (keeps_pure _) fun ino => ?_)
    (keeps_stop _ _ _)
  exact (keeps_setEntry _ _ _ _).ret

theorem keeps_ramfsMkdir (d : ℕ) (name : Name) : Guards E I (ramfsMkdir d name) := by
  refine (nameSlot_keeps keeps_vget d name).found (keeps_pure _) fun i => ?_
  refine (keeps_ramfsAllocInode _).found (keeps_pure _) fun ino => ?_
  exact (keeps_setEntry _ _ _ _).bind fun _ => (keeps_inodeAt _ _).bind fun _ =>
    (keeps_putInode _ _).ret

theorem keeps_ramfsLink (oldvnode d : ℕ) (name : Name) :
    Guards E I (ramfsLink oldvnode d name) := by
  refine (nameSlot_keeps keeps_vget d name).found (keeps_pure _) fun i => ?_
  exact (keeps_setEntry _ _ _ _).bind fun _ => (keeps_addLinks _ _).ret

/-! ### Reading and writing -/

theorem keeps_ramfsRead (I : VState → Prop) (v : ℕ) (offset : ℤ) (count : ℕ) :
    Guards E I (ramfsRead v offset count) := by
  refine (keeps_inodeAt _ v).bind fun inode => ?_
  split
  · exact keeps_pure _
  · exact keeps_stop _ _ _

theorem keeps_ramfsWrite [Allows E .overrun] (v : ℕ) (offset : ℤ) (buf : List UInt8) :
    Guards E I (ramfsWrite v offset buf) := by
  refine (keeps_inodeAt _ v).bind fun inode => (keeps_vnodeAt _ v).bind fun vn => ?_
  split
  · refine keeps_ite (keeps_stop _ _ _) (keeps_ite (keeps_stop _ _ _) ?_)
    refine (keeps_putInode _ _).bind fun _ => ?_
    exact fun _ h => of_eq h rfl rfl rfl rfl rfl rfl
  · exact keeps_stop _ _ _

theorem keeps_ramfsReaddir (I : VState → Prop) (d : ℕ) (offset : ℤ) :
    Guards E I (ramfsReaddir d offset) := by
  refine (keeps_dirents _ d).bind fun l => keeps_ite ?_ (keeps_stop _ _ _)
  dsimp only
  split
  · exact keeps_pure _
  · exact keeps_pure _

section

variable [Allows E .nullOp]

theorem keeps_vnRead (I : VState → Prop) (v : ℕ) (pos : ℤ) (nbytes : ℕ) (device : Option ℤ) :
    Guards E I (vnRead v pos nbytes device) := by
  refine (keeps_vnodeAt _ v).bind fun vn => ?_
  split
  · exact keeps_ramfsRead I v pos nbytes
  · split
    · exact keeps_pure _
    · exact keeps_stop _ _ _
  · exact keeps_stop _ _ _

theorem vnWrite_keeps {I : VState → Prop}
    (hwrite : ∀ v pos buf, Guards E I (ramfsWrite v pos buf)) (v : ℕ) (pos : ℤ)
    (buf : List UInt8) (device : Option ℤ) : Guards E I (vnWrite v pos buf device) := by
  refine (keeps_vnodeAt _ v).bind fun vn => ?_
  split
  · exact hwrite v pos buf
  · split
    · exact keeps_pure _
    · exact keeps_stop _ _ _
  · exact keeps_stop _ _ _

end

/-! ### The rules -/

theorem keeps_vput [Allows E .nullVput] (v : Option ℕ) : Guards E I (vput v) :=
  vput_keeps keeps_touch keeps_dropRef keeps_release v

variable [Allows E .nullVput] [Allows E .unsetRead]

theorem guarded_rules : VnodeRules E I where
  touch := keeps_touch
  vget := keeps_vget
  dropRef := keeps_dropRef
  release := keeps_release
  create := keeps_ramfsCreate
  mknod := keeps_ramfsMknod
  mkdir := keeps_ramfsMkdir
  unlink d name := ramfsUnlink_keeps keeps_touch keeps_vget keeps_vput keeps_addLinks d name
    (keeps_clearEntry d name)
  rmdir d name := ramfsRmdir_keeps keeps_touch keeps_vget keeps_vput keeps_addLinks d name
    (keeps_clearEntry d name)

theorem sameFiles_rules (s : VState) : VnodeRules (fun _ => True) (SameFiles s) :=
  guarded_rules

end SystemsProjects.VfsFrames
