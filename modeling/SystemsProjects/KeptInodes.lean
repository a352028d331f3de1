import SystemsProjects.VnodeBalance
import SystemsProjects.VnodeCache

/-!
# What every call keeps of vnodes and inodes

Two facts hold after every sequence of calls, whatever the calls are. A vnode in use agrees with
its inode and an inode without a vnode is linked. And an inode is in order: a regular file is no
longer than its page and the page is zero behind its end, and a directory is a full page of
entries. A call that stops on the way leaves nothing behind that runs on.
-/
namespace SystemsProjects.KeptInodes
open Function CallOutcomes VfsState RamfsOperations PathCalls VfsCalls VfsFrames
open VnodeReferences PathCallSafety DescriptorCalls VnodeCache GuardedRuns

/-- The size and the contents of an inode fit together. -/
def InodeOk (x : Inode) : Prop :=
  match x.rfNode with
  | .data page => 0 ≤ x.rfSize ∧ x.rfSize ≤ PAGE_SIZE ∧ ∀ i : ℕ, x.rfSize ≤ i → page i = 0
  | .dir es => es.length = RAMFS_MAX_DIRENT
  | _ => True

structure Kept (s : VState) : Prop where
  stored : Stored s
  inodes : ∀ i x, s.inodes i = some x → InodeOk x

variable {s t u : VState} {v d cur : ℕ} {x y : Inode}

theorem inodeOk_congr (hnode : y.rfNode = x.rfNode) (hsize : y.rfSize = x.rfSize)
    (h : InodeOk x) : InodeOk y := by
  unfold InodeOk at *
  rw [hnode, hsize]
  exact h

theorem Kept.congr (h : Kept s) (hi : t.inodes = s.inodes) (hv : t.vnodes = s.vnodes) : Kept t where
  stored := h.stored.congr hi hv
  inodes := hi ▸ h.inodes

theorem Kept.of_tree (h : Kept s) (ht : Stored t)
    (htree : ∀ i x, treeOf t i = some x → treeOf s i = some x) : Kept t where
  stored := ht
  inodes i x hx := by
    obtain ⟨z, hz, hsize, hnode, -⟩ := exists_inode (htree i _ (treeOf_eq hx))
    exact inodeOk_congr hnode.symm hsize.symm (h.inodes i z hz)

theorem inodes_setInode {w : ℕ} {z : Inode} (h : (s.setInode v (some y)).inodes w = some z) :
    (w = v ∧ z = y) ∨ (w ≠ v ∧ s.inodes w = some z) := by
  change update s.inodes v (some y) w = some z at h
  by_cases hw : w = v
  · subst hw
    rw [update_self] at h
    exact .inl ⟨rfl, (Option.some.inj h).symm⟩
  · rw [update_of_ne hw] at h
    exact .inr ⟨hw, h⟩

/-- A change to one inode: it keeps its type if its vnode is in use, and is linked if not. -/
theorem Kept.setInode (h : Kept s)
    (hused : 0 < s.refs v → ∃ x, s.inodes v = some x ∧ y.rfNode.kind = x.rfNode.kind ∧
      (x.rfNode.kind = .reg → y.rfSize = x.rfSize))
    (hidle : s.refs v = 0 → y.rfLinkcount ≠ 0) (hok : InodeOk y) :
    Kept (s.setInode v (some y)) where
  stored := by
    constructor
    · intro w hpos
      obtain ⟨x, vn, hx, hvn, hmode, hlen⟩ := h.stored.inUse w hpos
      by_cases hw : w = v
      · subst hw
        obtain ⟨x', hx', hkind, hsize⟩ := hused hpos
        obtain rfl := Option.some.inj (hx.symm.trans hx')
        refine ⟨y, vn, update_self .., hvn, hmode.trans hkind.symm, fun hreg => ?_⟩
        rw [hlen hreg, hsize (hmode ▸ hreg)]
      · exact ⟨x, vn, (update_of_ne hw _ _).trans hx, hvn, hmode, hlen⟩
    · intro w z hz hzero
      rcases inodes_setInode hz with ⟨rfl, rfl⟩ | ⟨-, hz⟩
      · exact hidle hzero
      · exact h.stored.linked w z hz hzero
  inodes w z hz := by
    rcases inodes_setInode hz with ⟨rfl, rfl⟩ | ⟨-, hz⟩
    · exact hok
    · exact h.inodes w z hz

/-! ### References -/

theorem kept_touch (v : ℕ) : Keeps Kept (touch v) := fun _ h => h.congr rfl rfl

theorem kept_release (v : ℕ) : Keeps Kept (release v) := fun _ h => h.congr rfl rfl

theorem Kept.got (h : Kept s) (hg : Got v s t) : Kept t :=
  h.of_tree hg.stored fun i x hx => by rwa [hg.tree] at hx

theorem vget_kept (h : Kept s) (v : ℕ) :
    Gives (vget v s) fun _ t => Kept t ∧ 0 < t.refs v := by
  cases hx : s.inodes v with
  | none =>
    obtain ⟨halt, hrun⟩ := vget_free h.stored hx
    rw [hrun]
    trivial
  | some x =>
    obtain ⟨t, hrun, hg⟩ := vget_eq h.stored hx
    rw [hrun]
    refine ⟨h.got hg, ?_⟩
    rw [hg.refs, if_pos rfl]
    omega

theorem kept_vget (v : ℕ) : Keeps Kept (vget v) :=
  fun _ h => (vget_kept h v).mono (fun _ _ => trivial) fun _ _ ht => ht.1

theorem Kept.gave (h : Kept s) (hg : Gave v s t) : Kept t := by
  refine h.of_tree hg.stored fun i x hx => ?_
  by_cases hlast : s.refs v = 1 ∧ Unnamed (treeOf s) v
  · rw [hg.freed hlast.1 hlast.2] at hx
    have hi : i ≠ v := by
      rintro rfl
      rw [update_self] at hx
      cases hx
    rwa [update_of_ne hi] at hx
  · rwa [hg.kept hlast] at hx

theorem dropRef_unused (h : s.refs v = 0) : ∃ halt, dropRef v s = .error halt := by
  unfold dropRef
  cases hvn : s.vnodes v with
  | none => exact ⟨_, rfl⟩
  | some vn =>
    have hzero : vn.vnRefcount = 0 := by simpa [VState.refs, hvn] using h
    simp only [if_pos hzero]
    exact ⟨_, rfl⟩

theorem kept_dropRef (v : ℕ) : Keeps Kept (dropRef v) := by
  intro s h
  rcases Nat.eq_zero_or_pos (s.refs v) with hzero | hpos
  · obtain ⟨halt, hrun⟩ := dropRef_unused hzero
    rw [hrun]
    trivial
  · obtain ⟨t, hrun, hg⟩ := dropRef_eq h.stored hpos
    rw [hrun]
    exact h.gave hg

theorem kept_vref (v : ℕ) : Keeps Kept (vref v) := by
  intro s h
  rcases Nat.eq_zero_or_pos (s.refs v) with hzero | hpos
  · unfold vref
    cases hvn : s.vnodes v with
    | none => trivial
    | some vn =>
      have hcount : vn.vnRefcount = 0 := by simpa [VState.refs, hvn] using hzero
      simp only
      rw [if_neg (by omega)]
      trivial
  · obtain ⟨t, hrun, hg⟩ := vref_eq h.stored hpos
    rw [hrun]
    exact h.got hg

theorem kept_vput (v : Option ℕ) : Keeps Kept (vput v) :=
  vput_keeps kept_touch kept_dropRef kept_release v

/-! ### Directories -/

theorem inodeOk_empty : InodeOk ⟨0, 1, .data fun _ => 0⟩ :=
  ⟨le_rfl, by decide, fun _ _ => rfl⟩

theorem inodeOk_emptyDir : InodeOk ⟨0, 1, .dir emptyDir⟩ := List.length_replicate

/-- The new inode takes a place that was free, so nothing refers to it. -/
theorem ramfsAllocInode_kept (h : Kept s) {node : RamfsNode} (hok : InodeOk ⟨0, 1, node⟩) :
    Gives (ramfsAllocInode node s) fun ino t =>
      Kept t ∧ ∀ i, ino = some i → t.refs i = 0 := by
  unfold ramfsAllocInode
  split
  next i hfind =>
    have hfree : s.inodes i = none := by simpa using List.find?_some hfind
    split
    · have hzero := h.stored.refs_of_free hfree
      refine ⟨h.setInode (fun hpos => by omega) (fun _ => one_ne_zero) hok, fun j hj => ?_⟩
      obtain rfl := Option.some.inj hj
      exact hzero
    · exact ⟨h, fun _ hi => nomatch hi⟩
  · exact ⟨h, fun _ hi => nomatch hi⟩

theorem Kept.linked_same (h : Kept s) (hx : s.inodes v = some x)
    (hlinks : y.rfLinkcount = x.rfLinkcount) : s.refs v = 0 → y.rfLinkcount ≠ 0 := fun hzero => by
  rw [hlinks]
  exact h.stored.linked v x hx hzero

theorem Kept.entries (h : Kept s) {size links : ℤ} {es fs : List Dirent}
    (hx : s.inodes d = some ⟨size, links, .dir es⟩) (hlen : fs.length = es.length) (n : ℤ) :
    Kept (s.setInode d (some ⟨n, links, .dir fs⟩)) :=
  h.setInode (fun _ => ⟨_, hx, rfl, fun hreg => nomatch hreg⟩) (h.linked_same hx rfl)
    (hlen.trans (h.inodes d _ hx))

theorem setEntry_kept (h : Kept s) (d i : ℕ) (name : Name) (ino : ℕ) :
    Gives (setEntry d i name ino s) fun _ t =>
      Kept t ∧ ∀ w, t.refs w = s.refs w := by
  unfold setEntry
  split
  next size links es hx => exact ⟨h.entries hx (List.length_set ..) _, fun _ => rfl⟩
  · trivial

theorem clearEntry_kept (h : Kept s) (d : ℕ) (name : Name) :
    Gives (clearEntry d name s) fun _ t =>
      Kept t ∧ ∀ w, t.refs w = s.refs w := by
  unfold clearEntry
  split
  next size links es hx => exact ⟨h.entries hx (List.length_modify ..) _, fun _ => rfl⟩
  · trivial

theorem addLinks_kept (h : Kept s) (hpos : 0 < s.refs v) (n : ℤ) :
    Gives (addLinks v n s) fun _ t => Kept t := by
  obtain ⟨x, vn, hx, -⟩ := h.stored.inUse v hpos
  have hat : inodeAt v s = .ok (x, s) := by rw [inodeAt, hx]
  rw [addLinks, bind_ok hat]
  exact h.setInode (fun _ => ⟨x, hx, rfl, fun _ => rfl⟩) (fun hzero => by omega)
    (inodeOk_congr rfl rfl (h.inodes v x hx))

theorem kept_ramfsCreate (d : ℕ) (name : Name) (result : Option ℕ) :
    Keeps Kept (ramfsCreate d name result) := by
  refine (nameSlot_keeps kept_vget d name).found (keeps_pure _) fun i => ?_
  intro s h
  refine (ramfsAllocInode_kept h inodeOk_empty).bind fun ino t ht => ?_
  cases ino with
  | none => exact ht.1
  | some ino =>
    refine (kept_vget ino t ht.1).bind fun _ u hu => ?_
    exact (setEntry_kept hu d i name ino).bind fun _ w hw => ends_pure hw.1

theorem kept_ramfsMknod (d : ℕ) (name : Name) (mode devid : ℕ) :
    Keeps Kept (ramfsMknod d name mode devid) := by
  refine (nameSlot_keeps kept_vget d name).found (keeps_pure _) fun i => ?_
  refine keeps_ite (fun s h => ?_) (keeps_stop _ _ _)
  have hok : InodeOk ⟨0, 1, if isChr mode then .chr devid else .blk devid⟩ := by
    cases isChr mode <;> trivial
  refine (ramfsAllocInode_kept h hok).bind fun ino t ht => ?_
  cases ino with
  | none => exact ht.1
  | some ino => exact (setEntry_kept ht.1 d i name ino).bind fun _ w hw => ends_pure hw.1

theorem length_dots (ino d : ℕ) : (dots ino d).length = RAMFS_MAX_DIRENT := by
  simp [dots, emptyDir]

theorem kept_ramfsMkdir (d : ℕ) (name : Name) : Keeps Kept (ramfsMkdir d name) := by
  refine (nameSlot_keeps kept_vget d name).found (keeps_pure _) fun i => ?_
  intro s h
  refine (ramfsAllocInode_kept h inodeOk_emptyDir).bind fun ino t ht => ?_
  cases ino with
  | none => exact ht.1
  | some ino =>
    refine (setEntry_kept ht.1 d i name ino).bind fun _ u hu => ?_
    have hzero : u.refs ino = 0 := (hu.2 ino).trans (ht.2 ino rfl)
    cases hx : u.inodes ino with
    | none =>
      rw [bind_error (by rw [inodeAt, hx]; rfl : inodeAt ino u = .error ⟨.panic, u.late⟩)]
      trivial
    | some x =>
      rw [bind_ok (by rw [inodeAt, hx] : inodeAt ino u = .ok (x, u))]
      exact hu.1.setInode (fun hpos => by omega) (hu.1.linked_same hx rfl)
        (length_dots ino d)

theorem remove_kept (h : Kept s) (hpos : 0 < s.refs v) (d : ℕ) (name : Name) (r : Ret) : Gives ((do
      clearEntry d name
      addLinks v (-1)
      vput (some v)
      return r : Vfs Ret) s) fun _ t => Kept t := by
  refine (clearEntry_kept h d name).bind fun _ t ht => ?_
  refine (addLinks_kept ht.1 (ht.2 v ▸ hpos) (-1)).bind fun _ u hu => ?_
  exact (kept_vput (some v) u hu).bind fun _ _ hw => ends_pure hw

theorem ramfsLookup_kept (h : Kept s) (d : ℕ) (name : Name) (result : Option ℕ) :
    Gives (ramfsLookup d name result s) fun r t => Kept t ∧
      (r.1 = .val 0 → ∃ v, r.2 = some v ∧ 0 < t.refs v) := by
  refine (keeps_dirents (Eq s) d s rfl).bind ?_
  rintro es _ rfl
  cases es.find? fun e => e.rdName = name with
  | some e => exact (vget_kept h _).bind fun _ t ht => ends_pure ⟨ht.1, fun _ => ⟨_, rfl, ht.2⟩⟩
  | none => exact ends_pure ⟨h, fun hval => nomatch hval⟩

theorem vnMode_kept (h : Kept s) (v : ℕ) : Gives (vnMode v s) fun _ t =>
    Kept t ∧ ∀ w, t.refs w = s.refs w := by
  rw [vnMode, bind_ok (rfl : touch v s = .ok ((), _))]
  refine (keeps_vnodeAt (Eq _) v _ rfl).bind ?_
  rintro vn _ rfl
  exact ends_pure ⟨h.congr rfl rfl, fun _ => rfl⟩

theorem kept_ramfsUnlink (d : ℕ) (name : Name) : Keeps Kept (ramfsUnlink d name) := by
  intro s h
  refine (ramfsLookup_kept h d name none).bind fun r t ht => ?_
  split
  next hval =>
    obtain ⟨v, hv, hpos⟩ := ht.2 hval
    rw [hv, bind_ok (readOut_some v t)]
    refine (vnMode_kept ht.1 v).bind fun k u hu => ?_
    split
    · trivial
    · exact remove_kept hu.1 (hu.2 v ▸ hpos) d name _
  · trivial

theorem kept_ramfsRmdir (d : ℕ) (name : Name) : Keeps Kept (ramfsRmdir d name) := by
  refine keeps_ite (keeps_stop _ _ _) fun s h => ?_
  refine (ramfsLookup_kept h d name none).bind fun r t ht => ?_
  split
  next hval =>
    obtain ⟨v, hv, hpos⟩ := ht.2 hval
    rw [hv, bind_ok (readOut_some v t)]
    refine (vnMode_kept ht.1 v).bind fun k u hu => ?_
    have hput : ∀ r, Gives ((do
        vput (some v)
        return r : Vfs Ret) u) fun _ t => Kept t := fun r =>
      (kept_vput (some v) u hu.1).bind fun _ _ hw => ends_pure hw
    split
    · refine (keeps_dirents (Eq u) v u rfl).bind ?_
      rintro es _ rfl
      split
      · exact hput _
      · exact remove_kept hu.1 (hu.2 v ▸ hpos) d name _
    · exact hput _
  · exact ends_pure ht.1

theorem kept_rules : VnodeRules (fun _ => True) Kept where
  touch := kept_touch
  vget := kept_vget
  dropRef := kept_dropRef
  release := kept_release
  create := kept_ramfsCreate
  mknod := kept_ramfsMknod
  mkdir := kept_ramfsMkdir
  unlink := kept_ramfsUnlink
  rmdir := kept_ramfsRmdir

/-! ### Whole runs -/

theorem ramfsLink_kept (h : Kept s) {old : ℕ} (hpos : 0 < s.refs old) (d : ℕ) (name : Name)
    (hs : Sane s) : Gives (ramfsLink old d name s) fun _ t => Kept t := by
  refine ((nameSlot_spec hs d name).gives).bind ?_
  rintro slot _ rfl
  cases slot with
  | none => exact h
  | some i =>
    refine (setEntry_kept h d i name old).bind fun _ t ht => ?_
    exact (addLinks_kept ht.1 (ht.2 old ▸ hpos) 1).bind fun _ _ hu => ends_pure hu

theorem doLink_kept (h : Kept s) (hs : Sane s) (source target : List Char) :
    Gives (doLink cur source target s) fun _ t => Kept t := by
  have R := kept_rules
  refine doLink_ends (P := fun _ _ _ => True) hs R h (fun _ => ?_) (fun _ _ => trivial) ?_ ?_
    (fun _ _ _ ht => ht) ?_
  · exact (ends_self _).imp fun _ _ _ _ => (ends_self _).imp fun _ _ _ _ _ _ _ => trivial
  · intro d name u _ hsu hd
    refine ((vnMode_spec hsu hd).gives).bind ?_
    rintro k _ ⟨rfl, -⟩
    split
    · exact ends_pure rfl
    · trivial
  · intro old d name u hu hsu hold
    -- the source is still held, so its vnode is in use when the link is counted
    have hcount := hsu.covered old
    have hmem := List.count_pos_iff.mpr hold
    exact ramfsLink_kept hu (by omega) d name hsu
  · intro old d name v t u _ _ hu
    exact (R.vput _ u hu).bind fun _ a ha => (R.vput _ a ha).bind fun _ b hb => (R.vput _).ret b hb

/-- Both copies of the length change together, and the page stays zero behind the end. -/
theorem kept_ramfsWrite (v : ℕ) (pos : ℤ) (buf : List UInt8) :
    Keeps Kept (ramfsWrite v pos buf) := by
  intro s h
  refine (ramfsWrite_spec s v pos buf).mono (fun _ _ => trivial) ?_
  rintro ret _ ⟨hret, -, x, vn, page, hx, hvn, hpage, hlen, rfl⟩
  have hrefs := VnodeBalance.refs_written hvn x page pos ret buf
  have hinodes : ∀ w z, (written s v x vn page pos ret buf).inodes w = some z →
      (w = v ∧ z = { x with
        rfSize := max vn.vnLen (pos+ret), rfNode := .data (copyIn page pos ret buf) }) ∨
      (w ≠ v ∧ s.inodes w = some z) := fun w z hz => inodes_setInode hz
  have hold := h.inodes v x hx
  rw [InodeOk, hpage] at hold
  refine ⟨⟨fun w hpos => ?_, fun w z hz hzero => ?_⟩, fun w z hz => ?_⟩
  · rw [hrefs] at hpos
    obtain ⟨x', vn', hx', hvn', hmode, hsize⟩ := h.stored.inUse w hpos
    by_cases hw : w = v
    · subst hw
      obtain rfl := Option.some.inj (hx.symm.trans hx')
      obtain rfl := Option.some.inj (hvn.symm.trans hvn')
      rw [hpage] at hmode
      exact ⟨_, _, update_self .., update_self .., hmode, fun _ => rfl⟩
    · exact ⟨x', vn', (update_of_ne hw _ _).trans hx',
        (update_of_ne hw _ _).trans hvn', hmode, hsize⟩
  · rw [hrefs] at hzero
    rcases hinodes w z hz with ⟨rfl, rfl⟩ | ⟨-, hz⟩
    · exact h.stored.linked w x hx hzero
    · exact h.stored.linked w z hz hzero
  · rcases hinodes w z hz with ⟨rfl, rfl⟩ | ⟨-, hz⟩
    · refine ⟨?_, ?_, fun i hi => ?_⟩
      · change 0 ≤ max vn.vnLen (pos+ret)
        omega
      · change max vn.vnLen (pos+ret) ≤ PAGE_SIZE
        omega
      · change max vn.vnLen (pos+ret) ≤ i at hi
        rw [copyIn, if_neg (by omega)]
        exact hold.2.2 i (by omega)
    · exact h.inodes w z hz

theorem kept_descriptors : DescriptorRules Kept where
  file h _ _ := h.congr rfl rfl
  fresh h := h.congr rfl rfl
  empty h _ _ := h.congr rfl rfl
  last h _ _ := (kept_dropRef _ _ h).mono (fun _ _ => trivial) fun _ _ ht => ht.congr rfl rfl
  slot _ _ _ h := h.congr rfl rfl
  write := kept_ramfsWrite
  process _ h _ := (kept_vref _ _ h).mono (fun _ _ => trivial) fun _ _ ht => ht.congr rfl rfl
  daemon _ h _ := h.congr rfl rfl

theorem kept_calls : CallRules Kept where
  toVnodeRules := kept_rules
  toDescriptorRules := kept_descriptors
  vref := kept_vref
  cwd _ _ _ h := h.congr rfl rfl
  finish h _ _ _ _ := h.congr rfl rfl
  enter h := h.congr rfl rfl
  memory _ h := h.congr rfl rfl

theorem perform_kept (h : Kept s) (cur : ℕ) (c : VfsCall) :
    Gives (perform cur c s.enter) fun _ t => Kept t :=
  kept_calls.perform h cur
    (doLink_kept (kept_calls.enter h) ⟨rfl, fun _ => Nat.zero_le _⟩) c

theorem Kept.step {e : ℕ × VfsCall} (h : Kept s) (hs : VfsStep s e t) : Kept t :=
  hs.of_ends (perform_kept h e.1 e.2)

theorem Kept.run {good : VState → ℕ × VfsCall → Prop} {es : List (ℕ × VfsCall)} (h : Kept s)
    (hrun : Run VfsStep good s es t) : Kept t :=
  hrun.invariant (fun _ _ _ _ hstep hi => hi.step hstep) h

theorem kept_booted : Kept booted where
  stored := by
    constructor
    · intro v hpos
      have hv : v = 0 := by
        by_contra hne
        simp [VState.refs, booted, hne] at hpos
      subst hv
      exact ⟨_, _, rfl, rfl, rfl, by simp⟩
    · intro v x hx hzero
      have hv : v = 0 := by
        by_contra hne
        simp [booted, hne] at hx
      subst hv
      cases hzero
  inodes i x hx := by
    have hi : i = 0 := by
      by_contra hne
      simp [booted, hne] at hx
    subst hi
    obtain rfl := Option.some.inj hx
    exact length_dots 0 0

end SystemsProjects.KeptInodes
