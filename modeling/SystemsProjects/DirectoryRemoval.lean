import SystemsProjects.PathResolution

/-!
# Removal of a directory

`do_rmdir` resolves all but the last component and hands the last one to `ramfs_rmdir`, which
frees the entry of an empty directory. A last component that is empty gets there as well: a path
that ends in a slash, or that is only one. Free entries have empty names, so the search then finds
a free entry, and what it refers to is whatever was left there.

Otherwise the call either fails and leaves the tree as it was, or it takes out one entry. The
inode of the directory goes with it unless it is still in use.
-/
namespace SystemsProjects.DirectoryRemoval
open Function CallOutcomes VfsState RamfsOperations PathCalls VfsCalls VfsFrames VnodeCache
  PathResolution
open GuardedRuns

variable {s t u : VState} {l : List ℕ} {v d cur : ℕ} {x y : Inode} {name : Name}

variable {es : List Dirent}

section Changes

theorem vput_gave (hs : Stored s) (hpos : 0 < s.refs v) :
    ∃ t, vput (some v) s = .ok ((), t) ∧ Gave v s t := by
  obtain ⟨t, ht, hg⟩ := dropRef_eq
    (s := { s with late := s.late || !s.held.contains v }) (hs.congr rfl rfl) hpos
  rw [vput, bind_ok (rfl : touch v s = .ok ((), _)), bind_ok ht]
  exact ⟨_, rfl, hg.stored.congr rfl rfl, hg.refs, hg.kept, hg.freed,
    ⟨hg.files.procs, hg.files.files, hg.files.nextFile, hg.files.memory, hg.files.opened,
      hg.files.closed⟩⟩

theorem stored_setInode (h : Stored s) (hpos : 0 < s.refs v) (hx : s.inodes v = some x)
    (hkind : y.rfNode.kind = x.rfNode.kind)
    (hsize : x.rfNode.kind = .reg → y.rfSize = x.rfSize) : Stored (s.setInode v (some y)) := by
  obtain ⟨x', vn, hx', hvn, hcount, hmode, hlen⟩ := h.exists_vnode hpos
  obtain rfl := Option.some.inj (hx.symm.trans hx')
  refine h.replace (v := v) (x := y) (n := vn) rfl ?_ (hmode.trans hkind.symm) (fun hreg => ?_) ?_
  · exact (update_eq_self_iff.mpr hvn.symm).symm
  · rw [hlen hreg, hsize (hmode ▸ hreg)]
  · intro hzero
    omega

theorem treeOf_setInode (hpos : 0 < s.refs v) (y : Inode) : treeOf (s.setInode v (some y))
    = update (treeOf s) v (some { y with rfLinkcount := y.rfLinkcount-1 }) := by
  funext w
  by_cases hw : w = v
  · subst hw
    rw [update_self, treeOf_eq (update_self ..)]
    simp [show (s.setInode w (some y)).refs w = s.refs w from rfl, hpos]
  · rw [update_of_ne hw]
    exact treeOf_at (update_of_ne hw _ _) rfl

/-- The directory with the first entry of that name free. -/
def withoutEntry (x : Inode) (name : Name) : Inode :=
  match x.rfNode with
  | .dir es => { x with
      rfSize := x.rfSize-direntSize
      rfNode := .dir (es.modify (es.findIdx fun e => e.rdName = name)
        fun e => { e with rdName := [] }) }
  | _ => x

theorem clearEntry_eq (hx : s.inodes d = some x) (hes : x.rfNode = .dir es) (name : Name) :
    clearEntry d name s = .ok ((), s.setInode d (some (withoutEntry x name))) := by
  obtain ⟨size, links, node⟩ := x
  obtain rfl : node = .dir es := hes
  simp only [clearEntry, hx, withoutEntry]

theorem addLinks_eq (hx : s.inodes v = some x) (n : ℤ) : addLinks v n s
    = .ok ((), s.setInode v (some { x with rfLinkcount := x.rfLinkcount+n })) := by
  have hat : inodeAt v s = .ok (x, s) := by rw [inodeAt, hx]
  rw [addLinks, bind_ok hat]
  rfl

/-- The tree with the entry taken out of `d` and one link less for `v`. -/
def removeEntry (T : ℕ → Option Inode) (d v : ℕ) (name : Name) : ℕ → Option Inode :=
  let T' := update T d ((T d).map (withoutEntry · name))
  update T' v ((T' v).map fun y => { y with rfLinkcount := y.rfLinkcount-1 })

theorem withoutEntry_links (x : Inode) (name : Name) :
    (withoutEntry x name).rfLinkcount = x.rfLinkcount := by
  unfold withoutEntry
  split <;> rfl

theorem withoutEntry_kind (x : Inode) (name : Name) :
    (withoutEntry x name).rfNode.kind = x.rfNode.kind := by
  obtain ⟨size, links, node⟩ := x
  cases node <;> rfl

theorem removeEntry_lent (name : Name) (h : Lent (v::d::l) s t) (hx : treeOf s d = some x)
    (hes : x.rfNode = .dir es) :
    ∃ u, (do
      clearEntry d name
      addLinks v (-1) : Vfs Unit) t = .ok ((), u) ∧ Stored u ∧
      treeOf u = removeEntry (treeOf s) d v name ∧ (∀ w, u.refs w = t.refs w) ∧ SameFiles s u := by
  have hd : 0 < t.refs d := by
    rw [h.refs]
    exact Nat.add_pos_right _ (List.count_pos_iff.mpr (by simp))
  have hv : 0 < t.refs v := by
    rw [h.refs]
    exact Nat.add_pos_right _ (List.count_pos_iff.mpr (by simp))
  have hxt := hx
  rw [← h.tree] at hxt
  obtain ⟨x', hx', hsize, hnode, hlinks⟩ := exists_inode hxt
  rw [if_pos hd] at hlinks
  rw [bind_ok (clearEntry_eq hx' (hnode.trans hes) name)]
  -- what the directory looks like now, in the state and in its tree
  let t₁ := t.setInode d (some (withoutEntry x' name))
  have hst₁ : Stored t₁ := by
    refine stored_setInode h.stored hd hx' (withoutEntry_kind x' name) fun hreg => ?_
    rw [hnode, hes] at hreg
    cases hreg
  have hwithout : ({ withoutEntry x' name with
      rfLinkcount := (withoutEntry x' name).rfLinkcount-1 } : Inode) = withoutEntry x name := by
    rw [withoutEntry_links, hlinks]
    obtain ⟨size', links', node'⟩ := x'
    obtain ⟨size, links, node⟩ := x
    obtain rfl : size' = size := hsize
    obtain rfl : node' = node := hnode
    obtain rfl : node' = .dir es := hes
    simp [withoutEntry]
  have htree₁ : treeOf t₁
      = update (treeOf s) d ((treeOf s d).map (withoutEntry · name)) := by
    rw [treeOf_setInode hd, hwithout, h.tree, hx]
    rfl
  have hv₁ : 0 < t₁.refs v := hv
  obtain ⟨y, vn, hy, -⟩ := hst₁.inUse v hv₁
  rw [addLinks_eq hy]
  refine ⟨_, rfl, stored_setInode hst₁ hv₁ hy rfl (fun _ => rfl), ?_, fun _ => rfl,
    of_eq h.files rfl rfl rfl rfl rfl rfl⟩
  rw [treeOf_setInode hv₁, removeEntry, ← htree₁, treeOf_eq hy, if_pos hv₁]
  rfl

/-- The call has taken out the entry, and with it the inode if nothing uses it. -/
structure Removed (d v : ℕ) (name : Name) (s t : VState) : Prop where
  stored : Stored t
  refs : ∀ w, t.refs w = s.refs w
  files : SameFiles s t
  kept : ¬(s.refs v = 0 ∧ Unnamed (removeEntry (treeOf s) d v name) v) →
    treeOf t = removeEntry (treeOf s) d v name
  freed : s.refs v = 0 → Unnamed (removeEntry (treeOf s) d v name) v →
    treeOf t = update (removeEntry (treeOf s) d v name) v none

/-- The directory that held the entry keeps its links, so it stays when it is put. -/
theorem not_unnamed_parent (name : Name) (hs : Stored s) (hx : treeOf s d = some x) (hne : d ≠ v)
    (hzero : s.refs d = 0) {T : ℕ → Option Inode} (hT : T d = removeEntry (treeOf s) d v name d) :
    ¬Unnamed T d := by
  rintro ⟨z, hz, hlinks⟩
  rw [hT, removeEntry, update_of_ne hne, update_self, hx] at hz
  obtain rfl := Option.some.inj hz
  obtain ⟨x', hx', -, -, hcount⟩ := exists_inode hx
  rw [if_neg (by omega)] at hcount
  rw [withoutEntry_links] at hlinks
  exact hs.linked d x' hx' hzero (by omega)

theorem put_both (hs : Stored s) (hx : treeOf s d = some x) (hu : Stored u)
    (htree : treeOf u = removeEntry (treeOf s) d v name)
    (hrefs : ∀ w, u.refs w = s.refs w+[v, d].count w) (hfiles : SameFiles s u) {α : Type} (r : α) :
    ∃ w t, vput (some v) u = .ok ((), w) ∧ (do
      vput (some d)
      return r : Vfs α) w = .ok (r, t) ∧ Removed d v name s t := by
  have hcount : ∀ w, [v, d].count w = (if w = v then 1 else 0)+if w = d then 1 else 0 := by
    intro w
    simp only [List.count_cons, List.count_nil, beq_iff_eq, eq_comm (b := w)]
    omega
  have hv := hrefs v
  rw [hcount, if_pos rfl] at hv
  obtain ⟨w, hw, hpw⟩ := vput_gave (v := v) hu (by omega)
  have hd := hpw.refs d
  have hdu := hrefs d
  rw [hcount, if_pos rfl] at hdu
  have hdw : 0 < w.refs d := by
    by_cases hne : d = v
    · subst hne
      rw [if_pos rfl] at hd hv
      omega
    · rw [if_neg hne] at hd hdu
      omega
  obtain ⟨t, ht, hpt⟩ := vput_gave (v := d) hpw.stored hdw
  refine ⟨w, t, hw, by rw [bind_ok ht]; rfl, hpt.stored, fun z => ?_,
    (hfiles.trans hpw.files).trans hpt.files, ?_, ?_⟩
  · have h₁ := hpt.refs z
    have h₂ := hpw.refs z
    have h₃ := hrefs z
    rw [hcount] at h₃
    omega
  · intro hnot
    by_cases hne : d = v
    · subst hne
      rw [if_pos rfl] at hd hv
      have hkept := hpw.kept (by omega)
      rw [hpt.kept, hkept, htree]
      rintro ⟨hone, hun⟩
      rw [hkept, htree] at hun
      exact hnot ⟨by omega, hun⟩
    · rw [if_neg hne] at hd hdu
      rw [if_neg (Ne.symm hne)] at hv
      have hkept := hpw.kept (by
        rintro ⟨hone, hun⟩
        rw [htree] at hun
        exact hnot ⟨by omega, hun⟩)
      rw [hpt.kept, hkept, htree]
      rintro ⟨hone, hun⟩
      exact not_unnamed_parent name hs hx hne (by omega) (by rw [hkept, htree]) hun
  · intro hzero hun
    by_cases hne : d = v
    · subst hne
      rw [if_pos rfl] at hd hv
      have hkept := hpw.kept (by omega)
      rw [hpt.freed (by omega) (by rw [hkept, htree]; exact hun), hkept, htree]
    · rw [if_neg hne] at hd hdu
      rw [if_neg (Ne.symm hne)] at hv
      have hfreed := hpw.freed (by omega) (by rw [htree]; exact hun)
      rw [hpt.kept, hfreed, htree]
      rintro ⟨hone, hund⟩
      refine not_unnamed_parent name hs hx hne (by omega) ?_ hund
      rw [hfreed, htree, update_of_ne hne]

end Changes

section Calls

variable {path : List Char}

def entriesOf (T : ℕ → Option Inode) (d : ℕ) : List Dirent :=
  match (T d).map Inode.rfNode with
  | some (.dir es) => es
  | _ => []

theorem entriesOf_eq {T : ℕ → Option Inode} (hx : T d = some x) (hes : x.rfNode = .dir es) :
    entriesOf T d = es := by
  rw [entriesOf, hx, Option.map_some, hes]

/-- The entry that a search for the name finds in a directory. -/
def entryOf (T : ℕ → Option Inode) (d : ℕ) (name : Name) : Option Dirent :=
  (entriesOf T d).find? fun e => e.rdName = name

/-- A directory with no entries besides `.` and `..`. -/
def IsEmptyDir (y : Inode) : Prop := ∃ fs, y.rfNode = .dir fs ∧ fs.any Dirent.named = false

/-- What the last component names in a directory: the first entry with it, which refers to an
empty directory. -/
def EmptyDirectory (T : ℕ → Option Inode) (d : ℕ) (name : Name) (v : ℕ) : Prop :=
  ∃ e y, entryOf T d name = some e ∧ e.rdIno = v ∧ T v = some y ∧ IsEmptyDir y

/-- `ramfs_rmdir` and the reference to the directory that is given back behind it. The search
stops if the entry that it finds refers to no inode. -/
theorem ramfsRmdir_ends (hs : Stored s) (h : Lent [d] s t) (hx : treeOf s d = some x)
    (hes : x.rfNode = .dir es) (hdot : name ≠ ['.']) (hdots : name ≠ ['.', '.']) :
    Ends ((do
      let rem ← ramfsRmdir d name
      vput (some d)
      return rem : Vfs Ret) t)
      (fun _ => ∃ e, entryOf (treeOf s) d name = some e ∧ ¬(treeOf s e.rdIno).isSome) fun r u =>
      (∀ e, entryOf (treeOf s) d name = some e → (treeOf s e.rdIno).isSome) ∧
      ((∃ e, r = .err e ∧ Lent [] s u ∧ ∀ v, ¬EmptyDirectory (treeOf s) d name v) ∨
        ∃ v, r = .val 0 ∧ EmptyDirectory (treeOf s) d name v ∧ Removed d v name s u) := by
  simp only [EmptyDirectory, entryOf, entriesOf_eq hx hes]
  rw [ramfsRmdir, if_neg (not_or.mpr ⟨hdot, hdots⟩), bind_assoc]
  refine (ramfsLookup_ends h hx hes name none).bind ?_
  rintro r₁ t₁ (⟨e, hfind, hthere, rfl, hl⟩ | ⟨hfind, rfl, rfl⟩)
  · obtain ⟨y, t₂, hy, hmode, hl₂⟩ := vnMode_lent hl
    rw [if_pos rfl, bind_assoc, bind_ok (readOut_some e.rdIno t₁), bind_assoc, bind_ok hmode, hfind]
    have hentry : ∀ e', some e = some e' → (treeOf s e'.rdIno).isSome := by
      intro e' he'
      obtain rfl := Option.some.inj he'
      exact hthere
    -- the ways out with an error, for something else than an empty directory
    have herr (r : VfsErrno) (hno : ¬IsEmptyDir y) : Ends ((do
        let rem ← (do
          vput (some e.rdIno)
          return Ret.err r : Vfs Ret)
        vput (some d)
        return rem : Vfs Ret) t₂) (fun _ => ∃ e', some e = some e' ∧ ¬(treeOf s e'.rdIno).isSome)
        fun r u => (∀ e', some e = some e' → (treeOf s e'.rdIno).isSome) ∧
        ((∃ e', r = .err e' ∧ Lent [] s u ∧ ∀ v, ¬∃ e' y, some e = some e' ∧ e'.rdIno = v ∧
          treeOf s v = some y ∧ IsEmptyDir y) ∨ ∃ v, r = .val 0 ∧ (∃ e' y, some e = some e' ∧
          e'.rdIno = v ∧ treeOf s v = some y ∧ IsEmptyDir y) ∧ Removed d v name s u) := by
      obtain ⟨w, hw, hlw⟩ := put_lent hs hl₂ (Ret.err r)
      obtain ⟨u, hu, hlu⟩ := put_lent hs hlw (Ret.err r)
      rw [bind_ok hw, hu]
      refine ⟨hentry, .inl ⟨r, rfl, hlu, ?_⟩⟩
      rintro _ ⟨e', z, he', rfl, hz, hempty⟩
      obtain rfl := Option.some.inj he'
      obtain rfl := Option.some.inj (hy.symm.trans hz)
      exact hno hempty
    by_cases hdir : y.rfNode.kind = .dir
    · obtain ⟨fs, hfs⟩ : ∃ fs, y.rfNode = .dir fs := by
        cases hnode : y.rfNode <;> simp [hnode, RamfsNode.kind] at hdir ⊢
      rw [if_pos hdir, bind_assoc, bind_ok (dirents_lent hl₂ hy hfs)]
      cases hany : fs.any Dirent.named with
      | true =>
        refine herr .enotempty ?_
        rintro ⟨fs', hfs', hempty⟩
        obtain rfl := RamfsNode.dir.inj (hfs.symm.trans hfs')
        cases hany.symm.trans hempty
      | false =>
        obtain ⟨u, hu, hst, htree, hrefs, hfiles⟩ := removeEntry_lent name hl₂ hx hes
        have hcount : ∀ w, u.refs w = s.refs w+[e.rdIno, d].count w := by
          intro w
          rw [hrefs, hl₂.refs]
        obtain ⟨w, z, hw, hz, hrem⟩ := put_both hs hx hst htree hcount hfiles (Ret.val 0)
        obtain ⟨⟨⟩, t₃, h₁, h₂⟩ := run_bind_eq_ok.mp hu
        have hrun : (do
            clearEntry d name
            addLinks e.rdIno (-1)
            vput (some e.rdIno)
            return Ret.val 0 : Vfs Ret) t₂ = .ok (.val 0, w) := by
          rw [bind_ok h₁, bind_ok h₂, bind_ok hw]
          rfl
        rw [if_neg (by simp), bind_ok hrun, hz]
        exact ⟨hentry, .inr ⟨e.rdIno, rfl, ⟨e, y, rfl, rfl, hy, fs, hfs, hany⟩, hrem⟩⟩
    · rw [if_neg hdir]
      refine herr .enotdir ?_
      rintro ⟨fs, hfs, -⟩
      exact hdir (by rw [hfs]; rfl)
  · obtain ⟨u, hu, hlu⟩ := put_lent hs h (Ret.err .enoent)
    rw [if_neg (by simp), pure_bind, hu, hfind]
    refine ⟨fun _ he => (by cases he), .inl ⟨.enoent, rfl, hlu, ?_⟩⟩
    rintro _ ⟨_, _, he, -⟩
    cases he

/-- The last component, with what it stands for in the directory that the others lead to. -/
def LastOf (s : VState) (cur : ℕ) (path : List Char) (dir : ℕ) : Prop :=
  ∃ d, startOf s cur path none = some d ∧
    resolve (treeOf s) d (components (relative path)).1 = .ok dir

/-- The call fails and leaves everything as it was, or it removes the entry of the empty directory
that the path names. -/
def RemovesExactly (cur : ℕ) (path : List Char) (s : VState) : Prop :=
  ∃ r u, doRmdir cur path s = .ok (r, u) ∧
    ((∃ e, r = .err e ∧ Lent [] s u) ∨
      ∃ dir v, r = .val 0 ∧ LastOf s cur path dir ∧ (components (relative path)).2 ≠ [] ∧
        EmptyDirectory (treeOf s) dir (components (relative path)).2 v ∧
        Removed dir v (components (relative path)).2 s u)

/-- The path is empty, or nothing on its way makes the kernel stop, the entry that the search for
the last component finds refers to an inode, and this is not an empty directory if the component
is empty. -/
def Removable (s : VState) (cur : ℕ) (path : List Char) : Prop :=
  path = [] ∨ Walkable s cur path none (components (relative path)).1 ∧
    ∀ dir e, LastOf s cur path dir → (components (relative path)).2 ≠ ['.'] →
      (components (relative path)).2 ≠ ['.', '.'] →
      entryOf (treeOf s) dir (components (relative path)).2 = some e →
      ∃ y, treeOf s e.rdIno = some y ∧ ((components (relative path)).2 = [] → ¬IsEmptyDir y)

/-- What `do_rmdir` does, for any last component. -/
theorem doRmdir_ends (cur : ℕ) (hs : Stored s) (hne : path ≠ []) :
    Ends (doRmdir cur path s) (fun _ => ¬Removable s cur path) fun r u =>
      Walkable s cur path none (components (relative path)).1 ∧
      ((∃ e, r = .err e ∧ Lent [] s u ∧ Removable s cur path) ∨
      ∃ dir v, r = .val 0 ∧ LastOf s cur path dir ∧ (components (relative path)).2 ≠ ['.'] ∧
        (components (relative path)).2 ≠ ['.', '.'] ∧
        EmptyDirectory (treeOf s) dir (components (relative path)).2 v ∧
        Removed dir v (components (relative path)).2 s u) := by
  rw [doRmdir]
  refine ((dirNamev_ends hs none hne).mono (fun _ hno hok => ?_) fun _ _ hu => hu).bind ?_
  · exact hno (hok.resolve_left hne).1
  rintro out t ⟨hwalk, d, hd, ⟨e, hres, hout, hl⟩ | ⟨dir, hres, rfl, hl⟩⟩
  · rw [if_pos (by rw [hout]; rfl), hout]
    refine ⟨hwalk, .inl ⟨e, rfl, hl, .inr ⟨hwalk, ?_⟩⟩⟩
    rintro dir e' ⟨d', hd', hdir⟩
    obtain rfl := Option.some.inj (hd.symm.trans hd')
    cases hres.symm.trans hdir
  have hlast {dir' : ℕ} (h : LastOf s cur path dir') : dir' = dir := by
    obtain ⟨d', hd', hdir⟩ := h
    obtain rfl := Option.some.inj (hd.symm.trans hd')
    exact Except.ok.inj (hdir.symm.trans hres)
  rw [if_neg (by simp [Ret.failed]), bind_ok (readOut_some dir t), bind_ok (readOut_some _ t)]
  by_cases hdot : (components (relative path)).2 = ['.']
  · obtain ⟨u, hu, hlu⟩ := put_lent hs hl (Ret.err .einval)
    rw [if_pos hdot, hu]
    exact ⟨hwalk, .inl ⟨_, rfl, hlu, .inr ⟨hwalk, fun _ _ _ hno => absurd hdot hno⟩⟩⟩
  rw [if_neg hdot]
  by_cases hdots : (components (relative path)).2 = ['.', '.']
  · obtain ⟨u, hu, hlu⟩ := put_lent hs hl (Ret.err .enotempty)
    rw [if_pos hdots, hu]
    exact ⟨hwalk, .inl ⟨_, rfl, hlu, .inr ⟨hwalk, fun _ _ _ _ hno => absurd hdots hno⟩⟩⟩
  rw [if_neg hdots]
  obtain ⟨x, t₁, hx, hmode, hl₁⟩ := vnMode_lent hl
  rw [bind_ok hmode]
  by_cases hdir : x.rfNode.kind = .dir
  · obtain ⟨es, hes⟩ : ∃ es, x.rfNode = .dir es := by
      cases hnode : x.rfNode <;> simp [hnode, RamfsNode.kind] at hdir ⊢
    obtain ⟨x', t₂, hx', hmode₂, hl₂⟩ := vnMode_lent hl₁
    obtain rfl := Option.some.inj (hx.symm.trans hx')
    have hop : dirOp dir t₁ = .ok ((), t₂) := by
      rw [dirOp, bind_ok hmode₂, if_pos hdir]
      rfl
    rw [if_neg (not_not.mpr hdir), bind_ok hop]
    refine (ramfsRmdir_ends hs hl₂ hx hes hdot hdots).mono ?_ ?_
    · rintro _ ⟨e, he, hlost⟩ hok
      obtain ⟨y, hy, -⟩ := (hok.resolve_left hne).2 dir e ⟨d, hd, hres⟩ hdot hdots he
      exact hlost (Option.isSome_of_eq_some hy)
    · rintro r u ⟨hthere, ⟨e, rfl, hlu, hno⟩ | ⟨v, rfl, hempty, hrem⟩⟩
      · refine ⟨hwalk, .inl ⟨e, rfl, hlu, .inr ⟨hwalk, fun dir' e' hdir' _ _ he' => ?_⟩⟩⟩
        obtain rfl := hlast hdir'
        obtain ⟨y, hy⟩ := Option.isSome_iff_exists.mp (hthere e' he')
        exact ⟨y, hy, fun _ hempty => hno e'.rdIno ⟨e', y, he', rfl, hy, hempty⟩⟩
      · exact ⟨hwalk, .inr ⟨dir, v, rfl, ⟨d, hd, hres⟩, hdot, hdots, hempty, hrem⟩⟩
  · obtain ⟨u, hu, hlu⟩ := put_lent hs hl₁ (Ret.err .enotdir)
    rw [if_pos hdir, hu]
    refine ⟨hwalk, .inl ⟨_, rfl, hlu, .inr ⟨hwalk, fun dir' e' hdir' _ _ he' => ?_⟩⟩⟩
    obtain rfl := hlast hdir'
    have hnone : entriesOf (treeOf s) dir' = [] := by
      rw [entriesOf, hx, Option.map_some]
      cases hnode : x.rfNode <;> simp [hnode, RamfsNode.kind] at hdir ⊢
    rw [entryOf, hnone] at he'
    cases he'

/-- `do_rmdir` removes exactly what the path names exactly if it can come to its end and does not
take a free entry, which an empty last component finds, for that of an empty directory. -/
theorem doRmdir_exact (hs : Stored s) : RemovesExactly cur path s ↔ Removable s cur path := by
  by_cases hne : path = []
  · subst hne
    exact iff_of_true ⟨_, s, rfl, .inl ⟨.einval, rfl, .refl hs⟩⟩ (.inl rfl)
  have hends := doRmdir_ends cur hs hne
  cases hrun : doRmdir cur path s with
  | error halt =>
    refine iff_of_false ?_ (hends.of_error hrun)
    rintro ⟨r, u, hok, -⟩
    cases hrun.symm.trans hok
  | ok p =>
    obtain ⟨r, u⟩ := p
    obtain ⟨hwalk, ⟨e, rfl, hl, hok⟩ | ⟨dir, v, rfl, hdir, hdot, hdots, hempty, hrem⟩⟩ :=
      hends.of_ok hrun
    · exact iff_of_true ⟨_, u, hrun, .inl ⟨e, rfl, hl⟩⟩ hok
    by_cases hnil : (components (relative path)).2 = []
    · refine iff_of_false ?_ fun hok => ?_
      · rintro ⟨r, u', hrun', ⟨e, rfl, -⟩ | ⟨-, -, -, -, hname, -⟩⟩
        · cases (outcome_inj (hrun.symm.trans hrun')).1
        · exact hname hnil
      · obtain ⟨e, y, he, rfl, hy, hyempty⟩ := hempty
        obtain ⟨z, hz, hno⟩ := (hok.resolve_left hne).2 dir e hdir hdot hdots he
        obtain rfl := Option.some.inj (hy.symm.trans hz)
        exact hno hnil hyempty
    · refine iff_of_true ⟨_, u, hrun, .inr ⟨dir, v, rfl, hdir, hnil, hempty, hrem⟩⟩ ?_
      refine .inr ⟨hwalk, fun dir' e' hdir' _ _ he' => ?_⟩
      obtain ⟨e, y, he, rfl, hy, -⟩ := hempty
      obtain ⟨d, hd, hres⟩ := hdir
      obtain ⟨d', hd', hres'⟩ := hdir'
      obtain rfl := Option.some.inj (hd.symm.trans hd')
      obtain rfl := Except.ok.inj (hres.symm.trans hres')
      obtain rfl := Option.some.inj (he.symm.trans he')
      exact ⟨y, hy, fun h => absurd h hnil⟩

def withSubdirectory : VState :=
  { booted with inodes := fun i => match i with
      | 0 => some ⟨3*direntSize, 2, .dir ((dots 0 0).set 2 ⟨1, ['a']⟩)⟩
      | 1 => some ⟨2*direntSize, 1, .dir (dots 1 0)⟩
      | _ => none }

theorem stored_withSubdirectory : Stored withSubdirectory where
  inUse v hpos := by
    have hv : v = 0 := by
      by_contra hne
      simp [VState.refs, withSubdirectory, booted, hne] at hpos
    subst hv
    exact ⟨_, _, rfl, rfl, rfl, by simp⟩
  linked v x hx hzero := by
    unfold withSubdirectory at hx
    simp only at hx
    split at hx
    · cases hzero
    · cases hx
      decide
    · cases hx

theorem subdirectory_is_removed :
    (doRmdir 0 ['a'] withSubdirectory).toOption.map Prod.fst = some (.val 0) ∧
    RemovesExactly 0 ['a'] withSubdirectory := by
  refine ⟨by decide +kernel, (doRmdir_exact stored_withSubdirectory).mpr
    (.inr ⟨⟨by decide, 0, rfl, rfl⟩, ?_⟩)⟩
  rintro dir e ⟨d, hd, hdir⟩ - - he
  obtain rfl := Option.some.inj hd
  obtain rfl := Except.ok.inj hdir
  have hentry : entryOf (treeOf withSubdirectory) 0 ['a'] = some ⟨1, ['a']⟩ := by decide +kernel
  obtain rfl := Option.some.inj (hentry.symm.trans he)
  exact ⟨_, rfl, fun h => nomatch h⟩

/-- A path that ends in a slash. For the root the call succeeds and removes nothing, and the root
has lost a link and an entry of its size; in a directory from which a file has been removed, the
search comes to the inode that is gone. -/
theorem slash_removes_a_free_entry : (∃ t, doRmdir 0 ['/'] booted = .ok (.val 0, t) ∧
      entriesOf (treeOf t) 0 = entriesOf (treeOf booted) 0 ∧
      (treeOf booted 0).map (fun x => (x.rfLinkcount, x.rfSize)) = some (1, 64) ∧
      (treeOf t 0).map (fun x => (x.rfLinkcount, x.rfSize)) = some (0, 32)) ∧
    ∃ t, Run VfsStep (fun _ _ => True) booted
      [(0, .mkdir ['a']), (0, .openFile ['a', '/', 'f'] 0x100), (0, .close 0),
        (0, .unlink ['a', '/', 'f'])] t ∧
      (match doRmdir 0 ['a', '/'] t with
        | .error h => h.fault = .panic
        | .ok _ => False) := by
  refine ⟨by decide +kernel, (FileReferences.exists_run_vfs _ _ (P := fun t =>
    PathCallSafety.faultOf (doRmdir 0 ['a', '/'] t) = some .panic) (by decide +kernel)).imp
      fun t h => ⟨h.1, ?_⟩⟩
  have hfault := h.2
  split
  next hrun => simpa [PathCallSafety.faultOf, hrun] using hfault
  next hrun => simp [PathCallSafety.faultOf, hrun] at hfault

end Calls

end SystemsProjects.DirectoryRemoval
